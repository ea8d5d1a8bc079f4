import Machining.Proofs.Program.Layout

/-!
# Programs by lines

A program text is cut at its line feeds, each line loses at most one carriage return, and what is
left becomes a block numbered from one.  No line knows of the others but for its number.  So the
blocks of two texts with a line feed between them are the blocks of the one and those of the other
further down, the texts of the blocks give back a source that loses no carriage return, and lines
may end with a line feed alone or with a carriage return in front of it.

* `Text.split_append`, `Text.length_split` — a text is cut at each separator;
* `Program.parse_eq_mapIdx` — a block is the block of its line, under its number;
* `Program.line_of_parse` — the lines of a program are its blocks, counted from one;
* `Program.intercalate_dropReturn_iff` — the sources that lose no carriage return;
* `Program.map_dropReturn_lines_withReturns` — lines may end in either way;
* `Program.parse_concatenates` — all of this for program texts.
-/

set_option autoImplicit false

namespace Machining

namespace Text

variable {separator : Char}

theorem split_eq_splitOn (cs : List Char) : split separator cs = cs.splitOn separator := by
  induction cs with
  | nil => rfl
  | cons c cs ih =>
    rw [List.splitOn_cons_eq_if_modifyHead, ← ih]
    by_cases hc : c = separator
    · rw [hc, split_cons_self, if_pos (beq_self_eq_true separator)]
    · rw [split_cons_of_ne hc, if_neg fun h => hc (beq_iff_eq.1 h)]

/-- **A text is cut at a separator**: the pieces in front of it, then the pieces behind it. -/
theorem split_append (a b : List Char) :
    split separator (a ++ separator :: b) = split separator a ++ split separator b := by
  rw [split_eq_splitOn, split_eq_splitOn, split_eq_splitOn, List.splitOn_append_cons_self]

/-- There is one piece more than separators. -/
theorem length_split (cs : List Char) :
    (split separator cs).length = cs.count separator + 1 := by
  induction cs with
  | nil => rfl
  | cons c cs ih =>
    by_cases hc : c = separator
    · rw [hc, split_cons_self, List.length_cons, ih, List.count_cons_self]
    · rw [split_cons_of_ne hc, List.length_modifyHead, ih, List.count_cons_of_ne hc]

/-- Only a text's own pieces give it back. -/
theorem intercalate_eq_iff {ls : List (List Char)} (hls : ∀ l ∈ ls, separator ∉ l) (hne : ls ≠ [])
    (cs : List Char) : [separator].intercalate ls = cs ↔ ls = split separator cs := by
  rw [split_eq_splitOn]
  constructor
  · rintro rfl
    exact (List.splitOn_intercalate separator hls hne).symm
  · rintro rfl
    exact List.intercalate_splitOn separator

end Text

namespace Block

variable {α : Type}

/-- The block, `n` lines further down. -/
def advance (n : Nat) (b : Block α) : Block α := { b with line := b.line + n }

end Block

namespace Program

open Text

/-! ## Blocks and their lines -/

theorem lines_append (a b : List Char) : lines (a ++ '\n' :: b) = lines a ++ lines b :=
  split_append a b

theorem lines_cons_newline (cs : List Char) : lines ('\n' :: cs) = [] :: lines cs :=
  split_cons_self '\n' cs

section Blocks

variable {α : Type} [Scalar α]

theorem parseFrom_eq_mapIdx (n : Nat) (ls : List (List Char)) : (parseFrom n ls : List (Block α)) =
    (ls.map dropReturn).mapIdx fun i l => Block.ofLine (String.ofList l) (n + i + 1) := by
  induction ls generalizing n with
  | nil => rfl
  | cons l ls ih =>
    rw [parseFrom, ih, List.map_cons, List.mapIdx_cons]
    simp only [Nat.add_zero, Nat.add_right_comm n 1, Nat.add_assoc n]

/-- **A block is the block of its line**, under its number. -/
theorem parse_eq_mapIdx (s : String) : (parse s : List (Block α)) =
    ((lines s.toList).map dropReturn).mapIdx fun i l => Block.ofLine (String.ofList l) (i + 1) := by
  rw [parse, parseFrom_eq_mapIdx]
  simp only [Nat.zero_add]

/-- **Blocks are numbered by their lines**, from one on. -/
theorem line_of_parse {source : String} {i : Nat} {b : Block α}
    (hb : (parse source : List (Block α))[i]? = some b) : b.line = i + 1 := by
  rw [parse_eq_mapIdx, List.getElem?_mapIdx, Option.map_eq_some_iff] at hb
  obtain ⟨l, -, rfl⟩ := hb
  rfl

theorem length_parse (s : String) :
    (parse s : List (Block α)).length = s.toList.count '\n' + 1 := by
  rw [parse_eq_mapIdx, List.length_mapIdx, List.length_map, lines, length_split]

theorem parse_append (a b : String) : (parse (a ++ "\n" ++ b) : List (Block α)) =
    parse a ++ (parse b).map (Block.advance (parse a : List (Block α)).length) := by
  have hjoined : (a ++ "\n" ++ b).toList = a.toList ++ '\n' :: b.toList := by
    simp
  rw [parse_eq_mapIdx, hjoined, lines_append, List.map_append, List.mapIdx_append,
    ← parse_eq_mapIdx]
  congr 1
  refine List.ext_getElem? fun i => ?_
  rw [parse_eq_mapIdx a, parse_eq_mapIdx b, List.length_mapIdx, List.getElem?_map,
    List.getElem?_mapIdx, List.getElem?_mapIdx, Option.map_map]
  refine congrArg (Option.map · _) (funext fun l => ?_)
  rw [Nat.add_right_comm]
  rfl

theorem map_raw_parse (s : String) : (parse s : List (Block α)).map Block.raw =
    ((lines s.toList).map dropReturn).map String.ofList := by
  refine List.ext_getElem? fun i => ?_
  simp only [parse_eq_mapIdx, List.getElem?_map, List.getElem?_mapIdx, Option.map_map]
  rfl

end Blocks

/-! ## Carriage returns -/

theorem dropReturn_eq_self_iff (l : List Char) : dropReturn l = l ↔ l.getLast? ≠ some '\r' := by
  unfold dropReturn
  split
  · rename_i hlast
    obtain ⟨front, rfl⟩ := List.getLast?_eq_some_iff.1 hlast
    simp
  · rename_i hlast
    exact iff_of_true rfl hlast

/-- The first line is empty when the text is or starts with a line feed. -/
theorem head?_lines_eq_nil_iff (cs : List Char) :
    (lines cs).head? = some [] ↔ cs = [] ∨ ['\n'] <+: cs := by
  unfold lines
  cases cs with
  | nil => simp [split]
  | cons c cs =>
    by_cases hc : c = '\n'
    · simp [split, hc]
    · rw [split_cons_of_ne hc, List.head?_modifyHead]
      simp [Ne.symm hc]

theorem getLast?_cons_ne_iff {c d : Char} {l : List Char} :
    (c :: l).getLast? ≠ some d ↔ l.getLast? ≠ some d ∧ (l = [] → c ≠ d) := by
  cases l with
  | nil => simp
  | cons e l => simp

/-- **No line ends in a carriage return** when none stands before a line feed or at the end. -/
theorem getLast?_lines_iff (cs : List Char) : (∀ l ∈ lines cs, l.getLast? ≠ some '\r') ↔
    ¬ ['\r', '\n'] <:+: cs ∧ cs.getLast? ≠ some '\r' := by
  induction cs with
  | nil => simp [lines, split]
  | cons c cs ih =>
    rw [List.infix_cons_iff, List.cons_prefix_cons, getLast?_cons_ne_iff]
    by_cases hc : c = '\n'
    · subst hc
      rw [lines_cons_newline, List.forall_mem_cons, ih]
      simp
    · obtain ⟨l, ls, hsplit⟩ := List.exists_cons_of_ne_nil (split_ne_nil '\n' cs)
      have hlines : lines (c :: cs) = (c :: l) :: ls := by
        rw [lines, split_cons_of_ne hc, hsplit, List.modifyHead_cons]
      have hfirst : l = [] ↔ cs = [] ∨ ['\n'] <+: cs := by
        rw [← head?_lines_eq_nil_iff, lines, hsplit, List.head?_cons, Option.some.injEq]
      rw [lines, hsplit, List.forall_mem_cons] at ih
      rw [hlines, List.forall_mem_cons, getLast?_cons_ne_iff]
      -- a carriage return in front is the last of its line when that line has nothing else
      tauto

/-- **The sources that lose no carriage return** are those that their lines give back. -/
theorem intercalate_dropReturn_iff (cs : List Char) :
    ['\n'].intercalate ((lines cs).map dropReturn) = cs ↔
      ¬ ['\r', '\n'] <:+: cs ∧ cs.getLast? ≠ some '\r' := by
  have hlines : ∀ l ∈ (lines cs).map dropReturn, '\n' ∉ l := by
    intro l hl
    obtain ⟨m, hm, rfl⟩ := List.mem_map.1 hl
    exact not_mem_dropReturn (not_mem_of_mem_split hm)
  have hne : (lines cs).map dropReturn ≠ [] := by
    rw [ne_eq, List.map_eq_nil_iff]
    exact split_ne_nil '\n' cs
  rw [intercalate_eq_iff hlines hne, ← getLast?_lines_iff, ← lines]
  simp only [← dropReturn_eq_self_iff]
  calc (lines cs).map dropReturn = lines cs
      ↔ (lines cs).map dropReturn = (lines cs).map id := by rw [List.map_id]
    _ ↔ ∀ l ∈ lines cs, dropReturn l = l := List.map_inj_left

/-! ## Lines that end with a carriage return -/

/-- The text with a carriage return in front of every line feed. -/
def withReturns (cs : List Char) : List Char :=
  cs.flatMap fun c => if c = '\n' then ['\r', '\n'] else [c]

theorem dropReturn_cons {c : Char} (hc : c ≠ '\r') (l : List Char) :
    dropReturn (c :: l) = c :: dropReturn l := by
  cases l with
  | nil => simp [dropReturn, hc]
  | cons d l =>
    unfold dropReturn
    rw [List.getLast?_cons_cons, List.dropLast_cons_cons]
    split <;> rfl

theorem map_dropReturn_lines_cons {c : Char} (hline : c ≠ '\n') (hreturn : c ≠ '\r')
    (cs : List Char) : (lines (c :: cs)).map dropReturn =
      ((lines cs).map dropReturn).modifyHead (c :: ·) := by
  obtain ⟨l, ls, hsplit⟩ := List.exists_cons_of_ne_nil (split_ne_nil '\n' cs)
  rw [lines, lines, split_cons_of_ne hline, hsplit, List.modifyHead_cons, List.map_cons,
    dropReturn_cons hreturn, List.map_cons, List.modifyHead_cons]

/-- **A carriage return in front of every line feed** is lost again. -/
theorem map_dropReturn_lines_withReturns {cs : List Char} (hcs : '\r' ∉ cs) :
    (lines (withReturns cs)).map dropReturn = (lines cs).map dropReturn := by
  induction cs with
  | nil => rfl
  | cons c cs ih =>
    rw [List.mem_cons, not_or] at hcs
    by_cases hline : c = '\n'
    · subst hline
      have hreturns : withReturns ('\n' :: cs) = ['\r'] ++ '\n' :: withReturns cs := by
        rw [withReturns, List.flatMap_cons, if_pos rfl]
        rfl
      rw [hreturns, lines_append, List.map_append, ih hcs.2, lines_cons_newline, List.map_cons]
      rfl
    · have hreturns : withReturns (c :: cs) = c :: withReturns cs := by
        rw [withReturns, List.flatMap_cons, if_neg hline]
        rfl
      have hreturn : c ≠ '\r' := fun h => hcs.1 h.symm
      rw [hreturns, map_dropReturn_lines_cons hline hreturn, ih hcs.2,
        map_dropReturn_lines_cons hline hreturn]

/-- **Programs concatenate.**  The blocks of two texts with a line feed between them are those of
the first and, further down, those of the second.  There is one block more than line feeds, and each
carries the number of its line.  The texts of the blocks, joined with line feeds, give back the
sources without a carriage return in front of a line feed or at the end, and no others; and a source
without carriage returns has the same blocks when one is put in front of every line feed. -/
theorem parse_concatenates (α : Type) [Scalar α] :
    (∀ a b : String, (parse (a ++ "\n" ++ b) : List (Block α)) =
      parse a ++ (parse b).map (Block.advance (parse a : List (Block α)).length)) ∧
    (∀ s : String, (parse s : List (Block α)).length = s.toList.count '\n' + 1 ∧
      ∀ i b, (parse s : List (Block α))[i]? = some b → b.line = i + 1) ∧
    (∀ s : String, "\n".intercalate ((parse s : List (Block α)).map Block.raw) = s ↔
      ¬ ['\r', '\n'] <:+: s.toList ∧ s.toList.getLast? ≠ some '\r') ∧
    ∀ s : String, '\r' ∉ s.toList →
      (parse (String.ofList (withReturns s.toList)) : List (Block α)) = parse s := by
  refine ⟨parse_append, fun s => ⟨length_parse s, fun _ _ => line_of_parse⟩, fun s => ?joined,
    fun s hs => ?returns⟩
  case joined =>
    rw [← intercalate_dropReturn_iff, map_raw_parse, ← String.toList_inj, String.toList_intercalate,
      List.map_map]
    simp [Function.comp_def]
  case returns =>
    rw [parse_eq_mapIdx, String.toList_ofList, map_dropReturn_lines_withReturns hs,
      ← parse_eq_mapIdx]

/-- Three lines, the last of them empty, with carriage returns and without. -/
theorem parse_concatenates_threeLines :
    let s := "g1\nx2\n"
    '\r' ∉ s.toList ∧ String.ofList (withReturns s.toList) = "g1\r\nx2\r\n" ∧
    (parse "g1\r\nx2\r\n" : List (Block Float)) = parse s ∧
    (parse s : List (Block Float)).length = 3 ∧
    "\n".intercalate ((parse s : List (Block Float)).map Block.raw) = s := by
  intro s
  obtain ⟨-, hlength, hjoined, hreturns⟩ := parse_concatenates Float
  have hs : '\r' ∉ s.toList := by decide
  have htext : String.ofList (withReturns s.toList) = "g1\r\nx2\r\n" := by decide
  refine ⟨hs, htext, ?_, ?_, ?_⟩
  · rw [← htext, hreturns s hs]
  · rw [(hlength s).1]
    decide
  · rw [hjoined s]
    decide

end Program

end Machining
