import Machining.Proofs.Program.Pattern

/-!
# Scanning a text for a pattern

A text is scanned from left to right: the first place where the pattern matches gives a match, and
the scan goes on after it.  What is passed over before a match is a gap, and the tail is what is
left after the last one.  Every text has one scan only.  Neither a gap nor the tail contains a
match, not even one that the scan would not have taken.

* `Pattern.Matches`, `Pattern.isSome_search_iff` — the matches of a pattern; the search finds one
  wherever there is one;
* `Pattern.Scan`, `Pattern.Scan.unique` — the scan of a text;
* `Pattern.Scan.not_matches` — no match is left over;
* `Word.matches_wordPattern_iff`, `Word.scan_cut` — the form of a word; the cut of a text is its
  scan for words.
-/

set_option autoImplicit false

namespace Machining

namespace Pattern

/-! ## Matches -/

/-- The whole text is a match of the pattern, one piece after the other. -/
inductive Matches : List Piece → List Char → Prop
  | nil : Matches [] []
  | one {p : Char → Bool} {ps : List Piece} {c : Char} {cs : List Char}
      (hc : p c = true) (h : Matches ps cs) : Matches (.one p :: ps) (c :: cs)
  | absent {p : Char → Bool} {ps : List Piece} {cs : List Char}
      (h : Matches ps cs) : Matches (.optional p :: ps) cs
  | present {p : Char → Bool} {ps : List Piece} {c : Char} {cs : List Char}
      (hc : p c = true) (h : Matches ps cs) : Matches (.optional p :: ps) (c :: cs)
  | stop {p : Char → Bool} {ps : List Piece} {cs : List Char}
      (h : Matches ps cs) : Matches (.many p :: ps) cs
  | more {p : Char → Bool} {ps : List Piece} {c : Char} {cs : List Char}
      (hc : p c = true) (h : Matches (.many p :: ps) cs) : Matches (.many p :: ps) (c :: cs)

section Search

variable {p : Char → Bool} {ps : List Piece} {next : List Char → Found} {c : Char}
  {cs m rest : List Char}

theorem Found.push_eq_some_iff {f : Found} :
    f.push c = some (m, rest) ↔ ∃ n, f = some (n, rest) ∧ m = c :: n := by
  simp only [Found.push, Option.map_eq_some_iff, Prod.exists, Prod.mk.injEq]
  constructor
  · rintro ⟨n, _, hf, rfl, rfl⟩
    exact ⟨n, hf, rfl⟩
  · rintro ⟨n, hf, rfl⟩
    exact ⟨n, rest, hf, rfl, rfl⟩

theorem take_eq_some_iff : take p next cs = some (m, rest) ↔
    ∃ c ds n, cs = c :: ds ∧ p c = true ∧ next ds = some (n, rest) ∧ m = c :: n := by
  cases cs with
  | nil => simp [take]
  | cons c cs => cases hc : p c <;> simp [take, hc, Found.push_eq_some_iff]

theorem takeMany_cons (p : Char → Bool) (next : List Char → Found) (c : Char) (cs : List Char) :
    takeMany p next (c :: cs) = (take p (takeMany p next) (c :: cs) <|> next (c :: cs)) := rfl

/-- Repeating a piece can stop at once. -/
theorem isSome_takeMany (h : (next cs).isSome = true) : (takeMany p next cs).isSome = true := by
  cases cs with
  | nil => exact h
  | cons c cs =>
    simp [takeMany_cons, h]

/-- Whatever is found is a match of the pattern at the start of the text. -/
def Sound (next : List Char → Found) (ps : List Piece) : Prop :=
  ∀ cs m rest, next cs = some (m, rest) → m ++ rest = cs ∧ Matches ps m

theorem Sound.mono {qs : List Piece} (h : Sound next ps) (hqs : ∀ m, Matches ps m → Matches qs m) :
    Sound next qs := by
  intro cs m rest hm
  obtain ⟨happend, hmatch⟩ := h cs m rest hm
  exact ⟨happend, hqs m hmatch⟩

theorem Sound.take {qs : List Piece} (h : Sound next ps)
    (hqs : ∀ c m, p c = true → Matches ps m → Matches qs (c :: m)) : Sound (take p next) qs := by
  intro cs m rest hm
  obtain ⟨c, ds, n, rfl, hc, hn, rfl⟩ := take_eq_some_iff.1 hm
  obtain ⟨rfl, hmatch⟩ := h ds n rest hn
  exact ⟨rfl, hqs c n hc hmatch⟩

theorem Sound.takeMany (h : Sound next ps) : Sound (takeMany p next) (.many p :: ps) := by
  have hstop : Sound next (.many p :: ps) := h.mono fun _ => .stop
  intro cs
  -- on the text, since after each character the same piece is tried again
  induction cs with
  | nil => exact hstop []
  | cons c cs ih =>
    intro m rest hm
    rw [takeMany_cons] at hm
    rcases (Option.orElse_eq_some _ _ _).1 hm with hm | ⟨-, hm⟩
    · obtain ⟨d, ds, n, heq, hc, hn, rfl⟩ := take_eq_some_iff.1 hm
      obtain ⟨rfl, rfl⟩ := List.cons.inj heq
      obtain ⟨rfl, hmatch⟩ := ih n rest hn
      exact ⟨rfl, .more hc hmatch⟩
    · exact hstop (c :: cs) m rest hm

/-- **What the search finds** is a match at the start of the text. -/
theorem sound_search (ps : List Piece) : Sound (search ps) ps := by
  induction ps with
  | nil =>
    rintro cs m rest ⟨⟩
    exact ⟨rfl, .nil⟩
  | cons piece ps ih =>
    cases piece with
    | one p => exact ih.take fun _ _ => .one
    | optional p =>
      intro cs m rest hm
      rcases (Option.orElse_eq_some _ _ _).1 hm with hm | ⟨-, hm⟩
      · exact ih.take (fun _ _ => .present) cs m rest hm
      · exact ih.mono (fun _ => .absent) cs m rest hm
    | many p => exact ih.takeMany

theorem matches_of_search (h : search ps cs = some (m, rest)) : m ++ rest = cs ∧ Matches ps m :=
  sound_search ps cs m rest h

/-- **Backtracking misses nothing**: where a match starts, the search finds one. -/
theorem isSome_search (h : Matches ps m) (rest : List Char) :
    (search ps (m ++ rest)).isSome = true := by
  induction h with
  | nil => rfl
  | one hc _ ih => simpa [search, take, hc, Found.push] using ih
  | absent _ ih => simp [search, ih]
  | present hc _ ih => simp [search, take, hc, Found.push, ih]
  | stop _ ih => exact isSome_takeMany ih
  | @more p ps c cs hc _ ih =>
    have ih : (takeMany p (search ps) (cs ++ rest)).isSome = true := ih
    simp [search, takeMany, hc, Found.push, ih]

/-- **The search succeeds exactly where a match starts.** -/
theorem isSome_search_iff : (search ps cs).isSome = true ↔ ∃ m, m <+: cs ∧ Matches ps m := by
  constructor
  · intro h
    obtain ⟨⟨m, rest⟩, hfound⟩ := Option.isSome_iff_exists.1 h
    obtain ⟨rfl, hmatch⟩ := matches_of_search hfound
    exact ⟨m, List.prefix_append m rest, hmatch⟩
  · rintro ⟨m, ⟨rest, rfl⟩, hmatch⟩
    exact isSome_search hmatch rest

theorem not_matches_of_search_eq_none (h : search ps (m ++ rest) = none) : ¬ Matches ps m := by
  intro hmatch
  have hsome := isSome_search hmatch rest
  rw [h] at hsome
  cases hsome

end Search

/-! ## The language of a pattern -/

section Language

variable {p : Char → Bool} {ps : List Piece} {cs : List Char}

theorem matches_nil_iff : Matches [] cs ↔ cs = [] := by
  constructor
  · rintro ⟨⟩
    rfl
  · rintro rfl
    exact .nil

theorem matches_one_iff :
    Matches (.one p :: ps) cs ↔ ∃ c ds, cs = c :: ds ∧ p c = true ∧ Matches ps ds := by
  constructor
  · rintro (_ | ⟨hc, h⟩)
    exact ⟨_, _, rfl, hc, h⟩
  · rintro ⟨c, ds, rfl, hc, h⟩
    exact .one hc h

theorem matches_optional_iff : Matches (.optional p :: ps) cs ↔
    ∃ a b, cs = a ++ b ∧ (a = [] ∨ ∃ c, a = [c] ∧ p c = true) ∧ Matches ps b := by
  constructor
  · intro h
    cases h with
    | absent h => exact ⟨[], cs, rfl, .inl rfl, h⟩
    | @present _ _ c ds hc h => exact ⟨[c], ds, rfl, .inr ⟨c, rfl, hc⟩, h⟩
  · rintro ⟨_, b, rfl, rfl | ⟨c, rfl, hc⟩, h⟩
    · exact .absent h
    · exact .present hc h

theorem matches_many_iff : Matches (.many p :: ps) cs ↔
    ∃ a b, cs = a ++ b ∧ (∀ c ∈ a, p c = true) ∧ Matches ps b := by
  constructor
  · intro h
    induction cs with
    | nil =>
      cases h with
      | stop h => exact ⟨[], [], rfl, by simp, h⟩
    | cons c cs ih =>
      cases h with
      | stop h => exact ⟨[], c :: cs, rfl, by simp, h⟩
      | more hc h =>
        obtain ⟨a, b, rfl, ha, hb⟩ := ih h
        exact ⟨c :: a, b, rfl, List.forall_mem_cons.2 ⟨hc, ha⟩, hb⟩
  · rintro ⟨a, b, rfl, ha, hb⟩
    induction a with
    | nil => exact .stop hb
    | cons c a ih =>
      obtain ⟨hc, ha⟩ := List.forall_mem_cons.1 ha
      exact .more hc (ih ha)

end Language

/-! ## Scans -/

/-- A text is scanned for a pattern: the matches taken, each with the gap before it, and the tail.
A match is the first one of the search at the first place where there is any. -/
inductive Scan (ps : List Piece) : List Char → List (List Char × List Char) → List Char → Prop
  | done {tail : List Char} (htail : ∀ s, s <:+ tail → search ps s = none) : Scan ps tail [] tail
  | found {gap m rest tail : List Char} {found : List (List Char × List Char)}
      (hgap : ∀ s, s <:+ gap → s ≠ [] → search ps (s ++ (m ++ rest)) = none)
      (hm : search ps (m ++ rest) = some (m, rest)) (h : Scan ps rest found tail) :
      Scan ps (gap ++ (m ++ rest)) ((gap, m) :: found) tail

namespace Scan

variable {ps : List Piece} {cs tail tail' : List Char} {found found' : List (List Char × List Char)}

/-- A scan loses nothing. -/
theorem eq_append (h : Scan ps cs found tail) :
    cs = found.flatMap (fun p => p.1 ++ p.2) ++ tail := by
  induction h with
  | done _ => rfl
  | found _ _ _ ih => simp [← ih]

theorem matches_of_mem (h : Scan ps cs found tail) : ∀ p ∈ found, Matches ps p.2 := by
  induction h with
  | done _ => simp
  | found _ hm _ ih => exact List.forall_mem_cons.2 ⟨(matches_of_search hm).2, ih⟩

/-- **Nothing that is passed over contains a match.** -/
theorem not_matches (hnil : ¬ Matches ps []) (h : Scan ps cs found tail) :
    ∀ g ∈ tail :: found.map Prod.fst, ∀ m, m <:+: g → ¬ Matches ps m := by
  induction h with
  | done htail =>
    simp only [List.map_nil, List.mem_singleton]
    rintro _ rfl m ⟨a, b, rfl⟩
    exact not_matches_of_search_eq_none (htail (m ++ b) ⟨a, by simp⟩)
  | @found gap w rest _ _ hgap _ _ ih =>
    intro g hg m hm hmatch
    rw [List.map_cons, List.mem_cons, List.mem_cons] at hg
    rcases hg with rfl | rfl | hg
    · exact ih _ List.mem_cons_self m hm hmatch
    · -- the match would go on from its place in the gap, to which the scan came first
      obtain ⟨a, b, rfl⟩ := hm
      have hne : m ≠ [] := by
        rintro rfl
        exact hnil hmatch
      have hnone := hgap (m ++ b) ⟨a, by simp⟩ (by simp [hne])
      rw [List.append_assoc] at hnone
      exact not_matches_of_search_eq_none hnone hmatch
    · exact ih _ (List.mem_cons_of_mem _ hg) m hm hmatch

/-- A gap ends no later than any other one, since a match follows the other one too. -/
theorem prefix_gap {gap gap' m m' rest rest' : List Char}
    (hgap : ∀ s, s <:+ gap → s ≠ [] → search ps (s ++ (m ++ rest)) = none)
    (hm' : search ps (m' ++ rest') = some (m', rest'))
    (h : gap ++ (m ++ rest) = gap' ++ (m' ++ rest')) : gap <+: gap' := by
  rcases List.append_eq_append_iff.1 h with ⟨a, rfl, -⟩ | ⟨a, rfl, ha⟩
  · exact List.prefix_append gap a
  · rcases eq_or_ne a [] with rfl | hne
    · rw [List.append_nil]
    · have hnone := hgap a (List.suffix_append gap' a) hne
      rw [← ha, hm'] at hnone
      cases hnone

/-- **A text has one scan only.** -/
theorem unique (h : Scan ps cs found tail) (h' : Scan ps cs found' tail') :
    found = found' ∧ tail = tail' := by
  induction h generalizing found' tail' with
  | done htail =>
    cases h' with
    | done _ => exact ⟨rfl, rfl⟩
    | @found gap m rest _ _ _ hm _ =>
      rw [htail (m ++ rest) (List.suffix_append gap _)] at hm
      cases hm
  | @found gap m rest _ _ hgap hm h ih =>
    generalize hcs : gap ++ (m ++ rest) = cs at h'
    cases h' with
    | done htail =>
      rw [htail (m ++ rest) (hcs ▸ List.suffix_append gap _)] at hm
      cases hm
    | @found gap' m' rest' _ _ hgap' hm' h' =>
      -- equal gaps leave equal texts to search, and the search has one result
      have hprefix := prefix_gap hgap hm' hcs
      obtain rfl := hprefix.eq_of_length_le (prefix_gap hgap' hm hcs.symm).length_le
      have hrest : some (m, rest) = some (m', rest') := by
        rw [← hm, List.append_cancel_left hcs, hm']
      simp only [Option.some.injEq, Prod.mk.injEq] at hrest
      obtain ⟨rfl, rfl⟩ := hrest
      obtain ⟨rfl, rfl⟩ := ih h'
      exact ⟨rfl, rfl⟩

end Scan

end Pattern

/-! ## Words -/

namespace Word

open Pattern

/-- A letter from A to Z, perhaps a sign, digits, perhaps a point, and at least one digit. -/
def HasForm (m : List Char) : Prop :=
  ∃ (letter : Char) (sign whole point fraction : List Char),
    m = letter :: (sign ++ (whole ++ (point ++ fraction))) ∧ isLetter letter = true ∧
    (sign = [] ∨ sign = ['+'] ∨ sign = ['-']) ∧
    (∀ c ∈ whole, Text.isDecimalDigit c = true) ∧ (point = [] ∨ point = ['.']) ∧
    fraction ≠ [] ∧ ∀ c ∈ fraction, Text.isDecimalDigit c = true

/-- The last run of digits. -/
theorem matches_atLeastOne_iff {p : Char → Bool} {cs : List Char} :
    Matches (atLeastOne p) cs ↔ cs ≠ [] ∧ ∀ c ∈ cs, p c = true := by
  simp only [atLeastOne, matches_one_iff, matches_many_iff, matches_nil_iff]
  constructor
  · rintro ⟨c, _, rfl, hc, a, _, rfl, ha, rfl⟩
    rw [List.append_nil]
    exact ⟨List.cons_ne_nil c a, List.forall_mem_cons.2 ⟨hc, ha⟩⟩
  · rintro ⟨hne, hcs⟩
    obtain ⟨c, ds, rfl⟩ := List.exists_cons_of_ne_nil hne
    obtain ⟨hc, hds⟩ := List.forall_mem_cons.1 hcs
    exact ⟨c, ds, rfl, hc, ds, [], (List.append_nil ds).symm, hds, rfl⟩

/-- **The matches of the pattern of words** are the texts of their form. -/
theorem matches_wordPattern_iff {m : List Char} : Matches wordPattern m ↔ HasForm m := by
  simp only [wordPattern, unsignedPattern, matches_one_iff, matches_optional_iff,
    matches_many_iff, matches_atLeastOne_iff]
  constructor
  · rintro ⟨c, _, rfl, hc, sign, _, rfl, hsign, whole, _, rfl, hwhole, point, fraction, rfl, hpoint,
      hne, hfraction⟩
    refine ⟨c, sign, whole, point, fraction, rfl, hc, ?_, hwhole, ?_, hne, hfraction⟩
    · rcases hsign with rfl | ⟨d, rfl, hd⟩
      · exact .inl rfl
      · simpa [isSign] using hd
    · simpa using hpoint
  · rintro ⟨c, sign, whole, point, fraction, rfl, hc, hsign, hwhole, hpoint, hne, hfraction⟩
    refine ⟨c, _, rfl, hc, sign, _, rfl, ?_, whole, _, rfl, hwhole, point, fraction, rfl, ?_, hne,
      hfraction⟩
    · rcases hsign with rfl | rfl | rfl <;> simp [isSign]
    · simpa using hpoint

theorem not_hasForm_nil : ¬ HasForm [] := by
  rintro ⟨c, sign, whole, point, fraction, h, -⟩
  cases h

/-- A scan that has passed over a character goes on with one more in its gap. -/
theorem scan_cons {x : Char} {cs : List Char} {c : Cut} (hx : search wordPattern (x :: cs) = none)
    (h : Scan wordPattern cs (c.words.map fun p => (p.1, p.2.toList)) c.tail) :
    Scan wordPattern (x :: cs) ((c.cons x).words.map fun p => (p.1, p.2.toList))
      (c.cons x).tail := by
  rcases c with ⟨_ | ⟨⟨gap, w⟩, ws⟩, tail⟩
  · cases h with
    | done htail =>
      refine .done fun s hs => ?_
      rcases List.suffix_cons_iff.1 hs with rfl | hs
      · exact hx
      · exact htail s hs
  · cases h with
    | @found _ _ rest _ _ hgap hm h =>
      refine @Scan.found wordPattern (x :: gap) w.toList rest _ _ (fun s hs hne => ?_) hm h
      rcases List.suffix_cons_iff.1 hs with rfl | hs
      · exact hx
      · exact hgap s hs hne

/-- **The cut of a text is its scan for words.** -/
theorem scan_cut (cs : List Char) :
    Scan wordPattern cs ((cut cs).words.map fun p => (p.1, p.2.toList)) (cut cs).tail := by
  fun_induction cut cs with
  | case1 cs w rest h _ c ih =>
    have hfound : search wordPattern cs = some (w.toList, rest) := by
      rw [search_word, h]
      rfl
    obtain ⟨rfl, -⟩ := matches_of_search hfound
    exact @Scan.found wordPattern [] w.toList rest _ _ (by simp) hfound ih
  | case2 h => exact .done fun s hs => by rw [List.suffix_nil.1 hs]; rfl
  | case3 x xs h ih =>
    refine scan_cons ?_ ih
    rw [search_word, h]
    rfl

end Word

end Machining
