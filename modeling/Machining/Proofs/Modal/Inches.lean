import Mathlib.Logic.Basic
import Machining.Proofs.Modal.Prefix
import Machining.Proofs.Modal.Registers
import Machining.Scalar.Double

/-!
# Inch programs

A program in inches and its translation into millimetres are interpreted alike.  Lengths enter a
state at four places, the feed, the axes in both distance modes and the arc centre, and each of
them converts exactly once.

* `ofWords_inMillimetres` — one block;
* `ofBlocksFrom_inMillimetres` — blocks that do not change the unit;
* `ofBlocks_inches` — a whole program after its unit is chosen.
-/

set_option autoImplicit false

namespace Machining

variable {α : Type}

/-! ## Translation -/

/-- The letters whose values are lengths or feeds. -/
def lengthLetters : List Char := ['F', 'X', 'Y', 'Z', 'I', 'J', 'K']

/-- The word keeps the unit: it is neither G20 nor G21. -/
def Word.KeepsUnit [Scalar α] (w : Word α) : Prop :=
  w.letter = 'G' → Scalar.truncate w.value ≠ 20 ∧ Scalar.truncate w.value ≠ 21

instance [Scalar α] (w : Word α) : Decidable w.KeepsUnit :=
  inferInstanceAs (Decidable (w.letter = 'G' →
    Scalar.truncate w.value ≠ 20 ∧ Scalar.truncate w.value ≠ 21))

/-- No word of the block chooses a unit. -/
def Block.KeepsUnit [Scalar α] (b : Block α) : Prop := ∀ w ∈ b.words, w.KeepsUnit

instance [Scalar α] (b : Block α) : Decidable b.KeepsUnit :=
  inferInstanceAs (Decidable (∀ w ∈ b.words, w.KeepsUnit))

/-- The code that chooses a unit. -/
def LengthUnit.code : LengthUnit → Int
  | inch => 20
  | millimetre => 21

/-- The block does nothing but choose the unit. -/
structure Block.Selects [Scalar α] (b : Block α) (u : LengthUnit) : Prop where
  faults : b.faults = []
  words : ∃ v : α, b.words = [⟨'G', v⟩] ∧ Scalar.truncate v = u.code

/-- The word in millimetres instead of inches. -/
def Word.inMillimetres [Scalar α] (w : Word α) : Word α :=
  if w.letter ∈ lengthLetters then ⟨w.letter, w.value * LengthUnit.millimetresPerInch⟩ else w

/-- The block in millimetres instead of inches. -/
def Block.inMillimetres [Scalar α] (b : Block α) : Block α :=
  { b with words := b.words.map Word.inMillimetres }

/-- The state with another unit. -/
def ModalState.withUnit (u : LengthUnit) (s : ModalState α) : ModalState α := { s with unit := u }

/-- The command with another unit in the state it shows. -/
def Command.withUnit (u : LengthUnit) : Command α → Command α
  | snapshot state block line => snapshot (state.withUnit u) block line
  | c => c

/-- The interpretation with another unit in all states. -/
def Interpretation.withUnit (u : LengthUnit) (i : Interpretation α) : Interpretation α :=
  ⟨i.commands.map (Command.withUnit u), i.diagnostics, i.finalState.withUnit u⟩

theorem Interpretation.withUnit_append (u : LengthUnit) (a b : Interpretation α) :
    (a.append b).withUnit u = (a.withUnit u).append (b.withUnit u) := by
  simp only [withUnit, append, List.map_append]

variable [Scalar α]

@[simp] theorem Word.letter_inMillimetres (w : Word α) : w.inMillimetres.letter = w.letter := by
  unfold inMillimetres
  split <;> rfl

theorem Word.inMillimetres_of_isCodeLetter {w : Word α} (h : isCodeLetter w.letter = true) :
    w.inMillimetres = w := by
  unfold inMillimetres
  rw [if_neg]
  simp only [isCodeLetter, Bool.or_eq_true, beq_iff_eq] at h
  rcases h with h | h <;> rw [h] <;> decide

/-- The codes of a block are the same in both units. -/
theorem filter_isCodeLetter_inMillimetres (ws : List (Word α)) :
    (ws.map Word.inMillimetres).filter (fun w => isCodeLetter w.letter) =
      ws.filter fun w => isCodeLetter w.letter := by
  rw [List.filter_map]
  have hsame : (fun w : Word α => isCodeLetter w.letter) ∘ Word.inMillimetres =
      fun w => isCodeLetter w.letter := by
    funext w
    simp
  rw [hsame]
  refine (List.map_congr_left fun w hw => ?_).trans (List.map_id _)
  exact Word.inMillimetres_of_isCodeLetter (List.mem_filter.1 hw).2

/-! ## Registers -/

/-- Registers hold translated lengths, and speed and tool as they were. -/
structure Registers.Translates (r q : Registers α) : Prop where
  lengths : ∀ l ∈ lengthLetters, q.get? l = (r.get? l).map LengthUnit.inch.toMillimetres
  speed : q.get? 'S' = r.get? 'S'
  tool : q.get? 'T' = r.get? 'T'

theorem Registers.get?_inMillimetres (ws : List (Word α)) {l : Char}
    (hl : (slot? l).isSome = true) : (ofWords (ws.map Word.inMillimetres)).get? l =
      if l ∈ lengthLetters then ((ofWords ws).get? l).map LengthUnit.inch.toMillimetres
      else (ofWords ws).get? l := by
  rw [get?_ofWords hl, get?_ofWords hl, List.find?_map]
  have hsame : (fun w : Word α => w.letter == l) ∘ Word.inMillimetres = fun w => w.letter == l := by
    funext w
    simp
  rw [hsame]
  cases hfind : ws.find? fun w => w.letter == l with
  | none => simp
  | some w =>
    have hfound := List.find?_some hfind
    have hw : w.letter = l := by simpa using hfound
    simp only [Option.map_some, Word.inMillimetres, hw]
    split <;> rfl

/-- **The registers of the translation** of a block. -/
theorem Registers.translates_ofWords (ws : List (Word α)) :
    Translates (ofWords ws) (ofWords (ws.map Word.inMillimetres)) := by
  refine ⟨fun l hl => ?_, ?_, ?_⟩
  · have hslots : (lengthLetters.all fun l => (slot? l).isSome) = true := rfl
    rw [get?_inMillimetres ws (List.all_eq_true.1 hslots l hl), if_pos hl]
  · rw [get?_inMillimetres ws (by decide), if_neg (by decide)]
  · rw [get?_inMillimetres ws (by decide), if_neg (by decide)]

namespace Registers.Translates

variable {r q : Registers α} (h : Translates r q)

include h

theorem isSome_get? {l : Char} (hl : l ∈ lengthLetters) :
    (q.get? l).isSome = (r.get? l).isSome := by
  rw [h.lengths l hl, Option.isSome_map]

theorem hasAny_axes : q.hasAny ['X', 'Y', 'Z'] = r.hasAny ['X', 'Y', 'Z'] := by
  simp only [hasAny, List.any_cons, List.any_nil]
  rw [h.isSome_get? (by decide), h.isSome_get? (by decide), h.isSome_get? (by decide)]

theorem hasAny_arc : q.hasAny ['I', 'J', 'K'] = r.hasAny ['I', 'J', 'K'] := by
  simp only [hasAny, List.any_cons, List.any_nil]
  rw [h.isSome_get? (by decide), h.isSome_get? (by decide), h.isSome_get? (by decide)]

end Registers.Translates

/-! ## One block -/

namespace Interpretation

section Phases

variable {r q : Registers α} (h : r.Translates q) (block line : Nat) {s : ModalState α}

omit [Scalar α] in
/-- A code that chooses no unit does not look at it either. -/
theorem apply_withUnit (u : LengthUnit) (s : ModalState α) {c : ModalCode}
    (hc : ∀ v, c ≠ .unit v) :
    c.apply (s.withUnit u) = (c.apply s).withUnit u ∧ (c.apply s).unit = s.unit := by
  cases c with
  | unit v => exact absurd rfl (hc v)
  | _ => exact ⟨rfl, rfl⟩

/-- **Only G20 and G21 choose a unit.** -/
theorem code_of_of?_unit {letter : Char} {code : Int} {u : LengthUnit}
    (h : ModalCode.of? letter code = some (.unit u)) :
    letter = 'G' ∧ (code = 20 ∨ code = 21) := by
  unfold ModalCode.of? at h
  split at h
  · rename_i hletter
    refine ⟨hletter, ?_⟩
    simp only [ModalCode.ofGeneral?, ite_eq_iff, Option.some.injEq, reduceCtorEq, and_false,
      false_or, or_false] at h
    omega
  · split at h
    · simp only [ModalCode.ofMiscellaneous?, ite_eq_iff, Option.some.injEq, reduceCtorEq,
        and_false, or_false] at h
    · cases h

/-- A word that keeps the unit is no code for one. -/
theorem ne_unit_of_keepsUnit {w : Word α} (hw : w.KeepsUnit) {c : ModalCode}
    (hc : ModalCode.of? w.letter (Scalar.truncate w.value) = some c) (u : LengthUnit) :
    c ≠ .unit u := by
  rintro rfl
  obtain ⟨hletter, hcode⟩ := code_of_of?_unit hc
  obtain ⟨h20, h21⟩ := hw hletter
  rcases hcode with hcode | hcode
  · exact h20 hcode
  · exact h21 hcode

include h

theorem ofCode_withUnit (u : LengthUnit) {w : Word α} (hw : w.KeepsUnit) :
    ofCode q block line (s.withUnit u) w = (ofCode r block line s w).withUnit u ∧
      (ofCode r block line s w).finalState.unit = s.unit := by
  have htool : requestedTool (s.withUnit u) q = requestedTool s r := by
    unfold requestedTool
    rw [h.tool]
    rfl
  unfold ofCode
  dsimp only
  split
  · rw [htool]
    exact ⟨rfl, rfl⟩
  · rename_i c hc
    obtain ⟨happly, hunit⟩ := apply_withUnit u s (ne_unit_of_keepsUnit hw hc)
    rw [happly]
    exact ⟨rfl, hunit⟩
  · exact ⟨rfl, rfl⟩

theorem ofCodes_withUnit (u : LengthUnit) {ws : List (Word α)} (hws : ∀ w ∈ ws, w.KeepsUnit) :
    ofCodes q block line (s.withUnit u) ws = (ofCodes r block line s ws).withUnit u ∧
      (ofCodes r block line s ws).finalState.unit = s.unit := by
  induction ws generalizing s with
  | nil => exact ⟨rfl, rfl⟩
  | cons w ws ih =>
    obtain ⟨hfirst, hunit⟩ := ofCode_withUnit h block line (s := s) u (hws w List.mem_cons_self)
    obtain ⟨hrest, hunit'⟩ := ih (s := (ofCode r block line s w).finalState)
      fun v hv => hws v (List.mem_cons_of_mem _ hv)
    rw [ofCodes, ofCodes, withUnit_append, ← hrest, hfirst]
    exact ⟨rfl, hunit'.trans hunit⟩

variable (hs : s.unit = .inch)

include hs

theorem takeOver_inMillimetres :
    takeOver q (s.withUnit .millimetre) = (takeOver r s).withUnit .millimetre := by
  have hfeed : (q.get? 'F').map (s.withUnit .millimetre).unit.toMillimetres =
      (r.get? 'F').map s.unit.toMillimetres := by
    rw [h.lengths 'F' (by decide), hs, Option.map_map]
    rfl
  unfold takeOver
  rw [hfeed, h.speed, h.tool]
  rfl

theorem moved_inMillimetres {l : Char} (hl : l ∈ lengthLetters) (current : α) :
    moved .millimetre s.distanceMode current (q.get? l) =
      moved s.unit s.distanceMode current (r.get? l) := by
  rw [h.lengths l hl, hs]
  cases r.get? l <;> rfl

theorem target_inMillimetres : target q (s.withUnit .millimetre) = target r s := by
  unfold target
  rw [← moved_inMillimetres h hs (by decide : 'X' ∈ lengthLetters),
    ← moved_inMillimetres h hs (by decide : 'Y' ∈ lengthLetters),
    ← moved_inMillimetres h hs (by decide : 'Z' ∈ lengthLetters)]
  rfl

/-- A part of the arc centre that the block leaves out is zero in both units. -/
theorem arcOffset_inMillimetres (hzero : (0 : α) * LengthUnit.millimetresPerInch = 0) :
    arcOffset q .millimetre = arcOffset r s.unit := by
  have hpart {l : Char} (hl : l ∈ lengthLetters) :
      LengthUnit.millimetre.toMillimetres ((q.get? l).getD 0) =
        s.unit.toMillimetres ((r.get? l).getD 0) := by
    rw [h.lengths l hl, hs]
    cases r.get? l with
    | none => exact hzero.symm
    | some v => rfl
  unfold arcOffset
  rw [h.hasAny_arc, hpart (by decide), hpart (by decide), hpart (by decide)]

theorem ofAxes_inMillimetres (hzero : (0 : α) * LengthUnit.millimetresPerInch = 0) :
    ofAxes q block line (s.withUnit .millimetre) =
        (ofAxes r block line s).withUnit .millimetre ∧
      (ofAxes r block line s).finalState.unit = .inch := by
  unfold ofAxes
  dsimp only
  rw [h.hasAny_axes, target_inMillimetres h hs]
  have harc : arcOffset q (s.withUnit .millimetre).unit = arcOffset r s.unit :=
    arcOffset_inMillimetres h hs hzero
  rw [harc]
  split
  · exact ⟨rfl, hs⟩
  · exact ⟨rfl, hs⟩

end Phases

section Blocks

variable {s : ModalState α} (hzero : (0 : α) * LengthUnit.millimetresPerInch = 0)

include hzero

/-- **The words of a block** and their translation yield the same, up to the unit shown. -/
theorem ofWords_inMillimetres (hs : s.unit = .inch) (block line : Nat) {ws : List (Word α)}
    (hws : ∀ w ∈ ws, w.KeepsUnit) :
    ofWords (s.withUnit .millimetre) block line (ws.map Word.inMillimetres) =
        (ofWords s block line ws).withUnit .millimetre ∧
      (ofWords s block line ws).finalState.unit = .inch := by
  have h := Registers.translates_ofWords ws
  have hcs : ∀ w ∈ ws.filter fun w => isCodeLetter w.letter, w.KeepsUnit :=
    fun w hw => hws w (List.mem_filter.1 hw).1
  unfold ofWords
  dsimp only
  rw [filter_isCodeLetter_inMillimetres]
  -- from here on the words themselves do not matter
  generalize Registers.ofWords ws = r at h ⊢
  generalize Registers.ofWords (ws.map Word.inMillimetres) = q at h ⊢
  generalize (ws.filter fun w => isCodeLetter w.letter) = cs at hcs ⊢
  obtain ⟨hcodes, hkept⟩ := ofCodes_withUnit h block line (s := s) .millimetre hcs
  rw [hcodes]
  generalize ofCodes r block line s cs = codes at hkept ⊢
  have hunit : codes.finalState.unit = .inch := hkept.trans hs
  have htake : takeOver q (codes.withUnit .millimetre).finalState =
      (takeOver r codes.finalState).withUnit .millimetre := takeOver_inMillimetres h hunit
  obtain ⟨haxes, hlast⟩ :=
    ofAxes_inMillimetres h block line (s := takeOver r codes.finalState) hunit hzero
  rw [htake, haxes, withUnit_append, withUnit_append]
  exact ⟨rfl, hlast⟩

/-- **A block** and its translation. -/
theorem ofBlock_inMillimetres (hs : s.unit = .inch) (i : Nat) {b : Block α} (hb : b.KeepsUnit) :
    ofBlock (s.withUnit .millimetre) i b.inMillimetres = (ofBlock s i b).withUnit .millimetre ∧
      (ofBlock s i b).finalState.unit = .inch := by
  have hwords : b.inMillimetres.words.isEmpty = b.words.isEmpty := List.isEmpty_map
  have hfaults : b.inMillimetres.hasFaults = b.hasFaults := rfl
  unfold ofBlock
  rw [hwords, hfaults]
  split
  · exact ⟨rfl, hs⟩
  · split
    · exact ⟨rfl, hs⟩
    · exact ofWords_inMillimetres hzero hs i b.line hb

/-! ## Programs -/

/-- **Blocks that keep the unit** and their translation. -/
theorem ofBlocksFrom_inMillimetres (bs : List (Block α)) (hbs : ∀ b ∈ bs, b.KeepsUnit) :
    ∀ (s : ModalState α) (i : Nat), s.unit = .inch →
      ofBlocksFrom (s.withUnit .millimetre) i (bs.map Block.inMillimetres) =
        (ofBlocksFrom s i bs).withUnit .millimetre := by
  induction bs with
  | nil => exact fun _ _ _ => rfl
  | cons b bs ih =>
    intro s i hs
    obtain ⟨hfirst, hunit⟩ := ofBlock_inMillimetres hzero hs i (hbs b List.mem_cons_self)
    have hrest := ih (fun c hc => hbs c (List.mem_cons_of_mem _ hc))
      (ofBlock s i b).finalState (i + 1) hunit
    rw [List.map_cons, ofBlocksFrom, ofBlocksFrom, withUnit_append, ← hrest, hfirst]
    rfl

end Blocks

/-- A block with nothing but one G word does what the code of that word does. -/
theorem ofBlock_code {b : Block α} {v : α} {c : ModalCode} (hfaults : b.faults = [])
    (hwords : b.words = [⟨'G', v⟩]) (hcode : ModalCode.of? 'G' (Scalar.truncate v) = some c)
    (hchange : c ≠ .toolChange) (s : ModalState α) (i : Nat) :
    ofBlock s i b = ⟨[.snapshot (c.apply s) i b.line], [], c.apply s⟩ := by
  have hfree : ∀ l ∈ ['F', 'S', 'T', 'X', 'Y', 'Z'],
      (Registers.ofWords [⟨'G', v⟩]).get? l = none := by
    intro l hl
    have hslots : (['F', 'S', 'T', 'X', 'Y', 'Z'].all fun l =>
        (Registers.slot? l).isSome && 'G' != l) = true := rfl
    have hboth := List.all_eq_true.1 hslots l hl
    rw [Bool.and_eq_true, bne_iff_ne] at hboth
    simp [Registers.get?_ofWords hboth.1, hboth.2]
  have hcodes : ofCodes (Registers.ofWords [⟨'G', v⟩]) i b.line s [⟨'G', v⟩] =
      start (c.apply s) := by
    simp only [ofCodes, ofCode, hcode]
    cases c with
    | toolChange => exact absurd rfl hchange
    | _ => rfl
  have htake (t : ModalState α) : takeOver (Registers.ofWords [⟨'G', v⟩]) t = t := by
    unfold takeOver
    rw [hfree 'F' (by decide), hfree 'S' (by decide), hfree 'T' (by decide)]
    rfl
  have haxes (t : ModalState α) :
      ofAxes (Registers.ofWords [⟨'G', v⟩]) i b.line t = start t := by
    unfold ofAxes Registers.hasAny
    simp [hfree]
  unfold ofBlock Block.hasFaults ofWords
  rw [hfaults, hwords]
  have hfilter : [(⟨'G', v⟩ : Word α)].filter (fun w => isCodeLetter w.letter) = [⟨'G', v⟩] := rfl
  dsimp only [List.isEmpty_nil, List.isEmpty_cons, Bool.not_true]
  rw [hfilter, hcodes, htake, haxes]
  rfl

/-- A block that does nothing but choose the unit. -/
theorem ofBlock_selects {b : Block α} {u : LengthUnit} (hb : b.Selects u) (s : ModalState α)
    (i : Nat) : ofBlock s i b = ⟨[.snapshot (s.withUnit u) i b.line], [], s.withUnit u⟩ := by
  obtain ⟨v, hwords, hv⟩ := hb.words
  have hcode : ModalCode.of? 'G' (Scalar.truncate v) = some (.unit u) := by
    rw [hv]
    cases u <;> rfl
  exact ofBlock_code hb.faults hwords hcode nofun s i

/-- **A program in inches means the same as its translation into millimetres.**  After a block that
chooses inches, blocks that choose no unit yield in doubles what their translation yields after a
block that chooses millimetres, in every command, diagnostic and state but for the unit the states
show. -/
theorem ofBlocks_inches (inches millimetres : Block Float) (bs : List (Block Float))
    (hinches : inches.Selects .inch) (hmillimetres : millimetres.Selects .millimetre)
    (hline : millimetres.line = inches.line) (hbs : ∀ b ∈ bs, b.KeepsUnit) :
    ofBlocks (millimetres :: bs.map Block.inMillimetres) =
      (ofBlocks (inches :: bs)).withUnit .millimetre := by
  have hzero : (0 : Float) * LengthUnit.millimetresPerInch = 0 := by decide +kernel
  have hrest := ofBlocksFrom_inMillimetres hzero bs hbs
    (ModalState.powerOn.withUnit .inch) 1 rfl
  unfold ofBlocks
  rw [ofBlocksFrom, ofBlocksFrom, ofBlock_selects hinches, ofBlock_selects hmillimetres, hline,
    withUnit_append, Nat.zero_add, ← hrest]
  rfl

/-- Blocks in doubles: an arc in increments with a letter twice, a block with a fault, and a move
to an absolute place. -/
def arcThenMove : List (Block Float) :=
  [⟨2, "", "", [⟨'G', 91⟩, ⟨'G', 2⟩, ⟨'X', 1⟩, ⟨'X', 9⟩, ⟨'J', 0.5⟩, ⟨'F', 2⟩, ⟨'S', 500⟩], []⟩,
    ⟨3, "", "", [⟨'X', 7⟩], [.unparsedTail "Y#"]⟩, ⟨4, "", "", [⟨'G', 90⟩, ⟨'Y', -2⟩], []⟩]

theorem ofBlocks_inches_arcThenMove :
    let inches : Block Float := ⟨1, "G20", "G20", [⟨'G', 20⟩], []⟩
    let millimetres : Block Float := ⟨1, "G21", "G21", [⟨'G', 21⟩], []⟩
    inches.Selects .inch ∧ millimetres.Selects .millimetre ∧ millimetres.line = inches.line ∧
      (∀ b ∈ arcThenMove, b.KeepsUnit) ∧
      ofBlocks (millimetres :: arcThenMove.map Block.inMillimetres) =
        (ofBlocks (inches :: arcThenMove)).withUnit .millimetre := by
  intro inches millimetres
  have hinches : inches.Selects .inch := ⟨rfl, 20, rfl, by decide +kernel⟩
  have hmillimetres : millimetres.Selects .millimetre := ⟨rfl, 21, rfl, by decide +kernel⟩
  have hkeep : ∀ b ∈ arcThenMove, b.KeepsUnit := by decide +kernel
  exact ⟨hinches, hmillimetres, rfl, hkeep,
    ofBlocks_inches inches millimetres arcThenMove hinches hmillimetres rfl hkeep⟩

end Interpretation

end Machining
