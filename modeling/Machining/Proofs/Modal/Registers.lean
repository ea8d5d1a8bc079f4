import Machining.Modal.Code

/-!
# What registers hold

Registers are filled in one pass over the words of a block, each slot once.  What they hold in the
end can be said without the pass: for each letter from A to Z the value of its first word.

* `get?_fill` — one word more;
* `get?_ofWords` — all words of a block;
* `ofWords_eq_search` — the registers of a block and a search of its words find the same.
-/

set_option autoImplicit false

namespace Machining.Registers

variable {α : Type}

/-- Different letters have different slots. -/
theorem eq_of_slot? {a b : Char} {i : Fin 26} (ha : slot? a = some i) (hb : slot? b = some i) :
    a = b := by
  unfold slot? at ha hb
  split at ha
  · rename_i hra
    split at hb
    · rename_i hrb
      have hlea : 'A'.toNat ≤ a.toNat := hra.1
      have hleb : 'A'.toNat ≤ b.toNat := hrb.1
      have hA : 'A'.toNat = 65 := rfl
      have hnat : a.toNat - 65 = b.toNat - 65 := by
        cases ha
        exact (Fin.mk.inj (Option.some.inj hb)).symm
      have heq : a.toNat = b.toNat := by omega
      exact Char.toNat_inj.1 heq
    · cases hb
  · cases ha

theorem get?_empty (l : Char) : (empty : Registers α).get? l = none := by
  unfold get? empty
  cases slot? l with
  | none => rfl
  | some i => simp

/-- **One word more** fills the slot of its letter unless it is filled. -/
theorem get?_fill (r : Registers α) (w : Word α) {l : Char} (hl : (slot? l).isSome = true) :
    (r.fill w).get? l = (r.get? l).or (if w.letter = l then some w.value else none) := by
  obtain ⟨i, hi⟩ := Option.isSome_iff_exists.1 hl
  have hget (q : Registers α) : q.get? l = q.slots[i] := by
    unfold get?
    rw [hi]
    rfl
  rw [hget, hget]
  unfold fill
  cases hw : slot? w.letter with
  | none =>
    have hne : w.letter ≠ l := by
      intro h
      rw [h, hi] at hw
      cases hw
    simp [hne]
  | some j =>
    dsimp only
    by_cases h : w.letter = l
    · rw [h, hi] at hw
      cases hw
      rw [if_pos h]
      split
      · rename_i hfilled
        obtain ⟨v, hv⟩ := Option.isSome_iff_exists.1 hfilled
        rw [hv]
        rfl
      · rename_i hfree
        have hnone : r.slots[i] = none := Option.not_isSome_iff_eq_none.1 hfree
        simp only [hnone, Option.none_or]
        exact Vector.getElem_set_self i.isLt
    · have hne : j ≠ i := fun hji => h (eq_of_slot? hw (hji ▸ hi))
      have hval : j.val ≠ i.val := fun hv => hne (Fin.ext hv)
      rw [if_neg h, Option.or_none]
      split
      · rfl
      · exact Vector.getElem_set_ne j.isLt i.isLt hval

theorem get?_foldl_fill {l : Char} (hl : (slot? l).isSome = true) (ws : List (Word α)) :
    ∀ r : Registers α, (ws.foldl fill r).get? l =
      (r.get? l).or ((ws.find? fun w => w.letter == l).map Word.value) := by
  induction ws with
  | nil => simp
  | cons w ws ih =>
    intro r
    rw [List.foldl_cons, ih, get?_fill r w hl, Option.or_assoc, List.find?_cons]
    by_cases h : w.letter = l
    · simp [h]
    · simp [h, beq_eq_false_iff_ne.2 h]

/-- **Registers hold the first value of each letter.** -/
theorem get?_ofWords {l : Char} (hl : (slot? l).isSome = true) (ws : List (Word α)) :
    (ofWords ws).get? l = (ws.find? fun w => w.letter == l).map Word.value := by
  unfold ofWords
  rw [get?_foldl_fill hl, get?_empty, Option.none_or]

theorem hasAny_congr {r q : Registers α} {ls : List Char}
    (h : ∀ l ∈ ls, r.get? l = q.get? l) : r.hasAny ls = q.hasAny ls := by
  unfold hasAny
  rw [Bool.eq_iff_iff, List.any_eq_true, List.any_eq_true]
  refine exists_congr fun l => and_congr_right fun hl => ?_
  rw [h l hl]

/-! ## Registers and a search of the block -/

/-- The letters from A to Z have slots, and no other characters. -/
theorem slot?_eq_none_iff {l : Char} : slot? l = none ↔ ¬('A' ≤ l ∧ l ≤ 'Z') := by
  unfold slot?
  split
  · rename_i h
    simp [h]
  · rename_i h
    simp [h]

/-- Every slot is that of a letter. -/
theorem slot?_ofNat (i : Fin 26) : slot? (Char.ofNat ('A'.toNat + i.val)) = some i := by
  revert i
  decide

/-- A word whose letter has no slot fills none. -/
theorem fill_of_slot?_eq_none (r : Registers α) {w : Word α} (h : slot? w.letter = none) :
    r.fill w = r := by
  unfold fill
  rw [h]

/-- **Words with other letters** can be left out. -/
theorem ofWords_filter (ws : List (Word α)) :
    ofWords (ws.filter fun w => 'A' ≤ w.letter ∧ w.letter ≤ 'Z') = ofWords ws := by
  unfold ofWords
  rw [List.foldl_filter]
  congr 1
  funext r w
  split
  · rfl
  · rename_i h
    rw [decide_eq_true_iff, ← slot?_eq_none_iff] at h
    exact (r.fill_of_slot?_eq_none h).symm

/-- What registers hold for a letter of A to Z, and nothing for any other character. -/
theorem get?_ofWords_eq_ite (b : Block α) (l : Char) :
    (ofWords b.words).get? l = if 'A' ≤ l ∧ l ≤ 'Z' then b.value? l else none := by
  split
  · rename_i h
    have hsome : slot? l ≠ none := fun hnone => slot?_eq_none_iff.1 hnone h
    exact get?_ofWords (Option.isSome_iff_ne_none.2 hsome) b.words
  · rename_i h
    unfold get?
    rw [slot?_eq_none_iff.2 h]
    rfl

/-- Slot by slot, the registers of a block hold what a search for the letter of the slot finds. -/
theorem ofWords_eq_ofFn (b : Block α) :
    ofWords b.words = ⟨Vector.ofFn fun i => b.value? (Char.ofNat ('A'.toNat + i.val))⟩ := by
  have hget (i : Fin 26) :
      (ofWords b.words).slots[i] = b.value? (Char.ofNat ('A'.toNat + i.val)) := by
    have hsome : (slot? (Char.ofNat ('A'.toNat + i.val))).isSome = true := by
      rw [slot?_ofNat]
      rfl
    have hvalue := get?_ofWords hsome b.words
    unfold get? at hvalue
    rw [slot?_ofNat] at hvalue
    exact hvalue
  have hslots : (ofWords b.words).slots =
      Vector.ofFn fun i : Fin 26 => b.value? (Char.ofNat ('A'.toNat + i.val)) := by
    apply Vector.ext
    intro i hi
    rw [Vector.getElem_ofFn]
    exact hget ⟨i, hi⟩
  exact congrArg Registers.mk hslots

/-- **One pass over the words finds what a search for each letter finds.**  Whatever words a block
has, in any order and with any letters: for a letter from A to Z its registers and a search of the
block give the same value or both none, and for no other character do the registers give any.  All
of the registers is known from these searches, so words with other letters can be left out. -/
theorem ofWords_eq_search (b : Block α) :
    (∀ l : Char, (ofWords b.words).get? l =
      if 'A' ≤ l ∧ l ≤ 'Z' then b.value? l else none) ∧
    ofWords b.words = ⟨Vector.ofFn fun i => b.value? (Char.ofNat ('A'.toNat + i.val))⟩ ∧
    ofWords (b.words.filter fun w => 'A' ≤ w.letter ∧ w.letter ≤ 'Z') = ofWords b.words :=
  ⟨get?_ofWords_eq_ite b, ofWords_eq_ofFn b, ofWords_filter b.words⟩

/-- The first of two values counts, and a small letter is found by a search only. -/
example :
    let b : Block Nat := ⟨1, "", "", [⟨'x', 7⟩, ⟨'X', 1⟩, ⟨'X', 2⟩], []⟩
    (ofWords b.words).get? 'X' = some 1 ∧ b.value? 'X' = some 1 ∧
    (ofWords b.words).get? 'x' = none ∧ b.value? 'x' = some 7 := by
  decide

end Machining.Registers
