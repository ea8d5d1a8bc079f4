import Mathlib
import Machining.Program.Word

/-!
# The grammar of words

A word is a capital letter and a number; a number is a sign or none and ASCII digits, of which the
last run may stand behind a point.  No letter occurs in a number, so a text is a sequence of words
in one way only, and the cut finds it.

* `DecimalText`, `NumberText`, `WordSpelling` — words as they are spelled, with what they stand for;
* `WordSpelling.cut_flatMap` — a sequence of words is cut at just these words;
* `WordSpelling.exists_of_cut` — a cut without gaps, tail and words without value comes from a
  sequence of words.
-/

set_option autoImplicit false

namespace Machining

/-! ## Spelled numbers -/

/-- A number without its sign: ASCII digits, of which the last run may stand behind a point; all of
them are whole if there is no point. -/
@[ext]
structure DecimalText where
  whole : List Char
  fraction : Option (List Char)
  isDigit_whole : ∀ c ∈ whole, Numeral.isDigit c = true
  isDigit_fraction : ∀ c ∈ fraction.getD [], Numeral.isDigit c = true
  last_ne_nil : fraction.getD whole ≠ []

/-- The mark in front of a number. -/
inductive SignMark
  | absent
  | plus
  | minus
  deriving Repr, DecidableEq, Inhabited

/-- A number of a program: a sign or none, and the number without it. -/
@[ext]
structure NumberText where
  sign : SignMark
  magnitude : DecimalText

namespace DecimalText

/-- The characters of a number without sign. -/
def toList (d : DecimalText) : List Char := d.whole ++ d.fraction.elim [] ('.' :: ·)

/-- The value of the digits: one whole number over a power of ten. -/
def value {α : Type} [Scalar α] (d : DecimalText) : α :=
  let ds := d.fraction.getD []
  OfScientific.ofScientific (Numeral.value (d.whole ++ ds)) true ds.length

/-- The digits end where the point stands, or at the end. -/
theorem takeWhile_toList (d : DecimalText) : d.toList.takeWhile Numeral.isDigit = d.whole := by
  rw [toList, List.takeWhile_append_of_pos d.isDigit_whole]
  cases d.fraction with
  | none => simp
  | some ds => simp [Numeral.isDigit]

theorem dropWhile_toList (d : DecimalText) :
    d.toList.dropWhile Numeral.isDigit = d.fraction.elim [] ('.' :: ·) := by
  rw [toList, List.dropWhile_append_of_pos d.isDigit_whole]
  cases d.fraction with
  | none => rfl
  | some ds => simp [Numeral.isDigit]

/-- The first character is a digit or the point. -/
theorem exists_toList_eq_cons (d : DecimalText) :
    ∃ c cs, d.toList = c :: cs ∧ (Numeral.isDigit c = true ∨ c = '.') := by
  unfold toList
  cases hw : d.whole with
  | nil =>
    cases hf : d.fraction with
    | none => exact absurd (by rw [hf, hw]; rfl) d.last_ne_nil
    | some ds => exact ⟨'.', ds, rfl, Or.inr rfl⟩
  | cons c cs =>
    have hc : c ∈ d.whole := by rw [hw]; exact List.mem_cons_self
    exact ⟨c, _, rfl, Or.inl (d.isDigit_whole c hc)⟩

/-- Digits alone are a number. -/
theorem exists_of_digits {ds : List Char} (hds : ∀ c ∈ ds, Numeral.isDigit c = true)
    (hne : ds ≠ []) : ∃ d : DecimalText, d.toList = ds :=
  ⟨⟨ds, none, hds, (fun _ h => nomatch h), hne⟩, List.append_nil ds⟩

theorem toList_injective : Function.Injective toList := by
  intro d d' h
  have hfraction : d.fraction.elim [] ('.' :: ·) = d'.fraction.elim [] ('.' :: ·) := by
    rw [← d.dropWhile_toList, h, d'.dropWhile_toList]
  ext1
  · rw [← d.takeWhile_toList, h, d'.takeWhile_toList]
  · cases hd : d.fraction <;> cases hd' : d'.fraction <;> simp_all

/-- The value that is read is the value of the digits. -/
theorem unsignedValue?_toList {α : Type} [Scalar α] (d : DecimalText) :
    (Word.unsignedValue? d.toList : Option α) = some d.value := by
  have hfraction := d.isDigit_fraction
  have hlast := d.last_ne_nil
  unfold Word.unsignedValue? Numeral.splitDigits value
  simp only [takeWhile_toList, dropWhile_toList]
  cases hf : d.fraction with
  | none =>
    rw [hf] at hlast
    simpa [Numeral.splitFraction] using hlast
  | some ds =>
    rw [hf] at hfraction hlast
    have htake : ds.takeWhile Numeral.isDigit = ds := List.takeWhile_eq_self_iff.2 hfraction
    have hdrop : ds.dropWhile Numeral.isDigit = [] := List.dropWhile_eq_nil_iff.2 hfraction
    simp only [Option.getD_some] at hlast
    simp [Numeral.splitFraction, Numeral.splitDigits, htake, hdrop, hlast]

end DecimalText

namespace SignMark

/-- The characters of a mark. -/
def toList : SignMark → List Char
  | absent => []
  | plus => ['+']
  | minus => ['-']

/-- The mark a text starts with. -/
def ofHead : Option Char → SignMark
  | some '+' => plus
  | some '-' => minus
  | _ => absent

end SignMark

namespace NumberText

/-- The characters of a number. -/
def toList (n : NumberText) : List Char := n.sign.toList ++ n.magnitude.toList

/-- The value of a number. -/
def value {α : Type} [Scalar α] (n : NumberText) : α :=
  if n.sign = .minus then -n.magnitude.value else n.magnitude.value

theorem ne_sign_of_digit_or_point {c : Char} (h : Numeral.isDigit c = true ∨ c = '.') :
    c ≠ '+' ∧ c ≠ '-' := by
  constructor <;> (rintro rfl; exact absurd h (by decide))

theorem splitSign_of_ne {c : Char} {cs : List Char} (h : c ≠ '+' ∧ c ≠ '-') :
    Numeral.splitSign (c :: cs) = (false, c :: cs) := by
  unfold Numeral.splitSign
  split
  · rename_i heq
    exact absurd (List.cons.inj heq).1 h.2
  · rename_i heq
    exact absurd (List.cons.inj heq).1 h.1
  · rfl

theorem splitSign_toList (n : NumberText) :
    Numeral.splitSign n.toList = (decide (n.sign = .minus), n.magnitude.toList) := by
  obtain ⟨c, cs, hu, hc⟩ := n.magnitude.exists_toList_eq_cons
  unfold toList
  cases n.sign with
  | plus => rfl
  | minus => rfl
  | absent =>
    rw [hu, SignMark.toList, List.nil_append, splitSign_of_ne (ne_sign_of_digit_or_point hc)]
    rfl

theorem ofHead_toList (n : NumberText) : SignMark.ofHead n.toList.head? = n.sign := by
  obtain ⟨c, cs, hu, hc⟩ := n.magnitude.exists_toList_eq_cons
  have hne := ne_sign_of_digit_or_point hc
  unfold toList
  cases n.sign with
  | plus => rfl
  | minus => rfl
  | absent => simp [hu, SignMark.toList, SignMark.ofHead, hne.1, hne.2]

theorem toList_injective : Function.Injective toList := by
  intro n m h
  have hunsigned : n.magnitude.toList = m.magnitude.toList := by
    have hsplit := congrArg (fun cs => (Numeral.splitSign cs).2) h
    simpa only [splitSign_toList] using hsplit
  ext1
  · rw [← n.ofHead_toList, h, m.ofHead_toList]
  · exact DecimalText.toList_injective hunsigned

/-- **The value that is read is the value of the number.** -/
theorem value?_toList {α : Type} [Scalar α] (n : NumberText) :
    (Word.value? n.toList : Option α) = some n.value := by
  simp [Word.value?, splitSign_toList, DecimalText.unsignedValue?_toList, value]

end NumberText

/-! ## Spelled words -/

/-- A word of a program: a capital letter and a number. -/
@[ext]
structure WordSpelling where
  letter : Char
  number : NumberText
  isLetter_letter : Word.isLetter letter = true

namespace WordSpelling

/-- A word as the cut returns it. -/
def toText (w : WordSpelling) : WordText := ⟨w.letter, w.number.toList⟩

/-- The characters of a word. -/
def toList (w : WordSpelling) : List Char := w.toText.toList

/-- What a word stands for. -/
def word {α : Type} [Scalar α] (w : WordSpelling) : Word α := ⟨w.letter, w.number.value⟩

theorem toText_injective : Function.Injective toText := by
  intro w v h
  simp only [toText, WordText.mk.injEq] at h
  ext1
  · exact h.1
  · exact NumberText.toList_injective h.2

theorem ofText?_toText {α : Type} [Scalar α] (w : WordSpelling) :
    (Word.ofText? w.toText : Option (Word α)) = some w.word := by
  simp [Word.ofText?, toText, NumberText.value?_toList, word]

end WordSpelling

/-! ## Words are found -/

namespace Word

/-- No letter is a digit, of whatever script, or a point. -/
theorem not_number_of_isLetter {c : Char} (h : isLetter c = true) :
    Text.isDecimalDigit c = false ∧ c ≠ '.' := by
  simp only [isLetter, Bool.and_eq_true, decide_eq_true_eq] at h
  have hlow : 65 ≤ c.toNat := h.1
  have hhigh : c.toNat ≤ 90 := h.2
  constructor
  · have hdigit : ¬ c ≤ '9' := fun h9 => by
      have h9 : c.toNat ≤ 57 := h9
      omega
    rw [Text.isDecimalDigit, if_pos (by omega)]
    simp [Numeral.isDigit, hdigit]
  · rintro rfl
    exact absurd hlow (by decide)

/-- Nothing stands here, or a letter does. -/
def Opens (rest : List Char) : Prop := ∀ c ∈ rest.head?, isLetter c = true

theorem opens_nil : Opens [] := fun _ h => nomatch h

theorem opens_cons {c : Char} {cs : List Char} (h : isLetter c = true) : Opens (c :: cs) := by
  rintro _ ⟨⟩
  exact h

/-- A run of digits ends where a letter follows or the text does. -/
theorem takeWhile_append_of_opens {ds rest : List Char}
    (hds : ∀ c ∈ ds, Numeral.isDigit c = true) (hrest : Opens rest) :
    (ds ++ rest).takeWhile Text.isDecimalDigit = ds ∧
      (ds ++ rest).dropWhile Text.isDecimalDigit = rest := by
  have hds' : ∀ c ∈ ds, Text.isDecimalDigit c = true := fun c hc =>
    Text.isDecimalDigit_of_isDigit (hds c hc)
  rw [List.takeWhile_append_of_pos hds', List.dropWhile_append_of_pos hds']
  cases rest with
  | nil => simp
  | cons c cs => simp [(not_number_of_isLetter (hrest c rfl)).1]

/-- A number is taken whole. -/
theorem splitUnsigned?_toList_append (d : DecimalText) {rest : List Char} (hrest : Opens rest) :
    splitUnsigned? (d.toList ++ rest) = some (d.toList, rest) := by
  have hlast := d.last_ne_nil
  unfold splitUnsigned? DecimalText.toList
  cases hf : d.fraction with
  | none =>
    obtain ⟨htake, hdrop⟩ := takeWhile_append_of_opens d.isDigit_whole hrest
    have hne : d.whole ≠ [] := by simpa [hf] using hlast
    simp only [Option.elim_none, List.append_nil, htake, hdrop]
    split
    · exact absurd rfl (not_number_of_isLetter (hrest '.' rfl)).2
    · simp [hne]
  | some ds =>
    have hds : ∀ c ∈ ds, Numeral.isDigit c = true := by simpa [hf] using d.isDigit_fraction
    have hwhole : ∀ c ∈ d.whole, Text.isDecimalDigit c = true := fun c hc =>
      Text.isDecimalDigit_of_isDigit (d.isDigit_whole c hc)
    have hpoint : Text.isDecimalDigit '.' = false := by decide
    obtain ⟨htake, hdrop⟩ := takeWhile_append_of_opens hds hrest
    simp only [Option.elim_some, List.append_assoc, List.cons_append,
      List.takeWhile_append_of_pos hwhole, List.dropWhile_append_of_pos hwhole,
      List.takeWhile_cons, List.dropWhile_cons, hpoint, Bool.false_eq_true, if_false,
      List.append_nil, htake, hdrop]
    have hne : ds ≠ [] := by simpa [hf] using hlast
    obtain ⟨x, xs, rfl⟩ := List.exists_cons_of_ne_nil hne
    rfl

theorem splitNumber?_toList_append (n : NumberText) {rest : List Char} (hrest : Opens rest) :
    splitNumber? (n.toList ++ rest) = some (n.toList, rest) := by
  have hsplit := splitUnsigned?_toList_append n.magnitude hrest
  unfold NumberText.toList
  cases n.sign with
  | plus => simp [SignMark.toList, splitNumber?, hsplit]
  | minus => simp [SignMark.toList, splitNumber?, hsplit]
  | absent =>
    obtain ⟨c, cs, hu, hc⟩ := n.magnitude.exists_toList_eq_cons
    have hne := NumberText.ne_sign_of_digit_or_point hc
    rw [hu] at hsplit ⊢
    simpa [SignMark.toList, splitNumber?, hne.1, hne.2] using hsplit

theorem split?_toList_append (w : WordSpelling) {rest : List Char} (hrest : Opens rest) :
    split? (w.toList ++ rest) = some (w.toText, rest) := by
  simp [WordSpelling.toList, WordSpelling.toText, WordText.toList, split?, w.isLetter_letter,
    splitNumber?_toList_append w.number hrest]

theorem cut_of_split? {cs rest : List Char} {w : WordText} (h : split? cs = some (w, rest)) :
    cut cs = ⟨([], w) :: (cut rest).words, (cut rest).tail⟩ := by
  rw [cut]
  split
  · rename_i heq
    rw [h] at heq
    cases heq
    rfl
  · rename_i heq
    rw [h] at heq
    cases heq

end Word

namespace WordSpelling

theorem opens_flatMap (ws : List WordSpelling) : Word.Opens (ws.flatMap toList) := by
  cases ws with
  | nil => exact Word.opens_nil
  | cons w ws => exact Word.opens_cons w.isLetter_letter

/-- **A sequence of words is cut at just these words.** -/
theorem cut_flatMap (ws : List WordSpelling) :
    Word.cut (ws.flatMap toList) = ⟨ws.map fun w => ([], w.toText), []⟩ := by
  induction ws with
  | nil =>
    rw [List.flatMap_nil, Word.cut]
    rfl
  | cons w ws ih =>
    rw [List.flatMap_cons, Word.cut_of_split? (Word.split?_toList_append w (opens_flatMap ws)), ih]
    rfl

/-- **A text is a sequence of words in one way only.** -/
theorem flatMap_toList_injective :
    Function.Injective fun ws : List WordSpelling => ws.flatMap toList := by
  intro ws vs h
  have hcut : (⟨ws.map fun w => ([], w.toText), []⟩ : Cut) =
      ⟨vs.map fun w => ([], w.toText), []⟩ := by
    rw [← cut_flatMap, ← cut_flatMap]
    exact congrArg Word.cut h
  have hinj : Function.Injective fun w : WordSpelling => (([] : List Char), w.toText) :=
    fun w v hwv => toText_injective (Prod.mk.inj hwv).2
  exact List.map_injective_iff.2 hinj (Cut.mk.inj hcut).1

end WordSpelling

/-! ## What is found is a word -/

namespace Word

variable {α : Type} [Scalar α] {cs n rest : List Char}

/-- What has a value is made of ASCII digits and points. -/
theorem digit_or_point_of_unsignedValue? (h : (unsignedValue? n : Option α).isSome = true) :
    ∀ c ∈ n, Numeral.isDigit c = true ∨ c = '.' := by
  have hempty : (Numeral.splitFraction (n.dropWhile Numeral.isDigit)).2 = [] := by
    unfold unsignedValue? Numeral.splitDigits at h
    simp only at h
    split at h
    · rename_i hif
      simp only [Bool.and_eq_true, List.isEmpty_iff] at hif
      exact hif.1
    · cases h
  intro c hc
  rw [← List.takeWhile_append_dropWhile (p := Numeral.isDigit) (l := n)] at hc
  rcases List.mem_append.1 hc with hwhole | hrest
  · exact Or.inl (List.mem_takeWhile_imp hwhole)
  · generalize n.dropWhile Numeral.isDigit = after at hempty hrest
    unfold Numeral.splitFraction at hempty
    split at hempty
    · rcases List.mem_cons.1 hrest with rfl | hfraction
      · exact Or.inr rfl
      · exact Or.inl (List.dropWhile_eq_nil_iff.1 hempty c hfraction)
    · obtain rfl : after = [] := hempty
      cases hrest

/-- What is taken are digits alone, or a point with digits after it and perhaps before it. -/
theorem eq_of_splitUnsigned? (h : splitUnsigned? cs = some (n, rest)) :
    (n = cs.takeWhile Text.isDecimalDigit ∧ n ≠ []) ∨
      ∃ after : List Char, after.takeWhile Text.isDecimalDigit ≠ [] ∧
        n = cs.takeWhile Text.isDecimalDigit ++ '.' :: after.takeWhile Text.isDecimalDigit := by
  have halone : ∀ {r : List Char}, (if (cs.takeWhile Text.isDecimalDigit).isEmpty then none
      else some (cs.takeWhile Text.isDecimalDigit, r)) = some (n, rest) →
        n = cs.takeWhile Text.isDecimalDigit ∧ n ≠ [] := by
    intro r hr
    split at hr
    · cases hr
    · rename_i hne
      cases hr
      exact ⟨rfl, by simpa using hne⟩
  unfold splitUnsigned? at h
  simp only at h
  split at h
  · rename_i after _
    split at h
    · exact Or.inl (halone h)
    · rename_i hne
      cases h
      exact Or.inr ⟨after, hne, rfl⟩
  · exact Or.inl (halone h)

/-- What is taken is a number if its digits are ASCII digits. -/
theorem exists_decimalText (h : splitUnsigned? cs = some (n, rest))
    (hn : ∀ c ∈ n, Numeral.isDigit c = true ∨ c = '.') : ∃ d : DecimalText, d.toList = n := by
  -- of the decimal digits that are taken, only the ASCII ones are admitted
  have hascii : ∀ l : List Char, l.takeWhile Text.isDecimalDigit ⊆ n →
      ∀ c ∈ l.takeWhile Text.isDecimalDigit, Numeral.isDigit c = true := by
    intro l hsub c hc
    rcases hn c (hsub hc) with hdigit | rfl
    · exact hdigit
    · exact absurd (List.mem_takeWhile_imp hc) (by decide)
  rcases eq_of_splitUnsigned? h with ⟨rfl, hne⟩ | ⟨after, hne, rfl⟩
  · exact DecimalText.exists_of_digits (hascii cs (List.Subset.refl _)) hne
  · have hwhole := hascii cs (List.subset_append_left _ _)
    have hfraction := hascii after fun c hc =>
      List.mem_append_right _ (List.mem_cons_of_mem '.' hc)
    exact ⟨⟨_, some (after.takeWhile Text.isDecimalDigit), hwhole, hfraction, hne⟩, rfl⟩

/-- What is taken with its sign is a number if it has a value. -/
theorem exists_numberText (h : splitNumber? cs = some (n, rest))
    (hv : (value? n : Option α).isSome = true) : ∃ t : NumberText, t.toList = n := by
  have hvalue : ∀ {negative : Bool} {m : List Char}, Numeral.splitSign n = (negative, m) →
      (unsignedValue? m : Option α).isSome = true := by
    intro negative m hsplit
    simpa [value?, hsplit] using hv
  unfold splitNumber? at h
  split at h
  · cases h
  · rename_i c cs
    split at h
    · rename_i hsign
      simp only [Option.map_eq_some_iff, Prod.mk.injEq, Prod.exists] at h
      obtain ⟨m, _, hm, rfl, -⟩ := h
      have hm' : (unsignedValue? m : Option α).isSome = true := by
        rcases hsign with rfl | rfl
        · exact hvalue rfl
        · exact hvalue rfl
      obtain ⟨d, rfl⟩ := exists_decimalText hm (digit_or_point_of_unsignedValue? hm')
      rcases hsign with rfl | rfl
      · exact ⟨⟨.plus, d⟩, rfl⟩
      · exact ⟨⟨.minus, d⟩, rfl⟩
    · rename_i hsign
      have hhead : Numeral.splitSign n = (false, n) := by
        cases n with
        | nil => rfl
        | cons x xs =>
          obtain ⟨rfl, -⟩ := List.cons.inj (splitUnsigned?_append h)
          exact NumberText.splitSign_of_ne (not_or.1 hsign)
      obtain ⟨d, rfl⟩ := exists_decimalText h (digit_or_point_of_unsignedValue? (hvalue hhead))
      exact ⟨⟨.absent, d⟩, rfl⟩

theorem exists_wordSpelling {w : WordText} (h : split? cs = some (w, rest))
    (hv : (ofText? w : Option (Word α)).isSome = true) : ∃ s : WordSpelling, s.toText = w := by
  unfold split? at h
  split at h
  · cases h
  · split at h
    · rename_i hletter
      simp only [Option.map_eq_some_iff, Prod.mk.injEq, Prod.exists] at h
      obtain ⟨n, _, hn, rfl, -⟩ := h
      obtain ⟨t, rfl⟩ := exists_numberText (α := α) hn (by simpa [ofText?] using hv)
      exact ⟨⟨_, t, hletter⟩, rfl⟩
    · cases h

theorem words_cons (x : Char) (c : Cut) :
    (c.cons x).words.map Prod.snd = c.words.map Prod.snd := by
  rcases c with ⟨_ | ⟨⟨gap, w⟩, ws⟩, tail⟩ <;> rfl

/-- Every word of a cut was found somewhere. -/
theorem exists_split?_of_mem_cut (cs : List Char) : ∀ w ∈ (cut cs).words.map Prod.snd,
    ∃ cs' rest, split? cs' = some (w, rest) := by
  fun_induction cut cs with
  | case1 cs w rest h _ c ih =>
    intro v hv
    simp only [List.map_cons, List.mem_cons] at hv
    rcases hv with rfl | hv
    · exact ⟨cs, rest, h⟩
    · exact ih v hv
  | case2 h => intro v hv; cases hv
  | case3 x xs h ih =>
    rw [words_cons]
    exact ih

end Word

/-- **A cut without gaps, tail and words without value comes from a sequence of words.** -/
theorem WordSpelling.exists_of_cut {α : Type} [Scalar α] {cs : List Char}
    (htail : (Word.cut cs).tail = [])
    (hwords : ∀ p ∈ (Word.cut cs).words,
      p.1 = [] ∧ (Word.ofText? p.2 : Option (Word α)).isSome = true) :
    ∃ ws : List WordSpelling, ws.flatMap toList = cs := by
  have hrange : (Word.cut cs).words ∈
      Set.range (List.map fun w : WordSpelling => (([] : List Char), w.toText)) := by
    rw [Set.range_list_map]
    rintro ⟨gap, w⟩ hp
    obtain ⟨rfl, hv⟩ := hwords _ hp
    obtain ⟨cs', rest, hsplit⟩ :=
      Word.exists_split?_of_mem_cut cs w (List.mem_map.2 ⟨_, hp, rfl⟩)
    obtain ⟨s, rfl⟩ := Word.exists_wordSpelling hsplit hv
    exact ⟨s, rfl⟩
  obtain ⟨ws, hws⟩ := hrange
  refine ⟨ws, ?_⟩
  calc ws.flatMap toList
      = (⟨ws.map fun w => ([], w.toText), []⟩ : Cut).toList := by
        simp only [Cut.toList, List.flatMap_map, List.nil_append, List.append_nil]
        rfl
    _ = (Word.cut cs).toList := by rw [hws, ← htail]
    _ = cs := Word.toList_cut cs

end Machining
