import Machining.Json.Token
import Machining.Proofs.Json.Text

/-!
# Spellings of tokens

A text of tokens has blanks wherever two tokens meet, and at its ends; any blanks, or none.  The
one thing to mind is that a number ends where it seems to end: what follows it must not go on with
a digit, a point or an exponent.

* `number?_append` — a number is read in front of what ends it;
* `TokenSpelling`, `Spelled` — the ways of writing a token and a sequence of tokens;
* `tokens?_of_spelled` — every spelling of a sequence of tokens is cut into these tokens.
-/

set_option autoImplicit false

namespace Machining.Json

/-! ## The end of a number -/

/-- A character that a number can go on with. -/
def continuesNumber (c : Char) : Bool :=
  Numeral.isDigit c || c == '.' || c == 'e' || c == 'E' || c == '+' || c == '-'

/-- What follows does not go on with a number. -/
def EndsNumber (rest : List Char) : Prop := ∀ c ∈ rest.head?, continuesNumber c = false

theorem endsNumber_nil : EndsNumber [] := fun _ h => nomatch h

theorem endsNumber_cons {c : Char} {cs : List Char} (h : continuesNumber c = false) :
    EndsNumber (c :: cs) := by
  rintro _ ⟨⟩
  exact h

variable {rest : List Char}

theorem EndsNumber.ne (h : EndsNumber rest) {c : Char} (hc : continuesNumber c = true)
    (cs : List Char) : rest ≠ c :: cs := by
  rintro rfl
  rw [h c rfl] at hc
  cases hc

theorem splitFraction_of_ne {cs : List Char} (h : ∀ ds, cs ≠ '.' :: ds) :
    Numeral.splitFraction cs = ([], cs) := by
  unfold Numeral.splitFraction
  split
  · exact absurd rfl (h _)
  · rfl

theorem splitSign_of_ne {cs : List Char} (hminus : ∀ ds, cs ≠ '-' :: ds)
    (hplus : ∀ ds, cs ≠ '+' :: ds) : Numeral.splitSign cs = (false, cs) := by
  unfold Numeral.splitSign
  split
  · exact absurd rfl (hminus _)
  · exact absurd rfl (hplus _)
  · rfl

namespace EndsNumber

variable (h : EndsNumber rest)

include h

theorem splitDigits (cs : List Char) : Numeral.splitDigits (cs ++ rest) =
    ((Numeral.splitDigits cs).1, (Numeral.splitDigits cs).2 ++ rest) := by
  unfold Numeral.splitDigits
  induction cs with
  | nil =>
    cases rest with
    | nil => rfl
    | cons c cs =>
      have hc : Numeral.isDigit c = false := by
        have hnot := h c rfl
        simp only [continuesNumber, Bool.or_eq_false_iff] at hnot
        exact hnot.1.1.1.1.1
      simp [hc]
  | cons c cs ih =>
    rw [Prod.mk.injEq] at ih ⊢
    cases hc : Numeral.isDigit c
    · simp [hc]
    · simpa [hc] using ih

theorem splitFraction (cs : List Char) : Numeral.splitFraction (cs ++ rest) =
    ((Numeral.splitFraction cs).1, (Numeral.splitFraction cs).2 ++ rest) := by
  by_cases hpoint : ∃ ds, cs = '.' :: ds
  · obtain ⟨ds, rfl⟩ := hpoint
    exact h.splitDigits ds
  · have hcs : ∀ ds, cs ≠ '.' :: ds := fun ds hds => hpoint ⟨ds, hds⟩
    rw [splitFraction_of_ne hcs, splitFraction_of_ne]
    cases cs with
    | nil => exact h.ne rfl
    | cons c cs =>
      rintro ds ⟨⟩
      exact hcs _ rfl

theorem splitSign (cs : List Char) : Numeral.splitSign (cs ++ rest) =
    ((Numeral.splitSign cs).1, (Numeral.splitSign cs).2 ++ rest) := by
  cases cs with
  | nil => exact splitSign_of_ne (h.ne rfl) (h.ne rfl)
  | cons c cs =>
    by_cases hminus : c = '-'
    · subst hminus
      rfl
    by_cases hplus : c = '+'
    · subst hplus
      rfl
    have hne (ds : List Char) : (∀ es, c :: ds ≠ '-' :: es) ∧ ∀ es, c :: ds ≠ '+' :: es :=
      ⟨fun es hes => hminus (List.cons.inj hes).1, fun es hes => hplus (List.cons.inj hes).1⟩
    rw [List.cons_append, splitSign_of_ne (hne _).1 (hne _).2, splitSign_of_ne (hne _).1 (hne _).2]
    rfl

theorem splitExponent? {cs r : List Char} {e : Option Int}
    (he : Json.splitExponent? cs = some (e, r)) :
    Json.splitExponent? (cs ++ rest) = some (e, r ++ rest) := by
  cases cs with
  | nil =>
    cases he
    cases rest with
    | nil => rfl
    | cons c cs =>
      have hc : ¬(c = 'e' ∨ c = 'E') := by
        rintro (rfl | rfl)
        · exact h.ne rfl cs rfl
        · exact h.ne rfl cs rfl
      rw [List.nil_append, Json.splitExponent?, if_neg hc]
  | cons c cs =>
    simp only [List.cons_append, Json.splitExponent?, h.splitSign, h.splitDigits] at he ⊢
    split at he
    · rename_i hc
      rw [if_pos hc]
      split at he
      · cases he
      · rename_i hdigits
        rw [if_neg hdigits]
        cases he
        rfl
    · rename_i hc
      rw [if_neg hc]
      cases he
      rfl

theorem head?_append (ds : List Char) :
    ((ds ++ rest).head? == some '.') = (ds.head? == some '.') := by
  cases ds with
  | nil =>
    cases rest with
    | nil => rfl
    | cons c cs =>
      have hc : c ≠ '.' := fun hc => h.ne (c := '.') rfl cs (by rw [hc])
      simp [hc]
  | cons d ds => rfl

theorem magnitude? {negative : Bool} {cs r : List Char} {v : Node}
    (hv : Json.magnitude? negative cs = some (v, r)) :
    Json.magnitude? negative (cs ++ rest) = some (v, r ++ rest) := by
  unfold Json.magnitude? at hv ⊢
  simp only [h.splitDigits, h.splitFraction, h.head?_append] at hv ⊢
  split at hv
  · cases hv
  · rename_i hwhole
    rw [if_neg hwhole]
    simp only [Option.bind_eq_bind, Option.bind_eq_some_iff, Option.some.injEq, Prod.mk.injEq,
      Prod.exists] at hv ⊢
    obtain ⟨e, r', he, hnode, rfl⟩ := hv
    exact ⟨e, _, h.splitExponent? he, hnode, rfl⟩

end EndsNumber

theorem number?_cons_of_ne {c : Char} (hc : c ≠ '-') (cs : List Char) :
    number? (c :: cs) = magnitude? false (c :: cs) := by
  unfold number?
  split
  · rename_i heq
    exact absurd (List.cons.inj heq).1 hc
  · rfl

/-- **A number is read in front of what ends it.** -/
theorem number?_append {cs r : List Char} {v : Node} (hv : number? cs = some (v, r))
    (h : EndsNumber rest) : number? (cs ++ rest) = some (v, r ++ rest) := by
  cases cs with
  | nil => exact absurd (length_of_number? hv) (Nat.not_lt_zero _)
  | cons c cs =>
    by_cases hc : c = '-'
    · subst hc
      exact h.magnitude? hv
    · rw [number?_cons_of_ne hc] at hv
      rw [List.cons_append, number?_cons_of_ne hc]
      exact h.magnitude? hv

/-! ## Tokens -/

/-- The ways of writing a token. -/
inductive TokenSpelling : Token → List Char → Prop
  | openList : TokenSpelling .openList ['[']
  | closeList : TokenSpelling .closeList [']']
  | openRecord : TokenSpelling .openRecord ['\x7b']
  | closeRecord : TokenSpelling .closeRecord ['\x7d']
  | comma : TokenSpelling .comma [',']
  | colon : TokenSpelling .colon [':']
  | text {s : String} {ds : List Char} (h : TextSpelling s.toList ds) :
      TokenSpelling (.text (some s)) ('"' :: ds ++ ['"'])
  | null : TokenSpelling (.scalar .null) "null".toList
  | truth (b : Bool) : TokenSpelling (.scalar (.truth b)) (if b then "true" else "false").toList
  | number {v : Node} {ds : List Char} (h : number? ds = some (v, [])) :
      TokenSpelling (.scalar v) ds

/-- The ways of writing a sequence of tokens.  What follows a number or a word does not go on with a
number. -/
inductive Spelled : List Token → List Char → Prop
  | nil : Spelled [] []
  | blank {c : Char} {ts : List Token} {cs : List Char} (hc : isBlank c = true)
      (h : Spelled ts cs) : Spelled ts (c :: cs)
  | token {t : Token} {ts : List Token} {ds cs : List Char} (ht : TokenSpelling t ds)
      (hends : ∀ v, t = .scalar v → EndsNumber cs) (h : Spelled ts cs) :
      Spelled (t :: ts) (ds ++ cs)

/-- The first character of a number. -/
def opensNumber (c : Char) : Bool := Numeral.isDigit c || c == '-'

theorem exists_cons_of_magnitude? {negative : Bool} {cs r : List Char} {v : Node}
    (h : magnitude? negative cs = some (v, r)) :
    ∃ c ds, cs = c :: ds ∧ Numeral.isDigit c = true := by
  cases cs with
  | nil => exact absurd (length_of_magnitude? h) (Nat.not_lt_zero _)
  | cons c cs =>
    refine ⟨c, cs, rfl, ?_⟩
    by_contra hc
    have hwhole : (Numeral.splitDigits (c :: cs)).1 = [] := by simp [Numeral.splitDigits, hc]
    simp [magnitude?, hwhole, isWholePart] at h

theorem exists_cons_of_number? {cs r : List Char} {v : Node} (h : number? cs = some (v, r)) :
    ∃ c ds, cs = c :: ds ∧ opensNumber c = true := by
  unfold number? at h
  split at h
  · exact ⟨_, _, rfl, rfl⟩
  · obtain ⟨c, ds, rfl, hc⟩ := exists_cons_of_magnitude? h
    exact ⟨c, ds, rfl, by simp [opensNumber, hc]⟩

/-- What begins like a number is read as a number. -/
theorem token?_of_opensNumber {c : Char} (hc : opensNumber c = true) (cs : List Char) :
    token? (c :: cs) = (number? (c :: cs)).map fun p => (.scalar p.1, p.2) := by
  have hne {d : Char} {ds : List Char} (hd : opensNumber d = false) : c :: cs ≠ d :: ds := by
    rintro ⟨⟩
    cases hc.symm.trans hd
  unfold token?
  split
  case h_11 => rfl
  all_goals exact absurd (by assumption) (hne rfl)

/-- A token does not begin with a blank. -/
theorem TokenSpelling.exists_cons {t : Token} {ds : List Char} (h : TokenSpelling t ds) :
    ∃ c cs, ds = c :: cs ∧ isBlank c = false := by
  cases h with
  | number h =>
    obtain ⟨c, cs, rfl, hc⟩ := exists_cons_of_number? h
    refine ⟨c, cs, rfl, ?_⟩
    by_contra hblank
    simp only [isBlank, Bool.not_eq_false, Bool.or_eq_true, beq_iff_eq] at hblank
    obtain ((rfl | rfl) | rfl) | rfl := hblank <;> cases hc
  | truth b => cases b <;> exact ⟨_, _, rfl, rfl⟩
  | _ => exact ⟨_, _, rfl, rfl⟩

/-- **A spelling of a token is read as the token.** -/
theorem TokenSpelling.token? {t : Token} {ds rest : List Char} (h : TokenSpelling t ds)
    (hends : ∀ v, t = .scalar v → EndsNumber rest) :
    Json.token? (ds ++ rest) = some (t, rest) := by
  cases h with
  | @text s ds h =>
    have hread := unquoteText?_of_spelling h rest
    simp only [unquoteText?, Option.bind_eq_some_iff, Option.map_eq_some_iff, Prod.mk.injEq,
      Prod.exists] at hread
    obtain ⟨codes, r, hcodes, cs, hjoin, rfl, hr⟩ := hread
    obtain rfl : rest = r := hr.symm
    have happend : '"' :: ds ++ ['"'] ++ rest = '"' :: (ds ++ '"' :: rest) := by simp
    rw [happend, Json.token?, hcodes, Option.map_some]
    simp only [hjoin, Option.map_some, String.ofList_toList]
  | truth b => cases b <;> rfl
  | @number v ds h =>
    have hnumber := number?_append h (hends v rfl)
    obtain ⟨c, cs, rfl, hc⟩ := exists_cons_of_number? h
    rw [List.cons_append] at hnumber ⊢
    rw [token?_of_opensNumber hc, hnumber]
    rfl
  | _ => rfl

/-- **A spelling of a sequence of tokens is cut into these tokens.** -/
theorem tokens?_of_spelled {ts : List Token} {cs : List Char} (h : Spelled ts cs) :
    tokens? cs = some ts := by
  induction h with
  | nil => rw [tokens?]
  | blank hc _ ih => rw [tokens?, if_pos hc, ih]
  | @token t ts ds cs ht hends _ ih =>
    obtain ⟨c, ds', rfl, hc⟩ := ht.exists_cons
    have htoken := ht.token? hends
    rw [List.cons_append] at htoken ⊢
    rw [tokens?, if_neg (by simp [hc])]
    split
    · rename_i hnone
      cases htoken.symm.trans hnone
    · rename_i hsome
      cases htoken.symm.trans hsome
      rw [ih, Option.map_some]

end Machining.Json
