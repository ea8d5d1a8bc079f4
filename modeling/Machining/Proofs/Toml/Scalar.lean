import Machining.Proofs.Decimal.Reading
import Machining.Proofs.Toml.Text
import Machining.Toml.Reading

/-!
# Scalars of TOML read back

A finite double is written with digits on both sides of a point.  Such a run of characters is no
date, no time and no word, and its digits are read as the double nearest to them, which is the
double that was written.

* `isMoment_toList` — a number is no date or time;
* `decimal?_toList` — a number with a point is read digit by digit;
* `scalar?_keyed` — a written double reads back;
* `value?_scalarText` — so does every written scalar.
-/

set_option autoImplicit false

namespace Machining.Toml

/-! ## Digits -/

/-- Digits are read as they stand. -/
theorem ungroup?_digits {cs : List Char} (hne : cs ≠ [])
    (hcs : ∀ c ∈ cs, Numeral.isDigit c = true) : ungroup? Numeral.isDigit cs = some cs := by
  induction cs with
  | nil => exact absurd rfl hne
  | cons c cs ih =>
    obtain ⟨hc, hcs⟩ := List.forall_mem_cons.1 hcs
    cases cs with
    | nil => rw [ungroup?, if_pos hc]
    | cons d ds =>
      have hd : d ≠ '_' := by
        rintro rfl
        exact absurd (List.forall_mem_cons.1 hcs).1 (by decide)
      rw [ungroup?, if_pos hc, ih (List.cons_ne_nil d ds) hcs, Option.map_some]
      exact hd

theorem wholeDigits?_digits {cs : List Char} (hne : cs ≠ [])
    (hcs : ∀ c ∈ cs, Numeral.isDigit c = true) (hlead : cs.head? = some '0' → cs = ['0']) :
    wholeDigits? cs = some cs := by
  rw [wholeDigits?, ungroup?_digits hne hcs]
  split
  · rename_i hzero
    exact hzero.symm
  · rename_i hnot hzero
    cases hzero
    exact absurd (List.cons.inj (hlead rfl)).2 hnot
  · rfl

/-- Digits before something that belongs to no group of digits. -/
theorem splitGroups_append {cs : List Char} (hcs : ∀ c ∈ cs, Numeral.isDigit c = true)
    (rest : List Char) (hrest : ∀ c ∈ rest.head?, Numeral.isDigit c = false ∧ c ≠ '_') :
    splitGroups (cs ++ rest) = (cs, rest) := by
  have hall : ∀ c ∈ cs, (Numeral.isDigit c || c == '_') = true := fun c hc => by simp [hcs c hc]
  have hstop : ∀ c ∈ rest.head?, (Numeral.isDigit c || c == '_') = false :=
    fun c hc => by simp [hrest c hc]
  obtain ⟨htake, hdrop⟩ := span_append hall hstop
  rw [splitGroups, htake, hdrop]

/-! ## Numbers -/

/-- A number as documents write it: no plus sign, no leading zeros, digits on both sides of a
point. -/
structure IsKeyed (n : NumberText) : Prop where
  sign_ne_plus : n.sign ≠ .plus
  whole_ne_nil : n.magnitude.whole ≠ []
  leading : n.magnitude.whole.head? = some '0' → n.magnitude.whole = ['0']
  fraction_ne_nil : n.magnitude.fraction.getD [] ≠ []

namespace IsKeyed

variable {n : NumberText}

theorem magnitude_toList (h : IsKeyed n) : n.magnitude.toList =
    n.magnitude.whole ++ '.' :: n.magnitude.fraction.getD [] := by
  have hne := h.fraction_ne_nil
  rw [DecimalText.toList]
  cases hf : n.magnitude.fraction with
  | none =>
    rw [hf] at hne
    exact absurd rfl hne
  | some ds => rfl

theorem mem_magnitude (h : IsKeyed n) : ∀ c ∈ n.magnitude.toList,
    Numeral.isDigit c = true ∨ c = '.' := by
  intro c hc
  rw [h.magnitude_toList] at hc
  rcases List.mem_append.1 hc with hc | hc
  · exact .inl (n.magnitude.isDigit_whole c hc)
  · rcases List.mem_cons.1 hc with rfl | hc
    · exact .inr rfl
    · exact .inl (n.magnitude.isDigit_fraction c hc)

theorem toList_eq (h : IsKeyed n) :
    n.toList = n.magnitude.toList ∨ n.toList = '-' :: n.magnitude.toList := by
  have hsign := h.sign_ne_plus
  rw [NumberText.toList]
  cases hs : n.sign with
  | absent => exact .inl rfl
  | plus => exact absurd hs hsign
  | minus => exact .inr rfl

/-- The first character of the magnitude is a digit. -/
theorem exists_magnitude_cons (h : IsKeyed n) :
    ∃ c cs, n.magnitude.toList = c :: cs ∧ Numeral.isDigit c = true ∧
      (c = '0' → ∃ ds, cs = '.' :: ds) := by
  obtain ⟨c, cs, hw⟩ := List.exists_cons_of_ne_nil h.whole_ne_nil
  refine ⟨c, cs ++ '.' :: n.magnitude.fraction.getD [], ?_, ?_, ?_⟩
  · rw [h.magnitude_toList, hw, List.cons_append]
  · exact n.magnitude.isDigit_whole c (hw ▸ List.mem_cons_self)
  · rintro rfl
    have hzero := h.leading (by rw [hw]; rfl)
    obtain rfl : cs = [] := by
      rw [hw] at hzero
      exact (List.cons.inj hzero).2
    exact ⟨_, rfl⟩

end IsKeyed

theorem decimal?_toList {n : NumberText} (h : IsKeyed n) (negative : Bool) :
    decimal? negative n.magnitude.toList = realNode? (.ofParts negative n.magnitude.whole
      (n.magnitude.fraction.getD []) 0) := by
  have hwhole := splitGroups_append n.magnitude.isDigit_whole
    ('.' :: n.magnitude.fraction.getD []) (by rintro _ ⟨⟩; decide)
  have hfraction := splitGroups_append n.magnitude.isDigit_fraction []
    (fun _ hc => nomatch hc)
  rw [List.append_nil] at hfraction
  rw [h.magnitude_toList]
  simp only [decimal?, hwhole, hfraction, wholeDigits?_digits h.whole_ne_nil
    n.magnitude.isDigit_whole h.leading, ungroup?_digits h.fraction_ne_nil
    n.magnitude.isDigit_fraction]
  rfl

theorem signed?_toList {n : NumberText} (h : IsKeyed n) :
    signed? n.toList = realNode? n.decimal := by
  obtain ⟨c, cs, hcs, hc, -⟩ := h.exists_magnitude_cons
  have hname (d : Char) (ds : List Char) (hd : Numeral.isDigit d = false) :
      n.magnitude.toList ≠ d :: ds := by
    rw [hcs]
    rintro ⟨⟩
    exact absurd hc (by rw [hd]; decide)
  have hinf : n.magnitude.toList ≠ "inf".toList := hname 'i' ['n', 'f'] (by decide)
  have hnan : n.magnitude.toList ≠ "nan".toList := hname 'n' ['a', 'n'] (by decide)
  rw [signed?, NumberText.splitSign_toList]
  simp only [if_neg hinf, if_neg hnan]
  exact decimal?_toList h _

/-! ## What a number is not -/

theorem after?_of_not_mem {m : Char} {cs : List Char} (h : m ∉ cs) : after? m cs = none := by
  cases cs with
  | nil => rfl
  | cons c cs => exact if_neg fun hc => h (by rw [hc]; exact List.mem_cons_self)

/-- A field leaves the end of the text. -/
theorem eq_drop_of_field? {n least greatest v : ℕ} {cs rest : List Char}
    (h : field? n least greatest cs = some (v, rest)) : rest = cs.drop n := by
  dsimp only [field?] at h
  split at h
  · cases h
    rfl
  · cases h

/-- Without a colon there is no time. -/
theorem afterTime?_of_not_mem {cs : List Char} (h : ':' ∉ cs) : afterTime? cs = none := by
  unfold afterTime?
  cases hfield : field? 2 0 23 cs with
  | none => rfl
  | some p =>
    have hrest : after? ':' p.2 = none := by
      rw [eq_drop_of_field? hfield]
      exact after?_of_not_mem fun hmem => h (List.mem_of_mem_drop hmem)
    simp [hrest]

/-- Without a dash, or with one in front, there is no date. -/
theorem afterDate?_of_not_mem {cs : List Char} (h : '-' ∉ cs) : afterDate? cs = none := by
  unfold afterDate?
  cases hfield : field? 4 0 9999 cs with
  | none => rfl
  | some p =>
    have hrest : after? '-' p.2 = none := by
      rw [eq_drop_of_field? hfield]
      exact after?_of_not_mem fun hmem => h (List.mem_of_mem_drop hmem)
    simp [hrest]

theorem afterDate?_dash (cs : List Char) : afterDate? ('-' :: cs) = none := by
  have hfield : field? 4 0 9999 ('-' :: cs) = none := by
    have hdash : Numeral.isDigit '-' = false := by decide
    simp [field?, hdash]
  simp [afterDate?, hfield]

/-- **A number is no date and no time.** -/
theorem isMoment_toList {n : NumberText} (h : IsKeyed n) : isMoment n.toList = false := by
  have hmagnitude (c : Char) (hdigit : Numeral.isDigit c = false) (hpoint : c ≠ '.') :
      c ∉ n.magnitude.toList := by
    intro hc
    rcases h.mem_magnitude c hc with hc | hc
    · exact absurd hc (by rw [hdigit]; decide)
    · exact hpoint hc
  have hcolon := hmagnitude ':' (by decide) (by decide)
  have hdash := hmagnitude '-' (by decide) (by decide)
  rcases h.toList_eq with htext | htext
  · rw [htext, isMoment, afterTime?_of_not_mem hcolon, afterDate?_of_not_mem hdash]
    rfl
  · have hcolon' : ':' ∉ '-' :: n.magnitude.toList := by simp [hcolon]
    rw [htext, isMoment, afterTime?_of_not_mem hcolon', afterDate?_dash]
    rfl

/-- A number is no word and has no base. -/
theorem word?_toList {n : NumberText} (h : IsKeyed n) : word? n.toList = signed? n.toList := by
  obtain ⟨c, cs, hcs, hc, hzero⟩ := h.exists_magnitude_cons
  have hne (d : Char) (hd : Numeral.isDigit d = false) : c ≠ d := by
    rintro rfl
    exact absurd hc (by rw [hd]; decide)
  have ht := hne 't' (by decide)
  have hf := hne 'f' (by decide)
  rcases h.toList_eq with htext | htext
  · rw [htext, hcs]
    unfold word?
    split <;> simp_all
  · rw [htext]
    rfl

/-! ## Written scalars -/

/-- A finite double is the double nearest to its digits, not beyond all doubles. -/
theorem realNode?_of_isFinite {d : Decimal} (h : d.toDouble.isFinite = true) :
    realNode? d = some (.real d.toDouble) := by
  have hbits : d.magnitudeBits ≠ Double.infinityBits := by
    intro hbits
    rw [Decimal.toDouble, hbits] at h
    revert h
    cases d.negative <;> decide +kernel
  rw [realNode?, Decimal.toDouble?, if_neg hbits]
  rfl

theorem isScalarChar_of_mem {n : NumberText} (h : IsKeyed n) :
    ∀ c ∈ n.toList, isScalarChar c = true := by
  have hmagnitude : ∀ c ∈ n.magnitude.toList, isScalarChar c = true := by
    intro c hc
    rcases h.mem_magnitude c hc with hc | rfl
    · simp [isScalarChar, hc]
    · rfl
  rcases h.toList_eq with htext | htext
  · rwa [htext]
  · rw [htext]
    exact List.forall_mem_cons.2 ⟨rfl, hmagnitude⟩

/-- The values that stand in a line of their own: finite doubles and texts. -/
inductive IsScalar : Node → Prop
  | real {x : Float} (hx : x.isFinite = true) : IsScalar (.real x)
  | text (s : String) : IsScalar (.text s)

theorem value?_mark (levels : ℕ) (q : Quote) (cs : List Char) : value? levels (q.mark :: cs) =
    (text? (q.mark :: cs)).map fun p => (.text (String.ofList p.1), p.2) := by
  cases q with
  | basic =>
    change value? levels ('"' :: cs) = _
    rw [value?]
    rfl
  | literal =>
    change value? levels ('\x27' :: cs) = _
    rw [value?]
    rfl

theorem value?_of_isScalarChar (levels : ℕ) {c : Char} (hc : isScalarChar c = true)
    (cs : List Char) : value? levels (c :: cs) = scalar? (c :: cs) := by
  unfold value?
  split <;> first | rfl | (rename_i h; cases h; cases hc)

theorem exists_write_cons (q : Quoting) (cs : List Char) :
    ∃ ds, q.write cs = q.quote.mark :: ds := by
  obtain ⟨quote, spansLines⟩ := q
  cases spansLines <;> exact ⟨_, rfl⟩

theorem exists_toList_cons {n : NumberText} (h : IsKeyed n) :
    ∃ c cs, n.toList = c :: cs ∧ isScalarChar c = true := by
  obtain ⟨c, cs, hcs, -⟩ := h.exists_magnitude_cons
  have hne : n.toList ≠ [] := by
    rcases h.toList_eq with htext | htext <;> simp [htext, hcs]
  obtain ⟨d, ds, hds⟩ := List.exists_cons_of_ne_nil hne
  exact ⟨d, ds, hds, isScalarChar_of_mem h d (hds ▸ List.mem_cons_self)⟩

/-- The text of a finite double is a number as documents write it. -/
theorem exists_isKeyed {x : Float} (hx : x.isFinite = true) :
    ∃ n, IsKeyed n ∧ (Layout.keyed.text x).toList = n.toList ∧ n.decimal.toDouble = x := by
  obtain ⟨n, htext, hn, hsign, hwhole, hlead, hfraction⟩ :=
    Layout.exists_numberText (l := .keyed) (fun _ => rfl) hx
  exact ⟨n, ⟨hsign, hwhole, hlead, hfraction rfl⟩, htext, hn⟩

/-- **A written double reads back**, at the end of a line. -/
theorem scalar?_keyed {x : Float} (hx : x.isFinite = true) (rest : List Char) :
    scalar? ((Layout.keyed.text x).toList ++ '\n' :: rest) = some (.real x, '\n' :: rest) := by
  obtain ⟨n, h, htext, hn⟩ := exists_isKeyed hx
  have hend : ∀ c ∈ ('\n' :: rest).head?, isScalarChar c = false := by
    rintro _ ⟨⟩
    rfl
  obtain ⟨htake, hdrop⟩ := span_append (isScalarChar_of_mem h) hend
  rw [htext, scalar?]
  simp only [htake, hdrop, isMoment_toList h, word?_toList h, signed?_toList h,
    realNode?_of_isFinite (hn.symm ▸ hx), hn]
  rfl

/-- A scalar begins with a quotation mark or a character of a number. -/
theorem exists_scalarText_cons {v : Node} (hv : IsScalar v) : ∃ c cs,
    (scalarText v).toList = c :: cs ∧ (isScalarChar c = true ∨ ∃ q : Quote, c = q.mark) := by
  cases hv with
  | real hx =>
    obtain ⟨n, h, htext, -⟩ := exists_isKeyed hx
    obtain ⟨c, cs, hcs, hc⟩ := exists_toList_cons h
    exact ⟨c, cs, htext.trans hcs, .inl hc⟩
  | text s =>
    obtain ⟨ds, hds⟩ := exists_write_cons (Quoting.choose s.toList) s.toList
    refine ⟨(Quoting.choose s.toList).quote.mark, ds, ?_, .inr ⟨_, rfl⟩⟩
    rw [scalarText, quoteText, String.toList_ofList, hds]

/-- **A written scalar reads back**, at the end of a line. -/
theorem value?_scalarText {v : Node} (hv : IsScalar v) (levels : ℕ) (rest : List Char) :
    value? levels ((scalarText v).toList ++ '\n' :: rest) = some (v, '\n' :: rest) := by
  cases hv with
  | @real x hx =>
    obtain ⟨n, h, htext, -⟩ := exists_isKeyed hx
    obtain ⟨c, cs, hcs, hc⟩ := exists_toList_cons h
    have hread := scalar?_keyed hx rest
    rw [htext, hcs, List.cons_append] at hread
    rw [scalarText, htext, hcs, List.cons_append, value?_of_isScalarChar levels hc, hread]
  | text s =>
    obtain ⟨ds, hds⟩ := exists_write_cons (Quoting.choose s.toList) s.toList
    have hread := text?_write s.toList ('\n' :: rest) fun q hq =>
      q.mark_ne_newline (Option.some.inj hq)
    rw [hds, List.cons_append] at hread
    rw [scalarText, quoteText, String.toList_ofList, hds, List.cons_append, value?_mark, hread,
      Option.map_some, String.ofList_toList]

end Machining.Toml
