import Machining.Json.Writing
import Machining.Proofs.Json.Reading
import Machining.Proofs.Text.Numeral

/-!
# Written values read back

A value is written as a spelling of its tokens, on one line or over several.  So it is read back,
but for two things.  A double that is not finite has no number text and comes back as no value.
And the reader does not round every number text to the nearest double; `Survives` says of a double
that the reader takes its text for it.

* `Survives` — the doubles whose text reads back;
* `Node.legible` — what is left of a value in its text;
* `Writable` — the values whose text reads back, up to a depth;
* `read?_write`, `read?_writeIndented` — a written value is read as what is left of it.
-/

set_option autoImplicit false

namespace Machining

/-! ## What is left of a value -/

namespace Node

mutual

/-- What is left of a value in its text. -/
def legible : Node → Node
  | .real x => if x.isFinite then .real x else .null
  | .list items => .list (legibleItems items)
  | .record fields => .record (legibleFields fields)
  | .unreadable => .null
  | v => v

/-- What is left of items. -/
def legibleItems : List Node → List Node
  | [] => []
  | v :: vs => v.legible :: legibleItems vs

/-- What is left of fields. -/
def legibleFields : List (String × Node) → List (String × Node)
  | [] => []
  | (name, v) :: fields => (name, v.legible) :: legibleFields fields

end

theorem legible_real (x : Float) :
    (real x).legible = if x.isFinite then .real x else .null := by rw [legible]

@[simp] theorem legible_text (s : String) : (text s).legible = text s := rfl

@[simp] theorem legible_integer (i : Int) : (integer i).legible = integer i := rfl

@[simp] theorem legible_null : null.legible = null := rfl

@[simp] theorem legible_truth (b : Bool) : (truth b).legible = truth b := rfl

@[simp] theorem legible_list (items : List Node) :
    (list items).legible = list (items.map legible) := by
  have hitems : legibleItems items = items.map legible := by
    induction items with
    | nil => rw [legibleItems, List.map_nil]
    | cons v vs ih => rw [legibleItems, ih, List.map_cons]
  rw [legible, hitems]

@[simp] theorem legible_record (fields : List (String × Node)) :
    (record fields).legible = record (fields.map fun f => (f.1, f.2.legible)) := by
  have hfields : legibleFields fields = fields.map fun f => (f.1, f.2.legible) := by
    induction fields with
    | nil => rw [legibleFields, List.map_nil]
    | cons f fs ih => rw [legibleFields, ih, List.map_cons]
  rw [legible, hfields]

end Node

namespace Json

/-- The text of a double is read as the double. -/
def Survives (x : Float) : Prop := number? (realText x) = some (.real x, [])

instance decidableSurvives (x : Float) : Decidable (Survives x) :=
  match h : number? (realText x) with
  | some (.real y, []) => decidable_of_iff (y = x) (by simp [Survives, h])
  | some (.real _, _ :: _) => .isFalse (by simp [Survives, h])
  | some (.integer _, _) | some (.null, _) | some (.truth _, _) | some (.text _, _)
  | some (.list _, _) | some (.record _, _) | some (.unreadable, _) | none =>
    .isFalse (by simp [Survives, h])

/-- The values whose text reads back, with lists and records nested to a depth of at most `n`. -/
inductive Writable : ℕ → Node → Prop
  | null {n : ℕ} : Writable n .null
  | truth {n : ℕ} (b : Bool) : Writable n (.truth b)
  | count {n k : ℕ} (hk : k < UInt64.size) : Writable n (.integer k)
  | real {n : ℕ} {x : Float} (hx : x.isFinite = true → Survives x) : Writable n (.real x)
  | text {n : ℕ} (s : String) : Writable n (.text s)
  | list {n : ℕ} {items : List Node} (h : ∀ v ∈ items, Writable n v) :
      Writable (n + 1) (.list items)
  | record {n : ℕ} {fields : List (String × Node)} (h : ∀ f ∈ fields, Writable n f.2) :
      Writable (n + 1) (.record fields)

theorem Writable.within {n : ℕ} {v : Node} (h : Writable n v) : Within n v.legible := by
  induction h with
  | null => exact Node.legible_null ▸ .null
  | truth b => exact Node.legible_truth b ▸ .truth b
  | count hk => exact Node.legible_integer _ ▸ .integer _
  | @real n x hx =>
    rw [Node.legible_real]
    split
    · exact .real x
    · exact .null
  | text s => exact Node.legible_text s ▸ .text s
  | list _ ih =>
    rw [Node.legible_list]
    exact .list (List.forall_mem_map.2 ih)
  | record _ ih =>
    rw [Node.legible_record]
    exact .record (List.forall_mem_map.2 ih)

/-! ## Texts that spell a value -/

/-- The characters spell the tokens in front of whatever ends a number. -/
def Spells (ts : List Token) (cs : List Char) : Prop :=
  ∀ us rest, EndsNumber rest → Spelled us rest → Spelled (ts ++ us) (cs ++ rest)

theorem Spelled.mark {t : Token} {ds : List Char} (ht : TokenSpelling t ds)
    (hmark : ∀ v, t ≠ .scalar v) {us : List Token} {rest : List Char} (h : Spelled us rest) :
    Spelled (t :: us) (ds ++ rest) :=
  .token ht (fun v hv => absurd hv (hmark v)) h

theorem Spelled.blanks {bs : List Char} (hbs : ∀ c ∈ bs, isBlank c = true) {us : List Token}
    {rest : List Char} (h : Spelled us rest) : Spelled us (bs ++ rest) := by
  induction bs with
  | nil => exact h
  | cons b bs ih =>
    obtain ⟨hb, hbs⟩ := List.forall_mem_cons.1 hbs
    exact .blank hb (ih hbs)

theorem spells_scalar {v : Node} {cs : List Char} (h : TokenSpelling (.scalar v) cs) :
    Spells [.scalar v] cs :=
  fun _ _ hends hrest => .token h (fun _ _ => hends) hrest

theorem spelled_quote (name : String) {us : List Token} {rest : List Char} (h : Spelled us rest) :
    Spelled (.text (some name) :: us) (quote name ++ rest) :=
  .mark (.text (textSpelling_escapeChar name.toList)) (fun _ => Token.noConfusion) h

theorem isBlank_lineStart (depth : ℕ) : ∀ c ∈ lineStart depth, isBlank c = true := by
  intro c hc
  rcases List.mem_cons.1 hc with rfl | hc
  · rfl
  · rw [List.eq_of_mem_replicate hc]
    rfl

/-! ## Scalars -/

theorem isWholePart_digits (k : ℕ) : isWholePart (Numeral.digits k) = true := by
  rcases Nat.eq_zero_or_pos k with rfl | hk
  · rw [Numeral.digits]
    rfl
  · obtain ⟨c, cs, hcs⟩ := List.exists_cons_of_ne_nil (Numeral.digits_ne_nil k)
    have hhead := Numeral.head?_digits hk
    rw [hcs] at hhead ⊢
    have hc : c ≠ '0' := by simpa using hhead
    cases cs with
    | nil => rfl
    | cons d ds => simp [isWholePart, hc]

/-- The digits of a count are read as the count. -/
theorem number?_digits {k : ℕ} (hk : k < UInt64.size) :
    number? (Numeral.digits k) = some (.integer k, []) := by
  have hsplit : Numeral.splitDigits (Numeral.digits k) = (Numeral.digits k, []) :=
    Prod.ext (List.takeWhile_eq_self_iff.2 (Numeral.isDigit_digits k))
      (List.dropWhile_eq_nil_iff.2 (Numeral.isDigit_digits k))
  have hmagnitude : magnitude? false (Numeral.digits k) = some (.integer k, []) := by
    simp [magnitude?, hsplit, Numeral.splitFraction, isWholePart_digits, splitExponent?, numberNode,
      Numeral.value_digits, hk]
  obtain ⟨c, cs, hcs⟩ := List.exists_cons_of_ne_nil (Numeral.digits_ne_nil k)
  have hc : c ≠ '-' := by
    rintro rfl
    have := Numeral.isDigit_digits k '-' (by simp [hcs])
    cases this
  rwa [hcs, number?_cons_of_ne hc, ← hcs]

/-- A value without parts is spelled by its text. -/
theorem spells_scalarText {v : Node} (h : Writable 0 v) :
    Spells (tokens v.legible) (scalarText v) := by
  cases h with
  | null => exact spells_scalar .null
  | truth b =>
    have htext : scalarText (.truth b) = (if b then "true" else "false").toList := by
      cases b <;> rfl
    rw [htext]
    exact spells_scalar (.truth b)
  | @count _ k hk =>
    have htext : scalarText (.integer k) = Numeral.digits k := by
      rw [scalarText, Numeral.signedText, if_neg (by omega), Int.natAbs_natCast, Numeral.text,
        String.toList_ofList]
    rw [htext]
    exact spells_scalar (.number (number?_digits hk))
  | @real _ x hx =>
    have htext : scalarText (.real x) = realText x := rfl
    rw [htext, Node.legible_real]
    split
    · rename_i hfinite
      exact spells_scalar (.number (hx hfinite))
    · rename_i hfinite
      rw [realText, if_neg hfinite]
      exact spells_scalar .null
  | text s => exact fun us rest _ hrest => spelled_quote s hrest

/-! ## Lists and records -/

theorem endsNumber_lineStart (depth : ℕ) (rest : List Char) :
    EndsNumber (lineStart depth ++ rest) := endsNumber_cons rfl

/-- Items on one line. -/
theorem spells_itemChars {items : List Node}
    (h : ∀ v ∈ items, Spells (tokens v.legible) (chars v)) :
    Spells (itemTokens (items.map Node.legible)) (itemChars items) := by
  induction items with
  | nil => exact fun _ _ _ hrest => hrest
  | cons v vs ih =>
    obtain ⟨hv, hvs⟩ := List.forall_mem_cons.1 h
    cases vs with
    | nil => exact hv
    | cons w ws =>
      intro us rest hends hrest
      have hnext := Spelled.mark .comma (fun _ => Token.noConfusion) (ih hvs us rest hends hrest)
      simpa [itemTokens, itemChars] using hv _ _ (endsNumber_cons rfl) hnext

/-- Fields on one line. -/
theorem spells_fieldChars {fields : List (String × Node)}
    (h : ∀ f ∈ fields, Spells (tokens f.2.legible) (chars f.2)) :
    Spells (fieldTokens (fields.map fun f => (f.1, f.2.legible))) (fieldChars fields) := by
  induction fields with
  | nil => exact fun _ _ _ hrest => hrest
  | cons f fs ih =>
    obtain ⟨hf, hfs⟩ := List.forall_mem_cons.1 h
    have hfield {us : List Token} {rest : List Char} (hends : EndsNumber rest)
        (hrest : Spelled us rest) : Spelled (.text (some f.1) :: .colon :: tokens f.2.legible ++ us)
          (quote f.1 ++ ':' :: chars f.2 ++ rest) := by
      have hcolon := Spelled.mark .colon (fun _ => Token.noConfusion) (hf us rest hends hrest)
      simpa using spelled_quote f.1 hcolon
    cases fs with
    | nil => exact fun us rest hends hrest => hfield hends hrest
    | cons g gs =>
      intro us rest hends hrest
      have hnext := Spelled.mark .comma (fun _ => Token.noConfusion) (ih hfs us rest hends hrest)
      simpa [fieldTokens, fieldChars] using hfield (endsNumber_cons rfl) hnext

/-- **The text on one line spells what is left of a value.** -/
theorem spells_chars {n : ℕ} {v : Node} (h : Writable n v) :
    Spells (tokens v.legible) (chars v) := by
  induction h with
  | null => exact spells_scalarText .null
  | truth b => exact spells_scalarText (.truth b)
  | count hk => exact spells_scalarText (.count hk)
  | real hx => exact spells_scalarText (.real hx)
  | text s => exact spells_scalarText (.text s)
  | list _ ih =>
    intro us rest _ hrest
    have hclose := Spelled.mark .closeList (fun _ => Token.noConfusion) hrest
    have hopen := Spelled.mark .openList (fun _ => Token.noConfusion)
      (spells_itemChars ih _ _ (endsNumber_cons rfl) hclose)
    simpa [tokens, chars] using hopen
  | record _ ih =>
    intro us rest _ hrest
    have hclose := Spelled.mark .closeRecord (fun _ => Token.noConfusion) hrest
    have hopen := Spelled.mark .openRecord (fun _ => Token.noConfusion)
      (spells_fieldChars ih _ _ (endsNumber_cons rfl) hclose)
    simpa [tokens, chars] using hopen

/-- Items over several lines. -/
theorem spells_indentedItems {depth : ℕ} {items : List Node}
    (h : ∀ v ∈ items, Spells (tokens v.legible) (indentedChars depth v)) :
    Spells (itemTokens (items.map Node.legible)) (indentedItems depth items) := by
  induction items with
  | nil => exact fun _ _ _ hrest => hrest
  | cons v vs ih =>
    obtain ⟨hv, hvs⟩ := List.forall_mem_cons.1 h
    have hline {us : List Token} {rest : List Char} (hends : EndsNumber rest)
        (hrest : Spelled us rest) :
        Spelled (tokens v.legible ++ us) (lineStart depth ++ indentedChars depth v ++ rest) := by
      rw [List.append_assoc]
      exact (hv us rest hends hrest).blanks (isBlank_lineStart depth)
    cases vs with
    | nil => exact fun us rest hends hrest => hline hends hrest
    | cons w ws =>
      intro us rest hends hrest
      have hnext := Spelled.mark .comma (fun _ => Token.noConfusion) (ih hvs us rest hends hrest)
      simpa [itemTokens, indentedItems] using hline (endsNumber_cons rfl) hnext

/-- Fields over several lines. -/
theorem spells_indentedFields {depth : ℕ} {fields : List (String × Node)}
    (h : ∀ f ∈ fields, Spells (tokens f.2.legible) (indentedChars depth f.2)) :
    Spells (fieldTokens (fields.map fun f => (f.1, f.2.legible)))
      (indentedFields depth fields) := by
  induction fields with
  | nil => exact fun _ _ _ hrest => hrest
  | cons f fs ih =>
    obtain ⟨hf, hfs⟩ := List.forall_mem_cons.1 h
    have hline {us : List Token} {rest : List Char} (hends : EndsNumber rest)
        (hrest : Spelled us rest) : Spelled (.text (some f.1) :: .colon :: tokens f.2.legible ++ us)
          (lineStart depth ++ quote f.1 ++ ':' :: ' ' :: indentedChars depth f.2 ++ rest) := by
      have hvalue := Spelled.blank (c := ' ') rfl (hf us rest hends hrest)
      have hcolon := Spelled.mark .colon (fun _ => Token.noConfusion) hvalue
      simpa using (spelled_quote f.1 hcolon).blanks (isBlank_lineStart depth)
    cases fs with
    | nil => exact fun us rest hends hrest => hline hends hrest
    | cons g gs =>
      intro us rest hends hrest
      have hnext := Spelled.mark .comma (fun _ => Token.noConfusion) (ih hfs us rest hends hrest)
      simpa [fieldTokens, indentedFields] using hline (endsNumber_cons rfl) hnext

/-- **The text over several lines spells what is left of a value.** -/
theorem spells_indentedChars {n : ℕ} {v : Node} (h : Writable n v) :
    ∀ depth, Spells (tokens v.legible) (indentedChars depth v) := by
  induction h with
  | null => exact fun _ => spells_scalarText .null
  | truth b => exact fun _ => spells_scalarText (.truth b)
  | count hk => exact fun _ => spells_scalarText (.count hk)
  | real hx => exact fun _ => spells_scalarText (.real hx)
  | text s => exact fun _ => spells_scalarText (.text s)
  | @list n items _ ih =>
    intro depth us rest _ hrest
    have hclose := Spelled.mark .closeList (fun _ => Token.noConfusion) hrest
    cases items with
    | nil =>
      exact .mark .openList (fun _ => Token.noConfusion) hclose
    | cons v vs =>
      have hitems := spells_indentedItems (fun w hw => ih w hw (depth + 1)) _ _
        (endsNumber_lineStart depth _) (hclose.blanks (isBlank_lineStart depth))
      have hopen := Spelled.mark .openList (fun _ => Token.noConfusion) hitems
      simpa [tokens, indentedChars] using hopen
  | @record n fields _ ih =>
    intro depth us rest _ hrest
    have hclose := Spelled.mark .closeRecord (fun _ => Token.noConfusion) hrest
    cases fields with
    | nil =>
      exact .mark .openRecord (fun _ => Token.noConfusion) hclose
    | cons f fs =>
      have hfields := spells_indentedFields (fun g hg => ih g hg (depth + 1)) _ _
        (endsNumber_lineStart depth _) (hclose.blanks (isBlank_lineStart depth))
      have hopen := Spelled.mark .openRecord (fun _ => Token.noConfusion) hfields
      simpa [tokens, indentedChars] using hopen

/-- The text on one line is a spelling. -/
theorem spelled_write {n : ℕ} {v : Node} (h : Writable n v) :
    Spelled (tokens v.legible) (write v).toList := by
  have hspelled := spells_chars h [] [] endsNumber_nil .nil
  rwa [List.append_nil, List.append_nil, ← String.toList_ofList (l := chars v)] at hspelled

/-- The text over several lines is a spelling. -/
theorem spelled_writeIndented {n : ℕ} {v : Node} (h : Writable n v) :
    Spelled (tokens v.legible) (writeIndented v).toList := by
  have hspelled := spells_indentedChars h 0 [] [] endsNumber_nil .nil
  rwa [List.append_nil, List.append_nil, ← String.toList_ofList (l := indentedChars 0 v)]
    at hspelled

/-- **A value written on one line** is read as what is left of it. -/
theorem read?_write {v : Node} (h : Writable maxDepth v) : read? (write v) = some v.legible :=
  read?_of_spelled h.within (spelled_write h)

/-- **A value written over several lines** is read as what is left of it. -/
theorem read?_writeIndented {v : Node} (h : Writable maxDepth v) :
    read? (writeIndented v) = some v.legible :=
  read?_of_spelled h.within (spelled_writeIndented h)

end Json

end Machining
