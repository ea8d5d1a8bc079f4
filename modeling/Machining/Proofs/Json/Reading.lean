import Machining.Json.Reading
import Machining.Proofs.Json.Token

/-!
# Values from their tokens

A value makes a sequence of tokens, and the reader comes from these tokens back to the value as
long as it is not nested too deep.  So every spelling of the tokens of a value is read as the
value.

* `tokens` — the tokens of a value;
* `Within` — the values that are nested to some depth at most;
* `Reading.run?_tokens` — the reader delivers a value after its tokens;
* `read?_of_spelled` — every spelling of a value is read as the value.
-/

set_option autoImplicit false

namespace Machining.Json

/-! ## Tokens of a value -/

mutual

/-- The tokens of a value. -/
def tokens : Node → List Token
  | .text s => [.text (some s)]
  | .list items => .openList :: itemTokens items ++ [.closeList]
  | .record fields => .openRecord :: fieldTokens fields ++ [.closeRecord]
  | v => [.scalar v]

/-- The tokens of items, with commas between them. -/
def itemTokens : List Node → List Token
  | [] => []
  | [v] => tokens v
  | v :: w :: vs => tokens v ++ .comma :: itemTokens (w :: vs)

/-- The tokens of fields, with commas between them. -/
def fieldTokens : List (String × Node) → List Token
  | [] => []
  | [(name, v)] => .text (some name) :: .colon :: tokens v
  | (name, v) :: f :: fs =>
    .text (some name) :: .colon :: tokens v ++ .comma :: fieldTokens (f :: fs)

end

/-- The values of lists and records that are nested to a depth of at most `n`. -/
inductive Within : ℕ → Node → Prop
  | null {n : ℕ} : Within n .null
  | truth {n : ℕ} (b : Bool) : Within n (.truth b)
  | integer {n : ℕ} (i : Int) : Within n (.integer i)
  | real {n : ℕ} (x : Float) : Within n (.real x)
  | text {n : ℕ} (s : String) : Within n (.text s)
  | unreadable {n : ℕ} : Within n .unreadable
  | list {n : ℕ} {items : List Node} (h : ∀ v ∈ items, Within n v) : Within (n + 1) (.list items)
  | record {n : ℕ} {fields : List (String × Node)} (h : ∀ f ∈ fields, Within n f.2) :
      Within (n + 1) (.record fields)

/-! ## From tokens to values -/

namespace Reading

/-- The reader takes the tokens of a value to the value. -/
def Takes (v : Node) (around : List Container) : Prop :=
  ∀ ts, (value around).run? (tokens v ++ ts) = (deliver v around).run? ts

theorem run?_cons {r r' : Reading} {t : Token} (h : r.next? t = some r') (ts : List Token) :
    r.run? (t :: ts) = r'.run? ts := by
  rw [run?, h, Option.bind_some]

/-- A value does not begin with the end of a list. -/
theorem exists_tokens_cons (v : Node) : ∃ t ts, tokens v = t :: ts ∧ t ≠ .closeList := by
  cases v <;> exact ⟨_, _, rfl, Token.noConfusion⟩

theorem exists_itemTokens_cons (v : Node) (vs : List Node) :
    ∃ t ts, itemTokens (v :: vs) = t :: ts ∧ t ≠ .closeList := by
  obtain ⟨t, ts, hv, ht⟩ := exists_tokens_cons v
  cases vs with
  | nil => exact ⟨t, ts, hv, ht⟩
  | cons w ws => exact ⟨t, _, by rw [itemTokens, hv, List.cons_append], ht⟩

/-- The first item of a list is read like any other. -/
theorem run?_firstItem {t : Token} (ht : t ≠ .closeList) (around : List Container)
    (ts : List Token) :
    (firstItem around).run? (t :: ts) = (value (.list [] :: around)).run? (t :: ts) := by
  have hnext : (firstItem around).next? t = (value (.list [] :: around)).next? t := by
    cases t <;> first | rfl | exact absurd rfl ht
  rw [run?, hnext, run?]

/-- **Items are taken one after the other.** -/
theorem run?_itemTokens {around : List Container} {v : Node} {vs : List Node} :
    ∀ {earlier : List Node},
      (∀ w ∈ v :: vs, ∀ earlier, Takes w (.list earlier :: around)) → ∀ ts : List Token,
      (value (.list earlier :: around)).run? (itemTokens (v :: vs) ++ .closeList :: ts) =
        (closeList ((v :: vs).reverse ++ earlier) around).run? ts := by
  induction vs generalizing v with
  | nil =>
    intro earlier h ts
    rw [itemTokens, h v (by simp)]
    exact run?_cons rfl ts
  | cons w ws ih =>
    intro earlier h ts
    rw [itemTokens, List.append_assoc, List.cons_append, h v (by simp)]
    refine (run?_cons rfl _).trans ?_
    rw [ih fun x hx => h x (List.mem_cons_of_mem v hx)]
    simp

/-- **Fields are taken one after the other**, the first one from wherever its name may come. -/
theorem run?_fieldTokens {around : List Container} {f : String × Node}
    {fs : List (String × Node)} : ∀ {earlier : List (Option String × Node)} {r : Reading},
      (∀ g ∈ f :: fs, ∀ earlier name, Takes g.2 (.record earlier name :: around)) →
      r.next? (.text (some f.1)) = some (colon earlier (some f.1) around) → ∀ ts : List Token,
      r.run? (fieldTokens (f :: fs) ++ .closeRecord :: ts) =
        (closeRecord (((f :: fs).map fun g => (some g.1, g.2)).reverse ++ earlier) around).run?
          ts := by
  induction fs generalizing f with
  | nil =>
    intro earlier r h hr ts
    rw [fieldTokens, List.cons_append, run?_cons hr, List.cons_append]
    refine (run?_cons rfl _).trans ?_
    rw [h f (by simp)]
    exact run?_cons rfl ts
  | cons g gs ih =>
    intro earlier r h hr ts
    rw [fieldTokens, List.append_assoc, List.cons_append, run?_cons hr, List.cons_append]
    refine (run?_cons rfl _).trans ?_
    rw [h f (by simp)]
    refine (run?_cons rfl _).trans ?_
    refine (ih (fun x hx => h x (List.mem_cons_of_mem f hx)) rfl ts).trans ?_
    simp

theorem wholeFields?_some (fields : List (String × Node)) :
    wholeFields? (fields.map fun g => (some g.1, g.2)) = some fields := by
  unfold wholeFields?
  rw [List.mapM_map]
  induction fields with
  | nil => rfl
  | cons f fs ih => simp [List.mapM_cons, ih]

/-- **The reader delivers a value after its tokens**, unless it is nested too deep. -/
theorem run?_tokens {n : ℕ} {v : Node} (hv : Within n v) :
    ∀ {around : List Container}, around.length + n ≤ maxDepth → Takes v around := by
  induction hv with
  | @list n items _ ih =>
    intro around hdepth ts
    have hbounded (w : Node) : bounded around w = w := if_pos (by omega)
    have hopen : tokens (.list items) ++ ts =
        .openList :: (itemTokens items ++ .closeList :: ts) := by simp [tokens]
    rw [hopen, run?_cons rfl]
    cases items with
    | nil =>
      refine (run?_cons rfl ts).trans ?_
      rw [closeList, hbounded]
      rfl
    | cons v vs =>
      have hitems : ∀ w ∈ v :: vs, ∀ earlier, Takes w (.list earlier :: around) :=
        fun w hw earlier => ih w hw (by rw [List.length_cons]; omega)
      obtain ⟨t, ts', htokens, ht⟩ := exists_itemTokens_cons v vs
      have hread := @run?_itemTokens around v vs [] hitems ts
      rw [htokens, List.cons_append] at hread ⊢
      rw [run?_firstItem ht, hread, closeList, List.append_nil, List.reverse_reverse, hbounded]
  | @record n fields _ ih =>
    intro around hdepth ts
    have hbounded (w : Node) : bounded around w = w := if_pos (by omega)
    have hopen : tokens (.record fields) ++ ts =
        .openRecord :: (fieldTokens fields ++ .closeRecord :: ts) := by simp [tokens]
    rw [hopen, run?_cons rfl]
    cases fields with
    | nil =>
      refine (run?_cons rfl ts).trans ?_
      rw [closeRecord, hbounded]
      rfl
    | cons f fs =>
      refine (@run?_fieldTokens around f fs [] _ (fun g hg earlier name =>
        ih g hg (by rw [List.length_cons]; omega)) rfl ts).trans ?_
      rw [closeRecord, hbounded, List.append_nil, List.reverse_reverse, wholeFields?_some]
  | _ => exact fun _ ts => rfl

end Reading

theorem nodeOfTokens?_tokens {v : Node} (hv : Within maxDepth v) :
    nodeOfTokens? (tokens v) = some v := by
  have hrun := @Reading.run?_tokens _ v hv [] (by simp) []
  rw [List.append_nil] at hrun
  rw [nodeOfTokens?, hrun]
  rfl

/-- **Every spelling of a value is read as the value.** -/
theorem read?_of_spelled {v : Node} {text : String} (hv : Within maxDepth v)
    (h : Spelled (tokens v) text.toList) : read? text = some v := by
  rw [read?, tokens?_of_spelled h, Option.bind_some, nodeOfTokens?_tokens hv]

end Machining.Json
