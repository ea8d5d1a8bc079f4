import Machining.Geometry.Document
import Machining.Proofs.Json.Writing

/-!
# Reading what is left of a value

What the readers of parts make of a value that went through a text: a double comes back if it is
finite, everything else comes back as it was.  Points are the record that all documents share.

* `Node.real?_legible`, `Node.listOf?_legible`, `Point.ofNode?_legible` — parts and what is read of
  them;
* `Node.isReadable_legible` — nothing that went through a text is beyond what can be held;
* `Point.writable_toNode` — points have a text.
-/

set_option autoImplicit false

namespace Machining

namespace Node

/-- A double is read from what is left of it if it is finite. -/
@[simp] theorem real?_legible (x y : Float) :
    (real x).legible.real? = some y ↔ x.isFinite = true ∧ x = y := by
  rw [legible_real]
  split
  · rename_i h
    simp [real?, h]
  · rename_i h
    simp [real?, h]

@[simp] theorem legible_ofCount (n : ℕ) : (ofCount n).legible = ofCount n := rfl

theorem count?_ofCount {limit n : ℕ} (h : n ≤ limit) : (ofCount n).count? limit = some n := by
  simp [ofCount, count?, h]

@[simp] theorem text?_text (s : String) : (text s).text? = some s := rfl

/-- A value that may be absent is `null` or the value of what is there. -/
theorem of_ofOption {β : Type} {P : Node → Prop} {toNode : β → Node} {o : Option β} (hnull : P null)
    (h : ∀ b, o = some b → P (toNode b)) : P (ofOption toNode o) := by
  cases o with
  | none => exact hnull
  | some b => exact h b rfl

/-- Items are read one by one. -/
theorem listOf?_legible {β : Type} {read : Node → Option β} {toNode : β → Node} {P : β → Prop}
    (bs : List β) (h : ∀ b ∈ bs, ∀ c, read (toNode b).legible = some c ↔ P b ∧ b = c)
    (cs : List β) : (list (bs.map toNode)).legible.listOf? read = some cs ↔
      (∀ b ∈ bs, P b) ∧ bs = cs := by
  rw [legible_list, listOf?, List.map_map, List.mapM_map]
  induction bs generalizing cs with
  | nil => simp
  | cons b bs ih =>
    obtain ⟨hb, hbs⟩ := List.forall_mem_cons.1 h
    simp only [List.mapM_cons, Option.bind_eq_bind, Option.bind_eq_some_iff, Function.comp_apply,
      hb, ih hbs, List.forall_mem_cons, Option.pure_def, Option.some.injEq]
    constructor
    · rintro ⟨_, ⟨hP, rfl⟩, _, ⟨hPs, rfl⟩, rfl⟩
      exact ⟨⟨hP, hPs⟩, rfl⟩
    · rintro ⟨⟨hP, hPs⟩, rfl⟩
      exact ⟨b, ⟨hP, rfl⟩, bs, ⟨hPs, rfl⟩, rfl⟩

end Node

/-! ## Points -/

/-- The coordinates of a point. -/
def Point.coordinates {α : Type} (p : Point α) : List α := [p.x, p.y, p.z]

@[simp] theorem Point.ofNode?_legible (k : Convention) (p q : Point Float) :
    Point.ofNode? k p.toNode.legible = some q ↔
      (∀ x ∈ p.coordinates, x.isFinite = true) ∧ p = q := by
  simp [ofNode?, toNode, Node.isStructure, Node.required?, Node.part?, Option.bind_eq_some_iff,
    coordinates, and_assoc]

/-- An offset that may be absent is read from what is left of it. -/
@[simp] theorem Point.nullable?_legible (k : Convention) (o o' : Option (Point Float)) :
    Node.nullable? (Point.ofNode? k) (Node.ofOption Point.toNode o).legible = some o' ↔
      (∀ x ∈ o.elim [] Point.coordinates, x.isFinite = true) ∧ o = o' := by
  cases o with
  | none => simp [Node.ofOption, Node.nullable?]
  | some p =>
    have hvalue : Node.nullable? (Point.ofNode? k) p.toNode.legible =
        (Point.ofNode? k p.toNode.legible).map some := by
      simp [toNode, Node.nullable?]
    rw [Node.ofOption, hvalue, Option.map_eq_some_iff]
    simp [and_assoc]

/-! ## Texts -/

section Writing

open Json (Writable Survives)

/-- What is left of a value is readable. -/
theorem Node.isReadable_legible {n : ℕ} {v : Node} (h : Writable n v) :
    v.legible.isReadable = true := by
  have hlist (items : List Node) (h : ∀ v ∈ items, v.legible.isReadable = true) :
      areReadable (items.map legible) = true := by
    induction items with
    | nil => rfl
    | cons v vs ih =>
      obtain ⟨hv, hvs⟩ := List.forall_mem_cons.1 h
      simp [areReadable, hv, ih hvs]
  have hrecord (fields : List (String × Node)) (h : ∀ f ∈ fields, f.2.legible.isReadable = true) :
      fieldsReadable (fields.map fun f => (f.1, f.2.legible)) = true := by
    induction fields with
    | nil => rfl
    | cons f fs ih =>
      obtain ⟨hf, hfs⟩ := List.forall_mem_cons.1 h
      simp [fieldsReadable, hf, ih hfs]
  induction h with
  | list _ ih =>
    rw [legible_list]
    exact hlist _ ih
  | record _ ih =>
    rw [legible_record]
    exact hrecord _ ih
  | @real n x hx =>
    rw [legible_real]
    split <;> rfl
  | _ => rfl

/-- A count that fits its field has a text. -/
theorem Node.writable_ofCount {n k limit : ℕ} (h : k ≤ limit) (hlimit : limit ≤ largestCount) :
    Writable n (ofCount k) := by
  refine .count (Nat.lt_of_le_of_lt (h.trans hlimit) ?_)
  decide

variable {n : ℕ}

theorem Point.writable_toNode {p : Point Float}
    (h : ∀ x ∈ p.coordinates, x.isFinite = true → Survives x) : Writable (n + 1) p.toNode := by
  refine .record ?_
  simp only [List.forall_mem_cons]
  exact ⟨.real (h p.x (by simp [coordinates])), .real (h p.y (by simp [coordinates])),
    .real (h p.z (by simp [coordinates])), List.forall_mem_nil _⟩

/-- An offset that may be absent has a text. -/
theorem Point.writable_ofOption {o : Option (Point Float)}
    (h : ∀ x ∈ o.elim [] Point.coordinates, x.isFinite = true → Survives x) :
    Writable (n + 1) (.ofOption Point.toNode o) :=
  Node.of_ofOption .null fun p hp => by
    subst hp
    exact Point.writable_toNode h

end Writing

end Machining
