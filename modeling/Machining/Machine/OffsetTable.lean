import Machining.Geometry.Point

/-!
# Work offset tables

Named offsets in ascending order of their names, each name once.  The order is the type's own
invariant, so that a table is determined by what it looks up.

* `OffsetTable.get?_insert` — an inserted offset is found under its name, and all other names
  keep theirs.
-/

set_option autoImplicit false

namespace Machining

/-- Offsets by name, the names in strictly ascending order. -/
structure OffsetTable (α : Type) where
  entries : List (String × Point α)
  ascending : entries.Pairwise fun a b => a.1 < b.1

namespace OffsetTable

variable {α : Type}

/-- No offsets. -/
def empty : OffsetTable α := ⟨[], .nil⟩

/-- Put an entry in its place, over an entry of the same name. -/
def insertEntry (name : String) (p : Point α) :
    List (String × Point α) → List (String × Point α)
  | [] => [(name, p)]
  | e :: es =>
    if name < e.1 then (name, p) :: e :: es
    else if e.1 < name then e :: insertEntry name p es
    else (name, p) :: es

theorem mem_insertEntry {name : String} {p : Point α} {es : List (String × Point α)}
    {x : String × Point α} (h : x ∈ insertEntry name p es) : x = (name, p) ∨ x ∈ es := by
  induction es with
  | nil => exact .inl (by simpa [insertEntry] using h)
  | cons e es ih =>
    unfold insertEntry at h
    split at h
    · simpa using h
    · split at h
      · rcases List.mem_cons.1 h with h | h
        · exact .inr (by simp [h])
        · rcases ih h with h | h
          · exact .inl h
          · exact .inr (by simp [h])
      · rcases List.mem_cons.1 h with h | h
        · exact .inl h
        · exact .inr (by simp [h])

theorem pairwise_insertEntry {name : String} {p : Point α} {es : List (String × Point α)}
    (h : es.Pairwise fun a b => a.1 < b.1) :
    (insertEntry name p es).Pairwise fun a b => a.1 < b.1 := by
  induction es with
  | nil => simp [insertEntry]
  | cons e es ih =>
    obtain ⟨he, hes⟩ := List.pairwise_cons.1 h
    unfold insertEntry
    split
    · rename_i hlt
      refine List.pairwise_cons.2 ⟨fun x hx => ?_, h⟩
      rcases List.mem_cons.1 hx with rfl | hx
      · exact hlt
      · exact String.lt_trans hlt (he x hx)
    · rename_i hnlt
      split
      · rename_i hgt
        refine List.pairwise_cons.2 ⟨fun x hx => ?_, ih hes⟩
        rcases mem_insertEntry hx with rfl | hx
        · exact hgt
        · exact he x hx
      · rename_i hngt
        have heq : name = e.1 :=
          String.le_antisymm (String.not_lt.1 hngt) (String.not_lt.1 hnlt)
        refine List.pairwise_cons.2 ⟨fun x hx => ?_, hes⟩
        show name < x.1
        rw [heq]
        exact he x hx

/-- The table with an offset under a name, in place of any other. -/
def insert (t : OffsetTable α) (name : String) (p : Point α) : OffsetTable α :=
  ⟨insertEntry name p t.entries, pairwise_insertEntry t.ascending⟩

/-- The offset of a name. -/
def get? (t : OffsetTable α) (name : String) : Option (Point α) := t.entries.lookup name

/-- The table of entries taken one after the other, the last of a name counting. -/
def ofList (es : List (String × Point α)) : OffsetTable α :=
  es.foldl (fun t e => t.insert e.1 e.2) empty

theorem lookup_entry (k : String) (e : String × Point α) (es : List (String × Point α)) :
    (e :: es).lookup k = if k = e.1 then some e.2 else es.lookup k := by
  obtain ⟨name, p⟩ := e
  rw [List.lookup_cons]
  by_cases h : k = name
  · simp [h]
  · have hb : (k == name) = false := by simpa using h
    simp [h, hb]

theorem lookup_insertEntry (name : String) (p : Point α) (es : List (String × Point α))
    (k : String) :
    (insertEntry name p es).lookup k = if k = name then some p else es.lookup k := by
  induction es with
  | nil => exact lookup_entry k (name, p) []
  | cons e es ih =>
    unfold insertEntry
    split
    · exact lookup_entry k (name, p) (e :: es)
    · rename_i hnlt
      split
      · rename_i hgt
        rw [lookup_entry, lookup_entry, ih]
        by_cases h : k = e.1
        · have hk : k ≠ name := fun hk => String.lt_irrefl e.1 (by rwa [← hk, h] at hgt)
          simp [h, h ▸ hk]
        · simp [h]
      · rename_i hngt
        have heq : name = e.1 :=
          String.le_antisymm (String.not_lt.1 hngt) (String.not_lt.1 hnlt)
        rw [lookup_entry, lookup_entry, heq]
        by_cases h : k = e.1 <;> simp [h]

/-- **An inserted offset is found under its name alone.** -/
theorem get?_insert (t : OffsetTable α) (name : String) (p : Point α) (k : String) :
    (t.insert name p).get? k = if k = name then some p else t.get? k :=
  lookup_insertEntry name p t.entries k

end OffsetTable

end Machining
