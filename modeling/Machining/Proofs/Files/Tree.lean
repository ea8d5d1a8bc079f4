import Machining.Files.Tree

/-!
# Files read back

Writing a file makes no directory disappear, so the path that led to its place still does.  What
was written is read there, unless it went to the null device; and no file whose name has an
extension is that device.

* `FileTree.read?_write` — a written file reads back;
* `Path.isNullDevice_of_extension?` — the null device has no extension.
-/

set_option autoImplicit false

namespace Machining

/-! ## The null device -/

/-- The name of the null device has no extension. -/
theorem Path.isNullDevice_of_extension? {path e : String} (h : extension? path = some e) :
    isNullDevice path = false := by
  rw [Bool.eq_false_iff]
  intro hnull
  simp only [isNullDevice, Bool.and_eq_true, beq_iff_eq] at hnull
  have hname : fileName? path = some "null" := by
    rw [fileName?, hnull.2]
    rfl
  rw [extension?, hname] at h
  cases h

namespace FileTree

variable {t u : FileTree} {place directory : List String} {path text : String}

/-! ## Writing -/

theorem textAt?_put (t : FileTree) (place : List String) (text : String) :
    (t.put place text).textAt? place = some text := by
  rw [textAt?, put, List.lookup_cons_self]

/-- Directories stay when a file is written. -/
theorem isDirectory_put (h : t.isDirectory directory = true) :
    (t.put place text).isDirectory directory = true := by
  simp only [isDirectory, Bool.or_eq_true, List.any_eq_true] at h ⊢
  refine h.imp id ?_
  rintro ⟨f, hf, hbelow⟩
  by_cases hplace : f.1 = place
  · exact ⟨(place, text), List.mem_cons_self, hplace ▸ hbelow⟩
  · exact ⟨f, List.mem_cons_of_mem _ (List.mem_filter.2 ⟨hf, by simpa using hplace⟩), hbelow⟩

/-- So do the ways through them. -/
theorem walk?_put {parts : List String} {last : List String}
    (h : t.walk? directory parts = some last) :
    (t.put place text).walk? directory parts = some last := by
  induction parts generalizing directory with
  | nil => exact h
  | cons part parts ih =>
    rw [walk?] at h ⊢
    split at h
    · rename_i hdirectory
      rw [if_pos (isDirectory_put hdirectory)]
      exact ih h
    · cases h

theorem place?_put {last : List String} (h : t.place? path = some last) :
    (t.put place text).place? path = some last := by
  rw [place?] at h ⊢
  split at h
  · rename_i husable
    rw [if_pos husable]
    exact walk?_put h
  · cases h

/-- **A written file reads back**, unless it is the null device. -/
theorem read?_write? (hnull : Path.isNullDevice path = false) (h : t.write? path text = some u) :
    u.read? path = some text := by
  rw [write?, hnull] at h
  obtain ⟨place, hplace, hwritten⟩ := Option.bind_eq_some_iff.1 h
  split at hwritten
  · cases hwritten
  · cases hwritten
    rw [read?, hnull, place?_put hplace]
    exact textAt?_put t place text

/-- The tree, and whether it has a directory.  No other directory can be made, for it would hold no
file. -/
def makeDirectory (directory : String) (t : FileTree) : Bool × FileTree :=
  ((t.place? directory).any t.isDirectory, t)

/-- The tree after a file is written, and whether it was. -/
def write (path text : String) (t : FileTree) : Bool × FileTree :=
  match t.write? path text with
  | some u => (true, u)
  | none => (false, t)

theorem read?_write (hnull : Path.isNullDevice path = false) (h : (t.write path text).1 = true) :
    (t.write path text).2.read? path = some text := by
  rw [write] at h ⊢
  split at h
  · rename_i hwritten
    exact read?_write? hnull hwritten
  · cases h

end FileTree

end Machining
