import Machining.Proofs.Stock.Faces
import Machining.Proofs.Stock.Stl
import Machining.Proofs.Stock.Storage

/-!
# What a mesh tells of its stock

With exact arithmetic a mesh tells which cells of its stock are left.  The mesh of top faces names
each of them.  The surface names the sides of cells between what is left and what is not; a row of
cells is followed from its first cell on, and each side that is met, or missed, says whether the
next cell is left.  Cavities are told in the same way as outlines.

* `Stock.isOccupied_succ_iff` — one cell of a row told from the cell before it;
* `Stock.isOccupied_eq_of_topFacets`, `Stock.isOccupied_eq_of_surfaceFacets` — the cells of a mesh;
* `Stl.text_lossless` — text and mesh lose nothing.
-/

set_option autoImplicit false

namespace Machining

namespace Stock

section Rows

variable {α : Type} {s : Stock α}

/-- Beyond the left side of the first cell of a row there is nothing. -/
theorem isOccupied_zero_iff {y z : ℕ} : s.isOccupied ⟨0, y, z⟩ = true ↔
    (⟨0, y, z⟩, .left) ∈ s.exposedSides := by
  rw [mem_exposedSides, ← isExposed_iff]
  simp [isExposed, Side.neighbour?]

/-- **A row is followed cell by cell**: the next cell is left if the side towards it is not exposed,
or, after a removed cell, if its own side is. -/
theorem isOccupied_succ_iff {x y z : ℕ} : s.isOccupied ⟨x + 1, y, z⟩ = true ↔
    if s.isOccupied ⟨x, y, z⟩ = true then (⟨x, y, z⟩, Side.right) ∉ s.exposedSides
    else (⟨x + 1, y, z⟩, Side.left) ∈ s.exposedSides := by
  simp only [mem_exposedSides, ← isExposed_iff, isExposed, Side.neighbour?]
  cases hx : s.isOccupied ⟨x, y, z⟩ <;> simp [hx]

/-- Stocks with the same exposed sides have the same cells left. -/
theorem isOccupied_eq_of_exposedSides {t : Stock α}
    (h : ∀ c side, (c, side) ∈ s.exposedSides ↔ (c, side) ∈ t.exposedSides) (c : Cell) :
    s.isOccupied c = t.isOccupied c := by
  obtain ⟨x, y, z⟩ := c
  induction x with
  | zero => rw [Bool.eq_iff_iff, isOccupied_zero_iff, isOccupied_zero_iff, h]
  | succ x ih => rw [Bool.eq_iff_iff, isOccupied_succ_iff, isOccupied_succ_iff, ih, h, h]

end Rows

section Meshes

variable {s t : Stock ℝ}

theorem sideFacets_congr (hgrid : s.toGrid = t.toGrid) (c : Cell) (side : Side) :
    s.sideFacets c side = t.sideFacets c side := by
  obtain ⟨g, v⟩ := s
  obtain ⟨g', v'⟩ := t
  obtain rfl : g = g' := hgrid
  rfl

theorem sideFacets_ne_nil (c : Cell) (side : Side) : s.sideFacets c side ≠ [] := by
  simp [sideFacets, halves]

/-- A list of sides is known from the facets of the sides. -/
theorem mem_iff_of_facets_eq (hcell : 0 < s.size.cell) (hgrid : s.toGrid = t.toGrid)
    {ks ls : List (Cell × Side)} (h : (ks.flatMap fun k => s.sideFacets k.1 k.2) =
      ls.flatMap fun l => t.sideFacets l.1 l.2) (k : Cell × Side) : k ∈ ks ↔ k ∈ ls := by
  simp only [← sideFacets_congr hgrid] at h
  obtain ⟨f, hf⟩ := List.exists_mem_of_ne_nil _ (sideFacets_ne_nil (s := s) k.1 k.2)
  have hmem (ns : List (Cell × Side)) :
      k ∈ ns ↔ f ∈ ns.flatMap fun n => s.sideFacets n.1 n.2 := by
    rw [List.mem_flatMap]
    refine ⟨fun hk => ⟨k, hk, hf⟩, ?_⟩
    rintro ⟨n, hn, hfn⟩
    rwa [show k = n from eq_of_mem_sideFacets hcell hf hfn]
  rw [hmem ks, hmem ls, h]

/-- **The mesh of top faces tells which cells are left.** -/
theorem isOccupied_eq_of_topFacets (hcell : 0 < s.size.cell) (hgrid : s.toGrid = t.toGrid)
    (h : s.topFacets = t.topFacets) (c : Cell) : s.isOccupied c = t.isOccupied c := by
  have htops (u : Stock ℝ) : u.topFacets =
      (u.occupiedCells.map fun c => (c, Side.top)).flatMap fun k => u.sideFacets k.1 k.2 := by
    rw [topFacets_eq, List.flatMap_map]
  rw [htops, htops] at h
  have hmem := mem_iff_of_facets_eq hcell hgrid h (c, .top)
  simpa [mem_occupiedCells, ← Bool.eq_iff_iff] using hmem

/-- **The surface tells which cells are left**, inside as well as outside. -/
theorem isOccupied_eq_of_surfaceFacets (hcell : 0 < s.size.cell) (hgrid : s.toGrid = t.toGrid)
    (h : s.surfaceFacets = t.surfaceFacets) (c : Cell) : s.isOccupied c = t.isOccupied c := by
  rw [surfaceFacets_eq, surfaceFacets_eq] at h
  exact isOccupied_eq_of_exposedSides (fun c side => mem_iff_of_facets_eq hcell hgrid h (c, side)) c

/-- A mesh of either kind tells which cells are left. -/
theorem isOccupied_eq_of_facets (hcell : 0 < s.size.cell) (hgrid : s.toGrid = t.toGrid)
    {kind : MeshKind} (h : s.facets kind = t.facets kind) (c : Cell) :
    s.isOccupied c = t.isOccupied c := by
  cases kind with
  | topFaces => exact isOccupied_eq_of_topFacets hcell hgrid h c
  | surface => exact isOccupied_eq_of_surfaceFacets hcell hgrid h c

end Meshes

end Stock

namespace Stl

/-- Solids with the same lines are the same, if the texts of their coordinates are words. -/
theorem eq_of_lines_eq {α : Type} {text : α → String} {number? : String → Option α}
    {name : String} (hname : Text.words name.toList = [name]) {fs gs : List (Facet α)}
    (hfs : ∀ f ∈ fs ++ gs, ∀ x ∈ f.coordinates, IsWord text number? x)
    (h : lines text name fs = lines text name gs) : fs = gs := by
  have hpoint (f : Facet α) (hf : f ∈ fs ++ gs) :
      ∀ p ∈ [f.normal, f.a, f.b, f.c], HasWords text number? p := fun p hp x hx =>
    hfs f hf x (List.mem_flatMap.2 ⟨p, hp, hx⟩)
  have hread : some (name, fs) = some (name, gs) := by
    rw [← readLines?_lines hname fun f hf => hpoint f (List.mem_append_left _ hf), h,
      readLines?_lines hname fun f hf => hpoint f (List.mem_append_right _ hf)]
  simpa using hread

/-- **Meshes as text lose nothing.**  Facets with finite coordinates make two lines and seven for
each facet, the last one not ended, and the reader of solids gives them back.  With exact
arithmetic two stocks of one grid that differ in a cell have different meshes of either kind, and
different lines for these whatever words the coordinates are written with. -/
theorem text_lossless :
    (∀ fs : List (Facet Float), (∀ f ∈ fs, ∀ x ∈ f.coordinates, x.isFinite = true) →
      (Text.split '\n' (write solidName fs).toList).length = 2 + 7 * fs.length ∧
      (write solidName fs).toList.getLast? ≠ some '\n' ∧
      read? (write solidName fs) = some (solidName, fs)) ∧
    ∀ s t : Stock ℝ, 0 < s.size.cell → s.toGrid = t.toGrid →
      (∃ c, s.isOccupied c ≠ t.isOccupied c) → ∀ kind,
        s.facets kind ≠ t.facets kind ∧
        ∀ (text : ℝ → String) (number? : String → Option ℝ),
          (∀ f ∈ s.facets kind ++ t.facets kind, ∀ x ∈ f.coordinates, IsWord text number? x) →
          lines text solidName (s.facets kind) ≠ lines text solidName (t.facets kind) := by
  have hname : Text.words solidName.toList = [solidName] := by decide
  have hline : '\n' ∉ solidName.toList := by decide
  constructor
  · intro fs hfs
    exact ⟨length_split_write hline fs, getLast?_write hline fs, read?_write hname hline hfs⟩
  · rintro s t hcell hgrid ⟨c, hc⟩ kind
    have hne : s.facets kind ≠ t.facets kind := fun h =>
      hc (Stock.isOccupied_eq_of_facets hcell hgrid h c)
    exact ⟨hne, fun text number? hwords h => hne (eq_of_lines_eq hname hwords h)⟩

/-- A top face of a unit cell, and a stair with and without its second cell. -/
theorem text_lossless_stair :
    read? (write solidName [⟨⟨0, 0, 1⟩, ⟨0, 0, 1⟩, ⟨1, 0, 1⟩, ⟨1, 1, 1⟩⟩]) =
      some (solidName, [⟨⟨0, 0, 1⟩, ⟨0, 0, 1⟩, ⟨1, 0, 1⟩, ⟨1, 1, 1⟩⟩]) ∧
    Stock.stair.facets .surface ≠ (Stock.stair.clear [⟨1, 0, 0⟩]).facets .surface := by
  refine ⟨(text_lossless.1 _ ?_).2.2, (text_lossless.2 Stock.stair
    (Stock.stair.clear [⟨1, 0, 0⟩]) ?_ rfl ⟨⟨1, 0, 0⟩, ?_⟩ .surface).1⟩
  · decide +kernel
  · norm_num [Stock.stair]
  · decide

end Stl

end Machining
