import Mathlib
import Machining.Stock.Fingerprint
import Machining.Proofs.Stock.Surface

/-!
# Cells and their store

A stock keeps one flag for each cell, in the order in which `Grid.cells` lists them.  So the store
is the list of what `Stock.isOccupied` says of the cells in turn, and a stock is known once its
grid is and each of its cells.

* `Grid.map_index_cells` — the places of the cells are all places of the store, in order;
* `Stock.toList_cells` — the store tells of each cell in turn whether it is occupied;
* `Stock.eq_of_isOccupied` — stocks of one grid with the same occupied cells are equal;
* `Stock.isOccupied_clear` — clearing some cells removes these and no others.
-/

set_option autoImplicit false

namespace Machining

namespace Grid

variable {α : Type} {g : Grid α}

/-- Runs of `m` numbers, one after the other, are one run. -/
theorem flatMap_range' (a m n : ℕ) :
    (List.range n).flatMap (fun i => List.range' (a + i * m) m) = List.range' a (n * m) := by
  induction n with
  | zero => simp
  | succ n ih =>
    rw [List.range_succ, List.flatMap_append, ih, List.flatMap_singleton, Nat.succ_mul,
      ← List.range'_append_1]

/-- **The cells fill the store in order.** -/
theorem map_index_cells (g : Grid α) : g.cells.map g.index = List.range g.count := by
  have hrow (y z : ℕ) : (List.range g.nx).map (fun x => g.index ⟨x, y, z⟩) =
      List.range' (z * g.nx * g.ny + y * g.nx) g.nx := by
    rw [List.range'_eq_map_range]
    rfl
  have hlayer (z : ℕ) : ((List.range g.ny).flatMap fun y =>
      (List.range g.nx).map fun x => g.index ⟨x, y, z⟩) =
        List.range' (0 + z * (g.ny * g.nx)) (g.ny * g.nx) := by
    simp only [hrow]
    rw [flatMap_range', Nat.zero_add, Nat.mul_assoc, Nat.mul_comm g.nx]
  unfold cells
  simp only [List.map_flatMap, List.map_map, Function.comp_def]
  simp only [hlayer]
  rw [flatMap_range', List.range_eq_range', count, Nat.mul_comm g.nz, Nat.mul_comm g.ny]

theorem length_cells (g : Grid α) : g.cells.length = g.count := by
  simpa using congrArg List.length g.map_index_cells

theorem index_getElem_cells {i : ℕ} (hi : i < g.cells.length) : g.index g.cells[i] = i := by
  have hi' : i < (g.cells.map g.index).length := by rwa [List.length_map]
  have hplace : (g.cells.map g.index)[i] = i := by
    simp only [map_index_cells, List.getElem_range]
  rwa [List.getElem_map] at hplace

/-- Each cell of the grid has a place of its own. -/
theorem eq_of_index_eq {c d : Cell} (hc : g.holds c) (hd : g.holds d)
    (h : g.index c = g.index d) : c = d := by
  have hnodup : (g.cells.map g.index).Nodup := by
    rw [map_index_cells]
    exact List.nodup_range
  exact List.inj_on_of_nodup_map hnodup (mem_cells.2 hc) (mem_cells.2 hd) h

end Grid

namespace Stock

variable {α : Type} {s t : Stock α} {c : Cell}

/-- What the store says of a cell of the grid. -/
theorem getElem?_index (h : s.toGrid.holds c) :
    s.cells[s.toGrid.index c]? = some (s.isOccupied c) := by
  have hlt : s.toGrid.index c < s.nx * s.ny * s.nz := Grid.index_lt h
  unfold isOccupied
  rw [dif_pos h]
  exact Vector.getElem?_eq_getElem hlt

theorem isOccupied_iff : s.isOccupied c = true ↔
    s.toGrid.holds c ∧ s.cells[s.toGrid.index c]? = some true := by
  refine ⟨fun h => ?_, fun ⟨hc, h⟩ => ?_⟩
  · have hc := holds_of_isOccupied h
    exact ⟨hc, by rw [getElem?_index hc, h]⟩
  · rwa [getElem?_index hc, Option.some.injEq] at h

/-- **The store tells of each cell in turn whether it is occupied.** -/
theorem toList_cells (s : Stock α) : s.cells.toList = s.toGrid.cells.map s.isOccupied := by
  refine List.ext_getElem ?_ fun i hi hi' => ?_
  · rw [Vector.length_toList, List.length_map, Grid.length_cells]
    rfl
  · rw [List.length_map] at hi'
    have hindex : s.toGrid.index s.toGrid.cells[i] = i := Grid.index_getElem_cells hi'
    have hcell := getElem?_index (s := s) (Grid.mem_cells.1 (List.getElem_mem hi'))
    rw [hindex] at hcell
    rw [List.getElem_map, ← Option.some_inj, ← hcell, Vector.getElem_toList,
      Vector.getElem?_eq_getElem]

theorem length_occupiedCells (s : Stock α) : s.occupiedCells.length = s.occupiedCount := by
  unfold occupiedCells occupiedCount
  rw [toList_cells, List.count_eq_countP, List.countP_map, List.countP_eq_length_filter]
  congr 2
  funext c
  simp

/-- A stock is known from its grid and its occupied cells. -/
theorem eq_of_isOccupied (hgrid : s.toGrid = t.toGrid)
    (h : ∀ c, s.isOccupied c = true ↔ t.isOccupied c = true) : s = t := by
  have hlist : s.cells.toList = t.cells.toList := by
    rw [toList_cells, toList_cells, hgrid]
    exact List.map_congr_left fun c _ => Bool.eq_iff_iff.2 (h c)
  obtain ⟨g, v⟩ := s
  obtain ⟨g', v'⟩ := t
  obtain rfl : g = g' := hgrid
  congr 1
  exact Vector.toList_inj.1 hlist

theorem isOccupied_full {g : Grid α} : (full g).isOccupied c = true ↔ g.holds c := by
  rw [isOccupied_iff]
  refine ⟨fun h => h.1, fun h => ⟨h, ?_⟩⟩
  exact (Vector.getElem?_eq_getElem (Grid.index_lt h)).trans
    (congrArg some (Vector.getElem_replicate _))

/-- Stocks are made full. -/
theorem exists_grid_of_ofSize [Scalar α] {size : StockSize α} (h : ofSize size = .ok s) :
    ∃ g, gridOfSize size = .ok g ∧ s = full g := by
  unfold ofSize at h
  cases hg : gridOfSize size with
  | error f =>
    rw [hg] at h
    cases h
  | ok g =>
    rw [hg] at h
    cases h
    exact ⟨g, rfl, rfl⟩

/-! ## Clearing -/

@[simp] theorem toGrid_clear (s : Stock α) (cs : List Cell) : (s.clear cs).toGrid = s.toGrid := rfl

theorem clear_append (s : Stock α) (cs ds : List Cell) :
    s.clear (cs ++ ds) = (s.clear cs).clear ds := by
  unfold clear
  rw [List.foldl_append]

theorem getElem?_foldl_setIfInBounds {n : ℕ} (place : Cell → ℕ) (cs : List Cell)
    (v : Vector Bool n) (i : ℕ) :
    (cs.foldl (fun v c => v.setIfInBounds (place c) false) v)[i]? = some true ↔
      v[i]? = some true ∧ ∀ c ∈ cs, place c ≠ i := by
  induction cs generalizing v with
  | nil => simp
  | cons d cs ih =>
    rw [List.foldl_cons, ih, Vector.getElem?_setIfInBounds, List.forall_mem_cons]
    by_cases hd : place d = i
    · simp [hd]
    · simp [hd]

/-- **Clearing cells of the grid** removes these and no others. -/
theorem isOccupied_clear {cs : List Cell}
    (hcs : s.toGrid.holds c → ∀ d ∈ cs, s.toGrid.holds d) :
    (s.clear cs).isOccupied c = true ↔ s.isOccupied c = true ∧ c ∉ cs := by
  have hstore := getElem?_foldl_setIfInBounds s.toGrid.index cs s.cells (s.toGrid.index c)
  have hplaces (hc : s.toGrid.holds c) :
      (∀ d ∈ cs, s.toGrid.index d ≠ s.toGrid.index c) ↔ c ∉ cs := by
    refine ⟨fun h hmem => h c hmem rfl, fun h d hd heq => h ?_⟩
    rwa [← Grid.eq_of_index_eq (hcs hc d hd) hc heq]
  rw [isOccupied_iff, isOccupied_iff, and_assoc]
  refine and_congr_right fun hc => ?_
  rw [← hplaces hc]
  exact hstore

end Stock

end Machining
