import Mathlib
import Machining.Proofs.Stock.Corners
import Machining.Proofs.Stock.Footprint
import Machining.Proofs.Stock.Span

/-!
# The integrity of the store

A stock keeps one byte for each cell.  Carving works on these bytes: it looks for cells between
ends clamped as doubles, computes the place of each in words, and writes a zero there.  On a store
of at most `2 ^ 53` bytes no step of that can fail, whatever doubles it is called with, and the
bytes stay those of the stock.

* `Grid.place?`, `Grid.clearByte?` — a place computed in words, a byte written at it;
* `Stock.performBytes_eq` — every call runs through and leaves the bytes of the stock;
* `Stock.performAll_intact` — what holds of a stock after any calls, and of the next one.
-/

set_option autoImplicit false

namespace Machining

namespace Stock

variable {α : Type}

theorem cellCount_eq (s : Stock α) : s.cellCount = s.toGrid.count := rfl

theorem occupiedCount_le_cellCount (s : Stock α) : s.occupiedCount ≤ s.cellCount := by
  unfold occupiedCount cellCount
  exact List.count_le_length.trans_eq s.cells.length_toList

theorem occupiedCount_add_removedCount (s : Stock α) :
    s.occupiedCount + s.removedCount = s.cellCount :=
  Nat.add_sub_cancel' s.occupiedCount_le_cellCount

end Stock

/-! ## Bytes -/

/-- A sum that fits in a word. -/
def wordSum? (a b : ℕ) : Option ℕ := if a + b < UInt64.size then some (a + b) else none

theorem wordSum?_eq {a b : ℕ} (h : a + b < UInt64.size) : wordSum? a b = some (a + b) := if_pos h

theorem Stock.wordProduct?_eq {a b : ℕ} (h : a * b < UInt64.size) :
    wordProduct? a b = some (a * b) := if_pos h

namespace Grid

variable {α : Type} {g : Grid α} {c : Cell}

/-- The place of a cell, computed in words. -/
def place? (g : Grid α) (c : Cell) : Option ℕ := do
  let row ← Stock.wordProduct? c.z g.nx
  let layer ← Stock.wordProduct? row g.ny
  let offset ← Stock.wordProduct? c.y g.nx
  let start ← wordSum? layer offset
  wordSum? start c.x

/-- Write zero for a cell; none if its place is beyond the words or the store. -/
def clearByte? (g : Grid α) (bytes : List UInt8) (c : Cell) : Option (List UInt8) := do
  let i ← g.place? c
  if i < bytes.length then some (bytes.set i 0) else none

/-- **No word overflows** on the way to the place of a cell of the grid. -/
theorem place?_eq (hc : g.holds c) (hcount : g.count ≤ UInt64.size) :
    g.place? c = some (g.index c) := by
  -- every intermediate result is at most the place, which the number of cells bounds
  have hlt : g.index c < UInt64.size := (index_lt hc).trans_le hcount
  unfold index at hlt
  have hlayer : c.z * g.nx * g.ny < UInt64.size := by omega
  have hrow : c.z * g.nx < UInt64.size :=
    (Nat.le_mul_of_pos_right _ (Nat.zero_lt_of_lt hc.2.1)).trans_lt hlayer
  have hoffset : c.y * g.nx < UInt64.size := by omega
  have hstart : c.z * g.nx * g.ny + c.y * g.nx < UInt64.size := by omega
  unfold place?
  simp only [Option.bind_eq_bind, Option.bind_some, Stock.wordProduct?_eq hrow,
    Stock.wordProduct?_eq hlayer, Stock.wordProduct?_eq hoffset, wordSum?_eq hstart,
    wordSum?_eq hlt]
  rfl

end Grid

namespace Stock

variable {α : Type} {s : Stock α} {c : Cell}

/-- The store: for each cell in storage order, one if it is occupied and zero if it is removed. -/
def bytes (s : Stock α) : List UInt8 :=
  s.cells.toList.map fun occupied => if occupied then 1 else 0

theorem length_bytes (s : Stock α) : s.bytes.length = s.toGrid.count := by
  unfold bytes
  rw [List.length_map]
  exact s.cells.length_toList

theorem bytes_full (g : Grid α) : (full g).bytes = List.replicate g.count 1 := by
  unfold bytes full
  rw [Vector.toList_replicate, List.map_replicate]
  rfl

theorem mem_bytes {b : UInt8} (h : b ∈ s.bytes) : b = 0 ∨ b = 1 := by
  obtain ⟨occupied, -, rfl⟩ := List.mem_map.1 h
  cases occupied
  · exact Or.inl rfl
  · exact Or.inr rfl

theorem getElem?_bytes (hc : s.toGrid.holds c) :
    s.bytes[s.toGrid.index c]? = some (if s.isOccupied c then 1 else 0) := by
  unfold bytes
  rw [List.getElem?_map, Vector.getElem?_toList, getElem?_index hc]
  rfl

theorem bytes_clear_singleton (s : Stock α) (c : Cell) :
    (s.clear [c]).bytes = s.bytes.set (s.toGrid.index c) 0 := by
  have hset : (s.cells.setIfInBounds (s.toGrid.index c) false).toList =
      s.cells.toList.set (s.toGrid.index c) false := Vector.toList_setIfInBounds ..
  unfold bytes clear
  rw [List.foldl_cons, List.foldl_nil, hset, List.map_set]
  rfl

theorem clearByte?_eq (hc : s.toGrid.holds c) (hcount : s.toGrid.count ≤ UInt64.size) :
    s.toGrid.clearByte? s.bytes c = some (s.clear [c]).bytes := by
  unfold Grid.clearByte?
  rw [Grid.place?_eq hc hcount, bytes_clear_singleton]
  exact if_pos ((Grid.index_lt hc).trans_eq s.length_bytes.symm)

theorem clear_eq_foldl (s : Stock α) (cs : List Cell) :
    s.clear cs = cs.foldl (fun s c => s.clear [c]) s := by
  induction cs generalizing s with
  | nil => rfl
  | cons c cs ih => rw [List.foldl_cons, ← ih, ← clear_append, List.singleton_append]

/-- A run of steps that each keep the bytes of a stock keeps them as a whole. -/
theorem foldlM_bytes {β : Type} {g : Grid α} {xs : List β}
    {f : List UInt8 → β → Option (List UInt8)} {step : Stock α → β → Stock α}
    (h : ∀ x ∈ xs, ∀ s : Stock α, s.toGrid = g →
      f s.bytes x = some (step s x).bytes ∧ (step s x).toGrid = g) (hs : s.toGrid = g) :
    xs.foldlM f s.bytes = some (xs.foldl step s).bytes := by
  -- the grid is what the steps are made for, so it is kept along with the bytes
  induction xs generalizing s with
  | nil => rfl
  | cons x xs ih =>
    obtain ⟨hstep, hgrid⟩ := h x List.mem_cons_self s hs
    rw [List.foldlM_cons, hstep]
    exact ih (fun y hy => h y (List.mem_cons_of_mem x hy)) hgrid

end Stock

/-! ## Calls -/

/-- A call that removes material from a stock: along one segment, along all segments of a
trajectory, or along those that a policy lets cut. -/
inductive Removal (α : Type)
  | carve (start target : Point α) (radius : α)
  | follow (xs : List (Sample α)) (diameter : α)
  | followWith (xs : List (Sample α)) (diameter : α) (policy : RemovalPolicy)

section Calls

variable {α : Type} [Scalar α]

/-- The carvings of a call. -/
def Removal.carvings : Removal α → List (Point α × Point α × α)
  | carve start target radius => [(start, target, radius)]
  | follow xs diameter => Stock.removalCalls xs diameter .allMotion
  | followWith xs diameter policy => Stock.removalCalls xs diameter policy

namespace Stock

variable {s : Stock α}

/-- The stock after a call. -/
def perform (s : Stock α) : Removal α → Stock α
  | .carve start target radius => s.carve start target radius
  | .follow xs diameter => s.remove xs diameter .allMotion
  | .followWith xs diameter policy => s.remove xs diameter policy

def performAll (s : Stock α) (rs : List (Removal α)) : Stock α := rs.foldl perform s

theorem perform_eq_carveAll (s : Stock α) (r : Removal α) :
    s.perform r = s.carveAll r.carvings := by
  cases r with
  | carve start target radius => rfl
  | follow xs diameter => exact s.remove_eq_carveAll xs diameter .allMotion
  | followWith xs diameter policy => exact s.remove_eq_carveAll xs diameter policy

@[simp] theorem toGrid_perform (s : Stock α) (r : Removal α) : (s.perform r).toGrid = s.toGrid := by
  rw [perform_eq_carveAll, toGrid_carveAll]

@[simp] theorem toGrid_performAll (s : Stock α) (rs : List (Removal α)) :
    (s.performAll rs).toGrid = s.toGrid := by
  unfold performAll
  induction rs generalizing s with
  | nil => rfl
  | cons r rs ih => rw [List.foldl_cons, ih, toGrid_perform]

/-- **No call brings a cell back.** -/
theorem isOccupied_of_perform {r : Removal α} {c : Cell}
    (h : (s.perform r).isOccupied c = true) : s.isOccupied c = true := by
  rw [perform_eq_carveAll, isOccupied_carveAll] at h
  exact h.1

/-! ## Counts -/

theorem occupiedCount_perform_le (s : Stock α) (r : Removal α) :
    (s.perform r).occupiedCount ≤ s.occupiedCount := by
  rw [← length_occupiedCells, ← length_occupiedCells, occupiedCells, toGrid_perform, occupiedCells]
  exact (List.monotone_filter_right _ fun c hc => isOccupied_of_perform hc).length_le

/-- **A call removes cells and gives none back**, so the difference of the counts is one. -/
theorem removedCount_le_perform (s : Stock α) (r : Removal α) :
    s.removedCount ≤ (s.perform r).removedCount := by
  have hcells : (s.perform r).cellCount = s.cellCount := by
    rw [cellCount_eq, toGrid_perform, cellCount_eq]
  unfold removedCount
  rw [hcells]
  exact Nat.sub_le_sub_left (s.occupiedCount_perform_le r) _

end Stock

end Calls

/-! ## Calls on the store -/

namespace Grid

/-- Carve a segment in the store. -/
def carveBytes? (g : Grid Float) (bytes : List UInt8) (x : Point Float × Point Float × Float) :
    Option (List UInt8) :=
  (g.stepPoints x.1 x.2.1).foldlM
    (fun bytes p => (g.clampedBall p x.2.2).foldlM g.clearByte? bytes) bytes

def performBytes? (g : Grid Float) (bytes : List UInt8) (r : Removal Float) :
    Option (List UInt8) :=
  r.carvings.foldlM g.carveBytes? bytes

variable {g : Grid Float}

theorem Addressable.holds_of_mem_clampedBall (h : g.Addressable) {p : Point Float} {radius : Float}
    {c : Cell} (hc : c ∈ g.clampedBall p radius) : g.holds c := by
  rw [← h.ball_eq_clampedBall] at hc
  have hfirst : g.holds ⟨0, 0, 0⟩ := ⟨h.alongX, h.alongY, h.alongZ⟩
  exact holds_of_mem_ball hfirst hc

theorem Addressable.count_le_word (h : g.Addressable) : g.count ≤ UInt64.size :=
  h.count_le.trans (by decide)

end Grid

namespace Stock

variable {s : Stock Float}

theorem clearBytes_eq (h : s.toGrid.Addressable) (p : Point Float) (radius : Float) :
    (s.toGrid.clampedBall p radius).foldlM s.toGrid.clearByte? s.bytes =
      some (s.clear (s.toGrid.ball p radius)).bytes := by
  rw [h.ball_eq_clampedBall, clear_eq_foldl]
  refine foldlM_bytes (g := s.toGrid) (fun c hc t ht => ⟨?_, ht⟩) rfl
  rw [← ht] at h hc ⊢
  exact clearByte?_eq (h.holds_of_mem_clampedBall hc) h.count_le_word

theorem carveBytes_eq (h : s.toGrid.Addressable) (x : Point Float × Point Float × Float) :
    s.toGrid.carveBytes? s.bytes x = some (s.carve x.1 x.2.1 x.2.2).bytes := by
  unfold Grid.carveBytes? carve
  refine foldlM_bytes (g := s.toGrid) (fun p _ t ht => ⟨?_, ht⟩) rfl
  rw [← ht] at h ⊢
  exact clearBytes_eq h p x.2.2

/-- **A call on the store runs through** and leaves the bytes of the stock. -/
theorem performBytes_eq (h : s.toGrid.Addressable) (r : Removal Float) :
    s.toGrid.performBytes? s.bytes r = some (s.perform r).bytes := by
  rw [perform_eq_carveAll]
  unfold Grid.performBytes? carveAll
  refine foldlM_bytes (g := s.toGrid) (fun x _ t ht => ⟨?_, ?_⟩) rfl
  · rw [← ht] at h ⊢
    exact carveBytes_eq h x
  · rw [carve_eq_clear, toGrid_clear, ht]

theorem performAllBytes_eq (h : s.toGrid.Addressable) (rs : List (Removal Float)) :
    rs.foldlM s.toGrid.performBytes? s.bytes = some (s.performAll rs).bytes := by
  refine foldlM_bytes (g := s.toGrid) (fun r _ t ht => ⟨?_, ?_⟩) rfl
  · rw [← ht] at h ⊢
    exact performBytes_eq h r
  · rw [toGrid_perform, ht]

/-! ## Integrity -/

/-- What holds of a stock and its store at any time.  There is one byte for each cell, computed
places lie in the store, bytes tell which cells are occupied, clearing a cell changes nothing about
any other, and the share of removed cells is a quotient of exact counts. -/
structure Sound (s : Stock Float) : Prop where
  length : s.bytes.length = s.nx * s.ny * s.nz ∧ 1 ≤ s.bytes.length
  flags : ∀ b ∈ s.bytes, b = 0 ∨ b = 1
  placed : ∀ c, s.toGrid.holds c →
    s.toGrid.place? c = some (s.toGrid.index c) ∧ s.toGrid.index c < s.bytes.length
  apart : ∀ c d, s.toGrid.holds c → s.toGrid.holds d → s.toGrid.index c = s.toGrid.index d → c = d
  read : ∀ c, s.toGrid.holds c →
    s.bytes[s.toGrid.index c]? = some (if s.isOccupied c then 1 else 0)
  cleared : ∀ c, s.toGrid.holds c → s.toGrid.clearByte? s.bytes c = some (s.clear [c]).bytes ∧
    ∀ d, (s.clear [c]).isOccupied d = true ↔ s.isOccupied d = true ∧ d ≠ c
  counts : s.occupiedCount + s.removedCount = s.cellCount
  fraction : s.removedFraction = Double.ofCount s.removedCount / Double.ofCount s.cellCount ∧
    Double.Denotes (Double.ofCount s.removedCount) s.removedCount ∧
    Double.Denotes (Double.ofCount s.cellCount) s.cellCount ∧
    s.removedCount ≤ s.cellCount ∧ 0 < s.cellCount

/-- What holds of a call on a stock: it stays within the grid, runs through on the store with the
bytes of the stock, and brings no cell back. -/
structure Proceeds (s : Stock Float) (r : Removal Float) : Prop where
  within : ∀ x ∈ r.carvings, ∀ p ∈ s.toGrid.stepPoints x.1 x.2.1,
    ∀ c ∈ s.toGrid.clampedBall p x.2.2, s.toGrid.holds c
  runs : s.toGrid.performBytes? s.bytes r = some (s.perform r).bytes
  kept : ∀ c, (s.perform r).isOccupied c = true → s.isOccupied c = true
  removed : s.removedCount ≤ (s.perform r).removedCount

theorem sound_of_addressable (h : s.toGrid.Addressable) : s.Sound := by
  have hpos : 0 < s.cellCount := Nat.mul_pos (Nat.mul_pos h.alongX h.alongY) h.alongZ
  have hle : s.cellCount ≤ 2 ^ 53 := h.count_le
  have hremoved : s.removedCount ≤ s.cellCount := Nat.sub_le _ _
  refine ⟨?length, fun b hb => mem_bytes hb, ?placed, ?apart, ?read, ?cleared, ?counts, ?fraction⟩
  case length => exact ⟨s.length_bytes, s.length_bytes ▸ hpos⟩
  case placed =>
    intro c hc
    exact ⟨Grid.place?_eq hc h.count_le_word, (Grid.index_lt hc).trans_eq s.length_bytes.symm⟩
  case apart =>
    intro c d hc hd heq
    exact Grid.eq_of_index_eq hc hd heq
  case read =>
    intro c hc
    exact getElem?_bytes hc
  case cleared =>
    intro c hc
    refine ⟨clearByte?_eq hc h.count_le_word, fun d => ?_⟩
    rw [isOccupied_clear fun _ e he => List.mem_singleton.1 he ▸ hc, List.mem_singleton]
  case counts => exact s.occupiedCount_add_removedCount
  case fraction =>
    exact ⟨rfl, Double.denotes_ofCount (hremoved.trans hle), Double.denotes_ofCount hle, hremoved,
      hpos⟩

theorem proceeds_of_addressable (h : s.toGrid.Addressable) (r : Removal Float) : s.Proceeds r where
  within _ _ _ _ _ hc := h.holds_of_mem_clampedBall hc
  runs := performBytes_eq h r
  kept _ hc := isOccupied_of_perform hc
  removed := s.removedCount_le_perform r

theorem addressable_of_ofSize {size : StockSize Float} (h : ofSize size = .ok s)
    (hle : s.cellCount ≤ 2 ^ 53) : gridOfSize size = .ok s.toGrid ∧ s.toGrid.Addressable := by
  obtain ⟨g, hg, rfl⟩ := exists_grid_of_ofSize h
  obtain ⟨hx, hy, hz⟩ := pos_of_gridOfSize hg
  exact ⟨hg, hx, hy, hz, hle⟩

/-- **The store stays intact.**  After any calls on a full block of at most `2 ^ 53` cells the grid
is the one that the size of the block gives, the stock and its store agree, and every further call
runs through; and the calls, made on a store of ones, leave the store of the stock. -/
theorem performAll_intact {size : StockSize Float} (h : ofSize size = .ok s)
    (hle : s.cellCount ≤ 2 ^ 53) (rs : List (Removal Float)) :
    gridOfSize size = .ok (s.performAll rs).toGrid ∧
    (s.performAll rs).Sound ∧
    (∀ r, (s.performAll rs).Proceeds r) ∧
    rs.foldlM s.toGrid.performBytes? (List.replicate (s.nx * s.ny * s.nz) 1) =
      some (s.performAll rs).bytes := by
  obtain ⟨hgrid, haddressable⟩ := addressable_of_ofSize h hle
  have hthen : (s.performAll rs).toGrid.Addressable := by rwa [toGrid_performAll]
  refine ⟨?grid, sound_of_addressable hthen, proceeds_of_addressable hthen, ?store⟩
  case grid => rwa [toGrid_performAll]
  case store =>
    have hbytes : s.bytes = List.replicate (s.nx * s.ny * s.nz) 1 := by
      obtain ⟨g, -, rfl⟩ := exists_grid_of_ofSize h
      exact bytes_full g
    rw [← hbytes]
    exact performAllBytes_eq haddressable rs

/-- Calls on a block of three cells with an undefined radius, an undefined coordinate and a negative
radius, and one that cuts the first cell. -/
def unusualCalls : List (Removal Float) :=
  [.carve ⟨0.5, 0.5, 0.5⟩ ⟨2.5, 0.5, 0.5⟩ (0 / 0),
    .carve ⟨0 / 0, 0.5, 0.5⟩ ⟨2.5, 0.5, 0.5⟩ 0.25,
    .carve ⟨0.5, 0.5, 0.5⟩ ⟨2.5, 0.5, 0.5⟩ (-1),
    .carve ⟨0.5, 0.5, 0.5⟩ ⟨1, 0.5, 0.5⟩ 0.25]

/-- Of the unusual calls only the last one cuts, and an infinite radius after them clears the
block. -/
theorem performAll_intact_threeCells :
    ofSize (⟨3, 1, 1, 1⟩ : StockSize Float) = .ok (full ⟨⟨3, 1, 1, 1⟩, 3, 1, 1⟩) ∧
    (full ⟨⟨3, 1, 1, 1⟩, 3, 1, 1⟩ : Stock Float).cellCount ≤ 2 ^ 53 ∧
    unusualCalls.foldlM (Grid.performBytes? ⟨⟨3, 1, 1, 1⟩, 3, 1, 1⟩) [1, 1, 1] =
      some [0, 1, 1] ∧
    ((full ⟨⟨3, 1, 1, 1⟩, 3, 1, 1⟩ : Stock Float).performAll unusualCalls).Sound ∧
    Grid.performBytes? ⟨⟨3, 1, 1, 1⟩, 3, 1, 1⟩ [0, 1, 1]
      (.carve ⟨0, 0, 0⟩ ⟨0, 0, 0⟩ (1 / 0)) = some [0, 0, 0] := by
  have hsize : ofSize (⟨3, 1, 1, 1⟩ : StockSize Float) =
      .ok (full ⟨⟨3, 1, 1, 1⟩, 3, 1, 1⟩) := rfl
  have hle : (full ⟨⟨3, 1, 1, 1⟩, 3, 1, 1⟩ : Stock Float).cellCount ≤ 2 ^ 53 := by decide
  obtain ⟨-, hsound, hnext, hrun⟩ := performAll_intact hsize hle unusualCalls
  have hcut : ((full ⟨⟨3, 1, 1, 1⟩, 3, 1, 1⟩ : Stock Float).performAll unusualCalls).bytes =
      [0, 1, 1] := by
    decide +kernel
  have hcleared : (((full ⟨⟨3, 1, 1, 1⟩, 3, 1, 1⟩ : Stock Float).performAll unusualCalls).perform
      (.carve ⟨0, 0, 0⟩ ⟨0, 0, 0⟩ (1 / 0))).bytes = [0, 0, 0] := by
    decide +kernel
  have hruns := (hnext (.carve ⟨0, 0, 0⟩ ⟨0, 0, 0⟩ (1 / 0))).runs
  rw [hcut, hcleared, toGrid_performAll] at hruns
  rw [hcut] at hrun
  exact ⟨hsize, hle, hrun, hsound, hruns⟩

end Stock

end Machining
