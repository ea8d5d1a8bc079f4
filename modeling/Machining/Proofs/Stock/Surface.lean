import Mathlib
import Machining.Proofs.Exact
import Machining.Stock.Mesh

/-!
# The surface of a stock

The surface is made of the sides between an occupied cell and empty space.  A side that is not
part of it is hidden between two occupied cells, where it occurs twice, once from each cell and
turned over.  So whatever adds up over facets and changes its sign with the orientation of a side
can be summed over all sides of all occupied cells instead.

* `sum_exposed` — hidden sides cancel: a sum over the exposed sides is the sum over all sides;
* `surfaceFacets_closed` — with exact corners the surface is closed: along every directed edge
  as many facets run as against it, for every grid and every pattern of occupied cells.
-/

set_option autoImplicit false

namespace Machining

/-! ## Sides and neighbours -/

namespace Side

/-- The side on which the neighbour beyond a side touches the cell. -/
def opposite : Side → Side
  | left => right
  | right => left
  | front => back
  | back => front
  | bottom => top
  | top => bottom

@[simp] theorem opposite_opposite (s : Side) : s.opposite.opposite = s := by
  cases s <;> rfl

/-- A cell is the neighbour of its neighbour, on the opposite side. -/
theorem neighbour?_opposite {c d : Cell} {s : Side} (h : s.neighbour? c = some d) :
    s.opposite.neighbour? d = some c := by
  obtain ⟨x, y, z⟩ := c
  cases s <;> simp only [neighbour?, opposite] at h ⊢
  case left | front | bottom =>
    split at h
    · cases h
    · cases h
      simp only [Option.some.injEq, Cell.mk.injEq, and_true, true_and]
      omega
  case right | back | top =>
    cases h
    simp

theorem neighbour?_ne {c d : Cell} {s : Side} (h : s.neighbour? c = some d) : d ≠ c := by
  obtain ⟨x, y, z⟩ := c
  rintro rfl
  cases s <;> simp only [neighbour?] at h
  case left | front | bottom =>
    split at h
    · cases h
    · simp only [Option.some.injEq, Cell.mk.injEq] at h
      omega
  case right | back | top =>
    simp at h

theorem mem_all (s : Side) : s ∈ all := by
  cases s <;> decide

theorem nodup_all : all.Nodup := by decide

end Side

/-! ## Occupied cells -/

namespace Grid

variable {α : Type} {g : Grid α}

theorem mem_cells {c : Cell} : c ∈ g.cells ↔ g.holds c := by
  obtain ⟨x, y, z⟩ := c
  simp only [cells, holds, List.mem_flatMap, List.mem_map, List.mem_range, Cell.mk.injEq]
  constructor
  · rintro ⟨z', hz, y', hy, x', hx, rfl, rfl, rfl⟩
    exact ⟨hx, hy, hz⟩
  · rintro ⟨hx, hy, hz⟩
    exact ⟨z, hz, y, hy, x, hx, rfl, rfl, rfl⟩

theorem nodup_cells : g.cells.Nodup := by
  unfold cells
  rw [List.nodup_flatMap]
  refine ⟨fun z _ => ?_, ?_⟩
  · rw [List.nodup_flatMap]
    refine ⟨fun y _ => ?_, ?_⟩
    · exact List.nodup_range.map fun a b h => by simpa using h
    · refine List.nodup_range.imp fun {y y'} hne => ?_
      simp only [Function.onFun, List.disjoint_left, List.mem_map]
      rintro c ⟨x, _, rfl⟩ ⟨x', _, h⟩
      exact hne (Cell.mk.inj h).2.1.symm
  · refine List.nodup_range.imp fun {z z'} hne => ?_
    simp only [Function.onFun, List.disjoint_left, List.mem_flatMap, List.mem_map]
    rintro c ⟨y, _, x, _, rfl⟩ ⟨y', _, x', _, h⟩
    exact hne (Cell.mk.inj h).2.2.symm

end Grid

namespace Stock

variable {α : Type} {s : Stock α}

theorem holds_of_isOccupied {c : Cell} (h : s.isOccupied c = true) : s.toGrid.holds c := by
  unfold isOccupied at h
  split at h
  · assumption
  · cases h

theorem mem_occupiedCells {c : Cell} : c ∈ s.occupiedCells ↔ s.isOccupied c = true := by
  unfold occupiedCells
  rw [List.mem_filter, Grid.mem_cells]
  exact ⟨fun h => h.2, fun h => ⟨holds_of_isOccupied h, h⟩⟩

theorem nodup_occupiedCells : s.occupiedCells.Nodup := Grid.nodup_cells.filter _

/-- A hidden side has an occupied cell beyond it. -/
theorem isExposed_eq_false_iff {c : Cell} {side : Side} :
    s.isExposed c side = false ↔ ∃ d, side.neighbour? c = some d ∧ s.isOccupied d = true := by
  unfold isExposed
  cases side.neighbour? c <;> simp

/-! ## Hidden sides cancel -/

section Sums

variable {A : Type} [AddCommGroup A]

/-- The hidden sides of all occupied cells. -/
def hiddenSides (s : Stock α) : Finset (Cell × Side) :=
  (s.occupiedCells.toFinset ×ˢ Side.all.toFinset).filter fun x => s.isExposed x.1 x.2 = false

theorem mem_hiddenSides {x : Cell × Side} : x ∈ s.hiddenSides ↔
    s.isOccupied x.1 = true ∧ ∃ d, x.2.neighbour? x.1 = some d ∧ s.isOccupied d = true := by
  unfold hiddenSides
  rw [Finset.mem_filter, Finset.mem_product, List.mem_toFinset, List.mem_toFinset,
    mem_occupiedCells, isExposed_eq_false_iff]
  exact ⟨fun h => ⟨h.1.1, h.2⟩, fun h => ⟨⟨h.1, Side.mem_all _⟩, h.2⟩⟩

/-- The same side seen from the other cell. -/
def turned (x : Cell × Side) : Cell × Side :=
  ((x.2.neighbour? x.1).getD x.1, x.2.opposite)

theorem turned_eq {x : Cell × Side} {d : Cell} (h : x.2.neighbour? x.1 = some d) :
    turned x = (d, x.2.opposite) := by
  unfold turned
  rw [h, Option.getD_some]

/-- **Hidden sides cancel** in every sum that changes its sign when a side is turned over. -/
theorem sum_hiddenSides (s : Stock α) {φ : Cell → Side → A}
    (hφ : ∀ c side d, side.neighbour? c = some d → φ c side + φ d side.opposite = 0) :
    ∑ x ∈ s.hiddenSides, φ x.1 x.2 = 0 := by
  refine Finset.sum_involution (fun x _ => turned x) ?_ ?_ ?_ ?_
  · intro x hx
    obtain ⟨_, d, hd, _⟩ := mem_hiddenSides.1 hx
    rw [turned_eq hd]
    exact hφ _ _ _ hd
  · intro x hx _ heq
    obtain ⟨_, d, hd, _⟩ := mem_hiddenSides.1 hx
    rw [turned_eq hd] at heq
    exact Side.neighbour?_ne hd (congrArg Prod.fst heq)
  · intro x hx
    obtain ⟨hocc, d, hd, hd'⟩ := mem_hiddenSides.1 hx
    rw [turned_eq hd]
    exact mem_hiddenSides.2 ⟨hd', x.1, Side.neighbour?_opposite hd, hocc⟩
  · intro x hx
    obtain ⟨_, d, hd, _⟩ := mem_hiddenSides.1 hx
    have hback : (d, x.2.opposite).2.neighbour? (d, x.2.opposite).1 = some x.1 :=
      Side.neighbour?_opposite hd
    rw [turned_eq hd, turned_eq hback, Side.opposite_opposite]

/-- A sum over the exposed sides is the sum over all sides of the occupied cells. -/
theorem sum_exposed (s : Stock α) {φ : Cell → Side → A}
    (hφ : ∀ c side d, side.neighbour? c = some d → φ c side + φ d side.opposite = 0) :
    (s.occupiedCells.map fun c => ((Side.all.filter (s.isExposed c)).map (φ c)).sum).sum =
      (s.occupiedCells.map fun c => (Side.all.map (φ c)).sum).sum := by
  have hside : ∀ c (p : Side → Bool), ((Side.all.filter p).map (φ c)).sum =
      ∑ side ∈ Side.all.toFinset, if p side then φ c side else 0 := by
    intro c p
    rw [← List.sum_toFinset _ (Side.nodup_all.filter p), List.toFinset_filter, Finset.sum_filter]
  have hsplit : ∀ c, (Side.all.map (φ c)).sum =
      ((Side.all.filter (s.isExposed c)).map (φ c)).sum +
        ((Side.all.filter fun side => !s.isExposed c side).map (φ c)).sum := by
    intro c
    rw [hside, hside, ← List.sum_toFinset _ Side.nodup_all, ← Finset.sum_add_distrib]
    refine Finset.sum_congr rfl fun side _ => ?_
    cases s.isExposed c side <;> simp
  have hhidden : (s.occupiedCells.map fun c =>
      ((Side.all.filter fun side => !s.isExposed c side).map (φ c)).sum).sum = 0 := by
    rw [← List.sum_toFinset _ s.nodup_occupiedCells, ← sum_hiddenSides s hφ, hiddenSides,
      Finset.sum_filter, Finset.sum_product]
    refine Finset.sum_congr rfl fun c _ => ?_
    rw [hside]
    refine Finset.sum_congr rfl fun side _ => ?_
    cases s.isExposed c side <;> rfl
  calc (s.occupiedCells.map fun c => ((Side.all.filter (s.isExposed c)).map (φ c)).sum).sum
      = (s.occupiedCells.map fun c => ((Side.all.filter (s.isExposed c)).map (φ c)).sum).sum +
        (s.occupiedCells.map fun c =>
          ((Side.all.filter fun side => !s.isExposed c side).map (φ c)).sum).sum := by
        rw [hhidden, add_zero]
    _ = (s.occupiedCells.map fun c => (Side.all.map (φ c)).sum).sum := by
        rw [← List.sum_map_add]
        simp only [hsplit]

theorem sum_map_flatMap {β γ : Type} (l : List β) (f : β → List γ) (F : γ → A) :
    ((l.flatMap f).map F).sum = (l.map fun x => ((f x).map F).sum).sum := by
  rw [List.map_flatMap, List.flatMap_def, List.sum_flatten, List.map_map]
  rfl

/-- A sum over the facets of the surface is a sum over all sides of the occupied cells, if it
changes its sign when a side is turned over. -/
theorem sum_surfaceFacets [Scalar α] (s : Stock α) (F : Facet α → A) {φ : Cell → Side → A}
    (hF : ∀ c side, ((halves side.normal (s.place c) side.corners).map F).sum = φ c side)
    (hφ : ∀ c side d, side.neighbour? c = some d → φ c side + φ d side.opposite = 0) :
    (s.surfaceFacets.map F).sum = (s.occupiedCells.map fun c => (Side.all.map (φ c)).sum).sum := by
  unfold surfaceFacets
  rw [sum_map_flatMap, ← sum_exposed s hφ]
  simp only [sum_map_flatMap, hF]

end Sums

end Stock

/-! ## Directed edges -/

/-- In the cycle of a facet's vertices `q` comes directly after `p`. -/
def Facet.Runs {α : Type} (f : Facet α) (p q : Point α) : Prop :=
  (f.a = p ∧ f.b = q) ∨ (f.b = p ∧ f.c = q) ∨ (f.c = p ∧ f.a = q)

instance {α : Type} [DecidableEq α] (f : Facet α) (p q : Point α) : Decidable (f.Runs p q) :=
  inferInstanceAs (Decidable ((f.a = p ∧ f.b = q) ∨ (f.b = p ∧ f.c = q) ∨ (f.c = p ∧ f.a = q)))

/-- What a weight of directed edges adds up to around a facet. -/
def Facet.around {α : Type} (w : Point α → Point α → ℤ) (f : Facet α) : ℤ :=
  w f.a f.b + w f.b f.c + w f.c f.a

/-- The weight of an edge that runs from `p` to `q`, or back. -/
def net {α : Type} [DecidableEq α] (p q u v : Point α) : ℤ :=
  (if u = p ∧ v = q then 1 else 0) - (if v = p ∧ u = q then 1 else 0)

section Edges

variable {α : Type} [DecidableEq α]

theorem net_add_net (p q u v : Point α) : net p q u v + net p q v u = 0 := by
  unfold net
  ring

/-- Around a facet the weights count whether it runs along the edge or against it. -/
theorem around_net {p q : Point α} (h : p ≠ q) (f : Facet α) :
    f.around (net p q) =
      (if f.Runs p q then 1 else 0) - (if f.Runs q p then 1 else 0) := by
  unfold Facet.around net Facet.Runs
  -- two edges of one facet that run from `p` to `q` would make `p` and `q` equal
  grind

/-- Facets along an edge less facets against it. -/
theorem sum_around_net {p q : Point α} (h : p ≠ q) (fs : List (Facet α)) :
    (fs.map (Facet.around (net p q))).sum =
      (fs.countP fun f => f.Runs p q : ℤ) - (fs.countP fun f => f.Runs q p : ℤ) := by
  induction fs with
  | nil => rfl
  | cons f fs ih =>
    rw [List.map_cons, List.sum_cons, ih, around_net h, List.countP_cons, List.countP_cons]
    push_cast
    simp only [decide_eq_true_eq]
    ring

end Edges

namespace Stock

/-! ## Exact corners -/

/-- The place of a corner of the grid. -/
noncomputable def vertex (s : Stock ℝ) (i j k : ℕ) : Point ℝ :=
  ⟨i * s.size.cell, j * s.size.cell, k * s.size.cell⟩

/-- With exact arithmetic the cells around a corner of the grid agree on its place. -/
theorem place_eq_vertex (s : Stock ℝ) (c : Cell) (k : Corner) :
    s.place c k = s.vertex (c.x + k.x.toNat) (c.y + k.y.toNat) (c.z + k.z.toNat) := by
  have hedge : ∀ (i : ℕ) (far : Bool),
      edge s.size.cell i far = (i + far.toNat : ℕ) * s.size.cell := by
    intro i far
    cases far <;> simp [edge, add_mul]
  unfold place vertex
  rw [hedge, hedge, hedge]

/-- The weights along the rim of a side. -/
noncomputable def rim (s : Stock ℝ) (w : Point ℝ → Point ℝ → ℤ) (c : Cell) (side : Side) : ℤ :=
  let (k₁, k₂, k₃, k₄) := side.corners
  w (s.place c k₁) (s.place c k₂) + w (s.place c k₂) (s.place c k₃) +
    w (s.place c k₃) (s.place c k₄) + w (s.place c k₄) (s.place c k₁)

variable {s : Stock ℝ} {w : Point ℝ → Point ℝ → ℤ} (hw : ∀ u v, w u v + w v u = 0)
include hw

/-- Along the diagonal of a side its two facets run against each other. -/
theorem sum_halves (c : Cell) (side : Side) :
    ((halves side.normal (s.place c) side.corners).map (Facet.around w)).sum = s.rim w c side := by
  unfold halves rim Facet.around
  have hdiagonal := hw (s.place c side.corners.1) (s.place c side.corners.2.2.1)
  simp only [List.map_cons, List.map_nil, List.sum_cons, List.sum_nil]
  linarith

/-- The rim of a side runs against the rim of the same side seen from beyond. -/
theorem rim_add_rim_opposite (c : Cell) (side : Side) (d : Cell)
    (h : side.neighbour? c = some d) : s.rim w c side + s.rim w d side.opposite = 0 := by
  have hfar : ∀ {side : Side}, side = .right ∨ side = .back ∨ side = .top → ∀ {c d : Cell},
      side.neighbour? c = some d → s.rim w c side + s.rim w d side.opposite = 0 := by
    rintro side (rfl | rfl | rfl) c d h <;> cases h
    all_goals
      simp only [rim, Side.corners, Side.opposite, place_eq_vertex, Bool.toNat_false,
        Bool.toNat_true, Nat.add_zero]
    · linarith [hw (s.vertex (c.x + 1) c.y (c.z + 1)) (s.vertex (c.x + 1) c.y c.z),
        hw (s.vertex (c.x + 1) c.y c.z) (s.vertex (c.x + 1) (c.y + 1) c.z),
        hw (s.vertex (c.x + 1) (c.y + 1) c.z) (s.vertex (c.x + 1) (c.y + 1) (c.z + 1)),
        hw (s.vertex (c.x + 1) (c.y + 1) (c.z + 1)) (s.vertex (c.x + 1) c.y (c.z + 1))]
    · linarith [hw (s.vertex c.x (c.y + 1) (c.z + 1)) (s.vertex (c.x + 1) (c.y + 1) (c.z + 1)),
        hw (s.vertex (c.x + 1) (c.y + 1) (c.z + 1)) (s.vertex (c.x + 1) (c.y + 1) c.z),
        hw (s.vertex (c.x + 1) (c.y + 1) c.z) (s.vertex c.x (c.y + 1) c.z),
        hw (s.vertex c.x (c.y + 1) c.z) (s.vertex c.x (c.y + 1) (c.z + 1))]
    · linarith [hw (s.vertex c.x c.y (c.z + 1)) (s.vertex (c.x + 1) c.y (c.z + 1)),
        hw (s.vertex (c.x + 1) c.y (c.z + 1)) (s.vertex (c.x + 1) (c.y + 1) (c.z + 1)),
        hw (s.vertex (c.x + 1) (c.y + 1) (c.z + 1)) (s.vertex c.x (c.y + 1) (c.z + 1)),
        hw (s.vertex c.x (c.y + 1) (c.z + 1)) (s.vertex c.x c.y (c.z + 1))]
  have hback := Side.neighbour?_opposite h
  cases side with
  | right | back | top => exact hfar (by decide) h
  | left | front | bottom =>
    rw [add_comm]
    exact hfar (by decide) hback

/-- The six rims of a cell run against each other along its twelve edges. -/
theorem sum_rim (c : Cell) : (Side.all.map (s.rim w c)).sum = 0 := by
  simp only [Side.all, List.map_cons, List.map_nil, List.sum_cons, List.sum_nil, rim, Side.corners]
  have along := fun (y z : Bool) => hw (s.place c ⟨false, y, z⟩) (s.place c ⟨true, y, z⟩)
  have across := fun (x z : Bool) => hw (s.place c ⟨x, false, z⟩) (s.place c ⟨x, true, z⟩)
  have up := fun (x y : Bool) => hw (s.place c ⟨x, y, false⟩) (s.place c ⟨x, y, true⟩)
  linarith [along false false, along false true, along true false, along true true,
    across false false, across false true, across true false, across true true,
    up false false, up false true, up true false, up true true]

omit hw

/-- **The surface is closed**: read with exact arithmetic, for every grid and every pattern of
occupied cells, as many facets run from `p` to `q` as run from `q` to `p`. -/
theorem surfaceFacets_closed (s : Stock ℝ) (p q : Point ℝ) :
    (s.surfaceFacets.countP fun f => f.Runs p q) =
      s.surfaceFacets.countP fun f => f.Runs q p := by
  rcases eq_or_ne p q with rfl | hpq
  · rfl
  have hw := net_add_net p q
  have hsum : (s.surfaceFacets.map (Facet.around (net p q))).sum = 0 := by
    rw [sum_surfaceFacets s _ (sum_halves hw) (rim_add_rim_opposite hw)]
    simp only [sum_rim hw]
    exact List.sum_map_zero
  rw [sum_around_net hpq] at hsum
  exact_mod_cast sub_eq_zero.1 hsum

end Stock

end Machining
