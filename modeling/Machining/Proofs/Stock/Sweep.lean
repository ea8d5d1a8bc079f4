import Machining.Proofs.Stock.Capsule

/-!
# Sweeps in both directions and with wider balls

With exact arithmetic a segment is divided into the same places from either end, so a ball clears
the same cells on its way there as on its way back, and a trajectory followed backwards leaves the
same stock.  A wider ball reaches from each of its places what a narrower one reaches from there,
so it clears no cell less, along one segment and along all segments of a trajectory.

* `Grid.mem_stepPoints_comm` — the places of a ball, from either end;
* `Grid.mem_footprint_comm`, `Grid.mem_footprint_mono` — what a segment clears;
* `Stock.carve_comm`, `Stock.remove_reverse` — one stock from both directions;
* `Stock.isOccupied_remove_mono` — what a bigger tool leaves, a smaller one leaves as well;
* `Stock.remove_undirected` — all of this together.
-/

set_option autoImplicit false

namespace Machining

theorem Point.lerp_comm (a b : Point ℝ) (u : ℝ) : a.lerp b u = b.lerp a (1 - u) := by
  simp only [lerp, mk.injEq]
  refine ⟨by ring, by ring, by ring⟩

namespace Grid

variable {g : Grid ℝ} {a b p : Point ℝ} {r r' : ℝ} {c : Cell}

/-! ## Both directions -/

theorem steps_comm (g : Grid ℝ) (a b : Point ℝ) : g.steps a b = g.steps b a := by
  rw [steps_real, steps_real, Point.distance_comm]

/-- Place `k` on the way there is place `n - k` on the way back. -/
theorem mem_stepPoints_of_swap (h : p ∈ g.stepPoints a b) : p ∈ g.stepPoints b a := by
  obtain ⟨k, hk, rfl⟩ := mem_stepPoints_iff.1 h
  have hpos : (g.steps a b : ℝ) ≠ 0 := Nat.cast_ne_zero.2 (g.steps_pos a b).ne'
  refine mem_stepPoints_iff.2 ⟨g.steps a b - k, ?_, ?_⟩
  · rw [g.steps_comm b a]
    exact Nat.sub_le _ _
  · rw [g.steps_comm b a, Point.lerp_comm, Nat.cast_sub hk, sub_div, div_self hpos]

/-- **A segment is divided into the same places from either end.** -/
theorem mem_stepPoints_comm : p ∈ g.stepPoints a b ↔ p ∈ g.stepPoints b a :=
  ⟨mem_stepPoints_of_swap, mem_stepPoints_of_swap⟩

/-- **A segment clears the same cells in both directions.** -/
theorem mem_footprint_comm : c ∈ g.footprint a b r ↔ c ∈ g.footprint b a r := by
  unfold footprint
  simp only [List.mem_flatMap, g.mem_stepPoints_comm (a := a) (b := b)]

theorem clears_comm : g.Clears a b r c ↔ g.Clears b a r c := by
  rw [Stock.clears_iff, Stock.clears_iff, mem_footprint_comm]

/-! ## Wider balls -/

/-- **A wider ball clears no cell less.** -/
theorem mem_footprint_mono (hcell : 0 < g.size.cell) (hc : g.holds c) (hr : r ≤ r')
    (h : c ∈ g.footprint a b r) : c ∈ g.footprint a b r' := by
  rw [mem_footprint_iff hcell hc] at h ⊢
  obtain ⟨k, hk, hreach⟩ := h
  exact ⟨k, hk, hreach.trans hr⟩

theorem Clears.mono (h : g.Clears a b r c) (hcell : 0 < g.size.cell) (hr : r ≤ r') :
    g.Clears a b r' c := by
  rw [Stock.clears_iff] at h ⊢
  exact ⟨h.1, mem_footprint_mono hcell h.1 hr h.2⟩

end Grid

namespace Stock

variable {s : Stock ℝ} {a b : Point ℝ} {r r' d d' : ℝ} {c : Cell}

/-- **One stock from both directions** of a segment. -/
theorem carve_comm (s : Stock ℝ) (a b : Point ℝ) (r : ℝ) : s.carve a b r = s.carve b a r := by
  refine eq_of_isOccupied ?_ fun c => ?_
  · rw [carve_eq_clear, carve_eq_clear, toGrid_clear, toGrid_clear]
  · rw [isOccupied_carve, isOccupied_carve, Grid.mem_footprint_comm]

/-- **One stock from both directions** of a trajectory. -/
theorem remove_reverse (s : Stock ℝ) (xs : List (Sample ℝ)) (d : ℝ) :
    s.remove xs.reverse d .allMotion = s.remove xs d .allMotion := by
  refine eq_of_isOccupied ?_ fun c => ?_
  · rw [remove_eq_carveAll, remove_eq_carveAll, toGrid_carveAll, toGrid_carveAll]
  · have hpair (x y : Sample ℝ) : [x, y] <:+: xs.reverse ↔ [y, x] <:+: xs := by
      rw [← List.reverse_infix, List.reverse_reverse]
      rfl
    rw [isOccupied_remove, isOccupied_remove]
    refine and_congr_right fun _ => ?_
    simp only [hpair]
    constructor
    · intro h x y hxy _ hclears
      exact h y x hxy rfl (Grid.clears_comm.1 hclears)
    · intro h x y hyx _ hclears
      exact h y x hyx rfl (Grid.clears_comm.1 hclears)

/-- What a wider ball leaves, a narrower one leaves as well. -/
theorem isOccupied_carve_mono (hcell : 0 < s.size.cell) (hr : r ≤ r')
    (h : (s.carve a b r').isOccupied c = true) : (s.carve a b r).isOccupied c = true := by
  rw [isOccupied_carve] at h ⊢
  refine ⟨h.1, fun hmem => h.2 ?_⟩
  exact Grid.mem_footprint_mono hcell (holds_of_isOccupied h.1) hr hmem

/-- **What a bigger tool leaves, a smaller one leaves as well.** -/
theorem isOccupied_remove_mono (hcell : 0 < s.size.cell) (hd : d ≤ d') {xs : List (Sample ℝ)}
    {policy : RemovalPolicy} (h : (s.remove xs d' policy).isOccupied c = true) :
    (s.remove xs d policy).isOccupied c = true := by
  rw [isOccupied_remove] at h ⊢
  have hhalf : d / 2 ≤ d' / 2 := div_le_div_of_nonneg_right hd zero_le_two
  exact ⟨h.1, fun x y hxy hy hclears => h.2 x y hxy hy (hclears.mono hcell hhalf)⟩

/-- **Sweeps have no direction, and a bigger tool never cuts less.**  Carving a segment from either
end gives the same stock, and so does removal along a trajectory and along its reverse when all
motion removes material.  If the cells have a positive size, as in every stock that is made from a
description, every cell that is empty after a carving is empty after a carving of the same segment
with a larger radius, and every cell that is empty after a removal is empty after a removal along
the same trajectory with a larger diameter, under either policy. -/
theorem remove_undirected (s : Stock ℝ) :
    (∀ a b r, s.carve a b r = s.carve b a r) ∧
    (∀ xs d, s.remove xs.reverse d .allMotion = s.remove xs d .allMotion) ∧
    (0 < s.size.cell → ∀ a b r r', r ≤ r' → ∀ c,
      (s.carve a b r).isOccupied c = false → (s.carve a b r').isOccupied c = false) ∧
    (0 < s.size.cell → ∀ policy xs d d', d ≤ d' → ∀ c,
      (s.remove xs d policy).isOccupied c = false →
        (s.remove xs d' policy).isOccupied c = false) := by
  refine ⟨s.carve_comm, s.remove_reverse, ?carving, ?removal⟩
  case carving =>
    intro hcell a b r r' hr c hcleared
    rw [← Bool.not_eq_true] at hcleared ⊢
    exact fun h => hcleared (isOccupied_carve_mono hcell hr h)
  case removal =>
    intro hcell policy xs d d' hd c hcleared
    rw [← Bool.not_eq_true] at hcleared ⊢
    exact fun h => hcleared (isOccupied_remove_mono hcell hd h)

/-- A sample of a feed move with the spindle turning. -/
noncomputable def cuttingAt (axes : Point ℝ) : Sample ℝ :=
  ⟨0, 0, 1, axes, axes, 1, 1, .clockwise, .linear⟩

/-- A slot along a row of three cells, with tools of half a cell and of two cells. -/
theorem remove_undirected_slot :
    let s : Stock ℝ := full ⟨⟨3, 1, 1, 1⟩, 3, 1, 1⟩
    let a : Point ℝ := ⟨1 / 2, 1 / 2, 1 / 2⟩
    let b : Point ℝ := ⟨2, 1 / 2, 1 / 2⟩
    0 < s.size.cell ∧ (s.carve b a (1 / 4)).isOccupied ⟨0, 0, 0⟩ = false ∧
    (s.carve a b 1).isOccupied ⟨0, 0, 0⟩ = false ∧
    (s.remove [cuttingAt b, cuttingAt a] (1 / 2) .allMotion).isOccupied ⟨0, 0, 0⟩ = false ∧
    (s.remove [cuttingAt a, cuttingAt b] 2 .cuttingOnly).isOccupied ⟨0, 0, 0⟩ = false := by
  intro s a b
  have hcell : 0 < s.size.cell := one_pos
  obtain ⟨hcomm, hreverse, hcarving, hremoval⟩ := remove_undirected s
  have hcentre : s.toGrid.centre ⟨0, 0, 0⟩ = a := by
    rw [Grid.centre_real]
    norm_num [s, a, full]
  have hnarrow : (s.carve a b (1 / 4)).isOccupied ⟨0, 0, 0⟩ = false := by
    refine isOccupied_carve_of_end hcell (.inl ?_)
    rw [hcentre, Point.distance_self]
    norm_num
  have hslot (policy : RemovalPolicy) :
      (s.remove [cuttingAt a, cuttingAt b] (1 / 2) policy).isOccupied ⟨0, 0, 0⟩ = false := by
    have hone : s.remove [cuttingAt a, cuttingAt b] (1 / 2) policy = s.carve a b (1 / 2 / 2) := by
      cases policy <;> rfl
    have hquarter : (1 / 2 / 2 : ℝ) = 1 / 4 := by norm_num
    rw [hone, hquarter, hnarrow]
  refine ⟨hcell, ?_, ?_, ?_, ?_⟩
  · rw [hcomm b a, hnarrow]
  · exact hcarving hcell a b (1 / 4) 1 (by norm_num) _ hnarrow
  · exact (congrArg (isOccupied · _) (hreverse [cuttingAt a, cuttingAt b] (1 / 2))).trans
      (hslot .allMotion)
  · exact hremoval hcell .cuttingOnly _ (1 / 2) 2 (by norm_num) _ (hslot .cuttingOnly)

end Stock

end Machining
