import Machining.Proofs.Stock.Ball

/-!
# The swept capsule

A ball that moves along a segment sweeps a capsule: the points within its radius of the segment.
Carving puts the ball at finitely many places instead, not more than half a cell apart.  Whatever
it clears lies in the capsule.  A point of the capsule may be out of reach between two places, but
not if it is a little further inside: the squared distances from two neighbouring places are in the
mean at most a sixteenth of a squared cell above the squared distance from any point between them.
All of this is read with exact arithmetic.

* `Grid.distance_le_steps_mul` — the places are at most half a cell apart;
* `Point.distance_sq_le_or` — one end of a segment is nearly as near as any point of it;
* `Grid.exists_step_near` — one place is nearly as near as any point of the segment;
* `Stock.carve_approximates` — carving clears cells of the capsule only, and all of a smaller one.
-/

set_option autoImplicit false

namespace Machining

/-! ## Between neighbouring places -/

/-- Every share of the way lies between two neighbouring ones of `n` even shares. -/
theorem exists_share_between {n : ℕ} (hn : 0 < n) {u : ℝ} (h0 : 0 ≤ u) (h1 : u ≤ 1) :
    ∃ k < n, ∃ v : ℝ, 0 ≤ v ∧ v ≤ 1 ∧ u = k / n + ((k + 1 : ℕ) / n - k / n) * v := by
  have hpos : (0 : ℝ) < n := Nat.cast_pos.2 hn
  rcases h1.lt_or_eq with hlt | rfl
  · have hscaled : 0 ≤ u * n := by positivity
    refine ⟨⌊u * n⌋₊, (Nat.floor_lt hscaled).2 (by nlinarith), u * n - ⌊u * n⌋₊, ?_, ?_, ?_⟩
    · linarith [Nat.floor_le hscaled]
    · linarith [Nat.lt_floor_add_one (u * n)]
    · push_cast
      field_simp
      ring
  · -- the whole way is the end of the last share
    refine ⟨n - 1, by omega, 1, zero_le_one, le_rfl, ?_⟩
    rw [Nat.sub_add_cancel hn, div_self hpos.ne']
    ring

/-- Of two numbers one is at most their weighed mean. -/
theorem le_or_le_of_mean_le {u x y z : ℝ} (h0 : 0 ≤ u) (h1 : u ≤ 1)
    (h : (1 - u) * x + u * y ≤ z) : x ≤ z ∨ y ≤ z := by
  rcases le_total x y with hxy | hxy
  · left
    linarith [mul_le_mul_of_nonneg_left hxy h0]
  · right
    linarith [mul_le_mul_of_nonneg_left hxy (sub_nonneg.2 h1)]

/-- **One end of a segment is nearly as near as any point of it**: in squares the difference is at
most that of half the segment. -/
theorem Point.distance_sq_le_or (c a b : Point ℝ) {u : ℝ} (h0 : 0 ≤ u) (h1 : u ≤ 1) :
    c.distance a ^ 2 ≤ c.distance (a.lerp b u) ^ 2 + (a.distance b / 2) ^ 2 ∨
      c.distance b ^ 2 ≤ c.distance (a.lerp b u) ^ 2 + (a.distance b / 2) ^ 2 := by
  have hshare : u * (1 - u) ≤ 1 / 4 := by nlinarith [sq_nonneg (u - 1 / 2)]
  have hloss : u * (1 - u) * a.distance b ^ 2 ≤ 1 / 4 * a.distance b ^ 2 :=
    mul_le_mul_of_nonneg_right hshare (sq_nonneg _)
  refine le_or_le_of_mean_le h0 h1 ?_
  rw [distance_lerp_sq]
  linarith

namespace Grid

variable {g : Grid ℝ}

theorem steps_pos (g : Grid ℝ) (start target : Point ℝ) : 0 < g.steps start target := by
  rw [steps_real]
  positivity

/-- There is a step for each half cell of the way. -/
theorem distance_le_steps_mul (hcell : 0 < g.size.cell) (start target : Point ℝ) :
    start.distance target ≤ g.steps start target * (g.size.cell / 2) := by
  have hhalf : 0 < g.size.cell / 2 := by linarith
  rw [← div_le_iff₀ hhalf, steps_real]
  exact (Nat.le_ceil _).trans (Nat.cast_le.2 (le_max_right _ _))

/-- **One place is nearly as near as any point of the segment**: in squares the difference is at
most that of a quarter cell. -/
theorem exists_step_near (hcell : 0 < g.size.cell) {start target q : Point ℝ}
    (hq : Point.OnSegment start target q) (c : Point ℝ) : ∃ k ≤ g.steps start target,
      c.distance (start.lerp target (k / g.steps start target)) ^ 2 ≤
        c.distance q ^ 2 + (g.size.cell / 4) ^ 2 := by
  obtain ⟨u, h0, h1, rfl⟩ := hq
  have hn := g.steps_pos start target
  have hway := g.distance_le_steps_mul hcell start target
  generalize g.steps start target = n at hn hway ⊢
  have hpos : (0 : ℝ) < n := Nat.cast_pos.2 hn
  obtain ⟨k, hk, v, hv0, hv1, rfl⟩ := exists_share_between hn h0 h1
  rw [← Point.lerp_lerp]
  have hgap : (start.lerp target (k / n)).distance (start.lerp target ((k + 1 : ℕ) / n)) ≤
      g.size.cell / 2 := by
    rw [Point.distance_share_succ, div_le_iff₀ hpos]
    linarith
  have hhalf :
      ((start.lerp target (k / n)).distance (start.lerp target ((k + 1 : ℕ) / n)) / 2) ^ 2 ≤
        (g.size.cell / 4) ^ 2 :=
    pow_le_pow_left₀ (div_nonneg (Point.distance_nonneg _ _) zero_le_two) (by linarith) 2
  rcases Point.distance_sq_le_or c (start.lerp target (k / n))
    (start.lerp target ((k + 1 : ℕ) / n)) hv0 hv1 with hnear | hnear
  · exact ⟨k, hk.le, by linarith⟩
  · exact ⟨k + 1, hk, by linarith⟩

end Grid

/-! ## Carving -/

namespace Stock

variable {s : Stock ℝ} {start target : Point ℝ} {radius : ℝ} {c : Cell}

/-- A place of the ball in reach leaves the cell empty. -/
theorem isOccupied_carve_of_step (hcell : 0 < s.size.cell) {k : ℕ}
    (hk : k ≤ s.toGrid.steps start target)
    (h : (s.toGrid.centre c).distance (start.lerp target (k / s.toGrid.steps start target)) ≤
      radius) : (s.carve start target radius).isOccupied c = false := by
  rw [← Bool.not_eq_true, isOccupied_carve_real hcell]
  rintro ⟨-, hfar⟩
  exact absurd (hfar k hk) (not_lt.2 h)

/-- What a carving clears lies in the capsule. -/
theorem exists_onSegment_of_cleared (hcell : 0 < s.size.cell) (hbefore : s.isOccupied c = true)
    (hafter : (s.carve start target radius).isOccupied c = false) :
    ∃ q, Point.OnSegment start target q ∧ (s.toGrid.centre c).distance q ≤ radius := by
  rw [← Bool.not_eq_true, isOccupied_carve, not_and, not_not] at hafter
  have hc := holds_of_isOccupied hbefore
  obtain ⟨k, hk, hreach⟩ := (Grid.mem_footprint_iff hcell hc).1 (hafter hbefore)
  refine ⟨_, ⟨k / s.toGrid.steps start target, by positivity, ?_, rfl⟩, hreach⟩
  exact div_le_one_of_le₀ (Nat.cast_le.2 hk) (Nat.cast_nonneg _)

theorem isOccupied_carve_of_near (hcell : 0 < s.size.cell) (hr : 0 ≤ radius) {q : Point ℝ}
    (hq : Point.OnSegment start target q)
    (h : (s.toGrid.centre c).distance q ^ 2 + (s.size.cell / 4) ^ 2 ≤ radius ^ 2) :
    (s.carve start target radius).isOccupied c = false := by
  obtain ⟨k, hk, hnear⟩ := Grid.exists_step_near (g := s.toGrid) hcell hq (s.toGrid.centre c)
  exact isOccupied_carve_of_step hcell hk ((Point.distance_le_iff hr).2 (hnear.trans h))

theorem isOccupied_carve_of_end (hcell : 0 < s.size.cell)
    (h : (s.toGrid.centre c).distance start ≤ radius ∨
      (s.toGrid.centre c).distance target ≤ radius) :
    (s.carve start target radius).isOccupied c = false := by
  have hpos : (0 : ℝ) < s.toGrid.steps start target :=
    Nat.cast_pos.2 (s.toGrid.steps_pos start target)
  rcases h with hstart | htarget
  · refine isOccupied_carve_of_step hcell (Nat.zero_le _) ?_
    rwa [Nat.cast_zero, zero_div, Point.lerp_zero]
  · refine isOccupied_carve_of_step hcell le_rfl ?_
    rwa [div_self hpos.ne', Point.lerp_one]

/-- **Carving approximates the swept capsule from inside.**  A cell that it clears has its centre
within the radius of some point of the segment.  Conversely a cell is empty afterwards if its
centre is within the radius of an end of the segment, or so near to some point of it that the
squares of that distance and of a quarter cell add up to no more than the squared radius. -/
theorem carve_approximates (s : Stock ℝ) (hcell : 0 < s.size.cell) (start target : Point ℝ)
    {radius : ℝ} (hr : 0 ≤ radius) :
    (∀ c, s.isOccupied c = true → (s.carve start target radius).isOccupied c = false →
      ∃ q, Point.OnSegment start target q ∧ (s.toGrid.centre c).distance q ≤ radius) ∧
    (∀ c q, Point.OnSegment start target q →
      (s.toGrid.centre c).distance q ^ 2 + (s.size.cell / 4) ^ 2 ≤ radius ^ 2 →
        (s.carve start target radius).isOccupied c = false) ∧
    ∀ c, (s.toGrid.centre c).distance start ≤ radius ∨
        (s.toGrid.centre c).distance target ≤ radius →
      (s.carve start target radius).isOccupied c = false := by
  refine ⟨?sound, ?between, ?ends⟩
  case sound =>
    intro c hbefore hafter
    exact exists_onSegment_of_cleared hcell hbefore hafter
  case between =>
    intro c q hq hnear
    exact isOccupied_carve_of_near hcell hr hq hnear
  case ends =>
    intro c hend
    exact isOccupied_carve_of_end hcell hend

/-- A slot that ends short of the last of three cells: the first cell is cleared from the end of
the segment, the second from the way past its centre. -/
theorem carve_approximates_slot :
    let s : Stock ℝ := full ⟨⟨3, 1, 1, 1⟩, 3, 1, 1⟩
    let slot := s.carve ⟨1 / 2, 1 / 2, 1 / 2⟩ ⟨2, 1 / 2, 1 / 2⟩ (1 / 4)
    0 < s.size.cell ∧ (0 : ℝ) ≤ 1 / 4 ∧ slot.isOccupied ⟨0, 0, 0⟩ = false ∧
      slot.isOccupied ⟨1, 0, 0⟩ = false ∧ slot.isOccupied ⟨2, 0, 0⟩ = true := by
  intro s slot
  have hcell : 0 < s.size.cell := one_pos
  have hr : (0 : ℝ) ≤ 1 / 4 := by norm_num
  obtain ⟨hsound, hbetween, hends⟩ :=
    carve_approximates s hcell ⟨1 / 2, 1 / 2, 1 / 2⟩ ⟨2, 1 / 2, 1 / 2⟩ hr
  refine ⟨hcell, hr, hends ⟨0, 0, 0⟩ (.inl ?_), hbetween ⟨1, 0, 0⟩ ⟨3 / 2, 1 / 2, 1 / 2⟩ ?_ ?_, ?_⟩
  · rw [Point.distance_le_iff hr, Point.distance_sq, Grid.centre_real]
    norm_num [s, full]
  · exact ⟨2 / 3, by norm_num, by norm_num, by norm_num [Point.lerp]⟩
  · rw [Point.distance_sq, Grid.centre_real]
    norm_num [s, full]
  · by_contra hcleared
    rw [Bool.not_eq_true] at hcleared
    obtain ⟨q, ⟨u, -, hu, rfl⟩, hreach⟩ :=
      hsound ⟨2, 0, 0⟩ (isOccupied_full.2 (by decide)) hcleared
    have halong := (Point.abs_along_sub_le _ _ .x).trans hreach
    rw [Grid.centre_real] at halong
    have hlow := (abs_le.1 halong).1
    simp only [Point.along, Point.lerp, s, full] at hlow
    norm_num at hlow
    linarith

end Stock

end Machining
