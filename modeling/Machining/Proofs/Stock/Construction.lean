import Mathlib.Tactic
import Machining.Simulation.Run

/-!
# Making a stock

The number of cells is a product of three counts, multiplied in two steps that each have to fit in
a word.  No count is zero, so no step is stopped unless the whole product is too large, and a block
without a fault forms a grid exactly if its cells can be counted in a word.

* `Stock.wordProduct?_bind` — the two steps together;
* `Stock.ofSize_eq_ok`, `Stock.ofSize_eq_tooLarge` — the block that is made, or why none is;
* `Stock.exists_error_iff`, `Stock.ofSize_eq_ok_iff` — when none is made, and what is made else;
* `Simulation.run_eq_error_iff` — a simulation fails only with the fault of its stock.
-/

set_option autoImplicit false

namespace Machining

variable {α : Type} [Scalar α]

namespace Stock

theorem cellsAlong_pos (extent cell : α) : 0 < cellsAlong extent cell := by
  unfold cellsAlong
  omega

/-- **Two steps fit in words exactly if the whole product does.** -/
theorem wordProduct?_bind {nx ny nz : ℕ} (hz : 0 < nz) :
    ((wordProduct? nx ny).bind fun n => wordProduct? n nz) = wordProduct? (nx * ny) nz := by
  by_cases hlayer : nx * ny < UInt64.size
  · have hfits : wordProduct? nx ny = some (nx * ny) := if_pos hlayer
    rw [hfits, Option.bind_some]
  · -- a layer that does not fit is no smaller with more layers
    have hle : nx * ny ≤ nx * ny * nz := Nat.le_mul_of_pos_right _ hz
    have hfails : wordProduct? nx ny = none := if_neg hlayer
    have hwhole : wordProduct? (nx * ny) nz = none := if_neg (by omega)
    rw [hfails, hwhole, Option.bind_none]

/-- The grid that a block without a fault would form. -/
def gridOf (size : StockSize α) : Grid α :=
  ⟨size, cellsAlong size.width size.cell, cellsAlong size.height size.cell,
    cellsAlong size.depth size.cell⟩

variable {size : StockSize α}

theorem gridOfSize_eq (h : size.fault? = none) : gridOfSize size =
    if (gridOf size).count < UInt64.size then .ok (gridOf size)
    else .error (.tooLarge (gridOf size).nx (gridOf size).ny (gridOf size).nz) := by
  unfold gridOfSize
  rw [h]
  dsimp only
  rw [wordProduct?_bind (cellsAlong_pos _ _)]
  by_cases hcount : (gridOf size).count < UInt64.size
  · have hfits : wordProduct? (cellsAlong size.width size.cell * cellsAlong size.height size.cell)
        (cellsAlong size.depth size.cell) = some (gridOf size).count := if_pos hcount
    rw [hfits, if_pos hcount]
    rfl
  · have hfails : wordProduct? (cellsAlong size.width size.cell * cellsAlong size.height size.cell)
        (cellsAlong size.depth size.cell) = none := if_neg hcount
    rw [hfails, if_neg hcount]
    rfl

/-- A block whose cells can be counted in a word is made full. -/
theorem ofSize_eq_ok (h : size.fault? = none) (hcount : (gridOf size).count < UInt64.size) :
    ofSize size = .ok (full (gridOf size)) := by
  unfold ofSize
  rw [gridOfSize_eq h, if_pos hcount]
  rfl

/-- A block with more cells is refused. -/
theorem ofSize_eq_tooLarge (h : size.fault? = none)
    (hcount : UInt64.size ≤ (gridOf size).count) : ofSize size =
      .error (.tooLarge (gridOf size).nx (gridOf size).ny (gridOf size).nz) := by
  unfold ofSize
  rw [gridOfSize_eq h, if_neg (not_lt.2 hcount)]
  rfl

/-- **No block is made** where it has a fault, or where its cells are more than a word counts. -/
theorem exists_error_iff : (∃ f, ofSize size = .error f) ↔
    size.fault? ≠ none ∨ UInt64.size ≤ (gridOf size).count := by
  cases hfault : size.fault? with
  | some f =>
    have hrefused : ofSize size = .error f := by
      unfold ofSize gridOfSize
      rw [hfault]
      rfl
    exact ⟨fun _ => .inl (Option.some_ne_none f), fun _ => ⟨f, hrefused⟩⟩
  | none =>
    rcases Nat.lt_or_ge (gridOf size).count UInt64.size with hlt | hge
    · rw [ofSize_eq_ok hfault hlt]
      simp [hlt]
    · rw [ofSize_eq_tooLarge hfault hge]
      simp [hge]

/-- The block that is made is full. -/
theorem ofSize_eq_ok_iff {s : Stock α} : ofSize size = .ok s ↔
    size.fault? = none ∧ (gridOf size).count < UInt64.size ∧ s = full (gridOf size) := by
  constructor
  · intro h
    have hmade : ¬∃ f, ofSize size = .error f := by simp [h]
    rw [exists_error_iff, not_or, not_not, not_le] at hmade
    obtain ⟨hfault, hcount⟩ := hmade
    rw [ofSize_eq_ok hfault hcount] at h
    exact ⟨hfault, hcount, (Except.ok.inj h).symm⟩
  · rintro ⟨hfault, hcount, rfl⟩
    exact ofSize_eq_ok hfault hcount

end Stock

/-! ## Simulations -/

namespace Simulation

/-- **A simulation fails only with the fault of its stock.** -/
theorem run_eq_error_iff {m : Machine α} {source : String} {step : α} {policy : RemovalPolicy}
    {f : StockFault α} :
    run source m step policy = .error f ↔ Stock.ofSize m.stock = .error f := by
  unfold run
  cases Stock.ofSize m.stock with
  | error g => simp
  | ok s => simp

end Simulation

end Machining
