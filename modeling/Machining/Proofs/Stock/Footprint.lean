import Mathlib
import Machining.Stock.Carving
import Machining.Proofs.Stock.Storage

/-!
# The footprint of a tool

Which cells a ball clears along a segment depends on the grid alone.  So carving a segment clears
a fixed list of cells, its footprint, and whatever is carved in turn clears all footprints at
once: neither the order of the segments, nor their repetition, nor the way in which they are cut
into calls makes a difference to what is left.

* `Grid.footprint` — the cells cleared along a segment, whatever the stock;
* `Stock.carve_eq_clear`, `Stock.remove_eq_clear` — carving and removal as clearings;
* `Stock.isOccupied_remove` — what a removal leaves, cell by cell;
* `Stock.remove_orderFree` — the laws of removal that follow.
-/

set_option autoImplicit false

namespace Machining

variable {α : Type} [Scalar α]

/-! ## Footprints -/

namespace Grid

variable {g : Grid α} {c d : Cell} {p : Point α} {radius : α}

/-- The last position looked at lies in the grid, also where the interval is open. -/
theorem le_of_span? {lo hi cell : α} {n first last : ℕ}
    (h : span? lo hi cell n = some (first, last)) : last ≤ n - 1 := by
  have hle : (if hi / cell ≤ hi / cell then min (Scalar.floorCount (hi / cell)) (n - 1)
      else n - 1) ≤ n - 1 := by
    split <;> omega
  unfold span? at h
  dsimp only at h
  generalize (if hi / cell ≤ hi / cell then min (Scalar.floorCount (hi / cell)) (n - 1)
    else n - 1) = top at h hle
  simp only [Option.ite_none_left_eq_some, Option.ite_none_right_eq_some, Option.some.injEq,
    Prod.mk.injEq] at h
  omega

theorem lt_of_mem_between {lo hi cell : α} {n first last i : ℕ}
    (h : span? lo hi cell n = some (first, last)) (hmem : i ∈ between first last) (hn : 0 < n) :
    i < n := by
  have hle := le_of_span? h
  rw [between, List.mem_range'_1] at hmem
  omega

theorem mem_reached {xs ys zs : List ℕ} (h : d ∈ g.reached p radius xs ys zs) :
    d.x ∈ xs ∧ d.y ∈ ys ∧ d.z ∈ zs := by
  unfold reached at h
  simp only [List.mem_flatMap, List.mem_filterMap] at h
  obtain ⟨z, hz, y, hy, x, hx, h⟩ := h
  split at h
  · cases h
    exact ⟨hx, hy, hz⟩
  · cases h

/-- A ball reaches cells of the grid only, if there are any. -/
theorem holds_of_mem_ball (hc : g.holds c) (h : d ∈ g.ball p radius) : g.holds d := by
  obtain ⟨hx, hy, hz⟩ := hc
  unfold ball at h
  split at h
  · rename_i hxs hys hzs
    obtain ⟨hdx, hdy, hdz⟩ := mem_reached h
    exact ⟨lt_of_mem_between hxs hdx (by omega), lt_of_mem_between hys hdy (by omega),
      lt_of_mem_between hzs hdz (by omega)⟩
  · cases h

/-- The cells that a ball clears along a segment. -/
def footprint (g : Grid α) (start target : Point α) (radius : α) : List Cell :=
  (g.stepPoints start target).flatMap fun p => g.ball p radius

theorem holds_of_mem_footprint {start target : Point α} (hc : g.holds c)
    (h : d ∈ g.footprint start target radius) : g.holds d := by
  obtain ⟨p, _, hp⟩ := List.mem_flatMap.1 h
  exact holds_of_mem_ball hc hp

/-- On the full block the segment clears the cell. -/
def Clears (g : Grid α) (start target : Point α) (radius : α) (c : Cell) : Prop :=
  (Stock.full g).isOccupied c = true ∧
    ((Stock.full g).carve start target radius).isOccupied c = false

end Grid

namespace Stock

variable {s : Stock α} {c : Cell}

/-! ## Carving is clearing -/

omit [Scalar α] in
/-- Cells cleared in turn, where what is cleared depends on the grid alone. -/
theorem foldl_clear {β : Type} (s : Stock α) (xs : List β) (f : Grid α → β → List Cell) :
    xs.foldl (fun s x => s.clear (f s.toGrid x)) s = s.clear (xs.flatMap (f s.toGrid)) := by
  induction xs generalizing s with
  | nil => rfl
  | cons x xs ih => rw [List.foldl_cons, ih, toGrid_clear, List.flatMap_cons, clear_append]

/-- **Carving a segment clears its footprint.** -/
theorem carve_eq_clear (s : Stock α) (start target : Point α) (radius : α) :
    s.carve start target radius = s.clear (s.toGrid.footprint start target radius) :=
  foldl_clear s _ fun g p => g.ball p radius

theorem isOccupied_carve {start target : Point α} {radius : α} :
    (s.carve start target radius).isOccupied c = true ↔
      s.isOccupied c = true ∧ c ∉ s.toGrid.footprint start target radius := by
  rw [carve_eq_clear, isOccupied_clear fun hc _ hd => Grid.holds_of_mem_footprint hc hd]

/-- The cells that a segment clears are those of its footprint. -/
theorem clears_iff {g : Grid α} {start target : Point α} {radius : α} :
    g.Clears start target radius c ↔ g.holds c ∧ c ∈ g.footprint start target radius := by
  unfold Grid.Clears
  rw [← Bool.not_eq_true, isOccupied_carve, isOccupied_full]
  tauto

/-! ## Several carvings -/

/-- The stock after several carvings, each with its segment and radius. -/
def carveAll (s : Stock α) (calls : List (Point α × Point α × α)) : Stock α :=
  calls.foldl (fun s x => s.carve x.1 x.2.1 x.2.2) s

/-- The footprints of several carvings. -/
def footprints (g : Grid α) (calls : List (Point α × Point α × α)) : List Cell :=
  calls.flatMap fun x => g.footprint x.1 x.2.1 x.2.2

/-- **Carvings clear all their footprints.** -/
theorem carveAll_eq_clear (s : Stock α) (calls : List (Point α × Point α × α)) :
    s.carveAll calls = s.clear (footprints s.toGrid calls) := by
  unfold carveAll footprints
  simp only [carve_eq_clear]
  exact foldl_clear s calls fun g x => g.footprint x.1 x.2.1 x.2.2

theorem holds_of_mem_footprints {g : Grid α} {calls : List (Point α × Point α × α)} {d : Cell}
    (hc : g.holds c) (h : d ∈ footprints g calls) : g.holds d := by
  obtain ⟨x, _, hx⟩ := List.mem_flatMap.1 h
  exact Grid.holds_of_mem_footprint hc hx

theorem isOccupied_carveAll {calls : List (Point α × Point α × α)} :
    (s.carveAll calls).isOccupied c = true ↔
      s.isOccupied c = true ∧ ∀ x ∈ calls, ¬s.toGrid.Clears x.1 x.2.1 x.2.2 c := by
  rw [carveAll_eq_clear, isOccupied_clear fun hc _ hd => holds_of_mem_footprints hc hd]
  refine and_congr_right fun hocc => ?_
  have hc := holds_of_isOccupied hocc
  simp only [footprints, List.mem_flatMap, not_exists, not_and, clears_iff, hc, true_and]

@[simp] theorem toGrid_carveAll (s : Stock α) (calls : List (Point α × Point α × α)) :
    (s.carveAll calls).toGrid = s.toGrid := by
  rw [carveAll_eq_clear, toGrid_clear]

theorem carveAll_append (s : Stock α) (calls calls' : List (Point α × Point α × α)) :
    s.carveAll (calls ++ calls') = (s.carveAll calls).carveAll calls' := by
  unfold carveAll
  rw [List.foldl_append]

/-- **Only which carvings are made counts**, not their order and not how often. -/
theorem carveAll_congr {calls calls' : List (Point α × Point α × α)}
    (h : ∀ x, x ∈ calls ↔ x ∈ calls') : s.carveAll calls = s.carveAll calls' := by
  refine eq_of_isOccupied ?_ fun c => ?_
  · rw [toGrid_carveAll, toGrid_carveAll]
  · simp only [isOccupied_carveAll, h]

/-! ## Removal -/

/-- The carvings of a removal. -/
def removalCalls (xs : List (Sample α)) (diameter : α) (policy : RemovalPolicy) :
    List (Point α × Point α × α) :=
  (segments policy xs).map fun x => (x.1, x.2, diameter / 2)

theorem remove_eq_carveAll (s : Stock α) (xs : List (Sample α)) (diameter : α)
    (policy : RemovalPolicy) :
    s.remove xs diameter policy = s.carveAll (removalCalls xs diameter policy) := by
  unfold remove carveAll removalCalls
  rw [List.foldl_map]

omit [Scalar α] in
theorem mem_zip_tail {xs : List (Sample α)} {a b : Sample α} :
    (a, b) ∈ xs.zip xs.tail ↔ [a, b] <:+: xs := by
  induction xs with
  | nil => simp
  | cons x xs ih =>
    rw [List.tail_cons, List.infix_cons_iff]
    cases xs with
    | nil => simp
    | cons y ys =>
      rw [List.zip_cons_cons, List.mem_cons, ← ih, List.tail_cons]
      simp [List.prefix_cons_iff]

omit [Scalar α] in
/-- The carved segments lead from one sample to the next, where the policy lets them cut. -/
theorem mem_segments {policy : RemovalPolicy} {xs : List (Sample α)} {x : Point α × Point α} :
    x ∈ segments policy xs ↔
      ∃ a b, [a, b] <:+: xs ∧ policy.removes b = true ∧ (a.axes, b.axes) = x := by
  unfold segments
  simp only [List.mem_map, List.mem_filter, Prod.exists, mem_zip_tail, and_assoc]

/-- **What a removal leaves**: the cells that no segment clears on the full block. -/
theorem isOccupied_remove {xs : List (Sample α)} {diameter : α} {policy : RemovalPolicy} :
    (s.remove xs diameter policy).isOccupied c = true ↔
      s.isOccupied c = true ∧ ∀ a b, [a, b] <:+: xs → policy.removes b = true →
        ¬s.toGrid.Clears a.axes b.axes (diameter / 2) c := by
  rw [remove_eq_carveAll, isOccupied_carveAll]
  refine and_congr_right fun _ => ?_
  simp only [removalCalls, List.forall_mem_map, Prod.forall, mem_segments]
  constructor
  · intro h a b hab hb
    exact h a.axes b.axes ⟨a, b, hab, hb, rfl⟩
  · rintro h _ _ ⟨a, b, hab, hb, heq⟩
    cases heq
    exact h a b hab hb

omit [Scalar α] in
/-- Cut at a sample, a trajectory has the segments of both parts, if both keep the sample. -/
theorem segments_append (policy : RemovalPolicy) (xs : List (Sample α)) (p : Sample α)
    (ys : List (Sample α)) : segments policy (xs ++ [p] ++ ys) =
      segments policy (xs ++ [p]) ++ segments policy ([p] ++ ys) := by
  have hzip : (xs ++ [p] ++ ys).zip (xs ++ [p] ++ ys).tail =
      (xs ++ [p]).zip (xs ++ [p]).tail ++ ([p] ++ ys).zip ([p] ++ ys).tail := by
    induction xs with
    | nil => simp
    | cons x xs ih =>
      cases xs with
      | nil => simp
      | cons y zs => simpa using ih
  unfold segments
  rw [hzip, List.filter_append, List.map_append]

theorem remove_append (s : Stock α) (xs : List (Sample α)) (p : Sample α) (ys : List (Sample α))
    (diameter : α) (policy : RemovalPolicy) : s.remove (xs ++ [p] ++ ys) diameter policy =
      (s.remove (xs ++ [p]) diameter policy).remove ([p] ++ ys) diameter policy := by
  simp only [remove_eq_carveAll, removalCalls]
  rw [segments_append, List.map_append, carveAll_append]

theorem remove_remove (s : Stock α) (xs : List (Sample α)) (diameter : α)
    (policy : RemovalPolicy) :
    (s.remove xs diameter policy).remove xs diameter policy = s.remove xs diameter policy := by
  simp only [remove_eq_carveAll]
  rw [← carveAll_append]
  exact carveAll_congr fun x => by simp

theorem isOccupied_remove_cuttingOnly {xs : List (Sample α)} {diameter : α}
    (h : (s.remove xs diameter .allMotion).isOccupied c = true) :
    (s.remove xs diameter .cuttingOnly).isOccupied c = true := by
  rw [isOccupied_remove] at h ⊢
  exact ⟨h.1, fun a b hab _ => h.2 a b hab rfl⟩

/-- **Removal is free of order, repetition and batching.**  A cell is left exactly if it was there
and no segment that the policy lets cut clears it on the full block; so carvings give one stock,
with one fingerprint, in whatever order and however often they are made, a removal made again
changes nothing, a trajectory can be cut at any of its samples, and what all motion leaves, cutting
alone leaves as well. -/
theorem remove_orderFree (s : Stock α) (diameter : α) :
    (∀ (policy : RemovalPolicy) (xs : List (Sample α)) (c : Cell),
      (s.remove xs diameter policy).isOccupied c = true ↔
        s.isOccupied c = true ∧ ∀ a b, [a, b] <:+: xs → policy.removes b = true →
          ¬s.toGrid.Clears a.axes b.axes (diameter / 2) c) ∧
    (∀ calls calls' : List (Point α × Point α × α), (∀ x, x ∈ calls ↔ x ∈ calls') →
      s.carveAll calls = s.carveAll calls' ∧
        (s.carveAll calls).fingerprint = (s.carveAll calls').fingerprint) ∧
    (∀ (policy : RemovalPolicy) (xs : List (Sample α)),
      (s.remove xs diameter policy).remove xs diameter policy = s.remove xs diameter policy) ∧
    (∀ (policy : RemovalPolicy) (xs : List (Sample α)) (p : Sample α) (ys : List (Sample α)),
      s.remove (xs ++ [p] ++ ys) diameter policy =
        (s.remove (xs ++ [p]) diameter policy).remove ([p] ++ ys) diameter policy) ∧
    ∀ (xs : List (Sample α)) (c : Cell),
      (s.remove xs diameter .allMotion).isOccupied c = true →
        (s.remove xs diameter .cuttingOnly).isOccupied c = true := by
  refine ⟨?cells, ?calls, ?again, ?cut, ?policies⟩
  case cells =>
    intro policy xs c
    exact isOccupied_remove
  case calls =>
    intro calls calls' h
    have hsame := s.carveAll_congr h
    exact ⟨hsame, congrArg fingerprint hsame⟩
  case again =>
    intro policy xs
    exact s.remove_remove xs diameter policy
  case cut =>
    intro policy xs p ys
    exact s.remove_append xs p ys diameter policy
  case policies =>
    intro xs c h
    exact isOccupied_remove_cuttingOnly h

/-- A carving along the first cell of a block of three. -/
def firstCarving : Point Float × Point Float × Float := (⟨0.5, 0.5, 0.5⟩, ⟨1, 0.5, 0.5⟩, 0.25)

/-- A carving down into the last cell of a block of three. -/
def lastCarving : Point Float × Point Float × Float := (⟨2.5, 0.5, 2⟩, ⟨2.5, 0.5, 0.5⟩, 0.25)

/-- Two carvings of a block of three cells, made in turn and made twice in the other order. -/
theorem remove_orderFree_threeCells :
    (∀ x, x ∈ [firstCarving, lastCarving] ↔ x ∈ [lastCarving, firstCarving, lastCarving]) ∧
      ((full ⟨⟨3, 1, 1, 1⟩, 3, 1, 1⟩ : Stock Float).carveAll
        [firstCarving, lastCarving]).cells.toList = [false, true, false] ∧
      (full ⟨⟨3, 1, 1, 1⟩, 3, 1, 1⟩ : Stock Float).carveAll [firstCarving, lastCarving] =
        (full ⟨⟨3, 1, 1, 1⟩, 3, 1, 1⟩ : Stock Float).carveAll
          [lastCarving, firstCarving, lastCarving] := by
  have hcalls : ∀ a b x : Point Float × Point Float × Float, x ∈ [a, b] ↔ x ∈ [b, a, b] := by
    intro a b x
    simp only [List.mem_cons, List.not_mem_nil, or_false]
    tauto
  have hcut : ((full ⟨⟨3, 1, 1, 1⟩, 3, 1, 1⟩ : Stock Float).carveAll
      [firstCarving, lastCarving]).cells.toList = [false, true, false] := by
    decide +kernel
  obtain ⟨_, hsame, _⟩ := remove_orderFree (full ⟨⟨3, 1, 1, 1⟩, 3, 1, 1⟩ : Stock Float) 0.5
  exact ⟨hcalls _ _, hcut, (hsame _ _ (hcalls _ _)).1⟩

end Stock

end Machining
