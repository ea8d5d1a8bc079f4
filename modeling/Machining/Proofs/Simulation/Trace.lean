import Machining.Proofs.Modal.Accounting
import Machining.Proofs.Program.Lines
import Machining.Proofs.Trajectory.Velocity
import Machining.Simulation.Run

/-!
# Traces through a simulation

Block indices and modal context are handed on from stage to stage.  Along the way nothing is
confused: a sample goes back to the block whose index it carries, and shows what the snapshot of
that block shows; an event goes back to a sample.  No stage changes the order.

* `Interpretation.move_of_mem_commands` — a move belongs to an executed block that names an axis;
* `Sample.ComesFrom` — what a sample owes to its block;
* `Event.detect_origins` — each event goes back to a sample, in order;
* `Simulation.run_traceable` — the whole statement for a simulation.
-/

set_option autoImplicit false

namespace Machining

variable {α : Type} [Scalar α]

/-! ## Moves -/

namespace Interpretation

/-- **A move belongs to the block whose index it carries.**  That block is executed and names an
axis, and the move shows the modes of the only snapshot of the block. -/
theorem move_of_mem_commands {bs : List (Block α)} {x : Motion α}
    (hx : .motion x ∈ (ofBlocks bs).commands) :
    ∃ b s t, bs[x.block]? = some b ∧ b.isExecutable = true ∧ b.namesAxis = true ∧
      ((ofBlocks bs).atBlock x.block).1.filterMap Command.snapshot? = [(t, x.block)] ∧
      x = Motion.between s t x.block b := by
  have hindexed := indexed_ofBlocksFrom bs ModalState.powerOn 0
  have hlt : x.block < bs.length := by
    have := (hindexed.commands.within x.block (List.mem_map_of_mem hx)).2
    omega
  have hb : bs[x.block]? = some bs[x.block] := List.getElem?_eq_getElem hlt
  have hown : .motion x ∈ ((ofBlocks bs).atBlock x.block).1 :=
    List.mem_filter.2 ⟨hx, beq_self_eq_true _⟩
  rw [ofBlocks_atBlock hb] at hown ⊢
  generalize bs[x.block] = b at hb hown ⊢
  generalize (ofBlocks (bs.take x.block)).finalState = s at hown ⊢
  by_cases hrun : b.isExecutable = true
  · rw [ofBlock_of_isExecutable s _ hrun, commands_ofWords] at hown ⊢
    generalize (ofWords s x.block b.line b.words).finalState = t at hown ⊢
    by_cases haxis : b.namesAxis = true
    · refine ⟨b, s, t, hb, hrun, haxis, ?_, ?_⟩
      · have hchanges : ((b.words.filter Word.asksForTool).map fun _ =>
            (Command.toolChange t.tool x.block b.line : Command α)).filterMap
              Command.snapshot? = [] := by
          rw [List.filterMap_map]
          exact List.filterMap_eq_nil_iff.2 fun _ _ => rfl
        rw [List.filterMap_append, List.filterMap_append, hchanges, if_pos haxis]
        rfl
      · simpa [haxis] using hown
    · simp [haxis] at hown
  · rw [Bool.not_eq_true] at hrun
    simp [(ofBlock_of_not_isExecutable s _ hrun).1] at hown

end Interpretation

namespace Command

omit [Scalar α] in
theorem sublist_map_block (cs : List (Command α)) :
    ((cs.filterMap motion?).map Motion.block).Sublist (cs.map block) := by
  induction cs with
  | nil => exact .slnil
  | cons c cs ih =>
    cases c with
    | motion x => exact ih.cons_cons _
    | toolChange tool block line => exact ih.cons _
    | snapshot state block line => exact ih.cons _

end Command

/-! ## Samples -/

namespace Trajectory

theorem exists_leg_of_mem_samplesFrom {m : Machine α} {ls : List (Leg α)} {x : Sample α} :
    ∀ {start : α}, x ∈ samplesFrom m start ls → ∃ l ∈ ls, ∃ k time, x = l.sample m k time := by
  induction ls with
  | nil =>
    intro start hx
    cases hx
  | cons l ls ih =>
    intro start hx
    rcases List.mem_append.1 hx with hx | hx
    · rw [Leg.samples_eq] at hx
      obtain ⟨k, -, rfl⟩ := List.mem_map.1 hx
      exact ⟨l, List.mem_cons_self, _, _, rfl⟩
    · obtain ⟨l', hl', hsample⟩ := ih hx
      exact ⟨l', List.mem_cons_of_mem l hl', hsample⟩

theorem mem_commands_of_mem_legs {commands : List (Command α)} {m : Machine α} {step : α}
    {l : Leg α} (hl : l ∈ legs commands m step) : .motion l.motion ∈ commands := by
  have hmotion : l.motion ∈ (legs commands m step).map Leg.motion := List.mem_map_of_mem hl
  rw [map_motion_legs] at hmotion
  obtain ⟨c, hc, hcl⟩ := List.mem_filterMap.1 (List.mem_filter.1 hmotion).1
  cases c with
  | motion x =>
    cases hcl
    exact hc
  | toolChange tool block line => cases hcl
  | snapshot state block line => cases hcl

/-- Samples follow their moves. -/
theorem pairwise_samplesFrom (m : Machine α) (ls : List (Leg α)) : ∀ start : α,
    ((ls.map Leg.motion).map Motion.block).Pairwise (· ≤ ·) →
      ((samplesFrom m start ls).map Sample.block).Pairwise (· ≤ ·) := by
  induction ls with
  | nil =>
    intro start _
    exact .nil
  | cons l ls ih =>
    intro start h
    rw [List.map_cons, List.map_cons, List.pairwise_cons] at h
    obtain ⟨hfirst, hrest⟩ := h
    have hblock : ∀ k ∈ (l.samples m start).map Sample.block, k = l.motion.block := by
      intro k hk
      rw [Leg.samples_eq, List.map_map] at hk
      obtain ⟨j, -, rfl⟩ := List.mem_map.1 hk
      rfl
    rw [samplesFrom, List.map_append, List.pairwise_append]
    refine ⟨?_, ih _ hrest, ?_⟩
    · exact (Interpretation.Ascending.of_forall_eq hblock).sorted
    · intro j hj k hk
      obtain ⟨x, hx, rfl⟩ := List.mem_map.1 hk
      obtain ⟨l', hl', _, _, rfl⟩ := exists_leg_of_mem_samplesFrom hx
      rw [hblock j hj]
      exact hfirst _ (List.mem_map_of_mem (List.mem_map_of_mem hl'))

/-- **Planning keeps the order of the blocks.** -/
theorem pairwise_plan {commands : List (Command α)} (m : Machine α) (step : α)
    (h : (commands.map Command.block).Pairwise (· ≤ ·)) :
    ((plan commands m step).map Sample.block).Pairwise (· ≤ ·) := by
  apply pairwise_samplesFrom
  rw [map_motion_legs]
  apply List.Pairwise.sublist _ h
  exact ((List.filter_sublist).map _).trans (Command.sublist_map_block commands)

end Trajectory

/-! ## Events -/

namespace Event

/-- An event shows time, block, line and place of its sample. -/
structure At (e : Event α) (x : Sample α) : Prop where
  time : e.time = x.time
  block : e.block = x.block
  line : e.line = x.line
  point : e.point = x.position

theorem at_of_mem_atSample {m : Machine α} {x : Sample α} {e : Event α}
    (he : e ∈ atSample m x) : e.At x := by
  unfold atSample at he
  rcases List.mem_append.1 he with he | he
  · split at he
    · cases he
    · rw [List.mem_singleton.1 he]
      exact ⟨rfl, rfl, rfl, rfl⟩
  · obtain ⟨f, -, rfl⟩ := List.mem_map.1 he
    exact ⟨rfl, rfl, rfl, rfl⟩

/-- **Each event goes back to a sample**, and the samples come in order. -/
theorem detect_origins (m : Machine α) (xs : List (Sample α)) :
    ∃ origins : List (Nat × Event α), origins.map Prod.snd = detect m xs ∧
      (origins.map Prod.fst).Pairwise (· ≤ ·) ∧
      ∀ p ∈ origins, ∃ x, xs[p.1]? = some x ∧ p.2.At x := by
  induction xs using List.reverseRecOn with
  | nil => exact ⟨[], rfl, .nil, by simp⟩
  | append_singleton xs x ih =>
    obtain ⟨origins, hevents, hsorted, hat⟩ := ih
    refine ⟨origins ++ (atSample m x).map fun e => (xs.length, e), ?_, ?_, ?_⟩
    · simp [hevents, detect]
    · rw [List.map_append, List.map_map, List.pairwise_append]
      refine ⟨hsorted, ?_, ?_⟩
      · rw [List.pairwise_map]
        exact List.pairwise_of_forall fun _ _ => Nat.le_refl _
      · intro k hk l hl
        obtain ⟨p, hp, rfl⟩ := List.mem_map.1 hk
        obtain ⟨e, -, rfl⟩ := List.mem_map.1 hl
        obtain ⟨y, hy, -⟩ := hat p hp
        exact Nat.le_of_lt (List.getElem?_eq_some_iff.1 hy).1
    · intro p hp
      rcases List.mem_append.1 hp with hp | hp
      · obtain ⟨y, hy, hpy⟩ := hat p hp
        refine ⟨y, ?_, hpy⟩
        rw [List.getElem?_append_left (List.getElem?_eq_some_iff.1 hy).1, hy]
      · obtain ⟨e, he, rfl⟩ := List.mem_map.1 hp
        exact ⟨x, List.getElem?_concat_length, at_of_mem_atSample he⟩

end Event

/-! ## Simulations -/

/-- A sample comes from a block: it carries the block's index and line, the block has no fault and
names an axis, and of the only snapshot of the block the sample takes its modes and the work offset
in its place. -/
structure Sample.ComesFrom (x : Sample α) (r : Simulation α) (m : Machine α) (b : Block α)
    (t : ModalState α) : Prop where
  line : x.line = x.block + 1
  block : r.blocks[x.block]? = some b
  faults : b.faults = []
  axis : ∃ w ∈ b.words, w.letter = 'X' ∨ w.letter = 'Y' ∨ w.letter = 'Z'
  snapshot : (r.interpretation.atBlock x.block).1.filterMap Command.snapshot? = [(t, x.block)]
  motionMode : x.motionMode = t.motionMode
  spindleMode : x.spindleMode = t.spindleMode
  spindleSpeed : x.spindleSpeed = t.spindleSpeed
  position : x.position =
    m.toolCentre + x.axes + (m.workOffsets.get? t.workOffset).getD Point.origin

namespace Simulation

theorem run_of_ofSize {m : Machine α} {full : Stock α} (hstock : Stock.ofSize m.stock = .ok full)
    (source : String) (step : α) (policy : RemovalPolicy) :
    run source m step policy = .ok
      { blocks := Program.parse source
        interpretation := Interpretation.ofBlocks (Program.parse source)
        trajectory :=
          Trajectory.plan (Interpretation.ofBlocks (Program.parse source)).commands m step
        events := Event.detect m
          (Trajectory.plan (Interpretation.ofBlocks (Program.parse source)).commands m step)
        stock := full.remove
          (Trajectory.plan (Interpretation.ofBlocks (Program.parse source)).commands m step)
          m.tool.diameter policy } := by
  unfold run
  rw [hstock]

/-- **A simulation can be traced back.**  On a machine whose stock forms a grid every program is
simulated.  Each sample comes from the block whose index it carries, and the indices never
decrease.  The events, in order, each show time, block, line and place of a sample, and the samples
they go back to never step back either. -/
theorem run_traceable (source : String) (m : Machine α) (step : α) (policy : RemovalPolicy)
    {full : Stock α} (hstock : Stock.ofSize m.stock = .ok full) :
    ∃ r, run source m step policy = .ok r ∧
      (∀ x ∈ r.trajectory, ∃ b t, x.ComesFrom r m b t) ∧
      (r.trajectory.map Sample.block).Pairwise (· ≤ ·) ∧
      ∃ origins : List (Nat × Event α), origins.map Prod.snd = r.events ∧
        (origins.map Prod.fst).Pairwise (· ≤ ·) ∧
        ∀ p ∈ origins, ∃ x, r.trajectory[p.1]? = some x ∧ p.2.At x := by
  refine ⟨_, run_of_ofSize hstock source step policy, ?_, ?_, Event.detect_origins m _⟩
  · intro x hx
    obtain ⟨l, hl, k, time, rfl⟩ := Trajectory.exists_leg_of_mem_samplesFrom hx
    obtain ⟨b, s, t, hb, hrun, haxis, hsnapshot, hmotion⟩ :=
      Interpretation.move_of_mem_commands (Trajectory.mem_commands_of_mem_legs hl)
    refine ⟨b, t, ?_, hb, ?_, ?_, hsnapshot, ?_, ?_, ?_, ?_⟩
    · show l.motion.line = l.motion.block + 1
      rw [hmotion]
      exact Program.line_of_parse hb
    · have hfaults : b.faults.isEmpty = true := by
        simp only [Block.isExecutable, Bool.and_eq_true] at hrun
        exact hrun.2
      exact List.isEmpty_iff.1 hfaults
    · obtain ⟨w, hw, hletter⟩ := List.any_eq_true.1 haxis
      exact ⟨w, hw, by simpa using hletter⟩
    · show l.motion.mode = t.motionMode
      rw [hmotion]
      rfl
    · show l.motion.spindleMode = t.spindleMode
      rw [hmotion]
      rfl
    · show l.motion.spindleSpeed = t.spindleSpeed
      rw [hmotion]
      rfl
    · show Kinematics.toolCentre m.toolCentre (l.axesAt k) (m.workOffset l.motion.workOffset) = _
      rw [hmotion]
      rfl
  · apply Trajectory.pairwise_plan
    exact (Interpretation.indexed_ofBlocksFrom _ ModalState.powerOn 0).commands.sorted

/-- A machine that can leave its travel along X and run into a clamp there. -/
def clampedMachine : Machine Float :=
  { Machine.default with
    axes := { Axes.default with x := ⟨0, 2, 500, 3000⟩ }
    stock := ⟨1, 1, 1, 1⟩
    tool := ⟨1⟩
    workOffsets := OffsetTable.empty.insert "G55" ⟨1, 0, 0⟩
    fixtures := [⟨"clamp", ⟨⟨3, 0, 0⟩, ⟨4, 1, 1⟩⟩⟩] }

/-- Two moves with a comment between them. -/
def twoMoves : String := "G55 X1\n(on)\nF600 G1 X3"

/-- The first move ends at the end of the travel, the second one in the clamp. -/
theorem run_traceable_twoMoves :
    Stock.ofSize clampedMachine.stock = .ok (.full ⟨⟨1, 1, 1, 1⟩, 1, 1, 1⟩) ∧
    ∃ r, run twoMoves clampedMachine 0.1 .allMotion = .ok r ∧
      (r.trajectory.map fun x => (x.block, x.line)) = [(0, 1), (2, 3), (2, 3)] ∧
      (r.events.map fun e => (e.kind, e.block)) =
        [(.travelLimit, 2), (.collision, 2), (.travelLimit, 2), (.collision, 2)] ∧
      (∀ x ∈ r.trajectory, ∃ b t, x.ComesFrom r clampedMachine b t) ∧
      (r.trajectory.map Sample.block).Pairwise (· ≤ ·) ∧
      ∃ origins : List (Nat × Event Float), origins.map Prod.snd = r.events ∧
        (origins.map Prod.fst).Pairwise (· ≤ ·) ∧
        ∀ p ∈ origins, ∃ x, r.trajectory[p.1]? = some x ∧ p.2.At x := by
  have hstock : Stock.ofSize clampedMachine.stock = .ok (.full ⟨⟨1, 1, 1, 1⟩, 1, 1, 1⟩) := rfl
  obtain ⟨r, hr, htraced⟩ := run_traceable twoMoves clampedMachine 0.1 .allMotion hstock
  refine ⟨hstock, r, hr, ?_, ?_, htraced⟩
  · rw [run_of_ofSize hstock] at hr
    cases hr
    decide +kernel
  · rw [run_of_ofSize hstock] at hr
    cases hr
    decide +kernel

end Simulation

end Machining
