import Mathlib.Data.List.Basic
import Machining.Collision.Event
import Machining.Proofs.Modal.Deletion
import Machining.Scalar.Double
import Machining.Stock.Carving
import Machining.Trajectory.Plan

/-!
# Simulations after a deletion

Planning, the check for violations and carving read everything of a command but the index of its
block, which they at most pass on.  So a program from which blocks that are not executed are
deleted drives the machine as before: samples and events have new block indices, and the stock is
carved alike.

* `Trajectory.plan_renumber`, `Event.detect_renumber`, `Stock.remove_renumber` — the stages;
* `Interpretation.unexecuted_deletable` — the whole statement for a program.
-/

set_option autoImplicit false

namespace Machining

variable {α : Type}

/-- The sample with its block index changed. -/
def Sample.renumber (f : Nat → Nat) (s : Sample α) : Sample α := { s with block := f s.block }

/-- The event with its block index changed. -/
def Event.renumber (f : Nat → Nat) (e : Event α) : Event α := { e with block := f e.block }

/-- The planned move with its block index changed. -/
def Leg.renumber (f : Nat → Nat) (l : Leg α) : Leg α := { l with motion := l.motion.renumber f }

variable [Scalar α] (f : Nat → Nat)

/-! ## Planning -/

namespace Leg

theorem samples_renumber (l : Leg α) (m : Machine α) (start : α) :
    (l.renumber f).samples m start = (l.samples m start).map (Sample.renumber f) := by
  unfold samples
  rw [List.mapIdx_eq_zipIdx_map, List.mapIdx_eq_zipIdx_map, List.map_map]
  rfl

end Leg

namespace Trajectory

theorem leg?_renumber (axes : Axes α) (step : α) (motion : Motion α) :
    leg? axes step (motion.renumber f) = (leg? axes step motion).map (Leg.renumber f) := by
  unfold leg?
  dsimp only
  rw [apply_ite (Option.map (Leg.renumber f))]
  rfl

theorem legs_renumber (commands : List (Command α)) (m : Machine α) (step : α) :
    legs (commands.map (Command.renumber f)) m step =
      (legs commands m step).map (Leg.renumber f) := by
  unfold legs
  rw [List.filterMap_map, List.map_filterMap, List.filterMap_filterMap, List.filterMap_filterMap]
  refine List.filterMap_congr fun c _ => ?_
  rw [Function.comp_apply, Command.motion?_renumber]
  cases c.motion? with
  | none => rfl
  | some motion => exact leg?_renumber f _ _ motion

theorem samplesFrom_renumber (m : Machine α) (ls : List (Leg α)) : ∀ start : α,
    samplesFrom m start (ls.map (Leg.renumber f)) =
      (samplesFrom m start ls).map (Sample.renumber f) := by
  induction ls with
  | nil => exact fun _ => rfl
  | cons l ls ih =>
    intro start
    rw [List.map_cons, samplesFrom, samplesFrom, List.map_append, Leg.samples_renumber, ← ih]
    rfl

/-- **Planning passes block indices on.** -/
theorem plan_renumber (commands : List (Command α)) (m : Machine α) (step : α) :
    plan (commands.map (Command.renumber f)) m step =
      (plan commands m step).map (Sample.renumber f) := by
  unfold plan
  rw [legs_renumber, samplesFrom_renumber]

end Trajectory

/-! ## Violations and the stock -/

namespace Event

theorem atSample_renumber (m : Machine α) (s : Sample α) :
    atSample m (s.renumber f) = (atSample m s).map (Event.renumber f) := by
  unfold atSample
  rw [List.map_append, List.map_map, apply_ite (List.map (Event.renumber f))]
  rfl

/-- **The check for violations passes block indices on.** -/
theorem detect_renumber (m : Machine α) (xs : List (Sample α)) :
    detect m (xs.map (Sample.renumber f)) = (detect m xs).map (Event.renumber f) := by
  unfold detect
  rw [List.flatMap_map, List.map_flatMap]
  exact List.flatMap_congr fun s _ => atSample_renumber f m s

end Event

namespace Stock

omit [Scalar α] in
theorem segments_renumber (policy : RemovalPolicy) (xs : List (Sample α)) :
    segments policy (xs.map (Sample.renumber f)) = segments policy xs := by
  unfold segments
  rw [← List.map_tail, List.zip_map, List.filter_map, List.map_map]
  rfl

/-- **Carving leaves block indices aside.** -/
theorem remove_renumber (s : Stock α) (xs : List (Sample α)) (diameter : α)
    (policy : RemovalPolicy) :
    s.remove (xs.map (Sample.renumber f)) diameter policy = s.remove xs diameter policy := by
  unfold remove
  rw [segments_renumber]

end Stock

namespace Interpretation

/-- **Blocks that are not executed can be deleted.**  Delete any blocks that are empty or have
faults.  The blocks that stay are found at their new indices.  The final state is the same; so are
the commands, and the diagnostics of the blocks that stay, up to the new indices.  No warning is
lost, and the errors are one for each block with faults that stays.  On every machine, with every
time step, tool and policy, the samples and the events are the same up to the new indices, and
every stock is carved alike. -/
theorem unexecuted_deletable (bs : List (Block α)) (deleted : Nat → Bool)
    (h : ∀ i b, bs[i]? = some b → deleted i = true → b.isEmpty = true ∨ b.hasFaults = true) :
    let full := ofBlocks bs
    let rest := ofBlocks (keep deleted bs)
    let new := newIndex deleted
    (∀ i b, bs[i]? = some b → deleted i = false → (keep deleted bs)[new i]? = some b) ∧
    rest.finalState = full.finalState ∧
    rest.commands = full.commands.map (Command.renumber new) ∧
    rest.diagnostics =
      (full.diagnostics.filter fun d => !deleted d.block).map (Diagnostic.renumber new) ∧
    rest.reports .warning = (full.reports .warning).map (Diagnostic.renumber new) ∧
    rest.reports .error = (keep deleted bs).zipIdx.filterMap (fun p => report? p.2 p.1) ∧
    ∀ (m : Machine α) (step diameter : α) (policy : RemovalPolicy) (stock : Stock α),
      let path := Trajectory.plan full.commands m step
      Trajectory.plan rest.commands m step = path.map (Sample.renumber new) ∧
      Event.detect m (Trajectory.plan rest.commands m step) =
        (Event.detect m path).map (Event.renumber new) ∧
      stock.remove (Trajectory.plan rest.commands m step) diameter policy =
        stock.remove path diameter policy := by
  have hspares : Spares deleted 0 bs := by
    intro i b hb hi
    rw [Nat.zero_add] at hi
    rcases h i b hb hi with he | hf
    · simp only [Block.isEmpty, Bool.and_eq_true] at he
      simp [Block.isExecutable, he.1]
    · simp only [Block.hasFaults, Bool.not_eq_true'] at hf
      simp [Block.isExecutable, hf]
  intro full rest new
  have hrest : rest = (full.withoutReports deleted).renumber new := ofBlocks_keep hspares
  have hcommands : rest.commands = full.commands.map (Command.renumber new) := by
    rw [hrest]
    rfl
  have hplan (m : Machine α) (step : α) : Trajectory.plan rest.commands m step =
      (Trajectory.plan full.commands m step).map (Sample.renumber new) := by
    rw [hcommands, Trajectory.plan_renumber]
  refine ⟨fun i b hb hi => getElem?_keep deleted hb hi, ?_, hcommands, ?_, ?_,
    errors_ofBlocksFrom _ _ _, fun m step diameter policy stock => ⟨hplan m step, ?_, ?_⟩⟩
  · rw [hrest]
    rfl
  · rw [hrest]
    rfl
  · rw [hrest, reports_renumber]
    exact congrArg _ (warnings_withoutReports bs .powerOn 0 hspares)
  · rw [hplan, Event.detect_renumber]
  · rw [hplan, Stock.remove_renumber]

/-- Five lines in doubles: a move, a blank line, a line with a fault and a word, a move with an
unknown code, and a line with a fault alone. -/
def fiveLines : List (Block Float) :=
  [⟨1, "", "", [⟨'G', 1⟩, ⟨'X', 2⟩], []⟩, ⟨2, "", "", [], []⟩,
    ⟨3, "", "", [⟨'X', 9⟩], [.unparsedTail "Y#"]⟩, ⟨4, "", "", [⟨'Y', 1⟩, ⟨'M', 7⟩], []⟩,
    ⟨5, "", "", [], [.unparsedTail "?"]⟩]

/-- The second and the third line go; the last one stays and is reported as the third. -/
theorem unexecuted_deletable_fiveLines :
    let deleted : Nat → Bool := fun i => i == 1 || i == 2
    (∀ i b, fiveLines[i]? = some b → deleted i = true → b.isEmpty = true ∨ b.hasFaults = true) ∧
    (ofBlocks (keep deleted fiveLines)).finalState = (ofBlocks fiveLines).finalState ∧
    (ofBlocks (keep deleted fiveLines)).diagnostics =
      [⟨1, 4, .warning, "Unsupported modal code M7"⟩, ⟨2, 5, .error, "Cannot parse tail '?'"⟩] ∧
    Trajectory.plan (ofBlocks (keep deleted fiveLines)).commands Machine.default 1 =
      (Trajectory.plan (ofBlocks fiveLines).commands Machine.default 1).map
        (Sample.renumber (newIndex deleted)) := by
  intro deleted
  have hinert : ∀ i b, fiveLines[i]? = some b → deleted i = true →
      b.isEmpty = true ∨ b.hasFaults = true := by
    intro i b hb hi
    simp only [deleted, Bool.or_eq_true, beq_iff_eq] at hi
    rcases hi with rfl | rfl
    · cases hb
      exact .inl rfl
    · cases hb
      exact .inr rfl
  obtain ⟨-, hstate, -, hdiagnostics, -, -, hstages⟩ :=
    unexecuted_deletable fiveLines deleted hinert
  exact ⟨hinert, hstate, hdiagnostics.trans (by decide +kernel),
    (hstages Machine.default 1 10 .allMotion (Stock.full ⟨.default, 1, 1, 1⟩)).1⟩

end Interpretation

end Machining
