import Machining.Proofs.Modal.Invariants
import Machining.Proofs.Simulation.Trace
import Machining.Proofs.Stock.Storage

/-!
# Programs that never cut

At power-on the spindle is off and moves are rapid.  A program that never starts the spindle, or
never asks for a feed move, leaves that as it is, so no sample of its trajectory cuts, and where
only cutting removes material the stock stays whole.

* `Interpretation.forall_move_idle` — such a program has no cutting move;
* `Trajectory.exists_move_of_mem_plan` — samples show the modes of a move;
* `Stock.remove_cuttingOnly` — without a cutting sample nothing is removed;
* `Simulation.run_spares` — the whole statement for a program text.
-/

set_option autoImplicit false

namespace Machining

variable {α : Type} [Scalar α]

/-! ## Words that make a program cut -/

/-- The word starts the spindle. -/
def Word.startsSpindle (w : Word α) : Prop :=
  w.letter = 'M' ∧ (Scalar.truncate w.value = 3 ∨ Scalar.truncate w.value = 4)

/-- The word asks for feed moves. -/
def Word.startsFeed (w : Word α) : Prop :=
  w.letter = 'G' ∧ (Scalar.truncate w.value = 1 ∨ Scalar.truncate w.value = 2 ∨
    Scalar.truncate w.value = 3)

namespace ModalGroup

/-- Every other word leaves the spindle off or turns it off. -/
theorem spindle_off_of_not_startsSpindle {w : Word α} (hw : ¬w.startsSpindle) {x : SpindleMode}
    (hx : spindle.ofWord? w = some x) : x = .off := by
  obtain ⟨hletter, hchoice⟩ := mem_of_choice? hx
  simp only [spindle, List.mem_cons, Prod.mk.injEq, List.not_mem_nil, or_false] at hchoice
  rcases hchoice with ⟨hcode, -⟩ | ⟨hcode, -⟩ | ⟨-, rfl⟩
  · exact absurd ⟨hletter, .inl hcode⟩ hw
  · exact absurd ⟨hletter, .inr hcode⟩ hw
  · rfl

/-- Every other word leaves moves rapid or makes them so. -/
theorem motion_rapid_of_not_startsFeed {w : Word α} (hw : ¬w.startsFeed) {x : MotionMode}
    (hx : motion.ofWord? w = some x) : x = .rapid := by
  obtain ⟨hletter, hchoice⟩ := mem_of_choice? hx
  simp only [motion, List.mem_cons, Prod.mk.injEq, List.not_mem_nil, or_false] at hchoice
  rcases hchoice with ⟨-, rfl⟩ | ⟨hcode, -⟩ | ⟨hcode, -⟩ | ⟨hcode, -⟩
  · rfl
  · exact absurd ⟨hletter, .inl hcode⟩ hw
  · exact absurd ⟨hletter, .inr (.inl hcode)⟩ hw
  · exact absurd ⟨hletter, .inr (.inr hcode)⟩ hw

end ModalGroup

/-! ## Moves -/

namespace Interpretation

omit [Scalar α] in
theorem faults_of_isExecutable {b : Block α} (hb : b.isExecutable = true) : b.faults = [] := by
  simp only [Block.isExecutable, Bool.and_eq_true] at hb
  exact List.isEmpty_iff.1 hb.2

/-- **A program that never starts the spindle, or never asks for a feed move, has no cutting
move.** -/
theorem forall_move_idle {bs : List (Block α)}
    (h : (∀ b ∈ bs, b.faults = [] → ∀ w ∈ b.words, ¬w.startsSpindle) ∨
      ∀ b ∈ bs, b.faults = [] → ∀ w ∈ b.words, ¬w.startsFeed) :
    ∀ x, .motion x ∈ (ofBlocks bs).commands → x.spindleMode = .off ∨ x.mode = .rapid := by
  intro x hx
  rcases h with hspindle | hfeed
  · have hkeep (b : Block α) (hb : b ∈ bs) (hrun : b.isExecutable = true) (s : ModalState α) :
        s.spindleMode = .off → (after s b).spindleMode = .off :=
      ModalGroup.tracks_spindle.keeps (P := (· = .off)) fun w hw _ =>
        ModalGroup.spindle_off_of_not_startsSpindle
          (hspindle b hb (faults_of_isExecutable hrun) w hw)
    obtain ⟨t, ht, -, hx⟩ := exists_state_of_move hkeep .powerOn 0 rfl x hx
    exact .inl (hx.trans ht)
  · have hkeep (b : Block α) (hb : b ∈ bs) (hrun : b.isExecutable = true) (s : ModalState α) :
        s.motionMode = .rapid → (after s b).motionMode = .rapid :=
      ModalGroup.tracks_motion.keeps (P := (· = .rapid)) fun w hw _ =>
        ModalGroup.motion_rapid_of_not_startsFeed
          (hfeed b hb (faults_of_isExecutable hrun) w hw)
    obtain ⟨t, ht, hx, -⟩ := exists_state_of_move hkeep .powerOn 0 rfl x hx
    exact .inr (hx.trans ht)

end Interpretation

/-! ## Samples and the stock -/

/-- Samples show the modes of a move. -/
theorem Trajectory.exists_move_of_mem_plan {cs : List (Command α)} {m : Machine α} {step : α}
    {s : Sample α} (hs : s ∈ plan cs m step) :
    ∃ x, .motion x ∈ cs ∧ s.spindleMode = x.spindleMode ∧ s.motionMode = x.mode := by
  obtain ⟨l, hl, k, time, rfl⟩ := exists_leg_of_mem_samplesFrom hs
  exact ⟨l.motion, mem_commands_of_mem_legs hl, rfl, rfl⟩

/-- **Without a cutting sample nothing is removed** where only cutting removes material. -/
theorem Stock.remove_cuttingOnly {xs : List (Sample α)} (hxs : ∀ x ∈ xs, x.isCutting = false)
    (s : Stock α) (diameter : α) : s.remove xs diameter .cuttingOnly = s := by
  have hsegments : segments .cuttingOnly xs = [] := by
    unfold segments
    rw [List.map_eq_nil_iff, List.filter_eq_nil_iff]
    rintro ⟨a, b⟩ hab
    have hb : b ∈ xs := List.mem_of_mem_tail (List.of_mem_zip hab).2
    show ¬b.isCutting = true
    rw [hxs b hb]
    exact Bool.false_ne_true
  rw [remove, hsegments]
  rfl

/-! ## Simulations -/

namespace Simulation

/-- **Cutting alone spares the stock of a program that never cuts.**  If no block without faults
has an M word for a turning spindle, or none has a G word for a feed move, then the simulation
leaves every cell of the stock occupied, and with it the fingerprint of the untouched stock. -/
theorem run_spares (source : String) (m : Machine α) (step : α) {untouched : Stock α}
    (hstock : Stock.ofSize m.stock = .ok untouched)
    (h : (∀ b ∈ (Program.parse source : List (Block α)), b.faults = [] → ∀ w ∈ b.words,
        ¬(w.letter = 'M' ∧ (Scalar.truncate w.value = 3 ∨ Scalar.truncate w.value = 4))) ∨
      ∀ b ∈ (Program.parse source : List (Block α)), b.faults = [] → ∀ w ∈ b.words,
        ¬(w.letter = 'G' ∧ (Scalar.truncate w.value = 1 ∨ Scalar.truncate w.value = 2 ∨
          Scalar.truncate w.value = 3))) :
    ∃ r, run source m step .cuttingOnly = .ok r ∧
      (∀ c, r.stock.toGrid.holds c → r.stock.isOccupied c = true) ∧
      r.stock = untouched ∧ r.stock.fingerprint = untouched.fingerprint := by
  have hidle : ∀ x ∈ Trajectory.plan
      (Interpretation.ofBlocks (Program.parse source : List (Block α))).commands m step,
      x.isCutting = false := by
    -- a sample shows the spindle and the mode of its move, of which one does not cut
    intro x hx
    obtain ⟨y, hy, hspindle, hmode⟩ := Trajectory.exists_move_of_mem_plan hx
    rcases Interpretation.forall_move_idle h y hy with hoff | hrapid
    · simp [Sample.isCutting, hspindle, hoff, SpindleMode.isOn]
    · simp [Sample.isCutting, hmode, hrapid, MotionMode.isRapid]
  have hwhole : ∀ c, untouched.toGrid.holds c → untouched.isOccupied c = true := by
    obtain ⟨g, -, rfl⟩ := Stock.exists_grid_of_ofSize hstock
    exact fun c hc => Stock.isOccupied_full.2 hc
  refine ⟨_, run_of_ofSize hstock source step .cuttingOnly, ?_⟩
  dsimp only
  rw [Stock.remove_cuttingOnly hidle]
  exact ⟨hwhole, rfl, rfl⟩

/-- A start of the spindle on a line with a fault, a stop, a tool change, and two feed moves, the
second one with an unsupported code. -/
def neverTurning : String := "M3 S500 X#\nM5 T2 M6\nG1 X1 F600\nG33 Y1"

/-- All motion would cut the stock, which cutting alone spares. -/
theorem run_spares_neverTurning :
    Stock.ofSize clampedMachine.stock = .ok (.full ⟨⟨1, 1, 1, 1⟩, 1, 1, 1⟩) ∧
    (∀ b ∈ (Program.parse neverTurning : List (Block Float)), b.faults = [] → ∀ w ∈ b.words,
      ¬(w.letter = 'M' ∧ (Scalar.truncate w.value = 3 ∨ Scalar.truncate w.value = 4))) ∧
    ∃ r, run neverTurning clampedMachine 0.1 .cuttingOnly = .ok r ∧
      (r.trajectory.map fun x => (x.line, x.motionMode)) = [(3, .linear), (4, .linear)] ∧
      ((r.stock.remove r.trajectory 2 .allMotion).occupiedCount = 0) ∧
      (∀ c, r.stock.toGrid.holds c → r.stock.isOccupied c = true) ∧
      r.stock = .full ⟨⟨1, 1, 1, 1⟩, 1, 1, 1⟩ := by
  have hstock : Stock.ofSize clampedMachine.stock = .ok (.full ⟨⟨1, 1, 1, 1⟩, 1, 1, 1⟩) := rfl
  have hidle : ∀ b ∈ (Program.parse neverTurning : List (Block Float)), b.faults = [] →
      ∀ w ∈ b.words,
        ¬(w.letter = 'M' ∧ (Scalar.truncate w.value = 3 ∨ Scalar.truncate w.value = 4)) := by
    decide +kernel
  obtain ⟨r, hr, hoccupied, hwhole, -⟩ :=
    run_spares neverTurning clampedMachine 0.1 hstock (.inl hidle)
  refine ⟨hstock, hidle, r, hr, ?_, ?_, hoccupied, hwhole⟩
  · rw [run_of_ofSize hstock] at hr
    cases hr
    decide +kernel
  · rw [run_of_ofSize hstock] at hr
    cases hr
    decide +kernel

end Simulation

end Machining
