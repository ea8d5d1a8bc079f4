import Machining.Proofs.Program.Layout
import Machining.Scalar.Double
import Machining.Simulation.Run

/-!
# Simulations and the layout of a program

Every stage after the reading of a program works on the numbers, words and faults of its blocks and
never on their texts.  So sources that differ in layout and letter case only are simulated alike.

* `Interpretation.ofBlocks_congr` — blocks with the same contents mean the same;
* `Simulation.layout_irrelevant` — the whole statement for two sources.
-/

set_option autoImplicit false

namespace Machining

variable {α : Type} [Scalar α]

namespace Interpretation

/-- One block is executed by its content. -/
theorem ofBlock_congr {b c : Block α} (h : b.content = c.content) (s : ModalState α) (index : Nat) :
    ofBlock s index b = ofBlock s index c := by
  simp only [Block.content, Prod.mk.injEq] at h
  obtain ⟨hline, hwords, hfaults⟩ := h
  unfold ofBlock Block.hasFaults
  rw [hline, hwords, hfaults]

theorem ofBlocksFrom_congr {bs cs : List (Block α)}
    (h : bs.map Block.content = cs.map Block.content) : ∀ (s : ModalState α) (index : Nat),
    ofBlocksFrom s index bs = ofBlocksFrom s index cs := by
  induction bs generalizing cs with
  | nil =>
    rw [List.map_nil, eq_comm, List.map_eq_nil_iff] at h
    subst h
    exact fun _ _ => rfl
  | cons b bs ih =>
    cases cs with
    | nil => cases h
    | cons c cs =>
      rw [List.map_cons, List.map_cons] at h
      injection h with hfirst hrest
      intro s index
      rw [ofBlocksFrom, ofBlocksFrom, ofBlock_congr hfirst, ih hrest]

/-- **Blocks with the same contents mean the same.** -/
theorem ofBlocks_congr {bs cs : List (Block α)}
    (h : bs.map Block.content = cs.map Block.content) : ofBlocks bs = ofBlocks cs :=
  ofBlocksFrom_congr h _ _

end Interpretation

namespace Simulation

open Text

/-- What a simulation yields besides its blocks. -/
def outcome (r : Simulation α) :
    Interpretation α × List (Sample α) × List (Event α) × Stock α :=
  (r.interpretation, r.trajectory, r.events, r.stock)

/-- **Layout and letter case are irrelevant.**  Put in and take out blanks anywhere on the lines of
a source and change the case of letters, as often as you like.  Block by block the numbers of the
lines, the words and the faults are the same.  On every machine, with every time step and policy,
the simulation fails alike or yields the same interpretation, trajectory, events and stock. -/
theorem layout_irrelevant (s t : String)
    (h : Relation.ReflTransGen LayoutEdit s.toList t.toList) :
    (Program.parse s : List (Block α)).map Block.content =
      (Program.parse t : List (Block α)).map Block.content ∧
    ∀ (m : Machine α) (step : α) (policy : RemovalPolicy),
      (run s m step policy).map outcome = (run t m step policy).map outcome := by
  have hcontents : (Program.parse s : List (Block α)).map Block.content =
      (Program.parse t : List (Block α)).map Block.content :=
    Program.contents_parse_eq (skeleton_eq_of_edits h)
  refine ⟨hcontents, fun m step policy => ?_⟩
  have hmeaning := Interpretation.ofBlocks_congr hcontents
  unfold run
  cases Stock.ofSize m.stock with
  | error fault => rfl
  | ok full =>
    show Except.ok (outcome _) = Except.ok (outcome _)
    unfold outcome
    rw [hmeaning]

/-- A letter in another case, a blank within a number and one within a comment. -/
theorem layout_irrelevant_threeEdits :
    Relation.ReflTransGen LayoutEdit "g1 x12(a)\n?".toList "G1 x1\t2( a)\n?".toList ∧
    (Program.parse "G1 x1\t2( a)\n?" : List (Block Float)).map Block.content =
      [(1, [⟨'G', 1⟩, ⟨'X', 12⟩], []), (2, [], [.unparsedTail "?"])] ∧
    (run "g1 x12(a)\n?" Machine.default 1 .allMotion : Except (StockFault Float) _).map outcome =
      (run "G1 x1\t2( a)\n?" Machine.default 1 .allMotion).map outcome := by
  have hcase : LayoutEdit "g1 x12(a)\n?".toList "G1 x12(a)\n?".toList :=
    .recase [] "1 x12(a)\n?".toList rfl rfl rfl
  have hnumber : LayoutEdit "G1 x12(a)\n?".toList "G1 x1\t2(a)\n?".toList :=
    .insert "G1 x1".toList "2(a)\n?".toList rfl (by decide)
  have hcomment : LayoutEdit "G1 x1\t2(a)\n?".toList "G1 x1\t2( a)\n?".toList :=
    .insert "G1 x1\t2(".toList "a)\n?".toList rfl (by decide)
  have hedits := ((Relation.ReflTransGen.single hcase).tail hnumber).tail hcomment
  obtain ⟨hcontents, hrun⟩ := layout_irrelevant (α := Float) _ _ hedits
  exact ⟨hedits, hcontents.symm.trans (by decide +kernel), hrun _ _ _⟩

end Simulation

end Machining
