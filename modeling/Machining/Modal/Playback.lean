import Machining.Modal.Interpretation

/-!
# Playback

A program can be executed one block at a time.  A `Playback` holds the whole program, the number
of blocks executed since it was last rewound, and everything they yielded, so that it can be
stepped, run to the end and rewound in any order.
-/

set_option autoImplicit false

namespace Machining

/-- What one executed block yielded. -/
structure PlaybackStep (α : Type) where
  block : Nat
  line : Nat
  commands : List (Command α)
  diagnostics : List Diagnostic
  deriving Repr, Inhabited

/-- A program in the course of execution: all of its blocks, how many of them are executed, and what
these yielded. -/
structure Playback (α : Type) where
  blocks : List (Block α)
  executed : Nat
  progress : Interpretation α

namespace Playback

variable {α : Type}

/-- The next block. -/
def next? (p : Playback α) : Option (Block α) := p.blocks[p.executed]?

/-- The line of the next block; none at the end. -/
def currentLine? (p : Playback α) : Option Nat := p.next?.map Block.line

/-- All blocks are executed. -/
def isFinished (p : Playback α) : Bool := decide (p.blocks.length ≤ p.executed)

variable [Scalar α]

/-- A program before its first block. -/
def ofBlocks (bs : List (Block α)) : Playback α := ⟨bs, 0, Interpretation.start .powerOn⟩

/-- Execute the next block; none at the end. -/
def step? (p : Playback α) : Option (PlaybackStep α × Playback α) :=
  p.next?.map fun b =>
    let i := Interpretation.ofBlock p.progress.finalState p.executed b
    (⟨p.executed, b.line, i.commands, i.diagnostics⟩,
      { p with executed := p.executed + 1, progress := p.progress.append i })

theorem executed_of_step? {p q : Playback α} {s : PlaybackStep α}
    (h : p.step? = some (s, q)) : q.executed = p.executed + 1 ∧ q.blocks = p.blocks := by
  unfold step? at h
  obtain ⟨b, _, hq⟩ := Option.map_eq_some_iff.1 h
  simp only [Prod.mk.injEq] at hq
  rw [← hq.2]
  exact ⟨rfl, rfl⟩

theorem lt_of_step? {p q : Playback α} {s : PlaybackStep α}
    (h : p.step? = some (s, q)) : p.executed < p.blocks.length := by
  unfold step? next? at h
  obtain ⟨b, hb, _⟩ := Option.map_eq_some_iff.1 h
  exact (List.getElem?_eq_some_iff.1 hb).1

/-- Execute all blocks that are left. -/
def runToEnd (p : Playback α) : Playback α :=
  match _h : p.step? with
  | none => p
  | some (_, q) => q.runToEnd
termination_by p.blocks.length - p.executed
decreasing_by
  have h1 := executed_of_step? _h
  have h2 := lt_of_step? _h
  rw [h1.1, h1.2]
  omega

/-- Return to the state before the first block. -/
def rewind (p : Playback α) : Playback α := ofBlocks p.blocks

/-- The blocks executed since the last rewinding. -/
def past (p : Playback α) : List (Block α) := p.blocks.take p.executed

end Playback

end Machining
