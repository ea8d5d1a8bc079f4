import Mathlib.Data.List.Chain
import Machining.Proofs.Modal.Prefix
import Machining.Scalar.Double

/-!
# Moves between snapshots

A snapshot closes every executed block, so the commands of a program are cut by snapshots.  What
stands between two of them belongs to one block and repeats parts of one state: a move starts
where the last snapshot left the tool and ends where the next one finds it, under the modes the
next one shows, and a tool change names the tool the next one shows.

* `Linked` — this law for a list of commands that begins in a given state;
* `linked_ofBlock`, `linked_ofBlocksFrom` — one block and a whole program obey it;
* `commands_linked` — read off for the commands of a program.
-/

set_option autoImplicit false

namespace Machining

namespace Command

variable {α : Type}

/-- The state a snapshot shows and its block, if the command is a snapshot. -/
def snapshot? : Command α → Option (ModalState α × Nat)
  | snapshot state block _ => some (state, block)
  | _ => none

/-- The first snapshot of a list. -/
def nextSnapshot? (cs : List (Command α)) : Option (ModalState α × Nat) :=
  (cs.filterMap snapshot?).head?

/-- The state the last snapshot of a list shows. -/
def lastSnapshot? (cs : List (Command α)) : Option (ModalState α) :=
  (cs.filterMap snapshot?).getLast?.map Prod.fst

/-- The state the last snapshot of a list shows; `s` if there is none. -/
def lastState (s : ModalState α) (cs : List (Command α)) : ModalState α :=
  (lastSnapshot? cs).getD s

/-- The end of the last move after the last snapshot, or the position that snapshot shows. -/
def reached (here : Point α) : List (Command α) → Point α
  | [] => here
  | motion m :: cs => reached m.target cs
  | toolChange _ _ _ :: cs => reached here cs
  | snapshot state _ _ :: cs => reached state.position cs

end Command

/-- A move repeats the position and the modes of a state. -/
structure Motion.EndsIn {α : Type} (m : Motion α) (s : ModalState α) : Prop where
  target : m.target = s.position
  mode : m.mode = s.motionMode
  plane : m.plane = s.plane
  feed : m.feed = s.feed
  spindleSpeed : m.spindleSpeed = s.spindleSpeed
  spindleMode : m.spindleMode = s.spindleMode
  workOffset : m.workOffset = s.workOffset

open Command

/-- **The chain law**, for commands after a snapshot that shows `s` and moves that end at
`here`. -/
def Linked {α : Type} (s : ModalState α) (here : Point α) : List (Command α) → Prop
  | [] => True
  | .motion m :: cs =>
    (m.start = s.position ∧ m.start = here) ∧
      (∃ t, nextSnapshot? cs = some (t, m.block) ∧ m.EndsIn t) ∧ Linked s m.target cs
  | .toolChange tool block _ :: cs =>
    (∃ t, nextSnapshot? cs = some (t, block) ∧ tool = t.tool) ∧ Linked s here cs
  | .snapshot t _ _ :: cs => t.position = here ∧ Linked t t.position cs

namespace Linked

variable {α : Type}

/-! ## Joining and cutting lists -/

theorem lastState_cons_snapshot (s t : ModalState α) (b l : Nat) (cs : List (Command α)) :
    lastState s (.snapshot t b l :: cs) = lastState t cs := by
  unfold lastState lastSnapshot?
  rw [List.filterMap_cons_some (by rfl : snapshot? (.snapshot t b l) = some (t, b)),
    List.getLast?_cons]
  cases (cs.filterMap snapshot?).getLast? <;> rfl

theorem lastState_cons_of_none (s : ModalState α) {c : Command α} (hc : c.snapshot? = none)
    (cs : List (Command α)) : lastState s (c :: cs) = lastState s cs := by
  unfold lastState lastSnapshot?
  rw [List.filterMap_cons_none hc]

theorem nextSnapshot?_append_of_some {cs ds : List (Command α)} {x : ModalState α × Nat}
    (h : nextSnapshot? cs = some x) : nextSnapshot? (cs ++ ds) = some x := by
  unfold nextSnapshot? at h ⊢
  rw [List.filterMap_append, List.head?_append, h]
  rfl

/-- The law holds of two lists in a row if the second one begins where the first one ends. -/
theorem append {cs ds : List (Command α)} : ∀ {s : ModalState α} {here : Point α},
    Linked s here cs → Linked (lastState s cs) (reached here cs) ds → Linked s here (cs ++ ds) := by
  induction cs with
  | nil => exact fun _ h => h
  | cons c cs ih =>
    intro s here hc hd
    cases c with
    | motion m =>
      obtain ⟨hstart, ⟨t, ht, hend⟩, hrest⟩ := hc
      rw [lastState_cons_of_none s rfl] at hd
      exact ⟨hstart, ⟨t, nextSnapshot?_append_of_some ht, hend⟩, ih hrest hd⟩
    | toolChange tool b l =>
      obtain ⟨⟨t, ht, htool⟩, hrest⟩ := hc
      rw [lastState_cons_of_none s rfl] at hd
      exact ⟨⟨t, nextSnapshot?_append_of_some ht, htool⟩, ih hrest hd⟩
    | snapshot t b l =>
      obtain ⟨hpos, hrest⟩ := hc
      rw [lastState_cons_snapshot] at hd
      exact ⟨hpos, ih hrest hd⟩

/-- What follows a part of the list obeys the law from where that part ends. -/
theorem of_append {cs ds : List (Command α)} : ∀ {s : ModalState α} {here : Point α},
    Linked s here (cs ++ ds) → Linked (lastState s cs) (reached here cs) ds := by
  induction cs with
  | nil => exact fun h => h
  | cons c cs ih =>
    intro s here h
    cases c with
    | motion m =>
      rw [lastState_cons_of_none s rfl]
      exact ih h.2.2
    | toolChange tool b l =>
      rw [lastState_cons_of_none s rfl]
      exact ih h.2
    | snapshot t b l =>
      rw [lastState_cons_snapshot]
      exact ih h.2

/-- Commands without snapshot and move lead nowhere. -/
theorem reached_of_noMotion {cs : List (Command α)} (hs : ∀ c ∈ cs, c.snapshot? = none)
    (hm : ∀ c ∈ cs, c.motion? = none) (here : Point α) : reached here cs = here := by
  induction cs with
  | nil => rfl
  | cons c cs ih =>
    have hrest := ih (fun d hd => hs d (List.mem_cons_of_mem _ hd))
      (fun d hd => hm d (List.mem_cons_of_mem _ hd))
    cases c with
    | motion m => cases hm _ List.mem_cons_self
    | toolChange tool b l => exact hrest
    | snapshot t b l => cases hs _ List.mem_cons_self

theorem lastState_append (cs ds : List (Command α)) : ∀ s : ModalState α,
    lastState s (cs ++ ds) = lastState (lastState s cs) ds := by
  induction cs with
  | nil => exact fun _ => rfl
  | cons c cs ih =>
    intro s
    cases c with
    | motion m =>
      rw [List.cons_append, lastState_cons_of_none s rfl, lastState_cons_of_none s rfl, ih]
    | toolChange tool b l =>
      rw [List.cons_append, lastState_cons_of_none s rfl, lastState_cons_of_none s rfl, ih]
    | snapshot t b l =>
      rw [List.cons_append, lastState_cons_snapshot, lastState_cons_snapshot, ih]

theorem reached_append (cs ds : List (Command α)) : ∀ here : Point α,
    reached here (cs ++ ds) = reached (reached here cs) ds := by
  induction cs with
  | nil => exact fun _ => rfl
  | cons c cs ih =>
    intro here
    cases c with
    | motion m => exact ih m.target
    | toolChange tool b l => exact ih here
    | snapshot t b l => exact ih t.position

/-- The moves follow each other without a gap, the first of them from `here`. -/
theorem isChain_motions {cs : List (Command α)} : ∀ {s : ModalState α} {here : Point α},
    Linked s here cs →
      (cs.filterMap motion?).IsChain (fun a b => b.start = a.target) ∧
        ∀ m ∈ (cs.filterMap motion?).head?, m.start = here := by
  induction cs with
  | nil => exact fun _ => ⟨.nil, fun m hm => by cases hm⟩
  | cons c cs ih =>
    intro s here h
    cases c with
    | motion m =>
      obtain ⟨⟨_, hstart⟩, _, hrest⟩ := h
      obtain ⟨hchain, hhead⟩ := ih hrest
      refine ⟨?_, fun m' hm' => ?_⟩
      · rw [List.filterMap_cons_some (by rfl : motion? (.motion m) = some m)]
        exact List.IsChain.cons hchain hhead
      · rw [List.filterMap_cons_some (by rfl : motion? (.motion m) = some m)] at hm'
        cases hm'
        exact hstart
    | toolChange tool b l => exact ih h.2
    | snapshot t b l =>
      obtain ⟨hpos, hrest⟩ := h
      rw [← hpos]
      exact ih hrest

end Linked

/-- Commands obey the chain law from the state `s` and end in the state `t`. -/
structure Leads {α : Type} (s : ModalState α) (cs : List (Command α)) (t : ModalState α) :
    Prop where
  linked : Linked s s.position cs
  lastState : lastState s cs = t
  reached : reached s.position cs = t.position

namespace Leads

variable {α : Type}

theorem refl (s : ModalState α) : Leads s [] s := ⟨trivial, rfl, rfl⟩

theorem trans {s t u : ModalState α} {cs ds : List (Command α)} (hc : Leads s cs t)
    (hd : Leads t ds u) : Leads s (cs ++ ds) u := by
  refine ⟨?_, ?_, ?_⟩
  · refine hc.linked.append ?_
    rw [hc.lastState, hc.reached]
    exact hd.linked
  · rw [Linked.lastState_append, hc.lastState, hd.lastState]
  · rw [Linked.reached_append, hc.reached, hd.reached]

end Leads

/-! ## One block -/

namespace Interpretation

variable {α : Type}

/-- No code alters the tool. -/
theorem tool_apply (s : ModalState α) (c : ModalCode) : (c.apply s).tool = s.tool := by
  cases c <;> rfl

/-- No code moves the axes. -/
theorem position_apply (s : ModalState α) (c : ModalCode) :
    (c.apply s).position = s.position := by
  cases c <;> rfl

variable [Scalar α] (r : Registers α) (block line : Nat)

theorem requestedTool_congr {s t : ModalState α} (h : s.tool = t.tool) :
    requestedTool s r = requestedTool t r := by
  unfold requestedTool
  rw [h]

theorem tool_takeOver (s : ModalState α) : (takeOver r s).tool = requestedTool s r := by
  unfold takeOver requestedTool
  cases r.get? 'T' <;> rfl

/-- A code word yields at most a tool change, and leaves tool and position as they are. -/
theorem ofCode_spec (s : ModalState α) (w : Word α) :
    (∀ c ∈ (ofCode r block line s w).commands, c = .toolChange (requestedTool s r) block line) ∧
      (ofCode r block line s w).finalState.tool = s.tool ∧
      (ofCode r block line s w).finalState.position = s.position := by
  unfold ofCode
  dsimp only
  split
  · exact ⟨fun c hc => List.mem_singleton.1 hc, rfl, rfl⟩
  · exact ⟨fun c hc => (by cases hc), tool_apply s _, position_apply s _⟩
  · exact ⟨fun c hc => (by cases hc), rfl, rfl⟩

/-- Code words yield tool changes for one tool, and leave tool and position as they are. -/
theorem ofCodes_spec (ws : List (Word α)) : ∀ s : ModalState α,
    (∀ c ∈ (ofCodes r block line s ws).commands,
      c = .toolChange (requestedTool s r) block line) ∧
      (ofCodes r block line s ws).finalState.tool = s.tool ∧
      (ofCodes r block line s ws).finalState.position = s.position := by
  induction ws with
  | nil => exact fun s => ⟨fun c hc => (by cases hc), rfl, rfl⟩
  | cons w ws ih =>
    intro s
    obtain ⟨hfirst, htool, hpos⟩ := ofCode_spec r block line s w
    obtain ⟨hrest, htool', hpos'⟩ := ih (ofCode r block line s w).finalState
    refine ⟨fun c hc => ?_, htool'.trans htool, hpos'.trans hpos⟩
    rcases List.mem_append.1 hc with hc | hc
    · exact hfirst c hc
    · rw [hrest c hc, requestedTool_congr r htool]

omit [Scalar α] in
/-- Tool changes before commands whose next snapshot shows their tool. -/
theorem linked_toolChanges {s t : ModalState α} {here : Point α} {cs ds : List (Command α)}
    (hcs : ∀ c ∈ cs, c = .toolChange t.tool block line)
    (hnext : nextSnapshot? ds = some (t, block)) (hds : Linked s here ds) :
    Linked s here (cs ++ ds) ∧ nextSnapshot? (cs ++ ds) = some (t, block) := by
  induction cs with
  | nil => exact ⟨hds, hnext⟩
  | cons c cs ih =>
    obtain ⟨hlinked, hsnap⟩ := ih fun d hd => hcs d (List.mem_cons_of_mem _ hd)
    rw [hcs c List.mem_cons_self]
    exact ⟨⟨⟨t, hsnap, rfl⟩, hlinked⟩, hsnap⟩

/-- The end of a block: a move, if there is one, and the snapshot of the state it leaves. -/
theorem linked_ofAxes (s t : ModalState α) (h : s.position = t.position) :
    let a := ofAxes r block line s
    let cs := a.commands ++ [.snapshot a.finalState block line]
    Linked t t.position cs ∧ nextSnapshot? cs = some (a.finalState, block) ∧
      a.finalState.tool = s.tool := by
  intro a cs
  unfold cs a ofAxes
  split
  · exact ⟨⟨⟨h, h⟩, ⟨_, rfl, ⟨rfl, rfl, rfl, rfl, rfl, rfl, rfl⟩⟩, rfl, trivial⟩, rfl, rfl⟩
  · exact ⟨⟨h, trivial⟩, rfl, rfl⟩

theorem leads_ofWords (s : ModalState α) (ws : List (Word α)) :
    Leads s (ofWords s block line ws).commands (ofWords s block line ws).finalState := by
  set r := Registers.ofWords ws with hr
  set codes := ofCodes r block line s (ws.filter fun w => isCodeLetter w.letter) with hcodes
  set axes := ofAxes r block line (takeOver r codes.finalState) with haxes
  obtain ⟨hchanges, htool, hpos⟩ :=
    ofCodes_spec r block line (ws.filter fun w => isCodeLetter w.letter) s
  obtain ⟨hlinked, hnext, htool'⟩ :=
    linked_ofAxes r block line (takeOver r codes.finalState) s hpos
  -- the tool a change asks for is the tool the block takes over after its codes
  have hsame : axes.finalState.tool = requestedTool s r := by
    rw [haxes, htool', tool_takeOver, requestedTool_congr r htool]
  have hcommands : (ofWords s block line ws).commands =
      (codes.commands ++ axes.commands) ++ [.snapshot axes.finalState block line] := rfl
  refine ⟨?_, ?_, ?_⟩
  · rw [hcommands, List.append_assoc]
    refine (linked_toolChanges block line (fun c hc => ?_) hnext hlinked).1
    rw [hchanges c hc, ← hsame]
  · rw [hcommands, Linked.lastState_append]
    rfl
  · rw [hcommands, Linked.reached_append]
    rfl

/-- **One block obeys the chain law.** -/
theorem leads_ofBlock (s : ModalState α) (i : Nat) (b : Block α) :
    Leads s (ofBlock s i b).commands (ofBlock s i b).finalState := by
  unfold ofBlock
  split
  · exact .refl s
  · split
    · exact .refl s
    · exact leads_ofWords i b.line s b.words

/-! ## Programs -/

/-- **Every run of blocks obeys the chain law**, from any state. -/
theorem leads_ofBlocksFrom (bs : List (Block α)) : ∀ (s : ModalState α) (i : Nat),
    Leads s (ofBlocksFrom s i bs).commands (ofBlocksFrom s i bs).finalState := by
  induction bs with
  | nil => exact fun s _ => .refl s
  | cons b bs ih => exact fun s i => (leads_ofBlock s i b).trans (ih _ (i + 1))

/-- **The moves of a program form a chain between its snapshots.**  A move starts at the position
the last snapshot before it shows, at the origin if there is none, and repeats position and modes
of the next snapshot, which belongs to the same block; so the moves leave no gap.  A tool change
names the tool of the snapshot that closes its block.  Between two snapshots without a move the
position stays.  The program ends in the state of its last snapshot. -/
theorem commands_linked (bs : List (Block α)) :
    (∀ pre m post, (ofBlocks bs).commands = pre ++ .motion m :: post →
      m.start = ((lastSnapshot? pre).map ModalState.position).getD Point.origin ∧
      ∃ t, nextSnapshot? post = some (t, m.block) ∧ m.EndsIn t) ∧
    (ofBlocks bs).motions.IsChain (fun a b => b.start = a.target) ∧
    (∀ pre tool block line post,
      (ofBlocks bs).commands = pre ++ .toolChange tool block line :: post →
      ∃ t, nextSnapshot? post = some (t, block) ∧ tool = t.tool) ∧
    (∀ pre s i k mid t j l post,
      (ofBlocks bs).commands = pre ++ .snapshot s i k :: (mid ++ .snapshot t j l :: post) →
      (∀ c ∈ mid, c.snapshot? = none ∧ c.motion? = none) → t.position = s.position) ∧
    (ofBlocks bs).finalState = (lastSnapshot? (ofBlocks bs).commands).getD .powerOn := by
  have h : Leads .powerOn (ofBlocks bs).commands (ofBlocks bs).finalState :=
    leads_ofBlocksFrom bs .powerOn 0
  refine ⟨?_, h.linked.isChain_motions.1, ?_, ?_, h.lastState.symm⟩
  · intro pre m post hcs
    have hm := h.linked
    rw [hcs] at hm
    obtain ⟨⟨hstart, _⟩, hnext, _⟩ := hm.of_append
    refine ⟨?_, hnext⟩
    rw [hstart]
    unfold lastState
    cases lastSnapshot? pre <;> rfl
  · intro pre tool block line post hcs
    have hm := h.linked
    rw [hcs] at hm
    exact hm.of_append.1
  · intro pre s i k mid t j l post hcs hmid
    have hm := h.linked
    rw [hcs] at hm
    obtain ⟨hpos, _⟩ := hm.of_append.2.of_append
    rw [hpos]
    exact Linked.reached_of_noMotion (fun c hc => (hmid c hc).1) (fun c hc => (hmid c hc).2) _

/-- Three blocks in doubles: a tool change before its tool word, a feed alone, and a move. -/
def toolThenMove : List (Block Float) :=
  [⟨1, "", "", [⟨'M', 6⟩, ⟨'G', 1⟩, ⟨'X', 2⟩, ⟨'T', 3⟩], []⟩, ⟨2, "", "", [⟨'F', 200⟩], []⟩,
    ⟨3, "", "", [⟨'Y', 1⟩], []⟩]

/-- The last move of `toolThenMove`. -/
def lastMove : Motion Float :=
  ⟨.linear, .xy, ⟨2, 0, 0⟩, ⟨2, 1, 0⟩, none, 200, 0, .off, "G54", 2, 3⟩

theorem commands_linked_toolThenMove :
    ∃ pre change post s t mid rest,
      (ofBlocks toolThenMove).commands = pre ++ .motion lastMove :: post ∧
      (∃ u, nextSnapshot? post = some (u, 2) ∧ lastMove.EndsIn u) ∧
      (ofBlocks toolThenMove).commands = [] ++ .toolChange 3 0 1 :: change ∧
      (∃ u, nextSnapshot? change = some (u, 0) ∧ 3 = u.tool) ∧
      (ofBlocks toolThenMove).commands =
        pre.take 2 ++ .snapshot s 0 1 :: (mid ++ .snapshot t 1 2 :: rest) ∧
      (∀ c ∈ mid, c.snapshot? = none ∧ c.motion? = none) ∧ t.position = s.position := by
  have hmove : (ofBlocks toolThenMove).commands = (ofBlocks toolThenMove).commands.take 4 ++
      .motion lastMove :: (ofBlocks toolThenMove).commands.drop 5 := by rfl
  have hchange : (ofBlocks toolThenMove).commands =
      [] ++ .toolChange 3 0 1 :: (ofBlocks toolThenMove).commands.drop 1 := by rfl
  have hstay : (ofBlocks toolThenMove).commands =
      ((ofBlocks toolThenMove).commands.take 4).take 2 ++
        .snapshot (ofBlocks (toolThenMove.take 1)).finalState 0 1 ::
          ([] ++ .snapshot (ofBlocks (toolThenMove.take 2)).finalState 1 2 ::
            (ofBlocks toolThenMove).commands.drop 4) := by rfl
  have h := commands_linked toolThenMove
  exact ⟨_, _, _, _, _, _, _, hmove, (h.1 _ _ _ hmove).2, hchange, h.2.2.1 _ _ _ _ _ hchange,
    hstay, fun c hc => (by cases hc),
    h.2.2.2.1 _ _ _ _ _ _ _ _ _ hstay fun c hc => by cases hc⟩

end Interpretation

end Machining
