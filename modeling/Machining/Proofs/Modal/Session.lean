import Machining.Modal.Playback
import Machining.Proofs.Modal.Prefix
import Machining.Scalar.Double

/-!
# Sessions with a playback

A session is a playback under an arbitrary sequence of calls — step, run to the end, rewind —
together with the steps its calls have made since the last rewinding.  Nothing is assumed about
the order of the calls: steps at the end of the program, runs from anywhere and rewindings in the
middle are all sessions.

* `Current` — what holds of a playback at every point of every session: its progress is the
  interpretation of the blocks executed so far;
* `current_run` — every session keeps it;
* `session_agrees` — at every point of every session the playback agrees with interpreting the
  executed blocks in one go, and each step yields what the next block adds to that.
-/

set_option autoImplicit false

namespace Machining

/-- What a playback can be asked to do. -/
inductive PlaybackCall
  | step
  | runToEnd
  | rewind
  deriving Repr, DecidableEq, Inhabited

/-- A playback with the steps it has made since it was last rewound, in order. -/
structure Session (α : Type) where
  playback : Playback α
  steps : List (PlaybackStep α)

/-! ## Steps of a playback -/

namespace Playback

variable {α : Type} [Scalar α]

/-- What the next block yields from the state the playback has reached. -/
def yield (p : Playback α) (b : Block α) : Interpretation α :=
  Interpretation.ofBlock p.progress.finalState p.executed b

/-- The playback after the block. -/
def advance (p : Playback α) (b : Block α) : Playback α :=
  { p with executed := p.executed + 1, progress := p.progress.append (p.yield b) }

theorem step?_of_next? {p : Playback α} {b : Block α} (h : p.next? = some b) :
    p.step? = some (⟨p.executed, b.line, (p.yield b).commands, (p.yield b).diagnostics⟩,
      p.advance b) := by
  unfold step?
  rw [h]
  rfl

theorem step?_eq_none_iff {p : Playback α} : p.step? = none ↔ p.next? = none := by
  unfold step?
  exact Option.map_eq_none_iff

/-- A step executes the next block and nothing else. -/
theorem step?_eq_some {p q : Playback α} {r : PlaybackStep α} (h : p.step? = some (r, q)) :
    ∃ b, p.next? = some b ∧ q = p.advance b ∧
      r = ⟨p.executed, b.line, (p.yield b).commands, (p.yield b).diagnostics⟩ := by
  cases hb : p.next? with
  | none => rw [step?_eq_none_iff.2 hb] at h; cases h
  | some b =>
    rw [step?_of_next? hb] at h
    cases h
    exact ⟨b, rfl, rfl, rfl⟩

/-- The steps a run to the end makes. -/
def drain (p : Playback α) : List (PlaybackStep α) :=
  match _h : p.step? with
  | none => []
  | some (r, q) => r :: q.drain
termination_by p.blocks.length - p.executed
decreasing_by
  have h1 := executed_of_step? _h
  have h2 := lt_of_step? _h
  rw [h1.1, h1.2]
  omega

theorem drain_of_none {p : Playback α} (h : p.step? = none) : p.drain = [] := by
  unfold drain
  split
  · rfl
  · rename_i hs; rw [h] at hs; cases hs

theorem drain_of_some {p q : Playback α} {r : PlaybackStep α} (h : p.step? = some (r, q)) :
    p.drain = r :: q.drain := by
  rw [drain]
  split
  · rename_i hs; rw [h] at hs; cases hs
  · rename_i hs; rw [h] at hs; cases hs; rfl

theorem runToEnd_of_none {p : Playback α} (h : p.step? = none) : p.runToEnd = p := by
  unfold runToEnd
  split
  · rfl
  · rename_i hs; rw [h] at hs; cases hs

theorem runToEnd_of_some {p q : Playback α} {r : PlaybackStep α} (h : p.step? = some (r, q)) :
    p.runToEnd = q.runToEnd := by
  rw [runToEnd]
  split
  · rename_i hs; rw [h] at hs; cases hs
  · rename_i hs; rw [h] at hs; cases hs; rfl

end Playback

/-! ## Sessions -/

namespace Session

variable {α : Type} [Scalar α]

/-- A program before its first block. -/
def start (bs : List (Block α)) : Session α := ⟨Playback.ofBlocks bs, []⟩

/-- One call.  A step at the end of the program leaves the session as it is. -/
def perform (s : Session α) : PlaybackCall → Session α
  | .step =>
    match s.playback.step? with
    | some (r, q) => ⟨q, s.steps ++ [r]⟩
    | none => s
  | .runToEnd => ⟨s.playback.runToEnd, s.steps ++ s.playback.drain⟩
  | .rewind => ⟨s.playback.rewind, []⟩

/-- The session after a sequence of calls. -/
def run (bs : List (Block α)) (calls : List PlaybackCall) : Session α :=
  calls.foldl perform (start bs)

omit [Scalar α] in
/-- The number of blocks executed since the last rewinding. -/
def count (s : Session α) : Nat := s.steps.length

/-- **The session invariant**: the playback has executed exactly the blocks the session has made
steps for, and holds what interpreting them in one go gives. -/
structure Current (bs : List (Block α)) (s : Session α) : Prop where
  blocks : s.playback.blocks = bs
  executed : s.playback.executed = s.count
  count_le : s.count ≤ bs.length
  progress : s.playback.progress = Interpretation.ofBlocks (bs.take s.count)

namespace Current

variable {bs : List (Block α)} {s : Session α}

theorem start (bs : List (Block α)) : Current bs (Session.start bs) :=
  ⟨rfl, rfl, Nat.zero_le _, rfl⟩

theorem next? (h : Current bs s) : s.playback.next? = bs[s.count]? := by
  unfold Playback.next?
  rw [h.blocks, h.executed]

theorem step?_eq_none_iff (h : Current bs s) :
    s.playback.step? = none ↔ s.count = bs.length := by
  rw [Playback.step?_eq_none_iff, h.next?, List.getElem?_eq_none_iff]
  have := h.count_le
  omega

/-- What the next block yields is what it adds to the blocks before it. -/
theorem progress_append_yield (h : Current bs s) {b : Block α} (hb : bs[s.count]? = some b) :
    s.playback.progress.append (s.playback.yield b) =
      Interpretation.ofBlocks (bs.take (s.count + 1)) := by
  unfold Playback.yield
  rw [Interpretation.ofBlocks_take_succ hb, h.progress, h.executed]

/-- A step keeps the invariant. -/
theorem step (h : Current bs s) {q : Playback α} {r : PlaybackStep α}
    (hs : s.playback.step? = some (r, q)) : Current bs ⟨q, s.steps ++ [r]⟩ := by
  obtain ⟨b, hb, rfl, -⟩ := Playback.step?_eq_some hs
  rw [h.next?] at hb
  have hlt : s.count < bs.length := (List.getElem?_eq_some_iff.1 hb).1
  have hc : (⟨s.playback.advance b, s.steps ++ [r]⟩ : Session α).count = s.count + 1 := by
    unfold count
    rw [List.length_append, List.length_singleton]
  refine ⟨h.blocks, ?_, ?_, ?_⟩
  · rw [hc, ← h.executed]
    rfl
  · rw [hc]
    exact hlt
  · rw [hc, ← h.progress_append_yield hb]
    rfl

/-- A run to the end keeps the invariant and leaves no block over. -/
theorem drain (h : Current bs s) :
    Current bs ⟨s.playback.runToEnd, s.steps ++ s.playback.drain⟩ ∧
      (s.steps ++ s.playback.drain).length = bs.length := by
  -- the induction is on the number of blocks left
  generalize hk : bs.length - s.count = k
  induction k generalizing s with
  | zero =>
    have hle := h.count_le
    have hend : s.count = bs.length := by omega
    have hnone := h.step?_eq_none_iff.2 hend
    rw [Playback.runToEnd_of_none hnone, Playback.drain_of_none hnone, List.append_nil]
    exact ⟨h, hend⟩
  | succ k ih =>
    cases hs : s.playback.step? with
    | none =>
      have hend := h.step?_eq_none_iff.1 hs
      omega
    | some rq =>
      obtain ⟨r, q⟩ := rq
      have hk' : bs.length - (⟨q, s.steps ++ [r]⟩ : Session α).count = k := by
        unfold count at hk ⊢
        rw [List.length_append, List.length_singleton]
        omega
      have hrest := ih (h.step hs) hk'
      rw [List.append_assoc, List.singleton_append] at hrest
      rw [Playback.runToEnd_of_some hs, Playback.drain_of_some hs]
      exact hrest

/-- Every call keeps the invariant. -/
theorem perform (h : Current bs s) (c : PlaybackCall) : Current bs (s.perform c) := by
  cases c with
  | step =>
    unfold Session.perform
    cases hs : s.playback.step? with
    | none => exact h
    | some rq => exact h.step hs
  | runToEnd => exact h.drain.1
  | rewind =>
    unfold Session.perform Playback.rewind
    rw [h.blocks]
    exact start bs

end Current

/-- **Every session keeps the invariant**, whatever its calls and their order. -/
theorem current_run (bs : List (Block α)) (calls : List PlaybackCall) :
    Current bs (run bs calls) := by
  suffices hfold : ∀ (calls : List PlaybackCall) (s : Session α), Current bs s →
      Current bs (calls.foldl perform s) from hfold calls _ (.start bs)
  intro calls
  induction calls with
  | nil => exact fun _ h => h
  | cons c calls ih => exact fun s h => ih _ (h.perform c)

/-- After a rewinding a session goes on as a fresh one does. -/
theorem run_append_rewind (bs : List (Block α)) (calls more : List PlaybackCall) :
    run bs (calls ++ .rewind :: more) = run bs more := by
  have hfresh : (run bs calls).perform .rewind = start bs := by
    unfold perform Playback.rewind
    rw [(current_run bs calls).blocks]
    rfl
  unfold run at hfresh ⊢
  rw [List.foldl_append, List.foldl_cons, hfresh]

/-- **Playback and interpretation agree at every point of every session.**  With `n` blocks
executed since the last rewinding: `n` is at most the number of blocks; progress is the
interpretation of the first `n` blocks; a step reports block `n`, its line and what it adds to
that interpretation; there is no step exactly at the end, and asking for one changes nothing; the
line shown is that of block `n`; a run to the end executes every block; and after a rewinding
everything repeats. -/
theorem session_agrees (bs : List (Block α)) (calls : List PlaybackCall) :
    let s := run bs calls
    let n := s.count
    n ≤ bs.length ∧
    s.playback.progress = Interpretation.ofBlocks (bs.take n) ∧
    (∀ r q, s.playback.step? = some (r, q) →
      r.block = n ∧ bs[n]?.map Block.line = some r.line ∧
      s.perform .step = ⟨q, s.steps ++ [r]⟩ ∧
      q.progress = Interpretation.ofBlocks (bs.take (n + 1)) ∧
      (Interpretation.ofBlocks (bs.take (n + 1))).commands =
        (Interpretation.ofBlocks (bs.take n)).commands ++ r.commands ∧
      (Interpretation.ofBlocks (bs.take (n + 1))).diagnostics =
        (Interpretation.ofBlocks (bs.take n)).diagnostics ++ r.diagnostics) ∧
    (s.playback.step? = none ↔ n = bs.length) ∧
    (s.playback.step? = none → s.perform .step = s) ∧
    s.playback.currentLine? = bs[n]?.map Block.line ∧
    (s.perform .runToEnd).count = bs.length ∧
    ∀ more, run bs (calls ++ .rewind :: more) = run bs more := by
  intro s n
  have h : Current bs s := current_run bs calls
  refine ⟨h.count_le, h.progress, ?_, h.step?_eq_none_iff, ?_, ?_, h.drain.2,
    run_append_rewind bs calls⟩
  · intro r q hs
    obtain ⟨b, hb, rfl, rfl⟩ := Playback.step?_eq_some hs
    rw [h.next?] at hb
    have hnext := h.progress_append_yield hb
    refine ⟨h.executed, ?_, ?_, hnext, ?_, ?_⟩
    · rw [hb]
      rfl
    · unfold perform
      rw [hs]
    · rw [← hnext, ← h.progress]
      rfl
    · rw [← hnext, ← h.progress]
      rfl
  · intro hs
    unfold perform
    rw [hs]
  · unfold Playback.currentLine?
    rw [h.next?]

/-- Two blocks in doubles. -/
def twoBlocks : List (Block Float) :=
  [⟨1, "", "", [⟨'G', 1⟩, ⟨'X', 2⟩], []⟩, ⟨5, "", "", [⟨'Y', 1⟩, ⟨'M', 7⟩], []⟩]

/-- A step after a step, a rewinding and a step is the step over the second block. -/
theorem session_agrees_twoBlocks :
    ∃ r q, (run twoBlocks [.step, .rewind, .step]).playback.step? = some (r, q) ∧
      r.block = 1 ∧ some 5 = some r.line ∧
      (Interpretation.ofBlocks twoBlocks).diagnostics = [] ++ r.diagnostics ∧
      (run twoBlocks [.step, .rewind, .step]).perform .step =
        ⟨q, (run twoBlocks [.step, .rewind, .step]).steps ++ [r]⟩ := by
  have h := (session_agrees twoBlocks [.step, .rewind, .step]).2.2.1 _ _ rfl
  exact ⟨_, _, rfl, h.1, h.2.1, h.2.2.2.2.2, h.2.2.1⟩

end Session

end Machining
