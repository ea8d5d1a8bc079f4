import Machining.Proofs.Modal.Chain
import Machining.Proofs.Modal.Deletion
import Machining.Proofs.Modal.Groups
import Machining.Proofs.Modal.Registers

/-!
# Accounts of commands and diagnostics

Every command and every diagnostic carries the index of its block, so the yield of a program can
be sorted by blocks again.  A block with faults has one error and no command.  A block that is
executed has a tool change for each word that asks for one, a move if it names an axis, and one
snapshot, in this order, and a warning for each code that is not supported.  A block without words
has nothing.

* `commands_ofWords`, `diagnostics_ofWords` — the yield of an executed block, read off its words;
* `ofBlocks_atBlock` — of a whole program, the block with a given index has its own yield;
* `Indexed`, `indexed_ofBlocksFrom` — the indices of a program ascend and stay among its blocks;
* `ofBlocks_accounts` — the accounts of a program.
-/

set_option autoImplicit false

namespace Machining

variable {α : Type} [Scalar α]

/-! ## What a block asks for -/

/-- The word asks for a tool change. -/
def Word.asksForTool (w : Word α) : Bool := w.letter == 'M' && Scalar.truncate w.value == 6

/-- The word is a G or M word whose code is not supported. -/
def Word.isUnsupported (w : Word α) : Bool :=
  isCodeLetter w.letter && !(ModalCode.codes w.letter).contains (Scalar.truncate w.value)

omit [Scalar α] in
/-- Some word of the block names an axis. -/
def Block.namesAxis (b : Block α) : Bool :=
  b.words.any fun w => ['X', 'Y', 'Z'].contains w.letter

/-- The move of a block that is executed in the state `s` and leaves the state `t`. -/
def Motion.between (s t : ModalState α) (index : Nat) (b : Block α) : Motion α where
  mode := t.motionMode
  plane := t.plane
  start := s.position
  target := t.position
  arcOffset := Interpretation.arcOffset (Registers.ofWords b.words) t.unit
  feed := t.feed
  spindleSpeed := t.spindleSpeed
  spindleMode := t.spindleMode
  workOffset := t.workOffset
  block := index
  line := b.line

/-- The warning about an unsupported code. -/
def Diagnostic.unsupported (index line : Nat) (w : Word α) : Diagnostic :=
  ⟨index, line, .warning, "Unsupported modal code " ++ w.letter.toString ++
    Numeral.signedText (Scalar.truncate w.value)⟩

omit [Scalar α] in
theorem Registers.hasAny_ofWords {ls : List Char} (hls : ∀ l ∈ ls, (slot? l).isSome = true)
    (ws : List (Word α)) :
    (ofWords ws).hasAny ls = ws.any fun w => ls.contains w.letter := by
  rw [Bool.eq_iff_iff]
  simp only [hasAny, List.any_eq_true, List.contains_iff_mem]
  constructor
  · rintro ⟨l, hl, hsome⟩
    rw [get?_ofWords (hls l hl), Option.isSome_map, List.find?_isSome] at hsome
    obtain ⟨w, hw, heq⟩ := hsome
    rw [beq_iff_eq] at heq
    exact ⟨w, hw, heq ▸ hl⟩
  · rintro ⟨w, hw, hl⟩
    refine ⟨w.letter, hl, ?_⟩
    rw [get?_ofWords (hls _ hl), Option.isSome_map, List.find?_isSome]
    exact ⟨w, hw, beq_self_eq_true _⟩

/-! ## One block -/

namespace Interpretation

section Codes

variable (r : Registers α) (block line : Nat)

theorem commands_ofCode (s : ModalState α) (w : Word α) :
    (ofCode r block line s w).commands =
      if w.asksForTool then [.toolChange (requestedTool s r) block line] else [] := by
  have hasks : w.asksForTool = true ↔
      ModalCode.of? w.letter (Scalar.truncate w.value) = some .toolChange := by
    simp [Word.asksForTool, ModalCode.of?_eq_toolChange_iff]
  unfold ofCode
  dsimp only
  split
  · rename_i hc
    rw [if_pos (hasks.2 hc)]
  · rename_i c hne hc
    rw [if_neg]
    intro h
    rw [hasks.1 h] at hc
    cases hc
    exact hne rfl
  · rename_i hc
    rw [if_neg]
    intro h
    rw [hasks.1 h] at hc
    cases hc

/-- Code words yield a tool change for each word that asks for one. -/
theorem commands_ofCodes (ws : List (Word α)) : ∀ s : ModalState α,
    (ofCodes r block line s ws).commands =
      (ws.filter Word.asksForTool).map fun _ => .toolChange (requestedTool s r) block line := by
  induction ws with
  | nil =>
    intro s
    rfl
  | cons w ws ih =>
    intro s
    have htool : requestedTool (ofCode r block line s w).finalState r = requestedTool s r :=
      requestedTool_congr r (ofCode_spec r block line s w).2.1
    rw [ofCodes, commands_append, ih, commands_ofCode, htool]
    by_cases hw : w.asksForTool = true
    · simp [hw]
    · simp [hw]

theorem diagnostics_ofCode (s : ModalState α) {w : Word α} (hw : isCodeLetter w.letter = true) :
    (ofCode r block line s w).diagnostics =
      if w.isUnsupported then [.unsupported block line w] else [] := by
  have hknown : w.isUnsupported = true ↔
      ModalCode.of? w.letter (Scalar.truncate w.value) = none := by
    simp [Word.isUnsupported, hw, ModalCode.of?_eq_none_iff]
  unfold ofCode
  dsimp only
  split
  · rename_i hc
    rw [if_neg]
    intro h
    rw [hknown.1 h] at hc
    cases hc
  · rename_i c _ hc
    rw [if_neg]
    intro h
    rw [hknown.1 h] at hc
    cases hc
  · rename_i hc
    rw [if_pos (hknown.2 hc)]
    rfl

/-- Code words yield a warning for each unsupported code. -/
theorem diagnostics_ofCodes (ws : List (Word α))
    (hws : ∀ w ∈ ws, isCodeLetter w.letter = true) : ∀ s : ModalState α,
    (ofCodes r block line s ws).diagnostics =
      (ws.filter Word.isUnsupported).map (.unsupported block line) := by
  induction ws with
  | nil =>
    intro s
    rfl
  | cons w ws ih =>
    intro s
    have hrest := ih (fun v hv => hws v (List.mem_cons_of_mem _ hv))
    rw [ofCodes, diagnostics_append, hrest, diagnostics_ofCode r block line s (hws w (by simp))]
    by_cases hw : w.isUnsupported = true
    · simp [hw]
    · simp [hw]

end Codes

omit [Scalar α] in
/-- What only G and M words can have is not lost among the codes of a block. -/
theorem filter_codes {p : Word α → Bool} (hp : ∀ w, p w = true → isCodeLetter w.letter = true)
    (ws : List (Word α)) :
    (ws.filter fun w => isCodeLetter w.letter).filter p = ws.filter p := by
  rw [List.filter_filter]
  apply List.filter_congr
  intro w _
  rw [Bool.and_eq_left_iff_imp]
  exact hp w

theorem isCodeLetter_of_asksForTool {w : Word α} (hw : w.asksForTool = true) :
    isCodeLetter w.letter = true := by
  simp only [Word.asksForTool, Bool.and_eq_true, beq_iff_eq] at hw
  simp [isCodeLetter, hw.1]

theorem isCodeLetter_of_isUnsupported {w : Word α} (hw : w.isUnsupported = true) :
    isCodeLetter w.letter = true := by
  unfold Word.isUnsupported at hw
  exact (Bool.and_eq_true_iff.1 hw).1

/-- The end of an executed block: a move if it names an axis. -/
theorem commands_ofAxes (s u : ModalState α) (hu : u.position = s.position) (index : Nat)
    (b : Block α) :
    let r := Registers.ofWords b.words
    (ofAxes r index b.line u).commands = if b.namesAxis
      then [.motion (Motion.between s (ofAxes r index b.line u).finalState index b)] else [] := by
  intro r
  have hany : r.hasAny ['X', 'Y', 'Z'] = b.namesAxis :=
    Registers.hasAny_ofWords (by simp [Registers.slot?]) b.words
  unfold ofAxes
  rw [hany]
  by_cases hb : b.namesAxis = true
  · simp only [hb, if_true]
    rw [Motion.between, ← hu]
  · simp only [hb]
    rfl

/-- **The commands of an executed block.** -/
theorem commands_ofWords (s : ModalState α) (index : Nat) (b : Block α) :
    let t := (ofWords s index b.line b.words).finalState
    (ofWords s index b.line b.words).commands =
      ((b.words.filter Word.asksForTool).map fun _ => .toolChange t.tool index b.line) ++
      (if b.namesAxis then [.motion (Motion.between s t index b)] else []) ++
      [.snapshot t index b.line] := by
  intro t
  set r := Registers.ofWords b.words with hr
  set codes := ofCodes r index b.line s (b.words.filter fun w => isCodeLetter w.letter) with hcodes
  obtain ⟨-, htool, hposition⟩ :=
    ofCodes_spec r index b.line (b.words.filter fun w => isCodeLetter w.letter) s
  have ht : t = (ofAxes r index b.line (takeOver r codes.finalState)).finalState := rfl
  have haxes : (ofAxes r index b.line (takeOver r codes.finalState)).commands =
      if b.namesAxis then [.motion (Motion.between s t index b)] else [] :=
    commands_ofAxes s (takeOver r codes.finalState) hposition index b
  -- the codes already ask for the tool that the block leaves in the spindle
  have hsame : requestedTool s r = t.tool := by
    rw [ht, (linked_ofAxes r index b.line _ _ rfl).2.2, tool_takeOver,
      requestedTool_congr r htool]
  have hchanges : codes.commands =
      (b.words.filter Word.asksForTool).map fun _ => .toolChange t.tool index b.line := by
    rw [hcodes, commands_ofCodes, filter_codes fun _ => isCodeLetter_of_asksForTool, hsame]
  show (codes.commands ++ (ofAxes r index b.line (takeOver r codes.finalState)).commands) ++
    [.snapshot t index b.line] = _
  rw [hchanges, haxes]

/-- **The diagnostics of an executed block.** -/
theorem diagnostics_ofWords (s : ModalState α) (index : Nat) (b : Block α) :
    (ofWords s index b.line b.words).diagnostics =
      (b.words.filter Word.isUnsupported).map (.unsupported index b.line) := by
  have haxes (r : Registers α) (t : ModalState α) : (ofAxes r index b.line t).diagnostics = [] := by
    unfold ofAxes
    split <;> rfl
  unfold ofWords
  dsimp only [diagnostics_append]
  rw [haxes, diagnostics_ofCodes, filter_codes fun _ => isCodeLetter_of_isUnsupported,
    List.append_nil, List.append_nil]
  intro w hw
  exact (List.mem_filter.1 hw).2

theorem ofBlock_of_isExecutable (s : ModalState α) (index : Nat) {b : Block α}
    (hb : b.isExecutable = true) : ofBlock s index b = ofWords s index b.line b.words := by
  simp only [Block.isExecutable, Bool.and_eq_true, Bool.not_eq_true'] at hb
  simp [ofBlock, Block.hasFaults, hb.1, hb.2]

theorem ofBlock_of_faults (s : ModalState α) (index : Nat) {b : Block α} (hb : b.faults ≠ []) :
    ofBlock s index b =
      ⟨[], [⟨index, b.line, .error, "; ".intercalate (b.faults.map BlockFault.message)⟩], s⟩ := by
  simp [ofBlock, Block.hasFaults, hb]

theorem ofBlock_of_empty (s : ModalState α) (index : Nat) {b : Block α} (hwords : b.words = [])
    (hfaults : b.faults = []) : ofBlock s index b = start s := by
  simp [ofBlock, Block.hasFaults, hwords, hfaults]

theorem line_of_mem_commands {s : ModalState α} {i : Nat} {b : Block α} {c : Command α}
    (h : c ∈ (ofBlock s i b).commands) : c.line = b.line := by
  by_cases hb : b.isExecutable = true
  · rw [ofBlock_of_isExecutable s i hb, commands_ofWords] at h
    simp only [List.mem_append, List.mem_map, List.mem_singleton] at h
    rcases h with (⟨w, -, rfl⟩ | hmove) | rfl
    · rfl
    · split at hmove
      · rw [List.mem_singleton.1 hmove]
        rfl
      · cases hmove
    · rfl
  · rw [Bool.not_eq_true] at hb
    rw [(ofBlock_of_not_isExecutable s i hb).1] at h
    cases h

theorem line_of_mem_diagnostics {s : ModalState α} {i : Nat} {b : Block α} {d : Diagnostic}
    (h : d ∈ (ofBlock s i b).diagnostics) : d.line = b.line := by
  by_cases hfaults : b.faults = []
  · by_cases hwords : b.words = []
    · rw [ofBlock_of_empty s i hwords hfaults] at h
      cases h
    · rw [ofBlock_of_isExecutable s i (by simp [Block.isExecutable, hwords, hfaults]),
        diagnostics_ofWords] at h
      obtain ⟨w, -, rfl⟩ := List.mem_map.1 h
      rfl
  · rw [ofBlock_of_faults s i hfaults] at h
    rw [List.mem_singleton.1 h]

/-! ## Programs -/

/-- The commands and the diagnostics of one block. -/
def atBlock (a : Interpretation α) (index : Nat) : List (Command α) × List Diagnostic :=
  (a.commands.filter fun c => c.block == index, a.diagnostics.filter fun d => d.block == index)

/-- Indices in ascending order, from `first` on and below `last`. -/
structure Ascending (first last : Nat) (indices : List Nat) : Prop where
  within : ∀ k ∈ indices, first ≤ k ∧ k < last
  sorted : indices.Pairwise (· ≤ ·)

/-- Commands and diagnostics come in the order of their blocks. -/
structure Indexed (first last : Nat) (a : Interpretation α) : Prop where
  commands : Ascending first last (a.commands.map Command.block)
  diagnostics : Ascending first last (a.diagnostics.map Diagnostic.block)

omit [Scalar α] in
theorem Ascending.append {first mid last : Nat} {ks ls : List Nat} (hks : Ascending first mid ks)
    (hls : Ascending mid last ls) (hfirst : first ≤ mid) (hlast : mid ≤ last) :
    Ascending first last (ks ++ ls) := by
  constructor
  · intro k hk
    rcases List.mem_append.1 hk with hk | hk
    · have := hks.within k hk
      omega
    · have := hls.within k hk
      omega
  · rw [List.pairwise_append]
    refine ⟨hks.sorted, hls.sorted, ?_⟩
    intro k hk l hl
    have hklt := (hks.within k hk).2
    have hlge := (hls.within l hl).1
    omega

omit [Scalar α] in
theorem Ascending.of_forall_eq {index : Nat} {ks : List Nat} (h : ∀ k ∈ ks, k = index) :
    Ascending index (index + 1) ks := by
  constructor
  · intro k hk
    rw [h k hk]
    omega
  · rw [List.pairwise_iff_forall_sublist]
    intro k l hsub
    rw [h k (hsub.subset (by simp)), h l (hsub.subset (by simp))]

theorem block_of_mem_commands {s : ModalState α} {i : Nat} {b : Block α} {c : Command α}
    (h : c ∈ (ofBlock s i b).commands) : c.block = i := by
  have hsame : (ofBlock s i b).renumber (fun _ => i) = ofBlock s i b :=
    ofBlock_renumber (fun _ => i) s i b
  rw [← hsame] at h
  obtain ⟨d, _, rfl⟩ := List.mem_map.1 h
  cases d <;> rfl

theorem indexed_ofBlock (s : ModalState α) (i : Nat) (b : Block α) :
    Indexed i (i + 1) (ofBlock s i b) := by
  constructor
  · apply Ascending.of_forall_eq
    intro k hk
    obtain ⟨c, hc, rfl⟩ := List.mem_map.1 hk
    exact block_of_mem_commands hc
  · apply Ascending.of_forall_eq
    intro k hk
    obtain ⟨d, hd, rfl⟩ := List.mem_map.1 hk
    exact block_of_mem_diagnostics hd

/-- **The indices of a program ascend** and stay among its blocks. -/
theorem indexed_ofBlocksFrom (bs : List (Block α)) : ∀ (s : ModalState α) (i : Nat),
    Indexed i (i + bs.length) (ofBlocksFrom s i bs) := by
  induction bs with
  | nil =>
    intro s i
    constructor <;> exact ⟨by simp [ofBlocksFrom], by simp [ofBlocksFrom]⟩
  | cons b bs ih =>
    intro s i
    have hfirst := indexed_ofBlock s i b
    have hrest := ih (ofBlock s i b).finalState (i + 1)
    have hlength : i + (b :: bs).length = i + 1 + bs.length := by
      rw [List.length_cons]
      omega
    rw [hlength, ofBlocksFrom]
    constructor
    · rw [commands_append, List.map_append]
      exact hfirst.commands.append hrest.commands (by omega) (by omega)
    · rw [diagnostics_append, List.map_append]
      exact hfirst.diagnostics.append hrest.diagnostics (by omega) (by omega)

omit [Scalar α] in
theorem atBlock_append (a b : Interpretation α) (k : Nat) :
    (a.append b).atBlock k =
      ((a.atBlock k).1 ++ (b.atBlock k).1, (a.atBlock k).2 ++ (b.atBlock k).2) := by
  simp [atBlock, append]

omit [Scalar α] in
/-- A block outside the range of indices has nothing. -/
theorem Indexed.atBlock_eq_nil {first last : Nat} {a : Interpretation α}
    (h : Indexed first last a) {k : Nat} (hk : k < first ∨ last ≤ k) : a.atBlock k = ([], []) := by
  unfold atBlock
  rw [Prod.mk.injEq, List.filter_eq_nil_iff, List.filter_eq_nil_iff]
  constructor
  · intro c hc heq
    rw [beq_iff_eq] at heq
    have := h.commands.within c.block (List.mem_map_of_mem hc)
    omega
  · intro d hd heq
    rw [beq_iff_eq] at heq
    have := h.diagnostics.within d.block (List.mem_map_of_mem hd)
    omega

theorem atBlock_ofBlock (s : ModalState α) (i : Nat) (b : Block α) :
    (ofBlock s i b).atBlock i = ((ofBlock s i b).commands, (ofBlock s i b).diagnostics) := by
  unfold atBlock
  rw [Prod.mk.injEq, List.filter_eq_self, List.filter_eq_self]
  constructor
  · intro c hc
    simp [block_of_mem_commands hc]
  · intro d hd
    simp [block_of_mem_diagnostics hd]

/-- **A block of a program has its own yield**, from the state the blocks before it leave. -/
theorem ofBlocks_atBlock {bs : List (Block α)} {i : Nat} {b : Block α} (hb : bs[i]? = some b) :
    (ofBlocks bs).atBlock i =
      ((ofBlock (ofBlocks (bs.take i)).finalState i b).commands,
        (ofBlock (ofBlocks (bs.take i)).finalState i b).diagnostics) := by
  have hi : i < bs.length := (List.getElem?_eq_some_iff.1 hb).1
  have hsplit : ofBlocks bs = (ofBlocks (bs.take (i + 1))).append
      (ofBlocksFrom (ofBlocks (bs.take (i + 1))).finalState (i + 1) (bs.drop (i + 1))) := by
    have happend := ofBlocksFrom_append ModalState.powerOn 0 (bs.take (i + 1)) (bs.drop (i + 1))
    rw [List.take_append_drop, List.length_take_of_le (by omega), Nat.zero_add] at happend
    exact happend
  have hbefore : Indexed 0 i (ofBlocks (bs.take i)) := by
    have h := indexed_ofBlocksFrom (bs.take i) ModalState.powerOn 0
    rwa [List.length_take_of_le (by omega), Nat.zero_add] at h
  have hafter := indexed_ofBlocksFrom (bs.drop (i + 1)) (ofBlocks (bs.take (i + 1))).finalState
    (i + 1)
  rw [hsplit, atBlock_append, hafter.atBlock_eq_nil (.inl (by omega)), ofBlocks_take_succ hb,
    atBlock_append, hbefore.atBlock_eq_nil (.inr (by omega)), atBlock_ofBlock]
  simp

omit [Scalar α] in
theorem count_append (a b : Interpretation α) (severity : Severity) :
    (a.append b).count severity = a.count severity + b.count severity := by
  simp [count]

omit [Scalar α] in
theorem snapshotLines_append (a b : Interpretation α) :
    (a.append b).snapshotLines = a.snapshotLines ++ b.snapshotLines := by
  simp [snapshotLines]

/-- A block is counted as an error if it has faults. -/
theorem count_error_ofBlock (s : ModalState α) (i : Nat) (b : Block α) :
    (ofBlock s i b).count .error = if b.hasFaults then 1 else 0 := by
  have hreports := errors_ofBlock s i b
  unfold reports report? at hreports
  unfold count
  rw [List.countP_eq_length_filter, hreports]
  split <;> rfl

/-- A block that is executed leaves one snapshot. -/
theorem snapshotLines_ofBlock (s : ModalState α) (i : Nat) (b : Block α) :
    (ofBlock s i b).snapshotLines = if b.isExecutable then [b.line] else [] := by
  by_cases hb : b.isExecutable = true
  · rw [if_pos hb, ofBlock_of_isExecutable s i hb]
    unfold snapshotLines
    rw [commands_ofWords]
    by_cases haxes : b.namesAxis = true
    · simp [haxes]
    · simp [haxes]
  · rw [if_neg hb]
    rw [Bool.not_eq_true] at hb
    simp [snapshotLines, (ofBlock_of_not_isExecutable s i hb).1]

theorem count_error_ofBlocksFrom (bs : List (Block α)) : ∀ (s : ModalState α) (i : Nat),
    (ofBlocksFrom s i bs).count .error = bs.countP Block.hasFaults := by
  induction bs with
  | nil =>
    intro s i
    rfl
  | cons b bs ih =>
    intro s i
    rw [ofBlocksFrom, count_append, ih, count_error_ofBlock, List.countP_cons]
    omega

theorem snapshotLines_ofBlocksFrom (bs : List (Block α)) : ∀ (s : ModalState α) (i : Nat),
    (ofBlocksFrom s i bs).snapshotLines = (bs.filter Block.isExecutable).map Block.line := by
  induction bs with
  | nil =>
    intro s i
    rfl
  | cons b bs ih =>
    intro s i
    rw [ofBlocksFrom, snapshotLines_append, ih, snapshotLines_ofBlock]
    by_cases hb : b.isExecutable = true
    · simp [hb]
    · simp [hb]

/-- **The accounts of a program.**  A block without words and faults has no command and no
diagnostic.  A block with faults has no command and one error, which joins its faults.  Every other
block has a tool change for each word that asks for one, then a move exactly if it names an axis,
then a snapshot, and a warning for each word with an unsupported code, in the order of the words.
All of it carries the line of the block.  There is nothing else, commands and diagnostics come in
the order of the blocks, and errors and snapshots number the blocks with faults and the executed
ones. -/
theorem ofBlocks_accounts (bs : List (Block α)) :
    (∀ i b, bs[i]? = some b →
      let s := (ofBlocks (bs.take i)).finalState
      let t := (ofBlocks (bs.take (i + 1))).finalState
      (b.words = [] → b.faults = [] → (ofBlocks bs).atBlock i = ([], [])) ∧
      (b.faults ≠ [] → (ofBlocks bs).atBlock i =
        ([], [⟨i, b.line, .error, "; ".intercalate (b.faults.map BlockFault.message)⟩])) ∧
      (b.words ≠ [] → b.faults = [] → (ofBlocks bs).atBlock i =
        (((b.words.filter Word.asksForTool).map fun _ => .toolChange t.tool i b.line) ++
          (if b.namesAxis then [.motion (Motion.between s t i b)] else []) ++
          [.snapshot t i b.line],
        (b.words.filter Word.isUnsupported).map (.unsupported i b.line))) ∧
      (∀ c ∈ ((ofBlocks bs).atBlock i).1, c.line = b.line) ∧
      (∀ d ∈ ((ofBlocks bs).atBlock i).2, d.line = b.line)) ∧
    (∀ c ∈ (ofBlocks bs).commands, c.block < bs.length) ∧
    (∀ d ∈ (ofBlocks bs).diagnostics, d.block < bs.length) ∧
    ((ofBlocks bs).commands.map Command.block).Pairwise (· ≤ ·) ∧
    ((ofBlocks bs).diagnostics.map Diagnostic.block).Pairwise (· ≤ ·) ∧
    (ofBlocks bs).count .error = bs.countP Block.hasFaults ∧
    (ofBlocks bs).snapshotLines.length = bs.countP Block.isExecutable := by
  have hindexed := indexed_ofBlocksFrom bs ModalState.powerOn 0
  rw [Nat.zero_add] at hindexed
  have hlines : (ofBlocks bs).snapshotLines = (bs.filter Block.isExecutable).map Block.line :=
    snapshotLines_ofBlocksFrom bs _ 0
  refine ⟨?_, ?_, ?_, hindexed.commands.sorted, hindexed.diagnostics.sorted,
    count_error_ofBlocksFrom bs _ 0, ?_⟩
  · intro i b hb s t
    have ht : t = (ofBlock s i b).finalState := by
      show (ofBlocks (bs.take (i + 1))).finalState = _
      rw [ofBlocks_take_succ hb]
      rfl
    rw [ofBlocks_atBlock hb]
    refine ⟨?_, ?_, ?_, fun c hc => line_of_mem_commands hc,
      fun d hd => line_of_mem_diagnostics hd⟩
    · intro hwords hfaults
      rw [ofBlock_of_empty _ i hwords hfaults]
      rfl
    · intro hfaults
      rw [ofBlock_of_faults _ i hfaults]
    · intro hwords hfaults
      have hrun : ofBlock s i b = ofWords s i b.line b.words :=
        ofBlock_of_isExecutable s i (by simp [Block.isExecutable, hwords, hfaults])
      rw [ht, hrun, commands_ofWords, diagnostics_ofWords]
  · intro c hc
    exact (hindexed.commands.within c.block (List.mem_map_of_mem hc)).2
  · intro d hd
    exact (hindexed.diagnostics.within d.block (List.mem_map_of_mem hd)).2
  · rw [hlines, List.length_map, List.countP_eq_length_filter]

/-- A block in doubles with two faults. -/
def faultyBlock : Block Float := ⟨2, "", "", [⟨'X', 1⟩], [.unexpected "#", .unparsedTail "Y"]⟩

/-- A block in doubles with two requests for a tool change around a move, and two unsupported
codes. -/
def busyBlock : Block Float :=
  ⟨3, "", "", [⟨'M', 6.5⟩, ⟨'G', 99⟩, ⟨'Y', 1⟩, ⟨'M', 6⟩, ⟨'T', 2⟩, ⟨'M', -6⟩], []⟩

theorem ofBlocks_accounts_threeKinds :
    let bs := [⟨1, "", "", [], []⟩, faultyBlock, busyBlock]
    let s := (ofBlocks (bs.take 2)).finalState
    let t := (ofBlocks bs).finalState
    (ofBlocks bs).atBlock 0 = ([], []) ∧
    (bs[1]? = some faultyBlock ∧ faultyBlock.faults ≠ [] ∧ (ofBlocks bs).atBlock 1 =
      ([], [⟨1, 2, .error, "Unexpected token near '#'; Cannot parse tail 'Y'"⟩])) ∧
    bs[2]? = some busyBlock ∧ busyBlock.words ≠ [] ∧ busyBlock.faults = [] ∧
    (ofBlocks bs).atBlock 2 =
      ([.toolChange 2 2 3, .toolChange 2 2 3, .motion (Motion.between s t 2 busyBlock),
          .snapshot t 2 3],
        [⟨2, 3, .warning, "Unsupported modal code G99"⟩,
          ⟨2, 3, .warning, "Unsupported modal code M-6"⟩]) := by
  intro bs s t
  have h := (ofBlocks_accounts bs).1
  have hblank := (h 0 _ rfl).1 rfl rfl
  have hfaulty := (h 1 faultyBlock rfl).2.1 (by simp [faultyBlock])
  have hbusy := (h 2 busyBlock rfl).2.2.1 (by simp [busyBlock]) rfl
  refine ⟨hblank, ⟨rfl, by simp [faultyBlock], ?_⟩, rfl, by simp [busyBlock], rfl, ?_⟩
  · rw [hfaulty]
    decide +kernel
  · rw [hbusy]
    decide +kernel

end Interpretation

end Machining
