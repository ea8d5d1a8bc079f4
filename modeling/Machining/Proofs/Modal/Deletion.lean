import Machining.Proofs.Modal.Prefix

/-!
# Deleting blocks that are not executed

A block without words and a block with faults leave the state as it is and yield no command.  Such
blocks can be deleted from a program in any number: what is left is interpreted as before, except
that blocks move up and bring their new indices into commands and diagnostics, and that the faults
of deleted blocks are no longer reported.

* `ofBlock_renumber` — a block brings nothing but its own index into what it yields;
* `ofBlocks_keep` — deleting blocks that are not executed renumbers what the others yield;
* `warnings_withoutReports`, `errors_ofBlocksFrom` — no warning is lost, and the errors are one for
  each block with faults.
-/

set_option autoImplicit false

namespace Machining

/-! ## Renumbering -/

section Renumbering

variable {α : Type} (f : Nat → Nat)

/-- The move with its block index changed. -/
def Motion.renumber (m : Motion α) : Motion α := { m with block := f m.block }

/-- The command with its block index changed. -/
def Command.renumber : Command α → Command α
  | motion m => motion (m.renumber f)
  | toolChange tool block line => toolChange tool (f block) line
  | snapshot state block line => snapshot state (f block) line

/-- The diagnostic with its block index changed. -/
def Diagnostic.renumber (d : Diagnostic) : Diagnostic := { d with block := f d.block }

theorem Command.motion?_renumber (c : Command α) :
    (c.renumber f).motion? = c.motion?.map (Motion.renumber f) := by
  cases c <;> rfl

end Renumbering

/-! ## The blocks that stay -/

section Keeping

variable {α : Type} (deleted : Nat → Bool)

/-- The index a block has after the deletion: the number of blocks before it that stay. -/
def newIndex (i : Nat) : Nat := (List.range i).countP fun k => !deleted k

/-- The blocks that stay, of a list whose first block has the given index. -/
def keepFrom : Nat → List (Block α) → List (Block α)
  | _, [] => []
  | i, b :: bs => if deleted i then keepFrom (i + 1) bs else b :: keepFrom (i + 1) bs

/-- The blocks that stay. -/
def keep (bs : List (Block α)) : List (Block α) := keepFrom deleted 0 bs

theorem newIndex_succ (i : Nat) :
    newIndex deleted (i + 1) = newIndex deleted i + if deleted i then 0 else 1 := by
  unfold newIndex
  rw [List.range_succ, List.countP_append, List.countP_singleton]
  cases deleted i <;> rfl

theorem keepFrom_append (bs cs : List (Block α)) (i : Nat) : keepFrom deleted i (bs ++ cs) =
    keepFrom deleted i bs ++ keepFrom deleted (i + bs.length) cs := by
  induction bs generalizing i with
  | nil => rfl
  | cons b bs ih =>
    have hlength : i + (b :: bs).length = i + 1 + bs.length := by
      rw [List.length_cons]
      omega
    rw [List.cons_append, keepFrom, keepFrom, ih, hlength]
    split <;> rfl

theorem newIndex_add_length (bs : List (Block α)) (i : Nat) :
    newIndex deleted i + (keepFrom deleted i bs).length = newIndex deleted (i + bs.length) := by
  induction bs generalizing i with
  | nil => rfl
  | cons b bs ih =>
    have hlength : i + (b :: bs).length = i + 1 + bs.length := by
      rw [List.length_cons]
      omega
    rw [hlength, ← ih, newIndex_succ, keepFrom]
    cases deleted i with
    | true => simp
    | false =>
      simp only [Bool.false_eq_true, if_false, List.length_cons]
      omega

/-- **A block that stays is found at its new index.** -/
theorem getElem?_keep {bs : List (Block α)} {i : Nat} {b : Block α} (hb : bs[i]? = some b)
    (h : deleted i = false) : (keep deleted bs)[newIndex deleted i]? = some b := by
  obtain ⟨hi, rfl⟩ := List.getElem?_eq_some_iff.1 hb
  have hlength : (bs.take i).length = i := List.length_take_of_le (Nat.le_of_lt hi)
  have hbefore : (keepFrom deleted 0 (bs.take i)).length = newIndex deleted i := by
    have hadd := newIndex_add_length deleted (bs.take i) 0
    rw [hlength, Nat.zero_add] at hadd
    rw [← hadd]
    exact (Nat.zero_add _).symm
  have hbs : bs.take i ++ bs[i] :: bs.drop (i + 1) = bs := by
    rw [← List.drop_eq_getElem_cons hi, List.take_append_drop]
  have hsplit : keep deleted bs = keepFrom deleted 0 (bs.take i) ++
      bs[i] :: keepFrom deleted (i + 1) (bs.drop (i + 1)) := by
    have happend := keepFrom_append deleted (bs.take i) (bs[i] :: bs.drop (i + 1)) 0
    rw [hbs, hlength, Nat.zero_add, keepFrom, h] at happend
    exact happend
  rw [hsplit, ← hbefore, List.getElem?_append_right (Nat.le_refl _), Nat.sub_self]
  rfl

/-- The deletion spares all blocks that are executed, of a list whose first block has the given
index. -/
def Spares (i : Nat) (bs : List (Block α)) : Prop :=
  ∀ k b, bs[k]? = some b → deleted (i + k) = true → b.isExecutable = false

theorem Spares.head {deleted : Nat → Bool} {i : Nat} {b : Block α} {bs : List (Block α)}
    (h : Spares deleted i (b :: bs)) (hi : deleted i = true) : b.isExecutable = false :=
  h 0 b rfl hi

theorem Spares.tail {deleted : Nat → Bool} {i : Nat} {b : Block α} {bs : List (Block α)}
    (h : Spares deleted i (b :: bs)) : Spares deleted (i + 1) bs := by
  intro k c hc hk
  refine h (k + 1) c hc ?_
  rwa [Nat.add_comm k 1, ← Nat.add_assoc]

end Keeping

namespace Interpretation

variable {α : Type}

/-- All commands and diagnostics with their block indices changed. -/
def renumber (f : Nat → Nat) (i : Interpretation α) : Interpretation α :=
  ⟨i.commands.map (Command.renumber f), i.diagnostics.map (Diagnostic.renumber f), i.finalState⟩

/-- The interpretation without the diagnostics of deleted blocks. -/
def withoutReports (deleted : Nat → Bool) (i : Interpretation α) : Interpretation α :=
  { i with diagnostics := i.diagnostics.filter fun d => !deleted d.block }

/-- The diagnostics of a severity. -/
def reports (i : Interpretation α) (s : Severity) : List Diagnostic :=
  i.diagnostics.filter fun d => d.severity == s

theorem renumber_append (f : Nat → Nat) (a b : Interpretation α) :
    (a.append b).renumber f = (a.renumber f).append (b.renumber f) := by
  simp only [renumber, append, List.map_append]

theorem withoutReports_append (deleted : Nat → Bool) (a b : Interpretation α) :
    (a.append b).withoutReports deleted =
      (a.withoutReports deleted).append (b.withoutReports deleted) := by
  simp only [withoutReports, append, List.filter_append]

theorem reports_append (a b : Interpretation α) (s : Severity) :
    (a.append b).reports s = a.reports s ++ b.reports s := by
  simp only [reports, append, List.filter_append]

/-- Renumbering keeps severities. -/
theorem reports_renumber (f : Nat → Nat) (i : Interpretation α) (s : Severity) :
    (i.renumber f).reports s = (i.reports s).map (Diagnostic.renumber f) := by
  unfold reports renumber
  rw [List.filter_map]
  rfl

/-! ## One block -/

variable [Scalar α] (f : Nat → Nat)

theorem ofCode_renumber (r : Registers α) (block line : Nat) (s : ModalState α) (w : Word α) :
    (ofCode r block line s w).renumber f = ofCode r (f block) line s w := by
  unfold ofCode
  dsimp only
  split <;> rfl

theorem ofCodes_renumber (r : Registers α) (block line : Nat) (ws : List (Word α)) :
    ∀ s : ModalState α,
      (ofCodes r block line s ws).renumber f = ofCodes r (f block) line s ws := by
  induction ws with
  | nil => exact fun _ => rfl
  | cons w ws ih =>
    intro s
    have hstate : (ofCode r (f block) line s w).finalState =
        (ofCode r block line s w).finalState := by
      rw [← ofCode_renumber]
      rfl
    rw [ofCodes, ofCodes, renumber_append, ofCode_renumber, ih, hstate]

theorem ofAxes_renumber (r : Registers α) (block line : Nat) (s : ModalState α) :
    (ofAxes r block line s).renumber f = ofAxes r (f block) line s := by
  unfold ofAxes
  split <;> rfl

theorem ofWords_renumber (s : ModalState α) (block line : Nat) (ws : List (Word α)) :
    (ofWords s block line ws).renumber f = ofWords s (f block) line ws := by
  unfold ofWords
  dsimp only
  rw [renumber_append, renumber_append, ofAxes_renumber, ← ofCodes_renumber f]
  have hstate : (ofAxes (Registers.ofWords ws) block line (takeOver (Registers.ofWords ws)
      (ofCodes (Registers.ofWords ws) block line s
        (ws.filter fun w => isCodeLetter w.letter)).finalState)).finalState =
      (ofAxes (Registers.ofWords ws) (f block) line (takeOver (Registers.ofWords ws)
        ((ofCodes (Registers.ofWords ws) block line s
          (ws.filter fun w => isCodeLetter w.letter)).renumber f).finalState)).finalState := by
    rw [← ofAxes_renumber]
    rfl
  rw [← hstate]
  rfl

/-- **A block brings nothing but its own index into what it yields.** -/
theorem ofBlock_renumber (s : ModalState α) (i : Nat) (b : Block α) :
    (ofBlock s i b).renumber f = ofBlock s (f i) b := by
  unfold ofBlock
  split
  · rfl
  · split
    · rfl
    · exact ofWords_renumber f s i b.line b.words

theorem block_of_mem_diagnostics {s : ModalState α} {i : Nat} {b : Block α} {d : Diagnostic}
    (h : d ∈ (ofBlock s i b).diagnostics) : d.block = i := by
  have hsame : (ofBlock s i b).renumber (fun _ => i) = ofBlock s i b :=
    ofBlock_renumber (fun _ => i) s i b
  rw [← hsame] at h
  obtain ⟨_, _, rfl⟩ := List.mem_map.1 h
  rfl

theorem severity_ofCodes (r : Registers α) (block line : Nat) (ws : List (Word α)) :
    ∀ (s : ModalState α), ∀ d ∈ (ofCodes r block line s ws).diagnostics,
      d.severity = .warning := by
  induction ws with
  | nil => exact fun _ _ hd => by cases hd
  | cons w ws ih =>
    intro s d hd
    rcases List.mem_append.1 hd with hd | hd
    · unfold ofCode at hd
      dsimp only at hd
      split at hd
      · cases hd
      · cases hd
      · rw [List.mem_singleton.1 hd]
    · exact ih _ d hd

/-- Executing words gives warnings only. -/
theorem severity_ofWords {s : ModalState α} {block line : Nat} {ws : List (Word α)}
    {d : Diagnostic} (h : d ∈ (ofWords s block line ws).diagnostics) : d.severity = .warning := by
  unfold ofWords at h
  dsimp only [diagnostics_append] at h
  rw [List.append_nil] at h
  rcases List.mem_append.1 h with h | h
  · exact severity_ofCodes _ _ _ _ _ d h
  · unfold ofAxes at h
    split at h <;> cases h

/-- The error a block with faults is reported with. -/
def report? (i : Nat) (b : Block α) : Option Diagnostic :=
  if b.hasFaults then
    some ⟨i, b.line, .error, "; ".intercalate (b.faults.map BlockFault.message)⟩
  else none

/-- A block that is not executed is reported if it has faults, and that is all. -/
theorem ofBlock_eq_report (s : ModalState α) (i : Nat) {b : Block α}
    (h : b.isExecutable = false) : ofBlock s i b = ⟨[], (report? i b).toList, s⟩ := by
  unfold ofBlock report?
  split
  · rfl
  · rename_i hfaults
    have hempty : b.words.isEmpty = true := by
      simp only [Block.hasFaults, Bool.not_eq_true, Bool.not_eq_false'] at hfaults
      simpa [Block.isExecutable, hfaults] using h
    rw [if_pos hempty]
    rfl

/-- A block that is not executed yields errors at most. -/
theorem ofBlock_of_not_isExecutable (s : ModalState α) (i : Nat) {b : Block α}
    (h : b.isExecutable = false) :
    (ofBlock s i b).commands = [] ∧ (ofBlock s i b).finalState = s ∧
      (ofBlock s i b).reports .warning = [] := by
  rw [ofBlock_eq_report s i h]
  refine ⟨rfl, rfl, ?_⟩
  unfold report?
  split <;> rfl

/-- The errors of a block: one for all of its faults. -/
theorem errors_ofBlock (s : ModalState α) (i : Nat) (b : Block α) :
    (ofBlock s i b).reports .error = (report? i b).toList := by
  unfold ofBlock report?
  split
  · rfl
  · split
    · rfl
    · unfold reports
      rw [List.filter_eq_nil_iff.2]
      · rfl
      · intro d hd
        rw [severity_ofWords hd]
        decide

variable {deleted : Nat → Bool}

/-- Of a deleted block that is not executed nothing is left. -/
theorem withoutReports_of_deleted (s : ModalState α) {i : Nat} {b : Block α}
    (hi : deleted i = true) (hb : b.isExecutable = false) :
    (ofBlock s i b).withoutReports deleted = start s := by
  obtain ⟨hcommands, hstate, -⟩ := ofBlock_of_not_isExecutable s i hb
  have hreports : (ofBlock s i b).diagnostics.filter (fun d => !deleted d.block) = [] := by
    rw [List.filter_eq_nil_iff]
    intro d hd
    simp [block_of_mem_diagnostics hd, hi]
  simp only [withoutReports, hcommands, hreports, hstate, start]

/-- A block that stays keeps its diagnostics. -/
theorem withoutReports_of_kept (s : ModalState α) {i : Nat} (b : Block α)
    (hi : deleted i = false) : (ofBlock s i b).withoutReports deleted = ofBlock s i b := by
  have hreports : (ofBlock s i b).diagnostics.filter (fun d => !deleted d.block) =
      (ofBlock s i b).diagnostics := by
    rw [List.filter_eq_self]
    intro d hd
    simp [block_of_mem_diagnostics hd, hi]
  simp only [withoutReports, hreports]

/-! ## Programs -/

/-- Deleting blocks that are not executed, in the rest of a program. -/
theorem ofBlocksFrom_keepFrom (bs : List (Block α)) : ∀ (s : ModalState α) (i : Nat),
    Spares deleted i bs → ofBlocksFrom s (newIndex deleted i) (keepFrom deleted i bs) =
      ((ofBlocksFrom s i bs).withoutReports deleted).renumber (newIndex deleted) := by
  induction bs with
  | nil => exact fun _ _ _ => rfl
  | cons b bs ih =>
    intro s i h
    have hnext := ih (ofBlock s i b).finalState (i + 1) h.tail
    rw [ofBlocksFrom, withoutReports_append, renumber_append, ← hnext, newIndex_succ, keepFrom]
    cases hi : deleted i with
    | true =>
      have hb := h.head hi
      rw [withoutReports_of_deleted s hi hb, (ofBlock_of_not_isExecutable s i hb).2.1]
      rfl
    | false =>
      have hstate : (ofBlock s (newIndex deleted i) b).finalState =
          (ofBlock s i b).finalState := by
        rw [← ofBlock_renumber]
        rfl
      rw [withoutReports_of_kept s b hi, ofBlock_renumber, ← hstate]
      rfl

/-- **Deleting blocks that are not executed** renumbers what the other blocks yield and takes away
the diagnostics of the deleted ones. -/
theorem ofBlocks_keep {bs : List (Block α)} (h : Spares deleted 0 bs) :
    ofBlocks (keep deleted bs) =
      ((ofBlocks bs).withoutReports deleted).renumber (newIndex deleted) :=
  ofBlocksFrom_keepFrom bs .powerOn 0 h

/-- **No warning is lost** with the deleted blocks. -/
theorem warnings_withoutReports (bs : List (Block α)) : ∀ (s : ModalState α) (i : Nat),
    Spares deleted i bs → ((ofBlocksFrom s i bs).withoutReports deleted).reports .warning =
      (ofBlocksFrom s i bs).reports .warning := by
  induction bs with
  | nil => exact fun _ _ _ => rfl
  | cons b bs ih =>
    intro s i h
    rw [ofBlocksFrom, withoutReports_append, reports_append, reports_append, ih _ _ h.tail]
    cases hi : deleted i with
    | true =>
      have hb := h.head hi
      rw [withoutReports_of_deleted s hi hb, (ofBlock_of_not_isExecutable s i hb).2.2]
      rfl
    | false => rw [withoutReports_of_kept s b hi]

/-- **The errors of a program** are one for each block with faults. -/
theorem errors_ofBlocksFrom (bs : List (Block α)) : ∀ (s : ModalState α) (i : Nat),
    (ofBlocksFrom s i bs).reports .error = (bs.zipIdx i).filterMap fun p => report? p.2 p.1 := by
  induction bs with
  | nil => exact fun _ _ => rfl
  | cons b bs ih =>
    intro s i
    rw [ofBlocksFrom, reports_append, errors_ofBlock, ih, List.zipIdx_cons, List.filterMap_cons]
    cases report? i b <;> rfl

end Interpretation

end Machining
