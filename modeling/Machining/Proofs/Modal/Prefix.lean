import Machining.Modal.Interpretation

/-!
# Programs in parts

Interpreting is a fold over the blocks, so a program can be cut anywhere: the second part is
interpreted from the state the first part ends in, with the index at which it stands.

* `ofBlocksFrom_append` — a program cut in two;
* `ofBlocks_take_succ` — one block more.
-/

set_option autoImplicit false

namespace Machining.Interpretation

variable {α : Type}

/-! ## Joining runs -/

@[simp] theorem finalState_start (s : ModalState α) : (start s).finalState = s := rfl

@[simp] theorem commands_start (s : ModalState α) : (start s).commands = [] := rfl

@[simp] theorem diagnostics_start (s : ModalState α) : (start s).diagnostics = [] := rfl

@[simp] theorem finalState_append (a b : Interpretation α) :
    (a.append b).finalState = b.finalState := rfl

@[simp] theorem commands_append (a b : Interpretation α) :
    (a.append b).commands = a.commands ++ b.commands := rfl

@[simp] theorem diagnostics_append (a b : Interpretation α) :
    (a.append b).diagnostics = a.diagnostics ++ b.diagnostics := rfl

theorem append_assoc (a b c : Interpretation α) :
    (a.append b).append c = a.append (b.append c) := by
  simp only [append, List.append_assoc]

theorem append_start (a : Interpretation α) : a.append (start a.finalState) = a := by
  simp only [append, start, List.append_nil]

/-! ## Cutting a program -/

variable [Scalar α]

/-- **A program cut in two**: the second part goes on where the first one ends. -/
theorem ofBlocksFrom_append (s : ModalState α) (i : Nat) (bs cs : List (Block α)) :
    ofBlocksFrom s i (bs ++ cs) =
      (ofBlocksFrom s i bs).append
        (ofBlocksFrom (ofBlocksFrom s i bs).finalState (i + bs.length) cs) := by
  induction bs generalizing s i with
  | nil => rfl
  | cons b bs ih =>
    rw [List.cons_append, ofBlocksFrom, ofBlocksFrom, ih, append_assoc, finalState_append,
      List.length_cons, Nat.add_right_comm, Nat.add_assoc]

theorem ofBlocksFrom_singleton (s : ModalState α) (i : Nat) (b : Block α) :
    ofBlocksFrom s i [b] = ofBlock s i b := by
  rw [ofBlocksFrom, ofBlocksFrom, append_start]

/-- One block more adds what that block yields from the state reached before it. -/
theorem ofBlocks_take_succ {bs : List (Block α)} {n : Nat} {b : Block α} (h : bs[n]? = some b) :
    ofBlocks (bs.take (n + 1)) =
      (ofBlocks (bs.take n)).append (ofBlock (ofBlocks (bs.take n)).finalState n b) := by
  obtain ⟨hn, rfl⟩ := List.getElem?_eq_some_iff.1 h
  have hlen : (bs.take n).length = n := by rw [List.length_take]; omega
  unfold ofBlocks
  rw [List.take_succ_eq_append_getElem hn, ofBlocksFrom_append, ofBlocksFrom_singleton, hlen,
    Nat.zero_add]

end Machining.Interpretation
