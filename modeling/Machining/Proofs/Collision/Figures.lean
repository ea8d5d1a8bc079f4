import Mathlib.Data.List.Induction
import Machining.Collision.Report

/-!
# The figures of a collision report

The obstacles of a report are gathered in one pass over its events.  What the pass holds after any
number of events is a summary of these: every obstacle met so far, none that was not, each ahead of
those that were met later.  One event more keeps it so, and so a longer report goes on with the
list of the shorter one.  The counts of the two kinds of events share the events out.

* `Summary` — what a list of names says of events;
* `Summary.addName` — one event more;
* `obstacles_append` — events that follow others;
* `figures_exact` — the obstacles and the counts of a report.
-/

set_option autoImplicit false

namespace Machining.Report

variable {α : Type}

/-! ## Summaries -/

/-- The index of the first event with an obstacle of the name. -/
def firstHit (es : List (Event α)) (name : String) : Nat := es.findIdx fun e => e.obstacle == name

/-- The names of the obstacles of events, in the order of their first events. -/
structure Summary (es : List (Event α)) (names : List String) : Prop where
  mem_iff : ∀ name, name ∈ names ↔ ∃ e ∈ es, e.obstacle = name
  ordered : names.Pairwise fun a b => firstHit es a < firstHit es b

variable {es : List (Event α)} {names : List String}

theorem firstHit_lt_length_iff {name : String} :
    firstHit es name < es.length ↔ ∃ e ∈ es, e.obstacle = name := by
  unfold firstHit
  rw [List.findIdx_lt_length]
  simp

/-- An obstacle met before is met first where it was. -/
theorem firstHit_append_of_mem (fs : List (Event α)) {name : String}
    (h : ∃ e ∈ es, e.obstacle = name) : firstHit (es ++ fs) name = firstHit es name := by
  have hmet : firstHit es name < es.length := firstHit_lt_length_iff.2 h
  unfold firstHit at hmet ⊢
  rw [List.findIdx_append, if_pos hmet]

/-- A new obstacle is met first where its event is put. -/
theorem firstHit_concat_of_not_mem (e : Event α) (h : ¬∃ d ∈ es, d.obstacle = e.obstacle) :
    firstHit (es ++ [e]) e.obstacle = es.length := by
  have hnew : ¬firstHit es e.obstacle < es.length := fun hmet => h (firstHit_lt_length_iff.1 hmet)
  unfold firstHit at hnew ⊢
  rw [List.findIdx_append, if_neg hnew]
  simp [List.findIdx_cons]

theorem mem_addName {name other : String} :
    other ∈ addName names name ↔ other ∈ names ∨ other = name := by
  unfold addName
  split
  · rename_i hold
    rw [List.contains_iff_mem] at hold
    constructor
    · exact Or.inl
    · rintro (h | rfl)
      · exact h
      · exact hold
  · simp

theorem summary_nil : Summary ([] : List (Event α)) [] := by
  constructor
  · simp
  · exact List.Pairwise.nil

namespace Summary

/-- No name stands in a summary twice, for it would be ahead of itself. -/
theorem nodup (h : Summary es names) : names.Nodup := by
  refine h.ordered.imp ?_
  intro a b hab heq
  subst heq
  exact Nat.lt_irrefl _ hab

/-- Among more events the names gathered so far keep their order. -/
theorem ordered_append (h : Summary es names) (fs : List (Event α)) :
    names.Pairwise fun a b => firstHit (es ++ fs) a < firstHit (es ++ fs) b := by
  refine h.ordered.imp_of_mem ?_
  intro a b ha hb hab
  rw [firstHit_append_of_mem fs ((h.mem_iff a).1 ha),
    firstHit_append_of_mem fs ((h.mem_iff b).1 hb)]
  exact hab

/-- **One event more** puts the name of its obstacle at the end unless it is there. -/
theorem addName (h : Summary es names) (e : Event α) :
    Summary (es ++ [e]) (addName names e.obstacle) := by
  constructor
  · intro name
    rw [mem_addName, h.mem_iff]
    simp [or_and_right, exists_or, eq_comm]
  · unfold Report.addName
    split
    · exact h.ordered_append [e]
    · rename_i hnew
      rw [List.contains_iff_mem, h.mem_iff] at hnew
      rw [List.pairwise_append]
      refine ⟨h.ordered_append [e], List.pairwise_singleton _ _, ?_⟩
      intro a ha b hb
      have hmet := (h.mem_iff a).1 ha
      rw [List.mem_singleton.1 hb, firstHit_concat_of_not_mem e hnew, firstHit_append_of_mem _ hmet]
      exact firstHit_lt_length_iff.2 hmet

end Summary

/-! ## Obstacles -/

theorem obstacles_concat (es : List (Event α)) (e : Event α) :
    obstacles (es ++ [e]) = addName (obstacles es) e.obstacle := by
  simp [obstacles]

/-- **The obstacles of a report** are a summary of its events. -/
theorem summary_obstacles (es : List (Event α)) : Summary es (obstacles es) := by
  induction es using List.reverseRecOn with
  | nil => exact summary_nil
  | append_singleton es e ih =>
    rw [obstacles_concat]
    exact ih.addName e

/-- Names that follow others are those that the others lack, before a name is added and after. -/
theorem addName_append_filter (xs ys : List String) (name : String) :
    addName (xs ++ ys.filter (· ∉ xs)) name = xs ++ (addName ys name).filter (· ∉ xs) := by
  unfold addName
  by_cases hx : name ∈ xs
  · by_cases hy : name ∈ ys
    · simp [hx, hy]
    · simp [hx, hy]
  · by_cases hy : name ∈ ys
    · simp [hx, hy]
    · simp [hx, hy]

/-- **Events that follow others** add the obstacles that are new, in the order of these events. -/
theorem obstacles_append (es fs : List (Event α)) :
    obstacles (es ++ fs) = obstacles es ++ (obstacles fs).filter (· ∉ obstacles es) := by
  induction fs using List.reverseRecOn with
  | nil => simp [obstacles]
  | append_singleton fs e ih =>
    rw [← List.append_assoc, obstacles_concat, ih, obstacles_concat, addName_append_filter]

/-! ## Counts -/

theorem count_append (es fs : List (Event α)) (kind : EventKind) :
    count (es ++ fs) kind = count es kind + count fs kind := List.countP_append

/-- Every event is of one of the two kinds. -/
theorem count_travelLimit_add_count_collision (es : List (Event α)) :
    count es .travelLimit + count es .collision = es.length := by
  rw [List.length_eq_countP_add_countP fun e : Event α => e.kind == .travelLimit]
  unfold count
  congr 1
  apply List.countP_congr
  intro e _
  cases e.kind with
  | travelLimit => decide
  | collision => decide

/-- **The obstacles and the counts of a report.**  The list of obstacles has no name twice, has the
names of the obstacles of the events and no others, and has them in the order of the first events
they are met in.  Events that follow put names at its end, those that are new.  Travel limits and
collisions are all the events there are, and the events that follow are counted on top. -/
theorem figures_exact (es fs : List (Event α)) :
    (obstacles es).Nodup ∧
    (∀ name, name ∈ obstacles es ↔ ∃ e ∈ es, e.obstacle = name) ∧
    ((obstacles es).Pairwise fun a b =>
      (es.findIdx fun e => e.obstacle == a) < es.findIdx fun e => e.obstacle == b) ∧
    obstacles (es ++ fs) = obstacles es ++ (obstacles fs).filter (· ∉ obstacles es) ∧
    count es .travelLimit + count es .collision = es.length ∧
    ∀ kind, count (es ++ fs) kind = count es kind + count fs kind := by
  have hsummary := summary_obstacles es
  exact ⟨hsummary.nodup, hsummary.mem_iff, hsummary.ordered, obstacles_append es fs,
    count_travelLimit_add_count_collision es, count_append es fs⟩

end Machining.Report
