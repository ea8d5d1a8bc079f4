import Machining.Proofs.Collision.Contact

/-!
# Wider tools, more fixtures and longer travel

A wider tool touches what a narrower one touches, and an axis with longer travel is left at no
point where it was not left before.  So a wider tool and more fixtures only add collisions to the
events of a trajectory, in between the others, and longer travel only takes away events of the
envelope.  All of this is read with exact arithmetic.

* `Box.touches_mono`, `Axes.Exceeded.mono` — one box and one point;
* `Event.Gains` — events of one kind are put in between;
* `Event.gains_flatMap` — what each sample gains, a trajectory gains;
* `Event.detect_monotone` — the whole statement for a machine and a trajectory.
-/

set_option autoImplicit false

namespace Machining

/-! ## Boxes and points -/

/-- A wider cube touches what a narrower one touches. -/
theorem Box.touches_mono {b : Box ℝ} {p : Point ℝ} {r r' : ℝ} (hr : r ≤ r')
    (h : b.touches p r = true) : b.touches p r' = true := by
  rw [touches_iff] at h ⊢
  intro i
  obtain ⟨hmin, hmax⟩ := h i
  constructor
  · linarith
  · linarith

/-- The travel of each axis reaches at least as far as that of another machine. -/
def Axes.Widens (a b : Axes ℝ) : Prop :=
  ∀ i, (a.limits i).min ≤ (b.limits i).min ∧ (b.limits i).max ≤ (a.limits i).max

/-- A point past the limits of a longer travel is past those of a shorter one. -/
theorem Axes.Exceeded.mono {a b : Axes ℝ} (hab : a.Widens b) {p : Point ℝ} (h : a.Exceeded p) :
    b.Exceeded p := by
  obtain ⟨i, hbelow | habove⟩ := h
  · exact ⟨i, .inl (hbelow.trans_le (hab i).1)⟩
  · exact ⟨i, .inr ((hab i).2.trans_lt habove)⟩

namespace Event

/-! ## Events put in between -/

/-- The events `fs` are the events `es` in their order, with events of one kind put in between. -/
structure Gains (kind : EventKind) (es fs : List (Event ℝ)) : Prop where
  sublist : es.Sublist fs
  added : ∃ added, fs.Perm (es ++ added) ∧ ∀ e ∈ added, e.kind = kind
  others_eq : fs.filter (·.kind ≠ kind) = es.filter (·.kind ≠ kind)

variable {kind : EventKind}

/-- Of a list with the same events of all other kinds, only events of the kind can be left over. -/
theorem gains_of_sublist {es fs : List (Event ℝ)} (hsub : es.Sublist fs)
    (hothers : fs.filter (·.kind ≠ kind) = es.filter (·.kind ≠ kind)) : Gains kind es fs := by
  refine ⟨hsub, ?_, hothers⟩
  obtain ⟨added, hperm⟩ := hsub.exists_perm_append
  refine ⟨added, hperm, ?_⟩
  have hcounts := (hperm.filter (·.kind ≠ kind)).length_eq
  rw [List.filter_append, List.length_append, hothers] at hcounts
  have hnone : added.filter (·.kind ≠ kind) = [] := List.length_eq_zero_iff.1 (by omega)
  intro e he
  simpa using List.filter_eq_nil_iff.1 hnone e he

/-- **What each sample gains, a trajectory gains.** -/
theorem gains_flatMap {f g : Sample ℝ → List (Event ℝ)} (xs : List (Sample ℝ))
    (h : ∀ x, (f x).Sublist (g x) ∧
      (g x).filter (·.kind ≠ kind) = (f x).filter (·.kind ≠ kind)) :
    Gains kind (xs.flatMap f) (xs.flatMap g) := by
  refine gains_of_sublist (List.Sublist.flatMap_right xs fun x _ => (h x).1) ?_
  rw [List.filter_flatMap, List.filter_flatMap]
  exact congrArg (xs.flatMap ·) (funext fun x => (h x).2)

/-! ## One sample -/

section Any

variable {α : Type}

theorem filter_kind_of_ne {es : List (Event α)} (h : ∀ e ∈ es, e.kind ≠ kind) :
    es.filter (·.kind ≠ kind) = es :=
  List.filter_eq_self.2 fun e he => decide_eq_true (h e he)

theorem filter_kind_of_eq {es : List (Event α)} (h : ∀ e ∈ es, e.kind = kind) :
    es.filter (·.kind ≠ kind) = [] :=
  List.filter_eq_nil_iff.2 fun e he => by simp [h e he]

variable [Scalar α]

/-- The event of the envelope at a sample, if there is one. -/
def travelEvents (m : Machine α) (x : Sample α) : List (Event α) :=
  if m.envelope.contains x.position then [] else [ofSample .travelLimit envelopeName x]

/-- The events of the fixtures at a sample. -/
def collisionEvents (m : Machine α) (x : Sample α) : List (Event α) :=
  (m.fixtures.filter fun f => f.box.touches x.position m.tool.radius).map fun f =>
    ofSample .collision f.name x

variable (m : Machine α) (x : Sample α)

theorem atSample_eq : atSample m x = travelEvents m x ++ collisionEvents m x := rfl

theorem kind_of_mem_travelEvents {e : Event α} (he : e ∈ travelEvents m x) :
    e.kind = .travelLimit := by
  unfold travelEvents at he
  split at he
  · cases he
  · rw [List.mem_singleton] at he
    rw [he]
    rfl

theorem kind_of_mem_collisionEvents {e : Event α} (he : e ∈ collisionEvents m x) :
    e.kind = .collision := by
  obtain ⟨f, -, rfl⟩ := List.mem_map.1 he
  rfl

theorem filter_atSample_collision :
    (atSample m x).filter (·.kind ≠ .collision) = travelEvents m x := by
  have htravel : ∀ e ∈ travelEvents m x, e.kind ≠ .collision := by
    intro e he
    rw [kind_of_mem_travelEvents m x he]
    decide
  rw [atSample_eq, List.filter_append, filter_kind_of_ne htravel,
    filter_kind_of_eq fun _ => kind_of_mem_collisionEvents m x, List.append_nil]

theorem filter_atSample_travelLimit :
    (atSample m x).filter (·.kind ≠ .travelLimit) = collisionEvents m x := by
  have hcollision : ∀ e ∈ collisionEvents m x, e.kind ≠ .travelLimit := by
    intro e he
    rw [kind_of_mem_collisionEvents m x he]
    decide
  rw [atSample_eq, List.filter_append, filter_kind_of_ne hcollision,
    filter_kind_of_eq fun _ => kind_of_mem_travelEvents m x, List.nil_append]

end Any

variable (m : Machine ℝ) (x : Sample ℝ)

/-- A wider tool and more fixtures add events to those of the fixtures. -/
theorem collisionEvents_sublist {d : ℝ} {fs : List (Fixture ℝ)} (hd : m.tool.diameter ≤ d)
    (hfs : m.fixtures.Sublist fs) :
    (collisionEvents m x).Sublist (collisionEvents { m with tool := ⟨d⟩, fixtures := fs } x) := by
  have hradius : m.tool.radius ≤ Tool.radius ⟨d⟩ := by
    rw [Tool.radius_real, Tool.radius_real]
    exact div_le_div_of_nonneg_right hd zero_le_two
  unfold collisionEvents
  refine List.Sublist.map _ ((List.Sublist.filter _ hfs).trans ?_)
  exact List.monotone_filter_right fs fun f hf => Box.touches_mono hradius hf

/-- Longer travel takes away the event of the envelope, or leaves it. -/
theorem travelEvents_sublist {a : Axes ℝ} (ha : a.Widens m.axes) :
    (travelEvents { m with axes := a } x).Sublist (travelEvents m x) := by
  unfold travelEvents
  by_cases hpast : a.Exceeded x.position
  · have hpast' : ¬m.envelope.contains x.position = true :=
      fun h => Box.contains_envelope_iff.1 h (hpast.mono ha)
    rw [if_neg hpast']
    split
    · exact List.nil_sublist _
    · exact List.Sublist.refl _
  · have hinside : ({ m with axes := a } : Machine ℝ).envelope.contains x.position = true :=
      Box.contains_envelope_iff.2 hpast
    rw [if_pos hinside]
    exact List.nil_sublist _

/-! ## Trajectories -/

/-- **A wider tool or more fixtures never hide an event**, and longer travel never brings one.
With a tool of at least the diameter, whatever it is, and fixtures put in anywhere, a trajectory
has the events that it had in the same order, and besides them collisions only.  With travel that
reaches at least as far along each axis it has the collisions that it had, and of the events of the
envelope some. -/
theorem detect_monotone (xs : List (Sample ℝ)) :
    (∀ (d : ℝ) (fs : List (Fixture ℝ)), m.tool.diameter ≤ d → m.fixtures.Sublist fs →
      Gains .collision (detect m xs) (detect { m with tool := ⟨d⟩, fixtures := fs } xs)) ∧
    ∀ a : Axes ℝ, a.Widens m.axes →
      Gains .travelLimit (detect { m with axes := a } xs) (detect m xs) := by
  constructor
  · intro d fs hd hfs
    refine gains_flatMap xs fun x => ⟨?_, ?_⟩
    · exact List.Sublist.append (List.Sublist.refl _) (collisionEvents_sublist m x hd hfs)
    · rw [filter_atSample_collision, filter_atSample_collision]
      rfl
  · intro a ha
    refine gains_flatMap xs fun x => ⟨?_, ?_⟩
    · exact List.Sublist.append (travelEvents_sublist m x ha) (List.Sublist.refl _)
    · rw [filter_atSample_travelLimit, filter_atSample_travelLimit]
      rfl

/-- Of two clamps that meet, the machine has the further one only, and a tool without extent. -/
def bareMachine {α : Type} [Scalar α] : Machine α :=
  { shortMachine with tool := ⟨0⟩, fixtures := [⟨"clamp", ⟨⟨4, 0, 0⟩, ⟨5, 1, 1⟩⟩⟩] }

/-- A tool of diameter 2 and the nearer clamp add collisions before, between and after the events
of the bare machine, and one more unit of travel takes one event away. -/
theorem detect_monotone_bareMachine :
    let m : Machine ℝ := bareMachine
    let wide : Machine ℝ := { m with tool := ⟨2⟩, fixtures := shortMachine.fixtures }
    let a : Axes ℝ := ⟨⟨0, 3, 500, 3000⟩, ⟨0, 2, 500, 3000⟩, ⟨0, 2, 500, 3000⟩⟩
    let xs : List (Sample ℝ) := [sampleAt 2, sampleAt 3, sampleAt 4]
    let found := fun m => (detect m xs).map fun e => (e.kind, e.point.x)
    (m.tool.diameter ≤ 2 ∧ m.fixtures.Sublist shortMachine.fixtures ∧ a.Widens m.axes) ∧
    found m = [(.travelLimit, 3), (.travelLimit, 4), (.collision, 4)] ∧
    found wide = [(.collision, 2), (.travelLimit, 3), (.collision, 3), (.collision, 3),
      (.travelLimit, 4), (.collision, 4), (.collision, 4)] ∧
    found { m with axes := a } = [(.travelLimit, 4), (.collision, 4)] ∧
    Gains .collision (detect m xs) (detect wide xs) ∧
    Gains .travelLimit (detect { m with axes := a } xs) (detect m xs) := by
  intro m wide a xs found
  have hdiameter : m.tool.diameter ≤ 2 := by
    simp only [m, bareMachine, Scalar.ofNat_real, Scalar.zero_real]
    norm_num
  have hfixtures : m.fixtures.Sublist shortMachine.fixtures :=
    List.Sublist.cons _ (List.Sublist.refl _)
  have hwidens : a.Widens m.axes := by
    intro i
    cases i with
    | x | y | z =>
      simp only [a, m, bareMachine, shortMachine, Axes.limits, Scalar.ofNat_real, Scalar.zero_real]
      norm_num
  obtain ⟨hwider, hlonger⟩ := detect_monotone m xs
  refine ⟨⟨hdiameter, hfixtures, hwidens⟩, ?_, ?_, ?_, hwider 2 _ hdiameter hfixtures,
    hlonger a hwidens⟩
  all_goals
    simp only [found, xs, wide, a, m, detect, List.flatMap_cons, List.flatMap_nil,
      List.filter_cons, List.filter_nil, atSample, bareMachine, shortMachine, sampleAt, ofSample,
      Machine.envelope, Box.contains, Box.touches, Tool.radius, Scalar.ofNat_real, Scalar.one_real,
      Scalar.zero_real]
    norm_num

end Event

end Machining
