import Machining.Modal.Interpretation

/-!
# Modal groups

The codes fall into groups.  A group is a letter and a list of codes, each with the choice it
makes, and of the codes of one group the last one counts.  Two groups never share a code, so a
code sets the field of its own group and no other.

* `ModalCode.codes`, `of?_eq_none_iff` — the supported codes of a letter;
* `ModalCode.of?_eq_toolChange_iff` — the one code that chooses nothing;
* `ModalGroup.Reads` — a group says which of the supported codes are its own;
* `ModalGroup.Governs` — a field of the state follows a group, and `getD_apply` is all a code can
  do to it.
-/

set_option autoImplicit false

namespace Machining

/-! ## Supported codes -/

namespace ModalCode

/-- The codes of G words. -/
def generalCodes : List Int :=
  [0, 1, 2, 3, 17, 18, 19, 20, 21, 54, 55, 56, 57, 58, 59, 90, 91, 94]

/-- The codes of M words. -/
def miscellaneousCodes : List Int := [3, 4, 5, 6]

/-- The codes that are supported after a letter. -/
def codes (letter : Char) : List Int :=
  if letter = 'G' then generalCodes
  else if letter = 'M' then miscellaneousCodes
  else []

theorem ofGeneral?_eq_none {code : Int} (h : code ∉ generalCodes) : ofGeneral? code = none := by
  simp only [generalCodes, List.mem_cons, List.not_mem_nil, not_or, or_false] at h
  unfold ofGeneral?
  repeat rw [if_neg (by omega)]

theorem ofMiscellaneous?_eq_none {code : Int} (h : code ∉ miscellaneousCodes) :
    ofMiscellaneous? code = none := by
  simp only [miscellaneousCodes, List.mem_cons, List.not_mem_nil, not_or, or_false] at h
  unfold ofMiscellaneous?
  repeat rw [if_neg (by omega)]

theorem of?_of_ne {letter : Char} (hG : letter ≠ 'G') (hM : letter ≠ 'M') (code : Int) :
    of? letter code = none := by
  simp [of?, hG, hM]

/-- **A code is supported if it is listed for its letter**, and only then. -/
theorem of?_eq_none_iff {letter : Char} {code : Int} :
    of? letter code = none ↔ code ∉ codes letter := by
  have hgeneral : ∀ n ∈ generalCodes, ofGeneral? n ≠ none := by decide
  have hmiscellaneous : ∀ n ∈ miscellaneousCodes, ofMiscellaneous? n ≠ none := by decide
  by_cases hG : letter = 'G'
  · subst hG
    show ofGeneral? code = none ↔ code ∉ generalCodes
    constructor
    · intro h hn
      exact hgeneral code hn h
    · exact ofGeneral?_eq_none
  · by_cases hM : letter = 'M'
    · subst hM
      show ofMiscellaneous? code = none ↔ code ∉ miscellaneousCodes
      constructor
      · intro h hn
        exact hmiscellaneous code hn h
      · exact ofMiscellaneous?_eq_none
    · simp [of?_of_ne hG hM, codes, hG, hM]

/-- A tool change is asked for by one code of one letter. -/
theorem of?_eq_toolChange_iff {letter : Char} {code : Int} :
    of? letter code = some .toolChange ↔ letter = 'M' ∧ code = 6 := by
  have hgeneral : ∀ n ∈ generalCodes, ofGeneral? n ≠ some .toolChange := by decide
  have hmiscellaneous : ∀ n ∈ miscellaneousCodes,
      ofMiscellaneous? n = some .toolChange → n = 6 := by decide
  constructor
  · intro h
    have hcode : code ∈ codes letter := by
      refine Decidable.byContradiction fun hn => ?_
      rw [of?_eq_none_iff.2 hn] at h
      cases h
    by_cases hG : letter = 'G'
    · subst hG
      exact absurd h (hgeneral code hcode)
    · by_cases hM : letter = 'M'
      · subst hM
        exact ⟨rfl, hmiscellaneous code hcode h⟩
      · rw [of?_of_ne hG hM] at h
        cases h
  · rintro ⟨rfl, rfl⟩
    rfl

end ModalCode

/-! ## Groups -/

/-- Choices of which one is in force at a time: the letter of their codes, and each code with the
choice it makes. -/
structure ModalGroup (β : Type) where
  letter : Char
  choices : List (Int × β)

namespace ModalGroup

def motion : ModalGroup MotionMode :=
  ⟨'G', [(0, .rapid), (1, .linear), (2, .clockwiseArc), (3, .counterclockwiseArc)]⟩

def plane : ModalGroup Plane := ⟨'G', [(17, .xy), (18, .xz), (19, .yz)]⟩

def unit : ModalGroup LengthUnit := ⟨'G', [(20, .inch), (21, .millimetre)]⟩

def workOffset : ModalGroup String :=
  ⟨'G', [(54, "G54"), (55, "G55"), (56, "G56"), (57, "G57"), (58, "G58"), (59, "G59")]⟩

def distance : ModalGroup DistanceMode := ⟨'G', [(90, .absolute), (91, .incremental)]⟩

def spindle : ModalGroup SpindleMode :=
  ⟨'M', [(3, .clockwise), (4, .counterclockwise), (5, .off)]⟩

variable {β : Type}

/-- The choice a code makes in the group. -/
def choice? (g : ModalGroup β) (letter : Char) (code : Int) : Option β :=
  if letter = g.letter then g.choices.lookup code else none

theorem mem_of_choice? {g : ModalGroup β} {letter : Char} {code : Int} {x : β}
    (h : g.choice? letter code = some x) : letter = g.letter ∧ (code, x) ∈ g.choices := by
  unfold choice? at h
  split at h
  · rename_i hletter
    obtain ⟨before, after, hsplit, -⟩ := List.lookup_eq_some_iff.1 h
    exact ⟨hletter, by simp [hsplit]⟩
  · cases h

/-- The group holds exactly the supported codes from which `read` takes a choice.  The parts are
closed checks of the lists; `choice?_eq` is what they amount to. -/
structure Reads (g : ModalGroup β) (read : ModalCode → Option β) : Prop where
  supported : ∀ p ∈ g.choices, p.1 ∈ ModalCode.codes g.letter
  general : ∀ n ∈ ModalCode.generalCodes, g.choice? 'G' n = (ModalCode.ofGeneral? n).bind read
  miscellaneous : ∀ n ∈ ModalCode.miscellaneousCodes,
    g.choice? 'M' n = (ModalCode.ofMiscellaneous? n).bind read

/-- **A group chooses what is read from the code**, for every letter and every whole number. -/
theorem Reads.choice?_eq {g : ModalGroup β} {read : ModalCode → Option β} (h : g.Reads read)
    (letter : Char) (code : Int) :
    g.choice? letter code = (ModalCode.of? letter code).bind read := by
  by_cases hcode : code ∈ ModalCode.codes letter
  · by_cases hG : letter = 'G'
    · subst hG
      exact h.general code hcode
    · by_cases hM : letter = 'M'
      · subst hM
        exact h.miscellaneous code hcode
      · simp [ModalCode.codes, hG, hM] at hcode
  · rw [ModalCode.of?_eq_none_iff.2 hcode]
    cases hchoice : g.choice? letter code with
    | none => rfl
    | some x =>
      obtain ⟨rfl, hmem⟩ := mem_of_choice? hchoice
      exact absurd (h.supported _ hmem) hcode

theorem reads_motion : motion.Reads fun | .motion m => some m | _ => none :=
  ⟨by decide, by decide, by decide⟩

theorem reads_plane : plane.Reads fun | .plane p => some p | _ => none :=
  ⟨by decide, by decide, by decide⟩

theorem reads_unit : unit.Reads fun | .unit u => some u | _ => none :=
  ⟨by decide, by decide, by decide⟩

theorem reads_workOffset : workOffset.Reads fun | .workOffset name => some name | _ => none :=
  ⟨by decide, by decide +kernel, by decide⟩

theorem reads_distance : distance.Reads fun | .distance d => some d | _ => none :=
  ⟨by decide, by decide, by decide⟩

theorem reads_spindle : spindle.Reads fun | .spindle s => some s | _ => none :=
  ⟨by decide, by decide, by decide⟩

/-! ## Fields of the state -/

section Fields

variable {α : Type}

/-- The field of the state that follows a group: a supported code leaves there what the group
chooses, or what was there before. -/
structure Governs (g : ModalGroup β) (field : ModalState α → β) : Prop where
  getD_apply : ∀ (s : ModalState α) (letter : Char) (code : Int) (c : ModalCode),
    ModalCode.of? letter code = some c →
      field (c.apply s) = (g.choice? letter code).getD (field s)
  choice?_of_none : ∀ (letter : Char) (code : Int),
    ModalCode.of? letter code = none → g.choice? letter code = none

/-- What a group reads governs every field on which codes act by that reading. -/
theorem Reads.governs {g : ModalGroup β} {read : ModalCode → Option β} (h : g.Reads read)
    {field : ModalState α → β}
    (hfield : ∀ s c, field (ModalCode.apply s c) = (read c).getD (field s)) :
    g.Governs field := by
  constructor
  · intro s letter code c hc
    rw [hfield, h.choice?_eq, hc, Option.bind_some]
  · intro letter code hnone
    rw [h.choice?_eq, hnone, Option.bind_none]

theorem governs_motion : motion.Governs (ModalState.motionMode (α := α)) :=
  reads_motion.governs fun _ c => by cases c <;> rfl

theorem governs_plane : plane.Governs (ModalState.plane (α := α)) :=
  reads_plane.governs fun _ c => by cases c <;> rfl

theorem governs_unit : unit.Governs (ModalState.unit (α := α)) :=
  reads_unit.governs fun _ c => by cases c <;> rfl

theorem governs_workOffset : workOffset.Governs (ModalState.workOffset (α := α)) :=
  reads_workOffset.governs fun _ c => by cases c <;> rfl

theorem governs_distance : distance.Governs (ModalState.distanceMode (α := α)) :=
  reads_distance.governs fun _ c => by cases c <;> rfl

theorem governs_spindle : spindle.Governs (ModalState.spindleMode (α := α)) :=
  reads_spindle.governs fun _ c => by cases c <;> rfl

end Fields

end ModalGroup

end Machining
