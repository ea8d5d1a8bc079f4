import Machining.Text.Csv

/-!
# Reading comma separated fields

A reader goes through a text once.  Line feeds end records and commas end fields; a field that
begins with a quote goes on to its matching quote, and two quotes in a row inside of it stand for
one.  The reader is strict: a quote inside a bare field, a carriage return
outside quotes, and anything but a separator after a closing quote are refused.

* `Reader.step?`, `read?` — the reader, a state machine over the characters;
* `Reader.Shows` — what a reader has understood of the record it is in;
* `read?_intercalate` — records of written fields are read back, whatever the fields hold.
-/

set_option autoImplicit false

namespace Machining.Csv

/-! ## The reader -/

/-- Where a reader stands in a field: at its beginning, inside one without quotes, between quotes,
or after a quote between quotes, which is the closing one or the first of two. -/
inductive Place
  | opening
  | bare
  | quoted
  | closing
  deriving DecidableEq

/-- What a reader has read: the records that have ended, the fields of the present one that have,
the present field so far, and where in it the reader stands. -/
structure Reader where
  records : List (List String)
  fields : List String
  field : List Char
  place : Place

namespace Reader

/-- The reader at the beginning of a field. -/
def atField (records : List (List String)) (fields : List String) : Reader :=
  ⟨records, fields, [], .opening⟩

/-- The present record, if its last field ends here. -/
def record (r : Reader) : List String := r.fields ++ [String.ofList r.field]

/-- A separator ends the field; no other character can follow. -/
def separate? (r : Reader) (c : Char) : Option Reader :=
  if c = ',' then some (atField r.records r.record)
  else if c = '\n' then some (atField (r.records ++ [r.record]) [])
  else none

/-- A character outside quotes. -/
def bare? (r : Reader) (c : Char) : Option Reader :=
  if isSpecial c then r.separate? c else some { r with field := r.field ++ [c], place := .bare }

/-- The reader after one more character, unless the character cannot stand there. -/
def step? (r : Reader) (c : Char) : Option Reader :=
  match r.place with
  | .opening => if c = '"' then some { r with place := .quoted } else r.bare? c
  | .bare => r.bare? c
  | .quoted =>
    if c = '"' then some { r with place := .closing } else some { r with field := r.field ++ [c] }
  | .closing =>
    if c = '"' then some { r with field := r.field ++ [c], place := .quoted } else r.separate? c

/-- The records at the end of the text, unless a quote has been left open. -/
def finish? (r : Reader) : Option (List (List String)) :=
  if r.place = .quoted then none else some (r.records ++ [r.record])

end Reader

/-- The records of a text, each a list of fields, or none if it is not well formed. -/
def read? (s : String) : Option (List (List String)) :=
  (s.toList.foldlM Reader.step? (.atField [] [])).bind Reader.finish?

/-! ## Fields -/

namespace Reader

/-- The reader is outside quotes and has the fields of the present record so far. -/
structure Shows (r : Reader) (records : List (List String)) (record : List String) : Prop where
  place : r.place ≠ .quoted
  records : r.records = records
  record : r.record = record

variable {r : Reader} {records : List (List String)} {fields : List String}

/-- A separator that may stand where a field can end does end it. -/
theorem step?_of_separator (h : r.place ≠ .quoted) {c : Char} (hc : c = ',' ∨ c = '\n') :
    r.step? c = r.separate? c := by
  have hquote : c ≠ '"' := by
    rintro rfl
    simp at hc
  have hspecial : isSpecial c = true := by
    rcases hc with rfl | rfl
    · rfl
    · rfl
  unfold step?
  split
  · rw [if_neg hquote, bare?, if_pos hspecial]
  · rw [bare?, if_pos hspecial]
  · rename_i hplace
    exact absurd hplace h
  · rw [if_neg hquote]

theorem Shows.step?_comma (h : r.Shows records fields) :
    r.step? ',' = some (atField records fields) := by
  rw [step?_of_separator h.place (.inl rfl), separate?, if_pos rfl, h.records, h.record]

theorem Shows.step?_lineFeed (h : r.Shows records fields) :
    r.step? '\n' = some (atField (records ++ [fields]) []) := by
  rw [step?_of_separator h.place (.inr rfl), separate?, if_neg (by decide), if_pos rfl, h.records,
    h.record]

theorem Shows.finish? (h : r.Shows records fields) :
    r.finish? = some (records ++ [fields]) := by
  rw [Reader.finish?, if_neg h.place, h.records, h.record]

/-- Between quotes a quote written twice is read as one, and all else as it is. -/
theorem foldlM_doubleQuotes (cs : List Char) : ∀ read : List Char,
    (doubleQuotes cs).foldlM step? ⟨records, fields, read, .quoted⟩ =
      some ⟨records, fields, read ++ cs, .quoted⟩ := by
  induction cs with
  | nil =>
    intro read
    rw [List.append_nil]
    rfl
  | cons c cs ih =>
    intro read
    have hrest := ih (read ++ [c])
    rw [List.append_assoc, List.singleton_append] at hrest
    unfold doubleQuotes
    split
    · rename_i hquote
      subst hquote
      exact hrest
    · rename_i hquote
      rw [List.foldlM_cons]
      simp only [step?, if_neg hquote]
      exact hrest

/-- Characters that need no quotes are read as they are. -/
theorem foldlM_bare {cs : List Char} (hcs : cs.any isSpecial = false) :
    ∀ {r : Reader}, r.place = .opening ∨ r.place = .bare →
      ∃ place, place ≠ .quoted ∧
        cs.foldlM step? r = some ⟨r.records, r.fields, r.field ++ cs, place⟩ := by
  induction cs with
  | nil =>
    intro r hr
    refine ⟨r.place, ?_, ?_⟩
    · rcases hr with hr | hr
      · simp [hr]
      · simp [hr]
    · rw [List.append_nil]
      rfl
  | cons c cs ih =>
    intro r hr
    rw [List.any_cons, Bool.or_eq_false_iff] at hcs
    obtain ⟨hc, hcs⟩ := hcs
    have hquote : c ≠ '"' := by
      rintro rfl
      cases hc
    have hstep : r.step? c = some ⟨r.records, r.fields, r.field ++ [c], .bare⟩ := by
      have hbare : r.bare? c = some ⟨r.records, r.fields, r.field ++ [c], .bare⟩ := by
        rw [bare?, if_neg (by simp [hc])]
      unfold step?
      rcases hr with hr | hr
      · rw [hr]
        simp only [if_neg hquote, hbare]
      · rw [hr]
        simp only [hbare]
    obtain ⟨place, hplace, hread⟩ :=
      ih hcs (r := ⟨r.records, r.fields, r.field ++ [c], .bare⟩) (.inr rfl)
    refine ⟨place, hplace, ?_⟩
    rw [List.foldlM_cons, hstep]
    simpa using hread

/-- **A written field is read back.** -/
theorem exists_shows_field (records : List (List String)) (fields : List String) (s : String) :
    ∃ r, (fieldText s).toList.foldlM step? (atField records fields) = some r ∧
      r.Shows records (fields ++ [s]) := by
  rw [fieldText, String.toList_ofList, Csv.field]
  -- what is quoted ends at its closing quote, anything else in the middle of a bare field
  cases hspecial : s.toList.any isSpecial with
  | true =>
    refine ⟨⟨records, fields, s.toList, .closing⟩, ?_, nofun, rfl, ?_⟩
    · rw [if_pos rfl, List.cons_append, List.foldlM_cons]
      show (doubleQuotes s.toList ++ ['"']).foldlM step? ⟨records, fields, [], .quoted⟩ = _
      rw [List.foldlM_append, foldlM_doubleQuotes]
      rfl
    · rw [record, String.ofList_toList]
  | false =>
    obtain ⟨place, hplace, hread⟩ :=
      foldlM_bare hspecial (r := atField records fields) (.inl rfl)
    refine ⟨_, hread, hplace, rfl, ?_⟩
    show fields ++ [String.ofList ([] ++ s.toList)] = fields ++ [s]
    rw [List.nil_append, String.ofList_toList]

end Reader

/-! ## Records -/

/-- A record as it is written. -/
def recordText (fields : List String) : String := ",".intercalate (fields.map fieldText)

namespace Reader

theorem exists_shows_record (records : List (List String)) (s : String) (ss : List String) :
    ∀ fields : List String, ∃ r,
      (recordText (s :: ss)).toList.foldlM step? (atField records fields) = some r ∧
        r.Shows records (fields ++ s :: ss) := by
  induction ss generalizing s with
  | nil =>
    intro fields
    exact exists_shows_field records fields s
  | cons t ss ih =>
    intro fields
    obtain ⟨r, hr, hshows⟩ := exists_shows_field records fields s
    obtain ⟨q, hq, hrest⟩ := ih t (fields ++ [s])
    have htext : (recordText (s :: t :: ss)).toList =
        (fieldText s).toList ++ ',' :: (recordText (t :: ss)).toList := by
      simp [recordText, String.intercalate_cons_cons]
    refine ⟨q, ?_, ?_⟩
    · rw [htext, List.foldlM_append, hr]
      show (',' :: (recordText (t :: ss)).toList).foldlM step? r = _
      rw [List.foldlM_cons, hshows.step?_comma]
      exact hq
    · rwa [List.append_assoc, List.singleton_append] at hrest

/-- Written records are read back, after others. -/
theorem read_records (fields : List String) (rest : List (List String)) (hfields : fields ≠ [])
    (hrest : ∀ fs ∈ rest, fs ≠ []) : ∀ records : List (List String),
    (("\n".intercalate ((fields :: rest).map recordText)).toList.foldlM step?
      (atField records [])).bind Reader.finish? = some (records ++ fields :: rest) := by
  induction rest generalizing fields with
  | nil =>
    intro records
    obtain ⟨s, ss, rfl⟩ := List.exists_cons_of_ne_nil hfields
    obtain ⟨r, hr, hshows⟩ := exists_shows_record records s ss []
    show ((recordText (s :: ss)).toList.foldlM step? (atField records [])).bind _ = _
    rw [hr]
    exact hshows.finish?
  | cons next rest ih =>
    intro records
    obtain ⟨s, ss, rfl⟩ := List.exists_cons_of_ne_nil hfields
    obtain ⟨r, hr, hshows⟩ := exists_shows_record records s ss []
    obtain ⟨hnext, hrest⟩ := List.forall_mem_cons.1 hrest
    have hread := ih next hnext hrest (records ++ [s :: ss])
    have htext : ("\n".intercalate ((((s :: ss) :: next :: rest)).map recordText)).toList =
        (recordText (s :: ss)).toList ++
          '\n' :: ("\n".intercalate ((next :: rest).map recordText)).toList := by
      simp [String.intercalate_cons_cons]
    rw [htext, List.foldlM_append, hr]
    show (('\n' :: ("\n".intercalate ((next :: rest).map recordText)).toList).foldlM step? r).bind
      _ = _
    rw [List.foldlM_cons, hshows.step?_lineFeed]
    show ((("\n".intercalate ((next :: rest).map recordText)).toList.foldlM step?
      (atField (records ++ [s :: ss]) []))).bind _ = _
    rw [hread, List.append_assoc, List.singleton_append]

end Reader

/-- **Records of written fields are read back**, if there are any and none is without fields. -/
theorem read?_intercalate {records : List (List String)} (hsome : records ≠ [])
    (hrecords : ∀ fields ∈ records, fields ≠ []) :
    read? ("\n".intercalate (records.map recordText)) = some records := by
  obtain ⟨fields, rest, rfl⟩ := List.exists_cons_of_ne_nil hsome
  obtain ⟨hfields, hrest⟩ := List.forall_mem_cons.1 hrecords
  exact Reader.read_records fields rest hfields hrest []

/-- A text without special characters is a field as it stands. -/
theorem fieldText_of_plain {s : String} (h : s.toList.any isSpecial = false) : fieldText s = s := by
  rw [fieldText, field, if_neg (by simp [h]), String.ofList_toList]

end Machining.Csv
