import Machining.Proofs.Toml.Scalar

/-!
# Documents of TOML read back

A document of tables is written line by line: the header of a table, then its keys, each with a
scalar, and an empty line before the next header.  The reader takes each of these lines to what it
was written for.  So a document whose tables and keys have bare names, no two alike, is read as
the record of its tables.

* `IsName` — the names that stand without quotes;
* `line?_header`, `line?_pair`, `line?_blank` — one line each;
* `lines?_pairs`, `lines?_table` — the keys of a table, and a table;
* `read?_write` — whole documents.
-/

set_option autoImplicit false

namespace Machining.Toml

/-! ## Names -/

/-- A name that stands without quotes. -/
structure IsName (s : String) : Prop where
  ne_nil : s.toList ≠ []
  bare : ∀ c ∈ s.toList, isBare c = true

instance decidableIsName (s : String) : Decidable (IsName s) :=
  decidable_of_iff (s.toList ≠ [] ∧ s.toList.all isBare = true)
    ⟨fun h => ⟨h.1, List.all_eq_true.1 h.2⟩, fun h => ⟨h.ne_nil, List.all_eq_true.2 h.bare⟩⟩

section Names

variable {s : String} {rest : List Char}

theorem isBlank_of_isBare {c : Char} (hc : isBare c = true) : isBlank c = false := by
  rw [Bool.eq_false_iff]
  intro hblank
  simp only [isBlank, Bool.or_eq_true, beq_iff_eq] at hblank
  rcases hblank with rfl | rfl <;> cases hc

theorem skipBlanks_cons {c : Char} (hc : isBlank c = false) (cs : List Char) :
    skipBlanks (c :: cs) = c :: cs := List.dropWhile_cons_of_neg (by simp [hc])

theorem skipBlanks_append (hs : IsName s) (rest : List Char) :
    skipBlanks (s.toList ++ rest) = s.toList ++ rest := by
  obtain ⟨c, cs, hcs⟩ := List.exists_cons_of_ne_nil hs.ne_nil
  rw [hcs, List.cons_append]
  exact skipBlanks_cons (isBlank_of_isBare (hs.bare c (hcs ▸ List.mem_cons_self))) _

theorem name?_append (hs : IsName s) (hrest : ∀ c ∈ rest.head?, isBare c = false) :
    name? (s.toList ++ rest) = some (s, rest) := by
  obtain ⟨c, cs, hcs⟩ := List.exists_cons_of_ne_nil hs.ne_nil
  obtain ⟨htake, hdrop⟩ := span_append hs.bare hrest
  have hc : isBare c = true := hs.bare c (hcs ▸ List.mem_cons_self)
  have hne : s.toList.isEmpty = false := by rw [hcs]; rfl
  unfold name?
  split
  · rename_i h
    rw [hcs] at h
    cases h
    cases hc
  · rename_i h
    rw [hcs] at h
    cases h
    cases hc
  · simp only [htake, hdrop, hne, String.ofList_toList]
    rfl

/-- **A name is read as a key** that has no path. -/
theorem key?_append (hs : IsName s) (rest : List Char) (hrest : ∀ c ∈ rest.head?, isBare c = false)
    (hpoint : ∀ ds, skipBlanks rest ≠ '.' :: ds) :
    key? (s.toList ++ rest) = some (([], s), skipBlanks rest) := by
  have hnames : names? (s.toList ++ rest) = some ([s], skipBlanks rest) := by
    rw [names?, skipBlanks_append hs, name?_append hs hrest]
    dsimp only
    split
    · rename_i h
      exact absurd h (hpoint _)
    · rfl
  rw [key?, hnames]
  rfl

end Names

/-! ## Lines -/

section Lines

variable (page : Page) {s : String} {v : Node} (rest : List Char)

/-- An empty line. -/
theorem line?_blank : line? page ('\n' :: rest) = some (page, rest) := rfl

/-- **The header of a table** opens the table. -/
theorem line?_header (hs : IsName s) : line? page ('[' :: (s.toList ++ ']' :: '\n' :: rest)) =
    (page.entries.openTable? [] s).map fun entries => (⟨entries, [s]⟩, rest) := by
  have hkey : key? (s.toList ++ ']' :: '\n' :: rest) = some (([], s), ']' :: '\n' :: rest) :=
    key?_append hs _ (by rintro _ ⟨⟩; rfl) (fun _ h => nomatch h)
  obtain ⟨c, cs, hcs⟩ := List.exists_cons_of_ne_nil hs.ne_nil
  have hstart : skipBlanks ('[' :: (s.toList ++ ']' :: '\n' :: rest)) =
      '[' :: (s.toList ++ ']' :: '\n' :: rest) := rfl
  rw [line?, hstart]
  split
  · rename_i h
    rw [hcs] at h
    cases h
    cases hs.bare '[' (hcs ▸ List.mem_cons_self)
  · rename_i h
    cases h
    rw [hkey]
    change (page.entries.openTable? [] s).bind (fun entries => (lineEnd? ('\n' :: rest)).bind
      fun rest => some ((⟨entries, [s]⟩ : Page), rest)) = _
    cases page.entries.openTable? [] s <;> rfl
  · rename_i h
    exact absurd rfl (h _)

theorem lineEnd?_of_isBare {c : Char} (hc : isBare c = true) (cs : List Char) :
    lineEnd? (c :: cs) = none := by
  have hcomment : skipComment (c :: cs) = c :: cs := by
    unfold skipComment
    split
    · rename_i h
      cases h
      cases hc
    · rfl
  have hnewline : newline? (c :: cs) = none := by
    unfold newline?
    split
    · rename_i h
      cases h
      cases hc
    · rename_i h
      cases h
      cases hc
    · rfl
  rw [lineEnd?, skipBlanks_cons (isBlank_of_isBare hc), hcomment]
  exact hnewline

/-- A scalar is read after a blank. -/
theorem value?_skipBlanks (hv : IsScalar v) (levels : ℕ) (rest : List Char) :
    value? levels (skipBlanks (' ' :: ((scalarText v).toList ++ '\n' :: rest))) =
      some (v, '\n' :: rest) := by
  obtain ⟨d, ds, hds, hd⟩ := exists_scalarText_cons hv
  have hblank : isBlank d = false := by
    rw [Bool.eq_false_iff]
    intro hblank
    simp only [isBlank, Bool.or_eq_true, beq_iff_eq] at hblank
    rcases hd with hd | ⟨q, hd⟩
    · rcases hblank with rfl | rfl <;> cases hd
    · subst hd
      cases q <;> revert hblank <;> decide
  have hskip : skipBlanks (' ' :: ((scalarText v).toList ++ '\n' :: rest)) =
      (scalarText v).toList ++ '\n' :: rest := by
    rw [hds]
    exact skipBlanks_cons hblank _
  rw [hskip, value?_scalarText hv]

/-- **A key with a scalar** is put into the table of the last header. -/
theorem line?_pair (hs : IsName s) (hv : IsScalar v) :
    line? page (s.toList ++ ' ' :: '=' :: ' ' :: ((scalarText v).toList ++ '\n' :: rest)) =
      (page.entries.within? (Entries.addValue? s v) page.header).map fun entries =>
        (⟨entries, page.header⟩, rest) := by
  obtain ⟨c, cs, hcs⟩ := List.exists_cons_of_ne_nil hs.ne_nil
  have hc : isBare c = true := hs.bare c (hcs ▸ List.mem_cons_self)
  have hne : c ≠ '[' := by
    rintro rfl
    cases hc
  have hkey := key?_append hs (' ' :: '=' :: ' ' :: ((scalarText v).toList ++ '\n' :: rest))
    (by rintro _ ⟨⟩; rfl) (fun _ h => nomatch h)
  have hpair : pair? (value? maxLevels) (s.toList ++ ' ' :: '=' :: ' ' ::
      ((scalarText v).toList ++ '\n' :: rest)) = some (Entries.addValue? s v, '\n' :: rest) := by
    have hskip : skipBlanks (' ' :: '=' :: ' ' :: ((scalarText v).toList ++ '\n' :: rest)) =
        '=' :: ' ' :: ((scalarText v).toList ++ '\n' :: rest) := rfl
    rw [pair?, hkey, hskip]
    change (value? maxLevels (skipBlanks (' ' :: ((scalarText v).toList ++ '\n' :: rest)))).map
      (fun p => (Entries.add? [] s p.1, p.2)) = _
    rw [value?_skipBlanks hv]
    rfl
  have hstart := skipBlanks_append hs (' ' :: '=' :: ' ' :: ((scalarText v).toList ++ '\n' :: rest))
  rw [line?, hstart]
  split
  · rename_i h
    rw [hcs, List.cons_append] at h
    exact absurd (List.cons.inj h).1 hne
  · rename_i h
    rw [hcs, List.cons_append] at h
    exact absurd (List.cons.inj h).1 hne
  · have hend : lineEnd? (s.toList ++ ' ' :: '=' :: ' ' ::
        ((scalarText v).toList ++ '\n' :: rest)) = none := by
      rw [hcs, List.cons_append]
      exact lineEnd?_of_isBare hc _
    rw [hend, hpair]
    dsimp only [Option.bind_eq_bind, Option.bind_some]
    cases page.entries.within? (Entries.addValue? s v) page.header <;> rfl

end Lines

/-! ## Tables -/

namespace Entries

variable {name : String} {change : Option Entry → Option Entry} {entries : Entries}

/-- A name that is not there yet comes last. -/
theorem update?_new (h : name ∉ entries.map Prod.fst) :
    entries.update? name change = (change none).map fun e => entries ++ [(name, e)] := by
  induction entries with
  | nil => rfl
  | cons f fs ih =>
    simp only [List.map_cons, List.mem_cons, not_or] at h
    rw [update?, if_neg fun hf => h.1 hf.symm, ih h.2, Option.map_map]
    rfl

/-- The entry that came last is changed. -/
theorem update?_last (h : name ∉ entries.map Prod.fst) (e : Entry) :
    (entries ++ [(name, e)] : Entries).update? name change =
      (change (some e)).map fun e => entries ++ [(name, e)] := by
  induction entries with
  | nil =>
    rw [List.nil_append, update?, if_pos rfl]
    rfl
  | cons f fs ih =>
    simp only [List.map_cons, List.mem_cons, not_or] at h
    rw [List.cons_append, update?, if_neg fun hf => h.1 hf.symm, ih h.2, Option.map_map]
    rfl

end Entries

/-- Entries of values. -/
def valuesOf (fields : List (String × Node)) : Entries := fields.map fun f => (f.1, .value f.2)

/-- Fields whose names are bare and no two alike, with scalars. -/
structure AreWritable (fields : List (String × Node)) : Prop where
  names : ∀ f ∈ fields, IsName f.1
  scalars : ∀ f ∈ fields, IsScalar f.2
  nodup : (fields.map Prod.fst).Nodup

/-- The lines of the keys of a table. -/
def pairChars (fields : List (String × Node)) : List Char :=
  fields.flatMap fun f => f.1.toList ++ ' ' :: '=' :: ' ' :: ((scalarText f.2).toList ++ ['\n'])

theorem toList_tableText (name : String) (fields : List (String × Node)) :
    (tableText name fields).toList = '[' :: (name.toList ++ ']' :: '\n' :: pairChars fields) := by
  simp [tableText, pairChars, List.flatMap_map]

theorem lines?_of_line? {page next : Page} {cs rest : List Char}
    (h : line? page cs = some (next, rest)) (hlength : rest.length < cs.length) :
    lines? page cs = lines? next rest := by
  have hne : cs.isEmpty = false := by
    cases cs with
    | nil => exact absurd hlength (Nat.not_lt_zero _)
    | cons => rfl
  rw [lines?, hne, h]
  simp [hlength]

/-- A new key of the last table. -/
theorem within?_addValue? {earlier : Entries} {name : String}
    (hname : name ∉ earlier.map Prod.fst) {done : List (String × Node)} {f : String × Node}
    (hf : f.1 ∉ done.map Prod.fst) :
    (earlier ++ [(name, .table .header (valuesOf done))] : Entries).within?
      (Entries.addValue? f.1 f.2) [name] =
        some (earlier ++ [(name, .table .header (valuesOf (done ++ [f])))]) := by
  have hnew : f.1 ∉ (valuesOf done).map Prod.fst := by rwa [valuesOf, List.map_map]
  have hadd : Entries.addValue? f.1 f.2 (valuesOf done) = some (valuesOf (done ++ [f])) := by
    rw [Entries.addValue?, Entries.update?_new hnew, Option.map_some, valuesOf, valuesOf,
      List.map_append, List.map_singleton]
  rw [Entries.within?, Entries.update?_last hname]
  simp only [Entries.within?, hadd, Option.map_some]

/-- **The keys of a table are put into it** one after the other. -/
theorem lines?_pairs {earlier : Entries} {name : String} (hname : name ∉ earlier.map Prod.fst)
    {fields : List (String × Node)} : ∀ done : List (String × Node),
      AreWritable (done ++ fields) → ∀ rest,
      lines? ⟨earlier ++ [(name, .table .header (valuesOf done))], [name]⟩
        (pairChars fields ++ rest) =
      lines? ⟨earlier ++ [(name, .table .header (valuesOf (done ++ fields)))], [name]⟩ rest := by
  induction fields with
  | nil => exact fun _ _ rest => by rw [List.append_nil]; rfl
  | cons f fs ih =>
    intro done hfields rest
    have hmem : f ∈ done ++ f :: fs := List.mem_append_right _ List.mem_cons_self
    have hf : f.1 ∉ done.map Prod.fst := by
      have hnodup := hfields.nodup
      rw [List.map_append, List.map_cons, List.nodup_append'] at hnodup
      exact fun h => hnodup.2.2 h List.mem_cons_self
    have hchars : pairChars (f :: fs) ++ rest = f.1.toList ++ ' ' :: '=' :: ' ' ::
        ((scalarText f.2).toList ++ '\n' :: (pairChars fs ++ rest)) := by simp [pairChars]
    have hline := line?_pair ⟨earlier ++ [(name, .table .header (valuesOf done))], [name]⟩
      (pairChars fs ++ rest) (hfields.names f hmem) (hfields.scalars f hmem)
    rw [within?_addValue? hname hf, Option.map_some, ← hchars] at hline
    have hsplit : done ++ f :: fs = done ++ [f] ++ fs := by simp
    rw [lines?_of_line? hline (by rw [hchars]; simp; omega), hsplit]
    exact ih (done ++ [f]) (hsplit ▸ hfields) rest

/-- **A table is read as a table.** -/
theorem lines?_table {earlier : Entries} {name : String} (hname : IsName name)
    (hnew : name ∉ earlier.map Prod.fst) {fields : List (String × Node)}
    (hfields : AreWritable fields) (header : List String) (rest : List Char) :
    lines? ⟨earlier, header⟩ ((tableText name fields).toList ++ rest) =
      lines? ⟨earlier ++ [(name, .table .header (valuesOf fields))], [name]⟩ rest := by
  have hopen : Entries.openTable? [] name earlier =
      some (earlier ++ [(name, .table .header (valuesOf []))]) := by
    rw [Entries.openTable?, Entries.within?, Entries.update?_new hnew]
    rfl
  have hline := line?_header ⟨earlier, header⟩ (pairChars fields ++ rest) hname
  rw [hopen, Option.map_some] at hline
  rw [toList_tableText, List.cons_append, List.append_assoc, List.cons_append, List.cons_append,
    lines?_of_line? hline (by simp; omega)]
  exact lines?_pairs hnew [] hfields rest

/-- Tables whose names are bare and no two alike, with writable fields. -/
structure AreTables (tables : List (String × List (String × Node))) : Prop where
  names : ∀ t ∈ tables, IsName t.1
  fields : ∀ t ∈ tables, AreWritable t.2
  nodup : (tables.map Prod.fst).Nodup

/-- The entries of tables. -/
def entriesOf (tables : List (String × List (String × Node))) : Entries :=
  tables.map fun t => (t.1, .table .header (valuesOf t.2))

theorem lines?_nil (page : Page) : lines? page [] = some page := by
  rw [lines?]
  rfl

/-- **Tables are read one after the other.** -/
theorem lines?_write {tables : List (String × List (String × Node))} :
    ∀ done : List (String × List (String × Node)), AreTables (done ++ tables) → ∀ header,
      (lines? ⟨entriesOf done, header⟩ (write tables).toList).map Page.entries =
        some (entriesOf (done ++ tables)) := by
  induction tables with
  | nil =>
    intro done _ header
    rw [List.append_nil]
    exact congrArg _ (lines?_nil _)
  | cons t ts ih =>
    intro done h header
    have hmem : t ∈ done ++ t :: ts := List.mem_append_right _ List.mem_cons_self
    have hnew : t.1 ∉ (entriesOf done).map Prod.fst := by
      have hnodup := h.nodup
      rw [List.map_append, List.map_cons, List.nodup_append'] at hnodup
      rw [entriesOf, List.map_map]
      exact fun hdone => hnodup.2.2 hdone List.mem_cons_self
    have hsplit : done ++ t :: ts = done ++ [t] ++ ts := by simp
    have hentries : entriesOf done ++ [(t.1, .table .header (valuesOf t.2))] =
        entriesOf (done ++ [t]) := by simp [entriesOf]
    have htable := lines?_table (h.names t hmem) hnew (h.fields t hmem) header
    rw [hentries] at htable
    rw [hsplit] at h ⊢
    cases ts with
    | nil =>
      have hchars : (write [t]).toList = (tableText t.1 t.2).toList ++ [] := by simp [write]
      rw [hchars, htable, List.append_nil]
      exact congrArg _ (lines?_nil _)
    | cons u us =>
      have hchars : (write (t :: u :: us)).toList =
          (tableText t.1 t.2).toList ++ '\n' :: (write (u :: us)).toList := by
        simp [write, String.intercalate_cons_cons]
      rw [hchars, htable, lines?_of_line? (line?_blank _ _) (by simp)]
      exact ih (done ++ [t]) h [t.1]

theorem fieldsOf_valuesOf (fields : List (String × Node)) :
    fieldsOf (valuesOf fields) = fields := by
  induction fields with
  | nil => rfl
  | cons f fs ih =>
    change (f.1, f.2) :: fieldsOf (valuesOf fs) = f :: fs
    rw [ih]

theorem fieldsOf_entriesOf (tables : List (String × List (String × Node))) :
    fieldsOf (entriesOf tables) = tables.map fun t => (t.1, .record t.2) := by
  induction tables with
  | nil => rfl
  | cons t ts ih =>
    change (t.1, Node.record (fieldsOf (valuesOf t.2))) :: fieldsOf (entriesOf ts) = _
    rw [ih, fieldsOf_valuesOf, List.map_cons]

/-- A document begins with a header or not at all. -/
theorem dropMark_write (tables : List (String × List (String × Node))) :
    dropMark (write tables).toList = (write tables).toList := by
  cases tables with
  | nil => rfl
  | cons t ts =>
    obtain ⟨cs, hcs⟩ : ∃ cs, (write (t :: ts)).toList = '[' :: cs := by
      cases ts with
      | nil => simp [write, toList_tableText]
      | cons u us => simp [write, String.intercalate_cons_cons, toList_tableText]
    rw [hcs]
    rfl

/-- **A written document is read as the record of its tables.** -/
theorem read?_write {tables : List (String × List (String × Node))} (h : AreTables tables) :
    read? (write tables) = some (.record (tables.map fun t => (t.1, .record t.2))) := by
  have hmark := dropMark_write tables
  have hlines := lines?_write [] h []
  obtain ⟨page, hpage, hentries⟩ := Option.map_eq_some_iff.1 hlines
  rw [read?, hmark]
  change (lines? ⟨entriesOf [], []⟩ (write tables).toList).map _ = _
  rw [hpage, Option.map_some, hentries, List.nil_append, fieldsOf_entriesOf]

end Machining.Toml
