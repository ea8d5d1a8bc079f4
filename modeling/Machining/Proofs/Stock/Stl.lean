import Machining.Proofs.Decimal.Characters
import Machining.Proofs.Decimal.Reading
import Machining.Proofs.Program.Lines
import Machining.Stock.Stl
import Machining.Text.Blank

/-!
# Reading solids

A reader of the text format of solids goes through a text line by line.  A line is cut into words
at its blanks; the words say what kind of line it is, and each kind may stand in one place only: a
facet begins with its normal, has a loop of three vertices and is closed before the next one, and
the solid ends under the name it began with.

* `Line`, `line?` — lines and their grammar;
* `Reader`, `Reader.step?`, `readLines?`, `read?` — the reader, a state machine over the lines;
* `readLines?_lines` — the lines of a solid are read back, whatever the texts of its coordinates,
  as long as these read back themselves and have no blanks;
* `length_split_write`, `read?_write` — the text of a solid with finite coordinates.
-/

set_option autoImplicit false

namespace Machining

variable {α : Type}

/-- The coordinates of a facet in the order in which they are written. -/
def Facet.coordinates (f : Facet α) : List α :=
  [f.normal, f.a, f.b, f.c].flatMap fun p => [p.x, p.y, p.z]

namespace Text

/-- The words of a text: what stands between its blanks. -/
def words (cs : List Char) : List String :=
  ((cs.splitOnP isBlank).filter (· ≠ [])).map String.ofList

theorem words_append {c : Char} (hc : isBlank c = true) (a b : List Char) :
    words (a ++ c :: b) = words a ++ words b := by
  simp [words, List.splitOnP_append_cons a b hc]

/-- A text without blanks is one word. -/
theorem words_word {s : String} (hs : s ≠ "") (hblank : ∀ c ∈ s.toList, isBlank c = false) :
    words s.toList = [s] := by
  have hne : s.toList ≠ [] := by simpa using hs
  simp [words, List.splitOnP_eq_singleton hblank, hne]

end Text

namespace Stl

open Text (words words_append words_word)

/-! ## The reader -/

/-- A line of a solid. -/
inductive Line (α : Type) where
  | solid (name : String)
  | facet (normal : Point α)
  | loop
  | vertex (p : Point α)
  | endLoop
  | endFacet
  | endSolid (name : String)

/-- Three coordinates. -/
def point? (number? : String → Option α) : List String → Option (Point α)
  | [x, y, z] => do some ⟨← number? x, ← number? y, ← number? z⟩
  | _ => none

/-- The line that some words are. -/
def lineOfWords? (number? : String → Option α) : List String → Option (Line α)
  | ["solid", name] => some (.solid name)
  | "facet" :: "normal" :: ws => (point? number? ws).map .facet
  | ["outer", "loop"] => some .loop
  | "vertex" :: ws => (point? number? ws).map .vertex
  | ["endloop"] => some .endLoop
  | ["endfacet"] => some .endFacet
  | ["endsolid", name] => some (.endSolid name)
  | _ => none

/-- What a reader has read of a facet: nothing, as it stands between facets; the normal; the
vertices so far; or all but the last line. -/
inductive Part (α : Type) where
  | nothing
  | normal (n : Point α)
  | vertices (n : Point α) (ps : List (Point α))
  | all (f : Facet α)

/-- What a reader has read: nothing, the facets of a solid so far with a part of the next one, or a
whole solid. -/
inductive Reader (α : Type) where
  | start
  | solid (name : String) (facets : List (Facet α)) (part : Part α)
  | finished (name : String) (facets : List (Facet α))

namespace Reader

/-- The reader after one more line, unless the line cannot stand there. -/
def step? : Reader α → Line α → Option (Reader α)
  | start, .solid name => some (solid name [] .nothing)
  | solid name fs .nothing, .facet n => some (solid name fs (.normal n))
  | solid name fs .nothing, .endSolid name' =>
    if name' = name then some (finished name fs) else none
  | solid name fs (.normal n), .loop => some (solid name fs (.vertices n []))
  | solid name fs (.vertices n ps), .vertex p => some (solid name fs (.vertices n (ps ++ [p])))
  | solid name fs (.vertices n [a, b, c]), .endLoop => some (solid name fs (.all ⟨n, a, b, c⟩))
  | solid name fs (.all f), .endFacet => some (solid name (fs ++ [f]) .nothing)
  | _, _ => none

/-- The solid at the end of the text, if it is whole. -/
def finish? : Reader α → Option (String × List (Facet α))
  | finished name fs => some (name, fs)
  | _ => none

end Reader

/-- The reader after a line of text. -/
def readLine? (number? : String → Option α) (r : Reader α) (l : List Char) : Option (Reader α) :=
  (lineOfWords? number? (words l)).bind r.step?

/-- The name and the facets of a solid given by its lines. -/
def readLines? (number? : String → Option α) (ls : List (List Char)) :
    Option (String × List (Facet α)) :=
  (ls.foldlM (readLine? number?) .start).bind Reader.finish?

/-- The name and the facets of a solid given by its text. -/
def read? (text : String) : Option (String × List (Facet Float)) :=
  readLines? Double.read? (Text.split '\n' text.toList)

/-! ## Lines that are written -/

section Lines

variable {text : α → String} {number? : String → Option α}

/-- The text of a number is a word that is read as the number. -/
structure IsWord (text : α → String) (number? : String → Option α) (x : α) : Prop where
  ne_empty : text x ≠ ""
  not_blank : ∀ c ∈ (text x).toList, Text.isBlank c = false
  read : number? (text x) = some x

/-- The texts of the coordinates of a point are words. -/
def HasWords (text : α → String) (number? : String → Option α) (p : Point α) : Prop :=
  ∀ x ∈ [p.x, p.y, p.z], IsWord text number? x

theorem isBlank_space : Text.isBlank ' ' = true := by decide

/-- Coordinates add their words to a line. -/
theorem words_coordinates {p : Point α} (hp : HasWords text number? p) (before : String) :
    words (before ++ coordinates text p).toList =
      words before.toList ++ [text p.x, text p.y, text p.z] := by
  have hword (x : α) (hx : x ∈ [p.x, p.y, p.z]) : words (text x).toList = [text x] :=
    words_word (hp x hx).ne_empty (hp x hx).not_blank
  have hline : (before ++ coordinates text p).toList = before.toList ++ ' ' ::
      ((text p.x).toList ++ ' ' :: ((text p.y).toList ++ ' ' :: (text p.z).toList)) := by
    simp [coordinates]
  rw [hline, words_append isBlank_space, words_append isBlank_space, words_append isBlank_space,
    hword _ (by simp), hword _ (by simp), hword _ (by simp)]
  rfl

theorem point?_coordinates {p : Point α} (hp : HasWords text number? p) :
    point? number? [text p.x, text p.y, text p.z] = some p := by
  simp [point?, (hp p.x (by simp)).read, (hp p.y (by simp)).read, (hp p.z (by simp)).read]

theorem readLine?_normal {n : Point α} (hn : HasWords text number? n) (r : Reader α) :
    readLine? number? r (" facet normal" ++ coordinates text n).toList = r.step? (.facet n) := by
  have hwords : words " facet normal".toList = ["facet", "normal"] := by decide
  rw [readLine?, words_coordinates hn, hwords]
  simp [lineOfWords?, point?_coordinates hn]

theorem readLine?_vertex {p : Point α} (hp : HasWords text number? p) (r : Reader α) :
    readLine? number? r ("   vertex" ++ coordinates text p).toList = r.step? (.vertex p) := by
  have hwords : words "   vertex".toList = ["vertex"] := by decide
  rw [readLine?, words_coordinates hp, hwords]
  simp [lineOfWords?, point?_coordinates hp]

/-- A line that consists of the words of its kind. -/
theorem readLine?_fixed {l : List Char} (k : Line α)
    (h : lineOfWords? number? (words l) = some k) (r : Reader α) :
    readLine? number? r l = r.step? k := by
  rw [readLine?, h, Option.bind_some]

/-- **The lines of a facet are read as the facet.** -/
theorem foldlM_facetLines {f : Facet α}
    (hf : ∀ p ∈ [f.normal, f.a, f.b, f.c], HasWords text number? p) (name : String)
    (fs : List (Facet α)) :
    ((facetLines text f).map String.toList).foldlM (readLine? number?)
      (Reader.solid name fs .nothing) = some (.solid name (fs ++ [f]) .nothing) := by
  have hloop : words "  outer loop".toList = ["outer", "loop"] := by decide
  have hend : words "  endloop".toList = ["endloop"] := by decide
  have hendFacet : words " endfacet".toList = ["endfacet"] := by decide
  simp only [facetLines, List.map_cons, List.map_nil, List.foldlM_cons, List.foldlM_nil,
    readLine?_normal (hf f.normal (by simp)), readLine?_vertex (hf f.a (by simp)),
    readLine?_vertex (hf f.b (by simp)), readLine?_vertex (hf f.c (by simp)),
    readLine?_fixed .loop (by rw [hloop]; rfl),
    readLine?_fixed .endLoop (by rw [hend]; rfl),
    readLine?_fixed .endFacet (by rw [hendFacet]; rfl)]
  rfl

theorem foldlM_facets {fs : List (Facet α)}
    (hfs : ∀ f ∈ fs, ∀ p ∈ [f.normal, f.a, f.b, f.c], HasWords text number? p) (name : String)
    (earlier : List (Facet α)) :
    ((fs.flatMap (facetLines text)).map String.toList).foldlM (readLine? number?)
      (Reader.solid name earlier .nothing) = some (.solid name (earlier ++ fs) .nothing) := by
  induction fs generalizing earlier with
  | nil => simp
  | cons f fs ih =>
    obtain ⟨hf, hfs⟩ := List.forall_mem_cons.1 hfs
    rw [List.flatMap_cons, List.map_append, List.foldlM_append, foldlM_facetLines hf]
    simp only [Option.bind_eq_bind, Option.bind_some]
    rw [ih hfs, List.append_assoc, List.singleton_append]

/-- **The lines of a solid are read as the solid**, whatever the texts of its coordinates are, as
long as these are words. -/
theorem readLines?_lines {name : String} (hname : words name.toList = [name])
    {fs : List (Facet α)}
    (hfs : ∀ f ∈ fs, ∀ p ∈ [f.normal, f.a, f.b, f.c], HasWords text number? p) :
    readLines? number? ((lines text name fs).map String.toList) = some (name, fs) := by
  have hfirst : words ("solid " ++ name).toList = ["solid", name] := by
    rw [show ("solid " ++ name).toList = "solid".toList ++ ' ' :: name.toList by simp,
      words_append isBlank_space, hname]
    rfl
  have hlast : words ("endsolid " ++ name).toList = ["endsolid", name] := by
    rw [show ("endsolid " ++ name).toList = "endsolid".toList ++ ' ' :: name.toList by simp,
      words_append isBlank_space, hname]
    rfl
  have hmap : (lines text name fs).map String.toList = ("solid " ++ name).toList ::
      ((fs.flatMap (facetLines text)).map String.toList ++ [("endsolid " ++ name).toList]) := by
    simp only [lines, List.cons_append, List.map_cons, List.map_append, List.map_nil]
  have hsolid : readLine? number? .start ("solid " ++ name).toList =
      some (.solid name [] .nothing) := by
    rw [readLine?_fixed (.solid name) (by rw [hfirst]; rfl)]
    rfl
  have hendSolid : readLine? number? (.solid name fs .nothing) ("endsolid " ++ name).toList =
      some (.finished name fs) := by
    rw [readLine?_fixed (.endSolid name) (by rw [hlast]; rfl)]
    exact if_pos rfl
  rw [readLines?, hmap, List.foldlM_cons, hsolid, Option.bind_eq_bind, Option.bind_some,
    List.foldlM_append, foldlM_facets hfs, List.nil_append, Option.bind_eq_bind, Option.bind_some,
    List.foldlM_cons, hendSolid]
  rfl

end Lines

/-! ## The text of a solid -/

variable {name : String} {fs : List (Facet Float)}

/-- Number texts stay on their line. -/
theorem not_blank_of_isNumeric {c : Char} (h : isNumeric c = true) :
    Text.isBlank c = false ∧ c ≠ '\n' := by
  have hrange : 43 ≤ c.toNat ∧ c.toNat ≤ 121 := by
    rw [isNumeric, Bool.or_eq_true] at h
    rcases h with h | h
    · simp only [Numeral.isDigit, Bool.and_eq_true, decide_eq_true_eq] at h
      have hlow : 48 ≤ c.toNat := h.1
      have hhigh : c.toNat ≤ 57 := h.2
      omega
    · have hmem := List.contains_iff_mem.1 h
      have hall : ∀ d ∈ "+-.eNaninf".toList, 43 ≤ d.toNat ∧ d.toNat ≤ 121 := by simp
      exact hall c hmem
  constructor
  · rw [Text.isBlank, List.any_eq_false]
    have hruns : ∀ r ∈ Text.blankRuns, r.2 < 43 ∨ 121 < r.1 := by decide
    intro r hr
    have := hruns r hr
    simp only [Bool.and_eq_true, decide_eq_true_eq]
    omega
  · rintro rfl
    exact absurd hrange (by decide)

theorem isWord_of_isFinite {x : Float} (hx : x.isFinite = true) :
    IsWord Layout.plain.text Double.read? x where
  ne_empty h := by
    have hread := Double.read?_plain hx
    have hempty : Double.read? "" = none := rfl
    rw [h, hempty] at hread
    cases hread
  not_blank c hc := (not_blank_of_isNumeric (Layout.isNumeric_plain x c hc)).1
  read := Double.read?_plain hx

/-- No line of a solid has a line feed in it. -/
theorem newline_not_mem_lines (hname : '\n' ∉ name.toList) (fs : List (Facet Float)) :
    ∀ l ∈ (lines Layout.plain.text name fs).map String.toList, '\n' ∉ l := by
  have hcoordinates (p : Point Float) : '\n' ∉ (coordinates Layout.plain.text p).toList := by
    have hnumber (x : Float) : '\n' ∉ (Layout.plain.text x).toList := fun h =>
      (not_blank_of_isNumeric (Layout.isNumeric_plain x _ h)).2 rfl
    simp [coordinates, hnumber]
  have hfacet (f : Facet Float) :
      ∀ l ∈ facetLines Layout.plain.text f, '\n' ∉ l.toList := by
    simp [facetLines, hcoordinates]
  simp only [lines, List.forall_mem_map, List.cons_append, List.forall_mem_cons,
    List.forall_mem_append, List.mem_flatMap]
  refine ⟨by simp [hname], ?_, by simp [hname], List.forall_mem_nil _⟩
  rintro l ⟨f, -, hl⟩
  exact hfacet f l hl

/-- **The lines of the text are the lines of the solid.** -/
theorem split_write (hname : '\n' ∉ name.toList) (fs : List (Facet Float)) :
    Text.split '\n' (write name fs).toList =
      (lines Layout.plain.text name fs).map String.toList := by
  have hne : (lines Layout.plain.text name fs).map String.toList ≠ [] := by simp [lines]
  refine ((Text.intercalate_eq_iff (newline_not_mem_lines hname fs) hne _).1 ?_).symm
  rw [write, String.toList_intercalate]
  rfl

theorem length_lines (text : α → String) (name : String) (fs : List (Facet α)) :
    (lines text name fs).length = 2 + 7 * fs.length := by
  have hfacets : (fs.flatMap (facetLines text)).length = 7 * fs.length := by
    induction fs with
    | nil => rfl
    | cons f fs ih =>
      rw [List.flatMap_cons, List.length_append, ih]
      simp only [facetLines, List.length_cons, List.length_nil]
      omega
  simp only [lines, List.length_append, List.length_cons, List.length_nil, hfacets]
  omega

/-- The number of lines of a text. -/
theorem length_split_write (hname : '\n' ∉ name.toList) (fs : List (Facet Float)) :
    (Text.split '\n' (write name fs).toList).length = 2 + 7 * fs.length := by
  rw [split_write hname, List.length_map, length_lines]

/-- The last line does not end. -/
theorem getLast?_write (hname : '\n' ∉ name.toList) (fs : List (Facet Float)) :
    (write name fs).toList.getLast? ≠ some '\n' := by
  intro h
  obtain ⟨a, ha⟩ := List.getLast?_eq_some_iff.1 h
  have hsplit := split_write hname fs
  rw [ha, Text.split_append, lines, List.map_append] at hsplit
  have hlast := congrArg List.getLast? hsplit
  rw [List.map_singleton, List.getLast?_concat] at hlast
  simp [Text.split] at hlast

/-- **The text of a solid with finite coordinates is read as the solid.** -/
theorem read?_write (hname : words name.toList = [name]) (hline : '\n' ∉ name.toList)
    (hfs : ∀ f ∈ fs, ∀ x ∈ f.coordinates, x.isFinite = true) :
    read? (write name fs) = some (name, fs) := by
  rw [read?, split_write hline]
  refine readLines?_lines hname fun f hf p hp x hx => isWord_of_isFinite (hfs f hf x ?_)
  exact List.mem_flatMap.2 ⟨p, hp, hx⟩

end Stl

end Machining
