/-
# The source that a run reads

The files of a run are only ever added to, and a library gives the same
contents for every path to a file. So a file number and a line number stand for
one text throughout a run, and the lines of a buffer, be it a file or the body
of a macro, are excerpts of these texts. A position, then, is a place in a text,
and either it is right behind a mark or it is not.

Key definitions: `Library.IsCoherent`, `IsLine`, `IsExcerpt`, `IsPlace`.
Key theorems: `IsLine.unique`, `IsPlace.unique`, `IsExcerpt.isPlace`,
`IsExcerpt.unlines`, `isExcerpt_addFile`.
-/
import Asm6502.Files.Library
import Asm6502.Proofs.Text.Place
import Asm6502.Run

namespace Asm6502

/-- Whether all paths to a file give its contents. -/
def Library.IsCoherent (library : Library) : Prop :=
  ∀ p q bytes, p.same q = true → library.read p = .ok bytes → library.read q = .ok bytes

theorem Library.IsCoherent.readText_eq {library : Library} (h : library.IsCoherent) {p q : Path}
    (hsame : p.same q = true) {text : String} (hp : library.readText p = .ok text) :
    library.readText q = .ok text := by
  unfold readText at *
  cases hread : library.read p with
  | error e =>
    rw [hread] at hp
    cases hp
  | ok bytes =>
    rw [hread] at hp
    rw [h p q bytes hsame hread]
    exact hp

theorem Path.same_iff {p q : Path} :
    p.same q = true ↔ p.isAbsolute = q.isAbsolute ∧ p.steps = q.steps := by
  simp [same]

theorem Library.isCoherent_ofFiles (files : List (Path × ByteArray)) : (ofFiles files).IsCoherent := by
  intro p q bytes hsame hp
  obtain ⟨habsolute, hsteps⟩ := Path.same_iff.mp hsame
  have hother (other : Path) : other.same p = other.same q := by
    rw [Path.same, Path.same, habsolute, hsteps]
  have hcontents : contents? files p = contents? files q := by
    unfold contents?
    simp only [hother]
  simp only [ofFiles] at hp ⊢
  rw [← hcontents]
  split at hp
  · exact hp
  · cases hp

/-- Every file of the first list has its number in the second. -/
def FilesGrow (files files' : Array Path) : Prop :=
  ∀ (file : Nat) (path : Path), files[file]? = some path → files'[file]? = some path

theorem FilesGrow.refl (files : Array Path) : FilesGrow files files := fun _ _ => id

theorem FilesGrow.trans {files files' files'' : Array Path} (h : FilesGrow files files')
    (h' : FilesGrow files' files'') : FilesGrow files files'' :=
  fun file path hpath => h' file path (h file path hpath)

/-- A line of a file of the run. -/
def IsLine (library : Library) (files : Array Path) (file line : Nat) (whole : List Char) : Prop :=
  ∃ path text, files[file]? = some path ∧ library.readText path = .ok text ∧
    (Text.lines text)[line]?.map String.toList = some whole

section
variable {library : Library} {files files' : Array Path} {file line : Nat}

theorem IsLine.mono {whole : List Char} (h : IsLine library files file line whole)
    (hgrow : FilesGrow files files') : IsLine library files' file line whole := by
  obtain ⟨path, text, hpath, h⟩ := h
  exact ⟨path, text, hgrow file path hpath, h⟩

theorem IsLine.unique {whole whole' : List Char} (h : IsLine library files file line whole)
    (h' : IsLine library files file line whole') : whole = whole' := by
  obtain ⟨path, text, hpath, htext, hwhole⟩ := h
  obtain ⟨path', text', hpath', htext', hwhole'⟩ := h'
  cases hpath.symm.trans hpath'
  cases htext.symm.trans htext'
  exact Option.some.inj (hwhole.symm.trans hwhole')

theorem IsLine.not_mem {whole : List Char} (h : IsLine library files file line whole) :
    '\n' ∉ whole := by
  obtain ⟨path, text, -, -, hwhole⟩ := h
  obtain ⟨found, hfound, rfl⟩ := Option.map_eq_some_iff.mp hwhole
  exact Text.not_mem_of_mem_lines (List.mem_of_getElem? hfound)

/-- A place in a line of a file, and whether it is right behind a mark. -/
def IsPlace (library : Library) (files : Array Path) (marked : Bool) (p : Position) : Prop :=
  ∃ whole past rest, IsLine library files p.file p.line whole ∧ whole = past ++ rest ∧
    p.column = byteLength past ∧ isMarked past = marked

theorem IsPlace.mono {marked : Bool} {p : Position} (h : IsPlace library files marked p)
    (hgrow : FilesGrow files files') : IsPlace library files' marked p := by
  obtain ⟨whole, past, rest, hline, h⟩ := h
  exact ⟨whole, past, rest, hline.mono hgrow, h⟩

theorem IsPlace.unique {marked marked' : Bool} {p : Position} (h : IsPlace library files marked p)
    (h' : IsPlace library files marked' p) : marked = marked' := by
  obtain ⟨whole, past, rest, hline, hwhole, hcolumn, rfl⟩ := h
  obtain ⟨whole', past', rest', hline', hwhole', hcolumn', rfl⟩ := h'
  rw [hline.unique hline', hwhole'] at hwhole
  rw [past_unique hwhole (hcolumn'.symm.trans hcolumn)]

/-- Lines that stand in a file from the line `first` on. Each may lack its end. -/
def IsExcerpt (library : Library) (files : Array Path) (file first : Nat) (lines : List String) :
    Prop :=
  ∀ (i : Nat) (line : String), lines[i]? = some line →
    ∃ whole, IsLine library files file (first + i) whole ∧ line.toList <+: whole

variable {first : Nat} {lines : List String}

theorem IsExcerpt.mono (h : IsExcerpt library files file first lines) (hgrow : FilesGrow files files') :
    IsExcerpt library files' file first lines := by
  intro i line hi
  obtain ⟨whole, hline, hwhole⟩ := h i line hi
  exact ⟨whole, hline.mono hgrow, hwhole⟩

theorem isExcerpt_file {path : Path} {text : String} (hpath : files[file]? = some path)
    (htext : library.readText path = .ok text) : IsExcerpt library files file 0 (Text.lines text) := by
  intro i line hi
  refine ⟨line.toList, ⟨path, text, hpath, htext, ?_⟩, List.prefix_refl _⟩
  rw [Nat.zero_add, hi]
  rfl

theorem IsExcerpt.not_mem (h : IsExcerpt library files file first lines) :
    ∀ line ∈ lines, '\n' ∉ line.toList := by
  intro line hmem
  obtain ⟨i, hi⟩ := List.mem_iff_getElem?.mp hmem
  obtain ⟨whole, hline, hwhole⟩ := h i line hi
  exact fun hfeed => hline.not_mem (hwhole.subset hfeed)

/-- The text made of an excerpt is again an excerpt. -/
theorem IsExcerpt.unlines (h : IsExcerpt library files file first lines) :
    IsExcerpt library files file first (Text.lines (Text.unlines lines)) := by
  rw [Text.lines_unlines h.not_mem]
  intro i line hi
  rw [List.getElem?_map] at hi
  obtain ⟨whole', hi', rfl⟩ := Option.map_eq_some_iff.mp hi
  obtain ⟨whole, hline, hwhole⟩ := h i _ hi'
  exact ⟨whole, hline, (Text.prefix_endedLine _).trans hwhole⟩

/-- The column of a cursor is a place in the file. -/
theorem IsExcerpt.isPlace (h : IsExcerpt library files file first lines) {i : Nat} {line : String}
    (hi : lines[i]? = some line) {past : List Char} {c : Cursor} (hc : c.Stands line.toList past) :
    IsPlace library files (isMarked past) ⟨file, first + i, c.column⟩ := by
  obtain ⟨whole, hline, tail, hwhole⟩ := h i line hi
  refine ⟨whole, past, c.rest ++ tail, hline, ?_, hc.column_eq, rfl⟩
  rw [← hwhole, hc.line_eq, List.append_assoc]

end

theorem Run.filesGrow_addFile (r : Run) (path : Path) : FilesGrow r.files (r.addFile path).2.files := by
  unfold addFile
  split
  · exact .refl _
  · intro file p hp
    have hlt : file < r.files.size := (Array.getElem?_eq_some_iff.mp hp).1
    rw [Array.getElem?_push_lt hlt, ← hp, Array.getElem?_eq_getElem hlt]

/-- A file that is added has a number of its own or that of the same file. -/
theorem isExcerpt_addFile {library : Library} (hlibrary : library.IsCoherent) (r : Run) {path : Path}
    {text : String} (htext : library.readText path = .ok text) :
    FilesGrow r.files (r.addFile path).2.files ∧
      IsExcerpt library (r.addFile path).2.files (r.addFile path).1 0 (Text.lines text) := by
  refine ⟨r.filesGrow_addFile path, ?_⟩
  unfold Run.addFile Run.fileIndex?
  split
  · rename_i file hfile
    obtain ⟨hlt, hsame, -⟩ := Array.findIdx?_eq_some_iff_getElem.mp hfile
    obtain ⟨habsolute, hsteps⟩ := Path.same_iff.mp hsame
    have htext := hlibrary.readText_eq (Path.same_iff.mpr ⟨habsolute.symm, hsteps.symm⟩) htext
    exact isExcerpt_file (Array.getElem?_eq_getElem hlt) htext
  · exact isExcerpt_file (by simp) htext

end Asm6502
