import ProtoSchema.Error
import ProtoSchema.Source.Disk

/-! # Finding source files

A `Resolver` finds the text of a file by its name, and the name of a file by a path.  It serves
finitely many texts, all of which it lists: that bounds how many files can import each other in a
row.  There are resolvers over texts in memory, over an include directory of a disk, and chains,
in which the first resolver that does not miss a file decides. -/

namespace ProtoSchema

/-- The largest number of bytes of a source file. -/
def maxFileSize : Nat := 2147483647

/-- The text of a file, with the path it was read from, if it was. -/
structure SourceFile where
  path : Option String
  text : String
deriving DecidableEq, Repr, Inhabited

/-- A way to find source files. -/
structure Resolver where
  /-- The name of the file at a path, if the resolver knows it. -/
  nameOf? : String → Option String
  /-- The file with a name. -/
  openFile : String → Except Error SourceFile
  /-- The texts of all files that can be opened. -/
  texts : List String
  mem_texts : ∀ {name file}, openFile name = .ok file → file.text ∈ texts

namespace Resolver

/-- Serves texts by name.  It knows no paths. -/
def memory (files : List (String × String)) : Resolver where
  nameOf? _ := none
  openFile name :=
    match files.lookup name with
    | none => .error (.fileNotFound name)
    | some text =>
      if text.utf8ByteSize > maxFileSize then .error (.fileTooLarge name) else .ok ⟨none, text⟩
  texts := files.map Prod.snd
  mem_texts := by
    intro name file h
    split at h
    · cases h
    · next text hl =>
      split at h
      · cases h
      · cases h
        obtain ⟨l₁, l₂, e, _⟩ := List.lookup_eq_some_iff.mp hl
        rw [e]
        simp

/-- Reads the file with a name at a path of a disk. -/
def readFile (disk : Disk) (name path : String) : Except Error SourceFile :=
  match disk.read path with
  | .error .notFound => .error (.fileNotFound name)
  | .error fault => .error (.openFailed name path fault.text)
  | .ok content =>
    if content.size > maxFileSize then .error (.fileTooLarge name)
    else
      match content.text? with
      | some text => .ok ⟨some path, text⟩
      | none => .error (.fileNotUtf8 name)

/-- The text of a content that is a source file. -/
def sourceText? (c : Content) : Option String :=
  if c.size > maxFileSize then none else c.text?

theorem mem_of_readFile {disk : Disk} {name path : String} {file : SourceFile}
    (h : readFile disk name path = .ok file) :
    file.text ∈ disk.contents.filterMap sourceText? := by
  unfold readFile at h
  split at h
  · cases h
  · cases h
  · next content hr =>
    split at h
    · cases h
    · next hs =>
      split at h
      · next text ht =>
        cases h
        rw [List.mem_filterMap]
        exact ⟨content, Disk.mem_contents_of_read hr, by simp [sourceText?, hs, ht]⟩
      · cases h

/-- Serves the files below an include directory of a disk. -/
def directory (disk : Disk) (dir : String) : Resolver where
  nameOf? path := Path.nameUnder? dir path
  openFile name := readFile disk name (Path.join dir name)
  texts := disk.contents.filterMap sourceText?
  mem_texts h := mem_of_readFile h

/-- Serves no file.  Names that are listed fail with the error given for them. -/
def failing (errors : List (String × Error)) : Resolver where
  nameOf? _ := none
  openFile name := .error ((errors.lookup name).getD (.fileNotFound name))
  texts := []
  mem_texts h := by cases h

/-- The file of the first resolver that has it.  An error other than a missing file ends the
search. -/
def openFirst (name : String) : List Resolver → Except Error SourceFile
  | [] => .error (.fileNotFound name)
  | r :: rs =>
    match r.openFile name with
    | .ok file => .ok file
    | .error e => if e.isFileNotFound then openFirst name rs else .error e

theorem mem_of_openFirst {name : String} {rs : List Resolver} {file : SourceFile}
    (h : openFirst name rs = .ok file) : file.text ∈ rs.flatMap texts := by
  induction rs with
  | nil => cases h
  | cons r rs ih =>
    rw [List.flatMap_cons, List.mem_append]
    unfold openFirst at h
    split at h
    · next f hf =>
      cases h
      exact .inl (r.mem_texts hf)
    · split at h
      · exact .inr (ih h)
      · cases h

/-- Asks several resolvers in turn. -/
def chain (rs : List Resolver) : Resolver where
  nameOf? path := rs.findSome? fun r => r.nameOf? path
  openFile name := openFirst name rs
  texts := rs.flatMap texts
  mem_texts h := mem_of_openFirst h

/-- A chain on one line, of which only the length is shown. -/
def chainSummary (rs : List Resolver) : String :=
  "ChainFileResolver \x7b len: " ++ toString rs.length ++ ", .. \x7d"

/-- A chain of include directories. -/
def directories (disk : Disk) (dirs : List String) : Resolver := chain (dirs.map (directory disk))

end Resolver

/-- Fails if the file that was opened for `name` is not the one at the path `expected`: then an
earlier include directory holds a file of that name. -/
def checkShadow (name : String) (actual : Option String) (expected : String) :
    Except Error Unit :=
  match actual with
  | none => .ok ()
  | some path =>
    if Path.endsWith path expected then .ok () else .error (.fileShadowed name expected path)

end ProtoSchema
