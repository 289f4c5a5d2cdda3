import ProtoSchema.Source.Path

/-! # Directory trees

A `Disk` is what a program can see of the files of a machine: a tree of directories, in which one
is the working directory.  Paths are walked piece by piece as an operating system does it: every
piece but the last must lead to a directory, `.` and an empty piece stay there, and `..` goes up.
A fault has the text that the operating system gives it. -/

namespace ProtoSchema

/-- The bytes of a file; a run of zeros may be too long to be written out. -/
inductive Content where
  | bytes (b : ByteArray)
  | zeros (size : Nat)

namespace Content

instance : Inhabited Content := ⟨.zeros 0⟩

def size : Content → Nat
  | bytes b => b.size
  | zeros n => n

def toByteArray : Content → ByteArray
  | bytes b => b
  | zeros n => ⟨Array.replicate n 0⟩

/-- The text that the bytes encode, if they are UTF-8. -/
def text? (c : Content) : Option String := String.fromUTF8? c.toByteArray

end Content

/-- An entry of a directory tree. -/
inductive Entry where
  | file (content : Content)
  | directory (entries : List (String × Entry))

namespace Entry

instance : Inhabited Entry := ⟨.directory []⟩

/-- The entries of a directory; a file has none. -/
def entries : Entry → List (String × Entry)
  | file _ => []
  | directory es => es

/-- The entry with the path of names `names` below an entry. -/
def find? (e : Entry) : List String → Option Entry
  | [] => some e
  | name :: names =>
    match e.entries.lookup name with
    | some e => find? e names
    | none => none

/-- Puts an entry at a path of names, making the directories on the way; a file on the way gives
way to a directory. -/
def put (e : Entry) (new : Entry) : List String → Entry
  | [] => new
  | name :: names =>
    let es := e.entries
    match es.lookup name with
    | some old => directory (es.map fun p => if p.1 = name then (name, put old new names) else p)
    | none => directory (es ++ [(name, put (directory []) new names)])

/-- The contents of all files in a tree. -/
def contents : Entry → List Content
  | file c => [c]
  | directory [] => []
  | directory ((_, e) :: es) => contents e ++ contents (directory es)

end Entry

/-- Why a file cannot be read or written. -/
inductive DiskFault where
  | notFound
  | isDirectory
  | notDirectory
  | nameTooLong
  | zeroByte
deriving DecidableEq, Repr, Inhabited

def DiskFault.text : DiskFault → String
  | notFound => "No such file or directory (os error 2)"
  | isDirectory => "Is a directory (os error 21)"
  | notDirectory => "Not a directory (os error 20)"
  | nameTooLong => "File name too long (os error 36)"
  | zeroByte => "file name contained an unexpected NUL byte"

/-- A directory tree with a working directory. -/
structure Disk where
  root : Entry := .directory []
  /-- The names on the way from the root to the directory where relative paths begin. -/
  workingDirectory : List String := []

namespace Disk

/-- The largest number of bytes in one component. -/
def maxNameSize : Nat := 255

/-- The number of bytes from which on a path is too long. -/
def pathLimit : Nat := 4096

/-- One step of a walk: from the directory at `names` along `piece`.  Nothing is above the root. -/
def step (disk : Disk) (names : List String) (piece : String) : Except DiskFault (List String) :=
  match disk.root.find? names with
  | some (.directory es) =>
    if piece = "" ∨ piece = "." then .ok names
    else if piece = ".." then .ok names.dropLast
    else if piece.utf8ByteSize > maxNameSize then .error .nameTooLong
    else if (es.lookup piece).isSome then .ok (names ++ [piece])
    else .error .notFound
  | some (.file _) => .error .notDirectory
  | none => .error .notFound

/-- Where a path begins. -/
def start (disk : Disk) (path : String) : List String :=
  if Path.isAbsolute path then [] else disk.workingDirectory

/-- Tests a path before it is walked. -/
def checkPath (path : String) : Except DiskFault Unit :=
  if path.toList.any (·.toNat = 0) then .error .zeroByte
  else if path = "" then .error .notFound
  else if path.utf8ByteSize ≥ pathLimit then .error .nameTooLong
  else .ok ()

/-- Where a path leads: the names from the root to an entry. -/
def locate (disk : Disk) (path : String) : Except DiskFault (List String) :=
  match checkPath path with
  | .error f => .error f
  | .ok () => (Text.split '/' path).foldlM disk.step (disk.start path)

/-- The content of the file at a path. -/
def read (disk : Disk) (path : String) : Except DiskFault Content :=
  match disk.locate path with
  | .error f => .error f
  | .ok names =>
    match disk.root.find? names with
    | some (.file c) => .ok c
    | some (.directory _) => .error .isDirectory
    | none => .error .notFound

/-- Puts a file at the name `piece` in the directory at `names`. -/
def writeIn (disk : Disk) (names : List String) (piece : String) (content : Content) :
    Except DiskFault Disk :=
  match disk.root.find? names with
  | some (.directory es) =>
    if piece = "" ∨ piece = "." ∨ piece = ".." then .error .isDirectory
    else if piece.utf8ByteSize > maxNameSize then .error .nameTooLong
    else
      match es.lookup piece with
      | some (.directory _) => .error .isDirectory
      | _ => .ok { disk with root := disk.root.put (.file content) (names ++ [piece]) }
  | some (.file _) => .error .notDirectory
  | none => .error .notFound

/-- Puts a file at a path, in a directory that exists. -/
def write (disk : Disk) (path : String) (content : Content) : Except DiskFault Disk :=
  match checkPath path with
  | .error f => .error f
  | .ok () =>
    let pieces := Text.split '/' path
    match pieces.dropLast.foldlM disk.step (disk.start path) with
    | .error f => .error f
    | .ok names => disk.writeIn names (pieces.getLast?.getD "") content

/-! ### Building a disk -/

/-- The names from the root that a path without components `..` spells. -/
def namesOf (disk : Disk) (path : String) : List String :=
  disk.start path ++ (Text.split '/' path).filter fun p => p ≠ "" ∧ p ≠ "."

/-- Puts an entry at a path, making the directories above it. -/
def add (disk : Disk) (path : String) (e : Entry) : Disk :=
  { disk with root := disk.root.put e (disk.namesOf path) }

/-- Puts an empty directory at a path, unless there is an entry. -/
def addDirectory (disk : Disk) (path : String) : Disk :=
  match disk.root.find? (disk.namesOf path) with
  | some _ => disk
  | none => disk.add path (.directory [])

/-- A disk with nothing but an empty working directory. -/
def withDirectory (names : List String) : Disk :=
  { root := (Entry.directory []).put (.directory []) names, workingDirectory := names }

/-- All contents that can be read. -/
def contents (disk : Disk) : List Content := disk.root.contents

end Disk

/-- What is found along a path of names is among the contents of the tree. -/
theorem Entry.mem_contents_of_find? {e : Entry} {names : List String} {c : Content}
    (h : e.find? names = some (.file c)) : c ∈ e.contents := by
  induction names generalizing e with
  | nil =>
    simp only [Entry.find?, Option.some.injEq] at h
    subst h
    simp [Entry.contents]
  | cons name names ih =>
    simp only [Entry.find?] at h
    split at h
    · next e' he =>
      have hc := ih h
      cases e with
      | file _ => simp [Entry.entries] at he
      | directory es =>
        simp only [Entry.entries] at he
        clear h ih
        induction es with
        | nil => simp at he
        | cons p es ihs =>
          obtain ⟨n, e₀⟩ := p
          rw [Entry.contents, List.mem_append]
          rw [List.lookup_cons] at he
          split at he
          · cases he; exact .inl hc
          · exact .inr (ihs he)
    · cases h

theorem Disk.mem_contents_of_read {disk : Disk} {path : String} {c : Content}
    (h : disk.read path = .ok c) : c ∈ disk.contents := by
  unfold Disk.read at h
  split at h
  · cases h
  · split at h
    · next hf =>
      cases h
      exact Entry.mem_contents_of_find? hf
    · cases h
    · cases h

end ProtoSchema
