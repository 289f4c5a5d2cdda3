import ProtoSchema.CommandLine.Arguments
import ProtoSchema.Compiler.Output
import ProtoSchema.Descriptor.Wire

/-! # The program

What the program does for given arguments on a given disk: its texts, and a file to write after
them.  Exit status 0 is success, 1 a file that cannot be compiled or written, 2 arguments that are
not in order. -/

namespace ProtoSchema.CommandLine

/-- What a run puts out. -/
structure Outcome where
  /-- The exit status, unless writing fails. -/
  status : Nat
  stdout : String := ""
  stderr : String := ""
  /-- The path and the content of the file to write. -/
  output : Option (String × List UInt8) := none
deriving DecidableEq, Repr, Inhabited

/-- The listed files, each behind a comment with its name. -/
def dumpText (c : Compiler) : String :=
  String.join (c.sources.map fun s => "// " ++ s.1 ++ "\n" ++ s.2)

/-- One line for each warning. -/
def warningText (c : Compiler) : String :=
  String.join (c.warnings.map fun w => w.line ++ "\n")

/-- What is put out when all files are compiled. -/
def success (s : Settings) (c : Compiler) : Outcome :=
  { status := 0
    stdout := if s.dump then dumpText c else ""
    stderr := warningText c
    output := s.output.map fun path => (path, Descriptor.encodeSet c.descriptors) }

/-- What is put out for an error. -/
def failure (warnings : String) (e : Error) : Outcome :=
  { status := 1, stderr := warnings ++ "error: " ++ e.line ++ "\n" }

/-- Compiles the files of some settings. -/
def compileFiles (disk : Disk) (s : Settings) : Outcome :=
  match Compiler.searching disk s.directories with
  | .error e => failure "" e
  | .ok c =>
    match Compiler.openFiles s.files { c with includeImports := s.includeImports } with
    | .ok () c => success s c
    | .error e c => failure (warningText c) e

/-- Only malformed arguments are a failure. -/
def Stop.outcome : Stop → Outcome
  | help => { status := 0, stdout := helpText }
  | version => { status := 0, stdout := versionText }
  | malformed => { status := 2, stderr := "error: invalid arguments\n\n" ++ usage }

/-- What the program does for some arguments. -/
def outcome (disk : Disk) (args : List String) : Outcome :=
  match settings args with
  | .error stop => stop.outcome
  | .ok s => compileFiles disk s

/-- Writes the output: the exit status and the disk after the run. -/
def Outcome.finish (o : Outcome) (disk : Disk) : Nat × Disk :=
  match o.output with
  | none => (o.status, disk)
  | some (path, bytes) =>
    match disk.write path (.bytes ⟨bytes.toArray⟩) with
    | .error _ => (1, disk)
    | .ok disk => (o.status, disk)

end ProtoSchema.CommandLine
