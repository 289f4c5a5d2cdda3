import ProtoSchema.Text.Split

/-! # Command line arguments

Words are read from left to right, and the first that is not in order ends the reading.  A word
with two dashes is the long name of a switch, a word with one dash a cluster of switches of one
letter each, and any other word the path of a file.  Switches that take a value take the rest of
their word, or else the next word, which must not look like a switch itself.  Behind a word of two
dashes alone there are only paths.  No path may be empty. -/

namespace ProtoSchema.CommandLine

/-! ### Switches -/

/-- What the switches of the program mean. -/
inductive Switch where
  | directory | output | includeImports | dump | verbose | help | version
deriving DecidableEq, Repr, Inhabited

namespace Switch

/-- The switch of a letter in a cluster. -/
def ofLetter? : Char → Option Switch
  | 'I' => some directory
  | 'o' => some output
  | 'v' => some verbose
  | 'h' => some help
  | 'V' => some version
  | _ => none

/-- The long names, some of which mean the same. -/
def longNames : List (String × Switch) :=
  [("include", directory), ("proto_path", directory), ("output", output),
    ("descriptor_set_out", output), ("include-imports", includeImports),
    ("include_imports", includeImports), ("dump", dump), ("verbose", verbose), ("help", help),
    ("version", version)]

/-- The switch of a long name. -/
def ofName? (name : String) : Option Switch := longNames.lookup name

/-- Does a switch need a value? -/
def takesValue : Switch → Bool
  | directory | output => true
  | _ => false

end Switch

/-! ### Settings -/

/-- What the arguments ask for. -/
structure Settings where
  /-- The paths of the files to compile. -/
  files : List String := []
  /-- The include directories. -/
  includes : List String := []
  /-- Where the descriptors are written to. -/
  output : Option String := none
  includeImports : Bool := false
  /-- Are the files printed? -/
  dump : Bool := false
deriving DecidableEq, Repr, Inhabited

/-- Why nothing is compiled. -/
inductive Stop where
  | help | version | malformed
deriving DecidableEq, Repr, Inhabited

namespace Settings

/-- Adds the path of a file. -/
def addFile (s : Settings) (path : String) : Except Stop Settings :=
  if path = "" then .error .malformed else .ok { s with files := s.files ++ [path] }

/-- Turns on a switch without value.  It may be repeated only if that changes nothing. -/
def turnOn (s : Settings) : Switch → Except Stop Settings
  | .includeImports =>
    if s.includeImports then .error .malformed else .ok { s with includeImports := true }
  | .dump => if s.dump then .error .malformed else .ok { s with dump := true }
  | .verbose => .ok s
  | .help => .error .help
  | .version => .error .version
  | .directory | .output => .error .malformed

/-- Gives a switch its value.  There is only one output. -/
def setValue (s : Settings) (switch : Switch) (value : String) : Except Stop Settings :=
  if value = "" then .error .malformed
  else
    match switch, s.output with
    | .directory, _ => .ok { s with includes := s.includes ++ [value] }
    | .output, none => .ok { s with output := some value }
    | _, _ => .error .malformed

/-- The include directories, or the working directory if none are given. -/
def directories (s : Settings) : List String := if s.includes = [] then ["."] else s.includes

end Settings

/-! ### Reading -/

/-- The settings so far, and the switch that waits for the next word as its value. -/
structure Progress where
  settings : Settings
  pending : Option Switch := none
deriving DecidableEq, Repr, Inhabited

/-- Gives a switch its value at once, or waits for it. -/
def withValue (s : Settings) (switch : Switch) : Option String → Except Stop Progress
  | none => .ok ⟨s, some switch⟩
  | some value => (s.setValue switch value).map fun s => ⟨s, none⟩

/-- The value in the rest of a cluster; an equals sign in front of it is dropped. -/
def restOfCluster : List Char → Option String
  | [] => none
  | '=' :: cs => some (String.ofList cs)
  | cs => some (String.ofList cs)

/-- Reads a cluster of switches. -/
def readCluster (s : Settings) : List Char → Except Stop Progress
  | [] => .ok ⟨s, none⟩
  | c :: cs =>
    match Switch.ofLetter? c with
    | none => .error .malformed
    | some switch =>
      if switch.takesValue then withValue s switch (restOfCluster cs)
      else
        match s.turnOn switch with
        | .error e => .error e
        | .ok s => readCluster s cs

/-- Reads a long name with the value behind its first equals sign. -/
def readLong (s : Settings) (cs : List Char) : Except Stop Progress :=
  let name := cs.takeWhile (· ≠ '=')
  let value? : Option String :=
    match cs.drop name.length with
    | [] => none
    | _ :: value => some (String.ofList value)
  match Switch.ofName? (String.ofList name), value? with
  | none, _ => .error .malformed
  | some switch, value? =>
    if switch.takesValue then withValue s switch value?
    else
      match value? with
      | some _ => .error .malformed
      | none => (s.turnOn switch).map fun s => ⟨s, none⟩

/-- Does a word begin with a dash and go on behind it? -/
def looksLikeSwitch (word : String) : Bool :=
  match word.toList with
  | '-' :: _ :: _ => true
  | _ => false

/-- Reads a word when no switch waits for it. -/
def readWord (s : Settings) (word : String) : Except Stop Progress :=
  match word.toList with
  | '-' :: '-' :: cs => readLong s cs
  | '-' :: c :: cs => readCluster s (c :: cs)
  | _ => (s.addFile word).map fun s => ⟨s, none⟩

/-- Reads the words that follow. -/
def readWords (p : Progress) : List String → Except Stop Settings
  | [] =>
    match p.pending with
    | none => .ok p.settings
    | some _ => .error .malformed
  | word :: words =>
    match p.pending with
    | some switch =>
      if looksLikeSwitch word then .error .malformed
      else
        match p.settings.setValue switch word with
        | .error e => .error e
        | .ok s => readWords ⟨s, none⟩ words
    | none =>
      if word = "--" then words.foldlM Settings.addFile p.settings
      else
        match readWord p.settings word with
        | .error e => .error e
        | .ok p => readWords p words

/-- The settings that the arguments ask for. -/
def settings (args : List String) : Except Stop Settings :=
  match readWords ⟨{}, none⟩ args with
  | .error e => .error e
  | .ok s => if s.files = [] then .error .malformed else .ok s

example : (settings ["-vIone", "--output=o", "a.proto"]).toOption =
    some { files := ["a.proto"], includes := ["one"], output := some "o" } := by decide +kernel
example : (settings ["-o", "-", "--", "--dump"]).toOption =
    some { files := ["--dump"], output := some "-" } := by decide +kernel
example : (settings ["a.proto", "-I", "--dump"]).toOption = none := by decide +kernel

/-! ### Texts -/

/-- Name and version of the program. -/
def versionText : String := "pbng 0.1.0\n"

/-- The form of a command line. -/
def usage : String := "Usage: pbng [OPTIONS] <FILES>...\n"

/-- What the program does and which switches there are. -/
def helpText : String :=
  "Front end of a protobuf-style schema compiler: scanning, parsing and type resolution.\n\n" ++
    usage ++
    "\nArguments:\n" ++
    "  <FILES>...  The source file(s) to compile\n" ++
    "\nOptions:\n" ++
    "  -I, --include <PATH>   The directory in which to search for imports. May be repeated; " ++
    "earlier directories take precedence [default: .] [alias: --proto_path]\n" ++
    "  -o, --output <PATH>    The output path to write an encoded file descriptor set to " ++
    "[alias: --descriptor_set_out]\n" ++
    "      --include-imports  If set, all dependencies of the input files are output, so that " ++
    "the output is self-contained [alias: --include_imports]\n" ++
    "      --dump             Print each resolved file as source text, with fully-qualified " ++
    "type names\n" ++
    "  -v, --verbose...       Increase logging verbosity. May be repeated\n" ++
    "  -h, --help             Print help\n" ++
    "  -V, --version          Print version\n"

end ProtoSchema.CommandLine
