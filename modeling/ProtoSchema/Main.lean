import ProtoSchema.CommandLine.Run

/-! # The executable

Reads the include directories into a `Disk`, runs the program on it and does what the program
says. -/

namespace ProtoSchema.CommandLine

/-- An entry of a directory with all that is below it; what cannot be read is left out. -/
partial def readEntry (e : IO.FS.DirEntry) : IO (Option (String × Entry)) := do
  try
    if ← e.path.isDir then
      let entries ← (← e.path.readDir).toList.filterMapM readEntry
      return some (e.fileName, .directory entries)
    else
      return some (e.fileName, .file (.bytes (← IO.FS.readBinFile e.path)))
  catch _ => return none

/-- Adds an include directory to a disk, as it is named and where it really is. -/
def addDirectory (disk : Disk) (dir : String) : IO Disk := do
  try
    let path ← IO.FS.realPath dir
    let directory := Entry.directory (← (← path.readDir).toList.filterMapM readEntry)
    return (disk.add dir directory).add path.toString directory
  catch _ => return disk

/-- Writes the output file: the exit status. -/
def writeOutput (o : Outcome) : IO Nat := do
  match o.output with
  | none => return o.status
  | some (path, bytes) =>
    try
      IO.FS.writeBinFile path ⟨bytes.toArray⟩
      return o.status
    catch e =>
      IO.eprintln s!"error: {e}"
      return 1

/-- The disk as far as the settings can reach it. -/
def readDisk (args : List String) : IO Disk := do
  let here := (Text.split '/' (← IO.currentDir).toString).filter (· ≠ "")
  let directories := match settings args with
    | .ok s => s.directories
    | .error _ => []
  directories.foldlM addDirectory (Disk.withDirectory here)

end ProtoSchema.CommandLine

/-- Does what the arguments ask for; the exit status. -/
def main (args : List String) : IO UInt32 := do
  let disk ← ProtoSchema.CommandLine.readDisk args
  let outcome := ProtoSchema.CommandLine.outcome disk args
  IO.print outcome.stdout
  IO.eprint outcome.stderr
  return (← ProtoSchema.CommandLine.writeOutput outcome).toUInt32
