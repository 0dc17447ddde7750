import GraphPlacement.CommandLine

/-!
# The program

**Files.** The files that the arguments may name are taken into a store, the command is run on the
store, and the files that it has created or changed are written back.  Everything else is decided by
`CommandLine.run`.
-/

namespace GraphPlacement.Main

def isFolder (name : String) : IO Bool := do
  try
    (← IO.FS.realPath name).isDir
  catch _ => return false

/-- What is at a location, if it can be read. -/
def entryAt? (l : Location) : IO (Option Entry) := do
  if ← isFolder l.name then return some .folder
  try
    return some (.file (← IO.FS.readBinFile l.name))
  catch _ => return none

/-- The store of what some names lead through. -/
def load (names : List String) : IO Store := do
  let entries ← (names.flatMap Location.ofName).eraseDups.filterMapM fun l => do
    return (← entryAt? l).map fun entry => (l, entry)
  return { entries }

/-- Writes the files back that differ from the ones before. -/
def save (before after : Store) : IO Unit :=
  after.files.forM fun (l, content) => do
    if before.content? l |>.all (·.data != content.data) then IO.FS.writeBinFile l.name content

end GraphPlacement.Main

open GraphPlacement in
/-- Runs the program on the files around it. -/
def main (args : List String) : IO UInt32 := do
  let store ← Main.load args
  let (done, after) := CommandLine.run args store
  Main.save store after
  IO.print done.stdout
  match done.fault with
  | some fault => IO.eprintln fault.message
  | none => pure ()
  return done.status.toUInt32
