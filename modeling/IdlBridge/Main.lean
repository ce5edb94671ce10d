import IdlBridge.Command.Run

/-! # The program

    Reads the files that a request needs from the disk, runs the request, and shows and writes what
    the run has left behind.
-/

namespace IdlBridge.Program

open Command

/-- A text for the operating system; what it cannot hold becomes a question mark. -/
def toSystem (t : Text) : String :=
  String.ofList (t.map fun c => if h : c.toNat.isValidChar then Char.ofNatAux c.toNat h else '?')

/-- The contents of a file, if it can be read. -/
def read? (path : Text) : IO (Option Octets) := do
  try
    let bytes ← IO.FS.readBinFile (toSystem path)
    return some (bytes.toList.map UInt8.toNat)
  catch _ => return none

/-- The place that a path leads to if all folders on the way exist. -/
def placeOf (disk : Disk) (p : Path) : List Text :=
  (p.parts.foldl (fun folder (name : Text) =>
    if name = ".." then folder.drop 1 else name :: folder) (disk.start p)).reverse

/-- Adds files to a disk; the paths that have been tried are not tried again. -/
def addFiles (disk : Disk) (tried : List Path) : List Path → IO (Disk × List Path)
  | [] => return (disk, tried)
  | p :: rest => do
    if p ∈ tried then addFiles disk tried rest
    else
      match ← read? p.toText with
      | some octets =>
        let file := (placeOf disk p, octets)
        addFiles { disk with files := disk.files ++ [file] } (p :: tried) rest
      | none => addFiles disk (p :: tried) rest

/-- Adds the files that files of a disk lead to, until there are no more. -/
partial def addReferred (includePaths : List Path) (main : Path) (disk : Disk) (tried : List Path) :
    IO Disk := do
  let (disk', tried) ← addFiles disk tried (Reflection.referredPaths ⟨disk, includePaths⟩ main)
  if disk'.files.length = disk.files.length then return disk
  else addReferred includePaths main disk' tried

/-- The disk that a request needs. -/
def diskFor (r : Request) : IO Disk := do
  let here := Path.ofText (Text.ofString (← IO.currentDir).toString)
  let disk : Disk := ⟨here.parts, []⟩
  match r with
  | .help _ => return disk
  | .convert _ (.toProto t) => return (← addFiles disk [] [.ofText t.spec]).1
  | .convert _ (.toOpenApi t) =>
    let main := Path.ofText t.idl
    let (disk, tried) ← addFiles disk [] [main]
    addReferred (t.includes.map Path.ofText) main disk tried

/-- Writes a file, with the folders that it needs. -/
def write (w : Written) : IO Unit := do
  let name := Text.afterLast '/' w.path
  let folder := w.path.take (w.path.length - name.length)
  if folder ≠ [] then IO.FS.createDirAll (toSystem folder)
  IO.FS.writeBinFile (toSystem w.path) ⟨(w.contents.map UInt8.ofNat).toArray⟩

/-- Runs a request, and gives the exit code. -/
def run (r : Request) : IO UInt32 := do
  let (ending, t) := r.perform (← diskFor r)
  IO.print (toSystem t.out)
  IO.eprint (toSystem t.err)
  if let some w := t.written then write w
  match ending with
  | .ok () => return 0
  | .error (.exit code) => return code.toUInt32
  | .error (.fault f) =>
    IO.eprintln (toSystem f.message)
    return 1

/-- Runs a command line, and gives the exit code. -/
def runWords (words : List String) : IO UInt32 := do
  match Request.ofWords (words.map Text.ofString) with
  | .ok r => run r
  | .error e =>
    IO.eprintln (toSystem ("swagger-idl: error: " ++ e.message))
    return 2

end IdlBridge.Program

/-- The program. -/
def main (args : List String) : IO UInt32 :=
  IdlBridge.Program.runWords args
