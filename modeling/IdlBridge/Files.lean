import IdlBridge.Text.Table
import IdlBridge.Text.Case

/-! # Paths and disks

    The files a conversion can see are a table from places to contents, a place being the names on
    the way from the root. Paths are kept as they are written, apart from empty and `.` components;
    two paths reach the same file when they lead to the same place after `..` has been followed,
    which needs the folders on the way to exist.
-/

namespace IdlBridge

/-- A path: its components, below the root of all folders or below the working folder. -/
structure Path where
  absolute : Bool
  parts : List Text
deriving DecidableEq

namespace Path

/-- Reads a path. -/
def ofText (t : Text) : Path :=
  ⟨t.head? = some ('/' : CodePoint), (Text.splitOn '/' t).filter fun p => p ≠ [] ∧ p ≠ "."⟩

/-- Writes a path. -/
def toText (p : Path) : Text :=
  if p.absolute then "/" ++ Text.join "/" p.parts
  else if p.parts = [] then "."
  else Text.join "/" p.parts

/-- The path `q` seen from the folder `p`. -/
def append (p q : Path) : Path :=
  if q.absolute then q else ⟨p.absolute, p.parts ++ q.parts⟩

/-- The folder of a path. -/
def parent (p : Path) : Path :=
  ⟨p.absolute, p.parts.dropLast⟩

/-- The last component. -/
def fileName (p : Path) : Text :=
  p.parts.getLastD []

/-- The last component from its last point on, in lower case. There is none where the only point
    is the first character, or where the last character is a point. -/
def suffix (p : Path) : Text :=
  let name := p.fileName
  let tail := Text.afterLast '.' name
  if tail = [] ∨ name.length ≤ tail.length + 1 then []
  else Text.lower ("." ++ tail)

end Path

/-- What a file holds: octets. -/
abbrev Octets := List Nat

/-- The files that a conversion can see. -/
structure Disk where
  /-- The working folder, where paths start that do not start at the root. -/
  here : List Text
  files : List (List Text × Octets)

namespace Disk

/-- The place is a folder: the working folder or a file lies at or below it. -/
def isFolder (d : Disk) (place : List Text) : Bool :=
  place.isPrefixOf d.here ||
    d.files.any fun f => place.isPrefixOf f.1 && place.length < f.1.length

/-- The folder where a path starts, with its innermost name first. -/
def start (d : Disk) (p : Path) : List Text :=
  if p.absolute then [] else d.here.reverse

/-- Follows the components of a path from a folder, which is given with its innermost name first. A
    component that is followed by another one has to be a folder; nothing is above the root. -/
def walk (d : Disk) : (folder : List Text) → (parts : List Text) → Option (List Text)
  | folder, [] => some folder.reverse
  | folder, p :: rest =>
    if d.isFolder folder.reverse then walk d (if p = ".." then folder.drop 1 else p :: folder) rest
    else none

/-- The place of the file that a path leads to. -/
def find? (d : Disk) (p : Path) : Option (List Text) :=
  (d.walk (d.start p) p.parts).filter fun place => d.files.any (·.1 = place)

/-- The contents of a file. -/
def contents? (d : Disk) (place : List Text) : Option Octets :=
  (d.files.find? (·.1 = place)).map (·.2)

/-! ## Writing -/

/-- A folder that has been made: its place with the innermost name first, and the folders on the
    way. -/
structure Made where
  folder : List Text
  passed : List (List Text)

/-- Follows the components of a path from a folder, which is given with its innermost name first,
    and makes the folders that are missing; `none` if a file is in the way. -/
def make (d : Disk) : (folder : List Text) → (passed : List (List Text)) → (parts : List Text) →
    Option Made
  | folder, passed, [] => some ⟨folder, passed⟩
  | folder, passed, p :: rest =>
    if p = ".." then
      let outer := folder.drop 1
      make d outer (outer.reverse :: passed) rest
    else
      let place := (p :: folder).reverse
      if d.files.any (·.1 = place) then none else make d (p :: folder) (place :: passed) rest

/-- Makes the folders that a file written to a path needs. -/
def makeFor (d : Disk) (path : Text) : Option Made :=
  let p := Path.ofText (path.take (path.length - (Text.afterLast '/' path).length))
  d.make (d.start p) [] p.parts

/-- The place of a file written to a path, for which folders have been made; `none` if a folder is
    there. -/
def target? (d : Disk) (made : Made) (path : Text) : Option (List Text) :=
  let p := Path.ofText path
  match p.parts.getLast?, d.make (d.start p) [] p.parts.dropLast with
  | some name, some inside =>
    let place := (name :: inside.folder).reverse
    if name = ".." ∨ d.isFolder place ∨ place ∈ made.passed then none else some place
  | _, _ => none

end Disk

end IdlBridge
