import IdlBridge.Value.Basic

/-! # References inside a document

    A local reference is `#/` and the keys that lead from the root of the document to a value,
    with slashes between them. In a key `~1` stands for a slash and `~0` for a tilde.
-/

namespace IdlBridge.Spec

/-- Why a reference leads nowhere. -/
inductive PointerError where
  /-- The reference leads out of the document. -/
  | nonLocal (ref : Text)
  /-- Some key on the way is missing. -/
  | unresolvable (ref : Text)
deriving DecidableEq

namespace PointerError

/-- The error in words. -/
def message : PointerError → Text
  | .nonLocal ref => "unsupported non-local reference " ++ ref
  | .unresolvable ref => "unresolvable reference " ++ ref

end PointerError

namespace Pointer

/-- What local references start with. -/
def lead : Text := "#/"

/-- The key that a segment of a reference stands for. -/
def unescape (segment : Text) : Text :=
  Text.replacePair '~' '0' "~" (Text.replacePair '~' '1' "/" segment)

/-- The keys of a local reference. -/
def keys (ref : Text) : List Text :=
  (Text.splitOn '/' (ref.drop lead.length)).map unescape

/-- The value that keys lead to. -/
def follow : Value → List Text → Option Value
  | v, [] => some v
  | v, k :: ks => (v.get? k).bind fun w => follow w ks

/-- The value that a reference leads to. -/
def resolve (doc : Value) (ref : Text) : Except PointerError Value :=
  if Text.startsWith ref lead then
    match follow doc (keys ref) with
    | some v => .ok v
    | none => .error (.unresolvable ref)
  else .error (.nonLocal ref)

/-- The section of the components that a reference leads into. -/
def section? (ref : Text) : Option Text :=
  match Text.splitOn '/' ref with
  | root :: top :: name :: _ => if root = "#" ∧ top = "components" then some name else none
  | _ => none

end Pointer

end IdlBridge.Spec
