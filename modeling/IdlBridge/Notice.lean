import IdlBridge.Text.Quoted

/-! # Notices

    What a conversion has to say besides its result. Warnings are always shown, the other notices
    only when they are asked for. `Journal` is a computation that leaves notices behind, `Noted`
    one that may also fail; the notices left before a failure are kept.
-/

namespace IdlBridge

/-- Something worth mentioning. -/
inductive Notice where
  | parsed (path : Text)
  | includeNotFound (name path : Text)
  | importNotFound (name path : Text)
  | wellKnownImport (name : Text)
  | extraArguments (service function : Text)
  | unresolvedType (name scope : Text)
  | streaming (service rpc : Text)
  | validated (source version : Text)
  | convertingSchema (name : Text)
  | convertingOperation (verb path service method : Text)
  | buildingOperation (verb path operation : Text)
  | expandingStruct (name : Text)
  | unknownScalar (name : Text)
  | structNotFound (name : Text)
  | noSingleVerb (key operation : Text)
  | payloadIgnored (key owner : Text)
deriving DecidableEq

namespace Notice

/-- The notice is a warning. -/
def isWarning : Notice → Bool
  | .includeNotFound _ _ | .importNotFound _ _ | .extraArguments _ _ | .structNotFound _
  | .noSingleVerb _ _ | .payloadIgnored _ _ => true
  | _ => false

/-- The part of the program that a notice comes from, as log lines name it. -/
def channel : Notice → Text
  | .parsed _ | .includeNotFound _ _ | .importNotFound _ _ | .wellKnownImport _ =>
    "swagger_idl.reflection"
  | .extraArguments _ _ => "swagger_idl.parser.thrift_transform"
  | .unresolvedType _ _ | .streaming _ _ => "swagger_idl.parser.proto_transform"
  | .validated _ _ => "swagger_idl.spec_loader"
  | .convertingSchema _ | .convertingOperation _ _ _ _ => "swagger_idl.converter"
  | .buildingOperation _ _ _ | .expandingStruct _ | .unknownScalar _ | .structNotFound _
  | .noSingleVerb _ _ | .payloadIgnored _ _ => "swagger_idl.generator.openapi_generator"

/-- The notice in words. -/
def message : Notice → Text
  | .parsed path => "parsed " ++ path
  | .includeNotFound name path => "include '" ++ name ++ "' of " ++ path ++ " not found"
  | .importNotFound name path => "import '" ++ name ++ "' of " ++ path ++ " not found"
  | .wellKnownImport name => "skipping well-known import '" ++ name ++ "'"
  | .extraArguments service function =>
    "function '" ++ service ++ "." ++ function ++
      "' has more than one argument, only the first is used"
  | .unresolvedType name scope => "unresolved type '" ++ name ++ "' in scope '" ++ scope ++ "'"
  | .streaming service rpc =>
    "rpc '" ++ service ++ "." ++ rpc ++ "' is streaming, treated as unary"
  | .validated source version => "validated " ++ source ++ " (OpenAPI " ++ version ++ ")"
  | .convertingSchema name => "converting component schema " ++ name
  | .convertingOperation verb path service method =>
    "converting " ++ verb ++ " " ++ path ++ " as " ++ service ++ "." ++ method
  | .buildingOperation verb path operation =>
    "building " ++ verb ++ " " ++ path ++ " for " ++ operation
  | .expandingStruct name => "expanding struct " ++ name
  | .unknownScalar name => "unknown scalar kind '" ++ name ++ "', emitting an untyped schema"
  | .structNotFound name => "could not find struct '" ++ name ++ "' referenced by a field"
  | .noSingleVerb key operation =>
    key ++ " on " ++ operation ++ " has no single OpenAPI method, skipped"
  | .payloadIgnored key owner => "ignoring " ++ key ++ " on " ++ owner

/-- The log line of a notice. -/
def logLine (n : Notice) : Text :=
  (if n.isWarning then "WARNING " else "DEBUG ") ++ n.channel ++ ": " ++ n.message

end Notice

/-- A computation that leaves notices behind. -/
abbrev Journal := StateM (List Notice)

/-- A computation that leaves notices behind and may fail. -/
abbrev Noted (ε : Type) := ExceptT ε Journal

/-- Leaves a notice. -/
def note (n : Notice) : Journal Unit :=
  modify fun ns => ns ++ [n]

end IdlBridge
