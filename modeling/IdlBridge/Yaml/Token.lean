import IdlBridge.Text.Basic

/-! # Tokens of a document

    Indentation and the marks of simple keys are tokens of their own: `blockSequenceStart`,
    `blockMappingStart` and `blockEnd` stand where the indentation changes, and `key` stands before
    a key whether it was marked or not.
-/

namespace IdlBridge.Yaml

/-- A tag as it is written: its handle, if it has one, and the rest. -/
structure RawTag where
  handle : Option Text
  suffix : Text
deriving DecidableEq

/-- A line that starts with a percent sign. -/
inductive Directive where
  | version (major : Nat)
  | tag (handle lead : Text)
  | other
deriving DecidableEq

/-- A token. -/
inductive Token where
  | streamEnd
  | directive (d : Directive)
  | documentStart
  | documentEnd
  | blockSequenceStart
  | blockMappingStart
  | blockEnd
  | flowSequenceStart
  | flowMappingStart
  | flowSequenceEnd
  | flowMappingEnd
  | flowEntry
  | blockEntry
  | key
  | value
  | aliasOf (name : Text)
  | anchor (name : Text)
  | tag (t : RawTag)
  /-- A scalar; `plain` tells whether it was written without quotes. -/
  | scalar (t : Text) (plain : Bool)
deriving DecidableEq

end IdlBridge.Yaml
