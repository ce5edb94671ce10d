import IdlBridge.Annotation
import IdlBridge.Text.Quoted
import IdlBridge.Yaml.Document

/-! # Structured payloads

    The payload of an annotation is a document of its own that holds a mapping. An empty document
    counts as the empty mapping.
-/

namespace IdlBridge

/-- Why a payload is refused. -/
inductive PayloadError where
  | malformed (text : Text)
  /-- The payload holds data of another kind. -/
  | notMapping (kind : Text)
  /-- The payload holds a scalar that stands for nothing. -/
  | impossible
deriving DecidableEq

namespace PayloadError

/-- The error in words. -/
def message : PayloadError → Text
  | .malformed text => "invalid annotation payload " ++ text.quoted
  | .notMapping kind => "annotation payload must be a mapping, got " ++ kind
  | .impossible => "impossible scalar"

end PayloadError

namespace Annotation

/-- The mapping that an annotation's first text holds, as it is loaded. -/
def data (a : Annotation) : Except PayloadError Loaded :=
  let t := a.texts.headD []
  match Yaml.read t with
  | .error f => .error (if f.isMalformed then .malformed t else .impossible)
  | .ok x =>
    match x.plain with
    | .null => .ok (.map none [])
    | .map _ => .ok x
    | v => .error (.notMapping v.typeName)

/-- The entries of the mapping that an annotation's first text holds. -/
def mapping (a : Annotation) : Except PayloadError Value.Entries :=
  a.data.map fun x =>
    match x.plain with
    | .map es => es
    | _ => []

end Annotation

namespace Annotations

/-- The mapping of a key as it is loaded, if the key is there. -/
def data? (as : Annotations) (key : Text) : Option (Except PayloadError Loaded) :=
  (as.get? key).map Annotation.data

/-- The entries of the mapping of a key, if the key is there. -/
def mapping? (as : Annotations) (key : Text) : Option (Except PayloadError Value.Entries) :=
  (as.get? key).map Annotation.mapping

end Annotations

end IdlBridge
