import IdlBridge.Naming
import IdlBridge.ScalarType
import IdlBridge.Value.Display
import IdlBridge.Value.Order

/-! # Schemas of a document

    What a schema of a loaded document asks for, decided once: a reference, an array, an object, an
    enumeration or a scalar. A schema that cannot be converted is kept with the reason, because the
    reason only counts when the conversion reaches the schema.
-/

namespace IdlBridge.Spec

/-- The properties of an object beyond the declared ones. -/
inductive Additional (σ : Type) where
  /-- There are none. -/
  | closed
  /-- There are some, and nothing is known about them. -/
  | untyped
  | typed (schema : σ)

/-- A schema. -/
inductive Schema where
  /-- A reference to the schema of a name. -/
  | reference (name : Text)
  /-- An array; the schema of its items may be missing. -/
  | array (items : Option Schema)
  | object (properties : List (Value × Schema)) (additional : Additional Schema)
  | enumeration (values : List Text)
  /-- A scalar that becomes a Protocol Buffers type. -/
  | scalar (protoType : Text)
  /-- No type is given. -/
  | untyped
  /-- The type is none of the data model. -/
  | unknownType (shown : Text)
  /-- Some part is data of the wrong shape. -/
  | misshapen

namespace Schema

/-- The only type that a schema gives, null aside. -/
def soleType? (type : Value) : Option Value :=
  if !type.isTruthy then none
  else
    match type with
    | .list ts =>
      match ts.find? fun t => !t.same (.text "null") with
      | some .null | none => none
      | some t => some t
    | t => some t

/-- Data is shown item by item. -/
def displayAll? : List Value → Option (List Text)
  | [] => some []
  | v :: rest =>
    match v.display?, displayAll? rest with
    | some t, some ts => some (t :: ts)
    | _, _ => none

/-- The values of an enumeration. -/
def enumValues? : Value → Option (List Text)
  | .list xs => displayAll? xs
  | .set xs => displayAll? xs
  | .text t => some (t.map fun c => [c])
  | .map es => displayAll? (es.map (·.1))
  | .bytes bs => some (bs.map Text.ofNat)
  | _ => none

/-- An enumeration. -/
def ofEnum (values : Value) : Schema :=
  match enumValues? values with
  | some ts => .enumeration ts
  | none => .misshapen

/-- A scalar of a type and a format. A format that is no text is none. -/
def ofScalar (type format : Value) : Schema :=
  let unknown : Schema :=
    match type.inspect? with
    | some t => .unknownType t
    | none => .misshapen
  match type with
  | .text t =>
    let name := match format with | .text f => some f | _ => none
    match ScalarType.protoFor? t name with
    | some p => if format.isScalar then .scalar p else .misshapen
    | none => unknown
  | _ => if type.isScalar then unknown else .misshapen

mutual

/-- Reads a schema. -/
def ofValue (v : Value) : Schema :=
  match v with
  | .map es => ofEntries es
  | _ => .misshapen
termination_by sizeOf v
decreasing_by simp

/-- Reads the schema that a mapping is. -/
def ofEntries (es : Value.Entries) : Schema :=
  let part (key : Text) : Value := (Value.Entries.get? es (.text key)).getD .null
  let ref := part "$ref"
  -- A reference hides all that stands beside it.
  if ref.isTruthy then
    match ref with
    | .text t => .reference (Naming.ofReference t)
    | _ => .misshapen
  else
    match soleType? (part "type") with
    | none => .untyped
    | some type =>
      if type.same (.text "array") then
        match h : Value.Entries.get? es (.text "items") with
        | some items =>
          have := Value.Entries.sizeOf_lt_of_get? h
          if items.isTruthy then .array (some (ofValue items)) else .array none
        | none => .array none
      else if type.same (.text "object") then
        let additional : Additional Schema :=
          match h : Value.Entries.get? es (.text "additionalProperties") with
          | none | some .null | some (.bool false) => .closed
          -- An empty schema says nothing about the values.
          | some (.map []) => .untyped
          | some (.map (e :: rest)) =>
            have := Value.Entries.sizeOf_lt_of_get? h
            .typed (ofEntries (e :: rest))
          | _ => .untyped
        match h : Value.Entries.get? es (.text "properties") with
        | none => .object [] additional
        | some (.map ps) =>
          have := Value.Entries.sizeOf_lt_of_get? h
          .object (ofProperties ps) additional
        | some v => if v.isTruthy then .misshapen else .object [] additional
      else if type.same (.text "string") ∧ (part "enum").isTruthy then ofEnum (part "enum")
      else ofScalar type (part "format")
termination_by sizeOf es
decreasing_by all_goals simp_all; try omega

/-- Reads the schemas of properties. -/
def ofProperties (ps : List (Value × Value)) : List (Value × Schema) :=
  match ps with
  | [] => []
  | (name, v) :: rest => (name, ofValue v) :: ofProperties rest
termination_by sizeOf ps
decreasing_by
  all_goals simp only [List.cons.sizeOf_spec, Prod.mk.sizeOf_spec]
  all_goals omega

end

end Schema

end IdlBridge.Spec
