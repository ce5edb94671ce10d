import IdlBridge.Text.Table

/-! # Scalar types

    What the scalar types of the three languages mean to each other: a scalar of an interface
    definition has an OpenAPI type and format, and an OpenAPI type and format have a Protocol
    Buffers scalar. Well-known messages that have a natural JSON form count as scalars.
-/

namespace IdlBridge

/-- A type of the OpenAPI data model with its format. -/
structure TypeFormat where
  type : Text
  format : Option Text
deriving DecidableEq

namespace ScalarType

/-- The Thrift scalars. -/
def thrift : Table TypeFormat :=
  [("string", ⟨"string", none⟩), ("binary", ⟨"string", some "binary"⟩), ("bool", ⟨"boolean", none⟩),
   ("byte", ⟨"string", some "byte"⟩), ("double", ⟨"number", some "double"⟩),
   ("i8", ⟨"integer", some "int8"⟩), ("i16", ⟨"integer", some "int16"⟩),
   ("i32", ⟨"integer", some "int32"⟩), ("i64", ⟨"integer", some "int64"⟩)]

/-- The Protocol Buffers scalars. -/
def proto : Table TypeFormat :=
  [("string", ⟨"string", none⟩), ("bytes", ⟨"string", some "byte"⟩), ("bool", ⟨"boolean", none⟩),
   ("float", ⟨"number", some "float"⟩), ("double", ⟨"number", some "double"⟩),
   ("int32", ⟨"integer", some "int32"⟩), ("sint32", ⟨"integer", some "int32"⟩),
   ("sfixed32", ⟨"integer", some "int32"⟩), ("uint32", ⟨"integer", some "uint32"⟩),
   ("fixed32", ⟨"integer", some "uint32"⟩), ("int64", ⟨"integer", some "int64"⟩),
   ("sint64", ⟨"integer", some "int64"⟩), ("sfixed64", ⟨"integer", some "int64"⟩),
   ("uint64", ⟨"integer", some "uint64"⟩), ("fixed64", ⟨"integer", some "uint64"⟩)]

/-- The well-known messages with a natural JSON form. -/
def wellKnown : Table TypeFormat :=
  [("google.protobuf.Timestamp", ⟨"string", some "date-time"⟩),
   ("google.protobuf.Duration", ⟨"string", none⟩),
   ("google.protobuf.Empty", ⟨"object", none⟩),
   ("google.protobuf.Any", ⟨"object", none⟩),
   ("google.protobuf.Struct", ⟨"object", none⟩),
   ("google.protobuf.Value", ⟨"object", none⟩),
   ("google.protobuf.StringValue", ⟨"string", none⟩),
   ("google.protobuf.BytesValue", ⟨"string", some "byte"⟩),
   ("google.protobuf.BoolValue", ⟨"boolean", none⟩),
   ("google.protobuf.FloatValue", ⟨"number", some "float"⟩),
   ("google.protobuf.DoubleValue", ⟨"number", some "double"⟩),
   ("google.protobuf.Int32Value", ⟨"integer", some "int32"⟩),
   ("google.protobuf.UInt32Value", ⟨"integer", some "uint32"⟩),
   ("google.protobuf.Int64Value", ⟨"integer", some "int64"⟩),
   ("google.protobuf.UInt64Value", ⟨"integer", some "uint64"⟩)]

/-- An enumeration is serialized as the number of its value. -/
def enumeration : TypeFormat := ⟨"integer", some "int32"⟩

/-- The OpenAPI type and format of a scalar of either interface language. -/
def schemaOf? (scalar : Text) : Option TypeFormat :=
  (thrift.get? scalar).or ((proto.get? scalar).or (wellKnown.get? scalar))

/-- The message that stands for points in time, and the file that declares it. -/
def timestamp : Text := "google.protobuf.Timestamp"

/-- The file that declares `timestamp`. -/
def timestampImport : Text := "google/protobuf/timestamp.proto"

/-- The Protocol Buffers scalar of an OpenAPI type and format; an unknown format counts as none. -/
def protoFor? (type : Text) (format : Option Text) : Option Text :=
  if type = "string" then
    some (if format = some ("date" : Text) ∨ format = some ("date-time" : Text) then timestamp
      else "string")
  else if type = "integer" then
    some (if format = some ("int32" : Text) then "int32" else "int64")
  else if type = "number" then
    some (if format = some ("float" : Text) then "float" else "double")
  else if type = "boolean" then some "bool"
  else none

end ScalarType

end IdlBridge
