import IdlBridge.Text.Quoted
import IdlBridge.Thrift.Parser
import IdlBridge.Proto.Parser

/-! # Why a file cannot be reflected

    Either a source cannot be read, or its names cannot be resolved: a typedef refers to itself,
    or a method takes or returns something that is no struct.
-/

namespace IdlBridge

/-- The part of a method whose type has to be a struct. -/
inductive MethodPart where
  | argument
  | result
  | input
  | output
deriving DecidableEq

namespace MethodPart

/-- How messages name the part. -/
def text : MethodPart → Text
  | .argument => "argument"
  | .result => "result"
  | .input => "input"
  | .output => "output"

/-- What the type should have been. -/
def wanted : MethodPart → Text
  | .argument | .result => "struct"
  | .input | .output => "message"

end MethodPart

/-- Why a file cannot be reflected. -/
inductive ReflectionError where
  | typedefCycle (name path : Text)
  | unknownStruct (part : MethodPart) (service method typeName : Text)
  | unsupportedFile (path : Text)
  | thriftSyntax (e : Thrift.SyntaxError)
  | protoSyntax (e : Proto.SyntaxError)
  /-- The octets of a file are no text. -/
  | undecodable (path : Text)
  | fileNotFound (path : Text)
  /-- A constant of an annotation has no text. -/
  | unwritable
  /-- The includes nest deeper than there are files. -/
  | unfinished
deriving DecidableEq

namespace ReflectionError

/-- The error in words. -/
def message : ReflectionError → Text
  | .typedefCycle name path => "typedef cycle through " ++ name.quoted ++ " in " ++ path
  | .unknownStruct part service method typeName =>
    part.text ++ " of " ++ service ++ "." ++ method ++ ": type " ++ typeName.quoted ++
      " is not a known " ++ part.wanted
  | .unsupportedFile path => "unsupported IDL file type: " ++ path
  | .thriftSyntax e => e.message
  | .protoSyntax e => e.message
  | .undecodable _ => "utf-8"
  | .fileNotFound path => "file not found: " ++ path
  | .unwritable => "a constant has no text"
  | .unfinished => "unfinished"

end ReflectionError

end IdlBridge
