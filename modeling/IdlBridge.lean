import IdlBridge.Annotation
import IdlBridge.Command.Help
import IdlBridge.Command.Request
import IdlBridge.Command.Run
import IdlBridge.Command.Words
import IdlBridge.Decimal.Binary64
import IdlBridge.Decimal.Reading
import IdlBridge.Decimal.Shortest
import IdlBridge.Descriptor
import IdlBridge.Draft.Basic
import IdlBridge.Draft.Converter
import IdlBridge.Draft.FromDocument
import IdlBridge.Draft.FromSchema
import IdlBridge.Draft.Literal
import IdlBridge.Draft.Printer
import IdlBridge.Files
import IdlBridge.Generation.Config
import IdlBridge.Generation.Document
import IdlBridge.Generation.Operations
import IdlBridge.Generation.Placement
import IdlBridge.Generation.Schemas
import IdlBridge.Idl.Lexer
import IdlBridge.Idl.Parser
import IdlBridge.Idl.Token
import IdlBridge.Main
import IdlBridge.Naming
import IdlBridge.Notice
import IdlBridge.OpenApi.Member
import IdlBridge.OpenApi.Object
import IdlBridge.OpenApi.Overlay
import IdlBridge.OpenApi.PathItem
import IdlBridge.OpenApi.Registry
import IdlBridge.OpenApi.Servers
import IdlBridge.OpenApi.Validation
import IdlBridge.Payload
import IdlBridge.Proofs.Computation
import IdlBridge.Proofs.Decimal.Digits
import IdlBridge.Proofs.Decimal.Rounding
import IdlBridge.Proofs.Decimal.Shortest
import IdlBridge.Proofs.Decimal.Written
import IdlBridge.Proofs.Draft.Accounted
import IdlBridge.Proofs.Draft.Components
import IdlBridge.Proofs.Draft.Constants
import IdlBridge.Proofs.Draft.Distinct
import IdlBridge.Proofs.Draft.DocumentTypes
import IdlBridge.Proofs.Draft.Enumerations
import IdlBridge.Proofs.Draft.FieldNames
import IdlBridge.Proofs.Draft.FromDocument
import IdlBridge.Proofs.Draft.FromSchema
import IdlBridge.Proofs.Draft.Growth
import IdlBridge.Proofs.Draft.MethodTypes
import IdlBridge.Proofs.Draft.NestedTypes
import IdlBridge.Proofs.Draft.OperationTypes
import IdlBridge.Proofs.Draft.Precedence
import IdlBridge.Proofs.Draft.Properties
import IdlBridge.Proofs.Draft.Provenance
import IdlBridge.Proofs.Draft.Rearranged
import IdlBridge.Proofs.Draft.Regularity
import IdlBridge.Proofs.Draft.Repetition
import IdlBridge.Proofs.Draft.RoundTrip
import IdlBridge.Proofs.Draft.SchemaTypes
import IdlBridge.Proofs.Draft.Services
import IdlBridge.Proofs.Draft.Source
import IdlBridge.Proofs.Draft.Spelling
import IdlBridge.Proofs.Draft.Steady
import IdlBridge.Proofs.Draft.Union
import IdlBridge.Proofs.Files
import IdlBridge.Proofs.Generation.Bindings
import IdlBridge.Proofs.Generation.Closure
import IdlBridge.Proofs.Generation.Components
import IdlBridge.Proofs.Generation.Document
import IdlBridge.Proofs.Generation.Expansion
import IdlBridge.Proofs.Generation.Finishing
import IdlBridge.Proofs.Generation.Growth
import IdlBridge.Proofs.Generation.Operations
import IdlBridge.Proofs.Generation.Overrides
import IdlBridge.Proofs.Generation.Payloads
import IdlBridge.Proofs.Generation.Placing
import IdlBridge.Proofs.Generation.Rearranged
import IdlBridge.Proofs.Generation.Schemas
import IdlBridge.Proofs.Generation.Steps
import IdlBridge.Proofs.Generation.Uniform
import IdlBridge.Proofs.Generation.Unplaced
import IdlBridge.Proofs.Generation.Worklist
import IdlBridge.Proofs.Grouping
import IdlBridge.Proofs.Idl.Constant
import IdlBridge.Proofs.Idl.Ending
import IdlBridge.Proofs.Idl.Grammar
import IdlBridge.Proofs.Idl.Lexing
import IdlBridge.Proofs.Idl.Positions
import IdlBridge.Proofs.Idl.Progress
import IdlBridge.Proofs.Idl.Reading
import IdlBridge.Proofs.Idl.Spelling
import IdlBridge.Proofs.Idl.Totality
import IdlBridge.Proofs.Naming
import IdlBridge.Proofs.OpenApi.Alike
import IdlBridge.Proofs.OpenApi.Data
import IdlBridge.Proofs.OpenApi.Hoisting
import IdlBridge.Proofs.OpenApi.Linked
import IdlBridge.Proofs.OpenApi.Operations
import IdlBridge.Proofs.OpenApi.Overlay
import IdlBridge.Proofs.OpenApi.Servers
import IdlBridge.Proofs.OpenApi.Sound
import IdlBridge.Proofs.OpenApi.Written
import IdlBridge.Proofs.Payload
import IdlBridge.Proofs.Proto.Atoms
import IdlBridge.Proofs.Proto.Constants
import IdlBridge.Proofs.Proto.Grammar
import IdlBridge.Proofs.Proto.Lexing
import IdlBridge.Proofs.Proto.Progress
import IdlBridge.Proofs.Proto.Reading
import IdlBridge.Proofs.Proto.Scopes
import IdlBridge.Proofs.Reflection.Closed
import IdlBridge.Proofs.Reflection.FirstDeclared
import IdlBridge.Proofs.Reflection.Included
import IdlBridge.Proofs.Reflection.Proto
import IdlBridge.Proofs.Reflection.Reflected
import IdlBridge.Proofs.Reflection.Thrift
import IdlBridge.Proofs.Reflection.Worded
import IdlBridge.Proofs.Remark
import IdlBridge.Proofs.Route
import IdlBridge.Proofs.Sorting
import IdlBridge.Proofs.Spec.Cycles
import IdlBridge.Proofs.Spec.Documents
import IdlBridge.Proofs.Spec.Inlining
import IdlBridge.Proofs.Spec.Pointers
import IdlBridge.Proofs.Spec.References
import IdlBridge.Proofs.Spec.Schemas
import IdlBridge.Proofs.Table
import IdlBridge.Proofs.Text
import IdlBridge.Proofs.Thrift.Grammar
import IdlBridge.Proofs.Thrift.Literals
import IdlBridge.Proofs.Thrift.Progress
import IdlBridge.Proofs.Thrift.Reading
import IdlBridge.Proofs.Thrift.Typedefs
import IdlBridge.Proofs.Traversal
import IdlBridge.Proofs.Value.Aggregate
import IdlBridge.Proofs.Value.Entries
import IdlBridge.Proofs.Yaml.Anchors
import IdlBridge.Proofs.Yaml.FlowNodes
import IdlBridge.Proofs.Yaml.FlowTokens
import IdlBridge.Proofs.Yaml.Loading
import IdlBridge.Proofs.Yaml.Numbers
import IdlBridge.Proofs.Yaml.Quoted
import IdlBridge.Proofs.Yaml.Rereading
import IdlBridge.Proto.Parser
import IdlBridge.Proto.Resolve
import IdlBridge.Proto.Source
import IdlBridge.Proto.Token
import IdlBridge.Reflection
import IdlBridge.ReflectionError
import IdlBridge.Remark
import IdlBridge.Route
import IdlBridge.ScalarType
import IdlBridge.Spec.Loading
import IdlBridge.Spec.Pointer
import IdlBridge.Spec.Schema
import IdlBridge.Text.Alphabet
import IdlBridge.Text.Base64
import IdlBridge.Text.Basic
import IdlBridge.Text.Case
import IdlBridge.Text.CaseMap
import IdlBridge.Text.Letters
import IdlBridge.Text.Numerals
import IdlBridge.Text.Quoted
import IdlBridge.Text.Table
import IdlBridge.Text.Unprintable
import IdlBridge.Text.Utf8
import IdlBridge.Thrift.Parser
import IdlBridge.Thrift.Resolve
import IdlBridge.Thrift.Source
import IdlBridge.Thrift.Token
import IdlBridge.Traversal
import IdlBridge.Value.Basic
import IdlBridge.Value.Display
import IdlBridge.Value.Json
import IdlBridge.Value.Order
import IdlBridge.Yaml.Cursor
import IdlBridge.Yaml.Document
import IdlBridge.Yaml.Fault
import IdlBridge.Yaml.Lexer
import IdlBridge.Yaml.Node
import IdlBridge.Yaml.Printer
import IdlBridge.Yaml.Scalar
import IdlBridge.Yaml.Style
import IdlBridge.Yaml.Tag
import IdlBridge.Yaml.Token
