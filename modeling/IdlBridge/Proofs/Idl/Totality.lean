import IdlBridge.Proofs.Proto.Progress
import IdlBridge.Proofs.Thrift.Progress

/-! # Totality

    Both languages are read to an end, whatever the text is: a document comes out, or a complaint
    of the language about one of the tokens.  The position moves on only, in every one of the
    procedures that the parsers are made of, and never past the token for the end.
-/

namespace IdlBridge.Idl

variable {κ : Type} [DecidableEq κ]

namespace Parser

variable {ts : List (Token κ)} {n : Nat}

/-- The parsers that the languages share. -/
inductive Primitive : {α : Type} → Parser κ α → Prop
  | peek : Primitive peek
  | advance : Primitive advance
  | nextIs (k : Kind κ) : Primitive (nextIs k)
  | accept (k : Kind κ) : Primitive (accept k)
  | expect {k : Kind κ} (hk : k ≠ .eof) : Primitive (expect k)
  | nameToken : Primitive nameToken
  | name : Primitive name
  | string : Primitive string
  | atEnd : Primitive atEnd
  | isAt (d : Delimiter) : Primitive (isAt d)
  | skipBlock : Primitive skipBlock

theorem Primitive.proceeds (hts : Ended ts) {p : Parser κ α} (hp : Primitive p) :
    Proceeds ts n p fun _ _ => True := by
  cases hp with
  | peek => exact proceeds_peek.mono fun _ _ _ _ => trivial
  | advance => exact (proceeds_advance hts).mono fun _ _ _ _ => trivial
  | nextIs k => exact (proceeds_nextIs k).mono fun _ _ _ _ => trivial
  | accept k => exact proceeds_accept hts k
  | expect hk => exact (proceeds_expect hts hk).mono fun _ _ _ _ => trivial
  | nameToken => exact (proceeds_nameToken hts).mono fun _ _ _ _ => trivial
  | name => exact (proceeds_name hts).mono fun _ _ _ _ => trivial
  | string => exact (proceeds_string hts).mono fun _ _ _ _ => trivial
  | atEnd => exact proceeds_atEnd.mono fun _ _ _ _ => trivial
  | isAt d => exact (proceeds_isAt d).mono fun _ _ _ _ => trivial
  | skipBlock => exact proceeds_skipBlock

end Parser

/-- A front end is total.  Its tokens end with the one for the end of the text, which is there
    only.  On all lists of tokens that end like this, reading gives a document or stops at one
    of them with a complaint of the language.  Each of its procedures, started in front of any of
    them, with bounds that count the tokens that are left, moves on to one that is not before it or
    stops in the same way. -/
structure Total {δ : Type} (tokens : Text → List (Token κ))
    (read? : List (Token κ) → Except (SyntaxError κ) δ)
    (Procedure : (left : Nat) → {α : Type} → Parser κ α → Prop) : Prop where
  ended : ∀ text, Ended (tokens text)
  ends : ∀ ts, Ended ts → (∃ d, read? ts = .ok d) ∨
    ∃ e, read? ts = .error e ∧ e.complaint ≠ .unfinished ∧ e.token ∈ ts
  proceeds : ∀ ts, Ended ts → ∀ (n : Nat) (α : Type) (p : Parser κ α), Procedure (ts.length - n) p →
    Parser.Proceeds ts n p fun _ m => m < ts.length

end IdlBridge.Idl

namespace IdlBridge.Proto.Parser

open Idl Idl.Parser

variable {ts : List Token} {n : Nat}

/-- The parsers of this language.  Where one is bounded, the bound is not below the number of
    tokens that are left. -/
inductive Procedure (left : Nat) : {α : Type} → Parser α → Prop
  | primitive {α : Type} {p : Parser α} (hp : Primitive p) : Procedure left p
  | strings : Procedure left strings
  | aggregate {bound : Nat} (h : left ≤ bound) : Procedure left (aggregate (constant bound))
  | constants {bound : Nat} (h : left ≤ bound) : Procedure left (constants (constant bound))
  | constant {bound : Nat} (h : left ≤ bound) : Procedure left (constant bound)
  | optionName : Procedure left optionName
  | setting : Procedure left setting
  | optionStatement : Procedure left optionStatement
  | moreOptions {bound : Nat} (h : left ≤ bound) (done : List Setting) :
    Procedure left (moreOptions bound done)
  | fieldOptions : Procedure left fieldOptions
  | field (oneof : Option Text) : Procedure left (field oneof)
  | mapField : Procedure left mapField
  | skipStatement : Procedure left skipStatement
  | enumeration : Procedure left enumeration
  | message {bound : Nat} (h : left ≤ bound) : Procedure left (message bound)
  | messageBody {bound : Nat} (h : left + 1 ≤ bound) (oneof : Option Text) (m : Message) :
    Procedure left (messageBody bound oneof m)
  | rpcType : Procedure left rpcType
  | rpcOptions : Procedure left rpcOptions
  | rpc : Procedure left rpc
  | service : Procedure left service
  | declaration (f : File) : Procedure left (declaration f)
  | file : Procedure left file

theorem Procedure.proceeds (hts : Ended ts) {α : Type} {p : Parser α}
    (hp : Procedure (ts.length - n) p) :
    Proceeds ts n p fun _ _ => True := by
  cases hp with
  | primitive hp => exact hp.proceeds hts
  | strings => exact (proceeds_strings hts).mono fun _ _ _ _ => trivial
  | aggregate h =>
    exact (proceeds_aggregate hts fun m hm => proceeds_constant hts (by omega)).mono
      fun _ _ _ _ => trivial
  | constants h =>
    exact (proceeds_constants hts fun m hm => proceeds_constant hts (by omega)).mono
      fun _ _ _ _ => trivial
  | constant h => exact (proceeds_constant hts h).mono fun _ _ _ _ => trivial
  | optionName => exact (proceeds_optionName hts).mono fun _ _ _ _ => trivial
  | setting => exact (proceeds_setting hts).mono fun _ _ _ _ => trivial
  | optionStatement => exact (proceeds_optionStatement hts).mono fun _ _ _ _ => trivial
  | moreOptions h done => exact (proceeds_moreOptions hts h done).mono fun _ _ _ _ => trivial
  | fieldOptions => exact proceeds_fieldOptions hts
  | field oneof => exact (proceeds_field hts oneof).mono fun _ _ _ _ => trivial
  | mapField => exact (proceeds_mapField hts).mono fun _ _ _ _ => trivial
  | skipStatement => exact proceeds_skipStatement
  | enumeration => exact (proceeds_enumeration hts).mono fun _ _ _ _ => trivial
  | message h => exact (proceeds_message hts h).mono fun _ _ _ _ => trivial
  | messageBody h oneof m => exact proceeds_messageBody hts h oneof m
  | rpcType => exact (proceeds_rpcType hts).mono fun _ _ _ _ => trivial
  | rpcOptions => exact proceeds_rpcOptions hts
  | rpc => exact (proceeds_rpc hts).mono fun _ _ _ _ => trivial
  | service => exact (proceeds_service hts).mono fun _ _ _ _ => trivial
  | declaration f => exact (proceeds_declaration hts f).mono fun _ _ _ _ => trivial
  | file => exact proceeds_file hts

end IdlBridge.Proto.Parser

namespace IdlBridge.Thrift.Parser

open Idl Idl.Parser

variable {ts : List Token} {n : Nat}

/-- The parsers of this language.  Where one is bounded, the bound is not below the number of
    tokens that are left. -/
inductive Procedure (left : Nat) : {α : Type} → Parser α → Prop
  | primitive {α : Type} {p : Parser α} (hp : Primitive p) : Procedure left p
  | separator : Procedure left separator
  | skipItems {bound : Nat} (h : left ≤ bound) : Procedure left (skipItems (skipConstant bound))
  | skipEntries {bound : Nat} (h : left ≤ bound) : Procedure left (skipEntries (skipConstant bound))
  | skipConstant {bound : Nat} (h : left ≤ bound) : Procedure left (skipConstant bound)
  | skipDefault : Procedure left skipDefault
  | annotationValue : Procedure left annotationValue
  | annotations : Procedure left annotations
  | elementTypes (container : Text) {bound : Nat} (h : left ≤ bound) :
    Procedure left (elementTypes container (typeRef bound))
  | typeRef {bound : Nat} (h : left ≤ bound) : Procedure left (typeRef bound)
  | mark : Procedure left mark
  | field : Procedure left field
  | fieldsUntil (d : Delimiter) : Procedure left (fieldsUntil d)
  | fieldList : Procedure left fieldList
  | typedef : Procedure left typedef
  | constant : Procedure left constant
  | enumeration : Procedure left enumeration
  | struct (kind : StructKind) : Procedure left (struct kind)
  | function : Procedure left function
  | service : Procedure left service
  | declaration (d : Document) : Procedure left (declaration d)
  | document : Procedure left document

theorem Procedure.proceeds (hts : Ended ts) {α : Type} {p : Parser α}
    (hp : Procedure (ts.length - n) p) :
    Proceeds ts n p fun _ _ => True := by
  cases hp with
  | primitive hp => exact hp.proceeds hts
  | separator => exact proceeds_separator hts
  | skipItems h => exact proceeds_skipItems hts fun m hm => proceeds_skipConstant hts (by omega)
  | skipEntries h => exact proceeds_skipEntries hts fun m hm => proceeds_skipConstant hts (by omega)
  | skipConstant h => exact (proceeds_skipConstant hts h).mono fun _ _ _ _ => trivial
  | skipDefault => exact proceeds_skipDefault hts
  | annotationValue => exact proceeds_annotationValue hts
  | annotations => exact proceeds_annotations hts
  | elementTypes container h =>
    exact proceeds_elementTypes hts container fun m hm => proceeds_typeRef hts (by omega)
  | typeRef h => exact (proceeds_typeRef hts h).mono fun _ _ _ _ => trivial
  | mark => exact proceeds_mark hts
  | field => exact (proceeds_field hts).mono fun _ _ _ _ => trivial
  | fieldsUntil d => exact proceeds_fieldsUntil hts d
  | fieldList => exact proceeds_fieldList hts
  | typedef => exact (proceeds_typedef hts).mono fun _ _ _ _ => trivial
  | constant => exact (proceeds_constant hts).mono fun _ _ _ _ => trivial
  | enumeration => exact (proceeds_enumeration hts).mono fun _ _ _ _ => trivial
  | struct kind => exact (proceeds_struct hts kind).mono fun _ _ _ _ => trivial
  | function => exact (proceeds_function hts).mono fun _ _ _ _ => trivial
  | service => exact (proceeds_service hts).mono fun _ _ _ _ => trivial
  | declaration d => exact (proceeds_declaration hts d).mono fun _ _ _ _ => trivial
  | document => exact proceeds_document hts

end IdlBridge.Thrift.Parser

namespace IdlBridge.Idl

/-- Both front ends are total. -/
theorem total_proto_and_thrift :
    Total Proto.tokens Proto.File.ofTokens? Proto.Parser.Procedure ∧
      Total Thrift.tokens Thrift.Document.ofTokens? Thrift.Parser.Procedure := by
  constructor
  · constructor
    · exact Proto.lexicon.ended_tokens
    · intro ts hts
      exact Parser.parse_of_proceeds hts (Proto.Parser.proceeds_file hts)
    · intro ts hts n α p hp
      exact (hp.proceeds hts).lt_length
  · constructor
    · exact Thrift.lexicon.ended_tokens
    · intro ts hts
      exact Parser.parse_of_proceeds hts (Thrift.Parser.proceeds_document hts)
    · intro ts hts n α p hp
      exact (hp.proceeds hts).lt_length

end IdlBridge.Idl
