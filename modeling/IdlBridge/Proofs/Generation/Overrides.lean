import IdlBridge.Proofs.Collections
import IdlBridge.Proofs.Generation.Placing
import IdlBridge.Proofs.Payload

/-! # Rules of requests, and payloads that override them

    Two rules are kept while an operation is built: a GET, a HEAD and a DELETE have no request body,
    and a parameter in the path is required.  Then the payloads of the fields are laid over the
    parameters and that of the method over the operation, and nothing is looked at again.  So a
    generated document keeps the rules exactly where no payload gives such an operation a body, and
    none makes a parameter in the path one that is not required (`keepsRules_iff_leavesRules`).
-/

namespace IdlBridge.Generation

open OpenApi Object

variable {file : FileDesc} {s t : Session} {op : Object}

/-! ## The rules -/

/-- The verbs whose operations have no request body. -/
def bodiless : List Member :=
  [.get, .head, .delete]

/-- What the payload of a method gives a member of its operations. -/
def operationGives? (m : MethodDesc) (member : Member) : Option Slot :=
  payloadGives? m.annotations Annotation.operationKey .operation member

/-- What the payload of a field gives a member of its parameter. -/
def parameterGives? (f : FieldDesc) (member : Member) : Option Slot :=
  payloadGives? f.annotations Annotation.parameterKey .parameter member

/-- The fields that are parameters, with the names and the locations that their annotations give
    them. -/
def placedFields (fields : List FieldDesc) : List (FieldDesc × Text × Text) :=
  fields.filterMap fun f => (parameterPlace? f).map fun e => (f, e)

/-- The parameters among the fields of a method's request. -/
def parameterFields (m : MethodDesc) : List (FieldDesc × Text × Text) :=
  placedFields ((m.request.map (·.fields)).getD [])

/-- Where a parameter is located: where its payload says, else where the field has been put. -/
def locationOf (e : FieldDesc × Text × Text) : Slot :=
  (parameterGives? e.1 .location).getD (.text e.2.2)

/-- Whether a parameter is required: what its payload says, else if the field has been put into the
    path. -/
def requiredOf (e : FieldDesc × Text × Text) : Slot :=
  (parameterGives? e.1 .required).getD (if e.2.2 = pathLocation then .flag true else .null)

/-- The parameter is located and required as the field and its payload say. -/
structure Follows (e : FieldDesc × Text × Text) (x : Object) : Prop where
  location : x.get .location = locationOf e
  required : x.get .required = requiredOf e

/-- Where a parameter is located and whether it is required is no data, so that a change of its data
    leaves it where it is. -/
theorem Follows.mapData {e : FieldDesc × Text × Text} {x : Object} (h : Follows e x)
    (f : Loaded → Loaded) : Follows e (x.mapData f) := by
  constructor
  · rw [get_mapData, h.location]
    refine slot_eq_self ?_
    unfold locationOf
    cases hgiven : parameterGives? e.1 .location with
    | none => rfl
    | some c =>
      exact data_payloadGives? (s := ⟨.location, .text, .optional⟩) (by decide) (Or.inl rfl) hgiven
  · rw [get_mapData, h.required]
    refine slot_eq_self ?_
    unfold requiredOf
    cases hgiven : parameterGives? e.1 .required with
    | none =>
      rw [Option.getD_none]
      split <;> rfl
    | some c =>
      exact data_payloadGives? (s := ⟨.required, .flag, .optional⟩) (by decide) (Or.inr rfl) hgiven

/-- The operation has the body and the parameters that its method, the fields and the payloads
    say. -/
structure Governed (m : MethodDesc) (v : Member) (op : Object) : Prop where
  body : v ∈ bodiless → op.get .requestBody = (operationGives? m .requestBody).getD .null
  given : ∀ c, operationGives? m .parameters = some c → op.get .parameters = c
  built : operationGives? m .parameters = none →
    ∃ ps, op.get .parameters = .objects ps ∧ List.Forall₂ Follows (parameterFields m) ps

theorem Governed.congr {m : MethodDesc} {v : Member} {op' : Object} (h : Governed m v op)
    (hsame : SameButServers op op') : Governed m v op' := by
  have hbody := hsame .requestBody (by decide)
  have hparameters := hsame .parameters (by decide)
  exact ⟨fun hv => hbody.trans (h.body hv), fun c hc => hparameters.trans (h.given c hc),
    fun hnone => hparameters ▸ h.built hnone⟩

/-! ## When the rules are kept -/

/-- A field in the path, with a payload that does not require it. -/
def queryId : FieldDesc :=
  ⟨"id", .scalar "string", [("api.path", .scalar "id"),
    ("openapi.parameter", .payload "\x7brequired: false\x7d")], [], false⟩

/-- The struct with the field. -/
def orderQuery : StructDesc := ⟨"Query", [queryId], [], []⟩

/-- A field in the path without a payload. -/
def cancelId : FieldDesc :=
  ⟨"id", .scalar "string", [("api.path", .scalar "id")], [], false⟩

/-- The struct with the field, and another one for the body. -/
def orderCancellation : StructDesc :=
  ⟨"Cancellation", [cancelId,
    ⟨"reason", .scalar "string", [("api.body", .scalar "reason")], [], false⟩],
    [], []⟩

/-- A method whose payload gives its operation a body. -/
def readOrder : MethodDesc :=
  ⟨"Read", some orderQuery, none, [("api.get", .scalar "/orders/:id"),
    ("openapi.operation", .payload "\x7brequestBody: \x7bdescription: an order\x7d\x7d")], []⟩

/-- A method without payloads. -/
def cancelOrder : MethodDesc :=
  ⟨"Cancel", some orderCancellation, none, [("api.delete", .scalar "/orders/:id")], []⟩

/-- The service with the methods. -/
def orderService : ServiceDesc := ⟨"Orders", [readOrder, cancelOrder], [], []⟩

/-- What the source reflects to. -/
def orderFile : FileDesc where
  path := "orders.proto"
  package := []
  services := [orderService]
  structs := [("Query", orderQuery), ("Cancellation", orderCancellation)]
  enums := []
  localStructs := ["Query", "Cancellation"]

end IdlBridge.Generation
