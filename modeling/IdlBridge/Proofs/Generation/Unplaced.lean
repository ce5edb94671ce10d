import IdlBridge.Generation.Operations
import IdlBridge.Proofs.Table
import Mathlib.Data.Option.Basic

/-! # Fields take part by choice

    In the `http` mode five passes go through the fields of a struct: one for the parameters, one
    for each body, one for the headers of a response.  Each looks for keys of its own, and a field
    that carries none of them is passed over before its type or its payload is looked at.  So
    putting such fields into the structs of a method changes nothing at all: the operation, what it
    demands of the registry and the notices stay the same (`operationOf_widened`).
-/

namespace IdlBridge.Generation

open OpenApi

/-- The keys that give a field a place in an operation. -/
def placementKeys : List Text :=
  [queryKey, pathKey, cookieKey, headerKey, bodyKey, formKey, rawBodyKey]

/-- The field carries no key that would give it a place. -/
def Unplaced (f : FieldDesc) : Prop :=
  ∀ key ∈ placementKeys, f.annotations.has key = false

instance (f : FieldDesc) : Decidable (Unplaced f) :=
  inferInstanceAs (Decidable (∀ key ∈ placementKeys, f.annotations.has key = false))

/-- The fields `gs` are the fields `fs` with unplaced ones put in between, anywhere. -/
inductive Interspersed : (fs gs : List FieldDesc) → Prop where
  | nil : Interspersed [] []
  | keep (f : FieldDesc) {fs gs : List FieldDesc} :
      Interspersed fs gs → Interspersed (f :: fs) (f :: gs)
  | add {f : FieldDesc} {fs gs : List FieldDesc} :
      Unplaced f → Interspersed fs gs → Interspersed fs (f :: gs)

/-- The struct `d'` is `d` with more fields, all of them unplaced. -/
structure Widened (d d' : StructDesc) : Prop where
  name : d'.name = d.name
  annotations : d'.annotations = d.annotations
  comment : d'.comment = d.comment
  fields : Interspersed d.fields d'.fields

/-- The method `m'` is `m` with more fields in the structs that it takes and returns, all of them
    unplaced. -/
structure WidenedMethod (m m' : MethodDesc) : Prop where
  name : m'.name = m.name
  annotations : m'.annotations = m.annotations
  comment : m'.comment = m.comment
  request : Option.Rel Widened m.request m'.request
  response : Option.Rel Widened m.response m'.response

section Widened

variable {d d' : StructDesc} {f : FieldDesc} {fs gs : List FieldDesc}

/-! ## Unplaced fields are passed over -/

theorem Unplaced.nonEmpty?_eq_none (h : Unplaced f) {key : Text} (hkey : key ∈ placementKeys) :
    nonEmpty? f.annotations key = none := by
  unfold nonEmpty? Annotations.first?
  rw [Table.get?_eq_none_of_has (h key hkey)]
  rfl

theorem Unplaced.parameterPlace?_eq_none (h : Unplaced f) : parameterPlace? f = none := by
  have hlocations : ∀ e ∈ locations, e.1 ∈ placementKeys := by decide
  unfold parameterPlace?
  generalize locations = es at hlocations
  induction es with
  | nil => rfl
  | cons e rest ih =>
    obtain ⟨he, hrest⟩ := List.forall_mem_cons.1 hlocations
    rw [List.foldl_cons, h.nonEmpty?_eq_none he]
    exact ih hrest

theorem Unplaced.placedName?_eq_none (h : Unplaced f) {key : Text} (hkey : key ∈ placementKeys) :
    placedName? (some key) f = none := by
  unfold placedName?
  simp only [h key hkey, Bool.false_eq_true, if_false]

/-! ## The passes through the fields

    Of the struct that a field belongs to, the schema of the field knows the name only. -/

theorem overlayProperty_congr (hname : d'.name = d.name) (schema : Object) (f : FieldDesc) :
    overlayProperty schema d' f = overlayProperty schema d f := by
  unfold overlayProperty fieldOwner
  rw [hname]

theorem propertyOf_congr (hname : d'.name = d.name) (f : FieldDesc) :
    propertyOf d' f = propertyOf d f := by
  unfold propertyOf
  simp only [overlayProperty_congr hname]

theorem parameterOf_congr (hname : d'.name = d.name) (f : FieldDesc) (name location : Text) :
    parameterOf d' f name location = parameterOf d f name location := by
  unfold parameterOf
  simp only [overlayProperty_congr hname, fieldOwner, hname]

theorem parametersOf_interspersed (hname : d'.name = d.name) (h : Interspersed fs gs) :
    parametersOf d' gs = parametersOf d fs := by
  induction h with
  | nil => rfl
  | keep f _ ih =>
    rw [parametersOf, parametersOf, ih]
    simp only [parameterOf_congr hname]
  | add hf _ ih => rw [parametersOf, hf.parameterPlace?_eq_none, ih]

theorem placedProperties_interspersed (hname : d'.name = d.name) (h : Interspersed fs gs)
    {key : Text} (hkey : key ∈ placementKeys) (required : List Text) (properties : Table Object)
    (names : List Text) :
    placedProperties d' (some key) required gs properties names =
      placedProperties d (some key) required fs properties names := by
  induction h generalizing properties names with
  | nil => rfl
  | keep f _ ih =>
    rw [placedProperties, placedProperties]
    simp only [propertyOf_congr hname, ih]
  | add hf _ ih => rw [placedProperties, hf.placedName?_eq_none hkey, ih]

theorem headersOf_interspersed (h : Interspersed fs gs) (headers : Table Object) :
    headersOf gs headers = headersOf fs headers := by
  induction h generalizing headers with
  | nil => rfl
  | keep f _ ih =>
    rw [headersOf, headersOf]
    simp only [ih]
  | add hf _ ih => rw [headersOf, hf.nonEmpty?_eq_none (by decide), ih]

/-! ## Requests and responses -/

namespace Widened

theorem schemaOfFields_eq (h : Widened d d') {key : Text} (hkey : key ∈ placementKeys) :
    schemaOfFields d' (some key) = schemaOfFields d (some key) := by
  unfold schemaOfFields structPayload?
  rw [h.name, h.annotations]
  simp only [placedProperties_interspersed h.name h.fields hkey]

theorem requestBodyOf_eq (h : Widened d d') : requestBodyOf d' = requestBodyOf d := by
  have hbody : bodyWith? d' = bodyWith? d := by
    funext content
    unfold bodyWith?
    rw [h.comment]
  unfold requestBodyOf
  rw [hbody, h.schemaOfFields_eq (by decide), h.schemaOfFields_eq (by decide),
    h.schemaOfFields_eq (by decide)]

theorem responseParts_eq (h : Widened d d') : responseParts .http d' = responseParts .http d := by
  unfold responseParts
  rw [h.name, headersOf_interspersed h.fields, h.schemaOfFields_eq (by decide),
    h.schemaOfFields_eq (by decide)]

end Widened

theorem requestOf_widened {request request' : Option StructDesc}
    (h : Option.Rel Widened request request') (verb : Text) :
    requestOf .http request' verb = requestOf .http request verb := by
  cases h with
  | none => rfl
  | some h =>
    unfold requestOf
    dsimp only
    rw [parametersOf_interspersed h.name h.fields, h.requestBodyOf_eq]

theorem responseOf_widened {response response' : Option StructDesc}
    (h : Option.Rel Widened response response') :
    responseOf .http response' = responseOf .http response := by
  cases h with
  | none => rfl
  | some h =>
    unfold responseOf
    dsimp only
    rw [h.responseParts_eq, h.comment]

end Widened

/-! ## Operations -/

/-- Unplaced fields, however many and wherever they are put into the structs of a method, leave the
    building of its operation as it is: from every session the result is the same, and so are the
    registry and the notices afterwards. -/
theorem operationOf_widened {m m' : MethodDesc} (h : WidenedMethod m m') (s : ServiceDesc)
    (verb : Text) : operationOf .http s m' verb = operationOf .http s m verb := by
  have hserver : declaredServer? s m' = declaredServer? s m := by
    unfold declaredServer?
    rw [h.annotations]
  unfold operationOf
  rw [requestOf_widened h.request, responseOf_widened h.response, h.name, h.comment, hserver]

/-- A method that takes and returns a struct with a placed field. -/
def lookupMethod (fields : List FieldDesc) : MethodDesc :=
  let key : FieldDesc := ⟨"key", .scalar "string", [(queryKey, .scalar "key")], [], true⟩
  let note : FieldDesc := ⟨"note", .struct "Note", [(bodyKey, .scalar [])], [], false⟩
  ⟨"Find", some ⟨"Query", key :: fields, [], []⟩, some ⟨"Answer", fields ++ [note], [], []⟩, [], []⟩

/-- A required field of a struct type that carries nothing but a payload. -/
def secretField : FieldDesc :=
  ⟨"secret", .struct "Secret", [("openapi.property", .payload "{title: Secret}")],
    "// not for clients", true⟩

/-- The field leaves no trace, neither behind the field of the request nor in front of the one of
    the response. -/
theorem operationOf_secretField : WidenedMethod (lookupMethod []) (lookupMethod [secretField]) ∧
    operationOf .http ⟨"Notes", [], [], []⟩ (lookupMethod [secretField]) "POST" =
      operationOf .http ⟨"Notes", [], [], []⟩ (lookupMethod []) "POST" := by
  have hsecret : Unplaced secretField := by decide
  have hwidened : WidenedMethod (lookupMethod []) (lookupMethod [secretField]) :=
    ⟨rfl, rfl, rfl, .some ⟨rfl, rfl, rfl, .keep _ (.add hsecret .nil)⟩,
      .some ⟨rfl, rfl, rfl, .add hsecret (.keep _ .nil)⟩⟩
  exact ⟨hwidened, operationOf_widened hwidened _ _⟩

end IdlBridge.Generation
