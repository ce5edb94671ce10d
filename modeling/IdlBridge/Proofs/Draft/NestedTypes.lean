import IdlBridge.Proofs.Draft.DocumentTypes
import IdlBridge.Proofs.Draft.Provenance

/-! # Nested messages are for fields

    Whatever a document asks for in the middle of a message becomes a nested message, and the
    message around it has a field for it.  So in the draft of a document every nested message is the
    type of a field next to it, or the type of the values of one, unless another field has come
    first under the name of that field.

    The messages of requests and responses are put together from parameters, headers and media
    types.  An object that is written there in place is nested in the message as well; nothing is
    said here about the fields of these (`Inline`).
-/

namespace IdlBridge.Draft

variable {doc : Value}

namespace Conversion

/-! ## The schemas of a document -/

/-- The entries of data; data that is no mapping has none. -/
def entriesOf : Value → Value.Entries
  | .map es => es
  | _ => []

/-- The operation belongs to a path of the document, and its method has the name. -/
inductive OperationOf (doc : Value) : Value.Entries → Name → Prop where
  | intro {path item : Value} {verb : Text} {operation : Value.Entries} :
      (path, item) ∈ entriesOf (part (entriesOf doc) "paths") → verb ∈ verbs →
      part (entriesOf item) verb = .map operation →
      OperationOf doc operation (methodName (part operation "operationId") verb)

/-- The status has the response among the responses of the operation. -/
abbrev ResponseOf (operation : Value.Entries) (status response : Value) : Prop :=
  (status, response) ∈ entriesOf (part operation "responses")

/-- A part of an operation has the schema: a parameter, a header or a media type.  It belongs to the
    request or the response `message`, where it goes by the name. -/
inductive PartOf (doc : Value) : (message name : Text) → Spec.Schema → Prop where
  | body {operation : Value.Entries} {method mediaType : Text} {holder : Value}
      {s : Spec.Schema} :
      OperationOf doc operation (.text method) →
      (.text mediaType, holder) ∈
        entriesOf (part (entriesOf (part operation "requestBody")) "content") →
      schemaOf (entriesOf holder) = some s →
      PartOf doc (method ++ "Request") (Naming.camel (method ++ "Request" ++ mediaType)) s
  | parameter {operation : Value.Entries} {method name : Text} {ps : List Value}
      {es : Value.Entries} {s : Spec.Schema} :
      OperationOf doc operation (.text method) → part operation "parameters" = .list ps →
      .map es ∈ ps → part es "name" = .text name → schemaOf es = some s →
      PartOf doc (method ++ "Request") (Naming.fieldName name) s
  | header {operation : Value.Entries} {method : Name} {shownMethod shownStatus key : Text}
      {status response holder : Value} {s : Spec.Schema} :
      OperationOf doc operation method → method.display? = some shownMethod →
      ResponseOf operation status response → status.display? = some shownStatus →
      (.text key, holder) ∈ entriesOf (part (entriesOf response) "headers") →
      schemaOf (entriesOf holder) = some s →
      PartOf doc (shownMethod ++ "Response_" ++ shownStatus) (Naming.fieldName key) s
  | content {operation : Value.Entries} {method : Name} {shownMethod shownStatus mediaType : Text}
      {status response holder : Value} {s : Spec.Schema} :
      OperationOf doc operation method → method.display? = some shownMethod →
      ResponseOf operation status response → status.display? = some shownStatus →
      (.text mediaType, holder) ∈ entriesOf (part (entriesOf response) "content") →
      schemaOf (entriesOf holder) = some s →
      PartOf doc (shownMethod ++ "Response_" ++ shownStatus) (Naming.camel mediaType) s

/-- The schema stands somewhere in the document and is converted under the name. -/
inductive SchemaOf (doc : Value) : Name → Spec.Schema → Prop where
  | component {name schema : Value} :
      (name, schema) ∈
        entriesOf (part (entriesOf (part (entriesOf doc) "components")) "schemas") →
      SchemaOf doc name (.ofValue schema)
  | part {message name : Text} {s : Spec.Schema} :
      PartOf doc message name s → SchemaOf doc (.text name) s
  | items {t : Text} {s : Spec.Schema} :
      SchemaOf doc (.text t) (.array (some s)) → SchemaOf doc (.text (t ++ "Item")) s
  | property {name : Name} {ps : List (Value × Spec.Schema)}
      {additional : Spec.Additional Spec.Schema} {e : Value × Spec.Schema} :
      SchemaOf doc name (.object ps additional) → e ∈ ps → SchemaOf doc e.1 e.2
  | values {t : Text} {ps : List (Value × Spec.Schema)} {s : Spec.Schema} :
      SchemaOf doc (.text t) (.object ps (.typed s)) → SchemaOf doc (.text (t ++ valueEnding)) s

theorem closed_schemaOf (doc : Value) : Closed (SchemaOf doc) where
  items _ _ h := .items h
  property _ _ _ h _ he := .property h he
  values _ _ _ h := .values h

/-- An object written in place by a parameter, a header or a media type of the message. -/
def Inline (doc : Value) (message name : Text) : Prop :=
  ∃ s, s.IsObject ∧ PartOf doc message name s

/-- The step keeps the draft traced by the schemas of the document. -/
abbrev KeepsTraced (doc : Value) {α : Type} (x : Conversion α) (Q : α → Prop) : Prop :=
  Keeps (Progress.Traced (SchemaOf doc) (Inline doc)) x Q

/-- What is added to a message of the given name leaves it traced, its inline objects aside. -/
def Extended (doc : Value) (L : Text → Prop) (m m' : Message) : Prop :=
  m'.name = m.name ∧ m'.TracedBut (SchemaOf doc) L

theorem Extended.trans {L : Text → Prop} {m m' m'' : Message} (h : Extended doc L m m')
    (h' : Extended doc L m' m'') : Extended doc L m m'' :=
  ⟨h'.1.trans h.1, h'.2⟩

/-! ## Looking into data -/

variable {I : Progress → Prop}

theorem keeps_entries_eq (v : Value) : Keeps I (entries v) fun es => es = entriesOf v := by
  unfold entries
  split
  · exact keeps_pure rfl
  · next hmap =>
    split
    · exact keeps_refuse
    · refine keeps_pure ?_
      cases v with
      | map es => exact absurd rfl (hmap es)
      | _ => rfl

theorem keeps_mapping_eq (v : Value) : Keeps I (mapping v) fun es => v = .map es := by
  unfold mapping
  split
  · exact keeps_pure rfl
  · exact keeps_refuse

theorem keeps_shown_eq (name : Name) : Keeps I (shown name) fun t => name.display? = some t := by
  unfold shown
  split
  · next h => exact keeps_pure h
  · exact keeps_refuse

/-! ## Messages -/

theorem keeps_include_traced {L : Text → Prop} {m : Message} (hm : m.TracedBut (SchemaOf doc) L)
    {t : Text} {s : Spec.Schema} (hs : SchemaOf doc (.text t) s) (hobject : s.IsObject → L t) :
    KeepsTraced doc (include_ m (.text t) s) (Extended doc L m) := by
  unfold include_
  have hparent : ∀ m', some m = some m' → m'.TracedBut (SchemaOf doc) L := by
    rintro _ ⟨⟩
    exact hm
  refine keeps_bind (Piece.keeps_ofSchema_traced (closed_schemaOf doc) s _ hs L hparent) ?_
  rintro ⟨piece, holder⟩ ⟨hpiece, hholder⟩
  obtain ⟨hname, hholder⟩ := hholder.getD hm
  refine keeps_pure ?_
  cases piece with
  | field fd =>
    refine ⟨hname, hholder.addField (hpiece.origin hs) ?_⟩
    intro u hu
    exact hu.imp id fun hwait => Piece.fieldName_of_awaits hwait _
  | message nested =>
    obtain ⟨hnested, hobj, htraced⟩ := hpiece
    refine ⟨hname, (hholder.addMessage htraced hnested).imp ?_⟩
    -- no field is added for the message: it is one of those that are excepted
    rintro u ((hu | hu) | rfl)
    · exact hu
    · cases hu
    · exact hobject hobj
  | enum e =>
    refine ⟨hname, (hholder.addEnum e).imp ?_⟩
    rintro u (hu | hu)
    · exact hu
    · cases hu

theorem keeps_addHolders_traced {L : Text → Prop} (name : Text → Text)
    {holders : List (Value × Value)} (hholders : ∀ key holder s, (.text key, holder) ∈ holders →
      schemaOf (entriesOf holder) = some s →
        SchemaOf doc (.text (name key)) s ∧ (s.IsObject → L (name key)))
    {m : Message} (hm : m.TracedBut (SchemaOf doc) L) :
    KeepsTraced doc (addHolders name holders m) (Extended doc L m) := by
  induction holders generalizing m with
  | nil =>
    unfold addHolders
    exact keeps_pure ⟨rfl, hm⟩
  | cons e rest ih =>
    obtain ⟨key, holder⟩ := e
    have hrest := fun key holder s he => hholders key holder s (List.mem_cons_of_mem _ he)
    unfold addHolders
    refine keeps_bind (keeps_entries_eq holder) fun es hes => ?_
    split
    · exact ih hrest hm
    · next s hs =>
      refine keeps_bind (keeps_textual_eq key) fun t ht => ?_
      subst ht hes
      obtain ⟨hschema, hobject⟩ := hholders t holder s List.mem_cons_self hs
      refine keeps_bind (keeps_include_traced hm hschema hobject) fun m' hm' => ?_
      exact (ih hrest hm'.2).mono fun m'' hm'' => hm'.trans hm''

theorem keeps_addParameters_traced {L : Text → Prop} {ps : List Value}
    (hps : ∀ es name s, .map es ∈ ps → part es "name" = .text name → schemaOf es = some s →
      SchemaOf doc (.text (Naming.fieldName name)) s ∧ (s.IsObject → L (Naming.fieldName name)))
    {m : Message} (hm : m.TracedBut (SchemaOf doc) L) :
    KeepsTraced doc (addParameters ps m) (Extended doc L m) := by
  induction ps generalizing m with
  | nil =>
    unfold addParameters
    exact keeps_pure ⟨rfl, hm⟩
  | cons parameter rest ih =>
    have hrest := fun es name s he => hps es name s (List.mem_cons_of_mem _ he)
    unfold addParameters
    refine keeps_bind (keeps_mapping_eq parameter) fun es hes => ?_
    subst hes
    split
    · exact ih hrest hm
    · next s hs =>
      refine keeps_bind (keeps_textual_eq _) fun t ht => ?_
      obtain ⟨hschema, hobject⟩ := hps es t s List.mem_cons_self ht hs
      refine keeps_bind (keeps_within (keeps_include_traced hm hschema hobject) _ _)
        fun m' hm' => ?_
      exact (ih hrest hm'.2).mono fun m'' hm'' => hm'.trans hm''

/-- A message is declared under its name, so its inline objects are told by that name. -/
theorem keeps_declare_traced {name : Text} {m : Message} (hname : m.name = .text name)
    (hm : m.TracedBut (SchemaOf doc) (Inline doc name)) :
    KeepsTraced doc (declare m) fun _ => True := by
  unfold declare
  split
  · exact keeps_pure trivial
  · refine keeps_bind (keeps_addMessage (hm.imp ?_)) fun _ _ => keeps_pure trivial
    intro t ht
    exact ⟨name, hname, ht⟩

theorem keeps_useEmpty_traced : KeepsTraced doc useEmpty fun _ => True :=
  keeps_useEmpty fun _ hp => hp

theorem keeps_request_traced {operation : Value.Entries} {method : Name}
    (hoperation : OperationOf doc operation method) :
    KeepsTraced doc (request operation method) fun _ => True := by
  unfold request
  dsimp only
  split
  · exact keeps_bind keeps_useEmpty_traced fun _ _ => keeps_pure trivial
  · refine keeps_bind (keeps_textual_eq method) fun name hname => ?_
    subst hname
    refine keeps_bind (keeps_entries_eq _) fun body hbody => ?_
    refine keeps_bind (keeps_entries_eq _) fun content hcontent => ?_
    subst hbody hcontent
    have hempty : ({ name := .text (name ++ "Request") } : Message).TracedBut (SchemaOf doc)
        (Inline doc (name ++ "Request")) := Message.tracedBut_empty _
    refine keeps_bind (keeps_addHolders_traced _ ?_ hempty) fun m hm => ?_
    · intro key holder s he hs
      have hpart := PartOf.body hoperation he hs
      exact ⟨.part hpart, fun hobject => ⟨s, hobject, hpart⟩⟩
    -- The message has the fields of the body when the parameters are added to it.
    have hparameters : KeepsTraced doc (addParametersOf (part operation "parameters") m)
        (Extended doc (Inline doc (name ++ "Request")) m) := by
      unfold addParametersOf
      split
      · next ps hps =>
        refine keeps_addParameters_traced ?_ hm.2
        intro es n s he hn hs
        have hpart := PartOf.parameter hoperation hps he hn hs
        exact ⟨.part hpart, fun hobject => ⟨s, hobject, hpart⟩⟩
      · split
        · exact keeps_refuse
        · exact keeps_pure ⟨rfl, hm.2⟩
    refine keeps_bind hparameters fun m' hm' => ?_
    have hname' : m'.name = .text (name ++ "Request") := (hm.trans hm').1
    exact keeps_bind (keeps_declare_traced hname' hm'.2) fun _ _ => keeps_pure trivial

theorem keeps_responseMessage_traced {operation : Value.Entries} {method : Name}
    (hoperation : OperationOf doc operation method) {status response : Value}
    (hresponse : ResponseOf operation status response) {shownMethod shownStatus : Text}
    (hmethod : method.display? = some shownMethod) (hstatus : status.display? = some shownStatus) :
    KeepsTraced doc (responseMessage shownStatus (entriesOf response) shownMethod)
      fun _ => True := by
  unfold responseMessage
  refine keeps_bind (keeps_entries_eq _) fun headers hheaders => ?_
  subst hheaders
  have hempty : ({ name := .text (shownMethod ++ "Response_" ++ shownStatus) } :
      Message).TracedBut (SchemaOf doc) (Inline doc (shownMethod ++ "Response_" ++ shownStatus)) :=
    Message.tracedBut_empty _
  -- The headers come first, and the content is added to the message that has them.
  refine keeps_bind (keeps_addHolders_traced _ ?_ hempty) fun m hm => ?_
  · intro key holder s he hs
    have hpart := PartOf.header hoperation hmethod hresponse hstatus he hs
    exact ⟨.part hpart, fun hobject => ⟨s, hobject, hpart⟩⟩
  refine keeps_bind (keeps_entries_eq _) fun content hcontent => ?_
  subst hcontent
  refine keeps_bind (keeps_addHolders_traced _ ?_ hm.2) fun m' hm' => ?_
  · intro key holder s he hs
    have hpart := PartOf.content hoperation hmethod hresponse hstatus he hs
    exact ⟨.part hpart, fun hobject => ⟨s, hobject, hpart⟩⟩
  have hname : m'.name = .text (shownMethod ++ "Response_" ++ shownStatus) := (hm.trans hm').1
  exact keeps_bind (keeps_declare_traced hname hm'.2) fun _ _ => keeps_pure trivial

theorem keeps_addResponses_traced {operation : Value.Entries} {method : Name}
    (hoperation : OperationOf doc operation method) {shownMethod : Text}
    (hmethod : method.display? = some shownMethod) {responses : List (Value × Value)}
    (hresponses : ∀ e ∈ responses, ResponseOf operation e.1 e.2) {m : Message}
    (hm : m.TracedBut (SchemaOf doc) fun _ => False) :
    KeepsTraced doc (addResponses shownMethod responses m)
      fun m' => m'.TracedBut (SchemaOf doc) fun _ => False := by
  induction responses generalizing m with
  | nil =>
    unfold addResponses
    exact keeps_pure hm
  | cons e rest ih =>
    obtain ⟨status, response⟩ := e
    obtain ⟨hresponse, hrest⟩ := List.forall_mem_cons.1 hresponses
    unfold addResponses
    refine keeps_bind (keeps_entries_eq response) fun es hes => ?_
    subst hes
    split
    · exact ih hrest hm
    · refine keeps_bind (keeps_shown_eq status) fun shownStatus hstatus => ?_
      refine keeps_bind (keeps_responseMessage_traced hoperation hresponse hmethod hstatus)
        fun type _ => ih hrest ?_
      -- The message of the response is declared on its own; here it is only referred to.
      cases type with
      | none => exact hm
      | some type => exact hm.addField_self (.response shownStatus type)

theorem keeps_response_traced {operation : Value.Entries} {method : Name}
    (hoperation : OperationOf doc operation method) :
    KeepsTraced doc (response operation method) fun _ => True := by
  unfold response
  refine keeps_bind (keeps_entries_eq _) fun responses hresponses => ?_
  split
  · exact keeps_pure trivial
  · next status r =>
    have hresponse : ResponseOf operation status r := by
      rw [ResponseOf, ← hresponses]
      exact List.mem_cons_self
    refine keeps_bind (keeps_entries_eq _) fun es hes => ?_
    subst hes
    split
    · exact keeps_bind keeps_useEmpty_traced fun _ _ => keeps_pure trivial
    · refine keeps_bind (keeps_shown_eq _) fun shownStatus hstatus => ?_
      refine keeps_bind (keeps_shown_eq method) fun shownMethod hmethod => ?_
      exact keeps_bind (keeps_responseMessage_traced hoperation hresponse hmethod hstatus)
        fun _ _ => keeps_pure trivial
  · refine keeps_bind (keeps_shown_eq method) fun shownMethod hmethod => ?_
    have hall : ∀ e ∈ responses, ResponseOf operation e.1 e.2 := by
      intro e he
      rw [ResponseOf, ← hresponses]
      exact he
    refine keeps_bind (keeps_addResponses_traced hoperation hmethod hall
      (Message.tracedBut_empty method)) fun m hm => ?_
    split
    · exact keeps_bind keeps_useEmpty_traced fun _ _ => keeps_pure trivial
    · refine keeps_bind (keeps_addMessage (hm.imp ?_)) fun _ _ => keeps_pure trivial
      rintro _ ⟨⟩

/-! ## Documents -/

/-- A step that leaves the messages alone keeps the draft traced. -/
theorem keeps_services_traced {g : File → File} (hg : ∀ f, (g f).messages = f.messages) :
    KeepsTraced doc (update g) fun _ => True := by
  refine leads_modify fun p hp => ?_
  show ∀ m ∈ (g p.file).messages, _
  rw [hg]
  exact hp

theorem keeps_openService_traced (name : Name) :
    KeepsTraced doc (openService name) fun _ => True := by
  unfold openService
  refine leads_get_bind fun p hp => Leads.of_imp (keeps_bind (keeps_services_traced fun f =>
    File.messages_addService f name) fun _ _ => keeps_pure trivial) ?_
  rintro _ rfl
  exact hp

theorem keeps_declareMethod_traced (choice : OptionChoice) (path : Value) (verb : Text)
    (operation : Value.Entries) (place : Nat) (method : Name) (input : Option Text)
    (output : Option Name) :
    KeepsTraced doc (declareMethod choice path verb operation place method input output)
      fun _ => True := by
  have hinput : KeepsTraced doc (orEmptyText input) fun _ => True := by
    cases input with
    | none => exact keeps_useEmpty_traced
    | some t => exact keeps_pure trivial
  have houtput : KeepsTraced doc (orEmpty output) fun _ => True := by
    cases output with
    | none => exact keeps_map keeps_useEmpty_traced fun _ _ => trivial
    | some t => exact keeps_pure trivial
  unfold declareMethod
  refine keeps_bind hinput fun input _ => ?_
  refine keeps_bind houtput fun output _ => ?_
  refine keeps_bind (keeps_routeSettings choice path verb) fun route _ => ?_
  refine keeps_bind (keeps_operationSettings choice operation) fun details _ => ?_
  exact keeps_services_traced fun _ => rfl

theorem keeps_addOperation_traced (choice : OptionChoice) (path : Value) {verb : Text}
    {operation : Value.Entries}
    (hoperation : OperationOf doc operation (methodName (part operation "operationId") verb)) :
    KeepsTraced doc (addOperation choice path verb operation) fun _ => True := by
  unfold addOperation
  refine keeps_bind (keeps_firstTag _) fun service _ => ?_
  refine keeps_bind (keeps_openService_traced service) fun place _ => ?_
  dsimp only
  refine keeps_bind (leads_modify fun _ hp => hp) fun _ _ => ?_
  refine keeps_bind (keeps_within (keeps_request_traced hoperation) _ _) fun input _ => ?_
  refine keeps_bind (keeps_within (keeps_response_traced hoperation) _ _) fun output _ => ?_
  refine leads_get_bind fun p hp => ?_
  split
  · refine Leads.of_imp (keeps_pure trivial) ?_
    rintro _ rfl
    exact hp
  · refine Leads.of_imp (keeps_declareMethod_traced choice path verb operation place _ input
      output) ?_
    rintro _ rfl
    exact hp

theorem keeps_addPathItem_traced (choice : OptionChoice) {path item : Value}
    (hitem : (path, item) ∈ entriesOf (part (entriesOf doc) "paths")) {vs : List Text}
    (hvs : ∀ verb ∈ vs, verb ∈ verbs) :
    KeepsTraced doc (addPathItem choice path (entriesOf item) vs) fun _ => True := by
  induction vs with
  | nil =>
    unfold addPathItem
    exact keeps_pure trivial
  | cons verb rest ih =>
    obtain ⟨hverb, hrest⟩ := List.forall_mem_cons.1 hvs
    unfold addPathItem
    split
    · exact ih hrest
    · refine keeps_bind (keeps_mapping_eq _) fun operation hmap => ?_
      refine keeps_bind (keeps_addOperation_traced choice path (.intro hitem hverb hmap)) ?_
      exact fun _ _ => ih hrest

theorem keeps_addPaths_traced (choice : OptionChoice) {paths : List (Value × Value)}
    (hpaths : ∀ e ∈ paths, e ∈ entriesOf (part (entriesOf doc) "paths")) :
    KeepsTraced doc (addPaths choice paths) fun _ => True := by
  induction paths with
  | nil =>
    unfold addPaths
    exact keeps_pure trivial
  | cons e rest ih =>
    obtain ⟨path, item⟩ := e
    obtain ⟨hitem, hrest⟩ := List.forall_mem_cons.1 hpaths
    unfold addPaths
    refine keeps_bind (keeps_mapping_eq item) fun es hes => ?_
    have hes' : es = entriesOf item := by rw [hes]; rfl
    rw [hes']
    exact keeps_bind (keeps_addPathItem_traced choice hitem fun _ h => h) fun _ _ => ih hrest

theorem keeps_addComponents_traced {schemas : List (Value × Value)}
    (hschemas : ∀ e ∈ schemas, SchemaOf doc e.1 (.ofValue e.2)) :
    KeepsTraced doc (addComponents schemas) fun _ => True := by
  induction schemas with
  | nil =>
    unfold addComponents
    exact keeps_pure trivial
  | cons e rest ih =>
    obtain ⟨name, schema⟩ := e
    obtain ⟨hschema, hrest⟩ := List.forall_mem_cons.1 hschemas
    unfold addComponents
    refine keeps_bind (leads_modify fun _ hp => hp) fun _ _ => ?_
    refine keeps_bind (keeps_within (Piece.keeps_ofSchema_traced (closed_schemaOf doc) _ name
      hschema (fun _ => False) (by rintro _ ⟨⟩)) _ _) ?_
    rintro ⟨piece, parent⟩ ⟨hpiece, -⟩
    have hdeclare : KeepsTraced doc (update (declareComponent name piece)) fun _ => True := by
      cases piece with
      | enum e => exact keeps_addEnum e
      | field fd =>
        -- A component that is a field is wrapped into a message, which has no nested ones.
        have hnone : ∀ n, n ∉ ({ name, fields := [fd] } : Message).messages := fun _ =>
          List.not_mem_nil
        refine keeps_addMessage ⟨fun x hx => ?_, fun n hn => absurd hn (hnone n),
          fun n hn => absurd hn (hnone n)⟩
        rw [List.mem_singleton.1 hx]
        exact hpiece.origin hschema
      | message m => exact keeps_addMessage hpiece.2.2.tracedBut
    exact keeps_bind hdeclare fun _ _ => ih hrest

theorem keeps_addDocument_traced (choice : OptionChoice) (doc : Value) :
    KeepsTraced doc (addDocument choice doc) fun _ => True := by
  have himport : ∀ wanted path, KeepsTraced doc (importIf wanted path) fun _ => True := by
    intro wanted path
    unfold importIf
    split
    · exact keeps_addImport path
    · exact keeps_pure trivial
  unfold addDocument
  refine keeps_bind (keeps_mapping_eq doc) fun es hes => ?_
  -- A document that is converted is a mapping, so nothing is lost by reading its entries.
  have hes' : es = entriesOf doc := by rw [hes]; rfl
  subst hes'
  refine keeps_bind (keeps_entries_eq _) fun components hcomponents => ?_
  refine keeps_bind (keeps_entries_eq _) fun schemas hschemas => ?_
  subst hcomponents hschemas
  refine keeps_bind (keeps_addComponents_traced fun e he => .component he) fun _ _ => ?_
  refine keeps_bind (keeps_entries_eq _) fun paths hpaths => ?_
  subst hpaths
  refine keeps_bind (keeps_addPaths_traced choice fun _ h => h) fun _ _ => ?_
  exact keeps_bind (himport _ _) fun _ _ => himport _ _

end Conversion

/-! ## Drafts of documents -/

namespace Message

/-- A field of the message has the type, or has it as the type of the values of a map. -/
def Refers (m : Message) (t : Text) : Prop :=
  ∃ fd ∈ m.fields, fd.type = t ∨ fd.type = "map<string, " ++ t ++ ">"

instance (m : Message) (t : Text) : Decidable (m.Refers t) :=
  inferInstanceAs (Decidable (∃ fd ∈ m.fields, _))

/-- The name of the field that a nested message gets belongs to a field of another origin. -/
def Displaced (doc : Value) (m : Message) (t : Text) : Prop :=
  ∃ w fd, FieldName m.name t w ∧ fd ∈ m.fields ∧ fd.name = .text w ∧
    Origin (Conversion.SchemaOf doc) m.name fd ∧
      fd.type ≠ t ∧ fd.type ≠ "map<string, " ++ t ++ ">"

/-- All nested messages are for a field, at any depth, or their field has been displaced. -/
inductive Serving (doc : Value) : Message → Prop where
  | intro {m : Message} :
      (∀ n ∈ m.messages, ∃ t, n.name = .text t ∧ (m.Refers t ∨ m.Displaced doc t)) →
      (∀ n ∈ m.messages, n.Serving doc) → m.Serving doc

theorem Holds.refers_or_displaced {m : Message} {t : Text} (h : m.Holds t)
    (hm : ∀ fd ∈ m.fields, Origin (Conversion.SchemaOf doc) m.name fd) :
    m.Refers t ∨ m.Displaced doc t := by
  obtain ⟨w, hw, hmem⟩ := h
  obtain ⟨fd, hfd, hname⟩ := List.mem_map.1 hmem
  -- The field at the place is the one of the nested message, or it has displaced it.
  by_cases htype : fd.type = t ∨ fd.type = "map<string, " ++ t ++ ">"
  · exact Or.inl ⟨fd, hfd, htype⟩
  · rw [not_or] at htype
    exact Or.inr ⟨w, fd, hw, hfd, hname, hm fd hfd, htype.1, htype.2⟩

theorem Traced.serving {m : Message} (h : m.Traced (Conversion.SchemaOf doc)) : m.Serving doc := by
  induction h with
  | @intro m hfields hnested _ ih =>
    refine .intro (fun n hn => ?_) ih
    obtain ⟨t, ht, hholds⟩ := hnested n hn
    exact ⟨t, ht, hholds.refers_or_displaced hfields⟩

end Message

/-- No nested message of a draft is dead, unless its field is displaced: it is the type of a field
    of the message around it, or that of the values of one.  At the top level, inline objects of
    parameters, headers and media types are left out. -/
theorem serving_of_ofDocument {choice : OptionChoice} {package : Option Text} {doc : Value}
    {file : File} {notices : List Notice}
    (h : ofDocument choice package doc = (.ok file, notices)) :
    ∀ m ∈ file.messages, (∀ n ∈ m.messages, ∃ t, n.name = .text t ∧
        (m.Refers t ∨ m.Displaced doc t ∨
          ∃ name, m.name = .text name ∧ Conversion.Inline doc name t)) ∧
      ∀ n ∈ m.messages, n.Serving doc := by
  obtain ⟨name, p, q, hp, hends, rfl⟩ := ends_of_ofDocument h
  -- An empty draft is traced, and every step of the conversion keeps it so.
  have hstart : p.Traced (Conversion.SchemaOf doc) (Conversion.Inline doc) := by
    rw [Progress.Traced, hp]
    exact nofun
  have hkept := (Conversion.keeps_addDocument_traced choice doc p hstart).1
  rw [hends] at hkept
  intro m hm
  have htraced := hkept m hm
  refine ⟨fun n hn => ?_, fun n hn => (htraced.inner n hn).serving⟩
  obtain ⟨t, ht, hholds⟩ := htraced.nested n hn
  refine ⟨t, ht, ?_⟩
  rcases hholds with hholds | hinline
  · exact (hholds.refers_or_displaced htraced.fields).imp id Or.inl
  · exact Or.inr (Or.inr hinline)

/-- A document with an object in an object, an array of objects, a map to objects, and a body that
    is an object. -/
def orderDocument : Value :=
  .map [(.text "paths", .map [(.text "/orders", .map [(.text "post", .map [
      (.text "operationId", .text "Place"),
      (.text "requestBody", .map [(.text "content", .map [(.text "json", .map [
        (.text "schema", .map [(.text "type", .text "object")])])])])])])]),
    (.text "components", .map [(.text "schemas", .map [
      (.text "Order", .map [(.text "type", .text "object"),
        (.text "properties", .map [
          (.text "buyer", .map [(.text "type", .text "object")]),
          (.text "lines", .map [(.text "type", .text "array"),
            (.text "items", .map [(.text "type", .text "object")])])]),
        (.text "additionalProperties", .map [(.text "type", .text "object")])])])])]

theorem serving_orderDraft : ∃ file notices,
    ofDocument {} none orderDocument = (.ok file, notices) ∧
      (file.messages.map fun m => (m.fields.length, m.messages.length)) = [(3, 3), (0, 1)] ∧
      ∀ m ∈ file.messages, (∀ n ∈ m.messages, ∃ t, n.name = .text t ∧
          (m.Refers t ∨ m.Displaced orderDocument t ∨
            ∃ name, m.name = .text name ∧ Conversion.Inline orderDocument name t)) ∧
        ∀ n ∈ m.messages, n.Serving orderDocument := by
  have hcheck : ((ofDocument {} none orderDocument).1.toOption.any fun f => decide
      ((f.messages.map fun m => (m.fields.length, m.messages.length)) = [(3, 3), (0, 1)])) =
        true := by
    decide +kernel
  obtain ⟨file, notices, h, hfile⟩ := exists_draft_of_any hcheck
  exact ⟨file, notices, h, of_decide_eq_true hfile, serving_of_ofDocument h⟩

/-- A document with an object `part` whose field has the name of another property, and with further
    properties that are arrays of objects. -/
def crowdedDocument : Value :=
  .map [(.text "components", .map [(.text "schemas", .map [
    (.text "Item", .map [(.text "type", .text "object"),
      (.text "properties", .map [
        (.text "partField", .map [(.text "type", .text "string")]),
        (.text "part", .map [(.text "type", .text "object")])]),
      (.text "additionalProperties", .map [(.text "type", .text "array"),
        (.text "items", .map [(.text "type", .text "object")])])])])])]

/-- The first field of a name stays, and a map without a message has texts as its values, so both
    nested messages go without a field. -/
theorem displaced_crowdedDraft : ∃ file notices,
    ofDocument {} none crowdedDocument = (.ok file, notices) ∧
      ∃ m ∈ file.messages, m.messages.length = 2 ∧
        ∀ n ∈ m.messages, ∀ t, n.name = .text t → ¬ m.Refers t := by
  have hcheck : ((ofDocument {} none crowdedDocument).1.toOption.any fun f =>
      f.messages.any fun m => decide (m.messages.length = 2) &&
        m.messages.all fun n => n.name.display?.all fun t => !decide (m.Refers t)) = true := by
    decide +kernel
  obtain ⟨file, notices, h, hfile⟩ := exists_draft_of_any hcheck
  obtain ⟨m, hm, hmessage⟩ := List.any_eq_true.1 hfile
  obtain ⟨hlength, hnested⟩ := Bool.and_eq_true_iff.1 hmessage
  refine ⟨file, notices, h, m, hm, of_decide_eq_true hlength, fun n hn t ht hrefers => ?_⟩
  have hnot := List.all_eq_true.1 hnested n hn
  simp only [ht, Value.display?, Option.all_some, Bool.not_eq_true',
    decide_eq_false_iff_not] at hnot
  exact hnot hrefers

end IdlBridge.Draft
