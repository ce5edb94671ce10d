import IdlBridge.Proofs.Draft.NestedTypes

/-! # The types of a method

    A method takes the message of a request and gives the message of a response.  Whether there are
    such messages is up to the schemas of the operation alone: every schema becomes a field or a
    message of the one that it goes into, so a single schema is enough for a message to be declared.

    Both types are read off the operation here, `requestType` and `responseType`, and the conversion
    is shown to give them.  The services of the draft stay as they are while the messages are put
    together.
-/

namespace IdlBridge.Draft

namespace Conversion

/-! ## Types read off an operation -/

/-- The items of data; data that is no list has none. -/
def itemsOf : Value → List Value
  | .list vs => vs
  | _ => []

/-- The media types of a body or of a response. -/
def contentOf (v : Value) : Value.Entries :=
  entriesOf (part (entriesOf v) "content")

/-- A parameter, a header or a media type has a schema. -/
def hasSchema (holder : Value) : Bool :=
  (part (entriesOf holder) "schema").isTruthy

/-- Data as it reads in a name. -/
def asShown (v : Value) : Text :=
  v.display?.getD []

/-- The type that the method of an operation takes. -/
def requestType (operation : Value.Entries) (method : Name) : Text :=
  if (contentOf (part operation "requestBody")).any (fun e => hasSchema e.2) ||
      (itemsOf (part operation "parameters")).any hasSchema then
    asShown method ++ "Request"
  else emptyType

/-- A response has content, and one of its headers or media types has a schema. -/
def isTyped (response : Value) : Bool :=
  (part (entriesOf response) "content").isTruthy &&
    ((entriesOf (part (entriesOf response) "headers")).any (fun e => hasSchema e.2) ||
      (contentOf response).any fun e => hasSchema e.2)

/-- The type that the method of an operation gives. -/
def responseType (operation : Value.Entries) (method : Name) : Name :=
  match entriesOf (part operation "responses") with
  | [(status, response)] =>
    if isTyped response then .text (asShown method ++ "Response_" ++ asShown status)
    else .text emptyType
  | responses => if responses.any (fun e => isTyped e.2) then method else .text emptyType

/-- Unless there is a single response, the response of an operation is named after its method. -/
theorem responseType_of_ne_singleton {operation : Value.Entries}
    (h : ∀ status r, entriesOf (part operation "responses") ≠ [(status, r)]) (method : Name) :
    responseType operation method =
      if (entriesOf (part operation "responses")).any (fun e => isTyped e.2) then method
      else .text emptyType := by
  unfold responseType
  split
  · next status r hsingle => exact absurd hsingle (h status r)
  · rfl

theorem schemaOf_eq_none {holder : Value} (h : schemaOf (entriesOf holder) = none) :
    hasSchema holder = false := by
  unfold schemaOf at h
  simpa [hasSchema] using h

theorem schemaOf_eq_some {holder : Value} {s : Spec.Schema}
    (h : schemaOf (entriesOf holder) = some s) : hasSchema holder = true := by
  unfold schemaOf at h
  by_contra hno
  rw [hasSchema] at hno
  simp [hno] at h

theorem entriesOf_eq_nil {v : Value} (h : v.isTruthy = false) : entriesOf v = [] := by
  cases v with
  | map es => simpa [Value.isTruthy, entriesOf] using h
  | _ => rfl

theorem itemsOf_eq_nil {v : Value} (h : v.isTruthy = false) : itemsOf v = [] := by
  cases v with
  | list vs => simpa [Value.isTruthy, itemsOf] using h
  | _ => rfl

theorem asShown_of_display? {v : Value} {t : Text} (h : v.display? = some t) : asShown v = t := by
  rw [asShown, h, Option.getD_some]

end Conversion

/-! ## Schemas -/

variable {α : Type} {ss : List Service}

/-- The step leaves the services of the draft as they are, whether it succeeds or fails. -/
abbrev Spares (ss : List Service) (x : Conversion α) (Q : α → Prop) : Prop :=
  Keeps (fun p => p.file.services = ss) x Q

theorem spares_update {g : File → File} (hg : ∀ f, (g f).services = f.services) :
    Spares ss (Conversion.update g) fun _ => True :=
  leads_modify fun p hp => (hg p.file).trans hp

namespace Piece

open Conversion

/-- A schema that is converted into a message becomes no enumeration, but a field of its type. -/
def Inner (parent : Option Message) (piece : Piece) : Prop :=
  parent.isSome → ∀ e, piece ≠ .enum e

theorem inner_field (parent : Option Message) (fd : Field) : Inner parent (.field fd) :=
  fun _ _ => nofun

theorem inner_message (parent : Option Message) (m : Message) : Inner parent (.message m) :=
  fun _ _ => nofun

theorem spares_placeItems (m : Message) (parent : Option Message) :
    Spares ss (placeItems m parent) fun _ => True := by
  cases parent with
  | some parent => exact keeps_pure trivial
  | none => exact keeps_bind (spares_update fun _ => rfl) fun _ _ => keeps_pure trivial

theorem spares_importFor (type : Text) : Spares ss (importFor type) fun _ => True := by
  unfold importFor
  split
  · exact spares_update fun _ => rfl
  · exact keeps_pure trivial

mutual

theorem spares_ofSchema (s : Spec.Schema) (name : Name) (parent : Option Message) :
    Spares ss (ofSchema s name parent) fun r => Inner parent r.1 := by
  match s with
  | .reference type =>
    unfold ofSchema
    exact keeps_pure (inner_field _ _)
  | .array none =>
    unfold ofSchema
    exact keeps_bind (keeps_shown name) fun _ _ => keeps_throw _
  | .array (some items) =>
    -- Whatever the items become, the array is a field.
    unfold ofSchema
    refine keeps_bind (keeps_textual name) fun t _ => ?_
    refine keeps_bind (spares_ofSchema items _ parent) ?_
    rintro ⟨item, holder⟩ -
    cases item with
    | field f => exact keeps_pure (inner_field _ _)
    | enum e =>
      exact keeps_bind (spares_update fun _ => rfl) fun _ _ => keeps_pure (inner_field _ _)
    | message m =>
      exact keeps_bind (spares_placeItems m holder) fun _ _ => keeps_pure (inner_field _ _)
  | .object properties additional =>
    unfold ofSchema
    refine keeps_bind (spares_ofProperties properties { name }) fun m _ => ?_
    match additional with
    | .closed => exact keeps_pure (inner_message _ _)
    | .untyped => exact keeps_pure (inner_message _ _)
    | .typed s =>
      refine keeps_bind (keeps_textual name) fun t _ => ?_
      refine keeps_bind (spares_ofSchema s _ (some m)) ?_
      rintro ⟨value, holder⟩ -
      cases value with
      | message v => exact keeps_pure (inner_message _ _)
      | field f => exact keeps_pure (inner_message _ _)
      | enum e => exact keeps_pure (inner_message _ _)
  | .enumeration values =>
    unfold ofSchema
    refine keeps_bind (keeps_textual name) fun t _ => ?_
    -- Only without a message around it does an enumeration stay one.
    cases parent with
    | none => exact keeps_pure fun h => nomatch h
    | some m => exact keeps_pure (inner_field _ _)
  | .scalar type =>
    unfold ofSchema
    exact keeps_bind (spares_importFor type) fun _ _ => keeps_pure (inner_field _ _)
  | .untyped =>
    unfold ofSchema
    exact keeps_throw _
  | .unknownType shown =>
    unfold ofSchema
    exact keeps_throw _
  | .misshapen =>
    unfold ofSchema
    exact keeps_refuse

theorem spares_ofProperties (ps : List (Value × Spec.Schema)) (m : Message) :
    Spares ss (ofSchema.ofProperties ps m) fun _ => True := by
  match ps with
  | [] =>
    unfold ofSchema.ofProperties
    exact keeps_pure trivial
  | (name, s) :: rest =>
    have hattach : ∀ (m : Message) (piece : Piece),
        Spares ss (attach m name piece) fun _ => True := by
      intro m piece
      cases piece with
      | field f => exact keeps_pure trivial
      | message nested => exact keeps_bind (keeps_textual name) fun _ _ => keeps_pure trivial
      | enum e => exact keeps_pure trivial
    unfold ofSchema.ofProperties
    refine keeps_bind (keeps_within (spares_ofSchema s name (some m)) _ _) ?_
    rintro ⟨piece, holder⟩ -
    exact keeps_bind (hattach _ piece) fun m' _ => spares_ofProperties rest m'

end

end Piece

/-! ## Messages -/

theorem isEmpty_addNew {key : α → Name} (xs : List α) (x : α) :
    (addNew key xs x).isEmpty = false := by
  unfold addNew
  split
  · next hany =>
    obtain ⟨y, hy, -⟩ := List.any_eq_true.1 hany
    rw [List.isEmpty_eq_false_iff]
    exact List.ne_nil_of_mem hy
  · simp

theorem Piece.isEmpty_addTo {m : Message} {piece : Piece} (h : piece.Inner (some m))
    (holder : Message) : (piece.addTo holder).isEmpty = false := by
  cases piece with
  | field f => simp [Piece.addTo, Message.addField, Message.isEmpty, isEmpty_addNew]
  | message nested => simp [Piece.addTo, Message.addMessage, Message.isEmpty, isEmpty_addNew]
  | enum e => exact absurd rfl (h rfl e)

namespace Conversion

/-- A message is no longer empty when a schema has gone into it. -/
theorem spares_include (m : Message) (name : Name) (s : Spec.Schema) :
    Spares ss (include_ m name s) fun m' => m'.isEmpty = false := by
  unfold include_
  refine keeps_bind (Piece.spares_ofSchema s name (some m)) ?_
  rintro ⟨piece, holder⟩ hpiece
  exact keeps_pure (Piece.isEmpty_addTo hpiece _)

theorem spares_useEmpty : Spares ss useEmpty fun t => t = emptyType := by
  unfold useEmpty
  exact keeps_bind (spares_update fun _ => rfl) fun _ _ => keeps_pure rfl

theorem spares_addHolders (name : Text → Text) (holders : List (Value × Value)) (m : Message) :
    Spares ss (addHolders name holders m)
      fun m' => m'.isEmpty = (m.isEmpty && !holders.any fun e => hasSchema e.2) := by
  induction holders generalizing m with
  | nil =>
    unfold addHolders
    exact keeps_pure (by simp)
  | cons e rest ih =>
    obtain ⟨key, holder⟩ := e
    unfold addHolders
    refine keeps_bind (keeps_entries_eq holder) fun es hes => ?_
    subst hes
    split
    · next hnone =>
      refine (ih m).mono fun m' hm' => ?_
      rw [hm', List.any_cons, schemaOf_eq_none hnone, Bool.false_or]
    · next s hsome =>
      -- The message has a part from here on, whatever the other holders add.
      refine keeps_bind (keeps_textual key) fun t _ => ?_
      refine keeps_bind (spares_include m _ s) fun m' hm' => (ih m').mono fun m'' hm'' => ?_
      rw [hm'', hm', List.any_cons, schemaOf_eq_some hsome]
      simp

theorem spares_addParameters (ps : List Value) (m : Message) :
    Spares ss (addParameters ps m) fun m' => m'.isEmpty = (m.isEmpty && !ps.any hasSchema) := by
  induction ps generalizing m with
  | nil =>
    unfold addParameters
    exact keeps_pure (by simp)
  | cons parameter rest ih =>
    unfold addParameters
    refine keeps_bind (keeps_mapping_eq parameter) fun es hes => ?_
    subst hes
    split
    · next hnone =>
      -- Only a parameter with a schema makes the message one with fields.
      have hschema : hasSchema (.map es) = false := schemaOf_eq_none hnone
      refine (ih m).mono fun m' hm' => ?_
      rw [hm', List.any_cons, hschema, Bool.false_or]
    · next s hsome =>
      have hschema : hasSchema (.map es) = true := schemaOf_eq_some hsome
      refine keeps_bind (keeps_textual _) fun t _ => ?_
      refine keeps_bind (keeps_within (spares_include m _ s) _ _) fun m' hm' => ?_
      refine (ih m').mono fun m'' hm'' => ?_
      rw [hm'', hm', List.any_cons, hschema]
      simp

theorem spares_addParametersOf (parameters : Value) (m : Message) :
    Spares ss (addParametersOf parameters m)
      fun m' => m'.isEmpty = (m.isEmpty && !(itemsOf parameters).any hasSchema) := by
  unfold addParametersOf
  split
  · exact spares_addParameters _ m
  · next hlist =>
    split
    · exact keeps_refuse
    · have hitems : itemsOf parameters = [] := by
        cases parameters with
        | list ps => exact absurd rfl (hlist ps)
        | _ => rfl
      exact keeps_pure (by simp [hitems])

theorem spares_declare (m : Message) :
    Spares ss (declare m) fun r => r.isSome = !m.isEmpty := by
  unfold declare
  split
  · next h => exact keeps_pure (by simp [h])
  · next h =>
    exact keeps_bind (spares_update fun _ => rfl) fun _ _ => keeps_pure (by simpa using h)

/-- A message that two parts of an operation go into, one after the other, is declared if either of
    them has a schema. -/
theorem isSome_of_parts {m m' : Message} {d : Option Name} {first second : Bool}
    (hm : m.isEmpty = !first) (hm' : m'.isEmpty = (m.isEmpty && !second))
    (hd : d.isSome = !m'.isEmpty) : d.isSome = (first || second) := by
  rw [hd, hm', hm, ← Bool.not_or, Bool.not_not]

/-- The request of an operation has the type that is read off the operation. -/
theorem spares_request (operation : Value.Entries) (method : Name) :
    Spares ss (request operation method)
      fun r => r.getD emptyType = requestType operation method := by
  unfold request requestType
  dsimp only
  split
  · next hnone =>
    -- Without a body and parameters there is nothing that could have a schema.
    rw [Bool.not_eq_true', Bool.not_eq_true'] at hnone
    have hbody : contentOf (part operation "requestBody") = [] := by
      rw [contentOf, entriesOf_eq_nil hnone.1]
      rfl
    have hparameters := itemsOf_eq_nil hnone.2
    refine keeps_bind spares_useEmpty fun t ht => keeps_pure ?_
    simp [ht, hbody, hparameters]
  · refine keeps_bind (keeps_textual_eq method) fun name hname => ?_
    refine keeps_bind (keeps_entries_eq _) fun body hbody => ?_
    refine keeps_bind (keeps_entries_eq _) fun content hcontent => ?_
    subst hname hbody hcontent
    refine keeps_bind (spares_addHolders _ _ _) fun m hm => ?_
    refine keeps_bind (spares_addParametersOf _ m) fun m' hm' => ?_
    refine keeps_bind (spares_declare m') fun d hd => keeps_pure ?_
    have hname : asShown (.text name) = name := rfl
    rw [contentOf, ← isSome_of_parts hm hm' hd, hname]
    cases d with
    | none => rfl
    | some n => rfl

/-- A response has a message of its own if one of its headers or media types has a schema. -/
theorem spares_responseMessage (status : Text) (response : Value) (method : Text) :
    Spares ss (responseMessage status (entriesOf response) method) fun r =>
      r = if (entriesOf (part (entriesOf response) "headers")).any (fun e => hasSchema e.2) ||
          (contentOf response).any (fun e => hasSchema e.2)
        then some (method ++ "Response_" ++ status) else none := by
  unfold responseMessage
  refine keeps_bind (keeps_entries_eq _) fun headers hheaders => ?_
  subst hheaders
  refine keeps_bind (spares_addHolders _ _ _) fun m hm => ?_
  refine keeps_bind (keeps_entries_eq _) fun content hcontent => ?_
  subst hcontent
  refine keeps_bind (spares_addHolders _ _ m) fun m' hm' => ?_
  refine keeps_bind (spares_declare m') fun d hd => keeps_pure ?_
  rw [contentOf, ← isSome_of_parts hm hm' hd]
  cases d with
  | none => rfl
  | some n => rfl

/-- The message for several responses has a field for each response with a type. -/
theorem spares_addResponses (method : Text) (responses : List (Value × Value)) (m : Message) :
    Spares ss (addResponses method responses m) fun m' =>
      m'.fields.isEmpty = (m.fields.isEmpty && !responses.any fun e => isTyped e.2) := by
  induction responses generalizing m with
  | nil =>
    unfold addResponses
    exact keeps_pure (by simp)
  | cons e rest ih =>
    obtain ⟨status, response⟩ := e
    unfold addResponses
    refine keeps_bind (keeps_entries_eq response) fun es hes => ?_
    subst hes
    split
    · next hcontent =>
      -- A response without content is passed over, even if its headers have schemas.
      refine (ih m).mono fun m' hm' => ?_
      rw [Bool.not_eq_true'] at hcontent
      rw [hm', List.any_cons, isTyped, hcontent, Bool.false_and, Bool.false_or]
    · next hcontent =>
      refine keeps_bind (keeps_shown status) fun shownStatus _ => ?_
      refine keeps_bind (spares_responseMessage shownStatus response method) fun type htype => ?_
      refine (ih _).mono fun m' hm' => ?_
      have hcontent' : (part (entriesOf response) "content").isTruthy = true := by
        simpa using hcontent
      rw [hm', List.any_cons, isTyped, hcontent', Bool.true_and, htype]
      generalize (_ || _) = typed
      cases typed with
      | true => simp [Message.addField, isEmpty_addNew]
      | false => simp

/-- The response of an operation has the type that is read off the operation. -/
theorem spares_response (operation : Value.Entries) (method : Name) :
    Spares ss (response operation method)
      fun r => r.getD (.text emptyType) = responseType operation method := by
  unfold response
  refine keeps_bind (keeps_entries_eq _) fun responses hresponses => ?_
  split
  · refine keeps_pure ?_
    rw [responseType, ← hresponses]
    rfl
  · next status r =>
    refine keeps_bind (keeps_entries_eq _) fun es hes => ?_
    subst hes
    rw [responseType, ← hresponses]
    dsimp only
    split
    · next hcontent =>
      rw [Bool.not_eq_true'] at hcontent
      refine keeps_bind spares_useEmpty fun t ht => keeps_pure ?_
      rw [isTyped, hcontent, ht]
      rfl
    · next hcontent =>
      have hcontent' : (part (entriesOf r) "content").isTruthy = true := by
        simpa using hcontent
      refine keeps_bind (keeps_shown_eq status) fun shownStatus hstatus => ?_
      refine keeps_bind (keeps_shown_eq method) fun shownMethod hmethod => ?_
      refine keeps_bind (spares_responseMessage shownStatus r shownMethod) fun type htype => ?_
      refine keeps_pure ?_
      rw [isTyped, hcontent', Bool.true_and, asShown_of_display? hmethod,
        asShown_of_display? hstatus, htype]
      split <;> rfl
  · next hsingle =>
    have hseveral : ∀ status r, entriesOf (part operation "responses") ≠ [(status, r)] :=
      fun status r h => hsingle status r (hresponses.trans h)
    rw [responseType_of_ne_singleton hseveral, ← hresponses]
    refine keeps_bind (keeps_shown method) fun shownMethod _ => ?_
    refine keeps_bind (spares_addResponses shownMethod responses _) fun m hm => ?_
    rw [List.isEmpty_nil, Bool.true_and] at hm
    split
    · next hempty =>
      -- A field stands for each response with a type, so without fields there is none.
      rw [hempty, Eq.comm, Bool.not_eq_true'] at hm
      refine keeps_bind spares_useEmpty fun t ht => keeps_pure ?_
      rw [hm, ht]
      rfl
    · next hfields =>
      rw [Bool.not_eq_true] at hfields
      rw [hfields, Eq.comm, Bool.not_eq_false'] at hm
      refine keeps_bind (spares_update fun _ => rfl) fun _ _ => keeps_pure ?_
      rw [hm]
      rfl

end Conversion

end IdlBridge.Draft
