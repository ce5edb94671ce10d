import IdlBridge.Proofs.Draft.MethodTypes
import IdlBridge.Proofs.Draft.Properties
import IdlBridge.Proofs.Naming

/-! # Names of fields in requests and responses

    The fields of the request and of the responses of an operation are named after its parameters,
    its headers and its media types.  Parameters and headers go through `Naming.fieldName`, which
    makes an identifier of anything.  Media types go through `Naming.camel`, which does not look at
    the start: in a request the name of the method stands in front of it, in a response nothing
    does.

    What an operation does to the messages of the draft is to unite it with a list of messages, a
    request and some responses (`Unites`).  These carry the parts of the operation: each of their
    fields is named after a part, and each part that is no object has a field of its name
    (`Carries`).
-/

namespace IdlBridge.Draft

open Conversion

/-! ## Parts -/

/-- What a field of a request or a response is named after. -/
inductive PartName where
  | parameter (name : Text)
  | header (name : Text)
  | requestBody (mediaType : Text)
  | responseBody (mediaType : Text)

namespace PartName

/-- The name of the field, for a method of a name. -/
def fieldName (method : Text) : PartName → Text
  | parameter name => Naming.fieldName name
  | header name => Naming.fieldName name
  | requestBody mediaType => Naming.camel (method ++ "Request" ++ mediaType)
  | responseBody mediaType => Naming.camel mediaType

/-- The name of the field starts with a letter or an underscore. -/
def IsLegal (method : Text) : PartName → Prop
  | parameter _ | header _ => True
  | requestBody _ => Naming.startsWithLetter (method ++ "Request") = true
  | responseBody mediaType => Naming.startsWithLetter mediaType = true

theorem isIdentifier_fieldName_iff (method : Text) (name : PartName) :
    (name.fieldName method).IsIdentifier ↔ name.IsLegal method := by
  cases name with
  | parameter name => exact iff_of_true (Naming.isIdentifier_fieldName name) trivial
  | header name => exact iff_of_true (Naming.isIdentifier_fieldName name) trivial
  | responseBody mediaType => exact Naming.isIdentifier_camel_iff mediaType
  | requestBody mediaType =>
    rw [fieldName, Naming.isIdentifier_camel_iff, IsLegal, Naming.startsWithLetter,
      Naming.startsWithLetter]
    -- There is a letter before the media type, so its own start does not matter.
    have hsome : ((method ++ "Request").find? CodePoint.isAsciiAlnum).isSome := by
      rw [List.find?_isSome]
      exact ⟨'R', List.mem_append_right _ (by decide), by decide⟩
    rw [List.find?_append, Option.or_of_isSome hsome]

end PartName

/-- A part of the request of an operation, in the message of the name. -/
inductive RequestPart (operation : Value.Entries) (method : Text) :
    Text → PartName → Spec.Schema → Prop
  | body {mediaType : Text} {holder : Value} {s : Spec.Schema} :
      (.text mediaType, holder) ∈
        entriesOf (part (entriesOf (part operation "requestBody")) "content") →
      schemaOf (entriesOf holder) = some s →
      RequestPart operation method (method ++ "Request") (.requestBody mediaType) s
  | parameter {ps : List Value} {es : Value.Entries} {name : Text} {s : Spec.Schema} :
      part operation "parameters" = .list ps → .map es ∈ ps → part es "name" = .text name →
      schemaOf es = some s →
      RequestPart operation method (method ++ "Request") (.parameter name) s

/-- A part of a response, in the message of the name. -/
inductive ResponsePart (method : Text) (status response : Value) :
    Text → PartName → Spec.Schema → Prop
  | header {shownStatus key : Text} {holder : Value} {s : Spec.Schema} :
      status.display? = some shownStatus →
      (part (entriesOf response) "content").isTruthy = true →
      (.text key, holder) ∈ entriesOf (part (entriesOf response) "headers") →
      schemaOf (entriesOf holder) = some s →
      ResponsePart method status response (method ++ "Response_" ++ shownStatus) (.header key) s
  | content {shownStatus mediaType : Text} {holder : Value} {s : Spec.Schema} :
      status.display? = some shownStatus →
      (.text mediaType, holder) ∈ entriesOf (part (entriesOf response) "content") →
      schemaOf (entriesOf holder) = some s →
      ResponsePart method status response (method ++ "Response_" ++ shownStatus)
        (.responseBody mediaType) s

/-- A part of an operation, in the message of the name. -/
def OperationPart (operation : Value.Entries) (method t : Text) (name : PartName)
    (s : Spec.Schema) : Prop :=
  RequestPart operation method t name s ∨
    ∃ e ∈ entriesOf (part operation "responses"), ResponsePart method e.1 e.2 t name s

/-! ## Adding parts to a message -/

/-- What is added to a message: its new fields have names of `S`, and what is in `S` has a field,
    objects aside. -/
structure Message.Gains (S : Text → Spec.Schema → Prop) (m m' : Message) : Prop where
  name : m'.name = m.name
  fields : ∀ fd ∈ m'.fields, fd ∈ m.fields ∨ ∃ t s, S t s ∧ fd.name = .text t
  kept : m.fields.map Field.name ⊆ m'.fields.map Field.name
  added : ∀ t s, S t s → ¬ s.IsObject → .text t ∈ m'.fields.map Field.name

namespace Message.Gains

variable {S S' : Text → Spec.Schema → Prop} {m m' m'' : Message}

theorem nothing (h : ∀ t s, ¬ S t s) : m.Gains S m :=
  ⟨rfl, fun _ hfd => Or.inl hfd, List.Subset.refl _, fun t s hs => absurd hs (h t s)⟩

theorem congr (h : m.Gains S m') (hS : ∀ t s, S t s ↔ S' t s) : m.Gains S' m' := by
  have hS' : S = S' := by
    funext t s
    exact propext (hS t s)
  exact hS' ▸ h

theorem trans (h : m.Gains S m') (h' : m'.Gains S' m'') :
    m.Gains (fun t s => S t s ∨ S' t s) m'' where
  name := h'.name.trans h.name
  fields fd hfd := by
    rcases h'.fields fd hfd with hfd | ⟨t, s, hs, hname⟩
    · rcases h.fields fd hfd with hfd | ⟨t, s, hs, hname⟩
      · exact Or.inl hfd
      · exact Or.inr ⟨t, s, Or.inl hs, hname⟩
    · exact Or.inr ⟨t, s, Or.inr hs, hname⟩
  kept := List.Subset.trans h.kept h'.kept
  added t s hs hobject := by
    rcases hs with hs | hs
    · exact h'.kept (h.added t s hs hobject)
    · exact h'.added t s hs hobject

end Message.Gains

namespace Conversion

theorem settles_entries (v : Value) : Settles (entries v) fun es => es = entriesOf v := by
  unfold entries
  split
  · exact settles_pure rfl
  · next hmap =>
    split
    · exact settles_refuse
    · refine settles_pure ?_
      cases v with
      | map es => exact absurd rfl (hmap es)
      | _ => rfl

theorem settles_mapping (v : Value) : Settles (mapping v) fun es => v = .map es := by
  unfold mapping
  split
  · exact settles_pure rfl
  · exact settles_refuse

theorem settles_shown (name : Name) : Settles (shown name) fun t => name.display? = some t := by
  unfold shown
  split
  · next h => exact settles_pure h
  · exact settles_refuse

theorem settles_note (n : Notice) : Settles (note n) fun _ => True :=
  fun _ _ _ _ => ⟨fun _ => ⟨_, ends_modify.2 rfl, rfl⟩, trivial⟩

/-- A part adds a field of its name, unless it is an object. -/
theorem settles_include (m : Message) (t : Text) (s : Spec.Schema) :
    Settles (include_ m (.text t) s) (m.Gains fun u s' => u = t ∧ s' = s) := by
  unfold include_
  refine (Piece.settles_ofSchema s (.text t) m).bind ?_
  rintro ⟨piece, holder⟩ ⟨d, hmakes, rfl⟩
  refine settles_pure ?_
  cases piece with
  | enum e => exact nomatch hmakes
  | message n =>
    -- An object becomes a nested message, and the fields stay as they are.
    refine ⟨rfl, fun fd hfd => Or.inl hfd, List.Subset.refl _, ?_⟩
    rintro _ _ ⟨rfl, rfl⟩ hobject
    cases hmakes
    exact absurd trivial hobject
  | field f =>
    have hname : f.name = .text t := by
      rw [hmakes.field_eq.1]
      cases s with
      | object => exact nomatch hmakes
      | _ => rfl
    refine ⟨rfl, fun fd hfd => ?_, names_addNew_subset Field.name m.fields f, ?_⟩
    · rcases mem_addNew hfd with hfd | rfl
      · exact Or.inl hfd
      · exact Or.inr ⟨t, s, ⟨rfl, rfl⟩, hname⟩
    · rintro _ _ ⟨rfl, rfl⟩ -
      exact text_mem_names_addNew m.fields hname

theorem settles_addHolders (name : Text → Text) (holders : List (Value × Value)) (m : Message) :
    Settles (addHolders name holders m) (m.Gains fun t s =>
      ∃ key holder, (.text key, holder) ∈ holders ∧ schemaOf (entriesOf holder) = some s ∧
        t = name key) := by
  induction holders generalizing m with
  | nil =>
    unfold addHolders
    refine settles_pure (.nothing ?_)
    rintro t s ⟨_, _, hmem, -⟩
    cases hmem
  | cons e rest ih =>
    obtain ⟨key, holder⟩ := e
    unfold addHolders
    refine (settles_entries holder).bind fun es hes => ?_
    subst hes
    split
    · next hnone =>
      refine (ih m).mono fun m' _ hm' => hm'.congr fun t s => ?_
      constructor
      · rintro ⟨k, h, hmem, hs, rfl⟩
        exact ⟨k, h, List.mem_cons_of_mem _ hmem, hs, rfl⟩
      · rintro ⟨k, h, hmem, hs, rfl⟩
        rcases List.mem_cons.1 hmem with heq | hmem
        · cases heq
          rw [hnone] at hs
          cases hs
        · exact ⟨k, h, hmem, hs, rfl⟩
    · next s hs =>
      refine (settles_textual key).bind fun t ht => ?_
      subst ht
      refine (settles_include m _ s).bind fun m' hm' => ?_
      refine (ih m').mono fun m'' _ hm'' => (hm'.trans hm'').congr fun u s' => ?_
      constructor
      · rintro (⟨rfl, rfl⟩ | ⟨k, h, hmem, hs', rfl⟩)
        · exact ⟨t, holder, List.mem_cons_self, hs, rfl⟩
        · exact ⟨k, h, List.mem_cons_of_mem _ hmem, hs', rfl⟩
      · rintro ⟨k, h, hmem, hs', rfl⟩
        rcases List.mem_cons.1 hmem with heq | hmem
        · cases heq
          rw [hs] at hs'
          cases hs'
          exact Or.inl ⟨rfl, rfl⟩
        · exact Or.inr ⟨k, h, hmem, hs', rfl⟩

theorem settles_addParameters (ps : List Value) (m : Message) :
    Settles (addParameters ps m) (m.Gains fun t s =>
      ∃ es name, .map es ∈ ps ∧ part es "name" = .text name ∧ schemaOf es = some s ∧
        t = Naming.fieldName name) := by
  induction ps generalizing m with
  | nil =>
    unfold addParameters
    refine settles_pure (.nothing ?_)
    rintro t s ⟨_, _, hmem, -⟩
    cases hmem
  | cons p rest ih =>
    unfold addParameters
    refine (settles_mapping p).bind fun es hes => ?_
    subst hes
    split
    · next hnone =>
      -- A parameter without a schema makes no field.
      refine (ih m).mono fun m' _ hm' => hm'.congr fun t s => ?_
      constructor
      · rintro ⟨fs, n, hmem, hn, hs, rfl⟩
        exact ⟨fs, n, List.mem_cons_of_mem _ hmem, hn, hs, rfl⟩
      · rintro ⟨fs, n, hmem, hn, hs, rfl⟩
        rcases List.mem_cons.1 hmem with heq | hmem
        · cases heq
          rw [hnone] at hs
          cases hs
        · exact ⟨fs, n, hmem, hn, hs, rfl⟩
    · next s hs =>
      refine (settles_textual _).bind fun t ht => ?_
      refine (settles_within (settles_include m _ s) _ _).bind fun m' hm' => ?_
      refine (ih m').mono fun m'' _ hm'' => (hm'.trans hm'').congr fun u s' => ?_
      constructor
      · -- A field is gained from this parameter, or from one of the others.
        rintro (⟨rfl, rfl⟩ | ⟨fs, n, hmem, hn, hs', rfl⟩)
        · exact ⟨es, t, List.mem_cons_self, ht, hs, rfl⟩
        · exact ⟨fs, n, List.mem_cons_of_mem _ hmem, hn, hs', rfl⟩
      · rintro ⟨fs, n, hmem, hn, hs', rfl⟩
        rcases List.mem_cons.1 hmem with heq | hmem
        · cases heq
          rw [hs] at hs'
          rw [ht] at hn
          cases hs'
          cases hn
          exact Or.inl ⟨rfl, rfl⟩
        · exact Or.inr ⟨fs, n, hmem, hn, hs', rfl⟩

theorem settles_addParametersOf (parameters : Value) (m : Message) :
    Settles (addParametersOf parameters m) (m.Gains fun t s =>
      ∃ ps es name, parameters = .list ps ∧ .map es ∈ ps ∧ part es "name" = .text name ∧
        schemaOf es = some s ∧ t = Naming.fieldName name) := by
  unfold addParametersOf
  split
  · next ps =>
    refine (settles_addParameters ps m).mono fun m' _ hm' => hm'.congr fun t s => ?_
    constructor
    · rintro ⟨es, n, h⟩
      exact ⟨ps, es, n, rfl, h⟩
    · rintro ⟨_, es, n, ⟨⟩, h⟩
      exact ⟨es, n, h⟩
  · next hlist =>
    split
    · exact settles_refuse
    · refine settles_pure (.nothing ?_)
      rintro t s ⟨ps, _, _, rfl, -⟩
      exact hlist ps rfl

end Conversion

/-! ## Messages that are added to the draft -/

/-- Wherever the computation succeeds, it has united the messages of the draft with a list of
    messages, of which `R` holds. -/
def Unites {α : Type} (x : Conversion α) (R : List Message → α → Prop) : Prop :=
  ∀ p a q, Ends x p a q →
    ∃ ns, q.file.messages = ns.foldl File.uniteInto p.file.messages ∧ R ns a

section Unites

variable {α β : Type} {R R' : List Message → α → Prop} {T : List Message → β → Prop}

theorem Unites.mono {x : Conversion α} (h : Unites x R) (hR : ∀ ns a, R ns a → R' ns a) :
    Unites x R' := by
  intro p a q hends
  obtain ⟨ns, hmessages, hns⟩ := h p a q hends
  exact ⟨ns, hmessages, hR ns a hns⟩

theorem Settles.unites {x : Conversion α} {Q : α → Prop} (h : Settles x Q) :
    Unites x fun ns a => ns = [] ∧ Q a := by
  intro p a q hends
  obtain ⟨hsteady, hQ⟩ := h p a q hends
  exact ⟨[], hsteady.messages_eq hends, rfl, hQ⟩

theorem Unites.bind {x : Conversion α} {f : α → Conversion β} (hx : Unites x R)
    (hf : ∀ ns a, R ns a → Unites (f a) fun ms b => T (ns ++ ms) b) : Unites (x >>= f) T := by
  intro p b q hends
  obtain ⟨a, t, ha, hb⟩ := ends_bind.1 hends
  obtain ⟨ns, ht, hns⟩ := hx p a t ha
  obtain ⟨ms, hq, hms⟩ := hf ns a hns t b q hb
  exact ⟨ns ++ ms, by rw [List.foldl_append, ← ht, hq], hms⟩

/-- A step that leaves the messages alone goes before others. -/
theorem Settles.bind_unites {x : Conversion α} {f : α → Conversion β} {Q : α → Prop}
    (hx : Settles x Q) (hf : ∀ a, Q a → Unites (f a) T) : Unites (x >>= f) T := by
  refine hx.unites.bind ?_
  rintro ns a ⟨rfl, ha⟩
  exact hf a ha

theorem unites_pure {a : α} (h : R [] a) : Unites (pure a) R := by
  intro p b q hends
  obtain ⟨rfl, rfl⟩ := ends_pure.1 hends
  exact ⟨[], rfl, h⟩

theorem unites_update {g : File → File} (h : ∀ f, (g f).messages = f.messages) :
    Unites (Conversion.update g) fun ns _ => ns = [] :=
  (settles_update h).unites.mono fun _ _ h => h.1

theorem unites_addMessage (m : Message) :
    Unites (Conversion.update fun f => f.addMessage m) fun ns _ => ns = [m] := by
  intro p a q hends
  obtain rfl := ends_modify.1 hends
  exact ⟨[m], rfl, rfl⟩

theorem unites_within {x : Conversion α} (h : Unites x R) (place : Text → Place) (name : Name) :
    Unites (Conversion.within place name x) R :=
  fun p a q hends => h p a q (ends_within.1 hends)

/-- What follows a look at the progress may depend on what has been seen. -/
theorem unites_get_bind {f : Progress → Conversion α} (h : ∀ p, Unites (f p) R) :
    Unites (get >>= f) R := by
  intro p a q hends
  obtain ⟨t, u, hget, hends⟩ := ends_bind.1 hends
  obtain ⟨rfl, rfl⟩ := ends_get.1 hget
  exact h p p a q hends

end Unites

/-! ## Messages that carry parts -/

/-- The messages carry the parts that are in `P`: apart from the message of the method itself, each
    field of a message is named after a part in it, and each part has a field in its message,
    objects aside. -/
structure Carries (method : Text) (P : Text → PartName → Spec.Schema → Prop)
    (ns : List Message) : Prop where
  fields : ∀ n ∈ ns, ∀ t, n.name = .text t → t ≠ method → ∀ fd ∈ n.fields,
    ∃ name s, P t name s ∧ fd.name = .text (name.fieldName method)
  parts : ∀ t name s, P t name s → ¬ s.IsObject →
    ∃ n ∈ ns, n.name = .text t ∧ .text (name.fieldName method) ∈ n.fields.map Field.name

section Carries

variable {method : Text} {P P' : Text → PartName → Spec.Schema → Prop} {ns ms : List Message}

theorem Carries.congr (h : Carries method P ns) (hP : ∀ t name s, P t name s ↔ P' t name s) :
    Carries method P' ns := by
  have hP' : P = P' := by
    funext t name s
    exact propext (hP t name s)
  exact hP' ▸ h

theorem carries_nil (h : ∀ t name s, ¬ P t name s) : Carries method P [] where
  fields := nofun
  parts t name s hpart := absurd hpart (h t name s)

/-- The message of the method itself has no parts. -/
theorem carries_own {m : Message} (hm : m.name = .text method) (h : ∀ t name s, ¬ P t name s) :
    Carries method P [m] where
  fields n hn t ht hne := by
    rw [List.mem_singleton.1 hn, hm] at ht
    cases ht
    exact absurd rfl hne
  parts t name s hpart := absurd hpart (h t name s)

theorem Carries.append (h : Carries method P ns) (h' : Carries method P' ms) :
    Carries method (fun t name s => P t name s ∨ P' t name s) (ns ++ ms) where
  fields n hn t ht hne fd hfd := by
    rcases List.mem_append.1 hn with hn | hn
    · obtain ⟨name, s, hpart, hname⟩ := h.fields n hn t ht hne fd hfd
      exact ⟨name, s, Or.inl hpart, hname⟩
    · obtain ⟨name, s, hpart, hname⟩ := h'.fields n hn t ht hne fd hfd
      exact ⟨name, s, Or.inr hpart, hname⟩
  parts t name s hpart hobject := by
    rcases hpart with hpart | hpart
    · obtain ⟨n, hn, hfound⟩ := h.parts t name s hpart hobject
      exact ⟨n, List.mem_append_left _ hn, hfound⟩
    · obtain ⟨n, hn, hfound⟩ := h'.parts t name s hpart hobject
      exact ⟨n, List.mem_append_right _ hn, hfound⟩

/-- The message as it is declared: not at all if it is empty. -/
def Message.declared (m : Message) : List Message :=
  if m.isEmpty then [] else [m]

theorem carries_declared {S : Text → Spec.Schema → Prop} {t : Text} {m : Message}
    (hm : ({ name := .text t } : Message).Gains S m)
    (hparts : ∀ u name s, P u name s → u = t ∧ S (name.fieldName method) s)
    (hnames : ∀ w s, S w s → ∃ name, P t name s ∧ w = name.fieldName method) :
    Carries method P m.declared where
  fields n hn u hu _ fd hfd := by
    unfold Message.declared at hn
    split at hn
    · cases hn
    · rw [List.mem_singleton.1 hn] at hu hfd
      rw [hm.name] at hu
      cases hu
      rcases hm.fields fd hfd with hold | ⟨w, s, hs, hname⟩
      · cases hold
      · obtain ⟨name, hpart, rfl⟩ := hnames w s hs
        exact ⟨name, s, hpart, hname⟩
  parts u name s hpart hobject := by
    obtain ⟨rfl, hs⟩ := hparts u name s hpart
    have hfield := hm.added _ s hs hobject
    -- With a field the message is not empty, so it is declared.
    have hdeclared : m.isEmpty = false := by
      cases hfields : m.fields with
      | nil =>
        rw [hfields] at hfield
        cases hfield
      | cons fd rest => rw [Message.isEmpty, hfields, List.isEmpty_cons, Bool.false_and]
    refine ⟨m, ?_, hm.name, hfield⟩
    rw [Message.declared, hdeclared]
    exact List.mem_singleton_self m

end Carries

namespace Conversion

theorem unites_declare (m : Message) : Unites (declare m) fun ns _ => ns = m.declared := by
  unfold declare Message.declared
  split
  · exact unites_pure rfl
  · refine (unites_addMessage m).bind ?_
    rintro _ _ rfl
    exact unites_pure rfl

theorem unites_useEmpty : Unites useEmpty fun ns _ => ns = [] := by
  unfold useEmpty
  refine (unites_update (g := fun f => f.addImport emptyImport) fun _ => rfl).bind ?_
  rintro _ _ rfl
  exact unites_pure rfl

theorem unites_request (operation : Value.Entries) (method : Text) :
    Unites (request operation (.text method)) fun ns _ =>
      Carries method (RequestPart operation method) ns := by
  unfold request
  dsimp only
  split
  · next hnone =>
    -- Without a body and without parameters there are no parts.
    simp only [Bool.not_eq_true'] at hnone
    refine unites_useEmpty.bind ?_
    rintro _ _ rfl
    refine unites_pure (carries_nil fun t name s hpart => ?_)
    cases hpart with
    | body hmem _ =>
      rw [entriesOf_eq_nil hnone.1] at hmem
      cases hmem
    | @parameter ps es _ _ hps hmem _ _ =>
      rw [hps] at hnone
      have hitems : ps = [] := itemsOf_eq_nil hnone.2
      rw [hitems] at hmem
      cases hmem
  · refine (settles_textual _).bind_unites fun t ht => ?_
    cases ht
    refine (settles_entries _).bind_unites fun body hbody => ?_
    refine (settles_entries _).bind_unites fun content hcontent => ?_
    subst hbody hcontent
    refine (settles_addHolders _ _ _).bind_unites fun m hm => ?_
    refine (settles_addParametersOf _ m).bind_unites fun m' hm' => ?_
    refine (unites_declare m').bind ?_
    rintro _ _ rfl
    refine unites_pure ?_
    rw [List.append_nil]
    refine carries_declared (hm.trans hm') ?_ ?_
    · rintro _ _ s (⟨hmem, hs⟩ | ⟨hps, hmem, hname, hs⟩)
      · exact ⟨rfl, Or.inl ⟨_, _, hmem, hs, rfl⟩⟩
      · exact ⟨rfl, Or.inr ⟨_, _, _, hps, hmem, hname, hs, rfl⟩⟩
    · rintro w s (⟨_, _, hmem, hs, rfl⟩ | ⟨_, _, _, hps, hmem, hname, hs, rfl⟩)
      · exact ⟨.requestBody _, .body hmem hs, rfl⟩
      · exact ⟨.parameter _, .parameter hps hmem hname hs, rfl⟩

theorem unites_responseMessage {status response : Value} (method : Text) {shownStatus : Text}
    (hstatus : status.display? = some shownStatus)
    (hcontent : (part (entriesOf response) "content").isTruthy = true) :
    Unites (responseMessage shownStatus (entriesOf response) method) fun ns _ =>
      Carries method (ResponsePart method status response) ns := by
  unfold responseMessage
  dsimp only
  refine (settles_entries _).bind_unites fun headers hheaders => ?_
  refine (settles_addHolders _ _ _).bind_unites fun m hm => ?_
  refine (settles_entries _).bind_unites fun content hcontent' => ?_
  subst hheaders hcontent'
  refine (settles_addHolders _ _ m).bind_unites fun m' hm' => ?_
  refine (unites_declare m').bind ?_
  rintro _ _ rfl
  refine unites_pure ?_
  rw [List.append_nil]
  refine carries_declared (hm.trans hm') ?_ ?_
  · rintro _ _ s (⟨hshown, -, hmem, hs⟩ | ⟨hshown, hmem, hs⟩)
    · rw [hstatus] at hshown
      cases hshown
      exact ⟨rfl, Or.inl ⟨_, _, hmem, hs, rfl⟩⟩
    · rw [hstatus] at hshown
      cases hshown
      exact ⟨rfl, Or.inr ⟨_, _, hmem, hs, rfl⟩⟩
  · rintro w s (⟨_, _, hmem, hs, rfl⟩ | ⟨_, _, hmem, hs, rfl⟩)
    · exact ⟨.header _, .header hstatus hcontent hmem hs, rfl⟩
    · exact ⟨.responseBody _, .content hstatus hmem hs, rfl⟩

/-- A response without content has no parts. -/
theorem not_responsePart {method : Text} {status response : Value} {t : Text} {name : PartName}
    {s : Spec.Schema} (h : (part (entriesOf response) "content").isTruthy = false) :
    ¬ ResponsePart method status response t name s := by
  rintro (⟨-, hcontent, -, -⟩ | ⟨-, hmem, -⟩)
  · rw [h] at hcontent
    cases hcontent
  · rw [entriesOf_eq_nil h] at hmem
    cases hmem

theorem unites_addResponses (method : Text) (responses : List (Value × Value)) (m : Message) :
    Unites (addResponses method responses m) fun ns m' => m'.name = m.name ∧
      Carries method (fun t name s => ∃ e ∈ responses, ResponsePart method e.1 e.2 t name s)
        ns := by
  induction responses generalizing m with
  | nil =>
    unfold addResponses
    refine unites_pure ⟨rfl, carries_nil ?_⟩
    rintro t name s ⟨_, ⟨⟩, -⟩
  | cons e rest ih =>
    obtain ⟨status, response⟩ := e
    unfold addResponses
    refine (settles_entries response).bind_unites fun es hes => ?_
    subst hes
    split
    · next hcontent =>
      -- A response without content is no part of the operation.
      simp only [Bool.not_eq_true'] at hcontent
      refine (ih m).mono fun ns m' h => ⟨h.1, h.2.congr fun t name s => ?_⟩
      simp only [List.mem_cons, exists_eq_or_imp]
      exact (or_iff_right (not_responsePart hcontent)).symm
    · next hcontent =>
      simp only [Bool.not_eq_true', Bool.not_eq_false] at hcontent
      refine (settles_shown status).bind_unites fun shownStatus hstatus => ?_
      -- The messages of this response come before those of the others.
      refine (unites_responseMessage method hstatus hcontent).bind fun ns type hns => ?_
      refine (ih _).mono ?_
      rintro ms m' ⟨hname, hms⟩
      refine ⟨?_, (hns.append hms).congr fun t name s => ?_⟩
      · rw [hname]
        cases type <;> rfl
      · simp only [List.mem_cons, exists_eq_or_imp]

theorem unites_response (operation : Value.Entries) (method : Text) :
    Unites (response operation (.text method)) fun ns _ =>
      Carries method (fun t name s => ∃ e ∈ entriesOf (part operation "responses"),
        ResponsePart method e.1 e.2 t name s) ns := by
  have hempty : ∀ {P : Text → PartName → Spec.Schema → Prop} {ns : List Message},
      Carries method P ns → Unites (do return some (.text (← useEmpty)) : Conversion (Option Name))
        fun ms _ => Carries method P (ns ++ ms) := by
    intro P ns h
    refine unites_useEmpty.bind ?_
    rintro _ _ rfl
    exact unites_pure (by simpa using h)
  unfold response
  refine (settles_entries _).bind_unites fun responses hresponses => ?_
  rw [← hresponses]
  split
  · refine unites_pure (carries_nil ?_)
    rintro t name s ⟨_, ⟨⟩, -⟩
  · next status r =>
    -- A single response is the message that the method returns.
    refine (settles_entries r).bind_unites fun es hes => ?_
    subst hes
    split
    · next hcontent =>
      simp only [Bool.not_eq_true'] at hcontent
      refine hempty (carries_nil (P := fun t name s => _) ?_)
      rintro t name s ⟨e, he, hpart⟩
      rw [List.mem_singleton.1 he] at hpart
      exact not_responsePart hcontent hpart
    · next hcontent =>
      simp only [Bool.not_eq_true', Bool.not_eq_false] at hcontent
      refine (settles_shown status).bind_unites fun shownStatus hstatus => ?_
      refine (settles_shown _).bind_unites fun t ht => ?_
      cases ht
      refine (unites_responseMessage method hstatus hcontent).bind fun ns type hns => ?_
      refine unites_pure ?_
      rw [List.append_nil]
      refine hns.congr fun t name s => ?_
      simp only [List.mem_singleton, exists_eq_left]
  · -- Several responses are the fields of a message that is named after the method.
    refine (settles_shown _).bind_unites fun t ht => ?_
    cases ht
    refine (unites_addResponses method responses _).bind ?_
    rintro ns m ⟨hname, hns⟩
    split
    · exact hempty hns
    · refine (unites_addMessage m).bind ?_
      rintro _ _ rfl
      refine unites_pure ?_
      rw [List.append_nil]
      refine (hns.append (carries_own hname (P := fun _ _ _ => False) fun _ _ _ => id)).congr ?_
      exact fun t name s => or_iff_left id

/-! ## Operations -/

theorem unites_openService (name : Name) : Unites (openService name) fun ns _ => ns = [] := by
  unfold openService
  refine unites_get_bind fun p => ?_
  refine (unites_update (g := fun f => f.addService name) fun f =>
    File.messages_addService f name).bind ?_
  rintro _ _ rfl
  exact unites_pure rfl

theorem settles_routeSettings (choice : OptionChoice) (path : Value) (verb : Text) :
    Settles (routeSettings choice path verb) fun _ => True := by
  unfold routeSettings
  split
  · split
    · exact (settles_textual path).bind fun _ _ => settles_pure trivial
    · exact settles_pure trivial
  · exact settles_pure trivial

theorem settles_operationSettings (choice : OptionChoice) (operation : Value.Entries) :
    Settles (operationSettings choice operation) fun _ => True := by
  unfold operationSettings
  dsimp only
  split
  · exact settles_pure trivial
  · split
    · exact settles_pure trivial
    · split
      · exact settles_pure trivial
      · exact settles_throw _
      · exact settles_refuse

theorem unites_declareMethod (choice : OptionChoice) (path : Value) (verb : Text)
    (operation : Value.Entries) (place : Nat) (method : Name) (input : Option Text)
    (output : Option Name) :
    Unites (declareMethod choice path verb operation place method input output)
      fun ns _ => ns = [] := by
  have hinput : Unites (orEmptyText input) fun ns _ => ns = [] := by
    cases input with
    | none => exact unites_useEmpty
    | some t => exact unites_pure rfl
  have houtput : Unites (orEmpty output) fun ns _ => ns = [] := by
    cases output with
    | none =>
      rw [orEmpty, ← bind_pure_comp]
      refine unites_useEmpty.bind ?_
      rintro _ _ rfl
      exact unites_pure rfl
    | some t => exact unites_pure rfl
  unfold declareMethod
  refine hinput.bind ?_
  rintro _ input rfl
  refine houtput.bind ?_
  rintro _ output rfl
  refine (settles_routeSettings choice path verb).bind_unites fun route _ => ?_
  refine (settles_operationSettings choice operation).bind_unites fun details _ => ?_
  exact unites_update fun _ => rfl

theorem settles_firstTag (tags : Value) : Settles (firstTag tags) fun _ => True := by
  unfold firstTag
  split
  · exact settles_pure trivial
  · split
    · exact settles_pure trivial
    · exact settles_pure trivial
    · exact settles_pure trivial
    · split
      · exact settles_pure trivial
      · exact settles_refuse
    · exact settles_refuse

/-- An operation unites the draft with messages that carry its parts. -/
theorem unites_addOperation (choice : OptionChoice) (path : Value) {verb : Text}
    {operation : Value.Entries} {method : Text}
    (hmethod : methodName (part operation "operationId") verb = .text method) :
    Unites (addOperation choice path verb operation) fun ns _ =>
      Carries method (OperationPart operation method) ns := by
  unfold addOperation
  rw [hmethod]
  refine (settles_firstTag _).bind_unites fun service _ => ?_
  refine (unites_openService service).bind ?_
  rintro _ place rfl
  dsimp only
  refine (settles_note _).bind_unites fun _ _ => ?_
  refine (unites_within (unites_request operation method) _ _).bind fun ns input hns => ?_
  refine (unites_within (unites_response operation method) _ _).bind fun ms output hms => ?_
  refine unites_get_bind fun p => ?_
  -- A method that is there already is not declared again, but its messages have been united.
  have hboth : Carries method (OperationPart operation method) (ns ++ (ms ++ [])) := by
    rw [List.append_nil]
    exact hns.append hms
  split
  · exact unites_pure hboth
  · refine (unites_declareMethod choice path verb operation place _ input output).mono ?_
    rintro _ _ rfl
    exact hboth

end Conversion

/-! ## Messages that are united -/

namespace File

theorem exists_of_mem_uniteInto {ms : List Message} {n m : Message} {t : Text}
    (h : m ∈ uniteInto ms n) (hm : m.name = .text t) {fd : Field} (hfd : fd ∈ m.fields) :
    (∃ m' ∈ ms, m'.name = .text t ∧ fd ∈ m'.fields) ∨ n.name = .text t ∧ fd ∈ n.fields := by
  induction ms with
  | nil =>
    obtain rfl := List.mem_singleton.1 h
    exact Or.inr ⟨hm, hfd⟩
  | cons a rest ih =>
    rw [uniteInto] at h
    split at h
    · next hequals =>
      rcases List.mem_cons.1 h with rfl | h
      · -- A united message has the name of both.
        have hn : n.name = .text t := (alikeText_of_equals hequals t).1 hm
        rcases mem_addAllNew hfd with hfd | hfd
        · exact Or.inl ⟨a, List.mem_cons_self, hm, hfd⟩
        · exact Or.inr ⟨hn, hfd⟩
      · exact Or.inl ⟨m, List.mem_cons_of_mem _ h, hm, hfd⟩
    · rcases List.mem_cons.1 h with rfl | h
      · exact Or.inl ⟨m, List.mem_cons_self, hm, hfd⟩
      · refine (ih h).imp ?_ id
        rintro ⟨m', hm', hfound⟩
        exact ⟨m', List.mem_cons_of_mem _ hm', hfound⟩

/-- The fields of united messages are fields of messages of the same name. -/
theorem exists_of_mem_foldl_uniteInto {ms ns : List Message} {m : Message} {t : Text}
    (h : m ∈ ns.foldl uniteInto ms) (hm : m.name = .text t) {fd : Field} (hfd : fd ∈ m.fields) :
    (∃ m' ∈ ms, m'.name = .text t ∧ fd ∈ m'.fields) ∨
      ∃ n ∈ ns, n.name = .text t ∧ fd ∈ n.fields := by
  induction ns generalizing ms with
  | nil => exact Or.inl ⟨m, h, hm, hfd⟩
  | cons n rest ih =>
    rcases ih h with ⟨m', hm', hname, hfd'⟩ | ⟨n', hn', hfound⟩
    · rcases exists_of_mem_uniteInto hm' hname hfd' with hold | hn
      · exact Or.inl hold
      · exact Or.inr ⟨n, List.mem_cons_self, hn⟩
    · exact Or.inr ⟨n', List.mem_cons_of_mem _ hn', hfound⟩

/-- A message of the name has a field of the second name. -/
def HasField (ms : List Message) (t w : Text) : Prop :=
  ∃ m ∈ ms, m.name = .text t ∧ .text w ∈ m.fields.map Field.name

theorem HasField.uniteInto {ms : List Message} {t w : Text} (h : HasField ms t w) (n : Message) :
    HasField (uniteInto ms n) t w := by
  obtain ⟨m, hm, hname, hfield⟩ := h
  induction ms with
  | nil => cases hm
  | cons a rest ih =>
    rw [File.uniteInto]
    rcases List.mem_cons.1 hm with rfl | hm
    · split
      · exact ⟨_, List.mem_cons_self, hname, names_addAllNew_subset Field.name _ _ hfield⟩
      · exact ⟨m, List.mem_cons_self, hname, hfield⟩
    · split
      · exact ⟨m, List.mem_cons_of_mem _ hm, hname, hfield⟩
      · obtain ⟨m', hm', hfound⟩ := ih hm
        exact ⟨m', List.mem_cons_of_mem _ hm', hfound⟩

theorem hasField_uniteInto (ms : List Message) {n : Message} {t w : Text} (hn : n.name = .text t)
    (hw : .text w ∈ n.fields.map Field.name) : HasField (uniteInto ms n) t w := by
  induction ms with
  | nil => exact ⟨n, List.mem_singleton_self n, hn, hw⟩
  | cons a rest ih =>
    rw [File.uniteInto]
    split
    · next hequals =>
      have ha : a.name = .text t := (alikeText_of_equals hequals t).2 hn
      exact ⟨_, List.mem_cons_self, ha, text_mem_names_addAllNew _ hw⟩
    · obtain ⟨m', hm', hfound⟩ := ih
      exact ⟨m', List.mem_cons_of_mem _ hm', hfound⟩

/-- No field is lost when messages are united: there is one of its name. -/
theorem hasField_foldl_uniteInto {ms ns : List Message} {t w : Text}
    (h : HasField ms t w ∨ HasField ns t w) : HasField (ns.foldl uniteInto ms) t w := by
  induction ns generalizing ms with
  | nil =>
    rcases h with h | ⟨_, ⟨⟩, -⟩
    exact h
  | cons n rest ih =>
    rw [List.foldl_cons]
    refine ih ?_
    rcases h with h | ⟨m, hm, hname, hfield⟩
    · exact Or.inl (h.uniteInto n)
    · rcases List.mem_cons.1 hm with rfl | hm
      · exact Or.inl (hasField_uniteInto ms hname hfield)
      · exact Or.inr ⟨m, hm, hname, hfield⟩

end File

/-- Where an operation is converted, every new field of a request or a response is named after a
    part of it, and every part that is no object has a field of its name there.  The name is an
    identifier for every parameter and header, for a media type of the request if the name of the
    request starts with a letter, and for a media type of a response if it starts with one
    itself. -/
theorem fieldNames_of_operation {choice : OptionChoice} {path : Value} {verb : Text}
    {operation : Value.Entries} {method : Text} {p q : Progress}
    (hmethod : methodName (part operation "operationId") verb = .text method)
    (h : Ends (addOperation choice path verb operation) p () q) :
    (∀ m ∈ q.file.messages, ∀ t, m.name = .text t → t ≠ method → ∀ fd ∈ m.fields,
      (∃ m' ∈ p.file.messages, m'.name = .text t ∧ fd ∈ m'.fields) ∨
        ∃ name s, OperationPart operation method t name s ∧
          fd.name = .text (name.fieldName method)) ∧
    ∀ t name s, OperationPart operation method t name s →
      (¬ s.IsObject → File.HasField q.file.messages t (name.fieldName method)) ∧
        ((name.fieldName method).IsIdentifier ↔ name.IsLegal method) := by
  obtain ⟨ns, hmessages, hcarries⟩ := unites_addOperation choice path hmethod p () q h
  rw [hmessages]
  constructor
  · intro m hm t ht hne fd hfd
    refine (File.exists_of_mem_foldl_uniteInto hm ht hfd).imp id ?_
    rintro ⟨n, hn, hname, hfd⟩
    exact hcarries.fields n hn t hname hne fd hfd
  · intro t name s hpart
    refine ⟨fun hobject => ?_, name.isIdentifier_fieldName_iff method⟩
    exact File.hasField_foldl_uniteInto (Or.inr (hcarries.parts t name s hpart hobject))

/-- An operation with odd names: a parameter that starts with a digit, a header that has a hyphen,
    and a media range. -/
def rangeOperation (mediaType : Text) : Value.Entries :=
  [(.text "operationId", .text "GetPet"),
    (.text "parameters", .list [.map [(.text "name", .text "1st"), (.text "schema", textSchema)]]),
    (.text "responses", .map [(.text "200", .map [
      (.text "headers", .map [(.text "X-Rate", .map [(.text "schema", textSchema)])]),
      (.text "content", .map [(.text mediaType, .map [(.text "schema", textSchema)])])])])]

theorem responsePart_rangeOperation (mediaType : Text) :
    OperationPart (rangeOperation mediaType) "GetPet" "GetPetResponse_200" (.responseBody mediaType)
      (.ofValue textSchema) :=
  Or.inr ⟨_, List.mem_singleton_self _, .content rfl (List.mem_singleton_self _) rfl⟩

/-- The operation in an empty draft. -/
def rangeStep (mediaType : Text) : Except ConvertError Unit × Progress :=
  (addOperation {} (.text "/pet") "get" (rangeOperation mediaType)).run.run
    ⟨{ package := [] }, []⟩

/-- The media type of a JSON response makes a field that has an identifier as its name. -/
theorem fieldNames_of_jsonOperation :
    methodName (part (rangeOperation "application/json") "operationId") "get" = .text "GetPet" ∧
      Ends (addOperation {} (.text "/pet") "get" (rangeOperation "application/json"))
        ⟨{ package := [] }, []⟩ () (rangeStep "application/json").2 ∧
      File.HasField (rangeStep "application/json").2.file.messages "GetPetResponse_200"
        "ApplicationJson" ∧
      Text.IsIdentifier "ApplicationJson" := by
  have hmethod : methodName (part (rangeOperation "application/json") "operationId") "get" =
      .text "GetPet" := rfl
  have hends := ends_of_toOption (x := addOperation {} (.text "/pet") "get"
    (rangeOperation "application/json")) (s := ⟨{ package := [] }, []⟩) (a := ())
    (by decide +kernel)
  have hname : (PartName.responseBody "application/json").fieldName "GetPet" = "ApplicationJson" :=
    by decide +kernel
  have hobject : ¬ (Spec.Schema.ofValue textSchema).IsObject := by
    rw [textSchema, Spec.Schema.ofValue, Spec.Schema.ofEntries]
    exact id
  obtain ⟨hfield, hidentifier⟩ := (fieldNames_of_operation hmethod hends).2 _ _ _
    (responsePart_rangeOperation "application/json")
  rw [hname] at hfield hidentifier
  have hletter : Naming.startsWithLetter "application/json" = true := by decide
  exact ⟨hmethod, hends, hfield hobject, hidentifier.2 hletter⟩

/-- A media range makes a field without a name. -/
theorem unnamed_rangeOperation :
    Text.IsIdentifier "GetPet" ∧
      methodName (part (rangeOperation "*/*") "operationId") "get" = .text "GetPet" ∧
      Ends (addOperation {} (.text "/pet") "get" (rangeOperation "*/*"))
        ⟨{ package := [] }, []⟩ () (rangeStep "*/*").2 ∧
      OperationPart (rangeOperation "*/*") "GetPet" "GetPetResponse_200" (.responseBody "*/*")
        (.ofValue textSchema) ∧
      File.HasField (rangeStep "*/*").2.file.messages "GetPetResponse_200"
        ((PartName.responseBody "*/*").fieldName "GetPet") ∧
      ¬ Text.IsIdentifier ((PartName.responseBody "*/*").fieldName "GetPet") := by
  have hends := ends_of_toOption (x := addOperation {} (.text "/pet") "get"
    (rangeOperation "*/*")) (s := ⟨{ package := [] }, []⟩) (a := ()) (by decide +kernel)
  have hcheck : ((rangeStep "*/*").2.file.messages.any fun m =>
      m.name.same (.text "GetPetResponse_200") && m.fields.any fun fd =>
        fd.name.same (.text ((PartName.responseBody "*/*").fieldName "GetPet"))) = true := by
    decide +kernel
  obtain ⟨m, hm, hmessage⟩ := List.any_eq_true.1 hcheck
  obtain ⟨hname, hfield⟩ := Bool.and_eq_true_iff.1 hmessage
  obtain ⟨fd, hfd, hfdname⟩ := List.any_eq_true.1 hfield
  refine ⟨by decide, rfl, hends, responsePart_rangeOperation "*/*", ?_, by decide +kernel⟩
  exact ⟨m, hm, same_text.1 hname, List.mem_map.2 ⟨fd, hfd, same_text.1 hfdname⟩⟩

end IdlBridge.Draft
