import IdlBridge.Proofs.Draft.Precedence

/-! # Converting again

    A conversion that has succeeded can be repeated on the draft that it has left, and the draft
    stays as it is.

    `Repeats x p` says that the conversion `x`, started in `p`, only adds to the draft when it
    succeeds, and then succeeds in every later draft with the same result and without a change.  It
    has one rule for each way of building a conversion, so a whole document is repeated step by
    step.  The one step that takes another way the second time is the method of an operation: it is
    there already, so it is not declared again.
-/

namespace IdlBridge.Draft

variable {α β : Type}

/-! ## Steps that can be repeated -/

/-- Where the conversion has ended, and in all later drafts, it succeeds again with the same result
    and changes nothing. -/
def Repeats (x : Conversion α) (p : Progress) : Prop :=
  ∀ a q, Ends x p a q → p.file.Precedes q.file ∧
    ∀ r : Progress, q.file.Precedes r.file → r.file.Findable →
      ∃ r', Ends x r a r' ∧ r'.file = r.file

section Repeats

variable {p : Progress}

theorem repeats_pure (a : α) : Repeats (pure a) p := by
  intro b q h
  obtain ⟨rfl, rfl⟩ := ends_pure.1 h
  exact ⟨.refl _, fun r _ _ => ⟨r, ends_pure.2 ⟨rfl, rfl⟩, rfl⟩⟩

theorem repeats_throw (e : ConvertError) : Repeats (throw e : Conversion α) p :=
  fun _ _ h => absurd h ends_throw

theorem Repeats.bind {x : Conversion α} {f : α → Conversion β} (hx : Repeats x p)
    (hf : ∀ a q, Ends x p a q → p.file.Precedes q.file → Repeats (f a) q) :
    Repeats (x >>= f) p := by
  intro b s h
  obtain ⟨a, q, ha, hb⟩ := ends_bind.1 h
  obtain ⟨hpq, hagain⟩ := hx a q ha
  obtain ⟨hqs, hagain'⟩ := hf a q ha hpq b s hb
  refine ⟨hpq.trans hqs, fun r hr hfindable => ?_⟩
  -- the first step changes nothing, so the second one starts in a later draft as well
  obtain ⟨t, ht, hfile⟩ := hagain r (hqs.trans hr) hfindable
  rw [← hfile] at hr hfindable
  obtain ⟨u, hu, hfile'⟩ := hagain' t hr hfindable
  exact ⟨u, ends_bind.2 ⟨a, t, ht, hu⟩, hfile'.trans hfile⟩

theorem repeats_map {x : Conversion α} (hx : Repeats x p) (f : α → β) : Repeats (f <$> x) p := by
  rw [← bind_pure_comp]
  exact hx.bind fun a _ _ _ => repeats_pure (f a)

/-- The second time there is an error to report only if there has been one the first time. -/
theorem repeats_tryCatch {x : Conversion α} {f : ConvertError → Conversion α} (hx : Repeats x p)
    (hf : ∀ e q a r, ¬ Ends (f e) q a r) : Repeats (tryCatch x f) p := by
  intro a q h
  rcases ends_tryCatch h with h | ⟨e, t, h⟩
  · obtain ⟨hpq, hagain⟩ := hx a q h
    refine ⟨hpq, fun r hr hfindable => ?_⟩
    obtain ⟨r', hr', hfile⟩ := hagain r hr hfindable
    refine ⟨r', ?_, hfile⟩
    unfold Ends at hr' ⊢
    rw [run_tryCatch, hr']
  · exact absurd h (hf e t a q)

end Repeats

namespace Conversion

variable {p : Progress}

theorem repeats_refuse : Repeats (refuse : Conversion α) p :=
  repeats_throw _

theorem repeats_note (n : Notice) : Repeats (note n) p := by
  intro a q h
  have hq : q = { p with notices := p.notices ++ [n] } := ends_modify.1 h
  subst hq
  exact ⟨.refl _, fun r _ _ => ⟨_, ends_modify.2 rfl, rfl⟩⟩

/-- A change of the draft can be repeated if later drafts are not changed by it. -/
theorem repeats_update {g : File → File} (hg : p.file.Precedes (g p.file))
    (hself : ∀ f, (g p.file).Precedes f → f.Findable → g f = f) : Repeats (update g) p := by
  intro a q h
  have hq : q = { p with file := g p.file } := ends_modify.1 h
  subst hq
  refine ⟨hg, fun r hr hfindable => ⟨{ r with file := g r.file }, ends_modify.2 rfl, ?_⟩⟩
  exact hself r.file hr hfindable

theorem repeats_addImport (path : Text) : Repeats (update fun f => f.addImport path) p :=
  repeats_update (File.precedes_addImport _ path) fun _ h _ => File.addImport_eq_self h

theorem repeats_addEnum (e : Enum) : Repeats (update fun f => f.addEnum e) p :=
  repeats_update (File.precedes_addEnum _ e) fun _ h _ => File.addEnum_eq_self h

theorem repeats_addMessage (m : Message) : Repeats (update fun f => f.addMessage m) p :=
  repeats_update (File.precedes_addMessage _ m) fun _ h hf => File.addMessage_eq_self h hf

theorem repeats_shown (name : Name) : Repeats (shown name) p := by
  unfold shown
  split
  · exact repeats_pure _
  · exact repeats_refuse

theorem repeats_textual (name : Name) : Repeats (textual name) p := by
  unfold textual
  split
  · exact repeats_pure _
  · exact repeats_refuse

theorem repeats_entries (v : Value) : Repeats (entries v) p := by
  unfold entries
  split
  · exact repeats_pure _
  · split
    · exact repeats_refuse
    · exact repeats_pure _

theorem repeats_mapping (v : Value) : Repeats (mapping v) p := by
  unfold mapping
  split
  · exact repeats_pure _
  · exact repeats_refuse

theorem repeats_within {step : Conversion α} (h : Repeats step p) (place : Text → Place)
    (name : Name) : Repeats (within place name step) p := by
  refine repeats_tryCatch h fun e q a r hrun => ?_
  -- both ways of going on end with an error
  by_cases he : e.isAboutSchema = true
  · rw [if_pos he] at hrun
    obtain ⟨_, _, -, hthrow⟩ := ends_bind.1 hrun
    exact ends_throw hthrow
  · rw [if_neg he] at hrun
    exact ends_throw hrun

end Conversion

/-! ## Schemas -/

namespace Piece

open Conversion

theorem repeats_attach (m : Message) (name : Name) (piece : Piece) {p : Progress} :
    Repeats (attach m name piece) p := by
  cases piece with
  | field f => exact repeats_pure _
  | message nested => exact (repeats_textual name).bind fun _ _ _ _ => repeats_pure _
  | enum e => exact repeats_pure _

theorem repeats_placeItems (m : Message) (parent : Option Message) {p : Progress} :
    Repeats (placeItems m parent) p := by
  cases parent with
  | some parent => exact repeats_pure _
  | none => exact (repeats_addMessage m).bind fun _ _ _ _ => repeats_pure _

theorem repeats_importFor (type : Text) {p : Progress} : Repeats (importFor type) p := by
  unfold importFor
  split
  · exact repeats_addImport _
  · exact repeats_pure _

mutual

theorem repeats_ofSchema (s : Spec.Schema) (name : Name) (parent : Option Message)
    (p : Progress) : Repeats (ofSchema s name parent) p := by
  match s with
  | .reference type =>
    unfold ofSchema
    exact repeats_pure _
  | .array none =>
    unfold ofSchema
    exact (repeats_shown name).bind fun _ _ _ _ => repeats_throw _
  | .array (some items) =>
    unfold ofSchema
    refine (repeats_textual name).bind fun t q _ _ => ?_
    refine (repeats_ofSchema items _ parent q).bind ?_
    rintro ⟨item, parent⟩ r - -
    cases item with
    | field f => exact repeats_pure _
    | enum e => exact (repeats_addEnum e).bind fun _ _ _ _ => repeats_pure _
    | message m => exact (repeats_placeItems m parent).bind fun _ _ _ _ => repeats_pure _
  | .object properties additional =>
    unfold ofSchema
    refine (repeats_ofProperties properties { name } p).bind fun m q _ _ => ?_
    match additional with
    | .closed => exact repeats_pure _
    | .untyped => exact repeats_pure _
    | .typed s =>
      refine (repeats_textual name).bind fun t r _ _ => ?_
      refine (repeats_ofSchema s _ (some m) r).bind ?_
      rintro ⟨value, holder⟩ u - -
      cases value with
      | message v => exact repeats_pure _
      | field f => exact repeats_pure _
      | enum e => exact repeats_pure _
  | .enumeration values =>
    unfold ofSchema
    refine (repeats_textual name).bind fun t q _ _ => ?_
    cases parent with
    | none => exact repeats_pure _
    | some m => exact repeats_pure _
  | .scalar type =>
    unfold ofSchema
    exact (repeats_importFor type).bind fun _ _ _ _ => repeats_pure _
  | .untyped =>
    unfold ofSchema
    exact repeats_throw _
  | .unknownType shown =>
    unfold ofSchema
    exact repeats_throw _
  | .misshapen =>
    unfold ofSchema
    exact repeats_refuse

theorem repeats_ofProperties (ps : List (Value × Spec.Schema)) (m : Message) (p : Progress) :
    Repeats (ofSchema.ofProperties ps m) p := by
  match ps with
  | [] =>
    unfold ofSchema.ofProperties
    exact repeats_pure _
  | (name, s) :: rest =>
    unfold ofSchema.ofProperties
    refine (repeats_within (repeats_ofSchema s name (some m) p) _ _).bind ?_
    rintro ⟨piece, holder⟩ q - -
    refine (repeats_attach (holder.getD m) name piece).bind fun m' r _ _ => ?_
    exact repeats_ofProperties rest m' r

end

end Piece

/-! ## Messages of operations -/

namespace Conversion

variable {p : Progress}

theorem repeats_include (m : Message) (name : Name) (s : Spec.Schema) :
    Repeats (include_ m name s) p := by
  unfold include_
  refine (Piece.repeats_ofSchema s name (some m) p).bind ?_
  rintro ⟨piece, holder⟩ q - -
  exact repeats_pure _

theorem repeats_useEmpty : Repeats useEmpty p := by
  unfold useEmpty
  exact (repeats_addImport emptyImport).bind fun _ _ _ _ => repeats_pure _

theorem repeats_addHolders (name : Text → Text) (holders : List (Value × Value)) (m : Message) :
    Repeats (addHolders name holders m) p := by
  induction holders generalizing m p with
  | nil =>
    unfold addHolders
    exact repeats_pure _
  | cons e rest ih =>
    obtain ⟨key, holder⟩ := e
    unfold addHolders
    refine (repeats_entries holder).bind fun es q _ _ => ?_
    split
    · exact ih m
    · refine (repeats_textual key).bind fun t r _ _ => ?_
      exact (repeats_include m _ _).bind fun m' _ _ _ => ih m'

theorem repeats_addParameters (ps : List Value) (m : Message) :
    Repeats (addParameters ps m) p := by
  induction ps generalizing m p with
  | nil =>
    unfold addParameters
    exact repeats_pure _
  | cons parameter rest ih =>
    unfold addParameters
    refine (repeats_mapping parameter).bind fun es q _ _ => ?_
    split
    · exact ih m
    · refine (repeats_textual _).bind fun t r _ _ => ?_
      exact (repeats_within (repeats_include m _ _) _ _).bind fun m' _ _ _ => ih m'

theorem repeats_addParametersOf (parameters : Value) (m : Message) :
    Repeats (addParametersOf parameters m) p := by
  unfold addParametersOf
  split
  · exact repeats_addParameters _ m
  · split
    · exact repeats_refuse
    · exact repeats_pure _

theorem repeats_declare (m : Message) : Repeats (declare m) p := by
  unfold declare
  split
  · exact repeats_pure _
  · exact (repeats_addMessage m).bind fun _ _ _ _ => repeats_pure _

theorem repeats_request (operation : Value.Entries) (method : Name) :
    Repeats (request operation method) p := by
  unfold request
  dsimp only
  split
  · exact repeats_useEmpty.bind fun _ _ _ _ => repeats_pure _
  · refine (repeats_textual method).bind fun name q _ _ => ?_
    refine (repeats_entries _).bind fun body r _ _ => ?_
    refine (repeats_entries _).bind fun content u _ _ => ?_
    refine (repeats_addHolders _ content _).bind fun m v _ _ => ?_
    refine (repeats_addParametersOf _ m).bind fun m' w _ _ => ?_
    exact (repeats_declare m').bind fun _ _ _ _ => repeats_pure _

theorem repeats_responseMessage (status : Text) (response : Value.Entries) (method : Text) :
    Repeats (responseMessage status response method) p := by
  unfold responseMessage
  refine (repeats_entries _).bind fun headers q _ _ => ?_
  refine (repeats_addHolders _ headers _).bind fun m r _ _ => ?_
  refine (repeats_entries _).bind fun content u _ _ => ?_
  refine (repeats_addHolders _ content m).bind fun m' v _ _ => ?_
  exact (repeats_declare m').bind fun _ _ _ _ => repeats_pure _

theorem repeats_addResponses (method : Text) (responses : List (Value × Value)) (m : Message) :
    Repeats (addResponses method responses m) p := by
  induction responses generalizing m p with
  | nil =>
    unfold addResponses
    exact repeats_pure _
  | cons e rest ih =>
    obtain ⟨status, response⟩ := e
    unfold addResponses
    refine (repeats_entries response).bind fun es q _ _ => ?_
    split
    · exact ih m
    · refine (repeats_shown status).bind fun status r _ _ => ?_
      exact (repeats_responseMessage status es method).bind fun type _ _ _ => ih _

theorem repeats_response (operation : Value.Entries) (method : Name) :
    Repeats (response operation method) p := by
  unfold response
  refine (repeats_entries _).bind fun responses q _ _ => ?_
  split
  · exact repeats_pure _
  · refine (repeats_entries _).bind fun es r _ _ => ?_
    split
    · exact repeats_useEmpty.bind fun _ _ _ _ => repeats_pure _
    · refine (repeats_shown _).bind fun status u _ _ => ?_
      refine (repeats_shown method).bind fun name v _ _ => ?_
      exact (repeats_responseMessage status es name).bind fun _ _ _ _ => repeats_pure _
  · refine (repeats_shown method).bind fun name r _ _ => ?_
    refine (repeats_addResponses name _ _).bind fun m u _ _ => ?_
    split
    · exact repeats_useEmpty.bind fun _ _ _ _ => repeats_pure _
    · exact (repeats_addMessage m).bind fun _ _ _ _ => repeats_pure _

/-! ## Methods -/

theorem repeats_firstTag (tags : Value) : Repeats (firstTag tags) p := by
  unfold firstTag
  split
  · exact repeats_pure _
  · split
    · exact repeats_pure _
    · exact repeats_pure _
    · exact repeats_pure _
    · split
      · exact repeats_pure _
      · exact repeats_refuse
    · exact repeats_refuse

/-- A service that has been opened has a place. -/
theorem ends_openService {name : Name} {place : Nat} {q : Progress}
    (h : Ends (openService name) p place q) :
    place = p.file.placeOf name ∧ q = { p with file := p.file.addService name } := by
  obtain ⟨_, _, hget, h⟩ := ends_bind.1 h
  obtain ⟨rfl, rfl⟩ := ends_get.1 hget
  obtain ⟨_, _, hupdate, h⟩ := ends_bind.1 h
  obtain ⟨rfl, rfl⟩ := ends_pure.1 h
  exact ⟨rfl, ends_modify.1 hupdate⟩

theorem repeats_openService (name : Name) : Repeats (openService name) p := by
  intro place q h
  obtain ⟨rfl, rfl⟩ := ends_openService h
  refine ⟨File.precedes_addService p.file name, fun r hr hfindable => ?_⟩
  refine ⟨{ r with file := r.file.addService name }, ?_, File.addService_eq_self hr hfindable⟩
  rw [← File.placeOf_eq_of_precedes hr hfindable]
  rfl

theorem repeats_orEmptyText (input : Option Text) : Repeats (orEmptyText input) p := by
  cases input with
  | none => exact repeats_useEmpty
  | some t => exact repeats_pure t

theorem repeats_orEmpty (output : Option Name) : Repeats (orEmpty output) p := by
  cases output with
  | none => exact repeats_map repeats_useEmpty _
  | some t => exact repeats_pure t

theorem repeats_routeSettings (choice : OptionChoice) (path : Value) (verb : Text) :
    Repeats (routeSettings choice path verb) p := by
  unfold routeSettings
  split
  · split
    · exact (repeats_textual path).bind fun _ _ _ _ => repeats_pure _
    · exact repeats_pure _
  · exact repeats_pure _

theorem repeats_operationSettings (choice : OptionChoice) (operation : Value.Entries) :
    Repeats (operationSettings choice operation) p := by
  unfold operationSettings
  dsimp only
  split
  · exact repeats_pure _
  · split
    · exact repeats_pure _
    · split
      · exact repeats_pure _
      · exact repeats_throw _
      · exact repeats_refuse

/-- Before the method of an operation is added, the draft only gains imports. -/
theorem ends_declareMethod {choice : OptionChoice} {path : Value} {verb : Text}
    {operation : Value.Entries} {place : Nat} {method : Name} {input : Option Text}
    {output : Option Name} {u : Unit} {q : Progress}
    (h : Ends (declareMethod choice path verb operation place method input output) p u q) :
    ∃ f m, p.file.Precedes f ∧ m.name = method ∧ q.file = f.appendMethod place m := by
  obtain ⟨input, s₁, h₁, h⟩ := ends_bind.1 h
  obtain ⟨output, s₂, h₂, h⟩ := ends_bind.1 h
  obtain ⟨route, s₃, h₃, h⟩ := ends_bind.1 h
  obtain ⟨details, s₄, h₄, h⟩ := ends_bind.1 h
  have hq := ends_modify.1 h
  have hinput := (repeats_orEmptyText _ _ _ h₁).1
  have houtput := (repeats_orEmpty _ _ _ h₂).1
  have hroute := (repeats_routeSettings choice path verb _ _ h₃).1
  have hdetails := (repeats_operationSettings choice operation _ _ h₄).1
  have hp := ((hinput.trans houtput).trans hroute).trans hdetails
  exact ⟨s₄.file, _, hp, rfl, by rw [hq]⟩

/-- The method of an operation is declared once: the second time the service has it. -/
theorem repeats_method (choice : OptionChoice) (path : Value) (verb : Text)
    (operation : Value.Entries) {place : Nat} (method : Name) (input : Option Text)
    (output : Option Name) (hplace : ∃ s, p.file.services[place]? = some s) :
    Repeats (do
      let draft := (← get).file
      if draft.services[place]?.any (·.hasMethod method) then return ()
      else declareMethod choice path verb operation place method input output) p := by
  intro u q h
  obtain ⟨_, _, hget, h⟩ := ends_bind.1 h
  obtain ⟨rfl, rfl⟩ := ends_get.1 hget
  -- The service has the method in any case: from before, or from this very step.
  have hoffers : p.file.Precedes q.file ∧ q.file.Offers place method := by
    by_cases hmethod : (p.file.services[place]?.any fun s => s.hasMethod method) = true
    · rw [if_pos hmethod] at h
      obtain ⟨-, rfl⟩ := ends_pure.1 h
      exact ⟨.refl _, File.offers_of_hasMethod hmethod⟩
    · rw [if_neg hmethod] at h
      obtain ⟨f, m, hf, rfl, hq⟩ := ends_declareMethod h
      obtain ⟨s, hs⟩ := hplace
      obtain ⟨t, ht, -⟩ := hf.services.getElem? hs
      rw [hq]
      exact ⟨hf.trans (File.precedes_appendMethod f place m), File.offers_appendMethod ht m⟩
  refine ⟨hoffers.1, fun r hr hfindable => ⟨r, ?_, rfl⟩⟩
  refine ends_bind.2 ⟨r, r, ends_get.2 ⟨rfl, rfl⟩, ?_⟩
  rw [if_pos ((hoffers.2.mono hr).hasMethod hfindable)]
  exact ends_pure.2 ⟨rfl, rfl⟩

theorem repeats_addOperation (choice : OptionChoice) (path : Value) (verb : Text)
    (operation : Value.Entries) : Repeats (addOperation choice path verb operation) p := by
  unfold addOperation
  refine (repeats_firstTag _).bind fun service q _ _ => ?_
  refine (repeats_openService service).bind fun place r hopen _ => ?_
  have hplace : ∃ s, r.file.services[place]? = some s := by
    obtain ⟨rfl, rfl⟩ := ends_openService hopen
    exact q.file.exists_service service
  dsimp only
  refine (repeats_note _).bind fun _ u _ hru => ?_
  refine (repeats_within (repeats_request operation _) _ _).bind fun input v _ huv => ?_
  refine (repeats_within (repeats_response operation _) _ _).bind fun output w _ hvw => ?_
  refine repeats_method choice path verb operation _ input output ?_
  -- What is done for the messages in between leaves the service at its place.
  obtain ⟨s, hs⟩ := hplace
  obtain ⟨t, ht, -⟩ := ((hru.trans huv).trans hvw).services.getElem? hs
  exact ⟨t, ht⟩

/-! ## Documents -/

theorem repeats_addPathItem (choice : OptionChoice) (path : Value) (item : Value.Entries)
    (verbs : List Text) : Repeats (addPathItem choice path item verbs) p := by
  induction verbs generalizing p with
  | nil =>
    unfold addPathItem
    exact repeats_pure _
  | cons verb rest ih =>
    unfold addPathItem
    split
    · exact ih
    · refine (repeats_mapping _).bind fun operation _ _ _ => ?_
      exact (repeats_addOperation choice path verb operation).bind fun _ _ _ _ => ih

theorem repeats_addPaths (choice : OptionChoice) (paths : List (Value × Value)) :
    Repeats (addPaths choice paths) p := by
  induction paths generalizing p with
  | nil =>
    unfold addPaths
    exact repeats_pure _
  | cons e rest ih =>
    obtain ⟨path, item⟩ := e
    unfold addPaths
    refine (repeats_mapping item).bind fun item _ _ _ => ?_
    exact (repeats_addPathItem choice path item verbs).bind fun _ _ _ _ => ih

theorem repeats_declareComponent (name : Name) (piece : Piece) :
    Repeats (update (declareComponent name piece)) p := by
  cases piece with
  | enum e => exact repeats_addEnum e
  | field fd => exact repeats_addMessage { name, fields := [fd] }
  | message m => exact repeats_addMessage m

theorem repeats_addComponents (schemas : List (Value × Value)) :
    Repeats (addComponents schemas) p := by
  induction schemas generalizing p with
  | nil =>
    unfold addComponents
    exact repeats_pure _
  | cons e rest ih =>
    obtain ⟨name, schema⟩ := e
    unfold addComponents
    refine (repeats_note _).bind fun _ q _ _ => ?_
    refine (repeats_within (Piece.repeats_ofSchema _ name none q) _ _).bind ?_
    rintro ⟨piece, parent⟩ r - -
    exact (repeats_declareComponent name piece).bind fun _ _ _ _ => ih

theorem repeats_importIf (wanted : Bool) (path : Text) : Repeats (importIf wanted path) p := by
  unfold importIf
  split
  · exact repeats_addImport path
  · exact repeats_pure _

theorem repeats_addDocument (choice : OptionChoice) (doc : Value) :
    Repeats (addDocument choice doc) p := by
  unfold addDocument
  refine (repeats_mapping doc).bind fun doc _ _ _ => ?_
  refine (repeats_entries _).bind fun components _ _ _ => ?_
  refine (repeats_entries _).bind fun schemas _ _ _ => ?_
  refine (repeats_addComponents schemas).bind fun _ _ _ _ => ?_
  refine (repeats_entries _).bind fun paths _ _ _ => ?_
  refine (repeats_addPaths choice paths).bind fun _ _ _ _ => ?_
  refine (repeats_importIf _ _).bind fun _ _ _ _ => ?_
  exact repeats_importIf _ _

/-- A document that has been converted can be converted again by the same converter, and the draft
    stays as it is, if every declaration in it is found under its name. -/
theorem addDocument_again {choice : OptionChoice} {doc : Value} {q : Progress}
    (h : Ends (addDocument choice doc) p () q) (hq : q.file.Findable) :
    ∃ r, Ends (addDocument choice doc) q () r ∧ r.file = q.file :=
  (repeats_addDocument choice doc () q h).2 q (.refl _) hq

/-- A document with a component and a request that are united under one name. -/
def unitedDocument : Value :=
  .map [(.text "components", .map [(.text "schemas", .map [
      (.text "GetRequest", .map [(.text "type", .text "object"), (.text "properties", .map [
        (.text "id", .map [(.text "type", .text "string")])])])])]),
    (.text "paths", .map [(.text "/items", .map [(.text "get", .map [
      (.text "operationId", .text "Get"),
      (.text "parameters", .list [.map [(.text "name", .text "limit"),
        (.text "schema", .map [(.text "type", .text "integer")])]])])])])]

theorem unitedDocument_again : ∃ q : Progress, q.file.Findable ∧
    (q.file.messages.map fun m => m.fields.length) = [2] ∧
    Ends (addDocument {} unitedDocument) ⟨{ package := [] }, []⟩ () q ∧
    ∃ r, Ends (addDocument {} unitedDocument) q () r ∧ r.file = q.file := by
  have hends := ends_of_toOption (show ((addDocument {} unitedDocument).run.run
    ⟨{ package := [] }, []⟩).1.toOption = some () by decide +kernel)
  have hfindable : ((addDocument {} unitedDocument).run.run
    ⟨{ package := [] }, []⟩).2.file.Findable := by decide +kernel
  exact ⟨_, hfindable, by decide +kernel, hends, addDocument_again hends hfindable⟩

/-- A document whose only component has a name that is not a number. -/
def unnumberedDocument : Value :=
  .map [(.text "components", .map [(.text "schemas", .map [
    (.float .nan, .map [(.text "type", .text "object")])])])]

/-- Its message is declared again, because it is not found. -/
theorem unnumberedDocument_again : ∃ q r : Progress,
    Ends (addDocument {} unnumberedDocument) ⟨{ package := [] }, []⟩ () q ∧
      Ends (addDocument {} unnumberedDocument) q () r ∧
      q.file.messages.length = 1 ∧ r.file.messages.length = 2 := by
  have hfirst := ends_of_toOption (show ((addDocument {} unnumberedDocument).run.run
    ⟨{ package := [] }, []⟩).1.toOption = some () by decide +kernel)
  have hsecond := ends_of_toOption (show ((addDocument {} unnumberedDocument).run.run
    ((addDocument {} unnumberedDocument).run.run ⟨{ package := [] }, []⟩).2).1.toOption = some ()
      by decide +kernel)
  exact ⟨_, _, hfirst, hsecond, by decide +kernel, by decide +kernel⟩

end Conversion

end IdlBridge.Draft
