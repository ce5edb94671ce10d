import IdlBridge.Draft.Converter
import IdlBridge.Proofs.Draft.FromSchema

/-! # Distinct drafts from documents

    Converting a document keeps the draft distinct through every step, so a conversion that fails
    half-way leaves a distinct draft too.  The method of an operation is the one declaration that is
    appended without a look at those that are there: the look comes earlier, and nothing in between
    adds a method (`leads_declareMethod`).

    A converter is distinct when its draft and all its parents are, and it stays so through any
    calls in any order.
-/

namespace IdlBridge.Draft

namespace Conversion

variable {I : Progress → Prop}

/-! ## Looking into data -/

theorem keeps_entries (v : Value) : Keeps I (entries v) fun _ => True := by
  unfold entries
  split
  · exact keeps_pure trivial
  · split
    · exact keeps_refuse
    · exact keeps_pure trivial

theorem keeps_mapping (v : Value) : Keeps I (mapping v) fun _ => True := by
  unfold mapping
  split
  · exact keeps_pure trivial
  · exact keeps_refuse

theorem keeps_firstTag (tags : Value) : Keeps I (firstTag tags) fun _ => True := by
  unfold firstTag
  split
  · exact keeps_pure trivial
  · split
    · exact keeps_pure trivial
    · exact keeps_pure trivial
    · exact keeps_pure trivial
    · split
      · exact keeps_pure trivial
      · exact keeps_refuse
    · exact keeps_refuse

/-! ## Messages -/

theorem keeps_include {m : Message} (hm : m.Distinct) (name : Name) (s : Spec.Schema) :
    Keeps Progress.Distinct (include_ m name s) Message.Distinct := by
  unfold include_
  refine keeps_bind (Piece.keeps_ofSchema s name (Piece.holderDistinct_some hm)) ?_
  rintro ⟨piece, holder⟩ ⟨hpiece, hholder⟩
  exact keeps_pure (Piece.distinct_addTo (hholder.getD hm) hpiece)

/-- Importing keeps whatever is said of the draft without its imports. -/
theorem keeps_useEmpty {I : Progress → Prop}
    (hI : ∀ p : Progress, I p → I { p with file := p.file.addImport emptyImport }) :
    Keeps I useEmpty fun _ => True := by
  unfold useEmpty
  exact keeps_bind (leads_modify hI) fun _ _ => keeps_pure trivial

theorem keeps_useEmpty_of_distinct : Keeps Progress.Distinct useEmpty fun _ => True :=
  keeps_useEmpty fun _ hp => File.Distinct.addImport hp _

theorem keeps_addHolders (name : Text → Text) (holders : List (Value × Value)) {m : Message}
    (hm : m.Distinct) : Keeps Progress.Distinct (addHolders name holders m) Message.Distinct := by
  induction holders generalizing m with
  | nil =>
    unfold addHolders
    exact keeps_pure hm
  | cons e rest ih =>
    obtain ⟨key, holder⟩ := e
    unfold addHolders
    refine keeps_bind (keeps_entries holder) fun es _ => ?_
    split
    · exact ih hm
    · refine keeps_bind (keeps_textual key) fun t _ => ?_
      exact keeps_bind (keeps_include hm _ _) fun m' hm' => ih hm'

theorem keeps_addParameters (ps : List Value) {m : Message} (hm : m.Distinct) :
    Keeps Progress.Distinct (addParameters ps m) Message.Distinct := by
  induction ps generalizing m with
  | nil =>
    unfold addParameters
    exact keeps_pure hm
  | cons p rest ih =>
    unfold addParameters
    refine keeps_bind (keeps_mapping p) fun es _ => ?_
    split
    · exact ih hm
    · refine keeps_bind (keeps_textual _) fun t _ => ?_
      exact keeps_bind (keeps_within (keeps_include hm _ _) _ _) fun m' hm' => ih hm'

theorem keeps_addParametersOf (parameters : Value) {m : Message} (hm : m.Distinct) :
    Keeps Progress.Distinct (addParametersOf parameters m) Message.Distinct := by
  unfold addParametersOf
  split
  · exact keeps_addParameters _ hm
  · split
    · exact keeps_refuse
    · exact keeps_pure hm

theorem keeps_declare {m : Message} (hm : m.Distinct) :
    Keeps Progress.Distinct (declare m) fun _ => True := by
  unfold declare
  split
  · exact keeps_pure trivial
  · exact keeps_bind (keeps_update fun f hf => hf.addMessage hm) fun _ _ => keeps_pure trivial

theorem keeps_request (operation : Value.Entries) (method : Name) :
    Keeps Progress.Distinct (request operation method) fun _ => True := by
  unfold request
  dsimp only
  split
  · exact keeps_bind keeps_useEmpty_of_distinct fun _ _ => keeps_pure trivial
  · refine keeps_bind (keeps_textual method) fun name _ => ?_
    refine keeps_bind (keeps_entries _) fun body _ => ?_
    refine keeps_bind (keeps_entries _) fun content _ => ?_
    refine keeps_bind (keeps_addHolders _ _ (Message.distinct_empty _)) fun m hm => ?_
    refine keeps_bind (keeps_addParametersOf _ hm) fun m hm => ?_
    exact keeps_bind (keeps_declare hm) fun _ _ => keeps_pure trivial

theorem keeps_responseMessage (status : Text) (response : Value.Entries) (method : Text) :
    Keeps Progress.Distinct (responseMessage status response method) fun _ => True := by
  unfold responseMessage
  refine keeps_bind (keeps_entries _) fun headers _ => ?_
  refine keeps_bind (keeps_addHolders _ _ (Message.distinct_empty _)) fun m hm => ?_
  refine keeps_bind (keeps_entries _) fun content _ => ?_
  refine keeps_bind (keeps_addHolders _ _ hm) fun m hm => ?_
  exact keeps_bind (keeps_declare hm) fun _ _ => keeps_pure trivial

theorem keeps_addResponses (method : Text) (responses : List (Value × Value)) {m : Message}
    (hm : m.Distinct) :
    Keeps Progress.Distinct (addResponses method responses m) Message.Distinct := by
  induction responses generalizing m with
  | nil =>
    unfold addResponses
    exact keeps_pure hm
  | cons e rest ih =>
    obtain ⟨status, response⟩ := e
    unfold addResponses
    refine keeps_bind (keeps_entries response) fun es _ => ?_
    split
    · exact ih hm
    · refine keeps_bind (keeps_shown status) fun status _ => ?_
      refine keeps_bind (keeps_responseMessage status es method) fun type _ => ih ?_
      cases type with
      | none => exact hm
      | some type => exact hm.addField _

theorem keeps_response (operation : Value.Entries) (method : Name) :
    Keeps Progress.Distinct (response operation method) fun _ => True := by
  unfold response
  refine keeps_bind (keeps_entries _) fun responses _ => ?_
  split
  · exact keeps_pure trivial
  · refine keeps_bind (keeps_entries _) fun es _ => ?_
    split
    · exact keeps_bind keeps_useEmpty_of_distinct fun _ _ => keeps_pure trivial
    · refine keeps_bind (keeps_shown _) fun status _ => ?_
      refine keeps_bind (keeps_shown method) fun name _ => ?_
      exact keeps_bind (keeps_responseMessage status es name) fun _ _ => keeps_pure trivial
  · refine keeps_bind (keeps_shown method) fun name _ => ?_
    refine keeps_bind (keeps_addResponses name _ (Message.distinct_empty method)) fun m hm => ?_
    split
    · exact keeps_bind keeps_useEmpty_of_distinct fun _ _ => keeps_pure trivial
    · exact keeps_bind (keeps_update fun f hf => hf.addMessage hm) fun _ _ => keeps_pure trivial

/-! ## Methods -/

theorem keeps_routeSettings (choice : OptionChoice) (path : Value) (verb : Text) :
    Keeps I (routeSettings choice path verb) fun _ => True := by
  unfold routeSettings
  split
  · split
    · exact keeps_bind (keeps_textual path) fun _ _ => keeps_pure trivial
    · exact keeps_pure trivial
  · exact keeps_pure trivial

theorem keeps_operationSettings (choice : OptionChoice) (operation : Value.Entries) :
    Keeps I (operationSettings choice operation) fun _ => True := by
  unfold operationSettings
  dsimp only
  split
  · exact keeps_pure trivial
  · split
    · exact keeps_pure trivial
    · split
      · exact keeps_pure trivial
      · exact keeps_throw _
      · exact keeps_refuse

theorem keeps_openService (name : Name) :
    Keeps Progress.Distinct (openService name) fun _ => True := by
  unfold openService
  refine leads_get_bind fun p hp => ?_
  refine Leads.of_imp (keeps_bind (keeps_update fun f hf => hf.addService name) fun _ _ =>
    keeps_pure trivial) ?_
  rintro _ rfl
  exact hp

/-- The draft is distinct, and the service at a place has no method of the name. -/
def Ready (place : Nat) (method : Name) (p : Progress) : Prop :=
  p.Distinct ∧ p.file.Lacks place method

theorem keeps_useEmpty_of_ready (place : Nat) (method : Name) :
    Keeps (Ready place method) useEmpty fun _ => True :=
  keeps_useEmpty fun _ hp => ⟨File.Distinct.addImport hp.1 _, hp.2⟩

/-- Between the look at the service and the method, only imports are added. -/
theorem leads_declareMethod (choice : OptionChoice) (path : Value) (verb : Text)
    (operation : Value.Entries) (place : Nat) (method : Name) (input : Option Text)
    (output : Option Name) :
    Leads (Ready place method) Progress.Distinct
      (declareMethod choice path verb operation place method input output) fun _ => True := by
  -- The place stays ready until the method is appended, which is the last step.
  have hready : ∀ p, Ready place method p → p.Distinct := fun p hp => hp.1
  have hinput : Keeps (Ready place method) (orEmptyText input) fun _ => True := by
    unfold orEmptyText
    split
    · exact keeps_pure trivial
    · exact keeps_useEmpty_of_ready place method
  have houtput : Keeps (Ready place method) (orEmpty output) fun _ => True := by
    unfold orEmpty
    split
    · exact keeps_pure trivial
    · exact keeps_map (keeps_useEmpty_of_ready place method) fun _ _ => trivial
  unfold declareMethod
  refine Leads.bind hinput hready fun input _ => ?_
  refine Leads.bind houtput hready fun output _ => ?_
  refine Leads.bind (keeps_routeSettings choice path verb) hready fun route _ => ?_
  refine Leads.bind (keeps_operationSettings choice operation) hready fun details _ => ?_
  exact leads_modify fun p hp => File.Distinct.appendMethod hp.1 hp.2

theorem keeps_addOperation (choice : OptionChoice) (path : Value) (verb : Text)
    (operation : Value.Entries) :
    Keeps Progress.Distinct (addOperation choice path verb operation) fun _ => True := by
  unfold addOperation
  refine keeps_bind (keeps_firstTag _) fun service _ => ?_
  refine keeps_bind (keeps_openService service) fun place _ => ?_
  dsimp only
  refine keeps_bind (keeps_note _) fun _ _ => ?_
  refine keeps_bind (keeps_within (keeps_request operation _) _ _) fun input _ => ?_
  refine keeps_bind (keeps_within (keeps_response operation _) _ _) fun output _ => ?_
  refine leads_get_bind fun p hp => ?_
  split
  · refine Leads.of_imp (keeps_pure trivial) ?_
    rintro _ rfl
    exact hp
  · next hmethod =>
    -- That the service lacks the method is what makes the place ready for it.
    refine Leads.of_imp (leads_declareMethod choice path verb operation place _ input output) ?_
    rintro _ rfl
    refine ⟨hp, fun s hs => ?_⟩
    rw [hs] at hmethod
    simpa using hmethod

/-! ## Documents -/

theorem keeps_addPathItem (choice : OptionChoice) (path : Value) (item : Value.Entries)
    (verbs : List Text) :
    Keeps Progress.Distinct (addPathItem choice path item verbs) fun _ => True := by
  induction verbs with
  | nil =>
    unfold addPathItem
    exact keeps_pure trivial
  | cons verb rest ih =>
    unfold addPathItem
    split
    · exact ih
    · refine keeps_bind (keeps_mapping _) fun operation _ => ?_
      exact keeps_bind (keeps_addOperation choice path verb operation) fun _ _ => ih

theorem keeps_addPaths (choice : OptionChoice) (paths : List (Value × Value)) :
    Keeps Progress.Distinct (addPaths choice paths) fun _ => True := by
  induction paths with
  | nil =>
    unfold addPaths
    exact keeps_pure trivial
  | cons e rest ih =>
    obtain ⟨path, item⟩ := e
    unfold addPaths
    refine keeps_bind (keeps_mapping item) fun item _ => ?_
    exact keeps_bind (keeps_addPathItem choice path item verbs) fun _ _ => ih

theorem distinct_declareComponent {f : File} (hf : f.Distinct) (name : Name) {piece : Piece}
    (hpiece : piece.Distinct) : (declareComponent name piece f).Distinct := by
  cases piece with
  | enum e => exact hf.addEnum e
  | field fd => exact hf.addMessage (Message.distinct_single name fd)
  | message m => exact hf.addMessage hpiece

theorem keeps_addComponents (schemas : List (Value × Value)) :
    Keeps Progress.Distinct (addComponents schemas) fun _ => True := by
  induction schemas with
  | nil =>
    unfold addComponents
    exact keeps_pure trivial
  | cons e rest ih =>
    obtain ⟨name, schema⟩ := e
    have hnone : Piece.HolderDistinct none := by
      intro p hp
      cases hp
    unfold addComponents
    refine keeps_bind (keeps_note _) fun _ _ => ?_
    refine keeps_bind (keeps_within (Piece.keeps_ofSchema _ name hnone) _ _) ?_
    rintro ⟨piece, parent⟩ ⟨hpiece, -⟩
    refine keeps_bind (keeps_update fun f hf => ?_) fun _ _ => ih
    exact distinct_declareComponent hf name hpiece

theorem keeps_importIf (wanted : Bool) (path : Text) :
    Keeps Progress.Distinct (importIf wanted path) fun _ => True := by
  unfold importIf
  split
  · exact keeps_update fun f hf => hf.addImport path
  · exact keeps_pure trivial

theorem keeps_addDocument (choice : OptionChoice) (doc : Value) :
    Keeps Progress.Distinct (addDocument choice doc) fun _ => True := by
  unfold addDocument
  refine keeps_bind (keeps_mapping doc) fun doc _ => ?_
  refine keeps_bind (keeps_entries _) fun components _ => ?_
  refine keeps_bind (keeps_entries _) fun schemas _ => ?_
  refine keeps_bind (keeps_addComponents schemas) fun _ _ => ?_
  refine keeps_bind (keeps_entries _) fun paths _ => ?_
  refine keeps_bind (keeps_addPaths choice paths) fun _ _ => ?_
  refine keeps_bind (keeps_importIf _ _) fun _ _ => ?_
  exact keeps_importIf _ _

end Conversion

/-! ## Converters -/

namespace Converter

/-- No two declarations of one kind have the same name, in the draft or in any parent. -/
structure Distinct (c : Converter) : Prop where
  file : c.progress.file.Distinct
  parents : ∀ handle, (c.parents handle).Distinct

theorem distinct_start (package : Text) (names : Text → Name) :
    (start package names).Distinct where
  file := File.distinct_empty package
  parents _ := Message.distinct_empty _

/-- A call keeps the converter distinct, whether it succeeds or fails. -/
theorem Distinct.call {c : Converter} (h : c.Distinct) (call : Call) : (c.call call).Distinct := by
  cases call with
  | schema schema name handle =>
    -- The message that a handle stands for is one that an earlier call has returned.
    have hparent : Piece.HolderDistinct (handle.map c.parents) := by
      intro m hm
      obtain ⟨k, -, rfl⟩ := Option.map_eq_some_iff.1 hm
      exact h.parents k
    have hkeeps := Piece.keeps_ofSchema (.ofValue schema) name hparent c.progress h.file
    unfold Converter.call
    dsimp only
    generalize (Piece.ofSchema (.ofValue schema) name (handle.map c.parents)).run.run c.progress =
      result at hkeeps ⊢
    obtain ⟨r, progress⟩ := result
    obtain ⟨hprogress, hresult⟩ := hkeeps
    dsimp only at hprogress hresult ⊢
    split
    · next m =>
      refine ⟨hprogress, fun k => ?_⟩
      unfold setParent
      dsimp only
      split
      · exact (hresult _ rfl).2 m rfl
      · exact h.parents k
    · exact ⟨hprogress, h.parents⟩
  | document choice doc =>
    exact ⟨(Conversion.keeps_addDocument choice doc c.progress h.file).1, h.parents⟩

theorem Distinct.calls {c : Converter} (h : c.Distinct) (cs : List Call) :
    (c.calls cs).Distinct := by
  induction cs generalizing c with
  | nil => exact h
  | cons call rest ih => exact ih (h.call call)

/-- Through any calls in any order, failing ones included, no name is ever declared twice. -/
theorem distinct_calls_start (package : Text) (names : Text → Name) (cs : List Call) :
    ((start package names).calls cs).Distinct :=
  (distinct_start package names).calls cs

end Converter

end IdlBridge.Draft
