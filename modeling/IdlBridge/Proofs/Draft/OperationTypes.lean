import IdlBridge.Proofs.Draft.FromDocument
import IdlBridge.Proofs.Draft.SchemaTypes

/-! # Types from operations

    The parts of an operation build its messages, and a method is only given the name of a message
    that has just been declared.  So the types of both are accounted for by induction along the
    operation.

    A message that turns out to be empty is not declared.  No method is given its name then, and it
    has no fields that could have needed its declarations.
-/

namespace IdlBridge.Draft

variable {refs : List Text}

namespace Conversion

/-! ## Messages -/

variable {p : Progress}

theorem brings_cited_entries (hp : p.file.Accounted refs) {v : Value} (hv : Cited refs v) :
    Brings (File.Accounted refs) (entries v) p fun f es => f = p.file ∧ Cited refs (.map es) := by
  refine (brings_entries hp v).mono ?_
  rintro f es ⟨hf, rfl | ⟨rfl, -⟩⟩
  · exact ⟨hf, hv⟩
  · exact ⟨hf, cited_nil⟩

theorem brings_include (hp : p.file.Accounted refs) {m : Message} (hm : m.Accounted refs p.file)
    (name : Name) {s : Spec.Schema} (hs : Piece.Mentions refs s) :
    Brings (File.Accounted refs) (include_ m name s) p (m.Filled refs) := by
  unfold include_
  have hparent : ∀ m', some m = some m' → m'.Accounted refs p.file := by
    rintro _ ⟨⟩
    exact hm
  refine (Piece.brings_ofSchema s hs name hp hparent).bind ?_
  rintro ⟨piece, holder⟩ q hext hq ⟨hpiece, hholder⟩
  have hgetD := hholder.getD (hm.mono hext)
  refine brings_pure hq (hgetD.trans ?_)
  exact Piece.accounted_addTo hgetD.accounted (Piece.within_getD holder m) hpiece

theorem brings_useEmpty (hp : p.file.Accounted refs) :
    Brings (File.Accounted refs) useEmpty p fun f t => f.MethodTypeAccounted (.text t) := by
  unfold useEmpty
  have hext := File.extends_addImport p.file emptyImport
  refine (brings_update hext (hp.addImport _)).bind fun _ q _ hq hfile => brings_pure hq ?_
  rw [hfile]
  exact Or.inl ⟨rfl, File.mem_imports_addImport _ _⟩

theorem brings_addHolders (name : Text → Text) (holders : List (Value × Value))
    (hholders : ∀ e ∈ holders, Cited refs e.2) (hp : p.file.Accounted refs) {m : Message}
    (hm : m.Accounted refs p.file) :
    Brings (File.Accounted refs) (addHolders name holders m) p (m.Filled refs) := by
  induction holders generalizing p m with
  | nil =>
    unfold addHolders
    exact brings_pure hp ⟨rfl, hm⟩
  | cons e rest ih =>
    obtain ⟨key, holder⟩ := e
    obtain ⟨hholder, hrest⟩ := List.forall_mem_cons.1 hholders
    unfold addHolders
    refine (brings_cited_entries hp hholder).bind ?_
    rintro es q hext hq ⟨-, hes⟩
    split
    · exact ih hrest hq (hm.mono hext)
    · next s hs =>
      refine (brings_textual hq key).bind fun t r hext' hr _ => ?_
      -- The draft has grown since the message was accounted for, which takes nothing away.
      have hm' := (hm.mono hext).mono hext'
      refine (brings_include hr hm' _ (mentions_of_schemaOf hes hs)).bind ?_
      intro m' u _ hu hm''
      exact (ih hrest hu hm''.accounted).mono fun f m''' h => hm''.trans h

theorem brings_addParameters (ps : List Value) (hps : ∀ v ∈ ps, Cited refs v)
    (hp : p.file.Accounted refs) {m : Message} (hm : m.Accounted refs p.file) :
    Brings (File.Accounted refs) (addParameters ps m) p (m.Filled refs) := by
  induction ps generalizing p m with
  | nil =>
    unfold addParameters
    exact brings_pure hp ⟨rfl, hm⟩
  | cons v rest ih =>
    obtain ⟨hv, hrest⟩ := List.forall_mem_cons.1 hps
    unfold addParameters
    refine (brings_mapping hp v).bind ?_
    rintro es q hext hq ⟨-, rfl⟩
    split
    · exact ih hrest hq (hm.mono hext)
    · next s hs =>
      refine (brings_textual hq _).bind fun t r hext' hr _ => ?_
      have hm' := (hm.mono hext).mono hext'
      refine (brings_within (brings_include hr hm' _ (mentions_of_schemaOf hv hs)) _ _).bind ?_
      intro m' u _ hu hm''
      exact (ih hrest hu hm''.accounted).mono fun f m''' h => hm''.trans h

theorem brings_addParametersOf {parameters : Value} (hparameters : Cited refs parameters)
    (hp : p.file.Accounted refs) {m : Message} (hm : m.Accounted refs p.file) :
    Brings (File.Accounted refs) (addParametersOf parameters m) p (m.Filled refs) := by
  unfold addParametersOf
  split
  · next ps =>
    refine brings_addParameters ps (fun v hv ref href => ?_) hp hm
    exact hparameters ref (Spec.mem_references_list.2 ⟨v, hv, href⟩)
  · split
    · exact brings_refuse
    · exact brings_pure hp ⟨rfl, hm⟩

/-- A message that is declared is a message at the top level. -/
theorem brings_declare (hp : p.file.Accounted refs) {m : Message} (hm : m.Accounted refs p.file) :
    Brings (File.Accounted refs) (declare m) p fun f r => r.isSome → f.Declares m.name := by
  unfold declare
  split
  · exact brings_pure hp fun h => absurd h (by simp)
  · have hext := File.extends_addMessage p.file m
    refine (brings_update hext (hp.addMessage hm)).bind fun _ q _ hq hfile => brings_pure hq ?_
    intro _
    rw [hfile]
    exact File.declares_addMessage p.file m

/-- The type of a message, if there is one, is accounted for. -/
def TypeGiven (f : File) (type : Option Name) : Prop :=
  ∀ t, type = some t → f.MethodTypeAccounted t

theorem typeGiven_none (f : File) : TypeGiven f none := by
  rintro t ⟨⟩

theorem typeGiven_some {f : File} {type : Name} (h : f.MethodTypeAccounted type) :
    TypeGiven f (some type) := by
  rintro t ⟨⟩
  exact h

theorem TypeGiven.mono {f g : File} {type : Option Name} (h : TypeGiven f type)
    (hext : f.Extends g) : TypeGiven g type :=
  fun t ht => (h t ht).mono hext

theorem brings_request {operation : Value.Entries} (hoperation : Cited refs (.map operation))
    (method : Name) (hp : p.file.Accounted refs) :
    Brings (File.Accounted refs) (request operation method) p
      fun f r => TypeGiven f (r.map Value.text) := by
  unfold request
  dsimp only
  split
  · refine (brings_useEmpty hp).bind fun t q _ hq ht => ?_
    exact brings_pure hq (typeGiven_some ht)
  · refine (brings_textual hp method).bind fun name q _ hq _ => ?_
    refine (brings_cited_entries hq (hoperation.part _)).bind ?_
    rintro body r _ hr ⟨-, hbody⟩
    refine (brings_cited_entries hr (hbody.part _)).bind ?_
    rintro content u _ hu ⟨-, hcontent⟩
    have hholders : ∀ e ∈ content, Cited refs e.2 := fun e he => hcontent.of_mem he
    refine (brings_addHolders _ content hholders hu (Message.accounted_empty _)).bind ?_
    intro m v _ hv hm
    refine (brings_addParametersOf (hoperation.part _) hv hm.accounted).bind ?_
    intro m' w _ hw hm'
    refine (brings_declare hw hm'.accounted).bind fun d x _ hx hd => brings_pure hx ?_
    cases d with
    | none => exact typeGiven_none _
    | some n =>
      -- The message has kept the name that the method is given.
      have hname : m'.name = .text (name ++ "Request") := (hm.trans hm').name
      exact typeGiven_some (Or.inr (hname ▸ hd rfl))

/-- A response that has a message has one at the top level. -/
theorem brings_responseMessage (status : Text) {response : Value.Entries}
    (hresponse : Cited refs (.map response)) (method : Text) (hp : p.file.Accounted refs) :
    Brings (File.Accounted refs) (responseMessage status response method) p
      fun f r => ∀ t, r = some t → f.Declares (.text t) := by
  unfold responseMessage
  refine (brings_cited_entries hp (hresponse.part _)).bind ?_
  rintro headers q _ hq ⟨-, hheaders⟩
  have hfirst : ∀ e ∈ headers, Cited refs e.2 := fun e he => hheaders.of_mem he
  refine (brings_addHolders _ headers hfirst hq (Message.accounted_empty _)).bind ?_
  intro m r _ hr hm
  refine (brings_cited_entries hr (hresponse.part _)).bind ?_
  rintro content u hext hu ⟨-, hcontent⟩
  have hsecond : ∀ e ∈ content, Cited refs e.2 := fun e he => hcontent.of_mem he
  refine (brings_addHolders _ content hsecond hu (hm.accounted.mono hext)).bind ?_
  intro m' v _ hv hm'
  refine (brings_declare hv hm'.accounted).bind fun d x _ hx hd => brings_pure hx ?_
  cases d with
  | none =>
    -- An empty message is not declared, and nothing refers to it.
    rintro t ⟨⟩
  | some n =>
    rintro t ⟨⟩
    have hname : m'.name = .text (method ++ "Response_" ++ status) := (hm.trans hm').name
    exact hname ▸ hd rfl

/-- The fields of the message for several responses have messages at the top level as types. -/
theorem brings_addResponses (method : Text) (responses : List (Value × Value))
    (hresponses : ∀ e ∈ responses, Cited refs e.2) (hp : p.file.Accounted refs) {m : Message}
    (hm : m.Accounted refs p.file) :
    Brings (File.Accounted refs) (addResponses method responses m) p (m.Filled refs) := by
  induction responses generalizing p m with
  | nil =>
    unfold addResponses
    exact brings_pure hp ⟨rfl, hm⟩
  | cons e rest ih =>
    obtain ⟨status, response⟩ := e
    obtain ⟨hresponse, hrest⟩ := List.forall_mem_cons.1 hresponses
    unfold addResponses
    refine (brings_cited_entries hp hresponse).bind ?_
    rintro es q hext hq ⟨-, hes⟩
    split
    · exact ih hrest hq (hm.mono hext)
    · refine (brings_of_keeps hq fun _ => keeps_shown status).bind fun status r hext' hr _ => ?_
      refine (brings_responseMessage status hes method hr).bind fun type u hext'' hu htype => ?_
      have hm' := ((hm.mono hext).mono hext').mono hext''
      dsimp only
      split
      · exact ih hrest hu hm'
      · next t =>
        -- The field mentions the message of the single response, which is a text.
        have ht := File.declares_text.1 (htype t rfl)
        have hfilled : m.Filled refs u.file
            (m.addField { name := .text ("response_" ++ status), type := t }) :=
          ⟨rfl, hm'.addField (.outer (Or.inl ht))⟩
        exact (ih hrest hu hfilled.accounted).mono fun f m'' h => hfilled.trans h

theorem brings_response {operation : Value.Entries} (hoperation : Cited refs (.map operation))
    (method : Name) (hp : p.file.Accounted refs) :
    Brings (File.Accounted refs) (response operation method) p TypeGiven := by
  unfold response
  refine (brings_cited_entries hp (hoperation.part _)).bind ?_
  rintro responses q _ hq ⟨-, hresponses⟩
  have hcited : ∀ e ∈ responses, Cited refs e.2 := fun e he => hresponses.of_mem he
  -- Two of the ways to a response end without a message.
  have hempty : ∀ {r : Progress}, r.file.Accounted refs →
      Brings (File.Accounted refs) (do return some (.text (← useEmpty))) r TypeGiven := by
    intro r hr
    refine (brings_useEmpty hr).bind fun t u _ hu ht => ?_
    exact brings_pure hu (typeGiven_some ht)
  split
  · exact brings_pure hq (typeGiven_none _)
  · refine (brings_cited_entries hq (hcited _ List.mem_cons_self)).bind ?_
    rintro es r _ hr ⟨-, hes⟩
    split
    · exact hempty hr
    · refine (brings_of_keeps hr fun _ => keeps_shown _).bind fun status u _ hu _ => ?_
      refine (brings_of_keeps hu fun _ => keeps_shown method).bind fun name v _ hv _ => ?_
      refine (brings_responseMessage status hes name hv).bind fun type w _ hw htype => ?_
      refine brings_pure hw fun t ht => ?_
      obtain ⟨name', hname', rfl⟩ := Option.map_eq_some_iff.1 ht
      exact Or.inr (htype name' hname')
  · refine (brings_of_keeps hq fun _ => keeps_shown method).bind fun name r _ hr _ => ?_
    refine (brings_addResponses name responses hcited hr (Message.accounted_empty method)).bind ?_
    intro m u _ hu hm
    split
    · exact hempty hu
    · have hext := File.extends_addMessage u.file m
      refine (brings_update hext (hu.addMessage hm.accounted)).bind fun _ v _ hv hfile => ?_
      refine brings_pure hv (typeGiven_some (Or.inr ?_))
      have hname : m.name = method := hm.name
      rw [hfile, ← hname]
      exact File.declares_addMessage u.file m

/-! ## Methods -/

theorem brings_orEmptyText {type : Option Text} (htype : TypeGiven p.file (type.map Value.text))
    (hp : p.file.Accounted refs) :
    Brings (File.Accounted refs) (orEmptyText type) p
      fun f t => f.MethodTypeAccounted (.text t) := by
  cases type with
  | none => exact brings_useEmpty hp
  | some t => exact brings_pure hp (htype (.text t) rfl)

theorem brings_orEmpty {type : Option Name} (htype : TypeGiven p.file type)
    (hp : p.file.Accounted refs) :
    Brings (File.Accounted refs) (orEmpty type) p File.MethodTypeAccounted := by
  cases type with
  | none => exact brings_map (brings_useEmpty hp) fun _ _ h => h
  | some t => exact brings_pure hp (htype t rfl)

theorem brings_openService (name : Name) (hp : p.file.Accounted refs) :
    Brings (File.Accounted refs) (openService name) p fun _ _ => True := by
  unfold openService
  refine brings_get_bind ?_
  have hext := File.extends_addService p.file name
  exact (brings_update hext (hp.addService name)).bind fun _ _ _ hq _ => brings_pure hq trivial

theorem brings_declareMethod (choice : OptionChoice) (path : Value) (verb : Text)
    (operation : Value.Entries) (place : Nat) (method : Name) {input : Option Text}
    {output : Option Name} (hinput : TypeGiven p.file (input.map Value.text))
    (houtput : TypeGiven p.file output) (hp : p.file.Accounted refs) :
    Brings (File.Accounted refs)
      (declareMethod choice path verb operation place method input output) p
      fun _ _ => True := by
  unfold declareMethod
  -- What stands for a missing message is imported first, so the method comes after its types.
  refine (brings_orEmptyText hinput hp).bind fun input q hext hq hin => ?_
  refine (brings_orEmpty (houtput.mono hext) hq).bind fun output r hext' hr hout => ?_
  refine (brings_of_keeps hr fun _ => keeps_routeSettings choice path verb).bind ?_
  rintro route u hext₁ hu -
  refine (brings_of_keeps hu fun _ => keeps_operationSettings choice operation).bind ?_
  rintro details v hext₂ hv -
  -- Both types have been known since before the options were put together.
  have hin' := ((hin.mono hext').mono hext₁).mono hext₂
  have hout' := (hout.mono hext₁).mono hext₂
  have hext₃ := File.extends_appendMethod v.file place
    { name := method, input, output, settings := route ++ details }
  exact (brings_update hext₃ (hv.appendMethod place hin' hout')).mono fun _ _ _ => trivial

theorem brings_addOperation (choice : OptionChoice) (path : Value) (verb : Text)
    {operation : Value.Entries} (hoperation : Cited refs (.map operation))
    (hp : p.file.Accounted refs) :
    Brings (File.Accounted refs) (addOperation choice path verb operation) p
      fun _ _ => True := by
  unfold addOperation
  refine (brings_of_keeps hp fun _ => keeps_firstTag _).bind fun service q _ hq _ => ?_
  refine (brings_openService service hq).bind fun place r _ hr _ => ?_
  dsimp only
  refine (brings_note hr _).bind fun _ u _ hu _ => ?_
  refine (brings_within (brings_request hoperation _ hu) _ _).bind fun input v _ hv hinput => ?_
  refine (brings_within (brings_response hoperation _ hv) _ _).bind ?_
  intro output w hext' hw houtput
  refine brings_get_bind ?_
  split
  · exact brings_pure hw trivial
  · exact brings_declareMethod choice path verb operation place _ (hinput.mono hext') houtput hw

end Conversion

end IdlBridge.Draft
