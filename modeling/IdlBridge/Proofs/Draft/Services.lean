import IdlBridge.Proofs.Draft.MethodTypes
import IdlBridge.Proofs.Draft.Repetition
import IdlBridge.Proofs.Draft.Union

/-! # Services follow the first operations

    An operation belongs to the service of its first tag.  The services of a draft are the groups of
    operations with one tag, in the order in which the tags first appear, and of the operations of a
    group that share a method name the first one alone makes the method.

    One operation changes the services like an `upsert` (`services_addOperation`): the messages that
    are put together for it, whether they are needed or not, leave the services alone.  So the
    operations of a document, taken path by path, end as the groups of `gather`.
-/

namespace IdlBridge.Draft

/-! ## Operations -/

/-- An operation of a document. -/
structure Operation where
  path : Value
  verb : Text
  entries : Value.Entries

/-- The service that tags ask for. -/
def taggedService (tags : Value) : Name :=
  if !tags.isTruthy then .text Naming.defaultService
  else
    match tags with
    | .list (t :: _) => t
    | .text (c :: _) => .text [c]
    | .bytes (b :: _) => .int b
    | .map es => (Value.Entries.get? es (.int 0)).getD .null
    | _ => .null

namespace Operation

open Conversion

/-- The service that the operation belongs to. -/
def service (o : Operation) : Name :=
  taggedService (part o.entries "tags")

/-- The name of the method of the operation. -/
def methodName (o : Operation) : Name :=
  Conversion.methodName (part o.entries "operationId") o.verb

/-- The option that binds the method to the path of the operation. -/
def route (choice : OptionChoice) (o : Operation) : List Setting :=
  match routeOptions.get? o.verb with
  | some name =>
    if choice.routes then [⟨name, .text (Route.bracesToColons (asShown o.path))⟩] else []
  | none => []

/-- What the operation says about itself. -/
def details (o : Operation) : Value.Entries :=
  describedKeys.filterMap fun key =>
    if (part o.entries key).isTruthy then some (.text key, part o.entries key) else none

/-- The option that describes the operation. -/
def description (choice : OptionChoice) (o : Operation) : List Setting :=
  if !choice.operations || o.details.isEmpty then []
  else
    match Literal.ofValue (.map o.details) with
    | .ok l => [⟨operationOption, l⟩]
    | .error _ => []

/-- The method of the operation. -/
def method (choice : OptionChoice) (o : Operation) : Method where
  name := o.methodName
  input := requestType o.entries o.methodName
  output := responseType o.entries o.methodName
  settings := o.route choice ++ o.description choice

/-- The second operation belongs to the service of the first. -/
def sameService (o o' : Operation) : Bool :=
  o.service.equals o'.service

/-- The method of the second operation has the name of that of the first. -/
def sameMethod (o o' : Operation) : Bool :=
  o.methodName.equals o'.methodName

end Operation

/-- The operations of a path, in the order of their verbs. -/
def operationsAt (path item : Value) (vs : List Text) : List Operation :=
  vs.filterMap fun verb =>
    match Conversion.part (Conversion.entriesOf item) verb with
    | .map es => some ⟨path, verb, es⟩
    | _ => none

/-- The operations of paths. -/
def operationsIn (paths : List (Value × Value)) : List Operation :=
  paths.flatMap fun e => operationsAt e.1 e.2 verbs

/-- The operations of a document, path by path. -/
def operationsOf (doc : Value) : List Operation :=
  operationsIn (Conversion.entriesOf (Conversion.part (Conversion.entriesOf doc) "paths"))

/-- The service of operations with one tag: of those that share a method name, the first one makes
    the method. -/
def groupService (choice : OptionChoice) (g : Operation × List Operation) : Service where
  name := g.1.service
  methods := (firsts Operation.sameMethod (g.1 :: g.2)).map (Operation.method choice)

/-! ## Services that operations change -/

/-- The second method has the name of the first. -/
def Method.sameName (m m' : Method) : Bool :=
  m.name.equals m'.name

/-- Adds a method unless there is one of its name. -/
def Service.offer (s : Service) (m : Method) : Service :=
  { s with methods := addUnless Method.sameName s.methods m }

theorem Service.offer_of_hasMethod {s : Service} {m : Method} (h : s.hasMethod m.name = true) :
    s.offer m = s := by
  have hany : (s.methods.any fun y => y.sameName m) = true := h
  rw [offer, addUnless, if_pos hany]

theorem Service.offer_of_not_hasMethod {s : Service} {m : Method}
    (h : ¬ s.hasMethod m.name = true) : s.offer m = { s with methods := s.methods ++ [m] } := by
  have hany : ¬ (s.methods.any fun y => y.sameName m) = true := h
  rw [offer, addUnless, if_neg hany]

/-- What an operation makes of services: the service of its tag offers its method. -/
def serve (choice : OptionChoice) : List Service → Operation → List Service :=
  upsert (fun s o => s.name.equals o.service) (fun o => ⟨o.service, [o.method choice]⟩)
    fun s o => s.offer (o.method choice)

/-- Services among which there is one of a name. -/
def withService (ss : List Service) (n : Name) : List Service :=
  if (ss.find? fun s => s.name.equals n).isSome then ss else ss ++ [⟨n, []⟩]

theorem services_addService (f : File) (n : Name) :
    (f.addService n).services = withService f.services n := by
  unfold File.addService withService File.findService
  split <;> rfl

theorem withService_cons_of_equals {s : Service} {n : Name} (h : s.name.equals n = true)
    (ss : List Service) : withService (s :: ss) n = s :: ss := by
  have hfind : (s :: ss).find? (fun s => s.name.equals n) = some s := List.find?_cons_of_pos h
  rw [withService, hfind, Option.isSome_some, if_pos rfl]

theorem withService_cons_of_not_equals {s : Service} {n : Name} (h : s.name.equals n = false)
    (ss : List Service) : withService (s :: ss) n = s :: withService ss n := by
  rw [withService, withService, List.find?_cons_of_neg (by simp [h])]
  split <;> rfl

/-- Opening the service of an operation and adding the method to it, unless it is there, is what the
    operation makes of the services. -/
theorem serve_eq (choice : OptionChoice) (ss : List Service) (o : Operation) :
    let place := ss.findIdx fun s => s.name.equals o.service
    let opened := withService ss o.service
    serve choice ss o =
      if opened[place]?.any (·.hasMethod o.methodName) then opened
      else opened.modify place fun s => { s with methods := s.methods ++ [o.method choice] } := by
  induction ss with
  | nil => rfl
  | cons s rest ih =>
    dsimp only at ih ⊢
    cases hs : s.name.equals o.service with
    | true =>
      -- The service stands in front: it is there, and its place is the first one.
      rw [withService_cons_of_equals hs, List.findIdx_cons, hs, serve, upsert, if_pos hs]
      by_cases hmethod : s.hasMethod o.methodName = true
      · have hoffer : s.offer (o.method choice) = s := Service.offer_of_hasMethod hmethod
        rw [hoffer, if_pos (by simpa using hmethod)]
      · have hoffer := Service.offer_of_not_hasMethod (m := o.method choice) hmethod
        rw [hoffer, if_neg (by simpa using hmethod)]
        rfl
    | false =>
      -- The service in front is passed by, whether one of the others is found or a new one added.
      have hserve : serve choice (s :: rest) o = s :: serve choice rest o := by
        rw [serve, upsert, if_neg (by simp [hs])]
      rw [hserve, ih, withService_cons_of_not_equals hs, List.findIdx_cons, hs]
      simp only [cond_false, List.getElem?_cons_succ, List.modify_succ_cons]
      split <;> rfl

/-! ## One operation -/

namespace Conversion

variable {ss : List Service} {choice : OptionChoice} {p q : Progress}

theorem spares_firstTag (tags : Value) :
    Spares ss (firstTag tags) fun t => t = taggedService tags := by
  unfold firstTag taggedService
  split
  · exact keeps_pure rfl
  · split
    · exact keeps_pure rfl
    · exact keeps_pure rfl
    · exact keeps_pure rfl
    · split
      · next h =>
        refine keeps_pure ?_
        simp [h]
      · exact keeps_refuse
    · exact keeps_refuse

theorem spares_note (n : Notice) : Spares ss (note n) fun _ => True :=
  leads_modify fun _ h => h

theorem spares_routeSettings (o : Operation) :
    Spares ss (routeSettings choice o.path o.verb) fun r => r = o.route choice := by
  unfold routeSettings Operation.route
  cases routeOptions.get? o.verb with
  | none => exact keeps_pure rfl
  | some name =>
    dsimp only
    split
    · refine keeps_bind (keeps_textual_eq o.path) fun t ht => keeps_pure ?_
      rw [ht]
      rfl
    · exact keeps_pure rfl

theorem spares_operationSettings (o : Operation) :
    Spares ss (operationSettings choice o.entries) fun r => r = o.description choice := by
  unfold operationSettings Operation.description
  dsimp only
  split
  · next h => exact keeps_pure (by simp [h])
  · next h =>
    rw [Bool.not_eq_true] at h
    rw [h, Bool.false_or]
    change Spares ss (if o.details.isEmpty then _ else _) _
    split
    · exact keeps_pure rfl
    · unfold Operation.details
      split
      · next l hl => exact keeps_pure (by rw [hl])
      · exact keeps_throw _
      · exact keeps_refuse

/-- A missing type is the message without fields. -/
theorem spares_orEmptyText (type : Option Text) :
    Spares ss (orEmptyText type) fun t => t = type.getD emptyType := by
  cases type with
  | none => exact spares_useEmpty
  | some t => exact keeps_pure rfl

theorem spares_orEmpty (type : Option Name) :
    Spares ss (orEmpty type) fun t => t = type.getD (.text emptyType) := by
  cases type with
  | none => exact keeps_map spares_useEmpty fun t ht => by rw [ht]; rfl
  | some t => exact keeps_pure rfl

/-- The method that is declared is that of the operation, given that its types are. -/
theorem services_declareMethod {o : Operation} {place : Nat} {input : Option Text}
    {output : Option Name} (hinput : input.getD emptyType = requestType o.entries o.methodName)
    (houtput : output.getD (.text emptyType) = responseType o.entries o.methodName) {u : Unit}
    (h : Ends (declareMethod choice o.path o.verb o.entries place o.methodName input output)
      p u q) :
    q.file.services = p.file.services.modify place
      fun s => { s with methods := s.methods ++ [o.method choice] } := by
  obtain ⟨input, s₁, h₁, h⟩ := ends_bind.1 h
  obtain ⟨output, s₂, h₂, h⟩ := ends_bind.1 h
  obtain ⟨route, s₃, h₃, h⟩ := ends_bind.1 h
  obtain ⟨details, s₄, h₄, h⟩ := ends_bind.1 h
  obtain ⟨hs₁, rfl⟩ := (spares_orEmptyText _).of_ends h₁ rfl
  obtain ⟨hs₂, rfl⟩ := (spares_orEmpty _).of_ends h₂ hs₁
  obtain ⟨hs₃, rfl⟩ := (spares_routeSettings o).of_ends h₃ hs₂
  obtain ⟨hs₄, rfl⟩ := (spares_operationSettings o).of_ends h₄ hs₃
  rw [ends_modify.1 h, ← hs₄, hinput, houtput]
  rfl

/-- Converting an operation changes the services by the operation alone. -/
theorem services_addOperation {o : Operation} {u : Unit}
    (h : Ends (addOperation choice o.path o.verb o.entries) p u q) :
    q.file.services = serve choice p.file.services o := by
  obtain ⟨service, s₁, htag, h₁⟩ := ends_bind.1 h
  obtain ⟨hs₁, rfl⟩ := (spares_firstTag _).of_ends htag rfl
  obtain ⟨place, s₂, hopen, h₂⟩ := ends_bind.1 h₁
  obtain ⟨rfl, rfl⟩ := ends_openService hopen
  -- From here on the services are those of the opened draft, until the method is declared.
  obtain ⟨_, s₃, hnote, h₃⟩ := ends_bind.1 h₂
  obtain ⟨hs₃, -⟩ := (spares_note _).of_ends hnote rfl
  obtain ⟨input, s₄, hrequest, h₄⟩ := ends_bind.1 h₃
  obtain ⟨hs₄, hinput⟩ := (keeps_within (spares_request _ _) _ _).of_ends hrequest hs₃
  obtain ⟨output, s₅, hresponse, h₅⟩ := ends_bind.1 h₄
  obtain ⟨hs₅, houtput⟩ := (keeps_within (spares_response _ _) _ _).of_ends hresponse hs₄
  obtain ⟨_, _, hget, h₆⟩ := ends_bind.1 h₅
  obtain ⟨rfl, rfl⟩ := ends_get.1 hget
  -- Both types are known now, and the service is where it has been opened.
  have hopened : s₅.file.services = withService p.file.services o.service := by
    rw [hs₅, ← hs₁]
    exact services_addService _ _
  have hplace : s₁.file.placeOf o.service =
      p.file.services.findIdx fun s => s.name.equals o.service := by
    rw [← hs₁]
    rfl
  have hserve := serve_eq choice p.file.services o
  dsimp only at hserve
  rw [← hopened, ← hplace] at hserve
  rw [hserve]
  dsimp only at h₆
  split at h₆
  · next hmethod =>
    obtain ⟨-, rfl⟩ := ends_pure.1 h₆
    exact (if_pos hmethod).symm
  · next hmethod =>
    rw [services_declareMethod hinput houtput h₆]
    exact (if_neg hmethod).symm

/-! ## All operations -/

theorem spares_entries (v : Value) : Spares ss (entries v) fun es => es = entriesOf v :=
  keeps_entries_eq v

theorem spares_mapping (v : Value) : Spares ss (mapping v) fun es => v = .map es :=
  keeps_mapping_eq v

theorem services_addPathItem {path item : Value} {vs : List Text} {u : Unit}
    (h : Ends (addPathItem choice path (entriesOf item) vs) p u q) :
    q.file.services = (operationsAt path item vs).foldl (serve choice) p.file.services := by
  induction vs generalizing p with
  | nil =>
    obtain ⟨-, rfl⟩ := ends_pure.1 h
    rfl
  | cons verb rest ih =>
    unfold addPathItem at h
    cases hpart : part (entriesOf item) verb with
    | null =>
      -- The path has no operation of the verb.
      have hnone : operationsAt path item (verb :: rest) = operationsAt path item rest := by
        rw [operationsAt, List.filterMap_cons, hpart, operationsAt]
      simp only [hpart] at h
      rw [hnone]
      exact ih h
    | map es =>
      have hsome : operationsAt path item (verb :: rest) =
          ⟨path, verb, es⟩ :: operationsAt path item rest := by
        rw [operationsAt, List.filterMap_cons, hpart, operationsAt]
      simp only [hpart] at h
      obtain ⟨operation, s, hmapping, h₁⟩ := ends_bind.1 h
      obtain ⟨rfl, rfl⟩ := ends_pure.1 hmapping
      obtain ⟨_, t, hoperation, hrest⟩ := ends_bind.1 h₁
      have hstep := services_addOperation (o := ⟨path, verb, es⟩) hoperation
      rw [hsome, List.foldl_cons, ← hstep]
      exact ih hrest
    | _ =>
      -- Other data is no operation, and the conversion fails.
      simp only [hpart] at h
      obtain ⟨_, _, hmapping, -⟩ := ends_bind.1 h
      exact absurd hmapping ends_throw

theorem services_addPaths {paths : List (Value × Value)} {u : Unit}
    (h : Ends (addPaths choice paths) p u q) :
    q.file.services = (operationsIn paths).foldl (serve choice) p.file.services := by
  induction paths generalizing p with
  | nil =>
    obtain ⟨-, rfl⟩ := ends_pure.1 h
    rfl
  | cons e rest ih =>
    obtain ⟨path, item⟩ := e
    unfold addPaths at h
    obtain ⟨es, s, hmapping, h₁⟩ := ends_bind.1 h
    obtain ⟨hs, rfl⟩ := (spares_mapping item).of_ends hmapping rfl
    obtain ⟨_, t, hpath, hrest⟩ := ends_bind.1 h₁
    have hstep : t.file.services =
        (operationsAt path (.map es) verbs).foldl (serve choice) s.file.services :=
      services_addPathItem hpath
    rw [operationsIn, List.flatMap_cons, List.foldl_append, ← hs, ← hstep]
    exact ih hrest

theorem spares_addComponents (schemas : List (Value × Value)) :
    Spares ss (addComponents schemas) fun _ => True := by
  induction schemas with
  | nil =>
    unfold addComponents
    exact keeps_pure trivial
  | cons e rest ih =>
    obtain ⟨name, schema⟩ := e
    unfold addComponents
    refine keeps_bind (spares_note _) fun _ _ => ?_
    refine keeps_bind (keeps_within (Piece.spares_ofSchema _ name none) _ _) ?_
    rintro ⟨piece, parent⟩ -
    have hdeclare : ∀ f, (declareComponent name piece f).services = f.services := by
      intro f
      cases piece <;> rfl
    exact keeps_bind (spares_update hdeclare) fun _ _ => ih

theorem spares_importIf (wanted : Bool) (path : Text) :
    Spares ss (importIf wanted path) fun _ => True := by
  unfold importIf
  split
  · exact spares_update fun _ => rfl
  · exact keeps_pure trivial

/-- Converting a document changes the services by its operations, one after the other. -/
theorem services_addDocument {doc : Value} {u : Unit} (h : Ends (addDocument choice doc) p u q) :
    q.file.services = (operationsOf doc).foldl (serve choice) p.file.services := by
  obtain ⟨es, s₁, hmapping, h₁⟩ := ends_bind.1 h
  obtain ⟨hs₁, rfl⟩ := (spares_mapping doc).of_ends hmapping rfl
  obtain ⟨components, s₂, hcomponents, h₂⟩ := ends_bind.1 h₁
  obtain ⟨hs₂, rfl⟩ := (spares_entries _).of_ends hcomponents hs₁
  obtain ⟨schemas, s₃, hschemas, h₃⟩ := ends_bind.1 h₂
  obtain ⟨hs₃, rfl⟩ := (spares_entries _).of_ends hschemas hs₂
  obtain ⟨_, s₄, hdeclared, h₄⟩ := ends_bind.1 h₃
  obtain ⟨hs₄, -⟩ := (spares_addComponents _).of_ends hdeclared hs₃
  obtain ⟨paths, s₅, hpaths, h₅⟩ := ends_bind.1 h₄
  obtain ⟨hs₅, rfl⟩ := (spares_entries _).of_ends hpaths hs₄
  -- The operations come after the components and before the imports, neither of which is a service.
  obtain ⟨_, s₆, hoperations, h₆⟩ := ends_bind.1 h₅
  have hserved := services_addPaths hoperations
  obtain ⟨_, s₇, himport, h₇⟩ := ends_bind.1 h₆
  obtain ⟨hs₇, -⟩ := (spares_importIf _ _).of_ends himport hserved
  obtain ⟨hq, -⟩ := (spares_importIf _ _).of_ends h₇ hs₇
  rw [hq, hs₅]
  rfl

end Conversion

/-! ## Services of a document -/

/-- Methods that are offered one after the other. -/
theorem Service.foldl_offer (n : Name) (ms new : List Method) :
    new.foldl Service.offer ⟨n, ms⟩ = ⟨n, new.foldl (addUnless Method.sameName) ms⟩ := by
  induction new generalizing ms with
  | nil => rfl
  | cons m rest ih => rw [List.foldl_cons, List.foldl_cons, ← ih, Service.offer]

/-- Operations that are served one after the other leave a service for each group with one tag. -/
theorem foldl_serve (choice : OptionChoice) (os : List Operation) :
    os.foldl (serve choice) [] =
      (gather Operation.sameService os).map (groupService choice) := by
  have hname : ∀ (s : Service) (o : Operation), s.name.equals o.service = true →
      (fun o' => (s.offer (o.method choice)).name.equals (Operation.service o')) =
        fun o' => s.name.equals o'.service := fun _ _ _ => rfl
  have hserve : serve choice = upsert (fun s o => s.name.equals o.service)
      (fun o => ⟨o.service, [o.method choice]⟩) fun s o => s.offer (o.method choice) := rfl
  rw [hserve, foldl_upsert hname]
  refine List.map_congr_left fun g _ => ?_
  -- The first operation of a group starts the service, and each of the others offers its method.
  have hfold : ∀ s : Service, g.2.foldl (fun s o => s.offer (o.method choice)) s =
      (g.2.map (Operation.method choice)).foldl Service.offer s := fun s => by rw [List.foldl_map]
  have hstart : [g.1.method choice] = addUnless Method.sameName [] (g.1.method choice) := rfl
  rw [hfold, Service.foldl_offer, hstart, ← List.foldl_cons, ← List.map_cons, foldl_addUnless_nil,
    firsts_map]
  rfl

theorem text_equals {v : Value} {t : Text} : (Value.text t).equals v = true ↔ v = .text t := by
  constructor
  · exact fun h => (alikeText_of_equals h t).1 rfl
  · rintro rfl
    exact equals_text.2 rfl

theorem equals_text_comm (v : Value) (t : Text) : (Value.text t).equals v = v.equals (.text t) := by
  rw [Bool.eq_iff_iff, text_equals, equals_text]

/-- A group whose service is named by a text has all operations of the service. -/
theorem group_of_text {os : List Operation} {g : Operation × List Operation} {t : Text}
    (hg : g ∈ gather Operation.sameService os) (ht : g.1.service = .text t) :
    g.1 :: g.2 = os.filter fun o => o.service.equals (.text t) := by
  -- Where one of two services is named by a text, they are equal only if they are the same.
  have hkey : ∀ x ∈ os, ∀ y ∈ os, x.service = g.1.service ∨ y.service = g.1.service →
      (x.sameService y = true ↔ x.service = y.service) := by
    intro x _ y _ h
    rw [ht] at h
    rcases h with hx | hy
    · rw [Operation.sameService, hx, text_equals, eq_comm]
    · rw [Operation.sameService, hy, equals_text]
  have hgroup : g.1 :: g.2 = os.filter (g.1.sameService ·) := cons_of_mem_gather hg hkey
  rw [hgroup]
  refine List.filter_congr fun o _ => ?_
  rw [Operation.sameService, ht, equals_text_comm]

/-- The first of operations that have a method name in common makes the method. -/
theorem exists_of_mem_methods {choice : OptionChoice} {os : List Operation} {m : Method} {n : Text}
    (hm : m ∈ (firsts Operation.sameMethod os).map (Operation.method choice))
    (hn : m.name = .text n) :
    ∃ o, os.find? (fun o => o.methodName.equals (.text n)) = some o ∧ m = o.method choice := by
  obtain ⟨o, ho, rfl⟩ := List.mem_map.1 hm
  have hname : o.methodName = .text n := hn
  have hself : o.sameMethod o = true := by rw [Operation.sameMethod, hname, equals_text]
  have hfind : os.find? (fun y => y.sameMethod o) = some o := by
    refine find?_of_mem_firsts ho hself fun a y hay hyo => ?_
    rw [Operation.sameMethod, hname, equals_text] at hyo
    rw [Operation.sameMethod, hyo] at hay
    rw [Operation.sameMethod, hname]
    exact hay
  refine ⟨o, ?_, rfl⟩
  rw [← hname]
  exact hfind

/-- The names of services are the distinct tags, in the order in which they first appear. -/
theorem names_groupService (choice : OptionChoice) (os : List Operation) :
    ((gather Operation.sameService os).map (groupService choice)).map Service.name =
      firsts Value.equals (os.map Operation.service) := by
  have hname : Service.name ∘ groupService choice = Operation.service ∘ Prod.fst := rfl
  rw [List.map_map, hname, ← List.map_map, map_fst_gather, firsts_map]
  rfl

/-- The names of methods are the distinct method names of the operations. -/
theorem names_methods (choice : OptionChoice) (os : List Operation) :
    ((firsts Operation.sameMethod os).map (Operation.method choice)).map Method.name =
      firsts Value.equals (os.map Operation.methodName) := by
  rw [List.map_map, firsts_map]
  rfl

/-- The services of a draft are the groups of the operations with one tag, in the order of the first
    tags, and the methods of a service are the distinct names of its operations.  Of the operations
    of a service that share a method name, the first one alone makes the method. -/
theorem served_by_first_operations {choice : OptionChoice} {package : Option Text} {doc : Value}
    {file : File} {notices : List Notice}
    (h : ofDocument choice package doc = (.ok file, notices)) :
    file.services = (gather Operation.sameService (operationsOf doc)).map (groupService choice) ∧
    file.services.map Service.name =
      firsts Value.equals ((operationsOf doc).map Operation.service) ∧
    ∀ s ∈ file.services, ∀ t, s.name = .text t →
      s.methods.map Method.name =
        firsts Value.equals (((operationsOf doc).filter
          fun o => o.service.equals (.text t)).map Operation.methodName) ∧
      ∀ m ∈ s.methods, ∀ n, m.name = .text n → ∃ o, m = o.method choice ∧
        (operationsOf doc).find?
          (fun o => o.service.equals (.text t) && o.methodName.equals (.text n)) = some o := by
  obtain ⟨name, p, q, hp, hends, rfl⟩ := ends_of_ofDocument h
  have hservices : q.file.services =
      (gather Operation.sameService (operationsOf doc)).map (groupService choice) := by
    rw [Conversion.services_addDocument hends, hp]
    exact foldl_serve choice _
  rw [hservices]
  refine ⟨rfl, names_groupService choice _, fun s hs t ht => ?_⟩
  obtain ⟨g, hg, rfl⟩ := List.mem_map.1 hs
  -- The group is what the name filters out, as its key is a text.
  rw [groupService, group_of_text hg ht]
  refine ⟨names_methods choice _, fun m hm n hn => ?_⟩
  obtain ⟨o, ho, hmethod⟩ := exists_of_mem_methods hm hn
  refine ⟨o, hmethod, ?_⟩
  simpa only [List.find?_filter, Bool.decide_and, Bool.decide_eq_true] using ho

/-- A document with operations of the tag `Pets` and one without a tag.  Two of the operations share
    the method name `Get`: the first one has a response, the other one a body. -/
def petsDocument : Value :=
  let media (schema : Value.Entries) : Value :=
    .map [(.text "content", .map [(.text "json", .map schema)])]
  let texts : Value := media [(.text "schema", .map [(.text "type", .text "string")])]
  .map [(.text "paths", .map [
    (.text "/pets/{id}", .map [
      (.text "post", .map [
        (.text "tags", .list [.text "Pets"]), (.text "operationId", .text "Get"),
        (.text "requestBody", texts)]),
      (.text "get", .map [
        (.text "tags", .list [.text "Pets", .text "Shops"]), (.text "operationId", .text "Get"),
        (.text "responses", .map [(.text "200", texts)])])]),
    (.text "/shops", .map [
      (.text "get", .map [
        (.text "parameters", .list [.map [(.text "name", .text "limit"),
          (.text "schema", .map [(.text "type", .text "integer")])]]),
        (.text "responses", .map [(.text "200", texts), (.text "404", texts)])]),
      (.text "head", .map [
        (.text "tags", .list [.text "Pets"]), (.text "operationId", .text "Check"),
        (.text "responses", .map [(.text "200", media [])])])])])]

/-- The name of a service, then the name, the types and the options of each of its methods. -/
def Service.outline (s : Service) : List (List Text) :=
  [Conversion.asShown s.name] :: s.methods.map fun m =>
    [Conversion.asShown m.name, m.input, Conversion.asShown m.output] ++ m.settings.map (·.name)

/-- What becomes of the operations. -/
def petsOutline : List (List (List Text)) :=
  [[["Pets"], ["Get", emptyType, "GetResponse_200", "api.get"], ["Check", emptyType, emptyType]],
    [["DefaultService"], ["GetMethod", "GetMethodRequest", "GetMethod", "api.get"]]]

/-- `Get` takes what its first operation takes, which is nothing, and gives what that one gives. -/
theorem served_petsDraft : ∃ file notices,
    ofDocument {} none petsDocument = (.ok file, notices) ∧
      file.services.map Service.outline = petsOutline ∧
      file.services =
        (gather Operation.sameService (operationsOf petsDocument)).map (groupService {}) ∧
      file.services.map Service.name =
        firsts Value.equals ((operationsOf petsDocument).map Operation.service) ∧
      ∀ s ∈ file.services, ∀ t, s.name = .text t →
        s.methods.map Method.name =
          firsts Value.equals (((operationsOf petsDocument).filter
            fun o => o.service.equals (.text t)).map Operation.methodName) ∧
        ∀ m ∈ s.methods, ∀ n, m.name = .text n → ∃ o, m = o.method {} ∧
          (operationsOf petsDocument).find?
            (fun o => o.service.equals (.text t) && o.methodName.equals (.text n)) = some o := by
  have hcheck : ((ofDocument {} none petsDocument).1.toOption.any fun f =>
      decide (f.services.map Service.outline = petsOutline)) = true := by
    decide +kernel
  obtain ⟨file, notices, h, hfile⟩ := exists_draft_of_any hcheck
  exact ⟨file, notices, h, of_decide_eq_true hfile, served_by_first_operations h⟩

end IdlBridge.Draft
