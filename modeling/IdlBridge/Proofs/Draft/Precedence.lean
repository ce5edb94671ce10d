import IdlBridge.Proofs.Draft.Growth

/-! # Later states of a draft

    A draft `Precedes` another if every declaration keeps its place and its name, and only gains.
    Whatever a step has declared is there in every later draft, so the same step has nothing left to
    do: the first declaration of a name wins.

    One thing can go wrong.  What is declared is looked up by its name, and a name that is not a
    number is found under no name at all.  So the later draft has to be `Findable`.
-/

namespace IdlBridge.Draft

variable {α β : Type}

/-! ## Declarations that stay -/

/-- Each item of the first list is followed up by the item of the second at the same place. -/
inductive Continued (R : α → α → Prop) : List α → List α → Prop where
  | nil (ys : List α) : Continued R [] ys
  | cons {x y : α} {xs ys : List α} :
      R x y → Continued R xs ys → Continued R (x :: xs) (y :: ys)

section Continued

variable {R : α → α → Prop} {xs ys zs : List α}

theorem Continued.refl (h : ∀ x, R x x) (xs : List α) : Continued R xs xs := by
  induction xs with
  | nil => exact .nil _
  | cons x xs ih => exact .cons (h x) ih

theorem Continued.trans (htrans : ∀ x y z, R x y → R y z → R x z) (h : Continued R xs ys)
    (h' : Continued R ys zs) : Continued R xs zs := by
  induction h generalizing zs with
  | nil => exact .nil _
  | cons hxy _ ih =>
    cases h' with
    | cons hyz h' => exact .cons (htrans _ _ _ hxy hyz) (ih h')

theorem Continued.append (h : ∀ x, R x x) (xs ys : List α) : Continued R xs (xs ++ ys) := by
  induction xs with
  | nil => exact .nil _
  | cons x xs ih => exact .cons (h x) ih

theorem Continued.exists_of_mem (h : Continued R xs ys) {x : α} (hx : x ∈ xs) :
    ∃ y ∈ ys, R x y := by
  induction h with
  | nil => cases hx
  | cons hxy _ ih =>
    rcases List.mem_cons.1 hx with rfl | hx
    · exact ⟨_, List.mem_cons_self, hxy⟩
    · obtain ⟨y, hy, hR⟩ := ih hx
      exact ⟨y, List.mem_cons_of_mem _ hy, hR⟩

theorem Continued.getElem? (h : Continued R xs ys) {i : Nat} {x : α} (hx : xs[i]? = some x) :
    ∃ y, ys[i]? = some y ∧ R x y := by
  induction h generalizing i with
  | nil => cases hx
  | cons hxy _ ih =>
    cases i with
    | zero =>
      cases hx
      exact ⟨_, rfl, hxy⟩
    | succ i => exact ih hx

/-- What is found first stays what is found first, if the items that follow it up are alike. -/
theorem Continued.find? (h : Continued R xs ys) {p : α → Bool} (hp : ∀ x y, R x y → p y = p x)
    {x : α} (hx : xs.find? p = some x) : ∃ y, ys.find? p = some y ∧ R x y := by
  induction h with
  | nil => cases hx
  | @cons a b _ _ hab _ ih =>
    rw [List.find?_cons] at hx ⊢
    rw [hp a b hab]
    cases ha : p a with
    | true =>
      rw [ha] at hx
      cases hx
      exact ⟨b, rfl, hab⟩
    | false =>
      rw [ha] at hx
      exact ih hx

theorem Continued.findIdx (h : Continued R xs ys) {p : α → Bool} (hp : ∀ x y, R x y → p y = p x)
    (hany : xs.any p = true) : ys.findIdx p = xs.findIdx p := by
  induction h with
  | nil => cases hany
  | @cons a b _ _ hab _ ih =>
    rw [List.findIdx_cons, List.findIdx_cons, hp a b hab]
    cases ha : p a with
    | true => rfl
    | false =>
      rw [List.any_cons, ha, Bool.false_or] at hany
      rw [cond_false, cond_false, ih hany]

end Continued

/-! ## Items that are there -/

/-- A name is there, itself or another one that is the same. -/
def Named (names : List Name) (name : Name) : Prop :=
  ∃ n ∈ names, n = name ∨ n.same name = true

theorem Named.mono {names names' : List Name} {name : Name} (h : Named names name)
    (hsub : names ⊆ names') : Named names' name := by
  obtain ⟨n, hn, heq⟩ := h
  exact ⟨n, hsub hn, heq⟩

theorem Named.any {key : α → Name} {xs : List α} {name : Name} (h : Named (xs.map key) name)
    (hself : ∀ x ∈ xs, (key x).same (key x) = true) :
    (xs.any fun x => (key x).same name) = true := by
  obtain ⟨n, hn, heq⟩ := h
  obtain ⟨x, hx, rfl⟩ := List.mem_map.1 hn
  refine List.any_eq_true.2 ⟨x, hx, ?_⟩
  rcases heq with rfl | heq
  · exact hself x hx
  · exact heq

theorem named_addNew (key : α → Name) (xs : List α) (x : α) :
    Named ((addNew key xs x).map key) (key x) := by
  unfold addNew
  split
  · next hany =>
    obtain ⟨y, hy, hsame⟩ := List.any_eq_true.1 hany
    exact ⟨key y, List.mem_map_of_mem hy, Or.inr hsame⟩
  · exact ⟨key x, List.mem_map_of_mem (List.mem_append_right _ (List.mem_singleton_self x)),
      Or.inl rfl⟩

theorem named_addAllNew (key : α → Name) (xs new : List α) :
    ∀ x ∈ new, Named ((addAllNew key xs new).map key) (key x) := by
  induction new generalizing xs with
  | nil => simp
  | cons a rest ih =>
    intro x hx
    rcases List.mem_cons.1 hx with rfl | hx
    · exact (named_addNew key xs x).mono (names_addAllNew_subset key _ rest)
    · exact ih _ x hx

theorem addNew_eq_self {key : α → Name} {xs : List α} {x : α}
    (h : (xs.any fun y => (key y).same (key x)) = true) : addNew key xs x = xs := by
  rw [addNew, if_pos h]

theorem addAllNew_eq_self {key : α → Name} {xs new : List α}
    (h : ∀ x ∈ new, (xs.any fun y => (key y).same (key x)) = true) :
    addAllNew key xs new = xs := by
  induction new with
  | nil => rfl
  | cons x rest ih =>
    obtain ⟨hx, hrest⟩ := List.forall_mem_cons.1 h
    show addAllNew key (addNew key xs x) rest = xs
    rw [addNew_eq_self hx]
    exact ih hrest

/-! ## Messages -/

namespace Message

variable {a b m : Message}

/-- The second message is a later state of the first. -/
structure Precedes (a b : Message) : Prop where
  name : b.name = a.name
  fields : a.fields.map Field.name ⊆ b.fields.map Field.name
  messages : a.messages.map Message.name ⊆ b.messages.map Message.name
  enums : a.enums.map Enum.key ⊆ b.enums.map Enum.key
  settings : a.settings.map Setting.key ⊆ b.settings.map Setting.key

theorem Precedes.refl (m : Message) : m.Precedes m :=
  ⟨rfl, List.Subset.refl _, List.Subset.refl _, List.Subset.refl _, List.Subset.refl _⟩

theorem Precedes.trans {c : Message} (h : a.Precedes b) (h' : b.Precedes c) : a.Precedes c where
  name := h'.name.trans h.name
  fields := List.Subset.trans h.fields h'.fields
  messages := List.Subset.trans h.messages h'.messages
  enums := List.Subset.trans h.enums h'.enums
  settings := List.Subset.trans h.settings h'.settings

theorem precedes_merge (a m : Message) : a.Precedes (a.merge m) where
  name := rfl
  fields := names_addAllNew_subset _ _ _
  messages := names_addAllNew_subset _ _ _
  enums := names_addAllNew_subset _ _ _
  settings := names_addAllNew_subset _ _ _

/-- What the second message declares is there in the first under its name. -/
structure Covers (a m : Message) : Prop where
  fields : ∀ fd ∈ m.fields, Named (a.fields.map Field.name) fd.name
  messages : ∀ n ∈ m.messages, Named (a.messages.map Message.name) n.name
  enums : ∀ e ∈ m.enums, Named (a.enums.map Enum.key) e.key
  settings : ∀ s ∈ m.settings, Named (a.settings.map Setting.key) s.key

theorem Covers.mono (h : a.Covers m) (hab : a.Precedes b) : b.Covers m where
  fields fd hfd := (h.fields fd hfd).mono hab.fields
  messages n hn := (h.messages n hn).mono hab.messages
  enums e he := (h.enums e he).mono hab.enums
  settings s hs := (h.settings s hs).mono hab.settings

theorem covers_merge (a m : Message) : (a.merge m).Covers m where
  fields := named_addAllNew _ _ _
  messages := named_addAllNew _ _ _
  enums := named_addAllNew _ _ _
  settings := named_addAllNew _ _ _

theorem covers_self (m : Message) : m.Covers m where
  fields _ hfd := ⟨_, List.mem_map_of_mem hfd, Or.inl rfl⟩
  messages _ hn := ⟨_, List.mem_map_of_mem hn, Or.inl rfl⟩
  enums _ he := ⟨_, List.mem_map_of_mem he, Or.inl rfl⟩
  settings _ hs := ⟨_, List.mem_map_of_mem hs, Or.inl rfl⟩

/-- The names of fields and of nested messages are the same as themselves. -/
structure Findable (m : Message) : Prop where
  fields : ∀ fd ∈ m.fields, fd.name.same fd.name = true
  messages : ∀ n ∈ m.messages, n.name.same n.name = true

instance (m : Message) : Decidable m.Findable :=
  decidable_of_iff ((∀ fd ∈ m.fields, fd.name.same fd.name = true) ∧
      ∀ n ∈ m.messages, n.name.same n.name = true)
    ⟨fun h => ⟨h.1, h.2⟩, fun h => ⟨h.fields, h.messages⟩⟩

/-- A message that covers another one gains nothing from it. -/
theorem Covers.merge_eq_self (h : a.Covers m) (ha : a.Findable) : a.merge m = a := by
  have henum : ∀ e ∈ a.enums, (e.key).same e.key = true := fun _ _ => same_text.2 rfl
  have hsetting : ∀ s ∈ a.settings, (s.key).same s.key = true := fun _ _ => same_text.2 rfl
  obtain ⟨name, fields, messages, enums, settings⟩ := a
  rw [merge, addAllNew_eq_self fun fd hfd => (h.fields fd hfd).any ha.fields,
    addAllNew_eq_self fun n hn => (h.messages n hn).any ha.messages,
    addAllNew_eq_self fun e he => (h.enums e he).any henum,
    addAllNew_eq_self fun s hs => (h.settings s hs).any hsetting]

end Message

/-! ## Services -/

/-- The second service is a later state of the first. -/
structure Service.Precedes (s t : Service) : Prop where
  name : t.name = s.name
  methods : s.methods.map Method.name ⊆ t.methods.map Method.name

theorem Service.Precedes.refl (s : Service) : s.Precedes s := ⟨rfl, List.Subset.refl _⟩

theorem Service.Precedes.trans {s t u : Service} (h : s.Precedes t) (h' : t.Precedes u) :
    s.Precedes u :=
  ⟨h'.name.trans h.name, List.Subset.trans h.methods h'.methods⟩

/-! ## Files -/

namespace File

variable {f g h : File}

/-- The second draft is a later state of the first. -/
structure Precedes (f g : File) : Prop where
  imports : f.imports ⊆ g.imports
  enums : f.enums.map Enum.key ⊆ g.enums.map Enum.key
  messages : Continued Message.Precedes f.messages g.messages
  services : Continued Service.Precedes f.services g.services

theorem Precedes.refl (f : File) : f.Precedes f where
  imports := List.Subset.refl _
  enums := List.Subset.refl _
  messages := .refl Message.Precedes.refl _
  services := .refl Service.Precedes.refl _

theorem Precedes.trans (hfg : f.Precedes g) (hgh : g.Precedes h) : f.Precedes h where
  imports := List.Subset.trans hfg.imports hgh.imports
  enums := List.Subset.trans hfg.enums hgh.enums
  messages := hfg.messages.trans (fun _ _ _ => Message.Precedes.trans) hgh.messages
  services := hfg.services.trans (fun _ _ _ => Service.Precedes.trans) hgh.services

/-- Every declaration is found under its own name.  At the top level and in services names are
    compared, so none of them is something that is not a number. -/
structure Findable (f : File) : Prop where
  messages : ∀ m ∈ f.messages, m.name.equals m.name = true
  services : ∀ s ∈ f.services, s.name.equals s.name = true
  methods : ∀ s ∈ f.services, ∀ m ∈ s.methods, m.name.equals m.name = true
  inner : ∀ m ∈ f.messages, m.Findable

instance (f : File) : Decidable f.Findable :=
  decidable_of_iff ((∀ m ∈ f.messages, m.name.equals m.name = true ∧ m.Findable) ∧
      ∀ s ∈ f.services, s.name.equals s.name = true ∧
        ∀ m ∈ s.methods, m.name.equals m.name = true)
    ⟨fun h => ⟨fun m hm => (h.1 m hm).1, fun s hs => (h.2 s hs).1, fun s hs => (h.2 s hs).2,
        fun m hm => (h.1 m hm).2⟩,
      fun h => ⟨fun m hm => ⟨h.messages m hm, h.inner m hm⟩,
        fun s hs => ⟨h.services s hs, h.methods s hs⟩⟩⟩

theorem precedes_addImport (f : File) (path : Text) : f.Precedes (f.addImport path) where
  imports := (extends_addImport f path).imports
  enums := List.Subset.refl _
  messages := .refl Message.Precedes.refl _
  services := .refl Service.Precedes.refl _

theorem addImport_eq_self {path : Text} (h : (f.addImport path).Precedes g) :
    g.addImport path = g := by
  have hpath : path ∈ g.imports := h.imports (mem_imports_addImport f path)
  rw [addImport, Text.insertNew, if_pos hpath]

theorem precedes_addEnum (f : File) (e : Enum) : f.Precedes (f.addEnum e) where
  imports := List.Subset.refl _
  enums := names_addNew_subset Enum.key f.enums e
  messages := .refl Message.Precedes.refl _
  services := .refl Service.Precedes.refl _

theorem addEnum_eq_self {e : Enum} (h : (f.addEnum e).Precedes g) : g.addEnum e = g := by
  have hnamed := (named_addNew Enum.key f.enums e).mono h.enums
  rw [addEnum, addNew_eq_self (hnamed.any fun _ _ => same_text.2 rfl)]

theorem continued_uniteInto (ms : List Message) (m : Message) :
    Continued Message.Precedes ms (uniteInto ms m) := by
  induction ms with
  | nil => exact .nil _
  | cons a rest ih =>
    rw [uniteInto]
    split
    · exact .cons (Message.precedes_merge a m) (.refl Message.Precedes.refl rest)
    · exact .cons (.refl a) ih

theorem precedes_addMessage (f : File) (m : Message) : f.Precedes (f.addMessage m) where
  imports := List.Subset.refl _
  enums := List.Subset.refl _
  messages := continued_uniteInto f.messages m
  services := .refl Service.Precedes.refl _

/-- After a message has been added, one that covers it is found under its name, unless it is found
    under no name. -/
theorem find?_uniteInto (ms : List Message) (m : Message) :
    (∃ a, (uniteInto ms m).find? (fun x => x.name.equals m.name) = some a ∧ a.Covers m) ∨
      m ∈ uniteInto ms m ∧ m.name.equals m.name = false := by
  induction ms with
  | nil =>
    -- The message is added at the end, where it is found unless its name equals no name.
    cases hself : m.name.equals m.name with
    | true => exact Or.inl ⟨m, List.find?_cons_of_pos hself, m.covers_self⟩
    | false => exact Or.inr ⟨List.mem_cons_self, rfl⟩
  | cons a rest ih =>
    rw [uniteInto]
    by_cases ha : a.name.equals m.name = true
    · rw [if_pos ha]
      have hfind : ((a.merge m) :: rest).find? (fun x => x.name.equals m.name) =
          some (a.merge m) := List.find?_cons_of_pos ha
      exact Or.inl ⟨a.merge m, hfind, Message.covers_merge a m⟩
    · rw [if_neg ha]
      rcases ih with ⟨b, hb, hcovers⟩ | ⟨hmem, hself⟩
      · rw [Bool.not_eq_true] at ha
        exact Or.inl ⟨b, by simp only [List.find?_cons, ha, hb], hcovers⟩
      · exact Or.inr ⟨List.mem_cons_of_mem _ hmem, hself⟩

theorem uniteInto_eq_self {ms : List Message} {m a : Message}
    (hfind : ms.find? (fun x => x.name.equals m.name) = some a) (hmerge : a.merge m = a) :
    uniteInto ms m = ms := by
  induction ms with
  | nil => cases hfind
  | cons b rest ih =>
    rw [uniteInto]
    by_cases hb : b.name.equals m.name = true
    · simp only [List.find?_cons, hb] at hfind
      cases hfind
      rw [if_pos hb, hmerge]
    · rw [if_neg hb]
      rw [Bool.not_eq_true] at hb
      simp only [List.find?_cons, hb] at hfind
      rw [ih hfind]

/-- A message that has been added before is absorbed. -/
theorem addMessage_eq_self {m : Message} (h : (f.addMessage m).Precedes g) (hg : g.Findable) :
    g.addMessage m = g := by
  have hmessages : uniteInto g.messages m = g.messages := by
    rcases find?_uniteInto f.messages m with ⟨a, ha, hcovers⟩ | ⟨hmem, hself⟩
    -- Later states keep their names, so the message is united with the same one as before.
    · have hname : ∀ x y : Message, x.Precedes y → y.name.equals m.name = x.name.equals m.name :=
        fun x y hxy => by rw [hxy.name]
      obtain ⟨b, hb, hab⟩ := h.messages.find? hname ha
      have hfindable := hg.inner b (List.mem_of_find?_eq_some hb)
      exact uniteInto_eq_self hb ((hcovers.mono hab).merge_eq_self hfindable)
    -- A message that is not found under its own name is not there in a findable draft.
    · obtain ⟨b, hb, hmb⟩ := h.messages.exists_of_mem hmem
      have hequal := hg.messages b hb
      rw [hmb.name, hself] at hequal
      cases hequal
  rw [addMessage, hmessages]

/-! ## Services of files -/

theorem precedes_addService (f : File) (name : Name) : f.Precedes (f.addService name) := by
  unfold addService
  split
  · exact .refl f
  · exact
      { imports := List.Subset.refl _
        enums := List.Subset.refl _
        messages := .refl Message.Precedes.refl _
        services := .append Service.Precedes.refl _ _ }

theorem precedes_appendMethod (f : File) (place : Nat) (m : Method) :
    f.Precedes (f.appendMethod place m) where
  imports := List.Subset.refl _
  enums := List.Subset.refl _
  messages := .refl Message.Precedes.refl _
  services := by
    show Continued _ f.services (f.services.modify place _)
    induction f.services generalizing place with
    | nil => exact .nil _
    | cons s rest ih =>
      cases place with
      | zero =>
        have hs : s.Precedes { s with methods := s.methods ++ [m] } :=
          ⟨rfl, by rw [List.map_append]; exact List.subset_append_left _ _⟩
        exact .cons hs (.refl Service.Precedes.refl rest)
      | succ place => exact .cons (.refl s) (ih place)

/-- A service that has been opened is there in every later draft, at its place. -/
theorem any_services_of_precedes {name : Name} (h : (f.addService name).Precedes g)
    (hg : g.Findable) :
    ((f.addService name).services.any fun s => s.name.equals name) = true := by
  unfold addService at h ⊢
  split at h
  · next hsome =>
    rw [if_pos hsome, List.any_eq_true]
    exact List.find?_isSome.1 hsome
  · next hnone =>
    obtain ⟨t, ht, hst⟩ := h.services.exists_of_mem
      (List.mem_append_right _ (List.mem_singleton_self _))
    have hself := hg.services t ht
    rw [hst.name] at hself
    rw [if_neg hnone, List.any_append, Bool.or_eq_true]
    exact Or.inr (by simpa using hself)

theorem placeOf_addService {name : Name}
    (h : ((f.addService name).services.any fun s => s.name.equals name) = true) :
    (f.addService name).placeOf name = f.placeOf name := by
  unfold addService at h ⊢
  split
  · rfl
  · next hnone =>
    have hnew : ∀ s ∈ f.services, s.name.equals name = false := by
      simpa [findService] using hnone
    -- The service is new and stands at the end, where it is found by its own name.
    have hself : name.equals name = true := by
      rw [if_neg hnone, List.any_append, Bool.or_eq_true] at h
      rcases h with h | h
      · obtain ⟨s, hs, hequals⟩ := List.any_eq_true.1 h
        rw [hnew s hs] at hequals
        cases hequals
      · simpa using h
    have hend : f.services.findIdx (fun s => s.name.equals name) = f.services.length :=
      List.findIdx_eq_length.2 hnew
    unfold placeOf
    rw [List.findIdx_append]
    simp [hend, List.findIdx_cons, hself]

theorem placeOf_eq_of_precedes {name : Name} (h : (f.addService name).Precedes g)
    (hg : g.Findable) : g.placeOf name = f.placeOf name := by
  have hany := any_services_of_precedes h hg
  have hname : ∀ s t : Service, s.Precedes t → t.name.equals name = s.name.equals name :=
    fun s t hst => by rw [hst.name]
  rw [← placeOf_addService hany]
  exact h.services.findIdx hname hany

theorem addService_eq_self {name : Name} (h : (f.addService name).Precedes g)
    (hg : g.Findable) : g.addService name = g := by
  obtain ⟨s, hs, hequals⟩ := List.any_eq_true.1 (any_services_of_precedes h hg)
  obtain ⟨t, ht, hst⟩ := h.services.exists_of_mem hs
  have hfound : (g.findService name).isSome = true := by
    unfold findService
    rw [List.find?_isSome]
    exact ⟨t, ht, by rw [hst.name]; exact hequals⟩
  rw [addService, if_pos hfound]

/-- There is a service at the place of a service that has been opened. -/
theorem exists_service (f : File) (name : Name) :
    ∃ s, (f.addService name).services[f.placeOf name]? = some s := by
  have hlt : f.placeOf name < (f.addService name).services.length := by
    unfold addService
    split
    · next hsome =>
      exact List.findIdx_lt_length.2 (List.find?_isSome.1 hsome)
    · show f.placeOf name < (f.services ++ [(⟨name, []⟩ : Service)]).length
      rw [List.length_append]
      exact Nat.lt_succ_of_le List.findIdx_le_length
  exact ⟨_, List.getElem?_eq_getElem hlt⟩

/-! ## Methods -/

/-- The service at the place has a method of the name. -/
def Offers (f : File) (place : Nat) (method : Name) : Prop :=
  ∃ s, f.services[place]? = some s ∧
    ∃ n ∈ s.methods.map Method.name, n = method ∨ n.equals method = true

theorem Offers.mono {place : Nat} {method : Name} (h : f.Offers place method)
    (hfg : f.Precedes g) : g.Offers place method := by
  obtain ⟨s, hs, n, hn, heq⟩ := h
  obtain ⟨t, ht, hst⟩ := hfg.services.getElem? hs
  exact ⟨t, ht, n, hst.methods hn, heq⟩

theorem Offers.hasMethod {place : Nat} {method : Name} (h : f.Offers place method)
    (hf : f.Findable) : (f.services[place]?.any fun s => s.hasMethod method) = true := by
  obtain ⟨s, hs, n, hn, heq⟩ := h
  obtain ⟨m, hm, rfl⟩ := List.mem_map.1 hn
  rw [hs, Option.any_some, Service.hasMethod, List.any_eq_true]
  refine ⟨m, hm, ?_⟩
  rcases heq with rfl | heq
  · exact hf.methods s (List.mem_of_getElem? hs) m hm
  · exact heq

theorem offers_of_hasMethod {place : Nat} {method : Name}
    (h : (f.services[place]?.any fun s => s.hasMethod method) = true) :
    f.Offers place method := by
  rw [Option.any_eq_true] at h
  obtain ⟨s, hs, hmethod⟩ := h
  obtain ⟨m, hm, hequals⟩ := List.any_eq_true.1 hmethod
  exact ⟨s, hs, m.name, List.mem_map_of_mem hm, Or.inr hequals⟩

theorem offers_appendMethod {place : Nat} {s : Service} (h : f.services[place]? = some s)
    (m : Method) : (f.appendMethod place m).Offers place m.name := by
  refine ⟨{ s with methods := s.methods ++ [m] }, ?_, m.name, ?_, Or.inl rfl⟩
  · rw [appendMethod, List.getElem?_modify, h]
    simp
  · rw [List.map_append]
    exact List.mem_append_right _ (List.mem_singleton_self _)

end File

end IdlBridge.Draft
