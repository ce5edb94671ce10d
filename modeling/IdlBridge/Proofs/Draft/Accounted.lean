import IdlBridge.Proofs.Draft.Growth
import IdlBridge.Proofs.Spec.Schemas

/-! # Types that are accounted for

    A draft mentions types in two places: fields have one, and methods have two.  A type is
    accounted for when something explains it: the table of scalars, an import, a reference of the
    document, or a declaration that can be seen from where the type is mentioned.  From a field that
    is the message around it and the top level of the file, from a method the top level only.

    The declaration and the field that needs it are added in different steps, in either order and
    often by different functions.  So what is said of a field is monotone: it survives whatever is
    declared later, in the message (`Message.Within`) and in the file (`File.Extends`).
-/

namespace IdlBridge.Draft

variable {refs : List Text} {f g : File} {m m' : Message} {t : Text}

/-! ## Types of fields -/

/-- Something accounts for the type of a field of the message `m` in the file `f`; `refs` are the
    references of the document that the file has been made from. -/
inductive TypeAccounted (refs : List Text) (f : File) (m : Message) : Text → Prop where
  | scalar {t : Text} : t ∈ ScalarType.ofOpenApi → TypeAccounted refs f m t
  | timestamp : ScalarType.timestampImport ∈ f.imports →
      TypeAccounted refs f m ScalarType.timestamp
  | reference {ref : Text} : ref ∈ refs → TypeAccounted refs f m (Naming.ofReference ref)
  /-- A declaration of the message itself. -/
  | inner {t : Text} : .text t ∈ m.messageNames ∨ .text t ∈ m.enumNames → TypeAccounted refs f m t
  /-- A declaration at the top level. -/
  | outer {t : Text} : .text t ∈ f.messageNames ∨ .text t ∈ f.enumNames → TypeAccounted refs f m t
  | textMap : TypeAccounted refs f m "map<string, string>"
  /-- A map to a message that is declared in the message itself. -/
  | messageMap {t : Text} : .text t ∈ m.messageNames →
      TypeAccounted refs f m ("map<string, " ++ t ++ ">")

theorem TypeAccounted.mono (h : TypeAccounted refs f m t) (hf : f.Extends g) (hm : m.Within m') :
    TypeAccounted refs g m' t := by
  cases h with
  | scalar h => exact .scalar h
  | timestamp h => exact .timestamp (hf.imports h)
  | reference h => exact .reference h
  | inner h => exact .inner (h.imp (hm.messages _) (hm.enums _))
  | outer h => exact .outer (h.imp (fun h => hf.messages h) (fun h => hf.enums h))
  | textMap => exact .textMap
  | messageMap h => exact .messageMap (hm.messages _ h)

/-! ## Messages -/

namespace Message

/-- The types of all fields are accounted for, at any depth of nesting. -/
inductive Accounted (refs : List Text) (f : File) : Message → Prop where
  | intro {m : Message} : (∀ fd ∈ m.fields, TypeAccounted refs f m fd.type) →
      (∀ inner ∈ m.messages, inner.Accounted refs f) → m.Accounted refs f

theorem Accounted.mono (h : m.Accounted refs f) (hf : f.Extends g) : m.Accounted refs g := by
  induction h with
  | intro hfields _ ih => exact .intro (fun fd hfd => (hfields fd hfd).mono hf (.refl _)) ih

theorem accounted_empty (name : Name) : Accounted refs f { name } :=
  .intro (by simp) (by simp)

/-- Fields and messages of an accounted message may be put into one that declares as much. -/
theorem Accounted.of_mem (hm : m.Accounted refs f) (hwithin : m.Within m')
    (hfields : ∀ fd ∈ m'.fields, fd ∈ m.fields ∨ TypeAccounted refs f m' fd.type)
    (hmessages : ∀ inner ∈ m'.messages, inner ∈ m.messages ∨ inner.Accounted refs f) :
    m'.Accounted refs f := by
  obtain ⟨hown, hinner⟩ := hm
  refine .intro (fun fd hfd => ?_) (fun inner hin => ?_)
  · rcases hfields fd hfd with hfd | hfd
    · exact (hown fd hfd).mono (.refl f) hwithin
    · exact hfd
  · rcases hmessages inner hin with hin | hin
    · exact hinner inner hin
    · exact hin

theorem Accounted.addField (hm : m.Accounted refs f) {fd : Field}
    (hfd : TypeAccounted refs f m fd.type) : (m.addField fd).Accounted refs f := by
  have hwithin := within_addField m fd
  refine hm.of_mem hwithin (fun x hx => ?_) fun inner hin => Or.inl hin
  rcases mem_addNew hx with hx | rfl
  · exact Or.inl hx
  · exact Or.inr (hfd.mono (.refl f) hwithin)

theorem Accounted.addMessage {nested : Message} (hm : m.Accounted refs f)
    (hnested : nested.Accounted refs f) : (m.addMessage nested).Accounted refs f := by
  refine hm.of_mem (within_addMessage m nested) (fun fd hfd => Or.inl hfd) fun inner hin => ?_
  rcases mem_addNew hin with hin | rfl
  · exact Or.inl hin
  · exact Or.inr hnested

theorem Accounted.addEnum (hm : m.Accounted refs f) (e : Enum) : (m.addEnum e).Accounted refs f :=
  hm.of_mem (within_addEnum m e) (fun _ hfd => Or.inl hfd) fun _ hin => Or.inl hin

/-- A field that comes from the other message finds what accounts for it in the united one. -/
theorem Accounted.merge {other : Message} (hm : m.Accounted refs f)
    (hother : other.Accounted refs f) : (m.merge other).Accounted refs f := by
  obtain ⟨hfields, hinner⟩ := hother
  refine hm.of_mem (within_merge_left m other) (fun fd hfd => ?_) fun inner hin => ?_
  · -- A declaration that the other message loses has been there under its name before.
    rcases mem_addAllNew hfd with hfd | hfd
    · exact Or.inl hfd
    · exact Or.inr ((hfields fd hfd).mono (.refl f) (within_merge_right m other))
  · rcases mem_addAllNew hin with hin | hin
    · exact Or.inl hin
    · exact Or.inr (hinner inner hin)

theorem text_mem_messageNames_addMessage (m : Message) {nested : Message}
    (h : nested.name = .text t) : .text t ∈ (m.addMessage nested).messageNames :=
  text_mem_names_addNew m.messages h

theorem text_mem_enumNames_addEnum (m : Message) (e : Enum) :
    .text e.name ∈ (m.addEnum e).enumNames :=
  text_mem_names_addNew m.enums rfl

end Message

/-! ## Files -/

namespace File

/-- The type of a request or a response is the message without fields, imported, or a message at the
    top level. -/
def MethodTypeAccounted (f : File) (type : Name) : Prop :=
  (type = .text emptyType ∧ emptyImport ∈ f.imports) ∨ f.Declares type

/-- Every type that the file mentions is accounted for. -/
structure Accounted (refs : List Text) (f : File) : Prop where
  messages : ∀ m ∈ f.messages, m.Accounted refs f
  methods : ∀ s ∈ f.services, ∀ m ∈ s.methods,
    f.MethodTypeAccounted (.text m.input) ∧ f.MethodTypeAccounted m.output

theorem MethodTypeAccounted.mono {type : Name} (h : f.MethodTypeAccounted type)
    (hf : f.Extends g) : g.MethodTypeAccounted type := by
  rcases h with ⟨rfl, h⟩ | h
  · exact Or.inl ⟨rfl, hf.imports h⟩
  · exact Or.inr (hf.declares h)

theorem accounted_empty (package : Text) : Accounted refs { package } := by
  constructor <;> simp

/-- A step keeps a file accounted for if the messages and the methods it brings are. -/
theorem Accounted.of_extends (h : f.Accounted refs) (hext : f.Extends g)
    (hmessages : ∀ m ∈ g.messages, m ∈ f.messages ∨ m.Accounted refs g)
    (hmethods : ∀ s ∈ g.services, ∀ m ∈ s.methods, (∃ s' ∈ f.services, m ∈ s'.methods) ∨
      (g.MethodTypeAccounted (.text m.input) ∧ g.MethodTypeAccounted m.output)) :
    g.Accounted refs where
  messages := by
    intro m hm
    rcases hmessages m hm with hm | hm
    · exact (h.messages m hm).mono hext
    · exact hm
  methods := by
    intro s hs m hm
    rcases hmethods s hs m hm with ⟨s', hs', hm'⟩ | hm'
    · obtain ⟨hinput, houtput⟩ := h.methods s' hs' m hm'
      exact ⟨hinput.mono hext, houtput.mono hext⟩
    · exact hm'

theorem Accounted.addImport (h : f.Accounted refs) (path : Text) :
    (f.addImport path).Accounted refs :=
  h.of_extends (extends_addImport f path) (fun _ hm => Or.inl hm)
    fun s hs _ hm => Or.inl ⟨s, hs, hm⟩

theorem Accounted.addEnum (h : f.Accounted refs) (e : Enum) : (f.addEnum e).Accounted refs :=
  h.of_extends (extends_addEnum f e) (fun _ hm => Or.inl hm) fun s hs _ hm => Or.inl ⟨s, hs, hm⟩

/-- What a message is united with counts as new, and is accounted for when both parts are. -/
theorem mem_uniteInto {ms : List Message} {m x : Message} (h : x ∈ uniteInto ms m) :
    x ∈ ms ∨ x = m ∨ ∃ a ∈ ms, x = a.merge m := by
  induction ms with
  | nil => exact Or.inr (Or.inl (List.mem_singleton.1 h))
  | cons a rest ih =>
    rw [uniteInto] at h
    split at h
    · rcases List.mem_cons.1 h with rfl | h
      · exact Or.inr (Or.inr ⟨a, List.mem_cons_self, rfl⟩)
      · exact Or.inl (List.mem_cons_of_mem _ h)
    · rcases List.mem_cons.1 h with rfl | h
      · exact Or.inl List.mem_cons_self
      · rcases ih h with h | h | ⟨b, hb, h⟩
        · exact Or.inl (List.mem_cons_of_mem _ h)
        · exact Or.inr (Or.inl h)
        · exact Or.inr (Or.inr ⟨b, List.mem_cons_of_mem _ hb, h⟩)

theorem Accounted.addMessage (h : f.Accounted refs) (hm : m.Accounted refs f) :
    (f.addMessage m).Accounted refs := by
  have hext := extends_addMessage f m
  refine h.of_extends hext (fun x hx => ?_) fun s hs _ hm => Or.inl ⟨s, hs, hm⟩
  rcases mem_uniteInto hx with hx | rfl | ⟨a, ha, rfl⟩
  · exact Or.inl hx
  · exact Or.inr (hm.mono hext)
  · exact Or.inr (((h.messages a ha).mono hext).merge (hm.mono hext))

theorem messages_addService (f : File) (name : Name) :
    (f.addService name).messages = f.messages := by
  unfold File.addService
  split <;> rfl

/-- A service that is created has no methods. -/
theorem exists_of_mem_addService {name : Name} {s : Service} {x : Method}
    (hs : s ∈ (f.addService name).services) (hx : x ∈ s.methods) :
    ∃ s' ∈ f.services, x ∈ s'.methods := by
  unfold File.addService at hs
  split at hs
  · exact ⟨s, hs, hx⟩
  · rcases List.mem_append.1 hs with hs | hs
    · exact ⟨s, hs, hx⟩
    · rw [List.mem_singleton.1 hs] at hx
      cases hx

theorem exists_of_mem_appendMethod {f : File} {place : Nat} {m x : Method} {s : Service}
    (hs : s ∈ (f.appendMethod place m).services) (hx : x ∈ s.methods) :
    x = m ∨ ∃ s' ∈ f.services, x ∈ s'.methods := by
  rcases mem_appendMethod hs with hs | ⟨s', hs', rfl⟩
  · exact Or.inr ⟨s, hs, hx⟩
  · rcases List.mem_append.1 hx with hx | hx
    · exact Or.inr ⟨s', List.mem_of_getElem? hs', hx⟩
    · exact Or.inl (List.mem_singleton.1 hx)

theorem Accounted.addService (h : f.Accounted refs) (name : Name) :
    (f.addService name).Accounted refs := by
  refine h.of_extends (extends_addService f name) (fun m hm => ?_)
    fun s hs x hx => Or.inl (exists_of_mem_addService hs hx)
  rw [messages_addService] at hm
  exact Or.inl hm

theorem Accounted.appendMethod (h : f.Accounted refs) (place : Nat) {x : Method}
    (hinput : f.MethodTypeAccounted (.text x.input)) (houtput : f.MethodTypeAccounted x.output) :
    (f.appendMethod place x).Accounted refs := by
  have hext := extends_appendMethod f place x
  refine h.of_extends hext (fun m hm => Or.inl hm) fun s hs y hy => ?_
  -- The method is the new one, or one of a service that has been there before.
  rcases exists_of_mem_appendMethod hs hy with rfl | hy
  · exact Or.inr ⟨hinput.mono hext, houtput.mono hext⟩
  · exact Or.inl hy

end File

end IdlBridge.Draft
