import IdlBridge.Draft.Basic
import IdlBridge.Proofs.Text
import Mathlib.Data.List.Nodup

/-! # Drafts without repetition

    In a distinct draft no two declarations of one kind and one scope have the same name.  For
    messages this goes all the way down: it is a property of the message, of the messages declared
    inside it, and so on.  Everything that adds to a draft keeps it; the only step with a condition
    of its own is the method, which is appended without a look at the service.
-/

namespace IdlBridge.Draft

variable {α : Type}

/-- No two of the items have the same key. -/
def Apart (key : α → Name) (xs : List α) : Prop :=
  xs.Pairwise fun a b => (key a).same (key b) = false

/-- No two of the items have equal names. -/
def Unequal (key : α → Name) (xs : List α) : Prop :=
  xs.Pairwise fun a b => (key a).equals (key b) = false

/-- No two declarations inside the message have the same name, at any depth. -/
inductive Message.Distinct : Message → Prop where
  | intro {m : Message} : Apart Field.name m.fields → Apart Message.name m.messages →
      Apart Enum.key m.enums → (∀ inner ∈ m.messages, inner.Distinct) → m.Distinct

/-- No two declarations of one kind in the file have the same name; what is found by comparing names
    has no two that are equal. -/
structure File.Distinct (f : File) : Prop where
  imports : f.imports.Nodup
  messages : Unequal Message.name f.messages
  enums : Apart Enum.key f.enums
  services : Unequal Service.name f.services
  methods : ∀ s ∈ f.services, Unequal Method.name s.methods
  inner : ∀ m ∈ f.messages, m.Distinct

/-! ## Adding items -/

theorem mem_addNew {key : α → Name} {xs : List α} {x y : α} (h : y ∈ addNew key xs x) :
    y ∈ xs ∨ y = x := by
  unfold addNew at h
  split at h
  · exact Or.inl h
  · rcases List.mem_append.1 h with h | h
    · exact Or.inl h
    · exact Or.inr (List.mem_singleton.1 h)

theorem Apart.addNew {key : α → Name} {xs : List α} (h : Apart key xs) (x : α) :
    Apart key (addNew key xs x) := by
  unfold Draft.addNew
  split
  · exact h
  · next hnew =>
    refine List.pairwise_append.2 ⟨h, List.pairwise_singleton _ _, fun y hy z hz => ?_⟩
    rw [List.mem_singleton.1 hz]
    cases hsame : (key y).same (key x) with
    | false => rfl
    | true => exact absurd (List.any_eq_true.2 ⟨y, hy, hsame⟩) hnew

theorem mem_addAllNew {key : α → Name} {xs new : List α} {y : α} (h : y ∈ addAllNew key xs new) :
    y ∈ xs ∨ y ∈ new := by
  induction new generalizing xs with
  | nil => exact Or.inl h
  | cons x rest ih =>
    rcases ih h with h | h
    · rcases mem_addNew h with h | rfl
      · exact Or.inl h
      · exact Or.inr List.mem_cons_self
    · exact Or.inr (List.mem_cons_of_mem _ h)

theorem Apart.addAllNew {key : α → Name} {xs : List α} (h : Apart key xs) (new : List α) :
    Apart key (addAllNew key xs new) := by
  induction new generalizing xs with
  | nil => exact h
  | cons x rest ih => exact ih (h.addNew x)

/-! ## Messages -/

namespace Message

theorem distinct_empty (name : Name) : Distinct { name } :=
  .intro .nil .nil .nil (by simp)

theorem distinct_single (name : Name) (f : Field) : Distinct { name, fields := [f] } :=
  .intro (List.pairwise_singleton _ _) .nil .nil (by simp)

theorem Distinct.addField {m : Message} (h : m.Distinct) (f : Field) : (m.addField f).Distinct := by
  obtain ⟨hfields, hmessages, henums, hinner⟩ := h
  exact .intro (hfields.addNew f) hmessages henums hinner

theorem Distinct.addMessage {m nested : Message} (h : m.Distinct) (hnested : nested.Distinct) :
    (m.addMessage nested).Distinct := by
  obtain ⟨hfields, hmessages, henums, hinner⟩ := h
  refine .intro hfields (hmessages.addNew nested) henums fun inner hin => ?_
  rcases mem_addNew hin with hin | rfl
  · exact hinner inner hin
  · exact hnested

theorem Distinct.addEnum {m : Message} (h : m.Distinct) (e : Enum) : (m.addEnum e).Distinct := by
  obtain ⟨hfields, hmessages, henums, hinner⟩ := h
  exact .intro hfields hmessages (henums.addNew e) hinner

theorem Distinct.merge {m other : Message} (h : m.Distinct) (hother : other.Distinct) :
    (m.merge other).Distinct := by
  obtain ⟨hfields, hmessages, henums, hinner⟩ := h
  obtain ⟨-, -, -, hinner'⟩ := hother
  refine .intro (hfields.addAllNew _) (hmessages.addAllNew _) (henums.addAllNew _)
    fun inner hin => ?_
  rcases mem_addAllNew hin with hin | hin
  · exact hinner inner hin
  · exact hinner' inner hin

end Message

/-! ## Files -/

namespace File

theorem distinct_empty (package : Text) : Distinct { package } := by
  constructor <;> simp [Apart, Unequal]

theorem Distinct.addImport {f : File} (h : f.Distinct) (path : Text) :
    (f.addImport path).Distinct where
  imports := Text.nodup_insertNew h.imports path
  messages := h.messages
  enums := h.enums
  services := h.services
  methods := h.methods
  inner := h.inner

theorem Distinct.addEnum {f : File} (h : f.Distinct) (e : Enum) : (f.addEnum e).Distinct where
  imports := h.imports
  messages := h.messages
  enums := h.enums.addNew e
  services := h.services
  methods := h.methods
  inner := h.inner

/-- Uniting keeps the names that are there, and adds at most that of the new message. -/
theorem name_of_mem_uniteInto {ms : List Message} {m b : Message} (h : b ∈ uniteInto ms m) :
    b.name = m.name ∨ ∃ a ∈ ms, b.name = a.name := by
  induction ms with
  | nil => exact Or.inl (by rw [List.mem_singleton.1 h])
  | cons a rest ih =>
    rw [uniteInto] at h
    split at h
    · rcases List.mem_cons.1 h with rfl | h
      · exact Or.inr ⟨a, List.mem_cons_self, rfl⟩
      · exact Or.inr ⟨b, List.mem_cons_of_mem _ h, rfl⟩
    · rcases List.mem_cons.1 h with rfl | h
      · exact Or.inr ⟨b, List.mem_cons_self, rfl⟩
      · obtain h | ⟨c, hc, h⟩ := ih h
        · exact Or.inl h
        · exact Or.inr ⟨c, List.mem_cons_of_mem _ hc, h⟩

theorem unequal_uniteInto {ms : List Message} (h : Unequal Message.name ms) (m : Message) :
    Unequal Message.name (uniteInto ms m) := by
  induction ms with
  | nil => exact List.pairwise_singleton _ _
  | cons a rest ih =>
    obtain ⟨ha, hrest⟩ := List.pairwise_cons.1 h
    rw [uniteInto]
    split
    · exact List.pairwise_cons.2 ⟨ha, hrest⟩
    · next hname =>
      refine List.pairwise_cons.2 ⟨fun b hb => ?_, ih hrest⟩
      rcases name_of_mem_uniteInto hb with hb | ⟨c, hc, hb⟩
      · rw [hb]
        simpa using hname
      · rw [hb]
        exact ha c hc

theorem distinct_of_mem_uniteInto {ms : List Message} (h : ∀ a ∈ ms, a.Distinct) {m : Message}
    (hm : m.Distinct) : ∀ b ∈ uniteInto ms m, b.Distinct := by
  induction ms with
  | nil => simpa [uniteInto] using hm
  | cons a rest ih =>
    obtain ⟨ha, hrest⟩ := List.forall_mem_cons.1 h
    rw [uniteInto]
    split
    · exact List.forall_mem_cons.2 ⟨ha.merge hm, hrest⟩
    · exact List.forall_mem_cons.2 ⟨ha, ih hrest⟩

theorem Distinct.addMessage {f : File} (h : f.Distinct) {m : Message} (hm : m.Distinct) :
    (f.addMessage m).Distinct where
  imports := h.imports
  messages := unequal_uniteInto h.messages m
  enums := h.enums
  services := h.services
  methods := h.methods
  inner := distinct_of_mem_uniteInto h.inner hm

/-! ## Services -/

theorem Distinct.addService {f : File} (h : f.Distinct) (name : Name) :
    (f.addService name).Distinct := by
  unfold File.addService
  split
  · exact h
  · next hnone =>
    have hnew : ∀ s ∈ f.services, s.name.equals name = false := by
      simpa [findService] using hnone
    refine { h with services := ?_, methods := fun s hs => ?_ }
    · refine List.pairwise_append.2 ⟨h.services, List.pairwise_singleton _ _, fun s hs t ht => ?_⟩
      rw [List.mem_singleton.1 ht]
      exact hnew s hs
    · rcases List.mem_append.1 hs with hs | hs
      · exact h.methods s hs
      · rw [List.mem_singleton.1 hs]
        exact .nil

/-- The service at a place, if there is one, has no method of the name. -/
def Lacks (f : File) (place : Nat) (method : Name) : Prop :=
  ∀ s, f.services[place]? = some s → s.hasMethod method = false

/-- Of the services, the one at the place gets the method, and the others stay. -/
theorem mem_appendMethod {f : File} {place : Nat} {m : Method} {t : Service}
    (h : t ∈ (f.appendMethod place m).services) :
    t ∈ f.services ∨
      ∃ s, f.services[place]? = some s ∧ t = { s with methods := s.methods ++ [m] } := by
  obtain ⟨i, hi⟩ := List.mem_iff_getElem?.1 h
  have hi' : (fun s => if place = i then { s with methods := s.methods ++ [m] } else s) <$>
      f.services[i]? = some t := by
    rw [← List.getElem?_modify]
    exact hi
  obtain ⟨s, hs, rfl⟩ := Option.map_eq_some_iff.1 hi'
  by_cases hplace : place = i
  · rw [if_pos hplace]
    exact Or.inr ⟨s, hplace ▸ hs, rfl⟩
  · rw [if_neg hplace]
    exact Or.inl (List.mem_of_getElem? hs)

theorem names_appendMethod (f : File) (place : Nat) (m : Method) :
    (f.appendMethod place m).services.map Service.name = f.services.map Service.name := by
  refine List.ext_getElem? fun i => ?_
  rw [List.getElem?_map, List.getElem?_map, appendMethod, List.getElem?_modify]
  cases f.services[i]? with
  | none => rfl
  | some s => split <;> rfl

/-- Appending a method keeps the methods apart where the service lacks it. -/
theorem Distinct.appendMethod {f : File} (h : f.Distinct) {place : Nat} {m : Method}
    (hlacks : f.Lacks place m.name) : (f.appendMethod place m).Distinct where
  imports := h.imports
  messages := h.messages
  enums := h.enums
  services := by
    have hnames : (f.services.map Service.name).Pairwise fun a b => a.equals b = false :=
      List.pairwise_map.2 h.services
    rw [← names_appendMethod f place m] at hnames
    exact List.pairwise_map.1 hnames
  methods := by
    intro t ht
    rcases mem_appendMethod ht with ht | ⟨s, hs, rfl⟩
    · exact h.methods t ht
    -- The service that gets the method lacks it, and all the others stay as they are.
    · have hnew : s.hasMethod m.name = false := hlacks s hs
      have hmethods := h.methods s (List.mem_of_getElem? hs)
      refine List.pairwise_append.2 ⟨hmethods, List.pairwise_singleton _ _, fun x hx y hy => ?_⟩
      rw [List.mem_singleton.1 hy]
      simpa using List.any_eq_false.1 hnew x hx
  inner := h.inner

end File

end IdlBridge.Draft
