import IdlBridge.Draft.FromDocument
import IdlBridge.Proofs.Computation
import IdlBridge.Proofs.Draft.Distinct
import IdlBridge.Proofs.Value.Entries

/-! # How a draft grows

    While a document is converted its draft only grows: an import stays, and a message or an
    enumeration that is declared at the top level stays declared under its name, whatever is united
    with it later.

    `Brings I x p Q` says that the conversion `x`, started in `p`, extends the draft and keeps the
    invariant `I` of drafts whenever it succeeds, and that its result satisfies `Q` in the draft it
    leaves.  Nothing is said about conversions that fail.  A result that has been brought about
    early is still there at the end, as far as it is kept by `File.Extends`.
-/

namespace IdlBridge.Draft

variable {α β : Type}

/-! ## Names -/

/-- Nothing but a text is the same as the text. -/
theorem same_text {a : Value} {t : Text} : a.same (.text t) = true ↔ a = .text t := by
  cases a with
  | list xs => simp [Value.same, Value.sameKey, Value.asInt?]
  | map es => simp [Value.same, Value.sameKey, Value.asInt?]
  | set xs => simp [Value.same, Value.sameKey, Value.asInt?]
  | pair k v => simp [Value.same, Value.sameKey, Value.asInt?]
  | _ => simp only [Value.same, Value.sameKey_text]

theorem same_of_equals {a b : Value} (h : a.equals b = true) : a.same b = true := by
  unfold Value.equals at h
  exact (Bool.and_eq_true_iff.1 h).1

theorem text_mem_names {names : List Name} {t : Text} :
    .text t ∈ names ↔ (names.any fun n => n.same (.text t)) = true := by
  rw [List.any_eq_true]
  constructor
  · intro h
    exact ⟨_, h, same_text.2 rfl⟩
  · rintro ⟨n, hn, hsame⟩
    rwa [← same_text.1 hsame]

theorem names_addNew_subset (key : α → Name) (xs : List α) (x : α) :
    xs.map key ⊆ (addNew key xs x).map key := by
  intro n hn
  unfold addNew
  split
  · exact hn
  · rw [List.map_append]
    exact List.mem_append_left _ hn

/-- After an item has been added, its key is there, be it that of an earlier item. -/
theorem text_mem_names_addNew {key : α → Name} (xs : List α) {x : α} {t : Text}
    (h : key x = .text t) : .text t ∈ (addNew key xs x).map key := by
  unfold addNew
  split
  · next hany =>
    obtain ⟨y, hy, hsame⟩ := List.any_eq_true.1 hany
    rw [h, same_text] at hsame
    exact List.mem_map.2 ⟨y, hy, hsame⟩
  · rw [List.map_append]
    exact List.mem_append_right _ (List.mem_singleton.2 h.symm)

theorem names_addAllNew_subset (key : α → Name) (xs new : List α) :
    xs.map key ⊆ (addAllNew key xs new).map key := by
  induction new generalizing xs with
  | nil => exact List.Subset.refl _
  | cons x rest ih => exact List.Subset.trans (names_addNew_subset key xs x) (ih _)

theorem text_mem_names_addAllNew {key : α → Name} (xs : List α) {new : List α} {t : Text}
    (h : .text t ∈ new.map key) : .text t ∈ (addAllNew key xs new).map key := by
  induction new generalizing xs with
  | nil => cases h
  | cons x rest ih =>
    rcases List.mem_cons.1 h with h | h
    · exact names_addAllNew_subset key _ rest (text_mem_names_addNew xs h.symm)
    · exact ih _ h

/-! ## Messages -/

namespace Message

/-- The names of the messages declared in a message. -/
def messageNames (m : Message) : List Name := m.messages.map Message.name

/-- The names of the enumerations declared in a message. -/
def enumNames (m : Message) : List Name := m.enums.map Enum.key

/-- The second message declares whatever the first one declares under a text. -/
structure Within (m m' : Message) : Prop where
  messages : ∀ t : Text, .text t ∈ m.messageNames → .text t ∈ m'.messageNames
  enums : ∀ t : Text, .text t ∈ m.enumNames → .text t ∈ m'.enumNames

theorem Within.refl (m : Message) : m.Within m := ⟨fun _ h => h, fun _ h => h⟩

theorem within_addField (m : Message) (f : Field) : m.Within (m.addField f) :=
  ⟨fun _ h => h, fun _ h => h⟩

theorem within_addMessage (m nested : Message) : m.Within (m.addMessage nested) :=
  ⟨fun _ h => names_addNew_subset Message.name m.messages nested h, fun _ h => h⟩

theorem within_addEnum (m : Message) (e : Enum) : m.Within (m.addEnum e) :=
  ⟨fun _ h => h, fun _ h => names_addNew_subset Enum.key m.enums e h⟩

theorem within_merge_left (m other : Message) : m.Within (m.merge other) :=
  ⟨fun _ h => names_addAllNew_subset Message.name m.messages other.messages h,
    fun _ h => names_addAllNew_subset Enum.key m.enums other.enums h⟩

/-- Uniting drops no declaration: where the other message loses one, there is one of its name. -/
theorem within_merge_right (m other : Message) : other.Within (m.merge other) :=
  ⟨fun _ h => text_mem_names_addAllNew m.messages h, fun _ h => text_mem_names_addAllNew m.enums h⟩

end Message

/-! ## Files -/

namespace File

/-- The names of the messages at the top level. -/
def messageNames (f : File) : List Name := f.messages.map Message.name

/-- The names of the enumerations at the top level. -/
def enumNames (f : File) : List Name := f.enums.map Enum.key

/-- A message at the top level goes by the name. -/
def Declares (f : File) (name : Name) : Prop :=
  ∃ n ∈ f.messageNames, n = name ∨ n.same name = true

/-- What the steps of a conversion do to the declarations of a draft. -/
structure Extends (f g : File) : Prop where
  imports : f.imports ⊆ g.imports
  messages : f.messageNames ⊆ g.messageNames
  enums : f.enumNames ⊆ g.enumNames

variable {f g h : File}

theorem Extends.refl (f : File) : f.Extends f :=
  ⟨List.Subset.refl _, List.Subset.refl _, List.Subset.refl _⟩

theorem Extends.trans (h₁ : f.Extends g) (h₂ : g.Extends h) : f.Extends h :=
  ⟨List.Subset.trans h₁.imports h₂.imports, List.Subset.trans h₁.messages h₂.messages,
    List.Subset.trans h₁.enums h₂.enums⟩

theorem Extends.declares (hext : f.Extends g) {name : Name} (hname : f.Declares name) :
    g.Declares name := by
  obtain ⟨n, hn, h⟩ := hname
  exact ⟨n, hext.messages hn, h⟩

theorem declares_text {t : Text} : f.Declares (.text t) ↔ .text t ∈ f.messageNames := by
  constructor
  · rintro ⟨n, hn, h⟩
    have heq : n = .text t := h.elim id same_text.1
    rwa [← heq]
  · intro h
    exact ⟨_, h, Or.inl rfl⟩

theorem mem_imports_addImport (f : File) (path : Text) : path ∈ (f.addImport path).imports :=
  Text.mem_insertNew.2 (Or.inr rfl)

theorem extends_addImport (f : File) (path : Text) : f.Extends (f.addImport path) where
  imports := fun _ hi => Text.mem_insertNew.2 (Or.inl hi)
  messages := List.Subset.refl _
  enums := List.Subset.refl _

theorem extends_addEnum (f : File) (e : Enum) : f.Extends (f.addEnum e) where
  imports := List.Subset.refl _
  messages := List.Subset.refl _
  enums := names_addNew_subset Enum.key f.enums e

theorem mem_enumNames_addEnum (f : File) (e : Enum) : .text e.name ∈ (f.addEnum e).enumNames :=
  text_mem_names_addNew f.enums rfl

/-- A united message keeps the name it has, so no name is lost. -/
theorem names_uniteInto_subset (ms : List Message) (m : Message) :
    ms.map Message.name ⊆ (uniteInto ms m).map Message.name := by
  induction ms with
  | nil => exact List.nil_subset _
  | cons a rest ih =>
    intro n hn
    rw [uniteInto]
    rcases List.mem_cons.1 hn with rfl | hn
    · split <;> exact List.mem_cons_self
    · split
      · exact List.mem_cons_of_mem _ hn
      · exact List.mem_cons_of_mem _ (ih hn)

theorem extends_addMessage (f : File) (m : Message) : f.Extends (f.addMessage m) where
  imports := List.Subset.refl _
  messages := names_uniteInto_subset f.messages m
  enums := List.Subset.refl _

/-- After a message has been added, a message goes by its name: itself, or the one that it has been
    united with. -/
theorem declares_addMessage (f : File) (m : Message) : (f.addMessage m).Declares m.name := by
  -- A united message keeps its own name: the same as that of the other one, as `1` is the same as
  -- `1.0`, but perhaps not equal to it.
  show ∃ n ∈ (uniteInto f.messages m).map Message.name, n = m.name ∨ n.same m.name = true
  induction f.messages with
  | nil => exact ⟨m.name, List.mem_cons_self, Or.inl rfl⟩
  | cons a rest ih =>
    rw [uniteInto]
    by_cases hequals : a.name.equals m.name = true
    · rw [if_pos hequals]
      exact ⟨a.name, List.mem_cons_self, Or.inr (same_of_equals hequals)⟩
    · rw [if_neg hequals]
      obtain ⟨n, hn, h⟩ := ih
      exact ⟨n, List.mem_cons_of_mem _ hn, h⟩

theorem extends_addService (f : File) (name : Name) : f.Extends (f.addService name) := by
  unfold File.addService
  split
  · exact .refl f
  · exact ⟨List.Subset.refl _, List.Subset.refl _, List.Subset.refl _⟩

theorem extends_appendMethod (f : File) (place : Nat) (m : Method) :
    f.Extends (f.appendMethod place m) :=
  ⟨List.Subset.refl _, List.Subset.refl _, List.Subset.refl _⟩

end File

/-! ## Steps of a conversion -/

/-- Whenever the conversion succeeds, started in `p`, it leaves a draft that extends that of `p`
    and satisfies `I`, and its result satisfies `Q` there. -/
def Brings (I : File → Prop) (x : Conversion α) (p : Progress) (Q : File → α → Prop) : Prop :=
  ∀ a q, Ends x p a q → p.file.Extends q.file ∧ I q.file ∧ Q q.file a

section Brings

variable {I : File → Prop} {p : Progress} {Q Q' : File → α → Prop} {R : File → β → Prop}

theorem Brings.mono {x : Conversion α} (h : Brings I x p Q) (hQ : ∀ f a, Q f a → Q' f a) :
    Brings I x p Q' := by
  intro a q hx
  obtain ⟨hext, hI, ha⟩ := h a q hx
  exact ⟨hext, hI, hQ _ a ha⟩

/-- What is known of the results of all successful runs is known here, too. -/
theorem Brings.and {x : Conversion α} (h : Brings I x p Q) {P : α → Prop}
    (hP : ∀ a q, Ends x p a q → P a) : Brings I x p fun f a => Q f a ∧ P a := by
  intro a q hx
  obtain ⟨hext, hI, ha⟩ := h a q hx
  exact ⟨hext, hI, ha, hP a q hx⟩

theorem brings_pure (hp : I p.file) {a : α} (ha : Q p.file a) : Brings I (pure a) p Q := by
  intro b q h
  obtain ⟨rfl, rfl⟩ := ends_pure.1 h
  exact ⟨.refl _, hp, ha⟩

theorem brings_throw (e : ConvertError) : Brings I (throw e : Conversion α) p Q :=
  fun _ _ h => absurd h ends_throw

theorem Brings.bind {x : Conversion α} {f : α → Conversion β} (hx : Brings I x p Q)
    (hf : ∀ a q, p.file.Extends q.file → I q.file → Q q.file a → Brings I (f a) q R) :
    Brings I (x >>= f) p R := by
  intro b r h
  obtain ⟨a, q, ha, hb⟩ := ends_bind.1 h
  obtain ⟨hext, hq, hQ⟩ := hx a q ha
  obtain ⟨hext', hr, hR⟩ := hf a q hext hq hQ b r hb
  exact ⟨hext.trans hext', hr, hR⟩

theorem brings_map {x : Conversion α} {f : α → β} (hx : Brings I x p Q)
    (hf : ∀ g a, Q g a → R g (f a)) : Brings I (f <$> x) p R := by
  rw [← bind_pure_comp]
  exact hx.bind fun a q _ hq ha => brings_pure hq (hf _ a ha)

/-- What follows a look at the progress starts in the progress that has been seen. -/
theorem brings_get_bind {f : Progress → Conversion β} (h : Brings I (f p) p R) :
    Brings I (get >>= f) p R := by
  intro b r hb
  obtain ⟨_, _, hget, hb⟩ := ends_bind.1 hb
  obtain ⟨rfl, rfl⟩ := ends_get.1 hget
  exact h b r hb

/-- A step that keeps every invariant leaves the draft as it is. -/
theorem brings_of_keeps {x : Conversion α} {P : α → Prop} (hp : I p.file)
    (h : ∀ J : Progress → Prop, Keeps J x P) : Brings I x p fun f a => f = p.file ∧ P a := by
  intro a q hx
  obtain ⟨hstate, hresult⟩ := h (fun t => t = p) p rfl
  -- Among the invariants that are kept is that the progress is what it was.
  have hrun : x.run.run p = (.ok a, q) := hx
  rw [hrun] at hstate hresult
  have hq : q = p := hstate
  subst hq
  exact ⟨.refl _, hp, rfl, hresult a rfl⟩

end Brings

namespace Conversion

variable {I : File → Prop} {p : Progress} {Q : File → α → Prop}

theorem brings_refuse : Brings I (refuse : Conversion α) p Q :=
  brings_throw _

theorem brings_note (hp : I p.file) (n : Notice) : Brings I (note n) p fun f _ => f = p.file := by
  intro a q h
  have hq : q = { p with notices := p.notices ++ [n] } := ends_modify.1 h
  subst hq
  exact ⟨.refl _, hp, rfl⟩

theorem brings_update {g : File → File} (hext : p.file.Extends (g p.file)) (hI : I (g p.file)) :
    Brings I (update g) p fun f _ => f = g p.file := by
  intro a q h
  have hq : q = { p with file := g p.file } := ends_modify.1 h
  subst hq
  exact ⟨hext, hI, rfl⟩

/-- Reporting the place of an error never turns the error into a success. -/
theorem brings_within {step : Conversion α} (h : Brings I step p Q) (place : Text → Place)
    (name : Name) : Brings I (within place name step) p Q := by
  intro a q hrun
  rcases ends_tryCatch hrun with hstep | ⟨e, t, hhandler⟩
  · exact h a q hstep
  · -- Both ways of going on end with an error.
    by_cases he : e.isAboutSchema = true
    · rw [if_pos he] at hhandler
      obtain ⟨_, _, -, hthrow⟩ := ends_bind.1 hhandler
      exact absurd hthrow ends_throw
    · rw [if_neg he] at hhandler
      exact absurd hhandler ends_throw

/-! ## Looking into data -/

theorem brings_textual (hp : I p.file) (name : Name) :
    Brings I (textual name) p fun f t => f = p.file ∧ name = .text t := by
  unfold textual
  split
  · exact brings_pure hp ⟨rfl, rfl⟩
  · exact brings_refuse

theorem brings_mapping (hp : I p.file) (v : Value) :
    Brings I (mapping v) p fun f es => f = p.file ∧ v = .map es := by
  unfold mapping
  split
  · exact brings_pure hp ⟨rfl, rfl⟩
  · exact brings_refuse

/-- Data that is read as a mapping is the mapping or counts as missing. -/
theorem brings_entries (hp : I p.file) (v : Value) :
    Brings I (entries v) p fun f es =>
      f = p.file ∧ (v = .map es ∨ es = [] ∧ ∀ fs, v ≠ .map fs) := by
  unfold entries
  split
  · exact brings_pure hp ⟨rfl, Or.inl rfl⟩
  · next hmap =>
    split
    · exact brings_refuse
    · exact brings_pure hp ⟨rfl, Or.inr ⟨rfl, hmap⟩⟩

end Conversion

end IdlBridge.Draft
