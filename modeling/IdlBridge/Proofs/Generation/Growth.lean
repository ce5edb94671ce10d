import IdlBridge.Generation.Schemas
import IdlBridge.Proofs.Computation
import IdlBridge.Proofs.OpenApi.Linked
import IdlBridge.Proofs.Text
import Mathlib.Data.List.Nodup

/-! # How a registry grows

    While a document is generated its registry only grows: a required name stays required, and a
    schema stays registered.  A name that is required for the first time is queued at the same time,
    so the queue and the required names grow by the same list; the bound on the expansion rests on
    that.

    `Yields file x s Q` says that the generation step `x`, started in a sound session `s`, succeeds,
    leaves a sound session that extends `s`, and gives a result that satisfies `Q` there.
-/

namespace IdlBridge.Generation

open OpenApi Object

variable {file : FileDesc} {r r' r'' : Registry Object} {s : Session} {α β : Type}

/-! ## Sound registries -/

/-- The reference leads to a name that has been required or registered. -/
def Known (r : Registry Object) (ref : Text) : Prop :=
  ∃ n, ref = schemaLead ++ n ∧ (n ∈ r.required ∨ r.schemas.has n = true)

/-- The references of the object lead to known names. -/
abbrev LinkedIn (r : Registry Object) (o : Object) : Prop :=
  Linked (Known r) o

/-- What holds of a registry between the steps of a generation: structs of the file refer to all
    names that have been required, none is required twice, nothing else waits in the queue, and the
    registered schemas refer to known names. -/
structure Sound (file : FileDesc) (r : Registry Object) : Prop where
  nodup : r.required.Nodup
  queued : ∀ n ∈ r.queue, n ∈ r.required
  referred : ∀ n ∈ r.required, n ∈ referredStructs file
  linked : ∀ e ∈ r.schemas, LinkedIn r e.2

theorem sound_empty (file : FileDesc) : Sound file .empty := by
  constructor <;> simp [Registry.empty]

/-- What the steps of a generation do to a registry. -/
structure Extends (r r' : Registry Object) : Prop where
  required : ∃ new, r'.required = r.required ++ new ∧ r'.queue = r.queue ++ new
  schemas : ∀ n, r.schemas.has n = true → r'.schemas.has n = true

theorem Extends.refl (r : Registry Object) : Extends r r :=
  ⟨⟨[], by simp⟩, fun _ h => h⟩

theorem Extends.trans (h : Extends r r') (h' : Extends r' r'') : Extends r r'' := by
  obtain ⟨new, hreq, hqueue⟩ := h.required
  obtain ⟨new', hreq', hqueue'⟩ := h'.required
  refine ⟨⟨new ++ new', ?_, ?_⟩, fun n hn => h'.schemas n (h.schemas n hn)⟩
  · rw [hreq', hreq, List.append_assoc]
  · rw [hqueue', hqueue, List.append_assoc]

theorem Extends.known (h : Extends r r') {ref : Text} (hk : Known r ref) : Known r' ref := by
  obtain ⟨n, rfl, hn⟩ := hk
  obtain ⟨new, hreq, -⟩ := h.required
  refine ⟨n, rfl, hn.imp (fun hn => ?_) (h.schemas n)⟩
  rw [hreq]
  exact List.mem_append_left _ hn

theorem Extends.linked (h : Extends r r') {o : Object} (ho : LinkedIn r o) : LinkedIn r' o :=
  ho.mono fun _ => h.known

/-! ## Changing a registry -/

theorem extends_require (r : Registry Object) (n : Text) : Extends r (r.require n) := by
  unfold Registry.require
  split
  · exact .refl r
  · exact ⟨⟨[n], rfl, rfl⟩, fun _ h => h⟩

theorem required_require (r : Registry Object) (n : Text) :
    (r.require n).required = Text.insertNew r.required n := by
  unfold Registry.require Text.insertNew
  split <;> rfl

theorem schemas_require (r : Registry Object) (n : Text) : (r.require n).schemas = r.schemas := by
  unfold Registry.require
  split <;> rfl

theorem required_add (r : Registry Object) (n : Text) (o : Object) :
    (r.add n o).2.required = r.required := by
  unfold Registry.add
  split <;> rfl

theorem known_require (r : Registry Object) (n : Text) : Known (r.require n) (schemaLead ++ n) := by
  refine ⟨n, rfl, Or.inl ?_⟩
  rw [required_require]
  exact Text.mem_insertNew.2 (Or.inr rfl)

theorem Sound.require (h : Sound file r) {n : Text} (hn : n ∈ referredStructs file) :
    Sound file (r.require n) := by
  have hext := extends_require r n
  obtain ⟨new, hreq, hqueue⟩ := hext.required
  refine ⟨?_, fun m hm => ?_, fun m hm => ?_, fun e he => hext.linked (h.linked e ?_)⟩
  · rw [required_require]
    exact Text.nodup_insertNew h.nodup n
  · rw [hqueue] at hm
    rw [hreq]
    exact List.mem_append.2 ((List.mem_append.1 hm).imp_left (h.queued m))
  · rw [required_require, Text.mem_insertNew] at hm
    rcases hm with hm | rfl
    · exact h.referred m hm
    · exact hn
  · rwa [schemas_require] at he

theorem extends_add (r : Registry Object) (n : Text) (o : Object) : Extends r (r.add n o).2 := by
  unfold Registry.add
  split
  · exact .refl r
  · exact ⟨⟨[], by simp⟩, fun m hm => by simp [hm]⟩

@[simp] theorem has_schemas_add (r : Registry Object) (n : Text) (o : Object) :
    (r.add n o).2.schemas.has n = true := by
  unfold Registry.add
  split
  · assumption
  · simp

theorem Sound.add (h : Sound file r) {n : Text} {o : Object} (ho : LinkedIn r o) :
    Sound file (r.add n o).2 := by
  have hext := extends_add r n o
  unfold Registry.add at hext ⊢
  split
  · exact h
  · next hnew =>
    rw [if_neg hnew] at hext
    refine ⟨h.nodup, h.queued, h.referred, fun e he => ?_⟩
    rcases List.mem_append.1 he with he | he
    · exact hext.linked (h.linked e he)
    · rw [List.mem_singleton.1 he]
      exact hext.linked ho

/-! ## Steps of a generation -/

/-- Started in `s`, the step succeeds and leaves a sound session that extends `s`, in which its
    result satisfies `Q`. -/
def Yields (file : FileDesc) (x : Building α) (s : Session) (Q : Registry Object → α → Prop) :
    Prop :=
  ∃ a t, Ends x s a t ∧ Sound file t.registry ∧ Extends s.registry t.registry ∧ Q t.registry a

variable {Q : Registry Object → α → Prop} {R : Registry Object → β → Prop}

theorem yields_pure (hs : Sound file s.registry) {a : α} (ha : Q s.registry a) :
    Yields file (pure a) s Q :=
  ⟨a, s, ends_pure.2 ⟨rfl, rfl⟩, hs, .refl _, ha⟩

theorem Yields.bind {x : Building α} {f : α → Building β} (h : Yields file x s Q)
    (hf : ∀ a t, Sound file t.registry → Extends s.registry t.registry → Q t.registry a →
      Yields file (f a) t R) : Yields file (x >>= f) s R := by
  obtain ⟨a, t, hx, hsound, hext, ha⟩ := h
  obtain ⟨b, u, hfa, hsound', hext', hb⟩ := hf a t hsound hext ha
  exact ⟨b, u, ends_bind.2 ⟨a, t, hx, hfa⟩, hsound', hext.trans hext', hb⟩

theorem yields_note (hs : Sound file s.registry) (n : Notice) :
    Yields file (Building.note n) s fun _ _ => True :=
  ⟨(), _, ends_modify.2 rfl, hs, .refl _, trivial⟩

theorem yields_require (hs : Sound file s.registry) {n : Text} (hn : n ∈ referredStructs file) :
    Yields file (Building.update fun r => r.require n) s fun r _ => Known r (schemaLead ++ n) :=
  ⟨(), _, ends_modify.2 rfl, hs.require hn, extends_require _ _, known_require _ _⟩

theorem yields_register (hs : Sound file s.registry) {n : Text} {o : Object}
    (ho : LinkedIn s.registry o) :
    Yields file (Building.register n o) s fun r _ => r.schemas.has n = true :=
  ⟨(), _, ends_modify.2 rfl, hs.add ho, extends_add _ _ _, has_schemas_add _ _ _⟩

/-- Where the key of a payload is missing, nothing is read and nothing is noted. -/
theorem yields_payload? (hs : Sound file s.registry) {as : Annotations} {key owner : Text}
    {k : Kind} (h : as.has key = false) :
    Yields file (Building.payload? as key k owner) s fun _ p => p = none := by
  unfold Building.payload? Annotations.data?
  rw [Table.get?_eq_none_of_has h]
  exact yields_pure hs rfl

end IdlBridge.Generation
