import IdlBridge.OpenApi.Object
import IdlBridge.OpenApi.Overlay
import IdlBridge.OpenApi.PathItem
import IdlBridge.OpenApi.Registry
import IdlBridge.OpenApi.Servers
import IdlBridge.Proofs.Spec.References
import IdlBridge.Proofs.Table

/-! # Where the references of an object lead

    `Linked P o` says that the object `o` is built without untyped data and without unknown
    keys, and that the target of every reference inside it satisfies `P`.  It is kept by every
    way in which a document is put together, and it says all there is to say about the
    references of the document as data (`references_toValue`): only a reference object is
    written with the key `$ref`.
-/

namespace IdlBridge.OpenApi

namespace Content

variable {ω : Type}

/-- The objects that a member holds. -/
def held : Content ω → List ω
  | .object o => [o]
  | .objects os => os
  | .table es => es.map (·.2)
  | _ => []

/-- The member holds no untyped data. -/
def isTyped : Content ω → Bool
  | .data _ => false
  | .dataList vs => vs.isEmpty
  | .dataTable es => es.isEmpty
  | _ => true

end Content

namespace Object

/-- The object is built without untyped data, and its references lead to targets that satisfy
    `P`. -/
inductive Linked (P : Text → Prop) : Object → Prop where
  | mk {k : Kind} {ms : List (Member × Slot)} :
      (∀ e ∈ ms, e.2.isTyped = true) → (∀ e ∈ ms, ∀ o ∈ e.2.held, Linked P o) →
      (k = .reference → ∃ t, (Object.mk k ms []).given? .ref = some (.text t) ∧ P t) →
      Linked P (.mk k ms [])

/-- What a member holds is built without untyped data and linked. -/
def SlotLinked (P : Text → Prop) (c : Slot) : Prop :=
  c.isTyped = true ∧ ∀ o ∈ c.held, Linked P o

variable {P Q : Text → Prop}

theorem Linked.mono {o : Object} (h : Linked P o) (hPQ : ∀ t, P t → Q t) : Linked Q o := by
  induction h with
  | mk htyped _ href ih =>
    refine .mk htyped ih fun hk => ?_
    obtain ⟨t, ht, hP⟩ := href hk
    exact ⟨t, ht, hPQ t hP⟩

theorem Linked.extras {o : Object} (h : Linked P o) : o.extras = [] := by
  cases h
  rfl

/-! ## Slots -/

@[simp] theorem slotLinked_null : SlotLinked P .null := ⟨rfl, by simp [Content.held]⟩

@[simp] theorem slotLinked_text (t : Text) : SlotLinked P (.text t) := ⟨rfl, by simp [Content.held]⟩

@[simp] theorem slotLinked_flag (b : Bool) : SlotLinked P (.flag b) := ⟨rfl, by simp [Content.held]⟩

@[simp] theorem slotLinked_texts (ts : List Text) : SlotLinked P (.texts ts) :=
  ⟨rfl, by simp [Content.held]⟩

@[simp] theorem slotLinked_object {o : Object} : SlotLinked P (.object o) ↔ Linked P o := by
  simp [SlotLinked, Content.isTyped, Content.held]

@[simp] theorem slotLinked_objects {os : List Object} :
    SlotLinked P (.objects os) ↔ ∀ o ∈ os, Linked P o := by
  simp [SlotLinked, Content.isTyped, Content.held]

@[simp] theorem slotLinked_table {es : Table Object} :
    SlotLinked P (.table es) ↔ ∀ e ∈ es, Linked P e.2 := by
  unfold SlotLinked Content.isTyped Content.held
  simp only [List.forall_mem_map, true_and]

@[simp] theorem slotLinked_ofText (t : Text) : SlotLinked P (.ofText t) := by
  unfold Content.ofText
  split
  · exact slotLinked_null
  · exact slotLinked_text t

@[simp] theorem slotLinked_ofText? (t : Option Text) : SlotLinked P (.ofText? t) := by
  cases t with
  | none => exact slotLinked_null
  | some t => exact slotLinked_text t

/-! ## Building objects -/

theorem linked_build {k : Kind} {ms : List (Member × Slot)} (hk : k ≠ .reference)
    (h : ∀ e ∈ ms, SlotLinked P e.2) : Linked P (.build k ms) :=
  .mk (fun e he => (h e he).1) (fun e he => (h e he).2) fun href => absurd href hk

theorem linked_empty {k : Kind} (hk : k ≠ .reference) : Linked P (.empty k) :=
  linked_build hk (by simp)

theorem linked_referenceTo {name : Text} (h : P (schemaLead ++ name)) :
    Linked P (.referenceTo name) :=
  .mk (by simp [Content.isTyped]) (by simp [Content.held]) fun _ => ⟨_, rfl, h⟩

theorem mem_insertMember {ms : List (Member × Slot)} {m : Member} {c : Slot}
    {e : Member × Slot} (h : e ∈ insertMember ms m c) : e.2 = c ∨ e ∈ ms := by
  induction ms with
  | nil => simp_all [insertMember]
  | cons x rest ih =>
    obtain ⟨m', c'⟩ := x
    rw [insertMember] at h
    split at h
    · rcases List.mem_cons.1 h with rfl | h
      · exact Or.inl rfl
      · exact Or.inr (List.mem_cons_of_mem _ h)
    · rcases List.mem_cons.1 h with rfl | h
      · exact Or.inr List.mem_cons_self
      · exact (ih h).imp_right (List.mem_cons_of_mem _)

theorem find?_insertMember (ms : List (Member × Slot)) (m m' : Member) (c : Slot) :
    ((insertMember ms m c).find? (·.1 = m')).map (·.2) =
      if m = m' then some c else (ms.find? (·.1 = m')).map (·.2) := by
  induction ms with
  | nil =>
    by_cases hm : m = m' <;> simp [insertMember, hm]
  | cons x rest ih =>
    obtain ⟨n, d⟩ := x
    rw [insertMember]
    by_cases hn : n = m
    · subst hn
      by_cases hm : n = m' <;> simp [hm]
    · rw [if_neg hn]
      by_cases hm : n = m'
      · subst hm
        simp [Ne.symm hn]
      · simpa [List.find?_cons, hm] using ih

@[simp] theorem given?_set (o : Object) (m m' : Member) (c : Slot) :
    (o.set m c).given? m' = if m = m' then some c else o.given? m' :=
  find?_insertMember o.members m m' c

@[simp] theorem kind_set (o : Object) (m : Member) (c : Slot) : (o.set m c).kind = o.kind := rfl

theorem Linked.set {o : Object} {m : Member} {c : Slot} (h : Linked P o) (hm : m ≠ .ref)
    (hc : SlotLinked P c) : Linked P (o.set m c) := by
  obtain ⟨htyped, hheld, href⟩ := h
  rename_i k ms
  refine .mk (fun e he => ?_) (fun e he => ?_) fun hk => ?_
  · rcases mem_insertMember he with h | h
    · exact h ▸ hc.1
    · exact htyped e h
  · rcases mem_insertMember he with h | h
    · exact h ▸ hc.2
    · exact hheld e h
  · obtain ⟨t, ht, hP⟩ := href hk
    refine ⟨t, ?_, hP⟩
    have hset := given?_set (.mk k ms []) m .ref c
    rw [if_neg hm, ht] at hset
    exact hset

/-! ## Reading members -/

theorem mem_of_given? {o : Object} {m : Member} {c : Slot} (h : o.given? m = some c) :
    ∃ e ∈ o.members, e.2 = c := by
  obtain ⟨e, he, rfl⟩ := Option.map_eq_some_iff.1 h
  exact ⟨e, List.mem_of_find?_eq_some he, rfl⟩

/-- No member of any kind has to be a reference. -/
theorem ne_reference_of_shape {k k' : Kind} {s : MemberSpec} (hs : s ∈ k.members)
    (h : s.shape = .object k') : k' ≠ .reference := by
  rintro rfl
  revert h
  revert s
  cases k <;> decide

theorem slotLinked_default {k : Kind} {s : MemberSpec} (hs : s ∈ k.members) :
    SlotLinked P s.default := by
  have hobject : ∀ k', s.shape = .object k' → Linked P (.empty k') := fun k' h =>
    linked_empty (ne_reference_of_shape hs h)
  unfold MemberSpec.default
  split
  · exact slotLinked_null
  all_goals
    split <;> first
      | exact slotLinked_object.2 (hobject _ ‹_›)
      | simp [SlotLinked, Content.isTyped, Content.held]

theorem Linked.get {o : Object} (h : Linked P o) (m : Member) : SlotLinked P (o.get m) := by
  unfold Object.get
  cases hg : o.given? m with
  | some c =>
    obtain ⟨htyped, hheld, -⟩ := h
    obtain ⟨e, he, rfl⟩ := mem_of_given? hg
    exact ⟨htyped e he, hheld e he⟩
  | none =>
    show SlotLinked P (o.kind.default m)
    unfold Kind.default
    cases hs : o.kind.spec? m with
    | none => exact slotLinked_null
    | some s => exact slotLinked_default (List.mem_of_find?_eq_some hs)

theorem Linked.object? {o x : Object} {m : Member} (h : Linked P o)
    (hx : o.object? m = some x) : Linked P x := by
  have hget := h.get m
  unfold Object.object? at hx
  split at hx
  · next hm =>
    cases hx
    exact slotLinked_object.1 (hm ▸ hget)
  · cases hx

theorem Linked.objects {o : Object} (h : Linked P o) (m : Member) :
    ∀ x ∈ o.objects m, Linked P x := by
  have hget := h.get m
  unfold Object.objects
  split
  · next hm => exact slotLinked_objects.1 (hm ▸ hget)
  · simp

theorem Linked.table {o : Object} (h : Linked P o) (m : Member) :
    ∀ e ∈ o.table m, Linked P e.2 := by
  have hget := h.get m
  unfold Object.table
  split
  · next hm => exact slotLinked_table.1 (hm ▸ hget)
  · simp

/-! ## Operations and servers -/

theorem Linked.setOperation? {o op o' : Object} {name : Text} (h : Linked P o)
    (hop : Linked P op) (ho : o.setOperation? name op = some o') : Linked P o' := by
  obtain ⟨v, hv, rfl⟩ := Option.map_eq_some_iff.1 ho
  have hmem : v ∈ verbs := List.mem_of_find?_eq_some hv
  have hne : v ≠ .ref := by
    rintro rfl
    revert hmem
    decide
  exact h.set hne (slotLinked_object.2 hop)

theorem Linked.mapOperations {f : Object → Object} {o : Object} (h : Linked P o)
    (hf : ∀ x, Linked P x → Linked P (f x)) : Linked P (o.mapOperations f) := by
  have hops : ∀ e ∈ o.operations, e.1 ≠ .ref ∧ Linked P e.2 := by
    intro e he
    obtain ⟨v, hv, hv'⟩ := List.mem_filterMap.1 he
    obtain ⟨x, hx, rfl⟩ := Option.map_eq_some_iff.1 hv'
    refine ⟨?_, h.object? hx⟩
    show v ≠ .ref
    rintro rfl
    revert hv
    decide
  unfold Object.mapOperations
  generalize o.operations = ops at hops
  induction ops generalizing o with
  | nil => exact h
  | cons e rest ih =>
    obtain ⟨hne, hx⟩ := hops e List.mem_cons_self
    exact ih (h.set hne (slotLinked_object.2 (hf _ hx)))
      fun e he => hops e (List.mem_cons_of_mem _ he)

theorem Linked.withoutServers {o : Object} (h : Linked P o) : Linked P o.withoutServers :=
  h.set (by decide) (by simp)

theorem Linked.withServer {o : Object} (h : Linked P o) (url : Text) :
    Linked P (o.withServer url) := by
  refine h.set (by decide) (slotLinked_objects.2 ?_)
  intro x hx
  rw [List.mem_singleton.1 hx]
  exact linked_build (by decide) (by simp)

theorem Linked.hoistOperations {o : Object} (h : Linked P o) : Linked P o.hoistOperations := by
  unfold Object.hoistOperations
  split
  · exact (h.withServer _).mapOperations fun _ hx => hx.withoutServers
  · exact h

theorem Linked.mapTable {f : Object → Object} {o : Object} {m : Member} (h : Linked P o)
    (hf : ∀ x, Linked P x → Linked P (f x)) :
    ∀ e ∈ (o.table m).map fun e => (e.1, f e.2), Linked P e.2 := by
  intro e he
  obtain ⟨e', he', rfl⟩ := List.mem_map.1 he
  exact hf _ (h.table m e' he')

theorem Linked.orServer {o : Object} (h : Linked P o) (url : Text) : Linked P (o.orServer url) := by
  unfold Object.orServer
  split
  · exact h.withServer url
  · exact h

/-- Moving servers up changes no members but the servers and the paths. -/
theorem kind_and_given?_hoistServers (o : Object) (url : Text) {m : Member} (hpaths : m ≠ .paths)
    (hservers : m ≠ .servers) : (o.hoistServers url).kind = o.kind ∧
      (o.hoistServers url).given? m = o.given? m := by
  have hor : ∀ o : Object, (o.orServer url).kind = o.kind ∧
      (o.orServer url).given? m = o.given? m := by
    intro o
    unfold Object.orServer
    split
    · exact ⟨rfl, by rw [Object.withServer, given?_set, if_neg hservers.symm]⟩
    · exact ⟨rfl, rfl⟩
  unfold Object.hoistServers
  dsimp only
  split
  · split <;> simp [hor, Object.withServer, hpaths.symm, hservers.symm]
  · simp [hor, hpaths.symm]

theorem Linked.hoistServers {o : Object} (h : Linked P o) (url : Text) :
    Linked P (o.hoistServers url) := by
  have hpaths : Linked P (o.set .paths
      (.table ((o.table .paths).map fun e => (e.1, e.2.hoistOperations)))) :=
    h.set (by decide) (slotLinked_table.2 (h.mapTable fun _ hx => hx.hoistOperations))
  unfold Object.hoistServers
  dsimp only
  split
  · split
    · refine Linked.orServer (Linked.withServer (hpaths.set (by decide) ?_) _) url
      exact slotLinked_table.2 (hpaths.mapTable fun _ hx => hx.withoutServers)
    · exact hpaths.orServer url
  · exact hpaths.orServer url

end Object

end IdlBridge.OpenApi
