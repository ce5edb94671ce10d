import IdlBridge.Proofs.Generation.Expansion
import IdlBridge.Proofs.Generation.Uniform
import IdlBridge.Proofs.Sorting

/-! # What the expansion registers

    The expansion takes names from a queue, but what it registers does not depend on the order of
    the queue.  It is the components of all names that can be reached from the required ones: a
    name is reached if it is required, or if the component of a reached name requires it.  A name
    that has a schema from the start keeps it, and nothing is reached through it.  The expansion
    fails if one of these components cannot be built.

    The invariant has two halves, as for any worklist: all required names are reached, and a name
    that has got its component has had its requirements required.
-/

namespace IdlBridge.Generation

open OpenApi Object

variable {file : FileDesc} {r r' r₀ : Registry Object} {s : Session}

/-! ## Components of structs -/

/-- The demand requires a name that structs of the file refer to. -/
def RequiresStruct (file : FileDesc) (d : Demand) : Prop :=
  ∃ n ∈ referredStructs file, d = .require n

/-- The component that a struct becomes, if it can be built. -/
def componentResult (d : StructDesc) : Except GenerationError Object :=
  ((componentOf d).run.run ⟨.empty, []⟩).1

/-- The names that the component of a struct requires. -/
def componentNames (d : StructDesc) : List Text :=
  ((componentOf d).run.run ⟨.empty, []⟩).2.registry.required

theorem Acts.componentResult_eq {d : StructDesc} {x : Except GenerationError Object}
    {ds : List Demand} (h : Acts (componentOf d) x ds) : componentResult d = x :=
  (h _).1

theorem Acts.mem_componentNames {d : StructDesc} {x : Except GenerationError Object}
    {ds : List Demand} (h : Acts (componentOf d) x ds) {n : Text} :
    n ∈ componentNames d ↔ Demand.require n ∈ ds := by
  unfold componentNames
  rw [(h _).2, mem_required_meetAll]
  simp [Registry.empty]

theorem acts_expand {d : StructDesc} {o : Object} {ds : List Demand}
    (h : Acts (componentOf d) (.ok o) ds) :
    Acts (expand d) (.ok ()) (ds ++ [.register d.name o]) :=
  (acts_note _).bind (h.bind (acts_register d.name o))

theorem acts_expand_error {d : StructDesc} {e : GenerationError} {ds : List Demand}
    (h : Acts (componentOf d) (.error e) ds) : Acts (expand d) (.error e) ds :=
  (acts_note _).bind (h.bind_error _)

/-- The structs that structs of the file refer to are there under their names, and their components
    require such structs only. -/
def Grounded (file : FileDesc) : Prop :=
  ∀ n ∈ referredStructs file, ∃ d, file.findStruct n = some d ∧ d.name = n ∧
    Uniform (RequiresStruct file) (componentOf d)

/-! ## Reached names -/

/-- The name is required by the registry, or by the component of a reached name without a schema of
    its own. -/
inductive Reached (file : FileDesc) (r : Registry Object) : Text → Prop where
  | required {n : Text} : n ∈ r.required → Reached file r n
  | component {n k : Text} {d : StructDesc} : Reached file r n → r.schemas.has n = false →
      file.findStruct n = some d → k ∈ componentNames d → Reached file r k

/-- The component of the name is built by the expansion. -/
def Builds (file : FileDesc) (r : Registry Object) (n : Text) (d : StructDesc) : Prop :=
  Reached file r n ∧ r.schemas.has n = false ∧ file.findStruct n = some d

/-- One of the components that the expansion builds fails. -/
def Fails (file : FileDesc) (r : Registry Object) : Prop :=
  ∃ n d e, Builds file r n d ∧ componentResult d = .error e

/-- The table has the schemas of the registry and the components that the expansion builds. -/
structure Expanded (file : FileDesc) (r : Registry Object) (schemas : Table Object) : Prop where
  keys : schemas.keys.Nodup
  mem : ∀ n o, (n, o) ∈ schemas ↔
    (n, o) ∈ r.schemas ∨ ∃ d, Builds file r n d ∧ componentResult d = .ok o

/-! ## The invariant -/

/-- The registry has come about by an expansion that started in `r₀`. -/
structure Expanding (file : FileDesc) (r₀ r : Registry Object) : Prop where
  nodup : r.required.Nodup
  queued : ∀ n ∈ r.queue, n ∈ r.required
  pending : Pending r
  roots : ∀ n ∈ r₀.required, n ∈ r.required
  reached : ∀ n ∈ r.required, Reached file r₀ n
  referred : ∀ n ∈ r.required, n ∈ referredStructs file
  keys : r.schemas.keys.Nodup
  kept : ∀ e ∈ r₀.schemas, e ∈ r.schemas
  built : ∀ n o, (n, o) ∈ r.schemas →
    (n, o) ∈ r₀.schemas ∨ ∃ d, Builds file r₀ n d ∧ componentResult d = .ok o
  edges : ∀ n d, Builds file r₀ n d → r.schemas.has n = true →
    ∀ k ∈ componentNames d, k ∈ r.required

theorem Expanding.has_of_has (h : Expanding file r₀ r) {n : Text}
    (hn : r₀.schemas.has n = true) : r.schemas.has n = true := by
  obtain ⟨o, ho⟩ := Table.has_iff_exists_mem.1 hn
  exact Table.has_of_mem (h.kept _ ho)

/-- When nothing waits any longer, every reached name has been required. -/
theorem Expanding.mem_required (h : Expanding file r₀ r)
    (hall : ∀ n ∈ r.required, r.schemas.has n = true) {n : Text} (hn : Reached file r₀ n) :
    n ∈ r.required := by
  induction hn with
  | required hn => exact h.roots _ hn
  | component hreached hnew hfind hk ih =>
    exact h.edges _ _ ⟨hreached, hnew, hfind⟩ (hall _ ih) _ hk

theorem Expanding.expanded (h : Expanding file r₀ r)
    (hall : ∀ n ∈ r.required, r.schemas.has n = true) :
    Expanded file r₀ r.schemas ∧ ¬ Fails file r₀ := by
  -- What is built has a schema in the end, and by the invariant it is the component of its struct.
  have hbuilt : ∀ n d, Builds file r₀ n d →
      ∃ o, (n, o) ∈ r.schemas ∧ componentResult d = .ok o := by
    rintro n d ⟨hreached, hnew, hfind⟩
    obtain ⟨o, ho⟩ := Table.has_iff_exists_mem.1 (hall n (h.mem_required hall hreached))
    refine ⟨o, ho, ?_⟩
    rcases h.built n o ho with hold | ⟨d', ⟨-, -, hfind'⟩, hresult⟩
    · rw [Table.has_of_mem hold] at hnew
      cases hnew
    · rw [hfind] at hfind'
      cases hfind'
      exact hresult
  constructor
  · refine ⟨h.keys, fun n o => ⟨h.built n o, ?_⟩⟩
    rintro (hold | ⟨d, hd, hresult⟩)
    · exact h.kept _ hold
    · obtain ⟨o', ho', hresult'⟩ := hbuilt n d hd
      rw [hresult] at hresult'
      cases hresult'
      exact ho'
  · rintro ⟨n, d, e, hd, herror⟩
    obtain ⟨o, -, hresult⟩ := hbuilt n d hd
    rw [herror] at hresult
    cases hresult

/-! ## One round -/

/-- A name that is taken from the queue has no schema. -/
theorem has_of_next?_some {name : Text} (h : r.next? = (some name, r')) :
    r.schemas.has name = false := by
  unfold Registry.next? at h
  split at h
  · cases h
  · next name' rest hrest =>
    cases h
    have hhead := List.head?_dropWhile_not (fun name => r.schemas.has name) r.queue
    rw [hrest] at hhead
    simpa using hhead

theorem mem_required_of_next?_some (h : Expanding file r₀ r) {name : Text}
    (hnext : r.next? = (some name, r')) : name ∈ r.required := by
  obtain ⟨before, rest, hqueue, -, -⟩ := next?_some hnext
  exact h.queued name (by simp [hqueue])

theorem Expanding.builds (h : Expanding file r₀ r) {name : Text}
    (hnext : r.next? = (some name, r')) {d : StructDesc}
    (hfind : file.findStruct name = some d) : Builds file r₀ name d := by
  refine ⟨h.reached name (mem_required_of_next?_some h hnext), ?_, hfind⟩
  -- A schema that had been there from the start would still be there.
  rw [Bool.eq_false_iff]
  intro hold
  have hnew := has_of_next?_some hnext
  rw [h.has_of_has hold] at hnew
  cases hnew

/-- The registry after a name without a schema has got its component. -/
theorem schemas_register {ds : List Demand} (hds : ∀ e ∈ ds, RequiresStruct file e) {name : Text}
    (hnew : r.schemas.has name = false) (o : Object) :
    ((ds ++ [Demand.register name o]).foldl Demand.meet r).schemas = r.schemas ++ [(name, o)] := by
  rw [List.foldl_append]
  show ((ds.foldl Demand.meet r).add name o).2.schemas = _
  unfold Registry.add
  rw [schemas_meetAll fun e he => (hds e he).imp fun _ h => h.2, hnew]
  rfl

/-- What it does to a registry to take a name off the queue and to register the component of its
    struct. -/
structure Round (file : FileDesc) (r r' : Registry Object) (name : Text) (d : StructDesc)
    (o : Object) : Prop where
  schemas : r'.schemas = r.schemas ++ [(name, o)]
  required : ∀ n, n ∈ r'.required ↔ n ∈ r.required ∨ n ∈ componentNames d
  referred : ∀ n ∈ componentNames d, n ∈ referredStructs file
  nodup : r.required.Nodup → r'.required.Nodup
  queued : ∀ n ∈ r'.queue, n ∈ r.queue ∨ n ∈ r'.required
  pending : Pending r → Pending r'
  work : r'.required.length ≤ (referredStructs file).length → work file r' < work file r

theorem round_of_acts {name : Text} (hnext : r.next? = (some name, r')) {d : StructDesc}
    {o : Object} {ds : List Demand} (hacts : Acts (componentOf d) (.ok o) ds)
    (hds : ∀ e ∈ ds, RequiresStruct file e) :
    Round file r ((ds ++ [Demand.register name o]).foldl Demand.meet r') name d o := by
  have hnew := has_of_next?_some hnext
  obtain ⟨before, rest, hqueue, hr', -⟩ := next?_some hnext
  have hext := extends_meetAll r' (ds ++ [Demand.register name o])
  have hschemas := schemas_register (r := r') hds (by rw [hr']; exact hnew) o
  constructor
  case schemas => rw [hschemas, hr']
  case required =>
    intro n
    rw [mem_required_meetAll, hacts.mem_componentNames, hr']
    simp
  case referred =>
    intro n hn
    obtain ⟨_, hk, heq⟩ := hds _ (hacts.mem_componentNames.1 hn)
    cases heq
    exact hk
  case nodup =>
    intro h
    exact nodup_required_meetAll (by rw [hr']; exact h) _
  -- New names wait behind the ones that have been there.
  case queued =>
    obtain ⟨more, hreq, hq⟩ := hext.required
    intro n hn
    rw [hq, hr'] at hn
    rw [hreq, hqueue]
    rcases List.mem_append.1 hn with hn | hn
    · exact Or.inl (List.mem_append_right _ (List.mem_cons_of_mem _ hn))
    · exact Or.inr (List.mem_append_right _ hn)
  case pending =>
    intro hp
    exact hp.next hnext hext (by rw [hschemas]; simp)
  case work => exact work_next_lt hnext hext

/-- A round keeps the invariant, and leaves less work. -/
theorem Expanding.step (h : Expanding file r₀ r) {name : Text} {d : StructDesc} {o : Object}
    (hround : Round file r r' name d o) (hnew : r.schemas.has name = false)
    (hbuilds : Builds file r₀ name d) (hresult : componentResult d = .ok o) :
    Expanding file r₀ r' ∧ work file r' < work file r := by
  have hreferred : ∀ n ∈ r'.required, n ∈ referredStructs file := fun n hn =>
    ((hround.required n).1 hn).elim (h.referred n) (hround.referred n)
  constructor
  · constructor
    case nodup => exact hround.nodup h.nodup
    case queued =>
      intro n hn
      exact (hround.queued n hn).elim (fun hn => (hround.required n).2 (Or.inl (h.queued n hn))) id
    case pending => exact hround.pending h.pending
    case roots => exact fun n hn => (hround.required n).2 (Or.inl (h.roots n hn))
    case reached =>
      intro n hn
      rcases (hround.required n).1 hn with hn | hn
      · exact h.reached n hn
      · exact .component hbuilds.1 hbuilds.2.1 hbuilds.2.2 hn
    case referred => exact hreferred
    case keys =>
      rw [hround.schemas, ← Table.insert_eq_append hnew]
      exact Table.nodup_keys_insert h.keys name o
    case kept =>
      intro e he
      rw [hround.schemas]
      exact List.mem_append_left _ (h.kept e he)
    case built =>
      intro n p hp
      rw [hround.schemas] at hp
      rcases List.mem_append.1 hp with hp | hp
      · exact h.built n p hp
      · cases List.mem_singleton.1 hp
        exact Or.inr ⟨d, hbuilds, hresult⟩
    case edges =>
      intro n d' hd' hn k hk
      refine (hround.required k).2 ?_
      -- a name with a schema has had it before, or it is the name of this round
      have hn' : r.schemas.has n = true ∨ name = n := by simpa [hround.schemas] using hn
      rcases hn' with hn | rfl
      · exact Or.inl (h.edges n d' hd' hn k hk)
      · obtain rfl : d' = d := Option.some.inj (hd'.2.2.symm.trans hbuilds.2.2)
        exact Or.inr hk
  · exact hround.work ((hround.nodup h.nodup).subperm hreferred).length_le

/-! ## The whole expansion -/

/-- A round takes a name off the queue, expands its struct, and goes on. -/
theorem ends_expandRequired_succ {bound : Nat} {name : Text} {d : StructDesc} {t : Session}
    (hnext : s.registry.next? = (some name, r)) (hfind : file.findStruct name = some d) :
    Ends (expandRequired file (bound + 1)) s () t ↔
      ∃ u, Ends (expand d) { s with registry := r } () u ∧
        Ends (expandRequired file bound) u () t := by
  rw [expandRequired, ends_bind]
  constructor
  · rintro ⟨_, _, hget, h⟩
    obtain ⟨rfl, rfl⟩ := ends_get.1 hget
    rw [hnext] at h
    obtain ⟨_, _, hupdate, h⟩ := ends_bind.1 h
    obtain rfl := ends_modify.1 hupdate
    simp only [hfind] at h
    obtain ⟨_, u, hexpand, h⟩ := ends_bind.1 h
    exact ⟨u, hexpand, h⟩
  · rintro ⟨u, hexpand, h⟩
    refine ⟨s, s, ends_get.2 ⟨rfl, rfl⟩, ?_⟩
    rw [hnext]
    refine ends_bind.2 ⟨(), _, ends_modify.2 rfl, ?_⟩
    simp only [hfind]
    exact ends_bind.2 ⟨(), u, hexpand, h⟩

theorem ends_expandRequired_none {bound : Nat} (hnext : s.registry.next? = (none, r)) :
    Ends (expandRequired file (bound + 1)) s () { s with registry := r } := by
  rw [expandRequired, ends_bind]
  refine ⟨s, s, ends_get.2 ⟨rfl, rfl⟩, ?_⟩
  rw [hnext]
  exact ends_bind.2 ⟨(), _, ends_modify.2 rfl, ends_pure.2 ⟨rfl, rfl⟩⟩

/-- With a bound above the work that is left, the expansion registers the components of all reached
    names, or it fails because one of these components does. -/
theorem expanded_or_fails (hfile : Grounded file) (bound : Nat)
    (h : Expanding file r₀ s.registry) (hbound : work file s.registry < bound) :
    (∃ t, Ends (expandRequired file bound) s () t ∧ Expanded file r₀ t.registry.schemas ∧
      ¬ Fails file r₀) ∨
    ((∀ t, ¬ Ends (expandRequired file bound) s () t) ∧ Fails file r₀) := by
  induction bound generalizing s with
  | zero => exact absurd hbound (Nat.not_lt_zero _)
  | succ bound ih =>
    rcases hnext : s.registry.next? with ⟨name, r⟩
    cases name with
    | none =>
      -- nothing waits, so every required name has its schema
      refine Or.inl ⟨_, ends_expandRequired_none hnext, ?_⟩
      obtain ⟨rfl, hall⟩ := next?_none hnext
      exact h.expanded fun n hn => (h.pending n hn).elim (hall n) id
    | some name =>
      have hmem := mem_required_of_next?_some h hnext
      obtain ⟨d, hfind, hname, x, ds, hacts, hds⟩ := hfile name (h.referred name hmem)
      simp only [ends_expandRequired_succ hnext hfind]
      cases x with
      | error e =>
        -- the component of the name fails, and the expansion with it
        refine Or.inr ⟨?_, name, d, e, h.builds hnext hfind, hacts.componentResult_eq⟩
        rintro t ⟨u, hu, -⟩
        cases (acts_expand_error hacts).eq_ok hu
      | ok o =>
        -- the rest of the expansion starts in a registry for which the invariant holds again
        obtain ⟨u, hu, hregistry⟩ := (acts_expand hacts).ends { s with registry := r }
        have hround := round_of_acts hnext hacts hds
        rw [← hname, ← hregistry] at hround
        obtain ⟨hstep, hwork⟩ := h.step hround (hname ▸ has_of_next?_some hnext)
          (hname ▸ h.builds hnext hfind) hacts.componentResult_eq
        refine (ih hstep (by omega)).imp ?_ ?_
        · rintro ⟨t, ht, hexpanded⟩
          exact ⟨t, ⟨u, hu, ht⟩, hexpanded⟩
        · rintro ⟨hnone, hfails⟩
          refine ⟨?_, hfails⟩
          rintro t ⟨u', hu', ht⟩
          obtain rfl : u = u' := (Prod.mk.inj (hu.symm.trans hu')).2
          exact hnone t ht

/-- The bound of the whole expansion is enough. -/
theorem expandAll_expanded_or_fails (hfile : Grounded file) (h : Expanding file r₀ s.registry) :
    (∃ t, Ends (expandAll file) s () t ∧ Expanded file r₀ t.registry.schemas ∧ ¬ Fails file r₀) ∨
    ((∀ t, ¬ Ends (expandAll file) s () t) ∧ Fails file r₀) := by
  -- What waits and what may still be required is all the work there is.
  have hbound : work file s.registry <
      s.registry.queue.length + (referredStructs file).length + 1 := by
    unfold work
    omega
  have hrun : ∀ t, Ends (expandAll file) s () t ↔
      Ends (expandRequired file (s.registry.queue.length + (referredStructs file).length + 1))
        s () t := by
    intro t
    unfold expandAll
    rw [ends_bind]
    constructor
    · rintro ⟨_, _, hget, h⟩
      obtain ⟨rfl, rfl⟩ := ends_get.1 hget
      exact h
    · exact fun h => ⟨s, s, ends_get.2 ⟨rfl, rfl⟩, h⟩
  simp only [hrun]
  exact expanded_or_fails hfile _ h hbound

/-! ## Registries with the same entries -/

/-- The registry that demands lead to. -/
def registryOf (ds : List Demand) : Registry Object :=
  ds.foldl Demand.meet .empty

/-- No two schemas are registered under one name. -/
def Coherent (ds : List Demand) : Prop :=
  ∀ n o o', Demand.register n o ∈ ds → Demand.register n o' ∈ ds → o = o'

theorem mem_required_registryOf {ds : List Demand} {n : Text} :
    n ∈ (registryOf ds).required ↔ Demand.require n ∈ ds :=
  mem_required_meetAll.trans (or_iff_right List.not_mem_nil)

theorem mem_schemas_registryOf {ds : List Demand} (h : Coherent ds) {n : Text} {o : Object} :
    (n, o) ∈ (registryOf ds).schemas ↔ Demand.register n o ∈ ds := by
  constructor
  · exact fun hmem => (mem_schemas_meetAll hmem).resolve_left List.not_mem_nil
  · intro hmem
    -- Some schema is registered under the name, and there is only one that can be.
    obtain ⟨o', ho'⟩ := Table.has_iff_exists_mem.1
      (has_schemas_meetAll (r := .empty) hmem)
    have hmem' := (mem_schemas_meetAll ho').resolve_left List.not_mem_nil
    rwa [h n o o' hmem hmem']

/-- Before the expansion nothing has been taken from the queue. -/
theorem expanding_registryOf {ds : List Demand}
    (h : ∀ n, Demand.require n ∈ ds → n ∈ referredStructs file) :
    Expanding file (registryOf ds) (registryOf ds) := by
  obtain ⟨new, hreq, hqueue⟩ := (extends_meetAll .empty ds).required
  have heq : (registryOf ds).queue = (registryOf ds).required := hqueue.trans hreq.symm
  constructor
  case nodup => exact nodup_required_meetAll (r := .empty) List.nodup_nil ds
  case queued => exact fun n hn => heq ▸ hn
  case pending => exact fun n hn => Or.inl (heq ▸ hn)
  case roots => exact fun _ hn => hn
  case reached => exact fun _ hn => .required hn
  case referred => exact fun n hn => h n (mem_required_registryOf.1 hn)
  case keys => exact nodup_keys_meetAll (r := .empty) List.nodup_nil ds
  case kept => exact fun _ he => he
  case built => exact fun _ _ hmem => Or.inl hmem
  case edges =>
    rintro n d ⟨-, hnew, -⟩ hold
    rw [hnew] at hold
    cases hold

/-- The same names are required, and the same schemas are registered. -/
structure SameEntries (r r' : Registry Object) : Prop where
  required : ∀ n, n ∈ r.required ↔ n ∈ r'.required
  schemas : ∀ e, e ∈ r.schemas ↔ e ∈ r'.schemas

theorem SameEntries.symm (h : SameEntries r r') : SameEntries r' r :=
  ⟨fun n => (h.required n).symm, fun e => (h.schemas e).symm⟩

/-- The order of demands does not matter as long as they agree on what is registered. -/
theorem sameEntries_of_perm {ds ds' : List Demand} (hcoherent : Coherent ds) (h : ds.Perm ds') :
    SameEntries (registryOf ds) (registryOf ds') := by
  have hcoherent' : Coherent ds' := fun n o o' ho ho' =>
    hcoherent n o o' (h.mem_iff.2 ho) (h.mem_iff.2 ho')
  constructor
  · intro n
    rw [mem_required_registryOf, mem_required_registryOf, h.mem_iff]
  · rintro ⟨n, o⟩
    rw [mem_schemas_registryOf hcoherent, mem_schemas_registryOf hcoherent', h.mem_iff]

section Same

variable {file' : FileDesc}

theorem SameEntries.has_eq (h : SameEntries r r') (n : Text) :
    r'.schemas.has n = r.schemas.has n := by
  rw [Bool.eq_iff_iff, Table.has_iff_exists_mem, Table.has_iff_exists_mem]
  exact exists_congr fun o => (h.schemas (n, o)).symm

/-- What is reached depends on the structs of the file only. -/
theorem SameEntries.reached (h : SameEntries r r') (hfile : file'.structs = file.structs) {n : Text}
    (hn : Reached file r n) : Reached file' r' n := by
  induction hn with
  | required hn => exact .required ((h.required _).1 hn)
  | component _ hnew hfind hk ih =>
    refine .component ih ((h.has_eq _).trans hnew) ?_ hk
    unfold FileDesc.findStruct
    rw [hfile]
    exact hfind

theorem SameEntries.builds (h : SameEntries r r') (hfile : file'.structs = file.structs) {n : Text}
    {d : StructDesc} (hn : Builds file r n d) : Builds file' r' n d := by
  obtain ⟨hreached, hnew, hfind⟩ := hn
  refine ⟨h.reached hfile hreached, (h.has_eq n).trans hnew, ?_⟩
  unfold FileDesc.findStruct
  rw [hfile]
  exact hfind

theorem SameEntries.fails (h : SameEntries r r') (hfile : file'.structs = file.structs)
    (hfails : Fails file r) : Fails file' r' := by
  obtain ⟨n, d, e, hbuilds, herror⟩ := hfails
  exact ⟨n, d, e, h.builds hfile hbuilds, herror⟩

/-- Expansions that start with the same entries end with the same schemas. -/
theorem SameEntries.perm (h : SameEntries r r') (hfile : file'.structs = file.structs)
    {schemas schemas' : Table Object} (hexpanded : Expanded file r schemas)
    (hexpanded' : Expanded file' r' schemas') : schemas.Perm schemas' := by
  refine (List.perm_ext_iff_of_nodup (List.Nodup.of_map _ hexpanded.keys)
    (List.Nodup.of_map _ hexpanded'.keys)).2 ?_
  rintro ⟨n, o⟩
  rw [hexpanded.mem, hexpanded'.mem, h.schemas]
  -- the component of a struct is the same, so it is enough that the same ones are built
  refine or_congr_right (exists_congr fun d => and_congr_left fun _ => ?_)
  exact ⟨h.builds hfile, h.symm.builds hfile.symm⟩

end Same

end IdlBridge.Generation
