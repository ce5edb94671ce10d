import IdlBridge.Proofs.Computation
import IdlBridge.Proofs.Reflection.Closed
import IdlBridge.Proofs.Traversal
import IdlBridge.Thrift.Resolve

/-! # Reflected Thrift sources are closed

    A type resolves to a struct or an enumeration only where some source on the way declares it:
    the source that holds the type, a source that it includes, or one that a typedef leads to.  All
    of them are reached from the main source, and everything that a reached source declares is
    registered.
-/

namespace IdlBridge.Thrift.SourceSet

open TypeDesc

variable {set : SourceSet}

/-! ## What the reached sources declare -/

/-- Some reached source declares a struct of the name. -/
def DeclaresStruct (set : SourceSet) (name : Text) : Prop :=
  ∃ i ∈ set.order, ∃ s, set.source? i = some s ∧ ∃ d ∈ s.document.structs, d.name = name

/-- Some reached source declares an enumeration of the name. -/
def DeclaresEnum (set : SourceSet) (name : Text) : Prop :=
  ∃ i ∈ set.order, ∃ s, set.source? i = some s ∧ ∃ d ∈ s.document.enums, d.name = name

theorem source?_lt {i : Nat} {s : Source} (h : set.source? i = some s) :
    i < set.sources.length :=
  (List.getElem?_eq_some_iff.1 h).1

/-- A name of a reached source is looked up in a reached source. -/
theorem locate?_mem_order {i : Nat} {name : Text} {key : Key} {s : Source} (hi : i ∈ set.order)
    (h : set.locate? i name = some key) (hs : set.source? key.1 = some s) : key.1 ∈ set.order := by
  unfold locate? at h
  split at h
  · cases h
    exact hi
  · next file inner _ =>
    obtain ⟨j, hj, rfl⟩ := Option.map_eq_some_iff.1 h
    obtain ⟨t, ht, hj⟩ := Option.bind_eq_some_iff.1 hj
    refine Traversal.preorder_closed hi ?_ (source?_lt hs)
    rw [ht]
    exact List.mem_map.2 ⟨(file, j), Table.mem_of_get? hj, rfl⟩

/-- A name without typedef refers to something that a reached source declares, or to a scalar. -/
theorem declared_within {key : Key} {name : Text}
    (h : set.source? key.1 ≠ none → key.1 ∈ set.order) :
    (set.declared key name).Within set.DeclaresStruct set.DeclaresEnum := by
  unfold declared
  split
  · next s hs =>
    have hi : key.1 ∈ set.order := h (by rw [hs]; simp)
    split
    · next hd =>
      obtain ⟨d, hd, hn⟩ := List.any_eq_true.1 hd
      exact within_struct.2 ⟨key.1, hi, s, hs, d, hd, of_decide_eq_true hn⟩
    · split
      · next hd =>
        obtain ⟨d, hd, hn⟩ := List.any_eq_true.1 hd
        exact within_enum.2 ⟨key.1, hi, s, hs, d, hd, of_decide_eq_true hn⟩
      · exact within_scalar name
  · exact within_scalar name

theorem resolve_within {i : Nat} {seen : List Key} {t : TypeRef} {d : TypeDesc}
    (hi : i ∈ set.order) (h : set.resolve i seen t = .ok d) :
    d.Within set.DeclaresStruct set.DeclaresEnum := by
  fun_induction set.resolve i seen t generalizing d with
  | case1 i seen t a hs ih =>
    obtain ⟨e, he, h⟩ := bind_eq_ok.1 h
    rw [← pure_eq_ok.1 h]
    exact within_list.2 (ih hi he)
  | case2 i seen t a hs ih =>
    obtain ⟨e, he, h⟩ := bind_eq_ok.1 h
    rw [← pure_eq_ok.1 h]
    exact within_set.2 (ih hi he)
  | case3 i seen t a b hs iha ihb =>
    obtain ⟨k, hk, h⟩ := bind_eq_ok.1 h
    obtain ⟨v, hv, h⟩ := bind_eq_ok.1 h
    rw [← pure_eq_ok.1 h]
    exact within_map.2 ⟨iha hi hk, ihb hi hv⟩
  | case4 i seen t hs hsc =>
    rw [← pure_eq_ok.1 h]
    exact within_scalar t.name
  | case5 i seen t hs hsc hl =>
    rw [← pure_eq_ok.1 h]
    exact within_scalar t.name
  | case6 i seen t hs hsc key hl e he hk =>
    cases h
  | case7 i seen t hs hsc key hl e he hk ih =>
    -- A typedef is resolved in the source that declares it, which is reached as well.
    obtain ⟨s, hs, -⟩ := Option.bind_eq_some_iff.1 he
    exact ih (locate?_mem_order hi hl hs) h
  | case8 i seen t hs hsc key hl he =>
    rw [← pure_eq_ok.1 h]
    apply declared_within
    intro hs
    obtain ⟨s, hs⟩ := Option.ne_none_iff_exists'.1 hs
    exact locate?_mem_order hi hl hs

/-! ## What is registered -/

theorem field_within {i : Nat} {f : Field} {d : FieldDesc} (hi : i ∈ set.order)
    (h : set.field i f = .ok d) : d.type.Within set.DeclaresStruct set.DeclaresEnum := by
  obtain ⟨t, ht, h⟩ := bind_eq_ok.1 h
  obtain ⟨as, -, h⟩ := bind_eq_ok.1 h
  rw [← pure_eq_ok.1 h]
  exact resolve_within hi ht

/-- A registered struct is keyed by its name, and the types of its fields lie within what the
    reached sources declare. -/
abbrev Registered (set : SourceSet) : Text × StructDesc → Prop :=
  StructDesc.EntryWithin set.DeclaresStruct set.DeclaresEnum

theorem struct_registered {i : Nat} {s : Struct} {d : StructDesc} (hi : i ∈ set.order)
    (h : set.struct i s = .ok d) : set.Registered (s.name, d) := by
  obtain ⟨fs, hfs, h⟩ := bind_eq_ok.1 h
  obtain ⟨as, -, h⟩ := bind_eq_ok.1 h
  rw [← pure_eq_ok.1 h]
  refine ⟨rfl, ?_⟩
  intro d hd
  obtain ⟨f, -, hf⟩ := exists_of_mapM_eq_ok hfs d hd
  exact field_within hi hf

theorem registerStructs_spec {i : Nat} {ss : List Struct} {table out : Table StructDesc}
    (hi : i ∈ set.order) (htable : ∀ e ∈ table, set.Registered e)
    (h : set.registerStructs i ss table = .ok out) :
    (∀ e ∈ out, set.Registered e) ∧ (∀ n, table.has n = true → out.has n = true) ∧
      ∀ s ∈ ss, out.has s.name = true := by
  induction ss generalizing table with
  | nil =>
    rw [registerStructs, pure_eq_ok] at h
    subst h
    exact ⟨htable, fun _ hn => hn, fun _ hs => by cases hs⟩
  | cons s rest ih =>
    rw [registerStructs] at h
    split at h
    · next hs =>
      -- A name that is taken is passed over, and the first struct stays.
      obtain ⟨h1, h2, h3⟩ := ih htable h
      refine ⟨h1, h2, ?_⟩
      intro s' hs'
      rcases List.mem_cons.1 hs' with rfl | hs'
      · exact h2 _ hs
      · exact h3 s' hs'
    · obtain ⟨d, hd, h⟩ := bind_eq_ok.1 h
      have hnew : ∀ e ∈ table ++ [(s.name, d)], set.Registered e := by
        intro e he
        rcases List.mem_append.1 he with he | he
        · exact htable e he
        · rw [List.mem_singleton.1 he]
          exact struct_registered hi hd
      obtain ⟨h1, h2, h3⟩ := ih hnew h
      refine ⟨h1, fun n hn => h2 n (by simp [hn]), ?_⟩
      intro s' hs'
      rcases List.mem_cons.1 hs' with rfl | hs'
      · exact h2 _ (by simp)
      · exact h3 s' hs'

theorem registerAll_spec {is : List Nat} {table out : Table StructDesc}
    (his : ∀ i ∈ is, i ∈ set.order) (htable : ∀ e ∈ table, set.Registered e)
    (h : set.registerAll is table = .ok out) :
    (∀ e ∈ out, set.Registered e) ∧ (∀ n, table.has n = true → out.has n = true) ∧
      ∀ i ∈ is, ∀ s, set.source? i = some s → ∀ d ∈ s.document.structs, out.has d.name = true := by
  induction is generalizing table with
  | nil =>
    rw [registerAll, pure_eq_ok] at h
    subst h
    exact ⟨htable, fun _ hn => hn, fun _ hi => by cases hi⟩
  | cons i rest ih =>
    rw [registerAll] at h
    obtain ⟨mid, hmid, h⟩ := bind_eq_ok.1 h
    obtain ⟨m1, m2, m3⟩ := registerStructs_spec (his i List.mem_cons_self) htable hmid
    obtain ⟨h1, h2, h3⟩ := ih (fun j hj => his j (List.mem_cons_of_mem _ hj)) m1 h
    refine ⟨h1, fun n hn => h2 n (m2 n hn), ?_⟩
    intro j hj s hs d hd
    rcases List.mem_cons.1 hj with rfl | hj
    · apply h2
      apply m3
      rw [hs]
      exact hd
    · exact h3 j hj s hs d hd

theorem has_registerEnums (es : List Enum) (table : Table EnumDesc) (n : Text) :
    (registerEnums es table).has n = (table.has n || es.any fun e => e.name = n) :=
  Table.has_foldl_insertNew Enum.name enumeration es table n

/-- Every enumeration that a reached source declares is registered. -/
theorem has_enums_of_declares {n : Text} (h : set.DeclaresEnum n) : set.enums.has n = true := by
  obtain ⟨i, hi, s, hs, d, hd, rfl⟩ := h
  -- Along the loop the source is still to come, or the name has been registered.
  have hfold : ∀ (is : List Nat) (t : Table EnumDesc), i ∈ is ∨ t.has d.name = true →
      Table.has (is.foldl (fun t i =>
        registerEnums (((set.source? i).map (·.document.enums)).getD []) t) t) d.name = true := by
    intro is
    induction is with
    | nil => simp
    | cons j rest ih =>
      intro t h
      rw [List.foldl_cons]
      apply ih
      rw [List.mem_cons] at h
      rcases h with (rfl | h) | h
      · refine Or.inr ?_
        rw [has_registerEnums, hs, Bool.or_eq_true]
        exact Or.inr (List.any_eq_true.2 ⟨d, hd, by simp⟩)
      · exact Or.inl h
      · refine Or.inr ?_
        rw [has_registerEnums, h, Bool.true_or]
  exact hfold set.order [] (Or.inl hi)

/-! ## Services -/

theorem structFor_spec {structs : Table StructDesc} {part : MethodPart} {service method : Text}
    {t : TypeRef} {d : StructDesc} (hstructs : ∀ e ∈ structs, e.2.name = e.1)
    (h : set.structFor structs part service method t = .ok d) :
    structs.get? d.name = some d := by
  obtain ⟨r, -, h⟩ := bind_eq_ok.1 h
  split at h
  · next name =>
    split at h
    · next s hs =>
      rw [← pure_eq_ok.1 h, hstructs _ (Table.mem_of_get? hs)]
      exact hs
    · cases h
  · cases h

theorem some_structFor_spec {structs : Table StructDesc} {part : MethodPart}
    {service method : Text} {t : TypeRef} {d : StructDesc}
    (hstructs : ∀ e ∈ structs, e.2.name = e.1)
    (h : some <$> set.structFor structs part service method t = .ok (some d)) :
    structs.get? d.name = some d := by
  rw [← bind_pure_comp, bind_eq_ok] at h
  obtain ⟨s, hs, h⟩ := h
  cases pure_eq_ok.1 h
  exact structFor_spec hstructs hs

theorem requestFor_spec {structs : Table StructDesc} {service : Text} {f : Function}
    {d : StructDesc} (hstructs : ∀ e ∈ structs, e.2.name = e.1)
    (h : set.requestFor structs service f = .ok (some d)) : structs.get? d.name = some d := by
  unfold requestFor at h
  split at h
  · exact some_structFor_spec hstructs h
  · cases pure_eq_ok.1 h

theorem responseFor_spec {structs : Table StructDesc} {service : Text} {f : Function}
    {d : StructDesc} (hstructs : ∀ e ∈ structs, e.2.name = e.1)
    (h : set.responseFor structs service f = .ok (some d)) : structs.get? d.name = some d := by
  unfold responseFor at h
  split at h
  · exact some_structFor_spec hstructs h
  · cases pure_eq_ok.1 h

theorem method_spec {structs : Table StructDesc} {service : Text} {f : Function}
    {m : MethodDesc} {ns ns' : List Notice} (hstructs : ∀ e ∈ structs, e.2.name = e.1)
    (h : Ends (set.method structs service f) ns m ns') :
    ∀ d, m.request = some d ∨ m.response = some d → structs.get? d.name = some d := by
  unfold method at h
  simp only [ends_bind, ends_pure, ends_lift_except] at h
  obtain ⟨-, _, -, request, _, ⟨hreq, rfl⟩, response, _, ⟨hres, rfl⟩, _, _, -, rfl, -⟩ := h
  rintro d (hd | hd)
  · exact requestFor_spec hstructs (hreq.trans (congrArg _ hd))
  · exact responseFor_spec hstructs (hres.trans (congrArg _ hd))

theorem service_spec {structs : Table StructDesc} {s : Service} {d : ServiceDesc}
    {ns ns' : List Notice} (hstructs : ∀ e ∈ structs, e.2.name = e.1)
    (h : Ends (set.service structs s) ns d ns') :
    ∀ m ∈ d.methods, ∀ r, m.request = some r ∨ m.response = some r →
      structs.get? r.name = some r := by
  unfold service at h
  simp only [ends_bind, ends_pure] at h
  obtain ⟨_, _, -, methods, _, hmethods, rfl, -⟩ := h
  intro m hm
  obtain ⟨f, -, _, _, hf⟩ := ends_mapM hmethods m hm
  exact method_spec hstructs hf

/-- What reflecting Thrift sources gives is closed. -/
theorem closed_of_reflect {file : FileDesc} {ns ns' : List Notice}
    (h : Ends set.reflect ns file ns') : file.Closed := by
  unfold reflect at h
  rw [ends_bind] at h
  obtain ⟨structs, _, hstructs, h⟩ := h
  rw [ends_lift_except] at hstructs
  obtain ⟨hstructs, rfl⟩ := hstructs
  obtain ⟨hreg, -, hall⟩ := registerAll_spec (fun _ hi => hi) (fun _ he => by cases he) hstructs
  split at h
  · next main hmain =>
    simp only [ends_bind, ends_pure] at h
    obtain ⟨services, _, hservices, rfl, -⟩ := h
    have hnamed : ∀ e ∈ structs, e.2.name = e.1 := fun e he => (hreg e he).1
    -- Every declared name is registered, and the services are converted against all structs.
    refine FileDesc.closed_of_entries hreg ?_ (fun n => has_enums_of_declares) ?_
    · rintro n ⟨i, hi, s, hs, r, hr, rfl⟩
      exact hall i hi s hs r hr
    · intro s hs
      obtain ⟨node, -, _, _, hnode⟩ := ends_mapM hservices s hs
      exact service_spec hnamed hnode
  · exact absurd h ends_throw

end IdlBridge.Thrift.SourceSet
