import IdlBridge.Proofs.Computation
import IdlBridge.Proofs.Reflection.Closed
import IdlBridge.Proto.Resolve

/-! # Reflected Protocol Buffers sources are closed

    A name resolves to a message or an enumeration only through the table of symbols, and the
    symbols are those of the reached files.  The same files are registered, message by message
    under the same nesting paths, so whatever a symbol stands for is in the tables of the file.
-/

namespace IdlBridge.Proto

open TypeDesc

/-! ## Symbols -/

/-- What a symbol stands for satisfies `P` if it is a message, `Q` if it is an enumeration. -/
def Symbol.Within (P Q : Text → Prop) : Symbol → Prop
  | .message name => P name
  | .enum name => Q name

namespace SymbolTable

variable {symbols : SymbolTable} {P Q : Text → Prop}

/-- All symbols of a table are within `P` and `Q`. -/
def Within (symbols : SymbolTable) (P Q : Text → Prop) : Prop :=
  ∀ e ∈ symbols, e.2.Within P Q

theorem search?_within (h : symbols.Within P Q) {name : Text} {scope : List Text} {s : Symbol}
    (hs : symbols.search? name scope = some s) : s.Within P Q := by
  induction scope with
  | nil => exact h _ (Table.mem_of_get? hs)
  | cons c outer ih =>
    rw [search?] at hs
    split at hs
    · next s' hs' =>
      cases hs
      exact h _ (Table.mem_of_get? hs')
    · exact ih hs

theorem lookup?_within (h : symbols.Within P Q) {name scope : Text} {s : Symbol}
    (hs : symbols.lookup? name scope = some s) : s.Within P Q := by
  unfold lookup? at hs
  split at hs
  · split at hs
    · exact h _ (Table.mem_of_get? hs)
    · exact search?_within h hs
  · exact search?_within h hs

theorem resolveType_within (h : symbols.Within P Q) (name scope : Text) :
    (symbols.resolveType name scope).Within P Q := by
  unfold resolveType resolveOrMiss
  dsimp only
  split
  · exact within_scalar name
  · split
    · exact within_scalar _
    · split
      · next hs => exact within_struct.2 (lookup?_within h hs)
      · next hs => exact within_enum.2 (lookup?_within h hs)
      · exact within_scalar _

theorem resolve_run (symbols : SymbolTable) (name scope : Text) (ns : List Notice) :
    ((symbols.resolve name scope).run ns).1 = symbols.resolveType name scope := by
  unfold resolve resolveType
  rcases symbols.resolveOrMiss name scope with ⟨t, _ | _⟩ <;> rfl

end SymbolTable

variable {symbols : SymbolTable} {P Q : Text → Prop}

/-! ## Fields and messages -/

theorem resolve_within (h : symbols.Within P Q) {name scope : Text} {ns ns' : List Notice}
    {t : TypeDesc} (hr : (symbols.resolve name scope).run ns = (t, ns')) : t.Within P Q := by
  have ht := symbols.resolve_run name scope ns
  rw [hr] at ht
  dsimp only at ht
  rw [ht]
  exact SymbolTable.resolveType_within h name scope

theorem fieldType_within (h : symbols.Within P Q) {scope : Text} {f : Field} {ns ns' : List Notice}
    {t : TypeDesc} (hr : (fieldType symbols scope f).run ns = (t, ns')) : t.Within P Q := by
  unfold fieldType at hr
  rcases hv : (symbols.resolve f.typeName scope).run ns with ⟨value, ns₁⟩
  have hvalue := resolve_within h hv
  rw [StateT.run_bind, hv] at hr
  split at hr
  · next key _ =>
    rcases hk : (symbols.resolve key scope).run ns₁ with ⟨k, ns₂⟩
    change ((symbols.resolve key scope >>= fun k => pure (.map k value)).run ns₁) = (t, ns') at hr
    rw [StateT.run_bind, hk] at hr
    cases hr
    exact within_map.2 ⟨resolve_within h hk, hvalue⟩
  · cases hr
    split
    · exact within_list.2 hvalue
    · exact hvalue

theorem field_within (h : symbols.Within P Q) {scope : Text} {f : Field} {ns ns' : List Notice}
    {d : FieldDesc} (hd : Ends (field symbols scope f) ns d ns') : d.type.Within P Q := by
  unfold field at hd
  simp only [ends_bind, ends_pure, ends_lift_state] at hd
  obtain ⟨t, _, ht, _, _, -, rfl, -⟩ := hd
  exact fieldType_within h ht

theorem message_within (h : symbols.Within P Q) {package path : Text} {m : Message}
    {ns ns' : List Notice} {d : StructDesc} (hd : Ends (message symbols package path m) ns d ns') :
    StructDesc.EntryWithin P Q (path, d) := by
  unfold message at hd
  simp only [ends_bind, ends_pure] at hd
  obtain ⟨fields, _, hfields, _, _, -, rfl, -⟩ := hd
  refine ⟨rfl, ?_⟩
  intro f hf
  obtain ⟨node, -, _, _, hnode⟩ := ends_mapM hfields f hf
  exact field_within h hnode

theorem registerMessages_spec (h : symbols.Within P Q) {package : Text}
    {ms : List (Text × Message)} {table out : Table StructDesc} {ns ns' : List Notice}
    (htable : ∀ e ∈ table, StructDesc.EntryWithin P Q e)
    (hr : Ends (registerMessages symbols package ms table) ns out ns') :
    (∀ e ∈ out, StructDesc.EntryWithin P Q e) ∧
      (∀ n, table.has n = true → out.has n = true) ∧ ∀ e ∈ ms, out.has e.1 = true := by
  induction ms generalizing table ns with
  | nil =>
    rw [registerMessages, ends_pure] at hr
    obtain ⟨rfl, -⟩ := hr
    exact ⟨htable, fun _ hn => hn, fun _ he => by cases he⟩
  | cons e rest ih =>
    obtain ⟨path, m⟩ := e
    rw [registerMessages] at hr
    split at hr
    · next hpath =>
      -- A path that is taken is passed over, and the first message stays.
      obtain ⟨h1, h2, h3⟩ := ih htable hr
      refine ⟨h1, h2, ?_⟩
      intro e he
      rcases List.mem_cons.1 he with rfl | he
      · exact h2 _ hpath
      · exact h3 e he
    · rw [ends_bind] at hr
      obtain ⟨d, ns₁, hd, hr⟩ := hr
      have hnew : ∀ e ∈ table ++ [(path, d)], StructDesc.EntryWithin P Q e := by
        intro e he
        rcases List.mem_append.1 he with he | he
        · exact htable e he
        · rw [List.mem_singleton.1 he]
          exact message_within h hd
      obtain ⟨h1, h2, h3⟩ := ih hnew hr
      refine ⟨h1, fun n hn => h2 n (by simp [hn]), ?_⟩
      intro e he
      rcases List.mem_cons.1 he with rfl | he
      · exact h2 _ (by simp)
      · exact h3 e he

namespace SourceSet

variable {set : SourceSet}

theorem registerAll_spec (h : symbols.Within P Q) {fs : List File} {table out : Table StructDesc}
    {ns ns' : List Notice} (htable : ∀ e ∈ table, StructDesc.EntryWithin P Q e)
    (hr : Ends (registerAll symbols fs table) ns out ns') :
    (∀ e ∈ out, StructDesc.EntryWithin P Q e) ∧
      (∀ n, table.has n = true → out.has n = true) ∧
      ∀ f ∈ fs, ∀ e ∈ walkAll [] f.messages, out.has e.1 = true := by
  induction fs generalizing table ns with
  | nil =>
    rw [registerAll, ends_pure] at hr
    obtain ⟨rfl, -⟩ := hr
    exact ⟨htable, fun _ hn => hn, fun _ hf => by cases hf⟩
  | cons f rest ih =>
    rw [registerAll, ends_bind] at hr
    obtain ⟨mid, ns₁, hmid, hr⟩ := hr
    obtain ⟨m1, m2, m3⟩ := registerMessages_spec h htable hmid
    obtain ⟨h1, h2, h3⟩ := ih m1 hr
    refine ⟨h1, fun n hn => h2 n (m2 n hn), ?_⟩
    intro g hg e he
    rcases List.mem_cons.1 hg with rfl | hg
    · exact h2 _ (m3 e he)
    · exact h3 g hg e he

/-! ## The symbols are what is registered -/

/-- Some reached file declares a message under the nesting path. -/
def DeclaresMessage (set : SourceSet) (path : Text) : Prop :=
  ∃ f ∈ set.files, ∃ e ∈ walkAll [] f.messages, e.1 = path

/-- Some reached file declares an enumeration under the nesting path. -/
def DeclaresEnum (set : SourceSet) (path : Text) : Prop :=
  ∃ f ∈ set.files, ∃ e ∈ f.enumPaths, e.1 = path

theorem symbols_within (set : SourceSet) :
    set.symbols.Within set.DeclaresMessage set.DeclaresEnum := by
  intro e he
  rcases Table.mem_foldl_insertNew Prod.fst Prod.snd he with he | ⟨s, hs, rfl⟩
  · cases he
  · obtain ⟨f, hf, hs⟩ := List.mem_flatMap.1 hs
    rcases List.mem_append.1 hs with hs | hs
    · obtain ⟨d, hd, rfl⟩ := List.mem_map.1 hs
      exact ⟨f, hf, (d.name, d), List.mem_append_left _ (List.mem_map.2 ⟨d, hd, rfl⟩), rfl⟩
    · obtain ⟨⟨path, m⟩, hm, hs⟩ := List.mem_flatMap.1 hs
      rcases List.mem_cons.1 hs with rfl | hs
      · exact ⟨f, hf, (path, m), hm, rfl⟩
      · obtain ⟨d, hd, rfl⟩ := List.mem_map.1 hs
        exact ⟨f, hf, d, List.mem_append_right _ (List.mem_flatMap.2 ⟨(path, m), hm, hd⟩), rfl⟩

theorem has_enums_of_declares {path : Text} (h : set.DeclaresEnum path) :
    set.enums.has path = true := by
  obtain ⟨f, hf, e, he, rfl⟩ := h
  have hall := Table.has_foldl_insertNew Prod.fst (fun e => enumeration e.1 e.2)
    (set.files.flatMap File.enumPaths) [] e.1
  refine hall.trans ?_
  rw [Bool.or_eq_true]
  exact Or.inr (List.any_eq_true.2 ⟨e, List.mem_flatMap.2 ⟨f, hf, he⟩, by simp⟩)

/-! ## Services -/

theorem messageFor_spec {structs : Table StructDesc} {scope : Text} {part : MethodPart}
    {service rpc typeName : Text} {d : StructDesc} {ns ns' : List Notice}
    (hstructs : ∀ e ∈ structs, e.2.name = e.1)
    (h : Ends (messageFor symbols structs scope part service rpc typeName) ns (some d) ns') :
    structs.get? d.name = some d := by
  unfold messageFor at h
  split at h
  · simp at h
  · rw [ends_bind] at h
    obtain ⟨t, _, -, h⟩ := h
    split at h
    · split at h
      · next s hs =>
        simp only [ends_pure, Option.some.injEq] at h
        obtain ⟨rfl, -⟩ := h
        rw [hstructs _ (Table.mem_of_get? hs)]
        exact hs
      · exact absurd h ends_throw
    · exact absurd h ends_throw

theorem method_spec {structs : Table StructDesc} {scope service : Text} {r : Rpc}
    {m : MethodDesc} {ns ns' : List Notice} (hstructs : ∀ e ∈ structs, e.2.name = e.1)
    (h : Ends (method symbols structs scope service r) ns m ns') :
    ∀ d, m.request = some d ∨ m.response = some d → structs.get? d.name = some d := by
  unfold method at h
  simp only [ends_bind, ends_pure] at h
  obtain ⟨-, _, -, request, _, hreq, response, _, hres, _, _, -, rfl, -⟩ := h
  rintro d (hd | hd)
  · cases hd
    exact messageFor_spec hstructs hreq
  · cases hd
    exact messageFor_spec hstructs hres

theorem service_spec {structs : Table StructDesc} {scope : Text} {s : Service} {d : ServiceDesc}
    {ns ns' : List Notice} (hstructs : ∀ e ∈ structs, e.2.name = e.1)
    (h : Ends (service symbols structs scope s) ns d ns') :
    ∀ m ∈ d.methods, ∀ r, m.request = some r ∨ m.response = some r →
      structs.get? r.name = some r := by
  unfold service at h
  simp only [ends_bind, ends_pure] at h
  obtain ⟨_, _, -, methods, _, hmethods, rfl, -⟩ := h
  intro m hm
  obtain ⟨r, -, _, _, hr⟩ := ends_mapM hmethods m hm
  exact method_spec hstructs hr

/-- What reflecting Protocol Buffers sources gives is closed. -/
theorem closed_of_reflect {file : FileDesc} {ns ns' : List Notice}
    (h : Ends set.reflect ns file ns') : file.Closed := by
  unfold reflect at h
  rw [ends_bind] at h
  obtain ⟨structs, _, hstructs, h⟩ := h
  obtain ⟨hreg, -, hall⟩ :=
    registerAll_spec set.symbols_within (fun _ he => by cases he) hstructs
  split at h
  · next main hmain =>
    simp only [ends_bind, ends_pure] at h
    obtain ⟨services, _, hservices, rfl, -⟩ := h
    refine FileDesc.closed_of_entries hreg ?_ (fun n => has_enums_of_declares) ?_
    · rintro n ⟨f, hf, e, he, rfl⟩
      exact hall f hf e he
    · intro s hs
      obtain ⟨node, -, _, _, hnode⟩ := ends_mapM hservices s hs
      exact service_spec (fun e he => (hreg e he).1) hnode
  · exact absurd h ends_throw

end SourceSet

end IdlBridge.Proto
