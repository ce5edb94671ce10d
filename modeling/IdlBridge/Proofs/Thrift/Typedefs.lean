import IdlBridge.Proofs.Computation
import IdlBridge.Proofs.Table
import IdlBridge.Proofs.Text
import IdlBridge.Thrift.Resolve
import Mathlib.Logic.Relation

/-! # Typedefs are expanded in full

    A type is expanded by putting what a typedef stands for in the place of its name, until no name
    of a typedef is left.  `Expands` says so without an account of what is being expanded: a name is
    looked up in the source that holds it, and what the typedef stands for in the source that
    declares it.

    A type has an expansion exactly where no typedef that it leads to leads back to itself.
    Resolving a type keeps the typedefs that are being expanded around it, and fails at one that it
    meets again.  Each of them leads to the one met, so a failure shows a cycle
    (`reaches_of_resolve_error`); and a type that has an expansion leads to no cycle
    (`Expands.not_loops`), because the expansion is finite.

    A source set is taken to have include aliases without dots.  `alias.Name` is cut at the first
    dot, so that a typedef of a source that is included as `common.v1` is never found.
-/

namespace IdlBridge

/-- The types that a type is built from, containers left aside. -/
def TypeDesc.leaves : TypeDesc → List TypeDesc
  | .list e => e.leaves
  | .set e => e.leaves
  | .map k v => k.leaves ++ v.leaves
  | d => [d]

namespace Thrift

/-- The element types of a container. -/
def TypeRef.Shape.parts : TypeRef.Shape → List TypeRef
  | .list a => [a]
  | .set a => [a]
  | .map a b => [a, b]
  | .named => []

namespace SourceSet

open TypeRef

variable {set : SourceSet} {i : Nat} {t : TypeRef} {key key' : Key} {d d' : TypeDesc}

/-! ## What names point at -/

/-- A name in a source points at a name of the same source, or `alias.Name` at a name of the source
    that the alias stands for. -/
inductive Points (set : SourceSet) (i : Nat) : Text → Key → Prop where
  | own {name : Text} (hname : ('.' : CodePoint) ∉ name) : Points set i name (i, name)
  | included {s : Source} {file inner : Text} {j : Nat} (hs : set.source? i = some s)
      (hj : s.includes.get? file = some j) : Points set i (file ++ "." ++ inner) (j, inner)

/-- No include alias has a dot. -/
def Undotted (set : SourceSet) : Prop :=
  ∀ s ∈ set.sources, ∀ e ∈ s.includes, ('.' : CodePoint) ∉ e.1

/-- No typedef has the name of a base type. -/
def KeepsBases (set : SourceSet) : Prop :=
  ∀ s ∈ set.sources, ∀ td ∈ s.document.typedefs, ScalarType.thrift.has td.name = false

theorem locate?_own {name : Text} (hname : ('.' : CodePoint) ∉ name) :
    set.locate? i name = some (i, name) := by
  rw [locate?, Text.cut?_eq_none.2 hname]

theorem locate?_included {file inner : Text} (hfile : ('.' : CodePoint) ∉ file) :
    set.locate? i (file ++ "." ++ inner) =
      ((set.source? i).bind (·.includes.get? file)).map fun j => (j, inner) := by
  have hname : file ++ "." ++ inner = file ++ ('.' : CodePoint) :: inner := List.append_assoc ..
  rw [locate?, hname, Text.cut?_append hfile]

theorem points_iff (hset : set.Undotted) {name : Text} :
    set.Points i name key ↔ set.locate? i name = some key := by
  constructor
  · intro h
    cases h with
    | own hname => exact locate?_own hname
    | @included s file inner j hs hj =>
      -- The alias of the file has no point, so the name is cut right behind it.
      have hfile : ('.' : CodePoint) ∉ file :=
        hset s (List.mem_of_getElem? hs) (file, j) (Table.mem_of_get? hj)
      rw [locate?_included hfile, hs, Option.bind_some, hj, Option.map_some]
  · intro h
    unfold locate? at h
    split at h
    · next hcut =>
      cases h
      exact .own (Text.cut?_eq_none.1 hcut)
    · next file inner hcut =>
      obtain ⟨hname, -⟩ := Text.cut?_eq_some.1 hcut
      obtain ⟨j, hj, rfl⟩ := Option.map_eq_some_iff.1 h
      obtain ⟨s, hs, hj⟩ := Option.bind_eq_some_iff.1 hj
      rw [hname, ← List.singleton_append, ← List.append_assoc]
      exact .included hs hj

theorem Points.eq (hset : set.Undotted) {name : Text} (h : set.Points i name key)
    (h' : set.Points i name key') : key = key' := by
  rw [points_iff hset] at h h'
  exact Option.some.inj (h.symm.trans h')

/-- A name without dots points at a name of its own source only. -/
theorem Points.eq_own {name : Text} (hname : ('.' : CodePoint) ∉ name)
    (h : set.Points i name key) : key = (i, name) := by
  cases h with
  | own => rfl
  | included => exact absurd (by simp [Text.ofString]) hname

/-- The name of a base type points at no typedef. -/
theorem typedef?_eq_none_of_base (hbase : set.KeepsBases) {name : Text}
    (hname : ScalarType.thrift.has name = true) (hkey : set.Points i name key) :
    set.typedef? key = none := by
  have hdot : ('.' : CodePoint) ∉ name := by
    have hall : ∀ e ∈ ScalarType.thrift, ('.' : CodePoint) ∉ e.1 := by decide
    obtain ⟨v, hv⟩ := Table.has_iff_exists_mem.1 hname
    exact hall _ hv
  rw [hkey.eq_own hdot, Option.eq_none_iff_forall_ne_some]
  intro td htd
  obtain ⟨s, hs, htd⟩ := Option.bind_eq_some_iff.1 htd
  have htdName : td.name = name := by simpa using List.find?_some htd
  have hkeeps := hbase s (List.mem_of_getElem? hs) td (List.mem_of_find?_eq_some htd)
  rw [htdName, hname] at hkeeps
  cases hkeeps

/-! ## Expansions -/

/-- What a name stands for that is not the name of a typedef: a base type, a declaration, or a
    scalar that nobody knows. -/
inductive Denotes (set : SourceSet) (i : Nat) (name : Text) : TypeDesc → Prop where
  | base (hbase : ScalarType.thrift.has name = true) : Denotes set i name (.scalar name)
  | declared {key : Key} (hbase : ScalarType.thrift.has name = false)
      (hkey : set.Points i name key) : Denotes set i name (set.declared key name)
  | unknown (hbase : ScalarType.thrift.has name = false)
      (hnone : ∀ key, ¬ set.Points i name key) : Denotes set i name (.scalar name)

/-- The type of source `i` with every name of a typedef replaced by the expansion of what the
    typedef stands for in the source that declares it. -/
inductive Expands (set : SourceSet) : Nat → TypeRef → TypeDesc → Prop where
  | list {i : Nat} {t a : TypeRef} {d : TypeDesc} (ht : t.shape = .list a)
      (ha : Expands set i a d) : Expands set i t (.list d)
  | set {i : Nat} {t a : TypeRef} {d : TypeDesc} (ht : t.shape = .set a)
      (ha : Expands set i a d) : Expands set i t (.set d)
  | map {i : Nat} {t a b : TypeRef} {k v : TypeDesc} (ht : t.shape = .map a b)
      (ha : Expands set i a k) (hb : Expands set i b v) : Expands set i t (.map k v)
  | typedef {i : Nat} {t : TypeRef} {key : Key} {td : Typedef} {d : TypeDesc}
      (ht : t.shape = .named) (hkey : set.Points i t.name key) (htd : set.typedef? key = some td)
      (hd : Expands set key.1 td.type d) : Expands set i t d
  | leaf {i : Nat} {t : TypeRef} {d : TypeDesc} (ht : t.shape = .named)
      (hnone : ∀ key, set.Points i t.name key → set.typedef? key = none)
      (hd : set.Denotes i t.name d) : Expands set i t d

/-- The type of source `i` names the typedef, perhaps in the type of its elements, keys or
    values. -/
inductive Mentions (set : SourceSet) (i : Nat) : TypeRef → Key → Prop where
  | part {t a : TypeRef} {key : Key} (ha : a ∈ t.shape.parts) (hkey : Mentions set i a key) :
      Mentions set i t key
  | named {t : TypeRef} {key : Key} {td : Typedef} (ht : t.shape = .named)
      (hkey : set.Points i t.name key) (htd : set.typedef? key = some td) : Mentions set i t key

/-- What the typedef stands for names another one, in the source that declares it. -/
def Next (set : SourceSet) (key key' : Key) : Prop :=
  ∃ td, set.typedef? key = some td ∧ set.Mentions key.1 td.type key'

/-- The type leads to the typedef, directly or through what other typedefs stand for. -/
def Reaches (set : SourceSet) (i : Nat) (t : TypeRef) (key : Key) : Prop :=
  ∃ first, set.Mentions i t first ∧ Relation.ReflTransGen set.Next first key

/-- The typedef leads back to itself. -/
def Loops (set : SourceSet) (key : Key) : Prop :=
  Relation.TransGen set.Next key key

/-- A typedef leads where what it stands for leads. -/
theorem transGen_next_iff {td : Typedef} (htd : set.typedef? key = some td) :
    Relation.TransGen set.Next key key' ↔ set.Reaches key.1 td.type key' := by
  rw [Relation.TransGen.head'_iff]
  constructor
  · rintro ⟨first, ⟨td', htd', hfirst⟩, hpath⟩
    cases htd.symm.trans htd'
    exact ⟨first, hfirst, hpath⟩
  · rintro ⟨first, hfirst, hpath⟩
    exact ⟨first, ⟨td, htd, hfirst⟩, hpath⟩

theorem reaches_of_part {a : TypeRef} (ha : a ∈ t.shape.parts) (h : set.Reaches i a key) :
    set.Reaches i t key := by
  obtain ⟨first, hfirst, hpath⟩ := h
  exact ⟨first, .part ha hfirst, hpath⟩

/-- A container leads where the types of its elements lead. -/
theorem Reaches.exists_part (ht : t.shape ≠ .named) (h : set.Reaches i t key) :
    ∃ a ∈ t.shape.parts, set.Reaches i a key := by
  obtain ⟨first, hfirst, hpath⟩ := h
  cases hfirst with
  | part ha hfirst => exact ⟨_, ha, first, hfirst, hpath⟩
  | named hnamed => exact absurd hnamed ht

/-- The name of a typedef leads to the typedef, and where that leads. -/
theorem reaches_iff_of_named (hset : set.Undotted) (ht : t.shape = .named) {td : Typedef}
    (hkey : set.Points i t.name key) (htd : set.typedef? key = some td) :
    set.Reaches i t key' ↔ key' = key ∨ set.Reaches key.1 td.type key' := by
  constructor
  · rintro ⟨first, hfirst, hpath⟩
    have heq : first = key := by
      cases hfirst with
      | part ha => rw [ht] at ha; cases ha
      | named _ hfirst => exact hfirst.eq hset hkey
    subst heq
    rcases Relation.reflTransGen_iff_eq_or_transGen.1 hpath with rfl | hpath
    · exact Or.inl rfl
    · exact Or.inr ((transGen_next_iff htd).1 hpath)
  · have hfirst : set.Mentions i t key := .named ht hkey htd
    rintro (rfl | h)
    · exact ⟨key', hfirst, .refl⟩
    · exact ⟨key, hfirst, ((transGen_next_iff htd).2 h).to_reflTransGen⟩

/-- A name that is none of a typedef leads nowhere. -/
theorem not_reaches_of_leaf (ht : t.shape = .named)
    (hnone : ∀ key, set.Points i t.name key → set.typedef? key = none) : ¬ set.Reaches i t key := by
  rintro ⟨first, hfirst, -⟩
  cases hfirst with
  | part ha => rw [ht] at ha; cases ha
  | named _ hfirst htd =>
    rw [hnone first hfirst] at htd
    cases htd

/-! ## A type that has an expansion leads to no cycle -/

theorem Expands.not_loops (hset : set.Undotted) (h : set.Expands i t d)
    (hkey : set.Reaches i t key) : ¬ set.Loops key := by
  induction h generalizing key with
  | list ht _ ih | set ht _ ih =>
    obtain ⟨a, ha, hkey⟩ := hkey.exists_part (by simp [ht])
    rw [ht] at ha
    cases List.mem_singleton.1 ha
    exact ih hkey
  | map ht _ _ iha ihb =>
    obtain ⟨a, ha, hkey⟩ := hkey.exists_part (by simp [ht])
    rw [ht] at ha
    rcases List.mem_pair.1 ha with rfl | rfl
    · exact iha hkey
    · exact ihb hkey
  | typedef ht hk htd _ ih =>
    rcases (reaches_iff_of_named hset ht hk htd).1 hkey with rfl | hkey
    · -- Going round the cycle once, the typedef is reached from what it stands for.
      intro hloops
      exact ih ((transGen_next_iff htd).1 hloops) hloops
    · exact ih hkey
  | leaf ht hnone _ => exact absurd hkey (not_reaches_of_leaf ht hnone)

theorem Denotes.eq (hset : set.Undotted) {name : Text} (h : set.Denotes i name d)
    (h' : set.Denotes i name d') : d = d' := by
  cases h with
  | base hbase =>
    cases h' with
    | base => rfl
    | declared hbase' => rw [hbase] at hbase'; cases hbase'
    | unknown => rfl
  | declared hbase hkey =>
    cases h' with
    | base hbase' => rw [hbase] at hbase'; cases hbase'
    | declared _ hkey' => rw [hkey.eq hset hkey']
    | unknown _ hnone => exact absurd hkey (hnone _)
  | unknown hbase hnone =>
    cases h' with
    | base => rfl
    | declared _ hkey => exact absurd hkey (hnone _)
    | unknown => rfl

/-- A type has one expansion. -/
theorem Expands.eq (hset : set.Undotted) (h : set.Expands i t d) (h' : set.Expands i t d') :
    d = d' := by
  induction h generalizing d' with
  | list ht _ ih =>
    cases h' with
    | list ht' ha => cases ht.symm.trans ht'; rw [ih ha]
    | set ht' | map ht' | typedef ht' | leaf ht' => cases ht.symm.trans ht'
  | set ht _ ih =>
    cases h' with
    | set ht' ha => cases ht.symm.trans ht'; rw [ih ha]
    | list ht' | map ht' | typedef ht' | leaf ht' => cases ht.symm.trans ht'
  | map ht _ _ iha ihb =>
    cases h' with
    | map ht' ha hb => cases ht.symm.trans ht'; rw [iha ha, ihb hb]
    | list ht' | set ht' | typedef ht' | leaf ht' => cases ht.symm.trans ht'
  | typedef ht hk htd _ ih =>
    cases h' with
    | typedef _ hk' htd' hd =>
      -- Both expansions go on with one typedef, as a name points to one place.
      obtain rfl := hk.eq hset hk'
      cases htd.symm.trans htd'
      exact ih hd
    | leaf _ hnone => rw [hnone _ hk] at htd; cases htd
    | list ht' | set ht' | map ht' => cases ht.symm.trans ht'
  | leaf ht hnone hd =>
    cases h' with
    | leaf _ _ hd' => exact hd.eq hset hd'
    | typedef _ hk htd => rw [hnone _ hk] at htd; cases htd
    | list ht' | set ht' | map ht' => cases ht.symm.trans ht'

/-! ## Leaves -/

/-- The type is what some name of some source stands for that is not the name of a typedef. -/
def Settled (set : SourceSet) (e : TypeDesc) : Prop :=
  ∃ i name, set.Denotes i name e ∧ ∀ key, set.Points i name key → set.typedef? key = none

theorem Denotes.leaves_eq {name : Text} (h : set.Denotes i name d) : d.leaves = [d] := by
  cases h with
  | base | unknown => rfl
  | declared =>
    unfold SourceSet.declared
    split
    · split
      · rfl
      · split <;> rfl
    · rfl

theorem Expands.settled (h : set.Expands i t d) : ∀ e ∈ d.leaves, set.Settled e := by
  induction h with
  | list _ _ ih | set _ _ ih | typedef _ _ _ _ ih => exact ih
  | map _ _ _ iha ihb =>
    intro e he
    rcases List.mem_append.1 he with he | he
    · exact iha e he
    · exact ihb e he
  | @leaf i t d _ hnone hd =>
    intro e he
    rw [hd.leaves_eq, List.mem_singleton] at he
    subst he
    exact ⟨i, t.name, hd, hnone⟩

/-! ## What resolving gives -/

/-- A type that resolves resolves to its expansion. -/
theorem expands_of_resolve (hset : set.Undotted) (hbase : set.KeepsBases) {seen : List Key}
    (h : set.resolve i seen t = .ok d) : set.Expands i t d := by
  fun_induction set.resolve i seen t generalizing d with
  | case1 i seen t a hs ih =>
    obtain ⟨e, he, h⟩ := bind_eq_ok.1 h
    rw [← pure_eq_ok.1 h]
    exact .list hs (ih he)
  | case2 i seen t a hs ih =>
    obtain ⟨e, he, h⟩ := bind_eq_ok.1 h
    rw [← pure_eq_ok.1 h]
    exact .set hs (ih he)
  | case3 i seen t a b hs iha ihb =>
    obtain ⟨k, hk, h⟩ := bind_eq_ok.1 h
    obtain ⟨v, hv, h⟩ := bind_eq_ok.1 h
    rw [← pure_eq_ok.1 h]
    exact .map hs (iha hk) (ihb hv)
  | case4 i seen t hs hsc =>
    rw [← pure_eq_ok.1 h]
    exact .leaf hs (fun _ => typedef?_eq_none_of_base hbase hsc) (.base hsc)
  | case5 i seen t hs hsc hl =>
    -- A name that points nowhere is no typedef.
    have hnone : ∀ key, ¬ set.Points i t.name key := by
      intro key hkey
      rw [(points_iff hset).1 hkey] at hl
      cases hl
    rw [← pure_eq_ok.1 h]
    exact .leaf hs (fun key hkey => absurd hkey (hnone key)) (.unknown (by simpa using hsc) hnone)
  | case6 i seen t hs hsc key hl td htd hk =>
    cases h
  | case7 i seen t hs hsc key hl td htd hk ih =>
    exact .typedef hs ((points_iff hset).2 hl) htd (ih h)
  | case8 i seen t hs hsc key hl htd =>
    have hkey : set.Points i t.name key := (points_iff hset).2 hl
    rw [← pure_eq_ok.1 h]
    exact .leaf hs (fun key' hkey' => hkey.eq hset hkey' ▸ htd)
      (.declared (by simpa using hsc) hkey)

/-- Where resolving fails, the type leads to a typedef that is being expanded around it, or to one
    that leads back to itself. -/
theorem reaches_of_resolve_error (hset : set.Undotted) {seen : List Key} {err : ReflectionError}
    (h : set.resolve i seen t = .error err) :
    (∃ name path, err = .typedefCycle name path) ∧
      ∃ key, set.Reaches i t key ∧ (key ∈ seen ∨ set.Loops key) := by
  fun_induction set.resolve i seen t with
  | case1 i seen t a hs ih | case2 i seen t a hs ih =>
    rcases bind_eq_error.1 h with h | ⟨_, _, h⟩
    · obtain ⟨herr, key, hkey, hloops⟩ := ih h
      exact ⟨herr, key, reaches_of_part (by simp [hs, Shape.parts]) hkey, hloops⟩
    · cases h
  | case3 i seen t a b hs iha ihb =>
    rcases bind_eq_error.1 h with h | ⟨_, _, h⟩
    · obtain ⟨herr, key, hkey, hloops⟩ := iha h
      exact ⟨herr, key, reaches_of_part (by simp [hs, Shape.parts]) hkey, hloops⟩
    · rcases bind_eq_error.1 h with h | ⟨_, _, h⟩
      · obtain ⟨herr, key, hkey, hloops⟩ := ihb h
        exact ⟨herr, key, reaches_of_part (by simp [hs, Shape.parts]) hkey, hloops⟩
      · cases h
  | case4 i seen t hs hsc => cases h
  | case5 i seen t hs hsc hl => cases h
  | case6 i seen t hs hsc key hl td htd hk =>
    cases h
    have hkey : set.Points i t.name key := (points_iff hset).2 hl
    exact ⟨⟨_, _, rfl⟩, key, (reaches_iff_of_named hset hs hkey htd).2 (Or.inl rfl), Or.inl hk⟩
  | case7 i seen t hs hsc key hl td htd hk ih =>
    obtain ⟨herr, key', hkey', hloops⟩ := ih h
    have hkey : set.Points i t.name key := (points_iff hset).2 hl
    refine ⟨herr, key', (reaches_iff_of_named hset hs hkey htd).2 (Or.inr hkey'), ?_⟩
    -- The typedef that is met again may be the one just entered: then it leads back to itself.
    by_cases heq : key' = key
    · subst heq
      exact Or.inr ((transGen_next_iff htd).2 hkey')
    · rcases hloops with hseen | hloops
      · exact Or.inl (by simpa [heq] using hseen)
      · exact Or.inr hloops
  | case8 i seen t hs hsc key hl htd => cases h

/-! ## Resolving types -/

/-- A type resolves to its expansion, unless it leads to a typedef that leads back to itself: then,
    and only then, resolving fails, with a cycle as the reason.  A leaf of what a type resolves to
    is never the name of a typedef.  Declarations are leaves, whatever their fields refer to, and
    typedefs that both sides of a map lead to are no cycle. -/
theorem resolveType_expands (hset : set.Undotted) (hbase : set.KeepsBases) (i : Nat)
    (t : TypeRef) :
    ((∃ name path, set.resolveType i t = .error (.typedefCycle name path)) ↔
        ∃ key, set.Reaches i t key ∧ set.Loops key) ∧
      ((¬ ∃ key, set.Reaches i t key ∧ set.Loops key) → ∃ d, set.resolveType i t = .ok d) ∧
      (∀ d, set.resolveType i t = .ok d ↔ set.Expands i t d) ∧
      (∀ d, set.resolveType i t = .ok d → ∀ e ∈ d.leaves, set.Settled e) ∧
      (∀ key, t.shape = .named → ScalarType.thrift.has t.name = false →
        set.Points i t.name key → set.typedef? key = none →
        set.resolveType i t = .ok (set.declared key t.name)) ∧
      ∀ a b k v, t.shape = .map a b → set.resolveType i a = .ok k → set.resolveType i b = .ok v →
        set.resolveType i t = .ok (.map k v) := by
  -- At the start nothing is being expanded, so a typedef that is met again loops.
  have herror : ∀ err, set.resolveType i t = .error err →
      (∃ name path, err = .typedefCycle name path) ∧
        ∃ key, set.Reaches i t key ∧ set.Loops key := by
    intro err h
    obtain ⟨herr, key, hkey, hseen | hloops⟩ := reaches_of_resolve_error hset h
    · cases hseen
    · exact ⟨herr, key, hkey, hloops⟩
  have hok : ∀ {u d}, set.resolveType i u = .ok d → set.Expands i u d :=
    fun h => expands_of_resolve hset hbase h
  have hexpands : ∀ d, set.Expands i t d → set.resolveType i t = .ok d := by
    intro d hd
    cases h : set.resolveType i t with
    | ok d' => rw [hd.eq hset (hok h)]
    | error err =>
      obtain ⟨-, key, hkey, hloops⟩ := herror err h
      exact absurd hloops (hd.not_loops hset hkey)
  refine ⟨⟨?_, ?_⟩, ?_, fun d => ⟨hok, hexpands d⟩, fun d h => (hok h).settled, ?_, ?_⟩
  · rintro ⟨name, path, h⟩
    exact (herror _ h).2
  · rintro ⟨key, hkey, hloops⟩
    cases h : set.resolveType i t with
    | ok d => exact absurd hloops ((hok h).not_loops hset hkey)
    | error err =>
      obtain ⟨⟨name, path, rfl⟩, -⟩ := herror err h
      exact ⟨name, path, rfl⟩
  · intro hacyclic
    cases h : set.resolveType i t with
    | ok d => exact ⟨d, rfl⟩
    | error err => exact absurd (herror err h).2 hacyclic
  · intro key ht hname hkey hnone
    apply hexpands
    exact .leaf ht (fun key' hkey' => hkey.eq hset hkey' ▸ hnone) (.declared hname hkey)
  · intro a b k v ht ha hb
    apply hexpands
    exact .map ht (hok ha) (hok hb)

/-- Two sources that include each other: prices are money of the other source, whose price lists
    hold prices of the first; and two typedefs that stand for each other. -/
def shopSources : SourceSet where
  sources := [
    { path := "shop.thrift"
      document := { Document.empty with typedefs := [
        ⟨"Price", ⟨"base.Money", [], []⟩, []⟩,
        ⟨"Knot", ⟨"list", [⟨"base.Loop", [], []⟩], []⟩, []⟩] }
      includes := [("base", 1)] },
    { path := "base.thrift"
      document := { Document.empty with typedefs := [
        ⟨"Money", ⟨"i64", [], []⟩, []⟩, ⟨"Prices", ⟨"list", [⟨"shop.Price", [], []⟩], []⟩, []⟩,
        ⟨"Loop", ⟨"shop.Knot", [], []⟩, []⟩] }
      includes := [("shop", 0)] }]

/-- Prices on both sides of a map are expanded through both sources, and typedefs that stand for
    each other are found out. -/
theorem expanded_shopSources :
    shopSources.Undotted ∧ shopSources.KeepsBases ∧
      shopSources.resolveType 0 ⟨"map", [⟨"Price", [], []⟩, ⟨"base.Prices", [], []⟩], []⟩ =
        .ok (.map (.scalar "i64") (.list (.scalar "i64"))) ∧
      ∃ name path,
        shopSources.resolveType 0 ⟨"Knot", [], []⟩ = .error (.typedefCycle name path) := by
  have hset : shopSources.Undotted := by unfold Undotted; decide
  have hbase : shopSources.KeepsBases := by unfold KeepsBases; decide
  have hpoints : ∀ {i name} key, shopSources.locate? i name = some key →
      shopSources.Points i name key := fun _ h => (points_iff hset).2 h
  have hi64 : shopSources.Expands 1 ⟨"i64", [], []⟩ (.scalar "i64") := by
    refine .leaf rfl (fun key hkey => ?_) (.base (by decide))
    exact typedef?_eq_none_of_base hbase (by decide) hkey
  have hmoney : shopSources.Expands 0 ⟨"base.Money", [], []⟩ (.scalar "i64") :=
    .typedef rfl (hpoints (1, "Money") (by decide)) rfl hi64
  have hprice : shopSources.Expands 0 ⟨"Price", [], []⟩ (.scalar "i64") :=
    .typedef rfl (hpoints (0, "Price") (by decide)) rfl hmoney
  have hshopPrice : shopSources.Expands 1 ⟨"shop.Price", [], []⟩ (.scalar "i64") :=
    .typedef rfl (hpoints (0, "Price") (by decide)) rfl hmoney
  have hprices : shopSources.Expands 0 ⟨"base.Prices", [], []⟩ (.list (.scalar "i64")) :=
    .typedef rfl (hpoints (1, "Prices") (by decide)) rfl (.list rfl hshopPrice)
  -- The cycle goes through the element type of a list.
  have hknot : shopSources.Next (0, "Knot") (1, "Loop") :=
    ⟨_, rfl, .part (List.mem_singleton_self _) (.named rfl (hpoints _ (by decide)) rfl)⟩
  have hloop : shopSources.Next (1, "Loop") (0, "Knot") :=
    ⟨_, rfl, .named rfl (hpoints _ (by decide)) rfl⟩
  have hreaches : shopSources.Reaches 0 ⟨"Knot", [], []⟩ (0, "Knot") :=
    ⟨_, .named rfl (hpoints _ (by decide)) rfl, .refl⟩
  obtain ⟨-, -, hexpands, -⟩ := resolveType_expands hset hbase 0
    ⟨"map", [⟨"Price", [], []⟩, ⟨"base.Prices", [], []⟩], []⟩
  obtain ⟨hcycle, -⟩ := resolveType_expands hset hbase 0 ⟨"Knot", [], []⟩
  exact ⟨hset, hbase, (hexpands _).2 (.map rfl hprice hprices),
    hcycle.2 ⟨_, hreaches, (Relation.TransGen.single hknot).tail hloop⟩⟩

/-- A typedef of a source that is included as `common.v1`. -/
def dottedSources : SourceSet where
  sources := [
    { path := "shop.thrift", document := Document.empty, includes := [("common.v1", 1)] },
    { path := "common.v1.thrift"
      document := { Document.empty with typedefs := [⟨"Id", ⟨"string", [], []⟩, []⟩] }
      includes := [] }]

/-- `common.v1.Id` names a typedef that stands for strings.  It is cut at its first dot: the typedef
    is not found, and its name is left as a scalar that nobody knows. -/
theorem unexpanded_dottedSources :
    (∀ s ∈ dottedSources.sources, ∀ td ∈ s.document.typedefs, ('.' : CodePoint) ∉ td.name) ∧
      dottedSources.KeepsBases ∧
      (∃ key td, dottedSources.Points 0 "common.v1.Id" key ∧
        dottedSources.typedef? key = some td) ∧
      dottedSources.Expands 0 ⟨"common.v1.Id", [], []⟩ (.scalar "string") ∧
      dottedSources.resolveType 0 ⟨"common.v1.Id", [], []⟩ = .ok (.scalar "common.v1.Id") := by
  have hbase : dottedSources.KeepsBases := by unfold KeepsBases; decide
  have hid : dottedSources.Points 0 (("common.v1" : Text) ++ "." ++ "Id") (1, "Id") :=
    .included rfl (by decide)
  have hstring : dottedSources.Expands 1 ⟨"string", [], []⟩ (.scalar "string") := by
    refine .leaf rfl (fun key hkey => ?_) (.base (by decide))
    exact typedef?_eq_none_of_base hbase (by decide) hkey
  have hresolve : dottedSources.resolveType 0 ⟨"common.v1.Id", [], []⟩ =
      .ok (.scalar "common.v1.Id") := by
    have hscalar : ScalarType.thrift.has "common.v1.Id" = false := by decide
    have hlocate : dottedSources.locate? 0 "common.v1.Id" = none := by decide
    simp only [resolveType, resolve, shape, hscalar, Bool.false_eq_true, if_false, hlocate]
    rfl
  exact ⟨by decide, hbase, ⟨_, _, hid, rfl⟩, .typedef rfl hid rfl hstring, hresolve⟩

end SourceSet

end Thrift

end IdlBridge
