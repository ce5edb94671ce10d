import IdlBridge.Proofs.Collections
import IdlBridge.Proofs.Reflection.Proto
import IdlBridge.Proofs.Reflection.Thrift
import IdlBridge.Proofs.Table
import IdlBridge.Proofs.Traversal

/-! # The first declaration of a name counts

    A reflected file has one struct and one enumeration for every name that some reached source
    declares.  Which declaration that is depends on the order in which the sources are visited:
    Thrift sources depth first, Protocol Buffers sources level by level.  Both orders visit what
    can be reached, cycles included, and no source twice.

    The tables are filled source by source and declaration by declaration.  What one step does to
    a table is said by `Table.Extended`; its transitivity gives what a source does, and then all
    of them.
-/

namespace IdlBridge

/-! ## Thrift -/

namespace Thrift.SourceSet

open Traversal

variable {set : SourceSet}

/-- The sources that a source includes, in the order of its include map. -/
def included (set : SourceSet) (i : Nat) : List Nat :=
  ((set.source? i).map (·.includes.values)).getD []

/-- The structs that a source declares. -/
def structsOf (set : SourceSet) (i : Nat) : List Struct :=
  ((set.source? i).map (·.document.structs)).getD []

/-- The enumerations that a source declares. -/
def enumsOf (set : SourceSet) (i : Nat) : List Enum :=
  ((set.source? i).map (·.document.enums)).getD []

/-- The first struct of a name in the first source that declares one, and the source. -/
def firstStruct? (set : SourceSet) (name : Text) : Option (Nat × Struct) :=
  set.order.findSome? fun i => ((set.structsOf i).find? (·.name = name)).map fun s => (i, s)

/-- The first enumeration of a name in the first source that declares one. -/
def firstEnum? (set : SourceSet) (name : Text) : Option Enum :=
  set.order.findSome? fun i => (set.enumsOf i).find? (·.name = name)

/-- A descriptor is that of a field of source `i`: the type is what the field's type resolves to in
    that source. -/
structure DescribesField (set : SourceSet) (i : Nat) (f : Field) (d : FieldDesc) : Prop where
  name : d.name = f.name
  type : set.resolveType i f.type = .ok d.type
  annotations : annotations f.annotations = .ok d.annotations
  comment : d.comment = f.comment
  required : d.required = decide (f.requiredness = .required)

/-- A descriptor is that of a struct of source `i`. -/
structure Describes (set : SourceSet) (i : Nat) (s : Struct) (d : StructDesc) : Prop where
  name : d.name = s.name
  fields : List.Forall₂ (set.DescribesField i) s.fields d.fields
  annotations : annotations s.annotations = .ok d.annotations
  comment : d.comment = s.comment

/-- A file has the first struct and the first enumeration of every name, and nothing else. -/
structure Registers (set : SourceSet) (file : FileDesc) : Prop where
  structs : ∀ name, Option.Rel (fun e d => set.Describes e.1 e.2 d) (set.firstStruct? name)
    (file.structs.get? name)
  enums : ∀ name, (set.firstEnum? name).map enumeration = file.enums.get? name

/-- A name has a first struct where some reached source declares it. -/
theorem isSome_firstStruct?_iff {name : Text} :
    (set.firstStruct? name).isSome ↔ set.DeclaresStruct name := by
  rw [firstStruct?, List.findSome?_isSome_iff]
  simp only [Option.isSome_map, List.find?_isSome, decide_eq_true_eq, structsOf,
    exists_mem_getD_map_iff]
  rfl

/-- A name has a first enumeration where some reached source declares it. -/
theorem isSome_firstEnum?_iff {name : Text} :
    (set.firstEnum? name).isSome ↔ set.DeclaresEnum name := by
  rw [firstEnum?, List.findSome?_isSome_iff]
  simp only [List.find?_isSome, decide_eq_true_eq, enumsOf, exists_mem_getD_map_iff]
  rfl

/-- A name that is none of a base type or a typedef stands for what is declared under it. -/
theorem resolveType_of_declared {i : Nat} {t : TypeRef} {key : Key} (hshape : t.shape = .named)
    (hbase : ScalarType.thrift.has t.name = false) (hkey : set.locate? i t.name = some key)
    (htypedef : set.typedef? key = none) {d : TypeDesc} (hd : set.declared key t.name = d) :
    set.resolveType i t = .ok d := by
  subst hd
  rw [resolveType, resolve]
  split
  · next hs => cases hshape.symm.trans hs
  · next hs => cases hshape.symm.trans hs
  · next hs => cases hshape.symm.trans hs
  · rw [if_neg (by simp [hbase]), hkey]
    dsimp only
    split
    · next htd => cases htypedef.symm.trans htd
    · rfl

/-! ### Registration -/

theorem field_describes {i : Nat} {f : Field} {d : FieldDesc} (h : set.field i f = .ok d) :
    set.DescribesField i f d := by
  obtain ⟨t, ht, h⟩ := bind_eq_ok.1 h
  obtain ⟨as, has, h⟩ := bind_eq_ok.1 h
  rw [← pure_eq_ok.1 h]
  exact ⟨rfl, ht, has, rfl, rfl⟩

theorem struct_describes {i : Nat} {s : Struct} {d : StructDesc} (h : set.struct i s = .ok d) :
    set.Describes i s d := by
  obtain ⟨fs, hfs, h⟩ := bind_eq_ok.1 h
  obtain ⟨as, has, h⟩ := bind_eq_ok.1 h
  rw [← pure_eq_ok.1 h]
  exact ⟨rfl, (forall₂_of_mapM_eq_ok hfs).imp fun _ _ hf => field_describes hf, has, rfl⟩

theorem registerStructs_extended {i : Nat} {ss : List Struct} {table out : Table StructDesc}
    (h : set.registerStructs i ss table = .ok out) :
    Table.Extended (fun _ e d => set.Describes e.1 e.2 d)
      (fun n => (ss.find? (·.name = n)).map fun s => (i, s)) table out := by
  induction ss generalizing table with
  | nil =>
    rw [registerStructs, pure_eq_ok] at h
    exact h ▸ .refl table
  | cons s rest ih =>
    -- The struct in front comes first where its name is asked for, and the rest everywhere else.
    have hfound : (fun n => ((s :: rest).find? (·.name = n)).map fun s => (i, s)) = fun n =>
        (if s.name = n then some (i, s) else none).or
          ((rest.find? (·.name = n)).map fun s => (i, s)) := by
      funext n
      by_cases hn : s.name = n <;> simp [hn]
    rw [hfound]
    rw [registerStructs] at h
    split at h
    · -- The name is taken by an earlier source, or by an earlier struct of this one.
      next hs => exact (Table.Extended.taken hs (i, s)).trans (ih h)
    · obtain ⟨d, hd, h⟩ := bind_eq_ok.1 h
      exact (Table.Extended.added (struct_describes hd)).trans (ih h)

theorem registerAll_extended {is : List Nat} {table out : Table StructDesc}
    (h : set.registerAll is table = .ok out) :
    Table.Extended (fun _ e d => set.Describes e.1 e.2 d)
      (fun n => is.findSome? fun i => ((set.structsOf i).find? (·.name = n)).map fun s => (i, s))
      table out := by
  induction is generalizing table with
  | nil =>
    rw [registerAll, pure_eq_ok] at h
    exact h ▸ .refl table
  | cons i rest ih =>
    rw [registerAll] at h
    obtain ⟨mid, hmid, h⟩ := bind_eq_ok.1 h
    simp only [findSome?_cons_eq_or]
    exact (registerStructs_extended hmid).trans (ih h)

theorem enums_eq_foldl (set : SourceSet) :
    set.enums =
      (set.order.flatMap set.enumsOf).foldl
        (fun t e => Table.insertNew t e.name (enumeration e)) [] := by
  rw [List.foldl_flatMap]
  rfl

theorem get?_enums (name : Text) :
    set.enums.get? name = (set.firstEnum? name).map enumeration := by
  rw [enums_eq_foldl, Table.get?_foldl_insertNew, List.find?_flatMap]
  rfl

/-- What is reflected has the first declarations. -/
theorem registers_of_reflect {file : FileDesc} {ns ns' : List Notice}
    (h : Ends set.reflect ns file ns') : set.Registers file := by
  unfold reflect at h
  rw [ends_bind] at h
  obtain ⟨structs, _, hstructs, h⟩ := h
  rw [ends_lift_except] at hstructs
  split at h
  · simp only [ends_bind, ends_pure] at h
    obtain ⟨services, _, -, rfl, -⟩ := h
    exact ⟨fun name => (registerAll_extended hstructs.1 name).2 rfl,
      fun name => (get?_enums name).symm⟩
  · exact absurd h ends_throw

end Thrift.SourceSet

/-! ## Protocol Buffers -/

namespace Proto

variable {symbols : SymbolTable}

/-- The type of a field whose names are looked up in a scope. -/
def typeOf (symbols : SymbolTable) (scope : Text) (f : Field) : TypeDesc :=
  match f.mapKey with
  | some key => .map (symbols.resolveType key scope) (symbols.resolveType f.typeName scope)
  | none =>
    if f.repeated then .list (symbols.resolveType f.typeName scope)
    else symbols.resolveType f.typeName scope

/-- A descriptor is that of a field in a scope. -/
structure DescribesField (symbols : SymbolTable) (scope : Text) (f : Field) (d : FieldDesc) :
    Prop where
  name : d.name = f.name
  type : d.type = typeOf symbols scope f
  annotations : annotations f.options = .ok d.annotations
  comment : d.comment = f.comment
  required : d.required = false

/-- A descriptor is that of a message which a package declares under a nesting path: names are
    looked up from the message outwards. -/
structure Describes (symbols : SymbolTable) (package path : Text) (m : Message) (d : StructDesc) :
    Prop where
  name : d.name = path
  fields : List.Forall₂ (DescribesField symbols (qualify package path)) m.fields d.fields
  annotations : annotations m.options = .ok d.annotations
  comment : d.comment = m.comment

theorem fieldType_run (symbols : SymbolTable) (scope : Text) (f : Field) (ns : List Notice) :
    ((fieldType symbols scope f).run ns).1 = typeOf symbols scope f := by
  unfold fieldType typeOf
  have hvalue := symbols.resolve_run f.typeName scope ns
  rcases hv : (symbols.resolve f.typeName scope).run ns with ⟨value, ns₁⟩
  rw [hv] at hvalue
  dsimp only at hvalue
  rw [StateT.run_bind, hv, ← hvalue]
  cases f.mapKey with
  | none => rfl
  | some key =>
    -- The key is resolved after the value, with the notices that the value has left.
    have hkey := symbols.resolve_run key scope ns₁
    rcases hk : (symbols.resolve key scope).run ns₁ with ⟨k, ns₂⟩
    rw [hk] at hkey
    dsimp only at hkey
    change ((symbols.resolve key scope >>= fun k => pure (TypeDesc.map k value)).run ns₁).1 = _
    rw [StateT.run_bind, hk]
    dsimp only
    rw [← hkey]
    rfl

theorem field_describes {scope : Text} {f : Field} {d : FieldDesc} {ns ns' : List Notice}
    (h : Ends (field symbols scope f) ns d ns') : DescribesField symbols scope f d := by
  unfold field at h
  simp only [ends_bind, ends_pure, ends_lift_state, ends_lift_except] at h
  obtain ⟨t, _, ht, as, _, ⟨has, -⟩, rfl, -⟩ := h
  have htype := fieldType_run symbols scope f ns
  rw [ht] at htype
  exact ⟨rfl, htype, has, rfl, rfl⟩

theorem message_describes {package path : Text} {m : Message} {d : StructDesc}
    {ns ns' : List Notice} (h : Ends (message symbols package path m) ns d ns') :
    Describes symbols package path m d := by
  unfold message at h
  simp only [ends_bind, ends_pure, ends_lift_except] at h
  obtain ⟨fields, _, hfields, as, _, ⟨has, -⟩, rfl, -⟩ := h
  refine ⟨rfl, (forall₂_of_ends_mapM hfields).imp ?_, has, rfl⟩
  rintro f d ⟨_, _, hf⟩
  exact field_describes hf

namespace SourceSet

open Traversal

variable {set : SourceSet}

/-- The sources that a source imports. -/
def imported (set : SourceSet) (i : Nat) : List Nat :=
  ((set.source? i).map (·.imports)).getD []

/-- The first message under a nesting path in the first file that declares one, and the file. -/
def firstMessage? (set : SourceSet) (path : Text) : Option (File × Message) :=
  set.files.findSome? fun f =>
    ((walkAll [] f.messages).find? (·.1 = path)).map fun e => (f, e.2)

/-- The first enumeration under a nesting path in the first file that declares one. -/
def firstEnum? (set : SourceSet) (path : Text) : Option Enum :=
  (set.files.findSome? fun f => f.enumPaths.find? (·.1 = path)).map (·.2)

/-- A file has the first message and the first enumeration under every nesting path, and nothing
    else. -/
structure Registers (set : SourceSet) (file : FileDesc) : Prop where
  structs : ∀ path, Option.Rel (fun e d => Describes set.symbols e.1.package path e.2 d)
    (set.firstMessage? path) (file.structs.get? path)
  enums : ∀ path, (set.firstEnum? path).map (enumeration path) = file.enums.get? path

/-- A nesting path has a first message where some reached file declares it. -/
theorem isSome_firstMessage?_iff {path : Text} :
    (set.firstMessage? path).isSome ↔ set.DeclaresMessage path := by
  rw [firstMessage?, List.findSome?_isSome_iff]
  simp only [Option.isSome_map, List.find?_isSome, decide_eq_true_eq]
  rfl

/-- A nesting path has a first enumeration where some reached file declares it. -/
theorem isSome_firstEnum?_iff {path : Text} :
    (set.firstEnum? path).isSome ↔ set.DeclaresEnum path := by
  rw [firstEnum?, Option.isSome_map, List.findSome?_isSome_iff]
  simp only [List.find?_isSome, decide_eq_true_eq]
  rfl

/-! ### Registration -/

theorem registerMessages_extended {f : File} {ms : List (Text × Message)}
    {table out : Table StructDesc} {ns ns' : List Notice}
    (h : Ends (registerMessages symbols f.package ms table) ns out ns') :
    Table.Extended (fun path e d => Describes symbols e.1.package path e.2 d)
      (fun path => (ms.find? (·.1 = path)).map fun e => (f, e.2)) table out := by
  induction ms generalizing table ns with
  | nil =>
    rw [registerMessages, ends_pure] at h
    exact h.1 ▸ .refl table
  | cons e rest ih =>
    obtain ⟨path, m⟩ := e
    -- The message in front comes first under its own path, and the rest everywhere else.
    have hfound : (fun n => (((path, m) :: rest).find? (·.1 = n)).map fun e => (f, e.2)) = fun n =>
        (if path = n then some (f, m) else none).or
          ((rest.find? (·.1 = n)).map fun e => (f, e.2)) := by
      funext n
      by_cases hn : path = n <;> simp [hn]
    rw [hfound]
    rw [registerMessages] at h
    split at h
    · next hpath => exact (Table.Extended.taken hpath (f, m)).trans (ih h)
    · obtain ⟨d, ns₁, hd, h⟩ := ends_bind.1 h
      have hadded : Table.Extended (fun path e d => Describes symbols e.1.package path e.2 d)
          (fun n => if path = n then some (f, m) else none) table (table ++ [(path, d)]) :=
        .added (message_describes hd)
      exact hadded.trans (ih h)

theorem registerAll_extended {fs : List File} {table out : Table StructDesc}
    {ns ns' : List Notice} (h : Ends (registerAll symbols fs table) ns out ns') :
    Table.Extended (fun path e d => Describes symbols e.1.package path e.2 d)
      (fun path => fs.findSome? fun f =>
        ((walkAll [] f.messages).find? (·.1 = path)).map fun e => (f, e.2)) table out := by
  induction fs generalizing table ns with
  | nil =>
    rw [registerAll, ends_pure] at h
    exact h.1 ▸ .refl table
  | cons f rest ih =>
    rw [registerAll] at h
    obtain ⟨mid, ns₁, hmid, h⟩ := ends_bind.1 h
    simp only [findSome?_cons_eq_or]
    exact (registerMessages_extended hmid).trans (ih h)

theorem get?_enums (path : Text) :
    set.enums.get? path = (set.firstEnum? path).map (enumeration path) := by
  rw [enums, Table.get?_foldl_insertNew, List.find?_flatMap, firstEnum?, Option.map_map]
  cases he : set.files.findSome? fun f => f.enumPaths.find? (·.1 = path) with
  | none => rfl
  | some e =>
    -- What is found under a path is listed with this path.
    obtain ⟨f, -, hf⟩ := List.exists_of_findSome?_eq_some he
    have hpath := List.find?_some hf
    rw [decide_eq_true_eq] at hpath
    rw [Option.map_some, Option.map_some, hpath]
    rfl

/-- What is reflected has the first declarations. -/
theorem registers_of_reflect {file : FileDesc} {ns ns' : List Notice}
    (h : Ends set.reflect ns file ns') : set.Registers file := by
  unfold reflect at h
  obtain ⟨structs, _, hstructs, h⟩ := ends_bind.1 h
  split at h
  · simp only [ends_bind, ends_pure] at h
    obtain ⟨services, _, -, rfl, -⟩ := h
    exact ⟨fun path => (registerAll_extended hstructs path).2 rfl,
      fun path => (get?_enums path).symm⟩
  · exact absurd h ends_throw

end SourceSet

end Proto

/-! ## Both -/

open Traversal

/-- Whatever the sources include or import, reflecting visits the reachable ones, each of them once:
    Thrift sources with everything that is reached through an include before the next include,
    Protocol Buffers sources level by level.  Of the declarations of a name, a file has the first
    one of the first source in this order, resolved in that source. -/
theorem visited_once_and_first_registered :
    (∀ set : Thrift.SourceSet,
      set.order.Nodup ∧
      (∀ i, i ∈ set.order ↔ Reachable set.sources.length set.included i) ∧
      DepthFirst set.sources.length set.included [] [0] set.order ∧
      (∀ name, (set.firstStruct? name).isSome ↔ set.DeclaresStruct name) ∧
      (∀ name, (set.firstEnum? name).isSome ↔ set.DeclaresEnum name) ∧
      ∀ notices file notices', Ends set.reflect notices file notices' → set.Registers file) ∧
    ∀ set : Proto.SourceSet,
      set.order.Nodup ∧
      (∀ i, i ∈ set.order ↔ Reachable set.sources.length set.imported i) ∧
      set.order = ((List.range set.sources.length).flatMap
        (level set.sources.length set.imported)).eraseDups ∧
      (∀ path, (set.firstMessage? path).isSome ↔ set.DeclaresMessage path) ∧
      (∀ path, (set.firstEnum? path).isSome ↔ set.DeclaresEnum path) ∧
      ∀ notices file notices', Ends set.reflect notices file notices' → set.Registers file := by
  constructor
  · intro set
    refine ⟨nodup_sweep List.nodup_nil [0], fun i => mem_sweep_iff List.mem_append,
      depthFirst_preorder, ?_, ?_, ?_⟩
    · exact fun _ => Thrift.SourceSet.isSome_firstStruct?_iff
    · exact fun _ => Thrift.SourceSet.isSome_firstEnum?_iff
    · exact fun _ _ _ => Thrift.SourceSet.registers_of_reflect
  · intro set
    refine ⟨nodup_sweep List.nodup_nil [0],
      fun i => mem_sweep_iff (List.mem_append.trans or_comm), breadthFirst_eq_eraseDups, ?_, ?_, ?_⟩
    · exact fun _ => Proto.SourceSet.isSome_firstMessage?_iff
    · exact fun _ => Proto.SourceSet.isSome_firstEnum?_iff
    · exact fun _ _ _ => Proto.SourceSet.registers_of_reflect

/-- Four Thrift sources: `main` includes `left` and `right`, `left` includes `deep` and `main`
    again.  Both `right` and `deep` declare `Item`, and only `deep` declares the enumeration that it
    names. -/
def rhombusThrift : Thrift.SourceSet :=
  let field : Thrift.Field := ⟨"kind", ⟨"Kind", [], []⟩, some 1, .unmarked, [], []⟩
  let item : Thrift.Struct := ⟨"Item", .struct, [field], [], []⟩
  { sources := [
      { path := "main.thrift", document := .empty, includes := [("left", 1), ("right", 2)] },
      { path := "left.thrift", document := .empty, includes := [("deep", 3), ("main", 0)] },
      { path := "right.thrift", document := { Thrift.Document.empty with structs := [item] }
        includes := [] },
      { path := "deep.thrift"
        document := { Thrift.Document.empty with
          enums := [⟨"Kind", [⟨"BIG", 1⟩], [], []⟩], structs := [item] }
        includes := [] }] }

/-- The same four files with imports, in which `Item` is a message. -/
def rhombusProto : Proto.SourceSet :=
  let field : Proto.Field := ⟨"Kind", "kind", 1, false, none, none, [], []⟩
  let kind : Proto.Enum := ⟨"Kind", [⟨"BIG", 1, []⟩], [], []⟩
  { sources := [
      { path := "main.proto", file := .empty, imports := [1, 2] },
      { path := "left.proto", file := .empty, imports := [3, 0] },
      { path := "right.proto"
        file := { Proto.File.empty with
          package := "right", messages := [⟨"Item", [field], [], [], [], []⟩] }
        imports := [] },
      { path := "deep.proto"
        file := { Proto.File.empty with
          package := "deep", messages := [⟨"Item", [field], [], [kind], [], []⟩] }
        imports := [] }] }

theorem order_rhombusThrift : rhombusThrift.order = [0, 1, 3, 2] := by
  simp [rhombusThrift, Thrift.SourceSet.order, preorder, sweep, Thrift.SourceSet.source?,
    Table.values]

theorem order_rhombusProto : rhombusProto.order = [0, 1, 2, 3] := by
  simp [rhombusProto, Proto.SourceSet.order, breadthFirst, sweep, Proto.SourceSet.source?]

/-- What `rhombusThrift` reflects to. -/
def rhombusThriftFile : FileDesc :=
  { path := "main.thrift", package := [], services := []
    structs := [("Item", ⟨"Item", [⟨"kind", .enum "Kind", [], [], false⟩], [], []⟩)]
    enums := [("Kind", ⟨"Kind", [("BIG", 1)], []⟩)], localStructs := [] }

/-- What `rhombusProto` reflects to. -/
def rhombusProtoFile : FileDesc :=
  { path := "main.proto", package := [], services := []
    structs := [("Item", ⟨"Item", [⟨"kind", .scalar "Kind", [], [], false⟩], [], []⟩)]
    enums := [("Item.Kind", ⟨"Item.Kind", [("BIG", 1)], []⟩)], localStructs := [] }

theorem reflect_rhombusThrift : Ends rhombusThrift.reflect [] rhombusThriftFile [] := by
  have hkey : rhombusThrift.locate? 3 "Kind" = some (3, ("Kind" : Text)) := by decide
  have htype : rhombusThrift.resolveType 3 ⟨"Kind", [], []⟩ = .ok (.enum "Kind") :=
    Thrift.SourceSet.resolveType_of_declared rfl rfl hkey rfl rfl
  have hfield : rhombusThrift.field 3 ⟨"kind", ⟨"Kind", [], []⟩, some 1, .unmarked, [], []⟩ =
      .ok ⟨"kind", .enum "Kind", [], [], false⟩ := by
    rw [Thrift.SourceSet.field, htype]
    rfl
  have hitem : rhombusThrift.struct 3 ⟨"Item", .struct,
      [⟨"kind", ⟨"Kind", [], []⟩, some 1, .unmarked, [], []⟩], [], []⟩ =
      .ok ⟨"Item", [⟨"kind", .enum "Kind", [], [], false⟩], [], []⟩ := by
    rw [Thrift.SourceSet.struct, List.mapM_cons, hfield]
    rfl
  have hdeep : rhombusThrift.registerStructs 3 (rhombusThrift.structsOf 3) [] =
      .ok rhombusThriftFile.structs := bind_eq_ok.2 ⟨_, hitem, rfl⟩
  unfold Thrift.SourceSet.reflect Thrift.SourceSet.enums
  rw [order_rhombusThrift]
  refine ends_bind.2 ⟨rhombusThriftFile.structs, [], ends_lift_except.2 ⟨?_, rfl⟩, rfl⟩
  exact bind_eq_ok.2 ⟨[], rfl, bind_eq_ok.2 ⟨[], rfl, bind_eq_ok.2 ⟨_, hdeep, rfl⟩⟩⟩

theorem reflect_rhombusProto :
    ∃ notices, Ends rhombusProto.reflect [] rhombusProtoFile notices := by
  refine ⟨_, ends_of_toOption ?_⟩
  unfold Proto.SourceSet.reflect Proto.SourceSet.symbols Proto.SourceSet.enums
    Proto.SourceSet.files
  rw [order_rhombusProto]
  decide +kernel

/-- Depth first, `Item` is the struct of `deep`, whose field is an enumeration.  Level by level, it
    is the message of `right`, where nothing declares what the field names. -/
theorem registered_rhombus :
    Ends rhombusThrift.reflect [] rhombusThriftFile [] ∧
      rhombusThrift.Registers rhombusThriftFile ∧
      ∃ notices, Ends rhombusProto.reflect [] rhombusProtoFile notices ∧
        rhombusProto.Registers rhombusProtoFile := by
  obtain ⟨-, -, -, -, -, hthrift⟩ := visited_once_and_first_registered.1 rhombusThrift
  obtain ⟨-, -, -, -, -, hproto⟩ := visited_once_and_first_registered.2 rhombusProto
  obtain ⟨notices, hends⟩ := reflect_rhombusProto
  exact ⟨reflect_rhombusThrift, hthrift _ _ _ reflect_rhombusThrift, notices, hends,
    hproto _ _ _ hends⟩

end IdlBridge
