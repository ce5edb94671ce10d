import IdlBridge.Proofs.Table
import IdlBridge.Proofs.Text
import IdlBridge.Proto.Resolve
import Mathlib.Data.List.Infix

/-! # Names in scopes

    The rule for a relative name takes its first component alone: the innermost scope that declares
    the component is decisive, and the rest of the name has to be in there.  The lookup takes the
    whole name into each scope instead.  The two agree because everything that a fully qualified
    name passes through is declared as well: the packages, and the messages around the declaration.
    So the whole name is in no scope that does not declare its first component.
-/

namespace IdlBridge.Proto

/-! ## Declarations -/

/-- The message stands among others or inside of them, under its nesting path. -/
inductive Nests (ms : List Message) : Text → Message → Prop
  | top {m : Message} (hm : m ∈ ms) : Nests ms m.name m
  | inner {path : Text} {m n : Message} (h : Nests ms path m) (hn : n ∈ m.messages) :
    Nests ms (qualify path n.name) n

namespace File

/-- The file declares a message or an enumeration under its fully qualified name. -/
inductive Declares (f : File) : Text → Symbol → Prop
  | enum {e : Enum} (he : e ∈ f.enums) : Declares f (qualify f.package e.name) (.enum e.name)
  | message {path : Text} {m : Message} (h : Nests f.messages path m) :
    Declares f (qualify f.package path) (.message path)
  | innerEnum {path : Text} {m : Message} {e : Enum} (h : Nests f.messages path m)
      (he : e ∈ m.enums) :
    Declares f (qualify f.package (path ++ "." ++ e.name)) (.enum (path ++ "." ++ e.name))

/-- The name is the package of the file, or the components in front of a point of it. -/
def HasPackage (f : File) (t : Text) : Prop :=
  f.package ≠ [] ∧ (t = f.package ∨ t ++ ("." : Text) <+: f.package)

/-- The fully qualified name is declared as a message, an enumeration or a package component. -/
def HasName (f : File) (t : Text) : Prop := (∃ s, f.Declares t s) ∨ f.HasPackage t

/-- No name that the file gives to a type has a point in it. -/
structure Dotless (f : File) : Prop where
  enums : ∀ e ∈ f.enums, ('.' : CodePoint) ∉ e.name
  messages : ∀ path m, Nests f.messages path m →
    ('.' : CodePoint) ∉ m.name ∧ ∀ e ∈ m.enums, ('.' : CodePoint) ∉ e.name

end File

namespace SourceSet

def Declares (set : SourceSet) (t : Text) (s : Symbol) : Prop := ∃ f ∈ set.files, f.Declares t s

def HasName (set : SourceSet) (t : Text) : Prop := ∃ f ∈ set.files, f.HasName t

def Dotless (set : SourceSet) : Prop := ∀ f ∈ set.files, f.Dotless

/-- No two messages or enumerations have the same fully qualified name. -/
def Distinct (set : SourceSet) : Prop := ((set.files.flatMap File.symbols).map Prod.fst).Nodup

end SourceSet

/-! ## What is walked is what is declared -/

mutual

/-- What holds of a message and of the messages inside those for which it holds, holds of all that
    are walked. -/
theorem forall_mem_walk {P : Text → Message → Prop}
    (hinner : ∀ path m, P path m → ∀ n ∈ m.messages, P (qualify path n.name) n) {scope : Text} :
    ∀ m : Message, P (qualify scope m.name) m → ∀ e ∈ m.walk scope, P e.1 e.2
  | ⟨name, fields, inner, enums, options, comment⟩, hm, e, he => by
    rw [Message.walk] at he
    rcases List.mem_cons.1 he with rfl | he
    · exact hm
    · exact forall_mem_walkAll hinner inner (hinner _ _ hm) e he

theorem forall_mem_walkAll {P : Text → Message → Prop}
    (hinner : ∀ path m, P path m → ∀ n ∈ m.messages, P (qualify path n.name) n) {scope : Text} :
    ∀ ms : List Message, (∀ m ∈ ms, P (qualify scope m.name) m) →
      ∀ e ∈ walkAll scope ms, P e.1 e.2
  | [], _, _, he => by cases he
  | m :: rest, h, e, he => by
    rw [walkAll] at he
    obtain ⟨hm, hrest⟩ := List.forall_mem_cons.1 h
    rcases List.mem_append.1 he with he | he
    · exact forall_mem_walk hinner m hm e he
    · exact forall_mem_walkAll hinner rest hrest e he

end

mutual

/-- With a message the messages inside it are walked. -/
theorem walkAll_subset_walk {scope : Text} : ∀ (m : Message), ∀ e ∈ m.walk scope,
    walkAll e.1 e.2.messages ⊆ m.walk scope
  | ⟨name, fields, inner, enums, options, comment⟩, e, he => by
    rw [Message.walk] at he ⊢
    rcases List.mem_cons.1 he with rfl | he
    · exact List.subset_cons_self _ _
    · exact List.subset_cons_of_subset _ (walkAll_subset_walkAll inner e he)

theorem walkAll_subset_walkAll {scope : Text} : ∀ (ms : List Message), ∀ e ∈ walkAll scope ms,
    walkAll e.1 e.2.messages ⊆ walkAll scope ms
  | [], _, he => by cases he
  | m :: rest, e, he => by
    rw [walkAll] at he ⊢
    rcases List.mem_append.1 he with he | he
    · exact List.subset_append_of_subset_left _ (walkAll_subset_walk m e he)
    · exact List.subset_append_of_subset_right _ (walkAll_subset_walkAll rest e he)

end

theorem mem_walkAll_of_mem {scope : Text} {ms : List Message} {m : Message} (h : m ∈ ms) :
    (qualify scope m.name, m) ∈ walkAll scope ms := by
  induction ms with
  | nil => cases h
  | cons n ms ih =>
    rw [walkAll]
    rcases List.mem_cons.1 h with rfl | h
    · refine List.mem_append_left _ ?_
      cases m
      rw [Message.walk]
      exact List.mem_cons_self
    · exact List.mem_append_right _ (ih h)

theorem mem_walkAll_iff {ms : List Message} {path : Text} {m : Message} :
    (path, m) ∈ walkAll [] ms ↔ Nests ms path m := by
  constructor
  · have htop : ∀ m ∈ ms, Nests ms (qualify [] m.name) m := fun _ hm => .top hm
    exact forall_mem_walkAll (fun _ _ h _ hn => .inner h hn) ms htop (path, m)
  · intro h
    induction h with
    | top hm => exact mem_walkAll_of_mem hm
    | inner _ hn ih => exact walkAll_subset_walkAll ms _ ih (mem_walkAll_of_mem hn)

theorem File.mem_symbols_iff {f : File} {t : Text} {s : Symbol} :
    (t, s) ∈ f.symbols ↔ f.Declares t s := by
  constructor
  · intro h
    rcases List.mem_append.1 h with h | h
    · obtain ⟨e, he, heq⟩ := List.mem_map.1 h
      cases heq
      exact .enum he
    · obtain ⟨⟨path, m⟩, hm, h⟩ := List.mem_flatMap.1 h
      -- A message brings its own name and those of the enumerations in it.
      have hnests := mem_walkAll_iff.1 hm
      rcases List.mem_cons.1 h with heq | h
      · cases heq
        exact .message hnests
      · obtain ⟨⟨p, e⟩, hp, heq⟩ := List.mem_map.1 h
        obtain ⟨e', he, hpe⟩ := List.mem_map.1 hp
        cases hpe
        cases heq
        exact .innerEnum hnests he
  · intro h
    cases h with
    | enum he => exact List.mem_append_left _ (List.mem_map_of_mem he)
    | message h =>
      refine List.mem_append_right _ (List.mem_flatMap.2 ⟨_, mem_walkAll_iff.2 h, ?_⟩)
      exact List.mem_cons_self
    | innerEnum h he =>
      refine List.mem_append_right _ (List.mem_flatMap.2 ⟨_, mem_walkAll_iff.2 h, ?_⟩)
      exact List.mem_cons_of_mem _ (List.mem_map_of_mem (List.mem_map_of_mem he))

/-! ## What a name passes through -/

theorem qualify_of_ne_nil {scope : Text} (h : scope ≠ []) (name : Text) :
    qualify scope name = scope ++ "." ++ name := if_neg h

/-- A name behind a point stays behind it when what is in front of the point gets a package. -/
theorem qualify_append (package path name : Text) :
    qualify package (path ++ "." ++ name) = qualify package path ++ "." ++ name := by
  unfold qualify
  split
  · rfl
  · simp only [List.append_assoc]

namespace File

variable {f : File}

/-- What stands in front of a point of the name is a name of the file as well. -/
def Closed (f : File) (t : Text) : Prop :=
  ∀ front back : Text, t = front ++ "." ++ back → f.HasName front

theorem closed_append {t name : Text} (ht : f.HasName t) (hclosed : f.Closed t)
    (hname : ('.' : CodePoint) ∉ name) : f.Closed (t ++ "." ++ name) := by
  intro front back h
  have hcut : t ++ ('.' : CodePoint) :: name = front ++ ('.' : CodePoint) :: back := by
    rw [List.append_assoc, List.append_assoc] at h
    exact h
  rcases Text.eq_or_prefix_of_append_cons hname hcut with rfl | ⟨behind, rfl⟩
  · exact ht
  · exact hclosed front behind rfl

theorem closed_of_hasPackage {t : Text} (h : f.HasPackage t) : f.Closed t := by
  rintro front back rfl
  refine .inr ⟨h.1, .inr ?_⟩
  rcases h.2 with heq | hfront
  · exact ⟨back, heq⟩
  · exact (List.prefix_append _ _).trans ((List.prefix_append _ _).trans hfront)

/-- A name without points in the package of a file. -/
theorem closed_qualify {name : Text} (hname : ('.' : CodePoint) ∉ name) :
    f.Closed (qualify f.package name) := by
  by_cases hpackage : f.package = []
  · rw [hpackage]
    rintro front back rfl
    exact absurd (List.mem_append_left _ (List.mem_append_right _ List.mem_cons_self)) hname
  · have hhas : f.HasPackage f.package := ⟨hpackage, .inl rfl⟩
    rw [qualify_of_ne_nil hpackage]
    exact closed_append (.inr hhas) (closed_of_hasPackage hhas) hname

theorem closed_of_nests (hdotless : f.Dotless) {path : Text} {m : Message}
    (h : Nests f.messages path m) : f.Closed (qualify f.package path) := by
  induction h with
  | @top m hm => exact closed_qualify (hdotless.messages _ _ (.top hm)).1
  | @inner path m n h hn ih =>
    have hname := (hdotless.messages _ _ (.inner h hn)).1
    -- Inside a message without a name the path starts anew.
    by_cases hpath : path = []
    · rw [hpath]
      exact closed_qualify hname
    · rw [qualify_of_ne_nil hpath, qualify_append]
      exact closed_append (.inl ⟨_, .message h⟩) ih hname

/-- Everything in front of a point of a declared name is declared, too. -/
theorem Declares.closed (hdotless : f.Dotless) {t : Text} {s : Symbol} (h : f.Declares t s) :
    f.Closed t := by
  cases h with
  | enum he => exact closed_qualify (hdotless.enums _ he)
  | message h => exact closed_of_nests hdotless h
  | innerEnum h he =>
    rw [qualify_append]
    have hname := (hdotless.messages _ _ h).2 _ he
    exact closed_append (.inl ⟨_, .message h⟩) (closed_of_nests hdotless h) hname

end File

/-! ## The table of symbols -/

namespace SourceSet

variable {set : SourceSet}

theorem get?_symbols (t : Text) :
    set.symbols.get? t = Table.get? (set.files.flatMap File.symbols) t := by
  rw [symbols, Table.get?_foldl_insertNew]
  rfl

theorem declares_of_get? {t : Text} {s : Symbol} (h : set.symbols.get? t = some s) :
    set.Declares t s := by
  rw [get?_symbols] at h
  obtain ⟨f, hf, hs⟩ := List.mem_flatMap.1 (Table.mem_of_get? h)
  exact ⟨f, hf, File.mem_symbols_iff.1 hs⟩

theorem Declares.get? (hdistinct : set.Distinct) {t : Text} {s : Symbol} (h : set.Declares t s) :
    set.symbols.get? t = some s := by
  obtain ⟨f, hf, hs⟩ := h
  have hmem : (t, s) ∈ set.files.flatMap File.symbols :=
    List.mem_flatMap.2 ⟨f, hf, File.mem_symbols_iff.2 hs⟩
  rw [get?_symbols]
  exact Table.get?_of_mem hdistinct hmem

end SourceSet

/-! ## Scopes -/

/-- The components of a scope, outermost first. -/
def components (scope : Text) : List Text := if scope = [] then [] else Text.splitOn '.' scope

/-- The fully qualified name that a name has in a scope of these components. -/
def inScope (scope : List Text) (name : Text) : Text := Text.join "." (scope ++ [name])

theorem inScope_nil (name : Text) : inScope [] name = name := by
  simp [inScope, Text.join]

/-- The component in front of the first point of a name. -/
def firstComponent (name : Text) : Text := name.takeWhile (· != '.')

/-- A scope around, and the innermost one of those that declare the name. -/
structure SourceSet.Decisive (set : SourceSet) (scope name : Text) (enclosing : List Text) :
    Prop where
  encloses : enclosing <+: components scope
  declares : set.HasName (inScope enclosing name)
  innermost : ∀ deeper, deeper <+: components scope → enclosing.length < deeper.length →
    ¬set.HasName (inScope deeper name)

/-- The rule for relative names: the innermost scope that declares the first component of the name
    has the whole name as a message or an enumeration. -/
def SourceSet.Selects (set : SourceSet) (scope name : Text) (s : Symbol) : Prop :=
  ∃ enclosing, set.Decisive scope (firstComponent name) enclosing ∧
    set.Declares (inScope enclosing name) s

theorem eq_firstComponent_or (name : Text) :
    name = firstComponent name ∨ ∃ rest, name = firstComponent name ++ ("." ++ rest) := by
  have hcut := List.takeWhile_append_dropWhile (p := (· != ('.' : CodePoint))) (l := name)
  cases hrest : name.dropWhile (· != ('.' : CodePoint)) with
  | nil =>
    rw [hrest, List.append_nil] at hcut
    exact .inl hcut.symm
  | cons c rest =>
    have hhead : c ∈ (name.dropWhile (· != ('.' : CodePoint))).head? := by
      rw [hrest]
      rfl
    have hc := Text.not_of_mem_head?_dropWhile hhead
    obtain rfl : c = ('.' : CodePoint) := by simpa using hc
    rw [hrest] at hcut
    exact .inr ⟨rest, hcut.symm⟩

/-- Where a whole name is declared, its first component is declared. -/
theorem SourceSet.hasName_firstComponent {set : SourceSet} (hdotless : set.Dotless)
    {scope : List Text} {name : Text} {s : Symbol} (h : set.Declares (inScope scope name) s) :
    set.HasName (inScope scope (firstComponent name)) := by
  obtain ⟨f, hf, hs⟩ := h
  refine ⟨f, hf, ?_⟩
  rcases eq_firstComponent_or name with heq | ⟨rest, heq⟩
  · rw [← heq]
    exact .inl ⟨s, hs⟩
  · refine hs.closed (hdotless f hf) _ rest ?_
    rw [List.append_assoc]
    conv => lhs; rw [heq]
    exact Text.join_concat_append _ _ _ _

/-- The search ends in the innermost scope that has the whole name. -/
theorem SymbolTable.search?_eq_some {symbols : SymbolTable} {name : Text}
    {enclosing scope : List Text} {s : Symbol} (hencloses : enclosing <+: scope)
    (hdeeper : ∀ deeper, deeper <+: scope → enclosing.length < deeper.length →
      symbols.get? (inScope deeper name) = none)
    (hs : symbols.get? (inScope enclosing name) = some s) :
    symbols.search? name scope.reverse = some s := by
  induction scope using List.reverseRecOn with
  | nil =>
    rw [List.prefix_nil.1 hencloses, inScope_nil] at hs
    exact hs
  | append_singleton outer c ih =>
    rw [List.reverse_concat, search?, List.reverse_reverse]
    rcases List.prefix_concat_iff.1 hencloses with rfl | houter
    -- The search ends here.
    · have hfound : symbols.get? (Text.join "." (outer ++ [c, name])) = some s := by
        rw [← hs, inScope, List.append_assoc]
        rfl
      rw [hfound]
    -- The scope is too far inside, so the search goes on around it.
    · have hlength := houter.length_le
      have hnone := hdeeper (outer ++ [c]) (List.prefix_refl _) (by simp; omega)
      rw [inScope, List.append_assoc] at hnone
      have hnext : symbols.get? (Text.join "." (outer ++ [c, name])) = none := hnone
      rw [hnext]
      exact ih houter fun deeper h => hdeeper deeper (h.trans (List.prefix_append _ _))

/-! ## Resolved names -/

/-- The type that a symbol stands for. -/
def Symbol.type : Symbol → TypeDesc
  | .message name => .struct name
  | .enum name => .enum name

theorem Symbol.type_inj {s s' : Symbol} : s.type = s'.type ↔ s = s' := by
  cases s <;> cases s' <;> simp [type]

namespace SymbolTable

variable {symbols : SymbolTable} {name scope : Text} {s : Symbol}

theorem lookup?_relative (h : name.head? ≠ some ('.' : CodePoint)) :
    symbols.lookup? name scope = symbols.search? name (components scope).reverse := by
  have hscope : (if scope = [] then [] else (Text.splitOn '.' scope).reverse) =
      (components scope).reverse := by
    unfold components
    split <;> rfl
  cases name with
  | nil => rw [lookup?, hscope]
  | cons c rest =>
    have hc : c ≠ '.' := fun hc => h (congrArg some hc)
    rw [lookup?, if_neg hc, hscope]

/-- No scalar has a point in front of it. -/
theorem has_proto_point (name : Text) : ScalarType.proto.has ('.' :: name) = false := by
  have hpoint : ∀ e ∈ ScalarType.proto, e.1.head? ≠ some ('.' : CodePoint) := by decide
  refine List.any_eq_false.2 fun e he => ?_
  rw [decide_eq_true_eq]
  intro heq
  exact hpoint e he (by rw [heq]; rfl)

/-- A name that is no scalar resolves to what is found, and to a scalar otherwise. -/
theorem resolveType_eq_type_iff (hscalar : ScalarType.proto.has name = false)
    (hknown : ScalarType.wellKnown.has (Text.dropLeading '.' name) = false) :
    symbols.resolveType name scope = s.type ↔ symbols.lookup? name scope = some s := by
  simp only [resolveType, resolveOrMiss, hscalar, hknown, Bool.false_eq_true, if_false]
  cases hlookup : symbols.lookup? name scope with
  | none => cases s <;> simp [Symbol.type]
  | some s' =>
    rw [Option.some_inj, ← Symbol.type_inj]
    cases s' <;> exact Iff.rfl

/-- Scalars are no types that are declared. -/
theorem lookup?_of_resolveType (h : symbols.resolveType name scope = s.type) :
    symbols.lookup? name scope = some s := by
  cases hscalar : ScalarType.proto.has name with
  | true =>
    simp only [resolveType, resolveOrMiss, hscalar, if_true] at h
    cases s <;> cases h
  | false =>
    cases hknown : ScalarType.wellKnown.has (Text.dropLeading '.' name) with
    | true =>
      simp only [resolveType, resolveOrMiss, hscalar, hknown, Bool.false_eq_true, if_false,
        if_true] at h
      cases s <;> cases h
    | false => exact (resolveType_eq_type_iff hscalar hknown).1 h

end SymbolTable

namespace SourceSet

variable {set : SourceSet}

theorem search?_of_selects (hdotless : set.Dotless) (hdistinct : set.Distinct) {name scope : Text}
    {s : Symbol} (h : set.Selects scope name s) :
    set.symbols.search? name (components scope).reverse = some s := by
  obtain ⟨enclosing, hdecisive, hs⟩ := h
  refine SymbolTable.search?_eq_some hdecisive.encloses (fun deeper hdeeper hlength => ?_)
    (hs.get? hdistinct)
  -- The whole name further inside would declare its first component there.
  rw [Option.eq_none_iff_forall_ne_some]
  intro s' hs'
  have hfirst := hasName_firstComponent hdotless (declares_of_get? hs')
  exact hdecisive.innermost deeper hdeeper hlength hfirst

/-- A relative name that is neither a scalar nor well known resolves to what the rule selects for
    it, in every scope.  A name with a leading point resolves only to the declaration that has
    exactly this name, and it does so unless it is well known. -/
theorem resolves_by_rule (hdotless : set.Dotless) (hdistinct : set.Distinct) (name scope : Text)
    (s : Symbol) :
    (name.head? ≠ some ('.' : CodePoint) → ScalarType.proto.has name = false →
      ScalarType.wellKnown.has name = false → set.Selects scope name s →
      set.symbols.resolveType name scope = s.type) ∧
    (set.symbols.resolveType ('.' :: name) scope = s.type → set.Declares name s) ∧
    (ScalarType.wellKnown.has (Text.dropLeading '.' name) = false → set.Declares name s →
      set.symbols.resolveType ('.' :: name) scope = s.type) := by
  -- A leading point skips the search along the scopes.
  have hpoint : set.symbols.lookup? ('.' :: name) scope = set.symbols.get? name := by
    rw [SymbolTable.lookup?, if_pos rfl]
  refine ⟨fun hrelative hscalar hknown hselects => ?_, fun h => ?_, fun hknown h => ?_⟩
  · rw [SymbolTable.resolveType_eq_type_iff hscalar
      (by rwa [Text.dropLeading_eq_self hrelative]), SymbolTable.lookup?_relative hrelative]
    exact search?_of_selects hdotless hdistinct hselects
  · exact declares_of_get? (hpoint ▸ SymbolTable.lookup?_of_resolveType h)
  · have hbare : Text.dropLeading '.' ('.' :: name) = Text.dropLeading '.' name :=
      List.dropWhile_cons_of_pos (by simp)
    rw [SymbolTable.resolveType_eq_type_iff (SymbolTable.has_proto_point name) (by rwa [hbare]),
      hpoint]
    exact h.get? hdistinct

end SourceSet

/-! ## Two packages

    `stock` is a package beside the one of the main file, and a message in a message of the main
    file has the name of a message of that package.
-/

namespace File

instance (f : File) (t : Text) : Decidable (f.HasPackage t) :=
  inferInstanceAs (Decidable (_ ∧ _))

theorem hasName_iff {f : File} {t : Text} :
    f.HasName t ↔ t ∈ f.symbols.map Prod.fst ∨ f.HasPackage t := by
  simp only [HasName, ← mem_symbols_iff, List.mem_map, Prod.exists, exists_and_right,
    exists_eq_right]

instance (f : File) (t : Text) : Decidable (f.HasName t) := decidable_of_iff' _ hasName_iff

theorem dotless_iff {f : File} : f.Dotless ↔ (∀ e ∈ f.enums, ('.' : CodePoint) ∉ e.name) ∧
    ∀ e ∈ walkAll [] f.messages,
      ('.' : CodePoint) ∉ e.2.name ∧ ∀ d ∈ e.2.enums, ('.' : CodePoint) ∉ d.name := by
  constructor
  · exact fun h => ⟨h.enums, fun e he => h.messages e.1 e.2 (mem_walkAll_iff.1 he)⟩
  · exact fun h => ⟨h.1, fun path m hm => h.2 (path, m) (mem_walkAll_iff.2 hm)⟩

instance (f : File) : Decidable f.Dotless := decidable_of_iff' _ dotless_iff

end File

def orderFile : File :=
  let kind : Enum := ⟨"Kind", [], [], []⟩
  let item : Message := ⟨"Item", [], [], [kind], [], []⟩
  { File.empty with package := "shop.api", messages := [⟨"Order", [], [item], [], [], []⟩] }

def stockFile : File :=
  { File.empty with
    package := "shop.stock", messages := [⟨"Item", [], [], [], [], []⟩]
    enums := [⟨"State", [], [], []⟩] }

def shopSources : SourceSet where
  sources := [
    { path := "order.proto", file := orderFile, imports := [1] },
    { path := "stock.proto", file := stockFile, imports := [0] }]

theorem files_shopSources : shopSources.files = [orderFile, stockFile] := by
  have horder : shopSources.order = [0, 1] := by
    simp [shopSources, SourceSet.order, Traversal.breadthFirst, Traversal.sweep, SourceSet.source?]
  rw [SourceSet.files, horder]
  rfl

theorem dotless_shopSources : shopSources.Dotless := by
  rw [SourceSet.Dotless, files_shopSources]
  decide +kernel

theorem distinct_shopSources : shopSources.Distinct := by
  rw [SourceSet.Distinct, files_shopSources]
  decide +kernel

theorem selects_stockItem :
    shopSources.Selects "shop.api.Order" "stock.Item" (.message "Item") := by
  have hcomponents : components "shop.api.Order" = ["shop", "api", "Order"] := by decide +kernel
  have hfirst : firstComponent "stock.Item" = "stock" := by decide +kernel
  have hdeeper : ∀ deeper ∈ List.inits (["shop", "api", "Order"] : List Text), 1 < deeper.length →
      ∀ f ∈ [orderFile, stockFile], ¬f.HasName (inScope deeper "stock") := by decide +kernel
  have hdeclares : ∃ f ∈ [orderFile, stockFile], f.Declares "shop.stock.Item" (.message "Item") :=
    ⟨stockFile, by simp, .message (.top List.mem_cons_self)⟩
  refine ⟨["shop"], ⟨?_, ?_, fun deeper hencloses hlength => ?_⟩, ?_⟩
  · rw [hcomponents]
    decide +kernel
  · rw [hfirst, SourceSet.HasName, files_shopSources]
    decide +kernel
  · rw [hfirst, SourceSet.HasName, files_shopSources]
    rw [hcomponents, ← List.mem_inits] at hencloses
    rintro ⟨f, hf, hname⟩
    exact hdeeper deeper hencloses hlength f hf hname
  · rw [SourceSet.Declares, files_shopSources]
    exact hdeclares

theorem declares_stockState : shopSources.Declares "shop.stock.State" (.enum "State") := by
  have hstate : stockFile.Declares "shop.stock.State" (.enum "State") :=
    .enum (e := ⟨"State", [], [], []⟩) List.mem_cons_self
  rw [SourceSet.Declares, files_shopSources]
  exact ⟨stockFile, by simp, hstate⟩

theorem resolves_stockItem : shopSources.Dotless ∧ shopSources.Distinct ∧
    shopSources.Selects "shop.api.Order" "stock.Item" (.message "Item") ∧
    shopSources.symbols.resolveType "stock.Item" "shop.api.Order" = .struct "Item" ∧
    shopSources.symbols.resolveType ".shop.stock.State" "shop.api.Order" = .enum "State" := by
  refine ⟨dotless_shopSources, distinct_shopSources, selects_stockItem, ?_, ?_⟩
  · exact (SourceSet.resolves_by_rule dotless_shopSources distinct_shopSources "stock.Item"
      "shop.api.Order" (.message "Item")).1 (by decide) (by decide +kernel) (by decide +kernel)
      selects_stockItem
  · exact (SourceSet.resolves_by_rule dotless_shopSources distinct_shopSources "shop.stock.State"
      "shop.api.Order" (.enum "State")).2.2 (by decide +kernel) declares_stockState

end IdlBridge.Proto
