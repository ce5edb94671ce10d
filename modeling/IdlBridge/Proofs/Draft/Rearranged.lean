import IdlBridge.Proofs.Draft.Spelling
import IdlBridge.Proofs.Sorting

/-! # The order of declarations

    A draft can be put together in any order, and its text stays the same.  Two drafts are
    `Rearranged` when they differ only in the order of their declarations: at the top level, inside
    services and enumerations, and inside messages at any depth.

    A printer sorts every list of declarations by itself, and sorting forgets the order as long as
    no two declarations of the list have the same key.  This is what `Orderly` asks for.
-/

namespace IdlBridge.Draft

/-! ## Drafts in another order -/

/-- The values of an enumeration in another order. -/
structure Enum.Rearranged (e e' : Enum) : Prop where
  name : e'.name = e.name
  values : e.values.Perm e'.values

/-- The declarations of a message in another order, at any depth. -/
inductive Message.Rearranged : Message → Message → Prop where
  | intro {m m' : Message} (pairs : List (Message × Message)) (name : m'.name = m.name)
      (settings : m'.settings = m.settings) (fields : m.fields.Perm m'.fields)
      (enums : Paired Enum.Rearranged m.enums m'.enums)
      (messages : pairs.map Prod.fst = m.messages)
      (messages' : (pairs.map Prod.snd).Perm m'.messages)
      (inner : ∀ p ∈ pairs, p.1.Rearranged p.2) : m.Rearranged m'

/-- The methods of a service in another order. -/
structure Service.Rearranged (s s' : Service) : Prop where
  name : s'.name = s.name
  methods : s.methods.Perm s'.methods

/-- The declarations of a file in another order. -/
structure File.Rearranged (f f' : File) : Prop where
  package : f'.package = f.package
  imports : f.imports.Perm f'.imports
  settings : f.settings.Perm f'.settings
  enums : Paired Enum.Rearranged f.enums f'.enums
  messages : Paired Message.Rearranged f.messages f'.messages
  services : Paired Service.Rearranged f.services f'.services

/-! ## Keys without repetition -/

/-- The keys of the items are texts, and no two of them are the same. -/
structure Keyed {α : Type} (key : α → Name) (xs : List α) : Prop where
  text : ∀ x ∈ xs, key x = .text (key x).asText
  nodup : (xs.map fun x => (key x).asText).Nodup

theorem Keyed.of_names {α : Type} {key : α → Name} {xs : List α} {names : List Text}
    (h : xs.map key = names.map .text) (hnodup : names.Nodup) : Keyed key xs := by
  constructor
  · intro x hx
    have hkey : key x ∈ names.map .text := h ▸ List.mem_map_of_mem hx
    obtain ⟨t, -, ht⟩ := List.mem_map.1 hkey
    rw [← ht]
    rfl
  · have hnames : (xs.map fun x => (key x).asText) = names := by
      have := congrArg (List.map Value.asText) h
      rwa [List.map_map, List.map_map, show Value.asText ∘ Value.text = id from rfl,
        List.map_id] at this
    rwa [hnames]

/-- No two values have the same number. -/
def Enum.Orderly (e : Enum) : Prop := (e.values.map EnumValue.number).Nodup

instance (e : Enum) : Decidable e.Orderly :=
  inferInstanceAs (Decidable (e.values.map EnumValue.number).Nodup)

/-- Sibling declarations have texts as names, and no two of them the same, at any depth. -/
inductive Message.Orderly : Message → Prop where
  | intro {m : Message} (fields : Keyed Field.name m.fields) (enums : Keyed Enum.key m.enums)
      (values : ∀ e ∈ m.enums, e.Orderly) (messages : Keyed Message.name m.messages)
      (inner : ∀ n ∈ m.messages, n.Orderly) : m.Orderly

/-- Sibling declarations have texts as names, and no two of them the same. -/
structure File.Orderly (f : File) : Prop where
  settings : f.settings.keys.Nodup
  enums : Keyed Enum.key f.enums
  values : ∀ e ∈ f.enums, e.Orderly
  messages : Keyed Message.name f.messages
  inner : ∀ m ∈ f.messages, m.Orderly
  services : Keyed Service.name f.services
  methods : ∀ s ∈ f.services, Keyed Method.name s.methods

variable {α : Type}

/-- Items with text keys that are all different are sorted alike from any order. -/
theorem Keyed.sortBy?_eq {key : α → Name} {xs ys : List α} (h : Keyed key xs) (hperm : xs.Perm ys) :
    Value.sortBy? key ys = Value.sortBy? key xs := by
  have htext : ∀ y ∈ ys, key y = .text (key y).asText := fun y hy => h.text y (hperm.mem_iff.2 hy)
  rw [sortBy?_eq_byName h.text, sortBy?_eq_byName htext]
  exact congrArg some (mergeSort_eq_of_perm_names h.nodup hperm).symm

/-! ## Printing in any order -/

namespace Printer

theorem all?_eq (os : List (Option α)) :
    all? os = if os.all Option.isSome then some (os.filterMap id) else none := by
  induction os with
  | nil => rfl
  | cons o rest ih =>
    cases o with
    | none => rfl
    | some a =>
      simp only [all?, ih]
      by_cases hrest : rest.all Option.isSome = true <;> simp [hrest]

/-- Texts of the same declarations in another order, the names of which are all different. -/
inductive Shuffled : Option (List (Name × Text)) → Option (List (Name × Text)) → Prop where
  | none : Shuffled none none
  | some {ds ds' : List (Name × Text)} :
      Keyed Prod.fst ds → ds.Perm ds' → Shuffled (some ds) (some ds')

/-- What is done with the sorted texts does not depend on the order before. -/
theorem Shuffled.bind_eq {o o' : Option (List (Name × Text))} (h : Shuffled o o') {β : Type}
    (k : Text → Option β) :
    (o'.bind fun ds => (sorted? ds).bind k) = o.bind fun ds => (sorted? ds).bind k := by
  cases h with
  | none => rfl
  | some hkeyed hperm =>
    rw [Option.bind_some, Option.bind_some, sorted?, sorted?, hkeyed.sortBy?_eq hperm]

theorem Shuffled.bind_spaced_eq {o o' : Option (List (Name × Text))} (h : Shuffled o o') {β : Type}
    (k : Text → Option β) :
    (o'.bind fun ds => (sorted? (spaced ds)).bind k) =
      o.bind fun ds => (sorted? (spaced ds)).bind k := by
  cases h with
  | none => rfl
  | @some ds ds' hkeyed hperm =>
    have hspaced : Keyed Prod.fst (spaced ds) := by
      constructor
      · intro d hd
        obtain ⟨e, he, rfl⟩ := List.mem_map.1 hd
        exact hkeyed.text e he
      · rw [spaced, List.map_map]
        exact hkeyed.nodup
    exact (Shuffled.some hspaced (hperm.map _)).bind_eq k

/-- Declarations are printed one by one, so their texts come in the order of the declarations. -/
theorem shuffled_all? {R : α → α → Prop} {xs ys : List α} (h : Paired R xs ys) {key : α → Name}
    (hkeyed : Keyed key xs) {print : α → Option Text}
    (hR : ∀ x ∈ xs, ∀ y, R x y → key y = key x ∧ print y = print x) :
    Shuffled (all? (xs.map fun x => (print x).map (Prod.mk (key x))))
      (all? (ys.map fun y => (print y).map (Prod.mk (key y)))) := by
  have hperm := h.map_perm (f := fun x => (print x).map (Prod.mk (key x))) fun x hx y hxy => by
    obtain ⟨hkey, hprint⟩ := hR x hx y hxy
    rw [hkey, hprint]
  rw [all?_eq, all?_eq, ← hperm.all_eq]
  split
  · refine .some ⟨fun d hd => ?_, ?_⟩ (hperm.filterMap id)
    · obtain ⟨x, hx, hd⟩ := List.mem_filterMap.1 (List.filterMap_map ▸ hd)
      obtain ⟨t, -, rfl⟩ := Option.map_eq_some_iff.1 hd
      exact hkeyed.text x hx
    · -- the keys of the texts are the keys of the declarations that have one
      rw [List.filterMap_map, List.Nodup, List.pairwise_map]
      have hkeys := List.pairwise_map.1 hkeyed.nodup
      refine hkeys.filterMap _ fun x y hne d hd e he => ?_
      obtain ⟨t, -, rfl⟩ := Option.map_eq_some_iff.1 hd
      obtain ⟨u, -, rfl⟩ := Option.map_eq_some_iff.1 he
      exact hne
  · exact .none

/-! ## Every kind of declaration -/

theorem enum?_eq {e e' : Enum} (h : e.Rearranged e') (he : e.Orderly) (indent : Text) :
    enum? indent e' = enum? indent e := by
  have hsort : (e.values.mergeSort fun a b => a.number ≤ b.number) =
      e'.values.mergeSort fun a b => a.number ≤ b.number := by
    refine mergeSort_eq_of_perm ?_ ?_ ?_ he h.values
    · intro a b c hab hbc
      simp only [decide_eq_true_eq] at *
      omega
    · intro a b
      simp only [Bool.or_eq_true, decide_eq_true_eq]
      omega
    · intro a b hab hba
      simp only [decide_eq_true_eq] at *
      omega
  unfold enum?
  rw [h.name, hsort]

theorem shuffled_enums? {es es' : List Enum} (h : Paired Enum.Rearranged es es')
    (hkeyed : Keyed Enum.key es) (hvalues : ∀ e ∈ es, e.Orderly) (indent : Text) :
    Shuffled (enums? indent es) (enums? indent es') := by
  refine shuffled_all? h hkeyed fun e he e' hee' => ⟨?_, enum?_eq hee' (hvalues e he) indent⟩
  rw [Enum.key, Enum.key, hee'.name]

/-- Fields are numbered in their sorted order, so their numbers stay the same, too. -/
theorem fields?_eq {fs fs' : List Field} (h : fs.Perm fs') (hkeyed : Keyed Field.name fs)
    (indent : Text) : fields? indent fs' = fields? indent fs := by
  unfold fields?
  rw [hkeyed.sortBy?_eq h]

theorem message?_eq {m m' : Message} (h : m.Rearranged m') (hm : m.Orderly) (indent : Text) :
    message? indent m' = message? indent m := by
  -- the induction runs over the pairs of nested messages
  induction h generalizing indent with
  | @intro m m' pairs hname hsettings hfields henums hpairs hpairs' hinner ih =>
    cases hm with
    | intro keyed_fields keyed_enums hvalues keyed_messages horderly =>
      have print_fields := fields?_eq hfields keyed_fields (indent ++ step)
      have print_enums := shuffled_enums? henums keyed_enums hvalues (indent ++ step)
      have print_messages : Shuffled (message?.messages? (indent ++ step) m.messages)
          (message?.messages? (indent ++ step) m'.messages) := by
        rw [messages?_eq, messages?_eq]
        -- the hypothesis of the induction, as a relation of nested messages
        let R : Message → Message → Prop := fun n n' =>
          n'.name = n.name ∧ message? (indent ++ step) n' = message? (indent ++ step) n
        have hR : Paired R m.messages m'.messages := by
          refine ⟨pairs, hpairs, hpairs', fun p hp => ?_⟩
          have hmem : p.1 ∈ m.messages := hpairs ▸ List.mem_map_of_mem hp
          have hp' := hinner p hp
          refine ⟨?_, ih p hp (horderly p.1 hmem) (indent ++ step)⟩
          cases hp' with
          | intro _ name => exact name
        exact shuffled_all? hR keyed_messages fun n _ n' hnn' => hnn'
      obtain ⟨name, fields, nested, enums, settings⟩ := m
      obtain ⟨name', fields', nested', enums', settings'⟩ := m'
      simp only at hname hsettings print_fields print_enums print_messages
      subst hname hsettings
      simp only [message?, Option.bind_eq_bind, Option.pure_def]
      simp only [print_enums.bind_eq, print_fields, print_messages.bind_eq]

theorem shuffled_messages? {ms ms' : List Message} (h : Paired Message.Rearranged ms ms')
    (hkeyed : Keyed Message.name ms) (horderly : ∀ m ∈ ms, m.Orderly) (indent : Text) :
    Shuffled (message?.messages? indent ms) (message?.messages? indent ms') := by
  rw [messages?_eq, messages?_eq]
  refine shuffled_all? h hkeyed fun m hm m' hmm' => ⟨?_, message?_eq hmm' (horderly m hm) indent⟩
  cases hmm' with
  | intro _ name => exact name

theorem service?_eq {s s' : Service} (h : s.Rearranged s') (hkeyed : Keyed Method.name s.methods) :
    service? s' = service? s := by
  have hpaired : Paired Eq s.methods s'.methods := Paired.of_perm h.methods
  have hmethods : Shuffled (methods? s.methods) (methods? s'.methods) :=
    shuffled_all? hpaired hkeyed fun m _ m' hmm' => by rw [hmm']; exact ⟨rfl, rfl⟩
  simp only [service?, Option.bind_eq_bind, Option.pure_def, h.name, hmethods.bind_eq]

theorem shuffled_services? {ss ss' : List Service} (h : Paired Service.Rearranged ss ss')
    (hkeyed : Keyed Service.name ss) (hmethods : ∀ s ∈ ss, Keyed Method.name s.methods) :
    Shuffled (services? ss) (services? ss') :=
  shuffled_all? h hkeyed fun s hs _ hss' => ⟨hss'.name, service?_eq hss' (hmethods s hs)⟩

/-- Imports are sorted as texts, and equal ones cannot be told apart. -/
theorem imports_eq {ps ps' : List Text} (h : ps.Perm ps') : imports ps' = imports ps := by
  have hperm : (ps'.mergeSort Text.le).Perm (ps.mergeSort Text.le) :=
    ((List.mergeSort_perm ps' _).trans h.symm).trans (List.mergeSort_perm ps _).symm
  have hsorted : ∀ qs : List Text, (qs.mergeSort Text.le).Pairwise fun a b => Text.le a b = true :=
    List.pairwise_mergeSort (fun _ _ _ => Text.le_trans) Text.le_total
  have hsort := hperm.eq_of_pairwise (fun a b _ _ => Text.le_antisymm) (hsorted ps') (hsorted ps)
  rw [imports, imports, hsort]

theorem file?_eq {f f' : File} (h : f.Rearranged f') (hf : f.Orderly) (settings : Table Literal) :
    file? f' settings = file? f settings := by
  have henums := shuffled_enums? h.enums hf.enums hf.values []
  have hmessages := shuffled_messages? h.messages hf.messages hf.inner []
  have hservices := shuffled_services? h.services hf.services hf.methods
  simp only [file?, Option.bind_eq_bind, Option.pure_def, h.package, imports_eq h.imports,
    henums.bind_spaced_eq, hmessages.bind_spaced_eq, hservices.bind_spaced_eq]

end Printer

/-- The text of a draft does not depend on the order of its declarations. -/
theorem File.toText_eq_of_rearranged {f f' : File} (h : f.Rearranged f') (hf : f.Orderly) :
    f'.toText = f.toText := by
  unfold File.toText
  rw [← Table.sort_eq_of_perm hf.settings h.settings]
  simp only [Printer.file?_eq h hf]

/-- A draft with two of everything, the nested message `Tag` included. -/
def market : File where
  package := "market"
  imports := ["b.proto", "a.proto"]
  settings := [("java_package", .text "market"), ("go_package", .text "market/items")]
  enums := [{ name := "Size", values := [⟨"SMALL", 0⟩, ⟨"LARGE", 1⟩] },
    { name := "Color", values := [] }]
  messages := [{ name := .text "Item"
                 fields := [{ name := .text "tag", type := "Tag" },
                   { name := .text "id", type := "string" }]
                 messages := [{ name := .text "Tag"
                                fields := [{ name := .text "text", type := "string" },
                                  { name := .text "hue", type := "int32" }] },
                   { name := .text "Part" }]
                 enums := [{ name := "State", values := [⟨"OPEN", 1⟩, ⟨"NEW", 0⟩] }] },
    { name := .text "Basket" }]
  services := [{ name := .text "Items"
                 methods := [{ name := .text "Put", input := "Item", output := .text "Item" },
                   { name := .text "Get", input := "Item", output := .text "Item" }] },
    { name := .text "Baskets" }]

/-- The same draft with every list the other way round. -/
def rearrangedMarket : File where
  package := "market"
  imports := ["a.proto", "b.proto"]
  settings := [("go_package", .text "market/items"), ("java_package", .text "market")]
  enums := [{ name := "Color", values := [] },
    { name := "Size", values := [⟨"LARGE", 1⟩, ⟨"SMALL", 0⟩] }]
  messages := [{ name := .text "Basket" },
    { name := .text "Item"
      fields := [{ name := .text "id", type := "string" }, { name := .text "tag", type := "Tag" }]
      messages := [{ name := .text "Part" },
        { name := .text "Tag"
          fields := [{ name := .text "hue", type := "int32" },
            { name := .text "text", type := "string" }] }]
      enums := [{ name := "State", values := [⟨"NEW", 0⟩, ⟨"OPEN", 1⟩] }] }]
  services := [{ name := .text "Baskets" },
    { name := .text "Items"
      methods := [{ name := .text "Get", input := "Item", output := .text "Item" },
        { name := .text "Put", input := "Item", output := .text "Item" }] }]

theorem market_orderly : market.Orderly := by
  have hplain : ∀ n : Name, (Message.mk n [] [] [] []).Orderly := fun _ =>
    .intro ⟨nofun, .nil⟩ ⟨nofun, .nil⟩ nofun ⟨nofun, .nil⟩ nofun
  have htag : (Message.mk (.text "Tag") [{ name := .text "text", type := "string" },
      { name := .text "hue", type := "int32" }] [] [] []).Orderly :=
    .intro (.of_names (show _ = ([("text" : Text), "hue"]).map Value.text from rfl) (by decide))
      ⟨nofun, .nil⟩ nofun ⟨nofun, .nil⟩ nofun
  refine
    { settings := by decide
      enums := .of_names (show _ = ([("Size" : Text), "Color"]).map Value.text from rfl) (by decide)
      values := List.forall_mem_cons.2 ⟨by decide, List.forall_mem_cons.2 ⟨.nil, nofun⟩⟩
      messages :=
        .of_names (show _ = ([("Item" : Text), "Basket"]).map Value.text from rfl) (by decide)
      inner := List.forall_mem_cons.2 ⟨?_, List.forall_mem_cons.2 ⟨hplain _, nofun⟩⟩
      services :=
        .of_names (show _ = ([("Items" : Text), "Baskets"]).map Value.text from rfl) (by decide)
      methods := List.forall_mem_cons.2 ⟨?_, List.forall_mem_cons.2 ⟨⟨nofun, .nil⟩, nofun⟩⟩ }
  · exact .intro (.of_names (show _ = ([("tag" : Text), "id"]).map Value.text from rfl) (by decide))
      (.of_names (show _ = ([("State" : Text)]).map Value.text from rfl) (by decide))
      (List.forall_mem_cons.2 ⟨by decide, nofun⟩)
      (.of_names (show _ = ([("Tag" : Text), "Part"]).map Value.text from rfl) (by decide))
      (List.forall_mem_cons.2 ⟨htag, List.forall_mem_cons.2 ⟨hplain _, nofun⟩⟩)
  · exact .of_names (show _ = ([("Put" : Text), "Get"]).map Value.text from rfl) (by decide)

theorem market_rearranged : market.Rearranged rearrangedMarket := by
  have hempty : ∀ n : Name, (Message.mk n [] [] [] []).Rearranged (Message.mk n [] [] [] []) :=
    fun _ => .intro [] rfl rfl .nil ⟨[], rfl, .nil, nofun⟩ rfl .nil nofun
  have htag : (Message.mk (.text "Tag") [{ name := .text "text", type := "string" },
      { name := .text "hue", type := "int32" }] [] [] []).Rearranged (Message.mk (.text "Tag")
        [{ name := .text "hue", type := "int32" }, { name := .text "text", type := "string" }]
        [] [] []) :=
    .intro [] rfl rfl (.swap _ _ []) ⟨[], rfl, .nil, nofun⟩ rfl .nil nofun
  refine
    { package := rfl
      imports := .swap _ _ []
      settings := .swap _ _ []
      enums := ⟨[(_, _), (_, _)], rfl, .swap _ _ [], ?_⟩
      messages := ⟨[(_, _), (_, _)], rfl, .swap _ _ [], ?_⟩
      services := ⟨[(_, _), (_, _)], rfl, .swap _ _ [], ?_⟩ }
  · exact List.forall_mem_cons.2 ⟨⟨rfl, .swap _ _ []⟩, List.forall_mem_cons.2 ⟨⟨rfl, .nil⟩, nofun⟩⟩
  · refine List.forall_mem_cons.2 ⟨?_, List.forall_mem_cons.2 ⟨hempty _, nofun⟩⟩
    -- The first message has been rearranged inside as well.
    refine .intro [(_, _), (_, _)] rfl rfl (.swap _ _ []) ⟨[(_, _)], rfl, .refl _, ?_⟩
      rfl (.swap _ _ []) ?_
    · exact List.forall_mem_cons.2 ⟨⟨rfl, .swap _ _ []⟩, nofun⟩
    · exact List.forall_mem_cons.2 ⟨htag, List.forall_mem_cons.2 ⟨hempty _, nofun⟩⟩
  · exact List.forall_mem_cons.2 ⟨⟨rfl, .swap _ _ []⟩, List.forall_mem_cons.2 ⟨⟨rfl, .nil⟩, nofun⟩⟩

theorem market_text : market.Orderly ∧ market.Rearranged rearrangedMarket ∧
    rearrangedMarket.toText = market.toText :=
  ⟨market_orderly, market_rearranged,
    File.toText_eq_of_rearranged market_rearranged market_orderly⟩

end IdlBridge.Draft
