import IdlBridge.Proofs.Draft.Precedence
import IdlBridge.Proofs.Grouping

/-! # Messages of one name are united

    A file that messages are added to has one message for each name.  It is the union of all
    messages of that name: of the declarations of one kind that share a name, the first counts, in
    the order in which the messages have been added.

    Adding a message is the `upsert` of its name, and uniting two messages adds what is not there
    yet.  So the messages of the file are the groups of what has been added, and the lists of a
    message are the first occurrences in the lists of its group.
-/

namespace IdlBridge.Draft

variable {α : Type}

/-! ## Lists by name -/

/-- The items whose name no earlier item has. -/
def firstNamed (key : α → Name) (xs : List α) : List α :=
  firsts (fun x y => (key x).same (key y)) xs

theorem addAllNew_eq_foldl (key : α → Name) (xs new : List α) :
    addAllNew key xs new = new.foldl (addUnless fun x y => (key x).same (key y)) xs := rfl

theorem addAllNew_firstNamed (key : α → Name) (xs new : List α) :
    addAllNew key (firstNamed key xs) new = firstNamed key (xs ++ new) := by
  rw [addAllNew_eq_foldl, firstNamed, firstNamed, ← foldl_addUnless_nil, ← foldl_addUnless_nil,
    List.foldl_append]

theorem firstNamed_eq_self {key : α → Name} {xs : List α} (h : Apart key xs) :
    firstNamed key xs = xs :=
  firsts_eq_self h

theorem firstNamed_subset (key : α → Name) (xs : List α) : firstNamed key xs ⊆ xs :=
  firsts_subset _ _

/-- Where names are texts, leaving out what shares a name with an earlier item loses no name. -/
theorem mem_map_firstNamed {key : α → Name} {xs : List α} (h : ∀ x ∈ xs, ∃ t, key x = .text t)
    {n : Name} : n ∈ (firstNamed key xs).map key ↔ n ∈ xs.map key := by
  refine mem_map_firsts fun x _ y hy hsame => ?_
  obtain ⟨t, ht⟩ := h y hy
  rw [ht] at hsame ⊢
  exact same_text.1 hsame

theorem equals_text {a : Value} {t : Text} : a.equals (.text t) = true ↔ a = .text t := by
  constructor
  · exact fun h => same_text.1 (same_of_equals h)
  · intro h
    rw [Value.equals, Bool.and_eq_true]
    exact ⟨same_text.2 h, rfl⟩

/-! ## The union of messages -/

namespace Message

variable {m : Message} {ms : List Message}

/-- What messages declare, the first of each name, under one name. -/
def union (name : Name) (ms : List Message) : Message :=
  { name
    fields := firstNamed Field.name (ms.flatMap (·.fields))
    messages := firstNamed Message.name (ms.flatMap (·.messages))
    enums := firstNamed Enum.key (ms.flatMap (·.enums))
    settings := firstNamed Setting.key (ms.flatMap (·.settings)) }

/-- No two fields, messages, enumerations or options of the message have one name. -/
structure Separate (m : Message) : Prop where
  fields : Apart Field.name m.fields
  messages : Apart Message.name m.messages
  enums : Apart Enum.key m.enums
  settings : Apart Setting.key m.settings

/-- The message, its fields and the messages in it are named by texts. -/
structure TextNamed (m : Message) : Prop where
  name : ∃ t, m.name = .text t
  fields : ∀ fd ∈ m.fields, ∃ t, fd.name = .text t
  messages : ∀ n ∈ m.messages, ∃ t, n.name = .text t

/-- Two messages have the same names in each of their lists. -/
structure SameNames (a b : Message) : Prop where
  fields : ∀ n, n ∈ a.fields.map Field.name ↔ n ∈ b.fields.map Field.name
  messages : ∀ n, n ∈ a.messages.map Message.name ↔ n ∈ b.messages.map Message.name
  enums : ∀ n, n ∈ a.enums.map Enum.key ↔ n ∈ b.enums.map Enum.key
  settings : ∀ n, n ∈ a.settings.map Setting.key ↔ n ∈ b.settings.map Setting.key

theorem Separate.union_eq (h : m.Separate) : union m.name [m] = m := by
  obtain ⟨name, fields, messages, enums, settings⟩ := m
  simp only [union, List.flatMap_singleton, firstNamed_eq_self h.fields,
    firstNamed_eq_self h.messages, firstNamed_eq_self h.enums, firstNamed_eq_self h.settings]

theorem merge_union (name : Name) (ms : List Message) (m : Message) :
    (union name ms).merge m = union name (ms ++ [m]) := by
  simp only [union, merge, addAllNew_firstNamed, List.flatMap_append, List.flatMap_singleton]

/-- Messages that are united one after the other. -/
theorem foldl_merge_union (name : Name) (ms rest : List Message) :
    rest.foldl merge (union name ms) = union name (ms ++ rest) := by
  induction rest generalizing ms with
  | nil => rw [List.foldl_nil, List.append_nil]
  | cons m rest ih =>
    rw [List.foldl_cons, merge_union, ih, List.append_assoc, List.singleton_append]

theorem TextNamed.union {name : Name} (hname : ∃ t, name = .text t)
    (hms : ∀ m ∈ ms, m.TextNamed) : (Message.union name ms).TextNamed where
  name := hname
  fields fd hfd := by
    obtain ⟨m, hm, hfd⟩ := List.mem_flatMap.1 (firstNamed_subset _ _ hfd)
    exact (hms m hm).fields fd hfd
  messages n hn := by
    obtain ⟨m, hm, hn⟩ := List.mem_flatMap.1 (firstNamed_subset _ _ hn)
    exact (hms m hm).messages n hn

theorem TextNamed.findable (h : m.TextNamed) : m.Findable where
  fields fd hfd := by
    obtain ⟨t, ht⟩ := h.fields fd hfd
    rw [ht, same_text]
  messages n hn := by
    obtain ⟨t, ht⟩ := h.messages n hn
    rw [ht, same_text]

/-- The names in a union are those of the messages, in whatever order they come. -/
theorem sameNames_union {name name' : Name} {ms ms' : List Message} (hms : ∀ m ∈ ms, m.TextNamed)
    (hsame : ∀ m, m ∈ ms ↔ m ∈ ms') : (union name ms).SameNames (union name' ms') := by
  have hms' : ∀ m ∈ ms', m.TextNamed := fun m hm => hms m ((hsame m).2 hm)
  -- One list of the messages at a time: its names are those in any of the messages.
  have hlist : ∀ {β : Type} (key : β → Name) (list : Message → List β),
      (∀ m, m.TextNamed → ∀ x ∈ list m, ∃ t, key x = .text t) → ∀ n,
        n ∈ (firstNamed key (ms.flatMap list)).map key ↔
          n ∈ (firstNamed key (ms'.flatMap list)).map key := by
    intro β key list htext n
    have hmem : ∀ {xs : List Message}, (∀ m ∈ xs, m.TextNamed) →
        (n ∈ (firstNamed key (xs.flatMap list)).map key ↔ ∃ m ∈ xs, ∃ x ∈ list m, key x = n) := by
      intro xs hxs
      rw [mem_map_firstNamed fun x hx => ?_]
      · simp only [List.mem_map, List.mem_flatMap]
        constructor
        · rintro ⟨x, ⟨m, hm, hx⟩, hn⟩
          exact ⟨m, hm, x, hx, hn⟩
        · rintro ⟨m, hm, x, hx, hn⟩
          exact ⟨x, ⟨m, hm, hx⟩, hn⟩
      · obtain ⟨m, hm, hx⟩ := List.mem_flatMap.1 hx
        exact htext m (hxs m hm) x hx
    rw [hmem hms, hmem hms']
    simp only [hsame]
  exact {
    fields := hlist Field.name (·.fields) fun _ h => h.fields
    messages := hlist Message.name (·.messages) fun _ h => h.messages
    enums := hlist Enum.key (·.enums) fun _ _ _ _ => ⟨_, rfl⟩
    settings := hlist Setting.key (·.settings) fun _ _ _ _ => ⟨_, rfl⟩ }

end Message

/-! ## Messages of a file -/

namespace File

variable {ms ms' : List Message}

/-- The second message has the name of the first. -/
def sameName (a b : Message) : Bool :=
  a.name.equals b.name

/-- An empty file to which messages have been added, one after the other. -/
def ofMessages (package : Text) (ms : List Message) : File :=
  ms.foldl addMessage { package }

theorem uniteInto_eq_upsert (ms : List Message) (m : Message) :
    uniteInto ms m = upsert sameName id Message.merge ms m := by
  induction ms with
  | nil => rfl
  | cons a rest ih => rw [uniteInto, upsert, ih, sameName]

theorem messages_foldl_addMessage (ms : List Message) (f : File) :
    (ms.foldl addMessage f).messages = ms.foldl uniteInto f.messages := by
  induction ms generalizing f with
  | nil => rfl
  | cons m rest ih => rw [List.foldl_cons, ih, List.foldl_cons, addMessage]

/-- The messages of the file are the unions of the groups of one name. -/
theorem messages_ofMessages (package : Text) (hms : ∀ m ∈ ms, m.Separate) :
    (ofMessages package ms).messages =
      (gather sameName ms).map fun g => Message.union g.1.name (g.1 :: g.2) := by
  have hupsert : (uniteInto : List Message → Message → List Message) =
      upsert sameName id Message.merge := by
    funext ms m
    exact uniteInto_eq_upsert ms m
  have hmerge : ∀ a b, sameName a b = true → sameName (a.merge b) = sameName a := fun _ _ _ => rfl
  rw [ofMessages, messages_foldl_addMessage, hupsert, foldl_upsert hmerge]
  refine List.map_congr_left fun g hg => ?_
  have hfirst : Message.union g.1.name [g.1] = g.1 :=
    (hms g.1 (mem_of_mem_gather hg g.1 List.mem_cons_self)).union_eq
  rw [id, ← List.singleton_append, ← Message.foldl_merge_union, hfirst]

theorem sameName_iff {a b : Message} (hb : b.TextNamed) :
    sameName a b = true ↔ a.name = b.name := by
  obtain ⟨t, ht⟩ := hb.name
  rw [sameName, ht, equals_text]

/-- Where names are texts, a group is all messages of its name. -/
theorem messages_ofMessages_of_text (package : Text) (hms : ∀ m ∈ ms, m.Separate)
    (htext : ∀ m ∈ ms, m.TextNamed) :
    (ofMessages package ms).messages =
      (firsts sameName ms).map fun m => Message.union m.name (ms.filter (sameName m)) := by
  have hgroups : (gather sameName ms).map (fun g => (g.1, g.1 :: g.2)) =
      (firsts sameName ms).map fun m => (m, ms.filter (sameName m)) :=
    gather_eq_map fun a _ b hb => sameName_iff (htext b hb)
  have hunion := congrArg (List.map fun g : Message × List Message => Message.union g.1.name g.2)
    hgroups
  rw [List.map_map, List.map_map] at hunion
  rw [messages_ofMessages package hms]
  exact hunion

/-- A message of the file is the union of the messages of its name, and one of them. -/
theorem exists_of_mem_ofMessages {package : Text} (hms : ∀ m ∈ ms, m.Separate)
    (htext : ∀ m ∈ ms, m.TextNamed) {a : Message} (ha : a ∈ (ofMessages package ms).messages) :
    (∃ m ∈ ms, m.name = a.name) ∧
      ∃ group, a = Message.union a.name group ∧ ∀ m, m ∈ group ↔ m ∈ ms ∧ m.name = a.name := by
  rw [messages_ofMessages_of_text package hms htext] at ha
  obtain ⟨m, hm, rfl⟩ := List.mem_map.1 ha
  have hmem := firsts_subset _ _ hm
  refine ⟨⟨m, hmem, rfl⟩, ms.filter (sameName m), rfl, fun x => ?_⟩
  rw [List.mem_filter]
  refine and_congr_right fun hx => ?_
  rw [sameName_iff (htext x hx)]
  exact eq_comm

theorem precedes_foldl_addMessage (ms : List Message) (f : File) :
    f.Precedes (ms.foldl addMessage f) := by
  induction ms generalizing f with
  | nil => exact .refl f
  | cons m rest ih => exact (precedes_addMessage f m).trans (ih _)

theorem services_foldl_addMessage (ms : List Message) (f : File) :
    (ms.foldl addMessage f).services = f.services := by
  induction ms generalizing f with
  | nil => rfl
  | cons m rest ih => rw [List.foldl_cons, ih, addMessage]

theorem findable_ofMessages (package : Text) (hms : ∀ m ∈ ms, m.Separate)
    (htext : ∀ m ∈ ms, m.TextNamed) : (ofMessages package ms).Findable := by
  have hservices : (ofMessages package ms).services = [] := services_foldl_addMessage ms _
  have hnamed : ∀ a ∈ (ofMessages package ms).messages, a.TextNamed := by
    intro a ha
    obtain ⟨⟨m, hm, hname⟩, group, hunion, hgroup⟩ := exists_of_mem_ofMessages hms htext ha
    rw [hunion]
    exact .union (hname ▸ (htext m hm).name) fun x hx => htext x ((hgroup x).1 hx).1
  refine ⟨fun a ha => ?_, ?_, ?_, fun a ha => (hnamed a ha).findable⟩
  · obtain ⟨t, ht⟩ := (hnamed a ha).name
    rw [ht, equals_text]
  · simp [hservices]
  · simp [hservices]

/-- A message that has been added is absorbed when it is added again. -/
theorem addMessage_ofMessages (package : Text) (hms : ∀ m ∈ ms, m.Separate)
    (htext : ∀ m ∈ ms, m.TextNamed) {m : Message} (hm : m ∈ ms) :
    (ofMessages package ms).addMessage m = ofMessages package ms := by
  obtain ⟨before, behind, rfl⟩ := List.append_of_mem hm
  -- What follows the message only adds to the file that has it.
  have hlater : ofMessages package (before ++ m :: behind) =
      behind.foldl addMessage ((ofMessages package before).addMessage m) := by
    rw [ofMessages, List.foldl_append, List.foldl_cons, ofMessages]
  have hprecedes : ((ofMessages package before).addMessage m).Precedes
      (ofMessages package (before ++ m :: behind)) :=
    hlater ▸ precedes_foldl_addMessage behind _
  exact addMessage_eq_self hprecedes (findable_ofMessages package hms htext)

/-- The names of the file are those of the messages. -/
theorem mem_names_ofMessages (package : Text) (hms : ∀ m ∈ ms, m.Separate)
    (htext : ∀ m ∈ ms, m.TextNamed) {n : Name} :
    n ∈ (ofMessages package ms).messages.map Message.name ↔ n ∈ ms.map Message.name := by
  have hname : Message.name ∘ (fun m => Message.union m.name (ms.filter (sameName m))) =
      Message.name := rfl
  rw [messages_ofMessages_of_text package hms htext, List.map_map, hname]
  exact mem_map_firsts fun a _ b hb => (sameName_iff (htext b hb)).1

theorem unequal_ofMessages (package : Text) (ms : List Message) :
    Unequal Message.name (ofMessages package ms).messages := by
  have hfold : ∀ (ms : List Message) (f : File), Unequal Message.name f.messages →
      Unequal Message.name (ms.foldl addMessage f).messages := by
    intro ms
    induction ms with
    | nil => exact fun _ h => h
    | cons m rest ih => exact fun f h => ih _ (unequal_uniteInto h m)
  exact hfold ms _ .nil

/-- Messages that are added one after the other leave one message for each name, the union of the
    messages of that name.  So what has been added before changes nothing, and the names that are
    there in the end do not depend on the order. -/
theorem messages_united (package : Text) (ms : List Message) (hms : ∀ m ∈ ms, m.Separate) :
    Unequal Message.name (ofMessages package ms).messages ∧
    (ofMessages package ms).messages =
      (gather sameName ms).map (fun g => Message.union g.1.name (g.1 :: g.2)) ∧
    ((∀ m ∈ ms, m.TextNamed) →
      (ofMessages package ms).messages =
        (firsts sameName ms).map (fun m => Message.union m.name (ms.filter (sameName m))) ∧
      (∀ m ∈ ms, (ofMessages package ms).addMessage m = ofMessages package ms) ∧
      ∀ ms', ms.Perm ms' →
        (∀ n, n ∈ (ofMessages package ms).messages.map Message.name ↔
          n ∈ (ofMessages package ms').messages.map Message.name) ∧
        ∀ a ∈ (ofMessages package ms).messages, ∀ b ∈ (ofMessages package ms').messages,
          a.name = b.name → a.SameNames b) := by
  refine ⟨unequal_ofMessages package ms, messages_ofMessages package hms, fun htext => ?_⟩
  refine ⟨messages_ofMessages_of_text package hms htext,
    fun m hm => addMessage_ofMessages package hms htext hm, fun ms' hperm => ?_⟩
  have hms' : ∀ m ∈ ms', m.Separate := fun m hm => hms m (hperm.mem_iff.2 hm)
  have htext' : ∀ m ∈ ms', m.TextNamed := fun m hm => htext m (hperm.mem_iff.2 hm)
  constructor
  · intro n
    rw [mem_names_ofMessages package hms htext, mem_names_ofMessages package hms' htext']
    exact (hperm.map Message.name).mem_iff
  · intro a ha b hb hname
    obtain ⟨-, group, hunion, hgroup⟩ := exists_of_mem_ofMessages hms htext ha
    obtain ⟨-, group', hunion', hgroup'⟩ := exists_of_mem_ofMessages hms' htext' hb
    rw [hunion, hunion']
    -- The two groups hold the same messages, as a permutation keeps all of them.
    refine Message.sameNames_union (fun m hm => htext m ((hgroup m).1 hm).1) fun m => ?_
    rw [hgroup, hgroup', hperm.mem_iff, hname]

/-- An order, an item, and the order again with another field and with a field of another type. -/
def orderMessages : List Message :=
  let field (name type : Text) : Field := { name := .text name, type }
  [{ name := .text "Order", fields := [field "id" "int32"] },
    { name := .text "Item", fields := [field "id" "int32"] },
    { name := .text "Order", fields := [field "note" "string", field "id" "string"] }]

/-- Both orders are one message, which keeps the type of its first `id`. -/
theorem united_orderMessages :
    (∀ m ∈ orderMessages, m.Separate) ∧ (∀ m ∈ orderMessages, m.TextNamed) ∧
      (ofMessages [] orderMessages).messages =
        [{ name := .text "Order", fields := [⟨.text "id", "int32", false, []⟩,
            ⟨.text "note", "string", false, []⟩] },
          { name := .text "Item", fields := [⟨.text "id", "int32", false, []⟩] }] ∧
      (firsts sameName orderMessages).map
          (fun m => Message.union m.name (orderMessages.filter (sameName m))) =
        (ofMessages [] orderMessages).messages ∧
      ∀ m ∈ orderMessages,
        (ofMessages [] orderMessages).addMessage m = ofMessages [] orderMessages := by
  have hseparate : ∀ m ∈ orderMessages, m.Separate := by
    have hfields : ∀ m ∈ orderMessages, Apart Field.name m.fields := by
      unfold Apart
      decide
    intro m hm
    have hnone : m.messages = [] ∧ m.enums = [] ∧ m.settings = [] := by
      revert m
      simp [orderMessages]
    obtain ⟨hmessages, henums, hsettings⟩ := hnone
    exact ⟨hfields m hm, hmessages ▸ .nil, henums ▸ .nil, hsettings ▸ .nil⟩
  have htext : ∀ m ∈ orderMessages, m.TextNamed := by
    intro m hm
    simp only [orderMessages, List.mem_cons, List.not_mem_nil, or_false] at hm
    rcases hm with rfl | rfl | rfl <;> exact ⟨⟨_, rfl⟩, by simp, by simp⟩
  obtain ⟨-, -, hunited⟩ := messages_united [] orderMessages hseparate
  obtain ⟨hmessages, hagain, -⟩ := hunited htext
  exact ⟨hseparate, htext, rfl, hmessages.symm, hagain⟩

end File

end IdlBridge.Draft
