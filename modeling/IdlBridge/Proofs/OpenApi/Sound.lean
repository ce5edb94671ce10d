import IdlBridge.OpenApi.Validation
import IdlBridge.Proofs.Collections
import IdlBridge.Proofs.OpenApi.Linked
import IdlBridge.Proofs.Value.Loaded

/-! # Sound objects

    An object is sound if it holds nothing but members of its kind, each once and each of the shape
    that the kind asks for, and so do the objects inside it; no table in it has a key twice.  What
    is read from data is sound, as long as no mapping of the data has a key twice
    (`sound_ofValue?`).

    `Reads` says shape by shape what a member is read as.
-/

namespace IdlBridge.OpenApi

open Reading

/-- The kinds of the objects that a member of a shape may hold. -/
def Shape.kinds : Shape → List Kind
  | .schema | .schemaOrFlag | .schemas => [.reference, .schema]
  | .object k | .objects k | .table k => [k]
  | _ => []

namespace Object

/-! ## Contents of a shape -/

/-- A member of the shape may hold the content. -/
def Admits : Shape → Slot → Prop
  | .text, .text _ | .flag, .flag _ | .schemaOrFlag, .flag _ | .texts, .texts _
  | .dataList, .dataList _ => True
  | .data, .data x => x.plain ≠ .null ∧ x.Keyed
  | .dataTable, .dataTable t => (Table.keys t).Nodup
  | .schema, .object o => o.kind ∈ Shape.schema.kinds
  | .schemaOrFlag, .object o => o.kind ∈ Shape.schemaOrFlag.kinds
  | .object k, .object o => o.kind = k
  | .objects k, .objects os => ∀ o ∈ os, o.kind = k
  | .schemas, .table t => (Table.keys t).Nodup ∧ ∀ e ∈ t, e.2.kind ∈ Shape.schemas.kinds
  | .table k, .table t => (Table.keys t).Nodup ∧ ∀ e ∈ t, e.2.kind = k
  | _, _ => False

/-- The content is one that the member may hold: nothing only where that is allowed. -/
def Fits (s : MemberSpec) (c : Slot) : Prop :=
  (c = .null ∧ s.presence = .optional) ∨ Admits s.shape c

/-- The object holds members of its kind, each once and each with a content that it may hold, and
    the objects inside it are sound as well. -/
inductive Sound : Object → Prop where
  | mk {k : Kind} {ms : List (Member × Slot)} {es : List (Text × Loaded)} :
      (ms.map Prod.fst).Nodup → (∀ e ∈ ms, ∃ s ∈ k.members, s.member = e.1 ∧ Fits s e.2) →
      (∀ e ∈ ms, ∀ o ∈ e.2.held, Sound o) → (Table.keys es).Nodup → (∀ e ∈ es, e.2.Keyed) →
      Sound (.mk k ms es)

/-! ## What members are read as -/

/-- What is read from data, other than null, for a member of a shape. -/
inductive Reads : Shape → Loaded → Slot → Prop where
  | text {x : Loaded} {t : Text} : textOf? x.plain = some t → Reads .text x (.text t)
  | flag {s : Shape} {x : Loaded} {b : Bool} : s = .flag ∨ s = .schemaOrFlag →
      flagOf? x.plain = some b → Reads s x (.flag b)
  | data {x : Loaded} : x.plain ≠ .null → Reads .data x (.data x)
  | texts {x : Loaded} {xs : List Loaded} {ts : List Text} : items? x = some xs →
      all? textOf? xs = some ts → Reads .texts x (.texts ts)
  | dataList {x : Loaded} {xs : List Loaded} : items? x = some xs → Reads .dataList x (.dataList xs)
  | dataTable {m : Option Mark} {es : Value.Entries Loaded} {t : List (Text × Loaded)} :
      dataTable? es = some t → Reads .dataTable (.map m es) (.dataTable (Table.insertAll [] t))
  | object {s : Shape} {x : Loaded} {k : Kind} {o : Object} :
      s = .object k ∨ (s = .schema ∨ s = .schemaOrFlag) ∧ k ∈ s.kinds →
      ofValue? k x = some o → Reads s x (.object o)
  | objects {k : Kind} {x : Loaded} {xs : List Loaded} {os : List Object} :
      x = .list xs ∨ x = .set xs → List.Forall₂ (fun x o => ofValue? k x = some o) xs os →
      Reads (.objects k) x (.objects os)
  | table {s : Shape} {m : Option Mark} {es : Value.Entries Loaded} {t : List (Text × Object)} :
      s = .schemas ∨ (∃ k, s = .table k) →
      List.Forall₂ (fun e f => ∃ k ∈ s.kinds, ofValue? k e.2 = some f.2) es t →
      Reads s (.map m es) (.table (Table.insertAll [] t))

theorem choose?_cases {r s : Option Object} {o : Object} (h : choose? r s = some o) :
    r = some o ∨ s = some o := by
  unfold choose? at h
  split at h
  · split at h
    · exact Or.inr h
    · exact Or.inl h
  · exact Or.inl h
  · exact Or.inr h

theorem exists_kind_of_choose? {v : Loaded} {o : Object}
    (h : choose? (ofValue? .reference v) (ofValue? .schema v) = some o) :
    ∃ k ∈ Shape.schema.kinds, ofValue? k v = some o := by
  rcases choose?_cases h with h | h
  · exact ⟨.reference, by decide, h⟩
  · exact ⟨.schema, by decide, h⟩

theorem forall₂_of_listOf? {k : Kind} {xs : List Loaded} {os : List Object}
    (h : listOf? k xs = some os) : List.Forall₂ (fun x o => ofValue? k x = some o) xs os := by
  induction xs generalizing os with
  | nil =>
    rw [listOf?] at h
    cases h
    exact .nil
  | cons x rest ih =>
    rw [listOf?] at h
    split at h
    · next ho hos =>
      cases h
      exact .cons ho (ih hos)
    · cases h

theorem forall₂_of_tableOf? {k : Kind} {es : Value.Entries Loaded} {t : List (Text × Object)}
    (h : tableOf? k es = some t) :
    List.Forall₂ (fun e f => ∃ k' ∈ (Shape.table k).kinds, ofValue? k' e.2 = some f.2) es t := by
  induction es generalizing t with
  | nil =>
    rw [tableOf?] at h
    cases h
    exact .nil
  | cons e rest ih =>
    obtain ⟨key, x⟩ := e
    rw [tableOf?] at h
    split at h
    · next ho hos =>
      cases h
      exact .cons ⟨k, List.mem_singleton_self k, ho⟩ (ih hos)
    · cases h

theorem forall₂_of_schemasOf? {es : Value.Entries Loaded} {t : List (Text × Object)}
    (h : schemasOf? es = some t) :
    List.Forall₂ (fun e f => ∃ k' ∈ Shape.schemas.kinds, ofValue? k' e.2 = some f.2) es t := by
  induction es generalizing t with
  | nil =>
    rw [schemasOf?] at h
    cases h
    exact .nil
  | cons e rest ih =>
    obtain ⟨key, x⟩ := e
    rw [schemasOf?] at h
    split at h
    · next ho hos =>
      cases h
      exact .cons (exists_kind_of_choose? ho) (ih hos)
    · cases h

/-- A member is null where it may be, and else what its shape says. -/
theorem slotOf?_cases {s : MemberSpec} {v : Loaded} {c : Slot} (h : slotOf? s v = some c) :
    (v.plain = .null ∧ c = .null ∧ s.presence = .optional) ∨
      (v.plain ≠ .null ∧ Reads s.shape v c) := by
  rw [slotOf?.eq_def] at h
  split at h
  · split at h
    · next hoptional =>
      cases h
      exact Or.inl ⟨‹_›, rfl, hoptional⟩
    · cases h
  -- The cases are the shapes of a member, in the order in which they are read.
  next hv =>
  refine Or.inr ⟨hv, ?_⟩
  split at h
  case h_1 hs =>
    obtain ⟨t, ht, rfl⟩ := Option.map_eq_some_iff.1 h
    exact hs ▸ .text ht
  case h_2 hs =>
    obtain ⟨b, hb, rfl⟩ := Option.map_eq_some_iff.1 h
    exact hs ▸ .flag (Or.inl rfl) hb
  case h_3 hs =>
    cases h
    exact hs ▸ .data hv
  case h_4 hs =>
    obtain ⟨ts, hts, rfl⟩ := Option.map_eq_some_iff.1 h
    obtain ⟨xs, hxs, hts⟩ := Option.bind_eq_some_iff.1 hts
    exact hs ▸ .texts hxs hts
  case h_5 hs =>
    obtain ⟨xs, hxs, rfl⟩ := Option.map_eq_some_iff.1 h
    exact hs ▸ .dataList hxs
  case h_6 hs =>
    split at h
    · obtain ⟨t, ht, rfl⟩ := Option.map_eq_some_iff.1 h
      exact hs ▸ .dataTable ht
    · cases h
  case h_7 hs =>
    obtain ⟨o, ho, rfl⟩ := Option.map_eq_some_iff.1 h
    obtain ⟨k, hk, ho⟩ := exists_kind_of_choose? ho
    exact hs ▸ .object (Or.inr ⟨Or.inl rfl, hk⟩) ho
  case h_8 hs =>
    split at h
    · next ho =>
      cases h
      obtain ⟨k, hk, ho⟩ := exists_kind_of_choose? ho
      exact hs ▸ .object (Or.inr ⟨Or.inr rfl, hk⟩) ho
    · obtain ⟨b, hb, rfl⟩ := Option.map_eq_some_iff.1 h
      exact hs ▸ .flag (Or.inr rfl) hb
  case h_9 k hs =>
    obtain ⟨o, ho, rfl⟩ := Option.map_eq_some_iff.1 h
    exact hs ▸ .object (Or.inl rfl) ho
  case h_10 hs =>
    split at h
    · obtain ⟨t, ht, rfl⟩ := Option.map_eq_some_iff.1 h
      exact hs ▸ .table (Or.inl rfl) (forall₂_of_schemasOf? ht)
    · cases h
  case h_11 k hs =>
    split at h
    · obtain ⟨t, ht, rfl⟩ := Option.map_eq_some_iff.1 h
      exact hs ▸ .table (Or.inr ⟨k, rfl⟩) (forall₂_of_tableOf? ht)
    · cases h
  case h_12 k hs =>
    split at h
    · obtain ⟨os, hos, rfl⟩ := Option.map_eq_some_iff.1 h
      exact hs ▸ .objects (Or.inl rfl) (forall₂_of_listOf? hos)
    · obtain ⟨os, hos, rfl⟩ := Option.map_eq_some_iff.1 h
      exact hs ▸ .objects (Or.inr rfl) (forall₂_of_listOf? hos)
    · cases h

/-! ## Objects that are read -/

theorem ofValue?_cases {k : Kind} {v : Loaded} {o : Object} (h : ofValue? k v = some o) :
    ∃ m es ms, v = .map m es ∧ membersOf? es k.members = some ms ∧
      o = .mk k ms (extrasOf k es) := by
  rw [ofValue?.eq_def] at h
  split at h
  · split at h
    · obtain ⟨ms, hms, rfl⟩ := Option.map_eq_some_iff.1 h
      exact ⟨_, _, ms, rfl, hms, rfl⟩
    · cases h
  · cases h

theorem ofValue?_map {k : Kind} {m : Option Mark} {es : Value.Entries Loaded}
    {ms : List (Member × Slot)} (hkeys : textKeys es = true)
    (h : membersOf? es k.members = some ms) :
    ofValue? k (.map m es) = some (.mk k ms (extrasOf k es)) := by
  rw [ofValue?, if_pos hkeys, h]
  rfl

theorem kind_of_ofValue? {k : Kind} {v : Loaded} {o : Object} (h : ofValue? k v = some o) :
    o.kind = k := by
  obtain ⟨_, es, ms, -, -, rfl⟩ := ofValue?_cases h
  rfl

section Members

variable {es : Value.Entries Loaded} {specs : List MemberSpec} {ms : List (Member × Slot)}

/-- A member is passed over, which only one that need not be given can be, or read. -/
theorem membersOf?_cons_iff {s : MemberSpec} : membersOf? es (s :: specs) = some ms ↔
    (es.get? (.text (keyOf es s.member)) = none ∧ s.presence ≠ .required ∧
      membersOf? es specs = some ms) ∨
    ∃ v c rest, es.get? (.text (keyOf es s.member)) = some v ∧ slotOf? s v = some c ∧
      membersOf? es specs = some rest ∧ ms = (s.member, c) :: rest := by
  rw [membersOf?.eq_def]
  dsimp only
  split
  · next hnone =>
    rw [hnone]
    split
    · next hrequired => simp [hrequired]
    · next hrequired => simp [hrequired]
  · next v hv =>
    rw [hv]
    split
    · next c rest hc hrest => simp [hc, hrest, eq_comm]
    · next hneither =>
      -- Reading fails where the member or one of the others cannot be read.
      constructor
      · rintro ⟨⟩
      · rintro (⟨hnone, -⟩ | ⟨v', c, rest, hv', hc, hrest, -⟩)
        · cases hnone
        · cases hv'
          exact (hneither c rest hc hrest).elim

@[simp] theorem membersOf?_nil : membersOf? es [] = some [] := by
  rw [membersOf?]

/-- The members that are read are those that are given, in order. -/
theorem sublist_of_membersOf? (h : membersOf? es specs = some ms) :
    (ms.map Prod.fst).Sublist (specs.map (·.member)) := by
  induction specs generalizing ms with
  | nil =>
    rw [membersOf?_nil] at h
    cases h
    exact .slnil
  | cons s rest ih =>
    obtain ⟨-, -, hrest⟩ | ⟨v, c, ms', -, -, hrest, rfl⟩ := membersOf?_cons_iff.1 h
    · exact (ih hrest).cons _
    · exact (ih hrest).cons_cons _

theorem mem_of_membersOf? (h : membersOf? es specs = some ms) {e : Member × Slot} (he : e ∈ ms) :
    ∃ s ∈ specs, s.member = e.1 ∧
      ∃ v, es.get? (.text (keyOf es s.member)) = some v ∧ slotOf? s v = some e.2 := by
  induction specs generalizing ms with
  | nil =>
    rw [membersOf?_nil] at h
    cases h
    cases he
  | cons s rest ih =>
    have htail : ∀ {ms'}, membersOf? es rest = some ms' → e ∈ ms' → ∃ s' ∈ s :: rest,
        s'.member = e.1 ∧
          ∃ v, es.get? (.text (keyOf es s'.member)) = some v ∧ slotOf? s' v = some e.2 := by
      intro ms' hms' he'
      obtain ⟨s', hs', hread⟩ := ih hms' he'
      exact ⟨s', List.mem_cons_of_mem _ hs', hread⟩
    obtain ⟨-, -, hrest⟩ | ⟨v, c, ms', hv, hc, hrest, rfl⟩ := membersOf?_cons_iff.1 h
    · exact htail hrest he
    · rcases List.mem_cons.1 he with rfl | he
      · exact ⟨s, List.mem_cons_self, rfl, v, hv, hc⟩
      · exact htail hrest he

/-- A member whose key is given is read, and one that has to be given is. -/
theorem exists_mem_of_membersOf? (h : membersOf? es specs = some ms) {s : MemberSpec}
    (hs : s ∈ specs) (hgiven : (es.get? (.text (keyOf es s.member))).isSome = true ∨
      s.presence = .required) :
    ∃ v c, es.get? (.text (keyOf es s.member)) = some v ∧ slotOf? s v = some c ∧
      (s.member, c) ∈ ms := by
  induction specs generalizing ms with
  | nil => cases hs
  | cons s' rest ih =>
    obtain ⟨hnone, hpresence, hrest⟩ | ⟨v, c, ms', hv, hc, hrest, rfl⟩ := membersOf?_cons_iff.1 h
    · rcases List.mem_cons.1 hs with rfl | hs
      · rcases hgiven with hsome | hrequired
        · rw [hnone] at hsome
          cases hsome
        · exact absurd hrequired hpresence
      · exact ih hrest hs
    · rcases List.mem_cons.1 hs with rfl | hs
      · exact ⟨v, c, hv, hc, List.mem_cons_self⟩
      · obtain ⟨v', c', hv', hc', hmem⟩ := ih hrest hs
        exact ⟨v', c', hv', hc', List.mem_cons_of_mem _ hmem⟩

/-- Members that are not given are passed over. -/
theorem membersOf?_filter (h : ∀ s ∈ specs,
      (es.get? (.text (keyOf es s.member))).isSome = true ∨ s.presence ≠ .required)
    (hgiven : membersOf? es
      (specs.filter fun s => (es.get? (.text (keyOf es s.member))).isSome) = some ms) :
    membersOf? es specs = some ms := by
  induction specs generalizing ms with
  | nil => exact hgiven
  | cons s rest ih =>
    obtain ⟨hs, hrest⟩ := List.forall_mem_cons.1 h
    rw [List.filter_cons] at hgiven
    split at hgiven
    · next hsome =>
      obtain ⟨hnone, -⟩ | ⟨v, c, ms', hv, hc, hms', rfl⟩ := membersOf?_cons_iff.1 hgiven
      · rw [hnone] at hsome
        cases hsome
      · exact membersOf?_cons_iff.2 (Or.inr ⟨v, c, ms', hv, hc, ih hrest hms', rfl⟩)
    · next hnone =>
      -- The filter has dropped the member, which is therefore not a required one.
      rw [Option.not_isSome_iff_eq_none] at hnone
      exact membersOf?_cons_iff.2
        (Or.inl ⟨hnone, hs.resolve_left (by simp [hnone]), ih hrest hgiven⟩)

end Members

theorem nodup_members (k : Kind) : (k.members.map (·.member)).Nodup := by
  cases k <;> decide +kernel

/-! ## Unknown keys -/

theorem mem_extrasOf {k : Kind} {es : Value.Entries Loaded} {e : Text × Loaded} :
    e ∈ extrasOf k es ↔ (.text e.1, e.2) ∈ es ∧ ∀ s ∈ k.members, keyOf es s.member ≠ e.1 := by
  unfold extrasOf
  simp only [List.mem_filterMap, List.mem_map]
  constructor
  · rintro ⟨⟨key, v⟩, hmem, hread⟩
    split at hread
    · next t hkey =>
      split at hread
      · cases hread
      · next hnone =>
        cases hread
        obtain rfl : key = .text t := hkey
        exact ⟨hmem, fun s hs heq => hnone ⟨s, hs, heq⟩⟩
    · cases hread
  · rintro ⟨hmem, hnone⟩
    refine ⟨_, hmem, ?_⟩
    dsimp only
    rw [if_neg]
    rintro ⟨s, hs, heq⟩
    exact hnone s hs heq

theorem nodup_keys_extrasOf {es : Value.Entries Loaded} (h : es.Proper) (k : Kind) :
    (Table.keys (extrasOf k es)).Nodup := by
  unfold Table.keys extrasOf
  rw [List.Nodup, List.pairwise_map, List.pairwise_filterMap]
  refine (List.pairwise_map.1 h.apart).imp fun {e f} hef a ha b hb hab => ?_
  -- Both keys are texts, and unknown ones keep them.
  split at ha
  · next t ht =>
    split at hb
    · next u hu =>
      split at ha
      · cases ha
      split at hb
      · cases hb
      cases ha
      cases hb
      have hkeys : t = u := hab
      rw [ht, hu, hkeys, Value.sameKey_text.2 rfl] at hef
      cases hef
    · cases hb
  · cases ha

/-! ## Reading sound objects -/

theorem mem_of_mem_insertAll_nil {α : Type} {t : Table α} {e : Text × α}
    (h : e ∈ Table.insertAll [] t) : e ∈ t :=
  (Table.mem_insertAll h).resolve_right (fun h => nomatch h)

theorem nodup_keys_insertAll_nil {α : Type} (t : Table α) :
    (Table.keys (Table.insertAll [] t)).Nodup := by
  refine Table.nodup_keys_insertAll ?_ t
  exact List.nodup_nil

/-- What is read for a member is something that the member may hold. -/
theorem Reads.admits {s : Shape} {v : Loaded} {c : Slot} (h : Reads s v c) (hv : v.Keyed) :
    Admits s c := by
  cases h with
  | text _ | texts _ _ | dataList _ => trivial
  | flag hs _ => rcases hs with rfl | rfl <;> trivial
  | data hne => exact ⟨hne, hv⟩
  | dataTable _ => exact nodup_keys_insertAll_nil _
  | object hs ho =>
    obtain rfl := kind_of_ofValue? ho
    rcases hs with rfl | ⟨rfl | rfl, hk⟩
    · rfl
    · exact hk
    · exact hk
  | objects _ hos =>
    intro o ho
    obtain ⟨x, -, hx⟩ := exists_of_forall₂_right hos ho
    exact kind_of_ofValue? hx
  | @table _ _ _ t hs ht =>
    -- Inserting one after the other drops entries whose keys come again, and adds none.
    have hkinds : ∀ e ∈ Table.insertAll [] t, e.2.kind ∈ s.kinds := by
      intro e he
      obtain ⟨x, -, k, hk, hx⟩ := exists_of_forall₂_right ht (mem_of_mem_insertAll_nil he)
      exact kind_of_ofValue? hx ▸ hk
    rcases hs with rfl | ⟨k, rfl⟩
    · exact ⟨nodup_keys_insertAll_nil _, hkinds⟩
    · exact ⟨nodup_keys_insertAll_nil _, fun e he => List.mem_singleton.1 (hkinds e he)⟩

theorem fits_of_slotOf? {s : MemberSpec} {v : Loaded} {c : Slot} (h : slotOf? s v = some c)
    (hv : v.Keyed) : Fits s c := by
  rcases slotOf?_cases h with ⟨-, hnull, hoptional⟩ | ⟨-, hreads⟩
  · exact Or.inl ⟨hnull, hoptional⟩
  · exact Or.inr (hreads.admits hv)

theorem sound_of_members {k : Kind} {m : Option Mark} {es : Value.Entries Loaded}
    (hes : (Loaded.map m es).Keyed)
    (ih : ∀ e ∈ es, ∀ s c, slotOf? s e.2 = some c → ∀ o ∈ c.held, Sound o)
    {ms : List (Member × Slot)} (hms : membersOf? es k.members = some ms) :
    Sound (.mk k ms (extrasOf k es)) := by
  refine .mk ((sublist_of_membersOf? hms).nodup (nodup_members k)) ?_ ?_
    (nodup_keys_extrasOf hes.proper k) ?_
  · intro e he
    obtain ⟨s, hs, hmember, v, hv, hc⟩ := mem_of_membersOf? hms he
    exact ⟨s, hs, hmember, fits_of_slotOf? hc (hes.of_get? hv)⟩
  · intro e he o ho
    obtain ⟨s, hs, -, v, hv, hc⟩ := mem_of_membersOf? hms he
    exact ih _ (Value.Entries.mem_of_get? hv) s e.2 hc o ho
  · intro e he
    exact hes.of_mem (mem_extrasOf.1 he).1

/-- The objects of a member are read from its data, or from what the data holds. -/
theorem Reads.of_held {s : Shape} {v : Loaded} {c : Slot} (h : Reads s v c) {o : Object}
    (ho : o ∈ c.held) : ∃ k w, (w = v ∨ w ∈ v.parts) ∧ ofValue? k w = some o := by
  cases h with
  | text _ | flag _ _ | data _ | texts _ _ | dataList _ | dataTable _ => cases ho
  | @object _ _ k x _ hx =>
    rw [Content.held, List.mem_singleton] at ho
    exact ⟨k, v, Or.inl rfl, ho ▸ hx⟩
  | @objects k _ _ _ hv hos =>
    obtain ⟨x, hx, hox⟩ := exists_of_forall₂_right hos ho
    refine ⟨k, x, Or.inr ?_, hox⟩
    rcases hv with rfl | rfl <;> exact hx
  | table _ ht =>
    obtain ⟨e, he, rfl⟩ := List.mem_map.1 ho
    obtain ⟨x, hx, k, -, hox⟩ := exists_of_forall₂_right ht (mem_of_mem_insertAll_nil he)
    exact ⟨k, x.2, Or.inr (List.mem_map_of_mem hx), hox⟩

/-- What is read from data in which no mapping gives a key twice is sound. -/
theorem sound_ofValue? {v : Loaded} (hv : v.Keyed) :
    ∀ k o, ofValue? k v = some o → Sound o := by
  -- The members of an object are read from the values of a mapping, or from what these hold.
  suffices h : (∀ k o, ofValue? k v = some o → Sound o) ∧
      ∀ w ∈ v.parts, ∀ k o, ofValue? k w = some o → Sound o from h.1
  refine hv.inductionOn fun v hv ih => ?_
  refine ⟨fun k o ho => ?_, fun w hw => (ih w hw).1⟩
  obtain ⟨m, es, ms, rfl, hms, rfl⟩ := ofValue?_cases ho
  refine sound_of_members hv (fun e he s c hc x hx => ?_) hms
  have he : e.2 ∈ (Loaded.map m es).parts := List.mem_map_of_mem he
  rcases slotOf?_cases hc with ⟨-, rfl, -⟩ | ⟨-, hreads⟩
  · cases hx
  · obtain ⟨k', w, rfl | hw, hxw⟩ := hreads.of_held hx
    · exact (ih _ he).1 k' x hxw
    · exact (ih _ he).2 w hw k' x hxw

/-! ## Members of sound objects -/

theorem sound_empty (k : Kind) : Sound (.empty k) :=
  .mk List.nodup_nil (by simp) (by simp) List.nodup_nil (by simp)

/-- A member that has not been given holds something that it may hold. -/
theorem fits_default {k : Kind} {s : MemberSpec} (hs : s ∈ k.members) : Fits s s.default := by
  -- Flags, data and schemas have no value of their own, and are always optional.
  have hshape : s.presence ≠ .optional → s.shape ≠ .flag ∧ s.shape ≠ .data ∧ s.shape ≠ .schema ∧
      s.shape ≠ .schemaOrFlag := by
    revert s
    cases k <;> decide +kernel
  obtain ⟨m, shape, presence⟩ := s
  cases presence with
  | optional => exact Or.inl ⟨rfl, rfl⟩
  | defaulted | required =>
    obtain ⟨hflag, hdata, hschema, hor⟩ := hshape (by simp)
    refine Or.inr ?_
    cases shape with
    | flag => exact absurd rfl hflag
    | data => exact absurd rfl hdata
    | schema => exact absurd rfl hschema
    | schemaOrFlag => exact absurd rfl hor
    | text | texts | dataList => trivial
    | dataTable => exact List.nodup_nil
    | object k => rfl
    | objects k => exact fun o ho => nomatch ho
    | schemas | table k => exact ⟨List.nodup_nil, fun e he => nomatch he⟩

theorem sound_of_mem_default (s : MemberSpec) {o : Object} (ho : o ∈ s.default.held) : Sound o := by
  obtain ⟨m, shape, presence⟩ := s
  have hempty : ∀ k, o ∈ (Content.object (empty k)).held → Sound o := by
    intro k h
    rw [List.mem_singleton.1 h]
    exact sound_empty k
  cases presence with
  | optional => cases ho
  | defaulted | required =>
    cases shape with
    | object k => exact hempty k ho
    | _ => cases ho

theorem eq_of_member_eq {k : Kind} {s t : MemberSpec} (hs : s ∈ k.members) (ht : t ∈ k.members)
    (h : s.member = t.member) : s = t :=
  List.inj_on_of_nodup_map (nodup_members k) hs ht h

theorem default_eq {k : Kind} {s : MemberSpec} (hs : s ∈ k.members) :
    k.default s.member = s.default := by
  unfold Kind.default Kind.spec?
  cases hfind : k.members.find? (·.member = s.member) with
  | none => simpa using List.find?_eq_none.1 hfind s hs
  | some t =>
    have hmember : t.member = s.member := by simpa using List.find?_some hfind
    rw [eq_of_member_eq (List.mem_of_find?_eq_some hfind) hs hmember]
    rfl

/-- What has been given to a member of a sound object is something that the member may hold. -/
theorem Sound.fits_given? {o : Object} (h : Sound o) {s : MemberSpec} (hs : s ∈ o.kind.members)
    {c : Slot} (hc : o.given? s.member = some c) : Fits s c := by
  obtain ⟨-, hfits, -, -, -⟩ := h
  obtain ⟨e, he, rfl⟩ := Option.map_eq_some_iff.1 hc
  obtain ⟨t, ht, hmember, hfit⟩ := hfits e (List.mem_of_find?_eq_some he)
  have hkey : e.1 = s.member := by simpa using List.find?_some he
  rwa [eq_of_member_eq hs ht (hkey.symm.trans hmember.symm)]

theorem Sound.fits_get {o : Object} (h : Sound o) {s : MemberSpec} (hs : s ∈ o.kind.members) :
    Fits s (o.get s.member) := by
  unfold Object.get
  cases hc : o.given? s.member with
  | some c => exact h.fits_given? hs hc
  | none => exact default_eq hs ▸ fits_default hs

theorem Sound.held_get {o : Object} (h : Sound o) {m : Member} {x : Object}
    (hx : x ∈ (o.get m).held) : Sound x := by
  unfold Object.get at hx
  cases hc : o.given? m with
  | some c =>
    rw [hc] at hx
    obtain ⟨-, -, hheld, -, -⟩ := h
    obtain ⟨e, he, rfl⟩ := mem_of_given? hc
    exact hheld e he x hx
  | none =>
    rw [hc] at hx
    -- The default of a member is null, or made for its shape.
    change x ∈ (o.kind.default m).held at hx
    unfold Kind.default at hx
    cases hs : o.kind.spec? m with
    | none =>
      rw [hs] at hx
      cases hx
    | some s =>
      rw [hs] at hx
      exact sound_of_mem_default s hx

theorem Sound.nodup_members {o : Object} (h : Sound o) : (o.members.map Prod.fst).Nodup := by
  obtain ⟨hnodup, -, -, -, -⟩ := h
  exact hnodup

theorem Sound.nodup_extras {o : Object} (h : Sound o) : o.extras.keys.Nodup := by
  obtain ⟨-, -, -, hkeys, -⟩ := h
  exact hkeys

theorem Sound.keyed_extras {o : Object} (h : Sound o) {e : Text × Loaded} (he : e ∈ o.extras) :
    e.2.Keyed := by
  obtain ⟨-, -, -, -, hkeyed⟩ := h
  exact hkeyed e he

end Object

end IdlBridge.OpenApi
