import IdlBridge.Proofs.OpenApi.Operations
import IdlBridge.Proofs.OpenApi.Untyped

/-! # Laying objects over each other

    An object is seen through its attributes: its members, by the name that they have besides the
    key that they are written under, and the unknown keys.  `Merged dst src r` says attribute by
    attribute what `r` has when `src` is laid over `dst`.  What has not been given to `src` is as in
    `dst`; what has been given to it replaces the attribute of `dst`, unless both are objects of one
    kind, which are merged in turn, or both are mappings, of which the upper one has the last word
    on every key.

    As long as nothing is shared, laying an object over another one is such a merge (`merged_lay`),
    and doing so a second time changes nothing (`lay_settles`).
-/

namespace IdlBridge.OpenApi

/-! ## The merge of two objects -/

/-- The member that is the attribute of a name. -/
def Kind.attribute? (k : Kind) (name : Text) : Option Member :=
  (k.members.find? (·.member.otherKey = name)).map (·.member)

namespace Object

/-- What the attribute of a name is: a member has a default, an unknown key has not. -/
def attribute? (o : Object) (name : Text) : Option Slot :=
  match o.kind.attribute? name with
  | some m => some (o.get m)
  | none => (o.extras.get? name).map .data

/-- What the attribute of a name has been given. -/
def explicit? (o : Object) (name : Text) : Option Slot :=
  match o.kind.attribute? name with
  | some m => o.given? m
  | none => (o.extras.get? name).map .data

/-- The contents are objects of one kind. -/
def OfOneKind : Slot → Slot → Prop
  | .object l, .object u => l.kind = u.kind
  | _, _ => False

/-- The content is a mapping. -/
def IsMap : Slot → Prop
  | .data (.map _ _) | .dataTable _ | .table _ => True
  | _ => False

/-- What a mapping has for a key. -/
def valueAt? : Slot → Value → Option Slot
  | .data (.map _ es), key => (Value.Entries.get? es key).map .data
  | .dataTable t, .text key => (Table.get? t key).map .data
  | .table t, .text key => (Table.get? t key).map .object
  | _, _ => none

mutual

/-- The third object is the second one laid over the first one. -/
inductive Merged : Object → Object → Object → Prop where
  | mk {dst src r : Object} : r.kind = dst.kind →
      (∀ name, src.explicit? name = none → r.attribute? name = dst.attribute? name) →
      (∀ name c, src.explicit? name = some c →
        Laid (dst.attribute? name) c (r.attribute? name)) →
      Merged dst src r

/-- The third content is the second one laid over the first one. -/
inductive Laid : Option Slot → Slot → Option Slot → Prop where
  | objects {l u r : Object} : l.kind = u.kind → Merged l u r →
      Laid (some (.object l)) (.object u) (some (.object r))
  | maps {l u r : Slot} : IsMap l → IsMap u → IsMap r →
      (∀ key, valueAt? r key = (valueAt? u key).or (valueAt? l key)) → Laid (some l) u (some r)
  | replaced {l : Option Slot} {u : Slot} :
      (∀ x, l = some x → ¬ OfOneKind x u ∧ ¬ (IsMap x ∧ IsMap u)) → Laid l u (some u)

end

/-! ## Members -/

theorem given?_of_mem {ms : List (Member × Slot)} (h : (ms.map Prod.fst).Nodup)
    {e : Member × Slot} (he : e ∈ ms) : (ms.find? (·.1 = e.1)).map (·.2) = some e.2 := by
  cases hfind : ms.find? (·.1 = e.1) with
  | none => simpa using List.find?_eq_none.1 hfind e he
  | some e' =>
    have hkey : e'.1 = e.1 := by simpa using List.find?_some hfind
    rw [List.inj_on_of_nodup_map h (List.mem_of_find?_eq_some hfind) he hkey]
    rfl

@[simp] theorem kind_layMembers (lower : Object) (ms : List (Member × Slot)) :
    (lay.members lower ms).kind = lower.kind := by
  induction ms generalizing lower with
  | nil => rfl
  | cons e rest ih =>
    obtain ⟨m, c⟩ := e
    rw [lay.members, ih]
    rfl

@[simp] theorem extras_layMembers (lower : Object) (ms : List (Member × Slot)) :
    (lay.members lower ms).extras = lower.extras := by
  induction ms generalizing lower with
  | nil => rfl
  | cons e rest ih =>
    obtain ⟨m, c⟩ := e
    rw [lay.members, ih]
    rfl

/-- Every member that is given is laid over what the member held before. -/
theorem given?_layMembers {ms : List (Member × Slot)} (h : (ms.map Prod.fst).Nodup)
    (lower : Object) (m : Member) : (lay.members lower ms).given? m =
      (((ms.find? (·.1 = m)).map (·.2)).map (lay.slot (lower.get m))).or (lower.given? m) := by
  induction ms generalizing lower with
  | nil => rfl
  | cons e rest ih =>
    obtain ⟨m', c⟩ := e
    obtain ⟨hm', hrest⟩ := List.nodup_cons.1 h
    rw [lay.members, ih hrest, given?_set, get_set]
    by_cases hm : m' = m
    · subst hm
      have hnone : rest.find? (·.1 = m') = none :=
        List.find?_eq_none.2 fun e he hkey =>
          hm' (List.mem_map.2 ⟨e, he, by simpa using hkey⟩)
      simp [hnone]
    · simp [hm]

theorem lay_eq (lower : Object) (k : Kind) (ms : List (Member × Slot)) (es : Table Loaded) :
    lower.lay (.mk k ms es) =
      (lay.members lower ms).withExtras (layExtras lower.kind lower.extras es) := by
  rw [lay]
  simp

theorem withExtras_extras (o : Object) : o.withExtras o.extras = o := by
  cases o
  rfl

theorem given?_withExtras (o : Object) (es : Table Loaded) (m : Member) :
    (o.withExtras es).given? m = o.given? m := rfl

@[simp] theorem kind_lay (lower upper : Object) : (lower.lay upper).kind = lower.kind := by
  obtain ⟨k, ms, es⟩ := upper
  rw [lay_eq]
  exact kind_layMembers lower ms

theorem given?_lay {upper : Object} (h : (upper.members.map Prod.fst).Nodup) (lower : Object)
    (m : Member) : (lower.lay upper).given? m =
      ((upper.given? m).map (lay.slot (lower.get m))).or (lower.given? m) := by
  obtain ⟨k, ms, es⟩ := upper
  rw [lay_eq, given?_withExtras]
  exact given?_layMembers h lower m

theorem get_lay {upper : Object} (h : (upper.members.map Prod.fst).Nodup) (lower : Object)
    (m : Member) : (lower.lay upper).get m =
      ((upper.given? m).map (lay.slot (lower.get m))).getD (lower.get m) := by
  unfold get
  rw [given?_lay h, kind_lay]
  cases upper.given? m <;> rfl

theorem layExtras_cons (k : Kind) (lower : Table Loaded) (e : Text × Loaded) (rest : Table Loaded) :
    layExtras k lower (e :: rest) = layExtras k (layExtra k lower e) rest := rfl

theorem get?_layExtra (k : Kind) (lower : Table Loaded) (e : Text × Loaded) (key : Text) :
    (layExtra k lower e).get? key =
      if e.1 = key then (layExtra? k e.1 (lower.get? e.1) e.2).or (lower.get? key)
      else lower.get? key := by
  unfold layExtra
  cases layExtra? k e.1 (lower.get? e.1) e.2 with
  | none =>
    show lower.get? key = if e.1 = key then lower.get? key else lower.get? key
    rw [ite_self]
  | some w =>
    rw [Table.get?_insert]
    rfl

theorem get?_layExtras {k : Kind} {upper : Table Loaded} (h : upper.keys.Nodup)
    (lower : Table Loaded) (key : Text) : (layExtras k lower upper).get? key =
      ((upper.get? key).bind (layExtra? k key (lower.get? key))).or (lower.get? key) := by
  induction upper generalizing lower with
  | nil => rfl
  | cons e rest ih =>
    obtain ⟨key', v⟩ := e
    obtain ⟨hkey', hrest⟩ := List.nodup_cons.1 h
    rw [layExtras_cons, ih hrest, Table.get?_cons, get?_layExtra]
    by_cases heq : key' = key
    · subst heq
      -- The key comes once above, so the entries behind leave it alone.
      have hnone : Table.get? rest key' = none := Table.get?_eq_none_of_has
        (Bool.eq_false_iff.2 fun hhas => hkey' (Table.mem_keys.2 hhas : key' ∈ Table.keys rest))
      rw [hnone, if_pos rfl, if_pos rfl]
      rfl
    · rw [if_neg heq, if_neg heq]

theorem extras_lay (lower upper : Object) : (lower.lay upper).extras =
    layExtras lower.kind lower.extras upper.extras := by
  obtain ⟨k, ms, es⟩ := upper
  rw [lay_eq]
  rfl

/-- The unknown keys that count as names of members are those of an attribute. -/
theorem shadowsMember_iff {k : Kind} {name : Text} :
    shadowsMember k name = true ↔ (k.attribute? name).isSome = true := by
  unfold shadowsMember Kind.attribute?
  rw [Option.isSome_map, List.find?_isSome, List.any_eq_true]

/-- A key with no other meaning is an unknown key like any other. -/
theorem layExtra?_of_plain {k : Kind} {key : Text} (hshadow : shadowsMember k key = false)
    (hplain : k.reserves key = false) (l : Option Loaded) (v : Loaded) :
    layExtra? k key l v = some (layData l v) := by
  obtain ⟨hattribute, hhidden⟩ := Bool.or_eq_false_iff.1 hplain
  unfold layExtra? isLost
  rw [hshadow, hattribute, hhidden]
  rfl

/-- A key that is not found is left alone. -/
theorem layExtra?_of_isLost {k : Kind} {key : Text} (h : isLost k key = true) (l : Option Loaded)
    (v : Loaded) : layExtra? k key l v = none := by
  unfold layExtra?
  rw [h]
  rfl

theorem isLost_of_plain {k : Kind} {key : Text} (hshadow : shadowsMember k key = false)
    (hplain : k.reserves key = false) : isLost k key = false := by
  unfold isLost
  rw [hshadow, (Bool.or_eq_false_iff.1 hplain).1]
  rfl

/-! ## Data -/

theorem layData_self {v : Loaded} (h : v.Keyed) : layData (some v) v = v := by
  cases v with
  | map m es =>
    cases m with
    | none => exact congrArg (Loaded.map none) (Value.Entries.insertAll_self h.proper)
    | some m => rfl
  | _ => rfl

theorem layData_layData {v : Loaded} (h : v.Keyed) (l : Option Loaded) :
    layData (some (layData l v)) v = layData l v := by
  cases l with
  | none => exact layData_self h
  | some w =>
    cases w with
    | map m es =>
      cases v with
      | map n fs =>
        cases m with
        | none =>
          exact congrArg (Loaded.map none) (Value.Entries.insertAll_insertAll h.proper es)
        | some m => rfl
      | _ => cases m <;> rfl
    | _ => exact layData_self h

/-- An unknown key that changes has data laid over its own. -/
theorem eq_layData {k : Kind} {key : Text} {l : Option Loaded} {v w : Loaded}
    (h : layExtra? k key l v = some w) : w = layData l v := by
  unfold layExtra? at h
  split at h
  · cases h
  split at h
  · split at h
    · exact (Option.some.inj h).symm
    · cases h
  · exact (Option.some.inj h).symm

/-- Unknown keys that already have what they would get change nothing. -/
theorem layExtras_eq_self {k : Kind} {lower upper : Table Loaded}
    (h : ∀ e ∈ upper, ∀ w, layExtra? k e.1 (lower.get? e.1) e.2 = some w →
      lower.get? e.1 = some w) : layExtras k lower upper = lower := by
  induction upper with
  | nil => rfl
  | cons e rest ih =>
    obtain ⟨he, hrest⟩ := List.forall_mem_cons.1 h
    rw [layExtras_cons, layExtra]
    cases hw : layExtra? k e.1 (lower.get? e.1) e.2 with
    | none => exact ih hrest
    | some w =>
      dsimp only
      rw [Table.insert_of_get? (he w hw), ih hrest]

/-! ## The same object once more -/

theorem Fits.keyed {s : MemberSpec} {v : Loaded} (h : Fits s (.data v)) : v.Keyed := by
  obtain ⟨member, shape, presence⟩ := s
  rcases h with ⟨h, -⟩ | h
  · cases h
  · cases shape <;> first | exact h.2 | exact h.elim

theorem Fits.nodup_dataTable {s : MemberSpec} {t : Table Loaded} (h : Fits s (.dataTable t)) :
    t.keys.Nodup := by
  obtain ⟨member, shape, presence⟩ := s
  rcases h with ⟨h, -⟩ | h
  · cases h
  · cases shape <;> first | exact h | exact h.elim

theorem Fits.nodup_table {s : MemberSpec} {t : Table Object} (h : Fits s (.table t)) :
    t.keys.Nodup := by
  obtain ⟨member, shape, presence⟩ := s
  rcases h with ⟨h, -⟩ | h
  · cases h
  · cases shape <;> first | exact h.1 | exact h.elim

theorem slot_self {s : MemberSpec} {c : Slot} (hc : Fits s c)
    (ih : ∀ o ∈ c.held, o.lay o = o) : lay.slot c c = c := by
  cases c with
  | object o =>
    rw [lay.slot, if_pos rfl, ih o (List.mem_singleton_self o)]
  | data v => exact congrArg Content.data (layData_self hc.keyed)
  | dataTable t => exact congrArg Content.dataTable (Table.insertAll_self hc.nodup_dataTable)
  | table t => exact congrArg Content.table (Table.insertAll_self hc.nodup_table)
  | _ => rfl

theorem slot_slot {s : MemberSpec} {c : Slot} (hc : Fits s c)
    (ih : ∀ o ∈ c.held, o.lay o = o ∧ ∀ l : Object, (l.lay o).lay o = l.lay o)
    (l : Slot) : lay.slot (lay.slot l c) c = lay.slot l c := by
  -- where nothing of the lower content is kept, the upper one is laid over itself
  have hself : lay.slot l c = c → lay.slot (lay.slot l c) c = lay.slot l c :=
    fun h => by rw [h, slot_self hc fun o ho => (ih o ho).1]
  cases c with
  | object o =>
    cases l with
    | object x =>
      by_cases hkind : x.kind = o.kind
      · have hslot : lay.slot (.object x) (.object o) = .object (x.lay o) := by
          rw [lay.slot, if_pos hkind]
        rw [hslot, lay.slot, if_pos (by rw [kind_lay, hkind]),
          (ih o (List.mem_singleton_self o)).2]
      · exact hself (by rw [lay.slot, if_neg hkind])
    | _ => exact hself rfl
  | data v =>
    cases l with
    | data w => exact congrArg Content.data (layData_layData hc.keyed (some w))
    | _ => exact hself rfl
  | dataTable t =>
    cases l with
    | dataTable u =>
      exact congrArg Content.dataTable (Table.insertAll_insertAll hc.nodup_dataTable u)
    | _ => exact hself rfl
  | table t =>
    cases l with
    | table u => exact congrArg Content.table (Table.insertAll_insertAll hc.nodup_table u)
    | _ => exact hself rfl
  | _ => exact hself rfl

/-- Members that already hold what they would get change nothing. -/
theorem layMembers_eq_self {o : Object} {ms : List (Member × Slot)}
    (h : ∀ e ∈ ms, o.given? e.1 = some (lay.slot (o.get e.1) e.2)) : lay.members o ms = o := by
  induction ms with
  | nil => rfl
  | cons e rest ih =>
    obtain ⟨he, hrest⟩ := List.forall_mem_cons.1 h
    obtain ⟨m, c⟩ := e
    rw [lay.members, set_self he, ih hrest]

theorem lay_eq_self {o upper : Object}
    (hmembers : ∀ e ∈ upper.members, o.given? e.1 = some (lay.slot (o.get e.1) e.2))
    (hextras : ∀ e ∈ upper.extras, ∀ w, layExtra? o.kind e.1 (o.extras.get? e.1) e.2 = some w →
      o.extras.get? e.1 = some w) : o.lay upper = o := by
  obtain ⟨k, ms, es⟩ := upper
  have hms : lay.members o ms = o := layMembers_eq_self hmembers
  have hes : layExtras o.kind o.extras es = o.extras := layExtras_eq_self hextras
  rw [lay_eq, hms, hes]
  exact withExtras_extras o

theorem get_of_given? {o : Object} {m : Member} {c : Slot} (h : o.given? m = some c) :
    o.get m = c := by
  rw [get, h]
  rfl

/-- A sound object that is laid over itself changes nothing, and neither does one that is laid over
    an object for the second time. -/
theorem lay_settles {src : Object} (h : Sound src) : src.lay src = src ∧
    ∀ dst : Object, (dst.lay src).lay src = dst.lay src := by
  induction h with
  | @mk k ms es hnodup hfits _ hkeys hkeyed ih =>
    refine ⟨lay_eq_self (fun e he => ?_) fun e he w hw => ?_, fun dst =>
      lay_eq_self (fun e he => ?_) fun e he w hw => ?_⟩
    · obtain ⟨s, -, -, hs⟩ := hfits e he
      have hgiven : (Object.mk k ms es).given? e.1 = some e.2 := given?_of_mem hnodup he
      rw [get_of_given? hgiven, hgiven, slot_self hs fun o ho => (ih e he o ho).1]
    · have hget : (Object.mk k ms es).extras.get? e.1 = some e.2 := Table.get?_of_mem hkeys he
      rw [hget] at hw ⊢
      rw [eq_layData hw, layData_self (hkeyed e he)]
    · obtain ⟨s, -, -, hs⟩ := hfits e he
      -- What is there after the first time has already taken everything from the source.
      have hgiven : (dst.lay (.mk k ms es)).given? e.1 = some (lay.slot (dst.get e.1) e.2) := by
        have hmembers : ((Object.mk k ms es).members.map Prod.fst).Nodup := hnodup
        rw [given?_lay hmembers,
          show (Object.mk k ms es).given? e.1 = some e.2 from given?_of_mem hnodup he]
        rfl
      rw [get_of_given? hgiven, hgiven, slot_slot hs (ih e he)]
    · have hget : (dst.lay (.mk k ms es)).extras.get? e.1 =
          (layExtra? dst.kind e.1 (dst.extras.get? e.1) e.2).or (dst.extras.get? e.1) := by
        have hupper : (Object.mk k ms es).extras.get? e.1 = some e.2 := Table.get?_of_mem hkeys he
        have hnodup : (Object.mk k ms es).extras.keys.Nodup := hkeys
        rw [extras_lay, get?_layExtras hnodup, hupper]
        rfl
      rw [kind_lay, hget] at hw
      rw [hget]
      cases hfirst : layExtra? dst.kind e.1 (dst.extras.get? e.1) e.2 with
      | none =>
        -- a key that is left alone the first time is left alone again
        rw [hfirst, Option.none_or, hfirst] at hw
        cases hw
      | some w' =>
        rw [hfirst, Option.some_or] at hw
        rw [Option.some_or, eq_layData hw, eq_layData hfirst, layData_layData (hkeyed e he)]

/-! ## Sound overlays -/

theorem nodup_insertMember {ms : List (Member × Slot)} (h : (ms.map Prod.fst).Nodup) (m : Member)
    (c : Slot) : ((insertMember ms m c).map Prod.fst).Nodup := by
  have hmem : ∀ ms : List (Member × Slot), ∀ n ∈ (insertMember ms m c).map Prod.fst,
      n = m ∨ n ∈ ms.map Prod.fst := by
    intro ms
    induction ms with
    | nil => exact fun n hn => Or.inl (List.mem_singleton.1 hn)
    | cons e rest ih =>
      obtain ⟨n', d⟩ := e
      intro n hn
      rw [insertMember] at hn
      split at hn
      · exact Or.inr hn
      · rcases List.mem_cons.1 hn with rfl | hn
        · exact Or.inr List.mem_cons_self
        · exact (ih n hn).imp_right (List.mem_cons_of_mem _)
  induction ms with
  | nil => exact List.nodup_singleton m
  | cons e rest ih =>
    obtain ⟨n, d⟩ := e
    obtain ⟨hn, hrest⟩ := List.nodup_cons.1 h
    rw [insertMember]
    split
    · exact h
    · next hne =>
      refine List.nodup_cons.2 ⟨fun hmem' => ?_, ih hrest⟩
      exact (hmem rest n hmem').elim hne hn

theorem nodup_members_lay {l : Object} (h : (l.members.map Prod.fst).Nodup) (upper : Object) :
    ((l.lay upper).members.map Prod.fst).Nodup := by
  obtain ⟨k, ms, es⟩ := upper
  rw [lay_eq]
  show ((lay.members l ms).members.map Prod.fst).Nodup
  induction ms generalizing l with
  | nil => exact h
  | cons e rest ih =>
    obtain ⟨m, c⟩ := e
    exact ih (nodup_insertMember h m _)

theorem nodup_extras_lay {l : Object} (h : l.extras.keys.Nodup) (upper : Object) :
    (l.lay upper).extras.keys.Nodup := by
  rw [extras_lay]
  generalize upper.extras = es
  generalize l.extras = lower at h
  induction es generalizing lower with
  | nil => exact h
  | cons e rest ih =>
    rw [layExtras_cons]
    refine ih _ ?_
    unfold layExtra
    split
    · exact Table.nodup_keys_insert h _ _
    · exact h

theorem keyed_layData {l : Option Loaded} {v : Loaded} (hl : ∀ x, l = some x → x.Keyed)
    (hv : v.Keyed) : (layData l v).Keyed := by
  unfold layData
  split
  · exact (hl _ rfl).insertAll hv
  · exact hl _ rfl
  · exact hv

theorem layData_ne_null {l : Option Loaded} {v : Loaded} (hv : v.plain ≠ .null) :
    (layData l v).plain ≠ .null := by
  unfold layData
  split
  · simp
  · simp
  · exact hv

theorem Fits.admits {s : MemberSpec} {c : Slot} (h : Fits s c) (hc : c ≠ .null) :
    Admits s.shape c :=
  h.resolve_left fun hnull => hc hnull.1

/-- What is laid over a content that the member may hold is such a content again. -/
theorem Fits.lay {s : MemberSpec} {z c : Slot} (hz : Fits s z) (hc : Fits s c) :
    Fits s (lay.slot z c) := by
  cases c with
  | object o =>
    cases z with
    | object x =>
      rw [lay.slot]
      split
      · next hkind =>
        refine Or.inr ?_
        have hadmits := hz.admits (by simp)
        generalize s.shape = shape at hadmits
        cases shape <;> simp only [Admits, kind_lay] at hadmits ⊢ <;> exact hadmits
      · exact hc
    | _ => exact hc
  | data v =>
    cases z with
    | data x =>
      have hzadmits := hz.admits (by simp)
      have hcadmits := hc.admits (by simp)
      refine Or.inr ?_
      generalize s.shape = shape at hzadmits hcadmits
      cases shape <;> first | exact hcadmits.elim | skip
      exact ⟨layData_ne_null hcadmits.1,
        keyed_layData (fun y hy => Option.some.inj hy ▸ hzadmits.2) hcadmits.2⟩
    | _ => exact hc
  | dataTable u =>
    cases z with
    | dataTable t =>
      have hzadmits := hz.admits (by simp)
      have hcadmits := hc.admits (by simp)
      refine Or.inr ?_
      generalize s.shape = shape at hzadmits hcadmits
      cases shape <;> first | exact hcadmits.elim | skip
      exact Table.nodup_keys_insertAll hzadmits u
    | _ => exact hc
  | table u =>
    cases z with
    | table t =>
      have hzadmits := hz.admits (by simp)
      have hcadmits := hc.admits (by simp)
      refine Or.inr ?_
      generalize s.shape = shape at hzadmits hcadmits
      cases shape <;> first | exact hcadmits.elim | skip
      all_goals
        refine ⟨Table.nodup_keys_insertAll hzadmits.1 u, fun e he => ?_⟩
        rcases Table.mem_insertAll he with he | he
        · exact hcadmits.2 e he
        · exact hzadmits.2 e he
    | _ => exact hc
  | _ => exact hc

/-- The objects in a content that is laid over another one are sound if the objects in both are. -/
theorem sound_held_slot {z c : Slot} (hz : ∀ x ∈ z.held, Sound x) (hc : ∀ o ∈ c.held, Sound o)
    (ih : ∀ o ∈ c.held, ∀ x ∈ z.held, x.kind = o.kind → Sound (x.lay o)) :
    ∀ o ∈ (lay.slot z c).held, Sound o := by
  cases c with
  | object u =>
    cases z with
    | object x =>
      rw [lay.slot]
      split
      · next hkind =>
        exact List.forall_mem_singleton.2
          (ih u (List.mem_singleton_self u) x (List.mem_singleton_self x) hkind)
      · exact hc
    | _ => exact hc
  | table u =>
    cases z with
    | table t =>
      intro o ho
      obtain ⟨e, he, rfl⟩ := List.mem_map.1 ho
      rcases Table.mem_insertAll he with he | he
      · exact hc e.2 (List.mem_map_of_mem he)
      · exact hz e.2 (List.mem_map_of_mem he)
    | _ => exact hc
  | data v =>
    cases z <;> exact fun _ h => nomatch h
  | dataTable u =>
    cases z <;> exact fun _ h => nomatch h
  | _ => exact hc

/-- A member of a sound object over which another one is laid holds what it has held before, or what
    is laid over that. -/
theorem mem_members_lay {l u : Object} (hu : Sound u) (hl : Sound l) {e : Member × Slot}
    (he : e ∈ (l.lay u).members) :
    (∃ f ∈ u.members, f.1 = e.1 ∧ e.2 = lay.slot (l.get e.1) f.2) ∨ e ∈ l.members := by
  have hgiven : (l.lay u).given? e.1 = some e.2 :=
    given?_of_mem (nodup_members_lay hl.nodup_members u) he
  rw [given?_lay hu.nodup_members] at hgiven
  cases hc : u.given? e.1 with
  | some c =>
    rw [hc] at hgiven
    obtain ⟨f, hf, rfl⟩ := Option.map_eq_some_iff.1 hc
    exact Or.inl ⟨f, List.mem_of_find?_eq_some hf, by simpa using List.find?_some hf,
      (Option.some.inj hgiven).symm⟩
  | none =>
    rw [hc] at hgiven
    obtain ⟨f, hf, hvalue⟩ := Option.map_eq_some_iff.1 hgiven
    have hkey : f.1 = e.1 := by simpa using List.find?_some hf
    exact Or.inr (Prod.ext hkey hvalue ▸ List.mem_of_find?_eq_some hf)

/-- The data of an unknown key is what it was before, or what is laid over that. -/
theorem keyed_extras_lay {l u : Object} (hu : Sound u) (hl : Sound l) {e : Text × Loaded}
    (he : e ∈ (l.lay u).extras) : e.2.Keyed := by
  have hget := Table.get?_of_mem (nodup_extras_lay hl.nodup_extras u) he
  rw [extras_lay, get?_layExtras hu.nodup_extras] at hget
  have hlower : ∀ x, l.extras.get? e.1 = some x → x.Keyed := fun x hx =>
    hl.keyed_extras (Table.mem_of_get? hx)
  rcases Option.or_eq_some_iff.1 hget with hw | ⟨-, hx⟩
  · obtain ⟨v, hv, hw⟩ := Option.bind_eq_some_iff.1 hw
    rw [eq_layData hw]
    exact keyed_layData hlower (hu.keyed_extras (Table.mem_of_get? hv))
  · exact hlower _ hx

/-- What is laid over a sound object of its kind leaves it sound. -/
theorem Sound.lay {u : Object} (hu : Sound u) :
    ∀ {l : Object}, Sound l → l.kind = u.kind → Sound (l.lay u) := by
  induction hu with
  | @mk k ms es hms hfits hheld hkeys hvalues ih =>
    intro l hl hkind
    have hu : Sound (.mk k ms es) := .mk hms hfits hheld hkeys hvalues
    have hnodup := nodup_members_lay hl.nodup_members (.mk k ms es)
    have hparts : ∀ r : Object, r.kind = l.kind → (r.members.map Prod.fst).Nodup →
        (∀ e ∈ r.members, (∃ f ∈ ms, f.1 = e.1 ∧ e.2 = lay.slot (l.get e.1) f.2) ∨ e ∈ l.members) →
        r.extras.keys.Nodup → (∀ e ∈ r.extras, e.2.Keyed) → Sound r := by
      rintro ⟨k', ms', es'⟩ hk hnodup hmember hkeys hextra
      obtain rfl : k' = l.kind := hk
      refine .mk hnodup (fun e he => ?_) (fun e he => ?_) hkeys hextra
      · rcases hmember e he with ⟨f, hf, hkey, hvalue⟩ | he
        · obtain ⟨s, hs, hm, hfit⟩ := hfits f hf
          have hs' : s ∈ l.kind.members := by rwa [hkind]
          refine ⟨s, hs', hm.trans hkey, ?_⟩
          rw [hvalue, ← hkey, ← hm]
          exact (hl.fits_get hs').lay hfit
        · obtain ⟨-, hlfits, -, -, -⟩ := hl
          exact hlfits e he
      · rcases hmember e he with ⟨f, hf, hkey, hvalue⟩ | he
        · rw [hvalue]
          exact sound_held_slot (fun x hx => hl.held_get hx) (hheld f hf)
            fun o ho x hx => ih f hf o ho (hl.held_get hx)
        · obtain ⟨-, -, hlheld, -, -⟩ := hl
          exact hlheld e he
    exact hparts _ (kind_lay l _) hnodup (fun e he => mem_members_lay hu hl he)
      (nodup_extras_lay hl.nodup_extras _) fun e he => keyed_extras_lay hu hl he

/-! ## Attributes -/

theorem Kind.exists_of_attribute? {k : Kind} {name : Text} {m : Member}
    (h : k.attribute? name = some m) : ∃ s ∈ k.members, s.member = m := by
  obtain ⟨s, hs, rfl⟩ := Option.map_eq_some_iff.1 h
  exact ⟨s, List.mem_of_find?_eq_some hs, rfl⟩

section Attributes

variable {o : Object} {name : Text} {m : Member}

theorem attribute?_of_member (h : o.kind.attribute? name = some m) :
    o.attribute? name = some (o.get m) := by
  rw [attribute?, h]

theorem attribute?_of_unknown (h : o.kind.attribute? name = none) :
    o.attribute? name = (o.extras.get? name).map .data := by
  rw [attribute?, h]

theorem explicit?_of_member (h : o.kind.attribute? name = some m) :
    o.explicit? name = o.given? m := by
  rw [explicit?, h]

theorem explicit?_of_unknown (h : o.kind.attribute? name = none) :
    o.explicit? name = (o.extras.get? name).map .data := by
  rw [explicit?, h]

end Attributes

/-- None of the unknown keys is named like something else that objects have, and so in the objects
    inside. -/
inductive PlainKeys : Object → Prop where
  | mk {k : Kind} {ms : List (Member × Slot)} {es : Table Loaded} :
      (∀ e ∈ es, k.reserves e.1 = false) → (∀ e ∈ ms, ∀ o ∈ e.2.held, PlainKeys o) →
      PlainKeys (.mk k ms es)

theorem PlainKeys.extras {o : Object} (h : PlainKeys o) :
    ∀ e ∈ o.extras, o.kind.reserves e.1 = false := by
  obtain ⟨hextras, -⟩ := h
  exact hextras

theorem PlainKeys.mapData {o : Object} (h : PlainKeys o) (f : Loaded → Loaded) :
    PlainKeys (o.mapData f) := by
  induction h with
  | mk hextras _ ih =>
    rw [mapData_mk]
    refine .mk (List.forall_mem_map.2 hextras) (List.forall_mem_map.2 fun e he o ho => ?_)
    rw [held_mapData] at ho
    obtain ⟨x, hx, rfl⟩ := List.mem_map.1 ho
    exact ih e he x hx

theorem PlainKeys.unmarked {o : Object} (h : PlainKeys o) : PlainKeys o.unmarked :=
  h.mapData _

/-- Every attribute that has been given is laid over what the attribute was before. -/
theorem attribute?_lay {src dst : Object} (h : Sound src) (hplain : PlainKeys src)
    (hkind : dst.kind = src.kind) (name : Text) : (dst.lay src).attribute? name =
      ((src.explicit? name).map (lay.slot ((dst.attribute? name).getD .null))).or
        (dst.attribute? name) := by
  cases hm : src.kind.attribute? name with
  | some m =>
    have hdst : dst.kind.attribute? name = some m := by rw [hkind, hm]
    rw [attribute?_of_member (by rw [kind_lay, hdst]), attribute?_of_member hdst,
      explicit?_of_member hm, get_lay h.nodup_members]
    cases src.given? m <;> rfl
  | none =>
    have hdst : dst.kind.attribute? name = none := by rw [hkind, hm]
    have hshadow : shadowsMember dst.kind name = false := by
      rw [Bool.eq_false_iff, ne_eq, shadowsMember_iff, hdst]
      simp
    rw [attribute?_of_unknown (by rw [kind_lay, hdst]), attribute?_of_unknown hdst,
      explicit?_of_unknown hm, extras_lay, get?_layExtras h.nodup_extras]
    cases hv : src.extras.get? name with
    | none => cases dst.extras.get? name <;> rfl
    | some v =>
      have hreserves := hkind ▸ hplain.extras _ (Table.mem_of_get? hv)
      rw [Option.bind_some, layExtra?_of_plain hshadow hreserves]
      cases dst.extras.get? name <;> rfl

/-! ## An overlay is a merge -/

/-- Mappings that one member may hold are of one form. -/
theorem Fits.same_form {s : MemberSpec} {l c : Slot} (hl : Fits s l) (hc : Fits s c)
    (hlmap : IsMap l) (hcmap : IsMap c) : (∃ v w, l = .data v ∧ c = .data w) ∨
      (∃ t u, l = .dataTable t ∧ c = .dataTable u) ∨ ∃ t u, l = .table t ∧ c = .table u := by
  have hladmits : Admits s.shape l := hl.resolve_left fun h => by rw [h.1] at hlmap; exact hlmap
  have hcadmits : Admits s.shape c := hc.resolve_left fun h => by rw [h.1] at hcmap; exact hcmap
  generalize s.shape = shape at hladmits hcadmits
  cases l with
  | data v =>
    cases c with
    | data w => exact Or.inl ⟨v, w, rfl, rfl⟩
    | _ => cases shape <;> first | exact hladmits.elim | exact hcadmits.elim
  | dataTable t =>
    cases c with
    | dataTable u => exact Or.inr (Or.inl ⟨t, u, rfl, rfl⟩)
    | _ => cases shape <;> first | exact hladmits.elim | exact hcadmits.elim
  | table t =>
    cases c with
    | table u => exact Or.inr (Or.inr ⟨t, u, rfl, rfl⟩)
    | _ => cases shape <;> first | exact hladmits.elim | exact hcadmits.elim
  | _ => exact hlmap.elim

theorem laid_layData {v : Loaded} (h : v.Keyed) {l : Option Loaded}
    (hl : l.map Loaded.unmarked = l) :
    Laid (l.map .data) (.data v) (some (.data (layData l v))) := by
  unfold layData
  split
  · next es m fs =>
    refine .maps trivial trivial trivial fun key => ?_
    show (Value.Entries.get? (Value.Entries.insertAll es fs) key).map Content.data =
      ((Value.Entries.get? fs key).map Content.data).or
        ((Value.Entries.get? es key).map Content.data)
    rw [Value.Entries.get?_insertAll h.proper, Option.map_or]
  · -- no mapping below has a mark
    rw [Option.map_some, Loaded.unmarked, Loaded.mapMarks_map] at hl
    cases hl
  · next hnone hsome =>
    refine .replaced fun x hx => ?_
    obtain ⟨w, rfl, rfl⟩ := Option.map_eq_some_iff.1 hx
    refine ⟨id, ?_⟩
    rintro ⟨hwmap, hvmap⟩
    cases w with
    | map m es =>
      cases v with
      | map n fs =>
        cases m with
        | none => exact hnone es n fs rfl rfl
        | some m => exact hsome m es n fs rfl rfl
      | _ => exact hvmap
    | _ => exact hwmap

theorem laid_insertAll_data {u : Table Loaded} (h : u.keys.Nodup) (t : Table Loaded) :
    Laid (some (.dataTable t)) (.dataTable u) (some (.dataTable (t.insertAll u))) := by
  refine .maps trivial trivial trivial fun key => ?_
  cases key with
  | text k =>
    show (Table.get? (t.insertAll u) k).map Content.data =
      ((u.get? k).map Content.data).or ((t.get? k).map Content.data)
    rw [Table.get?_insertAll h, Option.map_or]
  | _ => rfl

theorem laid_insertAll {u : Table Object} (h : u.keys.Nodup) (t : Table Object) :
    Laid (some (.table t)) (.table u) (some (.table (t.insertAll u))) := by
  refine .maps trivial trivial trivial fun key => ?_
  cases key with
  | text k =>
    show (Table.get? (t.insertAll u) k).map Content.object =
      ((u.get? k).map Content.object).or ((t.get? k).map Content.object)
    rw [Table.get?_insertAll h, Option.map_or]
  | _ => rfl

/-- Contents that are neither mappings nor objects of one kind have nothing in common. -/
theorem slot_eq_upper {l c : Slot} (hkind : ¬ OfOneKind l c) (hmap : ¬ (IsMap l ∧ IsMap c)) :
    lay.slot l c = c := by
  cases c with
  | object o =>
    cases l with
    | object x => exact if_neg hkind
    | _ => rfl
  | data v =>
    cases l with
    | data w =>
      -- Data is merged only where both sides are mappings.
      refine congrArg Content.data ?_
      unfold layData
      split
      · next hw => exact absurd ⟨by cases hw; trivial, trivial⟩ hmap
      · next hw => exact absurd ⟨by cases hw; trivial, trivial⟩ hmap
      · rfl
    | _ => rfl
  | dataTable t =>
    cases l with
    | dataTable u => exact absurd ⟨trivial, trivial⟩ hmap
    | _ => rfl
  | table t =>
    cases l with
    | table u => exact absurd ⟨trivial, trivial⟩ hmap
    | _ => rfl
  | _ => rfl

/-- A content is laid over what the member of another object holds. -/
theorem laid_slot {s : MemberSpec} {l c : Slot} (hl : Fits s l) (hc : Fits s c)
    (hunmarked : mapData.slot Loaded.unmarked l = l)
    (ih : ∀ u ∈ c.held, ∀ x ∈ l.held, x.unmarked = x → x.kind = u.kind → Merged x u (x.lay u)) :
    Laid (some l) c (some (lay.slot l c)) := by
  -- Two mappings are laid over each other key by key, as they are of one form.
  by_cases hmap : IsMap l ∧ IsMap c
  · rcases hl.same_form hc hmap.1 hmap.2 with ⟨v, w, rfl, rfl⟩ | ⟨t, u, rfl, rfl⟩ | ⟨t, u, rfl, rfl⟩
    · exact laid_layData hc.keyed (l := some v) (congrArg some (Content.data.inj hunmarked))
    · exact laid_insertAll_data hc.nodup_dataTable t
    · exact laid_insertAll hc.nodup_table t
  by_cases hkind : OfOneKind l c
  · cases l with
    | object x =>
      cases c with
      | object u =>
        have hsame : x.kind = u.kind := hkind
        rw [lay.slot, if_pos hsame]
        exact .objects hsame (ih u (List.mem_singleton_self u) x (List.mem_singleton_self x)
          (Content.object.inj hunmarked) hsame)
      | _ => exact hkind.elim
    | _ => exact hkind.elim
  · rw [slot_eq_upper hkind hmap]
    exact .replaced fun x hx => Option.some.inj hx ▸ ⟨hkind, hmap⟩

/-- A sound object that is laid over another one of its kind is merged into it, as long as nothing
    is shared. -/
theorem merged_lay {src : Object} (h : Sound src) : PlainKeys src → ∀ {dst : Object}, Sound dst →
    dst.unmarked = dst → dst.kind = src.kind → Merged dst src (dst.lay src) := by
  induction h with
  | @mk k ms es hnodup hfits hheld hkeys hkeyed ih =>
    intro hplain dst hdst hunmarked hkind
    have hsrc : Sound (.mk k ms es) := .mk hnodup hfits hheld hkeys hkeyed
    obtain ⟨-, hnested⟩ := id hplain
    refine .mk (kind_lay dst _) (fun name hnone => ?_) fun name c hc => ?_
    · rw [attribute?_lay hsrc hplain hkind, hnone]
      rfl
    · rw [attribute?_lay hsrc hplain hkind, hc]
      -- A name is that of a member, or the source brings it as an unknown key.
      cases hm : (Object.mk k ms es).kind.attribute? name with
      | some m =>
        rw [explicit?_of_member hm] at hc
        obtain ⟨s, hs, rfl⟩ := Kind.exists_of_attribute? hm
        obtain ⟨e, he, rfl⟩ := mem_of_given? hc
        rw [attribute?_of_member (hkind.symm ▸ hm)]
        have hget : mapData.slot Loaded.unmarked (dst.get s.member) = dst.get s.member := by
          rw [← get_mapData]
          exact congrArg (fun o => Object.get o s.member) hunmarked
        exact laid_slot (hdst.fits_get (hkind.symm ▸ hs)) (hsrc.fits_given? hs hc) hget
          fun u hu x hx hxu => ih e he u hu (hnested e he u hu) (hdst.held_get hx) hxu
      | none =>
        rw [explicit?_of_unknown hm] at hc
        obtain ⟨v, hv, rfl⟩ := Option.map_eq_some_iff.1 hc
        rw [attribute?_of_unknown (hkind.symm ▸ hm)]
        have hget : (dst.extras.get? name).map Loaded.unmarked = dst.extras.get? name := by
          rw [← get?_extras_mapData]
          exact congrArg (fun o => Table.get? (Object.extras o) name) hunmarked
        have hlaid := laid_layData (hkeyed _ (Table.mem_of_get? hv)) hget
        generalize dst.extras.get? name = l at hlaid ⊢
        cases l <;> exact hlaid

end Object

end IdlBridge.OpenApi
