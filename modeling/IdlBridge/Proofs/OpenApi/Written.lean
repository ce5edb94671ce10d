import IdlBridge.Proofs.OpenApi.Data
import IdlBridge.Proofs.OpenApi.Sharing

/-! # What comes out of a payload

    A payload is read, laid over an object of its kind, and written with it.  A key of the payload
    can be lost on the way because its content is as good as absent: null, an empty list, an empty
    mapping, or, where an object belongs, a mapping all of whose contents are.  `Hollow` says this
    shape by shape; every other key is there afterwards, whatever the payload is laid over
    (`isSome_get?_overlay`), as long as the payload has no unknown keys that are named like
    something else that objects have (`Spelled`).  Those are lost.
-/

namespace IdlBridge.OpenApi

open Reading

/-! ## Contents that count as absent -/

/-- The kind of the objects that a member of the shape holds, apart from references. -/
def Shape.objectKind? : Shape → Option Kind
  | .schema | .schemaOrFlag => some .schema
  | .object k => some k
  | _ => none

/-- The shape of what a kind has under a key: any data where no member has the key. -/
def Kind.shapeAt (k : Kind) (key : Text) : Shape :=
  ((k.members.find? (·.member.key = key)).map (·.shape)).getD .data

namespace Object

/-- The data is as good as absent where something of the shape belongs.  An object is if all its
    contents are, unless its kind has texts that are written even if nothing is given. -/
inductive Hollow : Shape → Value → Prop where
  | null {s : Shape} : Hollow s .null
  | list {s : Shape} : Hollow s (.list [])
  | set {s : Shape} : s ≠ .data → Hollow s (.set [])
  | map {s : Shape} : s.objectKind? = none → Hollow s (.map [])
  | object {s : Shape} {k : Kind} {es : Value.Entries} : s.objectKind? = some k →
      blankEntries k = [] →
      (∀ e ∈ es, ∀ key, e.1 = .text key → Hollow (k.shapeAt key) e.2) → Hollow s (.map es)

/-- A payload gives no member by its other key and has no unknown key that is named like something
    else that objects have, and neither do the objects inside it. -/
inductive Spelled : Kind → Value.Entries Loaded → Prop where
  | mk {k : Kind} {es : Value.Entries Loaded} :
      (∀ e ∈ es, ∀ s ∈ k.members, e.1 = .text s.member.otherKey →
        s.member.otherKey = s.member.key) →
      (∀ e ∈ es, ∀ key, e.1 = .text key → (∀ s ∈ k.members, s.member.key ≠ key) →
        k.reserves key = false) →
      (∀ e ∈ es, ∀ key m fs k', e.1 = .text key → e.2 = .map m fs →
        (k.shapeAt key).objectKind? = some k' → Spelled k' fs) →
      Spelled k es

/-! ## Keys that are written -/

theorem isSome_get?_iff {α : Type} {es : Value.Entries α} {t : Text} :
    (es.get? (.text t)).isSome = true ↔ ∃ v, (.text t, v) ∈ es := by
  unfold Value.Entries.get?
  rw [Option.isSome_map, List.find?_isSome]
  constructor
  · rintro ⟨e, he, hkey⟩
    exact ⟨e.2, Value.sameKey_text.1 hkey ▸ he⟩
  · rintro ⟨v, hv⟩
    exact ⟨_, hv, Value.sameKey_text.2 rfl⟩

/-- A key is written for a member or an unknown key that is not void, or as the paths of a
    document. -/
theorem isSome_get?_toValue {o : Object} {key : Text} :
    (o.toValue.get? key).isSome = true ↔
      (∃ s ∈ o.kind.members, s.member.key = key ∧ isVoid (memberValue o.members s) = false) ∨
      (∃ v, (key, v) ∈ o.extras ∧ isVoid v.plain = false) ∨
      (o.kind = .document ∧ key = Member.paths.key) := by
  obtain ⟨k, ms, es⟩ := o
  rw [toValue_eq]
  show (Value.Entries.get? _ (.text key)).isSome = true ↔ _
  unfold entries
  simp only [memberValue_eq]
  generalize hshown : List.filter (fun e : Text × Value => !isVoid e.2)
    ((k.members.map fun s => (s.member.key, memberValue ms s)) ++
      es.map fun e => (e.1, e.2.plain)) = shown
  have hmem : ∀ v, (key, v) ∈ shown ↔
      ((∃ s ∈ k.members, s.member.key = key ∧ memberValue ms s = v) ∨
        ∃ x, (key, x) ∈ es ∧ x.plain = v) ∧ isVoid v = false := by
    intro v
    rw [← hshown, List.mem_filter, List.mem_append, List.mem_map, List.mem_map]
    simp
  -- The first entry of the key may be void, but then it is not shown.
  have hfound : (∃ v, (key, v) ∈ shown) ↔
      (∃ s ∈ k.members, s.member.key = key ∧ isVoid (memberValue ms s) = false) ∨
        ∃ x, (key, x) ∈ es ∧ isVoid x.plain = false := by
    simp only [hmem]
    constructor
    · rintro ⟨v, ⟨s, hs, hkey, rfl⟩ | ⟨x, hx, rfl⟩, hvoid⟩
      · exact Or.inl ⟨s, hs, hkey, hvoid⟩
      · exact Or.inr ⟨x, hx, hvoid⟩
    · rintro (⟨s, hs, hkey, hvoid⟩ | ⟨x, hx, hvoid⟩)
      · exact ⟨_, Or.inl ⟨s, hs, hkey, rfl⟩, hvoid⟩
      · exact ⟨_, Or.inr ⟨x, hx, rfl⟩, hvoid⟩
  have htext : ∀ v, (Value.text key, v) ∈ shown.map (fun e => (Value.text e.1, e.2)) ↔
      (key, v) ∈ shown := by
    intro v
    simp
  rw [isSome_get?_iff, ← or_assoc]
  show _ ↔ ((∃ s ∈ k.members, s.member.key = key ∧ isVoid (memberValue ms s) = false) ∨
    ∃ x, (key, x) ∈ es ∧ isVoid x.plain = false) ∨ (k = .document ∧ key = Member.paths.key)
  rw [← hfound]
  split
  · next hpaths =>
    -- The paths of a document are written even if there are none.
    simp only [List.mem_append, List.mem_singleton, htext]
    constructor
    · rintro ⟨v, hv | hv⟩
      · exact Or.inl ⟨v, hv⟩
      · exact Or.inr ⟨hpaths.1, Value.text.inj (Prod.mk.inj hv).1⟩
    · rintro (⟨v, hv⟩ | ⟨-, rfl⟩)
      · exact ⟨v, Or.inl hv⟩
      · exact ⟨_, Or.inr rfl⟩
  · next hpaths =>
    simp only [htext]
    refine ⟨Or.inl, ?_⟩
    rintro (h | ⟨rfl, rfl⟩)
    · exact h
    · have hany : (shown.any fun e => decide (e.1 = Member.paths.key)) = true := by
        simpa using hpaths
      obtain ⟨e, he, hkey⟩ := List.any_eq_true.1 hany
      exact ⟨e.2, of_decide_eq_true hkey ▸ he⟩

/-- An object is void if no key of it is written. -/
theorem isVoid_toValue {o : Object} :
    isVoid o.toValue = false ↔ ∃ key, (o.toValue.get? key).isSome = true := by
  constructor
  · intro h
    have htexts : ∀ e ∈ entries o.kind (toValue.given o.members)
        (o.extras.map fun e => (e.1, e.2.plain)), ∃ key, e.1 = .text key := by
      intro e he
      unfold entries at he
      dsimp only at he
      split at he
      · rcases List.mem_append.1 he with he | he
        · obtain ⟨x, -, rfl⟩ := List.mem_map.1 he
          exact ⟨x.1, rfl⟩
        · exact ⟨_, congrArg Prod.fst (List.mem_singleton.1 he)⟩
      · obtain ⟨x, -, rfl⟩ := List.mem_map.1 he
        exact ⟨x.1, rfl⟩
    obtain ⟨k, ms, es⟩ := o
    rw [toValue_eq] at h ⊢
    cases hentries : entries k (toValue.given ms) (es.map fun e => (e.1, e.2.plain)) with
    | nil =>
      rw [hentries] at h
      cases h
    | cons e rest =>
      obtain ⟨key, hkey⟩ := htexts e (hentries ▸ List.mem_cons_self)
      exact ⟨key, isSome_get?_iff.2 ⟨e.2, hkey ▸ List.mem_cons_self⟩⟩
  · rintro ⟨key, hkey⟩
    obtain ⟨v, hv⟩ := Option.isSome_iff_exists.1 hkey
    exact isVoid_of_get? hv

/-! ## Contents that are laid over others -/

theorem isVoid_of_not_hollow {v : Value} (h : ¬ Hollow .data v) : isVoid v = false := by
  cases v with
  | null => exact absurd .null h
  | list xs =>
    cases xs with
    | nil => exact absurd .list h
    | cons => rfl
  | map es =>
    cases es with
    | nil => exact absurd (.map rfl) h
    | cons => rfl
  | _ => rfl

theorem isVoid_of_hollow_data {v : Value} (h : Hollow .data v) : isVoid v = true := by
  cases h with
  | null | list | map _ => rfl
  | set h => exact absurd rfl h
  | object h => cases h

/-- Something is in a mapping once something has been put into it. -/
theorem fill_ne_nil {as : Loaded.Additions} {m : Mark} {fs : Value.Entries Loaded}
    (h : (m, fs) ∈ as) (hfs : fs ≠ []) (es : Value.Entries Loaded) : as.fill (some m) es ≠ [] := by
  have hkeeps : ∀ (as : Loaded.Additions) (es : Value.Entries Loaded), es ≠ [] →
      as.fill (some m) es ≠ [] := by
    intro as
    induction as with
    | nil => exact fun es h => h
    | cons a as ih =>
      intro es hes
      rw [Loaded.fill_cons]
      split
      · refine ih _ ?_
        cases a.2 with
        | nil => exact hes
        | cons f rest => exact Value.Entries.insertAll_ne_nil (List.cons_ne_nil f rest) es
      · exact ih _ hes
  induction as generalizing es with
  | nil => cases h
  | cons a as ih =>
    rw [Loaded.fill_cons]
    rcases List.mem_cons.1 h with rfl | h
    · rw [if_pos rfl]
      exact hkeeps as _ (Value.Entries.insertAll_ne_nil hfs es)
    · exact ih h _

/-- Data that is not void is not void either when it is laid over data that has been filled with
    it. -/
theorem isVoid_layData {v : Loaded} (h : isVoid v.plain = false) {as : Loaded.Additions}
    {x : Option Loaded} (has : ∀ a ∈ additionsTo x v, a ∈ as) :
    isVoid (layData (x.map (Loaded.refill as)) v).plain = false := by
  by_cases hmaps : ∃ y, x = some y ∧ BothMaps y v
  · obtain ⟨_, rfl, m, es, n, fs, rfl, rfl⟩ := hmaps
    have hfs : fs ≠ [] := by
      rintro rfl
      rw [Loaded.plain_map] at h
      cases h
    rw [Option.map_some, Loaded.refill_map]
    have hentries : ∀ gs : Value.Entries Loaded, gs ≠ [] →
        isVoid (Loaded.map m gs).plain = false := by
      intro gs hgs
      rw [Loaded.plain_map]
      cases gs with
      | nil => exact absurd rfl hgs
      | cons e rest => rfl
    cases m with
    | none => exact hentries _ (Value.Entries.insertAll_ne_nil hfs _)
    | some mark => exact hentries _ (fill_ne_nil (has _ (List.mem_singleton_self _)) hfs _)
  · rwa [layData_of_not_map]
    rintro m es n fs hx rfl
    obtain ⟨y, rfl, hy⟩ := Option.map_eq_some_iff.1 hx
    obtain ⟨m', es', rfl⟩ := Loaded.exists_map_of_rebuild _ _ _ hy
    exact hmaps ⟨_, rfl, m', es', n, fs, rfl, rfl⟩

/-! ## Members of a payload -/

section Payload

variable {k : Kind} {es : Value.Entries Loaded} {key : Text} {v : Loaded}

theorem shapeAt_key {s : MemberSpec} (hs : s ∈ k.members) : k.shapeAt s.member.key = s.shape := by
  unfold Kind.shapeAt
  cases hfind : k.members.find? (·.member.key = s.member.key) with
  | none => simpa using List.find?_eq_none.1 hfind s hs
  | some t =>
    have hkey : t.member.key = s.member.key := by simpa using List.find?_some hfind
    rw [key_injective (List.mem_of_find?_eq_some hfind) hs hkey]
    rfl

theorem shapeAt_unknown (h : ∀ s ∈ k.members, s.member.key ≠ key) : k.shapeAt key = .data := by
  have hnone : k.members.find? (·.member.key = key) = none :=
    List.find?_eq_none.2 fun s hs => by simpa using h s hs
  rw [Kind.shapeAt, hnone]
  rfl

/-- A key of the payload is that of a member, or it is an unknown key with no other meaning. -/
theorem member_or_unknown (hspelled : Spelled k es) (hv : (.text key, v) ∈ es) :
    (∃ s ∈ k.members, s.member.key = key) ∨
      (∀ s ∈ k.members, s.member.key ≠ key) ∧ shadowsMember k key = false ∧
        k.reserves key = false := by
  obtain ⟨hkeys, hreserves, -⟩ := hspelled
  by_cases hmember : ∃ s ∈ k.members, s.member.key = key
  · exact Or.inl hmember
  · have hunknown : ∀ s ∈ k.members, s.member.key ≠ key := fun s hs hkey => hmember ⟨s, hs, hkey⟩
    refine Or.inr ⟨hunknown, Bool.eq_false_iff.2 fun hshadow => ?_,
      hreserves _ hv key rfl hunknown⟩
    obtain ⟨s, hs, hother⟩ := List.any_eq_true.1 hshadow
    have hother : s.member.otherKey = key := of_decide_eq_true hother
    exact hmember ⟨s, hs, (hkeys _ hv s hs (by rw [hother])).symm.trans hother⟩

theorem keyOf_of_isSome {m : Member} (h : (es.get? (.text m.key)).isSome = true) :
    keyOf es m = m.key := if_pos h

/-- A member of a payload is read from its own key. -/
theorem keyOf_eq (hspelled : Spelled k es) {s : MemberSpec} (hs : s ∈ k.members)
    (hv : es.get? (.text (keyOf es s.member)) = some v) : keyOf es s.member = s.member.key := by
  by_cases hkey : (es.get? (.text s.member.key)).isSome = true
  · exact keyOf_of_isSome hkey
  · have hother : keyOf es s.member = s.member.otherKey := if_neg hkey
    rw [hother] at hv ⊢
    obtain ⟨hkeys, -, -⟩ := hspelled
    exact hkeys _ (Value.Entries.mem_of_get? hv) s hs rfl

theorem mem_extrasOf_unknown (hv : (.text key, v) ∈ es)
    (h : ∀ s ∈ k.members, s.member.key ≠ key) (hshadow : shadowsMember k key = false) :
    (key, v) ∈ extrasOf k es := by
  refine mem_extrasOf.2 ⟨hv, fun s hs hkey => ?_⟩
  unfold keyOf at hkey
  split at hkey
  · exact h s hs hkey
  · have hany : shadowsMember k key = true :=
      List.any_eq_true.2 ⟨s, hs, decide_eq_true hkey⟩
    rw [hany] at hshadow
    cases hshadow

end Payload

/-! ## Contents that are written -/

theorem isVoid_list_false {xs : List Value} (h : xs ≠ []) : isVoid (.list xs) = false := by
  cases xs with
  | nil => exact absurd rfl h
  | cons => rfl

theorem isVoid_map_false {es : Value.Entries} (h : es ≠ []) : isVoid (.map es) = false := by
  cases es with
  | nil => exact absurd rfl h
  | cons => rfl

theorem items?_eq_nil {v : Loaded} (h : items? v = some []) : v = .list [] ∨ v = .set [] := by
  cases v with
  | list xs => exact Or.inl (congrArg _ (Option.some.inj h))
  | set xs => exact Or.inr (congrArg _ (Option.some.inj h))
  | pair a b => cases h
  | _ => cases h

theorem exists_text_of_blankEntries {k : Kind} (h : blankEntries k ≠ []) :
    ∃ s ∈ k.members, ∃ t, s.default = .text t := by
  obtain ⟨e, he⟩ := List.exists_mem_of_ne_nil _ h
  obtain ⟨s, hs, hentry⟩ := List.mem_filterMap.1 he
  split at hentry
  · next t ht => exact ⟨s, hs, t, ht⟩
  · cases hentry

theorem Fits.exists_text {s : MemberSpec} {t : Text} (hdefault : s.default = .text t) {c : Slot}
    (h : Fits s c) : ∃ u, c = .text u := by
  obtain ⟨m, shape, presence⟩ := s
  cases presence with
  | optional => cases hdefault
  | defaulted | required =>
    cases shape with
    | text =>
      rcases h with ⟨-, hnone⟩ | h
      · cases hnone
      · cases c <;> first | exact ⟨_, rfl⟩ | exact h.elim
    | _ => cases hdefault

/-! ## What becomes of an object -/

/-- What becomes of the objects of a payload: one is laid over an object that has been filled with
    what belongs there, or it stays as it is. -/
inductive Outcome (o : Object) : Object → Prop where
  | own : Outcome o o
  | laid {x : Object} {as : Loaded.Additions} : Sound x → x.kind = o.kind →
      (∀ a ∈ additions x o, a ∈ as) → Outcome o ((x.mapData (Loaded.refill as)).lay o)

/-- What becomes of a content. -/
def SlotOutcome (c c' : Slot) : Prop :=
  ∃ z as, (∀ x ∈ z.held, Sound x) ∧ (∀ a ∈ additions.slot z c, a ∈ as) ∧
    c' = lay.slot (mapData.slot (Loaded.refill as) z) c

section Outcome

variable {o r : Object}

theorem outcome_overlay {x : Object} (hx : Sound x) (hkind : x.kind = o.kind) :
    Outcome o (x.overlay o) :=
  .laid (hx.later o.loads) ((kind_mapData _ x).trans hkind) fun _ ha => ha

theorem Outcome.kind_eq (h : Outcome o r) : r.kind = o.kind := by
  cases h with
  | own => rfl
  | laid _ hkind _ => rw [kind_lay, kind_mapData, hkind]

/-- A member that the object has been given has become of what it has been given. -/
theorem Outcome.given? (h : Outcome o r) (ho : Sound o) {m : Member} {c : Slot}
    (hc : o.given? m = some c) : ∃ c', r.given? m = some c' ∧ SlotOutcome c c' := by
  cases h with
  | own =>
    -- laid over nothing, a content stays as it is
    refine ⟨c, hc, .null, [], (fun _ h => nomatch h), ?_, ?_⟩
    · cases c <;> exact fun _ h => nomatch h
    · cases c <;> rfl
  | @laid x as hx _ has =>
    refine ⟨_, ?_, x.get m, as, (fun y hy => hx.held_get hy), fun a ha => has a ?_, rfl⟩
    · rw [given?_lay ho.nodup_members, hc, get_mapData]
      rfl
    · obtain ⟨e, he, rfl⟩ := Option.map_eq_some_iff.1 hc
      have hkey : e.1 = m := by simpa using List.find?_some he
      exact mem_additions.2 (Or.inl ⟨e, List.mem_of_find?_eq_some he, hkey ▸ ha⟩)

theorem SlotOutcome.text {t : Text} {c' : Slot} (h : SlotOutcome (.text t) c') : c' = .text t := by
  obtain ⟨z, as, -, -, rfl⟩ := h
  cases z <;> rfl

/-- What becomes of an object in a content. -/
theorem SlotOutcome.object {c' : Slot} (h : SlotOutcome (.object o) c') :
    ∃ r, c' = .object r ∧ Outcome o r := by
  obtain ⟨z, as, hheld, has, rfl⟩ := h
  cases z with
  | object x =>
    rw [mapData.slot, lay.slot, kind_mapData]
    by_cases hkind : x.kind = o.kind
    · rw [if_pos hkind]
      rw [additions.slot, if_pos hkind] at has
      exact ⟨_, rfl, .laid (hheld x (List.mem_singleton_self x)) hkind has⟩
    · rw [if_neg hkind]
      exact ⟨o, rfl, .own⟩
  | _ => exact ⟨o, rfl, .own⟩

/-- What the member of an object is written as. -/
theorem memberValue_of_given? {s : MemberSpec} {c : Slot} (h : r.given? s.member = some c) :
    memberValue r.members s = toValue.slot c := by
  unfold memberValue
  rw [show (r.members.find? (·.1 = s.member)).map (·.2) = some c from h]
  rfl

/-- An object whose kind has a text of its own is not void. -/
theorem isVoid_of_blankEntries (h : Outcome o r) (ho : Sound o)
    (hblank : blankEntries o.kind ≠ []) : isVoid r.toValue = false := by
  obtain ⟨s, hs, t, ht⟩ := exists_text_of_blankEntries hblank
  -- The member holds a text, whichever object gives it.
  have hgiven : ∀ c, r.given? s.member = some c → ∃ u, c = .text u := by
    intro c hc
    cases h with
    | own => exact (ho.fits_given? hs hc).exists_text ht
    | @laid x as hx hkind _ =>
      rw [given?_lay ho.nodup_members] at hc
      cases hupper : o.given? s.member with
      | some c' =>
        obtain ⟨u, rfl⟩ := (ho.fits_given? hs hupper).exists_text ht
        rw [hupper] at hc
        cases hc
        exact ⟨u, rfl⟩
      | none =>
        rw [hupper, Option.map_none, Option.none_or, given?_mapData] at hc
        obtain ⟨z, hz, rfl⟩ := Option.map_eq_some_iff.1 hc
        obtain ⟨u, rfl⟩ := (hx.fits_given? (hkind.symm ▸ hs) hz).exists_text ht
        exact ⟨u, rfl⟩
  refine isVoid_toValue.2 ⟨s.member.key, isSome_get?_toValue.2 (Or.inl ⟨s, ?_, rfl, ?_⟩)⟩
  · rw [h.kind_eq]
    exact hs
  · cases hc : r.given? s.member with
    | some c =>
      obtain ⟨u, rfl⟩ := hgiven c hc
      rw [memberValue_of_given? hc]
      rfl
    | none =>
      unfold memberValue
      rw [show (r.members.find? (·.1 = s.member)).map (·.2) = none from hc]
      show isVoid (missingValue s) = false
      rw [missingValue, ht]
      rfl

theorem Reads.exists_text {v : Loaded} {c : Slot} (h : Reads .text v c) :
    ∃ t, textOf? v.plain = some t ∧ c = .text t := by
  cases h with
  | text ht => exact ⟨_, ht, rfl⟩
  | flag hs _ => rcases hs with hs | hs <;> cases hs
  | object hs _ => rcases hs with hs | ⟨hs | hs, -⟩ <;> cases hs
  | table hs _ => rcases hs with hs | ⟨k, hs⟩ <;> cases hs

/-- A reference names something, whatever becomes of it. -/
theorem isVoid_reference {v : Loaded} (hv : v.Keyed) (ho : ofValue? .reference v = some o)
    (h : Outcome o r) : isVoid r.toValue = false := by
  have hsound := sound_ofValue? hv _ _ ho
  obtain ⟨_, es, ms, rfl, hms, rfl⟩ := ofValue?_cases ho
  obtain ⟨w, c, -, hc, hmem⟩ := exists_mem_of_membersOf? hms
    (s := ⟨.ref, .text, .required⟩) (by decide) (Or.inr rfl)
  obtain ⟨t, rfl⟩ : ∃ t, c = .text t := by
    rcases slotOf?_cases hc with ⟨-, -, hoptional⟩ | ⟨-, hreads⟩
    · cases hoptional
    · obtain ⟨t, -, rfl⟩ := hreads.exists_text
      exact ⟨t, rfl⟩
  have hgiven : (Object.mk .reference ms (extrasOf .reference es)).given? .ref = some (.text t) :=
    given?_of_mem hsound.nodup_members hmem
  obtain ⟨c', hc', hout⟩ := h.given? hsound hgiven
  obtain rfl := hout.text
  refine isVoid_toValue.2 ⟨"$ref", isSome_get?_toValue.2
    (Or.inl ⟨⟨.ref, .text, .required⟩, ?_, rfl, ?_⟩)⟩
  · rw [h.kind_eq]
    show _ ∈ Kind.reference.members
    decide
  · rw [memberValue_of_given? hc']
    rfl

end Outcome

theorem eq_reference_or {s : Shape} {k : Kind}
    (h : s = .object k ∨ (s = .schema ∨ s = .schemaOrFlag) ∧ k ∈ s.kinds) :
    k = .reference ∨ s.objectKind? = some k := by
  rcases h with rfl | ⟨rfl | rfl, hk⟩
  · exact Or.inr rfl
  · simpa [Shape.kinds, Shape.objectKind?, eq_comm] using hk
  · simpa [Shape.kinds, Shape.objectKind?, eq_comm] using hk

/-- Every key of a payload that is not hollow is written, whatever becomes of what is read. -/
def KeysWritten (k : Kind) (es : Value.Entries Loaded) (src : Object) : Prop :=
  ∀ r, Outcome src r → ∀ key v, es.get? (.text key) = some v →
    ¬ Hollow (k.shapeAt key) v.plain → (r.toValue.get? key).isSome = true

theorem eq_nil_of_all? {α : Type} {f : Value → Option α} {xs : List Loaded}
    (h : all? f xs = some []) : xs = [] := by
  cases xs with
  | nil => rfl
  | cons x rest =>
    rw [all?] at h
    split at h <;> cases h

theorem eq_nil_of_dataTable? {es : Value.Entries Loaded} (h : dataTable? es = some []) :
    es = [] := by
  cases es with
  | nil => rfl
  | cons e rest =>
    obtain ⟨k, v⟩ := e
    rw [dataTable?] at h
    split at h <;> cases h

/-- A content that is not hollow is not void, whatever becomes of it. -/
theorem isVoid_slot {s : MemberSpec} {v : Loaded} {c c' : Slot} (hv : v.Keyed)
    (hc : slotOf? s v = some c) (hhollow : ¬ Hollow s.shape v.plain) (hout : SlotOutcome c c')
    (ih : ∀ k m es o, v = .map m es → s.shape.objectKind? = some k → ofValue? k v = some o →
      KeysWritten k es o) : isVoid (toValue.slot c') = false := by
  rcases slotOf?_cases hc with ⟨hnull, -, -⟩ | ⟨hne, hreads⟩
  · exact absurd (hnull ▸ .null) hhollow
  generalize s.shape = shape at hhollow hreads ih
  have hitems : ∀ xs, items? v = some xs → shape ≠ .data → xs ≠ [] := by
    rintro xs hxs hshape rfl
    rcases items?_eq_nil hxs with rfl | rfl
    · exact hhollow (by rw [Loaded.plain_list]; exact .list)
    · exact hhollow (by rw [Loaded.plain_set]; exact .set hshape)
  cases hreads with
  | @object _ _ k o hs ho =>
    obtain ⟨r, rfl, hr⟩ := hout.object
    show isVoid r.toValue = false
    have hok := kind_of_ofValue? ho
    rcases eq_reference_or hs with rfl | hobject
    · exact isVoid_reference hv ho hr
    -- An object with a text of its own is never void, so nothing is asked of its keys.
    by_cases hblank : blankEntries k = []
    · obtain ⟨m, es, ms, rfl, -, -⟩ := ofValue?_cases ho
      have hsome : ∃ e ∈ es, ∃ key, e.1 = .text key ∧ ¬ Hollow (k.shapeAt key) e.2.plain := by
        by_contra hall
        push Not at hall
        rw [Loaded.plain_map] at hhollow
        exact hhollow (.object hobject hblank (List.forall_mem_map.2 hall))
      obtain ⟨e, he, key, hkey, hnot⟩ := hsome
      have hget : Value.Entries.get? es (.text key) = some e.2 :=
        hkey ▸ hv.proper.get?_of_mem he
      exact isVoid_toValue.2 ⟨key, ih k m es o rfl hobject ho r hr key e.2 hget hnot⟩
    · exact isVoid_of_blankEntries hr (sound_ofValue? hv k o ho) (hok.symm ▸ hblank)
  | text _ =>
    rw [hout.text]
    rfl
  | flag _ _ =>
    obtain ⟨z, as, -, -, rfl⟩ := hout
    cases z <;> rfl
  | data _ =>
    obtain ⟨z, as, -, has, rfl⟩ := hout
    have hvoid := isVoid_of_not_hollow hhollow
    cases z with
    | data w => exact isVoid_layData hvoid (x := some w) has
    | _ => exact hvoid
  | @texts _ xs ts hxs hts =>
    obtain ⟨z, as, -, -, rfl⟩ := hout
    have hts : ts ≠ [] := fun hnil => hitems xs hxs (by simp) (eq_nil_of_all? (hnil ▸ hts))
    have hvoid : isVoid (.list (ts.map .text)) = false := isVoid_list_false (by simpa using hts)
    cases z <;> exact hvoid
  | @dataList _ xs hxs =>
    obtain ⟨z, as, -, -, rfl⟩ := hout
    have hvoid : isVoid (.list (xs.map Loaded.plain)) = false :=
      isVoid_list_false (by simpa using hitems xs hxs (by simp))
    cases z <;> exact hvoid
  | @dataTable m es t ht =>
    obtain ⟨z, as, -, -, rfl⟩ := hout
    have hes : t ≠ [] := by
      rintro rfl
      rw [eq_nil_of_dataTable? ht, Loaded.plain_map] at hhollow
      exact hhollow (.map rfl)
    cases z with
    | dataTable u => exact isVoid_map_false (by simpa [Table.insertAll_eq_nil] using fun _ => hes)
    | _ => exact isVoid_map_false (by simpa [Table.insertAll_eq_nil] using hes)
  | @objects k _ xs os hxs hos =>
    obtain ⟨z, as, -, -, rfl⟩ := hout
    have hvoid : isVoid (.list (toValue.list os)) = false := by
      refine isVoid_list_false fun hnil => ?_
      rw [list_eq_map, List.map_eq_nil_iff] at hnil
      obtain rfl := List.forall₂_nil_right_iff.1 (hnil ▸ hos)
      exact hitems [] (by rcases hxs with rfl | rfl <;> rfl) (by simp) rfl
    cases z <;> exact hvoid
  | @table _ m es t hs ht =>
    obtain ⟨z, as, -, -, rfl⟩ := hout
    have hes : t ≠ [] := by
      rintro rfl
      obtain rfl := List.forall₂_nil_right_iff.1 ht
      rw [Loaded.plain_map] at hhollow
      refine hhollow (.map ?_)
      rcases hs with rfl | ⟨k, rfl⟩ <;> rfl
    have hvoid : ∀ u : Table Object,
        isVoid (.map (toValue.table (Table.insertAll u t))) = false := by
      intro u
      refine isVoid_map_false ?_
      rw [table_eq_map]
      simpa [Table.insertAll_eq_nil] using fun _ => hes
    have hupper : ∀ u : Table Object,
        isVoid (.map (toValue.table (Table.insertAll u (Table.insertAll [] t)))) = false := by
      intro u
      refine isVoid_map_false ?_
      rw [table_eq_map]
      simpa [Table.insertAll_eq_nil] using fun _ => hes
    cases z with
    | table u => exact hupper _
    | _ => exact hvoid []

/-- A member whose key is in the payload has been given what is read from there. -/
theorem exists_given {k : Kind} {es : Value.Entries Loaded} {ms : List (Member × Slot)}
    (hms : membersOf? es k.members = some ms) {s : MemberSpec} (hs : s ∈ k.members) {v : Loaded}
    (hv : es.get? (.text s.member.key) = some v) :
    ∃ c, slotOf? s v = some c ∧ (ms.find? (·.1 = s.member)).map (·.2) = some c := by
  have hread : es.get? (.text (keyOf es s.member)) = some v := by
    rw [keyOf_of_isSome (by rw [hv]; rfl), hv]
  obtain ⟨w, c, hw, hc, hmember⟩ :=
    exists_mem_of_membersOf? hms hs (Or.inl (by rw [hread]; rfl))
  rw [hread] at hw
  cases hw
  have hnodup := (sublist_of_membersOf? hms).nodup (nodup_members k)
  exact ⟨c, hc, given?_of_mem hnodup hmember⟩

/-- An unknown key with no other meaning is written with what becomes of its data. -/
theorem isSome_get?_extras {src r : Object} (h : Outcome src r) (hsrc : Sound src)
    {key : Text} {v : Loaded} (hv : (key, v) ∈ src.extras)
    (hshadow : shadowsMember src.kind key = false) (hreserves : src.kind.reserves key = false)
    (hvoid : isVoid v.plain = false) : (r.toValue.get? key).isSome = true := by
  suffices hextra : ∃ w, (key, w) ∈ r.extras ∧ isVoid w.plain = false from
    isSome_get?_toValue.2 (Or.inr (Or.inl hextra))
  cases h with
  | own => exact ⟨v, hv, hvoid⟩
  | @laid x as hx hkind has =>
    have hget : src.extras.get? key = some v := Table.get?_of_mem hsrc.nodup_extras hv
    have hlay : ((x.mapData (Loaded.refill as)).lay src).extras.get? key =
        some (layData ((x.extras.get? key).map (Loaded.refill as)) v) := by
      rw [extras_lay, get?_layExtras hsrc.nodup_extras, hget, Option.bind_some,
        get?_extras_mapData, kind_mapData, hkind, layExtra?_of_plain hshadow hreserves]
      rfl
    refine ⟨_, Table.mem_of_get? hlay, isVoid_layData hvoid fun a ha => has a ?_⟩
    exact mem_additions.2
      (Or.inr ⟨_, hv, by rw [hkind]; exact isLost_of_plain hshadow hreserves, ha⟩)

/-- All keys of a payload are written, down the objects that it holds. -/
theorem keysWritten {v : Loaded} (hv : v.Keyed) : ∀ k m es src,
    v = .map m es → Spelled k es → ofValue? k v = some src → KeysWritten k es src := by
  refine hv.inductionOn fun v hv ih => ?_
  rintro k m es src rfl hspelled hsrc r hr key w hw hhollow
  have hsound := sound_ofValue? hv k src hsrc
  have hkind := kind_of_ofValue? hsrc
  have hmem := Value.Entries.mem_of_get? hw
  obtain ⟨_, es', ms, heq, hms, rfl⟩ := ofValue?_cases hsrc
  cases heq
  rcases member_or_unknown hspelled hmem with ⟨s, hs, rfl⟩ | ⟨hunknown, hshadow, hreserves⟩
  · -- A known key is written for its member, and the induction goes into the object that it
    -- holds.
    obtain ⟨c, hc, hgiven⟩ := exists_given hms hs hw
    obtain ⟨c', hc', hout⟩ := hr.given? hsound hgiven
    rw [shapeAt_key hs] at hhollow
    refine isSome_get?_toValue.2 (Or.inl ⟨s, ?_, rfl, ?_⟩)
    · rw [hr.kind_eq]
      exact hs
    rw [memberValue_of_given? hc']
    refine isVoid_slot (hv.of_get? hw) hc hhollow hout ?_
    rintro k' n fs o rfl hobject ho
    obtain ⟨-, -, hnested⟩ := hspelled
    exact ih _ (List.mem_map_of_mem hmem) k' n fs o rfl
      (hnested _ hmem _ n fs k' rfl rfl (by rw [shapeAt_key hs, hobject])) ho
  · -- An unknown key is written as it stands.
    rw [shapeAt_unknown hunknown] at hhollow
    exact isSome_get?_extras hr hsound (mem_extrasOf_unknown hmem hunknown hshadow) hshadow
      hreserves (isVoid_of_not_hollow hhollow)

/-! ## Contents that are left out -/

theorem isVoid_missingValue {k : Kind} (h : blankEntries k = []) {s : MemberSpec}
    (hs : s ∈ k.members) : isVoid (missingValue s) = true := by
  have hall : ∀ k : Kind, (blankEntries k).isEmpty = true → ∀ s ∈ k.members,
      isVoid (missingValue s) = true := by
    intro k
    cases k <;> decide +kernel
  exact hall k (List.isEmpty_iff.2 h) s hs

/-- A reference is not hollow: it has a key that no schema knows, with a text. -/
theorem not_reference_of_hollow {m : Option Mark} {es : Value.Entries Loaded} {o : Object}
    (h : ∀ e ∈ es, ∀ key, e.1 = .text key → Hollow (Kind.schema.shapeAt key) e.2.plain)
    (ho : ofValue? .reference (.map m es) = some o) : False := by
  obtain ⟨_, es', ms, heq, hms, -⟩ := ofValue?_cases ho
  cases heq
  obtain ⟨w, c, hw, hc, -⟩ := exists_mem_of_membersOf? hms
    (s := ⟨.ref, .text, .required⟩) (by decide) (Or.inr rfl)
  have hshape : Kind.schema.shapeAt (keyOf es .ref) = .data := by
    unfold keyOf
    split <;> decide
  have hhollow := h _ (Value.Entries.mem_of_get? hw) _ rfl
  rw [hshape] at hhollow
  have hvoid := isVoid_of_hollow_data hhollow
  rcases slotOf?_cases hc with ⟨-, -, hoptional⟩ | ⟨hne, hreads⟩
  · cases hoptional
  · obtain ⟨t, ht, -⟩ := hreads.exists_text
    change isVoid w.plain = true at hvoid
    generalize w.plain = value at ht hvoid
    cases value <;> first | (cases ht; done) | cases hvoid

/-- A collection without items is read as a void content. -/
theorem Reads.isVoid_of_items? {shape : Shape} {v : Loaded} {c : Slot} (h : Reads shape v c)
    (hitems : items? v = some []) (hdata : shape = .data → isVoid v.plain = true) :
    isVoid (toValue.slot c) = true := by
  have hv := items?_eq_nil hitems
  cases h with
  | text ht => rcases hv with rfl | rfl <;> simp [textOf?] at ht
  | flag _ hb => rcases hv with rfl | rfl <;> simp [flagOf?] at hb
  | data _ => exact hdata rfl
  | texts hxs hts =>
    rw [hitems] at hxs
    cases hxs
    cases hts
    rfl
  | dataList hxs =>
    rw [hitems] at hxs
    cases hxs
    rfl
  | dataTable _ => rcases hv with hv | hv <;> cases hv
  | object _ ho =>
    obtain ⟨_, es, ms, rfl, -, -⟩ := ofValue?_cases ho
    cases hitems
  | objects hxs hos =>
    rcases hxs with rfl | rfl
    · cases hitems
      cases hos
      rfl
    · cases hitems
      cases hos
      rfl
  | table _ _ => rcases hv with hv | hv <;> cases hv

theorem Reads.isVoid_of_map_nil {shape : Shape} {m : Option Mark} {c : Slot}
    (h : Reads shape (.map m []) c) (hobject : shape.objectKind? = none) :
    isVoid (toValue.slot c) = true := by
  cases h with
  | text ht => simp [textOf?] at ht
  | flag _ hb => simp [flagOf?] at hb
  | data _ => rfl
  | texts hxs _ => cases hxs
  | dataList hxs => cases hxs
  | dataTable ht =>
    cases ht
    rfl
  | object hkind _ => rcases hkind with rfl | ⟨rfl | rfl, -⟩ <;> cases hobject
  | objects hxs _ => rcases hxs with hxs | hxs <;> cases hxs
  | table _ ht =>
    cases ht
    rfl

/-- A mapping where an object belongs is read as one, or as a reference. -/
theorem Reads.exists_object {shape : Shape} {m : Option Mark} {es : Value.Entries Loaded} {c : Slot}
    {k : Kind} (h : Reads shape (.map m es) c) (hobject : shape.objectKind? = some k) :
    ∃ k' o, (k' = .reference ∧ k = .schema ∨ k' = k) ∧ ofValue? k' (.map m es) = some o ∧
      c = .object o := by
  cases h with
  | text ht => simp [textOf?] at ht
  | flag _ hb => simp [flagOf?] at hb
  | data _ | dataTable _ => cases hobject
  | texts hxs _ => cases hxs
  | dataList hxs => cases hxs
  | @object _ _ k' o hkind ho =>
    refine ⟨k', o, ?_, ho, rfl⟩
    rcases hkind with rfl | ⟨rfl | rfl, hk⟩
    · exact Or.inr (Option.some.inj hobject)
    · cases hobject
      simpa [Shape.kinds] using hk
    · cases hobject
      simpa [Shape.kinds] using hk
  | objects hxs _ => rcases hxs with hxs | hxs <;> cases hxs
  | table hkind _ => rcases hkind with rfl | ⟨k, rfl⟩ <;> cases hobject

/-- An object is void if all that has been read for it is, and its kind has nothing of its own. -/
theorem isVoid_of_members {k : Kind} {es : Value.Entries Loaded} {ms : List (Member × Slot)}
    (hspelled : Spelled k es) (hblank : blankEntries k = [])
    (hms : membersOf? es k.members = some ms)
    (hslots : ∀ s ∈ k.members, ∀ v c, (.text s.member.key, v) ∈ es → slotOf? s v = some c →
      isVoid (toValue.slot c) = true)
    (hunknown : ∀ key v, (.text key, v) ∈ es → (∀ s ∈ k.members, s.member.key ≠ key) →
      isVoid v.plain = true) :
    isVoid (Object.mk k ms (extrasOf k es)).toValue = true := by
  have hnone : ∀ key, ((Object.mk k ms (extrasOf k es)).toValue.get? key).isSome ≠ true := by
    intro key hkey
    rcases isSome_get?_toValue.1 hkey with ⟨s, hs, -, hvoid⟩ | ⟨v, hv, hvoid⟩ | ⟨hk, -⟩
    · have hmember : isVoid (memberValue ms s) = true := by
        unfold memberValue
        -- A member that has not been given holds the default, which is void in such a kind.
        cases hc : (ms.find? (·.1 = s.member)).map (·.2) with
        | none => exact isVoid_missingValue hblank hs
        | some c =>
          obtain ⟨e, he, rfl⟩ := Option.map_eq_some_iff.1 hc
          have hkey : e.1 = s.member := by simpa using List.find?_some he
          obtain ⟨s', hs', hmember, v, hv, hread⟩ :=
            mem_of_membersOf? hms (List.mem_of_find?_eq_some he)
          obtain rfl := eq_of_member_eq hs' hs (hmember.trans hkey)
          rw [keyOf_eq hspelled hs hv] at hv
          exact hslots s' hs v e.2 (Value.Entries.mem_of_get? hv) hread
      rw [show isVoid (memberValue ms s) = false from hvoid] at hmember
      cases hmember
    · obtain ⟨hmem, hread⟩ := mem_extrasOf.1 hv
      have hvoid' := hunknown key v hmem fun s hs hkey => hread s hs (by
        rw [keyOf_of_isSome (by rw [hkey]; exact isSome_get?_iff.2 ⟨v, hmem⟩), hkey])
      rw [hvoid] at hvoid'
      cases hvoid'
    · obtain rfl : k = .document := hk
      cases hblank
  cases hvoid : isVoid (Object.mk k ms (extrasOf k es)).toValue with
  | true => rfl
  | false =>
    obtain ⟨key, hkey⟩ := isVoid_toValue.1 hvoid
    exact absurd hkey (hnone key)

/-- A hollow content is void. -/
theorem isVoid_of_hollow {shape : Shape} {w : Value} (h : Hollow shape w) :
    ∀ {s : MemberSpec} {v : Loaded} {c : Slot}, v.plain = w → s.shape = shape → v.Keyed →
      (∀ k m es, shape.objectKind? = some k → v = .map m es → Spelled k es) →
        slotOf? s v = some c → isVoid (toValue.slot c) = true := by
  induction h with
  | null =>
    intro s v c hw _ _ _ hc
    rcases slotOf?_cases hc with ⟨-, rfl, -⟩ | ⟨hne, -⟩
    · rfl
    · exact absurd hw hne
  | list =>
    intro s v c hw _ _ _ hc
    obtain rfl := Loaded.eq_list_nil hw
    rcases slotOf?_cases hc with ⟨hnull, -⟩ | ⟨-, hreads⟩
    · simp at hnull
    · exact hreads.isVoid_of_items? rfl fun _ => rfl
  | set hdata =>
    intro s v c hw hs _ _ hc
    obtain rfl := Loaded.eq_set_nil hw
    rcases slotOf?_cases hc with ⟨hnull, -⟩ | ⟨-, hreads⟩
    · simp at hnull
    · exact hreads.isVoid_of_items? rfl fun hs' => absurd (hs.symm.trans hs') hdata
  | map hobject =>
    intro s v c hw hs _ _ hc
    obtain ⟨m, fs, rfl⟩ := Loaded.exists_map_of_plain hw
    rw [Loaded.plain_map] at hw
    obtain rfl : fs = [] := List.map_eq_nil_iff.1 (Value.map.inj hw)
    rcases slotOf?_cases hc with ⟨hnull, -⟩ | ⟨-, hreads⟩
    · simp at hnull
    · exact hreads.isVoid_of_map_nil (by rw [hs, hobject])
  | @object shape k es hobject hblank hentries ih =>
    intro s v c hw hs hkeyed hspelled hc
    obtain ⟨m, fs, rfl⟩ := Loaded.exists_map_of_plain hw
    rw [Loaded.plain_map] at hw
    obtain rfl := Value.map.inj hw
    have hentries := List.forall_mem_map.1 hentries
    have ih := List.forall_mem_map.1 ih
    rcases slotOf?_cases hc with ⟨hnull, -⟩ | ⟨-, hreads⟩
    · simp at hnull
    obtain ⟨k', o, ⟨rfl, rfl⟩ | rfl, ho, rfl⟩ := hreads.exists_object (by rw [hs, hobject])
    · -- A mapping that is read as a reference has a text in it, so it is not hollow.
      exact (not_reference_of_hollow hentries ho).elim
    have hkeys := hspelled k' m fs hobject rfl
    obtain ⟨_, es', ms, heq, hms, rfl⟩ := ofValue?_cases ho
    cases heq
    refine isVoid_of_members hkeys hblank hms (fun s hs v c hv hc => ?_)
      fun key v hv hunknown => ?_
    · obtain ⟨-, -, hnested⟩ := hkeys
      exact ih _ hv _ rfl rfl (shapeAt_key hs).symm (hkeyed.of_mem hv)
        (fun k n fs hk hfs => hnested _ hv _ n fs k rfl hfs hk) hc
    · have hhollow := hentries _ hv key rfl
      rw [shapeAt_unknown hunknown] at hhollow
      exact isVoid_of_hollow_data hhollow

/-! ## What is left of a payload -/

/-- Data is written without its marks. -/
theorem toValue_mapData {f : Loaded → Loaded} (hf : ∀ x, (f x).plain = x.plain) (o : Object) :
    (o.mapData f).toValue = o.toValue := by
  have hslot : ∀ c : Slot, (∀ o ∈ c.held, (o.mapData f).toValue = o.toValue) →
      toValue.slot (mapData.slot f c) = toValue.slot c := by
    intro c hheld
    cases c with
    | data v => exact hf v
    | dataList vs =>
      refine congrArg Value.list (List.map_map.trans (List.map_congr_left fun v _ => hf v))
    | dataTable es =>
      refine congrArg Value.map (List.map_map.trans (List.map_congr_left fun e _ => ?_))
      exact congrArg (Prod.mk (Value.text e.1)) (hf e.2)
    | object o => exact hheld o (List.mem_singleton_self o)
    | objects os =>
      rw [mapData.slot, mapData_list, toValue.slot, toValue.slot, list_eq_map, list_eq_map,
        List.map_map]
      exact congrArg Value.list (List.map_congr_left hheld)
    | table t =>
      rw [mapData.slot, mapData_table, toValue.slot, toValue.slot, table_eq_map, table_eq_map,
        List.map_map]
      refine congrArg Value.map (List.map_congr_left fun e he => ?_)
      exact congrArg (Prod.mk (Value.text e.1)) (hheld e.2 (List.mem_map_of_mem he))
    | _ => rfl
  induction o using inductionOn with
  | mk k ms es ih =>
    rw [mapData_mk, toValue_eq, toValue_eq, given_eq_map, given_eq_map, List.map_map, List.map_map]
    refine congrArg₂ (fun ms es => Value.map (entries k ms es))
      (List.map_congr_left fun e he => congrArg (Prod.mk e.1) (hslot e.2 (ih e he)))
      (List.map_congr_left fun e _ => congrArg (Prod.mk e.1) (hf e.2))

/-- An object that is laid over itself is written as it is. -/
theorem toValue_unmarked_overlay {o : Object} (ho : Sound o) :
    (o.unmarked.overlay o).toValue = o.toValue := by
  have hmarks : o.unmarked.marks = [] := by
    unfold marks unmarked
    rw [data_mapData, List.flatMap_map]
    refine List.flatMap_eq_nil_iff.2 fun x _ => ?_
    rw [Loaded.marks_eq, Loaded.nodes_unmarked]
    rfl
  have halone : Alone (touches (additions o.unmarked o)) o.unmarked.marks := by
    rw [hmarks]
    exact List.nodup_nil
  have hunmarked : ∀ o : Object, o.unmarked.toValue = o.toValue :=
    toValue_mapData Loaded.plain_unmarked
  rw [← hunmarked, unmarked_overlay ho ho.unmarked (kind_mapData _ o) halone, unmarked_unmarked,
    (lay_settles ho.unmarked).1, hunmarked]

section Payload

variable {k : Kind} {m : Option Mark} {payload : Value.Entries Loaded} {src : Object} {key : Text}
  {v : Loaded}

/-- A key whose content is hollow is not written with what is read from the payload. -/
theorem isSome_get?_of_hollow (hkeyed : (Loaded.map m payload).Keyed) (hspelled : Spelled k payload)
    (hsrc : ofValue? k (.map m payload) = some src) (hv : payload.get? (.text key) = some v)
    (hhollow : Hollow (k.shapeAt key) v.plain)
    (hwritten : (src.toValue.get? key).isSome = true) :
    k = .document ∧ key = Member.paths.key := by
  have hmem := Value.Entries.mem_of_get? hv
  obtain ⟨_, es, ms, heq, hms, rfl⟩ := ofValue?_cases hsrc
  cases heq
  rcases isSome_get?_toValue.1 hwritten with ⟨s, hs, rfl, hvoid⟩ | ⟨w, hw, hvoid⟩ | hdocument
  · obtain ⟨c, hc, hgiven⟩ := exists_given hms hs hv
    obtain ⟨-, -, hnested⟩ := hspelled
    have hvoid' := isVoid_of_hollow hhollow rfl (shapeAt_key hs).symm (hkeyed.of_get? hv)
      (fun k n fs hk hfs => hnested _ hmem _ n fs k rfl hfs hk) hc
    change isVoid (memberValue ms s) = false at hvoid
    rw [memberValue, hgiven] at hvoid
    change isVoid (toValue.slot c) = false at hvoid
    rw [hvoid'] at hvoid
    cases hvoid
  · obtain ⟨hw, hread⟩ := mem_extrasOf.1 hw
    have hget := hkeyed.proper.get?_of_mem hw
    rw [show payload.get? (.text key) = some w from hget] at hv
    cases hv
    -- The key is written as an unknown one, with the hollow content as it stands.
    have hunknown : ∀ s ∈ k.members, s.member.key ≠ key := by
      rintro s hs rfl
      exact hread s hs (keyOf_of_isSome (isSome_get?_iff.2 ⟨_, hw⟩))
    rw [shapeAt_unknown hunknown] at hhollow
    rw [isVoid_of_hollow_data hhollow] at hvoid
    cases hvoid
  · exact hdocument

/-- A key of a payload is written whatever the payload is laid over exactly if its content is not
    hollow; only the paths of a document are there anyway. -/
theorem isSome_get?_overlay (hkeyed : (Loaded.map m payload).Keyed) (hspelled : Spelled k payload)
    (hsrc : ofValue? k (.map m payload) = some src) (hv : payload.get? (.text key) = some v) :
    (∀ dst : Object, Sound dst → dst.kind = k →
      ((dst.overlay src).toValue.get? key).isSome = true) ↔
      ¬ Hollow (k.shapeAt key) v.plain ∨ (k = .document ∧ key = Member.paths.key) := by
  have hsound := sound_ofValue? hkeyed k src hsrc
  have hkind := kind_of_ofValue? hsrc
  constructor
  · intro h
    by_cases hhollow : Hollow (k.shapeAt key) v.plain
    · -- laid over itself, what has been read from the payload is written as it is
      have hself := h src.unmarked hsound.unmarked ((kind_mapData _ src).trans hkind)
      rw [toValue_unmarked_overlay hsound] at hself
      exact Or.inr (isSome_get?_of_hollow hkeyed hspelled hsrc hv hhollow hself)
    · exact Or.inl hhollow
  · rintro (hhollow | ⟨hk, hkey⟩) dst hdst hdstkind
    · exact keysWritten hkeyed k m payload src rfl hspelled hsrc _
        (outcome_overlay hdst (hdstkind.trans hkind.symm)) key v hv hhollow
    · refine isSome_get?_toValue.2 (Or.inr (Or.inr ⟨?_, hkey⟩))
      rw [(outcome_overlay hdst (hdstkind.trans hkind.symm)).kind_eq, hkind, hk]

end Payload

/-- A payload whose keys are texts is spelled if none of them is the other key of a member or named
    like something else, and no content is a mapping. -/
theorem spelled_of_keys {k : Kind} {payload : List (Text × Loaded)}
    (hkeys : ∀ e ∈ payload, ∀ s ∈ k.members, e.1 = s.member.otherKey →
      s.member.otherKey = s.member.key)
    (hreserves : ∀ e ∈ payload, k.reserves e.1 = false)
    (hflat : ∀ e ∈ payload, ∀ m fs, e.2 ≠ .map m fs) :
    Spelled k (payload.map fun e => (.text e.1, e.2)) := by
  refine .mk (fun e he s hs hkey => ?_) (fun e he key hkey _ => ?_)
    fun e he key m fs k' hkey hfs hk => ?_
  · obtain ⟨x, hx, rfl⟩ := List.mem_map.1 he
    exact hkeys x hx s hs (Value.text.inj hkey)
  · obtain ⟨x, hx, rfl⟩ := List.mem_map.1 he
    exact Value.text.inj hkey ▸ hreserves x hx
  · obtain ⟨x, hx, rfl⟩ := List.mem_map.1 he
    exact absurd hfs (hflat x hx m fs)

theorem spelled_bookingMapping : Spelled .operation bookingMapping := by
  refine .mk (fun e he s hs hkey => ?_) (fun e he key hkey _ => ?_)
    fun e he key m fs k hkey hfs hk => ?_
  · have hkeys : ∀ s ∈ Kind.operation.members, ∀ key ∈ (["requestBody", "x-owner"] : List Text),
        key = s.member.otherKey → s.member.otherKey = s.member.key := by
      decide
    rcases List.mem_cons.1 he with rfl | he
    · exact hkeys s hs _ (by simp) (Value.text.inj hkey)
    · rw [List.mem_singleton.1 he] at hkey
      exact hkeys s hs _ (by simp) (Value.text.inj hkey)
  · rcases List.mem_cons.1 he with rfl | he
    · cases hkey
      decide
    · rw [List.mem_singleton.1 he] at hkey
      cases hkey
      decide
  · rcases List.mem_cons.1 he with rfl | he
    · cases hkey
      cases hfs
      cases (Option.some.inj hk : Kind.requestBody = k)
      exact @spelled_of_keys .requestBody [("required", .ofValue (.bool true))]
        (by simp only [List.forall_mem_cons]; decide) (by decide) (by simp [Loaded.ofValue])
    · rw [List.mem_singleton.1 he] at hkey
      cases hkey
      have hnone : (Kind.operation.shapeAt "x-owner").objectKind? = none := by decide
      rw [hnone] at hk
      cases hk

/-- The body that the annotation of an operation asks for is written, whatever else is known about
    the operation. -/
theorem isSome_get?_bookingMapping : (Loaded.map none bookingMapping).Keyed ∧
    Spelled .operation bookingMapping ∧
    ofValue? .operation (.map none bookingMapping) = some bookingObject ∧
    bookingMapping.get? (.text "requestBody") = some (.map none bookingBody) ∧
    ∀ dst : Object, Sound dst → dst.kind = .operation →
      ((dst.overlay bookingObject).toValue.get? "requestBody").isSome = true := by
  have hhollow : ¬ Hollow (Kind.operation.shapeAt "requestBody")
      (Loaded.map none bookingBody).plain := by
    rw [show Kind.operation.shapeAt "requestBody" = .object .requestBody from by decide,
      Loaded.plain_map]
    intro h
    cases h with
    | object hkind _ hentries =>
      have hflag := hentries (.text "required", .bool true) List.mem_cons_self "required" rfl
      cases hflag
  exact ⟨keyed_bookingMapping, spelled_bookingMapping, ofValue?_bookingMapping, rfl,
    (isSome_get?_overlay keyed_bookingMapping spelled_bookingMapping
      ofValue?_bookingMapping rfl).2 (Or.inl hhollow)⟩

/-- Annotations of a schema: it may not be null, and the values that it may have are gone. -/
def sealedMapping : Value.Entries Loaded :=
  [(.text "nullable", .ofValue (.bool false)), (.text "enum", .ofValue (.list []))]

/-- What is read from the annotations. -/
def sealedSchema : Object :=
  .build .schema [(.enum, .dataList []), (.nullable, .flag false)]

theorem keyed_sealedMapping : (Loaded.map none sealedMapping).Keyed := by
  have hproper : Value.Entries.Proper sealedMapping := ⟨by decide, by decide⟩
  rw [Loaded.keyed_map_iff]
  refine ⟨hproper, ?_⟩
  simp [sealedMapping]

theorem spelled_sealedMapping : Spelled .schema sealedMapping :=
  @spelled_of_keys .schema [("nullable", .ofValue (.bool false)), ("enum", .ofValue (.list []))]
    (by simp only [List.forall_mem_cons]; decide) (by decide) (by simp [Loaded.ofValue])

theorem ofValue?_sealedMapping :
    ofValue? .schema (.map none sealedMapping) = some sealedSchema := by
  refine ofValue?_map (by decide) (membersOf?_filter (by decide) ?_)
  refine membersOf?_cons_iff.2 (Or.inr ⟨.ofValue (.list []), .dataList [], _, rfl, ?_,
    membersOf?_cons_iff.2
      (Or.inr ⟨.ofValue (.bool false), .flag false, [], rfl, ?_, membersOf?_nil, rfl⟩), rfl⟩)
  · rw [slotOf?.eq_def]
    rfl
  · rw [slotOf?.eq_def]
    rfl

/-- A remark for the readers of a schema. -/
def remarkMapping : Value.Entries Loaded :=
  [(.text "_comment", .ofValue (.text "sealed"))]

/-- The empty list of values is not written, though it is not null; and a key that cannot be set is
    not written, though its content is not hollow. -/
theorem sealedMapping_loses_enum :
    (¬ ∀ (k : Kind) (payload : Value.Entries Loaded) (src dst : Object),
      (Loaded.map none payload).Keyed → Spelled k payload →
      ofValue? k (.map none payload) = some src → Sound dst → dst.kind = k →
      ∀ key v, payload.get? (.text key) = some v → v.plain ≠ .null →
        ((dst.overlay src).toValue.get? key).isSome = true) ∧
    ¬ ∀ (k : Kind) (payload : Value.Entries Loaded) (src dst : Object),
      (Loaded.map none payload).Keyed → ofValue? k (.map none payload) = some src → Sound dst →
      dst.kind = k → ∀ key v, payload.get? (.text key) = some v →
        ¬ Hollow (k.shapeAt key) v.plain → ((dst.overlay src).toValue.get? key).isSome = true := by
  refine ⟨fun h => ?_, fun h => ?_⟩
  · have hwritten := h .schema sealedMapping sealedSchema (.empty .schema) keyed_sealedMapping
      spelled_sealedMapping ofValue?_sealedMapping (sound_empty .schema) rfl "enum"
      (.ofValue (.list [])) rfl (by simp)
    revert hwritten
    decide
  · have hread : ofValue? .schema (.map none remarkMapping) =
        some (.mk .schema [] [("_comment", .ofValue (.text "sealed"))]) :=
      ofValue?_map (by decide) (membersOf?_filter (by decide) membersOf?_nil)
    have hkeyed : (Loaded.map none remarkMapping).Keyed := by
      have hproper : Value.Entries.Proper remarkMapping := ⟨by decide, by decide⟩
      rw [Loaded.keyed_map_iff]
      exact ⟨hproper, by simp [remarkMapping]⟩
    have hhollow : ¬ Hollow (Kind.schema.shapeAt "_comment")
        (Loaded.ofValue (.text "sealed")).plain := by
      rw [Loaded.plain_ofValue]
      exact fun h => nomatch h
    have hwritten := h .schema remarkMapping _ (.empty .schema) hkeyed hread
      (sound_empty .schema) rfl "_comment" _ rfl hhollow
    revert hwritten
    decide

end Object

end IdlBridge.OpenApi
