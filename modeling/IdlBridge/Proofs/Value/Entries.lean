import IdlBridge.Value.Basic
import Mathlib.Data.List.Forall2

/-! # Data and lookup in mappings

    Data nests in sequences and in the values of mappings.  What holds of data as soon as it
    holds of the items of a sequence and of the values of a mapping holds of all data;
    everything else is a leaf of the walk.

    Keys of a mapping are data, and different data can be the same key: being the same key is having
    the same form (`sameKey_iff`).  Looking up a text is simple all the same: nothing but the text
    itself is the same key as a text.
-/

namespace IdlBridge.Value

/-- The value is neither a sequence nor a mapping. -/
def IsLeaf : Value → Prop
  | .list _ | .map _ => False
  | _ => True

/-- Induction along sequences and mappings. -/
theorem inductionOn {P : Value → Prop} (v : Value)
    (list : ∀ xs, (∀ x ∈ xs, P x) → P (.list xs))
    (map : ∀ es, (∀ e ∈ es, P e.2) → P (.map es))
    (leaf : ∀ v, v.IsLeaf → P v) : P v := by
  match v with
  | .list xs =>
    refine list xs fun x hx => ?_
    have := List.sizeOf_lt_of_mem hx
    exact inductionOn x list map leaf
  | .map es =>
    refine map es fun e he => ?_
    have := List.sizeOf_lt_of_mem he
    have : sizeOf e.2 < sizeOf e := by
      cases e
      simp only [Prod.mk.sizeOf_spec]
      omega
    exact inductionOn e.2 list map leaf
  | .null | .bool _ | .int _ | .float _ | .text _ | .date _ | .timestamp _ | .bytes _ | .pair _ _
  | .set _ => exact leaf _ trivial
termination_by sizeOf v
decreasing_by
  · simp
    omega
  · simp
    omega

/-! ## Keys -/

@[simp] theorem sameKey_text {a : Value} {t : Text} : a.sameKey (.text t) = true ↔ a = .text t := by
  cases a with
  | text s => simp [sameKey]
  | float x => cases hx : x.toInt? <;> simp [sameKey, asInt?, hx]
  | _ => simp [sameKey, asInt?]

/-! ## Forms of keys -/

/-- What a key is looked up by: two values are the same key if they have the same form. -/
inductive KeyForm where
  | null
  | number (i : Int)
  | float (x : Binary64)
  | text (t : Text)
  | date (d : Date)
  | moment (aware : Bool) (micros : Int)
  | bytes (octets : List Nat)

/-- The form of a key; a collection has none. -/
def keyForm? : Value → Option KeyForm
  | .null => some .null
  | .bool b => some (.number (if b then 1 else 0))
  | .int i => some (.number i)
  | .float x => some (x.toInt?.elim (.float x) .number)
  | .text t => some (.text t)
  | .date d => some (.date d)
  | .timestamp t => some (.moment t.offset.isSome (t.clock - t.offset.getD 0 * 60000000))
  | .bytes bs => some (.bytes bs)
  | .list _ | .pair _ _ | .map _ | .set _ => none

theorem sameMoment_iff (s t : Timestamp) : s.sameMoment t = true ↔
    s.offset.isSome = t.offset.isSome ∧
      s.clock - s.offset.getD 0 * 60000000 = t.clock - t.offset.getD 0 * 60000000 := by
  unfold Timestamp.sameMoment
  cases s.offset <;> cases t.offset <;> simp

theorem sameKey_float_iff (x y : Binary64) : sameKey (.float x) (.float y) = true ↔
    keyForm? (.float x) = keyForm? (.float y) := by
  unfold sameKey keyForm?
  by_cases hxy : x = y
  · simp [hxy]
  · cases hx : x.toInt? <;> cases hy : y.toInt? <;> simp [hx, hy, hxy]

/-- A value is the same key as another one if it has a form, and the other one the same. -/
theorem sameKey_iff {a b : Value} :
    a.sameKey b = true ↔ a.keyForm?.isSome = true ∧ a.keyForm? = b.keyForm? := by
  cases a with
  | float x =>
    cases b with
    | float y => simp [sameKey_float_iff, keyForm?]
    | _ => cases hx : x.toInt? <;> simp [sameKey, keyForm?, asInt?, hx]
  | _ =>
    cases b with
    | float y => cases hy : y.toInt? <;> simp [sameKey, keyForm?, asInt?, hy]
    | _ => simp [sameKey, keyForm?, asInt?, sameMoment_iff]

theorem sameKey_comm (a b : Value) : a.sameKey b = b.sameKey a := by
  rw [Bool.eq_iff_iff, sameKey_iff, sameKey_iff]
  constructor <;>
  · rintro ⟨hsome, heq⟩
    exact ⟨heq ▸ hsome, heq.symm⟩

/-- The same keys are the same as the same keys. -/
theorem sameKey_congr {a b : Value} (h : a.sameKey b = true) (c : Value) :
    a.sameKey c = b.sameKey c := by
  rw [Bool.eq_iff_iff, sameKey_iff, sameKey_iff, (sameKey_iff.1 h).2]

namespace Entries

variable {α : Type}

/-! ## Finding values -/

theorem get?_cons (e : Value × α) (es : Entries α) (n : Value) :
    get? (e :: es) n = if e.1.sameKey n = true then some e.2 else get? es n := by
  unfold get?
  rw [List.find?_cons]
  cases e.1.sameKey n <;> rfl

theorem mem_of_get? {es : Entries α} {t : Text} {v : α} (h : es.get? (.text t) = some v) :
    (.text t, v) ∈ es := by
  obtain ⟨e, he, rfl⟩ := Option.map_eq_some_iff.1 h
  have hk : e.1.sameKey (.text t) = true := by simpa using List.find?_some he
  rw [← sameKey_text.1 hk]
  exact List.mem_of_find?_eq_some he

/-- A key that all entries give the same value has that value. -/
theorem get?_of_mem {es : Entries α} {t : Text} {v : α} (h : (.text t, v) ∈ es)
    (hunique : ∀ w, (.text t, w) ∈ es → w = v) : es.get? (.text t) = some v := by
  have hsome : (es.find? fun e => e.1.sameKey (.text t)).isSome := by
    rw [List.find?_isSome]
    exact ⟨(.text t, v), h, sameKey_text.2 rfl⟩
  obtain ⟨e, he⟩ := Option.isSome_iff_exists.1 hsome
  have hget : es.get? (.text t) = some e.2 := by rw [get?, he]; rfl
  rw [hget, hunique e.2 (mem_of_get? hget)]

/-! ## Proper mappings -/

/-- No key is there twice, and every key is found. -/
structure Proper (es : Entries α) : Prop where
  apart : (es.map (·.1)).Pairwise fun a b => a.sameKey b = false
  found : ∀ k ∈ es.map (·.1), k.sameKey k = true

/-- Giving a key that is there a value puts the value in its place. -/
theorem insert_append {es fs : Entries α} {k : Value} {v w : α} (h : Proper (es ++ (k, v) :: fs)) :
    insert (es ++ (k, v) :: fs) k w = es ++ (k, w) :: fs := by
  have hk : k.sameKey k = true := h.found k (by simp)
  have hes : ∀ e ∈ es, e.1.sameKey k = false := fun e he => by
    have happart := h.apart
    rw [List.map_append, List.pairwise_append] at happart
    exact happart.2.2 e.1 (List.mem_map_of_mem he) k (by simp)
  clear h
  induction es with
  | nil =>
    show (if k.sameKey k then _ else _) = _
    rw [if_pos hk]
    rfl
  | cons e es ih =>
    have he := hes e List.mem_cons_self
    obtain ⟨k', v'⟩ := e
    rw [List.cons_append, insert, if_neg (by simp [he]),
      ih fun e he => hes e (List.mem_cons_of_mem _ he), List.cons_append]

/-- Giving a key the value that it has changes nothing. -/
theorem insert_self {es : Entries α} (h : Proper es) {e : Value × α} (he : e ∈ es) :
    insert es e.1 e.2 = es := by
  obtain ⟨pre, post, rfl⟩ := List.append_of_mem he
  exact insert_append h

/-! ## Mappings that differ in one value -/

/-- The mappings are the same entry by entry, but for the value of a key. -/
def SameBut (t : Text) (es fs : Entries) : Prop :=
  List.Forall₂ (fun e f => e.1 = f.1 ∧ (e.1 = .text t ∨ e.2 = f.2)) es fs

theorem SameBut.refl (t : Text) (es : Entries) : SameBut t es es :=
  List.forall₂_same.2 fun _ _ => ⟨rfl, Or.inr rfl⟩

theorem SameBut.trans {t : Text} {es fs gs : Entries} (h : SameBut t es fs)
    (h' : SameBut t fs gs) : SameBut t es gs := by
  induction h generalizing gs with
  | nil => exact h'
  | @cons e f es fs he _ ih =>
    obtain _ | ⟨hf, hrest⟩ := h'
    refine .cons ⟨he.1.trans hf.1, ?_⟩ (ih hrest)
    rcases he.2 with ht | hvalue
    · exact Or.inl ht
    · exact hf.2.imp (fun ht => he.1.trans ht) fun hvalue' => hvalue.trans hvalue'

/-- Mappings that differ in one value agree on all other keys. -/
theorem SameBut.get?_eq {t : Text} {es fs : Entries} (h : SameBut t es fs) {k : Text}
    (hk : k ≠ t) : es.get? (.text k) = fs.get? (.text k) := by
  induction h with
  | nil => rfl
  | @cons e f es fs he _ ih =>
    unfold get? at ih ⊢
    rw [List.find?_cons, List.find?_cons, he.1]
    cases hkey : f.1.sameKey (.text k) with
    | true =>
      have hf : f.1 = .text k := sameKey_text.1 hkey
      rcases he.2 with ht | hvalue
      · rw [he.1, hf] at ht
        exact absurd (Value.text.inj ht) hk
      · exact congrArg some hvalue
    | false => exact ih

theorem sameBut_insert {t : Text} {es : Entries} {v : Value} (h : es.get? (.text t) = some v)
    (w : Value) : SameBut t es (es.insert (.text t) w) := by
  induction es with
  | nil => cases h
  | cons e es ih =>
    obtain ⟨k, v'⟩ := e
    rw [insert]
    split
    · next hk => exact .cons ⟨rfl, Or.inl (sameKey_text.1 hk)⟩ (SameBut.refl t es)
    · next hk =>
      refine .cons ⟨rfl, Or.inr rfl⟩ (ih ?_)
      unfold get? at h ⊢
      rwa [List.find?_cons_of_neg (by simpa using hk)] at h

theorem get?_insert (es : Entries α) (k : Value) (v : α) (n : Value) :
    (es.insert k v).get? n = if k.sameKey n = true then some v else es.get? n := by
  induction es with
  | nil => rw [insert, get?_cons]
  | cons e es ih =>
    obtain ⟨k', v'⟩ := e
    rw [insert]
    split
    · next hk =>
      rw [get?_cons, get?_cons, sameKey_congr hk]
      split <;> rfl
    · next hk =>
      rw [get?_cons, get?_cons, ih]
      dsimp only
      split
      · next hn =>
        -- Both keys would be the same as the one that is looked up.
        rw [if_neg fun hkn => hk ?_]
        rw [sameKey_congr hn, sameKey_comm]
        exact hkn
      · rfl

theorem get?_insert_text (es : Entries α) (t : Text) (w : α) :
    (es.insert (.text t) w).get? (.text t) = some w := by
  rw [get?_insert, if_pos (sameKey_text.2 rfl)]

/-- Giving a key the value that it has changes nothing. -/
theorem insert_of_get? {es : Entries α} {k : Value} {v : α} (h : es.get? k = some v) :
    es.insert k v = es := by
  induction es with
  | nil => cases h
  | cons e es ih =>
    obtain ⟨k', v'⟩ := e
    rw [get?_cons] at h
    rw [insert]
    split
    · next hk =>
      rw [if_pos hk] at h
      cases h
      rfl
    · next hk =>
      rw [if_neg hk] at h
      rw [ih h]

/-! ## Laying mappings over each other -/

theorem Proper.tail {e : Value × α} {es : Entries α} (h : Proper (e :: es)) : Proper es where
  apart := (List.pairwise_cons.1 h.apart).2
  found k hk := h.found k (List.mem_cons_of_mem _ hk)

theorem Proper.get?_of_mem {es : Entries α} (h : Proper es) {e : Value × α} (he : e ∈ es) :
    es.get? e.1 = some e.2 := by
  induction es with
  | nil => cases he
  | cons x es ih =>
    rw [get?_cons]
    rcases List.mem_cons.1 he with rfl | he
    · rw [if_pos (h.found _ List.mem_cons_self)]
    · have hne : x.1.sameKey e.1 = false :=
        (List.pairwise_cons.1 h.apart).1 e.1 (List.mem_map_of_mem he)
      rw [if_neg (by simp [hne]), ih h.tail he]

/-- A key has the value that the upper mapping gives it, else the one of the lower mapping. -/
theorem get?_insertAll {fs : Entries α} (h : Proper fs) (es : Entries α) (n : Value) :
    (es.insertAll fs).get? n = (fs.get? n).or (es.get? n) := by
  induction fs generalizing es with
  | nil => rfl
  | cons f fs ih =>
    show (insertAll (es.insert f.1 f.2) fs).get? n = _
    rw [ih h.tail, get?_insert, get?_cons]
    by_cases hn : f.1.sameKey n = true
    · -- no other key of the upper mapping is the same
      have hrest : get? fs n = none := by
        unfold get?
        rw [Option.map_eq_none_iff, List.find?_eq_none]
        intro e he hen
        have hne : f.1.sameKey e.1 = false :=
          (List.pairwise_cons.1 h.apart).1 e.1 (List.mem_map_of_mem he)
        rw [sameKey_congr hn, sameKey_comm, hen] at hne
        cases hne
      rw [if_pos hn, if_pos hn, hrest]
      rfl
    · rw [if_neg hn, if_neg hn]

/-- Giving keys the values that they have changes nothing. -/
theorem insertAll_of_get? {es fs : Entries α} (h : ∀ e ∈ fs, es.get? e.1 = some e.2) :
    es.insertAll fs = es := by
  induction fs with
  | nil => rfl
  | cons f fs ih =>
    obtain ⟨hf, hfs⟩ := List.forall_mem_cons.1 h
    show insertAll (es.insert f.1 f.2) fs = es
    rw [insert_of_get? hf, ih hfs]

/-- A mapping that is laid over another one a second time changes nothing. -/
theorem insertAll_insertAll {fs : Entries α} (h : Proper fs) (es : Entries α) :
    (es.insertAll fs).insertAll fs = es.insertAll fs :=
  insertAll_of_get? fun e he => by rw [get?_insertAll h, h.get?_of_mem he]; rfl

theorem insertAll_self {es : Entries α} (h : Proper es) : es.insertAll es = es :=
  insertAll_of_get? fun _ he => h.get?_of_mem he

theorem insert_ne_nil (es : Entries α) (k : Value) (v : α) : es.insert k v ≠ [] := by
  cases es with
  | nil => exact List.cons_ne_nil _ _
  | cons e es =>
    obtain ⟨k', v'⟩ := e
    rw [insert]
    split <;> exact List.cons_ne_nil _ _

theorem insertAll_ne_nil {fs : Entries α} (h : fs ≠ []) (es : Entries α) :
    es.insertAll fs ≠ [] := by
  induction fs generalizing es with
  | nil => exact absurd rfl h
  | cons f rest ih =>
    cases rest with
    | nil => exact insert_ne_nil es f.1 f.2
    | cons g rest => exact ih (List.cons_ne_nil g rest) (es.insert f.1 f.2)

theorem keys_insert (es : Entries α) (k : Value) (v : α) :
    (es.insert k v).map (·.1) =
      if es.any (fun e => e.1.sameKey k) then es.map (·.1) else es.map (·.1) ++ [k] := by
  induction es with
  | nil => rfl
  | cons e es ih =>
    obtain ⟨k', v'⟩ := e
    rw [insert, List.any_cons]
    by_cases hk : k'.sameKey k = true
    · rw [if_pos hk, hk, Bool.true_or, if_pos rfl]
      rfl
    · rw [if_neg hk, List.map_cons, ih, (Bool.not_eq_true _).mp hk, Bool.false_or]
      split <;> rfl

theorem Proper.insert {es : Entries α} (h : Proper es) {k : Value} (hk : k.sameKey k = true)
    (v : α) : Proper (es.insert k v) := by
  have hkeys := keys_insert es k v
  split at hkeys
  · exact ⟨hkeys ▸ h.apart, hkeys ▸ h.found⟩
  · next hnew =>
    refine ⟨?_, ?_⟩
    · rw [hkeys, List.pairwise_append]
      refine ⟨h.apart, List.pairwise_singleton _ _, fun a ha b hb => ?_⟩
      obtain ⟨e, he, rfl⟩ := List.mem_map.1 ha
      rw [List.mem_singleton.1 hb, Bool.eq_false_iff]
      exact fun hsame => hnew (List.any_eq_true.2 ⟨e, he, hsame⟩)
    · rw [hkeys]
      intro a ha
      rcases List.mem_append.1 ha with ha | ha
      · exact h.found a ha
      · rw [List.mem_singleton.1 ha]
        exact hk

/-- Keys that are found are given to a proper mapping. -/
theorem Proper.insertAll {es fs : Entries α} (h : Proper es)
    (hfs : ∀ k ∈ fs.map (·.1), k.sameKey k = true) : Proper (es.insertAll fs) := by
  induction fs generalizing es with
  | nil => exact h
  | cons f fs ih =>
    exact ih (h.insert (hfs f.1 List.mem_cons_self) f.2) fun k hk =>
      hfs k (List.mem_cons_of_mem _ hk)

/-- No value comes from anywhere else. -/
theorem value_of_mem_insertAll {es fs : Entries α} {e : Value × α} (h : e ∈ es.insertAll fs) :
    e.2 ∈ es.map (·.2) ∨ e.2 ∈ fs.map (·.2) := by
  have hinsert : ∀ (es : Entries α) (k : Value) (v : α), ∀ e ∈ es.insert k v,
      e.2 = v ∨ e.2 ∈ es.map (·.2) := by
    intro es k v e he
    induction es with
    | nil => exact Or.inl (by rw [List.mem_singleton.1 he])
    | cons f es ih =>
      obtain ⟨k', v'⟩ := f
      rw [insert] at he
      split at he
      · rcases List.mem_cons.1 he with rfl | he
        · exact Or.inl rfl
        · exact Or.inr (List.mem_cons_of_mem _ (List.mem_map_of_mem he))
      · rcases List.mem_cons.1 he with rfl | he
        · exact Or.inr List.mem_cons_self
        · exact (ih he).imp_right (List.mem_cons_of_mem _)
  induction fs generalizing es with
  | nil => exact Or.inl (List.mem_map_of_mem h)
  | cons f fs ih =>
    rcases ih h with he | he
    · obtain ⟨g, hg, hvalue⟩ := List.mem_map.1 he
      rw [← hvalue]
      rcases hinsert es f.1 f.2 g hg with hg | hg
      · exact Or.inr (hg ▸ List.mem_cons_self)
      · exact Or.inl hg
    · exact Or.inr (List.mem_cons_of_mem _ he)

/-! ## Entries without repeated keys -/

theorem insert_eq_append {es : Entries α} {t : Text} (h : ∀ e ∈ es, e.1 ≠ .text t) (v : α) :
    es.insert (.text t) v = es ++ [(.text t, v)] := by
  induction es with
  | nil => rfl
  | cons e es ih =>
    obtain ⟨he, hes⟩ := List.forall_mem_cons.1 h
    obtain ⟨k, w⟩ := e
    rw [insert, if_neg (fun hsame => he (sameKey_text.1 hsame)), ih hes, List.cons_append]

theorem insertAll_eq_append {es : Entries α} {xs : List (Text × α)}
    (h : ∀ e ∈ es, ∀ x ∈ xs, e.1 ≠ .text x.1) (hxs : (xs.map (·.1)).Nodup) :
    es.insertAll (xs.map fun x => (.text x.1, x.2)) = es ++ xs.map fun x => (.text x.1, x.2) := by
  induction xs generalizing es with
  | nil => exact (List.append_nil es).symm
  | cons x xs ih =>
    obtain ⟨hx, hrest⟩ := List.nodup_cons.1 hxs
    show insertAll (es.insert (.text x.1) x.2) (xs.map _) = _
    rw [insert_eq_append fun e he => h e he x List.mem_cons_self, ih ?_ hrest, List.append_assoc]
    · rfl
    · intro e he y hy
      rcases List.mem_append.1 he with he | he
      · exact h e he y (List.mem_cons_of_mem _ hy)
      · rw [List.mem_singleton.1 he]
        exact fun heq => hx (List.mem_map.2 ⟨y, hy, (Value.text.inj heq).symm⟩)

/-- Entries of different texts are the mapping as they are. -/
theorem ofList_texts {xs : List (Text × α)} (h : (xs.map (·.1)).Nodup) :
    ofList (xs.map fun x => (.text x.1, x.2)) = xs.map fun x => (.text x.1, x.2) :=
  insertAll_eq_append (fun _ he => nomatch he) h

/-- No key comes from anywhere else. -/
theorem key_of_mem_ofList {es : Entries α} {e : Value × α} (he : e ∈ ofList es) :
    e.1 ∈ es.map (·.1) := by
  -- An entry whose key is there already keeps the key and changes its value.
  have hinsert : ∀ (fs : Entries α) (k : Value) (v : α),
      ∀ e ∈ fs.insert k v, e.1 = k ∨ e.1 ∈ fs.map (·.1) := by
    intro fs k v e he
    induction fs with
    | nil => exact Or.inl (by rw [List.mem_singleton.1 he])
    | cons f fs ih =>
      obtain ⟨k', v'⟩ := f
      rw [insert] at he
      split at he
      · rcases List.mem_cons.1 he with rfl | he
        · exact Or.inr List.mem_cons_self
        · exact Or.inr (List.mem_cons_of_mem _ (List.mem_map_of_mem he))
      · rcases List.mem_cons.1 he with rfl | he
        · exact Or.inr List.mem_cons_self
        · exact (ih he).imp_right (List.mem_cons_of_mem _)
  have hall : ∀ (es fs : Entries α), ∀ e ∈ fs.insertAll es,
      e.1 ∈ fs.map (·.1) ∨ e.1 ∈ es.map (·.1) := by
    intro es
    induction es with
    | nil => exact fun fs e he => Or.inl (List.mem_map_of_mem he)
    | cons f es ih =>
      intro fs e he
      rcases ih (fs.insert f.1 f.2) e he with he | he
      · obtain ⟨g, hg, hkey⟩ := List.mem_map.1 he
        rw [← hkey]
        rcases hinsert fs f.1 f.2 g hg with hg | hg
        · exact Or.inr (hg ▸ List.mem_cons_self)
        · exact Or.inl hg
      · exact Or.inr (List.mem_cons_of_mem _ he)
  exact (hall es [] e he).resolve_left (fun h => nomatch h)

theorem value_of_mem_ofList {es : Entries α} {e : Value × α} (he : e ∈ ofList es) :
    e.2 ∈ es.map (·.2) :=
  (value_of_mem_insertAll he).resolve_left (fun h => nomatch h)

/-- No key is given twice. -/
theorem proper_ofList {es : Entries α} (h : ∀ k ∈ es.map (·.1), k.sameKey k = true) :
    Proper (ofList es) :=
  Proper.insertAll ⟨List.Pairwise.nil, fun _ hk => nomatch hk⟩ h

/-! ## Other values under the same keys -/

section MapValues

variable {β γ : Type}

/-- The entries with other values under their keys. -/
def mapValues (f : α → β) (es : Entries α) : Entries β :=
  es.map fun e => (e.1, f e.2)

@[simp] theorem mapValues_cons (f : α → β) (e : Value × α) (es : Entries α) :
    mapValues f (e :: es) = (e.1, f e.2) :: mapValues f es := rfl

@[simp] theorem keys_mapValues (f : α → β) (es : Entries α) :
    (es.mapValues f).map (·.1) = es.map (·.1) := by
  rw [mapValues, List.map_map]
  rfl

theorem mapValues_mapValues (g : β → γ) (f : α → β) (es : Entries α) :
    (es.mapValues f).mapValues g = es.mapValues fun v => g (f v) :=
  List.map_map

theorem mapValues_congr {f g : α → β} {es : Entries α} (h : ∀ e ∈ es, f e.2 = g e.2) :
    es.mapValues f = es.mapValues g :=
  List.map_congr_left fun e he => by rw [h e he]

theorem mapValues_id {f : α → α} {es : Entries α} (h : ∀ e ∈ es, f e.2 = e.2) :
    es.mapValues f = es := by
  rw [mapValues_congr (g := id) h]
  exact List.map_id es

theorem insert_mapValues (f : α → β) (es : Entries α) (k : Value) (v : α) :
    (es.mapValues f).insert k (f v) = (es.insert k v).mapValues f := by
  induction es with
  | nil => rfl
  | cons e es ih =>
    obtain ⟨k', v'⟩ := e
    rw [mapValues_cons, insert, insert]
    split
    · rfl
    · rw [ih]
      rfl

theorem insertAll_mapValues (f : α → β) (es fs : Entries α) :
    (es.mapValues f).insertAll (fs.mapValues f) = (es.insertAll fs).mapValues f := by
  induction fs generalizing es with
  | nil => rfl
  | cons e fs ih =>
    show insertAll ((es.mapValues f).insert e.1 (f e.2)) (mapValues f fs) = _
    rw [insert_mapValues, ih]
    rfl

theorem ofList_mapValues (f : α → β) (es : Entries α) :
    ofList (es.mapValues f) = (ofList es).mapValues f :=
  insertAll_mapValues f [] es

theorem proper_mapValues {f : α → β} {es : Entries α} : Proper (es.mapValues f) ↔ Proper es := by
  constructor
  · rintro ⟨hapart, hfound⟩
    rw [keys_mapValues] at hapart hfound
    exact ⟨hapart, hfound⟩
  · rintro ⟨hapart, hfound⟩
    refine ⟨?_, ?_⟩
    · rwa [keys_mapValues]
    · rwa [keys_mapValues]

end MapValues

end Entries

/-! ## Data without repeated keys -/

/-- The data that a collection holds, the keys of a mapping left out. -/
def parts : Value → List Value
  | .list xs | .set xs => xs
  | .pair a b => [a, b]
  | .map es => es.map (·.2)
  | _ => []

/-- No mapping inside the data gives a key twice. -/
inductive Keyed : Value → Prop where
  | mk {v : Value} : (∀ es, v = .map es → Entries.Proper es) → (∀ w ∈ v.parts, Keyed w) → Keyed v

@[simp] theorem keyed_text (t : Text) : Keyed (.text t) :=
  .mk (fun _ h => nomatch h) fun _ h => nomatch h

@[simp] theorem keyed_bool (b : Bool) : Keyed (.bool b) :=
  .mk (fun _ h => nomatch h) fun _ h => nomatch h

@[simp] theorem keyed_list_iff {xs : List Value} : Keyed (.list xs) ↔ ∀ x ∈ xs, Keyed x := by
  constructor
  · rintro ⟨-, hparts⟩
    exact hparts
  · exact fun h => .mk (fun _ h => nomatch h) h

@[simp] theorem keyed_map_iff {es : Entries} :
    Keyed (.map es) ↔ es.Proper ∧ ∀ e ∈ es, Keyed e.2 := by
  constructor
  · rintro ⟨hproper, hparts⟩
    exact ⟨hproper es rfl, fun e he => hparts e.2 (List.mem_map_of_mem he)⟩
  · rintro ⟨hproper, hvalues⟩
    refine .mk (fun fs hfs => Value.map.inj hfs ▸ hproper) fun w hw => ?_
    obtain ⟨e, he, rfl⟩ := List.mem_map.1 hw
    exact hvalues e he

end IdlBridge.Value
