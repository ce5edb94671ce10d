import IdlBridge.Decimal.Reading
import IdlBridge.Proofs.Idl.Lexing
import IdlBridge.Proofs.Value.Entries
import IdlBridge.Value.Order
import Mathlib.Data.List.Nodup

/-! # Constants

    The data that a source can hold as a constant: truth values, integers, texts, lists, and
    mappings from words.  A constant is *arranged* when the entries of each of its mappings are
    in the order of their keys.

    What is read back of a constant is the constant arranged, with other texts in it where the
    spelling did not keep them.  It is the same data only if all texts were kept, since the entries
    of a mapping are found by their keys in any order.
-/

namespace IdlBridge.Value

/-- The text that the data is, and no text for other data. -/
def asText : Value → Text
  | .text t => t
  | _ => []

/-- The data is a constant, and all its texts are allowed. -/
inductive IsConstant (allowed : Text → Prop) : Value → Prop
  | bool (b : Bool) : IsConstant allowed (.bool b)
  | int {i : Int} (hi : i.natAbs < Nat.pow 10 Numeral.maxDecimalDigits) :
      IsConstant allowed (.int i)
  | text {t : Text} (ht : allowed t) : IsConstant allowed (.text t)
  | list {xs : List Value} (hxs : ∀ x ∈ xs, IsConstant allowed x) : IsConstant allowed (.list xs)
  | map {es : Entries}
      (hkeys : ∀ e ∈ es, e.1 = .text e.1.asText ∧ Idl.Lexicon.isWord e.1.asText = true)
      (hapart : es.Pairwise fun e f => e.1.asText ≠ f.1.asText)
      (hes : ∀ e ∈ es, IsConstant allowed e.2) : IsConstant allowed (.map es)

theorem IsConstant.mono {P Q : Text → Prop} (hPQ : ∀ t, P t → Q t) {v : Value}
    (h : IsConstant P v) : IsConstant Q v := by
  induction h with
  | bool b => exact .bool b
  | int hi => exact .int hi
  | text ht => exact .text (hPQ _ ht)
  | list _ ih => exact .list ih
  | map hkeys hapart _ ih => exact .map hkeys hapart ih

/-- Sorts the entries of a mapping by their keys. -/
def Entries.sort (es : Entries) : Entries :=
  es.mergeSort fun e f => notAfter e.1 f.1

/-- The data with the entries of its mappings in the order of their keys, at every depth. -/
def arranged : Value → Value
  | .list xs => .list (items xs)
  | .map es => .map (entries es).sort
  | v => v
where
  items : List Value → List Value
    | [] => []
    | x :: rest => arranged x :: items rest
  entries : List (Value × Value) → Entries
    | [] => []
    | (k, v) :: rest => (k, arranged v) :: entries rest

theorem arranged_list (xs : List Value) : arranged (.list xs) = .list (xs.map arranged) := by
  have hitems : ∀ xs : List Value, arranged.items xs = xs.map arranged := fun xs => by
    induction xs with
    | nil => rfl
    | cons x xs ih => rw [arranged.items, ih, List.map_cons]
  rw [arranged, hitems]

theorem arranged_map (es : Entries) :
    arranged (.map es) = .map (Entries.sort (es.map fun e => (e.1, arranged e.2))) := by
  have hentries : ∀ es : Entries, arranged.entries es = es.map fun e => (e.1, arranged e.2) :=
    fun es => by
      induction es with
      | nil => rfl
      | cons e es ih =>
        obtain ⟨k, v⟩ := e
        rw [arranged.entries, ih, List.map_cons]
  rw [arranged, hentries]

/-- Arranging changes nothing but the order of entries. -/
theorem IsConstant.arranged {allowed : Text → Prop} {v : Value} (h : IsConstant allowed v) :
    IsConstant allowed v.arranged := by
  induction h with
  | bool b => exact .bool b
  | int hi => exact .int hi
  | text ht => exact .text ht
  | list _ ih =>
    rw [arranged_list]
    refine .list fun x hx => ?_
    obtain ⟨y, hy, rfl⟩ := List.mem_map.1 hx
    exact ih y hy
  | @map es hkeys hapart _ ih =>
    rw [arranged_map]
    have hmem : ∀ e ∈ Entries.sort (es.map fun e => (e.1, e.2.arranged)),
        ∃ f ∈ es, (f.1, f.2.arranged) = e := fun e he =>
      List.mem_map.1 (List.mem_mergeSort.1 he)
    refine .map (fun e he => ?_) ?_ fun e he => ?_
    · obtain ⟨f, hf, rfl⟩ := hmem e he
      exact hkeys f hf
    · have hperm := List.mergeSort_perm (es.map fun e => (e.1, e.2.arranged)) fun e f =>
      -- That keys are apart is a matter of pairs, whatever their order is.
        notAfter e.1 f.1
      exact (hperm.pairwise_iff fun h => h.symm).2 (List.pairwise_map.2 hapart)
    · obtain ⟨f, hf, rfl⟩ := hmem e he
      exact ih f hf

/-! ## Other texts in place -/

/-- The data with its texts changed.  The keys of its mappings stay. -/
def mapTexts (f : Text → Text) : Value → Value
  | .text t => .text (f t)
  | .list xs => .list (items xs)
  | .map es => .map (entries es)
  | v => v
where
  items : List Value → List Value
    | [] => []
    | x :: rest => mapTexts f x :: items rest
  entries : List (Value × Value) → Entries
    | [] => []
    | (k, v) :: rest => (k, mapTexts f v) :: entries rest

theorem mapTexts_list (f : Text → Text) (xs : List Value) :
    mapTexts f (.list xs) = .list (xs.map (mapTexts f)) := by
  have hitems : ∀ xs : List Value, mapTexts.items f xs = xs.map (mapTexts f) := fun xs => by
    induction xs with
    | nil => rfl
    | cons x xs ih => rw [mapTexts.items, ih, List.map_cons]
  rw [mapTexts, hitems]

theorem mapTexts_map (f : Text → Text) (es : Entries) :
    mapTexts f (.map es) = .map (es.map fun e => (e.1, mapTexts f e.2)) := by
  have hentries : ∀ es : Entries,
      mapTexts.entries f es = es.map fun e => (e.1, mapTexts f e.2) := fun es => by
    induction es with
    | nil => rfl
    | cons e es ih =>
      obtain ⟨k, v⟩ := e
      rw [mapTexts.entries, ih, List.map_cons]
  rw [mapTexts, hentries]

variable {P : Text → Prop} {f : Text → Text} {v : Value}

theorem IsConstant.mapTexts (h : v.IsConstant P) : (v.mapTexts f).IsConstant fun _ => True := by
  induction h with
  | bool b => exact .bool b
  | int hi => exact .int hi
  | text _ => exact .text trivial
  | list _ ih =>
    rw [mapTexts_list]
    exact .list (List.forall_mem_map.2 ih)
  | map hkeys hapart _ ih =>
    rw [mapTexts_map]
    refine .map (List.forall_mem_map.2 hkeys) (List.pairwise_map.2 hapart) ?_
    exact List.forall_mem_map.2 ih

theorem mapTexts_eq_self (h : v.IsConstant fun t => f t = t) : v.mapTexts f = v := by
  induction h with
  | bool _ => rfl
  | int _ => rfl
  | text ht => exact congrArg Value.text ht
  | list _ ih => rw [mapTexts_list, List.map_congr_left ih, List.map_id']
  | @map es _ _ _ ih =>
    have hentry : ∀ e ∈ es, (e.1, e.2.mapTexts f) = e := fun e he => by rw [ih e he]
    rw [mapTexts_map, List.map_congr_left hentry, List.map_id']

theorem sameItems_map_iff {g : Value → Value} {xs : List Value} :
    same.sameItems (xs.map g) xs = true ↔ ∀ x ∈ xs, (g x).same x = true := by
  induction xs with
  | nil => simp [same.sameItems]
  | cons x xs ih => rw [List.map_cons, same.sameItems, Bool.and_eq_true, ih, List.forall_mem_cons]

theorem sameEntries_iff {es fs : Entries} :
    same.sameEntries es fs = true ↔
      ∀ e ∈ es, ∃ f ∈ fs, e.1.sameKey f.1 = true ∧ e.2.same f.2 = true := by
  induction es with
  | nil => simp [same.sameEntries]
  | cons e es ih =>
    obtain ⟨k, v⟩ := e
    rw [same.sameEntries, Bool.and_eq_true, ih, List.forall_mem_cons, List.any_eq_true]
    simp only [Bool.and_eq_true]

/-- Entries with other values are the same in any order only if each value is the same as before,
    as different entries have different keys. -/
theorem same_map_iff {g : Value → Value} {es fs : Entries}
    (hperm : fs.Perm (es.map fun e => (e.1, g e.2))) (hkeys : ∀ e ∈ es, e.1 = .text e.1.asText)
    (hapart : es.Pairwise fun e f => e.1.asText ≠ f.1.asText) :
    (Value.map fs).same (.map es) = true ↔ ∀ e ∈ es, (g e.2).same e.2 = true := by
  have hlength : fs.length = es.length := by rw [hperm.length_eq, List.length_map]
  rw [same, Bool.and_eq_true, decide_eq_true_eq, and_iff_right hlength, sameEntries_iff]
  constructor
  · intro h e he
    obtain ⟨d, hd, hkey, hsame⟩ := h (e.1, g e.2) (hperm.mem_iff.2 (List.mem_map_of_mem he))
    rw [hkeys d hd, sameKey_text, ← hkeys d hd] at hkey
    have hname : e.1.asText = d.1.asText := congrArg asText hkey
    have hnodup : (es.map fun e => e.1.asText).Nodup := List.pairwise_map.2 hapart
    cases List.inj_on_of_nodup_map hnodup he hd hname
    exact hsame
  · intro h d hd
    obtain ⟨e, he, rfl⟩ := List.mem_map.1 (hperm.mem_iff.1 hd)
    refine ⟨e, he, ?_, h e he⟩
    rw [hkeys e he, sameKey_text]

/-- With other texts in it a constant is the same data only if its texts are the same as before. -/
theorem same_arranged_mapTexts_iff (h : v.IsConstant P) :
    (v.mapTexts f).arranged.same v = true ↔ v.IsConstant fun t => f t = t := by
  induction h with
  | bool b => exact iff_of_true (by cases b <;> rfl) (.bool b)
  | int hi => exact iff_of_true (decide_eq_true rfl) (.int hi)
  | @text t _ =>
    have hsame : (mapTexts f (.text t)).arranged.same (.text t) = decide (f t = t) := rfl
    rw [hsame, decide_eq_true_eq]
    refine ⟨fun ht => .text ht, fun h => ?_⟩
    cases h with
    | text ht => exact ht
  | @list xs _ ih =>
    rw [mapTexts_list, arranged_list, List.map_map, same, sameItems_map_iff]
    refine (forall₂_congr ih).trans ⟨.list, fun h => ?_⟩
    cases h with
    | list hxs => exact hxs
  | @map es hkeys hapart _ ih =>
    -- Keys are no texts of the constant, so they stay, and each entry is compared with its own.
    have hentries : (mapTexts f (.map es)).arranged =
        .map (Entries.sort (es.map fun e => (e.1, (e.2.mapTexts f).arranged))) := by
      rw [mapTexts_map, arranged_map, List.map_map]
      rfl
    have hperm : (Entries.sort (es.map fun e => (e.1, (e.2.mapTexts f).arranged))).Perm _ :=
      List.mergeSort_perm _ _
    rw [hentries, same_map_iff (g := fun v => (v.mapTexts f).arranged) hperm
      (fun e he => (hkeys e he).1) hapart]
    refine (forall₂_congr ih).trans ⟨.map hkeys hapart, fun h => ?_⟩
    cases h with
    | map _ _ hes => exact hes

end IdlBridge.Value
