import IdlBridge.Proofs.Spec.Documents
import Mathlib.Data.List.Perm.Subperm
import Mathlib.Logic.Relation

/-! # Inlining ends, and finds the cycles

    Following a reference puts data in its place that may be larger than the document it comes from,
    and a target that is referred to twice is gone through twice, so neither the size of the data
    nor the number of references followed is a measure.  What ends the walk is that the references
    whose replacements are being built are all different, and that there are no more of them than
    the document holds (`Stands`, `mem_of_full`).

    A reference is met again inside its own replacement exactly where the open references lead from
    a path item into a cycle.  A failure shows the cycle (`reaches_of_inline_error`); data that has
    been inlined leads to none, since what a reference is replaced by is finite
    (`not_loops_of_inline_ok`).
-/

namespace IdlBridge.Spec

variable {doc v : Value} {refs active : List Text} {ref ref' : Text}

/-! ## Where references lead -/

/-- Among the open references of what the reference leads to is another one that is replaced. -/
def Follows (doc : Value) (ref ref' : Text) : Prop :=
  isInlined ref = true ∧ isInlined ref' = true ∧
    ∃ target, Pointer.resolve doc ref = .ok target ∧ ref' ∈ openReferences target

/-- The data leads to the reference, through references that are replaced. -/
def Reaches (doc v : Value) (ref : Text) : Prop :=
  ∃ first ∈ openReferences v, isInlined first = true ∧
    Relation.ReflTransGen (Follows doc) first ref

/-- The reference is reached again from what it leads to. -/
def Loops (doc : Value) (ref : Text) : Prop :=
  Relation.TransGen (Follows doc) ref ref

theorem reaches_of_mem (href : ref ∈ openReferences v) (hin : isInlined ref = true) :
    Reaches doc v ref :=
  ⟨ref, href, hin, .refl⟩

/-- A reference leads where its target leads. -/
theorem transGen_follows_iff {target : Value} (hin : isInlined ref = true)
    (htarget : Pointer.resolve doc ref = .ok target) :
    Relation.TransGen (Follows doc) ref ref' ↔ Reaches doc target ref' := by
  rw [Relation.TransGen.head'_iff]
  constructor
  · rintro ⟨first, ⟨-, hfirst, target', htarget', hopen⟩, hpath⟩
    cases htarget.symm.trans htarget'
    exact ⟨first, hopen, hfirst, hpath⟩
  · rintro ⟨first, hopen, hfirst, hpath⟩
    exact ⟨first, ⟨hin, hfirst, target, htarget, hopen⟩, hpath⟩

theorem Reaches.of_target {target : Value} (href : ref ∈ openReferences v)
    (hin : isInlined ref = true) (htarget : Pointer.resolve doc ref = .ok target)
    (h : Reaches doc target ref') : Reaches doc v ref' :=
  ⟨ref, href, hin, ((transGen_follows_iff hin htarget).2 h).to_reflTransGen⟩

theorem Reaches.mono {w : Value} (hsub : openReferences v ⊆ openReferences w)
    (h : Reaches doc v ref) : Reaches doc w ref := by
  obtain ⟨first, hopen, hin, hpath⟩ := h
  exact ⟨first, hsub hopen, hin, hpath⟩

/-! ## Where the walk stands -/

/-- All references of the document are among `refs`, and lead somewhere inside of it. -/
structure Closed (doc : Value) (refs : List Text) : Prop where
  found : ∀ ref ∈ refs, checkPointer doc ref = .ok ()
  inside : ∀ ref target, isInlined ref = true → Pointer.resolve doc ref = .ok target →
    references target ⊆ refs

/-- The walk stands at data of the document, inside the replacements of different references. -/
structure Stands (refs active : List Text) (v : Value) : Prop where
  nodup : active.Nodup
  within : active ⊆ refs
  inside : references v ⊆ refs

theorem Stands.step (hclosed : Closed doc refs) (h : Stands refs active v)
    (href : ref ∈ openReferences v) (hin : isInlined ref = true) (hnew : ref ∉ active)
    {target : Value} (htarget : Pointer.resolve doc ref = .ok target) :
    Stands refs (ref :: active) target where
  nodup := List.nodup_cons.2 ⟨hnew, h.nodup⟩
  within := List.cons_subset.2 ⟨h.inside (openReferences_subset v href), h.within⟩
  inside := hclosed.inside ref target hin htarget

/-- Where all references of the document are being replaced, the next one is one of them. -/
theorem Stands.mem_of_full (h : Stands refs active v) (hfull : refs.length ≤ active.length)
    (href : ref ∈ openReferences v) : ref ∈ active := by
  by_contra hnew
  have hnodup : (ref :: active).Nodup := List.nodup_cons.2 ⟨hnew, h.nodup⟩
  have hwithin : ref :: active ⊆ refs :=
    List.cons_subset.2 ⟨h.inside (openReferences_subset v href), h.within⟩
  have hlength := (List.subperm_of_subset hnodup hwithin).length_le
  rw [List.length_cons] at hlength
  omega

/-! ## The walk ends -/

/-- The data `inner.2` is gone through inside the replacements of `inner.1`, as the target of an
    open reference of the data `outer.2`. -/
def Calls (doc : Value) (inner outer : List Text × Value) : Prop :=
  ∃ ref ∈ openReferences outer.2, isInlined ref = true ∧ ref ∉ outer.1 ∧
    inner.1 = ref :: outer.1 ∧ Pointer.resolve doc ref = .ok inner.2

/-- No chain of replacements inside each other goes on forever. -/
theorem acc_calls (hclosed : Closed doc refs) (h : Stands refs active v) :
    Acc (Calls doc) (active, v) := by
  induction hfree : refs.length - active.length generalizing active v with
  | zero =>
    refine Acc.intro _ ?_
    rintro ⟨active', target⟩ ⟨ref, href, -, hnew, -⟩
    exact absurd (h.mem_of_full (by omega) href) hnew
  | succ free ih =>
    refine Acc.intro _ ?_
    rintro ⟨active', target⟩ ⟨ref, href, hin, hnew, rfl, htarget⟩
    refine ih (h.step hclosed href hin hnew htarget) ?_
    dsimp only at hfree ⊢
    rw [List.length_cons]
    omega

/-- The bound is never met: more nesting than the document has references makes no difference. -/
theorem inline_succ (hclosed : Closed doc refs) {bound : Nat} (h : Stands refs active v)
    (hbound : refs.length ≤ bound + active.length) :
    inline doc (bound + 1) active v = inline doc bound active v := by
  induction bound generalizing active v with
  | zero =>
    rw [inline_eq_replace, inline_eq_replace]
    refine replace_congr fun ref href _ => ?_
    -- All references are being followed, so the next one is among them.
    have hmet : ref ∈ active := h.mem_of_full (by omega) href
    show (if ref ∈ active then _ else _) = Except.error (LoadError.circular ref)
    rw [if_pos hmet]
  | succ bound ih =>
    rw [inline_eq_replace, inline_eq_replace doc (bound + 1)]
    refine replace_congr fun ref href hin => ?_
    by_cases hmet : ref ∈ active
    · rw [followed, followed, if_pos hmet, if_pos hmet]
    · rw [followed, followed, if_neg hmet, if_neg hmet]
      cases htarget : Pointer.resolve doc ref with
      | error e => rfl
      | ok target =>
        refine ih (h.step hclosed href hin hmet htarget) ?_
        rw [List.length_cons]
        omega

theorem inline_eq_of_le (hclosed : Closed doc refs) {bound : Nat} (h : Stands refs active v)
    (hbound : refs.length ≤ bound) :
    inline doc bound active v = inline doc refs.length active v := by
  obtain ⟨more, rfl⟩ := Nat.exists_eq_add_of_le hbound
  clear hbound
  induction more with
  | zero => rfl
  | succ more ih => rw [← Nat.add_assoc, inline_succ hclosed h (by omega), ih]

/-! ## What the walk finds -/

/-- A failure shows a reference that is reached inside its own replacement. -/
theorem reaches_of_inline_error (hclosed : Closed doc refs) {bound : Nat}
    (h : Stands refs active v) (hbound : refs.length ≤ bound + active.length) {err : LoadError}
    (herr : inline doc bound active v = .error err) :
    ∃ ref, err = .circular ref ∧ Reaches doc v ref ∧ (ref ∈ active ∨ Loops doc ref) := by
  induction bound generalizing active v with
  | zero =>
    rw [inline_eq_replace] at herr
    obtain ⟨ref, href, ⟨hin, hfollowed⟩ | ⟨-, hcheck⟩⟩ := exists_of_replace_eq_error herr
    · cases hfollowed
      exact ⟨ref, rfl, reaches_of_mem href hin, Or.inl (h.mem_of_full (by omega) href)⟩
    · rw [hclosed.found ref (h.inside (openReferences_subset v href))] at hcheck
      cases hcheck
  | succ bound ih =>
    rw [inline_eq_replace] at herr
    obtain ⟨ref, href, ⟨hin, hfollowed⟩ | ⟨-, hcheck⟩⟩ := exists_of_replace_eq_error herr
    · rw [followed] at hfollowed
      by_cases hmet : ref ∈ active
      · rw [if_pos hmet] at hfollowed
        cases hfollowed
        exact ⟨ref, rfl, reaches_of_mem href hin, Or.inl hmet⟩
      · rw [if_neg hmet] at hfollowed
        obtain ⟨target, htarget⟩ := exists_resolve_of_checkPointer
          (hclosed.found ref (h.inside (openReferences_subset v href)))
        rw [htarget] at hfollowed
        have hstep := h.step hclosed href hin hmet htarget
        obtain ⟨ref', rfl, hreach, hfound⟩ := ih hstep (by rw [List.length_cons]; omega) hfollowed
        refine ⟨ref', rfl, hreach.of_target href hin htarget, ?_⟩
        -- The reference met again may be the one just followed: then it is reached from its target.
        by_cases heq : ref' = ref
        · subst heq
          exact Or.inr ((transGen_follows_iff hin htarget).2 hreach)
        · rcases hfound with hactive | hloops
          · exact Or.inl ((List.mem_cons.1 hactive).resolve_left heq)
          · exact Or.inr hloops
    · rw [hclosed.found ref (h.inside (openReferences_subset v href))] at hcheck
      cases hcheck

/-- Data that has been inlined leads to no cycle. -/
theorem not_loops_of_inline_ok {bound : Nat} {w : Value} (h : inline doc bound active v = .ok w)
    (href : Reaches doc v ref) : ¬ Loops doc ref := by
  induction bound using Nat.strongRecOn generalizing active v w ref with
  | ind bound ih =>
    obtain ⟨first, hopen, hin, hpath⟩ := href
    rw [inline_eq_replace] at h
    obtain ⟨t, ht⟩ := exists_follow_of_replace h hopen hin
    obtain ⟨smaller, target, rfl, htarget, ht⟩ := followed_eq_ok ht
    have hinside : ∀ {r}, Reaches doc target r → ¬ Loops doc r :=
      ih smaller (Nat.lt_succ_self smaller) ht
    rcases Relation.reflTransGen_iff_eq_or_transGen.1 hpath with rfl | hpath
    · -- Going round the cycle once, the reference is reached from its own target.
      intro hloops
      exact hinside ((transGen_follows_iff hin htarget).1 hloops) hloops
    · exact hinside ((transGen_follows_iff hin htarget).1 hpath)

/-- Outside all replacements, data is inlined or leads to the cycle that is reported. -/
theorem inline_cases (hclosed : Closed doc refs) {bound : Nat} (h : Stands refs [] v)
    (hbound : refs.length ≤ bound) :
    (∃ w, inline doc bound [] v = .ok w ∧ ∀ ref, Reaches doc v ref → ¬ Loops doc ref) ∨
      ∃ ref, inline doc bound [] v = .error (.circular ref) ∧ Reaches doc v ref ∧
        Loops doc ref := by
  cases hv : inline doc bound [] v with
  | ok w => exact Or.inl ⟨w, rfl, fun ref => not_loops_of_inline_ok hv⟩
  | error err =>
    obtain ⟨ref, rfl, hreach, hactive | hloops⟩ := reaches_of_inline_error hclosed h hbound hv
    · cases hactive
    · exact Or.inr ⟨ref, rfl, hreach, hloops⟩

/-! ## Path items

    While the path items of a document are inlined one after the other, the document changes, but
    only in its paths. -/

open Value.Entries (SameBut)

/-- Documents with the same components lead from reference to reference in the same way. -/
theorem follows_congr {doc doc' : Value}
    (hcomponents : doc.get? componentsKey = doc'.get? componentsKey) :
    Follows doc = Follows doc' := by
  funext ref ref'
  refine propext (and_congr_right fun hin => ?_)
  rw [resolve_congr hin hcomponents]

/-- All references of the document lead into its components, and somewhere. -/
def Anchored (doc : Value) : Prop :=
  ∀ ref ∈ references doc, Text.startsWith ref componentsLead = true ∧
    ∃ target, Pointer.resolve doc ref = .ok target

theorem anchored_of_checkPointer {doc : Value} (h : ∀ ref ∈ references doc,
    Text.startsWith ref componentsLead = true ∧ checkPointer doc ref = .ok ()) : Anchored doc :=
  fun ref href => ⟨(h ref href).1, exists_resolve_of_checkPointer (h ref href).2⟩

theorem closed_of_anchored {doc doc' : Value.Entries} (h : Anchored (.map doc))
    (hsame : SameBut pathsKey doc doc') : Closed (.map doc') (references (.map doc)) := by
  have hcomponents : (Value.map doc).get? componentsKey = (Value.map doc').get? componentsKey :=
    hsame.get?_eq (by decide)
  constructor
  · intro ref href
    obtain ⟨hlead, target, htarget⟩ := h ref href
    rw [← checkPointer_congr hlead hcomponents, checkPointer, htarget]
  · intro ref target hin htarget
    -- What a reference is replaced by lies in the components, which are those of the document.
    obtain ⟨c, keys, hc, hfollow⟩ := exists_follow_of_isInlined hin htarget
    have hmem : (.text componentsKey, c) ∈ doc :=
      Value.Entries.mem_of_get? (hcomponents.trans hc : (Value.map doc).get? componentsKey = some c)
    intro r hr
    exact mem_references_map.2 (Or.inr ⟨_, hmem, references_follow_subset hfollow hr⟩)

/-- What inlining data comes to in `doc'`, a document that has the components of `doc`. -/
structure CyclesFound (doc doc' : Value) (bound : Nat) (v : Value) : Prop where
  /-- The walk ends. -/
  ends : Acc (Calls doc') ([], v)
  /-- The bound is not what ends it. -/
  unbounded : inline doc' bound [] v = inline doc' (references doc).length [] v
  /-- The data is inlined, or a circular reference is reported. -/
  outcome : (∃ w, inline doc' bound [] v = .ok w) ∨
    ∃ ref, inline doc' bound [] v = .error (.circular ref)
  /-- A circular reference is reported exactly where the data leads to one. -/
  circular_iff : (∃ ref, inline doc' bound [] v = .error (.circular ref)) ↔
    ∃ ref, Reaches doc v ref ∧ Loops doc ref
  /-- The reference reported is such a reference. -/
  reported : ∀ ref, inline doc' bound [] v = .error (.circular ref) →
    Reaches doc v ref ∧ Loops doc ref
  /-- Data that repeats the same references, however often and wherever, is inlined as well. -/
  repeated : ∀ w, references w ⊆ references doc → openReferences w ⊆ openReferences v →
    (∃ v', inline doc' bound [] v = .ok v') → ∃ w', inline doc' bound [] w = .ok w'

theorem cyclesFound_of_subset {doc doc' : Value.Entries} (h : Anchored (.map doc))
    (hsame : SameBut pathsKey doc doc') {v : Value} (hv : references v ⊆ references (.map doc))
    {bound : Nat} (hbound : (references (.map doc)).length ≤ bound) :
    CyclesFound (.map doc) (.map doc') bound v := by
  have hclosed := closed_of_anchored h hsame
  have hcomponents : (Value.map doc).get? componentsKey = (Value.map doc').get? componentsKey :=
    hsame.get?_eq (by decide)
  have hstands : ∀ {w}, references w ⊆ references (.map doc) →
      Stands (references (.map doc)) [] w := fun hw => ⟨List.nodup_nil, List.nil_subset _, hw⟩
  have hcases : ∀ {w}, references w ⊆ references (.map doc) →
      (∃ w', inline (.map doc') bound [] w = .ok w' ∧
        ∀ ref, Reaches (.map doc) w ref → ¬ Loops (.map doc) ref) ∨
      ∃ ref, inline (.map doc') bound [] w = .error (.circular ref) ∧
        Reaches (.map doc) w ref ∧ Loops (.map doc) ref := by
    intro w hw
    have hcases' := inline_cases hclosed (hstands hw) hbound
    unfold Reaches Loops at hcases' ⊢
    rwa [← follows_congr hcomponents] at hcases'
  have hreported : ∀ ref, inline (.map doc') bound [] v = .error (.circular ref) →
      Reaches (.map doc) v ref ∧ Loops (.map doc) ref := by
    intro ref hcircular
    rcases hcases hv with ⟨w, hok, -⟩ | ⟨ref', hcircular', hfound⟩
    · rw [hok] at hcircular
      cases hcircular
    · rw [hcircular'] at hcircular
      cases hcircular
      exact hfound
  have hcircular : ∀ ref, Reaches (.map doc) v ref → Loops (.map doc) ref →
      ∃ ref', inline (.map doc') bound [] v = .error (.circular ref') := by
    intro ref hreach hloops
    rcases hcases hv with ⟨w, -, hnone⟩ | ⟨ref', hcircular, -⟩
    · exact absurd hloops (hnone ref hreach)
    · exact ⟨ref', hcircular⟩
  constructor
  case ends => exact acc_calls hclosed (hstands hv)
  case unbounded => exact inline_eq_of_le hclosed (hstands hv) hbound
  case outcome =>
    rcases hcases hv with ⟨w, hok, -⟩ | ⟨ref, hcircular, -⟩
    · exact Or.inl ⟨w, hok⟩
    · exact Or.inr ⟨ref, hcircular⟩
  case circular_iff =>
    constructor
    · rintro ⟨ref, h⟩
      exact ⟨ref, hreported ref h⟩
    · rintro ⟨ref, hreach, hloops⟩
      exact hcircular ref hreach hloops
  case reported => exact hreported
  case repeated =>
    rintro w hw hsub ⟨v', hok⟩
    rcases hcases hw with ⟨w', hok', -⟩ | ⟨ref, -, hreach, hloops⟩
    · exact ⟨w', hok'⟩
    · -- A cycle that the repeated references lead to, the data itself leads to as well.
      obtain ⟨ref', hcircular⟩ := hcircular ref (hreach.mono hsub) hloops
      rw [hcircular] at hok
      cases hok

/-- The references of a path item are references of the document. -/
theorem references_pathItem_subset {doc : Value.Entries} {e : Value × Value}
    (he : e ∈ sectionEntries doc pathsKey) : references e.2 ⊆ references (.map doc) := by
  rcases get?_or_sectionEntries_eq_nil doc pathsKey with hpaths | hnil
  · intro ref href
    refine mem_references_map.2 (Or.inr ⟨_, Value.Entries.mem_of_get? hpaths, ?_⟩)
    exact mem_references_map.2 (Or.inr ⟨e, he, href⟩)
  · rw [hnil] at he
    cases he

/-- Inlining a path item ends, and finds exactly the cycles that the item leads to. -/
theorem cyclesFound_of_pathItem {doc doc' : Value.Entries} (h : Anchored (.map doc))
    (hsame : SameBut pathsKey doc doc') {e : Value × Value} (he : e ∈ sectionEntries doc pathsKey)
    {bound : Nat} (hbound : (references (.map doc)).length ≤ bound) :
    CyclesFound (.map doc) (.map doc') bound e.2 :=
  cyclesFound_of_subset h hsame (references_pathItem_subset he) hbound

/-- A path item that refers to a parameter twice, and twice more through another one. -/
def sharedItem : Value :=
  .map [(.text "parameters", .list [
    .map [(.text "$ref", .text "#/components/parameters/Limit")],
    .map [(.text "$ref", .text "#/components/parameters/Paging")],
    .map [(.text "$ref", .text "#/components/parameters/Limit")]])]

/-- A path item that refers to one of two parameters that refer to each other. -/
def knotItem : Value :=
  .map [(.text "parameters", .list [
    .map [(.text "$ref", .text "#/components/parameters/Left")]])]

/-- A document with the two path items and the parameters. -/
def sharedDocument : Value.Entries :=
  [(.text "paths", .map [(.text "/pets", sharedItem), (.text "/knots", knotItem)]),
    (.text "components", .map [(.text "parameters", .map [
      (.text "Limit", .map [(.text "in", .text "query")]),
      (.text "Paging", .list [
        .map [(.text "$ref", .text "#/components/parameters/Limit")],
        .map [(.text "$ref", .text "#/components/parameters/Limit")]]),
      (.text "Left", .map [(.text "next", .map [
        (.text "$ref", .text "#/components/parameters/Right")])]),
      (.text "Right", .map [(.text "$ref", .text "#/components/parameters/Left")])])])]

/-- Of the two path items, the one that leads to a cycle is found out, and the other one is
    inlined. -/
theorem cyclesFound_sharedDocument :
    Anchored (.map sharedDocument) ∧
      sectionEntries sharedDocument pathsKey =
        [(.text "/pets", sharedItem), (.text "/knots", knotItem)] ∧
      (∀ e ∈ sectionEntries sharedDocument pathsKey,
        CyclesFound (.map sharedDocument) (.map sharedDocument)
          (references (.map sharedDocument)).length e.2) ∧
      (¬ ∃ ref, Reaches (.map sharedDocument) sharedItem ref ∧ Loops (.map sharedDocument) ref) ∧
      ∃ ref, Reaches (.map sharedDocument) knotItem ref ∧ Loops (.map sharedDocument) ref := by
  have hanchored : Anchored (.map sharedDocument) :=
    anchored_of_checkPointer (by decide +kernel)
  have hpaths : sectionEntries sharedDocument pathsKey =
      [(.text "/pets", sharedItem), (.text "/knots", knotItem)] := rfl
  have hfound : ∀ e ∈ sectionEntries sharedDocument pathsKey,
      CyclesFound (.map sharedDocument) (.map sharedDocument)
        (references (.map sharedDocument)).length e.2 := fun e he =>
    cyclesFound_of_pathItem hanchored (SameBut.refl pathsKey sharedDocument) he (Nat.le_refl _)
  have hshared : (inline (.map sharedDocument) (references (.map sharedDocument)).length []
      sharedItem).isOk = true := by decide +kernel
  have hknot : (inline (.map sharedDocument) (references (.map sharedDocument)).length []
      knotItem).isOk = false := by decide +kernel
  have hfoundShared := hfound (.text "/pets", sharedItem) (by rw [hpaths]; simp)
  have hfoundKnot := hfound (.text "/knots", knotItem) (by rw [hpaths]; simp)
  refine ⟨hanchored, hpaths, hfound, ?_, ?_⟩
  · intro hcycle
    obtain ⟨ref, hcircular⟩ := hfoundShared.circular_iff.2 hcycle
    rw [hcircular] at hshared
    cases hshared
  · rcases hfoundKnot.outcome with ⟨w, hok⟩ | hcircular
    · rw [hok] at hknot
      cases hknot
    · exact hfoundKnot.circular_iff.1 hcircular

/-! ## Whole documents -/

/-- Path items that wait in a document that differs from `start` only in its paths: all of them are
    inlined, or the first one that leads to a cycle is reported. -/
theorem inlinePaths_cases {start doc : Value.Entries} {bound : Nat}
    {rest : List (Value × Value)} (hmap : ∀ e ∈ rest, ∃ es, e.2 = .map es)
    (hrest : ∀ e ∈ rest, ∀ doc', SameBut pathsKey start doc' →
      CyclesFound (.map start) (.map doc') bound e.2)
    (hsame : SameBut pathsKey start doc)
    (hpaths : rest ≠ [] → ∃ paths, doc.get? (.text pathsKey) = some (.map paths)) :
    (∃ out, inlinePaths [] bound rest doc = .ok out ∧ SameBut pathsKey start out) ∧
        (∀ e ∈ rest, ¬ ∃ ref, Reaches (.map start) e.2 ref ∧ Loops (.map start) ref) ∨
      ∃ ref, inlinePaths [] bound rest doc = .error (.circular ref) ∧
        ∃ e ∈ rest, Reaches (.map start) e.2 ref ∧ Loops (.map start) ref := by
  induction rest generalizing doc with
  | nil => exact Or.inl ⟨⟨doc, rfl, hsame⟩, by simp⟩
  | cons e rest ih =>
    obtain ⟨path, item⟩ := e
    obtain ⟨es, rfl⟩ : ∃ es, item = .map es := hmap (path, item) List.mem_cons_self
    have hfound := hrest (path, .map es) List.mem_cons_self doc hsame
    obtain ⟨paths, hpaths⟩ := hpaths (by simp)
    rw [inlinePaths]
    rcases hfound.outcome with ⟨w, hok⟩ | ⟨ref, hcircular⟩
    · rw [hok]
      -- The item takes its place, which changes the paths only.
      have hset := setPath_eq hpaths path w
      have hsame' : SameBut pathsKey start (setPath [] doc path w) := by
        rw [hset]
        exact hsame.trans (Value.Entries.sameBut_insert hpaths _)
      have hpaths' : ∃ paths, (setPath [] doc path w).get? (.text pathsKey) =
          some (.map paths) := by
        rw [hset]
        exact ⟨_, Value.Entries.get?_insert_text _ _ _⟩
      have hnext := ih (fun e he => hmap e (List.mem_cons_of_mem _ he))
        (fun e he => hrest e (List.mem_cons_of_mem _ he)) hsame' (fun _ => hpaths')
      rcases hnext with ⟨hout, hnone⟩ | ⟨ref, hcircular, e, he, hcycle⟩
      · refine Or.inl ⟨hout, fun e he => ?_⟩
        rcases List.mem_cons.1 he with rfl | he
        · intro hcycle
          obtain ⟨ref, hcircular⟩ := hfound.circular_iff.2 hcycle
          rw [hok] at hcircular
          cases hcircular
        · exact hnone e he
      · exact Or.inr ⟨ref, hcircular, e, List.mem_cons_of_mem _ he, hcycle⟩
    · rw [hcircular]
      exact Or.inr ⟨ref, rfl, _, List.mem_cons_self, hfound.reported ref hcircular⟩

/-- A document whose references lead somewhere and whose path items are mappings is loaded, unless a
    path item leads to a cycle: then, and only then, it is refused as circular. -/
theorem inlineReferences_cases {doc : Value.Entries} (h : Anchored (.map doc))
    (hmap : ∀ e ∈ sectionEntries doc pathsKey, ∃ es, e.2 = .map es) :
    (∃ out, inlineReferences doc = .ok out) ∧
        (∀ e ∈ sectionEntries doc pathsKey,
          ¬ ∃ ref, Reaches (.map doc) e.2 ref ∧ Loops (.map doc) ref) ∨
      ∃ ref, inlineReferences doc = .error (.circular ref) ∧
        ∃ e ∈ sectionEntries doc pathsKey, Reaches (.map doc) e.2 ref ∧ Loops (.map doc) ref := by
  have hpaths : sectionEntries doc pathsKey ≠ [] →
      ∃ paths, doc.get? (.text pathsKey) = some (.map paths) := by
    intro hne
    exact ⟨_, (get?_or_sectionEntries_eq_nil doc pathsKey).resolve_right hne⟩
  have hitems := inlinePaths_cases hmap
    (fun e he doc' hsame =>
      cyclesFound_of_subset h hsame (references_pathItem_subset he) (Nat.le_refl _))
    (SameBut.refl pathsKey doc) hpaths
  unfold inlineReferences
  rcases hitems with ⟨⟨out, hout, hsame⟩, hnone⟩ | ⟨ref, hcircular, hcycle⟩
  · -- The components have not changed, and what refers to something in them still does.
    have hcheck : checkReferences (checkPointer (.map out))
        (.map (sectionEntries out componentsKey)) = .ok () := by
      rw [checkReferences_eq_ok]
      intro ref href
      have hcomponents : doc.get? (.text componentsKey) = out.get? (.text componentsKey) :=
        hsame.get?_eq (by decide)
      apply (closed_of_anchored h hsame).found
      rcases get?_or_sectionEntries_eq_nil out componentsKey with hget | hnil
      · rw [← hcomponents] at hget
        exact mem_references_map.2 (Or.inr ⟨_, Value.Entries.mem_of_get? hget, href⟩)
      · rw [hnil] at href
        cases href
    exact Or.inl ⟨⟨out, bind_eq_ok.2 ⟨out, hout, bind_eq_ok.2 ⟨(), hcheck, rfl⟩⟩⟩, hnone⟩
  · exact Or.inr ⟨ref, bind_eq_error.2 (Or.inl hcircular), hcycle⟩

/-! ## References beside references

    A mapping with a reference that is replaced is replaced as a whole: what else it holds is not
    looked at. -/

/-- The references that are not strictly inside a mapping with a reference that is left alone. -/
def looseReferences : Value → List Text
  | .list xs => items xs
  | .map es =>
    match reference? es with
    | some ref => if isInlined ref then ref :: entries es else [ref]
    | none => entries es
  | _ => []
where
  items : List Value → List Text
    | [] => []
    | x :: rest => looseReferences x ++ items rest
  entries : List (Value × Value) → List Text
    | [] => []
    | (_, v) :: rest => looseReferences v ++ entries rest

/-- A path item with a reference that is replaced, and beside it a reference to a cycle. -/
def besideDocument : Value.Entries :=
  [(.text "paths", .map [(.text "/pets", .map [(.text "get", .map [
      (.text "$ref", .text "#/components/parameters/Limit"),
      (.text "example", .map [(.text "$ref", .text "#/components/parameters/Loop")])])])]),
    (.text "components", .map [(.text "parameters", .map [
      (.text "Limit", .map [(.text "in", .text "query")]),
      (.text "Loop", .map [(.text "$ref", .text "#/components/parameters/Loop")])])])]

/-- The cycle is at a position that is not inside a mapping with a reference that is left alone, and
    the path item is inlined all the same. -/
theorem inlined_besideDocument :
    Anchored (.map besideDocument) ∧
      ∃ item, sectionEntries besideDocument pathsKey = [(.text "/pets", item)] ∧
        (∃ ref ∈ looseReferences item, isInlined ref = true ∧
          ∃ target, Pointer.resolve (.map besideDocument) ref = .ok target ∧
            ref ∈ looseReferences target) ∧
        inline (.map besideDocument) (references (.map besideDocument)).length [] item =
          .ok (.map [(.text "get", .map [(.text "in", .text "query")])]) := by
  have hanchored : Anchored (.map besideDocument) :=
    anchored_of_checkPointer (by decide +kernel)
  exact ⟨hanchored, _, rfl,
    ⟨"#/components/parameters/Loop", by decide +kernel, rfl, _, rfl, by decide +kernel⟩, rfl⟩

end IdlBridge.Spec
