import IdlBridge.Proofs.Collections
import IdlBridge.Proofs.Computation
import IdlBridge.Proofs.Spec.References
import Mathlib.Data.List.Forall2

/-! # Inlining

    What a document looks like after its references have been inlined.  Replacing is a walk that
    stops at references, so its result is judged by its open references: those that it left alone,
    and those of the replacements.
-/

namespace IdlBridge.Spec

variable {follow : Text → Except LoadError Value} {check : Text → Except LoadError Unit}

/-! ## One replacement -/

theorem items_eq_ok {xs ys : List Value} (h : replace.items follow check xs = .ok ys) :
    List.Forall₂ (fun x y => replace follow check x = .ok y) xs ys := by
  induction xs generalizing ys with
  | nil =>
    cases h
    exact .nil
  | cons x rest ih =>
    rw [replace.items, bind_eq_ok] at h
    obtain ⟨y, hy, h⟩ := h
    obtain ⟨zs, hzs, h⟩ := bind_eq_ok.1 h
    rw [← pure_eq_ok.1 h]
    exact .cons hy (ih hzs)

theorem entries_eq_ok {es fs : Value.Entries} (h : replace.entries follow check es = .ok fs) :
    List.Forall₂ (fun e f => e.1 = f.1 ∧ replace follow check e.2 = .ok f.2) es fs := by
  induction es generalizing fs with
  | nil =>
    cases h
    exact .nil
  | cons e rest ih =>
    obtain ⟨k, v⟩ := e
    rw [replace.entries, bind_eq_ok] at h
    obtain ⟨w, hw, h⟩ := h
    obtain ⟨gs, hgs, h⟩ := bind_eq_ok.1 h
    rw [← pure_eq_ok.1 h]
    exact .cons ⟨rfl, hw⟩ (ih hgs)

theorem replace_of_isLeaf {v : Value} (h : v.IsLeaf) : replace follow check v = .ok v := by
  cases v with
  | list _ | map _ => exact absurd h id
  | _ => rfl

theorem replace_list {xs : List Value} {w : Value}
    (h : replace follow check (.list xs) = .ok w) :
    ∃ ys, w = .list ys ∧ List.Forall₂ (fun x y => replace follow check x = .ok y) xs ys := by
  rw [replace, bind_eq_ok] at h
  obtain ⟨ys, hys, h⟩ := h
  exact ⟨ys, (pure_eq_ok.1 h).symm, items_eq_ok hys⟩

theorem replace_map {es : Value.Entries} (hnone : reference? es = none) {w : Value}
    (h : replace follow check (.map es) = .ok w) :
    ∃ fs, w = .map fs ∧
      List.Forall₂ (fun e f => e.1 = f.1 ∧ replace follow check e.2 = .ok f.2) es fs := by
  rw [replace, hnone] at h
  obtain ⟨fs, hfs, h⟩ := bind_eq_ok.1 h
  exact ⟨fs, (pure_eq_ok.1 h).symm, entries_eq_ok hfs⟩

theorem replace_inlined {es : Value.Entries} {ref : Text} (href : reference? es = some ref)
    (hin : isInlined ref = true) : replace follow check (.map es) = follow ref := by
  rw [replace, href]
  dsimp only
  rw [if_pos hin]

theorem replace_kept {es : Value.Entries} {ref : Text} (href : reference? es = some ref)
    (hin : isInlined ref = false) {w : Value} (h : replace follow check (.map es) = .ok w) :
    w = .map es ∧ check ref = .ok () := by
  rw [replace, href] at h
  dsimp only at h
  rw [if_neg (by simp [hin])] at h
  obtain ⟨_, hcheck, h⟩ := bind_eq_ok.1 h
  exact ⟨(pure_eq_ok.1 h).symm, hcheck⟩

/-- Only a text and a replaced reference are replaced by a text. -/
theorem text_of_replace {v : Value} {t : Text} (h : replace follow check v = .ok (.text t)) :
    v = .text t ∨ ∃ es ref, v = .map es ∧ reference? es = some ref ∧ isInlined ref = true ∧
      follow ref = .ok (.text t) := by
  by_cases hleaf : v.IsLeaf
  · rw [replace_of_isLeaf hleaf] at h
    exact Or.inl (Except.ok.inj h)
  · cases v with
    | list xs =>
      -- Lists and mappings keep their form unless they are replaced as a whole.
      obtain ⟨ys, hys, -⟩ := replace_list h
      cases hys
    | map es =>
      cases href : reference? es with
      | some ref =>
        cases hin : isInlined ref with
        | true => exact Or.inr ⟨es, ref, rfl, href, hin, (replace_inlined href hin).symm.trans h⟩
        | false =>
          obtain ⟨hw, -⟩ := replace_kept href hin h
          cases hw
      | none =>
        obtain ⟨fs, hfs, -⟩ := replace_map href h
        cases hfs
    | _ => exact absurd trivial hleaf

/-! ## Direct data

    A mapping whose own `$ref` is a mapping is walked like any other.  When that inner mapping is a
    reference that is replaced by a text, a new reference comes up that nobody has looked at. -/

/-- The reference of the mapping that a mapping has as its own `$ref`. -/
def nestedReference? (es : Value.Entries) : Option Text :=
  match es.get? (.text "$ref") with
  | some (.map fs) => reference? fs
  | _ => none

/-- No mapping has, as its own `$ref`, a reference that satisfies `P`. -/
def Direct (P : Text → Prop) (v : Value) : Prop :=
  ∀ es ∈ mappings v, ∀ ref, nestedReference? es = some ref → ¬ P ref

variable {P Q : Text → Prop}

theorem Direct.mono {v : Value} (h : Direct Q v) (hPQ : ∀ ref, P ref → Q ref) : Direct P v :=
  fun es hes ref href hP => h es hes ref href (hPQ ref hP)

theorem Direct.of_subset {v w : Value} (h : Direct P v) (hsub : mappings w ⊆ mappings v) :
    Direct P w :=
  fun es hes => h es (hsub hes)

theorem Direct.item {xs : List Value} (h : Direct P (.list xs)) {x : Value} (hx : x ∈ xs) :
    Direct P x :=
  h.of_subset fun _ hes => mem_mappings_list.2 ⟨x, hx, hes⟩

theorem Direct.value {es : Value.Entries} (h : Direct P (.map es)) {e : Value × Value}
    (he : e ∈ es) : Direct P e.2 :=
  h.of_subset fun _ hfs => mem_mappings_map.2 (Or.inr ⟨e, he, hfs⟩)

theorem get?_of_forall₂ {R : Value → Value → Prop} {es fs : Value.Entries}
    (h : List.Forall₂ (fun e f => e.1 = f.1 ∧ R e.2 f.2) es fs) {key w : Value}
    (hw : fs.get? key = some w) : ∃ v, es.get? key = some v ∧ R v w := by
  induction h with
  | nil => cases hw
  | @cons e f es fs he _ ih =>
    unfold Value.Entries.get? at hw ih ⊢
    rw [List.find?_cons] at hw ⊢
    rw [he.1]
    cases hkey : f.1.sameKey key with
    | true =>
      rw [hkey] at hw
      cases hw
      exact ⟨e.2, rfl, he.2⟩
    | false =>
      rw [hkey] at hw
      exact ih hw

/-- A reference that is replaced by a text. -/
def Vanishes (follow : Text → Except LoadError Value) (ref : Text) : Prop :=
  isInlined ref = true ∧ ∃ t, follow ref = .ok (.text t)

/-- Replacing in direct data gives no mapping a reference that it did not have. -/
theorem reference?_eq_none_of_replaced {es fs : Value.Entries}
    (hdirect : Direct (Vanishes follow) (.map es)) (hnone : reference? es = none)
    (h : List.Forall₂ (fun e f => e.1 = f.1 ∧ replace follow check e.2 = .ok f.2) es fs) :
    reference? fs = none := by
  cases href : reference? fs with
  | none => rfl
  | some ref =>
    obtain ⟨v, hv, hreplace⟩ :=
      get?_of_forall₂ (R := fun v w => replace follow check v = .ok w) h (get?_of_reference? href)
    -- The own `$ref` was this text before, or the text has come from a reference in its place.
    rcases text_of_replace hreplace with rfl | ⟨gs, r, rfl, hr, hin, hfollow⟩
    · unfold reference? at hnone
      rw [hv] at hnone
      cases hnone
    · have hnested : nestedReference? es = some r := by
        unfold nestedReference?
        rw [hv]
        exact hr
      exact absurd ⟨hin, ref, hfollow⟩
        (hdirect es (mem_mappings_map.2 (Or.inl rfl)) r hnested)

/-! ## Open references of a replacement -/

/-- The open references of the result are those that were left alone and those of the
    replacements. -/
theorem openReferences_replace {v w : Value} (hdirect : Direct (Vanishes follow) v)
    (hfollow : ∀ ref ∈ openReferences v, isInlined ref = true → ∀ t, follow ref = .ok t →
      ∀ r ∈ openReferences t, P r)
    (hcheck : ∀ ref ∈ openReferences v, isInlined ref = false → check ref = .ok () → P ref)
    (h : replace follow check v = .ok w) : ∀ r ∈ openReferences w, P r := by
  induction v using Value.inductionOn generalizing w with
  | list xs ih =>
    obtain ⟨ys, rfl, hys⟩ := replace_list h
    intro r hr
    obtain ⟨y, hy, hr⟩ := mem_openReferences_list.1 hr
    obtain ⟨x, hx, hxy⟩ := exists_of_forall₂_right hys hy
    refine ih x hx (hdirect.item hx) (fun ref href => hfollow ref ?_)
      (fun ref href => hcheck ref ?_)
      hxy r hr
    all_goals exact mem_openReferences_list.2 ⟨x, hx, href⟩
  | map es ih =>
    -- A mapping with a reference is replaced or left alone as a whole.
    cases href : reference? es with
    | some ref =>
      have hopen : ref ∈ openReferences (.map es) := by
        rw [openReferences_of_reference? href]
        exact List.mem_singleton.2 rfl
      cases hin : isInlined ref with
      | true => exact hfollow ref hopen hin w ((replace_inlined href hin).symm.trans h)
      | false =>
        obtain ⟨rfl, hchecked⟩ := replace_kept href hin h
        intro r hr
        rw [openReferences_of_reference? href] at hr
        rw [List.mem_singleton.1 hr]
        exact hcheck ref hopen hin hchecked
    | none =>
      obtain ⟨fs, rfl, hfs⟩ := replace_map href h
      intro r hr
      obtain ⟨f, hf, hr⟩ :=
        (mem_openReferences_map (reference?_eq_none_of_replaced hdirect href hfs)).1 hr
      obtain ⟨e, he, -, hef⟩ := exists_of_forall₂_right hfs hf
      refine ih e he (hdirect.value he) (fun ref hr => hfollow ref ?_) (fun ref hr => hcheck ref ?_)
        hef r hr
      all_goals exact (mem_openReferences_map href).2 ⟨e, he, hr⟩
  | leaf v hv =>
    rw [replace_of_isLeaf hv] at h
    cases h
    rw [openReferences_of_isLeaf hv]
    simp

theorem items_eq_self {xs : List Value} (h : ∀ x ∈ xs, replace follow check x = .ok x) :
    replace.items follow check xs = .ok xs := by
  induction xs with
  | nil => rfl
  | cons x xs ih =>
    have hxs := ih fun y hy => h y (List.mem_cons_of_mem _ hy)
    rw [replace.items, h x List.mem_cons_self, hxs]
    rfl

theorem entries_eq_self {es : Value.Entries} (h : ∀ e ∈ es, replace follow check e.2 = .ok e.2) :
    replace.entries follow check es = .ok es := by
  induction es with
  | nil => rfl
  | cons e es ih =>
    obtain ⟨k, v⟩ := e
    have hv : replace follow check v = .ok v := h (k, v) List.mem_cons_self
    have hes := ih fun e he => h e (List.mem_cons_of_mem _ he)
    rw [replace.entries, hv, hes]
    rfl

/-- Data whose open references are all left alone is left alone. -/
theorem replace_eq_self {v : Value} (h : ∀ ref ∈ openReferences v,
    isInlined ref = false ∧ check ref = .ok ()) : replace follow check v = .ok v := by
  induction v using Value.inductionOn with
  | list xs ih =>
    have hitems : ∀ x ∈ xs, replace follow check x = .ok x := fun x hx =>
      ih x hx fun ref href => h ref (mem_openReferences_list.2 ⟨x, hx, href⟩)
    rw [replace, items_eq_self hitems]
    rfl
  | map es ih =>
    cases href : reference? es with
    | some ref =>
      obtain ⟨hin, hcheck⟩ := h ref (by
        rw [openReferences_of_reference? href]
        exact List.mem_singleton.2 rfl)
      rw [replace, href]
      dsimp only
      rw [if_neg (by simp [hin]), hcheck]
      rfl
    | none =>
      -- Without a reference of its own, the open references of a mapping are those of its values.
      have hentries : ∀ e ∈ es, replace follow check e.2 = .ok e.2 := fun e he =>
        ih e he fun ref hr => h ref ((mem_openReferences_map href).2 ⟨e, he, hr⟩)
      rw [replace, href, entries_eq_self hentries]
      rfl
  | leaf v hv => exact replace_of_isLeaf hv

/-! ## Outcomes of a replacement

    Whether data can be replaced, and by what, is decided at its open references. -/

theorem items_congr {follow' : Text → Except LoadError Value} {xs : List Value}
    (h : ∀ x ∈ xs, replace follow check x = replace follow' check x) :
    replace.items follow check xs = replace.items follow' check xs := by
  induction xs with
  | nil => rfl
  | cons x rest ih =>
    have hrest := ih fun y hy => h y (List.mem_cons_of_mem x hy)
    rw [replace.items, replace.items, h x List.mem_cons_self, hrest]

theorem entries_congr {follow' : Text → Except LoadError Value} {es : Value.Entries}
    (h : ∀ e ∈ es, replace follow check e.2 = replace follow' check e.2) :
    replace.entries follow check es = replace.entries follow' check es := by
  induction es with
  | nil => rfl
  | cons e rest ih =>
    obtain ⟨k, v⟩ := e
    have hv : replace follow check v = replace follow' check v := h (k, v) List.mem_cons_self
    have hrest := ih fun e he => h e (List.mem_cons_of_mem _ he)
    rw [replace.entries, replace.entries, hv, hrest]

/-- Replacements that agree at the open references agree. -/
theorem replace_congr {follow' : Text → Except LoadError Value} {v : Value}
    (h : ∀ ref ∈ openReferences v, isInlined ref = true → follow ref = follow' ref) :
    replace follow check v = replace follow' check v := by
  induction v using Value.inductionOn with
  | list xs ih =>
    have hitems : ∀ x ∈ xs, replace follow check x = replace follow' check x := fun x hx =>
      ih x hx fun ref href => h ref (mem_openReferences_list.2 ⟨x, hx, href⟩)
    rw [replace, replace, items_congr hitems]
  | map es ih =>
    rw [replace, replace]
    cases href : reference? es with
    | some ref =>
      have hopen : ref ∈ openReferences (.map es) := by
        rw [openReferences_of_reference? href]
        exact List.mem_singleton_self ref
      by_cases hin : isInlined ref = true
      · dsimp only
        rw [if_pos hin, if_pos hin, h ref hopen hin]
      · dsimp only
        rw [if_neg hin, if_neg hin]
    | none =>
      have hentries : ∀ e ∈ es, replace follow check e.2 = replace follow' check e.2 := fun e he =>
        ih e he fun ref hr => h ref ((mem_openReferences_map href).2 ⟨e, he, hr⟩)
      dsimp only
      rw [entries_congr hentries]
  | leaf v hv => rw [replace_of_isLeaf hv, replace_of_isLeaf hv]

/-- Where data has been replaced, so has each of its open references. -/
theorem exists_follow_of_replace {v w : Value} (h : replace follow check v = .ok w) {ref : Text}
    (href : ref ∈ openReferences v) (hin : isInlined ref = true) : ∃ t, follow ref = .ok t := by
  induction v using Value.inductionOn generalizing w with
  | list xs ih =>
    obtain ⟨x, hx, href⟩ := mem_openReferences_list.1 href
    obtain ⟨ys, -, hys⟩ := replace_list h
    obtain ⟨y, hy⟩ := exists_of_forall₂_left hys hx
    exact ih x hx hy href
  | map es ih =>
    cases hown : reference? es with
    | some ref' =>
      rw [openReferences_of_reference? hown, List.mem_singleton] at href
      subst href
      exact ⟨w, (replace_inlined hown hin).symm.trans h⟩
    | none =>
      obtain ⟨e, he, href⟩ := (mem_openReferences_map hown).1 href
      obtain ⟨fs, -, hfs⟩ := replace_map hown h
      obtain ⟨f, -, hf⟩ := exists_of_forall₂_left hfs he
      exact ih e he hf href
  | leaf v hv =>
    rw [openReferences_of_isLeaf hv] at href
    cases href

theorem exists_of_items_eq_error {xs : List Value} {err : LoadError}
    (h : replace.items follow check xs = .error err) :
    ∃ x ∈ xs, replace follow check x = .error err := by
  induction xs with
  | nil => cases h
  | cons x rest ih =>
    rw [replace.items] at h
    rcases bind_eq_error.1 h with h | ⟨_, -, h⟩
    · exact ⟨x, List.mem_cons_self, h⟩
    · rcases bind_eq_error.1 h with h | ⟨_, -, h⟩
      · obtain ⟨y, hy, h⟩ := ih h
        exact ⟨y, List.mem_cons_of_mem x hy, h⟩
      · cases h

theorem exists_of_entries_eq_error {es : Value.Entries} {err : LoadError}
    (h : replace.entries follow check es = .error err) :
    ∃ e ∈ es, replace follow check e.2 = .error err := by
  induction es with
  | nil => cases h
  | cons e rest ih =>
    obtain ⟨k, v⟩ := e
    rw [replace.entries] at h
    rcases bind_eq_error.1 h with h | ⟨_, -, h⟩
    · exact ⟨(k, v), List.mem_cons_self, h⟩
    · rcases bind_eq_error.1 h with h | ⟨_, -, h⟩
      · obtain ⟨e, he, h⟩ := ih h
        exact ⟨e, List.mem_cons_of_mem _ he, h⟩
      · cases h

/-- Where data cannot be replaced, one of its open references cannot, or leads nowhere. -/
theorem exists_of_replace_eq_error {v : Value} {err : LoadError}
    (h : replace follow check v = .error err) :
    ∃ ref ∈ openReferences v, (isInlined ref = true ∧ follow ref = .error err) ∨
      (isInlined ref = false ∧ check ref = .error err) := by
  induction v using Value.inductionOn with
  | list xs ih =>
    rw [replace] at h
    -- What fails is a value in the list, as putting it together cannot.
    rcases bind_eq_error.1 h with h | ⟨_, -, h⟩
    · obtain ⟨x, hx, h⟩ := exists_of_items_eq_error h
      obtain ⟨ref, href, h⟩ := ih x hx h
      exact ⟨ref, mem_openReferences_list.2 ⟨x, hx, href⟩, h⟩
    · cases h
  | map es ih =>
    cases hown : reference? es with
    | some ref =>
      refine ⟨ref, by rw [openReferences_of_reference? hown]; exact List.mem_singleton_self ref, ?_⟩
      cases hin : isInlined ref with
      | true => exact Or.inl ⟨rfl, (replace_inlined hown hin).symm.trans h⟩
      | false =>
        rw [replace, hown] at h
        dsimp only at h
        rw [if_neg (by simp [hin])] at h
        rcases bind_eq_error.1 h with h | ⟨_, -, h⟩
        · exact Or.inr ⟨rfl, h⟩
        · cases h
    | none =>
      rw [replace, hown] at h
      rcases bind_eq_error.1 h with h | ⟨_, -, h⟩
      · obtain ⟨e, he, h⟩ := exists_of_entries_eq_error h
        obtain ⟨ref, href, h⟩ := ih e he h
        exact ⟨ref, (mem_openReferences_map hown).2 ⟨e, he, href⟩, h⟩
      · cases h
  | leaf v hv =>
    rw [replace_of_isLeaf hv] at h
    cases h

end IdlBridge.Spec
