import IdlBridge.Proofs.Spec.Inlining
import IdlBridge.Proofs.Value.Loaded
import IdlBridge.Proofs.Text

/-! # Inlined documents

    What the loader leaves of the references of a document.  Only the path items change, and all
    replacements come from the components, which do not; so what has been checked while the paths
    were being rewritten still holds of the finished document, and a second run finds nothing to
    replace.
-/

namespace IdlBridge.Spec

/-! ## Pointers into the components -/

/-- The key of the components of a document. -/
def componentsKey : Text := "components"

/-- The key of the paths of a document. -/
def pathsKey : Text := "paths"

/-- What references into the components start with. -/
def componentsLead : Text := "#/components/"

theorem unescape_componentsKey : Pointer.unescape componentsKey = componentsKey := by
  decide

theorem splitOn_lead (rest : Text) :
    Text.splitOn '/' (Pointer.lead ++ rest) = ("#" : Text) :: Text.splitOn '/' rest := by
  have hroot : ('/' : CodePoint) ∉ ("#" : Text) := by decide
  exact List.splitOn_append_cons_self_of_not_mem hroot rest

theorem exists_append_of_startsWith {t p : Text} (h : Text.startsWith t p = true) :
    ∃ rest, t = p ++ rest := by
  obtain ⟨rest, hrest⟩ := List.isPrefixOf_iff_prefix.1 h
  exact ⟨rest, hrest.symm⟩

/-- The keys of a pointer are its parts behind the first one. -/
theorem keys_append_lead (rest : Text) :
    Pointer.keys (Pointer.lead ++ rest) = (Text.splitOn '/' rest).map Pointer.unescape := by
  unfold Pointer.keys
  rw [List.drop_left]

theorem keys_of_componentsLead {ref : Text} (h : Text.startsWith ref componentsLead = true) :
    Text.startsWith ref Pointer.lead = true ∧ ∃ keys, Pointer.keys ref = componentsKey :: keys := by
  obtain ⟨rest, rfl⟩ := exists_append_of_startsWith h
  refine ⟨rfl, (Text.splitOn '/' rest).map Pointer.unescape, ?_⟩
  have hlead : componentsLead ++ rest =
    Pointer.lead ++ (componentsKey ++ ('/' : CodePoint) :: rest) := rfl
  have hcomponents : ('/' : CodePoint) ∉ componentsKey := by decide
  rw [hlead, keys_append_lead, Text.splitOn,
    List.splitOn_append_cons_self_of_not_mem hcomponents, List.map_cons, unescape_componentsKey]
  rfl

/-- Documents with the same components agree on the references into them. -/
theorem checkPointer_congr {doc doc' : Value} {ref : Text}
    (h : Text.startsWith ref componentsLead = true)
    (hcomponents : doc.get? componentsKey = doc'.get? componentsKey) :
    checkPointer doc ref = checkPointer doc' ref := by
  obtain ⟨hlead, keys, hkeys⟩ := keys_of_componentsLead h
  unfold checkPointer Pointer.resolve
  rw [if_pos hlead, if_pos hlead, hkeys, Pointer.follow, Pointer.follow, hcomponents]

/-- A replaced reference leads into the components. -/
theorem keys_of_isInlined {ref : Text} (hin : isInlined ref = true)
    (hlead : Text.startsWith ref Pointer.lead = true) :
    ∃ keys, Pointer.keys ref = componentsKey :: keys := by
  obtain ⟨rest, rfl⟩ := exists_append_of_startsWith hlead
  unfold isInlined Pointer.section? at hin
  rw [splitOn_lead] at hin
  split at hin
  · next name hname =>
    split at hname
    · next root top name' parts hparts =>
      injection hparts with hroot hrest
      split at hname
      · next hkeys =>
        rw [keys_append_lead, hrest, List.map_cons, hkeys.2]
        exact ⟨_, rfl⟩
      · cases hname
    · cases hname
  · cases hin

/-- What a replaced reference leads to lies in the components. -/
theorem exists_follow_of_isInlined {doc target : Value} {ref : Text} (hin : isInlined ref = true)
    (h : Pointer.resolve doc ref = .ok target) :
    ∃ c keys, doc.get? componentsKey = some c ∧ Pointer.follow c keys = some target := by
  unfold Pointer.resolve at h
  split at h
  · next hlead =>
    obtain ⟨keys, hkeys⟩ := keys_of_isInlined hin hlead
    split at h
    · next target' hfollow =>
      cases h
      rw [hkeys] at hfollow
      obtain ⟨c, hc, hfollow⟩ := follow_cons hfollow
      exact ⟨c, keys, hc, hfollow⟩
    · cases h
  · cases h

/-- Documents with the same components agree on the references that are replaced. -/
theorem resolve_congr {doc doc' : Value} {ref : Text} (hin : isInlined ref = true)
    (hcomponents : doc.get? componentsKey = doc'.get? componentsKey) :
    Pointer.resolve doc ref = Pointer.resolve doc' ref := by
  unfold Pointer.resolve
  by_cases hlead : Text.startsWith ref Pointer.lead = true
  · obtain ⟨keys, hkeys⟩ := keys_of_isInlined hin hlead
    rw [hkeys, Pointer.follow, Pointer.follow, hcomponents]
  · rw [if_neg hlead, if_neg hlead]

/-- The reference leads to a text, directly or through further references that are replaced. -/
inductive EndsInText (doc : Value) : Text → Prop where
  | text {ref t : Text} : isInlined ref = true → Pointer.resolve doc ref = .ok (.text t) →
      EndsInText doc ref
  | next {ref ref' : Text} {es : Value.Entries} : isInlined ref = true →
      Pointer.resolve doc ref = .ok (.map es) → reference? es = some ref' →
      EndsInText doc ref' → EndsInText doc ref

theorem EndsInText.congr {doc doc' : Value} {ref : Text} (h : EndsInText doc ref)
    (hcomponents : doc.get? componentsKey = doc'.get? componentsKey) : EndsInText doc' ref := by
  induction h with
  | text hin hresolve => exact .text hin ((resolve_congr hin hcomponents).symm.trans hresolve)
  | next hin hresolve href _ ih =>
    exact .next hin ((resolve_congr hin hcomponents).symm.trans hresolve) href ih

/-! ## Inlining a value -/

/-- The loader leaves the reference alone: it is not replaced, and it leads somewhere. -/
def Kept (doc : Value) (ref : Text) : Prop :=
  isInlined ref = false ∧ checkPointer doc ref = .ok ()

/-- The replacement of a reference inside the replacements of the `active` ones. -/
def followed (doc : Value) (bound : Nat) (active : List Text) (ref : Text) :
    Except LoadError Value :=
  match bound with
  | 0 => .error (.circular ref)
  | bound + 1 =>
    if ref ∈ active then .error (.circular ref)
    else
      match Pointer.resolve doc ref with
      | .ok target => inline doc bound (ref :: active) target
      | .error e => .error (.pointer e)

theorem inline_eq_replace (doc : Value) (bound : Nat) (active : List Text) (v : Value) :
    inline doc bound active v = replace (followed doc bound active) (checkPointer doc) v := by
  cases bound <;> rfl

theorem followed_eq_ok {doc w : Value} {bound : Nat} {active : List Text} {ref : Text}
    (h : followed doc bound active ref = .ok w) :
    ∃ smaller target, bound = smaller + 1 ∧ Pointer.resolve doc ref = .ok target ∧
      inline doc smaller (ref :: active) target = .ok w := by
  unfold followed at h
  split at h
  · cases h
  · next smaller =>
    split at h
    · cases h
    · split at h
      · next target htarget => exact ⟨smaller, target, rfl, htarget, h⟩
      · cases h

/-- A reference that is replaced by a text ends in a text. -/
theorem endsInText_of_vanishes {doc : Value} {bound : Nat} {active : List Text} {ref : Text}
    (h : Vanishes (followed doc bound active) ref) : EndsInText doc ref := by
  induction bound using Nat.strongRecOn generalizing active ref with
  | ind bound ih =>
    obtain ⟨hin, t, h⟩ := h
    obtain ⟨smaller, target, rfl, htarget, h⟩ := followed_eq_ok h
    rw [inline_eq_replace] at h
    rcases text_of_replace h with rfl | ⟨es, ref', rfl, href, hin', hfollow⟩
    · exact .text hin htarget
    · exact .next hin htarget href (ih smaller (Nat.lt_succ_self _) ⟨hin', t, hfollow⟩)

/-- The open references of inlined data are left alone, and they are references of the data itself
    or of the components. -/
theorem openReferences_inline {O : Text → Prop} {doc : Value}
    (hdirect : ∀ c, doc.get? componentsKey = some c → Direct (EndsInText doc) c)
    (horigin : ∀ c, doc.get? componentsKey = some c → ∀ ref ∈ references c, O ref)
    (bound : Nat) (active : List Text) {v w : Value} (hv : Direct (EndsInText doc) v)
    (hO : ∀ ref ∈ references v, O ref) (h : inline doc bound active v = .ok w) :
    ∀ ref ∈ openReferences w, Kept doc ref ∧ O ref := by
  induction bound using Nat.strongRecOn generalizing active v w with
  | ind bound ih =>
    rw [inline_eq_replace] at h
    refine openReferences_replace (hv.mono fun _ => endsInText_of_vanishes)
      (fun ref _ hin t ht => ?_) (fun ref hr hin hcheck => ?_) h
    · -- What a reference is replaced by lies in the components, and is inlined in turn.
      obtain ⟨smaller, target, rfl, htarget, ht⟩ := followed_eq_ok ht
      obtain ⟨c, keys, hc, hfollow⟩ := exists_follow_of_isInlined hin htarget
      exact ih smaller (Nat.lt_succ_self _) _
        ((hdirect c hc).of_subset (mappings_follow_subset hfollow))
        (fun r hr => horigin c hc r (references_follow_subset hfollow hr)) ht
    · exact ⟨⟨hin, hcheck⟩, hO ref (openReferences_subset v hr)⟩

/-- Data whose open references are all left alone is inlined already. -/
theorem inline_eq_self {doc v : Value} (h : ∀ ref ∈ openReferences v, Kept doc ref) (bound : Nat)
    (active : List Text) : inline doc bound active v = .ok v := by
  rw [inline_eq_replace]
  exact replace_eq_self h

/-! ## Inlining the paths -/

open Value.Entries (Proper SameBut)

theorem setPath_eq {doc paths : Value.Entries} (h : doc.get? (.text pathsKey) = some (.map paths))
    (path item : Value) :
    setPath [] doc path item =
      doc.insert (.text pathsKey) (.map (Value.Entries.insert paths path item)) := by
  have hget : doc.get? (.text ("paths" : Text)) = some (.map paths) := h
  unfold setPath
  rw [hget]
  rfl

/-- One path item after the other is inlined into a document that differs from the first one only in
    its paths.  `done` are the items that have been inlined, `rest` those that still wait. -/
theorem inlinePaths_spec {Q : Value → Prop} {start : Value.Entries} {bound : Nat}
    {rest : List (Value × Value)}
    (hrest : ∀ e ∈ rest, ∀ doc w, SameBut pathsKey start doc →
      inline (.map doc) bound [] e.2 = .ok w → Q w)
    (done : List (Value × Value)) (hdone : ∀ e ∈ done, Q e.2) {doc out : Value.Entries}
    (hsame : SameBut pathsKey start doc)
    (hpaths : doc.get? (.text pathsKey) = some (.map (done ++ rest)))
    (hproper : Proper (done ++ rest)) (h : inlinePaths [] bound rest doc = .ok out) :
    SameBut pathsKey start out ∧ ∃ paths, out.get? (.text pathsKey) = some (.map paths) ∧
      Proper paths ∧ ∀ e ∈ paths, Q e.2 := by
  induction rest generalizing done doc with
  | nil =>
    cases h
    rw [List.append_nil] at hpaths hproper
    exact ⟨hsame, done, hpaths, hproper, hdone⟩
  | cons e rest ih =>
    obtain ⟨path, item⟩ := e
    unfold inlinePaths at h
    split at h
    · next es =>
      obtain ⟨item', hitem, h⟩ := bind_eq_ok.1 h
      have hset := setPath_eq hpaths path item'
      rw [Value.Entries.insert_append hproper] at hset
      rw [hset] at h
      have hkeys : (done ++ (path, item') :: rest).map (·.1) =
          (done ++ (path, .map es) :: rest).map (·.1) := by
        simp
      -- The item takes the place of the first one that waits, and the keys stay as they are.
      refine ih (fun e he => hrest e (List.mem_cons_of_mem _ he)) (done ++ [(path, item')])
        (fun e he => ?_)
        (hsame.trans (Value.Entries.sameBut_insert hpaths _)) ?_ ?_ h
      · rcases List.mem_append.1 he with he | he
        · exact hdone e he
        · rw [List.mem_singleton.1 he]
          exact hrest (path, .map es) List.mem_cons_self doc item' hsame hitem
      · rw [Value.Entries.get?_insert_text, List.append_assoc]
        rfl
      · rw [List.append_assoc]
        exact ⟨hkeys ▸ hproper.apart, hkeys ▸ hproper.found⟩
    · split at h <;> cases h

/-- Items that are inlined already are left alone. -/
theorem inlinePaths_eq_self {doc paths rest : Value.Entries} {bound : Nat}
    (hpaths : doc.get? (.text pathsKey) = some (.map paths)) (hproper : Proper paths)
    (hsub : rest ⊆ paths) (hmap : ∀ e ∈ rest, ∃ es, e.2 = .map es)
    (hkept : ∀ e ∈ rest, ∀ ref ∈ openReferences e.2, Kept (.map doc) ref) :
    inlinePaths [] bound rest doc = .ok doc := by
  induction rest with
  | nil => rfl
  | cons e rest ih =>
    obtain ⟨path, item⟩ := e
    obtain ⟨es, rfl⟩ : ∃ es, item = .map es := hmap (path, item) List.mem_cons_self
    have hself : inline (.map doc) bound [] (.map es) = .ok (.map es) :=
      inline_eq_self (hkept (path, .map es) List.mem_cons_self) bound []
    -- Setting the item that is there already changes nothing.
    have hset : setPath [] doc path (.map es) = doc := by
      rw [setPath_eq hpaths, Value.Entries.insert_self hproper (hsub List.mem_cons_self),
        Value.Entries.insert_of_get? hpaths]
    rw [inlinePaths, hself]
    show inlinePaths [] bound rest (setPath [] doc path (.map es)) = .ok doc
    rw [hset]
    exact ih (fun e he => hsub (List.mem_cons_of_mem _ he))
      (fun e he => hmap e (List.mem_cons_of_mem _ he))
      (fun e he => hkept e (List.mem_cons_of_mem _ he))

/-! ## Whole documents -/

/-- None of the mappings of the document has as its own `$ref` a reference that ends in a text. -/
def IsDirect (doc : Value.Entries) : Prop :=
  Direct (EndsInText (.map doc)) (.map doc)

/-- What is true of a loaded document `out`, `doc` being the document that was read. -/
structure Inlined (doc out : Value.Entries) : Prop where
  /-- Outside the paths nothing has changed. -/
  outside : SameBut pathsKey doc out
  /-- All references inside the components lead somewhere. -/
  components : ∀ ref ∈ references (.map (sectionEntries out componentsKey)),
    ∃ v, Pointer.resolve (.map out) ref = .ok v
  /-- No open reference of a path item would be replaced. -/
  kept : IsDirect doc → ∀ e ∈ sectionEntries out pathsKey, ∀ ref ∈ openReferences e.2,
    isInlined ref = false
  /-- The open references of the path items that lead into the components lead somewhere. -/
  resolved : IsDirect doc → ∀ e ∈ sectionEntries out pathsKey, ∀ ref ∈ openReferences e.2,
    Text.startsWith ref componentsLead = true → ∃ v, Pointer.resolve (.map out) ref = .ok v
  /-- Inlining once more changes nothing. -/
  again : IsDirect doc →
    (∀ ref ∈ references (.map doc), Text.startsWith ref componentsLead = true) →
    (∀ e ∈ sectionEntries out pathsKey, ∃ es, e.2 = .map es) → inlineReferences out = .ok out

theorem exists_resolve_of_checkPointer {doc : Value} {ref : Text}
    (h : checkPointer doc ref = .ok ()) : ∃ v, Pointer.resolve doc ref = .ok v := by
  unfold checkPointer at h
  split at h
  · next v hv => exact ⟨v, hv⟩
  · cases h

theorem checkReferences_eq_ok {check : Text → Except LoadError Unit} {v : Value} :
    checkReferences check v = .ok () ↔ ∀ ref ∈ references v, check ref = .ok () := by
  show (references v).forM check = .ok () ↔ _
  generalize references v = refs
  induction refs with
  | nil =>
    show (Except.ok () : Except LoadError Unit) = .ok () ↔ _
    simp
  | cons ref rest ih =>
    show (check ref >>= fun _ => rest.forM check) = .ok () ↔ _
    rw [bind_eq_ok, List.forall_mem_cons, ← ih]
    constructor
    · rintro ⟨_, hcheck, hrest⟩
      exact ⟨hcheck, hrest⟩
    · rintro ⟨hcheck, hrest⟩
      exact ⟨(), hcheck, hrest⟩

theorem sectionEntries_of_get? {doc es : Value.Entries} {key : Text}
    (h : doc.get? (.text key) = some (.map es)) : sectionEntries doc key = es := by
  unfold sectionEntries
  rw [h]

/-- A section without a mapping has no entries. -/
theorem get?_or_sectionEntries_eq_nil (doc : Value.Entries) (key : Text) :
    doc.get? (.text key) = some (.map (sectionEntries doc key)) ∨ sectionEntries doc key = [] := by
  unfold sectionEntries
  split
  · next es hes => exact Or.inl hes
  · exact Or.inr rfl

/-- What is left of the references of a path item that is inlined into a document in which other
    path items may have been inlined before. -/
theorem openReferences_pathItem {doc doc' paths : Value.Entries} {e : Value × Value} {w : Value}
    {bound : Nat} (hdirect : IsDirect doc)
    (hpaths : doc.get? (.text pathsKey) = some (.map paths)) (he : e ∈ paths)
    (hsame : SameBut pathsKey doc doc') (h : inline (.map doc') bound [] e.2 = .ok w) :
    ∀ ref ∈ openReferences w, isInlined ref = false ∧ ref ∈ references (.map doc) ∧
      (Text.startsWith ref componentsLead = true → checkPointer (.map doc) ref = .ok ()) := by
  -- References lead into the components, and these are the same in both documents.
  have hcomponents : (Value.map doc').get? componentsKey = (Value.map doc).get? componentsKey :=
    (hsame.get?_eq (by decide)).symm
  have hmem : ∀ c, (Value.map doc').get? componentsKey = some c →
      (.text componentsKey, c) ∈ doc := fun c hc =>
    Value.Entries.mem_of_get? (hcomponents ▸ hc : (Value.map doc).get? componentsKey = some c)
  have hpath := Value.Entries.mem_of_get? hpaths
  have hends : ∀ ref, EndsInText (.map doc') ref → EndsInText (.map doc) ref := fun _ h =>
    h.congr hcomponents
  have hinside : ∀ c, (Value.map doc').get? componentsKey = some c →
      ∀ ref ∈ references c, ref ∈ references (.map doc) := fun c hc ref href =>
    mem_references_map.2 (Or.inr ⟨_, hmem c hc, href⟩)
  have hitem : ∀ ref ∈ references e.2, ref ∈ references (.map doc) := fun ref href =>
    mem_references_map.2 (Or.inr ⟨_, hpath, mem_references_map.2 (Or.inr ⟨e, he, href⟩)⟩)
  intro ref href
  obtain ⟨⟨hin, hcheck⟩, horigin⟩ :=
    openReferences_inline (fun c hc => (hdirect.value (hmem c hc)).mono hends) hinside bound []
      (((hdirect.value hpath).value he).mono hends) hitem h ref href
  exact ⟨hin, horigin, fun hlead => (checkPointer_congr hlead hcomponents).symm.trans hcheck⟩

/-- Inlining the paths leaves the rest of the document alone, and the path items come to what they
    are inlined as, one after the other. -/
theorem inlinePaths_document {Q : Value → Prop} {doc out : Value.Entries} {bound : Nat}
    (hproper : Proper (sectionEntries doc pathsKey))
    (hitem : ∀ paths, doc.get? (.text pathsKey) = some (.map paths) → ∀ e ∈ paths, ∀ doc' w,
      SameBut pathsKey doc doc' → inline (.map doc') bound [] e.2 = .ok w → Q w)
    (h : inlinePaths [] bound (sectionEntries doc pathsKey) doc = .ok out) :
    SameBut pathsKey doc out ∧ Proper (sectionEntries out pathsKey) ∧
      ∀ e ∈ sectionEntries out pathsKey, Q e.2 := by
  rcases get?_or_sectionEntries_eq_nil doc pathsKey with hpaths | hnil
  · generalize sectionEntries doc pathsKey = paths at hpaths hproper h
    obtain ⟨hsame, paths', hpaths', hproper', hkept⟩ :=
      inlinePaths_spec (hitem paths hpaths) [] (by simp) (SameBut.refl pathsKey doc) hpaths
        hproper h
    rw [sectionEntries_of_get? hpaths']
    exact ⟨hsame, hproper', hkept⟩
  · rw [hnil] at h
    cases h
    rw [hnil]
    exact ⟨SameBut.refl pathsKey doc, ⟨.nil, by simp⟩, by simp⟩

/-- Of the open references of the path items only those are left that the loader leaves alone. -/
theorem openReferences_document {doc out : Value.Entries}
    (hproper : Proper (sectionEntries doc pathsKey)) (hdirect : IsDirect doc) {bound : Nat}
    (h : inlinePaths [] bound (sectionEntries doc pathsKey) doc = .ok out) :
    ∀ e ∈ sectionEntries out pathsKey, ∀ ref ∈ openReferences e.2,
      isInlined ref = false ∧ ref ∈ references (.map doc) ∧
        (Text.startsWith ref componentsLead = true → checkPointer (.map out) ref = .ok ()) := by
  obtain ⟨hsame, -, hkept⟩ := inlinePaths_document hproper
    (fun _ hpaths _ he _ _ hsame hw => openReferences_pathItem hdirect hpaths he hsame hw) h
  intro e he ref href
  obtain ⟨hin, horigin, hcheck⟩ := hkept e he ref href
  refine ⟨hin, horigin, fun hlead => ?_⟩
  -- What resolves in the document that was read resolves in the one that is loaded.
  have hcomponents : (Value.map doc).get? componentsKey = (Value.map out).get? componentsKey :=
    hsame.get?_eq (by decide)
  exact (checkPointer_congr hlead hcomponents).symm.trans (hcheck hlead)

/-- A document that has been loaded is inlined, as long as the mapping of its paths lies nowhere
    else in it.  That its paths give no key twice is so of all data that is read
    (`Yaml.keyed_of_read`). -/
theorem inlined_of_inlineReferences {m : Option Mark} {es : Value.Entries Loaded}
    {doc out : Value.Entries} (hdoc : es.mapValues Loaded.plain = doc)
    (hproper : Proper (sectionEntries doc pathsKey)) (hplaces : otherPlaces (.map m es) = [])
    (h : inlineReferences (es.mapValues Loaded.plain) (otherPlaces (.map m es)) = .ok out) :
    Inlined doc out := by
  rw [hplaces, hdoc] at h
  obtain ⟨out', hpaths, h⟩ := bind_eq_ok.1 h
  obtain ⟨_, hcheck, h⟩ := bind_eq_ok.1 h
  cases pure_eq_ok.1 h
  obtain ⟨hsame, hproper', -⟩ :=
    inlinePaths_document (Q := fun _ => True) hproper (fun _ _ _ _ _ _ _ _ => trivial) hpaths
  refine ⟨hsame, fun ref href => ?_, fun hdirect e he ref href => ?_,
    fun hdirect e he ref href hlead => ?_, fun hdirect hlead hmap => ?_⟩
  · exact exists_resolve_of_checkPointer (checkReferences_eq_ok.1 hcheck ref href)
  · exact (openReferences_document hproper hdirect hpaths e he ref href).1
  · exact exists_resolve_of_checkPointer
      ((openReferences_document hproper hdirect hpaths e he ref href).2.2 hlead)
  · -- All references of the input lead into the components, so the ones that are left resolve.
    have hagain : inlinePaths [] (references (.map out)).length (sectionEntries out pathsKey) out =
        .ok out := by
      rcases get?_or_sectionEntries_eq_nil out pathsKey with hpaths' | hnil
      · refine inlinePaths_eq_self hpaths' hproper' (List.Subset.refl _) hmap
          fun e he ref href => ?_
        obtain ⟨hin, horigin, hresolves⟩ :=
          openReferences_document hproper hdirect hpaths e he ref href
        exact ⟨hin, hresolves (hlead ref horigin)⟩
      · rw [hnil]
        rfl
    exact bind_eq_ok.2 ⟨out, hagain, bind_eq_ok.2 ⟨(), hcheck, rfl⟩⟩

/-- A document with a parameter that is replaced and a schema that is not. -/
def listingDocument : Value.Entries :=
  [(.text "paths", .map [(.text "/pets", .map [
      (.text "parameters", .list [.map [(.text "$ref", .text "#/components/parameters/Limit")]]),
      (.text "schema", .map [(.text "$ref", .text "#/components/schemas/Pet")])])]),
    (.text "components", .map [
      (.text "parameters", .map [(.text "Limit", .map [(.text "in", .text "query")])]),
      (.text "schemas", .map [(.text "Pet", .map [(.text "type", .text "object")])])])]

/-- The document as it is loaded. -/
def loadedListing : Value.Entries :=
  listingDocument.insert (.text "paths") (.map [(.text "/pets", .map [
    (.text "parameters", .list [.map [(.text "in", .text "query")]]),
    (.text "schema", .map [(.text "$ref", .text "#/components/schemas/Pet")])])])

theorem inlined_loadedListing :
    (listingDocument.mapValues Loaded.ofValue).mapValues Loaded.plain = listingDocument ∧
      Proper (sectionEntries listingDocument pathsKey) ∧ IsDirect listingDocument ∧
      otherPlaces (.map none (listingDocument.mapValues Loaded.ofValue)) = [] ∧
      inlineReferences ((listingDocument.mapValues Loaded.ofValue).mapValues Loaded.plain)
        (otherPlaces (.map none (listingDocument.mapValues Loaded.ofValue))) = .ok loadedListing ∧
      Inlined listingDocument loadedListing := by
  have hproper : Proper (sectionEntries listingDocument pathsKey) := by
    constructor <;> decide
  have hnested : ∀ es ∈ mappings (.map listingDocument), nestedReference? es = none := by
    decide
  have hdirect : IsDirect listingDocument := by
    intro es hes ref href
    rw [hnested es hes] at href
    cases href
  exact ⟨rfl, hproper, hdirect, rfl, rfl, @inlined_of_inlineReferences none
    (listingDocument.mapValues Loaded.ofValue) _ _ rfl hproper rfl rfl⟩

/-! ## What is left of other references

    A reference to a text that stands where a mapping has its own `$ref` makes a new reference, and
    the entries of an ordered mapping are not looked into. -/

/-- A path item whose own `$ref` is a reference to a text. -/
def nestedDocument : Value.Entries :=
  [(.text "paths", .map [(.text "/pets", .map [(.text "get", .map [(.text "$ref",
      .map [(.text "$ref", .text "#/components/parameters/Name")])])])]),
    (.text "components", .map [(.text "parameters", .map [
      (.text "Name", .text "#/components/parameters/Limit"),
      (.text "Limit", .map [(.text "in", .text "query")])])])]

/-- A path item with a reference in an ordered mapping. -/
def orderedDocument : Value.Entries :=
  [(.text "paths", .map [(.text "/pets", .map [(.text "get", .list [.pair (.text "limit")
      (.map [(.text "$ref", .text "#/components/parameters/Limit")])])])]),
    (.text "components", .map [(.text "parameters", .map [
      (.text "Limit", .map [(.text "in", .text "query")])])])]

/-- A document whose paths lie at another key as well. -/
def routesDocument : Loaded :=
  .map none [(.text "paths", routes), (.text "x-routes", routes),
    (.text "components", .ofValue (.map [(.text "parameters", .map [
      (.text "Limit", .map [(.text "in", .text "query")])])]))]
where
  /-- The paths with their mark. -/
  routes : Loaded :=
    .map (some ⟨0, "routes", []⟩) [(.text "/pets", .ofValue (.map [(.text "get",
      .map [(.text "$ref", .text "#/components/parameters/Limit")])]))]

/-- The documents are loaded, the first one with a new reference to a parameter, the second one as
    it is, and the third one with other data under a key outside its paths. -/
theorem references_left_in_paths :
    inlineReferences nestedDocument = .ok (nestedDocument.insert (.text "paths")
        (.map [(.text "/pets", .map [(.text "get", .map [(.text "$ref",
          .text "#/components/parameters/Limit")])])])) ∧
      inlineReferences orderedDocument = .ok orderedDocument ∧
      isInlined "#/components/parameters/Limit" = true ∧
      ∃ doc out : Value.Entries, routesDocument.plain = .map doc ∧
        inlineReferences doc (otherPlaces routesDocument) = .ok out ∧
        doc.get? (.text "x-routes") = some (.map [(.text "/pets", .map [(.text "get",
          .map [(.text "$ref", .text "#/components/parameters/Limit")])])]) ∧
        out.get? (.text "x-routes") = some (.map [(.text "/pets", .map [(.text "get",
          .map [(.text "in", .text "query")])])]) := by
  refine ⟨rfl, rfl, rfl, _, _, rfl, rfl, rfl, rfl⟩

end IdlBridge.Spec
