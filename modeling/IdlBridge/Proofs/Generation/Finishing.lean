import IdlBridge.Proofs.Generation.Components
import IdlBridge.Proofs.OpenApi.Alike

/-! # Finishing documents

    Before it is finished, a document has its tags and its paths in the order in which services and
    methods have been visited.  Nothing of that order is left when the document has been finished:
    a server is moved up only where all agree on it, a tag speaks for the document only if it is
    the only one, and tags, paths and components are sorted.
-/

namespace IdlBridge.Generation

open OpenApi Object

variable {doc doc' : Object}

/-- The documents differ in the order of their tags and paths only.  No two tags have the same
    name, and no two paths are the same. -/
structure SameButOrder (doc doc' : Object) : Prop where
  kind : doc'.kind = doc.kind
  extras : doc'.extras = doc.extras
  given : ∀ m, m ≠ .tags → m ≠ .paths → doc'.given? m = doc.given? m
  tags : (doc.objects .tags).Perm (doc'.objects .tags)
  tagNames : ((doc.objects .tags).map fun tag => tag.text .name).Nodup
  paths : Paired SameEntry (doc.table .paths) (doc'.table .paths)
  pathKeys : (doc.table .paths).keys.Nodup

/-! ## Setting members -/

theorem objects_set_self (o : Object) (m : Member) (os : List Object) :
    (o.set m (.objects os)).objects m = os := by
  simp [objects]

theorem objects_set_of_ne {m m' : Member} (h : m ≠ m') (o : Object) (c : Slot) :
    (o.set m c).objects m' = o.objects m' := by
  simp [objects, h]

theorem given?_set_congr (h : ∀ m, m ≠ .tags → m ≠ .paths → doc'.given? m = doc.given? m)
    (m : Member) {c c' : Slot} (hc : m ≠ .tags → m ≠ .paths → c' = c) :
    ∀ m', m' ≠ .tags → m' ≠ .paths → (doc'.set m c').given? m' = (doc.set m c).given? m' := by
  intro m' htags hpaths
  rw [given?_set, given?_set]
  split
  · next hm =>
    subst hm
    rw [hc htags hpaths]
  · exact h m' htags hpaths

namespace SameButOrder

theorem get (h : SameButOrder doc doc') {m : Member} (htags : m ≠ .tags) (hpaths : m ≠ .paths) :
    doc'.get m = doc.get m := by
  unfold Object.get
  rw [h.given m htags hpaths, h.kind]

theorem set (h : SameButOrder doc doc') {m : Member} (htags : m ≠ .tags) (hpaths : m ≠ .paths)
    (c : Slot) : SameButOrder (doc.set m c) (doc'.set m c) where
  kind := h.kind
  extras := h.extras
  given := given?_set_congr h.given m fun _ _ => rfl
  tags := by
    rw [objects_set_of_ne htags, objects_set_of_ne htags]
    exact h.tags
  tagNames := by
    rw [objects_set_of_ne htags]
    exact h.tagNames
  paths := by
    rw [table_set_of_ne hpaths, table_set_of_ne hpaths]
    exact h.paths
  pathKeys := by
    rw [table_set_of_ne hpaths]
    exact h.pathKeys

theorem setTag (h : SameButOrder doc doc') (tag : Object) :
    SameButOrder (doc.set .tags (.objects [tag])) (doc'.set .tags (.objects [tag])) where
  kind := h.kind
  extras := h.extras
  given := given?_set_congr h.given .tags fun _ _ => rfl
  tags := by
    rw [objects_set_self, objects_set_self]
  tagNames := by
    rw [objects_set_self]
    exact List.nodup_singleton _
  paths := by
    rw [table_set_of_ne (by decide), table_set_of_ne (by decide)]
    exact h.paths
  pathKeys := by
    rw [table_set_of_ne (by decide)]
    exact h.pathKeys

/-- All items of the paths are changed in the same way. -/
theorem mapPaths (h : SameButOrder doc doc') {f : Object → Object}
    (hf : ∀ {o o'}, Alike o o' → Alike (f o) (f o')) :
    SameButOrder (doc.set .paths (.table ((doc.table .paths).map fun e => (e.1, f e.2))))
      (doc'.set .paths (.table ((doc'.table .paths).map fun e => (e.1, f e.2)))) where
  kind := h.kind
  extras := h.extras
  given := given?_set_congr h.given .paths fun _ hne => absurd rfl hne
  tags := by
    rw [objects_set_of_ne (by decide), objects_set_of_ne (by decide)]
    exact h.tags
  tagNames := by
    rw [objects_set_of_ne (by decide)]
    exact h.tagNames
  paths := by
    rw [table_set_self, table_set_self]
    exact Paired.map h.paths fun e e' he => ⟨he.1, hf he.2⟩
  pathKeys := by
    rw [table_set_self]
    unfold Table.keys
    rw [List.map_map]
    exact h.pathKeys

/-! ## What a document says of itself -/

theorem infoOf_eq (h : SameButOrder doc doc') : infoOf doc' = infoOf doc := by
  unfold infoOf object?
  rw [h.get (by decide) (by decide)]

theorem fillInfo (h : SameButOrder doc doc') :
    SameButOrder (fillInfo doc) (Generation.fillInfo doc') := by
  unfold Generation.fillInfo
  rw [h.infoOf_eq]
  exact h.set (by decide) (by decide) _

/-- Both documents have a single tag, the same one, or neither has. -/
theorem promoteTag (h : SameButOrder doc doc') :
    SameButOrder (promoteTag doc) (Generation.promoteTag doc') := by
  unfold Generation.promoteTag
  rw [h.infoOf_eq]
  have htags := h.tags
  revert htags
  generalize hts : doc.objects .tags = ts
  generalize hts' : doc'.objects .tags = ts'
  intro htags
  match ts, ts' with
  | [tag], ts' =>
    obtain rfl := List.singleton_perm.1 htags
    exact (h.set (by decide) (by decide) _).setTag _
  | [], ts' =>
    obtain rfl := List.nil_perm.1 htags
    exact h
  | tag :: tag' :: rest, [] => exact absurd htags.length_eq (by simp)
  | tag :: tag' :: rest, [_] => exact absurd htags.length_eq (by simp)
  | tag :: tag' :: rest, _ :: _ :: _ => exact h

/-! ## Servers -/

theorem serverUrls_eq (h : SameButOrder doc doc') : doc'.serverUrls = doc.serverUrls := by
  unfold serverUrls objects
  rw [h.get (by decide) (by decide)]

theorem withServer (h : SameButOrder doc doc') (url : Text) :
    SameButOrder (doc.withServer url) (doc'.withServer url) :=
  h.set (by decide) (by decide) _

theorem orServer (h : SameButOrder doc doc') (otherwise : Text) :
    SameButOrder (doc.orServer otherwise) (doc'.orServer otherwise) := by
  unfold Object.orServer
  rw [h.serverUrls_eq]
  split
  · exact h.withServer otherwise
  · exact h

theorem hoistServers (h : SameButOrder doc doc') (otherwise : Text) :
    SameButOrder (doc.hoistServers otherwise) (doc'.hoistServers otherwise) := by
  have hhoisted := h.mapPaths Alike.hoistOperations
  have hurls := perm_soleServersOfPaths h.paths
  unfold Object.hoistServers
  dsimp only
  rw [h.serverUrls_eq]
  revert hurls
  generalize soleServersOfPaths (doc.table .paths) = urls
  generalize soleServersOfPaths (doc'.table .paths) = urls'
  intro hurls
  -- A list with one address is its only permutation, and any other one is not hoisted.
  match urls, urls' with
  | [url], urls' =>
    obtain rfl := List.singleton_perm.1 hurls
    dsimp only
    split
    · exact ((hhoisted.mapPaths Alike.withoutServers).withServer url).orServer otherwise
    · exact hhoisted.orServer otherwise
  | [], urls' =>
    obtain rfl := List.nil_perm.1 hurls
    exact hhoisted.orServer otherwise
  | url :: url' :: rest, [] => exact absurd hurls.length_eq (by simp)
  | url :: url' :: rest, [_] => exact absurd hurls.length_eq (by simp)
  | url :: url' :: rest, _ :: _ :: _ => exact hhoisted.orServer otherwise

/-! ## Sorting -/

/-- After tags and paths have been sorted, the documents are the same as data, whatever components
    they get. -/
theorem toValue_sortDocument (h : SameButOrder doc doc') (c : Slot) :
    ((sortDocument doc').set .components c).toValue =
      ((sortDocument doc).set .components c).toValue := by
  have htags := mergeSort_eq_of_perm_names h.tagNames h.tags
  have hpaths := slot_sort_eq h.paths h.pathKeys
  refine toValue_congr h.kind h.extras fun m => ?_
  unfold sortDocument
  simp only [given?_set]
  split
  · rfl
  · split
    · exact congrArg some hpaths
    · split
      · rw [htags]
      · next hne_paths hne_tags =>
        rw [h.given m (Ne.symm hne_tags) (Ne.symm hne_paths)]

/-- Components in another order are the same when they have been sorted. -/
theorem toValue_addComponents (h : SameButOrder doc doc') (hown : componentsOf doc = [])
    {schemas schemas' : Table Object} (hkeys : schemas.keys.Nodup)
    (hperm : schemas.Perm schemas') :
    (addComponents schemas' (sortDocument doc')).toValue =
      (addComponents schemas (sortDocument doc)).toValue := by
  -- Neither document has components of its own, before or after it has been sorted.
  have hget : ∀ doc : Object, (sortDocument doc).get .components = doc.get .components := by
    intro doc
    unfold sortDocument
    rw [get_set, if_neg (by decide), get_set, if_neg (by decide)]
  have hobject : ∀ doc : Object,
      (sortDocument doc).object? .components = doc.object? .components := by
    intro doc
    unfold object?
    rw [hget]
  have hsame : doc'.object? .components = doc.object? .components := by
    unfold object?
    rw [h.get (by decide) (by decide)]
  unfold componentsOf at hown
  unfold addComponents
  simp only [hobject, hsame, hown]
  rw [show schemas'.insertAll [] = schemas' from rfl, show schemas.insertAll [] = schemas from rfl,
    Table.sort_eq_of_perm hkeys hperm]
  exact h.toValue_sortDocument _

end SameButOrder

end IdlBridge.Generation
