import IdlBridge.Proofs.Reflection.Reflected

/-! # Annotations have texts

    An annotation that comes from a source carries at least one text: a key only gets into the table
    together with a constant, and every constant has a text.  So a key that is there also has a
    first text, which is what the generation of documents asks for.
-/

namespace IdlBridge

namespace Annotations

/-- Every annotation carries a text. -/
def Worded (as : Annotations) : Prop :=
  ∀ e ∈ as, e.2.texts ≠ []

theorem Worded.isSome_first? {as : Annotations} (h : as.Worded) (key : Text) :
    (as.first? key).isSome = as.has key := by
  unfold first?
  cases hkey : as.has key with
  | false => rw [Table.get?_eq_none_of_has hkey]; rfl
  | true =>
    obtain ⟨a, ha⟩ := Table.isSome_get?_of_has hkey
    have htexts := h _ (Table.mem_of_get? ha)
    rw [ha, Option.bind_some]
    cases hlist : a.texts with
    | nil => exact absurd hlist htexts
    | cons t rest => rfl

theorem ne_nil_of_mem_collect {pairs : List (Text × Value)} :
    ∀ e ∈ collect pairs, e.2 ≠ [] := by
  have hloop : ∀ (pairs : List (Text × Value)) (t : Table (List Value)), (∀ e ∈ t, e.2 ≠ []) →
      ∀ e ∈ pairs.foldl
        (fun t p => Table.insert t p.1 (((Table.get? t p.1).getD []) ++ [p.2])) t, e.2 ≠ [] := by
    intro pairs
    induction pairs with
    | nil => exact fun _ ht => ht
    | cons p rest ih =>
      intro t ht
      refine ih _ fun e he => ?_
      rcases Table.mem_insert he with rfl | he
      · simp
      · exact ht e he
  exact hloop pairs [] (by simp)

theorem texts_ne_nil_of_ofConstants? {key : Text} {constants : List Value} {a : Annotation}
    (hne : constants ≠ []) (h : Annotation.ofConstants? key constants = some a) : a.texts ≠ [] := by
  unfold Annotation.ofConstants? at h
  split at h
  · split at h
    · cases h
      exact List.cons_ne_nil _ _
    · obtain ⟨t, -, rfl⟩ := Option.map_eq_some_iff.1 h
      exact List.cons_ne_nil _ _
    · exact absurd rfl hne
  · split at h
    · obtain ⟨t, -, rfl⟩ := Option.map_eq_some_iff.1 h
      exact List.cons_ne_nil _ _
    · obtain ⟨ts, hts, rfl⟩ := Option.map_eq_some_iff.1 h
      obtain ⟨v, vs, rfl⟩ := List.exists_cons_of_ne_nil hne
      unfold Annotation.textsOf? at hts
      split at hts
      · cases hts
        exact List.cons_ne_nil _ _
      · cases hts

theorem worded_of_ofPairs? {pairs : List (Text × Value)} {as : Annotations}
    (h : ofPairs? pairs = some as) : as.Worded := by
  unfold ofPairs? at h
  have hne := @ne_nil_of_mem_collect pairs
  generalize collect pairs = t at h hne
  induction t generalizing as with
  | nil =>
    cases h
    intro e he
    cases he
  | cons e rest ih =>
    obtain ⟨key, constants⟩ := e
    obtain ⟨hconstants, hrest⟩ := List.forall_mem_cons.1 hne
    unfold ofCollected? at h
    split at h
    · next a as' ha has =>
      cases h
      exact List.forall_mem_cons.2 ⟨texts_ne_nil_of_ofConstants? hconstants ha, ih has hrest⟩
    · cases h

end Annotations

namespace FileDesc

/-- Every annotation of a method carries a text. -/
def Worded (file : FileDesc) : Prop :=
  ∀ s ∈ file.services, ∀ m ∈ s.methods, m.annotations.Worded

end FileDesc

/-! ## Thrift -/

namespace Thrift.SourceSet

variable {set : SourceSet}

theorem worded_of_annotations {as : Thrift.Annotations} {bs : IdlBridge.Annotations}
    (h : annotations as = .ok bs) : bs.Worded := by
  unfold annotations at h
  split at h
  · next r hr =>
    rw [← pure_eq_ok.1 h]
    exact Annotations.worded_of_ofPairs? hr
  · cases h

theorem worded_of_method {structs : Table StructDesc} {service : Text} {f : Function}
    {m : MethodDesc} {ns ns' : List Notice} (h : Ends (set.method structs service f) ns m ns') :
    m.annotations.Worded := by
  unfold method at h
  simp only [ends_bind, ends_pure, ends_lift_except] at h
  obtain ⟨-, _, -, _, _, -, _, _, -, as, _, ⟨has, -⟩, rfl, -⟩ := h
  exact worded_of_annotations has

theorem worded_of_reflect {file : FileDesc} {ns ns' : List Notice}
    (h : Ends set.reflect ns file ns') : file.Worded := by
  unfold reflect at h
  obtain ⟨structs, _, -, h⟩ := ends_bind.1 h
  split at h
  · simp only [ends_bind, ends_pure] at h
    obtain ⟨services, _, hservices, rfl, -⟩ := h
    intro s hs m hm
    obtain ⟨node, -, _, _, hnode⟩ := ends_mapM hservices s hs
    unfold service at hnode
    simp only [ends_bind, ends_pure] at hnode
    obtain ⟨_, _, -, methods, _, hmethods, rfl, -⟩ := hnode
    obtain ⟨f, -, _, _, hf⟩ := ends_mapM hmethods m hm
    exact worded_of_method hf
  · exact absurd h ends_throw

end Thrift.SourceSet

/-! ## Protocol Buffers -/

namespace Proto

theorem worded_of_annotations {options : List Setting} {bs : Annotations}
    (h : annotations options = .ok bs) : bs.Worded := by
  unfold annotations at h
  split at h
  · next as has =>
    rw [← pure_eq_ok.1 h]
    exact Annotations.worded_of_ofPairs? has
  · cases h

namespace SourceSet

variable {set : SourceSet}

theorem worded_of_method {symbols : SymbolTable} {structs : Table StructDesc}
    {scope service : Text} {r : Rpc} {m : MethodDesc} {ns ns' : List Notice}
    (h : Ends (method symbols structs scope service r) ns m ns') : m.annotations.Worded := by
  unfold method at h
  simp only [ends_bind, ends_pure, ends_lift_except] at h
  obtain ⟨-, _, -, _, _, -, _, _, -, as, _, ⟨has, -⟩, rfl, -⟩ := h
  exact worded_of_annotations has

theorem worded_of_reflect {file : FileDesc} {ns ns' : List Notice}
    (h : Ends set.reflect ns file ns') : file.Worded := by
  unfold reflect at h
  obtain ⟨structs, _, -, h⟩ := ends_bind.1 h
  split at h
  · simp only [ends_bind, ends_pure] at h
    obtain ⟨services, _, hservices, rfl, -⟩ := h
    intro s hs m hm
    obtain ⟨node, -, _, _, hnode⟩ := ends_mapM hservices s hs
    unfold service at hnode
    simp only [ends_bind, ends_pure] at hnode
    obtain ⟨_, _, -, methods, _, hmethods, rfl, -⟩ := hnode
    obtain ⟨r, -, _, _, hr⟩ := ends_mapM hmethods m hm
    exact worded_of_method hr
  · exact absurd h ends_throw

end SourceSet

end Proto

theorem Reflected.worded {file : FileDesc} (h : Reflected file) : file.Worded := by
  cases h with
  | thrift h => exact Thrift.SourceSet.worded_of_reflect h
  | proto h => exact Proto.SourceSet.worded_of_reflect h

end IdlBridge
