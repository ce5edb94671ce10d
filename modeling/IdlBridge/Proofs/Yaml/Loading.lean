import IdlBridge.Proofs.Collections
import IdlBridge.Proofs.Yaml.Anchors
import IdlBridge.Proofs.Yaml.FlowNodes

/-! # Data that is read

    The data of a node is made of the data of its parts, in one way for each tag of a collection:
    `Yields` lists the ways.  No mapping in the data gives a key twice (`keyed_of_read`).

    Mappings of the data with marks are what nodes with marks stand for, and what a node stands for
    does not depend on where it stands.  So mappings with one mark are one mapping
    (`coherent_of_read`).
-/

namespace IdlBridge.Yaml

namespace Node

/-! ## Data of nodes -/

theorem both_eq_ok {α β : Type} {a : Except Late α} {b : Except Late β} {p : α × β} :
    both a b = .ok p ↔ a = .ok p.1 ∧ b = .ok p.2 := by
  obtain ⟨x, y⟩ := p
  cases a <;> cases b <;> simp [both]

theorem entriesOf_eq_ok {n : Node} {bound : Nat} {es : List (Node × Node)}
    (h : n.entriesOf bound = .ok es) :
    ∃ t entries m, n = .mapping t entries m ∧ flatten bound entries = some es := by
  cases n with
  | scalar t x => cases h
  | sequence t xs => cases h
  | mapping t entries m =>
    refine ⟨t, entries, m, rfl, ?_⟩
    unfold entriesOf at h
    dsimp only at h
    split at h
    · next hflat => rw [hflat, Except.ok.inj h]
    · cases h

theorem singleEntry_eq_ok {n : Node} {e : Node × Node} (h : n.singleEntry = .ok e) :
    ∃ t m, n = .mapping t [e] m := by
  unfold singleEntry at h
  split at h
  · rw [← Except.ok.inj h]
    exact ⟨_, _, rfl⟩
  · cases h

/-- The tags of collections. -/
def collectionTags : List Tag :=
  [.seq, .map, .set, .omap, .pairs]

theorem key_eq_ok {bound depth : Nat} {n : Node} {v : Value}
    (h : value.key bound depth n = .ok v) :
    ∃ x, n.value bound depth = .ok x ∧ x.plain = v ∧ n.tag ∉ collectionTags := by
  unfold value.key at h
  split at h
  · cases h
  · cases h
  · cases h
  · cases h
  · cases h
  · next hseq hmap hset homap hpairs =>
    obtain ⟨x, hx, hplain⟩ := map_eq_ok.1 h
    refine ⟨x, hx, hplain, ?_⟩
    simp only [collectionTags, List.mem_cons, List.not_mem_nil, or_false, not_or]
    exact ⟨hseq, hmap, hset, homap, hpairs⟩

/-- The entries of a node, with those that are merged into it, are read as entries of a mapping. -/
def ReadEntries (bound depth : Nat) (n : Node) (es : Value.Entries Loaded) : Prop :=
  ∃ t entries m flat, n = .mapping t entries m ∧ flatten bound entries = some flat ∧
    List.Forall₂ (fun e p => value.key bound depth e.1 = .ok p.1 ∧
      value bound depth e.2 = .ok p.2) flat es

/-- The items of a node are read as pairs. -/
def ReadPairs (bound depth : Nat) (n : Node) (xs : List Loaded) : Prop :=
  ∃ t items, n = .sequence t items ∧ List.Forall₂ (fun i x => ∃ t k v m a b,
    i = .mapping t [(k, v)] m ∧ value bound depth k = .ok a ∧ value bound depth v = .ok b ∧
      x = .pair a b) items xs

/-- The data of a node, one way for each tag of a collection and one for all others. -/
inductive Yields (bound depth : Nat) (n : Node) : Tag → Loaded → Prop
  | seq {t items xs} : n = .sequence t items →
      List.Forall₂ (fun i x => value bound depth i = .ok x) items xs →
        Yields bound depth n .seq (.list xs)
  | map {es} : ReadEntries bound depth n es →
      Yields bound depth n .map (.map n.mark? (Value.Entries.ofList es))
  | set {es} : ReadEntries bound depth n es →
      Yields bound depth n .set (.set ((Value.Entries.ofList es).map fun e => .ofValue e.1))
  | omap {xs} : ReadPairs bound depth n xs → Yields bound depth n .omap (.list xs)
  | pairs {xs} : ReadPairs bound depth n xs → Yields bound depth n .pairs (.list xs)
  | scalar {t v} : t ∉ collectionTags → n.scalarValue = .ok v →
      Yields bound depth n t (.ofValue v)

theorem readEntries_of_entries {bound depth : Nat} {n : Node} {es : List (Node × Node)}
    {pairs : Value.Entries Loaded}
    (hes : (n.entriesOf bound).mapError (Late.mk depth) = .ok es)
    (hpairs : all (es.map fun e => both (value.key bound depth e.1) (value bound depth e.2)) =
      .ok pairs) : ReadEntries bound depth n pairs := by
  obtain ⟨t, entries, m, rfl, hflat⟩ := entriesOf_eq_ok (mapError_eq_ok.1 hes)
  rw [all_eq_ok, List.forall₂_map_left_iff] at hpairs
  exact ⟨t, entries, m, es, rfl, hflat, hpairs.imp fun _ _ h => both_eq_ok.1 h⟩

theorem readPairs_of_items {bound depth : Nat} {t : Tag} {items : List Node} {xs : List Loaded}
    (h : all (items.map fun i => do
      let e ← i.singleEntry.mapError (Late.mk depth)
      let (k, v) ← both (value bound depth e.1) (value bound depth e.2)
      return Loaded.pair k v) = .ok xs) : ReadPairs bound depth (.sequence t items) xs := by
  rw [all_eq_ok, List.forall₂_map_left_iff] at h
  refine ⟨t, items, rfl, h.imp fun i x hx => ?_⟩
  obtain ⟨e, he, hpair⟩ := bind_eq_ok.1 hx
  obtain ⟨p, hp, hpair⟩ := bind_eq_ok.1 hpair
  obtain ⟨t, m, rfl⟩ := singleEntry_eq_ok (mapError_eq_ok.1 he)
  obtain ⟨hk, hv⟩ := both_eq_ok.1 hp
  exact ⟨t, e.1, e.2, m, p.1, p.2, rfl, hk, hv, (pure_eq_ok.1 hpair).symm⟩

theorem yields_of_value {bound depth : Nat} {n : Node} {x : Loaded}
    (h : n.value (bound + 1) depth = .ok x) : Yields bound (n.contentDepth depth) n n.tag x := by
  unfold value at h
  dsimp only at h
  split at h
  · next htag =>
    rw [htag]
    split at h
    · obtain ⟨xs, hxs, rfl⟩ := map_eq_ok.1 h
      rw [all_eq_ok, List.forall₂_map_left_iff] at hxs
      exact .seq rfl hxs
    · cases h
  · next htag =>
    obtain ⟨es, hes, h⟩ := bind_eq_ok.1 h
    obtain ⟨pairs, hpairs, h⟩ := bind_eq_ok.1 h
    rw [htag, ← pure_eq_ok.1 h]
    exact .map (readEntries_of_entries hes hpairs)
  · next htag =>
    obtain ⟨es, hes, h⟩ := bind_eq_ok.1 h
    obtain ⟨pairs, hpairs, h⟩ := bind_eq_ok.1 h
    rw [htag, ← pure_eq_ok.1 h]
    exact .set (readEntries_of_entries hes hpairs)
  · next htag =>
    rw [htag]
    split at h
    · obtain ⟨xs, hxs, rfl⟩ := map_eq_ok.1 h
      exact .omap (readPairs_of_items hxs)
    · cases h
  · next htag =>
    rw [htag]
    split at h
    · obtain ⟨xs, hxs, rfl⟩ := map_eq_ok.1 h
      exact .pairs (readPairs_of_items hxs)
    · cases h
  · cases h
  · cases h
  · cases h
  · next hseq hmap hset homap hpairs _ _ _ =>
    obtain ⟨v, hv, rfl⟩ := map_eq_ok.1 h
    refine .scalar ?_ (mapError_eq_ok.1 hv)
    simp only [collectionTags, List.mem_cons, List.not_mem_nil, or_false, not_or]
    exact ⟨hseq, hmap, hset, homap, hpairs⟩

theorem Yields.scalarValue_eq {bound depth : Nat} {n : Node} {t : Tag} {x : Loaded}
    (h : Yields bound depth n t x) (ht : t ∉ collectionTags) :
    ∃ v, n.scalarValue = .ok v ∧ x = .ofValue v := by
  cases h with
  | scalar _ hv => exact ⟨_, hv, rfl⟩
  | seq => exact (ht (by decide)).elim
  | map => exact (ht (by decide)).elim
  | set => exact (ht (by decide)).elim
  | omap => exact (ht (by decide)).elim
  | pairs => exact (ht (by decide)).elim

/-- A key is a scalar. -/
theorem scalarValue_of_key {bound depth : Nat} {n : Node} {v : Value}
    (h : value.key bound depth n = .ok v) : n.scalarValue = .ok v := by
  obtain ⟨x, hx, rfl, htag⟩ := key_eq_ok h
  cases bound with
  | zero =>
    rw [value] at hx
    cases hx
  | succ bound =>
    obtain ⟨v, hv, rfl⟩ := (yields_of_value hx).scalarValue_eq htag
    rw [hv, Loaded.plain_ofValue]

/-! ## Merged entries -/

/-- The entries that a node has for a mapping into which it is merged. -/
def mergedEntries? (bound : Nat) : Node → Option (List (Node × Node))
  | .mapping _ es _ => flatten bound es
  | _ => none

theorem mergedBy_cases {bound : Nat} {n : Node} {es : List (Node × Node)}
    (h : flatten.mergedBy bound n = some es) : n.mergedEntries? bound = some es ∨
      ∃ t items parts, n = .sequence t items ∧ items.mapM (mergedEntries? bound) = some parts ∧
        es = parts.reverse.flatten := by
  cases n with
  | scalar t x =>
    rw [flatten.mergedBy] at h
    cases h
  | sequence t items =>
    rw [flatten.mergedBy] at h
    obtain ⟨parts, hparts, h⟩ := Option.bind_eq_some_iff.1 h
    exact Or.inr ⟨t, items, parts, rfl, hparts, (Option.some.inj h).symm⟩
  | mapping t entries m =>
    rw [flatten.mergedBy] at h
    exact Or.inl h

/-- The entries of a mapping that are its own. -/
def ownEntries (entries : List (Node × Node)) : List (Node × Node) :=
  (entries.filter fun e => e.1.tag ≠ .merge).map fun e =>
    match e.1 with
    | .scalar .value t => (.scalar .str t, e.2)
    | .sequence .value items => (.sequence .str items, e.2)
    | .mapping .value es m => (.mapping .str es m, e.2)
    | k => (k, e.2)

theorem flatten_succ {bound : Nat} {entries es : List (Node × Node)}
    (h : flatten (bound + 1) entries = some es) : ∃ merged,
      (entries.filter fun e => e.1.tag = .merge).mapM
        (fun e => flatten.mergedBy bound e.2) = some merged ∧
      es = merged.flatten ++ ownEntries entries := by
  rw [flatten] at h
  obtain ⟨merged, hmerged, h⟩ := Option.bind_eq_some_iff.1 h
  exact ⟨merged, hmerged, (Option.some.inj h).symm⟩

/-- What is merged into a mapping does not depend on how far the bound is. -/
theorem flatten_unique {bound bound' : Nat} {entries es es' : List (Node × Node)}
    (h : flatten bound entries = some es) (h' : flatten bound' entries = some es') : es = es' := by
  induction bound generalizing bound' entries es es' with
  | zero =>
    rw [flatten] at h
    cases h
  | succ bound ih =>
    cases bound' with
    | zero =>
      rw [flatten] at h'
      cases h'
    | succ bound' =>
      have hmapping : ∀ (n : Node) {fs fs'}, n.mergedEntries? bound = some fs →
          n.mergedEntries? bound' = some fs' → fs = fs' := by
        intro n fs fs' hfs hfs'
        cases n with
        | scalar t x => cases hfs
        | sequence t items => cases hfs
        | mapping t entries m => exact ih hfs hfs'
      have hnode : ∀ (n : Node) {fs fs'}, flatten.mergedBy bound n = some fs →
          flatten.mergedBy bound' n = some fs' → fs = fs' := by
        intro n fs fs' hfs hfs'
        rcases mergedBy_cases hfs with hfs | ⟨t, items, parts, rfl, hparts, rfl⟩ <;>
          rcases mergedBy_cases hfs' with hfs' | ⟨t', items', parts', hn, hparts', rfl⟩
        · exact hmapping n hfs hfs'
        · rw [hn] at hfs
          cases hfs
        · cases hfs'
        · cases hn
          rw [eq_of_forall₂ (fun n _ _ => hmapping n) (forall₂_of_mapM_eq_some hparts)
            (forall₂_of_mapM_eq_some hparts')]
      obtain ⟨merged, hmerged, rfl⟩ := flatten_succ h
      obtain ⟨merged', hmerged', rfl⟩ := flatten_succ h'
      rw [eq_of_forall₂ (fun e _ _ => hnode e.2) (forall₂_of_mapM_eq_some hmerged)
        (forall₂_of_mapM_eq_some hmerged')]

/-- A value of a mapping comes from one of its entries, or from inside of one. -/
theorem shares_of_flatten {bound : Nat} {entries es : List (Node × Node)}
    (h : flatten bound entries = some es) {e : Node × Node} (he : e ∈ es) {m : Mark} {x : Node}
    (hx : Shares m x e.2) : ∃ f ∈ entries, Shares m x f.2 := by
  induction bound generalizing entries es with
  | zero =>
    rw [flatten] at h
    cases h
  | succ bound ih =>
    have hmapping : ∀ (n : Node) {fs}, n.mergedEntries? bound = some fs → e ∈ fs →
        Shares m x n := by
      intro n fs hfs he
      cases n with
      | scalar t x => cases hfs
      | sequence t items => cases hfs
      | mapping t entries mark =>
        obtain ⟨f, hf, hx⟩ := ih hfs he
        exact .part (List.mem_flatMap.2 ⟨f, hf, by simp⟩) hx
    obtain ⟨merged, hmerged, rfl⟩ := flatten_succ h
    rcases List.mem_append.1 he with he | he
    · obtain ⟨fs, hfs, he⟩ := List.mem_flatten.1 he
      obtain ⟨f, hf, hmergedBy⟩ := exists_of_mem_mapM hmerged hfs
      refine ⟨f, (List.mem_filter.1 hf).1, ?_⟩
      rcases mergedBy_cases hmergedBy with hfs | ⟨t, items, parts, hn, hparts, rfl⟩
      · exact hmapping f.2 hfs he
      · obtain ⟨gs, hgs, he⟩ := List.mem_flatten.1 he
        obtain ⟨i, hi, hgs⟩ := exists_of_mem_mapM hparts (List.mem_reverse.1 hgs)
        rw [hn]
        exact .part hi (hmapping i hgs he)
    · obtain ⟨f, hf, rfl⟩ := List.mem_map.1 he
      refine ⟨f, (List.mem_filter.1 hf).1, ?_⟩
      split at hx <;> exact hx

/-! ## What the data is -/

/-- The data of a node does not depend on how far the bound is. -/
theorem value_unique {bound bound' depth depth' : Nat} {n : Node} {x y : Loaded}
    (h : n.value bound depth = .ok x) (h' : n.value bound' depth' = .ok y) : x = y := by
  induction bound generalizing bound' depth depth' n x y with
  | zero =>
    rw [value] at h
    cases h
  | succ bound ih =>
    cases bound' with
    | zero =>
      rw [value] at h'
      cases h'
    | succ bound' =>
      have hentries : ∀ {depth depth' es es'}, ReadEntries bound depth n es →
          ReadEntries bound' depth' n es' → es = es' := by
        rintro depth depth' es es' ⟨t, entries, m, flat, rfl, hflat, hes⟩
          ⟨t', entries', m', flat', hn, hflat', hes'⟩
        cases hn
        obtain rfl := flatten_unique hflat hflat'
        refine eq_of_forall₂ (fun e p p' hp hp' => Prod.ext ?_ (ih hp.2 hp'.2)) hes hes'
        exact Except.ok.inj ((scalarValue_of_key hp.1).symm.trans (scalarValue_of_key hp'.1))
      have hpairs : ∀ {depth depth' xs xs'}, ReadPairs bound depth n xs →
          ReadPairs bound' depth' n xs' → xs = xs' := by
        rintro depth depth' xs xs' ⟨t, items, rfl, hxs⟩ ⟨t', items', hn, hxs'⟩
        cases hn
        refine eq_of_forall₂ ?_ hxs hxs'
        rintro i p p' ⟨t, k, v, m, a, b, rfl, hk, hv, rfl⟩
          ⟨t', k', v', m', a', b', hi, hk', hv', rfl⟩
        cases hi
        rw [ih hk hk', ih hv hv']
      have hx := yields_of_value h
      have hy := yields_of_value h'
      generalize n.tag = tag at hx hy
      cases hx with
      | seq hn hxs =>
        cases hy with
        | seq hn' hys =>
          cases hn.symm.trans hn'
          refine congrArg Loaded.list (eq_of_forall₂ ?_ hxs hys)
          exact fun _ _ _ hx hy => ih hx hy
        | scalar htag => exact (htag (by decide)).elim
      | map hes =>
        cases hy with
        | map hes' => rw [hentries hes hes']
        | scalar htag => exact (htag (by decide)).elim
      | set hes =>
        cases hy with
        | set hes' => rw [hentries hes hes']
        | scalar htag => exact (htag (by decide)).elim
      | omap hxs =>
        cases hy with
        | omap hys => rw [hpairs hxs hys]
        | scalar htag => exact (htag (by decide)).elim
      | pairs hxs =>
        cases hy with
        | pairs hys => rw [hpairs hxs hys]
        | scalar htag => exact (htag (by decide)).elim
      | scalar htag hv =>
        obtain ⟨v', hv', rfl⟩ := hy.scalarValue_eq htag
        rw [Except.ok.inj (hv.symm.trans hv')]

/-- The mapping with the mark is what a mapping of the node stands for. -/
def Stems (p : Mark × Value.Entries) (n : Node) : Prop :=
  ∃ x bound depth es, Shares p.1 x n ∧ value bound depth x = .ok (.map (some p.1) es) ∧
    p.2 = Value.Entries.mapValues Loaded.plain es

theorem Stems.mono {p : Mark × Value.Entries} {n n' : Node} (h : Stems p n)
    (hsub : ∀ m x, Shares m x n → Shares m x n') : Stems p n' := by
  obtain ⟨x, bound, depth, es, hx, hvalue, hes⟩ := h
  exact ⟨x, bound, depth, es, hsub _ _ hx, hvalue, hes⟩

/-- The mappings with marks in the data are those of the node. -/
theorem stems_of_value {bound depth : Nat} {n : Node} {x : Loaded}
    (h : n.value bound depth = .ok x) : ∀ p ∈ x.nodes, Stems p n := by
  intro p hp
  induction bound generalizing depth n x with
  | zero =>
    rw [value] at h
    cases h
  | succ bound ih =>
    have hpart : ∀ {y z d}, y ∈ n.parts → value bound d y = .ok z → p ∈ z.nodes → Stems p n :=
      fun hy hz hp => (ih hz hp).mono fun _ _ => .part hy
    have hpairs : ∀ {d xs}, ReadPairs bound d n xs → p ∈ (Loaded.list xs).nodes → Stems p n := by
      rintro d xs ⟨t, items, rfl, hxs⟩ hp
      rw [Loaded.nodes_list] at hp
      obtain ⟨x, hx, hp⟩ := List.mem_flatMap.1 hp
      obtain ⟨i, hi, t, k, v, m, a, b, rfl, ha, hb, rfl⟩ := exists_of_forall₂_right hxs hx
      have hitem : Stems p (.mapping t [(k, v)] m) := by
        rw [Loaded.nodes_pair] at hp
        rcases List.mem_append.1 hp with hp | hp
        · exact (ih ha hp).mono fun _ _ => .part (by simp [parts])
        · exact (ih hb hp).mono fun _ _ => .part (by simp [parts])
      exact hitem.mono fun _ _ => .part hi
    have hyields := yields_of_value h
    generalize n.tag = tag at hyields
    cases hyields with
    | seq hn hxs =>
      rw [Loaded.nodes_list] at hp
      obtain ⟨x, hx, hp⟩ := List.mem_flatMap.1 hp
      obtain ⟨i, hi, hix⟩ := exists_of_forall₂_right hxs hx
      exact hpart (hn ▸ hi) hix hp
    | map hes =>
      rw [Loaded.nodes_map] at hp
      rcases List.mem_append.1 hp with hself | hvalue
      · obtain ⟨m, hm, rfl⟩ := List.mem_map.1 hself
        rw [Option.mem_toList] at hm
        exact ⟨n, _, _, _, .self hm, hm ▸ h, rfl⟩
      · obtain ⟨e, he, hpe⟩ := List.mem_flatMap.1 hvalue
        obtain ⟨f, hf, hfe⟩ := List.mem_map.1 (Value.Entries.value_of_mem_ofList he)
        obtain ⟨t, entries, m, flat, rfl, hflat, hes⟩ := hes
        obtain ⟨g, hg, -, hg'⟩ := exists_of_forall₂_right hes hf
        refine (ih hg' (hfe ▸ hpe)).mono fun m x hx => ?_
        obtain ⟨e', he', hx⟩ := shares_of_flatten hflat hg hx
        exact .part (List.mem_flatMap.2 ⟨e', he', by simp⟩) hx
    | set hes =>
      rw [Loaded.nodes_set] at hp
      obtain ⟨x, hx, hp⟩ := List.mem_flatMap.1 hp
      obtain ⟨e, -, rfl⟩ := List.mem_map.1 hx
      rw [Loaded.nodes_ofValue] at hp
      cases hp
    | omap hxs => exact hpairs hxs hp
    | pairs hxs => exact hpairs hxs hp
    | scalar _ hv =>
      rw [Loaded.nodes_ofValue] at hp
      cases hp

/-! ## Keys -/

theorem readAs_eq_ok {what : Impossible} {v : Option Value} {w : Value}
    (h : readAs what v = .ok w) : v = some w := by
  cases v with
  | none => cases h
  | some v => rw [Except.ok.inj h]

theorem isAtomic_of_timestamp? {t : Text} {v : Value} (h : timestamp? t = some v) :
    v.isAtomic = true := by
  obtain ⟨d, -, h⟩ := Option.bind_eq_some_iff.1 h
  dsimp only at h
  split at h
  · split at h
    · rw [← Option.some.inj h]
      rfl
    · cases h
  · split at h
    · rw [← Option.some.inj h]
      rfl
    · cases h

/-- Scalars stand for data that is no collection. -/
theorem isAtomic_of_scalarValue {n : Node} {v : Value} (h : n.scalarValue = .ok v) :
    v.isAtomic = true := by
  unfold scalarValue at h
  split at h
  · cases h
  · split at h
    · cases h
      rfl
    · obtain ⟨e, -, rfl⟩ := Option.map_eq_some_iff.1 (readAs_eq_ok h)
      rfl
    · obtain ⟨i, -, rfl⟩ := Option.map_eq_some_iff.1 (readAs_eq_ok h)
      rfl
    · have hfloat := readAs_eq_ok h
      unfold float? at hfloat
      dsimp only at hfloat
      split at hfloat
      · cases hfloat
      · split at hfloat
        · rw [← Option.some.inj hfloat]
          rfl
        · obtain ⟨x, -, rfl⟩ := Option.map_eq_some_iff.1 hfloat
          rfl
    · unfold binary at h
      split at h
      · split at h
        · rw [← Except.ok.inj h]
          rfl
        · cases h
      · cases h
    · unfold pointInTime at h
      split at h
      · exact isAtomic_of_timestamp? (readAs_eq_ok h)
      · cases h
    · rw [← Except.ok.inj h]
      rfl

theorem keyed_of_value {bound depth : Nat} {n : Node} {x : Loaded}
    (h : n.value bound depth = .ok x) : x.Keyed := by
  induction bound generalizing depth n x with
  | zero =>
    rw [value] at h
    cases h
  | succ bound ih =>
    have hpairs : ∀ {d xs}, ReadPairs bound d n xs → (Loaded.list xs).Keyed := by
      rintro d xs ⟨t, items, -, hxs⟩
      refine Loaded.keyed_list_iff.2 fun x hx => ?_
      obtain ⟨i, -, t, k, v, m, a, b, -, ha, hb, rfl⟩ := exists_of_forall₂_right hxs hx
      exact Loaded.keyed_pair_iff.2 ⟨ih ha, ih hb⟩
    have hatomic : ∀ {v : Value}, v.isAtomic = true → (Loaded.ofValue v).Keyed := fun hv => by
      rw [Loaded.ofValue_of_isAtomic hv]
      exact Loaded.keyed_atom _ hv
    have hentries : ∀ {d es}, ReadEntries bound d n es →
        ∀ e ∈ es, e.1.isAtomic = true ∧ e.2.Keyed := by
      rintro d es ⟨t, entries, m, flat, -, -, hes⟩ e he
      obtain ⟨f, -, hk, hv⟩ := exists_of_forall₂_right hes he
      exact ⟨isAtomic_of_scalarValue (scalarValue_of_key hk), ih hv⟩
    have hyields := yields_of_value h
    generalize n.tag = tag at hyields
    cases hyields with
    | seq hn hxs =>
      refine Loaded.keyed_list_iff.2 fun x hx => ?_
      obtain ⟨i, -, hix⟩ := exists_of_forall₂_right hxs hx
      exact ih hix
    | map hes =>
      exact Loaded.keyed_ofList (fun e he => (hentries hes e he).1)
        fun e he => (hentries hes e he).2
    | set hes =>
      refine Loaded.keyed_set_iff.2 fun x hx => ?_
      obtain ⟨e, he, rfl⟩ := List.mem_map.1 hx
      obtain ⟨f, hf, hfe⟩ := List.mem_map.1 (Value.Entries.key_of_mem_ofList he)
      exact hatomic (hfe ▸ (hentries hes f hf).1)
    | omap hxs => exact hpairs hxs
    | pairs hxs => exact hpairs hxs
    | scalar _ hv => exact hatomic (isAtomic_of_scalarValue hv)

end Node

theorem read_cases {t : Text} {x : Loaded} (h : read t = .ok x) : x = .ofValue .null ∨
    ∃ n bound, Node.ofTokens? (Lexed.ofText t) = .ok (some n) ∧ n.value bound 0 = .ok x := by
  rw [Node.read_eq_bind] at h
  obtain ⟨n?, hn, h⟩ := bind_eq_ok.1 h
  cases n? with
  | none => exact Or.inl (Except.ok.inj h).symm
  | some n =>
    dsimp only at h
    split at h
    · next v hv => exact Or.inr ⟨n, _, hn, Except.ok.inj h ▸ hv⟩
    · cases h

/-- No mapping that is read gives a key twice. -/
theorem keyed_of_read {t : Text} {x : Loaded} (h : read t = .ok x) : x.Keyed := by
  rcases read_cases h with rfl | ⟨n, bound, -, hvalue⟩
  · exact Loaded.keyed_atom .null rfl
  · exact Node.keyed_of_value hvalue

/-- Mappings that are read and have one mark are one mapping. -/
theorem coherent_of_read {t : Text} {x : Loaded} (h : read t = .ok x) : x.Coherent := by
  rcases read_cases h with rfl | ⟨n, bound, hn, hvalue⟩
  · intro p hp
    rw [Loaded.nodes_ofValue] at hp
    cases hp
  · rintro ⟨m, es⟩ hp ⟨m', es'⟩ hp' rfl
    obtain ⟨y, b, d, fs, hy, hfs, rfl⟩ := Node.stems_of_value hvalue _ hp
    obtain ⟨y', b', d', fs', hy', hfs', rfl⟩ := Node.stems_of_value hvalue _ hp'
    obtain rfl := Node.eq_of_shares hn hy hy'
    cases Node.value_unique hfs hfs'
    rfl

end IdlBridge.Yaml
