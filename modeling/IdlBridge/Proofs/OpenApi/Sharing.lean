import IdlBridge.Proofs.OpenApi.Nodes

/-! # Overlays of objects that share mappings

    What is laid over a mapping is put into it at all its places.  So an overlay is a merge of the
    two objects as long as none of the mappings that something is put into lies at two places of the
    lower object, and then a second overlay of the same object changes nothing (`merged_overlay`).
    Mappings that nothing is put into may lie anywhere, and so may those of the upper object.
-/

namespace IdlBridge.OpenApi.Object

/-! ## The first overlay -/

section First

variable {as : Loaded.Additions}

/-- Contents without changed mappings stay as they are. -/
theorem slot_refill_of_not_mem {c : Slot} (h : ∀ a ∈ as, a.1 ∉ slotMarks c) :
    unmarkedSlot (mapData.slot (Loaded.refill as) c) = unmarkedSlot c := by
  unfold unmarkedSlot
  rw [slot_mapData_slot]
  refine slot_congr_data fun x hx => ?_
  rw [Loaded.refill_of_disjoint fun a ha hm => h a ha (List.mem_flatMap.2 ⟨x, hx, hm⟩)]

/-- Data that is laid over filled data comes to what it comes to over the data itself. -/
theorem Meets.unmarked_layData (hnodup : (as.map (·.1)).Nodup) {x v : Loaded}
    (h : Meets as x.marks (additionsTo (some x) v)) :
    (layData (some (Loaded.refill as x)) v).unmarked =
      layData (some x.unmarked) v.unmarked := by
  by_cases hmap : ∃ m es n fs, x = .map m es ∧ v = .map n fs
  · obtain ⟨m, es, n, fs, rfl, rfl⟩ := hmap
    -- Nothing is put into a mapping inside, as it would have to be the mapping itself.
    have hvalues : Value.Entries.mapValues (Loaded.refill as) es = es := by
      refine Value.Entries.mapValues_id fun e he => Loaded.refill_of_disjoint fun a ha hmark => ?_
      have hinner : a.1 ∈ es.flatMap fun e => e.2.marks := List.mem_flatMap.2 ⟨e, he, hmark⟩
      have hmarks : a.1 ∈ (Loaded.map m es).marks := by
        rw [Loaded.marks_map]
        exact List.mem_append_right _ hinner
      obtain ⟨_, _, hx, -⟩ := mem_additionsTo.1 (h.mem_own a ha hmarks)
      cases hx
      have halone := h.alone
      unfold Alone at halone
      rw [Loaded.marks_map, List.filter_append] at halone
      exact (List.nodup_append.1 halone).2.2 a.1
        (List.mem_filter.2 ⟨List.mem_singleton_self a.1, touches_of_mem ha⟩) a.1
        (List.mem_filter.2 ⟨hinner, touches_of_mem ha⟩) rfl
    rw [Loaded.refill_map, hvalues, Loaded.unmarked_map, Loaded.unmarked_map]
    cases m with
    | none =>
      rw [Loaded.fill_none]
      show (Loaded.map none (Value.Entries.insertAll es fs)).unmarked = Loaded.map none _
      rw [Loaded.unmarked_map, Value.Entries.insertAll_mapValues]
    | some mark =>
      have hmem : (mark, fs) ∈ as := h.own_mem _ (List.mem_singleton_self _)
      rw [show as.fill (some mark) es = Value.Entries.insertAll es fs from
        Loaded.fill_of_mem hnodup hmem]
      show (Loaded.map (some mark) (Value.Entries.insertAll es fs)).unmarked = Loaded.map none _
      rw [Loaded.unmarked_map, Value.Entries.insertAll_mapValues]
  · rw [layData_of_not_map, layData_of_not_map]
    · rintro m es n fs hl hv
      obtain ⟨m', es', hx⟩ := Loaded.exists_map_of_rebuild _ _ _ (Option.some.inj hl)
      obtain ⟨n', fs', hv'⟩ := Loaded.exists_map_of_rebuild _ _ _ hv
      exact hmap ⟨m', es', n', fs', hx, hv'⟩
    · rintro m es n fs hl rfl
      obtain ⟨m', es', hx⟩ := Loaded.exists_map_of_rebuild _ _ _ (Option.some.inj hl)
      exact hmap ⟨m', es', n, fs, hx, rfl⟩

theorem bothMaps_refill {x v : Loaded} : BothMaps (Loaded.refill as x) v ↔ BothMaps x v := by
  constructor
  · rintro ⟨m, es, n, fs, hx, hv⟩
    obtain ⟨m', es', hx'⟩ := Loaded.exists_map_of_rebuild _ _ _ hx
    exact ⟨m', es', n, fs, hx', hv⟩
  · rintro ⟨m, es, n, fs, rfl, rfl⟩
    exact ⟨m, _, n, fs, Loaded.refill_map as m es, rfl⟩

/-- An object that is laid over a filled one comes to what it comes to over the object itself, as
    long as all additions meet their places. -/
theorem Meets.unmarked_lay (hnodup : (as.map (·.1)).Nodup) {u : Object} (hu : Sound u) :
    ∀ {l : Object}, Sound l → l.kind = u.kind → Meets as l.marks (additions l u) →
      ((l.mapData (Loaded.refill as)).lay u).unmarked = l.unmarked.lay u.unmarked := by
  induction hu with
  | @mk k ms es hms hfits hheld hkeys hvalues ih =>
    intro l hl hkind hmeets
    have hu : Sound (.mk k ms es) := .mk hms hfits hheld hkeys hvalues
    refine unmarked_lay_of_slots hl
      (given?_unmarked_lay hu (fun m c hc => ?_) fun m hc => ?_)
      (get?_unmarked_lay hu (fun key x v hx hv hlost => ?_) fun key x hx hv => ?_)
    · have hslot := hmeets.of_member hu hc
      refine unmarked_slot (fun x v hx hv => ?_) (fun htable => ?_) fun x o hx ho hxo => ?_
      · rw [hx, hv] at hslot
        have hmarks : slotMarks (.data x) = x.marks := List.append_nil _
        rw [hmarks] at hslot
        exact Meets.unmarked_layData hnodup hslot
      · -- Nothing is put into the mappings of a table.
        refine slot_refill_of_not_mem fun a ha hmark => ?_
        have hown := hslot.mem_own a ha hmark
        rcases htable with ⟨u, rfl⟩ | ⟨u, rfl⟩ <;> cases hown
      · obtain ⟨e, he, rfl⟩ := mem_of_given? hc
        have hoe : o ∈ e.2.held := ho ▸ List.mem_singleton_self o
        have hxl : x ∈ (l.get m).held := by
          rw [hx]
          exact List.mem_singleton_self x
        rw [hx, ho, additions.slot, if_pos hxo] at hslot
        exact ih e he o hoe (hl.held_get hxl) hxo hslot
    · exact slot_refill_of_not_mem (hmeets.not_mem_member hu hc)
    · have hextra := hmeets.of_extra hu hx hv hlost
      refine unmarked_layExtra? hlost bothMaps_refill
        (fun _ => hextra.unmarked_layData hnodup) fun hmaps => ?_
      rw [Loaded.refill_of_disjoint fun a ha hmark => ?_]
      obtain ⟨es, n, hmap, hv⟩ := mem_additionsTo.1 (hextra.mem_own a ha hmark)
      exact hmaps ⟨_, es, n, _, Option.some.inj hmap, hv⟩
    · rw [Loaded.refill_of_disjoint (hmeets.not_mem_extra hu hx hv)]

end First

/-! ## The second overlay -/

/-- Lays an object over another one with which it can share mappings: what is put into a mapping is
    in it in both of them. -/
def overlayShared (lower upper : Object) : Object :=
  let as := additions lower upper
  lay (lower.mapData (Loaded.refill as)) (upper.mapData (Loaded.refill as))

/-- An overlay is one in which the objects share nothing. -/
theorem overlay_eq_overlayShared (lower upper : Object) :
    lower.overlay upper = overlayShared (lower.mapData (Loaded.later upper.loads)) upper := by
  unfold overlay overlayShared filled
  dsimp only
  refine congrArg (lay _) (mapData_eq_self fun x hx => ?_).symm
  refine Loaded.refill_of_disjoint fun a ha hmark => ?_
  exact not_mem_marks_of_later (mark_of_additions upper _ a ha)
    (List.mem_flatMap.2 ⟨x, hx, hmark⟩)

section Settled

variable {f : Loaded → Loaded} {l u : Object}

/-- Data over which nothing new is laid comes to what it was. -/
theorem unmarked_layData_of_settled {x y v : Loaded} (hplain : y.plain = x.plain)
    (h : layData (some x.unmarked) v.unmarked = x.unmarked) :
    (layData (some y) v).unmarked = layData (some x.unmarked) v.unmarked := by
  have hunmarked : y.unmarked = x.unmarked := Loaded.unmarked_eq_iff.2 hplain
  rw [← hunmarked] at h ⊢
  by_cases hmap : ∃ m es n fs, y = .map m es ∧ v = .map n fs
  · obtain ⟨m, es, n, fs, rfl, rfl⟩ := hmap
    cases m with
    | none =>
      show (Loaded.map none (Value.Entries.insertAll es fs)).unmarked = _
      rw [Loaded.unmarked_map, Loaded.unmarked_map, Loaded.unmarked_map,
        ← Value.Entries.insertAll_mapValues]
      rfl
    | some m => exact h.symm
  · rw [layData_of_not_map, layData_of_not_map]
    · rintro m es n fs hl hv
      obtain ⟨m', es', hy⟩ := Loaded.exists_map_of_rebuild _ _ _ (Option.some.inj hl)
      obtain ⟨n', fs', hv'⟩ := Loaded.exists_map_of_rebuild _ _ _ hv
      exact hmap ⟨m', es', n', fs', hy, hv'⟩
    · rintro m es n fs hl rfl
      exact hmap ⟨m, es, n, fs, Option.some.inj hl, rfl⟩

/-- A member of an object over which nothing new is laid has nothing new laid over it. -/
theorem slot_settled (hu : Sound u) (h : l.unmarked.lay u.unmarked = l.unmarked) {m : Member}
    {c : Slot} (hc : u.given? m = some c) :
    lay.slot (unmarkedSlot (l.get m)) (unmarkedSlot c) = unmarkedSlot (l.get m) := by
  have hget := congrArg (fun o => Object.get o m) h
  rw [get_lay hu.unmarked.nodup_members, unmarked, get_mapData, unmarked, given?_mapData,
    hc] at hget
  exact hget

/-- An unknown key of an object over which nothing new is laid has nothing new laid over it. -/
theorem extra_settled (hu : Sound u) (h : l.unmarked.lay u.unmarked = l.unmarked) {key : Text}
    {x v : Loaded} (hx : l.extras.get? key = some x) (hv : u.extras.get? key = some v) :
    (layExtra? l.kind key (some x.unmarked) v.unmarked).getD x.unmarked = x.unmarked := by
  have hget := congrArg (fun o => Table.get? (Object.extras o) key) h
  rw [extras_lay, get?_layExtras hu.unmarked.nodup_extras, unmarked, get?_extras_mapData, unmarked,
    get?_extras_mapData, hx, hv, kind_mapData, Option.map_some, Option.map_some, Option.bind_some,
    Option.or_some] at hget
  exact Option.some.inj hget

/-- An object over which nothing new is laid comes to what it was, also if its mappings have been
    filled with what they had. -/
theorem unmarked_lay_of_settled (hu : Sound u) : ∀ {l : Object}, Sound l →
    l.kind = u.kind → (∀ x ∈ l.data, (f x).plain = x.plain) →
      l.unmarked.lay u.unmarked = l.unmarked →
        ((l.mapData f).lay u).unmarked = l.unmarked.lay u.unmarked := by
  induction hu with
  | @mk k ms es hms hfits hheld hkeys hvalues ih =>
    intro l hl hkind hdata hsettled
    have hu : Sound (.mk k ms es) := .mk hms hfits hheld hkeys hvalues
    have hslot : ∀ m, unmarkedSlot (mapData.slot f (l.get m)) = unmarkedSlot (l.get m) := fun m =>
      (slot_mapData_slot _).trans (slot_congr_data fun x hx =>
        Loaded.unmarked_eq_iff.2 (hdata x (mem_data_of_get hx)))
    refine unmarked_lay_of_slots hl
      (given?_unmarked_lay hu (fun m c hc => ?_) fun m _ => hslot m)
      (get?_unmarked_lay hu (fun key x v hx hv hlost => ?_) fun key x hx _ => ?_)
    · have hsettled := slot_settled hu hsettled hc
      refine unmarked_slot (fun x v hx hv => ?_) (fun _ => hslot m) fun x o hx ho hxo => ?_
      · rw [hx, hv] at hsettled
        refine unmarked_layData_of_settled (hdata x (mem_data_of_get (m := m) ?_))
          (Content.data.inj hsettled)
        rw [hx]
        exact List.mem_singleton_self x
      · obtain ⟨e, he, rfl⟩ := mem_of_given? hc
        have hoe : o ∈ e.2.held := ho ▸ List.mem_singleton_self o
        have hxl : x ∈ (l.get m).held := by
          rw [hx]
          exact List.mem_singleton_self x
        rw [hx, ho] at hsettled
        refine ih e he o hoe (hl.held_get hxl) hxo (fun y hy => ?_) ?_
        · refine hdata y (mem_data_of_get (m := m) ?_)
          rw [hx]
          exact hy
        · have hkinds : x.unmarked.kind = o.unmarked.kind := by
            rw [unmarked, kind_mapData, unmarked, kind_mapData, hxo]
          have hobject : lay.slot (.object x.unmarked) (.object o.unmarked) =
              .object x.unmarked := hsettled
          rw [lay.slot, if_pos hkinds] at hobject
          exact Content.object.inj hobject
    · have hplain := hdata x (mem_data_of_extras hx)
      have hsettled := extra_settled hu hsettled hx hv
      refine unmarked_layExtra? hlost ⟨bothMaps_congr hplain rfl, bothMaps_congr hplain.symm rfl⟩
        (fun hset => ?_) fun _ => Loaded.unmarked_eq_iff.2 hplain
      rw [layExtra?_of_set hlost (bothMaps_unmarked.2 ∘ hset), Option.getD_some] at hsettled
      exact unmarked_layData_of_settled hplain hsettled
    · exact Loaded.unmarked_eq_iff.2 (hdata x (mem_data_of_extras hx))

end Settled

/-! ## What is put into mappings once more -/

/-- What is put into the mappings of an object keeps it sound. -/
theorem Sound.refill {o : Object} (h : Sound o) {as : Loaded.Additions}
    (has : ∀ a ∈ as, (Loaded.map none a.2).Keyed) : Sound (o.mapData (Loaded.refill as)) :=
  h.mapData (fun x hx hnull => hx (by
    cases x with
    | atom v hv => rwa [Loaded.refill, Loaded.rebuild_atom] at hnull
    | list xs => simp [Loaded.refill] at hnull
    | set xs => simp [Loaded.refill] at hnull
    | pair a b => simp [Loaded.refill] at hnull
    | map m es => simp at hnull)) fun _ hx => hx.refill has

section Again

variable {l u : Object}

/-- What is put into mappings when an object is laid over another one once more is in them already:
    in those of the lower object, as it has just been put there, and in those of the upper one, as
    the mappings with one mark are one mapping. -/
theorem absorbs_again (hu : Sound u) (hkeyed : ∀ x ∈ u.data, x.Keyed)
    (hcoherent : ∀ n ∈ u.nodes, ∀ n' ∈ u.nodes, n.1 = n'.1 → n.2 = n'.2) (hl : Sound l)
    (hkind : l.kind = u.kind) (hdisjoint : ∀ mark ∈ l.marks, mark ∉ u.marks)
    (hnodup : ((additions l u).map (·.1)).Nodup) {r : Object}
    (hr : r = (l.mapData (Loaded.refill (additions l u))).lay u)
    {a : Mark × Value.Entries Loaded} (ha : a ∈ additions r u) {n : Mark × Value.Entries}
    (hn : n ∈ r.nodes ∨ n ∈ u.nodes) (han : a.1 = n.1) :
    n.2.insertAll (a.2.mapValues Loaded.plain) = n.2 := by
  subst hr
  have hput : ∀ b ∈ additions l u, ∃ m, .map m b.2 ∈ u.data := mem_data_of_additions u l
  have hputKeyed : ∀ b ∈ additions l u, (Loaded.map none b.2).Keyed := by
    intro b hb
    obtain ⟨m, hm⟩ := hput b hb
    exact Loaded.keyed_map_iff.2 (Loaded.keyed_map_iff.1 (hkeyed _ hm))
  have hsound := hl.refill hputKeyed
  have hadded : a ∈ additions l u ∨ asNode a ∈ u.nodes := by
    have hagain := additions_again hu hsound ((kind_mapData _ l).trans hkind) ha
    rwa [(relabels_refill _).additions, show (fun b : Mark × Value.Entries Loaded =>
      (id b.1, b.2)) = id from rfl, List.map_id] at hagain
  -- A mapping of the result is one of the upper object, or one of the lower object that has what
  -- is put into it.
  have hplace : n ∈ u.nodes ∨ n.1 ∈ l.marks ∧ ∀ b ∈ additions l u, b.1 = n.1 →
      n.2.insertAll (b.2.mapValues Loaded.plain) = n.2 := by
    rcases hn with hn | hn
    · rcases mem_nodes_lay hu hsound hn with hn | hn
      · obtain ⟨x, hx, hn⟩ := mem_nodes.1 hn
        rw [data_mapData] at hx
        obtain ⟨y, hy, rfl⟩ := List.mem_map.1 hx
        rcases Loaded.nodes_refill hnodup (fun b hb => (hputKeyed b hb).proper) hn with
          ⟨b, hb, hnb⟩ | ⟨hmark, habsorbs⟩
        · obtain ⟨m, hm⟩ := hput b hb
          refine Or.inl (mem_nodes.2 ⟨_, hm, ?_⟩)
          rw [Loaded.nodes_map]
          exact List.mem_append_right _ hnb
        · exact Or.inr ⟨List.mem_flatMap.2 ⟨y, hy, hmark⟩, habsorbs⟩
      · exact Or.inl hn
    · exact Or.inl hn
  rcases hadded with hadded | hadded
  · rcases hplace with hn | ⟨-, habsorbs⟩
    · exact (hdisjoint a.1 (mark_of_additions u l a hadded)
        (mem_marks_iff.2 ⟨n, hn, han.symm⟩)).elim
    · exact habsorbs a hadded han
  · rcases hplace with hn | ⟨hmark, -⟩
    · have heq : n.2 = a.2.mapValues Loaded.plain := hcoherent n hn _ hadded han.symm
      obtain ⟨x, hx, hnx⟩ := mem_nodes.1 hn
      rw [← heq]
      exact Value.Entries.insertAll_self ((hkeyed x hx).proper_of_nodes hnx)
    · exact (hdisjoint n.1 hmark (mem_marks_iff.2 ⟨_, hadded, han⟩)).elim

end Again

/-! ## Overlays of what is read -/

theorem alone_later {dst src : Object} (h : Alone (touches (additions dst src)) dst.marks) :
    Alone (touches (additions (dst.mapData (Loaded.later src.loads)) src))
      (dst.mapData (Loaded.later src.loads)).marks := by
  unfold Alone
  rw [(relabels_later _).additions, marks_mapData_later, List.filter_map]
  refine List.Nodup.map (Mark.later_injective _) ?_
  have htouches : ∀ mark : Mark, touches ((additions dst src).map fun a =>
      (a.1.later src.loads, a.2)) (mark.later src.loads) = touches (additions dst src) mark := by
    intro mark
    unfold touches
    rw [List.any_map]
    congr 1
    funext a
    exact decide_eq_decide.2 (Mark.later_injective _).eq_iff
  rw [show (touches ((additions dst src).map fun a => (a.1.later src.loads, a.2))) ∘
    Mark.later src.loads = touches (additions dst src) from funext htouches]
  exact h

section Overlays

variable {src dst : Object}

/-- An overlay comes to what the upper object laid over the lower one comes to, apart from what lies
    at several places. -/
theorem unmarked_overlay (hsrc : Sound src) (hdst : Sound dst)
    (hkind : dst.kind = src.kind) (halone : Alone (touches (additions dst src)) dst.marks) :
    (dst.overlay src).unmarked = dst.unmarked.lay src.unmarked := by
  have halone := alone_later halone
  have hmeets := Meets.unmarked_lay (halone.nodup_additions hsrc fun a ha => touches_of_mem ha) hsrc
    (hdst.later src.loads) ((kind_mapData _ dst).trans hkind)
    ⟨halone, fun _ ha => ha, fun _ ha _ => ha⟩
  rwa [unmarked_mapData_later] at hmeets

theorem unmarked_unmarked (o : Object) : o.unmarked.unmarked = o.unmarked := by
  unfold unmarked
  rw [mapData_mapData]
  exact mapData_congr fun x _ => Loaded.unmarked_eq_iff.2 (Loaded.plain_unmarked x)

/-- An overlay is a merge. -/
theorem merged_overlay (hsrc : Sound src) (hplain : PlainKeys src) (hdst : Sound dst)
    (hkind : dst.kind = src.kind) (halone : Alone (touches (additions dst src)) dst.marks) :
    Merged dst.unmarked src.unmarked (dst.overlay src).unmarked := by
  rw [unmarked_overlay hsrc hdst hkind halone]
  refine merged_lay hsrc.unmarked hplain.unmarked hdst.unmarked (unmarked_unmarked dst) ?_
  rw [unmarked, kind_mapData, unmarked, kind_mapData, hkind]

/-- The same object laid over the result once more changes nothing. -/
theorem unmarked_overlayShared (hsrc : Sound src) (hkeyed : ∀ x ∈ src.data, x.Keyed)
    (hcoherent : ∀ n ∈ src.nodes, ∀ n' ∈ src.nodes, n.1 = n'.1 → n.2 = n'.2) (hdst : Sound dst)
    (hkind : dst.kind = src.kind) (halone : Alone (touches (additions dst src)) dst.marks) :
    (overlayShared (dst.overlay src) src).unmarked = (dst.overlay src).unmarked := by
  have hfirst := unmarked_overlay hsrc hdst hkind halone
  have hput : ∀ o : Object, ∀ a ∈ additions o src, (Loaded.map none a.2).Keyed := by
    intro o a ha
    obtain ⟨m, hm⟩ := mem_data_of_additions src o a ha
    exact Loaded.keyed_map_iff.2 (Loaded.keyed_map_iff.1 (hkeyed _ hm))
  generalize hl : dst.mapData (Loaded.later src.loads) = l
  have hlsound : Sound l := hl ▸ hdst.later src.loads
  have hlkind : l.kind = src.kind := by rw [← hl, kind_mapData, hkind]
  have hlalone : Alone (touches (additions l src)) l.marks := hl ▸ alone_later halone
  have hr : dst.overlay src = (l.mapData (Loaded.refill (additions l src))).lay src := by
    rw [← hl]
    rfl
  generalize dst.overlay src = r at *
  have hrsound : Sound r :=
    hr ▸ hsrc.lay (hlsound.refill (hput l)) ((kind_mapData _ l).trans hlkind)
  have hrkind : r.kind = src.kind := by rw [hr, kind_lay, kind_mapData, hlkind]
  -- What would be put into the mappings is in them.
  generalize hf : Loaded.refill (additions r src) = f
  have hsame : ∀ o : Object, (∀ n ∈ o.nodes, n ∈ r.nodes ∨ n ∈ src.nodes) →
      ∀ x ∈ o.data, (f x).plain = x.plain := fun o ho x hx =>
    hf ▸ Loaded.plain_refill_of_absorbs fun a ha n hn han =>
      absorbs_again hsrc hkeyed hcoherent hlsound hlkind
        (fun mark hmark => not_mem_marks_of_later (o := dst) (u := src) (hl ▸ hmark))
        (hlalone.nodup_additions hsrc fun a ha => touches_of_mem ha) hr ha
        (ho n (mem_nodes.2 ⟨x, hx, hn⟩)) han
  have hsrcUnmarked : (src.mapData f).unmarked = src.unmarked := by
    unfold unmarked
    rw [mapData_mapData]
    exact mapData_congr fun x hx =>
      Loaded.unmarked_eq_iff.2 (hsame src (fun _ hn => Or.inr hn) x hx)
  -- So nothing new is laid over the result.
  have hsettled : r.unmarked.lay (src.mapData f).unmarked = r.unmarked := by
    rw [hsrcUnmarked, hfirst]
    exact (lay_settles hsrc.unmarked).2 dst.unmarked
  unfold overlayShared
  dsimp only
  rw [hf, unmarked_lay_of_settled (hf ▸ hsrc.refill (hput r)) hrsound
    (hrkind.trans (kind_mapData f src).symm) (hsame r fun _ hn => Or.inl hn) hsettled, hsettled]

/-- What is read from data is merged into an object of its kind, and merging it once more changes
    nothing, as long as none of the mappings that something is put into lies at two places of the
    object.  The data gives no key twice, and its mappings with one mark are one mapping, as in all
    data that has been read from a text (`Yaml.keyed_of_read` and `Yaml.coherent_of_read`). -/
theorem overlay_ofValue? {k : Kind} {payload : Loaded} (hpayload : payload.Keyed)
    (hcoherent : payload.Coherent) (hsrc : ofValue? k payload = some src) (hplain : PlainKeys src)
    (hdst : Sound dst) (hkind : dst.kind = k)
    (halone : Alone (touches (additions dst src)) dst.marks) :
    Merged dst.unmarked src.unmarked (dst.overlay src).unmarked ∧
      (overlayShared (dst.overlay src) src).unmarked = (dst.overlay src).unmarked := by
  have hsound := sound_ofValue? hpayload k src hsrc
  have hkinds : dst.kind = src.kind := by rw [hkind, kind_of_ofValue? hsrc]
  exact ⟨merged_overlay hsound hplain hdst hkinds halone,
    unmarked_overlayShared hsound (keyed_data_ofValue? hpayload hsrc)
      (fun n hn n' hn' =>
        hcoherent n (mem_nodes_ofValue? hsrc hn) n' (mem_nodes_ofValue? hsrc hn'))
      hdst hkinds halone⟩

end Overlays

/-- A berth that an operation names twice. -/
def sharedBerth : Loaded :=
  .map (some ⟨0, "berth", []⟩) [(.text "pier", .ofValue (.text "A"))]

/-- An operation of the code, before its annotation is laid over it. -/
def bookingOperation : Object :=
  .mk .operation
    [(.summary, .text "Books a berth"),
     (.requestBody, .object (.build .requestBody [(.description, .text "The berth")]))]
    [("x-from", sharedBerth), ("x-to", sharedBerth),
     ("x-owner", .map (some ⟨0, "owner", []⟩) [(.text "unit", .ofValue (.text "dock"))])]

theorem sound_bookingOperation : Sound bookingOperation := by
  have hbody : Sound (.build .requestBody [(.description, .text "The berth")]) := by
    refine .mk (by decide) ?_ (by simp [Content.held]) List.nodup_nil (by simp)
    rintro e he
    rw [List.mem_singleton.1 he]
    exact ⟨⟨.description, .text, .optional⟩, by decide, rfl, Or.inr trivial⟩
  refine .mk (by decide) ?_ ?_ (by decide) ?_
  · rintro e he
    rcases List.mem_cons.1 he with rfl | he
    · exact ⟨⟨.summary, .text, .optional⟩, by decide, rfl, Or.inr trivial⟩
    · rw [List.mem_singleton.1 he]
      exact ⟨⟨.requestBody, .object .requestBody, .optional⟩, by decide, rfl, Or.inr rfl⟩
  · simpa [Content.held] using hbody
  · have howner : Value.Entries.Proper [(.text "unit", Loaded.ofValue (.text "dock"))] :=
      ⟨by decide, by decide⟩
    have hberth : Value.Entries.Proper [(.text "pier", Loaded.ofValue (.text "A"))] :=
      ⟨by decide, by decide⟩
    simp [sharedBerth, howner, hberth]

/-- What is said about the body. -/
def bookingBody : Value.Entries Loaded :=
  [(.text "required", .ofValue (.bool true))]

/-- The team that owns the operation. -/
def bookingOwner : Value.Entries Loaded :=
  [(.text "team", .ofValue (.text "harbour"))]

/-- Annotations of the operation: its body is required, and a team owns it. -/
def bookingMapping : Value.Entries Loaded :=
  [(.text "requestBody", .map none bookingBody), (.text "x-owner", .map none bookingOwner)]

/-- What the annotations are read as. -/
def bookingObject : Object :=
  .mk .operation [(.requestBody, .object (.build .requestBody [(.required, .flag true)]))]
    [("x-owner", .map none bookingOwner)]

theorem ofValue?_bookingBody : ofValue? .requestBody (.map none bookingBody) =
    some (.build .requestBody [(.required, .flag true)]) := by
  refine ofValue?_map (by decide) (membersOf?_filter (by decide) ?_)
  refine membersOf?_cons_iff.2
    (Or.inr ⟨.ofValue (.bool true), .flag true, [], rfl, ?_, membersOf?_nil, rfl⟩)
  rw [slotOf?.eq_def]
  rfl

theorem ofValue?_bookingMapping :
    ofValue? .operation (.map none bookingMapping) = some bookingObject := by
  refine ofValue?_map (by decide) (membersOf?_filter (by decide) ?_)
  refine membersOf?_cons_iff.2
    (Or.inr ⟨.map none bookingBody, _, [], rfl, ?_, membersOf?_nil, rfl⟩)
  rw [slotOf?.eq_def, Loaded.plain_map]
  dsimp only
  rw [ofValue?_bookingBody]
  rfl

theorem keyed_bookingMapping : (Loaded.map none bookingMapping).Keyed := by
  have hbody : Value.Entries.Proper bookingBody := ⟨by decide, by decide⟩
  have howner : Value.Entries.Proper bookingOwner := ⟨by decide, by decide⟩
  have hall : Value.Entries.Proper bookingMapping := ⟨by decide, by decide⟩
  rw [Loaded.keyed_map_iff]
  simp [bookingMapping, bookingBody, bookingOwner] at hbody howner hall ⊢
  exact ⟨hall, hbody, howner⟩

theorem plainKeys_bookingObject : PlainKeys bookingObject := by
  refine .mk (by decide) (List.forall_mem_singleton.2 fun o ho => ?_)
  rw [List.mem_singleton.1 ho]
  exact .mk (by simp) (by simp [Content.held])

/-- The annotations are read and laid over the operation, and the team is put into the mapping of
    its owner.  The mapping of the berth lies at two places, and nothing is put into it. -/
theorem merged_bookingMapping : (Loaded.map none bookingMapping).Keyed ∧
    (Loaded.map none bookingMapping).Coherent ∧
    ofValue? .operation (.map none bookingMapping) = some bookingObject ∧
    PlainKeys bookingObject ∧ Sound bookingOperation ∧
    Alone (touches (additions bookingOperation bookingObject)) bookingOperation.marks ∧
    Merged bookingOperation.unmarked bookingObject.unmarked
      (bookingOperation.overlay bookingObject).unmarked ∧
    (overlayShared (bookingOperation.overlay bookingObject) bookingObject).unmarked =
      (bookingOperation.overlay bookingObject).unmarked := by
  have hcoherent : (Loaded.map none bookingMapping).Coherent := by
    have hnodes : (Loaded.map none bookingMapping).nodes = [] := by
      simp [bookingMapping, bookingBody, bookingOwner]
    intro n hn
    rw [hnodes] at hn
    cases hn
  have halone : Alone (touches (additions bookingOperation bookingObject))
      bookingOperation.marks := by
    decide
  exact ⟨keyed_bookingMapping, hcoherent, ofValue?_bookingMapping, plainKeys_bookingObject,
    sound_bookingOperation, halone, overlay_ofValue? keyed_bookingMapping hcoherent
      ofValue?_bookingMapping plainKeys_bookingObject sound_bookingOperation rfl halone⟩

/-- A schema in which two unknown keys have one mapping. -/
def twinSchema : Object :=
  .mk .schema []
    [("x-a", .map (some ⟨0, "a", []⟩) [(.text "p", .ofValue (.text "dock"))]),
     ("x-b", .map (some ⟨0, "a", []⟩) [(.text "p", .ofValue (.text "dock"))])]

/-- Annotations of one of the keys. -/
def twinMapping : Value.Entries Loaded :=
  [(.text "x-a", .map none [(.text "q", .ofValue (.text "pier"))])]

/-- What is put into a mapping that lies at two places is at both, though only one is set. -/
theorem not_merged_twinMapping : ∃ src, ofValue? .schema (.map none twinMapping) = some src ∧
    Sound twinSchema ∧ PlainKeys src ∧
      ¬ Merged twinSchema.unmarked src.unmarked (twinSchema.overlay src).unmarked := by
  refine ⟨.mk .schema [] [("x-a", .map none [(.text "q", .ofValue (.text "pier"))])],
    ?_, ?_, ?_, ?_⟩
  · exact ofValue?_map (by decide) (membersOf?_filter (by decide) membersOf?_nil)
  · have hp : Value.Entries.Proper [(.text "p", Loaded.ofValue (.text "dock"))] :=
      ⟨by decide, by decide⟩
    exact .mk List.nodup_nil (by simp) (by simp) (by decide) (by simp [hp])
  · exact .mk (by decide) (by simp)
  · rintro ⟨-, hunchanged, -⟩
    -- the other key has got what was put into the first one
    have hq := congrArg (fun c => (c.bind fun c => valueAt? c (.text "q")).isSome)
      (hunchanged "x-b" rfl)
    revert hq
    decide

end IdlBridge.OpenApi.Object
