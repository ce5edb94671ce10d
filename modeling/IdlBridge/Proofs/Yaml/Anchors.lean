import IdlBridge.Proofs.Computation
import IdlBridge.Proofs.Table
import IdlBridge.Yaml.Node

/-! # Marks of a document

    The marks of a document come from its anchors.  An anchor is given to one node, and in the node
    each mapping has a place of its own; so a mark belongs to one mapping, at however many places of
    the document the mapping lies (`eq_of_shares`).

    While a document is read, everything with a mark lies in the node of an anchor that has been
    read.  `Reads` says so of a step, given some nodes that have been read before it.
-/

namespace IdlBridge.Yaml.Node

open Reader

/-! ## Mappings with marks -/

/-- The nodes that a collection is made of. -/
def parts : Node → List Node
  | .scalar _ _ => []
  | .sequence _ xs => xs
  | .mapping _ es _ => es.flatMap fun e => [e.1, e.2]

theorem sizeOf_lt_of_parts {n p : Node} (h : p ∈ n.parts) : sizeOf p < sizeOf n := by
  cases n with
  | scalar t x => cases h
  | sequence t xs =>
    have hsize := List.sizeOf_lt_of_mem (show p ∈ xs from h)
    simp
    omega
  | mapping t es m =>
    obtain ⟨e, he, hp⟩ := List.mem_flatMap.1 h
    have hsize := List.sizeOf_lt_of_mem he
    obtain ⟨k, v⟩ := e
    simp at hp hsize ⊢
    rcases hp with rfl | rfl <;> omega

/-- Induction on nodes, along what they are made of. -/
@[elab_as_elim] theorem inductionOnParts {P : Node → Prop}
    (mk : ∀ n, (∀ p ∈ n.parts, P p) → P n) (n : Node) : P n :=
  mk n fun p hp =>
    have := sizeOf_lt_of_parts hp
    inductionOnParts mk p
termination_by sizeOf n

/-- The mapping `x` with the mark `m` lies in a node. -/
inductive Shares (m : Mark) (x : Node) : Node → Prop
  | self : x.mark? = some m → Shares m x x
  | part {n p : Node} : p ∈ n.parts → Shares m x p → Shares m x n

/-- All mappings in the node have marks. -/
inductive Full : Node → Prop
  | mk {n : Node} : (∀ t es, n ≠ .mapping t es none) → (∀ p ∈ n.parts, Full p) → Full n

/-- A node without a mark has those of its parts. -/
theorem shares_iff {n : Node} (h : n.mark? = none) {m : Mark} {x : Node} :
    Shares m x n ↔ ∃ p ∈ n.parts, Shares m x p := by
  constructor
  · rintro (hself | ⟨hp, hx⟩)
    · rw [h] at hself
      cases hself
    · exact ⟨_, hp, hx⟩
  · rintro ⟨p, hp, hx⟩
    exact .part hp hx

/-! ## Marking a node -/

/-- The parts of a node with the places that the marks in them are given. -/
def placed (place : List Nat) : Node → List (List Nat × Node)
  | .scalar _ _ => []
  | .sequence _ xs => xs.zipIdx.map fun e => (e.2 :: place, e.1)
  | .mapping _ es _ =>
    es.zipIdx.flatMap fun e => [(0 :: e.2 :: place, e.1.1), (1 :: e.2 :: place, e.1.2)]

section Marked

variable {a : Text} {place : List Nat} {n : Node}

theorem items_marked (xs : List Node) (i : Nat) : marked.items a place i xs =
    (xs.zipIdx i).map fun e => e.1.marked a (e.2 :: place) := by
  induction xs generalizing i with
  | nil => rfl
  | cons x rest ih => rw [marked.items, ih, List.zipIdx_cons, List.map_cons]

theorem entries_marked (es : List (Node × Node)) (i : Nat) : marked.entries a place i es =
    (es.zipIdx i).map fun e =>
      (e.1.1.marked a (0 :: e.2 :: place), e.1.2.marked a (1 :: e.2 :: place)) := by
  induction es generalizing i with
  | nil => rfl
  | cons e rest ih =>
    obtain ⟨k, v⟩ := e
    rw [marked.entries, ih, List.zipIdx_cons, List.map_cons]

theorem parts_marked (n : Node) :
    (n.marked a place).parts = (n.placed place).map fun e => e.2.marked a e.1 := by
  cases n with
  | scalar t x => rfl
  | sequence t xs =>
    rw [marked, parts, items_marked, placed, List.map_map]
    rfl
  | mapping t es m =>
    rw [marked, parts, entries_marked, placed, List.flatMap_map, List.map_flatMap]
    rfl

theorem mem_parts_of_placed {e : List Nat × Node} (h : e ∈ n.placed place) : e.2 ∈ n.parts := by
  cases n with
  | scalar t x => cases h
  | sequence t xs =>
    obtain ⟨f, hf, rfl⟩ := List.mem_map.1 h
    exact List.fst_mem_of_mem_zipIdx hf
  | mapping t es m =>
    obtain ⟨f, hf, he⟩ := List.mem_flatMap.1 h
    refine List.mem_flatMap.2 ⟨f.1, List.fst_mem_of_mem_zipIdx hf, ?_⟩
    simp at he ⊢
    rcases he with rfl | rfl
    · exact Or.inl rfl
    · exact Or.inr rfl

/-- The place of a part lies inside that of the node. -/
theorem lt_of_placed {e : List Nat × Node} (h : e ∈ n.placed place) :
    place <:+ e.1 ∧ place.length < e.1.length := by
  cases n with
  | scalar t x => cases h
  | sequence t xs =>
    obtain ⟨f, -, rfl⟩ := List.mem_map.1 h
    exact ⟨List.suffix_cons _ _, Nat.lt_succ_self _⟩
  | mapping t es m =>
    obtain ⟨f, -, he⟩ := List.mem_flatMap.1 h
    simp at he
    rcases he with rfl | rfl
    · exact ⟨⟨[0, f.2], rfl⟩, Nat.lt_add_of_pos_right Nat.two_pos⟩
    · exact ⟨⟨[1, f.2], rfl⟩, Nat.lt_add_of_pos_right Nat.two_pos⟩

/-- The places of the parts differ, and all of them are equally deep. -/
theorem placed_apart {e f : List Nat × Node} (he : e ∈ n.placed place) (hf : f ∈ n.placed place) :
    e.1.length = f.1.length ∧ (e.1 = f.1 → e = f) := by
  cases n with
  | scalar t x => cases he
  | sequence t xs =>
    obtain ⟨⟨x, i⟩, hx, rfl⟩ := List.mem_map.1 he
    obtain ⟨⟨y, j⟩, hy, rfl⟩ := List.mem_map.1 hf
    refine ⟨rfl, fun hplace => ?_⟩
    obtain ⟨rfl, -⟩ := List.cons.inj hplace
    rw [List.mem_zipIdx_iff_getElem?] at hx hy
    rw [Option.some.inj (hx.symm.trans hy)]
  | mapping t es m =>
    obtain ⟨⟨x, i⟩, hx, he⟩ := List.mem_flatMap.1 he
    obtain ⟨⟨y, j⟩, hy, hf⟩ := List.mem_flatMap.1 hf
    rw [List.mem_zipIdx_iff_getElem?] at hx hy
    have hsame : i = j → x = y := fun hij => Option.some.inj (hx.symm.trans (hij ▸ hy))
    simp only [List.mem_cons, List.not_mem_nil, or_false] at he hf
    rcases he with rfl | rfl <;> rcases hf with rfl | rfl <;> refine ⟨rfl, fun hplace => ?_⟩ <;>
      obtain ⟨hside, hplace⟩ := List.cons.inj hplace <;>
      obtain ⟨hindex, -⟩ := List.cons.inj hplace
    · rw [hindex, hsame hindex]
    · cases hside
    · cases hside
    · rw [hindex, hsame hindex]

/-- No place lies inside those of two parts. -/
theorem eq_of_placed {e f : List Nat × Node} (he : e ∈ n.placed place) (hf : f ∈ n.placed place)
    {q : List Nat} (heq : e.1 <:+ q) (hfq : f.1 <:+ q) : e = f := by
  obtain ⟨hlength, hplaces⟩ := placed_apart he hf
  exact hplaces ((List.suffix_of_suffix_length_le heq hfq (Nat.le_of_eq hlength)).eq_of_length
    hlength)

/-- A node whose mappings all have marks keeps them. -/
theorem marked_of_full (h : Full n) : n.marked a place = n := by
  induction h generalizing place with
  | @mk n hself hparts ih =>
    cases n with
    | scalar t x => rfl
    | sequence t xs =>
      rw [marked, items_marked]
      refine congrArg _ ((List.map_congr_left fun e he =>
        ih e.1 (List.fst_mem_of_mem_zipIdx he)).trans (List.zipIdx_map_fst 0 xs))
    | mapping t es m =>
      have hm : m.or (some ⟨0, a, place⟩) = m := by
        cases m with
        | none => exact (hself t es rfl).elim
        | some m => rfl
      have hentries : marked.entries a place 0 es = es := by
        rw [entries_marked]
        refine (List.map_congr_left fun e he => ?_).trans (List.zipIdx_map_fst 0 es)
        have hmem := List.fst_mem_of_mem_zipIdx he
        rw [ih e.1.1 (List.mem_flatMap.2 ⟨e.1, hmem, by simp⟩),
          ih e.1.2 (List.mem_flatMap.2 ⟨e.1, hmem, by simp⟩)]
      rw [marked, hentries, hm]

theorem full_marked (n : Node) : Full (n.marked a place) := by
  induction n using inductionOnParts generalizing place with
  | mk n ih =>
    refine .mk ?_ fun p hp => ?_
    · intro t es h
      cases n with
      | scalar t x => cases h
      | sequence t xs => cases h
      | mapping t es m => cases m <;> cases h
    · rw [parts_marked] at hp
      obtain ⟨e, he, rfl⟩ := List.mem_map.1 hp
      exact ih e.2 (mem_parts_of_placed he)

theorem Full.of_shares {m : Mark} {x : Node} (h : Full n) (hx : Shares m x n) : Full x := by
  induction hx with
  | self => exact h
  | part hp _ ih =>
    obtain ⟨-, hparts⟩ := h
    exact ih (hparts _ hp)

/-- The mark that a node is given, unless it has one. -/
theorem mark?_marked {m : Mark} (h : (n.marked a place).mark? = some m) :
    n.mark? = some m ∨ n.mark? = none ∧ m = ⟨0, a, place⟩ := by
  cases n with
  | scalar t x => cases h
  | sequence t xs => cases h
  | mapping t es m' =>
    cases m' with
    | none => exact Or.inr ⟨rfl, (Option.some.inj h).symm⟩
    | some m' => exact Or.inl h

/-- A mapping with a mark of the anchor is at its place. -/
theorem shares_marked (hfull : ∀ m x, Shares m x n → Full x) {m : Mark} {x : Node}
    (h : Shares m x (n.marked a place)) :
    Shares m x n ∨ m.anchor = a ∧ place <:+ m.place := by
  induction n using inductionOnParts generalizing place with
  | mk n ih =>
    cases hmark : n.mark? with
    | some m' =>
      rw [marked_of_full (hfull _ _ (.self hmark))] at h
      exact Or.inl h
    | none =>
      cases h with
      | self hm =>
        rcases mark?_marked hm with hm | ⟨-, rfl⟩
        · rw [hmark] at hm
          cases hm
        · exact Or.inr ⟨rfl, List.suffix_refl _⟩
      | part hp hx =>
        rw [parts_marked] at hp
        obtain ⟨e, he, rfl⟩ := List.mem_map.1 hp
        have hpart := mem_parts_of_placed he
        rcases ih e.2 hpart (fun m x hx => hfull m x (.part hpart hx)) hx with hx | ⟨ha, hm⟩
        · exact Or.inl (.part hpart hx)
        · exact Or.inr ⟨ha, (lt_of_placed he).1.trans hm⟩

/-- A mark that is new belongs to one mapping. -/
theorem eq_of_shares_marked (hfull : ∀ m x, Shares m x n → m.anchor ≠ a ∧ Full x) {m : Mark}
    {x y : Node} (ha : m.anchor = a) (hx : Shares m x (n.marked a place))
    (hy : Shares m y (n.marked a place)) : x = y := by
  induction n using inductionOnParts generalizing place with
  | mk n ih =>
    have hplace : ∀ {e : List Nat × Node}, e ∈ n.placed place → ∀ {z : Node},
        Shares m z (e.2.marked a e.1) → e.1 <:+ m.place := by
      intro e he z hz
      have hpart := mem_parts_of_placed he
      rcases shares_marked (fun m x hx => (hfull m x (.part hpart hx)).2) hz with hz | ⟨-, hm⟩
      · exact ((hfull m z (.part hpart hz)).1 ha).elim
      · exact hm
    -- The mark of the node itself is at no place of a part.
    have hself : (n.marked a place).mark? = some m → ∀ {z : Node} {p : Node},
        p ∈ (n.marked a place).parts → ¬ Shares m z p := by
      intro hm z p hp hz
      rw [parts_marked] at hp
      obtain ⟨e, he, rfl⟩ := List.mem_map.1 hp
      have hlt := (lt_of_placed he).2
      rcases mark?_marked hm with hm | ⟨-, rfl⟩
      · exact (hfull m n (.self hm)).1 ha
      · exact absurd (hplace he hz).length_le (by simpa using hlt)
    cases hx with
    | self hm =>
      cases hy with
      | self => rfl
      | part hp hy => exact (hself hm hp hy).elim
    | part hp hx =>
      cases hy with
      | self hm => exact (hself hm hp hx).elim
      | part hq hy =>
        rw [parts_marked] at hp hq
        obtain ⟨e, he, rfl⟩ := List.mem_map.1 hp
        obtain ⟨f, hf, rfl⟩ := List.mem_map.1 hq
        obtain rfl := eq_of_placed he hf (hplace he hx) (hplace hf hy)
        have hpart := mem_parts_of_placed he
        exact ih e.2 hpart (fun m x hx => hfull m x (.part hpart hx)) hx hy

end Marked

/-! ## Steps of a reader -/

namespace Reader

/-- A mapping with a mark lies in the node of an anchor. -/
def Knows (r : Reader) (m : Mark) (x : Node) : Prop :=
  ∃ a n, r.anchors.get? a = some (some n) ∧ Shares m x n

/-- All mappings with marks in the node are known. -/
def Known (r : Reader) (n : Node) : Prop :=
  ∀ m x, Shares m x n → r.Knows m x

/-- A mark belongs to one mapping, in a node whose anchor has been read. -/
structure Sound (r : Reader) : Prop where
  one : ∀ {m x y}, r.Knows m x → r.Knows m y → x = y
  named : ∀ {m x}, r.Knows m x → ∃ n, r.anchors.get? m.anchor = some (some n)
  full : ∀ {a n}, r.anchors.get? a = some (some n) → Full n

/-- What is known of anchors stays. -/
def Grows (r s : Reader) : Prop :=
  ∀ a n, r.anchors.get? a = some n → s.anchors.get? a = some n

theorem Grows.known {r s : Reader} (h : r.Grows s) {n : Node} (hn : r.Known n) : s.Known n := by
  intro m x hx
  obtain ⟨a, n', ha, hx⟩ := hn m x hx
  exact ⟨a, n', h a _ ha, hx⟩

/-- The mappings with marks in the node lie in one of the nodes. -/
def Covered (given : List Node) (n : Node) : Prop :=
  ∀ m x, Shares m x n → ∃ g ∈ given, Shares m x g

/-- The reader stays sound in a step, and what the step gives is known, as long as what it is given
    is. -/
def Reads {α : Type} (given : List Node) (x : Reading α) (nodes : α → List Node) : Prop :=
  ∀ r a s, x r = .ok (a, s) → r.Sound → (∀ n ∈ given, r.Known n) →
    s.Sound ∧ r.Grows s ∧ ∀ n ∈ nodes a, s.Known n

section Steps

variable {α β : Type} {given : List Node} {nodes : α → List Node}

theorem run_bind_eq_ok {x : Reading α} {f : α → Reading β} {r s : Reader} {b : β} :
    (x >>= f) r = .ok (b, s) ↔ ∃ a t, x r = .ok (a, t) ∧ f a t = .ok (b, s) := by
  refine bind_eq_ok.trans ?_
  simp only [Prod.exists]

theorem Reads.bind {x : Reading α} {f : α → Reading β} {more : β → List Node}
    (hx : Reads given x nodes) (hf : ∀ a, Reads (nodes a ++ given) (f a) more) :
    Reads given (x >>= f) more := by
  intro r b s hrun hr hgiven
  obtain ⟨a, t, hrun, hrest⟩ := run_bind_eq_ok.1 hrun
  obtain ⟨ht, hgrows, hnodes⟩ := hx _ _ _ hrun hr hgiven
  have hgiven' : ∀ n ∈ nodes a ++ given, t.Known n := fun n hn => by
    rcases List.mem_append.1 hn with hn | hn
    · exact hnodes n hn
    · exact hgrows.known (hgiven n hn)
  obtain ⟨hs, hgrows', hmore⟩ := hf a _ _ _ hrest ht hgiven'
  exact ⟨hs, fun a n ha => hgrows' a n (hgrows a n ha), hmore⟩

theorem reads_pure {a : α} (h : ∀ n ∈ nodes a, Covered given n) : Reads given (pure a) nodes := by
  intro r b s hrun hr hgiven
  cases pure_eq_ok.1 hrun
  refine ⟨hr, fun _ _ ha => ha, fun n hn m x hx => ?_⟩
  obtain ⟨g, hg, hx⟩ := h n hn m x hx
  exact hgiven g hg m x hx

theorem reads_pure_of_subset {a : α} (h : ∀ n ∈ nodes a, n ∈ given) : Reads given (pure a) nodes :=
  reads_pure fun n hn _ _ hx => ⟨n, h n hn, hx⟩

theorem reads_reject (why : Malformed) : Reads given (reject why) nodes := by
  intro r b s hrun
  cases hrun

/-- A step that leaves the anchors alone. -/
theorem reads_of_anchors {x : Reading α}
    (h : ∀ r a s, x r = .ok (a, s) → s.anchors = r.anchors) : Reads given x fun _ => [] := by
  intro r a s hrun hr _
  have hanchors := h r a s hrun
  have hknows : ∀ {m x}, s.Knows m x → r.Knows m x := by
    rintro m x ⟨a, n, ha, hx⟩
    exact ⟨a, n, hanchors ▸ ha, hx⟩
  refine ⟨⟨fun hx hy => hr.one (hknows hx) (hknows hy), fun hx => ?_, fun ha => ?_⟩,
    fun a n ha => hanchors ▸ ha, fun n hn => nomatch hn⟩
  · rw [hanchors]
    exact hr.named (hknows hx)
  · exact hr.full (hanchors ▸ ha)

theorem reads_get : Reads given (get : Reading Reader) fun _ => [] :=
  reads_of_anchors fun _ _ _ hrun => by
    cases hrun
    rfl

theorem reads_peek : Reads given peek fun _ => [] := by
  refine reads_of_anchors fun r a s hrun => ?_
  obtain ⟨rest, fault, handles, anchors⟩ := r
  cases rest <;> cases hrun
  rfl

theorem reads_skip : Reads given skip fun _ => [] :=
  reads_of_anchors fun _ _ _ hrun => by
    cases hrun
    rfl

theorem resolve_eq_ok {name : Text} {r s : Reader} {n : Node} (h : resolve name r = .ok (n, s)) :
    r.anchors.get? name = some (some n) ∧ s = r := by
  obtain ⟨r', t, hget, h⟩ := run_bind_eq_ok.1 h
  cases hget
  cases hanchor : r.anchors.get? name with
  | none =>
    rw [hanchor] at h
    cases h
  | some n? =>
    rw [hanchor] at h
    cases n? <;> cases h
    exact ⟨rfl, rfl⟩

theorem reads_resolve (name : Text) : Reads given (resolve name) fun n => [n] := by
  intro r n s hrun hr _
  obtain ⟨hanchor, rfl⟩ := resolve_eq_ok hrun
  refine ⟨hr, fun _ _ ha => ha, List.forall_mem_singleton.2 fun m x hx => ⟨name, n, hanchor, hx⟩⟩

/-! ## Nodes with anchors -/

theorem declare_eq_ok {name : Option Text} {r s : Reader} (h : declare name r = .ok ((), s)) :
    (name = none ∧ s = r) ∨ ∃ a, name = some a ∧ r.anchors.has a = false ∧
      s = { r with anchors := r.anchors.insert a none } := by
  cases name with
  | none =>
    cases h
    exact Or.inl ⟨rfl, rfl⟩
  | some a =>
    obtain ⟨r', t, hget, h⟩ := run_bind_eq_ok.1 h
    cases hget
    cases hhas : r.anchors.has a with
    | true =>
      rw [hhas] at h
      cases h
    | false =>
      rw [hhas] at h
      cases h
      exact Or.inr ⟨a, rfl, hhas, rfl⟩

theorem define_eq_ok {name : Option Text} {n n' : Node} {r s : Reader}
    (h : define name n r = .ok (n', s)) :
    (name = none ∧ n' = n ∧ s = r) ∨ ∃ a, name = some a ∧ n' = n.marked a [] ∧
      s = { r with anchors := r.anchors.insert a (some n') } := by
  cases name with
  | none =>
    cases h
    exact Or.inl ⟨rfl, rfl, rfl⟩
  | some a =>
    cases h
    exact Or.inr ⟨a, rfl, rfl, rfl⟩

section Anchor

variable {r : Reader} {a : Text}

theorem grows_insert (ha : r.anchors.has a = false) (n? : Option Node) :
    r.Grows { r with anchors := r.anchors.insert a n? } := by
  intro b n hb
  show (r.anchors.insert a n?).get? b = some n
  rw [Table.get?_insert, if_neg, hb]
  rintro rfl
  rw [Table.get?_eq_none_of_has ha] at hb
  cases hb

/-- An anchor whose node is still to be read adds nothing to what is known. -/
theorem Sound.declare (h : r.Sound) (ha : r.anchors.has a = false) :
    Sound { r with anchors := r.anchors.insert a none } := by
  have hget : ∀ {b n}, (r.anchors.insert a none).get? b = some (some n) →
      r.anchors.get? b = some (some n) := fun {b n} hb => by
    rw [Table.get?_insert] at hb
    split at hb
    · cases hb
    · exact hb
  have hknows : ∀ {m x}, Knows { r with anchors := r.anchors.insert a none } m x → r.Knows m x :=
    fun ⟨b, n, hb, hx⟩ => ⟨b, n, hget hb, hx⟩
  refine ⟨fun hx hy => h.one (hknows hx) (hknows hy), fun hx => ?_, fun hb => h.full (hget hb)⟩
  obtain ⟨n, hn⟩ := h.named (hknows hx)
  exact ⟨n, grows_insert ha none _ _ hn⟩

/-- The node of an anchor becomes known when it has been read. -/
theorem Sound.define (h : r.Sound) (ha : r.anchors.get? a = some none) {n : Node}
    (hn : r.Known n) : Sound { r with anchors := r.anchors.insert a (some (n.marked a [])) } := by
  -- What was known has no marks of the anchor.
  have hother : ∀ {m x}, r.Knows m x → m.anchor ≠ a := by
    rintro m x hx rfl
    obtain ⟨n', hn'⟩ := h.named hx
    rw [ha] at hn'
    cases hn'
  have hfull : ∀ m x, Shares m x n → m.anchor ≠ a ∧ Full x := by
    intro m x hx
    obtain ⟨b, n', hb, hx'⟩ := hn m x hx
    exact ⟨hother ⟨b, n', hb, hx'⟩, (h.full hb).of_shares hx'⟩
  have hknows : ∀ {m x}, Knows { r with anchors := r.anchors.insert a (some (n.marked a [])) } m x →
      r.Knows m x ∨ m.anchor = a ∧ Shares m x (n.marked a []) := by
    rintro m x ⟨b, n', hb, hx⟩
    rw [Table.get?_insert] at hb
    split at hb
    · next hab =>
      obtain rfl := Option.some.inj (Option.some.inj hb)
      rcases shares_marked (fun m x hx => (hfull m x hx).2) hx with hx' | ⟨hm, -⟩
      · exact Or.inl (hn m x hx')
      · exact Or.inr ⟨hm, hx⟩
    · exact Or.inl ⟨b, n', hb, hx⟩
  refine ⟨fun {m x y} hx hy => ?_, fun {m x} hx => ?_, fun {b n'} hb => ?_⟩
  · rcases hknows hx with hx | ⟨hm, hx⟩ <;> rcases hknows hy with hy | ⟨hm', hy⟩
    · exact h.one hx hy
    · exact (hother hx hm').elim
    · exact (hother hy hm).elim
    · exact eq_of_shares_marked hfull hm hx hy
  · show ∃ n', (r.anchors.insert a _).get? m.anchor = some (some n')
    rw [Table.get?_insert]
    split
    · exact ⟨_, rfl⟩
    · next hm =>
      rcases hknows hx with hx | ⟨hm', -⟩
      · exact h.named hx
      · exact (hm hm'.symm).elim
  · rw [Table.get?_insert] at hb
    split at hb
    · rw [← Option.some.inj (Option.some.inj hb)]
      exact full_marked n
    · exact h.full hb

end Anchor

/-- A node that is read with the properties in front of it. -/
theorem reads_anchored {x : Reading α} (hx : Reads given x nodes) (name : Option Text)
    {f : α → Node} (hf : ∀ a, (f a).mark? = none) (hparts : ∀ a, ∀ p ∈ (f a).parts, p ∈ nodes a) :
    Reads given (do
      declare name
      let a ← x
      define name (f a)) fun n => [n] := by
  intro r n s hrun hr hgiven
  obtain ⟨⟨⟩, t, hdeclare, hrun⟩ := run_bind_eq_ok.1 hrun
  obtain ⟨b, u, hx', hdefine⟩ := run_bind_eq_ok.1 hrun
  have hnode : ∀ {u : Reader}, (∀ n ∈ nodes b, u.Known n) → u.Known (f b) := by
    intro u hu m x hx
    obtain ⟨p, hp, hx⟩ := (shares_iff (hf b)).1 hx
    exact hu p (hparts b p hp) m x hx
  rcases declare_eq_ok hdeclare with ⟨rfl, rfl⟩ | ⟨a, rfl, hnew, rfl⟩
  · rcases define_eq_ok hdefine with ⟨-, rfl, rfl⟩ | ⟨a, ha, -⟩
    · obtain ⟨hs, hgrows, hnodes⟩ := hx _ _ _ hx' hr hgiven
      exact ⟨hs, hgrows, List.forall_mem_singleton.2 (hnode hnodes)⟩
    · cases ha
  · rcases define_eq_ok hdefine with ⟨ha, -⟩ | ⟨a', ha, rfl, rfl⟩
    · cases ha
    · obtain rfl := Option.some.inj ha
      have hgrows := grows_insert hnew none
      obtain ⟨hu, hgrows', hnodes⟩ := hx _ _ _ hx' (hr.declare hnew) fun n hn =>
        hgrows.known (hgiven n hn)
      have hopen : u.anchors.get? a = some none := hgrows' a none (by
        show (r.anchors.insert a none).get? a = _
        rw [Table.get?_insert, if_pos rfl])
      refine ⟨hu.define hopen (hnode hnodes), fun c n hc => ?_,
        List.forall_mem_singleton.2 fun m x hx => ⟨a, _, ?_, hx⟩⟩
      · show (u.anchors.insert a _).get? c = some n
        rw [Table.get?_insert, if_neg, hgrows' c n (hgrows c n hc)]
        rintro rfl
        rw [Table.get?_eq_none_of_has hnew] at hc
        cases hc
      · show (u.anchors.insert a _).get? a = _
        rw [Table.get?_insert, if_pos rfl]

end Steps

/-! ## Nodes -/

section Nodes

variable {α β : Type} {given : List Node} {nodes : α → List Node}

/-- What only leaves anchors alone can be done first. -/
theorem Reads.after {x : Reading β} {f : β → Reading α} (hx : Reads given x fun _ => [])
    (hf : ∀ b, Reads given (f b) nodes) : Reads given (x >>= f) nodes :=
  hx.bind hf

/-- What may have to be read first does not count. -/
theorem Reads.after_if {c : Prop} [Decidable c] {x : Reading β} {y : Reading α}
    (hx : Reads given x fun _ => []) (hy : Reads given y nodes) :
    Reads given (if c then x >>= fun _ => y else y) nodes := by
  split
  · exact hx.after fun _ => hy
  · exact hy

theorem reads_expect (t : Token) : Reads given (expect t) fun _ => [] := by
  refine reads_peek.after fun t' => ?_
  split
  · exact reads_skip
  · exact reads_reject _

theorem reads_anchor? : Reads given anchor? fun _ => [] := by
  refine reads_peek.after fun t => ?_
  split
  · exact reads_skip.after fun _ => reads_pure (by simp)
  · exact reads_pure (by simp)

theorem reads_tag? : Reads given tag? fun _ => [] := by
  refine reads_peek.after fun t => ?_
  split
  · exact reads_skip.after fun _ => reads_pure (by simp)
  · exact reads_pure (by simp)

theorem reads_properties : Reads given properties fun _ => [] := by
  refine reads_anchor?.after fun name => ?_
  cases name with
  | some name => exact reads_tag?.after fun _ => reads_pure (by simp)
  | none =>
    refine reads_tag?.after fun t => ?_
    cases t with
    | some t => exact reads_anchor?.after fun _ => reads_pure (by simp)
    | none => exact reads_pure (by simp)

theorem reads_tagName (t : RawTag) : Reads given (tagName t) fun _ => [] := by
  unfold tagName
  split
  · exact reads_pure (by simp)
  · refine reads_get.after fun r => ?_
    split
    · exact reads_pure (by simp)
    · exact reads_reject _

theorem reads_tagNames (t : Option RawTag) : Reads given (t.mapM tagName) fun _ => [] := by
  cases t with
  | none => exact reads_pure (by simp)
  | some t => exact (reads_tagName t).after fun _ => reads_pure (by simp)

/-- A node without parts and without a mark has nothing to be known. -/
theorem covered_scalar (tag : Tag) (t : Text) : Covered given (.scalar tag t) := by
  intro m x hx
  obtain ⟨p, hp, -⟩ := (shares_iff rfl).1 hx
  cases hp

/-- A key among the items of a sequence is a mapping of its own. -/
theorem covered_entry {k v : Node} (hk : k ∈ given) (hv : v ∈ given) :
    Covered given (.mapping .map [(k, v)]) := by
  intro m x hx
  obtain ⟨p, hp, hpart⟩ := (shares_iff rfl).1 hx
  have hp : p = k ∨ p = v := by simpa [parts] using hp
  rcases hp with rfl | rfl
  · exact ⟨p, hk, hpart⟩
  · exact ⟨p, hv, hpart⟩

theorem reads_scalar (anchor : Option Text) (tag : Tag) (t : Text) :
    Reads given (do
      declare anchor
      define anchor (.scalar tag t)) fun n => [n] := by
  have hnothing : Reads given (pure () : Reading Unit) fun _ => [] := reads_pure (by simp)
  exact reads_anchored hnothing anchor (f := fun _ => .scalar tag t) (fun _ => rfl)
    (by simp [parts])

theorem reads_bare (anchor name : Option Text) : Reads given (bare anchor name) fun n => [n] := by
  unfold bare
  split
  · exact reads_reject _
  · exact reads_scalar anchor _ _

theorem reads_empty : Reads given (pure Node.empty) fun n => [n] :=
  reads_pure (List.forall_mem_singleton.2 (covered_scalar _ _))

/-- The nodes of the entries of a mapping. -/
def entryNodes (es : List (Node × Node)) : List Node :=
  es.flatMap fun e => [e.1, e.2]

theorem entryNodes_cons (k v : Node) (es : List (Node × Node)) :
    entryNodes ((k, v) :: es) = k :: v :: entryNodes es := rfl

/-- The readers of nodes with a bound. -/
structure ReadsNodes (bound : Nat) : Prop where
  node : ∀ given block indentless, Reads given (node bound block indentless) fun n => [n]
  nodeUnless : ∀ given stops block indentless,
    Reads given (nodeUnless bound stops block indentless) fun n => [n]
  valueUnless : ∀ given stops block, Reads given (valueUnless bound stops block) fun n => [n]
  blockItems : ∀ given, Reads given (blockItems bound) fun ns => ns
  looseEntries : ∀ given, Reads given (looseEntries bound) fun ns => ns
  flowItems : ∀ given first, Reads given (flowItems bound first) fun ns => ns
  blockEntries : ∀ given, Reads given (blockEntries bound) entryNodes
  flowEntries : ∀ given first, Reads given (flowEntries bound first) entryNodes

section Bound

variable {bound : Nat} (h : ReadsNodes bound)
include h

theorem reads_node (block indentless : Bool) :
    Reads given (node (bound + 1) block indentless) fun n => [n] := by
  rw [node]
  refine reads_peek.after fun t => ?_
  split
  · exact reads_skip.after fun _ => reads_resolve _
  · refine reads_properties.after fun p => (reads_tagNames p.2).after fun name =>
      reads_peek.after fun t => ?_
    split
    · split
      · exact reads_anchored (h.looseEntries given) p.1 (fun _ => rfl) fun _ _ hp => hp
      · exact reads_bare _ _
    · exact reads_skip.after fun _ => reads_scalar _ _ _
    · exact reads_skip.after fun _ =>
        reads_anchored (h.flowItems given true) p.1 (fun _ => rfl) fun _ _ hp => hp
    · exact reads_skip.after fun _ =>
        reads_anchored (h.flowEntries given true) p.1 (fun _ => rfl) fun _ _ hp => hp
    · split
      · exact reads_skip.after fun _ =>
          reads_anchored (h.blockItems given) p.1 (fun _ => rfl) fun _ _ hp => hp
      · exact reads_bare _ _
    · split
      · exact reads_skip.after fun _ =>
          reads_anchored (h.blockEntries given) p.1 (fun _ => rfl) fun _ _ hp => hp
      · exact reads_bare _ _
    · exact reads_bare _ _

theorem reads_nodeUnless (stops : List Token) (block indentless : Bool) :
    Reads given (nodeUnless (bound + 1) stops block indentless) fun n => [n] := by
  rw [nodeUnless]
  refine reads_peek.after fun t => ?_
  split
  · exact reads_empty
  · exact h.node given block indentless

theorem reads_valueUnless (stops : List Token) (block : Bool) :
    Reads given (valueUnless (bound + 1) stops block) fun n => [n] := by
  rw [valueUnless]
  refine reads_peek.after fun t => ?_
  split
  · exact reads_skip.after fun _ => h.nodeUnless given stops block block
  · exact reads_empty

theorem reads_blockItems : Reads given (blockItems (bound + 1)) fun ns => ns := by
  rw [blockItems]
  refine reads_peek.after fun t => ?_
  split
  · exact reads_skip.after fun _ => (h.nodeUnless given _ true false).bind fun n =>
      (h.blockItems _).bind fun ns => reads_pure_of_subset (by grind)
  · exact (reads_expect _).after fun _ => reads_pure_of_subset (by simp)

theorem reads_looseEntries : Reads given (looseEntries (bound + 1)) fun ns => ns := by
  rw [looseEntries]
  refine reads_peek.after fun t => ?_
  split
  · exact reads_skip.after fun _ => (h.nodeUnless given _ true false).bind fun n =>
      (h.looseEntries _).bind fun ns => reads_pure_of_subset (by grind)
  · exact reads_pure_of_subset (by simp)

theorem reads_blockEntries : Reads given (blockEntries (bound + 1)) entryNodes := by
  rw [blockEntries]
  refine reads_peek.after fun t => ?_
  split
  · exact reads_skip.after fun _ => (h.nodeUnless given _ true true).bind fun k =>
      (h.valueUnless _ _ true).bind fun v => (h.blockEntries _).bind fun es =>
        reads_pure_of_subset (by grind [entryNodes_cons])
  · exact (reads_expect _).after fun _ => reads_pure_of_subset (by simp [entryNodes])

theorem reads_flowItems (first : Bool) :
    Reads given (flowItems (bound + 1) first) fun ns => ns := by
  rw [flowItems]
  refine reads_peek.after fun t => ?_
  split
  · exact reads_skip.after fun _ => reads_pure_of_subset (by simp)
  · -- There is a comma, unless it is the first item.
    refine (reads_expect _).after_if (reads_peek.after fun t => ?_)
    split
    · refine reads_skip.after fun _ => (h.nodeUnless given _ false false).bind fun k =>
        (h.valueUnless _ _ false).bind fun v => (h.flowItems _ false).bind fun ns =>
          reads_pure (List.forall_mem_cons.2 ⟨covered_entry ?_ ?_, ?_⟩)
      · simp
      · simp
      · exact fun n hn m x hx => ⟨n, by simp [hn], hx⟩
    · exact reads_skip.after fun _ => reads_pure_of_subset (by simp)
    · exact (h.node given false false).bind fun n => (h.flowItems _ false).bind fun ns =>
        reads_pure_of_subset (by grind)

theorem reads_flowEntries (first : Bool) :
    Reads given (flowEntries (bound + 1) first) entryNodes := by
  rw [flowEntries]
  refine reads_peek.after fun t => ?_
  split
  · exact reads_skip.after fun _ => reads_pure_of_subset (by simp [entryNodes])
  · refine (reads_expect _).after_if (reads_peek.after fun t => ?_)
    split
    · exact reads_skip.after fun _ => (h.nodeUnless given _ false false).bind fun k =>
        (h.valueUnless _ _ false).bind fun v => (h.flowEntries _ false).bind fun es =>
          reads_pure_of_subset (by grind [entryNodes_cons])
    · exact reads_skip.after fun _ => reads_pure_of_subset (by simp [entryNodes])
    · refine (h.node given false false).bind fun k => (h.flowEntries _ false).bind fun es =>
        reads_pure (List.forall_mem_cons.2 ⟨?_, List.forall_mem_cons.2 ⟨covered_scalar _ _, ?_⟩⟩)
      · exact fun m x hx => ⟨k, by simp, hx⟩
      · exact fun n hn m x hx => ⟨n, List.mem_append_left _ hn, hx⟩

end Bound

theorem readsNodes (bound : Nat) : ReadsNodes bound := by
  induction bound with
  | zero =>
    constructor <;> intros
    · rw [node]
      exact reads_reject _
    · rw [nodeUnless]
      exact reads_reject _
    · rw [valueUnless]
      exact reads_reject _
    · rw [blockItems]
      exact reads_reject _
    · rw [looseEntries]
      exact reads_reject _
    · rw [flowItems]
      exact reads_reject _
    · rw [blockEntries]
      exact reads_reject _
    · rw [flowEntries]
      exact reads_reject _
  | succ bound ih =>
    exact ⟨fun _ => reads_node ih, fun _ => reads_nodeUnless ih, fun _ => reads_valueUnless ih,
      fun _ => reads_blockItems ih, fun _ => reads_looseEntries ih, fun _ => reads_flowItems ih,
      fun _ => reads_blockEntries ih, fun _ => reads_flowEntries ih⟩

/-! ## Documents -/

theorem reads_directives (bound : Nat) (versioned : Bool) (handles : Table Text) :
    Reads given (directives bound versioned handles) fun _ => [] := by
  induction bound generalizing versioned handles with
  | zero =>
    rw [directives]
    exact reads_reject _
  | succ bound ih =>
    rw [directives]
    refine reads_peek.after fun t => ?_
    split
    · refine reads_skip.after fun _ => ?_
      dsimp only
      split
      · exact (reads_reject _).after fun _ => ih true handles
      · exact ih true handles
    · refine reads_skip.after fun _ => ?_
      dsimp only
      split
      · exact (reads_reject _).after fun _ => ih versioned _
      · exact ih versioned _
    · exact reads_skip.after fun _ => ih versioned handles
    · exact reads_pure (by simp)

theorem reads_skipEnds (bound : Nat) : Reads given (skipEnds bound) fun _ => [] := by
  induction bound with
  | zero => exact reads_pure (by simp)
  | succ bound ih =>
    rw [skipEnds]
    refine reads_peek.after fun t => ?_
    split
    · exact reads_skip.after fun _ => ih
    · exact reads_pure (by simp)

theorem reads_documentStart : Reads given documentStart fun _ => [] := by
  refine reads_get.after fun r => (reads_directives _ _ _).after fun handles =>
    (reads_expect _).after fun _ => ?_
  exact reads_of_anchors fun _ _ _ hrun => by
    cases hrun
    rfl

theorem reads_content (bound : Nat) : Reads given (content bound) fun n => [n] := by
  refine reads_peek.after fun t => ?_
  split
  · exact reads_empty
  · exact reads_empty
  · exact reads_empty
  · exact reads_empty
  · exact (readsNodes bound).node given true false

theorem reads_finish : Reads given finish fun _ => [] := by
  refine reads_get.after fun r => (reads_skipEnds _).after fun _ => reads_peek.after fun t => ?_
  split
  · exact reads_documentStart.after fun _ => reads_reject _
  · exact reads_pure (by simp)

theorem reads_stream : Reads [] stream Option.toList := by
  have hend : ∀ n : Node, Reads ([n] ++ []) (do
      finish
      return some n) Option.toList := fun n =>
    reads_finish.after fun _ => reads_pure_of_subset (by simp)
  refine reads_get.after fun r => reads_peek.after fun t => ?_
  split
  · exact reads_pure (by simp)
  · exact reads_documentStart.after fun _ => (reads_content _).bind hend
  · exact reads_documentStart.after fun _ => (reads_content _).bind hend
  · exact ((readsNodes _).node [] true false).bind hend

end Nodes

end Reader

/-- A mark of a document belongs to one mapping. -/
theorem eq_of_shares {l : Lexed} {n : Node} (h : ofTokens? l = .ok (some n)) {m : Mark} {x y : Node}
    (hx : Shares m x n) (hy : Shares m y n) : x = y := by
  unfold ofTokens? at h
  rcases hrun : stream.run ⟨l.tokens, l.fault, commonHandles, []⟩ with e | ⟨n?, s⟩
  · rw [hrun] at h
    cases h
  · rw [hrun] at h
    cases h
    have hstart : Sound ⟨l.tokens, l.fault, commonHandles, []⟩ := by
      refine ⟨fun hx => ?_, fun hx => ?_, fun ha => nomatch ha⟩
      · obtain ⟨a, n, ha, -⟩ := hx
        cases ha
      · obtain ⟨a, n, ha, -⟩ := hx
        cases ha
    obtain ⟨hs, -, hknown⟩ := reads_stream _ _ _ hrun hstart fun _ hn => nomatch hn
    have hn := hknown n (by simp)
    exact hs.one (hn m x hx) (hn m y hy)

end IdlBridge.Yaml.Node
