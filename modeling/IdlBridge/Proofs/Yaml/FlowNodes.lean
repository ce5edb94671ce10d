import IdlBridge.Proofs.Value.Loaded
import IdlBridge.Proofs.Yaml.FlowTokens
import IdlBridge.Yaml.Document

/-! # Nodes of a line in brackets

    The readers of sequences and of mappings in brackets differ in what they read of an item.  How
    they go from one item to the next is the same: `IsLoop` says what, and what holds of all items
    then follows once.

    Reading may fail, at a key that is too long to be one.  So a reader is described by what it
    gives, or by `none` where it fails.
-/

namespace IdlBridge.Yaml.Node

open Reader

/-! ## Steps of a reader -/

/-- The reader with other tokens ahead. -/
def Reader.before (r : Reader) (rest : List Token) : Reader := { r with rest := rest }

/-- A reading ends with a result in front of some tokens.  Without a result it fails. -/
def Outcome {α : Type} (x : Except Fault (α × Reader)) (r : Reader) : Option α → Prop
  | some a => x = .ok (a, r)
  | none => ∃ e, x = .error e

theorem Outcome.map {α β : Type} {x : Except Fault (α × Reader)} {r : Reader} {a? : Option α}
    (h : Outcome x r a?) (f : α → β) : Outcome (x.map fun p => (f p.1, p.2)) r (a?.map f) := by
  cases a? with
  | some a =>
    rw [show x = .ok (a, r) from h]
    rfl
  | none =>
    obtain ⟨e, rfl⟩ := h
    exact ⟨e, rfl⟩

/-- The tokens that a node can start with inside brackets. -/
inductive Starts : Token → Prop
  | scalar (t : Text) (plain : Bool) : Starts (.scalar t plain)
  | sequence : Starts .flowSequenceStart
  | mapping : Starts .flowMappingStart

/-- Tokens are read as a node, or cannot be read. -/
structure Gives (tokens : List Token) (n? : Option Node) : Prop where
  start : ∃ t more, tokens = t :: more ∧ Starts t
  outcome : ∀ (r : Reader) (rest : List Token) (bound : Nat) (block indentless : Bool),
    3 * tokens.length ≤ bound →
    Outcome (node bound block indentless (r.before (tokens ++ rest))) (r.before rest) n?

section Steps

variable (r : Reader) (rest : List Token) (bound : Nat) (block indentless : Bool)

theorem node_scalar (t : Text) (plain : Bool) :
    node (bound + 1) block indentless (r.before (.scalar t plain :: rest)) =
      .ok (.scalar (scalarTag none t plain) t, r.before rest) := by
  rw [node]
  rfl

theorem node_sequence :
    node (bound + 1) block indentless (r.before (.flowSequenceStart :: rest)) =
      (flowItems bound true (r.before rest)).map fun p => (.sequence .seq p.1, p.2) := by
  rw [node]
  show (flowItems bound true (r.before rest) >>= fun p =>
    Except.ok (Node.sequence .seq p.1, p.2)) = _
  cases flowItems bound true (r.before rest) <;> rfl

theorem node_mapping :
    node (bound + 1) block indentless (r.before (.flowMappingStart :: rest)) =
      (flowEntries bound true (r.before rest)).map fun p => (.mapping .map p.1, p.2) := by
  rw [node]
  show (flowEntries bound true (r.before rest) >>= fun p =>
    Except.ok (Node.mapping .map p.1, p.2)) = _
  cases flowEntries bound true (r.before rest) <;> rfl

end Steps

theorem gives_scalar (t : Text) (plain : Bool) :
    Gives [.scalar t plain] (some (.scalar (scalarTag none t plain) t)) where
  start := ⟨_, _, rfl, .scalar t plain⟩
  outcome := by
    intro r rest bound block indentless hbound
    obtain ⟨bound, rfl⟩ := Nat.exists_eq_add_of_le' (show 1 ≤ bound from by simp at hbound; omega)
    exact node_scalar r rest bound block indentless t plain

/-! ## From item to item -/

section Loops

variable {α : Type} {loop : Nat → Bool → Reading (List α)} {stop : Token}

/-- A reader of items that ends at a token, and wants a comma in front of each item but the
    first. -/
structure IsLoop (loop : Nat → Bool → Reading (List α)) (stop : Token) : Prop where
  stops : ∀ bound first r rest,
    loop (bound + 1) first (Reader.before r (stop :: rest)) = .ok ([], r.before rest)
  goesOn : ∀ bound r t rest, t ≠ stop →
    loop (bound + 1) false (Reader.before r (.flowEntry :: t :: rest)) =
      loop (bound + 1) true (r.before (t :: rest))

/-- Tokens are read as an item, or cannot be read. -/
structure IsItem (loop : Nat → Bool → Reading (List α)) (stop : Token) (tokens : List Token)
    (a? : Option α) : Prop where
  start : ∃ t more, tokens = t :: more ∧ t ≠ stop
  gives : ∀ a ∈ a?, ∀ r rest bound, 3 * tokens.length ≤ bound →
    loop (bound + 1) true (Reader.before r (tokens ++ rest)) =
      (loop bound false (r.before rest)).map fun p => (a :: p.1, p.2)
  fails : a? = none → ∀ r rest bound, 3 * tokens.length ≤ bound →
    ∃ e, loop (bound + 1) true (Reader.before r (tokens ++ rest)) = .error e

theorem IsLoop.outcome_items (hloop : IsLoop loop stop) {β : Type} {tokens : β → List Token}
    {item? : β → Option α} {ps : List β} (h : ∀ p ∈ ps, IsItem loop stop (tokens p) (item? p))
    (r : Reader) (rest : List Token) {bound : Nat}
    (hbound : 3 * (List.intercalate [.flowEntry] (ps.map tokens)).length + 1 ≤ bound) :
    Outcome (loop bound true
        (r.before (List.intercalate [.flowEntry] (ps.map tokens) ++ stop :: rest)))
      (r.before rest) (ps.mapM item?) := by
  induction ps generalizing bound with
  | nil =>
    obtain ⟨bound, rfl⟩ := Nat.exists_eq_add_of_le' (Nat.le_of_add_left_le hbound)
    exact hloop.stops bound true r rest
  | cons p ps ih =>
    obtain ⟨hp, hps⟩ := List.forall_mem_cons.1 h
    obtain ⟨bound, rfl⟩ := Nat.exists_eq_add_of_le' (Nat.le_of_add_left_le hbound)
    -- What stands behind the first item, and what is read of it.
    obtain ⟨more, hmore, hnext, hrest⟩ : ∃ more,
        List.intercalate [.flowEntry] ((p :: ps).map tokens) ++ stop :: rest =
          tokens p ++ more ∧
        3 * (tokens p).length ≤ bound ∧
        Outcome (loop bound false (r.before more)) (r.before rest) (ps.mapM item?) := by
      obtain ⟨t, tail, htokens, -⟩ := hp.start
      have hpos : 0 < (tokens p).length := by rw [htokens]; exact Nat.succ_pos _
      cases ps with
      | nil =>
        rw [List.map_cons, List.map_nil, List.intercalate_singleton] at hbound ⊢
        obtain ⟨bound, rfl⟩ := Nat.exists_eq_add_of_le' (show 1 ≤ bound by omega)
        exact ⟨stop :: rest, rfl, by omega, hloop.stops bound false r rest⟩
      | cons q ps =>
        obtain ⟨t', tail', htokens', hne⟩ := (hps q List.mem_cons_self).start
        obtain ⟨tail'', hlater⟩ : ∃ tail'', List.intercalate [.flowEntry] ((q :: ps).map tokens) ++
            stop :: rest = t' :: tail'' := by
          cases ps <;> simp [htokens', List.intercalate_cons_cons]
        rw [List.map_cons, List.map_cons, List.intercalate_cons_cons, List.length_append,
          List.length_append, List.length_singleton] at hbound
        rw [List.map_cons] at ih hlater
        obtain ⟨bound, rfl⟩ := Nat.exists_eq_add_of_le' (show 1 ≤ bound by omega)
        have hih : Outcome (loop (bound + 1) true _) _ _ := ih hps (by omega)
        rw [hlater, ← hloop.goesOn bound r t' tail'' hne, ← hlater] at hih
        refine ⟨_, ?_, by omega, hih⟩
        rw [List.map_cons, List.map_cons, List.intercalate_cons_cons, List.append_assoc,
          List.append_assoc, List.singleton_append]
    rw [hmore, List.mapM_cons]
    cases ha : item? p with
    | none => exact hp.fails ha r more bound hnext
    | some a =>
      rw [hp.gives a ha r more bound hnext]
      have hmap := hrest.map (a :: ·)
      rw [Option.map_eq_bind] at hmap
      exact hmap

end Loops

/-! ## Sequences and mappings -/

theorem Starts.ne {t : Token} (h : Starts t) : t ≠ .flowSequenceEnd ∧ t ≠ .flowMappingEnd := by
  cases h <;> simp

theorem isLoop_flowItems : IsLoop flowItems .flowSequenceEnd where
  stops _ first _ _ := by
    rw [flowItems]
    rfl
  goesOn bound r t rest ht := by
    rw [flowItems, flowItems]
    cases t <;> rfl

theorem isLoop_flowEntries : IsLoop flowEntries .flowMappingEnd where
  stops _ first _ _ := by
    rw [flowEntries]
    rfl
  goesOn bound r t rest ht := by
    rw [flowEntries, flowEntries]
    cases t <;> rfl

theorem flowItems_node {t : Token} (ht : Starts t) (r : Reader) (rest : List Token) (bound : Nat) :
    flowItems (bound + 1) true (r.before (t :: rest)) =
      (node bound false false (r.before (t :: rest)) >>= fun p =>
        flowItems bound false p.2 >>= fun q => .ok (p.1 :: q.1, q.2)) := by
  rw [flowItems]
  cases ht <;> rfl

theorem flowEntries_node {t : Token} (ht : Starts t) (r : Reader) (rest : List Token)
    (bound : Nat) :
    flowEntries (bound + 1) true (r.before (t :: rest)) =
      (node bound false false (r.before (t :: rest)) >>= fun p =>
        flowEntries bound false p.2 >>= fun q => .ok ((p.1, empty) :: q.1, q.2)) := by
  rw [flowEntries]
  cases ht <;> rfl

theorem flowEntries_key (r : Reader) (rest : List Token) (bound : Nat) :
    flowEntries (bound + 1) true (r.before (.key :: rest)) =
      (nodeUnless bound [.value, .flowEntry, .flowMappingEnd] false false (r.before rest) >>=
        fun k => valueUnless bound [.flowEntry, .flowMappingEnd] false k.2 >>= fun v =>
          flowEntries bound false v.2 >>= fun q => .ok ((k.1, v.1) :: q.1, q.2)) := by
  rw [flowEntries]
  rfl

theorem nodeUnless_node {t : Token} {stops : List Token}
    (hstops : t ∉ stops) (r : Reader) (rest : List Token) (bound : Nat)
    (block indentless : Bool) :
    nodeUnless (bound + 1) stops block indentless (r.before (t :: rest)) =
      node bound block indentless (r.before (t :: rest)) := by
  rw [nodeUnless]
  show (if stops.contains t then (pure empty : Reading Node)
    else node bound block indentless) (r.before (t :: rest)) = _
  rw [if_neg (by simpa using hstops)]

theorem valueUnless_node {t : Token} (ht : Starts t) (r : Reader) (rest : List Token)
    (bound : Nat) :
    valueUnless (bound + 2) [.flowEntry, .flowMappingEnd] false (r.before (.value :: t :: rest)) =
      node bound false false (r.before (t :: rest)) := by
  have hstops : t ∉ [Token.flowEntry, .flowMappingEnd] := by
    cases ht <;> simp
  rw [valueUnless, ← nodeUnless_node hstops]
  rfl

theorem Gives.isItem {tokens : List Token} {n? : Option Node} (h : Gives tokens n?) :
    IsItem flowItems .flowSequenceEnd tokens n? := by
  obtain ⟨t, more, rfl, ht⟩ := h.start
  refine ⟨⟨t, more, rfl, ht.ne.1⟩, ?_, ?_⟩
  · intro n hn r rest bound hbound
    have hnode := h.outcome r rest bound false false hbound
    rw [show n? = some n from hn] at hnode
    rw [List.cons_append, flowItems_node ht, ← List.cons_append,
      show node bound false false _ = _ from hnode]
    rfl
  · intro hn r rest bound hbound
    have hnode := h.outcome r rest bound false false hbound
    rw [hn] at hnode
    obtain ⟨e, he⟩ := hnode
    rw [List.cons_append, flowItems_node ht, ← List.cons_append, he]
    exact ⟨e, rfl⟩

/-- A colon in place of a comma cannot be read. -/
theorem flowEntries_value (r : Reader) (rest : List Token) (bound : Nat) :
    flowEntries (bound + 1) false (r.before (.value :: rest)) =
      .error (.malformed .unexpectedToken) := by
  rw [flowEntries]
  rfl

/-- An entry whose key is found gives its node; a key that is too long cannot be read. -/
theorem Gives.isEntry {tokens : List Token} {n? : Option Node} (k : Text)
    (h : Gives tokens n?) : IsItem flowEntries .flowMappingEnd (Lexer.keyTokens k ++ tokens)
      (if 1024 < (k.dataString true).length then none
        else n?.map fun n => (.scalar .str k.units, n)) := by
  obtain ⟨t, more, rfl, ht⟩ := h.start
  unfold Lexer.keyTokens
  split
  · -- The key is a node without a value, and its colon is one too many.
    refine ⟨⟨_, _, rfl, by simp⟩, fun n hn => (Option.not_mem_none n hn).elim, ?_⟩
    intro _ r rest bound hbound
    obtain ⟨bound, rfl⟩ := Nat.exists_eq_add_of_le' (show 1 ≤ bound by simp at hbound; omega)
    refine ⟨.malformed .unexpectedToken, ?_⟩
    rw [show [Token.scalar k.units false] ++ [.value] ++ t :: more ++ rest =
        .scalar k.units false :: .value :: (t :: more ++ rest) from rfl,
      flowEntries_node (.scalar _ _), node_scalar]
    simp only [bind, Except.bind, flowEntries_value]
  · have hlength : ([Token.key, .scalar k.units false] ++ [Token.value] ++ t :: more).length =
        (t :: more).length + 3 := by simp
    have hstep : ∀ r rest bound, flowEntries (bound + 3 + 1) true
        (Reader.before r ([Token.key, .scalar k.units false] ++ [Token.value] ++
          t :: more ++ rest)) =
        (node (bound + 1) false false (r.before (t :: more ++ rest)) >>= fun v =>
          flowEntries (bound + 3) false v.2 >>= fun q =>
            .ok ((.scalar .str k.units, v.1) :: q.1, q.2)) := by
      intro r rest bound
      show flowEntries (bound + 3 + 1) true (r.before
        (.key :: .scalar k.units false :: .value :: t :: (more ++ rest))) = _
      rw [flowEntries_key, nodeUnless_node (by simp), node_scalar]
      show (valueUnless (bound + 3) _ _ (r.before (.value :: t :: (more ++ rest))) >>= _) = _
      rw [valueUnless_node ht]
      rfl
    refine ⟨⟨_, _, rfl, by simp⟩, ?_, ?_⟩
    · intro e he r rest bound hbound
      obtain ⟨n, rfl, rfl⟩ := Option.map_eq_some_iff.1 he
      rw [hlength] at hbound
      obtain ⟨bound, rfl⟩ := Nat.exists_eq_add_of_le' (show 3 ≤ bound by omega)
      have hnode := h.outcome r rest (bound + 1) false false (by omega)
      rw [hstep, show node (bound + 1) false false _ = _ from hnode]
      rfl
    · intro hn r rest bound hbound
      rw [Option.map_eq_none_iff.1 hn] at h
      rw [hlength] at hbound
      obtain ⟨bound, rfl⟩ := Nat.exists_eq_add_of_le' (show 3 ≤ bound by omega)
      obtain ⟨e, he⟩ := h.outcome r rest (bound + 1) false false (by omega)
      rw [hstep, he]
      exact ⟨e, rfl⟩

theorem gives_sequence {β : Type} {tokens : β → List Token} {n? : β → Option Node} {ps : List β}
    (h : ∀ p ∈ ps, Gives (tokens p) (n? p)) :
    Gives (.flowSequenceStart ::
        (List.intercalate [.flowEntry] (ps.map tokens) ++ [.flowSequenceEnd]))
      ((ps.mapM n?).map (.sequence .seq)) where
  start := ⟨_, _, rfl, .sequence⟩
  outcome := by
    intro r rest bound block indentless hbound
    rw [List.length_cons, List.length_append, List.length_singleton] at hbound
    obtain ⟨bound, rfl⟩ := Nat.exists_eq_add_of_le' (show 1 ≤ bound by omega)
    rw [List.cons_append, List.append_assoc, List.singleton_append, node_sequence]
    exact (isLoop_flowItems.outcome_items (fun p hp => (h p hp).isItem) r rest (by omega)).map _

theorem gives_mapping {β : Type} {tokens : β → List Token} {pair? : β → Option (Node × Node)}
    {ps : List β} (h : ∀ p ∈ ps, IsItem flowEntries .flowMappingEnd (tokens p) (pair? p)) :
    Gives (.flowMappingStart ::
        (List.intercalate [.flowEntry] (ps.map tokens) ++ [.flowMappingEnd]))
      ((ps.mapM pair?).map (.mapping .map)) where
  start := ⟨_, _, rfl, .mapping⟩
  outcome := by
    intro r rest bound block indentless hbound
    rw [List.length_cons, List.length_append, List.length_singleton] at hbound
    obtain ⟨bound, rfl⟩ := Nat.exists_eq_add_of_le' (show 1 ≤ bound by omega)
    rw [List.cons_append, List.append_assoc, List.singleton_append, node_mapping]
    exact (isLoop_flowEntries.outcome_items h r rest (by omega)).map _

/-! ## Data -/

/-- The node stands for the data, to a reader that looks at some depths. -/
def Means (height : Nat) (n : Node) (v : Value) : Prop :=
  ∀ bound depth, height ≤ bound → n.value bound depth = .ok (.ofValue v)

theorem Means.mono {height height' : Nat} {n : Node} {v : Value} (h : Means height n v)
    (hle : height ≤ height') : Means height' n v :=
  fun bound depth hbound => h bound depth (Nat.le_trans hle hbound)

/-- Scalars stand for what they are read as. -/
theorem means_scalar {tag : Tag} {t : Text} {v : Value}
    (htag : tag = .str ∨ tag = .bool ∨ tag = .int ∨ tag = .float)
    (h : scalarValue (.scalar tag t) = .ok v) : Means 1 (.scalar tag t) v := by
  intro bound depth hbound
  obtain ⟨bound, rfl⟩ := Nat.exists_eq_add_of_le' hbound
  have hvalue : value (bound + 1) depth (.scalar tag t) =
      ((scalarValue (.scalar tag t)).mapError (Late.mk depth)).map .ofValue := by
    unfold value
    rcases htag with rfl | rfl | rfl | rfl <;> rfl
  rw [hvalue, h]
  rfl

theorem all_eq_ok {α : Type} {rs : List (Except Late α)} {xs : List α} :
    all rs = .ok xs ↔ List.Forall₂ (fun r x => r = .ok x) rs xs := by
  induction rs generalizing xs with
  | nil => cases xs <;> simp [all]
  | cons r rs ih =>
    have hcons : all (r :: rs) = (both r (all rs)).map fun p => p.1 :: p.2 := rfl
    cases xs with
    | nil => cases hr : both r (all rs) <;> simp [hcons, hr, Except.map]
    | cons x xs =>
      rw [List.forall₂_cons, ← ih, hcons]
      cases r <;> cases all rs <;> simp [both, Except.map]

theorem all_ok {α : Type} (xs : List α) : all (xs.map .ok) = .ok xs :=
  all_eq_ok.2 (List.forall₂_map_left_iff.2 (List.forall₂_same.2 fun _ _ => rfl))

theorem means_sequence {height : Nat} {items : List (Node × Value)}
    (h : ∀ p ∈ items, Means height p.1 p.2) :
    Means (height + 1) (.sequence .seq (items.map (·.1))) (.list (items.map (·.2))) := by
  intro bound depth hbound
  obtain ⟨bound, rfl⟩ := Nat.exists_eq_add_of_le' (Nat.le_trans (Nat.le_add_left 1 _) hbound)
  have hitems : (items.map (·.1)).map (value bound (depth + 1)) =
      (items.map fun p => Loaded.ofValue p.2).map .ok := by
    rw [List.map_map, List.map_map]
    exact List.map_congr_left fun p hp => h p hp bound (depth + 1) (by omega)
  have hvalue : value (bound + 1) depth (.sequence .seq (items.map (·.1))) =
      (all ((items.map (·.1)).map (value bound (depth + 1)))).map .list := by
    unfold value
    rfl
  rw [hvalue, hitems, all_ok, Loaded.ofValue, Loaded.ofValue_items, List.map_map]
  rfl

/-- Where all keys are texts there is nothing to merge. -/
theorem flatten_texts {entries : List (Node × Node)} (h : ∀ e ∈ entries, ∃ t, e.1 = .scalar .str t)
    (bound : Nat) : flatten (bound + 1) entries = some entries := by
  have htag : ∀ e ∈ entries, e.1.tag = .str := fun e he => by
    obtain ⟨t, ht⟩ := h e he
    rw [ht]
    rfl
  have hmerged : entries.filter (fun e => decide (e.1.tag = .merge)) = [] := by
    rw [List.filter_eq_nil_iff]
    intro e he
    rw [htag e he]
    decide
  have hown : entries.filter (fun e => decide (e.1.tag ≠ .merge)) = entries := by
    rw [List.filter_eq_self]
    intro e he
    rw [htag e he]
    decide
  rw [flatten, hmerged, hown]
  show some ([] ++ entries.map _) = _
  rw [List.nil_append]
  congr 1
  refine (List.map_congr_left fun e he => ?_).trans (List.map_id _)
  obtain ⟨k, n⟩ := e
  obtain ⟨t, rfl⟩ := h _ he
  rfl

theorem value_mapping (entries : List (Node × Node)) (bound depth : Nat) :
    value (bound + 1) depth (.mapping .map entries) =
      (((Node.mapping .map entries).entriesOf bound).mapError (Late.mk (depth + 1)) >>= fun es =>
        all (es.map fun e => both (value.key bound (depth + 1) e.1)
          (value bound (depth + 1) e.2)) >>=
          fun pairs => .ok (.map none (Value.Entries.ofList pairs))) := by
  conv => lhs; unfold value
  rfl

theorem means_mapping {height : Nat} {entries : List (Text × Node × Value)} (hpos : 1 ≤ height)
    (h : ∀ e ∈ entries, Means height e.2.1 e.2.2) :
    Means (height + 1) (.mapping .map (entries.map fun e => (.scalar .str e.1, e.2.1)))
      (.map (Value.Entries.ofList (entries.map fun e => (.text e.1, e.2.2)))) := by
  intro bound depth hbound
  -- Two steps of the bound are used up: one for the mapping, one for its entries.
  obtain ⟨bound, rfl⟩ := Nat.exists_eq_add_of_le' (Nat.le_trans (Nat.le_add_left 1 _) hbound)
  obtain ⟨inner, rfl⟩ := Nat.exists_eq_add_of_le' (show 1 ≤ bound by omega)
  have hflatten : flatten (inner + 1) (entries.map fun e => (.scalar .str e.1, e.2.1)) = _ :=
    flatten_texts (fun e he => by
      obtain ⟨e, -, rfl⟩ := List.mem_map.1 he
      exact ⟨e.1, rfl⟩) inner
  have hpairs : (entries.map fun e => ((.scalar .str e.1, e.2.1) : Node × Node)).map (fun e =>
      both (value.key (inner + 1) (depth + 1) e.1) (value (inner + 1) (depth + 1) e.2)) =
      (entries.map fun e => ((.text e.1, .ofValue e.2.2) : Value × Loaded)).map .ok := by
    rw [List.map_map, List.map_map]
    refine List.map_congr_left fun e he => ?_
    have hkey : value.key (inner + 1) (depth + 1) (.scalar .str e.1) = .ok (.text e.1) := by
      unfold value.key
      have hvalue : value (inner + 1) (depth + 1) (.scalar .str e.1) = .ok (.ofValue (.text e.1)) :=
        means_scalar (Or.inl rfl) rfl (inner + 1) (depth + 1) (by omega)
      show (value (inner + 1) (depth + 1) (.scalar .str e.1)).map Loaded.plain = _
      rw [hvalue, Except.map, Loaded.plain_ofValue]
    show both (value.key _ _ (.scalar .str e.1)) (value _ _ e.2.1) = _
    rw [hkey, h e he (inner + 1) (depth + 1) (by omega)]
    rfl
  rw [value_mapping, entriesOf, hflatten]
  show (all _ >>= _) = _
  rw [hpairs, all_ok, Loaded.ofValue, Loaded.ofValue_entries, ← Value.Entries.ofList_mapValues,
    Value.Entries.mapValues, List.map_map]
  rfl

/-! ## Documents -/

theorem stream_node {t : Token} (ht : Starts t) (more : List Token) (r : Reader) :
    stream (r.before (t :: more)) =
      (node (3 * (t :: more).length + 3) true false (r.before (t :: more)) >>= fun p =>
        finish p.2 >>= fun q => .ok (some p.1, q.2)) := by
  cases ht <;> rfl

theorem Gives.ofTokens? {tokens : List Token} {n? : Option Node} (h : Gives tokens n?) :
    match n? with
    | some n => Node.ofTokens? ⟨tokens ++ [.streamEnd], none⟩ = .ok (some n)
    | none => ∃ e, Node.ofTokens? ⟨tokens ++ [.streamEnd], none⟩ = .error e := by
  obtain ⟨t, more, rfl, ht⟩ := h.start
  -- The bound of the reader is three steps for each token, which is what the node asks for.
  have hnode := h.outcome ⟨[], none, commonHandles, []⟩ [.streamEnd]
    (3 * (t :: more ++ [Token.streamEnd]).length + 3) true false (by simp; omega)
  have hstream : Node.ofTokens? ⟨t :: more ++ [.streamEnd], none⟩ =
      (stream (Reader.before ⟨[], none, commonHandles, []⟩ (t :: more ++ [.streamEnd]))).map
        (·.1) := rfl
  rw [List.cons_append] at hnode hstream
  rw [List.cons_append, hstream, stream_node ht]
  cases n? with
  | some n =>
    rw [show node _ true false _ = _ from hnode]
    rfl
  | none =>
    obtain ⟨e, he⟩ := hnode
    rw [he]
    exact ⟨e, rfl⟩

theorem read_eq_bind (text : Text) : read text =
    (Node.ofTokens? (Lexed.ofText text) >>= fun n? =>
      match n? with
      | none => .ok (.ofValue .null)
      | some n =>
        match n.value ((Lexed.ofText text).tokens.length + 2) 0 with
        | .ok v => .ok v
        | .error e => .error e.fault) := by
  unfold read
  congr 1

/-- A document whose only node stands for data is read as the data. -/
theorem Means.read_eq {height : Nat} {text : Text} {n : Node} {v : Value} (h : Means height n v)
    (hnode : Node.ofTokens? (Lexed.ofText text) = .ok (some n))
    (hheight : height ≤ (Lexed.ofText text).tokens.length + 2) : read text = .ok (.ofValue v) := by
  rw [read_eq_bind, hnode]
  simp only [bind, Except.bind, h _ _ hheight]

theorem Gives.read_eq {text : Text} {tokens : List Token} {n : Node} {v : Value}
    (h : Gives tokens (some n)) (hlexed : Lexed.ofText text = ⟨tokens ++ [.streamEnd], none⟩)
    (hmeans : Means tokens.length n v) : read text = .ok (.ofValue v) := by
  refine hmeans.read_eq (hlexed ▸ h.ofTokens?) ?_
  rw [hlexed, List.length_append]
  omega

theorem Gives.read_fails {text : Text} {tokens : List Token} (h : Gives tokens none)
    (hlexed : Lexed.ofText text = ⟨tokens ++ [.streamEnd], none⟩) : ∃ e, read text = .error e := by
  obtain ⟨e, he⟩ := h.ofTokens?
  refine ⟨e, ?_⟩
  rw [read_eq_bind, hlexed, he]
  rfl

end IdlBridge.Yaml.Node
