import IdlBridge.Payload
import IdlBridge.Proofs.Table
import IdlBridge.Proofs.Yaml.Rereading

/-! # Aggregates as payloads

    An aggregate of the source that is given for a key with a structured payload is kept as JSON
    text, and that text is read as a document when the payload is asked for.  What a key is given
    first counts, and nothing that is given for other keys changes what comes back.
-/

namespace IdlBridge

namespace Annotation

/-! ## One annotation -/

/-- The constant has a text, whether it is given for a key with a structured payload or not. -/
def HasText (v : Value) : Prop := (textOf? v).isSome = true ∧ v.json?.isSome = true

theorem exists_ofConstants? {key : Text} {constants : List Value} (hne : constants ≠ [])
    (h : ∀ v ∈ constants, HasText v) : ∃ a, ofConstants? key constants = some a := by
  have htexts : ∀ vs : List Value, (∀ v ∈ vs, HasText v) → ∃ ts, textsOf? vs = some ts := by
    intro vs hvs
    induction vs with
    | nil => exact ⟨[], rfl⟩
    | cons v vs ih =>
      obtain ⟨hv, hvs⟩ := List.forall_mem_cons.1 hvs
      obtain ⟨t, ht⟩ := Option.isSome_iff_exists.1 hv.1
      obtain ⟨ts, hts⟩ := ih hvs
      exact ⟨t :: ts, by rw [textsOf?, ht, hts]⟩
  obtain ⟨v, vs, rfl⟩ := List.exists_cons_of_ne_nil hne
  have hv := h v List.mem_cons_self
  obtain ⟨t, ht⟩ := Option.isSome_iff_exists.1 hv.1
  obtain ⟨u, hu⟩ := Option.isSome_iff_exists.1 hv.2
  obtain ⟨ts, hts⟩ := htexts _ h
  unfold ofConstants?
  split
  · split
    · exact ⟨_, rfl⟩
    · next heq => cases heq; exact ⟨_, by rw [hu]; rfl⟩
    · exact ⟨_, rfl⟩
  · split
    · next heq => cases heq; exact ⟨_, by rw [ht]; rfl⟩
    · exact ⟨_, by rw [hts]; rfl⟩

/-- A mapping that is given first for a key with a structured payload is kept as its JSON text. -/
theorem ofConstants?_map {key : Text} (hkey : key ∈ payloadKeys) (es : Value.Entries)
    (vs : List Value) :
    ofConstants? key (.map es :: vs) = (Value.map es).json?.map .payload := by
  unfold ofConstants?
  rw [if_pos hkey]

theorem mapping_payload (text : Text) : (payload text).mapping =
    match Yaml.read text with
    | .error f => .error (if f.isMalformed then .malformed text else .impossible)
    | .ok x =>
      match x.plain with
      | .null => .ok []
      | .map es => .ok es
      | v => .error (.notMapping v.typeName) := by
  unfold mapping data
  rw [show (payload text).texts.headD [] = text from rfl]
  dsimp only
  cases Yaml.read text with
  | error f => rfl
  | ok x =>
    dsimp only
    cases hx : x.plain with
    | map es => exact congrArg Except.ok (by dsimp only; rw [hx])
    | null => exact congrArg Except.ok (by dsimp only; rw [Loaded.plain_map]; rfl)
    | _ => rfl

theorem data_payload_of_means {height : Nat} {text : Text} {n : Yaml.Node} {es : Value.Entries}
    (h : n.Means height (.map es))
    (hnode : Yaml.Node.ofTokens? (Yaml.Lexed.ofText text) = .ok (some n))
    (hheight : height ≤ (Yaml.Lexed.ofText text).tokens.length + 2) :
    (payload text).data = .ok (.ofValue (.map es)) := by
  unfold data
  rw [show (payload text).texts.headD [] = text from rfl]
  dsimp only
  rw [h.read_eq hnode hheight]
  dsimp only
  rw [Loaded.plain_ofValue]

theorem mapping_of_data {a : Annotation} {es : Value.Entries}
    (h : a.data = .ok (.ofValue (.map es))) : a.mapping = .ok es := by
  unfold mapping
  rw [h, Except.map, Loaded.plain_ofValue]

/-- The JSON text of an aggregate holds the aggregate exactly if it survives. -/
theorem mapping_json {es : Value.Entries} (hes : (Value.map es).IsAggregate) {text : Text}
    (hjson : (Value.map es).json? = some text) :
    (payload text).mapping = .ok es ↔ (Value.map es).Survives := by
  rw [mapping_payload]
  rcases Yaml.read_json hes hjson with ⟨fs, hread, hsame⟩ | ⟨⟨e, hread⟩, hlost⟩
  · rw [hread, ← hsame]
    dsimp only
    rw [Loaded.plain_ofValue]
    exact ⟨Except.ok.inj, congrArg _⟩
  · rw [hread]
    exact ⟨fun h => (nomatch h), fun h => absurd h hlost⟩

end Annotation

namespace Annotations

open Annotation

/-! ## Collected constants -/

/-- The constants that a key is given, in order. -/
def given (key : Text) (pairs : List (Text × Value)) : List Value :=
  (pairs.filter fun p => decide (p.1 = key)).map (·.2)

theorem get?_collect (pairs : List (Text × Value)) (key : Text) : (collect pairs).get? key =
    if given key pairs = [] then none else some (given key pairs) := by
  -- Stated for any table to start with, as the loop goes on with the constants that it has
  -- collected.
  have hloop : ∀ (pairs : List (Text × Value)) (t : Table (List Value)),
      (pairs.foldl (fun t p => Table.insert t p.1 (((Table.get? t p.1).getD []) ++ [p.2])) t).get?
        key = if given key pairs = [] then t.get? key
          else some ((t.get? key).getD [] ++ given key pairs) := by
    intro pairs
    induction pairs with
    | nil => exact fun t => rfl
    | cons p rest ih =>
      intro t
      rw [List.foldl_cons, ih, Table.get?_insert]
      by_cases hp : p.1 = key
      · have hgiven : given key (p :: rest) = p.2 :: given key rest := by
          simp [given, hp]
        rw [hgiven, if_pos hp, hp]
        split
        · next hrest => simp [hrest]
        · simp
      · have hgiven : given key (p :: rest) = given key rest := by
          simp [given, hp]
        rw [hgiven, if_neg hp]
  exact hloop pairs []

theorem nodup_keys_collect (pairs : List (Text × Value)) : (collect pairs).keys.Nodup := by
  have hloop : ∀ (pairs : List (Text × Value)) (t : Table (List Value)), t.keys.Nodup →
      (Table.keys (pairs.foldl
        (fun t p => Table.insert t p.1 (((Table.get? t p.1).getD []) ++ [p.2])) t)).Nodup := by
    intro pairs
    induction pairs with
    | nil => exact fun _ ht => ht
    | cons p rest ih => exact fun t ht => ih _ (Table.nodup_keys_insert ht _ _)
  exact hloop pairs [] List.nodup_nil

/-- The constants of a key are what it is given. -/
theorem given_of_mem_collect {pairs : List (Text × Value)} {e : Text × List Value}
    (he : e ∈ collect pairs) : e.2 = given e.1 pairs ∧ e.2 ≠ [] := by
  have hget := Table.get?_of_mem (nodup_keys_collect pairs) he
  rw [get?_collect] at hget
  split at hget
  · cases hget
  · next hne =>
    rw [← Option.some_inj.1 hget]
    exact ⟨rfl, hne⟩

/-! ## Annotations of collected constants -/

theorem get?_of_ofCollected? {t : Table (List Value)} {as : Annotations}
    (h : ofCollected? t = some as) (key : Text) :
    as.get? key = (t.get? key).bind (ofConstants? key) := by
  induction t generalizing as with
  | nil =>
    cases h
    rfl
  | cons e rest ih =>
    obtain ⟨k, constants⟩ := e
    unfold ofCollected? at h
    split at h
    · next a as' ha has =>
      cases h
      have hrest := ih has
      unfold Table.get? at hrest ⊢
      rw [List.find?_cons, List.find?_cons]
      by_cases hk : k = key
      · simp [hk, hk ▸ ha]
      · simpa [hk] using hrest
    · cases h

theorem exists_ofCollected? {t : Table (List Value)}
    (h : ∀ e ∈ t, ∃ a, ofConstants? e.1 e.2 = some a) : ∃ as, ofCollected? t = some as := by
  induction t with
  | nil => exact ⟨[], rfl⟩
  | cons e rest ih =>
    obtain ⟨k, constants⟩ := e
    obtain ⟨⟨a, ha⟩, hrest⟩ := List.forall_mem_cons.1 h
    obtain ⟨as, has⟩ := ih hrest
    exact ⟨(k, a) :: as, by rw [ofCollected?, ha, has]⟩

/-! ## What comes back -/

/-- An aggregate that is given first for a key with a structured payload is the mapping of the key
    exactly if it survives. -/
theorem mapping?_of_aggregate {key : Text} (hkey : key ∈ payloadKeys)
    {pairs : List (Text × Value)} {es : Value.Entries}
    (hfirst : pairs.find? (fun p => decide (p.1 = key)) = some (key, .map es))
    (hes : (Value.map es).IsAggregate)
    (hothers : ∀ p ∈ pairs, p.1 ≠ key → HasText p.2) :
    ((ofPairs? pairs).bind fun as => as.mapping? key) = some (.ok es) ↔
      (Value.map es).Survives := by
  obtain ⟨vs, hgiven⟩ : ∃ vs, given key pairs = .map es :: vs := by
    rw [← List.head?_filter] at hfirst
    obtain ⟨rest, hrest⟩ := List.head?_eq_some_iff.1 hfirst
    exact ⟨rest.map (·.2), by rw [given, hrest, List.map_cons]⟩
  have hcollect : (collect pairs).get? key = some (.map es :: vs) := by
    rw [get?_collect, if_neg (by rw [hgiven]; exact List.cons_ne_nil _ _), hgiven]
  have hget : ∀ as, ofPairs? pairs = some as → as.mapping? key =
      ((Value.map es).json?.map .payload).map Annotation.mapping := fun as has => by
    rw [mapping?, get?_of_ofCollected? has, hcollect, Option.bind_some,
      ofConstants?_map hkey]
  cases hjson : (Value.map es).json? with
  | none =>
    rw [hjson] at hget
    refine ⟨fun h => ?_, fun hs => absurd hs (Yaml.not_survives_of_json?_eq_none hes hjson)⟩
    obtain ⟨as, has, hmapping⟩ := Option.bind_eq_some_iff.1 h
    exact nomatch (hget as has).symm.trans hmapping
  | some text =>
    rw [hjson] at hget
    obtain ⟨as, has⟩ : ∃ as, ofPairs? pairs = some as := by
      refine exists_ofCollected? fun e he => ?_
      obtain ⟨hconstants, hne⟩ := given_of_mem_collect he
      by_cases hk : e.1 = key
      · rw [hconstants, hk, hgiven, ofConstants?_map hkey, hjson]
        exact ⟨_, rfl⟩
      · -- The other keys may have any constants, as long as there are texts for them.
        refine exists_ofConstants? hne fun v hv => ?_
        rw [hconstants] at hv
        obtain ⟨p, hp, rfl⟩ := List.mem_map.1 hv
        obtain ⟨hmem, hp⟩ := List.mem_filter.1 hp
        exact hothers p hmem (fun heq => hk ((of_decide_eq_true hp).symm.trans heq))
    rw [has, Option.bind_some, hget as has, Option.map_some, Option.map_some, Option.some_inj]
    exact mapping_json hes hjson

/-- An override of a schema with a value of each kind. -/
def priceSchema : Value.Entries :=
  [(.text "maximum", .float (.finite false 5629499534213120 (-51))), (.text "minimum", .int (-3)),
   (.text "enum", .list [.text "none\n", .bool true]), (.text "properties", .map [])]

theorem isAggregate_priceSchema : (Value.map priceSchema).IsAggregate := by
  have hfloat : Binary64.IsCanonical 5629499534213120 (-51) :=
    ⟨by decide, by decide, by decide, fun _ => by decide⟩
  have hlist : (Value.list [.text "none\n", .bool true]).IsAggregate := by
    refine .list ?_
    simp [Value.IsAggregate.text, Value.IsAggregate.bool]
  have hmap : (Value.map []).IsAggregate := .map (by simp) (by simp) (by simp)
  refine .map (by simp [priceSchema, Value.asText]) (by decide) ?_
  simp [priceSchema, Value.IsAggregate.int, Value.IsAggregate.float false hfloat, hlist, hmap]

theorem survives_priceSchema : (Value.map priceSchema).Survives := by
  have hint : (Value.int (-3)).Survives := by
    have hle : ∀ k ≠ 0, 10 ≤ Nat.pow 10 k := fun k hk => Nat.le_self_pow hk 10
    exact .int (Nat.lt_of_lt_of_le (by decide) (hle _ (by decide)))
  have hfloat : (Value.float (.finite false 5629499534213120 (-51))).Survives :=
    .float (by decide +kernel)
  have htext : (Value.text "none\n").Survives := .text (by decide)
  have hlist : (Value.list [.text "none\n", .bool true]).Survives := by
    refine .list ?_
    simp [Value.Survives.bool, htext]
  have hmap : (Value.map []).Survives := .map (by simp) (by simp)
  refine .map (by decide) ?_
  simp [priceSchema, hint, hfloat, hlist, hmap]

theorem mapping?_of_priceSchema :
    ((ofPairs? [("api.js_conv", .text "true"), ("openapi.schema", .map priceSchema)]).bind
      fun as => as.mapping? "openapi.schema") = some (.ok priceSchema) := by
  refine (mapping?_of_aggregate (by decide) rfl isAggregate_priceSchema ?_).2 survives_priceSchema
  simp [HasText, textOf?, Value.json?]

/-- A bound that is written without a point. -/
def limitSchema : Value.Entries := [(.text "maximum", .float (.finite false 4768371582031250 21))]

/-- The bound comes back as a text. -/
theorem mapping?_of_limitSchema : (Value.map limitSchema).IsAggregate ∧
    ((ofPairs? [("openapi.schema", .map limitSchema)]).bind
      fun as => as.mapping? "openapi.schema") =
        some (.ok [(.text "maximum", .text "1e+22")]) := by
  have hfloat : Binary64.IsCanonical 4768371582031250 21 :=
    ⟨by decide, by decide, by decide, fun _ => by decide⟩
  refine ⟨.map (by simp [limitSchema, Value.asText]) (by decide) ?_, ?_⟩
  · simp [limitSchema, Value.IsAggregate.float false hfloat]
  · have hpairs : ofPairs? [("openapi.schema", .map limitSchema)] =
        some ([("openapi.schema", .payload "\x7b\"maximum\": 1e+22\x7d")] : Table Annotation) := rfl
    have hnode : Yaml.Node.ofTokens? (Yaml.Lexed.ofText "\x7b\"maximum\": 1e+22\x7d") =
        .ok (some (.mapping .map [(.scalar .str "maximum", .scalar .str "1e+22")])) := rfl
    have hentries : ∀ e ∈ ([("maximum", .scalar .str "1e+22", .text "1e+22")] :
        List (Text × Yaml.Node × Value)), Yaml.Node.Means 1 e.2.1 e.2.2 :=
      List.forall_mem_singleton.2 (Yaml.Node.means_scalar (Or.inl rfl) rfl)
    have hvalue : Yaml.Node.Means 2
        (.mapping .map [(.scalar .str "maximum", .scalar .str "1e+22")])
        (.map [(.text "maximum", .text "1e+22")]) :=
      Yaml.Node.means_mapping (Nat.le_refl 1) hentries
    rw [hpairs]
    exact congrArg some
      (mapping_of_data (data_payload_of_means hvalue hnode (Nat.le_add_left 2 _)))

end Annotations

end IdlBridge
