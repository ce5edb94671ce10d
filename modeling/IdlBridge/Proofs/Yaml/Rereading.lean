import IdlBridge.Proofs.Collections
import IdlBridge.Proofs.Value.Aggregate
import IdlBridge.Proofs.Value.Entries
import IdlBridge.Proofs.Yaml.FlowNodes
import IdlBridge.Proofs.Yaml.Numbers
import Mathlib.Data.Set.List

/-! # JSON text read as a document

    The JSON text of an aggregate stands on one line, in brackets where it is not a scalar, so it
    is read token by token as its parts are.  A `Rereading` holds all that is known of data and of
    what its text is read as; those of sequences and mappings are built from those of their parts.
-/

namespace IdlBridge

/-! ## Units -/

theorem CodePoint.toNat_ofNat {n : Nat} (h : n < 0x110000) : (CodePoint.ofNat n).toNat = n := by
  rw [ofNat, ofNat?, dif_pos h]
  rfl

theorem Text.isBasic_units (t : Text) : t.units.IsBasic := by
  intro c hc
  obtain ⟨d, -, hd⟩ := List.mem_flatMap.1 hc
  have hlt := d.isLt
  unfold CodePoint.units at hd
  split at hd
  · next h => exact List.mem_singleton.1 hd ▸ h
  · rcases List.mem_cons.1 hd with rfl | hd
    · rw [CodePoint.toNat_ofNat] <;> omega
    · rw [List.mem_singleton.1 hd, CodePoint.toNat_ofNat] <;> omega

/-- The units of a text are the text itself where it is in the basic plane. -/
theorem Text.units_eq_self_iff {t : Text} : t.units = t ↔ t.IsBasic := by
  refine ⟨fun h => h ▸ t.isBasic_units, fun h => ?_⟩
  induction t with
  | nil => rfl
  | cons c t ih =>
    obtain ⟨hc, ht⟩ := List.forall_mem_cons.1 h
    have hunits : c.units = [c] := if_pos hc
    show c.units ++ units t = _
    rw [hunits, ih ht]
    rfl

namespace Yaml

open Node Lexer

/-! ## Rereadings -/

/-- Data with its JSON text, the tokens of the text, and the node and the data that are read from
    them.  Nothing is read where a key is too long. -/
structure Rereading where
  data : Value
  text : Text
  tokens : List Token
  outcome : Option (Node × Value)
  json : data.json? = some text
  inline : ∀ c ∈ text, c.IsInline
  reads : ∀ allowed, Reads allowed text tokens
  gives : Gives tokens (outcome.map (·.1))
  means : ∀ q ∈ outcome, Means tokens.length q.1 q.2
  same : outcome.map (·.2) = some data ↔ data.Survives

namespace Rereading

/-! ## Scalars -/

/-- A scalar that is written without quotes. -/
def plain {v w : Value} {t : Text} {tag : Tag} (hjson : v.json? = some t) (ht : IsWord t)
    (htag : Tag.ofPlain t = tag) (hkind : tag = .str ∨ tag = .bool ∨ tag = .int ∨ tag = .float)
    (hvalue : scalarValue (.scalar tag t) = .ok w) (hsame : w = v ↔ v.Survives) : Rereading where
  data := v
  text := t
  tokens := [.scalar t true]
  outcome := some (.scalar tag t, w)
  json := hjson
  inline := ht.isInline
  reads := reads_plain ht
  gives := htag ▸ gives_scalar t true
  means := by
    rintro q ⟨⟩
    exact means_scalar hkind hvalue
  same := by
    rw [← hsame]
    exact Option.some_inj

/-- A text. -/
def quoted (t : Text) : Rereading where
  data := .text t
  text := t.dataString true
  tokens := [.scalar t.units false]
  outcome := some (.scalar .str t.units, .text t.units)
  json := rfl
  inline := t.isInline_of_mem_dataString
  reads := reads_quoted t
  gives := gives_scalar t.units false
  means := by
    rintro q ⟨⟩
    exact means_scalar (Or.inl rfl) rfl
  same := by
    have hsurvives : (Value.text t).Survives ↔ t.IsBasic :=
      ⟨fun h => by cases h with | text ht => exact ht, .text⟩
    rw [hsurvives, ← Text.units_eq_self_iff]
    show some (Value.text t.units) = some (.text t) ↔ _
    rw [Option.some_inj, Value.text.injEq]

theorem isWord_signed {u : Text} (h : NumberLike u) (negative : Bool) :
    IsWord (Text.signed negative u) where
  chars := by
    intro c hc
    rcases h.signed_marks c hc with hc | rfl | rfl | rfl | rfl
    · exact Or.inl (CodePoint.forall_isAsciiDigit (P := fun c => c.isAsciiAlnum = true)
        (by decide) c hc)
    · exact Or.inr (Or.inl rfl)
    · exact Or.inl (by decide)
    · exact Or.inr (Or.inr (Or.inl rfl))
    · exact Or.inr (Or.inr (Or.inr rfl))
  start := by
    obtain ⟨c, rest, rfl, hc⟩ := h.head
    refine ⟨c, rest, CodePoint.forall_isAsciiDigit (P := fun c => c.isAsciiAlnum = true)
      (by decide) c hc, ?_⟩
    cases negative with
    | true => exact Or.inr rfl
    | false => exact Or.inl rfl

theorem exists_bool (b : Bool) : ∃ r : Rereading, r.data = .bool b := by
  have hsame : Value.bool b = .bool b ↔ (Value.bool b).Survives := ⟨fun _ => .bool b, fun _ => rfl⟩
  cases b with
  | true =>
    have hword : IsWord "true" := ⟨by decide, 't', "rue", by decide, Or.inl rfl⟩
    exact ⟨plain rfl hword (by decide +kernel) (Or.inr (Or.inl rfl)) rfl hsame, rfl⟩
  | false =>
    have hword : IsWord "false" := ⟨by decide, 'f', "alse", by decide, Or.inl rfl⟩
    exact ⟨plain rfl hword (by decide +kernel) (Or.inr (Or.inl rfl)) rfl hsame, rfl⟩

/-- An integer that can be written comes back. -/
theorem exists_int {i : Int} (hi : i.natAbs < Nat.pow 10 Numeral.maxDecimalDigits) :
    ∃ r : Rereading, r.data = .int i := by
  have hword : IsWord (Text.ofInt i) := by
    rw [Text.ofInt_eq_signed]
    exact isWord_signed (NumberLike.ofNat _) _
  have hvalue : scalarValue (.scalar .int (Text.ofInt i)) = .ok (.int i) := by
    show readAs _ (int? (Text.ofInt i)) = _
    rw [int?_ofInt hi]
    rfl
  have hjson : (Value.int i).json? = some (Text.ofInt i) := by
    rw [Value.json?, Value.intText?, if_pos hi]
  exact ⟨plain hjson hword (ofPlain_ofInt i) (Or.inr (Or.inr (Or.inl rfl))) hvalue
    ⟨fun _ => .int hi, fun _ => rfl⟩, rfl⟩

/-- A floating-point number comes back as one if it is written with a point, else as a text. -/
theorem exists_float (negative : Bool) {m : Nat} {q : Int} (hc : Binary64.IsCanonical m q) :
    ∃ r : Rereading, r.data = .float (.finite negative m q) := by
  obtain ⟨w, hw, htext⟩ := Binary64.exists_writes hc negative
  have hsigned : Binary64.toText .data (.finite negative m q) =
      Text.signed negative w.toText := htext
  have hword : IsWord (Text.signed negative w.toText) :=
    isWord_signed (NumberLike.ofProper hw.proper) negative
  have hpoint : ('.' : CodePoint) ∈ Text.signed negative w.toText ↔ w.part ≠ [] := by
    rw [← hw.proper.point_mem_iff]
    cases negative with
    | true => exact List.mem_cons.trans (or_iff_right (by decide))
    | false => rfl
  have hjson : (Value.float (.finite negative m q)).json? = some (Text.signed negative w.toText) :=
    congrArg some hsigned
  by_cases hpart : w.part = []
  · -- Without a point there is one digit with an exponent, which has the form of no number.
    obtain ⟨hlength, hexponent⟩ := hw.single hpart
    refine ⟨plain hjson hword (ofPlain_of_part_eq_nil hw.proper hpart hlength hexponent)
      (Or.inl rfl) rfl ⟨fun h => (by cases h), fun h => ?_⟩, rfl⟩
    cases h with
    | float hx => exact absurd hpart (hpoint.1 (hsigned ▸ hx))
  · have hvalue : scalarValue (.scalar .float (Text.signed negative w.toText)) =
        .ok (.float (.finite negative m q)) := by
      show readAs _ (float? _) = _
      rw [float?_signed hw]
      rfl
    exact ⟨plain hjson hword (ofPlain_of_part_ne hw.proper hpart)
      (Or.inr (Or.inr (Or.inr rfl))) hvalue
      ⟨fun _ => .float (hsigned ▸ hpoint.2 hpart), fun _ => rfl⟩, rfl⟩

/-! ## Sequences and mappings -/

theorem isInline_of_mem_join {ts : List Text} (h : ∀ t ∈ ts, ∀ c ∈ t, c.IsInline) :
    ∀ c ∈ Text.join ", " ts, c.IsInline := by
  unfold Text.join
  induction ts with
  | nil => exact fun c hc => nomatch hc
  | cons t ts ih =>
    obtain ⟨ht, hts⟩ := List.forall_mem_cons.1 h
    cases ts with
    | nil => rwa [List.intercalate_singleton]
    | cons u ts =>
      rw [List.intercalate_cons_cons]
      intro c hc
      rcases List.mem_append.1 hc with hc | hc
      · rcases List.mem_append.1 hc with hc | hc
        · exact ht c hc
        · exact (by decide : ∀ c ∈ (", " : Text), c.IsInline) c hc
      · exact ih hts c hc

theorem isInline_of_mem_brackets {text : Text} (h : ∀ c ∈ text, c.IsInline) {x y : CodePoint}
    (hx : x.IsInline) (hy : y.IsInline) : ∀ c ∈ x :: (text ++ [y]), c.IsInline :=
  List.forall_mem_cons.2 ⟨hx, fun c hc =>
    (List.mem_append.1 hc).elim (h c) fun hc => List.mem_singleton.1 hc ▸ hy⟩

/-- A sequence is read item by item. -/
def sequence (ps : List Rereading) : Rereading where
  data := .list (ps.map data)
  text := "[" ++ Text.join ", " (ps.map text) ++ "]"
  tokens := .flowSequenceStart ::
    (List.intercalate [.flowEntry] (ps.map tokens) ++ [Token.flowSequenceEnd])
  outcome := (ps.mapM outcome).map fun qs => (.sequence .seq (qs.map (·.1)), .list (qs.map (·.2)))
  json := Value.json?_list fun p _ => p.json
  inline := by
    refine isInline_of_mem_brackets (isInline_of_mem_join fun t ht => ?_) (by decide) (by decide)
    obtain ⟨p, -, rfl⟩ := List.mem_map.1 ht
    exact p.inline
  reads allowed := Brackets.sequence.reads (fills_separated fun p _ => p.reads true) allowed
  gives := by
    have h := gives_sequence fun p (_ : p ∈ ps) => p.gives
    rw [mapM_map_comm, Option.map_map] at h
    rwa [Option.map_map]
  means := by
    intro q hq
    obtain ⟨qs, hqs, rfl⟩ := Option.map_eq_some_iff.1 hq
    refine (means_sequence fun q hq => ?_).mono (Nat.le_of_eq rfl)
    obtain ⟨p, hp, hq⟩ := exists_of_mem_mapM hqs hq
    refine (p.means q hq).mono ?_
    have hlength : p.tokens.length ≤ (List.intercalate [.flowEntry] (ps.map tokens)).length :=
      length_le_intercalate (List.mem_map_of_mem hp)
    rw [List.length_append]
    exact Nat.le_add_right_of_le hlength
  same := by
    have hsame : (ps.mapM outcome).map (fun qs => Value.list (qs.map (·.2))) =
        (ps.mapM fun p : Rereading => p.outcome.map (·.2)).map .list := by
      rw [mapM_map_comm, Option.map_map]
      rfl
    rw [Option.map_map]
    show (ps.mapM outcome).map (fun qs => Value.list (qs.map (·.2))) = _ ↔ _
    rw [hsame, Option.map_eq_some_iff, Value.survives_list]
    constructor
    · rintro ⟨xs, hxs, hlist⟩ x hx
      obtain ⟨p, hp, rfl⟩ := List.mem_map.1 hx
      cases hlist
      rw [mapM_eq_some_iff, List.map_map, List.map_inj_left] at hxs
      exact p.same.1 (hxs p hp)
    · intro h
      refine ⟨ps.map data, mapM_eq_some_iff.2 ?_, rfl⟩
      rw [List.map_map]
      exact List.map_congr_left fun p hp => p.same.2 (h p.data (List.mem_map_of_mem hp))

/-- What an entry is read as.  A key that is too long cannot be read. -/
def entry (p : Text × Rereading) : Option (Text × Node × Value) :=
  if 1024 < (p.1.dataString true).length then none
  else p.2.outcome.map fun q => (p.1.units, q)

theorem isEntry (p : Text × Rereading) :
    IsItem Reader.flowEntries .flowMappingEnd (keyTokens p.1 ++ p.2.tokens)
      ((entry p).map fun x => (.scalar .str x.1, x.2.1)) := by
  have h := p.2.gives.isEntry p.1
  unfold entry
  split
  · rwa [if_pos ‹_›] at h
  · rw [if_neg ‹_›, Option.map_map] at h
    rwa [Option.map_map]

/-- The key and the data that an entry is read as. -/
def pair (p : Text × Rereading) : Option (Text × Value) :=
  (entry p).map fun x => (x.1, x.2.2)

theorem pair_eq_some_iff {p : Text × Rereading} {y : Text × Value} : pair p = some y ↔
    (p.1.dataString true).length ≤ 1024 ∧ p.1.units = y.1 ∧ p.2.outcome.map (·.2) = some y.2 := by
  unfold pair entry
  split
  · next hlong => simp [Nat.not_le.2 hlong]
  · next hshort =>
    obtain ⟨k, w⟩ := y
    cases p.2.outcome <;> simp [Nat.le_of_not_lt hshort]

theorem pair_eq_self_iff {p : Text × Rereading} : pair p = some (p.1, p.2.data) ↔
    (p.1.IsBasic ∧ (p.1.dataString true).length ≤ 1024) ∧ p.2.data.Survives := by
  rw [pair_eq_some_iff, Text.units_eq_self_iff, p.2.same, ← and_assoc, and_comm (a := p.1.IsBasic)]

/-- A mapping comes back exactly if each key and each value does. -/
theorem pairs_same {ps : List (Text × Rereading)} (hapart : (ps.map (·.1)).Nodup) :
    (ps.mapM pair).map (fun ys => Value.map (Value.Entries.ofList
        (ys.map fun y => (.text y.1, y.2)))) =
      some (.map (ps.map fun p => (.text p.1, p.2.data))) ↔
    ∀ p ∈ ps, (p.1.IsBasic ∧ (p.1.dataString true).length ≤ 1024) ∧ p.2.data.Survives := by
  simp only [← pair_eq_self_iff]
  rw [Option.map_eq_some_iff]
  constructor
  · rintro ⟨ys, hys, hmap⟩
    have hentries := Value.map.inj hmap
    have hread : ∀ p ∈ ps, ∃ y, pair p = some y := fun p hp => by
      have hmem : pair p ∈ ps.map pair := List.mem_map_of_mem hp
      rw [mapM_eq_some_iff.1 hys] at hmem
      obtain ⟨y, -, hy⟩ := List.mem_map.1 hmem
      exact ⟨y, hy.symm⟩
    -- All keys are texts of units, so each is its own.
    have hbasic : ∀ p ∈ ps, p.1.IsBasic := by
      intro p hp
      have hmem : (Value.text p.1, p.2.data) ∈ Value.Entries.ofList
          (ys.map fun y => ((.text y.1, y.2) : Value × Value)) := by
        rw [hentries]
        exact List.mem_map.2 ⟨p, hp, rfl⟩
      obtain ⟨e, he, hkey⟩ := List.mem_map.1 (Value.Entries.key_of_mem_ofList hmem)
      obtain ⟨y, hy, rfl⟩ := List.mem_map.1 he
      obtain ⟨p', -, hp'⟩ := exists_of_mem_mapM hys hy
      rw [← Value.text.inj hkey, ← (pair_eq_some_iff.1 hp').2.1]
      exact p'.1.isBasic_units
    have hkeys : ys.map (·.1) = ps.map (·.1) := by
      have hkey : ∀ p ∈ ps, (pair p).map (·.1) = some p.1 := fun p hp => by
        obtain ⟨y, hy⟩ := hread p hp
        rw [hy, Option.map_some, ← (pair_eq_some_iff.1 hy).2.1,
          Text.units_eq_self_iff.2 (hbasic p hp)]
      have hread : ps.mapM (fun p => (pair p).map (·.1)) = some (ys.map (·.1)) := by
        rw [mapM_map_comm, hys]
        rfl
      have hown : ps.mapM (fun p => (pair p).map (·.1)) = some (ps.map (·.1)) := by
        rw [mapM_eq_some_iff, List.map_map]
        exact List.map_congr_left hkey
      exact Option.some_inj.1 (hread.symm.trans hown)
    rw [Value.Entries.ofList_texts (hkeys ▸ hapart)] at hentries
    have hys' : ys = ps.map fun p => (p.1, p.2.data) := by
      have htexts := congrArg (List.map fun e : Value × Value => (e.1.asText, e.2)) hentries
      rw [List.map_map, List.map_map] at htexts
      exact (List.map_id ys).symm.trans htexts
    rw [mapM_eq_some_iff, hys', List.map_map, List.map_inj_left] at hys
    exact hys
  · intro h
    refine ⟨ps.map fun p => (p.1, p.2.data), mapM_eq_some_iff.2 ?_, ?_⟩
    · rw [List.map_map]
      exact List.map_congr_left h
    · have hkeys : ((ps.map fun p => (p.1, p.2.data)).map (·.1)).Nodup := by
        rwa [List.map_map]
      rw [Value.Entries.ofList_texts hkeys, List.map_map]
      rfl

/-- The text between the braces of a mapping. -/
def inside (ps : List (Text × Rereading)) : Text :=
  Text.join ", " (ps.map fun p => p.1.dataString true ++ ": " ++ p.2.text)

theorem isInline_of_mem_inside (ps : List (Text × Rereading)) : ∀ c ∈ inside ps, c.IsInline := by
  refine isInline_of_mem_join fun t ht c hc => ?_
  obtain ⟨p, -, rfl⟩ := List.mem_map.1 ht
  rcases List.mem_append.1 hc with hc | hc
  · rcases List.mem_append.1 hc with hc | hc
    · exact p.1.isInline_of_mem_dataString c hc
    · exact (by decide : ∀ c ∈ (": " : Text), c.IsInline) c hc
  · exact p.2.inline c hc

theorem fills_inside (ps : List (Text × Rereading)) : Fills (inside ps)
    (List.intercalate [.flowEntry] (ps.map fun p => keyTokens p.1 ++ p.2.tokens)) :=
  fills_separated fun p _ => reads_entry p.1 (p.2.reads false)

/-- A mapping is read entry by entry. -/
def mapping (ps : List (Text × Rereading)) (hapart : (ps.map (·.1)).Nodup) : Rereading where
  data := .map (ps.map fun p => (.text p.1, p.2.data))
  text := "\x7b" ++ inside ps ++ "\x7d"
  tokens := .flowMappingStart ::
    (List.intercalate [.flowEntry] (ps.map fun p => keyTokens p.1 ++ p.2.tokens) ++
      [Token.flowMappingEnd])
  outcome := (ps.mapM entry).map fun xs =>
    (.mapping .map (xs.map fun x => (.scalar .str x.1, x.2.1)),
      .map (Value.Entries.ofList (xs.map fun x => (.text x.1, x.2.2))))
  json := Value.json?_map fun p _ => p.2.json
  inline := isInline_of_mem_brackets (isInline_of_mem_inside ps) (by decide) (by decide)
  reads allowed := Brackets.mapping.reads (fills_inside ps) allowed
  gives := by
    have h := gives_mapping fun p (_ : p ∈ ps) => isEntry p
    rw [mapM_map_comm, Option.map_map] at h
    rwa [Option.map_map]
  means := by
    intro q hq
    obtain ⟨xs, hxs, rfl⟩ := Option.map_eq_some_iff.1 hq
    refine (means_mapping ?_ fun x hx => ?_).mono (Nat.le_of_eq rfl)
    · rw [List.length_append]
      exact Nat.le_add_left 1 _
    · obtain ⟨p, hp, hentry⟩ := exists_of_mem_mapM hxs hx
      have houtcome : p.2.outcome = some x.2 := by
        unfold entry at hentry
        split at hentry
        · cases hentry
        · obtain ⟨q, hq, rfl⟩ := Option.map_eq_some_iff.1 hentry
          exact hq
      refine (p.2.means x.2 houtcome).mono ?_
      have hlength : (keyTokens p.1 ++ p.2.tokens).length ≤ (List.intercalate [.flowEntry]
          (ps.map fun p => keyTokens p.1 ++ p.2.tokens)).length :=
        length_le_intercalate (List.mem_map.2 ⟨p, hp, rfl⟩)
      rw [List.length_append] at hlength ⊢
      omega
  same := by
    have hsame : (ps.mapM entry).map (fun xs => Value.map (Value.Entries.ofList
          (xs.map fun x => (.text x.1, x.2.2)))) =
        (ps.mapM pair).map fun ys => Value.map (Value.Entries.ofList
          (ys.map fun y => (.text y.1, y.2))) := by
      have hpairs : ps.mapM pair = (ps.mapM entry).map (List.map fun x => (x.1, x.2.2)) :=
        mapM_map_comm _ ps
      rw [hpairs, Option.map_map]
      congr 1
      funext xs
      rw [Function.comp_apply, List.map_map]
      rfl
    rw [Option.map_map]
    show (ps.mapM entry).map (fun xs => Value.map (Value.Entries.ofList
      (xs.map fun x => (.text x.1, x.2.2)))) = _ ↔ _
    rw [hsame, pairs_same hapart, Value.survives_map, List.forall_mem_map, List.forall_mem_map]
    exact forall₂_and

/-! ## Aggregates -/

/-- The entries of an aggregate, unless some of its data has no text. -/
theorem exists_pairs {es : Value.Entries} (hkeys : ∀ e ∈ es, e.1 = .text e.1.asText)
    (hapart : (es.map fun e => e.1.asText).Nodup)
    (h : ∀ e ∈ es, (∃ r : Rereading, r.data = e.2) ∨ e.2.json? = none ∧ ¬e.2.Survives) :
    (∃ ps : List (Text × Rereading), (ps.map (·.1)).Nodup ∧
      (ps.map fun p => ((.text p.1, p.2.data) : Value × Value)) = es) ∨
    (Value.map es).json? = none ∧ ¬(Value.map es).Survives := by
  by_cases hall : ∀ e ∈ es, ∃ r : Rereading, r.data = e.2
  · left
    obtain ⟨ps, rfl⟩ : es ∈ Set.range
        (List.map fun p : Text × Rereading => ((.text p.1, p.2.data) : Value × Value)) := by
      rw [Set.range_list_map]
      intro e he
      obtain ⟨r, hr⟩ := hall e he
      exact ⟨(e.1.asText, r), Prod.ext (hkeys e he).symm hr⟩
    rw [List.map_map] at hapart
    exact ⟨ps, hapart, rfl⟩
  · right
    push Not at hall
    obtain ⟨e, he, hnone⟩ := hall
    obtain ⟨hjson, hlost⟩ := (h e he).resolve_left fun ⟨r, hr⟩ => hnone r hr
    exact ⟨Value.json?_map_eq_none he hjson, fun hs => hlost ((Value.survives_map.1 hs).2 e he)⟩

/-- All that is known of an aggregate, unless some of its data has no text. -/
theorem exists_of_isAggregate {v : Value} (h : v.IsAggregate) :
    (∃ r : Rereading, r.data = v) ∨ v.json? = none ∧ ¬v.Survives := by
  induction h with
  | bool b => exact Or.inl (exists_bool b)
  | int i =>
    by_cases hi : i.natAbs < Nat.pow 10 Numeral.maxDecimalDigits
    · exact Or.inl (exists_int hi)
    · -- An integer with too many digits has no text at all.
      refine Or.inr ⟨?_, fun h => ?_⟩
      · rw [Value.json?, Value.intText?, if_neg hi]
      · cases h with
        | int hsmall => exact hi hsmall
  | float negative hc => exact Or.inl (exists_float negative hc)
  | text t => exact Or.inl ⟨quoted t, rfl⟩
  | @list xs _ ih =>
    by_cases hall : ∀ x ∈ xs, ∃ r : Rereading, r.data = x
    · obtain ⟨ps, rfl⟩ : xs ∈ Set.range (List.map Rereading.data) := by
        rw [Set.range_list_map]
        exact hall
      exact Or.inl ⟨sequence ps, rfl⟩
    · push Not at hall
      obtain ⟨x, hx, hnone⟩ := hall
      obtain ⟨hjson, hlost⟩ := (ih x hx).resolve_left (not_exists.2 hnone)
      exact Or.inr ⟨Value.json?_list_eq_none hx hjson,
        fun hs => hlost (Value.survives_list.1 hs x hx)⟩
  | map hkeys hapart _ ih =>
    refine (exists_pairs hkeys hapart ih).imp_left ?_
    rintro ⟨ps, hps, rfl⟩
    exact ⟨mapping ps hps, rfl⟩

end Rereading

/-- What has no JSON text does not come back. -/
theorem not_survives_of_json?_eq_none {v : Value} (h : v.IsAggregate) (hnone : v.json? = none) :
    ¬v.Survives := by
  rcases Rereading.exists_of_isAggregate h with ⟨r, rfl⟩ | ⟨-, hlost⟩
  · exact absurd (r.json.symm.trans hnone) (Option.some_ne_none _)
  · exact hlost

/-! ## Documents -/

/-- The JSON text of a mapping is a document that holds a mapping, the same one exactly if it
    survives. -/
theorem read_json {es : Value.Entries} (h : (Value.map es).IsAggregate) {text : Text}
    (hjson : (Value.map es).json? = some text) :
    (∃ fs, read text = .ok (.ofValue (.map fs)) ∧ (fs = es ↔ (Value.map es).Survives)) ∨
    (∃ e, read text = .error e) ∧ ¬(Value.map es).Survives := by
  obtain ⟨hkeys, hapart, hes⟩ : (∀ e ∈ es, e.1 = .text e.1.asText) ∧
      (es.map fun e => e.1.asText).Nodup ∧ ∀ e ∈ es, e.2.IsAggregate := by
    cases h with
    | map hkeys hapart hes => exact ⟨hkeys, hapart, hes⟩
  obtain ⟨ps, hps, rfl⟩ := (Rereading.exists_pairs hkeys hapart fun e he =>
    Rereading.exists_of_isAggregate (hes e he)).resolve_right fun ⟨hnone, _⟩ => by
      rw [hnone] at hjson
      cases hjson
  have hlexed : Lexed.ofText (Rereading.mapping ps hps).text =
      ⟨(Rereading.mapping ps hps).tokens ++ [.streamEnd], none⟩ :=
    lexed_brackets .mapping (Rereading.fills_inside ps) (Rereading.isInline_of_mem_inside ps)
  obtain rfl : (Rereading.mapping ps hps).text = text :=
    Option.some_inj.1 ((Rereading.mapping ps hps).json.symm.trans hjson)
  have hgives := (Rereading.mapping ps hps).gives
  have hsame := (Rereading.mapping ps hps).same
  -- What the mapping comes back as is known from its parts, if they come back at all.
  cases houtcome : (Rereading.mapping ps hps).outcome with
  | none =>
    rw [houtcome] at hgives hsame
    exact Or.inr ⟨hgives.read_fails hlexed, fun hs => nomatch hsame.2 hs⟩
  | some q =>
    rw [houtcome, Option.map_some] at hgives
    rw [houtcome, Option.map_some, Option.some_inj] at hsame
    have hread := hgives.read_eq hlexed ((Rereading.mapping ps hps).means q houtcome)
    obtain ⟨xs, -, rfl⟩ := Option.map_eq_some_iff.1 houtcome
    exact Or.inl ⟨_, hread, ⟨fun heq => hsame.1 (congrArg Value.map heq),
      fun hs => Value.map.inj (hsame.2 hs)⟩⟩

end Yaml

end IdlBridge
