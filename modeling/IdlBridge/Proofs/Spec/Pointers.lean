import IdlBridge.Proofs.Text
import IdlBridge.Proofs.Value.Entries
import IdlBridge.Spec.Pointer

/-! # Pointers

    A reference is written for keys: a tilde in a key becomes `~0`, a slash `~1`, and slashes
    stand between the keys.  Reading it takes the two marks away in the opposite order, slashes
    first, so that the tilde that comes out of `~0` meets no `1` behind it any more.

    What is read is the keys again, so a pointer is followed exactly as its keys are, step by
    step, and different keys make different references.
-/

namespace IdlBridge.Spec.Pointer

/-- How a segment of a reference spells a character of a key. -/
def escapeChar (c : CodePoint) : Text :=
  if c = '~' then "~0" else if c = '/' then "~1" else [c]

/-- A key as a segment of a reference. -/
def escape (key : Text) : Text :=
  key.flatMap escapeChar

/-- The reference that keys make. -/
def ofKeys (keys : List Text) : Text :=
  lead ++ Text.join "/" (keys.map escape)

/-- The keys lead from a value to another one: each is a key of the mapping that the keys before it
    lead to. -/
inductive Leads : Value → List Text → Value → Prop
  | here (v : Value) : Leads v [] v
  | step {es : Value.Entries} {key : Text} {keys : List Text} {w target : Value}
    (hkey : es.get? (.text key) = some w) (h : Leads w keys target) :
    Leads (.map es) (key :: keys) target

/-- Some key meets a value that is no mapping, or a mapping without it. -/
inductive Fails : Value → List Text → Prop
  | noMapping {v : Value} (key : Text) (keys : List Text) (h : ∀ es, v ≠ .map es) :
    Fails v (key :: keys)
  | missing {es : Value.Entries} {key : Text} (keys : List Text) (h : ∀ e ∈ es, e.1 ≠ .text key) :
    Fails (.map es) (key :: keys)
  | later {es : Value.Entries} {key : Text} {keys : List Text} {w : Value}
    (hkey : es.get? (.text key) = some w) (h : Fails w keys) : Fails (.map es) (key :: keys)

/-! ## Following keys -/

theorem get?_text_eq_none_iff {es : Value.Entries} {key : Text} :
    es.get? (.text key) = none ↔ ∀ e ∈ es, e.1 ≠ .text key := by
  unfold Value.Entries.get?
  rw [Option.map_eq_none_iff, List.find?_eq_none]
  simp only [Value.sameKey_text]

theorem follow_map_cons (es : Value.Entries) (key : Text) (keys : List Text) :
    follow (.map es) (key :: keys) = (es.get? (.text key)).bind fun w => follow w keys := rfl

theorem follow_eq_some_iff {v target : Value} {keys : List Text} :
    follow v keys = some target ↔ Leads v keys target := by
  constructor
  · intro h
    induction keys generalizing v with
    | nil =>
      cases h
      exact .here target
    | cons key keys ih =>
      cases v with
      | map es =>
        rw [follow_map_cons] at h
        obtain ⟨w, hkey, hw⟩ := Option.bind_eq_some_iff.1 h
        exact .step hkey (ih hw)
      | _ => cases h
  · intro h
    induction h with
    | here _ => rfl
    | step hkey _ ih => rw [follow_map_cons, hkey, Option.bind_some, ih]

theorem follow_eq_none_iff {v : Value} {keys : List Text} :
    follow v keys = none ↔ Fails v keys := by
  constructor
  · intro h
    -- The key that fails is the first one without a value to go on with.
    induction keys generalizing v with
    | nil => cases h
    | cons key keys ih =>
      cases v with
      | map es =>
        rw [follow_map_cons] at h
        cases hkey : Value.Entries.get? es (.text key) with
        | none => exact .missing keys (get?_text_eq_none_iff.1 hkey)
        | some w =>
          rw [hkey, Option.bind_some] at h
          exact .later hkey (ih h)
      | _ => exact .noMapping key keys fun es hes => by cases hes
  · intro h
    induction h with
    | @noMapping v key keys h =>
      cases v with
      | map es => exact absurd rfl (h es)
      | _ => rfl
    | missing keys h => rw [follow_map_cons, get?_text_eq_none_iff.2 h, Option.bind_none]
    | later hkey _ ih => rw [follow_map_cons, hkey, Option.bind_some, ih]

/-! ## Reading the keys of a reference -/

/-- Taking the slashes out leaves the tildes marked. -/
theorem replacePair_escape (key : Text) :
    Text.replacePair '~' '1' "/" (escape key) = Text.replaceChar '~' "~0" key := by
  induction key with
  | nil => rfl
  | cons c key ih =>
    have hescape : escape (c :: key) = escapeChar c ++ escape key := rfl
    have hreplace : Text.replaceChar '~' "~0" (c :: key) =
        (if c = '~' then "~0" else [c] : Text) ++ Text.replaceChar '~' "~0" key := rfl
    rw [hescape, hreplace, ← ih, escapeChar]
    by_cases htilde : c = '~'
    · -- A tilde has become a tilde and a zero, which is no mark of a slash.
      rw [if_pos htilde, if_pos htilde]
      show Text.replacePair '~' '1' "/" ('~' :: '0' :: escape key) = _
      rw [Text.replacePair_cons_cons_of_ne (by decide), Text.replacePair_cons_of_ne (by decide)]
      rfl
    · rw [if_neg htilde, if_neg htilde]
      by_cases hslash : c = '/'
      · rw [if_pos hslash, hslash]
        exact Text.replacePair_pair '~' '1' "/" (escape key)
      · rw [if_neg hslash]
        exact Text.replacePair_cons_of_ne htilde "/" (escape key)

theorem replacePair_replaceChar (key : Text) :
    Text.replacePair '~' '0' "~" (Text.replaceChar '~' "~0" key) = key := by
  induction key with
  | nil => rfl
  | cons c key ih =>
    have hreplace : Text.replaceChar '~' "~0" (c :: key) =
        (if c = '~' then "~0" else [c] : Text) ++ Text.replaceChar '~' "~0" key := rfl
    rw [hreplace]
    by_cases htilde : c = '~'
    · rw [if_pos htilde]
      show Text.replacePair '~' '0' "~" ('~' :: '0' :: Text.replaceChar '~' "~0" key) = _
      rw [Text.replacePair_pair, ih, htilde]
      rfl
    · rw [if_neg htilde]
      show Text.replacePair '~' '0' "~" (c :: Text.replaceChar '~' "~0" key) = _
      rw [Text.replacePair_cons_of_ne htilde, ih]

theorem unescape_escape (key : Text) : unescape (escape key) = key := by
  rw [unescape, replacePair_escape, replacePair_replaceChar]

/-- No slash is left in a segment. -/
theorem slash_not_mem_escape (key : Text) : ('/' : CodePoint) ∉ escape key := by
  intro h
  obtain ⟨c, _, hc⟩ := List.mem_flatMap.1 h
  rw [escapeChar] at hc
  by_cases htilde : c = '~'
  · rw [if_pos htilde] at hc
    exact absurd hc (by decide)
  · rw [if_neg htilde] at hc
    by_cases hslash : c = '/'
    · rw [if_pos hslash] at hc
      exact absurd hc (by decide)
    · rw [if_neg hslash, List.mem_singleton] at hc
      exact hslash hc.symm

theorem keys_ofKeys {path : List Text} (hne : path ≠ []) : keys (ofKeys path) = path := by
  have hslash : ∀ segment ∈ path.map escape, ('/' : CodePoint) ∉ segment :=
    List.forall_mem_map.2 fun key _ => slash_not_mem_escape key
  have hsegments : Text.splitOn '/' (Text.join "/" (path.map escape)) = path.map escape :=
    List.splitOn_intercalate ('/' : CodePoint) hslash fun h => hne (List.map_eq_nil_iff.1 h)
  have hkeys : ∀ key ∈ path, unescape (escape key) = key := fun key _ => unescape_escape key
  rw [keys, ofKeys, List.drop_left, hsegments, List.map_map]
  exact List.map_congr_left hkeys |>.trans (List.map_id' path)

theorem resolve_eq (doc : Value) {path : List Text} (hne : path ≠ []) :
    resolve doc (ofKeys path) =
      match follow doc path with
      | some v => .ok v
      | none => .error (.unresolvable (ofKeys path)) := by
  have hlead : Text.startsWith (ofKeys path) lead = true :=
    List.isPrefixOf_iff_prefix.2 (List.prefix_append lead _)
  have hread : resolve doc (ofKeys path) =
      match follow doc (keys (ofKeys path)) with
      | some v => .ok v
      | none => .error (.unresolvable (ofKeys path)) := if_pos hlead
  rw [keys_ofKeys hne] at hread
  exact hread

/-- The reference of keys leads to what the keys lead to.  It fails exactly if a key meets no
    mapping or is missing, and the error names the reference.  Different keys make different
    references. -/
theorem resolve_ofKeys_and_injective :
    (∀ (doc : Value) (path : List Text), path ≠ [] →
      (∀ target, resolve doc (ofKeys path) = .ok target ↔ Leads doc path target) ∧
        ∀ e, resolve doc (ofKeys path) = .error e ↔
          e = .unresolvable (ofKeys path) ∧ Fails doc path) ∧
      ∀ path path' : List Text, path ≠ [] → path' ≠ [] → ofKeys path = ofKeys path' →
        path = path' := by
  refine ⟨fun doc path hne => ?_, fun path path' hne hne' h => ?_⟩
  · rw [resolve_eq doc hne]
    cases hfollow : follow doc path with
    | some v =>
      constructor
      · intro target
        rw [← follow_eq_some_iff, hfollow, Except.ok.injEq, Option.some.injEq]
      · intro e
        rw [← follow_eq_none_iff, hfollow]
        simp
    | none =>
      constructor
      · intro target
        rw [← follow_eq_some_iff, hfollow]
        simp
      · intro e
        rw [← follow_eq_none_iff, hfollow, Except.error.injEq]
        simp [eq_comm]
  · have hkeys := congrArg keys h
    rwa [keys_ofKeys hne, keys_ofKeys hne'] at hkeys

/-- A document with a path template and a tilde among its keys. -/
def petsDocument : Value :=
  .map [(.text "paths", .map [(.text "/pets/{id}", .map [(.text "~1", .int 5),
    (.text "", .null)])])]

/-- A path template and a key that looks like a mark are found, and kept apart from a slash. -/
theorem resolve_petsPointer :
    ofKeys ["paths", "/pets/{id}", "~1"] = "#/paths/~1pets~1{id}/~01" ∧
      resolve petsDocument "#/paths/~1pets~1{id}/~01" = .ok (.int 5) ∧
      resolve petsDocument "#/paths/~1pets~1{id}/~1" =
        .error (.unresolvable "#/paths/~1pets~1{id}/~1") ∧
      resolve petsDocument "#/paths/~1pets~1{id}/~01/" =
        .error (.unresolvable "#/paths/~1pets~1{id}/~01/") ∧
      ofKeys ["~1"] ≠ ofKeys ["/"] := by
  have hfound : Leads petsDocument ["paths", "/pets/{id}", "~1"] (.int 5) :=
    .step rfl (.step rfl (.step rfl (.here _)))
  -- The keys of the last mapping are a mark and nothing at all; neither is a slash.
  have hmissing : Fails petsDocument ["paths", "/pets/{id}", "/"] :=
    .later rfl (.later rfl (.missing [] fun e he hkey => by
      rcases List.mem_cons.1 he with rfl | he
      · cases hkey
      · rcases List.mem_singleton.1 he with rfl
        cases hkey))
  have hnumber : Fails petsDocument ["paths", "/pets/{id}", "~1", ""] :=
    .later rfl (.later rfl (.later rfl (.noMapping "" [] fun es hes => by cases hes)))
  have hkeys : ofKeys ["paths", "/pets/{id}", "~1"] = "#/paths/~1pets~1{id}/~01" := by
    decide +kernel
  have hslash : ofKeys ["paths", "/pets/{id}", "/"] = "#/paths/~1pets~1{id}/~1" := by
    decide +kernel
  have hbelow : ofKeys ["paths", "/pets/{id}", "~1", ""] = "#/paths/~1pets~1{id}/~01/" := by
    decide +kernel
  refine ⟨hkeys, ?_, ?_, ?_, fun h => ?_⟩
  · rw [← hkeys]
    exact ((resolve_ofKeys_and_injective.1 petsDocument _ (by simp)).1 _).2 hfound
  · rw [← hslash]
    exact ((resolve_ofKeys_and_injective.1 petsDocument _ (by simp)).2 _).2 ⟨rfl, hmissing⟩
  · rw [← hbelow]
    exact ((resolve_ofKeys_and_injective.1 petsDocument _ (by simp)).2 _).2 ⟨rfl, hnumber⟩
  · exact absurd (resolve_ofKeys_and_injective.2 _ _ (by simp) (by simp) h) (by decide)

end IdlBridge.Spec.Pointer
