import IdlBridge.Naming
import IdlBridge.Proofs.Text
import Mathlib.Data.List.TakeWhile

/-! # Words of names

    A name that is put together from words can be cut into the same words again.  So two constants
    are equal exactly when they have the same words, apart from capitals, and what a name starts
    with is what its first word starts with.

    An *identifier* is a letter or an underscore with letters, digits and underscores behind it.  A
    field name always is one.  A type name is put together without a look at its start, so it is one
    only where the first word starts with a letter.
-/

namespace IdlBridge

/-- An ASCII letter or an underscore, followed by ASCII letters, digits and underscores. -/
def Text.IsIdentifier : Text → Prop
  | [] => False
  | c :: rest => (c.isAsciiLetter = true ∨ c = '_') ∧ ∀ d ∈ rest, d.isAsciiAlnum = true ∨ d = '_'

instance (t : Text) : Decidable t.IsIdentifier :=
  match t with
  | [] => inferInstanceAs (Decidable False)
  | _ :: _ => inferInstanceAs (Decidable (_ ∧ _))

namespace CodePoint

theorem isAsciiAlnum_underscore : ('_' : CodePoint).isAsciiAlnum = false := by decide

theorem ne_underscore_of_isAsciiAlnum {c : CodePoint} (h : c.isAsciiAlnum = true) : c ≠ '_' := by
  rintro rfl
  rw [isAsciiAlnum_underscore] at h
  cases h

theorem isAsciiAlnum_upperAscii (c : CodePoint) (h : c.isAsciiAlnum = true) :
    c.upperAscii.isAsciiAlnum = true :=
  forall_isAsciiAlnum (P := fun c => c.upperAscii.isAsciiAlnum = true) (by decide +kernel) c h

theorem isAsciiLetter_upperAscii (c : CodePoint) (h : c.isAsciiAlnum = true) :
    c.upperAscii.isAsciiLetter = c.isAsciiLetter :=
  forall_isAsciiAlnum (P := fun c => c.upperAscii.isAsciiLetter = c.isAsciiLetter)
    (by decide +kernel) c h

/-- A letter or digit is one or the other. -/
theorem isAsciiLetter_eq_not_isAsciiDigit (c : CodePoint) (h : c.isAsciiAlnum = true) :
    c.isAsciiLetter = !c.isAsciiDigit :=
  forall_isAsciiAlnum (P := fun c => c.isAsciiLetter = !c.isAsciiDigit) (by decide +kernel) c h

end CodePoint

namespace Naming

open CodePoint

/-! ## Cutting into words -/

/-- Letters and digits, at least one. -/
def IsWord (w : Text) : Prop := w ≠ [] ∧ ∀ c ∈ w, c.isAsciiAlnum = true

theorem words_cons_of_other {c : CodePoint} (h : c.isAsciiAlnum = false) (rest : Text) :
    words (c :: rest) = words rest := by
  rw [words.eq_def]
  simp [h]

/-- A word goes on as long as letters and digits follow. -/
theorem words_cons {c : CodePoint} (h : c.isAsciiAlnum = true) (rest : Text) :
    words (c :: rest) = (c :: rest.takeWhile isAsciiAlnum) ::
      words (rest.dropWhile isAsciiAlnum) := by
  induction rest generalizing c with
  | nil => simp [words, h]
  | cons d rest ih =>
    cases hd : d.isAsciiAlnum with
    | true =>
      rw [words.eq_def]
      simp [h, hd, ih hd]
    | false =>
      rw [words.eq_def]
      simp [h, hd]

theorem isWord_of_mem_words (t : Text) : ∀ w ∈ words t, IsWord w := by
  induction ht : t.length using Nat.strongRecOn generalizing t with
  | _ n ih =>
    cases t with
    | nil => simp [words]
    | cons c rest =>
      have hlength : (rest.dropWhile isAsciiAlnum).length < n := by
        have := (List.dropWhile_suffix (l := rest) isAsciiAlnum).length_le
        rw [List.length_cons] at ht
        omega
      cases hc : c.isAsciiAlnum with
      | true =>
        rw [words_cons hc]
        refine List.forall_mem_cons.2 ⟨⟨by simp, ?_⟩, ih _ hlength _ rfl⟩
        exact List.forall_mem_cons.2 ⟨hc, fun d hd => List.mem_takeWhile_imp hd⟩
      | false =>
        rw [words_cons_of_other hc]
        exact ih rest.length (by rw [← ht]; simp) rest rfl

/-- A word, with nothing behind it that continues it, is the first word. -/
theorem words_append {w : Text} (hw : IsWord w) {rest : Text}
    (hrest : ∀ c, rest.head? = some c → c.isAsciiAlnum = false) :
    words (w ++ rest) = w :: words rest := by
  obtain ⟨hne, hall⟩ := hw
  cases w with
  | nil => exact absurd rfl hne
  | cons c w =>
    obtain ⟨hc, hw⟩ := List.forall_mem_cons.1 hall
    have htake : rest.takeWhile isAsciiAlnum = [] := by
      cases rest with
      | nil => rfl
      | cons d rest => exact List.takeWhile_cons_of_neg (by simp [hrest d rfl])
    have hdrop : rest.dropWhile isAsciiAlnum = rest := by
      cases rest with
      | nil => rfl
      | cons d rest => exact List.dropWhile_cons_of_neg (by simp [hrest d rfl])
    rw [List.cons_append, words_cons hc, List.takeWhile_append_of_pos hw,
      List.dropWhile_append_of_pos hw, htake, hdrop, List.append_nil]

theorem join_cons_cons (v w : Text) (ws : List Text) :
    Text.join "_" (v :: w :: ws) = v ++ ('_' : CodePoint) :: Text.join "_" (w :: ws) := by
  rw [Text.join, List.intercalate_cons_cons, List.append_assoc]
  rfl

/-- Words with underscores between them are cut into the same words. -/
theorem words_join {ws : List Text} (h : ∀ w ∈ ws, IsWord w) : words (Text.join "_" ws) = ws := by
  induction ws with
  | nil => rfl
  | cons w ws ih =>
    obtain ⟨hw, hws⟩ := List.forall_mem_cons.1 h
    cases ws with
    | nil =>
      have hone : Text.join "_" [w] = w ++ [] := by simp [Text.join, List.intercalate]
      rw [hone, words_append hw (by simp)]
      rfl
    | cons v ws =>
      have hbreak : ∀ c : CodePoint,
          (('_' : CodePoint) :: Text.join "_" (v :: ws)).head? = some c →
            c.isAsciiAlnum = false := by
        rintro c ⟨⟩
        exact isAsciiAlnum_underscore
      rw [join_cons_cons, words_append hw hbreak, words_cons_of_other isAsciiAlnum_underscore,
        ih hws]

/-- A text without letters and digits has no words; else its first word starts with the first of
    them. -/
theorem words_cases (t : Text) :
    (words t = [] ∧ t.find? isAsciiAlnum = none) ∨
      ∃ c w ws, words t = (c :: w) :: ws ∧ t.find? isAsciiAlnum = some c := by
  induction t with
  | nil => exact Or.inl ⟨rfl, rfl⟩
  | cons c rest ih =>
    cases hc : c.isAsciiAlnum with
    | true => exact Or.inr ⟨c, _, _, words_cons hc rest, List.find?_cons_of_pos hc⟩
    | false =>
      rw [words_cons_of_other hc, List.find?_cons_of_neg (by simp [hc])]
      exact ih

theorem isAsciiAlnum_of_mem_join {ws : List Text} (h : ∀ w ∈ ws, IsWord w) {c : CodePoint}
    (hc : c ∈ Text.join "_" ws) : c.isAsciiAlnum = true ∨ c = '_' := by
  induction ws with
  | nil => cases hc
  | cons w ws ih =>
    obtain ⟨hw, hws⟩ := List.forall_mem_cons.1 h
    cases ws with
    | nil =>
      have hone : Text.join "_" [w] = w := by simp [Text.join, List.intercalate]
      rw [hone] at hc
      exact Or.inl (hw.2 c hc)
    | cons v ws =>
      rw [join_cons_cons, List.mem_append, List.mem_cons] at hc
      rcases hc with hc | rfl | hc
      · exact Or.inl (hw.2 c hc)
      · exact Or.inr rfl
      · exact ih hws hc

/-! ## Field names and type names -/

/-- The first letter or digit is a letter. -/
def startsWithLetter (t : Text) : Bool :=
  (t.find? isAsciiAlnum).any isAsciiLetter

/-- A field name is an identifier, whatever it is made of. -/
theorem isIdentifier_fieldName (t : Text) : (fieldName t).IsIdentifier := by
  have hjoin := fun c => isAsciiAlnum_of_mem_join (c := c) (isWord_of_mem_words t)
  unfold fieldName
  rcases words_cases t with ⟨hwords, -⟩ | ⟨c, w, ws, hwords, -⟩
  · rw [hwords]
    decide
  · have hc : c.isAsciiAlnum = true :=
      (isWord_of_mem_words t _ (hwords ▸ List.mem_cons_self)).2 c List.mem_cons_self
    obtain ⟨rest, hrest⟩ : ∃ rest, Text.join "_" (words t) = c :: rest := by
      rw [hwords]
      cases ws with
      | nil => exact ⟨w, by simp [Text.join, List.intercalate]⟩
      | cons v ws => exact ⟨_, join_cons_cons _ _ _⟩
    rw [hrest] at hjoin ⊢
    dsimp only
    cases hdigit : c.isAsciiDigit with
    | true =>
      -- In front of a digit comes a letter, and the text stays one of letters, digits and
      -- underscores.
      rw [if_pos rfl]
      refine ⟨Or.inl (by decide), fun d hd => ?_⟩
      have hfield : ∀ x ∈ (("ield_" : Text)), x.isAsciiAlnum = true ∨ x = '_' := by decide
      rcases List.mem_append.1 hd with hd | hd
      · exact hfield d hd
      · exact hjoin d hd
    | false =>
      rw [if_neg (by simp)]
      have hletter := isAsciiLetter_eq_not_isAsciiDigit c hc
      rw [hdigit] at hletter
      exact ⟨Or.inl hletter, fun d hd => hjoin d (List.mem_cons_of_mem _ hd)⟩

/-- A type name is an identifier if and only if the name that it is made of starts with a letter,
    what is no letter or digit aside. -/
theorem isIdentifier_camel_iff (t : Text) :
    (camel t).IsIdentifier ↔ startsWithLetter t = true := by
  rcases words_cases t with ⟨hwords, hfind⟩ | ⟨c, w, ws, hwords, hfind⟩
  · simp [camel, startsWithLetter, hwords, hfind, Text.IsIdentifier]
  · have hword := isWord_of_mem_words t
    rw [hwords] at hword
    obtain ⟨⟨-, hfirst⟩, hws⟩ := List.forall_mem_cons.1 hword
    obtain ⟨hc, hw⟩ := List.forall_mem_cons.1 hfirst
    have hrest : ∀ d ∈ w ++ ws.flatMap capitalWord, d.isAsciiAlnum = true := by
      intro d hd
      rcases List.mem_append.1 hd with hd | hd
      · exact hw d hd
      · obtain ⟨v, hv, hd⟩ := List.mem_flatMap.1 hd
        obtain ⟨hne, hv⟩ := hws v hv
        cases v with
        | nil => exact absurd rfl hne
        | cons x v =>
          obtain ⟨hx, hv⟩ := List.forall_mem_cons.1 hv
          rcases List.mem_cons.1 hd with rfl | hd
          · exact isAsciiAlnum_upperAscii x hx
          · exact hv d hd
    -- The name is made of letters and digits, so its first character alone decides.
    have hcamel : camel t = c.upperAscii :: (w ++ ws.flatMap capitalWord) := by
      rw [camel, hwords]
      rfl
    have hstart : c.upperAscii ≠ '_' :=
      ne_underscore_of_isAsciiAlnum (isAsciiAlnum_upperAscii c hc)
    rw [hcamel, startsWithLetter, hfind, Option.any_some, Text.IsIdentifier,
      isAsciiLetter_upperAscii c hc]
    simp only [hstart, or_false]
    exact ⟨And.left, fun h => ⟨h, fun d hd => Or.inl (hrest d hd)⟩⟩

/-! ## Constants -/

/-- The words of a constant: humps start words of their own, and capitals do not count. -/
def constantWords (t : Text) : List Text :=
  (words (breakHumps t)).map Text.upperAscii

theorem upperSnake_eq_join (t : Text) : upperSnake t = Text.join "_" (constantWords t) := by
  rw [upperSnake, constantWords]
  induction words (breakHumps t) with
  | nil => rfl
  | cons w ws ih =>
    cases ws with
    | nil => simp [Text.join, List.intercalate, Text.upperAscii]
    | cons v ws =>
      rw [join_cons_cons, List.map_cons, List.map_cons, join_cons_cons, ← List.map_cons, ← ih]
      simp only [Text.upperAscii, List.map_append, List.map_cons]
      rfl

theorem isWord_of_mem_constantWords (t : Text) : ∀ w ∈ constantWords t, IsWord w := by
  intro w hw
  obtain ⟨v, hv, rfl⟩ := List.mem_map.1 hw
  obtain ⟨hne, hall⟩ := isWord_of_mem_words _ v hv
  refine ⟨by simpa [Text.upperAscii] using hne, fun c hc => ?_⟩
  obtain ⟨d, hd, rfl⟩ := List.mem_map.1 hc
  exact isAsciiAlnum_upperAscii d (hall d hd)

end Naming

end IdlBridge
