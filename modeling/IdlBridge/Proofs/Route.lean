import IdlBridge.Route
import Mathlib.Data.List.TakeWhile

/-! # Braces, colons, and back

    Both directions rewrite from the left, and each of them adds and takes away the very marks that
    the other one looks for.  What keeps them apart is that a rewritten parameter starts and ends
    with a mark, never with a word character: words stay where they are, and so do the marks around
    them that are no part of a parameter.

    Braces become colons and braces again unless a colon already stood in front of a word, or a
    word stood right behind a closing brace and is taken for part of the name.  Colons become
    braces and colons again unless there was a parameter in braces from the start.
-/

namespace IdlBridge.Route

/-! ## Words between marks -/

theorem isWord_openBrace : ('{' : CodePoint).isWord = false := by decide

theorem isWord_closeBrace : ('}' : CodePoint).isWord = false := by decide

theorem isWord_colon : (':' : CodePoint).isWord = false := by decide

theorem word_append_afterWord (t : Text) : word t ++ afterWord t = t :=
  List.takeWhile_append_dropWhile

theorem isWord_of_mem_word {t : Text} {c : CodePoint} (h : c ∈ word t) : c.isWord = true :=
  List.mem_takeWhile_imp h

theorem word_cons (c : CodePoint) (t : Text) :
    word (c :: t) = if c.isWord then c :: word t else [] :=
  List.takeWhile_cons

theorem afterWord_cons (c : CodePoint) (t : Text) :
    afterWord (c :: t) = if c.isWord then afterWord t else c :: t :=
  List.dropWhile_cons

theorem word_cons_of_mark {c : CodePoint} (hc : c.isWord = false) (t : Text) :
    word (c :: t) = [] := by
  simp [word_cons, hc]

theorem afterWord_cons_of_mark {c : CodePoint} (hc : c.isWord = false) (t : Text) :
    afterWord (c :: t) = c :: t := by
  simp [afterWord_cons, hc]

/-- A text of word characters belongs to the word in front. -/
theorem word_append {w : Text} (hw : ∀ c ∈ w, c.isWord = true) (t : Text) :
    word (w ++ t) = w ++ word t :=
  List.takeWhile_append_of_pos hw

theorem afterWord_append {w : Text} (hw : ∀ c ∈ w, c.isWord = true) (t : Text) :
    afterWord (w ++ t) = afterWord t :=
  List.dropWhile_append_of_pos hw

theorem word_closing {w : Text} (hw : ∀ c ∈ w, c.isWord = true) (t : Text) :
    word (w ++ ('}' : CodePoint) :: t) = w := by
  rw [word_append hw, word_cons_of_mark isWord_closeBrace, List.append_nil]

theorem afterWord_closing {w : Text} (hw : ∀ c ∈ w, c.isWord = true) (t : Text) :
    afterWord (w ++ ('}' : CodePoint) :: t) = ('}' : CodePoint) :: t := by
  rw [afterWord_append hw, afterWord_cons_of_mark isWord_closeBrace]

/-- The text starts with a word and a closing brace behind it. -/
def Closes (t : Text) : Prop :=
  word t ≠ [] ∧ (afterWord t).head? = some ('}' : CodePoint)

instance (t : Text) : Decidable (Closes t) := inferInstanceAs (Decidable (_ ∧ _))

theorem closes_iff {t : Text} : Closes t ↔
    ∃ w after, t = w ++ ('}' : CodePoint) :: after ∧ w ≠ [] ∧ ∀ c ∈ w, c.isWord = true := by
  constructor
  · rintro ⟨hne, hclose⟩
    obtain ⟨after, hafter⟩ := List.head?_eq_some_iff.1 hclose
    have ht : t = word t ++ ('}' : CodePoint) :: after := by
      rw [← hafter, word_append_afterWord]
    exact ⟨word t, after, ht, hne, fun c hc => isWord_of_mem_word hc⟩
  · rintro ⟨w, after, rfl, hne, hw⟩
    rw [Closes, word_closing hw, afterWord_closing hw]
    exact ⟨hne, rfl⟩

/-! ## One step of each direction -/

theorem bracesToColons_braced {w : Text} (hne : w ≠ []) (hw : ∀ c ∈ w, c.isWord = true)
    (t : Text) :
    bracesToColons (('{' : CodePoint) :: (w ++ ('}' : CodePoint) :: t)) =
      (':' : CodePoint) :: (w ++ bracesToColons t) := by
  have hword := word_closing hw t
  have hafter := afterWord_closing hw t
  rw [bracesToColons]
  split
  · next d tail h =>
    rw [hafter] at h
    cases h
    rw [hword, if_pos ⟨rfl, hne, rfl⟩]
  · next h =>
    rw [hafter] at h
    cases h

theorem bracesToColons_cons {c : CodePoint} {t : Text} (h : ¬(c = '{' ∧ Closes t)) :
    bracesToColons (c :: t) = c :: bracesToColons t := by
  rw [bracesToColons]
  split
  · next d tail hafter =>
    rw [if_neg]
    rintro ⟨hc, hne, rfl⟩
    exact h ⟨hc, hne, by rw [hafter]; rfl⟩
  · rfl

theorem colonsToBraces_colon {t : Text} (h : word t ≠ []) :
    colonsToBraces ((':' : CodePoint) :: t) =
      ('{' : CodePoint) :: (word t ++ ('}' : CodePoint) :: colonsToBraces (afterWord t)) := by
  rw [colonsToBraces, if_pos ⟨rfl, h⟩, List.append_assoc]
  rfl

theorem colonsToBraces_cons {c : CodePoint} {t : Text} (h : ¬(c = ':' ∧ word t ≠ [])) :
    colonsToBraces (c :: t) = c :: colonsToBraces t := by
  rw [colonsToBraces, if_neg h]

/-- Induction along the rewriting of braces: parameter by parameter, and code point by code point
    between them. -/
theorem braces_induction {P : Text → Prop} (nil : P [])
    (braced : ∀ w t, w ≠ [] → (∀ c ∈ w, c.isWord = true) → P t →
      P (('{' : CodePoint) :: (w ++ ('}' : CodePoint) :: t)))
    (cons : ∀ (c : CodePoint) t, ¬(c = '{' ∧ Closes t) → P t → P (c :: t)) (p : Text) : P p := by
  induction hn : p.length using Nat.strong_induction_on generalizing p with
  | _ n ih =>
    subst hn
    cases p with
    | nil => exact nil
    | cons c t =>
      by_cases h : c = '{' ∧ Closes t
      · obtain ⟨rfl, hcloses⟩ := h
        obtain ⟨w, after, rfl, hne, hw⟩ := closes_iff.1 hcloses
        refine braced w after hne hw (ih _ ?_ after rfl)
        simp
        omega
      · exact cons c t h (ih _ (Nat.lt_succ_self _) t rfl)

/-- Induction along the rewriting of colons. -/
theorem colons_induction {P : Text → Prop} (nil : P [])
    (colon : ∀ t, word t ≠ [] → P (afterWord t) → P ((':' : CodePoint) :: t))
    (cons : ∀ (c : CodePoint) t, ¬(c = ':' ∧ word t ≠ []) → P t → P (c :: t)) (p : Text) : P p := by
  induction hn : p.length using Nat.strong_induction_on generalizing p with
  | _ n ih =>
    subst hn
    cases p with
    | nil => exact nil
    | cons c t =>
      by_cases h : c = ':' ∧ word t ≠ []
      · obtain ⟨rfl, hne⟩ := h
        exact colon t hne (ih _ (Nat.lt_succ_of_le (length_afterWord_le t)) _ rfl)
      · exact cons c t h (ih _ (Nat.lt_succ_self _) t rfl)

/-! ## Words stay -/

theorem word_bracesToColons (t : Text) : word (bracesToColons t) = word t := by
  induction t using braces_induction with
  | nil => rw [bracesToColons]
  | braced w t hne hw _ =>
    rw [bracesToColons_braced hne hw, word_cons_of_mark isWord_colon,
      word_cons_of_mark isWord_openBrace]
  | cons c t h ih => rw [bracesToColons_cons h, word_cons, word_cons, ih]

theorem word_colonsToBraces (t : Text) : word (colonsToBraces t) = word t := by
  induction t using colons_induction with
  | nil => rw [colonsToBraces]
  | colon t hne _ =>
    rw [colonsToBraces_colon hne, word_cons_of_mark isWord_colon,
      word_cons_of_mark isWord_openBrace]
  | cons c t h ih => rw [colonsToBraces_cons h, word_cons, word_cons, ih]

/-- Behind the word in front, the rest of the text is rewritten as it stands. -/
theorem afterWord_colonsToBraces (t : Text) :
    afterWord (colonsToBraces t) = colonsToBraces (afterWord t) := by
  induction t using colons_induction with
  | nil => simp [colonsToBraces, afterWord]
  | colon t hne _ =>
    rw [afterWord_cons_of_mark isWord_colon, colonsToBraces_colon hne,
      afterWord_cons_of_mark isWord_openBrace]
  | cons c t h ih =>
    rw [colonsToBraces_cons h, afterWord_cons, afterWord_cons, ih]
    split
    · rfl
    · rw [colonsToBraces_cons h]

/-- No closing brace comes to stand in front. -/
theorem head?_colonsToBraces {t : Text}
    (h : (colonsToBraces t).head? = some ('}' : CodePoint)) : t.head? = some ('}' : CodePoint) := by
  cases t with
  | nil => simp [colonsToBraces] at h
  | cons c t =>
    by_cases hc : c = ':' ∧ word t ≠ []
    · obtain ⟨rfl, hne⟩ := hc
      rw [colonsToBraces_colon hne] at h
      exact absurd (Option.some.inj h) (by decide)
    · rwa [colonsToBraces_cons hc] at h

theorem closes_of_colonsToBraces {t : Text} (h : Closes (colonsToBraces t)) : Closes t := by
  obtain ⟨hne, hclose⟩ := h
  rw [word_colonsToBraces] at hne
  rw [afterWord_colonsToBraces] at hclose
  exact ⟨hne, head?_colonsToBraces hclose⟩

/-! ## Where parameters stand -/

/-- A colon stands right in front of a word character. -/
def HasColonWord (p : Text) : Prop :=
  ∃ before c after, p = before ++ (':' : CodePoint) :: c :: after ∧ c.isWord = true

/-- There is a word between braces. -/
def HasBraced (p : Text) : Prop :=
  ∃ before w after, p = before ++ ('{' : CodePoint) :: (w ++ ('}' : CodePoint) :: after) ∧
    w ≠ [] ∧ ∀ c ∈ w, c.isWord = true

/-- There is a word between braces, and a word character right behind them. -/
def HasTightBraced (p : Text) : Prop :=
  ∃ before w c after,
    p = before ++ ('{' : CodePoint) :: (w ++ ('}' : CodePoint) :: c :: after) ∧
      w ≠ [] ∧ (∀ d ∈ w, d.isWord = true) ∧ c.isWord = true

theorem word_ne_nil {t : Text} : word t ≠ [] ↔ ∃ c after, t = c :: after ∧ c.isWord = true := by
  cases t with
  | nil => simp [word]
  | cons c t => cases hc : c.isWord <;> simp [word_cons, hc]

theorem not_hasColonWord_nil : ¬HasColonWord [] := by
  simp [HasColonWord]

theorem hasColonWord_cons {c : CodePoint} {t : Text} :
    HasColonWord (c :: t) ↔ (c = ':' ∧ word t ≠ []) ∨ HasColonWord t := by
  constructor
  · rintro ⟨before, d, after, heq, hd⟩
    cases before with
    | nil =>
      obtain ⟨rfl, rfl⟩ := List.cons.inj heq
      exact .inl ⟨rfl, word_ne_nil.2 ⟨d, after, rfl, hd⟩⟩
    | cons b before =>
      obtain ⟨rfl, rfl⟩ := List.cons.inj heq
      exact .inr ⟨before, d, after, rfl, hd⟩
  · rintro (⟨rfl, hne⟩ | ⟨before, d, after, rfl, hd⟩)
    · obtain ⟨d, after, rfl, hd⟩ := word_ne_nil.1 hne
      exact ⟨[], d, after, rfl, hd⟩
    · exact ⟨c :: before, d, after, rfl, hd⟩

instance decidableHasColonWord : DecidablePred HasColonWord
  | [] => .isFalse not_hasColonWord_nil
  | _ :: t => have := decidableHasColonWord t; decidable_of_iff _ hasColonWord_cons.symm

/-- A word in front has no colon in it. -/
theorem hasColonWord_append {w : Text} (hw : ∀ c ∈ w, c.isWord = true) {t : Text} :
    HasColonWord (w ++ t) ↔ HasColonWord t := by
  induction w with
  | nil => rfl
  | cons c w ih =>
    obtain ⟨hc, hw⟩ := List.forall_mem_cons.1 hw
    have hne : c ≠ ':' := by
      rintro rfl
      rw [isWord_colon] at hc
      cases hc
    rw [List.cons_append, hasColonWord_cons, ih hw]
    simp [hne]

theorem not_hasBraced_nil : ¬HasBraced [] := by
  simp [HasBraced]

theorem hasBraced_cons {c : CodePoint} {t : Text} :
    HasBraced (c :: t) ↔ (c = '{' ∧ Closes t) ∨ HasBraced t := by
  constructor
  · rintro ⟨before, w, after, heq, hne, hw⟩
    cases before with
    | nil =>
      obtain ⟨rfl, rfl⟩ := List.cons.inj heq
      exact .inl ⟨rfl, closes_iff.2 ⟨w, after, rfl, hne, hw⟩⟩
    | cons b before =>
      obtain ⟨rfl, rfl⟩ := List.cons.inj heq
      exact .inr ⟨before, w, after, rfl, hne, hw⟩
  · rintro (⟨rfl, hcloses⟩ | ⟨before, w, after, rfl, hne, hw⟩)
    · obtain ⟨w, after, rfl, hne, hw⟩ := closes_iff.1 hcloses
      exact ⟨[], w, after, rfl, hne, hw⟩
    · exact ⟨c :: before, w, after, rfl, hne, hw⟩

instance decidableHasBraced : DecidablePred HasBraced
  | [] => .isFalse not_hasBraced_nil
  | _ :: t => have := decidableHasBraced t; decidable_of_iff _ hasBraced_cons.symm

theorem not_hasTightBraced_nil : ¬HasTightBraced [] := by
  simp [HasTightBraced]

theorem hasTightBraced_cons {c : CodePoint} {t : Text} :
    HasTightBraced (c :: t) ↔
      (c = '{' ∧ Closes t ∧ word ((afterWord t).drop 1) ≠ []) ∨ HasTightBraced t := by
  constructor
  · rintro ⟨before, w, d, after, heq, hne, hw, hd⟩
    -- The brace is the first character, or the whole stands further behind.
    cases before with
    | nil =>
      obtain ⟨rfl, rfl⟩ := List.cons.inj heq
      refine .inl ⟨rfl, closes_iff.2 ⟨w, d :: after, rfl, hne, hw⟩, ?_⟩
      rw [afterWord_closing hw]
      exact word_ne_nil.2 ⟨d, after, rfl, hd⟩
    | cons b before =>
      obtain ⟨rfl, rfl⟩ := List.cons.inj heq
      exact .inr ⟨before, w, d, after, rfl, hne, hw, hd⟩
  · rintro (⟨rfl, hcloses, htight⟩ | ⟨before, w, d, after, rfl, hne, hw, hd⟩)
    · obtain ⟨w, rest, rfl, hne, hw⟩ := closes_iff.1 hcloses
      rw [afterWord_closing hw] at htight
      obtain ⟨d, after, rfl, hd⟩ := word_ne_nil.1 htight
      exact ⟨[], w, d, after, rfl, hne, hw, hd⟩
    · exact ⟨c :: before, w, d, after, rfl, hne, hw, hd⟩

instance decidableHasTightBraced : DecidablePred HasTightBraced
  | [] => .isFalse not_hasTightBraced_nil
  | _ :: t => have := decidableHasTightBraced t; decidable_of_iff _ hasTightBraced_cons.symm

/-- A word in front has no brace in it. -/
theorem hasTightBraced_append {w : Text} (hw : ∀ c ∈ w, c.isWord = true) {t : Text} :
    HasTightBraced (w ++ t) ↔ HasTightBraced t := by
  induction w with
  | nil => rfl
  | cons c w ih =>
    obtain ⟨hc, hw⟩ := List.forall_mem_cons.1 hw
    have hne : c ≠ '{' := by
      rintro rfl
      rw [isWord_openBrace] at hc
      cases hc
    rw [List.cons_append, hasTightBraced_cons, ih hw]
    simp [hne]

theorem hasTightBraced_braced {w : Text} (hne : w ≠ []) (hw : ∀ c ∈ w, c.isWord = true)
    (t : Text) :
    HasTightBraced (('{' : CodePoint) :: (w ++ ('}' : CodePoint) :: t)) ↔
      word t ≠ [] ∨ HasTightBraced t := by
  have hcloses : Closes (w ++ ('}' : CodePoint) :: t) := closes_iff.2 ⟨w, t, rfl, hne, hw⟩
  have hbrace : ('}' : CodePoint) ≠ '{' := by decide
  rw [hasTightBraced_cons, hasTightBraced_append hw, hasTightBraced_cons, afterWord_closing hw]
  simp [hcloses, hbrace]

/-! ## There and back -/

theorem not_hasColonWord_colonsToBraces (t : Text) : ¬HasColonWord (colonsToBraces t) := by
  have hopen : ('{' : CodePoint) ≠ ':' := by decide
  have hclose : ('}' : CodePoint) ≠ ':' := by decide
  induction t using colons_induction with
  | nil =>
    rw [colonsToBraces]
    exact not_hasColonWord_nil
  | colon t hne ih =>
    rw [colonsToBraces_colon hne, hasColonWord_cons,
      hasColonWord_append fun c hc => isWord_of_mem_word hc, hasColonWord_cons]
    simp [hopen, hclose, ih]
  | cons c t h ih =>
    rw [colonsToBraces_cons h, hasColonWord_cons, word_colonsToBraces]
    exact not_or.2 ⟨h, ih⟩

/-- Colons become braces and colons again. -/
theorem bracesToColons_colonsToBraces {q : Text} (h : ¬HasBraced q) :
    bracesToColons (colonsToBraces q) = q := by
  induction q using colons_induction with
  | nil => rw [colonsToBraces, bracesToColons]
  | colon t hne ih =>
    have hafter : ¬HasBraced (afterWord t) := by
      rintro ⟨before, w, after, heq, hw⟩
      refine h ⟨(':' : CodePoint) :: (word t ++ before), w, after, ?_, hw⟩
      rw [List.cons_append, List.append_assoc, ← heq, word_append_afterWord]
    rw [colonsToBraces_colon hne, bracesToColons_braced hne fun c hc => isWord_of_mem_word hc,
      ih hafter, word_append_afterWord]
  | cons c t hc ih =>
    rw [hasBraced_cons, not_or] at h
    -- A brace that closes behind the rewriting closed before it.
    have hstays : ¬(c = '{' ∧ Closes (colonsToBraces t)) :=
      fun hbrace => h.1 ⟨hbrace.1, closes_of_colonsToBraces hbrace.2⟩
    rw [colonsToBraces_cons hc, bracesToColons_cons hstays, ih h.2]

/-- Where no colon starts a word, braces become colons and braces again exactly if no parameter
    runs into a word behind it. -/
theorem colonsToBraces_bracesToColons_of_not_hasColonWord {p : Text} (h : ¬HasColonWord p) :
    colonsToBraces (bracesToColons p) = p ↔ ¬HasTightBraced p := by
  induction p using braces_induction with
  | nil => simp [bracesToColons, colonsToBraces, not_hasTightBraced_nil]
  | braced w t hne hw ih =>
    rw [hasColonWord_cons, not_or, hasColonWord_append hw, hasColonWord_cons, not_or] at h
    have hword : word (w ++ bracesToColons t) = w ++ word t := by
      rw [word_append hw, word_bracesToColons]
    have hnil : word (w ++ bracesToColons t) ≠ [] := by
      rw [hword]
      simp [hne]
    rw [bracesToColons_braced hne hw, colonsToBraces_colon hnil, hword, afterWord_append hw,
      hasTightBraced_braced hne hw, not_or, ← ih h.2.2]
    -- The name that is read back is the old one exactly if nothing was added to it.
    by_cases ht : word t = []
    · have hafter : afterWord (bracesToColons t) = bracesToColons t := by
        have := word_append_afterWord (bracesToColons t)
        rwa [word_bracesToColons, ht, List.nil_append] at this
      simp [ht, hafter]
    · obtain ⟨c, after, hcons⟩ := List.exists_cons_of_ne_nil ht
      have hc : c ≠ '}' := by
        rintro rfl
        have := isWord_of_mem_word (hcons ▸ List.mem_cons_self)
        rw [isWord_closeBrace] at this
        cases this
      simp [hcons, hc]
  | cons c t hc ih =>
    rw [hasColonWord_cons, not_or] at h
    have hcolon : ¬(c = ':' ∧ word (bracesToColons t) ≠ []) := by
      rw [word_bracesToColons]
      exact h.1
    have htight : HasTightBraced (c :: t) ↔ HasTightBraced t := by
      rw [hasTightBraced_cons, or_iff_right]
      exact fun hbrace => hc ⟨hbrace.1, hbrace.2.1⟩
    rw [bracesToColons_cons hc, colonsToBraces_cons hcolon, htight, ← ih h.2]
    simp

/-- Braces become colons and braces again exactly if no colon starts a word and no parameter in
    braces runs into a word behind it; colons become braces and colons again where there is no
    parameter in braces. -/
theorem braces_and_colons :
    (∀ p : Text, colonsToBraces (bracesToColons p) = p ↔ ¬HasColonWord p ∧ ¬HasTightBraced p) ∧
      ∀ q : Text, ¬HasBraced q → bracesToColons (colonsToBraces q) = q := by
  refine ⟨fun p => ⟨fun h => ?_, fun h => ?_⟩, fun q hq => bracesToColons_colonsToBraces hq⟩
  · have hcolon : ¬HasColonWord p := h ▸ not_hasColonWord_colonsToBraces _
    exact ⟨hcolon, (colonsToBraces_bracesToColons_of_not_hasColonWord hcolon).1 h⟩
  · exact (colonsToBraces_bracesToColons_of_not_hasColonWord h.1).2 h.2

/-- Stray marks do no harm, a word behind a parameter does. -/
theorem braces_and_colons_users :
    colonsToBraces (bracesToColons "/{{id}}/:/posts") = "/{{id}}/:/posts" ∧
      colonsToBraces (bracesToColons "/{id}s") ≠ "/{id}s" ∧
      ¬HasBraced "/{:id/x}" ∧
      bracesToColons (colonsToBraces "/{:id/x}") = "/{:id/x}" := by
  have hq : ¬HasBraced "/{:id/x}" := by decide
  refine ⟨(braces_and_colons.1 _).2 (by decide), fun h => ?_, hq, braces_and_colons.2 _ hq⟩
  exact absurd ((braces_and_colons.1 _).1 h) (by decide)

end IdlBridge.Route
