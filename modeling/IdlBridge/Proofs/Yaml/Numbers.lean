import IdlBridge.Proofs.Decimal.Written
import IdlBridge.Yaml.Document

/-! # Numbers as plain scalars

    A document is read by the form of its scalars.  The text of an integer has the form of an
    integer and is read back as it.  The text of a floating-point number has the form of one only
    if there is a point in it; without a point it has no form at all, and it is read as a text.
-/

namespace IdlBridge

namespace Text

/-- A text behind a minus sign, if there is one. -/
def signed (negative : Bool) (t : Text) : Text :=
  (if negative then "-" else "" : Text) ++ t

theorem ofInt_eq_signed (i : Int) : ofInt i = signed (decide (i < 0)) (ofNat i.natAbs) := by
  cases i with
  | ofNat n => rfl
  | negSucc n =>
    have hneg : decide (Int.negSucc n < 0) = true := decide_eq_true (Int.negSucc_lt_zero n)
    rw [hneg]
    rfl

/-- Lower case leaves a text of small ASCII characters as it is. -/
theorem lower_eq_self {t : Text} (h : ∀ c ∈ t, c.toNat < 0x80 ∧ c.isAsciiUpper = false) :
    lower t = t := by
  have hafter : ∀ before, lowerAfter before t = t := by
    induction t with
    | nil => exact fun _ => rfl
    | cons c t ih =>
      intro before
      obtain ⟨hsmall, hupper⟩ := h c List.mem_cons_self
      have hsigma : ¬c.toNat = 0x3A3 := by omega
      have hlower : c.lower = [c] := by
        rw [CodePoint.lower, if_pos hsmall, CodePoint.lowerAscii, hupper]
        rfl
      rw [lowerAfter, ih fun d hd => h d (List.mem_cons_of_mem _ hd)]
      simp only [if_neg hsigma, hlower, List.singleton_append]
  exact hafter []

theorem replaceChar_eq_self {c : CodePoint} {t new : Text} (h : c ∉ t) :
    replaceChar c new t = t := by
  unfold replaceChar
  induction t with
  | nil => rfl
  | cons d t ih =>
    obtain ⟨hd, ht⟩ := List.ne_and_not_mem_of_not_mem_cons h
    rw [List.flatMap_cons, ih ht, if_neg hd.symm]
    rfl

end Text

namespace Yaml

open FloatText

/-! ## Texts of numbers -/

/-- A text that starts with a digit and has nothing but the characters of numbers. -/
structure NumberLike (u : Text) : Prop where
  head : ∃ c rest, u = c :: rest ∧ c.isAsciiDigit = true
  marks : ∀ c ∈ u, IsMark c

namespace NumberLike

variable {u : Text} {negative : Bool}

theorem ofNat (n : Nat) : NumberLike (Text.ofNat n) := by
  refine ⟨?_, fun c hc => Or.inl (Text.isAsciiDigit_of_mem_ofNat c hc)⟩
  obtain ⟨c, rest, htext⟩ := List.exists_cons_of_ne_nil (Text.ofNat_ne_nil n)
  exact ⟨c, rest, htext, Text.isAsciiDigit_of_mem_ofNat c (htext ▸ List.mem_cons_self)⟩

theorem ofProper {w : FloatText} (h : w.Proper) : NumberLike w.toText :=
  ⟨h.head, h.isMark⟩

theorem signed_marks (h : NumberLike u) : ∀ c ∈ Text.signed negative u, IsMark c := by
  intro c hc
  rcases List.mem_append.1 hc with hc | hc
  · cases negative with
    | true => exact Or.inr (Or.inr (Or.inr (Or.inr (List.mem_singleton.1 hc))))
    | false => cases hc
  · exact h.marks c hc

/-- What is decided of digits and the minus sign holds of the first character. -/
theorem signed_head (h : NumberLike u) (negative : Bool) {P : CodePoint → Prop}
    (hdigit : ∀ c : CodePoint, c.isAsciiDigit = true → P c) (hminus : P '-') :
    ∃ c rest, Text.signed negative u = c :: rest ∧ P c := by
  obtain ⟨c, rest, rfl, hc⟩ := h.head
  cases negative with
  | true => exact ⟨'-', c :: rest, rfl, hminus⟩
  | false => exact ⟨c, rest, rfl, hdigit c hc⟩

theorem unsigned_signed (h : NumberLike u) : Form.unsigned (Text.signed negative u) = u := by
  obtain ⟨c, rest, rfl, hc⟩ := h.head
  cases negative with
  | true => rfl
  | false =>
    have hsign := CodePoint.forall_isAsciiDigit
      (P := fun c => ¬(decide (c = '-') || decide (c = '+')) = true) (by decide) c hc
    show (if (decide (c = '-') || decide (c = '+')) = true then rest else c :: rest) = _
    rw [if_neg hsign]

theorem sign_signed (h : NumberLike u) : Numeral.sign (Text.signed negative u) = (negative, u) := by
  obtain ⟨c, rest, rfl, hc⟩ := h.head
  cases negative with
  | true => rfl
  | false =>
    have hsign := CodePoint.forall_isAsciiDigit (P := fun c => c ≠ '-' ∧ c ≠ '+') (by decide) c hc
    show (if c = '-' then _ else if c = '+' then _ else _) = _
    rw [if_neg hsign.1, if_neg hsign.2]
    rfl

/-- A number is none of the texts that start with another character. -/
theorem signed_ne (h : NumberLike u) {word : Text}
    (hword : ∀ c ∈ word.head?, c.isAsciiDigit = false ∧ c ≠ '-') :
    Text.signed negative u ≠ word := by
  obtain ⟨c, rest, htext, hc⟩ := h.signed_head negative
    (P := fun c => c.isAsciiDigit = true ∨ c = '-') (fun _ => Or.inl) (Or.inr rfl)
  rw [htext]
  rintro rfl
  obtain ⟨hdigit, hminus⟩ := hword c rfl
  rcases hc with hc | hc
  · rw [hdigit] at hc
    cases hc
  · exact hminus hc

theorem contains_eq_false (h : NumberLike u) {words : List Text}
    (hwords : ∀ w ∈ words, ∀ c ∈ w.head?, c.isAsciiDigit = false ∧ c ≠ '-') :
    words.contains (Text.signed negative u) = false := by
  refine Bool.eq_false_iff.2 fun hmem => ?_
  rw [List.contains_iff_mem] at hmem
  exact h.signed_ne (hwords _ hmem) rfl

/-- The form of a number decides between the kinds of numbers, points in time and texts. -/
theorem ofPlain_signed (h : NumberLike u) : Tag.ofPlain (Text.signed negative u) =
    if Form.isFloat (Text.signed negative u) then .float
    else if Form.isInt (Text.signed negative u) then .int
    else if (TimeDigits.ofText? (Text.signed negative u)).any TimeDigits.isPlain then .timestamp
    else .str := by
  have hform : Tag.withoutFinalBreak (Text.signed negative u) = Text.signed negative u := by
    rw [Tag.withoutFinalBreak, if_neg]
    intro hlast
    have hmark := h.signed_marks _ (List.mem_of_getLast? hlast)
    exact forall_isMark (P := (· ≠ '\n')) (by decide) (by decide) (by decide) (by decide)
      (by decide) hmark rfl
  -- The other forms are single marks and words, and a number is none of them.
  have hbool : Form.isBool (Text.signed negative u) = false :=
    h.contains_eq_false (by decide)
  have hnull : Form.isNull (Text.signed negative u) = false :=
    h.contains_eq_false (by decide)
  have hempty : Text.signed negative u ≠ ("" : Text) := h.signed_ne (by decide)
  have hmerge : Text.signed negative u ≠ ("<<" : Text) := h.signed_ne (by decide)
  have hvalue : Text.signed negative u ≠ ("=" : Text) := h.signed_ne (by decide)
  have hmarks : ¬(Text.signed negative u = ("!" : Text) ∨ Text.signed negative u = ("&" : Text) ∨
      Text.signed negative u = ("*" : Text)) := by
    rintro (heq | heq | heq)
    · exact absurd heq (h.signed_ne (by decide))
    · exact absurd heq (h.signed_ne (by decide))
    · exact absurd heq (h.signed_ne (by decide))
  unfold Tag.ofPlain
  simp only [hform, hbool, hnull, if_neg hempty, if_neg hmerge, if_neg hvalue, if_neg hmarks,
    Bool.false_eq_true, if_false]

/-- A number without a point has not the form of a number with one. -/
theorem isFloat_eq_false (h : NumberLike u) (hpoint : ('.' : CodePoint) ∉ u) :
    Form.isFloat (Text.signed negative u) = false := by
  have hwords : ([".inf", ".Inf", ".INF"] : List Text).contains (Text.signed false u) = false :=
    h.contains_eq_false (by decide)
  change ([".inf", ".Inf", ".INF"] : List Text).contains u = false at hwords
  have hnans : ([".nan", ".NaN", ".NAN"] : List Text).contains (Text.signed negative u) = false :=
    h.contains_eq_false (by decide)
  unfold Form.isFloat
  simp only [h.unsigned_signed, hwords, hnans, Text.cut?_eq_none.2 hpoint, Bool.or_self]

/-- Neither underscores nor capitals are in a number, so it is read as it stands. -/
theorem unspaced_signed (h : NumberLike u) :
    Node.unspaced (Text.signed negative u) = Text.signed negative u := by
  refine Text.replaceChar_eq_self fun hmem => ?_
  exact forall_isMark (P := (· ≠ '_')) (by decide) (by decide) (by decide) (by decide) (by decide)
    (h.signed_marks _ hmem) rfl

theorem lower_signed (h : NumberLike u) :
    Text.lower (Text.signed negative u) = Text.signed negative u :=
  Text.lower_eq_self fun _ hc =>
    forall_isMark (P := fun c => c.toNat < 0x80 ∧ c.isAsciiUpper = false) (by decide) (by decide)
      (by decide) (by decide) (by decide) (h.signed_marks _ hc)

theorem colon_not_mem (h : NumberLike u) : (':' : CodePoint) ∉ u := fun hmem =>
  forall_isMark (P := (· ≠ ':')) (by decide) (by decide) (by decide) (by decide) (by decide)
    (h.marks _ hmem) rfl

end NumberLike

/-! ## Integers -/

section Integers

variable (i : Int)

theorem ofNat_zero_of_head {n : Nat} {rest : Text} (h : Text.ofNat n = ('0' : CodePoint) :: rest) :
    rest = [] := by
  rcases Nat.eq_zero_or_pos n with rfl | hn
  · exact (List.cons.inj h).2.symm
  · exact absurd (congrArg List.head? h) (Text.head?_ofNat_ne hn)

theorem isInt_ofInt : Form.isInt (Text.ofInt i) = true := by
  have hlike := NumberLike.ofNat i.natAbs
  rw [Text.ofInt_eq_signed]
  unfold Form.isInt
  simp only [hlike.unsigned_signed]
  have hdigits : ∀ c ∈ Text.ofNat i.natAbs, c.isAsciiDigit = true :=
    Text.isAsciiDigit_of_mem_ofNat
  split
  · next z rest htext =>
    by_cases hz : z = '0'
    · subst hz
      obtain rfl := ofNat_zero_of_head htext
      rfl
    · rw [if_neg hz]
      rw [htext] at hdigits
      obtain ⟨hzdigit, hrest⟩ := List.forall_mem_cons.1 hdigits
      have hall : rest.all Form.isSpacedDigit = true :=
        List.all_eq_true.2 fun c hc => by rw [Form.isSpacedDigit, hrest c hc, Bool.true_or]
      simp [Form.isWhole, htext, hzdigit, hall, hz]
  · next hnil => exact absurd hnil (Text.ofNat_ne_nil _)

/-- The text of an integer has the form of an integer. -/
theorem ofPlain_ofInt : Tag.ofPlain (Text.ofInt i) = .int := by
  have hlike := NumberLike.ofNat i.natAbs
  have hpoint : ('.' : CodePoint) ∉ Text.ofNat i.natAbs := fun hmem =>
    absurd (Text.isAsciiDigit_of_mem_ofNat _ hmem) (by decide)
  have hint := isInt_ofInt i
  rw [Text.ofInt_eq_signed] at hint ⊢
  rw [hlike.ofPlain_signed, hlike.isFloat_eq_false hpoint, hint]
  rfl

variable {i}

theorem natural?_ofNat {n : Nat} (h : n < Nat.pow 10 Numeral.maxDecimalDigits) :
    Node.natural? (Text.ofNat n) = some (n : Int) := by
  have hdecimal : Numeral.decimalInt? (Text.ofNat n) = some (n : Int) := by
    have hmarks : ∀ c ∈ Text.ofNat n, c.isAsciiDigit = true ∨ c = '-' := fun c hc =>
      Or.inl (Text.isAsciiDigit_of_mem_ofNat c hc)
    have hblank : ∀ c ∈ Text.ofNat n, c ≠ ' ' := fun c hc =>
      CodePoint.forall_isAsciiDigit (P := (· ≠ ' ')) (by decide) c
        (Text.isAsciiDigit_of_mem_ofNat c hc)
    have hsign : Numeral.sign (Text.signed false (Text.ofNat n)) = (false, Text.ofNat n) :=
      (NumberLike.ofNat n).sign_signed
    change Numeral.sign (Text.ofNat n) = _ at hsign
    rw [Numeral.decimalInt?, Numeral.normalize_eq_self hmarks, Numeral.trim_eq_self hblank, hsign]
    simp only [Numeral.natInBase?_ofNat h, Bool.false_eq_true, if_false]
    rfl
  unfold Node.natural?
  rw [if_neg (Text.ofNat_ne_nil n)]
  split
  · next hzero =>
    rw [hzero] at hdecimal
    exact hdecimal
  · next hzero =>
    -- Only zero starts with a zero, so the text has no other base.
    have hlead : ∀ word : Text, word.head? = some ('0' : CodePoint) →
        ¬Text.startsWith (Text.ofNat n) word = true := by
      intro word hword hstart
      obtain ⟨rest, hrest⟩ := List.isPrefixOf_iff_prefix.1 hstart
      cases word with
      | nil => cases hword
      | cons c word =>
        obtain rfl := Option.some.inj hword
        have hnil : word ++ rest = [] := ofNat_zero_of_head hrest.symm
        rw [← hrest, List.cons_append, hnil] at hzero
        exact hzero rfl
    have hcolon : ¬(Text.ofNat n).contains ':' = true := by
      rw [List.contains_iff_mem]
      exact (NumberLike.ofNat n).colon_not_mem
    rw [if_neg (hlead "0b" rfl), if_neg (hlead "0x" rfl), if_neg (hlead "0" rfl), if_neg hcolon,
      hdecimal]

/-- The text of an integer that is not too long is read back. -/
theorem int?_ofInt (h : i.natAbs < Nat.pow 10 Numeral.maxDecimalDigits) :
    Node.int? (Text.ofInt i) = some (.int i) := by
  have hlike := NumberLike.ofNat i.natAbs
  rw [Text.ofInt_eq_signed, Node.int?, hlike.unspaced_signed, hlike.sign_signed]
  simp only [natural?_ofNat h, Option.map_some]
  congr 2
  split
  · next hneg =>
    have := of_decide_eq_true hneg
    omega
  · next hpos =>
    have : ¬i < 0 := fun hlt => hpos (decide_eq_true hlt)
    omega

end Integers

/-! ## Floating-point numbers -/

section Floats

variable {w : FloatText} {negative : Bool}

theorem isExponent_tail (h : w.Proper) : Form.isExponent w.tail = true := by
  unfold FloatText.tail
  split
  · rfl
  · next down ds he =>
    have hne := h.exponent_ne _ he
    have hds : ds.all CodePoint.isAsciiDigit = true := List.all_eq_true.2 (h.exponent _ he)
    cases down <;> simp [Form.isExponent, hne, hds]

/-- A number with a point has the form of one. -/
theorem ofPlain_of_part_ne (h : w.Proper) (hpart : w.part ≠ []) :
    Tag.ofPlain (Text.signed negative w.toText) = .float := by
  have hlike := NumberLike.ofProper h
  have hpoint : ('.' : CodePoint) ∉ w.whole := fun hmem => absurd (h.whole _ hmem) (by decide)
  have htext : w.toText = w.whole ++ ('.' : CodePoint) :: (w.part ++ w.tail) := by
    rw [FloatText.toText, FloatText.fraction, if_neg hpart, List.append_assoc]
    rfl
  have hspaced : ∀ ds : Text, (∀ c ∈ ds, c.isAsciiDigit = true) →
      ∀ c ∈ ds, Form.isSpacedDigit c = true := fun ds hds c hc => by
    rw [Form.isSpacedDigit, hds c hc, Bool.true_or]
  -- The digits behind the point end where the exponent starts, if there is one.
  have htail : (w.part ++ w.tail).dropWhile Form.isSpacedDigit = w.tail := by
    rw [List.dropWhile_append_of_pos (hspaced _ h.part)]
    unfold FloatText.tail
    split
    · rfl
    · rw [List.dropWhile_cons_of_neg (by decide)]
  have hwhole : Form.isWhole w.whole = true := by
    obtain ⟨c, rest, hcons⟩ := List.exists_cons_of_ne_nil h.whole_ne
    have hdigits := h.whole
    rw [hcons] at hdigits ⊢
    obtain ⟨hc, hrest⟩ := List.forall_mem_cons.1 hdigits
    rw [Form.isWhole, hc, Bool.true_and]
    exact List.all_eq_true.2 (hspaced _ hrest)
  have hfloat : Form.isFloat (Text.signed negative w.toText) = true := by
    unfold Form.isFloat
    simp only [hlike.unsigned_signed]
    rw [htext, Text.cut?_append hpoint]
    simp only [htail, hwhole, isExponent_tail h, Bool.true_and, Bool.true_or, Bool.or_true]
  rw [hlike.ofPlain_signed, hfloat]
  rfl

/-- A single digit with an exponent has no form. -/
theorem ofPlain_of_part_eq_nil (h : w.Proper) (hpart : w.part = []) (hlength : w.whole.length = 1)
    (hexponent : w.exponent.isSome = true) :
    Tag.ofPlain (Text.signed negative w.toText) = .str := by
  have hlike := NumberLike.ofProper h
  obtain ⟨d, hwhole⟩ := List.length_eq_one_iff.1 hlength
  obtain ⟨⟨down, ds⟩, he⟩ := Option.isSome_iff_exists.1 hexponent
  obtain ⟨mark, htext⟩ : ∃ mark : CodePoint, w.toText = d :: 'e' :: mark :: ds := by
    refine ⟨if down then '-' else '+', ?_⟩
    rw [FloatText.toText, FloatText.fraction, if_pos hpart, FloatText.tail, he, hwhole]
    rfl
  have hpoint : ('.' : CodePoint) ∉ w.toText := fun hmem => h.point_mem_iff.1 hmem hpart
  have hint : Form.isInt (Text.signed negative w.toText) = false := by
    have hcolon : Text.splitOn ':' w.toText = [w.toText] :=
      List.splitOn_eq_singleton hlike.colon_not_mem
    have hlast : Form.isSpacedDigit 'e' = false := by decide
    unfold Form.isInt
    simp only [hlike.unsigned_signed]
    simp only [Form.isSexagesimal, hcolon]
    rw [htext]
    by_cases hd : d = '0'
    · subst hd
      have h1 : ('e' : CodePoint) ≠ 'b' := by decide
      have h2 : ('e' : CodePoint) ≠ 'x' := by decide
      have h3 : (CodePoint.ofChar 'e').within '0' '7' = false := by decide
      have h4 : ('e' : CodePoint) ≠ '_' := by decide
      simp [h1, h2, h3, h4]
    · simp [hd, Form.isWhole, hlast]
  have htime : TimeDigits.ofText? (Text.signed negative w.toText) = none := by
    have hdigits : TimeDigits.digits? 4 4 (Text.signed negative w.toText) = none := by
      -- A point in time starts with four digits, and here the second or third character is none.
      have hshort : (((Text.signed negative w.toText).take 4).takeWhile
          CodePoint.isAsciiDigit).length < 4 := by
        have he' : (CodePoint.ofChar 'e').isAsciiDigit = false := by decide
        have hminus : (CodePoint.ofChar '-').isAsciiDigit = false := by decide
        rw [htext]
        cases negative with
        | true =>
          show (List.takeWhile CodePoint.isAsciiDigit ('-' :: _)).length < 4
          rw [List.takeWhile_cons_of_neg (by simp [hminus])]
          decide
        | false =>
          show (List.takeWhile CodePoint.isAsciiDigit (d :: 'e' :: _)).length < 4
          rw [List.takeWhile_cons, List.takeWhile_cons_of_neg (by simp [he'])]
          split <;> simp
      rw [TimeDigits.digits?, if_neg (by omega)]
    unfold TimeDigits.ofText?
    rw [hdigits]
    rfl
  rw [hlike.ofPlain_signed, hlike.isFloat_eq_false hpoint, hint, htime]
  rfl

/-- The text of a floating-point number is read back, whatever its form. -/
theorem float?_signed {m : Nat} {q : Int} (h : Binary64.Writes m q w) :
    Node.float? (Text.signed negative w.toText) = some (.float (.finite negative m q)) := by
  have hlike := NumberLike.ofProper h.proper
  have hne : Text.signed negative w.toText ≠ [] := hlike.signed_ne (by decide)
  have hnan : Text.signed false w.toText ≠ (".nan" : Text) := hlike.signed_ne (by decide)
  have hinf : Text.signed false w.toText ≠ (".inf" : Text) := hlike.signed_ne (by decide)
  change w.toText ≠ _ at hnan hinf
  have hcolon : ¬w.toText.contains ':' = true := by
    rw [List.contains_iff_mem]
    exact hlike.colon_not_mem
  have hfraction : Node.fraction? w.toText = some (.finite false m q) := by
    rw [Node.fraction?, if_neg hinf, if_neg hcolon, h.reads]
  unfold Node.float?
  simp only [hlike.unspaced_signed, hlike.lower_signed, hlike.sign_signed, if_neg hne, if_neg hnan,
    hfraction, Option.map_some]
  cases negative with
  | true => rfl
  | false => rfl

end Floats

end Yaml

end IdlBridge
