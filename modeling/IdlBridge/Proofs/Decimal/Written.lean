import IdlBridge.Proofs.Decimal.Shortest
import IdlBridge.Proofs.Text
import Mathlib.Data.List.Induction

/-! # Binary numbers as text

    A number is written as its whole digits, a point with further digits, and an exponent, where
    the last two may be missing.  Such a text is read as the decimal that its digits make up, and
    every way to lay out the digits of a number makes up the same decimal.  So the text of a
    number is read back as the number.
-/

namespace IdlBridge

/-! ## The value of digits -/

namespace Text

theorem decimalValue_append (s t : Text) :
    decimalValue (s ++ t) = decimalValue s * 10 ^ t.length + decimalValue t := by
  induction t using List.reverseRecOn with
  | nil => simp [decimalValue, valueWith]
  | append_singleton t c ih =>
    have hsnoc : ∀ u : Text, decimalValue (u ++ [c]) = decimalValue u * 10 + c.hexValue :=
      fun u => by
      rw [decimalValue, valueWith, List.foldl_append]
      rfl
    rw [← List.append_assoc, hsnoc, hsnoc, ih, List.length_append, List.length_singleton, pow_succ]
    ring

/-- A text of zeros. -/
abbrev zeros (n : Nat) : Text := List.replicate n ('0' : CodePoint)

theorem decimalValue_zeros (n : Nat) : decimalValue (zeros n) = 0 := by
  induction n with
  | zero => rfl
  | succ n ih =>
    show decimalValue (List.replicate (n + 1) ('0' : CodePoint)) = 0
    rw [List.replicate_succ', decimalValue_append, ih]
    rfl

theorem decimalValue_ofNat (n : Nat) : decimalValue (ofNat n) = n := valueWith_ofNat n

/-- What is dropped at the end of a text, as far as it is one character. -/
theorem exists_append_dropEndWhile (c : CodePoint) (t : Text) :
    ∃ n, t = dropEndWhile (· == c) t ++ List.replicate n c := by
  induction t using List.reverseRecOn with
  | nil => exact ⟨0, rfl⟩
  | append_singleton t d ih =>
    have hreverse : (t ++ [d]).reverse = d :: t.reverse := by simp
    unfold dropEndWhile at ih ⊢
    rw [hreverse]
    by_cases hd : d = c
    · obtain ⟨n, hn⟩ := ih
      refine ⟨n + 1, ?_⟩
      rw [List.dropWhile_cons_of_pos (by simpa using hd), List.replicate_succ', ← List.append_assoc,
        ← hn, hd]
    · refine ⟨0, ?_⟩
      rw [List.dropWhile_cons_of_neg (by simpa using hd)]
      simp

end Text

/-! ## Written numbers -/

/-- A number without a sign as it is written: whole digits, the digits behind the point, which is
    left out if there are none, and the digits of the exponent with its direction. -/
structure FloatText where
  whole : Text
  part : Text
  exponent : Option (Bool × Text)

namespace FloatText

/-- The point and the digits behind it. -/
def fraction (w : FloatText) : Text :=
  if w.part = [] then [] else '.' :: w.part

/-- The mark, the sign and the digits of the exponent. -/
def tail (w : FloatText) : Text :=
  match w.exponent with
  | none => []
  | some (down, ds) => 'e' :: (if down then '-' else '+' : CodePoint) :: ds

/-- The number as a text. -/
def toText (w : FloatText) : Text :=
  w.whole ++ w.fraction ++ w.tail

/-- The number that the exponent stands for. -/
def power (w : FloatText) : Int :=
  match w.exponent with
  | none => 0
  | some (down, ds) => if down then -(Text.decimalValue ds : Int) else Text.decimalValue ds

/-- The decimal that the digits make up. -/
def value (w : FloatText) : ℚ :=
  Text.decimalValue (w.whole ++ w.part) * (10 : ℚ) ^ (w.power - w.part.length)

/-- All digits are digits, and there are some before the point and in the exponent. -/
structure Proper (w : FloatText) : Prop where
  whole_ne : w.whole ≠ []
  whole : ∀ c ∈ w.whole, c.isAsciiDigit = true
  part : ∀ c ∈ w.part, c.isAsciiDigit = true
  exponent_ne : ∀ e ∈ w.exponent, e.2 ≠ []
  exponent : ∀ e ∈ w.exponent, ∀ c ∈ e.2, c.isAsciiDigit = true

/-- The characters of numbers. -/
def IsMark (c : CodePoint) : Prop :=
  c.isAsciiDigit = true ∨ c = '.' ∨ c = 'e' ∨ c = '+' ∨ c = '-'

/-- What is decided of the characters of numbers. -/
theorem forall_isMark {P : CodePoint → Prop}
    (h : ∀ n, (hn : n < 128) → CodePoint.isAsciiDigit ⟨n, Nat.lt_trans hn (by decide)⟩ = true →
      P ⟨n, Nat.lt_trans hn (by decide)⟩) (hpoint : P '.') (hmark : P 'e') (hplus : P '+')
    (hminus : P '-') {c : CodePoint} (hc : IsMark c) : P c := by
  rcases hc with hc | rfl | rfl | rfl | rfl
  · exact CodePoint.forall_isAsciiDigit h c hc
  · exact hpoint
  · exact hmark
  · exact hplus
  · exact hminus

variable {w : FloatText}

theorem Proper.isMark (h : w.Proper) : ∀ c ∈ w.toText, IsMark c := by
  intro c hc
  rcases List.mem_append.1 hc with hc | hc
  · rcases List.mem_append.1 hc with hc | hc
    · exact Or.inl (h.whole c hc)
    · unfold fraction at hc
      split at hc
      · cases hc
      · rcases List.mem_cons.1 hc with rfl | hc
        · exact Or.inr (Or.inl rfl)
        · exact Or.inl (h.part c hc)
  · unfold tail at hc
    split at hc
    · cases hc
    · next down ds he =>
      rcases List.mem_cons.1 hc with rfl | hc
      · exact Or.inr (Or.inr (Or.inl rfl))
      rcases List.mem_cons.1 hc with rfl | hc
      · cases down
        · exact Or.inr (Or.inr (Or.inr (Or.inl rfl)))
        · exact Or.inr (Or.inr (Or.inr (Or.inr rfl)))
      · exact Or.inl (h.exponent _ he c hc)

/-- A written number starts with a digit. -/
theorem Proper.head (h : w.Proper) :
    ∃ c rest, w.toText = c :: rest ∧ c.isAsciiDigit = true := by
  obtain ⟨c, rest, hwhole⟩ := List.exists_cons_of_ne_nil h.whole_ne
  refine ⟨c, rest ++ w.fraction ++ w.tail, ?_, h.whole c (hwhole ▸ List.mem_cons_self)⟩
  rw [toText, hwhole]
  rfl

/-- There is a point exactly if there are digits behind it. -/
theorem Proper.point_mem_iff (h : w.Proper) : ('.' : CodePoint) ∈ w.toText ↔ w.part ≠ [] := by
  have hdigits : ∀ ds : Text, (∀ c ∈ ds, c.isAsciiDigit = true) → ('.' : CodePoint) ∉ ds := by
    intro ds hds hmem
    exact absurd (hds _ hmem) (by decide)
  have htail : ('.' : CodePoint) ∉ w.tail := by
    unfold tail
    split
    · exact List.not_mem_nil
    · next down ds he =>
      have hds := hdigits ds (h.exponent _ he)
      cases down <;> simp [hds] <;> decide
  unfold toText fraction
  split
  · next hpart => simp [hpart, hdigits _ h.whole, htail]
  · next hpart => simp [hpart]

/-! ## Reading -/

theorem digits?_eq_self {ds : Text} (hne : ds ≠ []) (h : ∀ c ∈ ds, c.isAsciiDigit = true) :
    Numeral.digits? CodePoint.isAsciiDigit ds = some ds := by
  refine Numeral.digits?_eq_self ds hne fun c hc => ⟨h c hc, ?_⟩
  exact CodePoint.forall_isAsciiDigit (P := (· ≠ '_')) (by decide) c (h c hc)

theorem Proper.mantissa? (h : w.Proper) :
    Numeral.mantissa? (w.whole ++ w.fraction) = some (w.whole, w.part) := by
  have hpoint : ('.' : CodePoint) ∉ w.whole := fun hmem => absurd (h.whole _ hmem) (by decide)
  unfold Numeral.mantissa?
  by_cases hpart : w.part = []
  · rw [fraction, if_pos hpart, List.append_nil, Text.cut?_eq_none.2 hpoint, hpart]
    show (Numeral.digits? _ w.whole).map _ = _
    rw [digits?_eq_self h.whole_ne h.whole]
    rfl
  · obtain ⟨c, whole, hwhole⟩ := List.exists_cons_of_ne_nil h.whole_ne
    obtain ⟨d, part, hp⟩ := List.exists_cons_of_ne_nil hpart
    rw [fraction, if_neg hpart, Text.cut?_append hpoint]
    simp only [hwhole, hp]
    rw [← hwhole, ← hp, digits?_eq_self h.whole_ne h.whole, digits?_eq_self hpart h.part]
    rfl

/-- A number without a sign is read as the decimal that its digits make up. -/
theorem Proper.unsignedFloat? (h : w.Proper) :
    Numeral.unsignedFloat? false w.toText =
      some (.ofDecimal false (Text.decimalValue (w.whole ++ w.part))
        (w.power - w.part.length)) := by
  have hmark : ∀ c ∈ w.whole ++ w.fraction, (!Numeral.isExponentMark c) = true := by
    intro c hc
    have hdigit : ∀ c : CodePoint, c.isAsciiDigit = true → (!Numeral.isExponentMark c) = true :=
      CodePoint.forall_isAsciiDigit (by decide)
    rcases List.mem_append.1 hc with hc | hc
    · exact hdigit c (h.whole c hc)
    · unfold fraction at hc
      split at hc
      · cases hc
      · rcases List.mem_cons.1 hc with rfl | hc
        · decide
        · exact hdigit c (h.part c hc)
  have hbody : w.toText.takeWhile (fun c => !Numeral.isExponentMark c) = w.whole ++ w.fraction := by
    rw [toText, List.takeWhile_append_of_pos hmark]
    unfold tail
    split
    · simp
    · simp [Numeral.isExponentMark]
  have htail : w.toText.dropWhile (fun c => !Numeral.isExponentMark c) = w.tail := by
    rw [toText, List.dropWhile_append_of_pos hmark]
    unfold tail
    split
    · rfl
    · rw [List.dropWhile_cons_of_neg (by decide)]
  -- The exponent mark is the first one in the text, so the text is cut where it was joined.
  unfold Numeral.unsignedFloat?
  simp only [hbody, htail, h.mantissa?]
  cases he : w.exponent with
  | none => simp only [tail, power, he]
  | some e =>
    obtain ⟨down, ds⟩ := e
    have hds : Numeral.digits? CodePoint.isAsciiDigit ds = some ds :=
      digits?_eq_self (h.exponent_ne _ he) (h.exponent _ he)
    cases down with
    | true =>
      have hsign : Numeral.sign ('-' :: ds) = (true, ds) := rfl
      simp only [tail, power, he, if_true, hsign, hds, Option.map_some]
    | false =>
      have hsign : Numeral.sign ('+' :: ds) = (false, ds) := rfl
      simp only [tail, power, he, Bool.false_eq_true, if_false, hsign, hds, Option.map_some]

theorem Proper.float? (h : w.Proper) : Numeral.float? w.toText =
    some (.ofDecimal false (Text.decimalValue (w.whole ++ w.part)) (w.power - w.part.length)) := by
  have hnormal : Numeral.normalize w.toText = w.toText :=
    Numeral.normalize_eq_self_of_forall fun c hc =>
      forall_isMark (P := fun c => Numeral.normalize [c] = [c]) (by decide) (by decide) (by decide)
        (by decide) (by decide) (h.isMark c hc)
  have htrim : Text.trim (· == (' ' : CodePoint)) w.toText = w.toText :=
    Numeral.trim_eq_self fun c hc =>
      forall_isMark (P := (· ≠ ' ')) (by decide) (by decide) (by decide) (by decide) (by decide)
        (h.isMark c hc)
  obtain ⟨c, rest, htext, hc⟩ := h.head
  have hfirst := CodePoint.forall_isAsciiDigit
    (P := fun c => c ≠ '-' ∧ c ≠ '+' ∧ c.lowerAscii ≠ 'i' ∧ c.lowerAscii ≠ 'n') (by decide) c hc
  have hsign : Numeral.sign w.toText = (false, w.toText) := by
    rw [htext, Numeral.sign, if_neg hfirst.1, if_neg hfirst.2.1]
  -- The first mark is a digit, so the text is none of the words for infinity and no number.
  have hword : ∀ d : CodePoint, c.lowerAscii ≠ d → ∀ t : Text,
      Text.lowerAscii w.toText ≠ d :: t := by
    intro d hd t heq
    rw [htext] at heq
    exact hd (List.cons.inj heq).1
  have hinf : ¬(Text.lowerAscii w.toText = ("inf" : Text) ∨
      Text.lowerAscii w.toText = ("infinity" : Text)) := by
    rintro (h | h)
    · exact hword 'i' hfirst.2.2.1 _ h
    · exact hword 'i' hfirst.2.2.1 _ h
  have hnan : Text.lowerAscii w.toText ≠ ("nan" : Text) := fun h => hword 'n' hfirst.2.2.2 _ h
  unfold Numeral.float?
  rw [hnormal, htrim, hsign]
  show (if _ then _ else if _ then _ else _) = _
  rw [if_neg hinf, if_neg hnan, h.unsignedFloat?]

end FloatText

/-! ## Laying out digits -/

namespace NumberLayout

/-- The digits are digits, and there are some. -/
structure Digits (s : Text) : Prop where
  ne : s ≠ []
  digits : ∀ c ∈ s, c.isAsciiDigit = true

/-- A text is the text of a number that digits and an exponent for the first of them make up.  The
    point is left out only in front of an exponent, behind a single digit. -/
structure Renders (s : Text) (e : Int) (w : FloatText) : Prop where
  proper : w.Proper
  value : w.value = Text.decimalValue s * (10 : ℚ) ^ (e + 1 - s.length)
  single : w.part = [] → w.whole = s ∧ s.length = 1 ∧ w.exponent.isSome

theorem isAsciiDigit_of_mem_zeros {n : Nat} :
    ∀ c ∈ Text.zeros n, c.isAsciiDigit = true := by
  intro c hc
  rw [List.eq_of_mem_replicate hc]
  decide

/-- Digits in front of the point, filled up with zeros. -/
theorem renders_filled {s : Text} (hs : Digits s) {n : Nat} (h : s.length ≤ n + 1) :
    Renders s n ⟨s ++ Text.zeros (n + 1 - s.length), Text.zeros 1, none⟩ where
  proper := {
    whole_ne := by simp [hs.ne]
    whole := fun c hc => (List.mem_append.1 hc).elim (hs.digits c) (isAsciiDigit_of_mem_zeros c)
    part := fun c hc => isAsciiDigit_of_mem_zeros (n := 1) c hc
    exponent_ne := by simp
    exponent := by simp }
  value := by
    -- The zero behind the point joins the zeros in front of it.
    have hzeros : (⟨s ++ Text.zeros (n + 1 - s.length), Text.zeros 1, none⟩ : FloatText).value =
        Text.decimalValue (s ++ Text.zeros (n + 1 - s.length + 1)) *
          (10 : ℚ) ^ (0 - 1 : ℤ) := by
      rw [Text.zeros.eq_1 (n + 1 - s.length + 1), List.replicate_succ', ← List.append_assoc]
      rfl
    have hexp : (n : ℤ) + 1 - s.length = ((n + 1 - s.length : ℕ) : ℤ) := by omega
    rw [hzeros, Text.decimalValue_append, Text.decimalValue_zeros, List.length_replicate, hexp,
      zpow_natCast]
    push_cast
    rw [pow_succ]
    ring
  single h := by cases h

/-- Digits around the point. -/
theorem renders_split {s : Text} (hs : Digits s) {n : Nat} (h : n + 1 < s.length) :
    Renders s n ⟨s.take (n + 1), s.drop (n + 1), none⟩ where
  proper := {
    whole_ne := by simp [hs.ne]
    whole := fun c hc => hs.digits c (List.mem_of_mem_take hc)
    part := fun c hc => hs.digits c (List.mem_of_mem_drop hc)
    exponent_ne := by simp
    exponent := by simp }
  value := by
    show (Text.decimalValue (s.take (n + 1) ++ s.drop (n + 1)) : ℚ) *
      10 ^ ((0 : ℤ) - (s.drop (n + 1)).length) = _
    rw [List.take_append_drop, List.length_drop]
    congr 2
    omega
  single hpart := by
    have := List.length_eq_zero_iff.2 hpart
    rw [List.length_drop] at this
    omega

/-- Digits behind the point, behind zeros. -/
theorem renders_small {s : Text} (hs : Digits s) (n : Nat) :
    Renders s (Int.negSucc n) ⟨Text.zeros 1, Text.zeros n ++ s, none⟩ where
  proper := {
    whole_ne := by simp
    whole := fun c hc => isAsciiDigit_of_mem_zeros (n := 1) c hc
    part := fun c hc => (List.mem_append.1 hc).elim (isAsciiDigit_of_mem_zeros c) (hs.digits c)
    exponent_ne := by simp
    exponent := by simp }
  value := by
    show (Text.decimalValue (Text.zeros 1 ++ (Text.zeros n ++ s)) : ℚ) *
      10 ^ ((0 : ℤ) - (Text.zeros n ++ s).length) = _
    rw [← List.append_assoc, ← List.replicate_add, Text.decimalValue_append,
      Text.decimalValue_zeros, List.length_append, List.length_replicate, Nat.zero_mul,
      Nat.zero_add]
    congr 2
    push_cast
    omega
  single hpart := by simp [hs.ne] at hpart

/-- The digits of an exponent have at least two places. -/
theorem digits_padZeros (n : Nat) :
    Digits (Text.padZeros 2 (Text.ofNat n)) ∧
      Text.decimalValue (Text.padZeros 2 (Text.ofNat n)) = n := by
  unfold Text.padZeros
  refine ⟨⟨?_, fun c hc => ?_⟩, ?_⟩
  · simp [Text.ofNat_ne_nil]
  · rcases List.mem_append.1 hc with hc | hc
    · exact isAsciiDigit_of_mem_zeros c hc
    · exact Text.isAsciiDigit_of_mem_ofNat c hc
  · rw [Text.decimalValue_append, Text.decimalValue_zeros, Nat.zero_mul, Nat.zero_add,
      Text.decimalValue_ofNat]

/-- Digits in front of an exponent. -/
theorem renders_exponent {s : Text} (hs : Digits s) (e : Int) :
    Renders s e
      ⟨s.take 1, s.drop 1, some (decide (e < 0), Text.padZeros 2 (Text.ofNat e.natAbs))⟩ where
  proper := {
    whole_ne := by simp [hs.ne]
    whole := fun c hc => hs.digits c (List.mem_of_mem_take hc)
    part := fun c hc => hs.digits c (List.mem_of_mem_drop hc)
    exponent_ne := by
      rintro _ ⟨⟩
      exact (digits_padZeros _).1.ne
    exponent := by
      rintro _ ⟨⟩
      exact (digits_padZeros _).1.digits }
  value := by
    -- The width of the exponent is no matter: zeros in front of it change nothing.
    have hpower : (⟨s.take 1, s.drop 1,
        some (decide (e < 0), Text.padZeros 2 (Text.ofNat e.natAbs))⟩ : FloatText).power = e := by
      show (if decide (e < 0) = true then
        -((Text.padZeros 2 (Text.ofNat e.natAbs)).decimalValue : ℤ)
        else ((Text.padZeros 2 (Text.ofNat e.natAbs)).decimalValue : ℤ)) = e
      rw [(digits_padZeros _).2]
      split
      · next h =>
        have := of_decide_eq_true h
        omega
      · next h =>
        have : ¬e < 0 := fun hlt => h (decide_eq_true hlt)
        omega
    have hlength : 0 < s.length := List.length_pos_iff.2 hs.ne
    rw [FloatText.value, hpower]
    show (Text.decimalValue (s.take 1 ++ s.drop 1) : ℚ) * 10 ^ (e - (s.drop 1).length) = _
    rw [List.take_append_drop, List.length_drop]
    congr 2
    omega
  single hpart := by
    have hlength : 0 < s.length := List.length_pos_iff.2 hs.ne
    have hle : s.length ≤ 1 := by
      have := List.length_eq_zero_iff.2 hpart
      rw [List.length_drop] at this
      omega
    exact ⟨List.take_of_length_le hle, le_antisymm hle hlength, rfl⟩

/-- However digits are laid out in a data string, the text is that of the number they make up. -/
theorem exists_renders {s : Text} (hs : Digits s) (e : Int) :
    ∃ w, NumberLayout.data.render s e = w.toText ∧ Renders s e w := by
  unfold render
  by_cases hposition : data.leastPositional ≤ e ∧ e ≤ data.greatestPositional
  · rw [if_pos hposition]
    -- A number of moderate size has a point but no exponent.
    cases e with
    | ofNat n =>
      by_cases hlength : s.length ≤ n + 1
      · refine ⟨_, ?_, renders_filled hs hlength⟩
        simp only [if_pos hlength, FloatText.toText, FloatText.fraction, FloatText.tail,
          List.append_nil]
        rfl
      · have hlt : n + 1 < s.length := Nat.lt_of_not_le hlength
        refine ⟨_, ?_, renders_split hs hlt⟩
        have hne : s.drop (n + 1) ≠ [] := by
          simpa using hlt
        simp only [if_neg hlength, FloatText.toText, FloatText.fraction, FloatText.tail,
          if_neg hne, List.append_nil]
        rw [List.append_assoc]
        rfl
    | negSucc n =>
      refine ⟨_, ?_, renders_small hs n⟩
      have hne : Text.zeros n ++ s ≠ [] := by simp [hs.ne]
      simp only [FloatText.toText, FloatText.fraction, FloatText.tail, if_neg hne, List.append_nil]
      rw [List.append_assoc]
      rfl
  · rw [if_neg hposition]
    refine ⟨_, ?_, renders_exponent hs e⟩
    -- The sign is written with the mark of the exponent, and the digits behind them are the same.
    have hmark : ∀ t : Text, (if e < 0 then ("e-" : Text) else "e+") ++ t =
        ('e' : CodePoint) :: (if decide (e < 0) = true then '-' else '+' : CodePoint) :: t := by
      intro t
      by_cases he : e < 0
      · simp only [if_pos he, decide_eq_true he, if_true]
        rfl
      · simp only [if_neg he, decide_eq_false he, Bool.false_eq_true, if_false]
        rfl
    have hpoint : (if s.length ≤ 1 then
        (if data.fractionBeforeExponent then (".0" : Text) else "") else "." ++ s.drop 1) =
        if s.drop 1 = [] then [] else ('.' : CodePoint) :: s.drop 1 := by
      by_cases hlength : s.length ≤ 1
      · rw [if_pos hlength, if_pos (List.drop_eq_nil_of_le hlength)]
        rfl
      · have hne : s.drop 1 ≠ [] := fun h => hlength (List.drop_eq_nil_iff.1 h)
        rw [if_neg hlength, if_neg hne]
        rfl
    simp only [FloatText.toText, FloatText.fraction, FloatText.tail]
    rw [hpoint, List.append_assoc, hmark]

end NumberLayout

/-! ## Numbers -/

namespace Binary64

/-- A text is that of a number without its sign: it is read back as that number.  The point is
    left out only in front of an exponent, behind a single digit that is not zero. -/
structure Writes (m : Nat) (q : Int) (w : FloatText) : Prop where
  proper : w.Proper
  reads : Numeral.float? w.toText = some (.finite false m q)
  single : w.part = [] → w.whole.length = 1 ∧ w.exponent.isSome

/-- The digits of the shortest decimal without the zeros at their end. -/
theorem writes_shortest {m : Nat} {q : Int} (hc : IsCanonical m q) (hm : 0 < m) {s : Text}
    {e : Int} (hs : s = Text.dropEndWhile (· == '0') (Text.ofNat (shortest m q).1))
    (he : e = (shortest m q).2 + (Text.ofNat (shortest m q).1).length - 1) {w : FloatText}
    (hw : NumberLayout.Renders s e w) : Writes m q w := by
  have hround := roundsTo_shortest hc hm
  generalize (shortest m q).1 = c at *
  generalize (shortest m q).2 = j at *
  obtain ⟨n, hn⟩ := Text.exists_append_dropEndWhile '0' (Text.ofNat c)
  rw [← hs] at hn
  have hvalue : Text.decimalValue s * 10 ^ n = c := by
    rw [← Text.decimalValue_ofNat c, hn, Text.decimalValue_append, Text.decimalValue_zeros,
      List.length_replicate, Nat.add_zero]
  -- The zeros that are cut off are what the exponent counts in addition.
  have hdecimal : w.value = c * (10 : ℚ) ^ j := by
    have hexp : e + 1 - s.length = (n : ℤ) + j := by
      rw [he, hn, List.length_append, List.length_replicate]
      push_cast
      ring
    rw [hw.value, hexp, zpow_add₀ (by norm_num), zpow_natCast, ← mul_assoc, ← hvalue]
    push_cast
    rfl
  refine ⟨hw.proper, ?_, fun hpart => ?_⟩
  · rw [hw.proper.float?]
    rw [← hdecimal] at hround
    exact congrArg some (ofDecimal_eq hc hm hround false)
  · obtain ⟨hwhole, hlength, hexponent⟩ := hw.single hpart
    exact ⟨hwhole ▸ hlength, hexponent⟩

/-- The digits of a number are digits, and the zeros at their end are not all of them. -/
theorem digits_dropEndWhile_ofNat {c : Nat} (hc : 0 < c) :
    NumberLayout.Digits (Text.dropEndWhile (· == '0') (Text.ofNat c)) := by
  obtain ⟨n, hn⟩ := Text.exists_append_dropEndWhile '0' (Text.ofNat c)
  refine ⟨fun hnil => ?_, fun d hd => ?_⟩
  · rw [hnil, List.nil_append] at hn
    have hvalue := Text.decimalValue_ofNat c
    rw [hn, Text.decimalValue_zeros] at hvalue
    omega
  · refine Text.isAsciiDigit_of_mem_ofNat d (n := c) ?_
    rw [hn]
    exact List.mem_append_left _ hd

/-- The text of a finite number is that of the number without its sign, behind the sign. -/
theorem exists_writes {m : Nat} {q : Int} (hc : IsCanonical m q) (negative : Bool) :
    ∃ w, Writes m q w ∧
      toText .data (.finite negative m q) = (if negative then "-" else "" : Text) ++ w.toText := by
  rcases Nat.eq_zero_or_pos m with rfl | hm
  -- Zero has the least exponent, and it is written without a search.
  · have hq : q = leastExponent := by
      rcases lt_or_eq_of_le hc.least with hlt | heq
      · have := hc.normal hlt
        omega
      · exact heq.symm
    subst hq
    refine ⟨⟨Text.zeros 1, Text.zeros 1, none⟩, ⟨⟨?_, ?_, ?_, ?_, ?_⟩, ?_, ?_⟩, ?_⟩
    · decide
    · exact NumberLayout.isAsciiDigit_of_mem_zeros
    · exact NumberLayout.isAsciiDigit_of_mem_zeros
    · simp
    · simp
    · rfl
    · simp
    · rfl
  · have hpos : 0 < (shortest m q).1 := by
      have hround := roundsTo_shortest hc hm
      rcases Nat.eq_zero_or_pos (shortest m q).1 with hzero | hpos
      · have := hround.le hm
        rw [hzero] at this
        norm_num at this
      · exact hpos
    obtain ⟨w, htext, hw⟩ := NumberLayout.exists_renders (digits_dropEndWhile_ofNat hpos)
      ((shortest m q).2 + (Text.ofNat (shortest m q).1).length - 1)
    refine ⟨w, writes_shortest hc hm rfl rfl hw, ?_⟩
    rw [← htext, toText, if_neg hm.ne']

end Binary64

end IdlBridge
