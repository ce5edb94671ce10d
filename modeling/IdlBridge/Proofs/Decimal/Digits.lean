import IdlBridge.Decimal.Reading
import IdlBridge.Proofs.Text
import Mathlib.Data.Nat.Basic

/-! # Decimal digits

    A number is written digit by digit, and reading the digits gives the number back.  The last
    digit comes off the end of the text, so everything goes by induction on the number divided
    by ten.
-/

namespace IdlBridge

/-- The digit of a number below ten. -/
def CodePoint.ofDigit (d : Nat) : CodePoint := ofChar (Nat.digitChar d)

theorem CodePoint.ofDigit_spec : ∀ d < 10, (ofDigit d).isAsciiDigit = true ∧
    (ofDigit d).hexValue = d ∧ (ofDigit d = '0' → d = 0) := by
  decide

namespace Text

/-! ## Writing -/

theorem ofNat_of_lt {n : Nat} (h : n < 10) : ofNat n = [.ofDigit n] := by
  rw [ofNat, Nat.toDigits_of_lt_base h]
  rfl

theorem ofNat_of_le {n : Nat} (h : 10 ≤ n) : ofNat n = ofNat (n / 10) ++ [.ofDigit (n % 10)] := by
  rw [ofNat, Nat.toDigits_of_base_le (by decide) h, List.map_append]
  rfl

theorem ofNat_ne_nil (n : Nat) : ofNat n ≠ [] := by
  simp [ofNat]

/-- Induction along the digits of a number. -/
theorem ofNat_induction {P : Nat → Text → Prop} (n : Nat)
    (digit : ∀ d < 10, P d [.ofDigit d])
    (snoc : ∀ n d, 0 < n → d < 10 → P n (ofNat n) → P (10 * n + d) (ofNat n ++ [.ofDigit d])) :
    P n (ofNat n) := by
  induction n using Nat.strongRecOn with
  | ind n ih =>
    by_cases h : n < 10
    · rw [ofNat_of_lt h]
      exact digit n h
    · have hstep := snoc (n / 10) (n % 10) (by omega) (by omega) (ih _ (by omega))
      rw [ofNat_of_le (by omega)]
      rwa [Nat.div_add_mod] at hstep

theorem isAsciiDigit_of_mem_ofNat {n : Nat} : ∀ c ∈ ofNat n, c.isAsciiDigit = true := by
  induction n using ofNat_induction with
  | digit d hd =>
    intro c hc
    rw [List.mem_singleton.1 hc]
    exact (CodePoint.ofDigit_spec d hd).1
  | snoc n d _ hd ih =>
    intro c hc
    rcases List.mem_append.1 hc with hc | hc
    · exact ih c hc
    · rw [List.mem_singleton.1 hc]
      exact (CodePoint.ofDigit_spec d hd).1

theorem valueWith_ofNat (n : Nat) : valueWith CodePoint.hexValue 10 (ofNat n) = n := by
  induction n using ofNat_induction with
  | digit d hd =>
    show 0 * 10 + (CodePoint.ofDigit d).hexValue = d
    rw [(CodePoint.ofDigit_spec d hd).2.1, Nat.zero_mul, Nat.zero_add]
  | snoc n d hn hd ih =>
    rw [valueWith, List.foldl_append]
    show valueWith CodePoint.hexValue 10 (ofNat n) * 10 + (CodePoint.ofDigit d).hexValue = _
    rw [ih, (CodePoint.ofDigit_spec d hd).2.1, Nat.mul_comm]

theorem length_ofNat_le {n k : Nat} (hk : 0 < k) (h : n < Nat.pow 10 k) : (ofNat n).length ≤ k := by
  rw [ofNat, List.length_map]
  exact (Nat.length_toDigits_le_iff (by decide) hk).2 h

/-- Only zero starts with a zero. -/
theorem head?_ofNat_ne {n : Nat} (h : 0 < n) : (ofNat n).head? ≠ some ('0' : CodePoint) := by
  induction n using ofNat_induction with
  | digit d hd =>
    intro hzero
    have := (CodePoint.ofDigit_spec d hd).2.2 (Option.some.inj hzero)
    omega
  | snoc n d hn hd ih =>
    cases hdigits : ofNat n with
    | nil => exact absurd hdigits (ofNat_ne_nil n)
    | cons c t =>
      rw [hdigits] at ih
      exact ih hn

end Text

/-! ## Reading -/

namespace Numeral

theorem digits?_eq_self {isDigit : CodePoint → Bool} (t : Text) (hne : t ≠ [])
    (h : ∀ c ∈ t, isDigit c = true ∧ c ≠ '_') : digits? isDigit t = some t := by
  induction t with
  | nil => exact absurd rfl hne
  | cons c t ih =>
    cases t with
    | nil => rw [digits?, if_pos (h c (by simp)).1]
    | cons d t =>
      rw [digits?, if_pos (h c (by simp)).1, if_neg (h d (by simp)).2,
        ih (List.cons_ne_nil _ _) fun c hc => h c (List.mem_cons_of_mem _ hc)]
      rfl

theorem natInBase?_ofNat {n : Nat} (h : n < Nat.pow 10 maxDecimalDigits) :
    natInBase? 10 (Text.ofNat n) = some n := by
  have hdigits : digits? (isDigitOf 10) (Text.ofNat n) = some (Text.ofNat n) := by
    refine digits?_eq_self _ (Text.ofNat_ne_nil n) fun c hc => ?_
    exact CodePoint.forall_isAsciiDigit (P := fun c => isDigitOf 10 c = true ∧ c ≠ '_')
      (by decide) c
      (Text.isAsciiDigit_of_mem_ofNat c hc)
  have hlength : ¬(10 = 10 ∧ maxDecimalDigits < (Text.ofNat n).length) := by
    rintro ⟨-, hlt⟩
    have := Text.length_ofNat_le (by decide) h
    omega
  rw [natInBase?, hdigits]
  show (if _ then _ else _) = _
  rw [if_neg hlength, Text.valueWith_ofNat]

theorem natLiteral?_ofNat {n : Nat} (h : n < Nat.pow 10 maxDecimalDigits) :
    natLiteral? (Text.ofNat n) = some n := by
  have hread := natInBase?_ofNat h
  have hzero : n = 0 ∨ (Text.ofNat n).head? ≠ some ('0' : CodePoint) := by
    rcases Nat.eq_zero_or_pos n with h | h
    · exact Or.inl h
    · exact Or.inr (Text.head?_ofNat_ne h)
  unfold natLiteral?
  split
  · next z x rest heq =>
    rw [heq] at hzero
    rcases hzero with rfl | hz
    · cases heq
    · rw [if_neg fun hz' => hz (congrArg some hz')]
      exact hread
  · exact hread

theorem normalize_eq_self_of_forall {t : Text} (h : ∀ c ∈ t, normalize [c] = [c]) :
    normalize t = t := by
  rw [normalize]
  refine (List.map_congr_left fun c hc => ?_).trans (List.map_id t)
  exact (List.cons.inj (h c hc)).1

/-- Digits and a minus sign stand for themselves. -/
theorem normalize_eq_self {t : Text} (h : ∀ c ∈ t, c.isAsciiDigit = true ∨ c = '-') :
    normalize t = t := by
  apply normalize_eq_self_of_forall
  intro c hc
  rcases h c hc with h | rfl
  · exact CodePoint.forall_isAsciiDigit (P := fun c => normalize [c] = [c]) (by decide) c h
  · decide

theorem trim_eq_self {t : Text} (h : ∀ c ∈ t, c ≠ ' ') :
    Text.trim (· == (' ' : CodePoint)) t = t := by
  have hdrop : ∀ t : Text, (∀ c ∈ t, c ≠ ' ') → t.dropWhile (· == (' ' : CodePoint)) = t := by
    intro t ht
    cases t with
    | nil => rfl
    | cons c t => rw [List.dropWhile_cons_of_neg]; simpa using ht c (by simp)
  rw [Text.trim, hdrop t h, Text.dropEndWhile, hdrop _ fun c hc => h c (List.mem_reverse.1 hc),
    List.reverse_reverse]

end Numeral

namespace Text

theorem isAsciiDigit_or_of_mem_ofInt {i : Int} :
    ∀ c ∈ ofInt i, c.isAsciiDigit = true ∨ c = '-' := by
  intro c hc
  cases i with
  | ofNat n => exact Or.inl (isAsciiDigit_of_mem_ofNat c hc)
  | negSucc n =>
    rcases List.mem_cons.1 hc with rfl | hc
    · exact Or.inr rfl
    · exact Or.inl (isAsciiDigit_of_mem_ofNat c hc)

end Text

/-- An integer that is not too long is read back. -/
theorem Numeral.intLiteral?_ofInt {i : Int} (h : i.natAbs < Nat.pow 10 maxDecimalDigits) :
    intLiteral? (Text.ofInt i) = some i := by
  have hne : ∀ c ∈ Text.ofInt i, c ≠ ' ' := by
    intro c hc
    rcases Text.isAsciiDigit_or_of_mem_ofInt c hc with h | rfl
    · exact CodePoint.forall_isAsciiDigit (P := (· ≠ ' ')) (by decide) c h
    · decide
  rw [intLiteral?, normalize_eq_self Text.isAsciiDigit_or_of_mem_ofInt, trim_eq_self hne]
  cases i with
  | ofNat n =>
    have hsign : sign (Text.ofNat n) = (false, Text.ofNat n) := by
      cases heq : Text.ofNat n with
      | nil => rfl
      | cons c t =>
        have hc := Text.isAsciiDigit_of_mem_ofNat (n := n) c (heq ▸ List.mem_cons_self)
        have := CodePoint.forall_isAsciiDigit (P := fun c => c ≠ '-' ∧ c ≠ '+') (by decide) c hc
        rw [sign, if_neg this.1, if_neg this.2]
    have hread : natLiteral? (Text.ofNat n) = some n := natLiteral?_ofNat h
    simp only [Text.ofInt, hsign, hread]
    rfl
  | negSucc n =>
    have hsign : sign (Text.ofInt (.negSucc n)) = (true, Text.ofNat (n + 1)) := rfl
    have hread : natLiteral? (Text.ofNat (n + 1)) = some (n + 1) := natLiteral?_ofNat h
    simp only [hsign, hread]
    rfl

/-! ## Every integer has a literal

    Decimal literals are not long enough for all integers, but binary ones are.
-/

namespace Numeral

/-- The digits of the base two. -/
def IsBit (c : CodePoint) : Prop := c = '0' ∨ c = '1'

theorem exists_bits (n : Nat) :
    ∃ ds : Text, ds ≠ [] ∧ (∀ c ∈ ds, IsBit c) ∧ Text.valueWith CodePoint.hexValue 2 ds = n := by
  induction n using Nat.strongRecOn with
  | ind n ih =>
    by_cases h : n < 2
    · have hcases : n = 0 ∨ n = 1 := by omega
      rcases hcases with rfl | rfl
      · exact ⟨['0'], by decide, fun c hc => Or.inl (List.mem_singleton.1 hc), by decide⟩
      · exact ⟨['1'], by decide, fun c hc => Or.inr (List.mem_singleton.1 hc), by decide⟩
    · obtain ⟨ds, hne, hbits, hvalue⟩ := ih (n / 2) (by omega)
      -- The last bit says whether the number is even.
      have hsnoc : ∀ c : CodePoint, Text.valueWith CodePoint.hexValue 2 (ds ++ [c]) =
          n / 2 * 2 + c.hexValue := by
        intro c
        rw [← hvalue, Text.valueWith, List.foldl_append]
        rfl
      have hmem : ∀ d : CodePoint, IsBit d → ∀ c ∈ ds ++ [d], IsBit c := by
        intro d hd c hc
        rcases List.mem_append.1 hc with hc | hc
        · exact hbits c hc
        · rw [List.mem_singleton.1 hc]
          exact hd
      have hparity : n % 2 = 0 ∨ n % 2 = 1 := by omega
      rcases hparity with hparity | hparity
      · refine ⟨ds ++ [('0' : CodePoint)], by simp, hmem '0' (Or.inl rfl), ?_⟩
        rw [hsnoc]
        show n / 2 * 2 + 0 = n
        omega
      · refine ⟨ds ++ [('1' : CodePoint)], by simp, hmem '1' (Or.inr rfl), ?_⟩
        rw [hsnoc]
        show n / 2 * 2 + 1 = n
        omega

/-- A binary literal with the letter for its base. -/
theorem exists_natLiteral (n : Nat) : ∃ ds : Text, (∀ c ∈ ds, IsBit c) ∧
    natLiteral? ('0' :: 'b' :: ds) = some n := by
  obtain ⟨ds, hne, hbits, hvalue⟩ := exists_bits n
  have hdigits : digits? (isDigitOf 2) ds = some ds := by
    apply digits?_eq_self ds hne
    intro c hc
    rcases hbits c hc with rfl | rfl <;> decide
  have hread : natInBase? 2 ds = some n := by
    rw [natInBase?, hdigits]
    show some _ = some n
    rw [hvalue]
  refine ⟨ds, hbits, ?_⟩
  obtain ⟨c, rest, rfl⟩ := List.exists_cons_of_ne_nil hne
  have hc : c ≠ '_' := by
    rcases hbits c List.mem_cons_self with rfl | rfl <;> decide
  show natInBase? 2 (if c = '_' then rest else c :: rest) = some n
  rw [if_neg hc]
  exact hread

/-- A literal of plain characters is looked at as it stands. -/
theorem trim_normalize_eq_self {t : Text} (h : ∀ c ∈ t, c = '-' ∨ c = 'b' ∨ IsBit c) :
    Text.trim (· == (' ' : CodePoint)) (normalize t) = t := by
  have hchar : ∀ c ∈ t, normalize [c] = [c] ∧ c ≠ ' ' := by
    intro c hc
    rcases h c hc with rfl | rfl | rfl | rfl <;> decide
  rw [normalize_eq_self_of_forall fun c hc => (hchar c hc).1,
    trim_eq_self fun c hc => (hchar c hc).2]

theorem exists_intLiteral (i : Int) : ∃ t, intLiteral? t = some i := by
  -- Every integer has a binary literal; a decimal one may be longer than what is read.
  have hplain : ∀ ds : Text, (∀ c ∈ ds, IsBit c) →
      ∀ c ∈ ('0' :: 'b' :: ds : Text), c = '-' ∨ c = 'b' ∨ IsBit c := by
    intro ds hbits c hc
    rcases List.mem_cons.1 hc with rfl | hc
    · exact Or.inr (Or.inr (Or.inl rfl))
    · rcases List.mem_cons.1 hc with rfl | hc
      · exact Or.inr (Or.inl rfl)
      · exact Or.inr (Or.inr (hbits c hc))
  cases i with
  | ofNat n =>
    obtain ⟨ds, hbits, hread⟩ := exists_natLiteral n
    have hsign : sign ('0' :: 'b' :: ds) = (false, ('0' :: 'b' :: ds : Text)) := rfl
    refine ⟨'0' :: 'b' :: ds, ?_⟩
    rw [intLiteral?, trim_normalize_eq_self (hplain ds hbits)]
    simp only [hsign, hread]
    rfl
  | negSucc n =>
    obtain ⟨ds, hbits, hread⟩ := exists_natLiteral (n + 1)
    have hsign : sign ('-' :: '0' :: 'b' :: ds) = (true, ('0' :: 'b' :: ds : Text)) := rfl
    have hsigned : ∀ c ∈ ('-' :: '0' :: 'b' :: ds : Text), c = '-' ∨ c = 'b' ∨ IsBit c := by
      intro c hc
      rcases List.mem_cons.1 hc with rfl | hc
      · exact Or.inl rfl
      · exact hplain ds hbits c hc
    refine ⟨'-' :: '0' :: 'b' :: ds, ?_⟩
    rw [intLiteral?, trim_normalize_eq_self hsigned]
    simp only [hsign, hread]
    rfl

end Numeral

end IdlBridge
