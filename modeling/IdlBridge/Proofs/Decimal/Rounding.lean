import IdlBridge.Decimal.Shortest
import Mathlib.Algebra.Order.Field.Power
import Mathlib.Data.Nat.Log
import Mathlib.Tactic.FieldSimp
import Mathlib.Tactic.Linarith
import Mathlib.Tactic.NormNum
import Mathlib.Tactic.Ring

/-! # Rounding to the nearest binary number

    The reals that round to `m · 2 ^ q` lie in an interval around it, and every ratio in that
    interval is rounded to it.  Ratios are looked at as rational numbers here, so that it does not
    matter how they are scaled: all that is known of the exponent that is guessed from bit lengths
    is that it is the right one.
-/

namespace IdlBridge.Binary64

/-! ## Ratios -/

/-- A ratio that is unscaled stays a ratio, of the value divided by the power. -/
theorem unscale_spec (base : Nat) (hbase : 0 < base) (e : Int) (n : Nat) {d : Nat} (hd : 0 < d) :
    0 < (unscale base e n d).2 ∧
      ((unscale base e n d).1 : ℚ) / (unscale base e n d).2 = n / d / (base : ℚ) ^ e := by
  have hd' : (d : ℚ) ≠ 0 := by exact_mod_cast hd.ne'
  have hbase' : (base : ℚ) ≠ 0 := by exact_mod_cast hbase.ne'
  cases e with
  | ofNat k =>
    refine ⟨Nat.mul_pos hd (Nat.pow_pos hbase), ?_⟩
    show ((n : ℕ) : ℚ) / ((d * base ^ k : ℕ) : ℚ) = n / d / (base : ℚ) ^ (k : ℤ)
    rw [zpow_natCast]
    push_cast
    field_simp
  | negSucc k =>
    refine ⟨hd, ?_⟩
    show ((n * base ^ (k + 1) : ℕ) : ℚ) / d = n / d / (base : ℚ) ^ (Int.negSucc k)
    rw [zpow_negSucc]
    push_cast
    field_simp

/-- The exponent of a positive ratio: the ratio lies between its power of two and the next. -/
theorem floorLog2_spec {n d : Nat} (hn : 0 < n) (hd : 0 < d) :
    (2 : ℚ) ^ floorLog2 n d ≤ n / d ∧ (n : ℚ) / d < 2 ^ (floorLog2 n d + 1) := by
  have hd' : (0 : ℚ) < d := by exact_mod_cast hd
  -- The bit lengths give the ratio up to a factor of two.
  have hn1 : (2 : ℚ) ^ (n.log2 : ℤ) ≤ n := by
    rw [zpow_natCast]
    exact_mod_cast Nat.log2_self_le hn.ne'
  have hn2 : (n : ℚ) < 2 ^ ((n.log2 : ℤ) + 1) := by
    have := @Nat.lt_log2_self n
    rw [← Nat.cast_succ, zpow_natCast]
    exact_mod_cast this
  have hd1 : (2 : ℚ) ^ (d.log2 : ℤ) ≤ d := by
    rw [zpow_natCast]
    exact_mod_cast Nat.log2_self_le hd.ne'
  have hd2 : (d : ℚ) < 2 ^ ((d.log2 : ℤ) + 1) := by
    have := @Nat.lt_log2_self d
    rw [← Nat.cast_succ, zpow_natCast]
    exact_mod_cast this
  have hadd : ∀ a b : ℤ, (2 : ℚ) ^ (a + b) = 2 ^ a * 2 ^ b := zpow_add₀ (by norm_num)
  have hpos : ∀ a : ℤ, (0 : ℚ) < 2 ^ a := zpow_pos (by norm_num)
  set guess : ℤ := (n.log2 : ℤ) - d.log2 with hguess
  have hlow : (2 : ℚ) ^ (guess - 1) ≤ n / d := by
    rw [le_div_iff₀ hd']
    calc (2 : ℚ) ^ (guess - 1) * d ≤ 2 ^ (guess - 1) * 2 ^ ((d.log2 : ℤ) + 1) :=
          mul_le_mul_of_nonneg_left hd2.le (hpos _).le
      _ = 2 ^ (n.log2 : ℤ) := by rw [← hadd]; congr 1; omega
      _ ≤ n := hn1
  have hhigh : (n : ℚ) / d < 2 ^ (guess + 1) := by
    rw [div_lt_iff₀ hd']
    calc (n : ℚ) < 2 ^ ((n.log2 : ℤ) + 1) := hn2
      _ = 2 ^ (guess + 1) * 2 ^ (d.log2 : ℤ) := by rw [← hadd]; congr 1; omega
      _ ≤ 2 ^ (guess + 1) * d := mul_le_mul_of_nonneg_left hd1 (hpos _).le
  -- One comparison decides between the two exponents that are left.
  obtain ⟨hden, hvalue⟩ := unscale_spec 2 (by decide) guess n hd
  have hden' : (0 : ℚ) < (unscale 2 guess n d).2 := by exact_mod_cast hden
  have htest : (unscale 2 guess n d).2 ≤ (unscale 2 guess n d).1 ↔ (2 : ℚ) ^ guess ≤ n / d := by
    rw [← Nat.cast_le (α := ℚ), ← one_le_div₀ hden', hvalue]
    exact one_le_div₀ (hpos guess)
  have hdef : floorLog2 n d =
      if (unscale 2 guess n d).2 ≤ (unscale 2 guess n d).1 then guess else guess - 1 := rfl
  rw [hdef]
  split
  · next h => exact ⟨htest.1 h, hhigh⟩
  · next h =>
    rw [sub_add_cancel]
    exact ⟨hlow, not_le.1 fun hle => h (htest.2 hle)⟩

/-- A quotient that is no further than a half from a number is rounded to it, where exactly a half
    counts for even numbers. -/
theorem roundDiv_eq {n d m : Nat} (hd : 0 < d) (hlow : (m : ℚ) - 1 / 2 ≤ n / d)
    (hhigh : (n : ℚ) / d ≤ m + 1 / 2)
    (hodd : m % 2 = 1 → (m : ℚ) - 1 / 2 < n / d ∧ (n : ℚ) / d < m + 1 / 2) :
    roundDiv n d = m := by
  have hd' : (0 : ℚ) < d := by exact_mod_cast hd
  have hlow' : 2 * m * d ≤ 2 * n + d := by
    have := (le_div_iff₀ hd').1 hlow
    have : (2 * m * d : ℚ) ≤ 2 * n + d := by linarith
    exact_mod_cast this
  have hhigh' : 2 * n ≤ 2 * m * d + d := by
    have := (div_le_iff₀ hd').1 hhigh
    have : (2 * n : ℚ) ≤ 2 * m * d + d := by linarith
    exact_mod_cast this
  have hodd' : m % 2 = 1 → 2 * m * d < 2 * n + d ∧ 2 * n < 2 * m * d + d := by
    intro h
    have hl := (lt_div_iff₀ hd').1 (hodd h).1
    have hh := (div_lt_iff₀ hd').1 (hodd h).2
    have hl' : (2 * m * d : ℚ) < 2 * n + d := by linarith
    have hh' : (2 * n : ℚ) < 2 * m * d + d := by linarith
    exact ⟨by exact_mod_cast hl', by exact_mod_cast hh'⟩
  have hrest : n % d < d := Nat.mod_lt n hd
  have hsplit : n = n / d * d + n % d := (Nat.div_add_mod' n d).symm
  -- The bounds are facts about integers now, so the quotient and its remainder decide.
  unfold roundDiv
  generalize n / d = f at *
  generalize n % d = r at *
  subst hsplit
  have hle : f ≤ m := by
    by_contra hlt
    have : (m + 1) * d ≤ f * d := Nat.mul_le_mul_right d (by omega)
    rw [Nat.add_mul] at this
    rw [Nat.mul_assoc] at hhigh'
    omega
  have hge : m ≤ f + 1 := by
    by_contra hlt
    have : (f + 2) * d ≤ m * d := Nat.mul_le_mul_right d (by omega)
    rw [Nat.add_mul] at this
    rw [Nat.mul_assoc] at hlow'
    omega
  have hcases : m = f ∨ m = f + 1 := by omega
  rw [Nat.mul_assoc] at hlow' hhigh' hodd'
  rcases hcases with rfl | rfl
  · -- The quotient is the number, and the remainder is no more than a half.
    rw [if_neg]
    omega
  · rw [Nat.add_mul] at hlow' hhigh' hodd'
    rw [if_pos]
    omega

/-! ## The interval around a number -/

/-- `m · 2 ^ q` is written the way the format has it: the significand is as long as it can be
    unless the exponent is the least one. -/
structure IsCanonical (m : Nat) (q : Int) : Prop where
  significand : m < 2 ^ 53
  least : leastExponent ≤ q
  greatest : q ≤ greatestExponent
  normal : leastExponent < q → 2 ^ 52 ≤ m

/-- The rational number lies between the ends of the numbers that round to `m · 2 ^ q`; the ends
    count for an even significand. -/
structure RoundsTo (m : Nat) (q : Int) (x : ℚ) : Prop where
  low : (roundingEnds m q).1 * (2 : ℚ) ^ (q - 2) ≤ x
  high : x ≤ (roundingEnds m q).2 * (2 : ℚ) ^ (q - 2)
  odd : m % 2 = 1 →
    (roundingEnds m q).1 * (2 : ℚ) ^ (q - 2) < x ∧ x < (roundingEnds m q).2 * (2 : ℚ) ^ (q - 2)

theorem two_zpow_sub_two (q : Int) : (2 : ℚ) ^ (q - 2) = 2 ^ q / 4 := by
  rw [zpow_sub₀ (by norm_num)]
  norm_num

theorem roundingEnds_spec (m : Nat) (q : Int) :
    4 * m ≤ (roundingEnds m q).1 + 2 ∧ (0 < m → (roundingEnds m q).1 + 1 ≤ 4 * m) ∧
      (roundingEnds m q).2 = 4 * m + 2 := by
  unfold roundingEnds
  split
  · exact ⟨by show 4 * m ≤ 4 * m - 1 + 2; omega, fun _ => by show 4 * m - 1 + 1 ≤ 4 * m; omega, rfl⟩
  · exact ⟨by show 4 * m ≤ 4 * m - 2 + 2; omega, fun _ => by show 4 * m - 2 + 1 ≤ 4 * m; omega, rfl⟩

/-- The interval reaches half a step to each side at most. -/
theorem RoundsTo.near {m : Nat} {q : Int} {x : ℚ} (h : RoundsTo m q x) :
    ((m : ℚ) - 1 / 2 ≤ x / 2 ^ q ∧ x / 2 ^ q ≤ m + 1 / 2) ∧
      (m % 2 = 1 → (m : ℚ) - 1 / 2 < x / 2 ^ q ∧ x / 2 ^ q < m + 1 / 2) := by
  have hpos : (0 : ℚ) < 2 ^ q := zpow_pos (by norm_num) q
  obtain ⟨hlow, -, hhigh⟩ := roundingEnds_spec m q
  have hlow : (4 * m : ℚ) ≤ (roundingEnds m q).1 + 2 := by exact_mod_cast hlow
  have hlow : (4 * m - 2 : ℚ) ≤ (roundingEnds m q).1 := by linarith
  have hhigh : ((roundingEnds m q).2 : ℚ) = 4 * m + 2 := by exact_mod_cast hhigh
  obtain ⟨h1, h2, h3⟩ := h
  rw [two_zpow_sub_two, hhigh] at *
  have hends : (4 * m - 2 : ℚ) * (2 ^ q / 4) ≤ (roundingEnds m q).1 * (2 ^ q / 4) :=
    mul_le_mul_of_nonneg_right hlow (by linarith)
  rw [le_div_iff₀ hpos, div_le_iff₀ hpos, lt_div_iff₀ hpos, div_lt_iff₀ hpos]
  refine ⟨⟨by linarith, by linarith⟩, fun hodd => ?_⟩
  obtain ⟨h4, h5⟩ := h3 hodd
  exact ⟨by linarith, by linarith⟩

/-- Below a power of two the interval reaches a quarter of a step only. -/
theorem RoundsTo.near_power {q : Int} {x : ℚ} (h : RoundsTo (2 ^ 52) q x)
    (hq : leastExponent < q) : (2 : ℚ) ^ 52 - 1 / 4 ≤ x / 2 ^ q := by
  have hpos : (0 : ℚ) < 2 ^ q := zpow_pos (by norm_num) q
  have hends : roundingEnds (2 ^ 52) q = (4 * 2 ^ 52 - 1, 4 * 2 ^ 52 + 2) := if_pos ⟨rfl, hq⟩
  have hlow := h.low
  rw [hends, two_zpow_sub_two] at hlow
  rw [le_div_iff₀ hpos]
  norm_num at hlow ⊢
  linarith

theorem IsCanonical.lt_of_roundsTo {m : Nat} {q : Int} (hc : IsCanonical m q) {x : ℚ}
    (h : RoundsTo m q x) : x / 2 ^ q < 2 ^ 53 := by
  have hm : (m : ℚ) + 1 ≤ 2 ^ 53 := by exact_mod_cast hc.significand
  linarith [h.near.1.2]

/-- A positive number is at least half a step of the finest grid. -/
theorem RoundsTo.le {m : Nat} {q : Int} (hm : 0 < m) {x : ℚ} (h : RoundsTo m q x) :
    1 / 2 ≤ x / 2 ^ q := by
  have hm' : (1 : ℚ) ≤ m := by exact_mod_cast hm
  linarith [h.near.1.1]

/-! ## Rounding ratios -/

/-- The exponent that a ratio is rounded at. -/
def gridOf (n d : Nat) : Int := max (floorLog2 n d - 52) leastExponent

/-- A ratio in the interval of a number is rounded at the exponent of the number.  Only a ratio
    just below a power of two is rounded at the exponent before it. -/
theorem gridOf_of_roundsTo {m : Nat} {q : Int} (hc : IsCanonical m q) {n d : Nat} (hn : 0 < n)
    (hd : 0 < d) (h : RoundsTo m q (n / d)) :
    gridOf n d = q ∨ gridOf n d = q - 1 ∧ m = 2 ^ 52 ∧ leastExponent < q ∧
      (n : ℚ) / d / 2 ^ q < 2 ^ 52 := by
  have hpos : (0 : ℚ) < 2 ^ q := zpow_pos (by norm_num) q
  have hpow : ∀ {a b : ℤ}, (2 : ℚ) ^ a < 2 ^ b → a < b := fun h =>
    (zpow_lt_zpow_iff_right₀ (by norm_num)).1 h
  have hscale : ∀ a : ℤ, (2 : ℚ) ^ (q + a) = 2 ^ a * 2 ^ q := fun a => by
    rw [zpow_add₀ (by norm_num), mul_comm]
  obtain ⟨hexp1, hexp2⟩ := floorLog2_spec hn hd
  unfold gridOf
  set e := floorLog2 n d
  set x : ℚ := n / d
  -- The exponent of the ratio is at most that of the number, as the interval ends below the next.
  have hupper : e < q + 53 := by
    refine hpow (hexp1.trans_lt ?_)
    rw [hscale]
    exact_mod_cast (div_lt_iff₀ hpos).1 (hc.lt_of_roundsTo h)
  rcases lt_or_ge (max (e - 52) leastExponent) q with hlt | hge
  -- The ratio is just below the number, which the interval allows for powers of two only.
  · have hq : leastExponent < q := by omega
    have hx : x / 2 ^ q < 2 ^ 52 := by
      rw [div_lt_iff₀ hpos]
      refine hexp2.trans_le ?_
      have : (2 : ℚ) ^ (e + 1) ≤ 2 ^ (q + 52) := zpow_le_zpow_right₀ (by norm_num) (by omega)
      rw [hscale] at this
      exact_mod_cast this
    have hm : m = 2 ^ 52 := by
      have hle := h.near.1.1
      have hlt : (m : ℚ) < ((2 ^ 52 + 1 : ℕ) : ℚ) := by
        push_cast
        linarith
      have hlt : m < 2 ^ 52 + 1 := by exact_mod_cast hlt
      exact le_antisymm (Nat.lt_succ_iff.1 hlt) (hc.normal hq)
    subst hm
    have hlower : q + 51 < e + 1 := by
      refine hpow (lt_of_lt_of_le ?_ hexp2.le)
      refine lt_of_lt_of_le ?_ ((le_div_iff₀ hpos).1 (h.near_power hq))
      rw [hscale]
      refine mul_lt_mul_of_pos_right ?_ hpos
      norm_num
    exact Or.inr ⟨by omega, rfl, hq, hx⟩
  · have := hc.least
    exact Or.inl (by omega)

theorem ofRatio_eq_of_roundDiv {n d m : Nat} {q : Int} (hn : 0 < n) (hgrid : gridOf n d = q)
    (hm : roundDiv (unscale 2 q n d).1 (unscale 2 q n d).2 = m) (negative : Bool) :
    ofRatio negative n d =
      if m = Nat.pow 2 53 then
        if greatestExponent < q + 1 then .infinite negative
        else .finite negative (Nat.pow 2 52) (q + 1)
      else if greatestExponent < q then .infinite negative else .finite negative m q := by
  rw [ofRatio, if_neg hn.ne']
  change max (floorLog2 n d - 52) leastExponent = q at hgrid
  simp only [hgrid, hm]
  by_cases h : m = Nat.pow 2 53
  · simp only [if_pos h]
  · simp only [if_neg h]

/-- A ratio in the interval of a number is rounded to that number. -/
theorem ofRatio_eq {m : Nat} {q : Int} (hc : IsCanonical m q) (hm : 0 < m) {n d : Nat}
    (hd : 0 < d) (h : RoundsTo m q (n / d)) (negative : Bool) :
    ofRatio negative n d = .finite negative m q := by
  have hn : 0 < n := by
    rcases Nat.eq_zero_or_pos n with rfl | hn
    · have := h.le hm
      norm_num at this
    · exact hn
  have hgreatest : ¬greatestExponent < q := not_lt.2 hc.greatest
  rcases gridOf_of_roundsTo hc hn hd h with hgrid | ⟨hgrid, rfl, hq, hx⟩
  · obtain ⟨⟨hlow, hhigh⟩, hodd⟩ := h.near
    obtain ⟨hden, hvalue⟩ := unscale_spec 2 (by decide) q n hd
    have hround : roundDiv (unscale 2 q n d).1 (unscale 2 q n d).2 = m := by
      apply roundDiv_eq hden
      · rw [hvalue]
        exact hlow
      · rw [hvalue]
        exact hhigh
      · rw [hvalue]
        exact hodd
    have hne : m ≠ Nat.pow 2 53 := Nat.ne_of_lt hc.significand
    rw [ofRatio_eq_of_roundDiv hn hgrid hround, if_neg hne, if_neg hgreatest]
  · -- On the finer grid the ratio is rounded up to the power of two.
    have hnear := h.near_power hq
    obtain ⟨hden, hvalue⟩ := unscale_spec 2 (by decide) (q - 1) n hd
    have hscaled : (n : ℚ) / d / 2 ^ (q - 1) = 2 * (n / d / 2 ^ q) := by
      rw [zpow_sub₀ (by norm_num)]
      field_simp
    have hround : roundDiv (unscale 2 (q - 1) n d).1 (unscale 2 (q - 1) n d).2 = Nat.pow 2 53 := by
      show _ = 2 ^ 53
      apply roundDiv_eq hden
      · rw [hvalue]
        push_cast
        rw [hscaled]
        linarith
      · rw [hvalue]
        push_cast
        rw [hscaled]
        linarith
      · intro hodd
        norm_num at hodd
    rw [ofRatio_eq_of_roundDiv hn hgrid hround, if_pos rfl, sub_add_cancel, if_neg hgreatest]
    rfl

/-! ## Rounding decimals -/

/-- The number of digits of a decimal says where it lies between the powers of ten. -/
theorem length_toDigits_spec {n : Nat} (hn : 0 < n) :
    10 ^ ((Nat.toDigits 10 n).length - 1) ≤ n ∧ n < 10 ^ (Nat.toDigits 10 n).length ∧
      0 < (Nat.toDigits 10 n).length := by
  have hlength : 0 < (Nat.toDigits 10 n).length := by
    rw [List.length_pos_iff]
    simp
  refine ⟨?_, (Nat.length_toDigits_le_iff (by decide) hlength).1 le_rfl, hlength⟩
  rcases Nat.lt_or_ge 1 (Nat.toDigits 10 n).length with h | h
  · by_contra hlt
    have := (Nat.length_toDigits_le_iff (b := 10) (by decide) (by omega)).2 (not_le.1 hlt)
    omega
  · rw [Nat.sub_eq_zero_of_le h]
    exact hn

theorem two_zpow_le_ten_zpow {a b : Int} (hb : 0 ≤ b) (h : a ≤ 3 * b) :
    (2 : ℚ) ^ a ≤ 10 ^ b := by
  calc (2 : ℚ) ^ a ≤ 2 ^ (3 * b) := zpow_le_zpow_right₀ (by norm_num) h
    _ = (2 ^ (3 : ℤ)) ^ b := zpow_mul 2 3 b
    _ ≤ 10 ^ b := zpow_le_zpow_left₀ hb (by norm_num) (by norm_num)

/-- A decimal in the interval of a number is rounded to that number. -/
theorem ofDecimal_eq {m : Nat} {q : Int} (hc : IsCanonical m q) (hm : 0 < m) {digits : Nat}
    {e : Int} (h : RoundsTo m q (digits * (10 : ℚ) ^ e)) (negative : Bool) :
    ofDecimal negative digits e = .finite negative m q := by
  have hdigits : 0 < digits := by
    rcases Nat.eq_zero_or_pos digits with rfl | hdigits
    · have := h.le hm
      norm_num at this
    · exact hdigits
  have hpos : (0 : ℚ) < 2 ^ q := zpow_pos (by norm_num) q
  have hten : ∀ a b : ℤ, (10 : ℚ) ^ (a + b) = 10 ^ a * 10 ^ b := zpow_add₀ (by norm_num)
  have htenpos : (0 : ℚ) < 10 ^ e := zpow_pos (by norm_num) e
  -- Neither shortcut for powers of ten beyond the range is taken.
  have hx1 : (2 : ℚ) ^ (-1075 : ℤ) ≤ digits * 10 ^ e := by
    have hhalf := (le_div_iff₀ hpos).1 (h.le hm)
    refine le_trans ?_ hhalf
    calc (2 : ℚ) ^ (-1075 : ℤ) = 1 / 2 * 2 ^ leastExponent := by
          rw [show (-1075 : ℤ) = leastExponent - 1 from rfl, zpow_sub₀ (by norm_num)]
          ring
      _ ≤ 1 / 2 * 2 ^ q :=
          mul_le_mul_of_nonneg_left (zpow_le_zpow_right₀ (by norm_num) hc.least) (by norm_num)
  have hx2 : digits * (10 : ℚ) ^ e < 2 ^ (1024 : ℤ) := by
    have hlt := (div_lt_iff₀ hpos).1 (hc.lt_of_roundsTo h)
    refine hlt.trans_le ?_
    calc (2 : ℚ) ^ 53 * 2 ^ q = 2 ^ (53 + q) := by
          rw [zpow_add₀ (by norm_num)]
          rfl
      _ ≤ 2 ^ (1024 : ℤ) := by
          refine zpow_le_zpow_right₀ (by norm_num) ?_
          have := hc.greatest
          unfold greatestExponent at this
          omega
  obtain ⟨hlen1, hlen2, hlen⟩ := length_toDigits_spec hdigits
  set len := (Nat.toDigits 10 digits).length with hlendef
  have hsmall : ¬400 < e + len := by
    intro hlt
    have hle : (10 : ℚ) ^ (400 : ℤ) ≤ digits * 10 ^ e := by
      calc (10 : ℚ) ^ (400 : ℤ) ≤ 10 ^ ((len - 1 : ℕ) + e) :=
            zpow_le_zpow_right₀ (by norm_num) (by omega)
        _ = 10 ^ (len - 1) * 10 ^ e := by rw [hten, zpow_natCast]
        _ ≤ digits * 10 ^ e :=
            mul_le_mul_of_nonneg_right (by exact_mod_cast hlen1) htenpos.le
    have hpowers : (2 : ℚ) ^ (1024 : ℤ) ≤ 10 ^ (400 : ℤ) :=
      two_zpow_le_ten_zpow (by norm_num) (by norm_num)
    exact absurd hx2 (not_lt.2 (hpowers.trans hle))
  have hlarge : ¬e + len < -400 := by
    intro hlt
    have hle : digits * (10 : ℚ) ^ e ≤ 10 ^ (-401 : ℤ) := by
      calc digits * (10 : ℚ) ^ e ≤ 10 ^ len * 10 ^ e :=
            mul_le_mul_of_nonneg_right (by exact_mod_cast hlen2.le) htenpos.le
        _ = 10 ^ (len + e) := by rw [hten, zpow_natCast]
        _ ≤ 10 ^ (-401 : ℤ) := zpow_le_zpow_right₀ (by norm_num) (by omega)
    have hpowers : (10 : ℚ) ^ (-401 : ℤ) < 2 ^ (-1075 : ℤ) := by
      refine (zpow_lt_zpow_right₀ (by norm_num) (by norm_num : (-401 : ℤ) < -400)).trans_le ?_
      rw [zpow_neg, zpow_neg]
      exact inv_anti₀ (zpow_pos (by norm_num) _)
        (two_zpow_le_ten_zpow (by norm_num) (by norm_num))
    exact absurd hx1 (not_le.2 (hle.trans_lt hpowers))
  obtain ⟨hden, hvalue⟩ := unscale_spec 10 (by decide) (-e) digits (d := 1) (by decide)
  have hratio : ((unscale 10 (-e) digits 1).1 : ℚ) / (unscale 10 (-e) digits 1).2 =
      digits * 10 ^ e := by
    rw [hvalue, zpow_neg]
    push_cast
    rw [div_one, div_inv_eq_mul]
  have hround := ofRatio_eq hc hm hden (by rw [hratio]; exact h) negative
  rw [ofDecimal, if_neg hdigits.ne']
  show (if 400 < e + (len : ℤ) then _ else if e + (len : ℤ) < -400 then _ else _) = _
  rw [if_neg hsmall, if_neg hlarge]
  exact hround

end IdlBridge.Binary64
