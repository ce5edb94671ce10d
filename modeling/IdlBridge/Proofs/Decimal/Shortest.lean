import IdlBridge.Proofs.Decimal.Digits
import IdlBridge.Proofs.Decimal.Rounding

/-! # The shortest decimal reads back

    The search for the shortest decimal ends: with seventeen digits the grid of decimals is finer
    than the interval of the number, so one of the two neighbours of the number lies in it.  Every
    decimal that the search comes up with lies in the interval, so it is read as the number.
-/

namespace IdlBridge.Binary64

/-! ## The test for the interval -/

/-- The test of the search is whether the decimal lies in the interval. -/
theorem readsBack_iff {m : Nat} {q : Int} {c : Nat} {j : Int} :
    readsBack m q c j = true ↔ RoundsTo m q (c * (10 : ℚ) ^ j) := by
  have hten : (0 : ℚ) < 10 ^ j := zpow_pos (by norm_num) j
  obtain ⟨hd₀, hvalue₀⟩ := unscale_spec 2 (by decide) (2 - q) 1 (d := 1) (by decide)
  obtain ⟨hd, hvalue⟩ := unscale_spec 10 (by decide) j (unscale 2 (2 - q) 1 1).1 hd₀
  have hstep : (1 : ℚ) / ((1 : ℕ) : ℚ) / 2 ^ (2 - q) = 2 ^ (q - 2) := by
    rw [show 2 - q = -(q - 2) by omega, zpow_neg]
    simp
  set n := (unscale 10 j (unscale 2 (2 - q) 1 1).1 (unscale 2 (2 - q) 1 1).2).1
  set d := (unscale 10 j (unscale 2 (2 - q) 1 1).1 (unscale 2 (2 - q) 1 1).2).2
  have hd' : (0 : ℚ) < d := by exact_mod_cast hd
  have hratio : (n : ℚ) / d * 10 ^ j = 2 ^ (q - 2) := by
    rw [hvalue, hvalue₀]
    push_cast at hstep ⊢
    rw [hstep]
    field_simp
  have hn : (n : ℚ) * 10 ^ j = 2 ^ (q - 2) * d := by
    rw [← hratio]
    field_simp
  -- The test compares the ends with cross products, so no division is left.
  have hle : ∀ a : ℕ, a * n ≤ c * d ↔ (a : ℚ) * 2 ^ (q - 2) ≤ c * 10 ^ j := by
    intro a
    rw [← Nat.cast_le (α := ℚ), ← mul_le_mul_iff_of_pos_right hten,
      ← mul_le_mul_iff_of_pos_right (b := (a : ℚ) * 2 ^ (q - 2)) hd']
    push_cast
    rw [mul_assoc, hn, mul_right_comm (c : ℚ) d, mul_assoc (a : ℚ)]
  have hge : ∀ a : ℕ, c * d ≤ a * n ↔ (c : ℚ) * 10 ^ j ≤ a * 2 ^ (q - 2) := by
    intro a
    rw [← Nat.cast_le (α := ℚ), ← mul_le_mul_iff_of_pos_right hten,
      ← mul_le_mul_iff_of_pos_right (c := (a : ℚ) * 2 ^ (q - 2)) hd']
    push_cast
    rw [mul_assoc (a : ℚ), hn, mul_right_comm (c : ℚ) d, mul_assoc (a : ℚ)]
  have hdef : readsBack m q c j =
      if m % 2 = 0 then
        decide ((roundingEnds m q).1 * n ≤ c * d) && decide (c * d ≤ (roundingEnds m q).2 * n)
      else decide ((roundingEnds m q).1 * n < c * d) && decide (c * d < (roundingEnds m q).2 * n) :=
    rfl
  rw [hdef]
  split
  · next heven =>
    rw [Bool.and_eq_true, decide_eq_true_eq, decide_eq_true_eq, hle, hge]
    exact ⟨fun h => ⟨h.1, h.2, fun hodd => by omega⟩, fun h => ⟨h.low, h.high⟩⟩
  · next hodd =>
    rw [Bool.and_eq_true, decide_eq_true_eq, decide_eq_true_eq, ← not_le, ← not_le, hge, hle,
      not_le, not_le]
    exact ⟨fun h => ⟨h.1.le, h.2.le, fun _ => h⟩, fun h => h.odd (by omega)⟩

variable {m : Nat} {q : Int} {x : ℚ}

/-- What is less than half a step above a number rounds to it. -/
theorem roundsTo_above (hm : 0 < m) (hlow : m * (2 : ℚ) ^ q ≤ x)
    (hhigh : x < m * 2 ^ q + 2 ^ q / 2) : RoundsTo m q x := by
  have hpos : (0 : ℚ) < 2 ^ q := zpow_pos (by norm_num) q
  obtain ⟨-, hlow', hhigh'⟩ := roundingEnds_spec m q
  have hends1 : ((roundingEnds m q).1 : ℚ) + 1 ≤ 4 * m := by exact_mod_cast hlow' hm
  have hends2 : ((roundingEnds m q).2 : ℚ) = 4 * m + 2 := by exact_mod_cast hhigh'
  have h1 : (roundingEnds m q).1 * (2 : ℚ) ^ (q - 2) < x := by
    have := mul_le_mul_of_nonneg_right hends1 hpos.le
    rw [two_zpow_sub_two]
    linarith
  have h2 : x < (roundingEnds m q).2 * (2 : ℚ) ^ (q - 2) := by
    rw [two_zpow_sub_two, hends2]
    linarith
  exact ⟨h1.le, h2.le, fun _ => ⟨h1, h2⟩⟩

/-- What is less than half a step below a number that is no power of two rounds to it. -/
theorem roundsTo_below (hm : 0 < m) (hwide : ¬(m = Nat.pow 2 52 ∧ leastExponent < q))
    (hlow : m * (2 : ℚ) ^ q - 2 ^ q / 2 < x) (hhigh : x ≤ m * 2 ^ q) : RoundsTo m q x := by
  have hpos : (0 : ℚ) < 2 ^ q := zpow_pos (by norm_num) q
  have hends : roundingEnds m q = (4 * m - 2, 4 * m + 2) := if_neg hwide
  have hcast : ((4 * m - 2 : ℕ) : ℚ) = 4 * m - 2 := by
    rw [Nat.cast_sub (by omega)]
    push_cast
    rfl
  have h1 : (roundingEnds m q).1 * (2 : ℚ) ^ (q - 2) < x := by
    rw [two_zpow_sub_two, hends, hcast]
    linarith
  have h2 : x < (roundingEnds m q).2 * (2 : ℚ) ^ (q - 2) := by
    rw [two_zpow_sub_two, hends]
    push_cast
    linarith
  exact ⟨h1.le, h2.le, fun _ => ⟨h1, h2⟩⟩

/-! ## The search -/

/-- What is found on a grid lies in the interval. -/
theorem readsBack_of_nearestOnGrid? {j : Int} {c : Nat} (h : nearestOnGrid? m q j = some c) :
    readsBack m q c j = true := by
  unfold nearestOnGrid? at h
  simp only at h
  split at h
  · next hlow hhigh =>
    split at h <;> cases h
    · exact (Bool.and_eq_true_iff.1 hhigh).2
    · exact hlow
  · next hlow hhigh =>
    cases h
    exact hlow
  · next hlow hhigh =>
    cases h
    exact (Bool.and_eq_true_iff.1 hhigh).2
  · cases h

/-- What the search on a grid looks at, for the ratio on that grid. -/
theorem nearestOnGrid?_eq {j : Int} {n d : Nat}
    (hn : n = (unscale 10 j (unscale 2 (-q) m 1).1 (unscale 2 (-q) m 1).2).1)
    (hd : d = (unscale 10 j (unscale 2 (-q) m 1).1 (unscale 2 (-q) m 1).2).2) :
    nearestOnGrid? m q j =
      match readsBack m q (n / d) j, n % d != 0 && readsBack m q (n / d + 1) j with
      | true, true =>
        some (if d < 2 * (n % d) ∨ (2 * (n % d) = d ∧ n / d % 2 = 1) then n / d + 1 else n / d)
      | true, false => some (n / d)
      | false, true => some (n / d + 1)
      | false, false => none := by
  subst hn hd
  rfl

/-- The number on a grid, as a ratio. -/
theorem unscale_grid (m : Nat) (q j : Int) :
    let a := unscale 2 (-q) m 1
    0 < (unscale 10 j a.1 a.2).2 ∧
      ((unscale 10 j a.1 a.2).1 : ℚ) / (unscale 10 j a.1 a.2).2 * 10 ^ j = m * 2 ^ q := by
  obtain ⟨hd₀, hvalue₀⟩ := unscale_spec 2 (by decide) (-q) m (d := 1) (by decide)
  obtain ⟨hd, hvalue⟩ := unscale_spec 10 (by decide) j (unscale 2 (-q) m 1).1 hd₀
  have hten : (10 : ℚ) ^ j ≠ 0 := (zpow_pos (by norm_num) j).ne'
  refine ⟨hd, ?_⟩
  rw [hvalue, hvalue₀, zpow_neg, Nat.cast_one, div_one, Nat.cast_ofNat, Nat.cast_ofNat,
    div_inv_eq_mul, div_mul_cancel₀ _ hten]

/-- A ratio on a grid lies between two neighbours, and on the lower one if nothing remains. -/
theorem grid_neighbours {n d : Nat} (hd : 0 < d) {j : Int} {v : ℚ} (hv : (n : ℚ) / d * 10 ^ j = v) :
    ((n / d : ℕ) : ℚ) * 10 ^ j ≤ v ∧ v < ((n / d + 1 : ℕ) : ℚ) * 10 ^ j ∧
      (n % d = 0 → ((n / d : ℕ) : ℚ) * 10 ^ j = v) := by
  have hten : (0 : ℚ) < 10 ^ j := zpow_pos (by norm_num) j
  have hd' : (0 : ℚ) < d := by exact_mod_cast hd
  have hlow : ((n / d : ℕ) : ℚ) ≤ n / d := by
    rw [le_div_iff₀ hd']
    exact_mod_cast Nat.div_mul_le_self n d
  have hhigh : (n : ℚ) / d < (n / d + 1 : ℕ) := by
    rw [div_lt_iff₀ hd', mul_comm]
    exact_mod_cast Nat.lt_mul_div_succ n hd
  rw [← hv]
  refine ⟨mul_le_mul_of_nonneg_right hlow hten.le, mul_lt_mul_of_pos_right hhigh hten,
    fun hzero => ?_⟩
  congr 1
  rw [eq_div_iff hd'.ne']
  exact_mod_cast Nat.div_mul_cancel (Nat.dvd_of_mod_eq_zero hzero)

/-- On a grid of seventeen digits one of the two neighbours of the number lies in the interval. -/
theorem readsBack_neighbour (hc : IsCanonical m q) (hm : 0 < m) {j : Int} {c : Nat}
    (hj : (10 : ℚ) ^ 16 * 10 ^ j ≤ m * 2 ^ q) (hlow : (c : ℚ) * 10 ^ j ≤ m * 2 ^ q)
    (hhigh : m * 2 ^ q < ((c + 1 : ℕ) : ℚ) * 10 ^ j) :
    readsBack m q c j = true ∨ readsBack m q (c + 1) j = true := by
  have hpos : (0 : ℚ) < 2 ^ q := zpow_pos (by norm_num) q
  have hup : ((c + 1 : ℕ) : ℚ) * 10 ^ j < m * 2 ^ q + 2 ^ q / 2 → readsBack m q (c + 1) j = true :=
    fun h => readsBack_iff.2 (roundsTo_above hm hhigh.le h)
  rw [Nat.cast_add, Nat.cast_one, add_one_mul] at hup
  by_cases hpower : m = Nat.pow 2 52 ∧ leastExponent < q
  · -- Just above a power of two the step is less than half the distance to the next number.
    have hm52 : (m : ℚ) = 2 ^ 52 := by
      rw [hpower.1]
      norm_num
    rw [hm52] at hj hlow hup
    norm_num at hj hlow hup
    exact .inr (hup (by linarith))
  · -- The nearer one of the neighbours is less than half a step away.
    have hm53 : (m : ℚ) * 2 ^ q ≤ 2 ^ 53 * 2 ^ q := by
      refine mul_le_mul_of_nonneg_right ?_ hpos.le
      exact_mod_cast hc.significand.le
    norm_num at hj hm53
    rcases le_or_gt (2 * (m * (2 : ℚ) ^ q - c * 10 ^ j)) (10 ^ j) with hnear | hnear
    · exact .inl (readsBack_iff.2 (roundsTo_below hm hpower (by linarith) hlow))
    · exact .inr (hup (by linarith))

/-- On a grid of seventeen digits there is a decimal in the interval. -/
theorem exists_nearestOnGrid? (hc : IsCanonical m q) (hm : 0 < m) {j : Int}
    (hj : (10 : ℚ) ^ 16 * 10 ^ j ≤ m * 2 ^ q) : ∃ c, nearestOnGrid? m q j = some c := by
  obtain ⟨hd, hv⟩ := unscale_grid m q j
  rw [nearestOnGrid?_eq rfl rfl]
  generalize (unscale 10 j (unscale 2 (-q) m 1).1 (unscale 2 (-q) m 1).2).1 = n at hv ⊢
  generalize (unscale 10 j (unscale 2 (-q) m 1).1 (unscale 2 (-q) m 1).2).2 = d at hd hv ⊢
  obtain ⟨hlow, hhigh, hexact⟩ := grid_neighbours hd hv
  have hfits : readsBack m q (n / d) j = true ∨
      (n % d != 0 && readsBack m q (n / d + 1) j) = true := by
    -- Without a remainder there is no neighbour above, but then the number itself is on the grid.
    by_cases hzero : n % d = 0
    · have hpos : (0 : ℚ) < 2 ^ q := zpow_pos (by norm_num) q
      rw [readsBack_iff, hexact hzero]
      exact .inl (roundsTo_above hm le_rfl (by linarith))
    · rw [Bool.and_eq_true, bne_iff_ne]
      exact (readsBack_neighbour hc hm hj hlow hhigh).imp_right fun h => ⟨hzero, h⟩
  rcases hfits with h | h
  · rw [h]
    cases n % d != 0 && readsBack m q (n / d + 1) j with
    | true => exact ⟨_, rfl⟩
    | false => exact ⟨_, rfl⟩
  · rw [h]
    cases readsBack m q (n / d) j with
    | true => exact ⟨_, rfl⟩
    | false => exact ⟨_, rfl⟩

/-- Whatever grids the search goes through, it comes up with a decimal in the interval. -/
theorem readsBack_searchGrids (hc : IsCanonical m q) (hm : 0 < m) {k : Int}
    (hk : (10 : ℚ) ^ k ≤ m * 2 ^ q) (more : Nat) :
    readsBack m q (searchGrids m q k more).1 (searchGrids m q k more).2 = true := by
  induction more with
  | zero =>
    have hj : (10 : ℚ) ^ 16 * 10 ^ (k - 16) ≤ m * 2 ^ q := by
      refine le_trans (le_of_eq ?_) hk
      rw [← zpow_natCast, ← zpow_add₀ (by norm_num)]
      congr 1
      omega
    obtain ⟨c, hgrid⟩ := exists_nearestOnGrid? hc hm hj
    rw [searchGrids, hgrid]
    exact readsBack_of_nearestOnGrid? hgrid
  | succ more ih =>
    rw [searchGrids]
    split
    · next c hgrid => exact readsBack_of_nearestOnGrid? hgrid
    · exact ih

/-! ## The first digit -/

/-- The factor of the guess is just above the decimal logarithm of two. -/
theorem two_pow_le_ten_pow : 2 ^ 100000 ≤ 10 ^ 30103 ∧ 10 ^ 30103 ≤ 10 * 2 ^ 100000 := by
  decide +kernel

/-- The guess for a power of two is not too high by more than one. -/
theorem ten_pow_guess_le {n : Nat} (hn : n ≤ 100000) : 10 ^ (n * 30103 / 100000) ≤ 10 * 2 ^ n := by
  have hsmall : 10 ^ n ≤ 10 ^ 100000 := by
    gcongr
    decide
  -- Raised to this power, both sides have whole exponents of the powers that were compared.
  refine (Nat.pow_le_pow_iff_left (n := 100000) (by decide)).1 ?_
  calc (10 ^ (n * 30103 / 100000)) ^ 100000
      = 10 ^ (n * 30103 / 100000 * 100000) := (pow_mul _ _ _).symm
    _ ≤ 10 ^ (30103 * n) := Nat.pow_le_pow_right (by decide) (by omega)
    _ = (10 ^ 30103) ^ n := pow_mul _ _ _
    _ ≤ (10 * 2 ^ 100000) ^ n := Nat.pow_le_pow_left two_pow_le_ten_pow.2 n
    _ = 10 ^ n * (2 ^ n) ^ 100000 := by rw [mul_pow, pow_right_comm]
    _ ≤ 10 ^ 100000 * (2 ^ n) ^ 100000 := Nat.mul_le_mul_right _ hsmall
    _ = (10 * 2 ^ n) ^ 100000 := by rw [mul_pow]

/-- The guess, rounded up, is not too low for a power of two. -/
theorem two_pow_le_guess (n : Nat) : 2 ^ n ≤ 10 ^ ((n * 30103 + 99999) / 100000) := by
  refine (Nat.pow_le_pow_iff_left (n := 100000) (by decide)).1 ?_
  calc (2 ^ n) ^ 100000 = (2 ^ 100000) ^ n := pow_right_comm _ _ _
    _ ≤ (10 ^ 30103) ^ n := Nat.pow_le_pow_left two_pow_le_ten_pow.1 n
    _ = 10 ^ (30103 * n) := (pow_mul _ _ _).symm
    _ ≤ 10 ^ ((n * 30103 + 99999) / 100000 * 100000) :=
        Nat.pow_le_pow_right (by decide) (by omega)
    _ = (10 ^ ((n * 30103 + 99999) / 100000)) ^ 100000 := pow_mul _ _ _

/-- The exponent that is guessed for the first digit is one too high at most. -/
theorem ten_zpow_guess_le {e : Int} (hgreatest : e < 1024) :
    (10 : ℚ) ^ (e * 30103 / 100000 - 1) ≤ 2 ^ e := by
  cases e with
  | ofNat n =>
    have hsmall : n < 1024 := by simpa using hgreatest
    have hn : (10 : ℚ) ^ (n * 30103 / 100000) ≤ 10 * 2 ^ n := by
      exact_mod_cast ten_pow_guess_le (by omega)
    have hguess : Int.ofNat n * 30103 / 100000 = ((n * 30103 / 100000 : ℕ) : ℤ) := by simp
    rw [hguess, zpow_sub₀ (by norm_num), zpow_natCast, Int.ofNat_eq_natCast, zpow_natCast,
      zpow_one, div_le_iff₀ (by norm_num), mul_comm ((2 : ℚ) ^ n)]
    exact hn
  | negSucc n =>
    have hn : (2 : ℚ) ^ (n + 1) ≤ 10 ^ (((n + 1) * 30103 + 99999) / 100000) := by
      exact_mod_cast two_pow_le_guess (n + 1)
    have hguess : Int.negSucc n * 30103 / 100000 - 1 =
        -((((n + 1) * 30103 + 99999) / 100000 + 1 : ℕ) : ℤ) := by omega
    rw [hguess, zpow_neg, zpow_natCast, zpow_negSucc]
    refine inv_anti₀ (by positivity) (hn.trans ?_)
    exact pow_le_pow_right₀ (by norm_num) (Nat.le_succ _)

theorem ten_zpow_floorLog10_le (hc : IsCanonical m q) (hm : 0 < m) :
    (10 : ℚ) ^ floorLog10 (unscale 2 (-q) m 1).1 (unscale 2 (-q) m 1).2 ≤ m * 2 ^ q := by
  have hpos : (0 : ℚ) < 2 ^ q := zpow_pos (by norm_num) q
  have hpow : ∀ {a b : ℤ}, (2 : ℚ) ^ a < 2 ^ b → a < b := fun h =>
    (zpow_lt_zpow_iff_right₀ (by norm_num)).1 h
  have hm' : (1 : ℚ) ≤ m := by exact_mod_cast hm
  obtain ⟨hd, hvalue⟩ := unscale_spec 2 (by decide) (-q) m (d := 1) (by decide)
  have hv : ((unscale 2 (-q) m 1).1 : ℚ) / (unscale 2 (-q) m 1).2 = m * 2 ^ q := by
    rw [hvalue, zpow_neg]
    push_cast
    field_simp
  set n := (unscale 2 (-q) m 1).1
  set d := (unscale 2 (-q) m 1).2
  have hd' : (0 : ℚ) < d := by exact_mod_cast hd
  have hn : 0 < n := by
    have : (0 : ℚ) < n / d := by
      rw [hv]
      positivity
    have : (0 : ℚ) < n := by
      rwa [lt_div_iff₀ hd', zero_mul] at this
    exact_mod_cast this
  obtain ⟨hexp1, hexp2⟩ := floorLog2_spec hn hd
  rw [hv] at hexp1 hexp2
  have hgreatest : floorLog2 n d < 1024 := by
    refine hpow (hexp1.trans_lt ?_)
    calc (m : ℚ) * 2 ^ q < 2 ^ 53 * 2 ^ q :=
          mul_lt_mul_of_pos_right (by exact_mod_cast hc.significand) hpos
      _ = 2 ^ (53 + q) := by
          rw [zpow_add₀ (by norm_num)]
          rfl
      _ ≤ 2 ^ (1024 : ℤ) := by
          refine zpow_le_zpow_right₀ (by norm_num) ?_
          have := hc.greatest
          unfold greatestExponent at this
          omega
  -- The guess comes from the binary exponent and is corrected by one in either direction.
  set guess := floorLog2 n d * 30103 / 100000 with hguess
  obtain ⟨hgd, hgv⟩ := unscale_grid m q guess
  change 0 < (unscale 10 guess n d).2 at hgd
  change ((unscale 10 guess n d).1 : ℚ) / (unscale 10 guess n d).2 * 10 ^ guess = _ at hgv
  have hgd' : (0 : ℚ) < (unscale 10 guess n d).2 := by exact_mod_cast hgd
  have hten : (0 : ℚ) < 10 ^ guess := zpow_pos (by norm_num) guess
  have hdef : floorLog10 n d =
      if (unscale 10 guess n d).1 < (unscale 10 guess n d).2 then guess - 1
      else if 10 * (unscale 10 guess n d).2 ≤ (unscale 10 guess n d).1 then guess + 1
      else guess := rfl
  rw [hdef]
  split
  · exact (ten_zpow_guess_le hgreatest).trans hexp1
  · next hge =>
    split
    · next hten' =>
      have : (10 : ℚ) ≤ (unscale 10 guess n d).1 / (unscale 10 guess n d).2 := by
        rw [le_div_iff₀ hgd']
        exact_mod_cast hten'
      rw [zpow_add₀ (by norm_num), zpow_one, ← hgv, mul_comm]
      exact mul_le_mul_of_nonneg_right this hten.le
    · have : (1 : ℚ) ≤ (unscale 10 guess n d).1 / (unscale 10 guess n d).2 := by
        rw [one_le_div₀ hgd']
        exact_mod_cast not_lt.1 hge
      rw [← hgv]
      exact le_mul_of_one_le_left hten.le this

/-- The shortest decimal of a number lies in its interval. -/
theorem roundsTo_shortest (hc : IsCanonical m q) (hm : 0 < m) :
    RoundsTo m q ((shortest m q).1 * (10 : ℚ) ^ (shortest m q).2) :=
  readsBack_iff.1 (readsBack_searchGrids hc hm (ten_zpow_floorLog10_le hc hm) 16)

end IdlBridge.Binary64
