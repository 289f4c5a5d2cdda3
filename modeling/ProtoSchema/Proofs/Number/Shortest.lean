import ProtoSchema.Proofs.Number.Rounding

/-! # Shortest decimals read back

The decimal that stands for a number lies in the interval of that number (`shortest_rounds`): a grid
point that the search accepts does so by the test, and on the finest grid the nearest point does,
since there a step is smaller than the last place. -/

namespace ProtoSchema.Binary64

variable {m : Nat} {q p : ℤ}

/-! ### Grids -/

theorem unit_pos (q p : ℤ) : 0 < (Grid.at q p).unit :=
  Nat.mul_pos (Nat.pow_pos (by decide)) (Nat.pow_pos (by decide))

/-- A quarter of the last place in steps of the grid. -/
theorem quarter_div_unit (q p : ℤ) :
    ((Grid.at q p).quarter : ℚ) / (Grid.at q p).unit = 2 ^ (q - 2) / 10 ^ p := by
  rw [zpow_eq_div 2, zpow_eq_div 10, show -(q - 2) = 2 - q by ring]
  simp only [Grid.at, Nat.pow_eq]
  push_cast
  field_simp

theorem mul_quarter_le_iff (a d : Nat) :
    a * (Grid.at q p).quarter ≤ d * (Grid.at q p).unit ↔ (a * 2 ^ (q - 2) : ℚ) ≤ d * 10 ^ p := by
  have hu : (0 : ℚ) < (Grid.at q p).unit := by exact_mod_cast unit_pos q p
  rw [← Nat.cast_le (α := ℚ), Nat.cast_mul, Nat.cast_mul, ← div_le_iff₀ hu, mul_div_assoc,
    quarter_div_unit, ← mul_div_assoc, div_le_iff₀ (ten_zpow_pos p)]

theorem le_mul_quarter_iff (a d : Nat) :
    d * (Grid.at q p).unit ≤ a * (Grid.at q p).quarter ↔ (d * 10 ^ p : ℚ) ≤ a * 2 ^ (q - 2) := by
  have hu : (0 : ℚ) < (Grid.at q p).unit := by exact_mod_cast unit_pos q p
  rw [← Nat.cast_le (α := ℚ), Nat.cast_mul, Nat.cast_mul, ← le_div_iff₀ hu, mul_div_assoc,
    quarter_div_unit, ← mul_div_assoc, le_div_iff₀ (ten_zpow_pos p)]

/-- The test of a grid point. -/
theorem rounds_of_reads {d : Nat} (h : (Grid.at q p).reads m q d = true) :
    Rounds (d * 10 ^ p) m q := by
  unfold Grid.reads at h
  simp only at h
  split at h
  · next heven =>
    rw [Bool.and_eq_true, decide_eq_true_eq, decide_eq_true_eq, mul_quarter_le_iff,
      le_mul_quarter_iff] at h
    exact ⟨h.1, h.2, fun ho => by omega⟩
  · rw [Bool.and_eq_true, decide_eq_true_eq, decide_eq_true_eq, ← not_le, ← not_le,
      le_mul_quarter_iff, mul_quarter_le_iff, not_le, not_le] at h
    exact ⟨h.1.le, h.2.le, fun _ => h⟩

theorem rounds_of_hit {d : Nat} (h : (Grid.at q p).hit m q = some d) :
    Rounds (d * 10 ^ p) m q := by
  unfold Grid.hit at h
  simp only at h
  split at h
  · next h₁ h₂ =>
    cases h
    unfold Grid.nearest
    split
    · exact rounds_of_reads h₁
    · exact rounds_of_reads h₂
  · next h₁ _ =>
    cases h
    exact rounds_of_reads h₁
  · next _ h₂ =>
    cases h
    exact rounds_of_reads h₂
  · cases h

/-! ### The finest grid -/

theorem four_mul_quarter (m : Nat) (q : ℤ) : ((4 * m : Nat) * 2 ^ (q - 2) : ℚ) = m * 2 ^ q := by
  rw [zpow_sub₀ two_ne_zero]
  push_cast
  ring

/-- Does the grid reach up to the number? -/
theorem below_pos_iff : (Grid.at q p).below m ≥ 1 ↔ (10 ^ p : ℚ) ≤ m * 2 ^ q := by
  unfold Grid.below
  rw [ge_iff_le, Nat.one_le_div_iff (unit_pos q p), ← one_mul (Grid.at q p).unit,
    le_mul_quarter_iff, four_mul_quarter, Nat.cast_one, one_mul]

theorem nearest_near (m : Nat) (q p : ℤ) :
    (m * 2 ^ q : ℚ) ≤ (Grid.at q p).nearest m * 10 ^ p + 10 ^ p / 2 ∧
      ((Grid.at q p).nearest m * 10 ^ p : ℚ) ≤ m * 2 ^ q + 10 ^ p / 2 := by
  have hnat : 2 * (4 * m) * (Grid.at q p).quarter ≤
        (2 * (Grid.at q p).nearest m + 1) * (Grid.at q p).unit ∧
      (2 * (Grid.at q p).nearest m) * (Grid.at q p).unit ≤
        2 * (4 * m) * (Grid.at q p).quarter + (Grid.at q p).unit := by
    have hdiv := Nat.div_add_mod (4 * m * (Grid.at q p).quarter) (Grid.at q p).unit
    have hmod := Nat.mod_lt (4 * m * (Grid.at q p).quarter) (unit_pos q p)
    unfold Grid.nearest Grid.below
    generalize 4 * m * (Grid.at q p).quarter / (Grid.at q p).unit = a at *
    generalize 4 * m * (Grid.at q p).quarter % (Grid.at q p).unit = r at *
    generalize (Grid.at q p).unit = u at *
    generalize (Grid.at q p).quarter = k at *
    split
    · constructor <;> nlinarith
    · constructor <;> nlinarith
  have hu : (0 : ℚ) < (Grid.at q p).unit := by exact_mod_cast unit_pos q p
  have h10 := ten_zpow_pos p
  have hk : ((Grid.at q p).quarter : ℚ) = 2 ^ (q - 2) / 10 ^ p * (Grid.at q p).unit := by
    rw [← quarter_div_unit, div_mul_cancel₀ _ hu.ne']
  have hvalue : (4 * m * (2 ^ (q - 2) / 10 ^ p) : ℚ) * 10 ^ p = m * 2 ^ q := by
    rw [mul_assoc, div_mul_cancel₀ _ h10.ne', ← four_mul_quarter]
    push_cast
    ring
  have h₁ : (2 * (4 * m) * (Grid.at q p).quarter : ℚ) ≤
      (2 * (Grid.at q p).nearest m + 1) * (Grid.at q p).unit := by exact_mod_cast hnat.1
  have h₂ : (2 * (Grid.at q p).nearest m * (Grid.at q p).unit : ℚ) ≤
      2 * (4 * m) * (Grid.at q p).quarter + (Grid.at q p).unit := by exact_mod_cast hnat.2
  rw [hk] at h₁ h₂
  generalize (2 ^ (q - 2) / 10 ^ p : ℚ) = s at *
  have h₁ : 4 * m * s ≤ (Grid.at q p).nearest m + 1 / 2 := by
    refine le_of_mul_le_mul_right ?_ hu
    linarith
  have h₂ : ((Grid.at q p).nearest m : ℚ) ≤ 4 * m * s + 1 / 2 := by
    refine le_of_mul_le_mul_right ?_ hu
    linarith
  rw [← hvalue]
  constructor
  · have := mul_le_mul_of_nonneg_right h₁ h10.le
    linarith
  · have := mul_le_mul_of_nonneg_right h₂ h10.le
    linarith

/-! ### The first grid -/

/-- If `a / b` is a little more than the decimal logarithm of 2, an estimate with it, less one, is not too
large. -/
theorem estimate_le_of {a b : ℕ} (hb : 0 < b) (hlow : 2 ^ b ≤ 10 ^ a) (hhigh : 10 ^ a ≤ 10 * 2 ^ b) {e : ℤ}
    (he : e ≤ b) : (10 : ℚ) ^ (e * a / b - 1) ≤ 2 ^ e := by
  have hlow : (2 : ℚ) ^ b ≤ 10 ^ a := by exact_mod_cast hlow
  have hhigh : (10 : ℚ) ^ a ≤ 10 * 2 ^ b := by exact_mod_cast hhigh
  have htwo : (0 : ℚ) < 2 ^ b := by positivity
  have hmore : ((10 : ℚ) ^ a) ^ e ≤ 10 ^ b * (2 ^ b) ^ e := by
    rcases le_total 0 e with hnonneg | hneg
    · calc ((10 : ℚ) ^ a) ^ e ≤ (10 * 2 ^ b) ^ e := zpow_le_zpow_left₀ hnonneg (by positivity) hhigh
        _ = 10 ^ e * (2 ^ b) ^ e := mul_zpow ..
        _ ≤ 10 ^ b * (2 ^ b) ^ e := by
          rw [← zpow_natCast 10 b]
          gcongr
          norm_num
    · calc ((10 : ℚ) ^ a) ^ e ≤ (2 ^ b) ^ e := by
            rw [← neg_neg e, zpow_neg, zpow_neg (2 ^ b : ℚ)]
            exact inv_anti₀ (by positivity) (zpow_le_zpow_left₀ (by omega) (by positivity) hlow)
        _ ≤ 10 ^ b * (2 ^ b) ^ e := le_mul_of_one_le_left (by positivity) (one_le_pow₀ (by norm_num))
  have hdiv : (e * a / b - 1) * b ≤ a * e - b := by
    have := Int.ediv_mul_le (e * a) (b := b) (by omega)
    linarith
  refine (pow_le_pow_iff_left₀ (by positivity) (by positivity) hb.ne').mp ?_
  calc ((10 : ℚ) ^ (e * a / b - 1)) ^ b = 10 ^ ((e * a / b - 1) * b) := by rw [zpow_mul, zpow_natCast]
    _ ≤ 10 ^ (a * e - b : ℤ) := zpow_le_zpow_right₀ (by norm_num) hdiv
    _ = (10 ^ a) ^ e / 10 ^ b := by rw [zpow_sub₀ (by norm_num), zpow_mul, zpow_natCast, zpow_natCast]
    _ ≤ (2 ^ b) ^ e := div_le_of_le_mul₀ (by positivity) (by positivity) (by rwa [mul_comm])
    _ = (2 ^ e) ^ b := by rw [← zpow_natCast, ← zpow_mul, ← zpow_natCast (2 ^ e : ℚ), ← zpow_mul, mul_comm]

/-- The estimate of the decimal exponent of `2 ^ e`, less one, is not too large. -/
theorem estimate_zpow_le {e : ℤ} (he : e ≤ 1023) : (10 : ℚ) ^ (e * 30103 / 100000 - 1) ≤ 2 ^ e :=
  estimate_le_of (by decide) (by decide +kernel : 2 ^ 100000 ≤ 10 ^ 30103) (by decide +kernel) (by omega)
/-- The first grid reaches up to the number. -/
theorem decimalExponent_le (hp : ProperFinite m q) (hm : 0 < m) :
    (10 ^ decimalExponent m q : ℚ) ≤ m * 2 ^ q := by
  unfold decimalExponent
  simp only [decide_eq_true_eq]
  split
  · next h => exact below_pos_iff.mp h
  · split
    · next h => exact below_pos_iff.mp h
    · have hlog : m.log2 ≤ 52 := by
        have := (Nat.log2_lt hm.ne').mpr (show m < 2 ^ 53 from hp.mantissa)
        omega
      have hmost : q ≤ 971 := hp.most
      calc (10 : ℚ) ^ (((m.log2 : ℤ) + q) * 30103 / 100000 - 1) ≤ 2 ^ ((m.log2 : ℤ) + q) :=
            estimate_zpow_le (by omega)
        _ = 2 ^ m.log2 * 2 ^ q := by rw [zpow_add₀ two_ne_zero, zpow_natCast]
        _ ≤ m * 2 ^ q := by
            refine mul_le_mul_of_nonneg_right ?_ (two_zpow_pos q).le
            exact_mod_cast Nat.log2_self_le hm.ne'

/-- The nearest point of the finest grid lies in the interval. -/
theorem rounds_nearest (hp : ProperFinite m q) (hm : 0 < m) :
    Rounds ((Grid.at q (decimalExponent m q - 16)).nearest m * 10 ^ (decimalExponent m q - 16)) m q := by
  obtain ⟨hlow, hhigh⟩ := nearest_near m q (decimalExponent m q - 16)
  have hfirst := decimalExponent_le hp hm
  have hpos := two_zpow_pos q
  have hm₂ : (m : ℚ) < 2 ^ 53 := by
    have : m < 2 ^ 53 := hp.mantissa
    exact_mod_cast this
  have hstep : (10 ^ (decimalExponent m q - 16) : ℚ) * 10 ^ 16 ≤ m * 2 ^ q := by
    refine le_trans (le_of_eq ?_) hfirst
    rw [zpow_sub₀ (by norm_num), show (10 : ℚ) ^ (16 : ℤ) = 10 ^ 16 from zpow_natCast 10 16,
      div_mul_cancel₀ _ (by norm_num)]
  generalize (10 ^ (decimalExponent m q - 16) : ℚ) = step at *
  generalize (((Grid.at q (decimalExponent m q - 16)).nearest m : Nat) : ℚ) = k at *
  -- a step of the grid is smaller than the last place
  have hsmall : step < 2 ^ q := by nlinarith
  have hhigh' : k * step < (interval m q).2.2 * 2 ^ (q - 2) := by
    rw [quarter_mul, interval_high]
    linarith
  have hlow' : (interval m q).1 * 2 ^ (q - 2) < k * step := by
    rw [quarter_mul, interval_low hm]
    split
    · next h =>
      have hmq : (m : ℚ) = 2 ^ 52 := by
        rw [h.1]
        norm_num [mantissaLimit]
      rw [hmq] at hstep hlow ⊢
      linarith
    · linarith
  exact ⟨hlow'.le, hhigh'.le, fun _ => ⟨hlow', hhigh'⟩⟩

/-- What stands for a number lies in its interval. -/
theorem shortest_rounds (hp : ProperFinite m q) (hm : 0 < m) :
    Rounds ((shortest m q).1 * 10 ^ (shortest m q).2) m q := by
  have hfrom : ∀ (more : Nat) (p : ℤ), p - more = decimalExponent m q - 16 →
      Rounds ((shortestFrom m q more p).1 * 10 ^ (shortestFrom m q more p).2) m q := by
    intro more
    induction more with
    | zero =>
      intro p h
      obtain rfl : p = decimalExponent m q - 16 := by omega
      exact rounds_nearest hp hm
    | succ more ih =>
      intro p h
      unfold shortestFrom
      cases hh : (Grid.at q p).hit m q with
      | some d => exact rounds_of_hit hh
      | none => exact ih (p - 1) (by omega)
  exact hfrom 16 _ rfl

end ProtoSchema.Binary64
