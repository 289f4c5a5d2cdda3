import Mathlib.Algebra.Order.Field.Basic
import Mathlib.Algebra.Order.Field.Rat
import Mathlib.Algebra.Order.Field.Power
import Mathlib.Data.Rat.Cast.Order
import Mathlib.Tactic
import ProtoSchema.Number.Shortest

/-! # Rounding to the nearest number

`Rounds x m q` says that the fraction `x` lies in the interval around `m * 2 ^ q` in which that
number is the nearest one, with its ends if `m` is even.  A decimal in the interval is read as that
number (`ofDecimal_of_rounds`), and whatever is read is `Proper`: its mantissa has 53 bits, or its
exponent is the least one. -/

namespace ProtoSchema.Binary64

/-- The form in which numbers are kept. -/
structure ProperFinite (m : Nat) (q : Int) : Prop where
  mantissa : m < mantissaLimit
  least : minExponent ≤ q
  most : q ≤ maxExponent
  normal : q = minExponent ∨ mantissaLimit ≤ 2 * m

def Proper : Binary64 → Prop
  | nan | infinite _ => True
  | finite _ m q => ProperFinite m q

theorem proper_neg {x : Binary64} (h : x.Proper) : x.neg.Proper := by
  cases x <;> exact h

/-! ### Integers -/

/-- The nearest integer; a fraction half way between two belongs to the even one. -/
theorem roundDiv_eq {n d k : Nat} (hd : 0 < d) (hlow : 2 * k * d ≤ 2 * n + d)
    (hhigh : 2 * n ≤ 2 * k * d + d)
    (hodd : k % 2 = 1 → 2 * k * d < 2 * n + d ∧ 2 * n < 2 * k * d + d) : roundDiv n d = k := by
  have hdiv := Nat.div_add_mod n d
  have hmod := Nat.mod_lt n hd
  rw [Nat.mul_assoc, Nat.mul_comm k d] at hlow hhigh hodd
  unfold roundDiv
  generalize n / d = a at *
  generalize n % d = r at *
  have hle : a ≤ k := by
    by_contra h
    have := Nat.mul_le_mul_left d (show k + 1 ≤ a by omega)
    rw [Nat.mul_succ] at this
    omega
  have hge : k ≤ a + 1 := by
    by_contra h
    have := Nat.mul_le_mul_left d (show a + 2 ≤ k by omega)
    rw [Nat.mul_add] at this
    omega
  rcases Nat.lt_or_ge a k with hlt | hge'
  · obtain rfl : k = a + 1 := by omega
    rw [Nat.mul_succ] at hlow hhigh hodd
    have h2 : d ≤ 2 * r := by omega
    rw [if_neg (by omega)]
    split
    · rfl
    · have hr : 2 * r = d := by omega
      rcases Nat.mod_two_eq_zero_or_one a with ha | ha
      · have := (hodd (by omega)).1
        omega
      · omega
  · obtain rfl : a = k := by omega
    have h2 : 2 * r ≤ d := by omega
    split
    · rfl
    · have hr : 2 * r = d := by omega
      rw [if_neg (by omega)]
      rcases Nat.mod_two_eq_zero_or_one a with ha | ha
      · omega
      · have := (hodd ha).2
        omega

theorem div_le_roundDiv (n d : Nat) : n / d ≤ roundDiv n d ∧ roundDiv n d ≤ n / d + 1 := by
  unfold roundDiv
  split
  · omega
  · split <;> omega

/-! ### Powers -/

theorem zpow_eq_div (b : ℚ) (k : ℤ) : b ^ k = b ^ k.toNat / b ^ (-k).toNat := by
  rcases le_total 0 k with h | h
  · rw [show (-k).toNat = 0 by omega, pow_zero, div_one, ← zpow_natCast, Int.toNat_of_nonneg h]
  · rw [show k.toNat = 0 by omega, pow_zero, one_div, ← zpow_natCast, Int.toNat_of_nonneg (by omega),
      zpow_neg, inv_inv]

theorem two_zpow_pos (k : ℤ) : (0 : ℚ) < 2 ^ k := zpow_pos (by norm_num) k

theorem ten_zpow_pos (k : ℤ) : (0 : ℚ) < 10 ^ k := zpow_pos (by norm_num) k

/-- The quotient of two naturals that are scaled by a power of two. -/
theorem scaled_div (n d : Nat) (q : ℤ) :
    ((n * Nat.pow 2 (-q).toNat : Nat) : ℚ) / (d * Nat.pow 2 q.toNat : Nat) = n / d / 2 ^ q := by
  rw [zpow_eq_div]
  push_cast [Nat.pow_eq]
  field_simp

variable {n d m : Nat} {q : ℤ}

theorem le_scaled_iff (hd : 0 < d) (q : ℤ) :
    d * Nat.pow 2 q.toNat ≤ n * Nat.pow 2 (-q).toNat ↔ (2 : ℚ) ^ q ≤ n / d := by
  have hpos : (0 : ℚ) < (d * Nat.pow 2 q.toNat : Nat) := by
    have : 0 < Nat.pow 2 q.toNat := Nat.pow_pos (by decide)
    positivity
  rw [← Nat.cast_le (α := ℚ), ← one_le_div hpos, scaled_div, one_le_div (two_zpow_pos q)]

/-! ### Exponents -/

/-- At its exponent a fraction has a mantissa of 53 bits. -/
theorem exponentOf_spec (hn : 0 < n) (hd : 0 < d) :
    ∃ q : ℤ, exponentOf n d = max q minExponent ∧ (2 : ℚ) ^ (q + 52) ≤ n / d ∧
      (n / d : ℚ) < 2 ^ (q + 53) := by
  have hn₁ : (2 : ℚ) ^ (n.log2 : ℤ) ≤ n := by exact_mod_cast Nat.log2_self_le hn.ne'
  have hn₂ : (n : ℚ) < 2 ^ ((n.log2 : ℤ) + 1) := by exact_mod_cast Nat.lt_log2_self
  have hd₁ : (2 : ℚ) ^ (d.log2 : ℤ) ≤ d := by exact_mod_cast Nat.log2_self_le hd.ne'
  have hd₂ : (d : ℚ) < 2 ^ ((d.log2 : ℤ) + 1) := by exact_mod_cast Nat.lt_log2_self
  have hdpos : (0 : ℚ) < d := by exact_mod_cast hd
  have hlow : (2 : ℚ) ^ ((n.log2 : ℤ) - d.log2 - 1) ≤ n / d := by
    rw [le_div_iff₀ hdpos]
    calc (2 : ℚ) ^ ((n.log2 : ℤ) - d.log2 - 1) * d
        ≤ 2 ^ ((n.log2 : ℤ) - d.log2 - 1) * 2 ^ ((d.log2 : ℤ) + 1) :=
          mul_le_mul_of_nonneg_left hd₂.le (two_zpow_pos _).le
      _ = 2 ^ (n.log2 : ℤ) := by rw [← zpow_add₀ two_ne_zero]; ring_nf
      _ ≤ n := hn₁
  have hhigh : (n / d : ℚ) < 2 ^ ((n.log2 : ℤ) - d.log2 + 1) := by
    rw [div_lt_iff₀ hdpos]
    calc (n : ℚ) < 2 ^ ((n.log2 : ℤ) + 1) := hn₂
      _ = 2 ^ ((n.log2 : ℤ) - d.log2 + 1) * 2 ^ (d.log2 : ℤ) := by
          rw [← zpow_add₀ two_ne_zero]; ring_nf
      _ ≤ 2 ^ ((n.log2 : ℤ) - d.log2 + 1) * d :=
          mul_le_mul_of_nonneg_left hd₁ (two_zpow_pos _).le
  simp only [exponentOf, le_scaled_iff hd]
  split
  · next h =>
    refine ⟨_, rfl, ?_, ?_⟩
    · rwa [sub_add_cancel]
    · rwa [show (n.log2 : ℤ) - d.log2 - 52 + 53 = n.log2 - d.log2 + 1 by ring]
  · next h =>
    refine ⟨_, rfl, ?_, ?_⟩
    · rwa [show (n.log2 : ℤ) - d.log2 - 53 + 52 = n.log2 - d.log2 - 1 by ring]
    · rw [sub_add_cancel]
      exact not_le.mp h

/-! ### The nearest number -/

/-- The fraction lies in the interval of `m * 2 ^ q`, and not at its ends if `m` is odd. -/
structure Rounds (x : ℚ) (m : Nat) (q : ℤ) : Prop where
  low : (interval m q).1 * 2 ^ (q - 2) ≤ x
  high : x ≤ (interval m q).2.2 * 2 ^ (q - 2)
  odd : m % 2 = 1 → (interval m q).1 * 2 ^ (q - 2) < x ∧ x < (interval m q).2.2 * 2 ^ (q - 2)

theorem roundDiv_of_near (hd : 0 < d) (hlow : (m : ℚ) - 1 / 2 ≤ n / d) (hhigh : (n / d : ℚ) ≤ m + 1 / 2)
    (hodd : m % 2 = 1 → (m : ℚ) - 1 / 2 < n / d ∧ (n / d : ℚ) < m + 1 / 2) : roundDiv n d = m := by
  have hdpos : (0 : ℚ) < d := by exact_mod_cast hd
  rw [le_div_iff₀ hdpos] at hlow
  rw [div_le_iff₀ hdpos] at hhigh
  refine roundDiv_eq hd ?_ ?_ fun h => ?_
  · have : (2 * m * d : ℚ) ≤ 2 * n + d := by linarith
    exact_mod_cast this
  · have : (2 * n : ℚ) ≤ 2 * m * d + d := by linarith
    exact_mod_cast this
  · obtain ⟨h₁, h₂⟩ := hodd h
    rw [lt_div_iff₀ hdpos] at h₁
    rw [div_lt_iff₀ hdpos] at h₂
    have h₁ : (2 * m * d : ℚ) < 2 * n + d := by linarith
    have h₂ : (2 * n : ℚ) < 2 * m * d + d := by linarith
    exact ⟨by exact_mod_cast h₁, by exact_mod_cast h₂⟩

/-- The lower end of an interval, in quarters of the last place. -/
theorem interval_low (hm : 0 < m) : ((interval m q).1 : ℚ) =
    if m = mantissaLimit / 2 ∧ q ≠ minExponent then (4 * m - 1 : ℚ) else 4 * m - 2 := by
  unfold interval
  simp only
  split
  · rw [Nat.cast_sub (by omega)]
    push_cast
    rfl
  · rw [Nat.cast_sub (by omega)]
    push_cast
    rfl

theorem interval_high : ((interval m q).2.2 : ℚ) = 4 * m + 2 := by
  unfold interval
  push_cast
  rfl

theorem quarter_mul (a : ℚ) (q : ℤ) : a * 2 ^ (q - 2) = a / 4 * 2 ^ q := by
  rw [zpow_sub₀ two_ne_zero]
  ring

/-- A fraction in the interval, in last places. -/
theorem Rounds.scaled {x : ℚ} (h : Rounds x m q) (hm : 0 < m) :
    (m : ℚ) - 1 / 2 ≤ x / 2 ^ q ∧ x / 2 ^ q ≤ m + 1 / 2 ∧
      (m % 2 = 1 → (m : ℚ) - 1 / 2 < x / 2 ^ q ∧ x / 2 ^ q < m + 1 / 2) ∧
      (m = mantissaLimit / 2 → q ≠ minExponent → (m : ℚ) - 1 / 4 ≤ x / 2 ^ q) := by
  obtain ⟨hlow, hhigh, hodd⟩ := h
  have hpos := two_zpow_pos q
  rw [quarter_mul, interval_low hm, ← le_div_iff₀ hpos] at hlow
  rw [quarter_mul, interval_high, ← div_le_iff₀ hpos] at hhigh
  rw [quarter_mul, quarter_mul, interval_low hm, interval_high, ← lt_div_iff₀ hpos,
    ← div_lt_iff₀ hpos] at hodd
  refine ⟨?_, by linarith, fun h => ⟨?_, by linarith [(hodd h).2]⟩, fun h₁ h₂ => ?_⟩
  · split at hlow <;> linarith
  · have := (hodd h).1
    split at this <;> linarith
  · rw [if_pos ⟨h₁, h₂⟩] at hlow
    linarith

theorem ofFraction_of_exponentOf (hn : 0 < n) (hd : 0 < d) (hp : ProperFinite m q)
    (he : exponentOf n d = q) (hlow : (m : ℚ) - 1 / 2 ≤ n / d / 2 ^ q)
    (hhigh : (n / d / 2 ^ q : ℚ) ≤ m + 1 / 2)
    (hodd : m % 2 = 1 → (m : ℚ) - 1 / 2 < n / d / 2 ^ q ∧ (n / d / 2 ^ q : ℚ) < m + 1 / 2) :
    ofFraction n d = finite false m q := by
  have hpos : 0 < d * Nat.pow 2 q.toNat := Nat.mul_pos hd (Nat.pow_pos (by decide))
  rw [← scaled_div] at hlow hhigh hodd
  have hr := roundDiv_of_near hpos hlow hhigh hodd
  simp only [ofFraction, if_neg hn.ne', he, hr, if_neg hp.mantissa.ne, gt_iff_lt,
    if_neg (not_lt.mpr hp.most)]

theorem zpow_lt_iff {a b : ℤ} : (2 : ℚ) ^ a < 2 ^ b ↔ a < b := zpow_lt_zpow_iff_right₀ (by norm_num)

/-- A fraction just below a power of two has one more bit, and is rounded up to that power. -/
theorem ofFraction_of_below_power (hn : 0 < n) (hd : 0 < d) (hp : ProperFinite m q)
    (hmin : q ≠ minExponent) (hm : m = mantissaLimit / 2) (hlow : (m : ℚ) - 1 / 4 ≤ n / d / 2 ^ q)
    (hhigh : (n / d / 2 ^ q : ℚ) < 2 ^ 52) : ofFraction n d = finite false m q := by
  obtain ⟨q₀, he, hq₁, hq₂⟩ := exponentOf_spec hn hd
  have hpos := two_zpow_pos q
  have hmq : (m : ℚ) = 2 ^ 52 := by
    rw [hm]
    norm_num [mantissaLimit]
  rw [hmq] at hlow
  have hq : exponentOf n d = q - 1 := by
    have hx : (n / d : ℚ) < 2 ^ (q + 52) := by
      rw [zpow_add₀ two_ne_zero, mul_comm, ← div_lt_iff₀ hpos]
      exact hhigh
    have hx' : (2 : ℚ) ^ (q + 51) ≤ n / d := by
      rw [zpow_add₀ two_ne_zero, mul_comm, ← le_div_iff₀ hpos]
      exact le_trans (by norm_num) hlow
    have h₁ := zpow_lt_iff.mp (hq₁.trans_lt hx)
    have h₂ := zpow_lt_iff.mp (hx'.trans_lt hq₂)
    have := hp.least
    rw [he]
    omega
  have hdouble : (n / d / 2 ^ (q - 1) : ℚ) = 2 * (n / d / 2 ^ q) := by
    rw [zpow_sub₀ two_ne_zero]
    field_simp
  have hdpos : 0 < d * Nat.pow 2 (q - 1).toNat := Nat.mul_pos hd (Nat.pow_pos (by decide))
  have hr : roundDiv (n * Nat.pow 2 (-(q - 1)).toNat) (d * Nat.pow 2 (q - 1).toNat) =
      mantissaLimit := by
    refine roundDiv_of_near hdpos ?_ ?_ fun h => ?_
    · rw [scaled_div, hdouble]
      norm_num [mantissaLimit] at hlow ⊢
      linarith
    · rw [scaled_div, hdouble]
      norm_num [mantissaLimit] at hhigh ⊢
      linarith
    · exact absurd h (by decide)
  simp only [ofFraction, if_neg hn.ne', hq, hr, if_true, sub_add_cancel, gt_iff_lt,
    if_neg (not_lt.mpr hp.most), hm]

/-- A fraction in the interval of a number is read as that number. -/
theorem ofFraction_of_rounds (hn : 0 < n) (hd : 0 < d) (hp : ProperFinite m q) (hm : 0 < m)
    (h : Rounds (n / d) m q) : ofFraction n d = finite false m q := by
  obtain ⟨hlow, hhigh, hodd, hquarter⟩ := h.scaled hm
  obtain ⟨q₀, he, hq₁, hq₂⟩ := exponentOf_spec hn hd
  have hpos := two_zpow_pos q
  rcases le_or_gt ((2 : ℚ) ^ (q + 52)) (n / d) with hx | hx
  · -- the mantissa has 53 bits
    have hlimit : (m : ℚ) + 1 ≤ 2 ^ 53 := by
      have : m + 1 ≤ 2 ^ 53 := hp.mantissa
      exact_mod_cast this
    have hx₂ : (n / d : ℚ) < 2 ^ (q + 53) := by
      rw [zpow_add₀ two_ne_zero, mul_comm, ← div_lt_iff₀ hpos]
      refine lt_of_lt_of_le ?_ hlimit
      linarith
    have h₁ := zpow_lt_iff.mp (hx.trans_lt hq₂)
    have h₂ := zpow_lt_iff.mp (hq₁.trans_lt hx₂)
    have hq : exponentOf n d = q := by
      have := hp.least
      rw [he]
      omega
    exact ofFraction_of_exponentOf hn hd hp hq hlow hhigh hodd
  · by_cases hmin : q = minExponent
    · have h₁ := zpow_lt_iff.mp (hq₁.trans_lt hx)
      have hq : exponentOf n d = q := by
        rw [he]
        omega
      exact ofFraction_of_exponentOf hn hd hp hq hlow hhigh hodd
    · -- the number is a power of two, and the fraction is below it
      have hx' : (n / d / 2 ^ q : ℚ) < 2 ^ 52 := by
        rw [div_lt_iff₀ hpos, mul_comm]
        rwa [zpow_add₀ two_ne_zero] at hx
      have hm₁ : m < 2 ^ 52 + 1 := by
        have : (m : ℚ) < 2 ^ 52 + 1 := by linarith
        exact_mod_cast this
      have hm₂ := hp.normal.resolve_left hmin
      have hm : m = mantissaLimit / 2 := by
        unfold mantissaLimit at hm₂ ⊢
        omega
      exact ofFraction_of_below_power hn hd hp hmin hm (hquarter hm hmin) hx'

/-- Whatever is read is proper. -/
theorem proper_ofFraction (n : Nat) (hd : 0 < d) : (ofFraction n d).Proper := by
  have hzero : ProperFinite 0 minExponent := ⟨by decide, le_refl _, by decide, .inl rfl⟩
  unfold ofFraction
  split
  · exact hzero
  · next hn =>
    obtain ⟨q₀, he, hq₁, hq₂⟩ := exponentOf_spec (Nat.pos_of_ne_zero hn) hd
    have hleast : minExponent ≤ exponentOf n d := he ▸ le_max_right ..
    have hle : q₀ ≤ exponentOf n d := he ▸ le_max_left ..
    have hpos : 0 < d * Nat.pow 2 (exponentOf n d).toNat :=
      Nat.mul_pos hd (Nat.pow_pos (by decide))
    have hscaled := scaled_div n d (exponentOf n d)
    have hbelow : n * Nat.pow 2 (-exponentOf n d).toNat / (d * Nat.pow 2 (exponentOf n d).toNat) <
        mantissaLimit := by
      rw [Nat.div_lt_iff_lt_mul hpos, ← Nat.cast_lt (α := ℚ), Nat.cast_mul mantissaLimit,
        ← div_lt_iff₀ (by exact_mod_cast hpos), hscaled, div_lt_iff₀ (two_zpow_pos _)]
      calc (n / d : ℚ) < 2 ^ (q₀ + 53) := hq₂
        _ ≤ 2 ^ (exponentOf n d + 53) := zpow_le_zpow_right₀ (by norm_num) (by omega)
        _ = (mantissaLimit : Nat) * 2 ^ exponentOf n d := by
            rw [zpow_add₀ two_ne_zero, mul_comm]
            norm_num [mantissaLimit]
    have hnormal : exponentOf n d = minExponent ∨ mantissaLimit ≤ 2 *
        (n * Nat.pow 2 (-exponentOf n d).toNat / (d * Nat.pow 2 (exponentOf n d).toNat)) := by
      rcases max_choice q₀ minExponent with h | h
      · have hq : exponentOf n d = q₀ := he.trans h
        have hfloor : 2 ^ 52 ≤
            n * Nat.pow 2 (-exponentOf n d).toNat / (d * Nat.pow 2 (exponentOf n d).toNat) := by
          rw [Nat.le_div_iff_mul_le hpos, ← Nat.cast_le (α := ℚ), Nat.cast_mul (2 ^ 52),
            ← le_div_iff₀ (by exact_mod_cast hpos), hscaled, le_div_iff₀ (two_zpow_pos _), hq]
          refine le_trans (le_of_eq ?_) hq₁
          rw [zpow_add₀ two_ne_zero, mul_comm]
          norm_num
        refine .inr ?_
        unfold mantissaLimit
        omega
      · exact .inl (he.trans h)
    dsimp only
    generalize exponentOf n d = q at *
    obtain ⟨hr₁, hr₂⟩ := div_le_roundDiv (n * Nat.pow 2 (-q).toNat) (d * Nat.pow 2 q.toNat)
    generalize n * Nat.pow 2 (-q).toNat / (d * Nat.pow 2 q.toNat) = a at *
    generalize roundDiv (n * Nat.pow 2 (-q).toNat) (d * Nat.pow 2 q.toNat) = k at *
    by_cases hk : k = mantissaLimit
    · simp only [if_pos hk]
      split
      · trivial
      · next hm => exact ⟨by decide, by omega, not_lt.mp hm, .inr (by decide)⟩
    · simp only [if_neg hk]
      split
      · trivial
      · next hm => exact ⟨by omega, hleast, not_lt.mp hm, hnormal.imp_right fun h => by omega⟩

/-! ### Decimals -/

theorem limit_lt_decimal : (2 : ℚ) ^ (1024 : ℤ) < 10 ^ (311 : ℤ) := by
  have h : (2 : Nat) ^ 1024 < 10 ^ 311 := by decide +kernel
  have hq : ((2 ^ 1024 : Nat) : ℚ) < (10 ^ 311 : Nat) := Nat.cast_lt.mpr h
  rwa [Nat.cast_pow, Nat.cast_pow, ← zpow_natCast, ← zpow_natCast] at hq

theorem decimal_lt_least : (10 : ℚ) ^ (-331 : ℤ) < 2 ^ (-1075 : ℤ) := by
  have h : (2 : Nat) ^ 1075 < 10 ^ 331 := by decide +kernel
  have hq : ((2 ^ 1075 : Nat) : ℚ) < (10 ^ 331 : Nat) := Nat.cast_lt.mpr h
  rw [Nat.cast_pow, Nat.cast_pow, ← zpow_natCast, ← zpow_natCast] at hq
  rw [zpow_neg, zpow_neg]
  exact inv_strictAnti₀ (two_zpow_pos _) hq

/-- An interval is neither close to zero nor far out. -/
theorem Rounds.bounds {x : ℚ} (h : Rounds x m q) (hp : ProperFinite m q) (hm : 0 < m) :
    (2 : ℚ) ^ (-1075 : ℤ) ≤ x ∧ x ≤ 2 ^ (1024 : ℤ) := by
  obtain ⟨hlow, hhigh, -, -⟩ := h.scaled hm
  have hpos := two_zpow_pos q
  rw [le_div_iff₀ hpos] at hlow
  rw [div_le_iff₀ hpos] at hhigh
  have hm₁ : (1 : ℚ) ≤ m := by exact_mod_cast hm
  have hm₂ : (m : ℚ) + 1 ≤ 2 ^ 53 := by
    have : m + 1 ≤ 2 ^ 53 := hp.mantissa
    exact_mod_cast this
  constructor
  · calc (2 : ℚ) ^ (-1075 : ℤ) = 1 / 2 * 2 ^ minExponent := by
          rw [show (-1075 : ℤ) = minExponent - 1 from rfl, zpow_sub₀ two_ne_zero]
          ring
      _ ≤ (m - 1 / 2) * 2 ^ q := by
          refine mul_le_mul (by linarith) (zpow_le_zpow_right₀ (by norm_num) hp.least)
            (two_zpow_pos _).le (by linarith)
      _ ≤ x := hlow
  · calc x ≤ (m + 1 / 2) * 2 ^ q := hhigh
      _ ≤ 2 ^ 53 * 2 ^ maxExponent := by
          refine mul_le_mul (by linarith) (zpow_le_zpow_right₀ (by norm_num) hp.most)
            hpos.le (by norm_num)
      _ = 2 ^ (1024 : ℤ) := by
          rw [show (1024 : ℤ) = 53 + maxExponent from rfl, zpow_add₀ two_ne_zero]
          norm_num

/-- Decimals in the interval of a number are read as that number. -/
theorem ofDecimal_of_rounds {e : ℤ} (hp : ProperFinite m q) (hm : 0 < m)
    (h : Rounds (n * 10 ^ e) m q) : ofDecimal n e = finite false m q := by
  obtain ⟨hlow, hhigh⟩ := h.bounds hp hm
  have hn : 0 < n := by
    rcases Nat.eq_zero_or_pos n with rfl | hn
    · rw [Nat.cast_zero, zero_mul] at hlow
      exact absurd hlow (not_le.mpr (two_zpow_pos _))
    · exact hn
  have hn₁ : (1 : ℚ) ≤ n := by exact_mod_cast hn
  have hnear : ¬e + (Nat.log2 n + 1) < -330 := by
    intro he
    have hlog : (n : ℚ) ≤ 10 ^ ((n.log2 : ℤ) + 1) := by
      have h₁ : n < 2 ^ (n.log2 + 1) := Nat.lt_log2_self
      have h₂ : 2 ^ (n.log2 + 1) ≤ 10 ^ (n.log2 + 1) := Nat.pow_le_pow_left (by decide) _
      exact_mod_cast (h₁.trans_le h₂).le
    have hx : (n * 10 ^ e : ℚ) ≤ 10 ^ (-331 : ℤ) := by
      calc (n * 10 ^ e : ℚ) ≤ 10 ^ ((n.log2 : ℤ) + 1) * 10 ^ e :=
            mul_le_mul_of_nonneg_right hlog (ten_zpow_pos e).le
        _ = 10 ^ (e + ((n.log2 : ℤ) + 1)) := by
            rw [← zpow_add₀ (by norm_num), add_comm]
        _ ≤ 10 ^ (-331 : ℤ) := zpow_le_zpow_right₀ (by norm_num) (by omega)
    exact absurd (hlow.trans hx) (not_le.mpr decimal_lt_least)
  have hfar : ¬e > 310 := by
    intro he
    have hx : (10 : ℚ) ^ (311 : ℤ) ≤ n * 10 ^ e := by
      calc (10 : ℚ) ^ (311 : ℤ) ≤ 10 ^ e := zpow_le_zpow_right₀ (by norm_num) he
        _ ≤ n * 10 ^ e := le_mul_of_one_le_left (ten_zpow_pos e).le hn₁
    exact absurd (hx.trans hhigh) (not_le.mpr limit_lt_decimal)
  have hnot : ¬(n = 0 ∨ e + (Nat.log2 n + 1) < -330) := by
    rintro (h | h)
    · exact hn.ne' h
    · exact hnear h
  unfold ofDecimal
  rw [if_neg hnot, if_neg hfar]
  refine ofFraction_of_rounds (Nat.mul_pos hn (Nat.pow_pos (by decide))) (Nat.pow_pos (by decide))
    hp hm ?_
  have hfraction : ((n * Nat.pow 10 e.toNat : Nat) : ℚ) / (Nat.pow 10 (-e).toNat : Nat) =
      n * 10 ^ e := by
    rw [zpow_eq_div]
    push_cast [Nat.pow_eq]
    ring
  rwa [hfraction]

theorem proper_ofDecimal (n : Nat) (e : ℤ) : (ofDecimal n e).Proper := by
  have hzero : ProperFinite 0 minExponent := ⟨by decide, le_refl _, by decide, .inl rfl⟩
  unfold ofDecimal
  split
  · exact hzero
  · split
    · trivial
    · exact proper_ofFraction _ (Nat.pow_pos (by decide))

end ProtoSchema.Binary64
