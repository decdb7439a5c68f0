import Antic.DecimalShifts

/-! # Scaling by powers of two

    A value `V` with `2 ^ e ≤ V < 2 ^ (e + 1)` is halved and doubled as a decimal, which
    drops digits.  The multiples of `2 ^ J` that are at most `V` stay at most the decimal:
    at every step their images stand on the grid of the digits that are kept. -/

namespace AnticFloat

open Decimal List

/-- The binary exponent of the value, and that of the multiples that are kept. -/
structure Scaled (V : ℚ) (e J : ℤ) : Prop where
  low : 2 ^ e ≤ V
  high : V < 2 ^ (e + 1)
  least : -1100 ≤ e
  most : e ≤ 1030
  le : J ≤ e
  fine : (-1075 ≤ J ∧ e + 1 ≤ J + 54) ∨ J = e

/-- The decimal stands for `V * 2 ^ -power`, as far as the multiples of `2 ^ J` go. -/
structure Tracks (V : ℚ) (J : ℤ) (v : Decimal) (dropped : Bool) (power : ℤ) : Prop where
  normal : v.Normal
  low : v.value ≤ V * 2 ^ (-power)
  lost : dropped = true ↔ v.value < V * 2 ^ (-power)
  kept : ∀ c : ℕ, c * 2 ^ J ≤ V → c * 2 ^ (J - power) ≤ v.value

variable {V : ℚ} {e J power : ℤ} {v : Decimal} {dropped : Bool}

theorem two_pos (n : ℤ) : (0 : ℚ) < 2 ^ n := zpow_pos (by norm_num) n

theorem two_lt_two {a b : ℤ} : (2 : ℚ) ^ a < 2 ^ b ↔ a < b := zpow_lt_zpow_iff_right₀ (by norm_num)

theorem two_le_two {a b : ℤ} : (2 : ℚ) ^ a ≤ 2 ^ b ↔ a ≤ b := zpow_le_zpow_iff_right₀ (by norm_num)

theorem ten_lt_ten {a b : ℤ} : (10 : ℚ) ^ a < 10 ^ b ↔ a < b := zpow_lt_zpow_iff_right₀ (by norm_num)

theorem ten_le_ten {a b : ℤ} : (10 : ℚ) ^ a ≤ 10 ^ b ↔ a ≤ b := zpow_le_zpow_iff_right₀ (by norm_num)

theorem two_add (a b : ℤ) : (2 : ℚ) ^ (a + b) = 2 ^ a * 2 ^ b := zpow_add₀ (by norm_num) a b

theorem mul_two_le {x y : ℚ} {a : ℤ} : x * 2 ^ a ≤ y ↔ x ≤ y * 2 ^ (-a) := by
  rw [zpow_neg, ← div_eq_mul_inv, le_div_iff₀ (two_pos a)]

-- ── The grid ────

/-- A power of two stands on the grid of the digits that are kept. -/
theorem two_on_grid {j p : ℤ} (hp : p ≤ EXACT_DIGITS) (hj : p - EXACT_DIGITS ≤ j) :
    ∃ n : ℕ, (2 : ℚ) ^ j = n * 10 ^ (p - EXACT_DIGITS) := by
  obtain ⟨i, hi⟩ := Int.eq_ofNat_of_zero_le (sub_nonneg.mpr hp)
  have hgrid : p - (EXACT_DIGITS : ℤ) = -(i : ℤ) := by omega
  rw [hgrid] at hj ⊢
  rcases le_total 0 j with hpos | hneg
  · obtain ⟨n, rfl⟩ := Int.eq_ofNat_of_zero_le hpos
    refine ⟨2 ^ n * 10 ^ i, ?_⟩
    push_cast
    rw [mul_assoc, zpow_neg, zpow_natCast, zpow_natCast, mul_inv_cancel₀ (by positivity), mul_one]
  · obtain ⟨n, hn⟩ := Int.eq_ofNat_of_zero_le (Int.neg_nonneg.mpr hneg)
    obtain ⟨m, hm⟩ := Int.eq_ofNat_of_zero_le (sub_nonneg.mpr hj)
    obtain rfl : i = m + n := by omega
    have hjn : j = -(n : ℤ) := by omega
    have hten : (10 : ℚ) ^ n = 5 ^ n * 2 ^ n := by rw [← mul_pow]; norm_num
    refine ⟨5 ^ n * 10 ^ m, ?_⟩
    rw [hjn, zpow_neg, zpow_neg, zpow_natCast, zpow_natCast, pow_add, hten]
    push_cast
    field_simp

theorem five_le_five {a b : ℤ} (h : a ≤ b) : (5 : ℚ) ^ a ≤ 5 ^ b :=
  zpow_le_zpow_right₀ (by norm_num) h

theorem ten_eq (p : ℤ) : (10 : ℚ) ^ p = 2 ^ p * 5 ^ p := by
  rw [← mul_zpow]
  norm_num

/-- A power of two far below a power of ten, from a bound on the power of five. -/
theorem two_le_ten {p q : ℤ} {n m : ℕ} (hp : -(n : ℤ) ≤ p) (hmn : 5 ^ n ≤ 2 ^ m)
    (hq : q ≤ p - m) : (2 : ℚ) ^ q ≤ 10 ^ p := by
  have hfive : (2 : ℚ) ^ (-(m : ℤ)) ≤ 5 ^ p := by
    refine le_trans ?_ (five_le_five hp)
    rw [zpow_neg, zpow_neg, zpow_natCast, zpow_natCast]
    refine inv_anti₀ (by positivity) ?_
    exact_mod_cast hmn
  calc (2 : ℚ) ^ q ≤ 2 ^ (p + -(m : ℤ)) := two_le_two.mpr (by omega)
    _ = 2 ^ p * 2 ^ (-(m : ℤ)) := two_add _ _
    _ ≤ 2 ^ p * 5 ^ p := mul_le_mul_of_nonneg_left hfive (two_pos p).le
    _ = 10 ^ p := (ten_eq p).symm

/-- A power of two below a power of ten, from a bound on the power of five. -/
theorem two_le_ten_of_le {p q : ℤ} {n m : ℕ} (hp : (n : ℤ) ≤ p) (hmn : 2 ^ m ≤ 5 ^ n)
    (hq : q ≤ p + m) : (2 : ℚ) ^ q ≤ 10 ^ p := by
  have hfive : (2 : ℚ) ^ m ≤ 5 ^ p := by
    refine le_trans ?_ (five_le_five hp)
    exact_mod_cast hmn
  calc (2 : ℚ) ^ q ≤ 2 ^ (p + (m : ℤ)) := two_le_two.mpr hq
    _ = 2 ^ p * 2 ^ m := by rw [two_add, zpow_natCast]
    _ ≤ 2 ^ p * 5 ^ p := mul_le_mul_of_nonneg_left hfive (two_pos p).le
    _ = 10 ^ p := (ten_eq p).symm

/-- A power of ten below a power of two, from a bound on the power of five. -/
theorem ten_le_two {p q : ℤ} {n m : ℕ} (hp : p ≤ -(n : ℤ)) (hmn : 2 ^ m ≤ 5 ^ n)
    (hq : p - m ≤ q) : (10 : ℚ) ^ p ≤ 2 ^ q := by
  have hfive : (5 : ℚ) ^ p ≤ 2 ^ (-(m : ℤ)) := by
    refine le_trans (five_le_five hp) ?_
    rw [zpow_neg, zpow_neg, zpow_natCast, zpow_natCast]
    refine inv_anti₀ (by positivity) ?_
    exact_mod_cast hmn
  calc (10 : ℚ) ^ p = 2 ^ p * 5 ^ p := ten_eq p
    _ ≤ 2 ^ p * 2 ^ (-(m : ℤ)) := mul_le_mul_of_nonneg_left hfive (two_pos p).le
    _ = 2 ^ (p - m) := by rw [sub_eq_add_neg, two_add]
    _ ≤ 2 ^ q := two_le_two.mpr hq

theorem ten_le_of_lt_two {p i : ℤ} (h : (10 : ℚ) ^ p < 2 ^ i) (hi : i ≤ 1091) : p ≤ 328 := by
  by_contra hp
  have hle : (2 : ℚ) ^ i ≤ 10 ^ p :=
    two_le_ten_of_le (n := 329) (m := 762) (by omega) (by decide +kernel) (by omega)
  exact absurd h (not_lt.mpr hle)

theorem le_of_two_lt_ten {p i : ℤ} (h : (2 : ℚ) ^ i < 10 ^ p) (hi : -1100 ≤ i) : -331 ≤ p := by
  by_contra hp
  have hle : (10 : ℚ) ^ p ≤ 2 ^ i :=
    ten_le_two (n := 332) (m := 768) (by omega) (by decide +kernel) (by omega)
  exact absurd h (not_lt.mpr hle)

theorem le_of_two_lt_ten' {p i : ℤ} (h : (2 : ℚ) ^ i < 10 ^ p) (hi : -4 ≤ i) : -1 ≤ p := by
  by_contra hp
  have h1 : (10 : ℚ) ^ p ≤ 10 ^ (-2 : ℤ) := ten_le_ten.mpr (by omega)
  have h2 : (2 : ℚ) ^ (-4 : ℤ) ≤ 2 ^ i := two_le_two.mpr hi
  have h3 : (10 : ℚ) ^ (-2 : ℤ) ≤ 2 ^ (-4 : ℤ) := by norm_num
  linarith

-- ── A step ────

/-- **Powers of two stand on the same side** of the value and of the decimal. -/
theorem Tracks.two_le (hs : Scaled V e J) (h : Tracks V J v dropped power) {i : ℤ}
    (hi : i + power ≤ e) : 2 ^ i ≤ v.value := by
  obtain ⟨c, hc⟩ := Int.eq_ofNat_of_zero_le (sub_nonneg.mpr hs.le)
  have hpow : ((2 ^ c : ℕ) : ℚ) * 2 ^ J = 2 ^ e := by
    push_cast
    rw [← zpow_natCast, ← two_add]
    congr 1
    omega
  have hkept := h.kept (2 ^ c) (hpow.le.trans hs.low)
  calc (2 : ℚ) ^ i ≤ 2 ^ ((c : ℤ) + (J - power)) := two_le_two.mpr (by omega)
    _ = ((2 ^ c : ℕ) : ℚ) * 2 ^ (J - power) := by
        push_cast
        rw [two_add, zpow_natCast]
    _ ≤ v.value := hkept

theorem Tracks.lt_of_value_lt (hs : Scaled V e J) (h : Tracks V J v dropped power) {i : ℤ}
    (hi : v.value < 2 ^ i) : e < i + power := by
  by_contra hge
  exact absurd (h.two_le hs (i := i) (by omega)) (not_le.mpr hi)

theorem Tracks.le_of_le_value (hs : Scaled V e J) (h : Tracks V J v dropped power) {i : ℤ}
    (hi : 2 ^ i ≤ v.value) : i + power ≤ e := by
  have h1 : (2 : ℚ) ^ i < 2 ^ (e + 1) * 2 ^ (-power) :=
    lt_of_le_of_lt (hi.trans h.low) (mul_lt_mul_of_pos_right hs.high (two_pos _))
  rw [← two_add, two_lt_two] at h1
  omega

/-- **The multiples stand on the grid** of a decimal near `V * 2 ^ -power`. -/
theorem Scaled.on_grid (hs : Scaled V e J) {p : ℤ} (hbelow : (2 : ℚ) ^ (e - power) < 10 ^ p)
    (habove : (10 : ℚ) ^ (p - 1) < 2 ^ (e + 1 - power)) (hlow : power ≤ 0 ∨ power ≤ e + 4)
    (hhigh : e ≤ power + 1090) :
    ∃ n : ℕ, (2 : ℚ) ^ (J - power) = n * 10 ^ (p - EXACT_DIGITS) := by
  have hdigits : (EXACT_DIGITS : ℤ) = 780 := rfl
  have hpoint : p ≤ 329 := by
    have := ten_le_of_lt_two habove (by omega)
    omega
  have hpoint' : -331 ≤ p ∧ (p < -1 → power ≤ 0) := by
    rcases hlow with hneg | hnear
    · exact ⟨le_of_two_lt_ten hbelow (by have := hs.least; omega), fun _ => hneg⟩
    · have h1 := le_of_two_lt_ten' hbelow (by omega)
      exact ⟨by omega, fun h2 => by omega⟩
  refine two_on_grid (by omega) ?_
  by_contra hcoarse
  rcases hs.fine with ⟨hleast, hnear⟩ | heq
  · rcases lt_or_ge p (-311) with hsmall | hlarge
    · have := hpoint'.2 (by omega)
      omega
    · have h1 := two_le_ten (n := 312) (m := 725) (p := p - 1) (by omega) (by decide +kernel)
        (le_refl _)
      have h2 : (2 : ℚ) ^ (e + 1 - power) ≤ 2 ^ (p - 1 - (725 : ℕ)) := two_le_two.mpr (by omega)
      linarith
  · have h1 := two_le_ten (n := 332) (m := 771) (p := p - 1) (by omega) (by decide +kernel)
      (le_refl _)
    have h2 : (2 : ℚ) ^ (e + 1 - power) ≤ 2 ^ (p - 1 - (771 : ℕ)) := two_le_two.mpr (by omega)
    linarith

/-- **A step keeps the multiples**: their images stand on the grid of its result. -/
theorem Tracks.step (hs : Scaled V e J) (h : Tracks V J v dropped power) {s : ℤ} {w : Decimal}
    {lost : Bool} (ht : Truncates (v.value * 2 ^ s) w lost)
    (hlow : power - s ≤ 0 ∨ power - s ≤ e + 4) (hhigh : e ≤ power - s + 1090) :
    Tracks V J w (dropped || lost) (power - s) := by
  have htwo := two_pos s
  have himage : V * 2 ^ (-(power - s)) = V * 2 ^ (-power) * 2 ^ s := by
    rw [mul_assoc, ← two_add]
    congr 2
    ring
  -- The point of the result, from below and from above.
  have hbelow : (2 : ℚ) ^ (e - (power - s)) < 10 ^ w.point := by
    have h1 := mul_le_mul_of_nonneg_right (h.two_le hs (i := e - power) (by omega)) htwo.le
    rw [← two_add] at h1
    refine lt_of_le_of_lt ?_ ht.lt
    rwa [← sub_add]
  have habove : (10 : ℚ) ^ (w.point - 1) < 2 ^ (e + 1 - (power - s)) := by
    have h1 : v.value * 2 ^ s ≤ V * 2 ^ (-power) * 2 ^ s := mul_le_mul_of_nonneg_right h.low htwo.le
    have h2 : V * 2 ^ (-(power - s)) < 2 ^ (e + 1) * 2 ^ (-(power - s)) :=
      mul_lt_mul_of_pos_right hs.high (two_pos _)
    rw [← two_add] at h2
    have h3 := ht.normal.le_value.trans ht.low
    rw [sub_eq_add_neg (e + 1)]
    linarith
  obtain ⟨n, hn⟩ := hs.on_grid hbelow habove hlow hhigh
  have hv := mul_le_mul_of_nonneg_right h.low htwo.le
  refine ⟨ht.normal, ?_, ?_, ?_⟩
  · rw [himage]
    exact ht.low.trans hv
  · rw [himage, Bool.or_eq_true, h.lost, ht.lost]
    constructor
    · rintro (hlt | hlt)
      · exact lt_of_le_of_lt ht.low (mul_lt_mul_of_pos_right hlt htwo)
      · exact lt_of_lt_of_le hlt hv
    · intro hlt
      by_contra hno
      rw [not_or, not_lt, not_lt] at hno
      exact absurd (mul_le_mul_of_nonneg_right hno.1 htwo.le |>.trans hno.2) (not_le.mpr hlt)
  · intro c hc
    have h1 := mul_le_mul_of_nonneg_right (h.kept c hc) htwo.le
    have hmove : J - power + s = J - (power - s) := by ring
    rw [mul_assoc, ← two_add, hmove] at h1
    have h2 : (c : ℚ) * 2 ^ (J - (power - s)) = (c * n : ℕ) * 10 ^ (w.point - EXACT_DIGITS) := by
      rw [hn]
      push_cast
      ring
    rw [h2] at h1 ⊢
    exact ht.le_of_le h1

theorem Tracks.halve (hs : Scaled V e J) (h : Tracks V J v dropped power) {k : ℕ}
    (hk : k ≤ SHIFT_LIMIT) (hlow : power + k ≤ 0 ∨ power + k ≤ e + 4)
    (hhigh : e ≤ power + k + 1090) :
    ∃ w dropped', v.halveBy k dropped = some (w, dropped') ∧ Tracks V J w dropped' (power + k) ∧
      w.value ≤ v.value / 2 ^ k := by
  obtain ⟨w, lost, hhalve, ht⟩ := halveBy_spec h.normal hk dropped
  have hpow : v.value / 2 ^ k = v.value * 2 ^ (-(k : ℤ)) := by
    rw [zpow_neg, zpow_natCast, div_eq_mul_inv]
  refine ⟨w, dropped || lost, hhalve, ?_, ht.low⟩
  rw [hpow] at ht
  have hstep := h.step hs ht (by rw [sub_neg_eq_add]; exact hlow)
    (by rw [sub_neg_eq_add]; exact hhigh)
  rwa [sub_neg_eq_add] at hstep

theorem Tracks.double (hs : Scaled V e J) (h : Tracks V J v dropped power) {k : ℕ}
    (hk : k ≤ SHIFT_LIMIT) (hlow : power - k ≤ 0 ∨ power - k ≤ e + 4)
    (hhigh : e ≤ power - k + 1090) :
    ∃ w dropped', v.doubleBy k dropped = (w, dropped') ∧ Tracks V J w dropped' (power - k) ∧
      w.value ≤ v.value * 2 ^ k := by
  obtain ⟨w, lost, hdouble, ht⟩ := doubleBy_spec h.normal hk dropped
  refine ⟨w, dropped || lost, hdouble, ?_, ht.low⟩
  exact h.step hs ht hlow hhigh

-- ── The loops to `[1/2, 1)` ────

theorem stepOf_spec {n : ℤ} (hn : 1 ≤ n) :
    1 ≤ stepOf n ∧ stepOf n ≤ SHIFT_LIMIT ∧ (2 : ℚ) ^ stepOf n ≤ 10 ^ n := by
  by_cases hsmall : n < 9
  · have htable : ∀ m, m < 9 → 1 ≤ m → 1 ≤ below_ten.getD m 0 ∧ below_ten.getD m 0 ≤ SHIFT_LIMIT ∧
        2 ^ below_ten.getD m 0 ≤ 10 ^ m := by decide
    obtain ⟨m, rfl⟩ := Int.eq_ofNat_of_zero_le (by omega : 0 ≤ n)
    obtain ⟨h1, h2, h3⟩ := htable m (by omega) (by omega)
    rw [stepOf, if_pos hsmall, Int.toNat_natCast, zpow_natCast]
    exact ⟨h1, h2, by exact_mod_cast h3⟩
  · rw [stepOf, if_neg hsmall]
    refine ⟨by decide, le_rfl, ?_⟩
    calc (2 : ℚ) ^ SHIFT_LIMIT ≤ 10 ^ (9 : ℤ) := by norm_num [SHIFT_LIMIT]
      _ ≤ 10 ^ n := ten_le_ten.mpr (by omega)

theorem tenth_le_of_step {v : Decimal} (hv : v.Normal) (hpoint : 1 ≤ v.point) :
    10 ^ (-1 : ℤ) ≤ v.value / 2 ^ stepOf v.point := by
  obtain ⟨-, -, hpow⟩ := stepOf_spec hpoint
  rw [le_div_iff₀ (by positivity)]
  calc (10 : ℚ) ^ (-1 : ℤ) * 2 ^ stepOf v.point ≤ 10 ^ (-1 : ℤ) * 10 ^ v.point :=
        mul_le_mul_of_nonneg_left hpow (ten_pos _).le
    _ = 10 ^ (v.point - 1) := by
        rw [← zpow_add₀ (by norm_num)]
        congr 1
        ring
    _ ≤ v.value := hv.le_value

/-- **The loop that halves** ends with a value below 1. -/
theorem bringDown_spec (hs : Scaled V e J) (turns : ℕ) : ∀ {v : Decimal} {dropped : Bool} {power : ℤ},
    Tracks V J v dropped power → 0 ≤ power → (power ≤ 0 ∨ power ≤ e + 4) →
    1 ≤ turns → e + 2 ≤ power + turns →
    ∃ v' dropped' power', bringDown turns (v, dropped) power = some ((v', dropped'), power') ∧
      Tracks V J v' dropped' power' ∧ v'.point ≤ 0 ∧ (power' ≤ 0 ∨ power' ≤ e + 4) := by
  induction turns with
  | zero => intro v dropped power _ _ _ hturns; exact absurd hturns (by decide)
  | succ turns ih =>
    intro v dropped power h hpower hnear _ hturns
    rw [bringDown]
    by_cases hpoint : v.point > 0
    · obtain ⟨hk1, hk, -⟩ := stepOf_spec hpoint
      have hone : (2 : ℚ) ^ (0 : ℤ) ≤ v.value := by
        rw [zpow_zero]
        calc (1 : ℚ) = 10 ^ (0 : ℤ) := (zpow_zero _).symm
          _ ≤ 10 ^ (v.point - 1) := ten_le_ten.mpr (by omega)
          _ ≤ v.value := h.normal.le_value
      have hlarge := h.le_of_le_value hs hone
      -- A tenth is left, so the exponent of the step is at most that of the value.
      have hnear' : power + stepOf v.point ≤ e + 4 := by
        have h1 := tenth_le_of_step h.normal hpoint
        have h2 : v.value / 2 ^ stepOf v.point ≤ V * 2 ^ (-(power + stepOf v.point)) := by
          rw [neg_add, two_add, ← mul_assoc, zpow_neg _ (stepOf v.point : ℤ), zpow_natCast,
            ← div_eq_mul_inv]
          exact div_le_div_of_nonneg_right h.low (by positivity)
        have h3 : V * 2 ^ (-(power + stepOf v.point)) <
            2 ^ (e + 1) * 2 ^ (-(power + stepOf v.point)) :=
          mul_lt_mul_of_pos_right hs.high (two_pos _)
        have h4 : (2 : ℚ) ^ (-4 : ℤ) ≤ 10 ^ (-1 : ℤ) := by norm_num
        rw [← two_add] at h3
        have h5 : (2 : ℚ) ^ (-4 : ℤ) < 2 ^ (e + 1 + -(power + stepOf v.point)) :=
          lt_of_le_of_lt (h4.trans (h1.trans h2)) h3
        rw [two_lt_two] at h5
        omega
      have hmost := hs.most
      obtain ⟨w, dropped', hhalve, hw, -⟩ := h.halve hs hk (Or.inr hnear') (by omega)
      rw [if_pos hpoint, hhalve]
      exact ih hw (by omega) (Or.inr hnear') (by omega) (by omega)
    · rw [if_neg hpoint]
      exact ⟨v, dropped, power, rfl, h, not_lt.mp hpoint, hnear⟩

theorem digitAt_zero {v : Decimal} {d : Digit} {rest : List Digit} (hd : v.d = d :: rest) :
    v.digitAt 0 = d := by
  rw [digitAt, if_pos le_rfl, hd]
  rfl

theorem half_le_iff {v : Decimal} (hv : v.Normal) (hpoint : v.point ≤ 0) :
    (v.point < 0 ∨ (v.point = 0 ∧ v.digitAt 0 < 5)) ↔ v.value < 2 ^ (-1 : ℤ) := by
  obtain ⟨d, rest, hd, -⟩ := hv.first
  have hhalf : (2 : ℚ) ^ (-1 : ℤ) = 1 / 2 := by norm_num
  rw [digitAt_zero hd, hhalf]
  rcases lt_or_eq_of_le hpoint with hneg | hzero
  · refine iff_of_true (Or.inl hneg) ?_
    calc v.value < 10 ^ v.point := value_lt v
      _ ≤ 10 ^ (-1 : ℤ) := ten_le_ten.mpr (by omega)
      _ ≤ 1 / 2 := by norm_num
  · have hlen : v.d.length = rest.length + 1 := by rw [hd, length_cons]
    have hpow : (0 : ℚ) < 10 ^ rest.length := by positivity
    have hvalue : v.value * (10 * 10 ^ rest.length) = d.val * 10 ^ rest.length + number rest := by
      rw [value, hzero, zero_sub, zpow_neg, zpow_natCast, hlen, pow_succ, hd, number_cons]
      push_cast
      field_simp
    have hrest : (number rest : ℚ) < 10 ^ rest.length := by exact_mod_cast number_lt rest
    have hrest0 : (0 : ℚ) ≤ number rest := Nat.cast_nonneg _
    constructor
    · rintro (h | ⟨-, h⟩)
      · omega
      · have hd4 : (d.val : ℚ) ≤ 4 := by exact_mod_cast Nat.le_of_lt_succ h
        nlinarith
    · intro h
      refine Or.inr ⟨hzero, ?_⟩
      by_contra hge
      have hd5 : (5 : ℚ) ≤ d.val := by exact_mod_cast not_lt.mp hge
      nlinarith

/-- **The loop that doubles** ends with a value of which the first bit is worth a half. -/
theorem bringUp_spec (hs : Scaled V e J) (turns : ℕ) : ∀ {v : Decimal} {dropped : Bool} {power : ℤ},
    Tracks V J v dropped power → v.point ≤ 0 → e + 1 ≤ power → (power ≤ 0 ∨ power ≤ e + 4) →
    power ≤ e + turns →
    ∃ v' dropped', bringUp turns (v, dropped) power = some ((v', dropped'), e + 1) ∧
      Tracks V J v' dropped' (e + 1) := by
  induction turns with
  | zero => intro v dropped power _ _ hpower _ hturns; omega
  | succ turns ih =>
    intro v dropped power h hpoint hpower hnear hturns
    rw [bringUp]
    by_cases hsmall : v.point < 0 ∨ (v.point = 0 ∧ v.digitAt 0 < 5)
    · have hk : 1 ≤ stepOf (-v.point) ∧ stepOf (-v.point) ≤ SHIFT_LIMIT ∧
          v.value < 2 ^ (-(stepOf (-v.point) : ℤ)) := by
        rcases lt_or_eq_of_le hpoint with hneg | hzero
        · obtain ⟨hk1, hk, hpow⟩ := stepOf_spec (n := -v.point) (by omega)
          refine ⟨hk1, hk, lt_of_lt_of_le (value_lt v) ?_⟩
          rw [zpow_neg, zpow_natCast, ← neg_neg v.point, zpow_neg, neg_neg]
          exact inv_anti₀ (by positivity) hpow
        · rw [hzero]
          exact ⟨by decide, by decide, (half_le_iff h.normal hpoint).mp hsmall⟩
      obtain ⟨hk1, hk, hlt⟩ := hk
      have hpower' := h.lt_of_value_lt hs hlt
      obtain ⟨w, dropped', hdouble, hw, hle⟩ := h.double hs hk
        (by rcases hnear with hnear | hnear <;> omega) (by omega)
      rw [if_pos hsmall, hdouble]
      have hwpoint : w.point ≤ 0 := by
        have hone : w.value < 1 := by
          refine lt_of_le_of_lt hle ?_
          rw [zpow_neg, zpow_natCast, lt_inv_comm₀ h.normal.value_pos (by positivity)] at hlt
          rwa [← lt_div_iff₀ (by positivity), one_div, lt_inv_comm₀ h.normal.value_pos (by positivity)]
        have hten : (10 : ℚ) ^ (w.point - 1) < 10 ^ (0 : ℤ) := by
          rw [zpow_zero]
          exact lt_of_le_of_lt hw.normal.le_value hone
        rw [ten_lt_ten] at hten
        omega
      exact ih hw hwpoint (by omega) (by rcases hnear with hnear | hnear <;> omega) (by omega)
    · rw [if_neg hsmall]
      have hhalf : (2 : ℚ) ^ (-1 : ℤ) ≤ v.value :=
        not_lt.mp fun hlt => hsmall ((half_le_iff h.normal hpoint).mpr hlt)
      have hlarge := h.le_of_le_value hs hhalf
      obtain rfl : power = e + 1 := by omega
      exact ⟨v, dropped, rfl, h⟩

-- ── The loops with steps of their own ────

theorem steps_spec {turns : ℕ} : ∀ {n : ℕ}, n ≤ turns →
    (steps turns n).sum = n ∧ ∀ k ∈ steps turns n, k ≤ SHIFT_LIMIT := by
  induction turns with
  | zero =>
    intro n hn
    obtain rfl := Nat.le_zero.mp hn
    exact ⟨rfl, fun k hk => absurd hk not_mem_nil⟩
  | succ turns ih =>
    intro n hn
    rw [steps]
    by_cases hzero : n = 0
    · rw [if_pos hzero, hzero]
      exact ⟨rfl, fun k hk => absurd hk not_mem_nil⟩
    · have hlimit : SHIFT_LIMIT = 27 := rfl
      obtain ⟨hsum, hall⟩ := ih (n := n - SHIFT_LIMIT) (by omega)
      rw [if_neg hzero, sum_cons, hsum]
      constructor
      · by_cases hlt : n < SHIFT_LIMIT
        · rw [if_pos hlt]
          omega
        · rw [if_neg hlt]
          omega
      · intro k hk
        rcases mem_cons.mp hk with rfl | hk
        · by_cases hlt : n < SHIFT_LIMIT
          · rw [if_pos hlt]
            exact hlt.le
          · rw [if_neg hlt]
        · exact hall k hk

/-- **The loop that halves by such steps.** -/
theorem halveAll_spec (hs : Scaled V e J) {ks : List ℕ} (hks : ∀ k ∈ ks, k ≤ SHIFT_LIMIT) :
    ∀ {v : Decimal} {dropped : Bool} {power : ℤ}, Tracks V J v dropped power →
    power + ks.sum ≤ 0 → e ≤ power + 1090 →
    ∃ v' dropped', halveAll ks (v, dropped) = some (v', dropped') ∧
      Tracks V J v' dropped' (power + ks.sum) := by
  induction ks with
  | nil =>
    intro v dropped power h _ _
    refine ⟨v, dropped, rfl, ?_⟩
    rw [sum_nil, Nat.cast_zero, add_zero]
    exact h
  | cons k ks ih =>
    intro v dropped power h hlow hhigh
    rw [sum_cons, Nat.cast_add] at hlow ⊢
    obtain ⟨w, dropped', hhalve, hw, -⟩ :=
      h.halve hs (hks k mem_cons_self) (Or.inl (by omega)) (by omega)
    obtain ⟨v', dropped'', hall, hv'⟩ :=
      ih (fun k' hk' => hks k' (mem_cons_of_mem k hk')) hw (by omega) (by omega)
    refine ⟨v', dropped'', ?_, ?_⟩
    · rw [halveAll, hhalve]
      exact hall
    · rw [← add_assoc]
      exact hv'

/-- **The loop that leaves the mantissa** as the whole part. -/
theorem doubleAll_spec (hs : Scaled V e J) {ks : List ℕ} (hks : ∀ k ∈ ks, k ≤ SHIFT_LIMIT) :
    ∀ {v : Decimal} {dropped : Bool} {power : ℤ}, Tracks V J v dropped power →
    (power ≤ 0 ∨ power ≤ e + 4) → e ≤ power - ks.sum + 1090 →
    ∃ v' dropped', doubleAll ks (v, dropped) = (v', dropped') ∧
      Tracks V J v' dropped' (power - ks.sum) := by
  induction ks with
  | nil =>
    intro v dropped power h _ _
    refine ⟨v, dropped, rfl, ?_⟩
    rw [sum_nil, Nat.cast_zero, sub_zero]
    exact h
  | cons k ks ih =>
    intro v dropped power h hlow hhigh
    rw [sum_cons, Nat.cast_add] at hhigh ⊢
    obtain ⟨w, dropped', hdouble, hw, -⟩ := h.double hs (hks k mem_cons_self)
      (by rcases hlow with hlow | hlow <;> omega) (by omega)
    obtain ⟨v', dropped'', hall, hv'⟩ := ih (fun k' hk' => hks k' (mem_cons_of_mem k hk')) hw
      (by rcases hlow with hlow | hlow <;> omega) (by omega)
    refine ⟨v', dropped'', ?_, ?_⟩
    · rw [doubleAll, hdouble]
      exact hall
    · rw [← sub_sub]
      exact hv'

end AnticFloat
