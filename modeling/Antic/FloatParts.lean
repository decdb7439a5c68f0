import Antic.DecimalRounds

/-! # The parts of a float and the half-way points

    `parts_of` splits the bits of a float into an integer and a power of two.  What rounds to
    the float stands between the half-way points to its neighbours, and `shortest` finds the
    exact digits of these. -/

open Nat

namespace AnticFloat

open Decimal BinaryFormats Format

variable {f : Format}

/-- The bits of a finite float that is not zero. -/
structure FiniteBits (f : Format) where
  negative : Bool
  magnitude : ℕ
  not_zero : magnitude ≠ 0
  finite : magnitude < f.infinite

def FiniteBits.bits (b : FiniteBits f) : ℕ :=
  (if b.negative then 2 ^ (f.mantissa + f.exponent) else 0) + b.magnitude

/-- The parts of the bits `n` of a magnitude, in the binade `t`. -/
structure Window (f : Format) (n : ℕ) (p : Parts) (t : ℕ) : Prop where
  bits : n = t * 2 ^ f.mantissa + p.m
  wide : p.m < 2 ^ (f.mantissa + 1)
  first : t = 0 ∨ 2 ^ f.mantissa ≤ p.m
  power : p.e = t + 1 - f.bias - f.mantissa
  boundary : p.boundary = true ↔ p.m = 2 ^ f.mantissa ∧ t ≠ 0

theorem infinite_lt (f : Format) : f.infinite < 2 ^ (f.mantissa + f.exponent) := by
  have hpos := Nat.two_pow_pos f.exponent
  rw [infinite, Nat.pow_add, Nat.mul_comm]
  exact Nat.mul_lt_mul_of_pos_left (by omega) (Nat.two_pow_pos _)

-- ── The fields ────

/-- The fields of a finite float give its sign and the window of its value. -/
theorem partsAt_spec (b : FiniteBits f) :
    (partsAt f.mantissa f.exponent (1 - f.bias - f.mantissa) b.bits).negative = b.negative ∧
      ∃ t, Window f b.magnitude
        (partsAt f.mantissa f.exponent (1 - f.bias - f.mantissa) b.bits) t := by
  obtain ⟨negative, n, hn, hfin⟩ := b
  have hwide : n < 2 ^ (f.mantissa + f.exponent) := Nat.lt_trans hfin (infinite_lt f)
  have hpos := Nat.two_pow_pos f.mantissa
  have hall : 2 ^ (f.mantissa + f.exponent) = 2 ^ f.mantissa * 2 ^ f.exponent := Nat.pow_add ..
  obtain ⟨bits, hbits⟩ : ∃ bits, bits = FiniteBits.bits ⟨negative, n, hn, hfin⟩ := ⟨_, rfl⟩
  have hbits' : bits = (if negative then 1 else 0) * 2 ^ (f.mantissa + f.exponent) + n := by
    rw [hbits, FiniteBits.bits]
    cases negative with
    | false => rw [if_neg Bool.false_ne_true, if_neg Bool.false_ne_true, Nat.zero_mul]
    | true => rw [if_pos rfl, if_pos rfl, Nat.one_mul]
  have hsign : bits >>> (f.mantissa + f.exponent) = if negative then 1 else 0 := by
    rw [hbits', shiftRight_eq_div_pow, Nat.add_comm, add_mul_div_right _ _ (Nat.two_pow_pos _),
      div_eq_of_lt hwide, Nat.zero_add]
  have hfraction : bits &&& (1 <<< f.mantissa - 1) = n % 2 ^ f.mantissa := by
    rw [one_shiftLeft, and_two_pow_sub_one_eq_mod, hbits', hall, Nat.mul_left_comm, mul_add_mod]
  have hpower : bits >>> f.mantissa &&& (1 <<< f.exponent - 1) = n / 2 ^ f.mantissa := by
    have hdiv : bits / 2 ^ f.mantissa = 2 ^ f.exponent * (if negative then 1 else 0) +
        n / 2 ^ f.mantissa := by
      rw [hbits', hall, Nat.mul_left_comm, mul_add_div hpos, Nat.mul_comm (2 ^ f.exponent)]
    rw [one_shiftLeft, and_two_pow_sub_one_eq_mod, shiftRight_eq_div_pow, hdiv,
      mul_add_mod, mod_eq_of_lt]
    exact Nat.div_lt_of_lt_mul (by rw [← hall]; exact hwide)
  have hsplit := div_add_mod n (2 ^ f.mantissa)
  have hrest := mod_lt n hpos
  rw [← hbits, partsAt, hsign, hfraction, hpower]
  constructor
  · cases negative with
    | false => rfl
    | true => rfl
  · rcases Nat.eq_zero_or_pos (n / 2 ^ f.mantissa) with hzero | hfield
    · rw [hzero, Nat.mul_zero, Nat.zero_add] at hsplit
      rw [hzero, if_pos rfl, if_pos rfl]
      refine ⟨0, ?_, ?_, Or.inl rfl, ?_, ?_⟩
      · rw [Nat.zero_mul, Nat.zero_add]
        exact hsplit.symm
      · dsimp only
        omega
      · push_cast
        ring
      · constructor
        · intro h
          exact absurd (of_decide_eq_true h).2 (Nat.not_lt_zero 1)
        · rintro ⟨-, hne⟩
          exact absurd rfl hne
    · obtain ⟨t, ht⟩ := Nat.exists_eq_add_of_le' hfield
      have hor : n % 2 ^ f.mantissa ||| 1 <<< f.mantissa = 2 ^ f.mantissa + n % 2 ^ f.mantissa := by
        have h := two_pow_add_eq_or_of_lt hrest 1
        rw [Nat.mul_one] at h
        rw [one_shiftLeft, Nat.or_comm, h]
      rw [ht] at hsplit
      rw [ht, if_neg (succ_ne_zero t), if_neg (succ_ne_zero t), hor]
      refine ⟨t, ?_, ?_, Or.inr (Nat.le_add_right ..), ?_, ?_⟩
      · calc n = 2 ^ f.mantissa * (t + 1) + n % 2 ^ f.mantissa := hsplit.symm
          _ = t * 2 ^ f.mantissa + (2 ^ f.mantissa + n % 2 ^ f.mantissa) := by ring
      · dsimp only
        omega
      · push_cast
        ring
      · dsimp only
        rw [decide_eq_true_iff]
        constructor
        · rintro ⟨hfrac, hone⟩
          exact ⟨by omega, by omega⟩
        · rintro ⟨hfrac, hne⟩
          exact ⟨by omega, by omega⟩

-- ── The half-way points ────

/-- The half-way point below the value of the parts. -/
def lowPoint (p : Parts) : ℚ :=
  if p.boundary then (4 * p.m - 1 : ℕ) * 2 ^ (p.e - 2) else (2 * p.m - 1 : ℕ) * 2 ^ (p.e - 1)

/-- The half-way point above it. -/
def highPoint (p : Parts) : ℚ := (2 * p.m + 1 : ℕ) * 2 ^ (p.e - 1)

namespace Window

variable {n t : ℕ} {p : Parts}

variable (h : Window f n p t)
include h

theorem m_pos (hn : n ≠ 0) : 1 ≤ p.m := by
  have hbits := h.bits
  rcases h.first with rfl | hfirst
  · omega
  · exact Nat.le_trans (Nat.two_pow_pos _) hfirst

theorem unit_eq : f.unit t = 2 ^ p.e := by rw [Format.unit, h.power]

theorem value_eq : f.value n = p.m * 2 ^ p.e := by
  rw [h.bits, value_window h.wide.le h.first, h.unit_eq]

theorem value_next : f.value (n + 1) = (p.m + 1) * 2 ^ p.e := by
  have hwide := h.wide
  rw [h.bits, Nat.add_assoc, value_window hwide (h.first.imp_right fun h => by omega), h.unit_eq]
  push_cast
  rfl

theorem value_below (hn : n ≠ 0) :
    f.value (n - 1) = if p.boundary then (2 * (p.m : ℚ) - 1) * 2 ^ (p.e - 1)
      else ((p.m : ℚ) - 1) * 2 ^ p.e := by
  have hm := h.m_pos hn
  have hwide := h.wide
  obtain ⟨k, hk⟩ := Nat.exists_eq_add_of_le' hm
  by_cases hb : p.boundary = true
  · -- The value below belongs to the binade below.
    obtain ⟨hfirst, ht⟩ := h.boundary.mp hb
    obtain ⟨t', rfl⟩ := exists_eq_succ_of_ne_zero ht
    have hbits : n - 1 = t' * 2 ^ f.mantissa + (2 * p.m - 1) := by
      have hn' := h.bits
      rw [succ_mul, ← hfirst] at hn'
      rw [← hfirst]
      omega
    have hunit : f.unit t' = 2 ^ (p.e - 1) := by
      have hpower := h.power
      push_cast at hpower
      rw [Format.unit]
      congr 1
      rw [hpower]
      ring
    rw [if_pos hb, hbits, value_window (by omega) (Or.inr (by omega)), hunit, hk]
    congr 1
    rw [cast_sub (by omega)]
    push_cast
    ring
  · have hfirst : t = 0 ∨ 2 ^ f.mantissa ≤ p.m - 1 := by
      rcases h.first with hzero | hfirst
      · exact Or.inl hzero
      · by_cases ht : t = 0
        · exact Or.inl ht
        · right
          have hne : p.m ≠ 2 ^ f.mantissa := fun heq => hb (h.boundary.mpr ⟨heq, ht⟩)
          omega
    have hbits : n - 1 = t * 2 ^ f.mantissa + (p.m - 1) := by
      have hn' := h.bits
      omega
    rw [if_neg hb, hbits, value_window (by omega) hfirst, h.unit_eq, hk, Nat.add_sub_cancel]
    push_cast
    ring

theorem even_iff : n % 2 = 0 ↔ p.m % 2 = 0 := by
  obtain ⟨j, hj⟩ := Nat.exists_eq_add_of_le' f.mantissa_pos
  have heven : t * 2 ^ f.mantissa % 2 = 0 := by
    rw [hj, Nat.pow_succ, ← Nat.mul_assoc, mul_mod_left]
  have hbits := h.bits
  omega

/-- **What rounds to the float** stands between the half-way points. -/
theorem rounds_iff (hn : n ≠ 0) (hfin : n < f.infinite) {x : ℚ} :
    f.Rounds x n ↔ Between (p.m % 2 = 0) (lowPoint p) (highPoint p) x := by
  have hm := h.m_pos hn
  have htwo : (2 : ℚ) ^ p.e = 2 * 2 ^ (p.e - 1) := by
    rw [← zpow_one_add₀ (by norm_num)]
    congr 1
    ring
  have hfour : (2 : ℚ) ^ (p.e - 1) = 2 * 2 ^ (p.e - 2) := by
    rw [← zpow_one_add₀ (by norm_num)]
    congr 1
    ring
  have hlow : (f.value (n - 1) + f.value n) / 2 = lowPoint p := by
    rw [h.value_below hn, h.value_eq, lowPoint]
    by_cases hb : p.boundary = true
    · rw [if_pos hb, if_pos hb, cast_sub (by omega), htwo, hfour]
      push_cast
      ring
    · rw [if_neg hb, if_neg hb, cast_sub (by omega), htwo]
      push_cast
      ring
  have hhigh : (f.value n + f.value (n + 1)) / 2 = highPoint p := by
    rw [h.value_next, h.value_eq, highPoint, htwo]
    push_cast
    ring
  rw [rounds_iff_between hn hfin, hlow, hhigh, Between, Between, h.even_iff]

theorem e_bounds (hf : Supported f) (hfin : n < f.infinite) :
    -1074 ≤ p.e ∧ p.e ≤ 1023 ∧ (p.boundary = true → -1073 ≤ p.e) := by
  have hpower := h.power
  have hbias := hf.bias_most
  have hmant := hf.mantissa_most
  have hmant' := f.mantissa_pos
  have htwo := f.two_mul_bias
  have ht : t < 2 ^ f.exponent - 1 := by
    have hbits := h.bits
    rw [infinite] at hfin
    have hlt : t * 2 ^ f.mantissa < (2 ^ f.exponent - 1) * 2 ^ f.mantissa := by omega
    exact Nat.lt_of_mul_lt_mul_right hlt
  refine ⟨by omega, by omega, ?_⟩
  intro hb
  have hne := (h.boundary.mp hb).2
  omega

/-- **The decimals of `shortest`** are those of the value and of the half-way points. -/
theorem exact_points (hf : Supported f) (hn : n ≠ 0) (hfin : n < f.infinite) :
    ((exact p.m p.e).Normal ∧ (exact p.m p.e).value = f.value n) ∧
      ((exact (2 * p.m + 1) (p.e - 1)).Normal ∧
        (exact (2 * p.m + 1) (p.e - 1)).value = highPoint p) ∧
      ∀ low, low = (if p.boundary then exact (4 * p.m - 1) (p.e - 2)
        else exact (2 * p.m - 1) (p.e - 1)) → low.Normal ∧ low.value = lowPoint p := by
  have hm := h.m_pos hn
  have hwide := h.wide
  obtain ⟨hlow, hhigh, hbound⟩ := h.e_bounds hf hfin
  have hmant : 2 ^ f.mantissa ≤ 2 ^ 52 := Nat.pow_le_pow_right (by decide) hf.mantissa_most
  refine ⟨?_, ?_, ?_⟩
  · rw [h.value_eq]
    exact exact_spec ⟨by omega, by omega, by omega, by omega⟩
  · exact exact_spec ⟨by omega, by omega, by omega, by omega⟩
  · rintro low rfl
    rw [lowPoint]
    by_cases hb : p.boundary = true
    · have hfirst := (h.boundary.mp hb).1
      have he := hbound hb
      rw [if_pos hb, if_pos hb]
      exact exact_spec ⟨by omega, by omega, by omega, by omega⟩
    · rw [if_neg hb, if_neg hb]
      exact exact_spec ⟨by omega, by omega, by omega, by omega⟩

end Window

end AnticFloat
