import Mathlib

/-! # Binary interchange formats

    A format has bits of a mantissa and of an exponent.  A number without its sign is its
    bits, read as one natural number: the greater the bits, the greater the value.  The bits
    of infinity stand one above those of the greatest finite value, and count here as the
    value that a wider exponent would give them, so that rounding to the nearest value, a
    tie to the even bits, overflows where it should. -/

open Nat

namespace BinaryFormats

/-- The widths of the mantissa, without its first bit, and of the exponent. -/
structure Format where
  mantissa : ℕ
  exponent : ℕ
  mantissa_pos : 1 ≤ mantissa
  exponent_two : 2 ≤ exponent

namespace Format

variable (f : Format)

/-- The bias of the exponent. -/
def bias : ℕ := 2 ^ (f.exponent - 1) - 1

/-- The bits of infinity. -/
def infinite : ℕ := (2 ^ f.exponent - 1) * 2 ^ f.mantissa

/-- One unit of the last place, where the exponent field is `t + 1`, or 0 and `t` is. -/
def unit (t : ℕ) : ℚ := 2 ^ ((t : ℤ) + 1 - f.bias - f.mantissa)

/-- The value of the bits. -/
def value (n : ℕ) : ℚ :=
  if n / 2 ^ f.mantissa = 0 then (n % 2 ^ f.mantissa : ℕ) * f.unit 0
  else (2 ^ f.mantissa + n % 2 ^ f.mantissa : ℕ) * f.unit (n / 2 ^ f.mantissa - 1)

/-- The bits are those of the value nearest to `x`, and even where two are nearest. -/
structure Rounds (x : ℚ) (n : ℕ) : Prop where
  bound : n ≤ f.infinite
  nearest : ∀ k, k ≤ f.infinite → |f.value n - x| ≤ |f.value k - x|
  even : ∀ k, k ≤ f.infinite → k ≠ n → |f.value n - x| = |f.value k - x| → n % 2 = 0

variable {f}

-- ── The values in order ────

theorem unit_pos (t : ℕ) : 0 < f.unit t := zpow_pos (by norm_num) _

theorem unit_succ (t : ℕ) : f.unit (t + 1) = 2 * f.unit t := by
  rw [unit, unit, ← zpow_one_add₀ (by norm_num)]
  congr 1
  push_cast
  ring

/-- **The bits of a binade**, and of the value after it, count units of the last place. -/
theorem value_window {t r : ℕ} (hr : r ≤ 2 ^ (f.mantissa + 1)) (ht : t = 0 ∨ 2 ^ f.mantissa ≤ r) :
    f.value (t * 2 ^ f.mantissa + r) = r * f.unit t := by
  have hpos : 0 < 2 ^ f.mantissa := Nat.two_pow_pos _
  rcases Nat.lt_or_ge r (2 ^ f.mantissa) with hlow | hhigh
  · obtain rfl : t = 0 := by
      rcases ht with rfl | ht
      · rfl
      · exact absurd ht (Nat.not_le.mpr hlow)
    rw [value, Nat.zero_mul, Nat.zero_add, div_eq_of_lt hlow, if_pos rfl, mod_eq_of_lt hlow]
  · obtain ⟨d, rfl⟩ := Nat.exists_eq_add_of_le hhigh
    have hsum : t * 2 ^ f.mantissa + (2 ^ f.mantissa + d) = d + (t + 1) * 2 ^ f.mantissa := by ring
    rcases Nat.lt_or_ge d (2 ^ f.mantissa) with hd | hd
    · have hfield : (d + (t + 1) * 2 ^ f.mantissa) / 2 ^ f.mantissa = t + 1 := by
        rw [add_mul_div_right _ _ hpos, div_eq_of_lt hd, Nat.zero_add]
      have hrest : (d + (t + 1) * 2 ^ f.mantissa) % 2 ^ f.mantissa = d := by
        rw [add_mul_mod_self_right, mod_eq_of_lt hd]
      rw [value, hsum, hfield, hrest, if_neg (succ_ne_zero t), Nat.add_sub_cancel]
    · obtain rfl : d = 2 ^ f.mantissa := by omega
      have hfield : (2 ^ f.mantissa + (t + 1) * 2 ^ f.mantissa) / 2 ^ f.mantissa = t + 2 := by
        rw [add_mul_div_right _ _ hpos, Nat.div_self hpos]
        omega
      have hrest : (2 ^ f.mantissa + (t + 1) * 2 ^ f.mantissa) % 2 ^ f.mantissa = 0 := by
        rw [add_mul_mod_self_right, mod_self]
      have hunit : f.unit (t + 2 - 1) = 2 * f.unit t := unit_succ t
      rw [value, hsum, hfield, hrest, if_neg (succ_ne_zero _), hunit]
      push_cast
      ring

theorem exists_window (n : ℕ) : ∃ t r, n = t * 2 ^ f.mantissa + r ∧ r < 2 ^ (f.mantissa + 1) ∧
    (t = 0 ∨ 2 ^ f.mantissa ≤ r) := by
  have hsplit := div_add_mod n (2 ^ f.mantissa)
  rcases Nat.eq_zero_or_pos (n / 2 ^ f.mantissa) with hzero | hfield
  · refine ⟨0, n, by rw [Nat.zero_mul, Nat.zero_add], ?_, Or.inl rfl⟩
    rw [hzero, Nat.mul_zero] at hsplit
    omega
  · obtain ⟨t, ht⟩ := Nat.exists_eq_add_of_le' hfield
    refine ⟨t, 2 ^ f.mantissa + n % 2 ^ f.mantissa, ?_, by omega, Or.inr (Nat.le_add_right ..)⟩
    rw [ht] at hsplit
    calc n = 2 ^ f.mantissa * (t + 1) + n % 2 ^ f.mantissa := hsplit.symm
      _ = t * 2 ^ f.mantissa + (2 ^ f.mantissa + n % 2 ^ f.mantissa) := by ring

theorem value_strictMono : StrictMono f.value := by
  refine strictMono_nat_of_lt_succ ?_
  intro n
  obtain ⟨t, r, rfl, hr, ht⟩ := exists_window (f := f) n
  rw [value_window hr.le ht, Nat.add_assoc, value_window hr (ht.imp_right fun h => by omega)]
  push_cast
  have hu := f.unit_pos t
  linarith

theorem value_zero : f.value 0 = 0 := by
  have h := value_window (f := f) (t := 0) (r := 0) (Nat.zero_le _) (Or.inl rfl)
  rw [Nat.zero_mul] at h
  rw [h, cast_zero, zero_mul]

theorem value_nonneg (n : ℕ) : 0 ≤ f.value n := by
  rw [← value_zero (f := f)]
  exact value_strictMono.monotone (Nat.zero_le n)

theorem value_succ_le {n : ℕ} (hn : n ≠ 0) : f.value (n + 1) ≤ 2 * f.value n := by
  obtain ⟨t, r, rfl, hr, ht⟩ := exists_window (f := f) n
  rw [value_window hr.le ht, Nat.add_assoc, value_window hr (ht.imp_right fun h => by omega)]
  have hr1 : 1 ≤ r := by
    rcases ht with rfl | ht
    · rw [Nat.zero_mul, Nat.zero_add] at hn
      exact one_le_iff_ne_zero.mpr hn
    · exact Nat.le_trans (Nat.two_pow_pos _) ht
  have hr1' : (1 : ℚ) ≤ r := by exact_mod_cast hr1
  have hu := f.unit_pos t
  push_cast
  nlinarith

-- ── Rounding ────

/-- **Rounding is a function.** -/
theorem Rounds.unique {x : ℚ} {n k : ℕ} (hn : f.Rounds x n) (hk : f.Rounds x k) : n = k := by
  wlog hlt : n < k generalizing n k
  · rcases Nat.lt_trichotomy n k with h | h | h
    · exact absurd h hlt
    · exact h
    · exact (this hk hn h).symm
  exfalso
  have hdist : |f.value n - x| = |f.value k - x| :=
    le_antisymm (hn.nearest k hk.bound) (hk.nearest n hn.bound)
  have hlow : f.value n < f.value (n + 1) := value_strictMono (lt_succ_self n)
  have hmid : 2 * x = f.value n + f.value k := by
    have hval : f.value n < f.value k := value_strictMono hlt
    rcases abs_eq_abs.mp hdist with h | h
    · linarith
    · linarith
  have hgap : |f.value n - x| = (f.value k - f.value n) / 2 := by
    have hval : f.value n < f.value k := value_strictMono hlt
    rw [abs_of_nonpos (by linarith)]
    linarith
  rcases Nat.lt_or_ge (n + 1) k with hfar | hnear
  · -- A value between the two would be nearer.
    have hhigh : f.value (n + 1) < f.value k := value_strictMono hfar
    have hbetween := hn.nearest (n + 1) (Nat.le_trans hfar.le hk.bound)
    rcases abs_cases (f.value (n + 1) - x) with ⟨habs, -⟩ | ⟨habs, -⟩
    · linarith
    · linarith
  · obtain rfl : k = n + 1 := Nat.le_antisymm hnear hlt
    have heven := hn.even (n + 1) hk.bound (Nat.succ_ne_self n) hdist
    have heven' := hk.even n hn.bound (Nat.succ_ne_self n).symm hdist.symm
    omega

theorem rounds_value {n : ℕ} (hn : n ≤ f.infinite) : f.Rounds (f.value n) n := by
  refine ⟨hn, ?_, ?_⟩
  · intro k _
    rw [sub_self, abs_zero]
    exact abs_nonneg _
  · intro k _ hk heq
    rw [sub_self, abs_zero] at heq
    exact absurd (value_strictMono.injective (sub_eq_zero.mp (abs_eq_zero.mp heq.symm))) hk

/-- The numbers from `low` to `high`, with these two or without them. -/
def Between (ends : Prop) (low high x : ℚ) : Prop :=
  (low < x ∨ (ends ∧ x = low)) ∧ (x < high ∨ (ends ∧ x = high))

theorem Between.of_abs_le {ends : Prop} {v d x y : ℚ} (h : Between ends (v - d) (v + d) x)
    (hy : |y - v| ≤ |x - v|) : Between ends (v - d) (v + d) y := by
  have hx : |x - v| < d ∨ (ends ∧ |x - v| = d) := by
    obtain ⟨hlow, hhigh⟩ := h
    rcases hlow with hlow | ⟨hends, hlow⟩
    · rcases hhigh with hhigh | ⟨hends, hhigh⟩
      · exact Or.inl (abs_lt.mpr ⟨by linarith, by linarith⟩)
      · exact Or.inr ⟨hends, by rw [hhigh, add_sub_cancel_left, abs_of_nonneg (by linarith)]⟩
    · rcases hhigh with hhigh | ⟨-, hhigh⟩
      · exact Or.inr ⟨hends, by rw [hlow, sub_sub_cancel_left, abs_neg, abs_of_nonneg (by linarith)]⟩
      · exact Or.inr ⟨hends, by rw [hlow, sub_sub_cancel_left, abs_neg, abs_of_nonneg (by linarith)]⟩
  rcases hx with hlt | ⟨hends, heq⟩
  · obtain ⟨h1, h2⟩ := abs_lt.mp (lt_of_le_of_lt hy hlt)
    exact ⟨Or.inl (by linarith), Or.inl (by linarith)⟩
  · rw [heq] at hy
    obtain ⟨h1, h2⟩ := abs_le.mp hy
    constructor
    · rcases eq_or_lt_of_le h1 with h1 | h1
      · exact Or.inr ⟨hends, by linarith⟩
      · exact Or.inl (by linarith)
    · rcases eq_or_lt_of_le h2 with h2 | h2
      · exact Or.inr ⟨hends, by linarith⟩
      · exact Or.inl (by linarith)

/-- **What rounds to a value** stands between the half-way points to its neighbours. -/
theorem rounds_iff_between {x : ℚ} {n : ℕ} (hn : n ≠ 0) (hfin : n < f.infinite) :
    f.Rounds x n ↔ Between (n % 2 = 0) ((f.value (n - 1) + f.value n) / 2)
      ((f.value n + f.value (n + 1)) / 2) x := by
  have hbelow : f.value (n - 1) < f.value n := value_strictMono (by omega)
  have habove : f.value n < f.value (n + 1) := value_strictMono (lt_succ_self n)
  constructor
  · intro h
    constructor
    · rcases lt_trichotomy ((f.value (n - 1) + f.value n) / 2) x with hlt | heq | hlt
      · exact Or.inl hlt
      · refine Or.inr ⟨h.even (n - 1) (by omega) (by omega) ?_, heq.symm⟩
        rw [abs_of_nonneg (by linarith), abs_of_nonpos (by linarith)]
        linarith
      · have hnear := h.nearest (n - 1) (by omega)
        rcases abs_cases (f.value (n - 1) - x) with ⟨habs, -⟩ | ⟨habs, -⟩
        · have hle := le_abs_self (f.value n - x)
          linarith
        · have hle := le_abs_self (f.value n - x)
          linarith
    · rcases lt_trichotomy x ((f.value n + f.value (n + 1)) / 2) with hlt | heq | hlt
      · exact Or.inl hlt
      · refine Or.inr ⟨h.even (n + 1) hfin (Nat.succ_ne_self n) ?_, heq⟩
        rw [abs_of_nonpos (by linarith), abs_of_nonneg (by linarith)]
        linarith
      · have hnear := h.nearest (n + 1) hfin
        rcases abs_cases (f.value (n + 1) - x) with ⟨habs, -⟩ | ⟨habs, -⟩
        · have hle := neg_abs_le (f.value n - x)
          linarith
        · have hle := neg_abs_le (f.value n - x)
          linarith
  · rintro ⟨hlow, hhigh⟩
    have hlow' : f.value (n - 1) + f.value n ≤ 2 * x := by
      rcases hlow with hlow | ⟨-, hlow⟩
      · linarith
      · linarith
    have hhigh' : 2 * x ≤ f.value n + f.value (n + 1) := by
      rcases hhigh with hhigh | ⟨-, hhigh⟩
      · linarith
      · linarith
    -- A value on either side is at least as far as the neighbour there.
    have hfar : ∀ k, k ≠ n → |f.value n - x| ≤ |f.value k - x| ∧
        (|f.value n - x| = |f.value k - x| → n % 2 = 0) := by
      intro k hk
      rcases Nat.lt_or_ge k n with hlt | hge
      · have hmono : f.value k ≤ f.value (n - 1) := value_strictMono.monotone (by omega)
        have hkx : |f.value k - x| = x - f.value k := by
          rw [abs_of_nonpos (by linarith), neg_sub]
        constructor
        · exact abs_le.mpr ⟨by linarith, by linarith⟩
        · intro heq
          rcases hlow with hlow | ⟨heven, -⟩
          · rcases abs_cases (f.value n - x) with ⟨habs, -⟩ | ⟨habs, -⟩
            · linarith
            · linarith
          · exact heven
      · have hmono : f.value (n + 1) ≤ f.value k := value_strictMono.monotone (by omega)
        have hkx : |f.value k - x| = f.value k - x := abs_of_nonneg (by linarith)
        constructor
        · exact abs_le.mpr ⟨by linarith, by linarith⟩
        · intro heq
          rcases hhigh with hhigh | ⟨heven, -⟩
          · rcases abs_cases (f.value n - x) with ⟨habs, -⟩ | ⟨habs, -⟩
            · linarith
            · linarith
          · exact heven
    refine ⟨hfin.le, ?_, ?_⟩
    · intro k _
      by_cases hk : k = n
      · rw [hk]
      · exact (hfar k hk).1
    · intro k _ hk heq
      exact (hfar k hk).2 heq

/-- The natural number nearest to `y`, the even one where two are. -/
def NearestEven (y : ℚ) (r : ℕ) : Prop := |r - y| ≤ 1 / 2 ∧ (|r - y| = 1 / 2 → r % 2 = 0)

theorem NearestEven.eq_floor_or {y : ℚ} {r : ℕ} (hy : 0 ≤ y) (h : NearestEven y r) :
    r = ⌊y⌋₊ ∨ r = ⌊y⌋₊ + 1 := by
  have hlow := floor_le hy
  have hhigh := lt_floor_add_one y
  obtain ⟨h1, h2⟩ := abs_le.mp h.1
  have hle : r ≤ ⌊y⌋₊ + 1 := by
    have hlt : (r : ℚ) < (⌊y⌋₊ + 2 : ℕ) := by
      push_cast
      linarith
    have := cast_lt.mp hlt
    omega
  have hge : ⌊y⌋₊ ≤ r := by
    have hlt : (⌊y⌋₊ : ℚ) < (r + 1 : ℕ) := by
      push_cast
      linarith
    have := cast_lt.mp hlt
    omega
  omega

/-- A number outside the unit that holds `y` is not nearer to it, and as near only at a tie. -/
theorem NearestEven.far {y z : ℚ} {r : ℕ} (hy : 0 ≤ y) (h : NearestEven y r)
    (hz : z ≤ ⌊y⌋₊ ∨ ⌊y⌋₊ + 1 ≤ z) (hne : z ≠ r) :
    |r - y| ≤ |z - y| ∧ (|r - y| = |z - y| → |r - y| = 1 / 2) := by
  have hlow := floor_le hy
  have hhigh := lt_floor_add_one y
  obtain ⟨h1, h2⟩ := abs_le.mp h.1
  have hzy : |z - y| = y - z ∧ z ≤ ⌊y⌋₊ ∨ |z - y| = z - y ∧ ⌊y⌋₊ + 1 ≤ z := by
    rcases hz with hz | hz
    · left
      exact ⟨by rw [abs_of_nonpos (by linarith), neg_sub], hz⟩
    · right
      exact ⟨abs_of_nonneg (by linarith), hz⟩
  rcases h.eq_floor_or hy with rfl | rfl
  · have habs : |(⌊y⌋₊ : ℚ) - y| = y - ⌊y⌋₊ := by rw [abs_of_nonpos (by linarith), neg_sub]
    rw [habs]
    rcases hzy with ⟨hzy, hle⟩ | ⟨hzy, hle⟩
    · have hlt : z < ⌊y⌋₊ := lt_of_le_of_ne hle hne
      rw [hzy]
      exact ⟨by linarith, fun heq => by linarith⟩
    · rw [hzy]
      exact ⟨by linarith, fun heq => by linarith⟩
  · push_cast at h1 h2 hne ⊢
    have habs : |(⌊y⌋₊ : ℚ) + 1 - y| = ⌊y⌋₊ + 1 - y := abs_of_nonneg (by linarith)
    rw [habs]
    rcases hzy with ⟨hzy, hle⟩ | ⟨hzy, hle⟩
    · rw [hzy]
      exact ⟨by linarith, fun heq => by linarith⟩
    · have hlt : (⌊y⌋₊ : ℚ) + 1 < z := lt_of_le_of_ne hle hne.symm
      rw [hzy]
      exact ⟨by linarith, fun heq => by linarith⟩

/-- **Rounding in a binade**: the nearest count of units, the even one of two. -/
theorem rounds_of_nearestEven {x y : ℚ} {t r : ℕ} (hx : x = y * f.unit t) (hy : 0 ≤ y)
    (hlow : t = 0 ∨ 2 ^ f.mantissa ≤ y) (hhigh : y < 2 ^ (f.mantissa + 1))
    (ht : t + 3 ≤ 2 ^ f.exponent) (hr : NearestEven y r) :
    f.Rounds x (t * 2 ^ f.mantissa + r) := by
  have hu := f.unit_pos t
  have hwide : ⌊y⌋₊ < 2 ^ (f.mantissa + 1) := by
    rw [floor_lt hy]
    push_cast
    exact hhigh
  have hnarrow : t = 0 ∨ 2 ^ f.mantissa ≤ ⌊y⌋₊ := by
    refine hlow.imp_right fun h => le_floor ?_
    push_cast
    exact h
  have hval : f.value (t * 2 ^ f.mantissa + ⌊y⌋₊) = ⌊y⌋₊ * f.unit t := value_window hwide.le hnarrow
  have hval' : f.value (t * 2 ^ f.mantissa + (⌊y⌋₊ + 1)) = (⌊y⌋₊ + 1 : ℕ) * f.unit t :=
    value_window hwide (hnarrow.imp_right fun h => le_succ_of_le h)
  have hvalr : f.value (t * 2 ^ f.mantissa + r) = r * f.unit t := by
    rcases hr.eq_floor_or hy with rfl | rfl
    · exact hval
    · exact hval'
  have hdist : ∀ (k : ℕ) (z : ℚ), f.value k = z * f.unit t →
      |f.value k - x| = |z - y| * f.unit t := by
    intro k z hz
    rw [hz, hx, ← sub_mul, abs_mul, abs_of_pos hu]
  -- Every other value stands outside the unit that holds `x`.
  have hfar : ∀ k, k ≠ t * 2 ^ f.mantissa + r →
      |r - y| * f.unit t ≤ |f.value k - x| ∧
      (|r - y| * f.unit t = |f.value k - x| → |r - y| = 1 / 2) := by
    intro k hk
    obtain ⟨z, hz⟩ : ∃ z : ℚ, f.value k = z * f.unit t :=
      ⟨f.value k / f.unit t, (div_mul_cancel₀ _ hu.ne').symm⟩
    have hside : z ≤ ⌊y⌋₊ ∨ ⌊y⌋₊ + 1 ≤ z := by
      rcases Nat.lt_or_ge (t * 2 ^ f.mantissa + ⌊y⌋₊) k with habove | hbelow
      · right
        have hmono := value_strictMono (f := f).monotone (succ_le_of_lt habove)
        rw [succ_eq_add_one, Nat.add_assoc, hval', hz] at hmono
        have hle := le_of_mul_le_mul_right hmono hu
        push_cast at hle
        exact hle
      · left
        have hmono := value_strictMono (f := f).monotone hbelow
        rw [hval, hz] at hmono
        exact le_of_mul_le_mul_right hmono hu
    have hne : z ≠ r := by
      rintro rfl
      exact hk (value_strictMono.injective (hz.trans hvalr.symm))
    obtain ⟨hle, htie⟩ := hr.far hy hside hne
    rw [hdist k z hz]
    exact ⟨mul_le_mul_of_nonneg_right hle hu.le, fun heq => htie (mul_right_cancel₀ hu.ne' heq)⟩
  refine ⟨?_, ?_, ?_⟩
  · have hcase := hr.eq_floor_or hy
    have hfield : (t + 2) * 2 ^ f.mantissa ≤ (2 ^ f.exponent - 1) * 2 ^ f.mantissa :=
      Nat.mul_le_mul_right _ (by omega)
    calc t * 2 ^ f.mantissa + r ≤ t * 2 ^ f.mantissa + 2 ^ f.mantissa * 2 := by omega
      _ = (t + 2) * 2 ^ f.mantissa := by ring
      _ ≤ f.infinite := hfield
  · intro k _
    by_cases hk : k = t * 2 ^ f.mantissa + r
    · rw [hk]
    · rw [hdist _ r hvalr]
      exact (hfar k hk).1
  · intro k _ hk heq
    rw [hdist _ r hvalr] at heq
    have heven := hr.2 ((hfar k hk).2 heq)
    have hm : 2 ^ f.mantissa % 2 = 0 := by
      obtain ⟨j, hj⟩ := Nat.exists_eq_add_of_le' f.mantissa_pos
      rw [hj, Nat.pow_succ, mul_mod_left]
    rw [add_mod, mul_mod, hm, heven]
    rfl

-- ── Zero and infinity ────

/-- The half of the least value and what is below it. -/
def TooSmall (f : Format) (x : ℚ) : Prop := 2 * x ≤ f.value 1

/-- The half-way point above the greatest finite value and what is above it. -/
def TooLarge (f : Format) (x : ℚ) : Prop := f.value (f.infinite - 1) + f.value f.infinite ≤ 2 * x

theorem infinite_pos : 0 < f.infinite := by
  have h : 2 ^ 2 ≤ 2 ^ f.exponent := Nat.pow_le_pow_right (by norm_num) f.exponent_two
  exact Nat.mul_pos (by omega) (Nat.two_pow_pos _)

theorem two_mul_bias (f : Format) : 2 * f.bias + 2 = 2 ^ f.exponent := by
  obtain ⟨n, hn⟩ := Nat.exists_eq_add_of_le' (le_of_succ_le f.exponent_two)
  have hpos := Nat.two_pow_pos n
  rw [bias, hn, Nat.add_sub_cancel, Nat.pow_succ]
  omega

theorem value_infinite (hbias : 1 ≤ f.bias) : f.value f.infinite = 2 ^ (f.bias + 1) := by
  have hbits : f.infinite = (2 * f.bias - 1) * 2 ^ f.mantissa + 2 ^ (f.mantissa + 1) := by
    obtain ⟨b, hb⟩ := Nat.exists_eq_add_of_le' hbias
    have htwo := f.two_mul_bias
    have hfield : 2 ^ f.exponent - 1 = 2 * b + 3 := by omega
    have hleft : 2 * f.bias - 1 = 2 * b + 1 := by omega
    rw [infinite, hfield, hleft, Nat.pow_succ]
    ring
  have hwide : 2 ^ f.mantissa ≤ 2 ^ (f.mantissa + 1) := Nat.pow_le_pow_right (by decide) (le_succ _)
  have hexp : (f.mantissa + 1 : ℤ) + ((2 * f.bias - 1 : ℕ) + 1 - f.bias - f.mantissa) =
      ((f.bias + 1 : ℕ) : ℤ) := by
    push_cast [cast_sub (by omega : 1 ≤ 2 * f.bias)]
    ring
  rw [hbits, value_window le_rfl (Or.inr hwide), unit, ← zpow_natCast _ (f.bias + 1), ← hexp,
    zpow_add₀ (by norm_num)]
  push_cast
  rfl

theorem infinite_even : f.infinite % 2 = 0 := by
  obtain ⟨j, hj⟩ := Nat.exists_eq_add_of_le' f.mantissa_pos
  rw [infinite, hj, Nat.pow_succ, ← Nat.mul_assoc, mul_mod_left]

theorem rounds_zero_iff {x : ℚ} (hx : 0 ≤ x) : f.Rounds x 0 ↔ f.TooSmall x := by
  have hone := value_strictMono (f := f) Nat.zero_lt_one
  rw [value_zero] at hone
  constructor
  · intro h
    have hnear := h.nearest 1 infinite_pos
    rw [value_zero, zero_sub, abs_neg, abs_of_nonneg hx] at hnear
    rw [TooSmall]
    rcases abs_cases (f.value 1 - x) with ⟨habs, -⟩ | ⟨habs, -⟩
    · linarith
    · linarith
  · intro h
    refine ⟨Nat.zero_le _, ?_, fun _ _ _ _ => rfl⟩
    intro k _
    rw [value_zero, zero_sub, abs_neg, abs_of_nonneg hx]
    rcases Nat.eq_zero_or_pos k with rfl | hk
    · rw [value_zero, zero_sub, abs_neg, abs_of_nonneg hx]
    · have hmono : f.value 1 ≤ f.value k := value_strictMono.monotone hk
      have hle := le_abs_self (f.value k - x)
      rw [TooSmall] at h
      linarith

theorem rounds_infinite_iff {x : ℚ} : f.Rounds x f.infinite ↔ f.TooLarge x := by
  have hpos := f.infinite_pos
  have hlast : f.value (f.infinite - 1) < f.value f.infinite := value_strictMono (by omega)
  constructor
  · intro h
    have hnear := h.nearest (f.infinite - 1) (sub_le ..)
    rw [TooLarge]
    rcases abs_cases (f.value f.infinite - x) with ⟨h1, -⟩ | ⟨h1, hover⟩
    · rcases abs_cases (f.value (f.infinite - 1) - x) with ⟨h2, -⟩ | ⟨h2, -⟩
      · linarith
      · linarith
    · linarith
  · intro h
    refine ⟨le_rfl, ?_, fun _ _ _ _ => infinite_even⟩
    intro k hk
    rcases Nat.lt_or_eq_of_le hk with hlt | rfl
    · have hmono : f.value k ≤ f.value (f.infinite - 1) := value_strictMono.monotone (by omega)
      have hle := neg_abs_le (f.value k - x)
      rw [TooLarge] at h
      rw [abs_le]
      constructor
      · linarith
      · linarith
    · exact le_rfl

/-- What rounds to a finite value that is not zero stands near it. -/
theorem Rounds.near {x : ℚ} {n : ℕ} (h : f.Rounds x n) (hx : 0 ≤ x) (hn : n ≠ 0)
    (hfin : n ≠ f.infinite) : f.value n ≤ 2 * x ∧ x ≤ 2 * f.value n := by
  have hbound := h.bound
  have hzero := h.nearest 0 (Nat.zero_le _)
  have hnext := h.nearest (n + 1) (by omega)
  have hgap := value_succ_le (f := f) hn
  rw [value_zero, zero_sub, abs_neg, abs_of_nonneg hx] at hzero
  constructor
  · have := le_abs_self (f.value n - x)
    linarith
  · have hle := neg_abs_le (f.value n - x)
    rcases abs_cases (f.value (n + 1) - x) with ⟨habs, -⟩ | ⟨habs, -⟩
    · linarith
    · have hlt : f.value n < f.value (n + 1) := value_strictMono (lt_succ_self n)
      linarith

end Format

end BinaryFormats
