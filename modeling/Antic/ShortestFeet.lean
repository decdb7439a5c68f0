import Antic.FloatReadProofs
import Antic.ShortestProofs

/-! # The foot of a binade

    Below the first value of a binade the gap is half as wide as above it, so the interval
    that reads back is not symmetric there.  The nearest decimal may stand below the interval
    while the next one above it, farther away, stands in it.  Whether it does is a matter of
    the digits of a power of two. -/

namespace AnticFloat

open Decimal BinaryFormats Format ShortDecimals

variable {f : Format} {n t k : ℕ} {p : Parts}

/-- The power of two that is a quarter of the gap above the foot of the binade `t`. -/
def footPower (f : Format) (t : ℕ) : ℤ := (t : ℤ) - 1 - f.bias - f.mantissa

/-- The power of ten that makes the quarter and the units of the first digits whole. -/
def footScale (f : Format) (t : ℕ) : ℕ := (-footPower f t).toNat + 17

/-- The quarter, scaled by that. -/
def quarter (f : Format) (t : ℕ) : ℕ :=
  2 ^ (footPower f t).toNat * 5 ^ (-footPower f t).toNat * 10 ^ 17

/-- The foot, scaled by that. -/
def foot (f : Format) (t : ℕ) : ℕ := 2 ^ (f.mantissa + 2) * quarter f t

/-- How many digits the scaled foot has. -/
def footPlace (f : Format) (t : ℕ) : ℕ :=
  ((footPower f t + f.mantissa + 2) * 30103 / 100000 + 1 + footScale f t).toNat

/-- The unit of its `k`th digit. -/
def footUnit (f : Format) (t k : ℕ) : ℕ := 10 ^ (footPlace f t - k)

def PlaceFits (f : Format) (t : ℕ) : Prop :=
  10 ^ (footPlace f t - 1) ≤ foot f t ∧ foot f t < 10 ^ footPlace f t ∧ 17 ≤ footPlace f t

/-- A decimal with `k` digits reads back. -/
def Reaches (f : Format) (t k : ℕ) : Prop :=
  foot f t % footUnit f t k ≤ quarter f t ∨
    footUnit f t k ≤ foot f t % footUnit f t k + 2 * quarter f t

/-- The decimal below does not read back, the one above does, and is not nearer. -/
def Risks (f : Format) (t k : ℕ) : Prop :=
  quarter f t < foot f t % footUnit f t k ∧
    footUnit f t k ≤ foot f t % footUnit f t k + 2 * quarter f t ∧
    2 * (foot f t % footUnit f t k) ≤ footUnit f t k

/-- The one below is the nearest one, or the even one of two. -/
def Misses (f : Format) (t k : ℕ) : Prop :=
  Risks f t k ∧ (2 * (foot f t % footUnit f t k) = footUnit f t k →
    foot f t / footUnit f t k % 2 = 0)

instance : Decidable (PlaceFits f t) := inferInstanceAs (Decidable (_ ∧ _))

instance : Decidable (Reaches f t k) := inferInstanceAs (Decidable (_ ∨ _))

instance : Decidable (Risks f t k) := inferInstanceAs (Decidable (_ ∧ _))

instance : Decidable (Misses f t k) := inferInstanceAs (Decidable (_ ∧ _))

-- ── The scale ────

theorem scale_pos (f : Format) (t : ℕ) : (0 : ℚ) < 10 ^ footScale f t := by positivity

theorem quarter_cast (f : Format) (t : ℕ) :
    (quarter f t : ℚ) = 2 ^ footPower f t * 10 ^ footScale f t := by
  rw [quarter, footScale]
  rcases le_or_gt 0 (footPower f t) with hpos | hneg
  · obtain ⟨a, ha⟩ := Int.eq_ofNat_of_zero_le hpos
    have hzero : (-(a : ℤ)).toNat = 0 := by omega
    rw [ha, hzero, Int.toNat_natCast, zpow_natCast]
    push_cast
    ring
  · obtain ⟨a, ha⟩ : ∃ a : ℕ, footPower f t = -(a : ℤ) := ⟨(-footPower f t).toNat, by omega⟩
    have hzero : (-(a : ℤ)).toNat = 0 := by omega
    have hnat : (- -(a : ℤ)).toNat = a := by omega
    rw [ha, hzero, hnat, zpow_neg, zpow_natCast, pow_add, show (10 : ℚ) = 2 * 5 by norm_num, mul_pow]
    push_cast
    field_simp
    norm_num

/-- The foot of a binade by its parts. -/
structure AtFoot (f : Format) (n : ℕ) (p : Parts) (t : ℕ) : Prop where
  supported : Supported f
  window : Window f n p t
  not_zero : n ≠ 0
  finite : n < f.infinite
  boundary : p.boundary = true
  place : PlaceFits f t

namespace AtFoot

variable (h : AtFoot f n p t)
include h

theorem power_eq : p.e - 2 = footPower f t := by
  rw [h.window.power, footPower]
  ring

theorem quarter_eq : (2 : ℚ) ^ (p.e - 2) * 10 ^ footScale f t = quarter f t := by
  rw [quarter_cast, h.power_eq]

theorem foot_eq : f.value n * 10 ^ footScale f t = foot f t := by
  have hfirst := (h.window.boundary.mp h.boundary).1
  have hpow : (2 : ℚ) ^ p.e = 4 * 2 ^ (p.e - 2) := by
    have hsum : (2 : ℤ) + (p.e - 2) = p.e := by ring
    calc (2 : ℚ) ^ p.e = 2 ^ ((2 : ℤ) + (p.e - 2)) := by rw [hsum]
      _ = 4 * 2 ^ (p.e - 2) := by
        rw [zpow_add₀ (by norm_num)]
        norm_num
  have hcast : (foot f t : ℚ) = 2 ^ f.mantissa * 4 * (2 ^ (p.e - 2) * 10 ^ footScale f t) := by
    rw [h.quarter_eq, foot]
    push_cast
    ring
  rw [hcast, h.window.value_eq, hfirst, hpow]
  push_cast
  ring

theorem point_eq : (exact p.m p.e).point = footPlace f t - footScale f t := by
  obtain ⟨⟨hnormal, hvalue⟩, -, -⟩ := h.window.exact_points h.supported h.not_zero h.finite
  have hs := scale_pos f t
  have hlow := hnormal.le_value
  have hhigh := value_lt (exact p.m p.e)
  rw [hvalue] at hlow hhigh
  obtain ⟨hlow', hhigh', hlong⟩ := h.place
  have hlow'' : (10 : ℚ) ^ ((footPlace f t : ℤ) - 1) ≤ f.value n * 10 ^ footScale f t := by
    have hnat : ((footPlace f t : ℤ) - 1) = ((footPlace f t - 1 : ℕ) : ℤ) := by omega
    rw [h.foot_eq, hnat, zpow_natCast]
    exact_mod_cast hlow'
  have hhigh'' : f.value n * 10 ^ footScale f t < 10 ^ (footPlace f t : ℤ) := by
    rw [h.foot_eq, zpow_natCast]
    exact_mod_cast hhigh'
  have hmove : ∀ a : ℤ, (10 : ℚ) ^ a * 10 ^ footScale f t = 10 ^ (a + footScale f t) := by
    intro a
    rw [zpow_add₀ (by norm_num), zpow_natCast]
  have h1 : (10 : ℚ) ^ ((exact p.m p.e).point - 1 + footScale f t) < 10 ^ (footPlace f t : ℤ) := by
    rw [← hmove]
    exact lt_of_le_of_lt (mul_le_mul_of_nonneg_right hlow hs.le) hhigh''
  have h2 : (10 : ℚ) ^ ((footPlace f t : ℤ) - 1) < 10 ^ ((exact p.m p.e).point + footScale f t) := by
    rw [← hmove]
    exact lt_of_le_of_lt hlow'' (mul_lt_mul_of_pos_right hhigh hs)
  have h1' := ten_lt_ten.mp h1
  have h2' := ten_lt_ten.mp h2
  omega

theorem unit_eq (hk : k ≤ 17) :
    (10 : ℚ) ^ ((exact p.m p.e).point - k) * 10 ^ footScale f t = footUnit f t k := by
  obtain ⟨-, -, hlong⟩ := h.place
  have hexp : (footPlace f t : ℤ) - footScale f t - k + footScale f t =
      ((footPlace f t - k : ℕ) : ℤ) := by omega
  rw [h.point_eq, ← zpow_natCast, ← zpow_add₀ (by norm_num), hexp, zpow_natCast, footUnit]
  push_cast
  rfl

/-- How far the foot stands above the number on the grid below it. -/
def rest (f : Format) (t k : ℕ) : ℚ := (foot f t % footUnit f t k : ℕ) / 10 ^ footScale f t

/-- **The digits of the foot** decide about its interval. -/
theorem foot_spec (hpos : 0 < k) (hk : k ≤ 17) :
    Foot 10 k (exact p.m p.e).point (f.value n) (10 ^ ((exact p.m p.e).point - k)) (2 ^ (p.e - 2))
      (rest f t k) := by
  obtain ⟨⟨hnormal, hvalue⟩, -, -⟩ := h.window.exact_points h.supported h.not_zero h.finite
  have hlow := hnormal.le_value
  have hhigh := value_lt (exact p.m p.e)
  rw [hvalue] at hlow hhigh
  exact foot_scaled (scale_pos f t) (by decide) hpos (by exact_mod_cast hlow)
    (by exact_mod_cast hhigh) (by norm_cast) h.foot_eq (h.unit_eq hk) (Nat.pow_pos (by decide))

theorem reach_iff (hk : k ≤ 17) :
    Reach ((10 : ℚ) ^ ((exact p.m p.e).point - k)) (2 ^ (p.e - 2)) (rest f t k) ↔ Reaches f t k :=
  reach_scaled (scale_pos f t) h.quarter_eq (h.unit_eq hk)

theorem risk_iff (hk : k ≤ 17) :
    Risk ((10 : ℚ) ^ ((exact p.m p.e).point - k)) (2 ^ (p.e - 2)) (rest f t k) ↔ Risks f t k :=
  risk_scaled (scale_pos f t) h.quarter_eq (h.unit_eq hk)

theorem rounds_iff {x : ℚ} :
    f.Rounds x n ↔ f.value n - 2 ^ (p.e - 2) ≤ x ∧ x ≤ f.value n + 2 * 2 ^ (p.e - 2) := by
  obtain ⟨hfirst, -⟩ := h.window.boundary.mp h.boundary
  have heven : p.m % 2 = 0 := by
    obtain ⟨j, hj⟩ := Nat.exists_eq_add_of_le' f.mantissa_pos
    rw [hfirst, hj, Nat.pow_succ, Nat.mul_mod_left]
  have hfour : (2 : ℚ) ^ (p.e - 1) = 2 * 2 ^ (p.e - 2) := by
    rw [← zpow_one_add₀ (by norm_num)]
    congr 1
    ring
  rw [h.window.rounds_iff h.not_zero h.finite, lowPoint_eq h.window h.not_zero, if_pos h.boundary,
    highPoint_eq h.window, hfour, Between]
  constructor
  · rintro ⟨hlow, hhigh⟩
    exact ⟨hlow.elim le_of_lt fun h => h.2.ge, hhigh.elim le_of_lt fun h => h.2.le⟩
  · rintro ⟨hlow, hhigh⟩
    exact ⟨(lt_or_eq_of_le hlow).imp id fun h => ⟨heven, h.symm⟩,
      (lt_or_eq_of_le hhigh).imp id fun h => ⟨heven, h⟩⟩

/-- **Whether a decimal of so many digits reads back.** -/
theorem readsBack_iff (hpos : 0 < k) (hk : k ≤ 17) : ReadsBack f n k ↔ Reaches f t k := by
  rw [← h.reach_iff hk, ← (h.foot_spec hpos hk).exists_iff, ReadsBack]
  exact exists_congr fun x => and_congr_right fun _ => h.rounds_iff

theorem exists_reads (hpos : 0 < k) (hk : k ≤ 17) (hrisk : Risks f t k) :
    ReadsBack f n k := (h.readsBack_iff hpos hk).mpr (Or.inr hrisk.2.1)

theorem risk_bounds (hpos : 0 < k) (hk : k ≤ 17) (hrisk : Risks f t k) :
    2 ^ f.mantissa < 10 ^ k ∧ 10 ^ (k - 1) < 2 ^ (f.mantissa + 1) := by
  obtain ⟨hlow, hhigh, hlong⟩ := h.place
  obtain ⟨hbelow, habove, hnear⟩ := hrisk
  have hall : 10 ^ footPlace f t = 10 ^ k * footUnit f t k := by
    rw [footUnit, ← Nat.pow_add]
    congr 1
    omega
  have hfirst : 10 ^ (footPlace f t - 1) = 10 ^ (k - 1) * footUnit f t k := by
    rw [footUnit, ← Nat.pow_add]
    congr 1
    omega
  have hfoot : foot f t = 2 ^ f.mantissa * (4 * quarter f t) := by
    rw [foot, Nat.pow_add]
    ring
  have hunit : 0 < footUnit f t k := Nat.pow_pos (by decide)
  rw [hall, hfoot] at hhigh
  rw [hfirst, hfoot] at hlow
  generalize footUnit f t k = u at *
  generalize quarter f t = q at *
  constructor
  · refine Nat.lt_of_mul_lt_mul_right (a := u) (Nat.lt_of_le_of_lt ?_ hhigh)
    exact Nat.mul_le_mul_left _ (by omega)
  · refine Nat.lt_of_mul_lt_mul_right (a := u) (Nat.lt_of_le_of_lt hlow ?_)
    rw [Nat.pow_succ, Nat.mul_assoc]
    exact Nat.mul_lt_mul_of_pos_left (by omega) (Nat.two_pow_pos _)

end AtFoot

-- ── Where the digits are the fewest ────

/-- Where a nearest decimal may stand below the interval, one with fewer digits reads back. -/
def Steady (f : Format) (t : ℕ) (ks : List ℕ) : Prop :=
  ∀ k ∈ ks, Risks f t k → 1 < k ∧ Reaches f t (k - 1)

instance (ks : List ℕ) : Decidable (Steady f t ks) :=
  inferInstanceAs (Decidable (∀ k ∈ ks, Risks f t k → 1 < k ∧ Reaches f t (k - 1)))

/-- The counts of digits whose units come near the gap. -/
def Critical (f : Format) (ks : List ℕ) : Prop :=
  ∀ k, 0 < k → k < 17 → 2 ^ f.mantissa < 10 ^ k → 10 ^ (k - 1) < 2 ^ (f.mantissa + 1) → k ∈ ks

theorem AtFoot.isLeast {ks : List ℕ} (h : AtFoot f n p t) (hks : Critical f ks)
    (hsteady : Steady f t ks) {w : Decimal} {j : ℕ} (hc : Chosen f n (exact p.m p.e) w j) :
    IsLeast {k | ReadsBack f n k} w.d.length := by
  refine hc.isLeast h.not_zero ?_
  intro k hk hleast
  have hpos := hleast.1.pos h.not_zero
  obtain ⟨⟨hnormal, hvalue⟩, -, -⟩ := h.window.exact_points h.supported h.not_zero h.finite
  have hround := roundTo_spec hnormal hpos
  obtain ⟨c, hgrid, -⟩ := hround.grid
  have hnear := hround.near
  rw [hvalue] at hnear
  have hreach := (h.reach_iff hk.le).mpr ((h.readsBack_iff hpos hk.le).mp hleast.1)
  refine h.rounds_iff.mpr ((h.foot_spec hpos hk.le).holds_nearest hreach ⟨c, hgrid⟩ hnear ?_)
  intro hrisk
  have hrisk' := (h.risk_iff hk.le).mp hrisk
  obtain ⟨hten, htwo⟩ := h.risk_bounds hpos hk.le hrisk'
  obtain ⟨hone, hfewer⟩ := hsteady k (hks k hpos hk hten htwo) hrisk'
  have hless := hleast.2 ((h.readsBack_iff (by omega) (by omega)).mpr hfewer)
  omega

/-- **Where the nearest decimal misses the interval**, the digits are not the fewest. -/
theorem AtFoot.not_isLeast (h : AtFoot f n p t) (hone : 1 < k) (hk : k ≤ 17) (hmiss : Misses f t k)
    (hno : ¬ Reaches f t (k - 1)) {w : Decimal} {j : ℕ} (hc : Chosen f n (exact p.m p.e) w j) :
    ¬ IsLeast {k | ReadsBack f n k} w.d.length := by
  intro hleast
  obtain ⟨⟨hnormal, hvalue⟩, -, -⟩ := h.window.exact_points h.supported h.not_zero h.finite
  obtain ⟨hrisk, heven⟩ := hmiss
  have hpos : 0 < k := by omega
  have hfoot := h.foot_spec hpos hk
  have hrisk' := (h.risk_iff hk).mpr hrisk
  have hlen : w.d.length ≤ k := hleast.2 (h.exists_reads hpos hk hrisk)
  have hdigits : Digits 10 k w.value := (digits_of_length w).mono (by decide) hlen
  obtain ⟨hlow, -⟩ := h.rounds_iff.mp hc.reads
  have hfar := hfoot.risk_far hrisk' hdigits hlow
  have hnear := hc.rounded.near
  rw [hvalue] at hnear
  have hclose := (abs_le.mp hnear).2
  rcases Nat.lt_trichotomy j k with hlt | heq | hgt
  · -- Then fewer digits would read back.
    have hfewer : Digits 10 (k - 1) w.value :=
      (digits_of_length w).mono (by decide) (hc.rounded.length.trans (by omega))
    exact hno ((h.readsBack_iff (by omega) (by omega)).mp ⟨w.value, hfewer, hc.reads⟩)
  · -- Then the two decimals are as near as each other, and the even one is below.
    rw [heq] at hclose hnear
    obtain ⟨c, hgrid, hceven⟩ := hc.rounded.grid
    rw [heq] at hgrid hceven
    rw [hvalue] at hceven
    have htie : w.value - f.value n = 10 ^ ((exact p.m p.e).point - k) / 2 :=
      le_antisymm hclose hfar
    have hhalf : 2 * rest f t k = (10 : ℚ) ^ ((exact p.m p.e).point - k) := by
      refine le_antisymm hrisk'.2.2 ?_
      rcases hfoot.cases hdigits with ⟨hle, -⟩ | ⟨-, hstep⟩
      · have hg := hfoot.unit_pos
        linarith
      · linarith
    have hc2 := hceven (by rw [htie, abs_of_pos (by have hg := hfoot.unit_pos; linarith)])
    rw [hgrid] at htie
    obtain ⟨hunit, hnext⟩ := tie_scaled (scale_pos f t) h.foot_eq (h.unit_eq hk) hfoot.unit_pos hhalf
      htie
    omega
  · -- Then the decimal is nearer than any with `k` digits that reads back.
    have hunit : (10 : ℚ) ^ ((exact p.m p.e).point - j) < 10 ^ ((exact p.m p.e).point - k) :=
      ten_lt_ten.mpr (by omega)
    linarith

end AnticFloat
