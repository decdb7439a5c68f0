import Mathlib

/-! # Numbers with few digits near a number

    Of the numbers with at most `n` digits in a base, one that is nearest to `v` stands on
    the grid of the `n`th digit of `v`.  An interval that is symmetric about `v` holds a
    number with `n` digits if and only if it holds the nearest one.  Of an interval that
    reaches twice as far up as down, the digits of `v` itself decide it. -/

namespace ShortDecimals

/-- A number with at most `n` digits in base `b`. -/
def Digits (b n : ℕ) (x : ℚ) : Prop := ∃ (c : ℕ) (k : ℤ), c < b ^ n ∧ x = c * b ^ k

/-- A number on the grid of the units `g`. -/
def OnGrid (g x : ℚ) : Prop := ∃ c : ℕ, x = c * g

variable {b n : ℕ} {x y v w g : ℚ} {p : ℤ}

theorem Digits.mono {k : ℕ} (hb : 1 < b) (h : Digits b n x) (hk : n ≤ k) : Digits b k x := by
  obtain ⟨c, e, hc, hx⟩ := h
  exact ⟨c, e, Nat.lt_of_lt_of_le hc (Nat.pow_le_pow_right (by omega) hk), hx⟩

theorem base_pos (hb : 1 < b) (k : ℤ) : (0 : ℚ) < (b : ℚ) ^ k :=
  zpow_pos (by exact_mod_cast (by omega : 0 < b)) k

theorem base_le (hb : 1 < b) {k l : ℤ} (h : k ≤ l) : (b : ℚ) ^ k ≤ b ^ l :=
  zpow_le_zpow_right₀ (by exact_mod_cast hb.le) h

theorem base_ne (hb : 1 < b) : (b : ℚ) ≠ 0 := by exact_mod_cast (by omega : b ≠ 0)

/-- A number of few digits is on the grid, or below what has a digit more before it. -/
theorem Digits.onGrid_or (hb : 1 < b) (h : Digits b n x) (p : ℤ) :
    OnGrid (b ^ (p - n)) x ∨ x < b ^ (p - 1) := by
  obtain ⟨c, k, hc, rfl⟩ := h
  rcases lt_or_ge k (p - n) with hlt | hge
  · right
    have hc' : (c : ℚ) < b ^ (n : ℤ) := by
      rw [zpow_natCast]
      exact_mod_cast hc
    calc (c : ℚ) * b ^ k < b ^ (n : ℤ) * b ^ k := mul_lt_mul_of_pos_right hc' (base_pos hb k)
      _ = b ^ (n + k) := (zpow_add₀ (base_ne hb) _ _).symm
      _ ≤ b ^ (p - 1) := base_le hb (by omega)
  · left
    obtain ⟨j, hj⟩ := Int.eq_ofNat_of_zero_le (Int.sub_nonneg_of_le hge)
    have hk : k = j + (p - n) := by omega
    refine ⟨c * b ^ j, ?_⟩
    rw [hk, zpow_add₀ (base_ne hb), zpow_natCast]
    push_cast
    ring

theorem onGrid_first (hb : 1 < b) (hn : 0 < n) (p : ℤ) : OnGrid ((b : ℚ) ^ (p - n)) (b ^ (p - 1)) := by
  obtain ⟨j, rfl⟩ := Nat.exists_eq_add_of_le' hn
  refine ⟨b ^ j, ?_⟩
  push_cast
  rw [← zpow_natCast, ← zpow_add₀ (base_ne hb)]
  congr 1
  ring

/-- **Above** a number in the decade, all numbers of few digits are on the grid. -/
theorem Digits.above (hb : 1 < b) (h : Digits b n x) (hv : b ^ (p - 1) ≤ v) (hx : v ≤ x) :
    OnGrid (b ^ (p - n)) x := by
  rcases h.onGrid_or hb p with hgrid | hlt
  · exact hgrid
  · linarith

/-- **Below** it, one on the grid is at least as near. -/
theorem Digits.below (hb : 1 < b) (h : Digits b n x) (hn : 0 < n) (hv : b ^ (p - 1) ≤ v)
    (hx : x ≤ v) : ∃ y, OnGrid (b ^ (p - n)) y ∧ x ≤ y ∧ y ≤ v := by
  rcases h.onGrid_or hb p with hgrid | hlt
  · exact ⟨x, hgrid, le_rfl, hx⟩
  · exact ⟨_, onGrid_first hb hn p, hlt.le, hv⟩

theorem OnGrid.apart (hg : 0 < g) (hx : OnGrid g x) (hy : OnGrid g y) (hlt : x < y) : x + g ≤ y := by
  obtain ⟨c, rfl⟩ := hx
  obtain ⟨d, rfl⟩ := hy
  have hcd : (c : ℚ) < d := lt_of_mul_lt_mul_right hlt hg.le
  have hsucc : (c + 1 : ℕ) ≤ d := by exact_mod_cast hcd
  have hsucc' : (c : ℚ) + 1 ≤ d := by exact_mod_cast hsucc
  calc (c : ℚ) * g + g = (c + 1) * g := by ring
    _ ≤ d * g := mul_le_mul_of_nonneg_right hsucc' hg.le

theorem OnGrid.nearest (hg : 0 < g) (hw : OnGrid g w) (hnear : |w - v| ≤ g / 2) (hy : OnGrid g y) :
    |w - v| ≤ |y - v| := by
  rcases lt_trichotomy w y with hlt | heq | hlt
  · have happart := hw.apart hg hy hlt
    have h1 := neg_abs_le (w - v)
    have h2 := le_abs_self (y - v)
    linarith
  · rw [heq]
  · have happart := hy.apart hg hw hlt
    have h1 := le_abs_self (w - v)
    have h2 := neg_abs_le (y - v)
    linarith

/-- **The nearest number of so many digits** is a nearest one on the grid. -/
theorem nearest (hb : 1 < b) (hn : 0 < n) (hv : b ^ (p - 1) ≤ v) (hw : OnGrid (b ^ (p - n)) w)
    (hnear : |w - v| ≤ b ^ (p - n) / 2) (hx : Digits b n x) : |w - v| ≤ |x - v| := by
  have hg := base_pos hb (p - n)
  rcases le_total v x with hle | hle
  · exact hw.nearest hg hnear (hx.above hb hv hle)
  · obtain ⟨y, hy, hxy, hyv⟩ := hx.below hb hn hv hle
    have h := hw.nearest hg hnear hy
    rw [abs_of_nonpos (by linarith : y - v ≤ 0)] at h
    rw [abs_of_nonpos (by linarith : x - v ≤ 0)]
    linarith

-- ── The interval at the foot of a binade ────

/-- `v` stands `r` above the number on the grid below it, and `q` is a quarter of the gap
    above `v`, which is half as wide below. -/
structure Foot (b n : ℕ) (p : ℤ) (v g q r : ℚ) : Prop where
  base : 1 < b
  digits : 0 < n
  low : b ^ (p - 1) ≤ v
  high : v < b ^ p
  unit : g = b ^ (p - n)
  floor : OnGrid g (v - r)
  nonneg : 0 ≤ r
  small : r < g

/-- A number with so many digits stands in the interval. -/
def Reach (g q r : ℚ) : Prop := r ≤ q ∨ g - r ≤ 2 * q

/-- The number below `v` does not stand in it, the one above does, and is not nearer. -/
def Risk (g q r : ℚ) : Prop := q < r ∧ g - r ≤ 2 * q ∧ 2 * r ≤ g

variable {q r : ℚ}

namespace Foot

variable (h : Foot b n p v g q r)
include h

theorem unit_pos : 0 < g := by
  rw [h.unit]
  exact base_pos h.base _

theorem units : (b : ℚ) ^ n * g = b ^ p := by
  rw [h.unit, ← zpow_natCast, ← zpow_add₀ (base_ne h.base)]
  congr 1
  ring

theorem exists_floor : ∃ c : ℕ, v - r = c * g ∧ c < b ^ n := by
  obtain ⟨c, hc⟩ := h.floor
  refine ⟨c, hc, ?_⟩
  have hlt : (c : ℚ) * g < b ^ n * g := by
    have hhigh := h.high
    have hr := h.nonneg
    rw [h.units, ← hc]
    linarith
  exact_mod_cast lt_of_mul_lt_mul_right hlt h.unit_pos.le

theorem digits_floor : Digits b n (v - r) := by
  obtain ⟨c, hc, hlt⟩ := h.exists_floor
  exact ⟨c, p - n, hlt, by rw [hc, h.unit]⟩

theorem digits_next : Digits b n (v - r + g) := by
  obtain ⟨c, hc, hlt⟩ := h.exists_floor
  have hsum : v - r + g = (c + 1 : ℕ) * g := by
    rw [hc]
    push_cast
    ring
  rcases Nat.lt_or_ge (c + 1) (b ^ n) with hnext | hge
  · exact ⟨c + 1, p - n, hnext, by rw [hsum, h.unit]⟩
  · -- It is the first number of the next decade.
    have heq : c + 1 = b ^ n := Nat.le_antisymm hlt hge
    refine ⟨1, p, Nat.one_lt_pow h.digits.ne' h.base, ?_⟩
    rw [hsum, heq, Nat.cast_pow, h.units, Nat.cast_one, one_mul]

theorem cases (hx : Digits b n x) : (x ≤ v ∧ r ≤ v - x) ∨ (v ≤ x ∧ g - r ≤ x - v) := by
  have hg := h.unit_pos
  have hlow := h.low
  have hr := h.nonneg
  have hsmall := h.small
  rcases le_or_gt x v with hle | hlt
  · left
    obtain ⟨y, hy, hxy, hyv⟩ := hx.below h.base h.digits hlow hle
    rw [← h.unit] at hy
    refine ⟨hle, ?_⟩
    by_contra hfar
    have happart := h.floor.apart hg hy (by linarith)
    linarith
  · right
    have hgrid := hx.above h.base hlow hlt.le
    rw [← h.unit] at hgrid
    have happart := h.floor.apart hg hgrid (by linarith)
    exact ⟨hlt.le, by linarith⟩

/-- **Whether a number of so many digits stands in the interval.** -/
theorem exists_iff : (∃ x, Digits b n x ∧ v - q ≤ x ∧ x ≤ v + 2 * q) ↔ Reach g q r := by
  have hr := h.nonneg
  have hsmall := h.small
  constructor
  · rintro ⟨x, hx, hlow, hhigh⟩
    rcases h.cases hx with ⟨-, hnear⟩ | ⟨-, hnear⟩
    · exact Or.inl (by linarith)
    · exact Or.inr (by linarith)
  · rintro (hlow | hhigh)
    · exact ⟨v - r, h.digits_floor, by linarith, by linarith⟩
    · exact ⟨v - r + g, h.digits_next, by linarith, by linarith⟩

/-- **A nearest number** of so many digits stands in the interval, where one does and the one
    below `v` is not the only nearest one out of it. -/
theorem holds_nearest (hreach : Reach g q r) (hw : OnGrid g w) (hnear : |w - v| ≤ g / 2)
    (hrisk : ¬ Risk g q r) : v - q ≤ w ∧ w ≤ v + 2 * q := by
  have hg := h.unit_pos
  have hr := h.nonneg
  have hsmall := h.small
  obtain ⟨h1, h2⟩ := abs_le.mp hnear
  rcases lt_trichotomy w (v - r) with hlt | heq | hlt
  · have happart := hw.apart hg h.floor hlt
    linarith
  · have hhalf : 2 * r ≤ g := by linarith
    have hq : r ≤ q := by
      by_contra hfar
      rcases hreach with hle | hle
      · exact hfar hle
      · exact hrisk ⟨not_le.mp hfar, hle, hhalf⟩
    constructor
    · linarith
    · linarith
  · have happart := h.floor.apart hg hw hlt
    have hhalf : g ≤ 2 * r := by linarith
    have hnext : w = v - r + g := by
      by_contra hne
      have hgrid : OnGrid g (v - r + g) := by
        obtain ⟨c, hc⟩ := h.floor
        exact ⟨c + 1, by rw [hc]; push_cast; ring⟩
      have hfar := hgrid.apart hg hw (lt_of_le_of_ne happart (Ne.symm hne))
      linarith
    rcases hreach with hle | hle
    · constructor
      · linarith
      · linarith
    · constructor
      · linarith
      · linarith

/-- **The number above `v`** is the only one that may stand in the interval where the one
    below does not. -/
theorem risk_far (hrisk : Risk g q r) (hx : Digits b n x) (hlow : v - q ≤ x) : g / 2 ≤ x - v := by
  obtain ⟨hq, -, hhalf⟩ := hrisk
  rcases h.cases hx with ⟨-, hnear⟩ | ⟨-, hnear⟩
  · linarith
  · linarith

end Foot

-- ── Scaled to whole numbers ────

section Scaled

variable {s : ℚ} {V Q G : ℕ}

theorem floor_scaled (hs : 0 < s) (hv : v * s = V) (hg : g * s = G) :
    v - (V % G : ℕ) / s = (V / G : ℕ) * g := by
  have hsplit : (V : ℚ) = G * (V / G : ℕ) + (V % G : ℕ) := by
    exact_mod_cast (Nat.div_add_mod V G).symm
  rw [← hv, ← hg] at hsplit
  field_simp
  linarith

theorem tie_scaled (hs : 0 < s) (hv : v * s = V) (hg : g * s = G) (hpos : 0 < g)
    (htie : 2 * ((V % G : ℕ) / s) = g) {c : ℕ} (hw : c * g - v = g / 2) :
    2 * (V % G) = G ∧ c = V / G + 1 := by
  have hfloor := floor_scaled hs hv hg
  constructor
  · have hcast : (2 : ℚ) * (V % G : ℕ) = G := by
      rw [← hg, ← htie, mul_assoc, div_mul_cancel₀ _ hs.ne']
    exact_mod_cast hcast
  · have hsum : (c : ℚ) * g = ((V / G + 1 : ℕ) : ℚ) * g := by
      push_cast
      linarith
    exact_mod_cast mul_right_cancel₀ hpos.ne' hsum

theorem foot_scaled (hs : 0 < s) (hb : 1 < b) (hn : 0 < n) (hlow : (b : ℚ) ^ (p - 1) ≤ v)
    (hhigh : v < b ^ p) (hunit : g = b ^ (p - n)) (hv : v * s = V) (hg : g * s = G) (hG : 0 < G) :
    Foot b n p v g q ((V % G : ℕ) / s) := by
  refine ⟨hb, hn, hlow, hhigh, hunit, ⟨V / G, floor_scaled hs hv hg⟩,
    div_nonneg (Nat.cast_nonneg _) hs.le, ?_⟩
  rw [div_lt_iff₀ hs, hg]
  exact_mod_cast Nat.mod_lt _ hG

theorem reach_scaled (hs : 0 < s) (hq : q * s = Q) (hg : g * s = G) :
    Reach g q ((V % G : ℕ) / s) ↔ V % G ≤ Q ∨ G ≤ V % G + 2 * Q := by
  have hcast : (V % G ≤ Q ∨ G ≤ V % G + 2 * Q) ↔
      (((V % G : ℕ) : ℚ) ≤ q * s ∨ g * s ≤ (V % G : ℕ) + 2 * (q * s)) := by
    rw [hq, hg]
    norm_cast
  rw [Reach, hcast, div_le_iff₀ hs, sub_le_iff_le_add, ← mul_le_mul_iff_of_pos_right hs (b := g),
    add_mul, mul_assoc, div_mul_cancel₀ _ hs.ne', add_comm (2 * (q * s))]

theorem risk_scaled (hs : 0 < s) (hq : q * s = Q) (hg : g * s = G) :
    Risk g q ((V % G : ℕ) / s) ↔ Q < V % G ∧ G ≤ V % G + 2 * Q ∧ 2 * (V % G) ≤ G := by
  have hcast : (Q < V % G ∧ G ≤ V % G + 2 * Q ∧ 2 * (V % G) ≤ G) ↔
      (q * s < ((V % G : ℕ) : ℚ) ∧ g * s ≤ (V % G : ℕ) + 2 * (q * s) ∧
        2 * ((V % G : ℕ) : ℚ) ≤ g * s) := by
    rw [hq, hg]
    norm_cast
  rw [Risk, hcast, lt_div_iff₀ hs, sub_le_iff_le_add, ← mul_le_mul_iff_of_pos_right hs (b := g),
    add_mul, mul_assoc, div_mul_cancel₀ _ hs.ne', add_comm (2 * (q * s)),
    ← mul_le_mul_iff_of_pos_right hs (c := g), mul_assoc, div_mul_cancel₀ _ hs.ne']

end Scaled

end ShortDecimals
