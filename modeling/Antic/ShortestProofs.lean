import Antic.FloatParts
import Antic.ShortDecimals
import Antic.ShortestTexts

/-! # The fewest digits that read back

    `shortest` takes the first count of digits to which the exact value rounds into the
    interval between the half-way points.  Where the interval is symmetric about the value,
    no decimal with fewer digits stands in it. -/

namespace AnticFloat

open Decimal BinaryFormats Format ShortDecimals

variable {f : Format} {n t : ℕ} {p : Parts}

/-- Some decimal with at most `k` significant digits reads back as the bits. -/
def ReadsBack (f : Format) (n k : ℕ) : Prop := ∃ x, Digits 10 k x ∧ f.Rounds x n

/-- The text has the fewest significant digits with which a decimal reads back. -/
def FewestDigits (f : Format) (n : ℕ) (text : List UInt8) : Prop :=
  IsLeast {k | ReadsBack f n k} (significantCount text)

-- ── The loop ────

theorem accepts_iff {out low high : Decimal} (even : Bool) (hout : out.Normal) (hlow : low.Normal)
    (hhigh : high.Normal) :
    ((out.compare low > 0 ∨ (even = true ∧ out.compare low = 0)) ∧
      (out.compare high < 0 ∨ (even = true ∧ out.compare high = 0))) ↔
      Between (even = true) low.value high.value out.value := by
  have hbelow : (out.compare low > 0 ↔ low.value < out.value) ∧
      (out.compare low = 0 ↔ out.value = low.value) := by
    rcases compare_spec hout hlow with ⟨hr, hlt⟩ | ⟨hr, heq⟩ | ⟨hr, hlt⟩
    · rw [hr]
      exact ⟨iff_of_false (by decide) (not_lt.mpr hlt.le), iff_of_false (by decide) hlt.ne⟩
    · rw [hr, heq]
      exact ⟨iff_of_false (by decide) (lt_irrefl _), iff_of_true rfl rfl⟩
    · rw [hr]
      exact ⟨iff_of_true (by decide) hlt, iff_of_false (by decide) hlt.ne'⟩
  have habove : (out.compare high < 0 ↔ out.value < high.value) ∧
      (out.compare high = 0 ↔ out.value = high.value) := by
    rcases compare_spec hout hhigh with ⟨hr, hlt⟩ | ⟨hr, heq⟩ | ⟨hr, hlt⟩
    · rw [hr]
      exact ⟨iff_of_true (by decide) hlt, iff_of_false (by decide) hlt.ne⟩
    · rw [hr, heq]
      exact ⟨iff_of_false (by decide) (lt_irrefl _), iff_of_true rfl rfl⟩
    · rw [hr]
      exact ⟨iff_of_false (by decide) (not_lt.mpr hlt.le), iff_of_false (by decide) hlt.ne'⟩
  rw [Between, hbelow.1, hbelow.2, habove.1, habove.2]

/-- **The loop** stops at the first count that is taken, or at 17. -/
theorem shortestFrom_spec {value low high : Decimal} (even : Bool) (hvalue : value.Normal)
    (hlow : low.Normal) (hhigh : high.Normal) (turns : ℕ) : ∀ (digits : ℕ),
    0 < digits → digits + turns = 17 →
    ∃ j : ℕ, digits ≤ j ∧ j ≤ 17 ∧ shortestFrom value low high even turns digits = value.roundTo j ∧
      (j = 17 ∨ Between (even = true) low.value high.value (value.roundTo j).value) ∧
      ∀ i : ℕ, digits ≤ i → i < j →
        ¬ Between (even = true) low.value high.value (value.roundTo i).value := by
  induction turns with
  | zero =>
    intro digits _ hsum
    exact ⟨17, by omega, le_rfl, rfl, Or.inl rfl, fun i h1 h2 => by omega⟩
  | succ turns ih =>
    intro digits hpos hsum
    have hiff := accepts_iff even (roundTo_spec hvalue hpos).normal hlow hhigh
    rw [shortestFrom]
    by_cases haccept : Between (even = true) low.value high.value (value.roundTo digits).value
    · rw [if_pos (hiff.mpr haccept)]
      exact ⟨digits, le_rfl, by omega, rfl, Or.inr haccept, fun i h1 h2 => by omega⟩
    · rw [if_neg (fun h => haccept (hiff.mp h))]
      obtain ⟨j, hj, hj17, hout, hin, hbefore⟩ := ih (digits + 1) (Nat.succ_pos _) (by omega)
      refine ⟨j, by omega, hj17, hout, hin, ?_⟩
      intro i hi hij
      rcases Nat.lt_or_eq_of_le hi with hlt | rfl
      · exact hbefore i hlt hij
      · exact haccept

-- ── The decimal that is chosen ────

theorem highPoint_eq (h : Window f n p t) : highPoint p = f.value n + 2 ^ (p.e - 1) := by
  have htwo : (2 : ℚ) ^ p.e = 2 * 2 ^ (p.e - 1) := by
    rw [← zpow_one_add₀ (by norm_num)]
    congr 1
    ring
  rw [h.value_eq, highPoint, htwo]
  push_cast
  ring

theorem lowPoint_eq (h : Window f n p t) (hn : n ≠ 0) :
    lowPoint p = f.value n - if p.boundary then 2 ^ (p.e - 2) else 2 ^ (p.e - 1) := by
  have hm := h.m_pos hn
  have htwo : (2 : ℚ) ^ p.e = 2 * 2 ^ (p.e - 1) := by
    rw [← zpow_one_add₀ (by norm_num)]
    congr 1
    ring
  have hfour : (2 : ℚ) ^ (p.e - 1) = 2 * 2 ^ (p.e - 2) := by
    rw [← zpow_one_add₀ (by norm_num)]
    congr 1
    ring
  rw [h.value_eq, lowPoint]
  by_cases hb : p.boundary = true
  · rw [if_pos hb, if_pos hb, Nat.cast_sub (by omega), htwo, hfour]
    push_cast
    ring
  · rw [if_neg hb, if_neg hb, Nat.cast_sub (by omega), htwo]
    push_cast
    ring

/-- **Seventeen digits** always read back. -/
theorem rounds_seventeen (hf : Supported f) (h : Window f n p t) (hn : n ≠ 0) (hfin : n < f.infinite)
    {w : Decimal} (hw : RoundedTo (exact p.m p.e) w 17) : f.Rounds w.value n := by
  obtain ⟨⟨hnormal, hvalue⟩, -, -⟩ := h.exact_points hf hn hfin
  have hnear := hw.near
  have hlow := hnormal.le_value
  rw [hvalue] at hnear hlow
  have hunit : (10 : ℚ) ^ ((exact p.m p.e).point - 1) =
      10 ^ 16 * 10 ^ ((exact p.m p.e).point - (17 : ℕ)) := by
    rw [← zpow_natCast, ← zpow_add₀ (by norm_num)]
    congr 1
    push_cast
    ring
  have hpos : (0 : ℚ) < 2 ^ (p.e - 2) := zpow_pos (by norm_num) _
  have hfour : (2 : ℚ) ^ (p.e - 1) = 2 * 2 ^ (p.e - 2) := by
    rw [← zpow_one_add₀ (by norm_num)]
    congr 1
    ring
  have hpow : (2 : ℚ) ^ p.e = 4 * 2 ^ (p.e - 2) := by
    have hsum : (2 : ℤ) + (p.e - 2) = p.e := by ring
    calc (2 : ℚ) ^ p.e = 2 ^ ((2 : ℤ) + (p.e - 2)) := by rw [hsum]
      _ = 4 * 2 ^ (p.e - 2) := by
        rw [zpow_add₀ (by norm_num)]
        norm_num
  have hmant : 2 ^ f.mantissa ≤ 2 ^ 52 := Nat.pow_le_pow_right (by decide) hf.mantissa_most
  have hwide := h.wide
  rw [hunit, h.value_eq, hpow] at hlow
  have hm : (p.m : ℚ) * (4 * 2 ^ (p.e - 2)) ≤
      (if p.boundary then 2 ^ 52 else 2 ^ 53) * (4 * 2 ^ (p.e - 2)) := by
    refine mul_le_mul_of_nonneg_right ?_ (by linarith)
    by_cases hb : p.boundary = true
    · have hfirst := (h.boundary.mp hb).1
      rw [if_pos hb]
      exact_mod_cast (by omega : p.m ≤ 2 ^ 52)
    · rw [if_neg hb]
      exact_mod_cast (by omega : p.m ≤ 2 ^ 53)
  have hunits := hlow.trans hm
  rw [h.rounds_iff hn hfin, lowPoint_eq h hn, highPoint_eq h, hfour]
  obtain ⟨h1, h2⟩ := abs_le.mp hnear
  generalize (10 : ℚ) ^ ((exact p.m p.e).point - (17 : ℕ)) = g at h1 h2 hunits
  generalize (2 : ℚ) ^ (p.e - 2) = q at hpos hunits ⊢
  by_cases hb : p.boundary = true
  · rw [if_pos hb] at hunits ⊢
    exact ⟨Or.inl (by linarith), Or.inl (by linarith)⟩
  · rw [if_neg hb] at hunits ⊢
    exact ⟨Or.inl (by linarith), Or.inl (by linarith)⟩

/-- What `shortest` gives: the first of the roundings that reads back. -/
structure Chosen (f : Format) (n : ℕ) (v w : Decimal) (j : ℕ) : Prop where
  pos : 0 < j
  last : j ≤ 17
  rounded : RoundedTo v w j
  reads : f.Rounds w.value n
  first : ∀ i, 0 < i → i < j → ¬ f.Rounds (v.roundTo i).value n

theorem shortest_spec (hf : Supported f) (h : Window f n p t) (hn : n ≠ 0) (hfin : n < f.infinite) :
    ∃ j, Chosen f n (exact p.m p.e) (shortest p) j := by
  obtain ⟨⟨hnormal, -⟩, ⟨hhigh, hhighv⟩, hlow⟩ := h.exact_points hf hn hfin
  obtain ⟨hlown, hlowv⟩ := hlow _ rfl
  obtain ⟨j, hj, hj17, hout, hin, hbefore⟩ :=
    shortestFrom_spec (decide (p.m % 2 = 0)) hnormal hlown hhigh 16 1 Nat.one_pos rfl
  have hiff : ∀ w : Decimal, f.Rounds w.value n ↔ Between (decide (p.m % 2 = 0) = true) (lowPoint p)
      (highPoint p) w.value := by
    intro w
    rw [h.rounds_iff hn hfin, decide_eq_true_iff]
  rw [hlowv, hhighv] at hin hbefore
  have hw : shortest p = (exact p.m p.e).roundTo j := hout
  have hround := roundTo_spec hnormal (Nat.lt_of_lt_of_le Nat.zero_lt_one hj)
  refine ⟨j, hj, hj17, by rw [hw]; exact hround, ?_, ?_⟩
  · rw [hw]
    rcases hin with rfl | hin
    · exact rounds_seventeen hf h hn hfin hround
    · exact (hiff _).mpr hin
  · intro i hi hij hrounds
    exact hbefore i hi hij ((hiff _).mp hrounds)

-- ── The fewest digits ────

theorem digits_of_length (w : Decimal) : Digits 10 w.d.length w.value :=
  ⟨number w.d, w.point - w.d.length, number_lt w.d, by norm_cast⟩

theorem ReadsBack.pos {k : ℕ} (h : ReadsBack f n k) (hn : n ≠ 0) : 0 < k := by
  obtain ⟨x, ⟨c, e, hc, hx⟩, hround⟩ := h
  refine Nat.pos_of_ne_zero ?_
  rintro rfl
  have hzero : c = 0 := Nat.lt_one_iff.mp hc
  have hself : f.Rounds 0 0 := by
    have h0 := rounds_value (f := f) (Nat.zero_le _)
    rw [value_zero] at h0
    exact h0
  rw [hx, hzero, Nat.cast_zero, zero_mul] at hround
  exact hn (hround.unique hself)

/-- **The first rounding that reads back** has the fewest digits, where the nearest decimal
    reads back of the least count with which any does. -/
theorem Chosen.isLeast {v w : Decimal} {j : ℕ} (h : Chosen f n v w j) (hn : n ≠ 0)
    (hnearest : ∀ k, k < 17 → IsLeast {k | ReadsBack f n k} k → f.Rounds (v.roundTo k).value n) :
    IsLeast {k | ReadsBack f n k} w.d.length := by
  have hmem : ReadsBack f n w.d.length := ⟨w.value, digits_of_length w, h.reads⟩
  refine ⟨hmem, ?_⟩
  intro k hk
  -- The least count is one at which the loop has stopped.
  classical
  obtain ⟨k0, hk0⟩ : ∃ k0, IsLeast {k | ReadsBack f n k} k0 :=
    ⟨Nat.find ⟨_, hmem⟩, Nat.find_spec ⟨_, hmem⟩, fun i hi => Nat.find_min' ⟨_, hmem⟩ hi⟩
  refine le_trans ?_ (hk0.2 hk)
  have hlength := h.rounded.length
  have hlast := h.last
  rcases Nat.lt_or_ge k0 17 with hlt | hge
  · have hj : j ≤ k0 := by
      by_contra hlate
      exact h.first k0 (hk0.1.pos hn) (not_le.mp hlate) (hnearest k0 hlt hk0)
    omega
  · omega

/-- **In a symmetric interval** the nearest decimal reads back with any that does. -/
theorem rounds_nearest (hf : Supported f) (h : Window f n p t) (hn : n ≠ 0) (hfin : n < f.infinite)
    (hb : p.boundary = false) {k : ℕ} (hk : ReadsBack f n k) :
    f.Rounds ((exact p.m p.e).roundTo k).value n := by
  obtain ⟨⟨hnormal, hvalue⟩, -, -⟩ := h.exact_points hf hn hfin
  have hpos := hk.pos hn
  have hround := roundTo_spec hnormal hpos
  obtain ⟨x, hx, hxn⟩ := hk
  obtain ⟨c, hc, -⟩ := hround.grid
  have hfalse : ¬ p.boundary = true := by rw [hb]; exact Bool.false_ne_true
  have hlow := hnormal.le_value
  have hnear : |((exact p.m p.e).roundTo k).value - f.value n| ≤ |x - f.value n| := by
    rw [← hvalue]
    exact nearest (by decide) hpos (by exact_mod_cast hlow) ⟨c, by exact_mod_cast hc⟩
      (by exact_mod_cast hround.near) hx
  rw [h.rounds_iff hn hfin, lowPoint_eq h hn, if_neg hfalse, highPoint_eq h] at hxn ⊢
  exact hxn.of_abs_le hnear

end AnticFloat
