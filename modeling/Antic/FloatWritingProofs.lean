import Antic.ShortestFeet

/-! # Float to text

    `anti_rt_builder_float` without a precision writes the fewest digits that read back,
    except of some powers of two: at these the nearest decimal with so many digits stands
    below the interval, and the code goes on to more digits. -/

namespace AnticFloat

open Decimal BinaryFormats Format ShortDecimals

/-- The exponent fields of the doubles that are powers of two and get too many digits. -/
def doubleFeet : List ℕ :=
  [6, 16, 66, 102, 215, 232, 235, 245, 318, 328, 361, 371, 474, 514, 527, 534, 640, 657, 727, 883,
    926, 946, 979, 999, 1112, 1145, 1155, 1195, 1205, 1298, 1328, 1368, 1401, 1421, 1428, 1504,
    1557, 1567, 1577, 1597, 1617, 1733, 1826, 1886, 1919, 1999]

/-- Those of the floats. -/
def singleFeet : List ℕ := [31, 214, 217]

-- ── The powers of two ────

theorem critical_double : Critical double [16] := by
  intro k hpos hk hten htwo
  have hten' : 2 ^ 52 < 10 ^ k := hten
  interval_cases k
  all_goals first | decide | exact absurd hten' (by decide)

theorem critical_single : Critical single [7, 8] := by
  intro k hpos hk hten htwo
  have hten' : 2 ^ 23 < 10 ^ k := hten
  have htwo' : 10 ^ (k - 1) < 2 ^ 24 := htwo
  interval_cases k
  all_goals first | decide | exact absurd hten' (by decide) | exact absurd htwo' (by decide)

/-- Below every power of two but those of `feet` the decimals with fewer digits read back as
    they should, and below these the one with `k` digits does not. -/
def Feet (f : Format) (ks : List ℕ) (k : ℕ) (feet : List ℕ) : Prop :=
  (∀ t ∈ List.range (2 ^ f.exponent - 2), t = 0 ∨ (PlaceFits f t ∧
    (Steady f t ks ∨ t + 1 ∈ feet))) ∧
  ∀ field ∈ feet, 2 ≤ field ∧ Misses f (field - 1) k ∧ ¬ Reaches f (field - 1) (k - 1)

instance (f : Format) (ks : List ℕ) (k : ℕ) (feet : List ℕ) : Decidable (Feet f ks k feet) :=
  inferInstanceAs (Decidable (_ ∧ _))

theorem feet_double_single : Feet double [16] 16 doubleFeet ∧ Feet single [7, 8] 8 singleFeet := by
  decide +kernel

-- ── The text ────

variable {f : Format} {n t : ℕ} {p : Parts}

theorem Window.foot_iff (h : Window f n p t) (hn : n ≠ 0) {field : ℕ} (hfield : 2 ≤ field) :
    n = field * 2 ^ f.mantissa ↔ p.boundary = true ∧ field = t + 1 := by
  have hbits := h.bits
  have hwide := h.wide
  have hm := h.m_pos hn
  have hpos := Nat.two_pow_pos f.mantissa
  have htwo : 2 ^ (f.mantissa + 1) = 2 ^ f.mantissa * 2 := Nat.pow_succ ..
  constructor
  · intro hpower
    have hdvd : 2 ^ f.mantissa ∣ p.m := by
      rw [hpower] at hbits
      exact (Nat.dvd_add_right (Nat.dvd_mul_left _ t)).mp (hbits ▸ Nat.dvd_mul_left _ field)
    obtain ⟨c, hc⟩ := hdvd
    have hone : c = 1 := by
      have hlt : c < 2 := by
        rw [hc, htwo] at hwide
        exact Nat.lt_of_mul_lt_mul_left hwide
      have hne : c ≠ 0 := by
        rintro rfl
        omega
      omega
    rw [hone, Nat.mul_one] at hc
    have hfieldt : field = t + 1 := by
      rw [hpower, hc, ← Nat.succ_mul] at hbits
      exact Nat.eq_of_mul_eq_mul_right hpos hbits
    exact ⟨h.boundary.mpr ⟨hc, by omega⟩, hfieldt⟩
  · rintro ⟨hb, rfl⟩
    rw [hbits, (h.boundary.mp hb).1, Nat.succ_mul]

/-- **The digits are the fewest**, except at the feet of some binades. -/
theorem fewest_iff (hf : Supported f) {ks feet : List ℕ} {k : ℕ} (hks : Critical f ks)
    (hone : 1 < k) (hk : k ≤ 17) (hfeet : Feet f ks k feet) (h : Window f n p t) (hn : n ≠ 0)
    (hfin : n < f.infinite) (negative exponent : Bool) :
    FewestDigits f n ((if negative then [45] else []) ++ putShortest (shortest p) exponent) ↔
      n ∉ feet.map (· * 2 ^ f.mantissa) := by
  obtain ⟨hsteady, hmiss⟩ := hfeet
  obtain ⟨j, hc⟩ := shortest_spec hf h hn hfin
  have hmem : n ∈ feet.map (· * 2 ^ f.mantissa) ↔ p.boundary = true ∧ t + 1 ∈ feet := by
    rw [List.mem_map]
    constructor
    · rintro ⟨field, hfield, heq⟩
      obtain ⟨hb, rfl⟩ := (h.foot_iff hn (hmiss field hfield).1).mp heq.symm
      exact ⟨hb, hfield⟩
    · rintro ⟨hb, hfield⟩
      exact ⟨t + 1, hfield, ((h.foot_iff hn (hmiss _ hfield).1).mpr ⟨hb, rfl⟩).symm⟩
  rw [FewestDigits, significantCount_shortest hc.rounded.normal, hmem]
  by_cases hb : p.boundary = true
  · have ht : t ≠ 0 := (h.boundary.mp hb).2
    have hrange : t ∈ List.range (2 ^ f.exponent - 2) := by
      rw [(h.foot_iff hn (by omega : 2 ≤ t + 1)).mpr ⟨hb, rfl⟩, infinite] at hfin
      have hlt := Nat.lt_of_mul_lt_mul_right hfin
      rw [List.mem_range]
      omega
    obtain ⟨hplace, hcases⟩ := (hsteady t hrange).resolve_left ht
    have hfoot : AtFoot f n p t := ⟨hf, h, hn, hfin, hb, hplace⟩
    by_cases hlisted : t + 1 ∈ feet
    · obtain ⟨-, hmisses, hno⟩ := hmiss _ hlisted
      exact iff_of_false (hfoot.not_isLeast hone hk hmisses hno hc) (fun h => h ⟨hb, hlisted⟩)
    · exact iff_of_true (hfoot.isLeast hks (hcases.resolve_right hlisted) hc) (fun h => hlisted h.2)
  · refine iff_of_true (hc.isLeast hn ?_) (fun h => hb h.1)
    exact fun k _ hleast => rounds_nearest hf h hn hfin (Bool.eq_false_iff.mpr hb) hleast.1

theorem FiniteBits.mod_eq (b : FiniteBits f) :
    b.bits % 2 ^ (f.mantissa + f.exponent) = b.magnitude := by
  have hlt := Nat.lt_trans b.finite (infinite_lt f)
  rw [FiniteBits.bits]
  split
  · rw [Nat.add_mod_left, Nat.mod_eq_of_lt hlt]
  · rw [Nat.zero_add, Nat.mod_eq_of_lt hlt]

/-- A finite value is written from the shortest digits in its window. -/
theorem builderFloat_finite (b : FiniteBits f) {x : Given}
    (hnan : x.isNan = false) (hinf : x.isInf = false)
    (hparts : partsOf x = partsAt f.mantissa f.exponent (1 - f.bias - f.mantissa) b.bits)
    {precision : ℤ} (hp : precision < 0) (exponent : Bool) :
    ∃ p t, Window f b.magnitude p t ∧ builderFloat x precision exponent =
      (if b.negative then [45] else []) ++ putShortest (shortest p) exponent := by
  obtain ⟨hneg, t, hwindow⟩ := partsAt_spec b
  refine ⟨_, t, hwindow, ?_⟩
  have hm := hwindow.m_pos b.not_zero
  rw [builderFloat, hnan, hinf, hparts, if_neg Bool.false_ne_true, if_neg Bool.false_ne_true, hneg,
    if_pos hp, if_neg (Nat.one_le_iff_ne_zero.mp hm)]

theorem builderFloat_double (b : FiniteBits double) {precision : ℤ} (hp : precision < 0)
    (exponent : Bool) : ∃ p t, Window double b.magnitude p t ∧
      builderFloat (.f64 b.bits) precision exponent =
        (if b.negative then [45] else []) ++ putShortest (shortest p) exponent := by
  have hmod : b.bits % 2 ^ 63 = b.magnitude := b.mod_eq
  have hfin : b.magnitude < 2047 * 2 ^ 52 := b.finite
  refine builderFloat_finite b ?_ ?_ rfl hp exponent
  · rw [Given.isNan, hmod, decide_eq_false (by omega)]
  · rw [Given.isInf, hmod, decide_eq_false (by omega)]

theorem builderFloat_single (b : FiniteBits single) {precision : ℤ} (hp : precision < 0)
    (exponent : Bool) : ∃ p t, Window single b.magnitude p t ∧
      builderFloat (.f32 b.bits) precision exponent =
        (if b.negative then [45] else []) ++ putShortest (shortest p) exponent := by
  have hmod : b.bits % 2 ^ 31 = b.magnitude := b.mod_eq
  have hfin : b.magnitude < 255 * 2 ^ 23 := b.finite
  refine builderFloat_finite b ?_ ?_ rfl hp exponent
  · rw [Given.isNan, hmod, decide_eq_false (by omega)]
  · rw [Given.isInf, hmod, decide_eq_false (by omega)]

/-- **Float to text.**  The text of a finite float that is not zero has the fewest digits that read
    back, unless the float is one of 46 powers of two of the doubles, or of 3 of the single ones. -/
theorem builderFloat_fewest_iff (precision : ℤ) (hp : precision < 0) (exponent : Bool) :
    (∀ b : FiniteBits double,
      FewestDigits double b.magnitude (builderFloat (.f64 b.bits) precision exponent) ↔
        b.magnitude ∉ doubleFeet.map (· * 2 ^ 52)) ∧
    (∀ b : FiniteBits single,
      FewestDigits single b.magnitude (builderFloat (.f32 b.bits) precision exponent) ↔
        b.magnitude ∉ singleFeet.map (· * 2 ^ 23)) := by
  constructor
  · intro b
    obtain ⟨p, t, hwindow, htext⟩ := builderFloat_double b hp exponent
    rw [htext]
    exact fewest_iff supported_double critical_double (by decide) (by decide)
      feet_double_single.1 hwindow b.not_zero b.finite b.negative exponent
  · intro b
    obtain ⟨p, t, hwindow, htext⟩ := builderFloat_single b hp exponent
    rw [htext]
    exact fewest_iff supported_single critical_single (by decide) (by decide)
      feet_double_single.2 hwindow b.not_zero b.finite b.negative exponent

theorem builderFloat_fewest_iff_default : (∀ b : FiniteBits double,
      FewestDigits double b.magnitude (builderFloat (.f64 b.bits) (-1) false) ↔
        b.magnitude ∉ doubleFeet.map (· * 2 ^ 52)) ∧
    (∀ b : FiniteBits single,
      FewestDigits single b.magnitude (builderFloat (.f32 b.bits) (-1) false) ↔
        b.magnitude ∉ singleFeet.map (· * 2 ^ 23)) :=
  builderFloat_fewest_iff (-1) (by decide) false

/-- **`2 ^ -44`** gets 17 digits where 16 read back. -/
theorem builderFloat_foot_wrong :
    ¬ FewestDigits double (979 * 2 ^ 52) (builderFloat (.f64 (979 * 2 ^ 52)) (-1) false) := by
  obtain ⟨p, t, hwindow, htext⟩ := builderFloat_double
    ⟨false, 979 * 2 ^ 52, by decide, by decide⟩ (show (-1 : ℤ) < 0 by decide) false
  have hbits : FiniteBits.bits (f := double) ⟨false, 979 * 2 ^ 52, by decide, by decide⟩ =
      979 * 2 ^ 52 := rfl
  rw [hbits] at htext
  rw [htext]
  intro hfewest
  exact (fewest_iff supported_double critical_double (by decide) (by decide)
    feet_double_single.1 hwindow (by decide) (by decide) false false).mp hfewest (by decide)

end AnticFloat
