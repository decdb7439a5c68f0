import Antic.BinaryFormats
import Antic.FloatScaling

/-! # The one rounding of `anti_rt_read_float`

    The value is scaled until its mantissa is the whole part of a decimal.  The decimal and
    the value reach the same halves, so the digits behind its point round the value to the
    nearest, and the bits that are put together are those of the nearest float. -/

namespace AnticFloat

open Decimal BinaryFormats Format List Nat

-- ── The whole part ────

/-- The first digits of a decimal, and zeros behind the last one. -/
def leading (v : Decimal) (i : ℕ) : List Digit := v.d.take i ++ List.replicate (i - v.d.length) 0

theorem leading_zero (v : Decimal) : leading v 0 = [] := by
  rw [leading, take_zero, Nat.zero_sub]
  rfl

theorem leading_succ (v : Decimal) (i : ℕ) : leading v (i + 1) = leading v i ++ [v.digitAt i] := by
  rw [leading, leading, digitAt, if_pos (Int.natCast_nonneg i), Int.toNat_natCast]
  rcases Nat.lt_or_ge i v.d.length with hlt | hge
  · have h1 : i + 1 - v.d.length = 0 := by omega
    have h2 : i - v.d.length = 0 := by omega
    rw [h1, h2, take_succ_eq_append_getElem hlt, replicate_zero, append_nil,
      append_nil, getD_eq_getElem _ _ hlt]
  · have h1 : i + 1 - v.d.length = i - v.d.length + 1 := by omega
    rw [h1, take_of_length_le hge, take_of_length_le (by omega), replicate_succ',
      append_assoc, getD_eq_default _ _ hge]

theorem number_leading_succ (v : Decimal) (i : ℕ) :
    number (leading v (i + 1)) = number (leading v i) * 10 + (v.digitAt i).val := by
  rw [leading_succ, number_append, number_singleton, length_singleton, Nat.pow_one]

/-- The loop of `rounded_whole` reads the leading digits, where no word overflows. -/
theorem wholePart_spec (v : Decimal) (left : ℕ) : ∀ (i : ℕ),
    number (leading v (i + left)) < 2 ^ 64 →
    wholePart v left i (number (leading v i)) = number (leading v (i + left)) := by
  induction left with
  | zero => intro i _; rfl
  | succ left ih =>
    intro i hlt
    have hsum : i + (left + 1) = i + 1 + left := by ring
    rw [hsum] at hlt ⊢
    have hmono : ∀ n, number (leading v (i + 1)) ≤ number (leading v (i + 1 + n)) := by
      intro n
      induction n with
      | zero => exact le_rfl
      | succ n ihn =>
        rw [← Nat.add_assoc, number_leading_succ v (i + 1 + n)]
        omega
    have hword : word (number (leading v i) * 10 + (v.digitAt i).val) =
        number (leading v (i + 1)) := by
      rw [← number_leading_succ]
      exact word_of_lt (Nat.lt_of_le_of_lt (hmono left) hlt)
    rw [wholePart, hword]
    exact ih (i + 1) hlt

variable {v : Decimal} {dropped : Bool}

theorem value_split {p : ℕ} (hp : v.point = p) :
    v.value = number (leading v p) + number (v.d.drop p) * 10 ^ (-((v.d.length - p : ℕ) : ℤ)) := by
  rcases Nat.lt_or_ge p v.d.length with hlt | hge
  · obtain ⟨n, hn⟩ := Nat.exists_eq_add_of_le hlt.le
    have hnone : p - v.d.length = 0 := by omega
    have hlen : (v.d.drop p).length = n := by rw [length_drop]; omega
    have hsub : v.d.length - p = n := by omega
    have hnumber : number v.d = number (v.d.take p) * 10 ^ n + number (v.d.drop p) := by
      rw [← hlen, ← number_append, take_append_drop]
    have hexp : v.point - v.d.length = -(n : ℤ) := by omega
    rw [Decimal.value, hexp, hsub, hnumber, leading, hnone, replicate_zero, append_nil, zpow_neg,
      zpow_natCast]
    push_cast
    field_simp
  · have hnumber : number (leading v p) = number v.d * 10 ^ (p - v.d.length) := by
      rw [leading, take_of_length_le hge, number_append, number_replicate_zero,
        length_replicate, Nat.add_zero]
    have hexp : v.point - v.d.length = ((p - v.d.length : ℕ) : ℤ) := by omega
    rw [Decimal.value, hexp, hnumber, drop_of_length_le hge, number_nil, zpow_natCast]
    push_cast
    ring

/-- The digit behind the point of a normal decimal says on which side of a half the rest is. -/
theorem rest_cases (hv : v.Normal) {p : ℕ} (hp : p < v.d.length) :
    ∃ t : ℚ, number (v.d.drop p) * 10 ^ (-((v.d.length - p : ℕ) : ℤ)) = t ∧ 0 ≤ t ∧ t < 1 ∧
      (v.digitAt p = 5 ∧ p + 1 = v.d.length → t = 1 / 2) ∧
      (¬ (v.digitAt p = 5 ∧ p + 1 = v.d.length) → 5 ≤ v.digitAt p → 1 / 2 < t) ∧
      (v.digitAt p < 5 → t < 1 / 2) := by
  obtain ⟨n, hn⟩ : ∃ n, v.d.length - p = n + 1 := ⟨v.d.length - p - 1, by omega⟩
  have hdigit : v.digitAt p = v.d[p] := by
    rw [digitAt, if_pos (Int.natCast_nonneg p), Int.toNat_natCast, getD_eq_getElem _ _ hp]
  have hdrop : v.d.drop p = v.digitAt p :: v.d.drop (p + 1) := by
    rw [hdigit]
    exact drop_eq_getElem_cons hp
  have hlen : (v.d.drop (p + 1)).length = n := by rw [length_drop]; omega
  have hlt : (number (v.d.drop (p + 1)) : ℚ) < 10 ^ n := by
    rw [← hlen]
    exact_mod_cast number_lt _
  have hpow : (0 : ℚ) < 10 ^ n := by positivity
  have hrest : (0 : ℚ) ≤ number (v.d.drop (p + 1)) := cast_nonneg _
  have hvalue : (number (v.d.drop p) : ℚ) * 10 ^ (-((v.d.length - p : ℕ) : ℤ)) =
      ((v.digitAt p).val + number (v.d.drop (p + 1)) / 10 ^ n) / 10 := by
    rw [hdrop, number_cons, hlen, hn, zpow_neg, zpow_natCast, pow_succ]
    push_cast
    field_simp
  set r : ℚ := number (v.d.drop (p + 1)) / 10 ^ n with hr
  have hr0 : 0 ≤ r := div_nonneg hrest hpow.le
  have hr1 : r < 1 := (div_lt_one hpow).mpr hlt
  have hd9 : ((v.digitAt p).val : ℚ) ≤ 9 := by exact_mod_cast le_of_lt_succ (v.digitAt p).isLt
  refine ⟨_, hvalue, by positivity, by linarith, ?_, ?_, ?_⟩
  · rintro ⟨hfive, hend⟩
    have hnil : v.d.drop (p + 1) = [] := drop_of_length_le (by omega)
    have hzero : r = 0 := by rw [hr, hnil, number_nil, cast_zero, zero_div]
    rw [hzero, hfive]
    norm_num
  · intro hnot hge
    have hge' : (5 : ℚ) ≤ (v.digitAt p).val := by exact_mod_cast hge
    by_cases hfive : v.digitAt p = 5
    · -- Digits stand behind the 5, and the last one of them is not 0.
      have hmore : p + 1 < v.d.length := by
        have hend : p + 1 ≠ v.d.length := fun h => hnot ⟨hfive, h⟩
        omega
      have hne : v.d.drop (p + 1) ≠ [] := by
        intro hnil
        have := congrArg List.length hnil
        rw [length_drop, length_nil] at this
        omega
      have hpos : number (v.d.drop (p + 1)) ≠ 0 := by
        intro hzero
        have hall := number_eq_zero_iff.mp hzero
        rw [List.any_eq_false] at hall
        have hlast := hall _ (getLast_mem hne)
        rw [getLast_drop] at hlast
        exact hlast (decide_eq_true (hv.last hv.ne_nil))
      have hrpos : 0 < r := div_pos (by exact_mod_cast Nat.pos_of_ne_zero hpos) hpow
      linarith
    · have hge6 : (6 : ℚ) ≤ (v.digitAt p).val := by
        have hne : (v.digitAt p).val ≠ 5 := fun h => hfive (Fin.ext h)
        have hge5 : 5 ≤ (v.digitAt p).val := hge
        exact_mod_cast (by omega : 6 ≤ (v.digitAt p).val)
      linarith
  · intro hlt5
    have hd4 : ((v.digitAt p).val : ℚ) ≤ 4 := by exact_mod_cast le_of_lt_succ hlt5
    linarith

/-- **`rounded_whole`** rounds what the decimal stands for, where it reaches the same halves. -/
theorem roundedWhole_spec {y : ℚ} (hv : v.Normal) (hlow : v.value ≤ y)
    (hlost : dropped = true ↔ v.value < y)
    (hkept : ∀ c : ℕ, (c : ℚ) / 2 ≤ y → (c : ℚ) / 2 ≤ v.value) (hsmall : v.value < 2 ^ 60) :
    NearestEven y (v.roundedWhole dropped) := by
  have hhalf : ∀ c : ℕ, v.value < (c : ℚ) / 2 → y < (c : ℚ) / 2 :=
    fun c hlt => not_le.mp fun hle => absurd (hkept c hle) (not_le.mpr hlt)
  rcases lt_or_ge v.point 0 with hneg | hpos
  · -- The value is below a tenth.
    have hwhole : v.roundedWhole dropped = 0 := by
      rw [roundedWhole, if_pos (Or.inl hneg), Int.toNat_of_nonpos hneg.le]
      rfl
    have hy : y < (1 : ℕ) / 2 := by
      refine hhalf 1 ?_
      calc v.value < 10 ^ v.point := value_lt v
        _ ≤ 10 ^ (-1 : ℤ) := ten_le_ten.mpr (by omega)
        _ ≤ ((1 : ℕ) : ℚ) / 2 := by norm_num
    have hy0 : 0 ≤ y := hv.value_pos.le.trans hlow
    rw [hwhole, NearestEven, cast_zero, zero_sub, abs_neg, abs_of_nonneg hy0]
    exact ⟨hy.le, fun _ => rfl⟩
  · obtain ⟨p, hp⟩ := Int.eq_ofNat_of_zero_le hpos
    have hsplit := value_split hp
    set n := number (leading v p) with hn
    have hrest : (0 : ℚ) ≤ number (v.d.drop p) * 10 ^ (-((v.d.length - p : ℕ) : ℤ)) :=
      mul_nonneg (cast_nonneg _) (ten_pos _).le
    have hn60 : n < 2 ^ 60 := by
      have : (n : ℚ) < 2 ^ 60 := by linarith
      exact_mod_cast this
    have hwhole : v.wholePart v.point.toNat 0 0 = n := by
      have hspec := wholePart_spec v p 0 (by rw [Nat.zero_add]; omega)
      rw [Nat.zero_add, leading_zero, number_nil] at hspec
      rw [hp, Int.toNat_natCast, hspec]
    have hword : word (n + 1) = n + 1 := word_of_lt (by omega)
    rcases Nat.lt_or_ge p v.d.length with hlt | hge
    · obtain ⟨t, ht, ht0, ht1, htie, hmore, hless⟩ := rest_cases hv hlt
      have hnext : y < (2 * n + 2 : ℕ) / 2 := by
        refine hhalf _ ?_
        push_cast
        linarith
      push_cast at hnext
      have hcond : ¬ (v.point < 0 ∨ v.point ≥ v.d.length) := by omega
      rw [roundedWhole, if_neg hcond, hwhole, hword, hp]
      by_cases hcase : v.digitAt p = 5 ∧ p + 1 = v.d.length
      · have hcase' : v.digitAt (p : ℤ) = 5 ∧ (p : ℤ) + 1 = v.d.length := ⟨hcase.1, by omega⟩
        have htt := htie hcase
        rw [if_pos hcase']
        by_cases hd : dropped = true
        · -- Digits were dropped, so the value lies above the tie.
          have hup := hlost.mp hd
          rw [hd, Bool.true_or, if_pos rfl, NearestEven, abs_of_nonneg (by push_cast; linarith)]
          push_cast
          constructor
          · linarith
          · intro heq
            linarith
        · have heq : y = v.value := le_antisymm (not_lt.mp fun h => hd (hlost.mpr h)) hlow
          rw [Bool.eq_false_iff.mpr hd, Bool.false_or]
          by_cases hodd : n % 2 = 1
          · rw [if_pos (decide_eq_true hodd), NearestEven, abs_of_nonneg (by push_cast; linarith)]
            push_cast
            exact ⟨by linarith, fun _ => by omega⟩
          · rw [if_neg (by rw [decide_eq_false hodd]; exact Bool.false_ne_true), NearestEven,
              abs_of_nonpos (by linarith)]
            exact ⟨by linarith, fun _ => by omega⟩
      · have hcase' : ¬ (v.digitAt (p : ℤ) = 5 ∧ (p : ℤ) + 1 = v.d.length) :=
          fun h => hcase ⟨h.1, by omega⟩
        rw [if_neg hcase']
        by_cases hfive : 5 ≤ v.digitAt p
        · have htt := hmore hcase hfive
          rw [if_pos (decide_eq_true hfive), NearestEven, abs_of_nonneg (by push_cast; linarith)]
          push_cast
          constructor
          · linarith
          · intro heq
            linarith
        · have htt := hless (not_le.mp hfive)
          have hbelow : y < (2 * n + 1 : ℕ) / 2 := by
            refine hhalf _ ?_
            push_cast
            linarith
          push_cast at hbelow
          rw [if_neg (by rw [decide_eq_false hfive]; exact Bool.false_ne_true), NearestEven,
            abs_of_nonpos (by linarith)]
          constructor
          · linarith
          · intro heq
            linarith
    · -- No digit stands behind the point.
      have hnone : v.value = n := by
        rw [hsplit, drop_of_length_le hge, number_nil, cast_zero, zero_mul, add_zero]
      have hbelow : y < (2 * n + 1 : ℕ) / 2 := by
        refine hhalf _ ?_
        push_cast
        linarith
      push_cast at hbelow
      rw [roundedWhole, if_pos (Or.inr (by omega)), hwhole, NearestEven, abs_of_nonpos (by linarith)]
      constructor
      · linarith
      · intro heq
        linarith

-- ── The bits ────

/-- The widths for which the digits that are kept are enough. -/
structure Supported (f : Format) : Prop where
  bias_two : 2 ≤ f.bias
  bias_most : f.bias ≤ 1023
  mantissa_most : f.mantissa ≤ 52

variable {f : Format}

/-- The bit of the mantissa that a normal value has and a subnormal one has not. -/
theorem and_first_bit {m r : ℕ} (hr : r < 2 ^ (m + 1)) :
    (r &&& 1 <<< m = 0 ↔ r < 2 ^ m) ∧ (2 ^ m ≤ r → r &&& (1 <<< m - 1) = r - 2 ^ m) := by
  rw [one_shiftLeft, and_two_pow, and_two_pow_sub_one_eq_mod]
  rcases Nat.lt_or_ge r (2 ^ m) with hlt | hge
  · rw [testBit_lt_two_pow hlt]
    exact ⟨iff_of_true (Nat.zero_mul _) hlt, fun h => absurd h (Nat.not_le.mpr hlt)⟩
  · obtain ⟨d, rfl⟩ := Nat.exists_eq_add_of_le hge
    have hd : d < 2 ^ m := by omega
    have hbit : (2 ^ m + d).testBit m = true := by
      rw [testBit_two_pow_add_eq, testBit_lt_two_pow hd]
      rfl
    rw [hbit]
    constructor
    · refine iff_of_false ?_ (Nat.not_lt.mpr hge)
      show 1 * 2 ^ m ≠ 0
      omega
    · intro _
      rw [add_mod_left, mod_eq_of_lt hd, Nat.add_sub_cancel_left]

/-- **The bits that are put together**: those of the binade, and the whole part. -/
theorem assemble_spec {power : ℤ} {sign r : ℕ} (hmin : 1 - f.bias ≤ power)
    (hmax : power ≤ f.bias) (hr : r ≤ 2 ^ (f.mantissa + 1))
    (hlow : power = 1 - f.bias ∨ 2 ^ f.mantissa ≤ r) :
    assemble f.mantissa f.bias power sign f.infinite r =
      sign ||| ((power + f.bias - 1).toNat * 2 ^ f.mantissa + r) := by
  obtain ⟨t, ht⟩ := Int.eq_ofNat_of_zero_le (by omega : 0 ≤ power + f.bias - 1)
  have htwo : 2 <<< f.mantissa = 2 ^ (f.mantissa + 1) := by
    rw [shiftLeft_eq, Nat.pow_succ, Nat.mul_comm]
  have hpow : 2 ^ (f.mantissa + 1) = 2 ^ f.mantissa * 2 := Nat.pow_succ ..
  rw [ht, Int.toNat_natCast, assemble, htwo]
  by_cases hcarry : r = 2 ^ (f.mantissa + 1)
  · by_cases hover : power + 1 > f.bias
    · have hfield : t + 2 = 2 ^ f.exponent - 1 := by
        have := f.two_mul_bias
        omega
      rw [if_pos ⟨hcarry, hover⟩, Format.infinite, ← hfield, hcarry, hpow]
      congr 1
      ring
    · have hhalf : r >>> 1 = 2 ^ f.mantissa := by
        rw [hcarry, hpow, shiftRight_eq_div_pow, Nat.pow_one, Nat.mul_div_cancel _ (by decide)]
      obtain ⟨hbit, hrest⟩ := and_first_bit (m := f.mantissa) (r := 2 ^ f.mantissa)
        (Nat.pow_lt_pow_right (by decide) (lt_succ_self _))
      have hfield : (power + 1 + f.bias).toNat = t + 2 := by omega
      rw [if_neg (fun h => hover h.2), if_pos hcarry]
      show (if r >>> 1 &&& 1 <<< f.mantissa = 0 then sign ||| r >>> 1
        else sign ||| (power + 1 + f.bias).toNat <<< f.mantissa |||
          (r >>> 1 &&& (1 <<< f.mantissa - 1))) = _
      rw [hhalf, if_neg (fun h => absurd (hbit.mp h) (Nat.lt_irrefl _)), hrest le_rfl, hfield,
        Nat.sub_self, or_zero, shiftLeft_eq, hcarry, hpow]
      congr 1
      ring
  · have hr' : r < 2 ^ (f.mantissa + 1) := Nat.lt_of_le_of_ne hr hcarry
    obtain ⟨hbit, hrest⟩ := and_first_bit hr'
    rw [if_neg (fun h => hcarry h.1), if_neg hcarry]
    show (if r &&& 1 <<< f.mantissa = 0 then sign ||| r
      else sign ||| (power + f.bias).toNat <<< f.mantissa ||| (r &&& (1 <<< f.mantissa - 1))) = _
    rcases Nat.lt_or_ge r (2 ^ f.mantissa) with hlt | hge
    · have hzero : t = 0 := by
        rcases hlow with hlow | hlow
        · omega
        · exact absurd hlow (Nat.not_le.mpr hlt)
      rw [if_pos (hbit.mpr hlt), hzero, Nat.zero_mul, Nat.zero_add]
    · have hfield : (power + f.bias).toNat = t + 1 := by omega
      obtain ⟨d, rfl⟩ := Nat.exists_eq_add_of_le hge
      have hd : d < 2 ^ f.mantissa := by omega
      have hor : (t + 1) <<< f.mantissa ||| d = t * 2 ^ f.mantissa + (2 ^ f.mantissa + d) := by
        rw [shiftLeft_eq, Nat.mul_comm, ← two_pow_add_eq_or_of_lt hd]
        ring
      rw [if_neg (fun h => absurd (hbit.mp h) (Nat.not_lt.mpr hge)), hrest hge,
        Nat.add_sub_cancel_left, hfield, Nat.or_assoc, hor]

-- ── The value, scaled and rounded ────

/-- The exponent of a value that a decimal keeps the first digits of. -/
theorem exists_exponent {x : ℚ} (ht : Truncates x v dropped) (hmin : -330 ≤ v.point)
    (hmax : v.point ≤ 310) : ∃ e : ℤ, 2 ^ e ≤ x ∧ x < 2 ^ (e + 1) ∧ -1100 ≤ e ∧ e ≤ 1030 := by
  have hx : 0 < x := lt_of_lt_of_le ht.normal.value_pos ht.low
  have hlow := Int.zpow_log_le_self (b := 2) (by decide) hx
  have hhigh := Int.lt_zpow_succ_log_self (b := 2) (by decide) x
  push_cast at hlow hhigh
  refine ⟨Int.log 2 x, hlow, hhigh, ?_, ?_⟩
  · by_contra hlt
    have h1 : (2 : ℚ) ^ (Int.log 2 x + 1) ≤ 10 ^ (-331 : ℤ) :=
      two_le_ten (n := 331) (m := 769) (by omega) (by decide +kernel) (by omega)
    have h2 : (10 : ℚ) ^ (-331 : ℤ) ≤ 10 ^ (v.point - 1) := ten_le_ten.mpr (by omega)
    have h3 := ht.normal.le_value.trans ht.low
    exact absurd hhigh (not_lt.mpr (h1.trans (h2.trans h3)))
  · by_contra hlt
    have h1 : (10 : ℚ) ^ (310 : ℕ) ≤ 2 ^ (1031 : ℕ) := by
      exact_mod_cast (by decide +kernel : 10 ^ 310 ≤ 2 ^ 1031)
    have h2 : (10 : ℚ) ^ v.point ≤ 10 ^ ((310 : ℕ) : ℤ) := ten_le_ten.mpr hmax
    have h3 : (2 : ℚ) ^ ((1031 : ℕ) : ℤ) ≤ 2 ^ Int.log 2 x := two_le_two.mpr (by omega)
    exact absurd ht.lt (not_lt.mpr ((h2.trans h1).trans (h3.trans hlow)))

theorem tracks_of_truncates {x : ℚ} {e J : ℤ} (hs : Scaled x e J) (ht : Truncates x v dropped) :
    Tracks x J v dropped 0 := by
  have hone : x * 2 ^ (-(0 : ℤ)) = x := by rw [neg_zero, zpow_zero, mul_one]
  have hmost := hs.most
  obtain ⟨n, hn⟩ : ∃ n : ℕ, (2 : ℚ) ^ (J - 0) = n * 10 ^ (v.point - EXACT_DIGITS) := hs.on_grid
    (by rw [sub_zero]; exact lt_of_le_of_lt hs.low ht.lt)
    (by rw [sub_zero]; exact lt_of_le_of_lt (ht.normal.le_value.trans ht.low) hs.high)
    (Or.inl le_rfl) (by omega)
  refine ⟨ht.normal, by rw [hone]; exact ht.low, by rw [hone]; exact ht.lost, ?_⟩
  intro c hc
  rw [sub_zero] at hn ⊢
  have himage : (c : ℚ) * 2 ^ J = (c * n : ℕ) * 10 ^ (v.point - EXACT_DIGITS) := by
    rw [hn]
    push_cast
    ring
  rw [himage] at hc ⊢
  exact ht.le_of_le hc

/-- Below the normal values the exponent stays at the least one. -/
theorem sink_spec (hf : Supported f) {x : ℚ} {e E J : ℤ} (hs : Scaled x e J)
    (hE : E = max e (1 - f.bias)) (h : Tracks x J v dropped (e + 1)) :
    ∃ v' dropped', sink f.bias (e + 1 - 1) (v, dropped) = some ((v', dropped'), E) ∧
      Tracks x J v' dropped' (E + 1) := by
  have hb1 := hf.bias_two
  have hb2 := hf.bias_most
  rw [add_sub_cancel_right]
  by_cases hsmall : e < 1 - f.bias
  · obtain ⟨n, hn⟩ := Int.eq_ofNat_of_zero_le (by omega : 0 ≤ 1 - (f.bias : ℤ) - e)
    obtain ⟨hsum, hall⟩ := steps_spec (le_refl n)
    obtain ⟨v₃, dropped₃, hhalve, h₃⟩ := halveAll_spec hs hall h (by omega) (by omega)
    refine ⟨v₃, dropped₃, ?_, ?_⟩
    · have hE' : E = 1 - f.bias := by omega
      rw [sink, if_pos hsmall, hn, Int.toNat_natCast, hE']
      show (do return (← halveAll (steps n n) (v, dropped), 1 - (f.bias : ℤ)) :
        Option (Kept × ℤ)) = _
      rw [hhalve]
      rfl
    · rw [hsum] at h₃
      have hE' : e + 1 + (n : ℤ) = E + 1 := by omega
      rwa [hE'] at h₃
  · have hE' : E = e := by omega
    rw [sink, if_neg hsmall, hE']
    exact ⟨v, dropped, rfl, h⟩

/-- The value in units of the last place has one digit more than the mantissa at most, and no
    fewer where the value is normal. -/
theorem scaled_bounds {x : ℚ} {e E J : ℤ} (hs : Scaled x e J) (hE : E = max e (1 - f.bias)) :
    x * 2 ^ (-(E - f.mantissa)) < 2 ^ (f.mantissa + 1) ∧
      (E = 1 - f.bias ∨ 2 ^ f.mantissa ≤ x * 2 ^ (-(E - f.mantissa))) := by
  constructor
  · have h1 : x < 2 ^ (E + 1) := lt_of_lt_of_le hs.high (two_le_two.mpr (by omega))
    have h2 := mul_lt_mul_of_pos_right h1 (two_pos (-(E - f.mantissa)))
    have h3 : E + 1 + -(E - (f.mantissa : ℤ)) = ((f.mantissa + 1 : ℕ) : ℤ) := by
      push_cast
      ring
    rwa [← two_add, h3, zpow_natCast] at h2
  · by_cases hE' : E = 1 - f.bias
    · exact Or.inl hE'
    · right
      have h1 : (2 : ℚ) ^ E ≤ x := le_trans (two_le_two.mpr (by omega)) hs.low
      have h2 := mul_le_mul_of_nonneg_right h1 (two_pos (-(E - f.mantissa))).le
      have h3 : E + -(E - (f.mantissa : ℤ)) = f.mantissa := by ring
      rwa [← two_add, h3, zpow_natCast] at h2

/-- **The value is rounded once**, to the nearest float. -/
theorem roundScaled_spec (hf : Supported f) {x : ℚ} (ht : Truncates x v dropped)
    (hmin : -330 ≤ v.point) (hmax : v.point ≤ 310) (sign : ℕ) :
    ∃ n, roundScaled f.mantissa f.bias sign f.infinite (v, dropped) = some (sign ||| n) ∧
      f.Rounds x n := by
  have hb1 := hf.bias_two
  have hb2 := hf.bias_most
  have hm := hf.mantissa_most
  obtain ⟨e, hlow, hhigh, hleast, hmost⟩ := exists_exponent ht hmin hmax
  obtain ⟨E, hE⟩ : ∃ E : ℤ, E = max e (1 - f.bias) := ⟨_, rfl⟩
  obtain ⟨J, hJ⟩ : ∃ J : ℤ, J = min (E - f.mantissa - 1) e := ⟨_, rfl⟩
  have hs : Scaled x e J := ⟨hlow, hhigh, hleast, hmost, by omega, by omega⟩
  have hx : 0 ≤ x := (two_pos e).le.trans hlow
  obtain ⟨v₁, dropped₁, power₁, hdown, h₁, hpoint, hnear⟩ := bringDown_spec hs 1100
    (tracks_of_truncates hs ht) le_rfl (Or.inl le_rfl) (by decide) (by push_cast; omega)
  have hbelow : v₁.value < 2 ^ (0 : ℤ) := by
    refine lt_of_lt_of_le (value_lt v₁) ?_
    exact ten_le_ten.mpr hpoint
  have hpower := h₁.lt_of_value_lt hs hbelow
  obtain ⟨v₂, dropped₂, hup, h₂⟩ := bringUp_spec hs 1200 h₁ hpoint (by omega) hnear
    (by push_cast; rcases hnear with hnear | hnear <;> omega)
  obtain ⟨v₃, dropped₃, hsink, h₃⟩ := sink_spec hf hs hE h₂
  have hround : roundScaled f.mantissa f.bias sign f.infinite (v, dropped) =
      if E > f.bias then some (sign ||| f.infinite)
      else some (assemble f.mantissa f.bias E sign f.infinite
        ((doubleAll (steps (f.mantissa + 1) (f.mantissa + 1)) (v₃, dropped₃)).1.roundedWhole
          (doubleAll (steps (f.mantissa + 1) (f.mantissa + 1)) (v₃, dropped₃)).2)) := by
    simp only [roundScaled, hdown, hup, hsink, Option.bind_eq_bind, Option.bind_some]
  rw [hround]
  by_cases hover : E > f.bias
  · refine ⟨f.infinite, if_pos hover, rounds_infinite_iff.mpr ?_⟩
    have hinf : f.value f.infinite ≤ x := by
      rw [value_infinite (by omega), ← zpow_natCast]
      exact le_trans (two_le_two.mpr (by push_cast; omega)) hlow
    have hlast : f.value (f.infinite - 1) ≤ f.value f.infinite :=
      value_strictMono.monotone (sub_le ..)
    rw [TooLarge]
    linarith
  · rw [if_neg hover]
    obtain ⟨hsum, hall⟩ := steps_spec (le_refl (f.mantissa + 1))
    obtain ⟨w, lost, hdouble, hw⟩ := doubleAll_spec hs hall h₃ (by omega) (by omega)
    have hlast : E + 1 - ((f.mantissa + 1 : ℕ) : ℤ) = E - f.mantissa := by
      push_cast
      ring
    rw [hsum, hlast] at hw
    obtain ⟨y, hy⟩ : ∃ y, y = x * 2 ^ (-(E - f.mantissa)) := ⟨_, rfl⟩
    obtain ⟨hnormal, hwlow, hwlost, hwkept⟩ := hw
    rw [← hy] at hwlow hwlost
    have hy0 : 0 ≤ y := by
      rw [hy]
      exact mul_nonneg hx (two_pos _).le
    obtain ⟨hyhigh, hylow⟩ := scaled_bounds hs hE
    rw [← hy] at hyhigh hylow
    have hkept : ∀ c : ℕ, (c : ℚ) / 2 ≤ y → (c : ℚ) / 2 ≤ w.value := by
      intro c hc
      obtain ⟨k, hk⟩ := Int.eq_ofNat_of_zero_le (by omega : 0 ≤ E - f.mantissa - 1 - J)
      have himage : ∀ i : ℤ, ((c * 2 ^ k : ℕ) : ℚ) * 2 ^ i = (c : ℚ) / 2 * 2 ^ (i + k + 1) := by
        intro i
        rw [two_add, two_add, zpow_natCast, zpow_one]
        push_cast
        ring
      have h1 : J + k + 1 = E - f.mantissa := by omega
      have h2 : J - (E - f.mantissa) + k + 1 = 0 := by omega
      have h3 := hwkept (c * 2 ^ k) (by rw [himage, h1, mul_two_le, ← hy]; exact hc)
      rwa [himage, h2, zpow_zero, mul_one] at h3
    have hsmall : w.value < 2 ^ 60 := by
      have h1 : (2 : ℚ) ^ (f.mantissa + 1) ≤ 2 ^ 60 := pow_le_pow_right₀ (by norm_num) (by omega)
      linarith
    have hr := roundedWhole_spec hnormal hwlow hwlost hkept hsmall
    rw [hdouble]
    obtain ⟨r, hrdef⟩ : ∃ r, r = w.roundedWhole lost := ⟨_, rfl⟩
    rw [← hrdef] at hr ⊢
    obtain ⟨hr1, hr2⟩ := abs_le.mp hr.1
    have hrhigh : r ≤ 2 ^ (f.mantissa + 1) := by
      have h1 : (r : ℚ) < (2 ^ (f.mantissa + 1) + 1 : ℕ) := by
        push_cast
        linarith
      exact Nat.lt_succ_iff.mp (cast_lt.mp h1)
    have hrlow : E = 1 - f.bias ∨ 2 ^ f.mantissa ≤ r := by
      refine hylow.imp_right fun h => ?_
      have h1 : ((2 ^ f.mantissa : ℕ) : ℚ) < (r + 1 : ℕ) := by
        push_cast
        linarith
      exact Nat.lt_succ_iff.mp (cast_lt.mp h1)
    obtain ⟨t, ht'⟩ := Int.eq_ofNat_of_zero_le (by omega : 0 ≤ E + f.bias - 1)
    have hunit : x = y * f.unit t := by
      have h1 : (t : ℤ) + 1 - f.bias - f.mantissa = E - f.mantissa := by omega
      rw [hy, Format.unit, h1, mul_assoc, ← two_add, neg_add_cancel, zpow_zero, mul_one]
    have hbits := f.two_mul_bias
    refine ⟨t * 2 ^ f.mantissa + r, ?_, rounds_of_nearestEven hunit hy0 ?_ hyhigh (by omega) hr⟩
    · rw [assemble_spec (by omega) (not_lt.mp hover) hrhigh hrlow, ht', Int.toNat_natCast]
    · exact hylow.imp_left fun h => by omega

end AnticFloat
