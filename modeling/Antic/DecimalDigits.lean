import Antic.FloatText

/-! # What the digits of a decimal stand for

    A decimal is a rational number.  One that keeps the first digits of a number stands at
    or below it, and reaches every number on its own grid that the number reaches. -/

namespace AnticFloat

open List

/-- The number that digits write. -/
def number (ds : List Digit) : ℕ := Nat.ofDigits 10 (ds.map Fin.val).reverse

theorem number_nil : number [] = 0 := rfl

theorem number_append (a b : List Digit) :
    number (a ++ b) = number a * 10 ^ b.length + number b := by
  rw [number, map_append, reverse_append, Nat.ofDigits_append, length_reverse,
    length_map, Nat.add_comm, Nat.mul_comm]
  rfl

theorem number_singleton (d : Digit) : number [d] = d.val := Nat.ofDigits_singleton

theorem number_cons (d : Digit) (ds : List Digit) :
    number (d :: ds) = d.val * 10 ^ ds.length + number ds := by
  rw [← singleton_append, number_append, number_singleton]

theorem number_lt (ds : List Digit) : number ds < 10 ^ ds.length := by
  induction ds with
  | nil => exact Nat.one_pos
  | cons d ds ih =>
    rw [number_cons, length_cons, Nat.pow_succ]
    have hd : d.val * 10 ^ ds.length ≤ 9 * 10 ^ ds.length :=
      Nat.mul_le_mul_right _ (Nat.le_of_lt_succ d.isLt)
    omega

theorem digit_val {n : ℕ} : (digit n).val = n % 10 := Fin.val_ofNat ..

theorem digit_val_of_lt {n : ℕ} (h : n < 10) : (digit n).val = n := by
  rw [digit_val, Nat.mod_eq_of_lt h]

theorem digit_ne_zero {n : ℕ} (hn : n ≠ 0) (h : n < 10) : digit n ≠ 0 := by
  intro heq
  rw [← Fin.val_inj, digit_val_of_lt h] at heq
  exact hn heq

theorem word_of_lt {n : ℕ} (h : n < 2 ^ 64) : word n = n := Nat.mod_eq_of_lt h

theorem number_replicate_zero (n : ℕ) : number (List.replicate n 0) = 0 := by
  induction n with
  | zero => rfl
  | succ n ih =>
    rw [replicate_succ, number_cons, ih]
    exact Nat.zero_mul _

theorem number_eq_zero_iff {ds : List Digit} : number ds = 0 ↔ ds.any (· ≠ 0) = false := by
  induction ds with
  | nil => exact iff_of_true rfl rfl
  | cons d ds ih =>
    have hpow : 10 ^ ds.length ≠ 0 := (Nat.pow_pos (by decide)).ne'
    rw [number_cons, any_cons, Bool.or_eq_false_iff, ← ih, Nat.add_eq_zero_iff,
      Nat.mul_eq_zero, or_iff_left hpow, decide_eq_false_iff_not, ne_eq, not_not, Fin.ext_iff]
    rfl

/-- A number of that many digits has a first digit that is not 0. -/
theorem first_ne_zero {ds : List Digit} (h : 10 ^ ds.length ≤ number ds * 10) (hne : ds ≠ []) :
    ∃ d rest, ds = d :: rest ∧ d ≠ 0 := by
  cases ds with
  | nil => exact absurd rfl hne
  | cons d rest =>
    refine ⟨d, rest, rfl, ?_⟩
    rintro rfl
    have hlt := number_lt rest
    rw [number_cons, length_cons, Nat.pow_succ] at h
    omega

namespace Decimal

/-- The value of a decimal. -/
def value (v : Decimal) : ℚ := number v.d * 10 ^ (v.point - v.d.length)

/-- A decimal that is not zero, with no 0 at either end. -/
structure Normal (v : Decimal) : Prop where
  short : v.d.length ≤ EXACT_DIGITS
  first : ∃ d rest, v.d = d :: rest ∧ d ≠ 0
  last : ∀ h : v.d ≠ [], v.d.getLast h ≠ 0

variable {v : Decimal}

theorem ten_pos (n : ℤ) : (0 : ℚ) < 10 ^ n := zpow_pos (by norm_num) n

theorem Normal.ne_nil (h : v.Normal) : v.d ≠ [] := by
  obtain ⟨d, rest, hd, -⟩ := h.first
  rw [hd]
  exact cons_ne_nil d rest

theorem value_lt (v : Decimal) : v.value < 10 ^ v.point := by
  have hlt : (number v.d : ℚ) < 10 ^ (v.d.length : ℤ) := by
    exact_mod_cast number_lt v.d
  calc v.value < 10 ^ (v.d.length : ℤ) * 10 ^ (v.point - v.d.length) :=
        mul_lt_mul_of_pos_right hlt (ten_pos _)
    _ = 10 ^ v.point := by
        rw [← zpow_add₀ (by norm_num)]
        congr 1
        ring

theorem Normal.le_value (h : v.Normal) : 10 ^ (v.point - 1) ≤ v.value := by
  obtain ⟨d, rest, hd, hne⟩ := h.first
  have hd1 : 1 ≤ d.val := by
    refine Nat.one_le_iff_ne_zero.mpr fun hzero => hne ?_
    exact Fin.ext hzero
  have hle : (10 : ℚ) ^ (rest.length : ℤ) ≤ number v.d := by
    rw [hd, number_cons, zpow_natCast]
    have hmul : 1 * 10 ^ rest.length ≤ d.val * 10 ^ rest.length := Nat.mul_le_mul_right _ hd1
    exact_mod_cast (by omega : 10 ^ rest.length ≤ d.val * 10 ^ rest.length + number rest)
  calc (10 : ℚ) ^ (v.point - 1) = 10 ^ (rest.length : ℤ) * 10 ^ (v.point - v.d.length) := by
        rw [← zpow_add₀ (by norm_num), hd, length_cons]
        congr 1
        push_cast
        ring
    _ ≤ v.value := mul_le_mul_of_nonneg_right hle (ten_pos _).le

theorem Normal.value_pos (h : v.Normal) : 0 < v.value := lt_of_lt_of_le (ten_pos _) h.le_value

-- ── Zeros at the end ────

theorem trim_append (v : Decimal) : ∃ n, v.d = v.trim.d ++ List.replicate n 0 := by
  obtain ⟨ds, p⟩ := v
  induction ds using List.reverseRecOn with
  | nil => exact ⟨0, rfl⟩
  | append_singleton ds d ih =>
    by_cases hd : d = 0
    · obtain ⟨n, hn⟩ := ih
      refine ⟨n + 1, ?_⟩
      have hdrop : (trim ⟨ds ++ [d], p⟩).d = (trim ⟨ds, p⟩).d :=
        rdropWhile_concat_pos _ _ _ (decide_eq_true hd)
      rw [hdrop, replicate_succ', ← append_assoc, ← hn, hd]
    · have hkeep : (trim ⟨ds ++ [d], p⟩).d = ds ++ [d] :=
        rdropWhile_concat_neg _ _ _ (by rw [decide_eq_false hd]; exact Bool.false_ne_true)
      exact ⟨0, by rw [hkeep, replicate_zero, append_nil]⟩

theorem value_trim (v : Decimal) : v.trim.value = v.value := by
  obtain ⟨n, hn⟩ := trim_append v
  have hpoint : v.trim.point = v.point := rfl
  rw [value, value, hn, number_append, number_replicate_zero, length_append,
    length_replicate, hpoint]
  push_cast
  rw [add_zero, mul_assoc, ← zpow_natCast, ← zpow_add₀ (by norm_num)]
  congr 2
  ring

/-- A decimal without its last zeros is normal, where its first digit is not 0. -/
theorem normal_trim (hshort : v.d.length ≤ EXACT_DIGITS)
    (hfirst : ∃ d rest, v.d = d :: rest ∧ d ≠ 0) : v.trim.Normal := by
  obtain ⟨n, hn⟩ := trim_append v
  refine ⟨?_, ?_, ?_⟩
  · have hlen := congrArg List.length hn
    rw [length_append] at hlen
    omega
  · obtain ⟨d, rest, hd, hne⟩ := hfirst
    rw [hd] at hn
    cases htrim : v.trim.d with
    | nil =>
      rw [htrim, nil_append] at hn
      have hmem : d ∈ List.replicate n (0 : Digit) := hn ▸ mem_cons_self
      exact absurd (eq_of_mem_replicate hmem) hne
    | cons d' rest' =>
      rw [htrim, cons_append] at hn
      exact ⟨d', rest', rfl, (cons.inj hn).1 ▸ hne⟩
  · intro h
    have hlast := rdropWhile_last_not (fun d : Digit => decide (d = 0)) v.d h
    exact fun hzero => hlast (decide_eq_true hzero)

-- ── The first digits of a number ────

/-- The decimal keeps the first `EXACT_DIGITS` digits of `x`, and `lost` says whether that
    is less than `x`. -/
structure Truncates (x : ℚ) (v : Decimal) (lost : Bool) : Prop where
  normal : v.Normal
  low : v.value ≤ x
  high : x < v.value + 10 ^ (v.point - EXACT_DIGITS)
  lost : lost = true ↔ v.value < x

/-- The value of a normal decimal counts units of the last digit that it may have. -/
theorem Normal.grid (h : v.Normal) : ∃ c : ℕ, v.value = c * 10 ^ (v.point - EXACT_DIGITS) := by
  obtain ⟨n, hn⟩ := Nat.exists_eq_add_of_le h.short
  refine ⟨number v.d * 10 ^ n, ?_⟩
  rw [value, hn]
  push_cast
  rw [mul_assoc, ← zpow_natCast, ← zpow_add₀ (by norm_num)]
  congr 2
  ring

/-- **A number on the grid** that is at most `x` is at most the decimal that keeps the first
    digits of `x`. -/
theorem Truncates.le_of_le {x : ℚ} {lost : Bool} (h : Truncates x v lost) {c : ℕ}
    (hc : c * 10 ^ (v.point - EXACT_DIGITS) ≤ x) : c * 10 ^ (v.point - EXACT_DIGITS) ≤ v.value := by
  obtain ⟨n, hn⟩ := h.normal.grid
  have hpos := ten_pos (v.point - EXACT_DIGITS)
  have hlt : (c : ℚ) * 10 ^ (v.point - EXACT_DIGITS) <
      (n + 1 : ℕ) * 10 ^ (v.point - EXACT_DIGITS) := by
    have hhigh := h.high
    push_cast
    linarith
  have hle : c ≤ n := by
    have := Nat.cast_lt.mp (lt_of_mul_lt_mul_right hlt hpos.le)
    omega
  rw [hn]
  exact mul_le_mul_of_nonneg_right (by exact_mod_cast hle) hpos.le

theorem Truncates.lt {x : ℚ} {lost : Bool} (h : Truncates x v lost) : x < 10 ^ v.point := by
  have hten : (10 : ℚ) ^ v.point = (10 ^ EXACT_DIGITS : ℕ) * 10 ^ (v.point - EXACT_DIGITS) := by
    push_cast
    rw [← zpow_natCast, ← zpow_add₀ (by norm_num)]
    congr 1
    ring
  by_contra hge
  have hle := h.le_of_le (c := 10 ^ EXACT_DIGITS) (by rw [← hten]; exact not_lt.mp hge)
  rw [← hten] at hle
  exact absurd (value_lt v) (not_lt.mpr hle)

/-- **The first digits of a longer list** of digits. -/
theorem truncates_take {out : List Digit} {p : ℤ} (hfirst : ∃ d rest, out = d :: rest ∧ d ≠ 0) :
    Truncates (value ⟨out, p⟩) (trim ⟨out.take EXACT_DIGITS, p⟩)
      ((out.drop EXACT_DIGITS).any (· ≠ 0)) := by
  have hsplit := take_append_drop EXACT_DIGITS out
  have hlen : (out.take EXACT_DIGITS).length + (out.drop EXACT_DIGITS).length = out.length := by
    rw [← length_append, hsplit]
  have hlong : (out.drop EXACT_DIGITS).length = 0 ∨ (out.take EXACT_DIGITS).length = EXACT_DIGITS := by
    rw [length_drop, length_take]
    omega
  have hvalue : value ⟨out, p⟩ = value ⟨out.take EXACT_DIGITS, p⟩ +
      number (out.drop EXACT_DIGITS) * 10 ^ (p - out.length) := by
    have hnumber : number out = number (out.take EXACT_DIGITS) * 10 ^ (out.drop EXACT_DIGITS).length +
        number (out.drop EXACT_DIGITS) := by rw [← number_append, hsplit]
    show (number out : ℚ) * 10 ^ (p - out.length) = _
    rw [hnumber]
    push_cast
    rw [add_mul, mul_assoc, ← zpow_natCast, ← zpow_add₀ (by norm_num), ← hlen]
    congr 3
    push_cast
    ring
  have hunit := ten_pos (p - out.length)
  rw [hvalue]
  refine ⟨normal_trim ?_ ?_, ?_, ?_, ?_⟩
  · exact length_take_le ..
  · obtain ⟨d, rest, rfl, hne⟩ := hfirst
    exact ⟨d, rest.take 779, take_succ_cons, hne⟩
  · rw [value_trim]
    exact le_add_of_nonneg_right (mul_nonneg (Nat.cast_nonneg _) hunit.le)
  · rw [value_trim]
    refine add_lt_add_of_le_of_lt le_rfl ?_
    show _ < (10 : ℚ) ^ (p - EXACT_DIGITS)
    rcases hlong with hnone | hfull
    · rw [length_eq_zero_iff.mp hnone, number_nil, Nat.cast_zero, zero_mul]
      exact ten_pos _
    · have hlt : (number (out.drop EXACT_DIGITS) : ℚ) < 10 ^ ((out.drop EXACT_DIGITS).length : ℤ) := by
        exact_mod_cast number_lt _
      calc (number (out.drop EXACT_DIGITS) : ℚ) * 10 ^ (p - out.length)
          < 10 ^ ((out.drop EXACT_DIGITS).length : ℤ) * 10 ^ (p - out.length) :=
            mul_lt_mul_of_pos_right hlt hunit
        _ = 10 ^ (p - EXACT_DIGITS) := by
            rw [← zpow_add₀ (by norm_num), ← hlen, hfull]
            congr 1
            push_cast
            ring
  · rw [value_trim]
    constructor
    · intro hany
      have hne : number (out.drop EXACT_DIGITS) ≠ 0 := by
        rw [Ne, number_eq_zero_iff, hany]
        exact fun htrue => Bool.noConfusion htrue
      have hpos : (0 : ℚ) < number (out.drop EXACT_DIGITS) := by
        exact_mod_cast Nat.pos_of_ne_zero hne
      exact lt_add_of_pos_right _ (mul_pos hpos hunit)
    · intro hlt
      by_contra hany
      rw [number_eq_zero_iff.mpr (Bool.eq_false_iff.mpr hany), Nat.cast_zero, zero_mul,
        add_zero] at hlt
      exact lt_irrefl _ hlt

end Decimal

end AnticFloat
