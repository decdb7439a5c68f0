import Antic.FloatNumerals
import Antic.FloatWriting

/-! # The digits in the text of a float

    `put_shortest` writes zeros before the digits of a decimal or behind them in positional form,
    and the digits alone in the other one, so the text has the significant digits of the decimal. -/

namespace AnticFloat

open Decimal List

/-- The digits of a text before its exponent. -/
def mantissaDigits (text : List UInt8) : List UInt8 := (text.takeWhile (· ≠ 101)).filter isDigit

/-- How many digits stand from the first to the last one that is not 0. -/
def significantCount (text : List UInt8) : ℕ :=
  (((mantissaDigits text).dropWhile (· = 48)).rdropWhile (· = 48)).length

-- ── What counts ────

theorem mantissaDigits_other {c : UInt8} (hexp : c ≠ 101) (hdigit : isDigit c = false)
    (rest : List UInt8) : mantissaDigits (c :: rest) = mantissaDigits rest := by
  rw [mantissaDigits, takeWhile_cons, if_pos (decide_eq_true hexp), filter_cons,
    if_neg (by rw [hdigit]; exact Bool.false_ne_true)]
  rfl

theorem mantissaDigits_append (ds : List Digit) (rest : List UInt8) :
    mantissaDigits (ds.map digitByte ++ rest) = ds.map digitByte ++ mantissaDigits rest := by
  induction ds with
  | nil => rfl
  | cons d ds ih =>
    have hexp : digitByte d ≠ 101 := by
      revert d
      decide
    rw [map_cons, cons_append, cons_append, ← ih, mantissaDigits,
      takeWhile_cons, if_pos (decide_eq_true hexp), filter_cons,
      if_pos (isDigit_digitByte d)]
    rfl

theorem mantissaDigits_nil : mantissaDigits [] = [] := rfl

theorem mantissaDigits_power (power : ℤ) : mantissaDigits (putPower power) = [] := rfl

theorem dropWhile_zeros (a : ℕ) (text : List UInt8) :
    (List.replicate a 48 ++ text).dropWhile (· = 48) = text.dropWhile (· = 48) := by
  induction a with
  | zero => rfl
  | succ a ih => rw [replicate_succ, cons_append, dropWhile_cons, if_pos (decide_eq_true rfl), ih]

variable {v : Decimal}

/-- **Zeros around the digits** do not count. -/
theorem significantCount_of (hv : v.Normal) {text : List UInt8} (a b : ℕ) (h : mantissaDigits text =
      (List.replicate a 0 ++ (v.d ++ List.replicate b 0)).map digitByte) :
    significantCount text = v.d.length := by
  obtain ⟨d, rest, hd, hne⟩ := hv.first
  have hzero : digitByte 0 = 48 := rfl
  have hfirst : ∀ more, ((v.d.map digitByte) ++ more).dropWhile (· = 48) =
      v.d.map digitByte ++ more := by
    intro more
    rw [hd, map_cons, cons_append, dropWhile_cons, if_neg]
    intro h48
    exact hne (digitByte_eq_zero.mp (of_decide_eq_true h48))
  have hlast : (v.d.map digitByte).rdropWhile (· = 48) = v.d.map digitByte := by
    rw [rdropWhile_eq_self_iff]
    intro hmap h48
    rw [getLast_map] at h48
    exact hv.last hv.ne_nil (digitByte_eq_zero.mp (of_decide_eq_true h48))
  rw [significantCount, h, map_append, map_append, map_replicate, map_replicate,
    hzero, dropWhile_zeros, hfirst, List.rdropWhile, reverse_append, reverse_replicate,
    dropWhile_zeros, ← List.rdropWhile, hlast, length_map]

-- ── Digits by their places ────

/-- The digits from a place on. -/
def digitsFrom (v : Decimal) (a : ℤ) (n : ℕ) : List Digit :=
  (List.range n).map fun i : ℕ => v.digitAt (a + i)

theorem digitsFrom_succ (v : Decimal) (a : ℤ) (n : ℕ) :
    digitsFrom v a (n + 1) = digitsFrom v a n ++ [v.digitAt (a + n)] := by
  rw [digitsFrom, range_succ, map_append]
  rfl

theorem digitsFrom_append (v : Decimal) (a : ℤ) (n k : ℕ) :
    digitsFrom v a n ++ digitsFrom v (a + n) k = digitsFrom v a (n + k) := by
  induction k with
  | zero => exact append_nil _
  | succ k ih =>
    rw [digitsFrom_succ, ← append_assoc, ih, ← Nat.add_assoc, digitsFrom_succ]
    congr 3
    push_cast
    ring

theorem digitsFrom_zeros {a : ℤ} {n : ℕ} (h : ∀ i < n, v.digitAt (a + i) = 0) :
    digitsFrom v a n = List.replicate n 0 := by
  refine eq_replicate_iff.mpr ⟨by rw [digitsFrom, length_map, length_range], ?_⟩
  intro d hd
  obtain ⟨i, hi, rfl⟩ := List.mem_map.mp hd
  exact h i (mem_range.mp hi)

theorem digitsFrom_all (v : Decimal) : digitsFrom v 0 v.d.length = v.d := by
  refine ext_getElem (by rw [digitsFrom, length_map, length_range]) ?_
  intro i hi hi'
  simp only [digitsFrom, getElem_map, getElem_range, Int.zero_add]
  rw [digitAt, if_pos (Int.natCast_nonneg i), Int.toNat_natCast, getD_eq_getElem _ _ hi']

theorem digitAt_before {i : ℤ} (h : i < 0) : v.digitAt i = 0 := by
  rw [digitAt, if_neg (not_le.mpr h)]

theorem digitAt_behind {i : ℤ} (h : v.d.length ≤ i) : v.digitAt i = 0 := by
  rw [digitAt, if_pos (by omega), getD_eq_default _ _ (by omega)]

-- ── The two forms ────

theorem map_digits (v : Decimal) (a : ℤ) (n : ℕ) :
    ((List.range n).map fun i : ℕ => digitByte (v.digitAt (a + i))) = (digitsFrom v a n).map digitByte := by
  rw [digitsFrom, List.map_map]
  rfl

theorem fixed_digits (hv : v.Normal) :
    (if v.point ≤ 0 then [0] else digitsFrom v 0 v.point.toNat) ++
        digitsFrom v v.point (v.d.length - v.point).toNat =
      List.replicate (if v.point ≤ 0 then (1 - v.point).toNat else 0) 0 ++
        (v.d ++ List.replicate (v.point - v.d.length).toNat 0) := by
  have hlen : 0 < v.d.length := length_pos_iff.mpr hv.ne_nil
  by_cases hp : v.point ≤ 0
  · have hbehind : (v.point - v.d.length).toNat = 0 := by omega
    have hsplit : digitsFrom v v.point (v.d.length - v.point).toNat =
        List.replicate (-v.point).toNat 0 ++ v.d := by
      have hsum : (v.d.length - v.point).toNat = (-v.point).toNat + v.d.length := by omega
      have hstart : v.point + (-v.point).toNat = 0 := by omega
      rw [hsum, ← digitsFrom_append, hstart, digitsFrom_all, digitsFrom_zeros]
      intro i hi
      exact digitAt_before (by omega)
    have hone : (1 - v.point).toNat = (-v.point).toNat + 1 := by omega
    rw [if_pos hp, if_pos hp, hbehind, hsplit, hone, replicate_succ, replicate_zero,
      append_nil, singleton_append, cons_append]
  · have hstart : v.point = 0 + (v.point.toNat : ℤ) := by omega
    have hend : v.point.toNat + (v.d.length - v.point).toNat =
        v.d.length + (v.point - v.d.length).toNat := by omega
    rw [if_neg hp, if_neg hp, replicate_zero, nil_append]
    conv_lhs =>
      arg 2
      rw [hstart]
    rw [digitsFrom_append, ← hstart, hend, ← digitsFrom_append, digitsFrom_all, digitsFrom_zeros]
    intro i hi
    exact digitAt_behind (by omega)

theorem putFixed_digits (hv : v.Normal) (places : ℕ) : putFixed v places =
      (if v.point ≤ 0 then [0] else digitsFrom v 0 v.point.toNat).map digitByte ++
        if places > 0 then 46 :: (digitsFrom v v.point places).map digitByte else [] := by
  have hplaces : ((List.range places).map fun i : ℕ =>
      if v.d = [] then (48 : UInt8) else digitByte (v.digitAt (v.point + i))) =
      (digitsFrom v v.point places).map digitByte := by
    rw [← map_digits]
    refine map_congr_left ?_
    intro i _
    rw [if_neg hv.ne_nil]
  rw [putFixed, hplaces]
  congr 1
  by_cases hp : v.point ≤ 0
  · rw [if_pos (Or.inr hp), if_pos hp]
    rfl
  · rw [if_neg fun h => h.elim hv.ne_nil hp, if_neg hp, ← map_digits]
    refine map_congr_left ?_
    intro i _
    rw [Int.zero_add]

theorem mantissaDigits_fixed (hv : v.Normal) :
    mantissaDigits (putFixed v (v.d.length - v.point).toNat) =
      (List.replicate (if v.point ≤ 0 then (1 - v.point).toNat else 0) 0 ++
        (v.d ++ List.replicate (v.point - v.d.length).toNat 0)).map digitByte := by
  rw [putFixed_digits hv, mantissaDigits_append, ← fixed_digits hv, map_append]
  congr 1
  by_cases hplace : (v.d.length - v.point).toNat > 0
  · rw [if_pos hplace, mantissaDigits_other (by decide) (by decide),
      ← append_nil (List.map digitByte _), mantissaDigits_append, mantissaDigits_nil]
  · rw [if_neg hplace, Nat.eq_zero_of_not_pos hplace]
    rfl

theorem scientific_digits (hv : v.Normal) :
    [v.digitAt 0] ++ digitsFrom v 1 (v.d.length - 1) = v.d := by
  have hlen : 0 < v.d.length := length_pos_iff.mpr hv.ne_nil
  have hone : 1 + (v.d.length - 1) = v.d.length := by omega
  have happend := digitsFrom_append v 0 1 (v.d.length - 1)
  rw [hone, digitsFrom_all] at happend
  exact happend

theorem putScientific_digits (hv : v.Normal) (places : ℕ) : putScientific v places =
      [v.digitAt 0].map digitByte ++
        ((if places > 0 then 46 :: (digitsFrom v 1 places).map digitByte else []) ++
          putPower (v.point - 1)) := by
  have hplaces : ((List.range places).map fun i : ℕ => digitByte (v.digitAt (i + 1))) =
      (digitsFrom v 1 places).map digitByte := by
    rw [← map_digits]
    refine map_congr_left ?_
    intro i _
    rw [Int.add_comm]
  rw [putScientific, if_neg hv.ne_nil, if_neg hv.ne_nil, hplaces]
  rfl

theorem mantissaDigits_scientific (hv : v.Normal) :
    mantissaDigits (putScientific v (v.d.length - 1)) = v.d.map digitByte := by
  rw [putScientific_digits hv, mantissaDigits_append]
  conv_rhs => rw [← scientific_digits hv, map_append]
  congr 1
  by_cases hplace : v.d.length - 1 > 0
  · rw [if_pos hplace, cons_append, mantissaDigits_other (by decide) (by decide),
      mantissaDigits_append, mantissaDigits_power, append_nil]
  · rw [if_neg hplace, Nat.eq_zero_of_not_pos hplace]
    rfl

/-- **The text of `put_shortest`** has the significant digits of the decimal. -/
theorem significantCount_shortest (hv : v.Normal) (negative exponent : Bool) :
    significantCount ((if negative then [45] else []) ++ putShortest v exponent) = v.d.length := by
  have hsign : ∀ text, mantissaDigits ((if negative then [45] else []) ++ text) =
      mantissaDigits text := by
    intro text
    cases negative with
    | false => rfl
    | true => exact mantissaDigits_other (by decide) (by decide) text
  have hplaces : (if (v.d.length : ℤ) - v.point > 0 then ((v.d.length : ℤ) - v.point).toNat else 0) =
      ((v.d.length : ℤ) - v.point).toNat := by
    split
    · rfl
    · omega
  have hdigits : (if v.d.length > 1 then v.d.length - 1 else 0) = v.d.length - 1 := by
    split
    · rfl
    · omega
  have hform : ∃ a b, mantissaDigits (putShortest v exponent) =
      (List.replicate a 0 ++ (v.d ++ List.replicate b 0)).map digitByte := by
    rw [putShortest, if_neg hv.ne_nil, hplaces, hdigits]
    split
    · exact ⟨_, _, mantissaDigits_fixed hv⟩
    · refine ⟨0, 0, ?_⟩
      rw [mantissaDigits_scientific hv, replicate_zero, nil_append, append_nil]
  obtain ⟨a, b, hform⟩ := hform
  exact significantCount_of hv a b (by rw [hsign, hform])

end AnticFloat
