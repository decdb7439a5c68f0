import Antic.ExactDigits
import Antic.FloatRounding

/-! # Rounding and comparing decimals

    `round_to` takes a decimal to the nearest one with so many digits, and `compare` tells
    which of two decimals is the greater. -/

namespace AnticFloat

open List

namespace Decimal

-- ── A unit higher ────

theorem raise_nine (ds : List Digit) (p : ℤ) : raise ⟨ds ++ [9], p⟩ = raise ⟨ds, p⟩ := by
  rw [raise, raise]
  rw [reverse_append]
  rfl

theorem raise_other {d : Digit} (hd : d ≠ 9) (ds : List Digit) (p : ℤ) :
    raise ⟨ds ++ [d], p⟩ = ⟨ds ++ [digit (d.val + 1)], p⟩ := by
  have hcons : (ds ++ [d]).reverse.dropWhile (· = 9) = d :: ds.reverse := by
    rw [reverse_append, reverse_singleton, singleton_append, dropWhile_cons,
      if_neg (fun h => hd (of_decide_eq_true h))]
  rw [raise]
  rw [hcons]
  dsimp only
  rw [reverse_cons, reverse_reverse]

theorem next_digit {d : Digit} (hd : d ≠ 9) : (digit (d.val + 1)).val = d.val + 1 := by
  have hne : d.val ≠ 9 := fun h => hd (Fin.ext h)
  exact digit_val_of_lt (by omega)

theorem value_append (ds : List Digit) (d : Digit) (p : ℤ) :
    value ⟨ds ++ [d], p⟩ = value ⟨ds, p⟩ + d.val * 10 ^ (p - (ds.length + 1 : ℕ)) := by
  have hexp : p - ds.length = p - (ds.length + 1 : ℕ) + 1 := by
    push_cast
    ring
  rw [value, value]
  rw [number_append, number_singleton, length_append, length_singleton, Nat.pow_one, hexp,
    zpow_add_one₀ (by norm_num)]
  push_cast
  ring

/-- **A unit of the last digit** is added, and the nines are carried over. -/
theorem value_raise (ds : List Digit) (p : ℤ) :
    (raise ⟨ds, p⟩).value = value ⟨ds, p⟩ + 10 ^ (p - ds.length) := by
  induction ds using List.reverseRecOn with
  | nil =>
    have hone : value ⟨[1], p + 1⟩ = 10 ^ p := by
      have hexp : p + 1 - (1 : ℕ) = p := by
        push_cast
        ring
      show ((1 : ℕ) : ℚ) * 10 ^ (p + 1 - (1 : ℕ)) = 10 ^ p
      rw [hexp, Nat.cast_one, one_mul]
    have hzero : value ⟨[], p⟩ = 0 := by
      show ((0 : ℕ) : ℚ) * _ = 0
      rw [Nat.cast_zero, zero_mul]
    show value ⟨[1], p + 1⟩ = _
    rw [hone, hzero, zero_add, length_nil, Nat.cast_zero, sub_zero]
  | append_singleton ds d ih =>
    have hlen : (ds ++ [d]).length = ds.length + 1 := by
      rw [length_append, length_singleton]
    have hexp : p - ds.length = p - (ds.length + 1 : ℕ) + 1 := by
      push_cast
      ring
    rw [hlen, value_append]
    by_cases hd : d = 9
    · have hnine : ((9 : Digit).val : ℚ) = 9 := rfl
      rw [hd, raise_nine, ih, hexp, zpow_add_one₀ (by norm_num), hnine]
      ring
    · rw [raise_other hd, value_append, next_digit hd]
      push_cast
      ring

theorem raise_length (ds : List Digit) (p : ℤ) : (raise ⟨ds, p⟩).d.length ≤ max 1 ds.length := by
  induction ds using List.reverseRecOn with
  | nil => exact le_rfl
  | append_singleton ds d ih =>
    rw [length_append, length_singleton]
    by_cases hd : d = 9
    · rw [hd, raise_nine]
      omega
    · rw [raise_other hd]
      rw [length_append, length_singleton]
      omega

theorem raise_first (ds : List Digit) (p : ℤ) (h : ds ≠ [] → ∃ d rest, ds = d :: rest ∧ d ≠ 0) :
    ∃ d rest, (raise ⟨ds, p⟩).d = d :: rest ∧ d ≠ 0 := by
  induction ds using List.reverseRecOn with
  | nil => exact ⟨1, [], rfl, by decide⟩
  | append_singleton ds d ih =>
    obtain ⟨d', rest, heq, hne⟩ := h (append_ne_nil_of_right_ne_nil _ (cons_ne_nil d []))
    cases ds with
    | nil =>
      by_cases hd : d = 9
      · rw [hd, raise_nine]
        exact ⟨1, [], rfl, by decide⟩
      · rw [raise_other hd]
        refine ⟨digit (d.val + 1), [], rfl, ?_⟩
        intro hzero
        have hval := next_digit hd
        rw [hzero] at hval
        exact absurd hval (Nat.succ_ne_zero _).symm
    | cons d0 ds =>
      have hd0 : d0 = d' := (cons.inj heq).1
      by_cases hd : d = 9
      · rw [hd, raise_nine]
        exact ih fun _ => ⟨d0, ds, rfl, hd0 ▸ hne⟩
      · rw [raise_other hd]
        exact ⟨d0, ds ++ [digit (d.val + 1)], rfl, hd0 ▸ hne⟩

-- ── Rounding ────

variable {v : Decimal}

/-- The first `n` digits of a decimal and the rest, in units of the last one that is kept. -/
theorem exists_rest (hv : v.Normal) {n : ℕ} (hn : n < v.d.length) :
    ∃ t : ℚ, v.value = (number (v.d.take n) + t) * 10 ^ (v.point - n) ∧ 0 ≤ t ∧ t < 1 ∧
      (v.digitAt n = 5 ∧ n + 1 = v.d.length → t = 1 / 2) ∧
      (¬ (v.digitAt n = 5 ∧ n + 1 = v.d.length) → 5 ≤ v.digitAt n → 1 / 2 < t) ∧
      (v.digitAt n < 5 → t < 1 / 2) := by
  have hsplit := value_split (v := ⟨v.d, n⟩) (p := n) rfl
  have hlead : leading ⟨v.d, n⟩ n = v.d.take n := by
    rw [leading]
    rw [Nat.sub_eq_zero_of_le hn.le, replicate_zero, append_nil]
  have hmove : v.value = value ⟨v.d, n⟩ * 10 ^ (v.point - n) := by
    rw [value, value]
    rw [mul_assoc, ← zpow_add₀ (by norm_num)]
    congr 2
    ring
  obtain ⟨t, ht, hrest⟩ := rest_cases hv hn
  refine ⟨t, ?_, hrest⟩
  rw [hmove, hsplit, hlead, ht]

/-- What `round_to` gives of a decimal `v`: at most `n` digits, none nearer to it, and the
    even ones of two. -/
structure RoundedTo (v w : Decimal) (n : ℕ) : Prop where
  normal : w.Normal
  length : w.d.length ≤ n
  near : |w.value - v.value| ≤ 10 ^ (v.point - n) / 2
  grid : ∃ c : ℕ, w.value = c * 10 ^ (v.point - n) ∧
    (|w.value - v.value| = 10 ^ (v.point - n) / 2 → c % 2 = 0)

/-- The first digits, one unit higher or not, without their last zeros. -/
theorem roundedTo_of_near (hv : v.Normal) {n : ℕ} (hpos : 0 < n) (hn : n < v.d.length) {t : ℚ}
    (up : Bool) (ht : v.value = (number (v.d.take n) + t) * 10 ^ (v.point - n))
    (hnear : |(if up then 1 else 0) - t| ≤ 1 / 2) (heven : |(if up then 1 else 0) - t| = 1 / 2 →
      (number (v.d.take n) + if up then 1 else 0) % 2 = 0) :
    RoundedTo v (trim (if up then raise ⟨v.d.take n, v.point⟩ else ⟨v.d.take n, v.point⟩)) n := by
  have hlen : (v.d.take n).length = n := by
    rw [length_take]
    omega
  have hshort := hv.short
  have hfirst : ∃ d rest, v.d.take n = d :: rest ∧ d ≠ 0 := by
    obtain ⟨d, rest, hd, hne⟩ := hv.first
    obtain ⟨k, rfl⟩ := Nat.exists_eq_add_of_le' hpos
    exact ⟨d, rest.take k, by rw [hd, take_succ_cons], hne⟩
  have hvalue : value ⟨v.d.take n, v.point⟩ = number (v.d.take n) * 10 ^ (v.point - n) := by
    rw [value]
    rw [hlen]
  obtain ⟨w, hw⟩ : ∃ w : Decimal,
      w = if up then raise ⟨v.d.take n, v.point⟩ else ⟨v.d.take n, v.point⟩ := ⟨_, rfl⟩
  have hspec : w.d.length ≤ n ∧ (∃ d rest, w.d = d :: rest ∧ d ≠ 0) ∧
      w.value = (number (v.d.take n) + if up then 1 else 0 : ℕ) * 10 ^ (v.point - n) := by
    cases up with
    | false =>
      rw [hw, if_neg Bool.false_ne_true, if_neg Bool.false_ne_true, Nat.add_zero]
      exact ⟨hlen.le, hfirst, hvalue⟩
    | true =>
      rw [hw, if_pos rfl, if_pos rfl]
      refine ⟨?_, raise_first _ _ fun _ => hfirst, ?_⟩
      · have h := raise_length (v.d.take n) v.point
        omega
      · rw [value_raise, hvalue, hlen]
        push_cast
        ring
  rw [← hw]
  obtain ⟨hwlen, hwfirst, hwvalue⟩ := hspec
  have hdiff : w.value - v.value = ((if up then 1 else 0) - t) * 10 ^ (v.point - n) := by
    rw [hwvalue, ht]
    cases up with
    | false =>
      push_cast
      ring
    | true =>
      push_cast
      ring
  have hdist : |w.value - v.value| = |(if up then 1 else 0) - t| * 10 ^ (v.point - n) := by
    rw [hdiff, abs_mul, abs_of_pos (ten_pos _)]
  have hpow := ten_pos (v.point - n)
  refine ⟨normal_trim (by omega) hwfirst, ?_, ?_, ?_⟩
  · obtain ⟨k, hk⟩ := trim_append w
    have h := congrArg List.length hk
    rw [length_append] at h
    omega
  · rw [value_trim, hdist]
    have hmul := mul_le_mul_of_nonneg_right hnear hpow.le
    linarith
  · refine ⟨_, by rw [value_trim, hwvalue], ?_⟩
    intro htie
    rw [value_trim, hdist] at htie
    refine heven (mul_right_cancel₀ hpow.ne' ?_)
    linarith

theorem number_take_even {n : ℕ} (hpos : 0 < n) (hn : n < v.d.length) :
    number (v.d.take n) % 2 = (v.digitAt (n - 1)).val % 2 := by
  obtain ⟨i, rfl⟩ := Nat.exists_eq_add_of_le' hpos
  have hlead : leading v (i + 1) = v.d.take (i + 1) := by
    rw [leading, Nat.sub_eq_zero_of_le hn.le, replicate_zero, append_nil]
  have hstep := number_leading_succ v i
  have hi : ((i + 1 : ℕ) : ℤ) - 1 = i := by
    push_cast
    ring
  rw [← hlead, hi]
  omega

/-- **`round_to`** gives a nearest decimal of so many digits. -/
theorem roundTo_spec (hv : v.Normal) {n : ℕ} (hpos : 0 < n) : RoundedTo v (v.roundTo n) n := by
  rw [roundTo]
  rcases Nat.lt_or_ge n v.d.length with hlt | hge
  · have hcond : ¬ (v.d = [] ∨ (n : ℤ) ≥ v.d.length) := by
      rintro (hnil | hge)
      · exact hv.ne_nil hnil
      · omega
    have hneg : ¬ (n : ℤ) < 0 := by omega
    obtain ⟨t, ht, ht0, ht1, htie, hmore, hless⟩ := exists_rest hv hlt
    rw [if_neg hcond, if_neg hneg]
    have hodd := number_take_even hpos hlt
    by_cases hfive : v.digitAt n = 5
    · rw [if_neg (not_not.mpr hfive)]
      by_cases hend : n + 1 = v.d.length
      · have hhalf := htie ⟨hfive, hend⟩
        have hup : ((n : ℤ) + 1 < v.d.length ∨ ((n : ℤ) > 0 ∧ (v.digitAt (n - 1)).val % 2 = 1)) ↔
            (v.digitAt (n - 1)).val % 2 = 1 := by omega
        by_cases hlast : (v.digitAt (n - 1)).val % 2 = 1
        · rw [decide_eq_true (hup.mpr hlast)]
          refine roundedTo_of_near hv hpos hlt true ht ?_ ?_
          · rw [if_pos rfl, hhalf, abs_of_nonneg (by norm_num)]
            norm_num
          · intro _
            rw [if_pos rfl]
            omega
        · rw [decide_eq_false (fun h => hlast (hup.mp h))]
          refine roundedTo_of_near hv hpos hlt false ht ?_ ?_
          · rw [if_neg Bool.false_ne_true, hhalf, abs_of_nonpos (by norm_num)]
            norm_num
          · intro _
            rw [if_neg Bool.false_ne_true]
            omega
      · have hup : (n : ℤ) + 1 < v.d.length ∨ ((n : ℤ) > 0 ∧ (v.digitAt (n - 1)).val % 2 = 1) :=
          Or.inl (by omega)
        have h := hmore (fun h => hend h.2) hfive.ge
        rw [decide_eq_true hup]
        refine roundedTo_of_near hv hpos hlt true ht ?_ ?_
        · rw [if_pos rfl, abs_of_nonneg (by linarith)]
          linarith
        · rw [if_pos rfl, abs_of_nonneg (by linarith)]
          intro heq
          linarith
    · rw [if_pos hfive]
      by_cases habove : v.digitAt n > 5
      · have h := hmore (fun h => hfive h.1) habove.le
        rw [decide_eq_true habove]
        refine roundedTo_of_near hv hpos hlt true ht ?_ ?_
        · rw [if_pos rfl, abs_of_nonneg (by linarith)]
          linarith
        · rw [if_pos rfl, abs_of_nonneg (by linarith)]
          intro heq
          linarith
      · have h := hless (lt_of_le_of_ne (not_lt.mp habove) hfive)
        rw [decide_eq_false habove]
        refine roundedTo_of_near hv hpos hlt false ht ?_ ?_
        · rw [if_neg Bool.false_ne_true, abs_of_nonpos (by linarith)]
          linarith
        · rw [if_neg Bool.false_ne_true, abs_of_nonpos (by linarith)]
          intro heq
          linarith
  · obtain ⟨k, hk⟩ := Nat.exists_eq_add_of_le hge
    rw [if_pos (Or.inr (by omega))]
    have hpow := ten_pos (v.point - n)
    refine ⟨hv, hge, ?_, number v.d * 10 ^ k, ?_, ?_⟩
    · rw [sub_self, abs_zero]
      exact div_nonneg hpow.le (by norm_num)
    · rw [value, hk]
      push_cast
      rw [mul_assoc, ← zpow_natCast, ← zpow_add₀ (by norm_num)]
      congr 2
      ring
    · intro htie
      rw [sub_self, abs_zero] at htie
      linarith

-- ── Comparing ────

/-- What a comparison says of two values. -/
def Compares {α : Type} [LT α] (r : ℤ) (a b : α) : Prop :=
  (r = -1 ∧ a < b) ∨ (r = 0 ∧ a = b) ∨ (r = 1 ∧ b < a)

theorem leading_lt {a b : Decimal} {i : ℕ} (h : number (leading a i) < number (leading b i))
    (k : ℕ) : number (leading a (i + k)) < number (leading b (i + k)) := by
  induction k with
  | zero => exact h
  | succ k ih =>
    rw [← Nat.add_assoc, number_leading_succ, number_leading_succ]
    omega

theorem compareFrom_spec (a b : Decimal) (left : ℕ) : ∀ (i : ℕ),
    number (leading a i) = number (leading b i) →
    Compares (compareFrom a b left i) (number (leading a (i + left)))
      (number (leading b (i + left))) := by
  induction left with
  | zero => exact fun i heq => Or.inr (Or.inl ⟨rfl, heq⟩)
  | succ left ih =>
    intro i heq
    have hsum : i + (left + 1) = i + 1 + left := by ring
    have ha := number_leading_succ a i
    have hb := number_leading_succ b i
    rw [compareFrom, hsum]
    by_cases hd : a.digitAt i = b.digitAt i
    · rw [if_neg (not_not.mpr hd)]
      refine ih (i + 1) ?_
      rw [ha, hb, heq, hd]
    · rw [if_pos hd]
      by_cases hlt : a.digitAt i < b.digitAt i
      · have hlt' : (a.digitAt i).val < (b.digitAt i).val := hlt
        rw [if_pos hlt]
        exact Or.inl ⟨rfl, leading_lt (by omega) left⟩
      · have hgt : b.digitAt i < a.digitAt i := lt_of_le_of_ne (not_lt.mp hlt) (Ne.symm hd)
        have hgt' : (b.digitAt i).val < (a.digitAt i).val := hgt
        rw [if_neg hlt]
        exact Or.inr (Or.inr ⟨rfl, leading_lt (by omega) left⟩)

theorem value_leading {n : ℕ} (hn : v.d.length ≤ n) :
    v.value = number (leading v n) * 10 ^ (v.point - n) := by
  obtain ⟨k, rfl⟩ := Nat.exists_eq_add_of_le hn
  rw [value, leading, take_of_length_le hn, number_append, number_replicate_zero,
    length_replicate, Nat.add_zero, Nat.add_sub_cancel_left]
  push_cast
  rw [mul_assoc, ← zpow_natCast, ← zpow_add₀ (by norm_num)]
  congr 2
  ring

theorem lt_of_point_lt {a b : Decimal} (hb : b.Normal) (h : a.point < b.point) :
    a.value < b.value :=
  calc a.value < 10 ^ a.point := value_lt a
    _ ≤ 10 ^ (b.point - 1) := ten_le_ten.mpr (by omega)
    _ ≤ b.value := hb.le_value

/-- **`compare`** compares the values. -/
theorem compare_spec {a b : Decimal} (ha : a.Normal) (hb : b.Normal) :
    Compares (a.compare b) a.value b.value := by
  rw [compare]
  by_cases hpoint : a.point = b.point
  · rw [if_neg (not_not.mpr hpoint)]
    have hspec := compareFrom_spec a b (max a.d.length b.d.length) 0
      (by rw [leading_zero, leading_zero])
    rw [Nat.zero_add] at hspec
    have hpos := ten_pos (b.point - (max a.d.length b.d.length : ℕ))
    rw [value_leading (v := a) (le_max_left _ _), value_leading (v := b) (le_max_right _ _), hpoint]
    rcases hspec with ⟨hr, hlt⟩ | ⟨hr, heq⟩ | ⟨hr, hlt⟩
    · exact Or.inl ⟨hr, mul_lt_mul_of_pos_right (by exact_mod_cast hlt) hpos⟩
    · exact Or.inr (Or.inl ⟨hr, by rw [heq]⟩)
    · exact Or.inr (Or.inr ⟨hr, mul_lt_mul_of_pos_right (by exact_mod_cast hlt) hpos⟩)
  · rw [if_pos hpoint]
    by_cases hlt : a.point < b.point
    · rw [if_pos hlt]
      exact Or.inl ⟨rfl, lt_of_point_lt hb hlt⟩
    · rw [if_neg hlt]
      exact Or.inr (Or.inr ⟨rfl, lt_of_point_lt ha (by omega)⟩)

end Decimal

end AnticFloat
