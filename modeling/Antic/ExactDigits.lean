import Antic.DecimalDigits
import Antic.FloatWriting

/-! # The exact digits of a float

    The limbs of a `big` are the digits of a number in base 10^9, so `big_multiply` multiplies it as
    long as the product has room, and `exact` writes the decimal of the value itself. -/

namespace AnticFloat

open Decimal List Nat

-- ── Limbs ────

/-- The limbs of a number. -/
def limbs (n : ℕ) : List ℕ := Nat.digits BILLION n

theorem limbs_zero : limbs 0 = [] := digits_zero _

theorem limbs_of_pos {n : ℕ} (hn : n ≠ 0) : limbs n = n % BILLION :: limbs (n / BILLION) :=
  digits_def' (by decide) (Nat.pos_of_ne_zero hn)

theorem limbs_length {n k : ℕ} : (limbs n).length ≤ k ↔ n < BILLION ^ k :=
  digits_length_le_iff (by decide) n

theorem limbsOf_eq (m : ℕ) : limbsOf m = limbs m := by
  induction m using Nat.strongRecOn with
  | ind m ih =>
    rw [limbsOf]
    by_cases hm : m = 0
    · rw [if_pos hm, hm, limbs_zero]
    · rw [if_neg hm, limbs_of_pos hm, ih _ (Nat.div_lt_self (Nat.pos_of_ne_zero hm) (by decide))]

theorem multiplyLimbs_spec {k : ℕ} (hpos : 0 < k) (hk : k < 2 ^ 32) (n : ℕ) :
    ∀ carry ≤ k, (multiplyLimbs k (limbs n) carry).1 ++ limbs (multiplyLimbs k (limbs n) carry).2 =
        limbs (n * k + carry) ∧
      (multiplyLimbs k (limbs n) carry).1.length = (limbs n).length := by
  induction n using Nat.strongRecOn with
  | ind n ih =>
    intro carry hcarry
    by_cases hn : n = 0
    · rw [hn, limbs_zero, Nat.zero_mul, Nat.zero_add]
      exact ⟨rfl, rfl⟩
    · have hlimb : n % BILLION < BILLION := mod_lt _ (by decide)
      have hsplit := div_add_mod n BILLION
      obtain ⟨x, hx⟩ : ∃ x, x = n % BILLION * k + carry := ⟨_, rfl⟩
      have hxk : x < BILLION * k + 1 := by
        have hle : (n % BILLION + 1) * k ≤ BILLION * k := Nat.mul_le_mul_right k hlimb
        rw [succ_mul] at hle
        omega
      have hword : word (n % BILLION * k + carry) = x := by
        rw [hx]
        refine word_of_lt ?_
        have hb : BILLION = 1000000000 := rfl
        rw [hb] at hxk
        omega
      have hnext : x / BILLION ≤ k := by
        rw [div_le_iff_le_mul_add_pred (by decide)]
        omega
      obtain ⟨happend, hlen⟩ := ih (n / BILLION)
        (Nat.div_lt_self (Nat.pos_of_ne_zero hn) (by decide)) (x / BILLION) hnext
      have hsum : n * k + carry = x + BILLION * (n / BILLION * k) := by
        calc n * k + carry = (BILLION * (n / BILLION) + n % BILLION) * k + carry := by rw [hsplit]
          _ = n % BILLION * k + carry + BILLION * (n / BILLION * k) := by ring
          _ = x + BILLION * (n / BILLION * k) := by rw [hx]
      have hne : n * k + carry ≠ 0 := by
        have := Nat.mul_pos (Nat.pos_of_ne_zero hn) hpos
        omega
      have hlow : (n * k + carry) % BILLION = x % BILLION := by
        rw [hsum, add_mul_mod_self_left]
      have hhigh : (n * k + carry) / BILLION = n / BILLION * k + x / BILLION := by
        rw [hsum, add_mul_div_left _ _ (by decide), Nat.add_comm]
      rw [limbs_of_pos hn, multiplyLimbs, hword]
      constructor
      · rw [cons_append, happend, limbs_of_pos hne, hlow, hhigh]
      · rw [length_cons, length_cons, hlen]

theorem pushCarry_spec (room : ℕ) : ∀ (carry : ℕ) (low : List ℕ), (limbs carry).length ≤ room →
    pushCarry room carry low = low ++ limbs carry := by
  induction room with
  | zero =>
    intro carry low hroom
    rw [eq_nil_of_length_eq_zero (le_zero.mp hroom), append_nil]
    rfl
  | succ room ih =>
    intro carry low hroom
    rw [pushCarry]
    by_cases hzero : carry = 0
    · rw [if_pos hzero, hzero, limbs_zero, append_nil]
    · rw [limbs_of_pos hzero, length_cons] at hroom
      rw [if_neg hzero, ih _ _ (le_of_succ_le_succ hroom), limbs_of_pos hzero,
        append_assoc, singleton_append]

/-- **`big_multiply`** of a product that has room. -/
theorem bigMultiply_spec {n k : ℕ} (hpos : 0 < k) (hk : k < 2 ^ 32)
    (hroom : n * k < BILLION ^ BIG_LIMBS) : bigMultiply (limbs n) k = limbs (n * k) := by
  obtain ⟨happend, hlen⟩ := multiplyLimbs_spec hpos hk n 0 (Nat.zero_le k)
  rw [Nat.add_zero] at happend
  have hall := limbs_length.mpr hroom
  rw [← happend, length_append, hlen] at hall
  rw [bigMultiply]
  dsimp only
  rw [pushCarry_spec _ _ _ (by omega), happend]

theorem timesPower_spec {base step left : ℕ} (hbase : 1 < base) (hstep : base ^ step < 2 ^ 32)
    (hleft : left ≤ step) (whole : ℕ) : ∀ n,
    n * base ^ (step * whole + left) < BILLION ^ BIG_LIMBS →
    timesPower base step whole left (limbs n) = limbs (n * base ^ (step * whole + left)) := by
  have hpos : ∀ i, 0 < base ^ i := fun i => Nat.pow_pos (by omega)
  induction whole with
  | zero =>
    intro n hroom
    rw [timesPower]
    rw [Nat.mul_zero, Nat.zero_add] at hroom ⊢
    by_cases hzero : left > 0
    · have hle : base ^ left ≤ base ^ step := Nat.pow_le_pow_right (by omega) hleft
      rw [if_pos hzero, bigMultiply_spec (hpos left) (by omega) hroom]
    · rw [if_neg hzero, Nat.eq_zero_of_not_pos hzero, Nat.pow_zero, Nat.mul_one]
  | succ whole ih =>
    intro n hroom
    have hsplit : n * base ^ (step * (whole + 1) + left) =
        n * base ^ step * base ^ (step * whole + left) := by ring
    rw [hsplit] at hroom ⊢
    have hfirst : n * base ^ step < BILLION ^ BIG_LIMBS :=
      Nat.lt_of_le_of_lt (Nat.le_mul_of_pos_right _ (hpos _)) hroom
    rw [timesPower, bigMultiply_spec (hpos step) hstep hfirst, ih _ hroom]

-- ── Digits of limbs ────

theorem limbDigits_append (k v : ℕ) (out : List Digit) :
    limbDigits k v out = limbDigits k v [] ++ out := by
  induction k generalizing v out with
  | zero => rfl
  | succ k ih =>
    rw [limbDigits, ih, limbDigits, ih (v / 10) [digit v], append_assoc, singleton_append]

theorem limbDigits_length (k v : ℕ) : (limbDigits k v []).length = k := by
  induction k generalizing v with
  | zero => rfl
  | succ k ih => rw [limbDigits, limbDigits_append, length_append, ih, length_singleton]

theorem number_limbDigits (k v : ℕ) (hv : v < 10 ^ k) : number (limbDigits k v []) = v := by
  induction k generalizing v with
  | zero =>
    rw [Nat.pow_zero, lt_one_iff] at hv
    rw [hv]
    rfl
  | succ k ih =>
    have hten : v / 10 < 10 ^ k := by
      exact Nat.div_lt_of_lt_mul (by rw [Nat.mul_comm]; exact hv)
    rw [limbDigits, limbDigits_append, number_append, ih _ hten, number_singleton, digit_val,
      length_singleton, Nat.pow_one]
    omega

theorem highDigits_append (top : ℕ) (out : List Digit) :
    highDigits top out = highDigits top [] ++ out := by
  induction top using Nat.strongRecOn generalizing out with
  | ind top ih =>
    rw [highDigits, highDigits.eq_def top []]
    by_cases htop : top = 0
    · rw [if_pos htop, if_pos htop]
      rfl
    · have hlt : top / 10 < top := Nat.div_lt_self (Nat.pos_of_ne_zero htop) (by decide)
      rw [if_neg htop, if_neg htop, ih _ hlt, ih _ hlt [digit top], append_assoc, singleton_append]

theorem number_highDigits (top : ℕ) : number (highDigits top []) = top := by
  induction top using Nat.strongRecOn with
  | ind top ih =>
    rw [highDigits]
    by_cases htop : top = 0
    · rw [if_pos htop, htop]
      rfl
    · rw [if_neg htop, highDigits_append, number_append,
        ih _ (Nat.div_lt_self (Nat.pos_of_ne_zero htop) (by decide)), number_singleton,
        digit_val, length_singleton, Nat.pow_one]
      omega

theorem highDigits_first {top : ℕ} (htop : top ≠ 0) :
    ∃ d rest, highDigits top [] = d :: rest ∧ d ≠ 0 := by
  induction top using Nat.strongRecOn with
  | ind top ih =>
    rw [highDigits, if_neg htop, highDigits_append]
    by_cases hten : top / 10 = 0
    · refine ⟨digit top, [], ?_, digit_ne_zero htop (by omega)⟩
      rw [hten, highDigits, if_pos rfl, nil_append]
    · obtain ⟨d, rest, hd, hne⟩ :=
        ih _ (Nat.div_lt_self (Nat.pos_of_ne_zero htop) (by decide)) hten
      exact ⟨d, rest ++ [digit top], by rw [hd, cons_append], hne⟩

theorem number_flatMap (rest : List ℕ) (hall : ∀ limb ∈ rest, limb < BILLION) :
    number (rest.flatMap (limbDigits 9 · [])) = Nat.ofDigits BILLION rest.reverse ∧
      (rest.flatMap (limbDigits 9 · [])).length = 9 * rest.length := by
  induction rest with
  | nil => exact ⟨rfl, rfl⟩
  | cons limb rest ih =>
    obtain ⟨hnumber, hlen⟩ := ih fun l hl => hall l (mem_cons_of_mem _ hl)
    have hpow : 10 ^ (9 * rest.length) = BILLION ^ rest.length := by
      rw [Nat.pow_mul]
      rfl
    constructor
    · rw [flatMap_cons, number_append, hnumber, hlen, hpow,
        number_limbDigits 9 limb (hall limb mem_cons_self), reverse_cons,
        ofDigits_append, ofDigits_singleton, length_reverse]
      ring
    · rw [flatMap_cons, length_append, hlen, limbDigits_length, length_cons]
      ring

/-- The digits that `exact` writes for a number that is not zero. -/
theorem limbs_digits {n : ℕ} (hn : n ≠ 0) : ∃ top rest, (limbs n).reverse = top :: rest ∧
    number (highDigits top [] ++ rest.flatMap (limbDigits 9 · [])) = n ∧
    ∃ d more, highDigits top [] ++ rest.flatMap (limbDigits 9 · []) = d :: more ∧ d ≠ 0 := by
  have hne : limbs n ≠ [] := digits_ne_nil_iff_ne_zero.mpr hn
  have hlast : (limbs n).getLast hne ≠ 0 := getLast_digit_ne_zero BILLION hn
  have hsplit := dropLast_append_getLast hne
  refine ⟨(limbs n).getLast hne, (limbs n).dropLast.reverse, ?_, ?_, ?_⟩
  · conv_lhs => rw [← hsplit, reverse_append]
    rfl
  · have hall : ∀ limb ∈ (limbs n).dropLast.reverse, limb < BILLION := by
      intro limb hlimb
      exact digits_lt_base (by decide) (mem_of_mem_dropLast (mem_reverse.mp hlimb))
    obtain ⟨hnumber, hlen⟩ := number_flatMap _ hall
    have hpow : 10 ^ (9 * (limbs n).dropLast.length) = BILLION ^ (limbs n).dropLast.length := by
      rw [Nat.pow_mul]
      rfl
    have hvalue : Nat.ofDigits BILLION (limbs n) = n := ofDigits_digits _ _
    rw [← hsplit, ofDigits_append, ofDigits_singleton] at hvalue
    rw [number_append, number_highDigits, hnumber, hlen, length_reverse, hpow, reverse_reverse]
    conv_rhs => rw [← hvalue]
    ring
  · obtain ⟨d, more, hd, hd0⟩ := highDigits_first hlast
    exact ⟨d, more ++ _, by rw [hd, cons_append], hd0⟩

-- ── The exact value ────

/-- The limits of what `exact` is asked for. -/
structure Fits (m : ℕ) (e : ℤ) : Prop where
  pos : m ≠ 0
  mantissa : m < 2 ^ 54
  low : -1075 ≤ e
  high : e ≤ 1023

theorem Fits.bound {m : ℕ} {e : ℤ} (h : Fits m e) :
    m * 2 ^ e.toNat * 5 ^ (-e).toNat < 10 ^ EXACT_DIGITS := by
  have hcases : (e.toNat ≤ 1023 ∧ (-e).toNat = 0) ∨ (e.toNat = 0 ∧ (-e).toNat ≤ 1075) := by
    have hlow := h.low
    have hhigh := h.high
    omega
  have hm := h.mantissa
  rcases hcases with ⟨he, hzero⟩ | ⟨hzero, he⟩
  · rw [hzero, Nat.pow_zero, Nat.mul_one]
    calc m * 2 ^ e.toNat ≤ 2 ^ 54 * 2 ^ 1023 :=
          Nat.mul_le_mul hm.le (Nat.pow_le_pow_right (by decide) he)
      _ < 10 ^ EXACT_DIGITS := by decide +kernel
  · rw [hzero, Nat.pow_zero, Nat.mul_one]
    calc m * 5 ^ (-e).toNat ≤ 2 ^ 54 * 5 ^ 1075 :=
          Nat.mul_le_mul hm.le (Nat.pow_le_pow_right (by decide) he)
      _ < 10 ^ EXACT_DIGITS := by decide +kernel

/-- **`exact`** writes the decimal of `m * 2 ^ e`, and finds room for its digits. -/
theorem exact_spec {m : ℕ} {e : ℤ} (h : Fits m e) :
    (exact m e).Normal ∧ (exact m e).value = m * 2 ^ e := by
  have hbound := h.bound
  have hroom : m * 2 ^ e.toNat * 5 ^ (-e).toNat < BILLION ^ BIG_LIMBS :=
    Nat.lt_trans hbound (by decide +kernel)
  have hfirst : m * 2 ^ e.toNat < BILLION ^ BIG_LIMBS :=
    Nat.lt_of_le_of_lt (Nat.le_mul_of_pos_right _ (Nat.pow_pos (by decide))) hroom
  have htwo : 29 * (e.toNat / 29) + e.toNat % 29 = e.toNat := div_add_mod ..
  have hfive : 13 * ((-e).toNat / 13) + (-e).toNat % 13 = (-e).toNat := div_add_mod ..
  have hlimbs : timesPower 5 13 ((-e).toNat / 13) ((-e).toNat % 13)
      (timesPower 2 29 (e.toNat / 29) (e.toNat % 29) (limbsOf m)) =
      limbs (m * 2 ^ e.toNat * 5 ^ (-e).toNat) := by
    rw [limbsOf_eq, timesPower_spec (by decide) (by decide)
      (mod_lt _ (by decide)).le, htwo, timesPower_spec (by decide) (by decide)
      (mod_lt _ (by decide)).le, hfive]
    · rw [hfive]
      exact hroom
    · rw [htwo]
      exact hfirst
  have hne : m * 2 ^ e.toNat * 5 ^ (-e).toNat ≠ 0 :=
    Nat.mul_ne_zero (Nat.mul_ne_zero h.pos (Nat.pow_pos (by decide)).ne')
      (Nat.pow_pos (by decide)).ne'
  obtain ⟨top, rest, hreverse, hnumber, d, more, hd, hd0⟩ := limbs_digits hne
  obtain ⟨ds, hds⟩ : ∃ ds, ds = highDigits top [] ++ rest.flatMap (limbDigits 9 · []) := ⟨_, rfl⟩
  have heq : exact m e = trim ⟨ds, ds.length + if e < 0 then e else 0⟩ := by
    rw [exact]
    rw [hlimbs, hreverse, hds]
  rw [← hds] at hnumber hd
  have hlen : ds.length ≤ EXACT_DIGITS := by
    -- A number of more digits would be too great.
    by_contra hlong
    have hmore : EXACT_DIGITS ≤ more.length := by
      rw [hd, length_cons] at hlong
      omega
    have hd1 : 1 ≤ d.val := one_le_iff_ne_zero.mpr fun hzero => hd0 (Fin.ext hzero)
    have hpow : 10 ^ EXACT_DIGITS ≤ 10 ^ more.length := Nat.pow_le_pow_right (by decide) hmore
    have hmul : 1 * 10 ^ more.length ≤ d.val * 10 ^ more.length := Nat.mul_le_mul_right _ hd1
    rw [hd, number_cons] at hnumber
    omega
  refine ⟨?_, ?_⟩
  · rw [heq]
    exact normal_trim hlen ⟨d, more, hd, hd0⟩
  · rw [heq, value_trim, Decimal.value]
    rw [hnumber]
    by_cases hneg : e < 0
    · obtain ⟨k, rfl⟩ : ∃ k : ℕ, e = -(k : ℤ) := ⟨(-e).toNat, by omega⟩
      have hzero : (-(k : ℤ)).toNat = 0 := by omega
      have hnat : (- -(k : ℤ)).toNat = k := by omega
      have hexp : (ds.length : ℤ) + -(k : ℤ) - ds.length = -(k : ℤ) := by ring
      rw [if_pos hneg, hexp, hzero, hnat, zpow_neg, zpow_neg, zpow_natCast, zpow_natCast]
      push_cast
      rw [show (10 : ℚ) = 2 * 5 by norm_num, mul_pow]
      field_simp
    · obtain ⟨k, rfl⟩ : ∃ k : ℕ, e = k := ⟨e.toNat, by omega⟩
      have hzero : (-(k : ℤ)).toNat = 0 := by omega
      have hexp : (ds.length : ℤ) + 0 - ds.length = 0 := by ring
      rw [if_neg hneg, hexp, hzero, Int.toNat_natCast, zpow_zero, zpow_natCast]
      push_cast
      ring

end AnticFloat
