import Antic.FloatNumerals
import Antic.FloatRounding

/-! # Text to float

    `anti_rt_read_float` takes the texts of floats and no others, and rounds the value of a
    text with its exponent cut after six digits.  That is the value of the text, unless the
    exponent has more digits than six and the digits of the number make up for them. -/

open Nat

namespace AnticFloat

open Decimal BinaryFormats Format

variable {f : Format}

/-- The widths of `f16`, `f32` and `f64`. -/
def half : Format := ⟨10, 5, by decide, by decide⟩

def single : Format := ⟨23, 8, by decide, by decide⟩

def double : Format := ⟨52, 11, by decide, by decide⟩

theorem supported_half : Supported half := ⟨by decide, by decide, by decide⟩

theorem supported_single : Supported single := ⟨by decide, by decide, by decide⟩

theorem supported_double : Supported double := ⟨by decide, by decide, by decide⟩

namespace Numeral

/-- The bit of the sign. -/
def signBit (t : Numeral) (f : Format) : ℕ :=
  if t.sign = .minus then 2 ^ (f.mantissa + f.exponent) else 0

/-- The exponent has at most six digits, or the cut of the exponent leaves the value where
    it rounds to infinity, or where it rounds to zero. -/
def ScaleFits (t : Numeral) (f : Format) : Prop :=
  t.scale < 1000000 ∨ (f.TooLarge t.value ∧ f.TooLarge (t.valueAt (cut t.scale))) ∨
    (f.TooSmall t.value ∧ f.TooSmall (t.valueAt (cut t.scale)))

theorem valueAt_nonneg (t : Numeral) (scale : ℕ) : 0 ≤ t.valueAt scale :=
  mul_nonneg (cast_nonneg _) (ten_pos _).le

theorem far_of_cut {t : Numeral} (h : 1000000 ≤ t.scale) :
    10 * t.valueAt (cut t.scale) ≤ t.value ∨ 10 * t.value ≤ t.valueAt (cut t.scale) := by
  have hcut := cut_le h
  have hten : ∀ {a b : ℤ}, a + 1 ≤ b →
      10 * ((number t.digits : ℚ) * 10 ^ a) ≤ number t.digits * 10 ^ b := by
    intro a b hab
    have hstep : (10 : ℚ) * 10 ^ a = 10 ^ (a + 1) := by
      rw [zpow_add_one₀ (by norm_num), mul_comm]
    rw [mul_left_comm, hstep]
    exact mul_le_mul_of_nonneg_left (ten_le_ten.mpr hab) (cast_nonneg _)
  by_cases hs : t.shrinks = true
  · right
    rw [value, valueAt, valueAt, if_pos hs, if_pos hs]
    exact hten (by omega)
  · left
    rw [value, valueAt, valueAt, if_neg hs, if_neg hs]
    exact hten (by omega)

end Numeral

/-- The reader takes the text if and only if it is one of a float, and gives the bits of the
    value nearest to that of the text, the even ones of two, under its sign. -/
def ReadsRight (f : Format) (bytes : List UInt8) : Prop :=
  (readFloat bytes f.mantissa f.exponent = some none ↔ ¬ ∃ t : Numeral, t.bytes = bytes) ∧
    ∀ t : Numeral, t.bytes = bytes →
      ∃ n, readFloat bytes f.mantissa f.exponent = some (some (t.signBit f ||| n)) ∧
        f.Rounds t.value n

-- ── What is read ────

theorem readSign_numeral (t : Numeral) :
    readSign t.bytes = (decide (t.sign = .minus), t.body) := by
  have hfirst : ∃ c rest, t.body = c :: rest ∧ c ≠ 43 ∧ c ≠ 45 := by
    have hother : ∀ d : Digit, digitByte d ≠ 43 ∧ digitByte d ≠ 45 := by decide
    obtain ⟨sign, whole, places, exponent, hsome⟩ := t
    cases whole with
    | cons d ds => exact ⟨digitByte d, _, rfl, hother d⟩
    | nil =>
      cases places with
      | none => rcases hsome with h | h <;> exact absurd rfl h
      | some ds => exact ⟨46, _, rfl, by decide, by decide⟩
  obtain ⟨c, rest, hbody, hplus, hminus⟩ := hfirst
  rw [Numeral.bytes]
  cases t.sign with
  | plus => rfl
  | minus => rfl
  | none =>
    show readSign t.body = _
    rw [hbody, readSign, if_neg hplus, if_neg hminus]
    rfl

theorem bias_eq (f : Format) : ((1 <<< (f.exponent - 1) : ℕ) : ℤ) - 1 = f.bias := by
  rw [one_shiftLeft, bias, cast_sub (Nat.one_le_two_pow), cast_one]

theorem infinite_eq (f : Format) : (1 <<< f.exponent - 1) <<< f.mantissa = f.infinite := by
  rw [one_shiftLeft, shiftLeft_eq, infinite]

theorem tooSmall_of_lt (hf : Supported f) {x : ℚ} (hx : x < 10 ^ (-331 : ℤ)) : f.TooSmall x := by
  have hone : f.value 1 = f.unit 0 := by
    have h := value_window (f := f) (t := 0) (r := 1) (Nat.one_le_two_pow) (Or.inl rfl)
    rw [Nat.zero_mul, Nat.zero_add, cast_one, one_mul] at h
    exact h
  have hten : (10 : ℚ) ^ (-331 : ℤ) ≤ 2 ^ (-1075 : ℤ) :=
    ten_le_two (n := 331) (m := 744) (by omega) (by decide +kernel) (by omega)
  have hunit : (2 : ℚ) * 2 ^ (-1075 : ℤ) ≤ f.unit 0 := by
    have h1 := hf.bias_most
    have h2 := hf.mantissa_most
    rw [Format.unit, ← zpow_one_add₀ (by norm_num)]
    exact two_le_two.mpr (by push_cast; omega)
  rw [TooSmall, hone]
  linarith

theorem tooLarge_of_le (hf : Supported f) {x : ℚ} (hx : 10 ^ (310 : ℤ) ≤ x) : f.TooLarge x := by
  have hinf : f.value f.infinite ≤ x := by
    have h1 := hf.bias_most
    rw [value_infinite (le_of_succ_le hf.bias_two), ← zpow_natCast]
    refine le_trans ?_ hx
    exact two_le_ten_of_le (n := 310) (m := 714) le_rfl (by decide +kernel) (by push_cast; omega)
  have hlast : f.value (f.infinite - 1) ≤ f.value f.infinite :=
    value_strictMono.monotone (sub_le ..)
  rw [TooLarge]
  linarith

theorem value_half_zero : f.TooSmall 0 := by
  rw [TooSmall, mul_zero]
  exact value_nonneg 1

theorem significant_cons {ds : List Digit} (h : significant ds ≠ []) :
    ∃ d rest, significant ds = d :: rest ∧ d ≠ 0 := by
  have hhead := List.head?_dropWhile_not (fun d : Digit => decide (d = 0)) ds
  cases hsig : significant ds with
  | nil => exact absurd hsig h
  | cons d rest =>
    rw [show ds.dropWhile (fun d => decide (d = 0)) = d :: rest from hsig] at hhead
    exact ⟨d, rest, rfl, of_decide_eq_false hhead⟩

/-- What the digits of a number stand for, with its exponent cut. -/
theorem valueAt_significant (t : Numeral) :
    t.valueAt (cut t.scale) = Decimal.value ⟨significant t.digits,
      t.whole.length - (t.digits.length - (significant t.digits).length) +
        (if t.shrinks then -(cut t.scale : ℤ) else cut t.scale)⟩ := by
  rw [Numeral.valueAt, Decimal.value]
  show _ = (number (significant t.digits) : ℚ) * 10 ^ _
  rw [number_significant]
  congr 2
  rw [Numeral.digits, List.length_append]
  push_cast
  ring

/-- **The reader rounds** the value with its exponent cut. -/
theorem readFloat_numeral (hf : Supported f) (t : Numeral) :
    ∃ n, readFloat t.bytes f.mantissa f.exponent = some (some (t.signBit f ||| n)) ∧
      f.Rounds (t.valueAt (cut t.scale)) n := by
  have hsign : (if decide (t.sign = .minus) = true then 1 <<< (f.mantissa + f.exponent) else 0) =
      t.signBit f := by
    rw [Numeral.signBit, one_shiftLeft]
    by_cases hm : t.sign = .minus
    · rw [if_pos (decide_eq_true hm), if_pos hm]
    · rw [if_neg hm, if_neg (fun h => hm (of_decide_eq_true h))]
  obtain ⟨p, hp⟩ : ∃ p : ℤ, p = t.whole.length - (t.digits.length - (significant t.digits).length) +
      (if t.shrinks then -(cut t.scale : ℤ) else cut t.scale) := ⟨_, rfl⟩
  have hvalue := valueAt_significant t
  rw [← hp] at hvalue
  have hread : readFloat t.bytes f.mantissa f.exponent =
      if (trim ⟨(significant t.digits).take EXACT_DIGITS, p⟩).d = [] ∨ p < -330 then
        some (some (t.signBit f))
      else if p > 310 then some (some (t.signBit f ||| f.infinite))
      else (roundScaled f.mantissa f.bias (t.signBit f) f.infinite
        (trim ⟨(significant t.digits).take EXACT_DIGITS, p⟩,
          ((significant t.digits).drop EXACT_DIGITS).any (· ≠ 0))).map some := by
    rw [readFloat, readSign_numeral]
    dsimp only
    rw [t.readDecimal_body, hsign, bias_eq, infinite_eq, ← hp]
    rfl
  rw [hread]
  by_cases hzero : significant t.digits = []
  · have hnil : (trim ⟨(significant t.digits).take EXACT_DIGITS, p⟩).d = [] := by
      rw [hzero]
      rfl
    rw [if_pos (Or.inl hnil)]
    refine ⟨0, by rw [or_zero], ?_⟩
    rw [Numeral.valueAt, ← number_significant, hzero, number_nil, cast_zero, zero_mul,
      rounds_zero_iff le_rfl]
    exact value_half_zero
  · have hfirst : ∃ d rest, significant t.digits = d :: rest ∧ d ≠ 0 := significant_cons hzero
    have ht := truncates_take (p := p) hfirst
    rw [← hvalue] at ht
    have hx := t.valueAt_nonneg (cut t.scale)
    by_cases hsmall : p < -330
    · rw [if_pos (Or.inr hsmall)]
      refine ⟨0, by rw [or_zero], (rounds_zero_iff hx).mpr (tooSmall_of_lt hf ?_)⟩
      exact lt_of_lt_of_le ht.lt (ten_le_ten.mpr (by show p ≤ -331; omega))
    · rw [if_neg (fun h => h.elim ht.normal.ne_nil hsmall)]
      by_cases hlarge : p > 310
      · rw [if_pos hlarge]
        refine ⟨f.infinite, rfl, rounds_infinite_iff.mpr (tooLarge_of_le hf ?_)⟩
        refine le_trans (ten_le_ten.mpr ?_) (ht.normal.le_value.trans ht.low)
        show 310 ≤ p - 1
        omega
      · rw [if_neg hlarge]
        obtain ⟨n, hround, hn⟩ := roundScaled_spec hf ht (by show -330 ≤ p; omega)
          (by show p ≤ 310; omega) (t.signBit f)
        rw [hround]
        exact ⟨n, rfl, hn⟩

/-- **The reader takes no other text.** -/
theorem exists_of_readFloat {bytes : List UInt8} {m w : ℕ} (h : readFloat bytes m w ≠ some none) :
    ∃ t : Numeral, t.bytes = bytes := by
  obtain ⟨sign, rest, hsign, rfl⟩ := exists_sign bytes
  rw [readFloat, hsign] at h
  dsimp only at h
  cases hread : readDecimal rest with
  | none =>
    rw [hread] at h
    exact absurd rfl h
  | some kept =>
    obtain ⟨t, hts, htb⟩ := Numeral.exists_of_readDecimal hread sign
    exact ⟨t, by rw [Numeral.bytes, hts, htb]⟩

-- ── What is read right ────

theorem or_cancel {f : Format} (t : Numeral) {n k : ℕ} (hn : n ≤ f.infinite) (hk : k ≤ f.infinite)
    (h : t.signBit f ||| n = t.signBit f ||| k) : n = k := by
  have hwide : f.infinite < 2 ^ (f.mantissa + f.exponent) := by
    have hpos := Nat.two_pow_pos f.exponent
    rw [infinite, Nat.pow_add, Nat.mul_comm]
    exact Nat.mul_lt_mul_of_pos_left (by omega) (Nat.two_pow_pos _)
  have hsum : ∀ {j : ℕ}, j ≤ f.infinite → t.signBit f ||| j = t.signBit f + j := by
    intro j hj
    rw [Numeral.signBit]
    by_cases hm : t.sign = .minus
    · rw [if_pos hm]
      have hor := two_pow_add_eq_or_of_lt (Nat.lt_of_le_of_lt hj hwide) 1
      rw [Nat.mul_one] at hor
      exact hor.symm
    · rw [if_neg hm, zero_or, Nat.zero_add]
  rw [hsum hn, hsum hk] at h
  exact Nat.add_left_cancel h

theorem rounds_iff_scaleFits {t : Numeral} {n : ℕ} (hn : f.Rounds (t.valueAt (cut t.scale)) n) :
    f.Rounds t.value n ↔ t.ScaleFits f := by
  have hcut := t.valueAt_nonneg (cut t.scale)
  have hvalue := t.valueAt_nonneg t.scale
  constructor
  · intro h
    rcases Nat.lt_or_ge t.scale 1000000 with hshort | hlong
    · exact Or.inl hshort
    · right
      by_cases hinf : n = f.infinite
      · rw [hinf] at h hn
        exact Or.inl ⟨rounds_infinite_iff.mp h, rounds_infinite_iff.mp hn⟩
      by_cases hzero : n = 0
      · rw [hzero] at h hn
        exact Or.inr ⟨(rounds_zero_iff hvalue).mp h, (rounds_zero_iff hcut).mp hn⟩
      -- Values that far from each other have no value near both.
      exfalso
      have hpos : 0 < f.value n := by
        rw [← value_zero (f := f)]
        exact value_strictMono (Nat.pos_of_ne_zero hzero)
      obtain ⟨h1, h2⟩ := h.near hvalue hzero hinf
      obtain ⟨h3, h4⟩ := hn.near hcut hzero hinf
      rcases Numeral.far_of_cut hlong with hfar | hfar
      · linarith
      · linarith
  · rintro (hshort | ⟨hlarge, hlarge'⟩ | ⟨hsmall, hsmall'⟩)
    · rw [cut_of_lt hshort] at hn
      exact hn
    · rw [hn.unique (rounds_infinite_iff.mpr hlarge')]
      exact rounds_infinite_iff.mpr hlarge
    · rw [hn.unique ((rounds_zero_iff hcut).mpr hsmall')]
      exact (rounds_zero_iff hvalue).mpr hsmall

theorem readsRight_iff (hf : Supported f) (bytes : List UInt8) :
    ReadsRight f bytes ↔ ∀ t : Numeral, t.bytes = bytes → t.ScaleFits f := by
  constructor
  · rintro ⟨-, hreads⟩ t ht
    obtain ⟨n, hn, hround⟩ := hreads t ht
    obtain ⟨k, hk, hcut⟩ := readFloat_numeral hf t
    rw [ht, hn] at hk
    have hsame : n = k := or_cancel t hround.bound hcut.bound (Option.some.inj (Option.some.inj hk))
    rw [hsame] at hround
    exact (rounds_iff_scaleFits hcut).mp hround
  · intro hfits
    refine ⟨⟨?_, ?_⟩, ?_⟩
    · rintro hnone ⟨t, ht⟩
      obtain ⟨k, hk, -⟩ := readFloat_numeral hf t
      rw [ht, hnone] at hk
      cases hk
    · intro hno
      by_contra hread
      exact hno (exists_of_readFloat hread)
    · intro t ht
      obtain ⟨k, hk, hcut⟩ := readFloat_numeral hf t
      rw [ht] at hk
      exact ⟨k, hk, (rounds_iff_scaleFits hcut).mpr (hfits t ht)⟩

/-- **Text to float.**  The reader is right about a text at each width, unless its exponent
    has more than six digits and the cut of it moves the value to other bits. -/
theorem readFloat_right_iff (bytes : List UInt8) :
    (ReadsRight half bytes ↔ ∀ t : Numeral, t.bytes = bytes → t.ScaleFits half) ∧
      (ReadsRight single bytes ↔ ∀ t : Numeral, t.bytes = bytes → t.ScaleFits single) ∧
      (ReadsRight double bytes ↔ ∀ t : Numeral, t.bytes = bytes → t.ScaleFits double) :=
  ⟨readsRight_iff supported_half bytes, readsRight_iff supported_single bytes,
    readsRight_iff supported_double bytes⟩

/-- A point, some zeros, a 1, and an exponent of seven digits. -/
def farNumeral (zeros : ℕ) : Numeral :=
  ⟨.none, [0], some (List.replicate zeros 0 ++ [1]), some ⟨false, .none, [1, 0, 0, 0, 0, 0, 0],
    List.cons_ne_nil _ _⟩, Or.inl (List.cons_ne_nil _ _)⟩

theorem farNumeral_valueAt (zeros scale : ℕ) :
    (farNumeral zeros).valueAt scale = 10 ^ ((scale : ℤ) - (zeros + 1 : ℕ)) := by
  have hnumber : number (farNumeral zeros).digits = 1 := by
    show number (([0] : List Digit) ++ (List.replicate zeros 0 ++ [1])) = 1
    rw [number_append, number_append, number_replicate_zero, number_singleton, number_singleton,
      Fin.val_zero, Nat.zero_mul, Nat.zero_mul, Nat.zero_add, Nat.zero_add]
    rfl
  have hlen : ((farNumeral zeros).places.getD []).length = zeros + 1 := by
    show (List.replicate zeros (0 : Digit) ++ [1]).length = zeros + 1
    rw [List.length_append, List.length_replicate]
    rfl
  rw [Numeral.valueAt, hnumber, hlen, cast_one, one_mul]
  rfl

/-- **An exponent that is cut**: the text stands for `10 ^ 900000`, and is read as 1. -/
theorem readFloat_far_wrong : (farNumeral 99999).value = 10 ^ (900000 : ℤ) ∧
      readFloat (farNumeral 99999).bytes 52 11 = some (some (1023 * 2 ^ 52)) ∧
      ¬ ReadsRight double (farNumeral 99999).bytes := by
  have hscale : (farNumeral 99999).scale = 1000000 := rfl
  have hcut : cut 1000000 = 100000 := by
    rw [cut_of_ge le_rfl, cut_of_lt (by decide)]
  have hvalue : (farNumeral 99999).value = 10 ^ (900000 : ℤ) := by
    rw [Numeral.value, hscale, farNumeral_valueAt]
    congr 1
  have hone : double.value (1023 * 2 ^ 52) = 1 := by
    have h := value_window (f := double) (t := 1022) (r := 2 ^ 52) (by decide) (Or.inr le_rfl)
    have hunit : double.unit 1022 = 2 ^ (-52 : ℤ) := rfl
    have hbits : 1022 * 2 ^ double.mantissa + 2 ^ 52 = 1023 * 2 ^ 52 := by decide
    rw [hbits, hunit] at h
    rw [h]
    norm_num
  have hround : double.Rounds 1 (1023 * 2 ^ 52) := by
    rw [← hone]
    exact rounds_value (by decide)
  have hsign : ∀ n, (farNumeral 99999).signBit double ||| n = n := fun n => zero_or n
  obtain ⟨n, hread, hn⟩ := readFloat_numeral supported_double (farNumeral 99999)
  have hat : (farNumeral 99999).valueAt (cut (farNumeral 99999).scale) = 1 := by
    rw [hscale, hcut, farNumeral_valueAt]
    rfl
  rw [hat] at hn
  rw [hsign, hn.unique hround] at hread
  refine ⟨hvalue, hread, ?_⟩
  rintro ⟨-, hright⟩
  obtain ⟨k, hk, hinf⟩ := hright (farNumeral 99999) rfl
  have hlarge : double.TooLarge (farNumeral 99999).value := by
    refine tooLarge_of_le supported_double ?_
    rw [hvalue]
    exact ten_le_ten.mpr (by decide)
  rw [hread, hsign, ← (rounds_infinite_iff.mpr hlarge).unique hinf] at hk
  have hne : 1023 * 2 ^ 52 ≠ double.infinite := by decide
  exact hne (Option.some.inj (Option.some.inj hk))

end AnticFloat
