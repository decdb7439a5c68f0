import Antic.DecimalDigits

/-! # Doubling and halving a decimal

    `double_by` and `halve_by` keep the first digits of the product and of the quotient, and
    remember whether a digit that they drop is not 0.  No number on the way leaves 64 bits. -/

open Nat

namespace AnticFloat

open List

namespace Decimal

variable {v : Decimal} {k : ℕ}

theorem two_pow_le_limit (hk : k ≤ SHIFT_LIMIT) : 2 ^ k ≤ 134217728 :=
  Nat.pow_le_pow_right (by norm_num) hk

-- ── Doubling ────

/-- **The loop of `double_by`** multiplies the digits. -/
theorem doubleDigits_spec (hk : k ≤ SHIFT_LIMIT) (ds : List Digit) :
    (doubleDigits k ds).1.length = ds.length ∧ (doubleDigits k ds).2 < 2 ^ k ∧
      (doubleDigits k ds).2 * 10 ^ ds.length + number (doubleDigits k ds).1 =
        number ds * 2 ^ k := by
  have hlimit := two_pow_le_limit hk
  induction ds with
  | nil => exact ⟨rfl, Nat.two_pow_pos k, by rw [number_nil, Nat.zero_mul]; rfl⟩
  | cons d rest ih =>
    obtain ⟨hlen, hcarry, hvalue⟩ := ih
    set out := (doubleDigits k rest).1 with hout
    set carry := (doubleDigits k rest).2 with hc
    have hd : d.val * 2 ^ k ≤ 9 * 2 ^ k := Nat.mul_le_mul_right _ (le_of_lt_succ d.isLt)
    have hx : word (d.val <<< k + carry) = d.val * 2 ^ k + carry := by
      rw [shiftLeft_eq]
      exact word_of_lt (by omega)
    have hstep : doubleDigits k (d :: rest) =
        (digit (d.val * 2 ^ k + carry) :: out, (d.val * 2 ^ k + carry) / 10) := by
      rw [← hx]
      rfl
    rw [hstep]
    refine ⟨congrArg Nat.succ hlen, by omega, ?_⟩
    have hsplit := div_add_mod (d.val * 2 ^ k + carry) 10
    show (d.val * 2 ^ k + carry) / 10 * 10 ^ (rest.length + 1) + number (digit _ :: out) = _
    rw [number_cons, number_cons, digit_val, hlen]
    calc (d.val * 2 ^ k + carry) / 10 * 10 ^ (rest.length + 1) +
          ((d.val * 2 ^ k + carry) % 10 * 10 ^ rest.length + number out)
        = (10 * ((d.val * 2 ^ k + carry) / 10) + (d.val * 2 ^ k + carry) % 10) *
            10 ^ rest.length + number out := by ring
      _ = d.val * 2 ^ k * 10 ^ rest.length + (carry * 10 ^ rest.length + number out) := by
          rw [hsplit]
          ring
      _ = (d.val * 10 ^ rest.length + number rest) * 2 ^ k := by
          rw [hvalue]
          ring

theorem putCarry_spec {turns : ℕ} : ∀ (carry : ℕ) (out : List Digit), carry ≤ turns →
    ∃ ds, putCarry turns carry out = ds ++ out ∧ number ds = carry ∧
      (ds = [] ∨ ∃ d rest, ds = d :: rest ∧ d ≠ 0) := by
  induction turns with
  | zero =>
    intro carry out hc
    obtain rfl := le_zero.mp hc
    exact ⟨[], rfl, rfl, Or.inl rfl⟩
  | succ turns ih =>
    intro carry out hc
    rw [putCarry]
    by_cases hzero : carry = 0
    · rw [if_pos hzero]
      exact ⟨[], rfl, hzero.symm ▸ rfl, Or.inl rfl⟩
    · rw [if_neg hzero]
      obtain ⟨ds, hput, hvalue, hfirst⟩ := ih (carry / 10) (digit carry :: out) (by omega)
      refine ⟨ds ++ [digit carry], ?_, ?_, Or.inr ?_⟩
      · rw [hput, append_assoc, singleton_append]
      · rw [number_append, number_singleton, hvalue, digit_val, length_singleton, Nat.pow_one]
        omega
      · rcases hfirst with rfl | ⟨d, rest, rfl, hne⟩
        · have hsmall : carry / 10 = 0 := hvalue.symm.trans number_nil
          exact ⟨digit carry, [], rfl, digit_ne_zero hzero (by omega)⟩
        · exact ⟨d, rest ++ [digit carry], rfl, hne⟩

/-- **`double_by`** keeps the first digits of the product. -/
theorem doubleBy_spec (hv : v.Normal) (hk : k ≤ SHIFT_LIMIT) (dropped : Bool) :
    ∃ w lost, v.doubleBy k dropped = (w, dropped || lost) ∧
      Truncates (v.value * 2 ^ k) w lost := by
  obtain ⟨hlen, -, hvalue⟩ := doubleDigits_spec hk v.d
  set low := (doubleDigits k v.d).1 with hlow
  set carry := (doubleDigits k v.d).2 with hcarry
  obtain ⟨ds, hput, hds, hfirst⟩ := putCarry_spec carry low le_rfl
  have hnumber : number (ds ++ low) = number v.d * 2 ^ k := by
    rw [number_append, hds, hlen, hvalue]
  have hdouble : v.doubleBy k dropped =
      (trim ⟨(ds ++ low).take EXACT_DIGITS, v.point + ((ds ++ low).length - v.d.length)⟩,
        dropped || ((ds ++ low).drop EXACT_DIGITS).any (· ≠ 0)) := by
    rw [← hput]
    rfl
  have hhead : ∃ d rest, ds ++ low = d :: rest ∧ d ≠ 0 := by
    rcases hfirst with rfl | ⟨d, rest, rfl, hne⟩
    · have hfull : 10 ^ v.d.length ≤ number v.d * 10 := by
        obtain ⟨d, rest, hd, hne⟩ := hv.first
        have hd1 : 1 ≤ d.val := one_le_iff_ne_zero.mpr fun hzero => hne (Fin.ext hzero)
        rw [hd, number_cons, length_cons, Nat.pow_succ]
        exact Nat.mul_le_mul_right 10 (le_add_right_of_le (Nat.le_mul_of_pos_left _ hd1))
      rw [nil_append] at hnumber ⊢
      refine first_ne_zero ?_ ?_
      · rw [hlen, hnumber]
        calc 10 ^ v.d.length ≤ number v.d * 10 := hfull
          _ ≤ number v.d * 2 ^ k * 10 :=
              Nat.mul_le_mul_right 10 (Nat.le_mul_of_pos_right _ (Nat.two_pow_pos k))
      · intro hnil
        rw [hnil, length_nil] at hlen
        exact hv.ne_nil (length_eq_zero_iff.mp hlen.symm)
    · exact ⟨d, rest ++ low, rfl, hne⟩
  refine ⟨_, _, hdouble, ?_⟩
  have hsame : v.value * 2 ^ k = value ⟨ds ++ low, v.point + ((ds ++ low).length - v.d.length)⟩ := by
    have hpoint : v.point + (((ds ++ low).length : ℤ) - v.d.length) - (ds ++ low).length =
        v.point - v.d.length := by ring
    rw [value, value]
    show _ = (number (ds ++ low) : ℚ) * 10 ^ _
    rw [hnumber, hpoint]
    push_cast
    ring
  rw [hsame]
  exact truncates_take hhead

-- ── Halving ────

theorem shiftRight_eq_zero {r : ℕ} : r >>> k = 0 ↔ r < 2 ^ k := by
  rw [shiftRight_eq_div_pow, Nat.div_eq_zero_iff]
  exact or_iff_right (Nat.two_pow_pos k).ne'

theorem quotient_lt {r : ℕ} (h : r < 10 * 2 ^ k) : r >>> k < 10 := by
  rw [shiftRight_eq_div_pow]
  exact Nat.div_lt_of_lt_mul (by rw [Nat.mul_comm]; exact h)

theorem and_low (r : ℕ) : r &&& (1 <<< k - 1) = r % 2 ^ k := by
  rw [one_shiftLeft, and_two_pow_sub_one_eq_mod]

theorem quotient_add (r : ℕ) : r >>> k * 2 ^ k + r % 2 ^ k = r := by
  rw [shiftRight_eq_div_pow, Nat.mul_comm]
  exact div_add_mod r (2 ^ k)

theorem next_lt (r d : ℕ) (hd : d < 10) : r % 2 ^ k * 10 + d < 10 * 2 ^ k := by
  omega

/-- The digits that are read, and the zeros behind the last one, up to the first digit of the
    quotient. -/
structure Reads (k r : ℕ) (rest : List Digit) (read r' : ℕ) (rest' : List Digit) (read' z : ℕ) :
    Prop where
  zeros : rest' ≠ [] → z = 0
  large : 2 ^ k ≤ r'
  small : r' < 10 * 2 ^ k
  value : r' * 10 ^ rest'.length + number rest' = (r * 10 ^ rest.length + number rest) * 10 ^ z
  count : read' + rest'.length = read + rest.length + z

/-- Behind the last digit, zeros bring the dividend to the divisor. -/
theorem firstQuotient_nil (hk : k ≤ SHIFT_LIMIT) {j : ℕ} : ∀ (turns r read : ℕ),
    0 < r → r < 10 * 2 ^ k → 2 ^ k ≤ r * 2 ^ j → j < turns →
    ∃ r' read' z, firstQuotient k turns r [] read = some (r', [], read') ∧
      Reads k r [] read r' [] read' z := by
  have hlimit := two_pow_le_limit hk
  induction j with
  | zero =>
    intro turns r read _ hsmall hlarge hturns
    obtain ⟨turns, rfl⟩ := Nat.exists_eq_add_of_lt hturns
    rw [Nat.pow_zero, Nat.mul_one] at hlarge
    rw [Nat.zero_add, firstQuotient, if_neg (fun h => absurd (shiftRight_eq_zero.mp h) (by omega))]
    exact ⟨r, read, 0, rfl, fun h => absurd rfl h, hlarge, hsmall, (Nat.mul_one _).symm, rfl⟩
  | succ j ih =>
    intro turns r read hpos hsmall hlarge hturns
    obtain ⟨turns, rfl⟩ := Nat.exists_eq_add_of_lt hturns
    rw [firstQuotient]
    by_cases hq : r >>> k = 0
    · have hr := shiftRight_eq_zero.mp hq
      rw [if_pos hq, word_of_lt (by omega)]
      obtain ⟨r', read', z, hfirst, h⟩ := ih (j + 1 + turns) (r * 10) (read + 1)
        (by omega) (by omega) (by rw [Nat.pow_succ] at hlarge; nlinarith)
        (by omega)
      refine ⟨r', read', z + 1, hfirst, fun h => absurd rfl h, h.large, h.small, ?_, ?_⟩
      · rw [h.value, length_nil, number_nil]
        ring
      · rw [h.count]
        ring
    · rw [if_neg hq]
      refine ⟨r, read, 0, rfl, fun h => absurd rfl h, ?_, hsmall, (Nat.mul_one _).symm, rfl⟩
      exact Nat.le_of_not_lt fun h => hq (shiftRight_eq_zero.mpr h)

/-- **The loop of `halve_by` up to the first digit** of the quotient. -/
theorem firstQuotient_spec (hk : k ≤ SHIFT_LIMIT) {rest : List Digit} : ∀ (turns r read : ℕ),
    r < 10 * 2 ^ k → 0 < r * 10 ^ rest.length + number rest → rest.length + k + 1 ≤ turns →
    ∃ r' rest' read' z, firstQuotient k turns r rest read = some (r', rest', read') ∧
      Reads k r rest read r' rest' read' z := by
  have hlimit := two_pow_le_limit hk
  induction rest with
  | nil =>
    intro turns r read hsmall hpos hturns
    rw [number_nil, length_nil, Nat.pow_zero, Nat.mul_one, Nat.add_zero] at hpos
    obtain ⟨r', read', z, hfirst, h⟩ := firstQuotient_nil hk (j := k) turns r read hpos hsmall
      (Nat.le_mul_of_pos_left _ hpos) (by rw [length_nil] at hturns; omega)
    exact ⟨r', [], read', z, hfirst, h⟩
  | cons d rest ih =>
    intro turns r read hsmall hpos hturns
    rw [length_cons] at hturns
    obtain ⟨turns, rfl⟩ : ∃ t, turns = t + 1 := ⟨turns - 1, by omega⟩
    rw [firstQuotient]
    by_cases hq : r >>> k = 0
    · have hr := shiftRight_eq_zero.mp hq
      have hd := d.isLt
      have hsame : (r * 10 + d.val) * 10 ^ rest.length + number rest =
          r * 10 ^ (d :: rest).length + number (d :: rest) := by
        rw [number_cons, length_cons]
        ring
      rw [if_pos hq, word_of_lt (by omega)]
      obtain ⟨r', rest', read', z, hfirst, h⟩ := ih turns (r * 10 + d.val) (read + 1)
        (by omega) (hsame.symm ▸ hpos) (by omega)
      refine ⟨r', rest', read', z, hfirst, h.zeros, h.large, h.small, ?_, ?_⟩
      · rw [h.value, hsame]
      · rw [h.count, length_cons]
        ring
    · rw [if_neg hq]
      refine ⟨r, d :: rest, read, 0, rfl, fun _ => rfl, ?_, hsmall, (Nat.mul_one _).symm, rfl⟩
      exact Nat.le_of_not_lt fun h => hq (shiftRight_eq_zero.mpr h)

/-- **The loop of `halve_by` over the digits** divides. -/
theorem halveDigits_spec (hk : k ≤ SHIFT_LIMIT) (rest : List Digit) : ∀ {r : ℕ}, r < 10 * 2 ^ k →
    (halveDigits k r rest).1.length = rest.length ∧ (halveDigits k r rest).2 < 10 * 2 ^ k ∧
      number (halveDigits k r rest).1 * 2 ^ k * 10 + (halveDigits k r rest).2 =
        r * 10 ^ rest.length + number rest ∧
      (rest ≠ [] → ∃ more, (halveDigits k r rest).1 = digit (r >>> k) :: more) := by
  have hlimit := two_pow_le_limit hk
  induction rest with
  | nil =>
    intro r hr
    refine ⟨rfl, hr, ?_, fun h => absurd rfl h⟩
    show number [] * 2 ^ k * 10 + r = r * 10 ^ 0 + number []
    rw [number_nil]
    ring
  | cons d rest ih =>
    intro r hr
    have hnext := next_lt (k := k) r d.val d.isLt
    have hword : word ((r &&& (1 <<< k - 1)) * 10 + d.val) = r % 2 ^ k * 10 + d.val := by
      rw [and_low]
      exact word_of_lt (by omega)
    obtain ⟨hlen, hsmall, hvalue, -⟩ := ih hnext
    have hstep : halveDigits k r (d :: rest) =
        (digit (r >>> k) :: (halveDigits k (r % 2 ^ k * 10 + d.val) rest).1,
          (halveDigits k (r % 2 ^ k * 10 + d.val) rest).2) := by
      rw [← hword]
      rfl
    rw [hstep]
    refine ⟨congrArg Nat.succ hlen, hsmall, ?_, fun _ => ⟨_, rfl⟩⟩
    show number (digit (r >>> k) :: _) * 2 ^ k * 10 + _ = _
    rw [number_cons, number_cons, digit_val_of_lt (quotient_lt hr), hlen, length_cons]
    calc (r >>> k * 10 ^ rest.length + number _) * 2 ^ k * 10 + _
        = r >>> k * 2 ^ k * 10 ^ (rest.length + 1) +
            (number (halveDigits k (r % 2 ^ k * 10 + d.val) rest).1 * 2 ^ k * 10 +
              (halveDigits k (r % 2 ^ k * 10 + d.val) rest).2) := by ring
      _ = (r >>> k * 2 ^ k + r % 2 ^ k) * 10 ^ (rest.length + 1) +
            (d.val * 10 ^ rest.length + number rest) := by
          rw [hvalue]
          ring
      _ = r * 10 ^ (rest.length + 1) + (d.val * 10 ^ rest.length + number rest) := by
          rw [quotient_add]

/-- The loop of `halve_by` behind the last digit writes the first digits of the rest of the
    quotient, of which `full` are all. -/
structure Writes (k turns r write : ℕ) (dropped : Bool) (full : List Digit) : Prop where
  result : halveRest k turns r write dropped = some (full.take (EXACT_DIGITS - write),
      dropped || (full.drop (EXACT_DIGITS - write)).any (· ≠ 0))
  value : number full * 2 ^ k * 10 = r * 10 ^ full.length
  first : r ≠ 0 → ∃ more, full = digit (r >>> k) :: more

theorem writes_zero {turns write : ℕ} {dropped : Bool} (hturns : 1 ≤ turns) :
    Writes k turns 0 write dropped [] := by
  obtain ⟨turns, rfl⟩ := Nat.exists_eq_add_of_le' hturns
  refine ⟨?_, ?_, fun h => absurd rfl h⟩
  · rw [halveRest, if_pos rfl, take_nil, drop_nil, any_nil, Bool.or_false]
  · rw [number_nil, Nat.zero_mul, Nat.zero_mul, Nat.zero_mul]

theorem writes_turn (hk : k ≤ SHIFT_LIMIT) {turns r write : ℕ} {dropped : Bool} (hr : r ≠ 0)
    (hsmall : r < 10 * 2 ^ k) (hwrite : write ≤ EXACT_DIGITS)
    (hnext : ∀ write dropped, write ≤ EXACT_DIGITS →
      ∃ full, Writes k turns (r % 2 ^ k * 10) write dropped full) :
    ∃ full, Writes k (turns + 1) r write dropped full := by
  have hlimit := two_pow_le_limit hk
  have hlow := mod_lt r (Nat.two_pow_pos k)
  have hword : word ((r &&& (1 <<< k - 1)) * 10) = r % 2 ^ k * 10 := by
    rw [and_low]
    exact word_of_lt (by omega)
  have hvalue : ∀ full : List Digit, number full * 2 ^ k * 10 = r % 2 ^ k * 10 * 10 ^ full.length →
      number (digit (r >>> k) :: full) * 2 ^ k * 10 = r * 10 ^ (full.length + 1) := by
    intro full hfull
    rw [number_cons, digit_val_of_lt (quotient_lt hsmall)]
    calc (r >>> k * 10 ^ full.length + number full) * 2 ^ k * 10
        = r >>> k * 2 ^ k * 10 ^ (full.length + 1) + number full * 2 ^ k * 10 := by ring
      _ = (r >>> k * 2 ^ k + r % 2 ^ k) * 10 ^ (full.length + 1) := by
          rw [hfull]
          ring
      _ = r * 10 ^ (full.length + 1) := by rw [quotient_add]
  by_cases hroom : write < EXACT_DIGITS
  · obtain ⟨full, hrest, hfull, -⟩ := hnext (write + 1) dropped hroom
    obtain ⟨left, hleft⟩ : ∃ left, EXACT_DIGITS - write = left + 1 :=
      ⟨EXACT_DIGITS - write - 1, by omega⟩
    have hleft' : EXACT_DIGITS - (write + 1) = left := by omega
    refine ⟨digit (r >>> k) :: full, ?_, hvalue full hfull, fun _ => ⟨full, rfl⟩⟩
    rw [halveRest, if_neg hr, hword, if_pos hroom, hrest, hleft, hleft']
    rfl
  · obtain ⟨full, hrest, hfull, -⟩ := hnext write (dropped || r >>> k ≠ 0) hwrite
    have hnone : EXACT_DIGITS - write = 0 := by omega
    have hdigit : decide (digit (r >>> k) ≠ 0) = decide (r >>> k ≠ 0) := by
      rw [decide_eq_decide]
      constructor
      · intro hd hq
        rw [hq] at hd
        exact hd rfl
      · intro hq
        exact digit_ne_zero hq (quotient_lt hsmall)
    refine ⟨digit (r >>> k) :: full, ?_, hvalue full hfull, fun _ => ⟨full, rfl⟩⟩
    rw [halveRest, if_neg hr, hword, if_neg hroom, hrest, hnone, take_zero, take_zero,
      drop_zero, drop_zero, any_cons, hdigit, Bool.or_assoc]

/-- **The loop of `halve_by` behind the last digit** ends, since each turn takes a factor 2
    out of the rest of the dividend. -/
theorem exists_writes (hk : k ≤ SHIFT_LIMIT) {j : ℕ} : ∀ (turns r write : ℕ) (dropped : Bool),
    r < 10 * 2 ^ k → 2 ^ k ∣ r * 2 ^ j → j + 2 ≤ turns → write ≤ EXACT_DIGITS →
    ∃ full, Writes k turns r write dropped full := by
  induction j with
  | zero =>
    intro turns r write dropped hsmall hdvd hturns hwrite
    obtain ⟨turns, rfl⟩ : ∃ t, turns = t + 1 := ⟨turns - 1, by omega⟩
    rw [Nat.pow_zero, Nat.mul_one] at hdvd
    by_cases hr : r = 0
    · subst hr
      exact ⟨[], writes_zero (by omega)⟩
    · refine writes_turn hk hr hsmall hwrite ?_
      intro write dropped _
      rw [mod_eq_zero_of_dvd hdvd, Nat.zero_mul]
      exact ⟨[], writes_zero (by omega)⟩
  | succ j ih =>
    intro turns r write dropped hsmall hdvd hturns hwrite
    obtain ⟨turns, rfl⟩ : ∃ t, turns = t + 1 := ⟨turns - 1, by omega⟩
    by_cases hr : r = 0
    · subst hr
      exact ⟨[], writes_zero (by omega)⟩
    · refine writes_turn hk hr hsmall hwrite ?_
      intro write dropped hwrite
      have hdvd' : 2 ^ k ∣ r % 2 ^ k * 10 * 2 ^ j := by
        have hrest : 2 ^ k ∣ r % 2 ^ k * 2 ^ (j + 1) := by
          rw [dvd_iff_mod_eq_zero, mul_mod, mod_mod, ← mul_mod]
          exact mod_eq_zero_of_dvd hdvd
        have hfive : r % 2 ^ k * 10 * 2 ^ j = r % 2 ^ k * 2 ^ (j + 1) * 5 := by ring
        rw [hfive]
        exact Dvd.dvd.mul_right hrest 5
      have hsmall' : r % 2 ^ k * 10 < 10 * 2 ^ k := next_lt r 0 (by decide)
      exact ih turns _ write dropped hsmall' hdvd' (by omega) hwrite

/-- **`halve_by`** keeps the first digits of the quotient. -/
theorem halveBy_spec (hv : v.Normal) (hk : k ≤ SHIFT_LIMIT) (dropped : Bool) :
    ∃ w lost, v.halveBy k dropped = some (w, dropped || lost) ∧
      Truncates (v.value / 2 ^ k) w lost := by
  obtain ⟨d, ds, hd, hne⟩ := hv.first
  have hpos : 0 < 0 * 10 ^ v.d.length + number v.d := by
    have hd1 : 1 ≤ d.val := one_le_iff_ne_zero.mpr fun hzero => hne (Fin.ext hzero)
    rw [hd, number_cons, Nat.zero_mul, Nat.zero_add]
    exact Nat.add_pos_left (Nat.mul_pos hd1 (Nat.pow_pos (by decide))) _
  obtain ⟨r, rest, read, z, hfirst, hreads⟩ :=
    firstQuotient_spec hk (v.d.length + k + 1) 0 0 (by positivity) hpos le_rfl
  obtain ⟨hlen, hsmall, hvalue, hhead⟩ := halveDigits_spec hk rest hreads.small
  set out := (halveDigits k r rest).1 with hout
  set r' := (halveDigits k r rest).2 with hr'
  have hcount := hreads.count
  have hroom : out.length ≤ EXACT_DIGITS := by
    have hshort := hv.short
    rw [hlen]
    by_cases hnil : rest = []
    · rw [hnil]
      exact Nat.zero_le _
    · have hz := hreads.zeros hnil
      omega
  obtain ⟨full, hwrites⟩ := exists_writes hk (k + 2) r' out.length dropped hsmall
    (Dvd.intro_left r' rfl) le_rfl hroom
  have hhalve : v.halveBy k dropped =
      some (trim ⟨(out ++ full).take EXACT_DIGITS, v.point - (read - 1)⟩,
        dropped || ((out ++ full).drop EXACT_DIGITS).any (· ≠ 0)) := by
    have htake : (out ++ full).take EXACT_DIGITS = out ++ full.take (EXACT_DIGITS - out.length) := by
      rw [take_append, take_of_length_le hroom]
    have hdrop : (out ++ full).drop EXACT_DIGITS = full.drop (EXACT_DIGITS - out.length) := by
      rw [drop_append, drop_of_length_le hroom, nil_append]
    rw [halveBy, if_neg hv.ne_nil, hfirst, htake, hdrop]
    show Option.bind (halveRest k (k + 2) r' out.length dropped) _ = _
    rw [hwrites.result]
    rfl
  refine ⟨_, _, hhalve, ?_⟩
  have hquotient : r >>> k ≠ 0 := fun h => absurd (shiftRight_eq_zero.mp h) hreads.large.not_gt
  have hstart : ∃ d rest, out ++ full = d :: rest ∧ d ≠ 0 := by
    have hdigit := digit_ne_zero hquotient (quotient_lt hreads.small)
    by_cases hnil : rest = []
    · subst hnil
      have hr0 : r ≠ 0 := by
        have hlarge := hreads.large
        omega
      obtain ⟨more, hmore⟩ := hwrites.first hr0
      exact ⟨_, more, hmore, hdigit⟩
    · obtain ⟨more, hmore⟩ := hhead hnil
      exact ⟨_, more ++ full, by rw [hmore, cons_append], hdigit⟩
  have hsame : v.value / 2 ^ k = value ⟨out ++ full, v.point - (read - 1)⟩ := by
    have hnumber : number (out ++ full) * 2 ^ k * 10 = number v.d * 10 ^ (z + full.length) := by
      calc number (out ++ full) * 2 ^ k * 10
          = number out * 2 ^ k * 10 * 10 ^ full.length + number full * 2 ^ k * 10 := by
            rw [number_append]
            ring
        _ = (number out * 2 ^ k * 10 + r') * 10 ^ full.length := by
            rw [hwrites.value]
            ring
        _ = number v.d * 10 ^ (z + full.length) := by
            rw [hvalue, hreads.value]
            ring
    have hcast : (number (out ++ full) : ℚ) * 2 ^ k * 10 = number v.d * 10 ^ (z + full.length) := by
      exact_mod_cast hnumber
    have hpoint : v.point - ((read : ℤ) - 1) - (out ++ full).length =
        v.point - v.d.length - (z + full.length : ℕ) + 1 := by
      rw [length_append, hlen]
      push_cast
      omega
    show _ = (number (out ++ full) : ℚ) * 10 ^ (v.point - ((read : ℤ) - 1) - (out ++ full).length)
    have hpower : (10 : ℚ) ^ (v.point - v.d.length - (z + full.length : ℕ) + 1) =
        10 ^ (v.point - v.d.length) / 10 ^ (z + full.length) * 10 := by
      rw [zpow_add_one₀ (by norm_num), zpow_sub₀ (by norm_num) (v.point - v.d.length), zpow_natCast]
    rw [hpoint, hpower, div_eq_iff (by positivity)]
    calc (number v.d : ℚ) * 10 ^ (v.point - v.d.length) = number v.d * 10 ^ (z + full.length) *
            (10 ^ (v.point - v.d.length) / 10 ^ (z + full.length)) := by
          rw [mul_assoc, mul_div_cancel₀ _ (by positivity)]
      _ = number (out ++ full) * (10 ^ (v.point - v.d.length) / 10 ^ (z + full.length) * 10) *
            2 ^ k := by
          rw [← hcast]
          ring
  rw [hsame]
  exact truncates_take hstart

end Decimal

end AnticFloat
