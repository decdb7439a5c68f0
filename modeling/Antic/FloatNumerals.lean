import Antic.DecimalShifts

/-! # The texts of floats

    A text of a float is a sign that may stand there, digits with at most one point and at
    least one digit, and an exponent that may stand there, with at least one digit.  The
    reader takes these texts and no others.  It keeps the first digits of one, but of the
    number in the exponent it reads on only while that is below 100000. -/

namespace AnticFloat

open Decimal List

inductive Sign where
  | none
  | plus
  | minus
  deriving DecidableEq

def Sign.bytes : Sign → List UInt8
  | .none => []
  | .plus => [43]
  | .minus => [45]

/-- An exponent as it is written. -/
structure Exponent where
  capital : Bool
  sign : Sign
  digits : List Digit
  some_digit : digits ≠ []

def Exponent.bytes (e : Exponent) : List UInt8 :=
  (if e.capital then 69 else 101) :: (e.sign.bytes ++ e.digits.map digitByte)

/-- A number as it is written: a point stands where there are `places`. -/
structure Numeral where
  sign : Sign
  whole : List Digit
  places : Option (List Digit)
  exponent : Option Exponent
  some_digit : whole ≠ [] ∨ places.getD [] ≠ []

namespace Numeral

/-- The text behind the sign. -/
def body (t : Numeral) : List UInt8 :=
  t.whole.map digitByte ++ ((match t.places with
      | none => []
      | some ds => 46 :: ds.map digitByte) ++
    (match t.exponent with
      | none => []
      | some e => e.bytes))

def bytes (t : Numeral) : List UInt8 := t.sign.bytes ++ t.body

/-- All digits of the number, without the point. -/
def digits (t : Numeral) : List Digit := t.whole ++ t.places.getD []

/-- The number in the exponent. -/
def scale (t : Numeral) : ℕ :=
  match t.exponent with
  | none => 0
  | some e => number e.digits

/-- Whether the exponent is a negative one. -/
def shrinks (t : Numeral) : Bool :=
  match t.exponent with
  | none => false
  | some e => e.sign = .minus

/-- The value of the number without its sign, with some number in its exponent. -/
def valueAt (t : Numeral) (scale : ℕ) : ℚ :=
  number t.digits *
    10 ^ ((if t.shrinks then -(scale : ℤ) else scale) - ((t.places.getD []).length : ℤ))

/-- The exact value of the number, without its sign. -/
def value (t : Numeral) : ℚ := t.valueAt t.scale

end Numeral

/-- A number without the digits that make it longer than six. -/
def cut (n : ℕ) : ℕ := if n < 1000000 then n else cut (n / 10)

-- ── Bytes and digits ────

theorem isDigit_digitByte (d : Digit) : isDigit (digitByte d) = true := by
  revert d
  decide

theorem digitByte_val (d : Digit) : (digitByte d).toNat - 48 = d.val := by
  revert d
  decide

theorem digitByte_eq_zero {d : Digit} : digitByte d = 48 ↔ d = 0 := by
  revert d
  decide

theorem digitByte_ne_point (d : Digit) : digitByte d ≠ 46 := by
  revert d
  decide

theorem digit_digitByte (d : Digit) : digit ((digitByte d).toNat - 48) = d := by
  rw [digitByte_val]
  exact Fin.ext (digit_val_of_lt d.isLt)

theorem exists_digitByte {c : UInt8} (h : isDigit c = true) : ∃ d, c = digitByte d := by
  obtain ⟨h1, h2⟩ := Bool.and_eq_true_iff.mp h
  have h1' : 48 ≤ c.toNat := UInt8.le_iff_toNat_le.mp (of_decide_eq_true h1)
  have h2' : c.toNat ≤ 57 := UInt8.le_iff_toNat_le.mp (of_decide_eq_true h2)
  refine ⟨⟨c.toNat - 48, by omega⟩, ?_⟩
  rw [digitByte, ← UInt8.toNat_inj, UInt8.toNat_ofNat']
  show c.toNat = (48 + (c.toNat - 48)) % 2 ^ 8
  omega

/-- What stands behind the digits at the front of a text. -/
def Ends (rest : List UInt8) : Prop := ∀ c more, rest = c :: more → isDigit c = false

theorem exists_digits (bytes : List UInt8) :
    ∃ (ds : List Digit) (rest : List UInt8), bytes = ds.map digitByte ++ rest ∧ Ends rest := by
  induction bytes with
  | nil => exact ⟨[], [], rfl, fun c more h => nomatch h⟩
  | cons c bytes ih =>
    by_cases hc : isDigit c = true
    · obtain ⟨d, rfl⟩ := exists_digitByte hc
      obtain ⟨ds, rest, rfl, hends⟩ := ih
      exact ⟨d :: ds, rest, rfl, hends⟩
    · refine ⟨[], c :: bytes, rfl, ?_⟩
      rintro c' more h
      rw [← (cons.inj h).1]
      exact Bool.eq_false_iff.mpr hc

-- ── The digits ────

/-- The turn of the loop of `read_decimal` at a digit. -/
def Scan.digit (s : Scan) (d : Digit) : Scan := s.take (digitByte d)

theorem readDigits_append (ds : List Digit) (rest : List UInt8) (s : Scan) :
    readDigits (ds.map digitByte ++ rest) s = readDigits rest (ds.foldl Scan.digit s) := by
  induction ds generalizing s with
  | nil => rfl
  | cons d ds ih =>
    have hpoint : ¬ (digitByte d = 46 ∧ s.afterPoint = false) := fun h => digitByte_ne_point d h.1
    rw [map_cons, cons_append, readDigits, if_neg hpoint, if_pos (isDigit_digitByte d), ih]
    rfl

theorem readDigits_end {rest : List UInt8} (s : Scan) (hends : Ends rest)
    (hpoint : s.afterPoint = true ∨ ∀ more, rest ≠ 46 :: more) : readDigits rest s = (rest, s) := by
  cases rest with
  | nil => rfl
  | cons c rest =>
    have hc : ¬ (c = 46 ∧ s.afterPoint = false) := by
      rintro ⟨rfl, hafter⟩
      rcases hpoint with hpoint | hpoint
      · rw [hafter] at hpoint
        cases hpoint
      · exact hpoint rest rfl
    have hdigit : ¬ isDigit c = true := by
      rw [hends c rest rfl]
      exact Bool.false_ne_true
    rw [readDigits, if_neg hc, if_neg hdigit]

/-- Digits without the zeros at the front. -/
def significant (ds : List Digit) : List Digit := ds.dropWhile (· = 0)

theorem significant_concat (ds : List Digit) (d : Digit) : significant (ds ++ [d]) =
      if significant ds = [] ∧ d = 0 then [] else significant ds ++ [d] := by
  rw [significant, dropWhile_append]
  show (if (significant ds).isEmpty = true then List.dropWhile (· = 0) [d]
    else significant ds ++ [d]) = _
  by_cases hnil : significant ds = []
  · rw [if_pos (List.isEmpty_iff.mpr hnil), hnil]
    by_cases hd : d = 0
    · rw [if_pos ⟨rfl, hd⟩, hd]
      rfl
    · rw [if_neg (fun h => hd h.2), dropWhile_cons, if_neg]
      · rfl
      · exact fun h => hd (of_decide_eq_true h)
  · rw [if_neg (fun h => hnil (List.isEmpty_iff.mp h)), if_neg (fun h => hnil h.1)]

theorem number_significant (ds : List Digit) : number (significant ds) = number ds := by
  induction ds with
  | nil => rfl
  | cons d ds ih =>
    rw [significant, dropWhile_cons]
    by_cases hd : d = 0
    · rw [if_pos (decide_eq_true hd), number_cons, hd]
      show number (significant ds) = 0 * 10 ^ ds.length + number ds
      rw [ih]
      ring
    · rw [if_neg (fun h => hd (of_decide_eq_true h))]

/-- What `read_decimal` knows behind some digits, `w` of them before the point. -/
structure ScanOf (s : Scan) (read : List Digit) (w : ℤ) : Prop where
  digits : s.digits = decide (read ≠ [])
  kept : s.v.d = (significant read).take EXACT_DIGITS
  dropped : s.dropped = ((significant read).drop EXACT_DIGITS).any (· ≠ 0)
  point : s.v.point = w - (read.length - (significant read).length)

theorem scanOf_start : ScanOf ⟨false, false, ⟨[], 0⟩, false⟩ [] 0 := ⟨rfl, rfl, rfl, rfl⟩

/-- **A digit** that is read. -/
theorem ScanOf.digit {s : Scan} {read : List Digit} {w : ℤ} (h : ScanOf s read w) (d : Digit) :
    ScanOf (s.digit d) (read ++ [d]) (w + if s.afterPoint then 0 else 1) ∧
      (s.digit d).afterPoint = s.afterPoint := by
  have hread : decide (read ++ [d] ≠ []) = true :=
    decide_eq_true (append_ne_nil_of_right_ne_nil _ (cons_ne_nil d []))
  have hempty : s.v.d = [] ↔ significant read = [] := by
    rw [h.kept, take_eq_nil_iff]
    exact or_iff_right (by decide)
  have hcond : (digitByte d = 48 ∧ s.v.d = []) ↔ (significant read = [] ∧ d = 0) := by
    rw [digitByte_eq_zero, hempty, and_comm]
  rw [Scan.digit, Scan.take]
  by_cases hzero : significant read = [] ∧ d = 0
  · rw [if_pos (hcond.mpr hzero)]
    have hsig : significant (read ++ [d]) = [] := by rw [significant_concat, if_pos hzero]
    refine ⟨⟨hread.symm, ?_, ?_, ?_⟩, rfl⟩
    · rw [hsig]
      exact hempty.mpr hzero.1
    · rw [hsig]
      show s.dropped = _
      rw [h.dropped, hzero.1]
    · show s.v.point - (if s.afterPoint then 1 else 0) = _
      rw [h.point, hsig, hzero.1, length_append, length_singleton]
      by_cases ha : s.afterPoint = true
      · rw [if_pos ha, if_pos ha]
        push_cast
        ring
      · rw [if_neg ha, if_neg ha]
        push_cast
        ring
  · rw [if_neg (fun h' => hzero (hcond.mp h'))]
    have hsig : significant (read ++ [d]) = significant read ++ [d] := by
      rw [significant_concat, if_neg hzero]
    have hpoint : s.v.point + (if s.afterPoint then 0 else 1) =
        w + (if s.afterPoint then 0 else 1) -
          ((read ++ [d]).length - (significant (read ++ [d])).length) := by
      rw [h.point, hsig, length_append, length_append, length_singleton]
      push_cast
      ring
    have hlen : s.v.d.length = min EXACT_DIGITS (significant read).length := by
      rw [h.kept, length_take]
    by_cases hroom : s.v.d.length < EXACT_DIGITS
    · have hshort : (significant read).length < EXACT_DIGITS := by omega
      have hkept : s.v.d = significant read := by rw [h.kept, take_of_length_le hshort.le]
      rw [if_pos hroom]
      refine ⟨⟨hread.symm, ?_, ?_, hpoint⟩, rfl⟩
      · show s.v.d ++ [AnticFloat.digit _] = _
        rw [digit_digitByte, hsig, hkept, take_of_length_le]
        rw [length_append]
        exact hshort
      · show s.dropped = _
        rw [h.dropped, hsig, drop_of_length_le hshort.le, drop_of_length_le]
        rw [length_append]
        exact hshort
    · have hlong : EXACT_DIGITS ≤ (significant read).length := by omega
      rw [if_neg hroom]
      refine ⟨⟨hread.symm, ?_, ?_, hpoint⟩, rfl⟩
      · show s.v.d = _
        rw [h.kept, hsig, take_append_of_le_length hlong]
      · show (s.dropped || decide (digitByte d ≠ 48)) = _
        rw [h.dropped, hsig, drop_append_of_le_length hlong, any_append]
        congr 1
        have hne : decide (digitByte d ≠ 48) = decide (d ≠ 0) := by
          rw [decide_eq_decide]
          exact not_congr digitByte_eq_zero
        rw [hne, any_cons, any_nil, Bool.or_false]

/-- **The digits** that are read. -/
theorem ScanOf.foldl {s : Scan} {read : List Digit} {w : ℤ} (h : ScanOf s read w) (ds : List Digit) :
    ScanOf (ds.foldl Scan.digit s) (read ++ ds) (w + if s.afterPoint then 0 else (ds.length : ℤ)) ∧
      (ds.foldl Scan.digit s).afterPoint = s.afterPoint := by
  induction ds generalizing s read w with
  | nil =>
    rw [foldl_nil, append_nil, length_nil, Nat.cast_zero, ite_self, add_zero]
    exact ⟨h, rfl⟩
  | cons d ds ih =>
    obtain ⟨hd, hafter⟩ := h.digit d
    obtain ⟨hds, hafter'⟩ := ih hd
    rw [append_assoc, singleton_append, hafter] at hds
    refine ⟨?_, hafter'.trans hafter⟩
    rw [foldl_cons, length_cons]
    by_cases ha : s.afterPoint = true
    · rw [if_pos ha, if_pos ha] at hds
      rw [if_pos ha]
      simpa only [add_zero] using hds
    · rw [if_neg ha, if_neg ha] at hds
      rw [if_neg ha]
      have hsum : w + ((ds.length + 1 : ℕ) : ℤ) = w + 1 + ds.length := by
        push_cast
        ring
      rw [hsum]
      exact hds

-- ── The exponent ────

/-- The turn of the loop of `read_decimal` at a digit of the exponent. -/
def scaleDigit (n : ℕ) (d : Digit) : ℕ := if n < 100000 then n * 10 + d.val else n

theorem readScale_append (ds : List Digit) (rest : List UInt8) (any : Bool) (n : ℕ) :
    readScale (ds.map digitByte ++ rest) any n =
      readScale rest (any || decide (ds ≠ [])) (ds.foldl scaleDigit n) := by
  induction ds generalizing any n with
  | nil =>
    have hnil : decide (([] : List Digit) ≠ []) = false := rfl
    rw [hnil, Bool.or_false]
    rfl
  | cons d ds ih =>
    have hcons : decide (d :: ds ≠ []) = true := decide_eq_true (cons_ne_nil d ds)
    rw [map_cons, cons_append, readScale, if_pos (isDigit_digitByte d), ih,
      digitByte_val, hcons, Bool.true_or, Bool.or_true]
    rfl

theorem readScale_end {rest : List UInt8} (hends : Ends rest) (any : Bool) (n : ℕ) :
    readScale rest any n = (rest, any, n) := by
  cases rest with
  | nil => rfl
  | cons c rest =>
    rw [readScale, if_neg]
    rw [hends c rest rfl]
    exact Bool.false_ne_true

theorem cut_of_lt {n : ℕ} (h : n < 1000000) : cut n = n := by rw [cut, if_pos h]

theorem cut_of_ge {n : ℕ} (h : 1000000 ≤ n) : cut n = cut (n / 10) := by
  rw [cut, if_neg (Nat.not_lt.mpr h)]

theorem cut_bounds {n : ℕ} (h : 100000 ≤ n) : 100000 ≤ cut n ∧ cut n < 1000000 := by
  induction n using Nat.strongRecOn with
  | ind n ih =>
    rcases Nat.lt_or_ge n 1000000 with hlt | hge
    · rw [cut_of_lt hlt]
      exact ⟨h, hlt⟩
    · rw [cut_of_ge hge]
      exact ih (n / 10) (by omega) (by omega)

/-- The cut takes at least nine tenths of a number that is too long. -/
theorem cut_le {n : ℕ} (h : 1000000 ≤ n) : cut n + 1 ≤ n := by
  have hbound := (cut_bounds (Nat.le_trans (by decide) h)).2
  omega

theorem scaleDigit_cut (n : ℕ) (d : Digit) : scaleDigit (cut n) d = cut (n * 10 + d.val) := by
  rcases Nat.lt_or_ge n 100000 with hlt | hge
  · rw [cut_of_lt (by omega), scaleDigit, if_pos hlt, cut_of_lt (by omega)]
  · have hten : (n * 10 + d.val) / 10 = n := by omega
    rw [scaleDigit, if_neg (Nat.not_lt.mpr (cut_bounds hge).1), cut_of_ge (n := n * 10 + d.val)
      (by omega), hten]

/-- **The exponent is cut** after six digits. -/
theorem foldl_scaleDigit (ds : List Digit) (n : ℕ) :
    ds.foldl scaleDigit (cut n) = cut (n * 10 ^ ds.length + number ds) := by
  induction ds generalizing n with
  | nil => rw [foldl_nil, number_nil, length_nil, Nat.pow_zero, Nat.mul_one, Nat.add_zero]
  | cons d ds ih =>
    rw [foldl_cons, scaleDigit_cut, ih, number_cons, length_cons]
    congr 1
    ring

theorem readSign_bytes (sign : Sign) {ds : List Digit} (hds : ds ≠ []) (rest : List UInt8) :
    readSign (sign.bytes ++ (ds.map digitByte ++ rest)) =
      (decide (sign = .minus), ds.map digitByte ++ rest) := by
  cases sign with
  | plus => rfl
  | minus => rfl
  | none =>
    cases ds with
    | nil => exact absurd rfl hds
    | cons d ds =>
      have hother : ∀ d : Digit, digitByte d ≠ 43 ∧ digitByte d ≠ 45 := by decide
      obtain ⟨hplus, hminus⟩ := hother d
      show readSign (digitByte d :: (ds.map digitByte ++ rest)) = _
      rw [readSign, if_neg hplus, if_neg hminus]
      rfl

theorem exists_sign (bytes : List UInt8) :
    ∃ (sign : Sign) (rest : List UInt8), readSign bytes = (decide (sign = .minus), rest) ∧
      bytes = sign.bytes ++ rest := by
  cases bytes with
  | nil => exact ⟨.none, [], rfl, rfl⟩
  | cons c rest =>
    rw [readSign]
    by_cases hplus : c = 43
    · rw [if_pos hplus, hplus]
      exact ⟨.plus, rest, rfl, rfl⟩
    · rw [if_neg hplus]
      by_cases hminus : c = 45
      · rw [if_pos hminus, hminus]
        exact ⟨.minus, rest, rfl, rfl⟩
      · rw [if_neg hminus]
        exact ⟨.none, c :: rest, rfl, rfl⟩

-- ── The whole text ────

namespace Numeral

variable (t : Numeral)

/-- The text of the exponent. -/
def tail : List UInt8 :=
  match t.exponent with
  | none => []
  | some e => e.bytes

theorem tail_ends : Ends t.tail ∧ ∀ more, t.tail ≠ 46 :: more := by
  rw [tail]
  cases t.exponent with
  | none => exact ⟨fun c more h => (nomatch h), fun more h => (nomatch h)⟩
  | some e =>
    constructor
    · intro c more h
      rw [← (cons.inj h).1]
      cases e.capital with
      | false => rfl
      | true => rfl
    · intro more h
      have hc := (cons.inj h).1
      cases hcap : e.capital with
      | false => rw [hcap] at hc; exact absurd hc (by decide)
      | true => rw [hcap] at hc; exact absurd hc (by decide)

theorem digits_ne_nil : t.digits ≠ [] := by
  rcases t.some_digit with h | h
  · exact append_ne_nil_of_left_ne_nil h _
  · exact append_ne_nil_of_right_ne_nil _ h

/-- The digits and the point of a number, and what is behind them. -/
theorem readDigits_body : ∃ s, readDigits t.body ⟨false, false, ⟨[], 0⟩, false⟩ = (t.tail, s) ∧
      ScanOf s t.digits t.whole.length := by
  obtain ⟨hends, hpoint⟩ := t.tail_ends
  obtain ⟨hwhole, hafter⟩ := scanOf_start.foldl t.whole
  rw [nil_append, if_neg Bool.false_ne_true, zero_add] at hwhole
  have hbody : t.body = t.whole.map digitByte ++ ((match t.places with
        | none => []
        | some ds => 46 :: ds.map digitByte) ++ t.tail) := rfl
  rw [hbody, readDigits_append, digits]
  cases hplaces : t.places with
  | none =>
    refine ⟨_, readDigits_end _ hends (Or.inr hpoint), ?_⟩
    rw [Option.getD_none, append_nil]
    exact hwhole
  | some ds =>
    have hread : ∀ s : Scan, s.afterPoint = false →
        readDigits (46 :: ds.map digitByte ++ t.tail) s =
          readDigits t.tail (ds.foldl Scan.digit { s with afterPoint := true }) := by
      intro s hs
      rw [cons_append, readDigits, if_pos ⟨rfl, hs⟩, readDigits_append]
    have hmarked : ScanOf { t.whole.foldl Scan.digit ⟨false, false, ⟨[], 0⟩, false⟩ with
        afterPoint := true } t.whole t.whole.length :=
      ⟨hwhole.digits, hwhole.kept, hwhole.dropped, hwhole.point⟩
    obtain ⟨hds, hafter'⟩ := hmarked.foldl ds
    show ∃ s, readDigits (46 :: ds.map digitByte ++ t.tail) _ = _ ∧ _
    rw [hread _ hafter]
    exact ⟨_, readDigits_end _ hends (Or.inl hafter'), hds⟩

/-- **`read_decimal`** of a number: the first digits of it, and the exponent that is cut. -/
theorem readDecimal_body : readDecimal t.body = some (⟨(significant t.digits).take EXACT_DIGITS,
        t.whole.length - (t.digits.length - (significant t.digits).length) +
          (if t.shrinks then -(cut t.scale : ℤ) else cut t.scale)⟩,
        ((significant t.digits).drop EXACT_DIGITS).any (· ≠ 0)) := by
  obtain ⟨s, hread, hs⟩ := t.readDigits_body
  have hdigits : ¬ s.digits = false := by
    rw [hs.digits, decide_eq_true t.digits_ne_nil]
    exact Bool.noConfusion
  rw [readDecimal, hread]
  show (if s.digits = false then none else _) = _
  rw [if_neg hdigits, ← hs.kept, ← hs.dropped, ← hs.point]
  rw [tail, shrinks, scale]
  cases t.exponent with
  | none =>
    have hzero : (cut 0 : ℤ) = 0 := by rw [cut_of_lt (by decide)]; rfl
    show some (s.v, s.dropped) = some (⟨s.v.d, s.v.point + (cut 0 : ℤ)⟩, s.dropped)
    rw [hzero, add_zero]
  | some e =>
    have hc : (if e.capital then (69 : UInt8) else 101) = 101 ∨
        (if e.capital then (69 : UInt8) else 101) = 69 := by
      cases e.capital with
      | false => exact Or.inl rfl
      | true => exact Or.inr rfl
    have hsign := readSign_bytes e.sign e.some_digit []
    rw [append_nil] at hsign
    have hscale : readScale (e.digits.map digitByte) false 0 = ([], true, cut (number e.digits)) := by
      have happend := readScale_append e.digits [] false 0
      have hzero : cut 0 = 0 := cut_of_lt (by decide)
      have hfold := foldl_scaleDigit e.digits 0
      rw [hzero, Nat.zero_mul, Nat.zero_add] at hfold
      rw [append_nil, decide_eq_true e.some_digit, hfold] at happend
      exact happend
    show (if (if e.capital then (69 : UInt8) else 101) = 101 ∨ _ = 69 then _ else none) = _
    rw [if_pos hc, hsign]
    dsimp only
    rw [hscale]
    rfl

/-- **`read_decimal` takes no other text.** -/
theorem exists_of_readDecimal {bytes : List UInt8} {kept : Kept}
    (h : readDecimal bytes = some kept) (sign : Sign) :
    ∃ t : Numeral, t.sign = sign ∧ t.body = bytes := by
  obtain ⟨whole, r₁, rfl, hends₁⟩ := exists_digits bytes
  -- The digits, the point and what is behind them.
  obtain ⟨places, r₃, hr₁, hends₃, s, hread, hs⟩ : ∃ (places : Option (List Digit))
      (r₃ : List UInt8), r₁ = (match places with
        | none => []
        | some ds => 46 :: ds.map digitByte) ++ r₃ ∧ Ends r₃ ∧
      ∃ s, readDigits (whole.map digitByte ++ r₁) ⟨false, false, ⟨[], 0⟩, false⟩ = (r₃, s) ∧
        s.digits = decide (whole ++ places.getD [] ≠ []) := by
    obtain ⟨hwhole, hafter⟩ := scanOf_start.foldl whole
    by_cases hpoint : ∃ more, r₁ = 46 :: more
    · obtain ⟨r₂, rfl⟩ := hpoint
      obtain ⟨ds, r₃, rfl, hends₃⟩ := exists_digits r₂
      refine ⟨some ds, r₃, rfl, hends₃, ?_⟩
      have hmarked : ScanOf { whole.foldl Scan.digit ⟨false, false, ⟨[], 0⟩, false⟩ with
          afterPoint := true } whole _ :=
        ⟨hwhole.digits, hwhole.kept, hwhole.dropped, hwhole.point⟩
      obtain ⟨hds, hafter'⟩ := hmarked.foldl ds
      rw [readDigits_append, readDigits, if_pos ⟨rfl, hafter⟩, readDigits_append]
      exact ⟨_, readDigits_end _ hends₃ (Or.inl hafter'), hds.digits⟩
    · refine ⟨none, r₁, rfl, hends₁, ?_⟩
      rw [readDigits_append]
      refine ⟨_, readDigits_end _ hends₁ (Or.inr fun more hmore => hpoint ⟨more, hmore⟩), ?_⟩
      rw [Option.getD_none, append_nil]
      exact hwhole.digits
  rw [readDecimal, hread] at h
  dsimp only at h
  by_cases hnone : s.digits = false
  · rw [if_pos hnone] at h
    cases h
  rw [if_neg hnone] at h
  have hsome : whole ≠ [] ∨ places.getD [] ≠ [] := by
    rw [hs] at hnone
    by_contra hboth
    rw [not_or, not_not, not_not] at hboth
    rw [hboth.1, hboth.2] at hnone
    exact hnone rfl
  subst hr₁
  cases r₃ with
  | nil => exact ⟨⟨sign, whole, places, none, hsome⟩, rfl, rfl⟩
  | cons c r₄ =>
    dsimp only at h
    by_cases hc : c = 101 ∨ c = 69
    · obtain ⟨esign, r₅, hsign, hr₄⟩ := exists_sign r₄
      obtain ⟨eds, r₆, hr₅, hends₆⟩ := exists_digits r₅
      have hscale : readScale r₅ false 0 = (r₆, decide (eds ≠ []), eds.foldl scaleDigit 0) := by
        rw [hr₅, readScale_append, readScale_end hends₆, Bool.false_or]
      rw [if_pos hc, hsign] at h
      rw [hscale] at h
      by_cases heds : eds = []
      · rw [if_pos (decide_eq_false (not_not.mpr heds))] at h
        cases h
      · rw [if_neg (by rw [decide_eq_true heds]; exact Bool.noConfusion)] at h
        by_cases hr₆ : r₆ = []
        · refine ⟨⟨sign, whole, places, some ⟨decide (c = 69), esign, eds, heds⟩, hsome⟩, rfl, ?_⟩
          have hcap : (if decide (c = 69) = true then (69 : UInt8) else 101) = c := by
            rcases hc with rfl | rfl
            · rfl
            · rfl
          show whole.map digitByte ++ (_ ++ ((if decide (c = 69) = true then 69 else 101) ::
            (esign.bytes ++ eds.map digitByte))) = _
          rw [hcap, hr₄, hr₅, hr₆, append_nil]
        · rw [if_neg hr₆] at h
          cases h
    · rw [if_neg hc] at h
      cases h

end Numeral

end AnticFloat
