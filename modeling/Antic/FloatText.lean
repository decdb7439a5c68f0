import Antic.Ascii
import Mathlib

/-! # The text of a float — `text.c`

    A decimal is the list of its digits after a point, the first digit first.  Numbers of
    the type `uint64_t` are taken modulo `2 ^ 64` where they are computed.  A loop of which
    the C program does not count the turns has a number of turns here, and `none` stands for
    a loop that goes on after them. -/

namespace AnticFloat

export Ascii (isDigit)

abbrev Digit := Fin 10

instance neZero_ten : NeZero 10 := ⟨by decide⟩

/-- The last decimal digit of a number. -/
def digit (n : ℕ) : Digit := Fin.ofNat 10 n

/-- The byte of a digit. -/
def digitByte (d : Digit) : UInt8 := UInt8.ofNat (48 + d.val)

/-- A `uint64_t`. -/
def word (n : ℕ) : ℕ := n % 2 ^ 64

/-- `EXACT_DIGITS`. -/
def EXACT_DIGITS : ℕ := 780

/-- `SHIFT_LIMIT`. -/
def SHIFT_LIMIT : ℕ := 27

/-- `struct decimal`. -/
structure Decimal where
  d : List Digit
  point : ℤ

/-- A decimal, and whether digits of it that are not zero were dropped. -/
abbrev Kept := Decimal × Bool

namespace Decimal

/-- `trim`. -/
def trim (v : Decimal) : Decimal := { v with d := v.d.rdropWhile (· = 0) }

/-- `digit_at`. -/
def digitAt (v : Decimal) (i : ℤ) : Digit := if 0 ≤ i then v.d.getD i.toNat 0 else 0

-- ── Doubling ────

/-- The loop of `double_by` over the digits, from the last one: what it writes, and the carry. -/
def doubleDigits (k : ℕ) : List Digit → List Digit × ℕ
  | [] => ([], 0)
  | d :: rest =>
    let (out, carry) := doubleDigits k rest
    let x := word (d.val <<< k + carry)
    (digit x :: out, x / 10)

/-- The loop of `double_by` that writes the carry. -/
def putCarry : (turns carry : ℕ) → List Digit → List Digit
  | 0, _, out => out
  | turns + 1, carry, out =>
    if carry = 0 then out else putCarry turns (carry / 10) (digit carry :: out)

/-- `double_by`. -/
def doubleBy (v : Decimal) (k : ℕ) (dropped : Bool) : Kept :=
  let (low, carry) := doubleDigits k v.d
  let out := putCarry carry carry low
  (trim ⟨out.take EXACT_DIGITS, v.point + (out.length - v.d.length)⟩,
    dropped || (out.drop EXACT_DIGITS).any (· ≠ 0))

-- ── Halving ────

/-- The loop of `halve_by` up to the first digit of the quotient: the dividend there, the
    digits that are left, and how many were read. -/
def firstQuotient (k : ℕ) : (turns r : ℕ) → List Digit → (read : ℕ) → Option (ℕ × List Digit × ℕ)
  | 0, _, _, _ => none
  | turns + 1, r, rest, read =>
    if r >>> k = 0 then
      match rest with
      | [] => firstQuotient k turns (word (r * 10)) [] (read + 1)
      | d :: rest => firstQuotient k turns (word (r * 10 + d.val)) rest (read + 1)
    else some (r, rest, read)

/-- The loop of `halve_by` over the digits that are left: what it writes, and the dividend
    behind them. -/
def halveDigits (k : ℕ) : (r : ℕ) → List Digit → List Digit × ℕ
  | r, [] => ([], r)
  | r, d :: rest =>
    let (out, r') := halveDigits k (word ((r &&& (1 <<< k - 1)) * 10 + d.val)) rest
    (digit (r >>> k) :: out, r')

/-- The loop of `halve_by` behind the last digit, with `write` digits written. -/
def halveRest (k : ℕ) : (turns r write : ℕ) → (dropped : Bool) → Option (List Digit × Bool)
  | 0, _, _, _ => none
  | turns + 1, r, write, dropped =>
    if r = 0 then some ([], dropped)
    else
      let r' := word ((r &&& (1 <<< k - 1)) * 10)
      if write < EXACT_DIGITS then do
        let (out, dropped) ← halveRest k turns r' (write + 1) dropped
        return (digit (r >>> k) :: out, dropped)
      else halveRest k turns r' write (dropped || r >>> k ≠ 0)

/-- `halve_by`. -/
def halveBy (v : Decimal) (k : ℕ) (dropped : Bool) : Option Kept :=
  if v.d = [] then some (v, dropped)
  else do
    let (r, rest, read) ← firstQuotient k (v.d.length + k + 1) 0 v.d 0
    let (out, r) := halveDigits k r rest
    let (more, dropped) ← halveRest k (k + 2) r out.length dropped
    return (trim ⟨out ++ more, v.point - (read - 1)⟩, dropped)

-- ── The whole part ────

/-- The loop of `rounded_whole` over the digits before the point, with `left` of them left. -/
def wholePart (v : Decimal) : (left i n : ℕ) → ℕ
  | 0, _, n => n
  | left + 1, i, n => wholePart v left (i + 1) (word (n * 10 + (v.digitAt i).val))

/-- `rounded_whole`. -/
def roundedWhole (v : Decimal) (dropped : Bool) : ℕ :=
  let n := v.wholePart v.point.toNat 0 0
  if v.point < 0 ∨ v.point ≥ v.d.length then n
  else
    let up : Bool :=
      if v.digitAt v.point = 5 ∧ v.point + 1 = v.d.length then dropped || n % 2 = 1
      else 5 ≤ v.digitAt v.point
    if up then word (n + 1) else n

end Decimal

/-! ## Reading -/

/-- What `read_decimal` knows of the digits. -/
structure Scan where
  digits : Bool
  afterPoint : Bool
  v : Decimal
  dropped : Bool

/-- The turn of the loop of `read_decimal` at a digit. -/
def Scan.take (s : Scan) (c : UInt8) : Scan :=
  if c = 48 ∧ s.v.d = [] then
    { s with digits := true, v.point := s.v.point - if s.afterPoint then 1 else 0 }
  else
    let point := s.v.point + if s.afterPoint then 0 else 1
    if s.v.d.length < EXACT_DIGITS then
      { s with digits := true, v := ⟨s.v.d ++ [digit (c.toNat - 48)], point⟩ }
    else
      { s with digits := true, v.point := point, dropped := s.dropped || c ≠ 48 }

/-- The loop of `read_decimal` over the digits and the point. -/
def readDigits : List UInt8 → Scan → List UInt8 × Scan
  | [], s => ([], s)
  | c :: rest, s =>
    if c = 46 ∧ s.afterPoint = false then readDigits rest { s with afterPoint := true }
    else if isDigit c then readDigits rest (s.take c)
    else (c :: rest, s)

/-- The loop of `read_decimal` over the digits of the exponent. -/
def readScale : List UInt8 → (any : Bool) → (scale : ℕ) → List UInt8 × Bool × ℕ
  | [], any, scale => ([], any, scale)
  | c :: rest, any, scale =>
    if isDigit c then
      readScale rest true (if scale < 100000 then scale * 10 + (c.toNat - 48) else scale)
    else (c :: rest, any, scale)

/-- A sign that may stand there: whether it is a minus, and what is behind it. -/
def readSign : List UInt8 → Bool × List UInt8
  | c :: rest => if c = 43 then (false, rest) else if c = 45 then (true, rest) else (false, c :: rest)
  | [] => (false, [])

/-- `read_decimal`. -/
def readDecimal (bytes : List UInt8) : Option Kept :=
  match readDigits bytes ⟨false, false, ⟨[], 0⟩, false⟩ with
  | (rest, s) =>
    if s.digits = false then none
    else
      match rest with
      | [] => some (s.v, s.dropped)
      | c :: rest =>
        if c = 101 ∨ c = 69 then
          let (minus, rest) := readSign rest
          match readScale rest false 0 with
          | (rest, any, scale) =>
            if any = false then none
            else if rest = [] then
              some ({ s.v with point := s.v.point + if minus then -(scale : ℤ) else scale },
                s.dropped)
            else none
        else none

/-- The table of `anti_rt_read_float`. -/
def below_ten : List ℕ := [1, 3, 6, 9, 13, 16, 19, 23, 26]

/-- How far one step moves a value with `n` digits before its point. -/
def stepOf (n : ℤ) : ℕ := if n < 9 then below_ten.getD n.toNat 0 else SHIFT_LIMIT

/-- The loop of `anti_rt_read_float` that halves. -/
def bringDown : (turns : ℕ) → Kept → (power : ℤ) → Option (Kept × ℤ)
  | 0, _, _ => none
  | turns + 1, (v, dropped), power =>
    if v.point > 0 then do
      bringDown turns (← v.halveBy (stepOf v.point) dropped) (power + stepOf v.point)
    else some ((v, dropped), power)

/-- The loop of `anti_rt_read_float` that doubles. -/
def bringUp : (turns : ℕ) → Kept → (power : ℤ) → Option (Kept × ℤ)
  | 0, _, _ => none
  | turns + 1, (v, dropped), power =>
    if v.point < 0 ∨ (v.point = 0 ∧ v.digitAt 0 < 5) then
      bringUp turns (v.doubleBy (stepOf (-v.point)) dropped) (power - stepOf (-v.point))
    else some ((v, dropped), power)

/-- The steps of a loop that moves a value by `n`. -/
def steps : (turns n : ℕ) → List ℕ
  | 0, _ => []
  | turns + 1, n =>
    if n = 0 then [] else (if n < SHIFT_LIMIT then n else SHIFT_LIMIT) :: steps turns (n - SHIFT_LIMIT)

/-- The loop of `anti_rt_read_float` that halves by such steps. -/
def halveAll : List ℕ → Kept → Option Kept
  | [], kept => some kept
  | k :: rest, (v, dropped) => do halveAll rest (← v.halveBy k dropped)

/-- A value below the smallest normal exponent, halved until it stands there. -/
def sink (bias power : ℤ) (kept : Kept) : Option (Kept × ℤ) :=
  if power < 1 - bias then do
    let n := (1 - bias - power).toNat
    return (← halveAll (steps n n) kept, 1 - bias)
  else some (kept, power)

/-- The loop of `anti_rt_read_float` that leaves the mantissa as the whole part. -/
def doubleAll : List ℕ → Kept → Kept
  | [], kept => kept
  | k :: rest, (v, dropped) => doubleAll rest (v.doubleBy k dropped)

/-- The bits of a value whose whole part is `whole`. -/
def assemble (mantissa : ℕ) (bias power : ℤ) (sign infinite whole : ℕ) : ℕ :=
  if whole = 2 <<< mantissa ∧ power + 1 > bias then sign ||| infinite
  else
    let (whole, power) :=
      if whole = 2 <<< mantissa then (whole >>> 1, power + 1) else (whole, power)
    if whole &&& (1 <<< mantissa) = 0 then sign ||| whole
    else sign ||| (power + bias).toNat <<< mantissa ||| (whole &&& (1 <<< mantissa - 1))

/-- `anti_rt_read_float` of a value that is neither too small nor too large. -/
def roundScaled (mantissa : ℕ) (bias : ℤ) (sign infinite : ℕ) (kept : Kept) : Option ℕ := do
  let (kept, power) ← bringDown 1100 kept 0
  let (kept, power) ← bringUp 1200 kept power
  -- The first bit of the value is worth `2 ^ (power - 1)`.
  let (kept, power) ← sink bias (power - 1) kept
  if power > bias then some (sign ||| infinite)
  else
    let (v, dropped) := doubleAll (steps (mantissa + 1) (mantissa + 1)) kept
    some (assemble mantissa bias power sign infinite (v.roundedWhole dropped))

/-- `anti_rt_read_float`: the bits that it stores, or `some none` where it returns 0. -/
def readFloat (bytes : List UInt8) (mantissa exponent : ℕ) : Option (Option ℕ) :=
  let bias : ℤ := 1 <<< (exponent - 1) - 1
  let infinite := (1 <<< exponent - 1) <<< mantissa
  let (minus, rest) := readSign bytes
  let sign := if minus then 1 <<< (mantissa + exponent) else 0
  match readDecimal rest with
  | none => some none
  | some (v, dropped) =>
    let v := v.trim
    if v.d = [] ∨ v.point < -330 then some (some sign)
    else if v.point > 310 then some (some (sign ||| infinite))
    else (roundScaled mantissa bias sign infinite (v, dropped)).map some

end AnticFloat
