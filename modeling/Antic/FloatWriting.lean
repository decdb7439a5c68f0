import Antic.FloatText

/-! # A float as text — `text.c`

    A `big` is the list of its limbs in base 10^9, the lowest limb first.  The builder is the list
    of the bytes that are appended.  A float comes as its bits: for a single one the caller passes
    the double that holds it, and `parts_of` takes the bits of the single one back from that. -/

namespace AnticFloat

/-- `BILLION`. -/
def BILLION : ℕ := 1000000000

/-- `BIG_LIMBS`. -/
def BIG_LIMBS : ℕ := (EXACT_DIGITS + 8) / 9

/-- `struct parts`. -/
structure Parts where
  negative : Bool
  boundary : Bool
  m : ℕ
  e : ℤ

/-- A `double`, or the `float` that it holds, by its bits. -/
inductive Given where
  | f64 (bits : ℕ)
  | f32 (bits : ℕ)

/-- The parts of a float with so many bits of a fraction and of a power. -/
def partsAt (mantissa exponent : ℕ) (least : ℤ) (bits : ℕ) : Parts :=
  let power := bits >>> mantissa &&& (1 <<< exponent - 1)
  let fraction := bits &&& (1 <<< mantissa - 1)
  { negative := bits >>> (mantissa + exponent) ≠ 0
    boundary := fraction = 0 ∧ power > 1
    m := if power = 0 then fraction else fraction ||| 1 <<< mantissa
    e := if power = 0 then least else power + (least - 1) }

/-- `parts_of`. -/
def partsOf : Given → Parts
  | .f32 bits => partsAt 23 8 (-149) bits
  | .f64 bits => partsAt 52 11 (-1074) bits

/-! ## The exact digits -/

/-- The loop of `big_multiply` over the limbs: what it writes, and the carry. -/
def multiplyLimbs (k : ℕ) : List ℕ → (carry : ℕ) → List ℕ × ℕ
  | [], carry => ([], carry)
  | limb :: rest, carry =>
    let x := word (limb * k + carry)
    let (out, carry) := multiplyLimbs k rest (x / BILLION)
    (x % BILLION :: out, carry)

/-- The loop of `big_multiply` that writes the carry, with room for `room` limbs. -/
def pushCarry : (room carry : ℕ) → List ℕ → List ℕ
  | 0, _, limbs => limbs
  | room + 1, carry, limbs =>
    if carry = 0 then limbs else pushCarry room (carry / BILLION) (limbs ++ [carry % BILLION])

/-- `big_multiply`. -/
def bigMultiply (b : List ℕ) (k : ℕ) : List ℕ :=
  let (limbs, carry) := multiplyLimbs k b 0
  pushCarry (BIG_LIMBS - b.length) carry limbs

/-- The loop of `exact` that writes the limbs of `m`. -/
def limbsOf (m : ℕ) : List ℕ := if m = 0 then [] else m % BILLION :: limbsOf (m / BILLION)
  termination_by m
  decreasing_by exact Nat.div_lt_self (Nat.pos_of_ne_zero ‹_›) (by decide)

/-- A loop of `exact` that multiplies by powers of `base`: `whole` times the greatest one,
    and then the one that is left. -/
def timesPower (base step : ℕ) : (whole left : ℕ) → List ℕ → List ℕ
  | 0, left, b => if left > 0 then bigMultiply b (base ^ left) else b
  | whole + 1, left, b => timesPower base step whole left (bigMultiply b (base ^ step))

/-- The digits of the highest limb. -/
def highDigits (top : ℕ) (out : List Digit) : List Digit :=
  if top = 0 then out else highDigits (top / 10) (digit top :: out)
  termination_by top
  decreasing_by exact Nat.div_lt_self (Nat.pos_of_ne_zero ‹_›) (by decide)

/-- The digits of another limb, from the last one. -/
def limbDigits : (k v : ℕ) → List Digit → List Digit
  | 0, _, out => out
  | k + 1, v, out => limbDigits k (v / 10) (digit v :: out)

/-- `exact`. -/
def exact (m : ℕ) (e : ℤ) : Decimal :=
  let b := timesPower 2 29 (e.toNat / 29) (e.toNat % 29) (limbsOf m)
  let b := timesPower 5 13 ((-e).toNat / 13) ((-e).toNat % 13) b
  match b.reverse with
  | [] => ⟨[], 0⟩
  | top :: rest =>
    let d := highDigits top [] ++ rest.flatMap (limbDigits 9 · [])
    Decimal.trim ⟨d, d.length + if e < 0 then e else 0⟩

/-! ## Rounding -/

namespace Decimal

/-- The digits of a decimal, one unit of the last digit higher. -/
def raise (v : Decimal) : Decimal :=
  match v.d.reverse.dropWhile (· = 9) with
  | [] => ⟨[1], v.point + 1⟩
  | d :: rest => { v with d := (digit (d.val + 1) :: rest).reverse }

/-- `round_to`. -/
def roundTo (v : Decimal) (keep : ℤ) : Decimal :=
  if v.d = [] ∨ keep ≥ v.d.length then v
  else if keep < 0 then { v with d := [] }
  else
    let up : Bool :=
      if v.digitAt keep ≠ 5 then v.digitAt keep > 5
      else keep + 1 < v.d.length ∨ (keep > 0 ∧ (v.digitAt (keep - 1)).val % 2 = 1)
    let v := { v with d := v.d.take keep.toNat }
    trim (if up then v.raise else v)

/-- The loop of `compare` over the digits, with `left` of them left. -/
def compareFrom (a b : Decimal) : (left i : ℕ) → ℤ
  | 0, _ => 0
  | left + 1, i =>
    if a.digitAt i ≠ b.digitAt i then if a.digitAt i < b.digitAt i then -1 else 1
    else compareFrom a b left (i + 1)

/-- `compare`. -/
def compare (a b : Decimal) : ℤ :=
  if a.point ≠ b.point then if a.point < b.point then -1 else 1
  else compareFrom a b (max a.d.length b.d.length) 0

end Decimal

/-- The loop of `shortest`, with `turns` turns before 17 digits. -/
def shortestFrom (value low high : Decimal) (even : Bool) : (turns digits : ℕ) → Decimal
  | 0, _ => value.roundTo 17
  | turns + 1, digits =>
    let out := value.roundTo digits
    let below := out.compare low
    let above := out.compare high
    if (below > 0 ∨ (even ∧ below = 0)) ∧ (above < 0 ∨ (even ∧ above = 0)) then out
    else shortestFrom value low high even turns (digits + 1)

/-- `shortest`. -/
def shortest (p : Parts) : Decimal :=
  let low := if p.boundary then exact (4 * p.m - 1) (p.e - 2) else exact (2 * p.m - 1) (p.e - 1)
  shortestFrom (exact p.m p.e) low (exact (2 * p.m + 1) (p.e - 1)) (p.m % 2 = 0) 16 1

/-! ## The text -/

/-- The digits of a power, at least two of them, with `n` of them written. -/
def powerDigits (n size : ℕ) (out : List UInt8) : List UInt8 :=
  if size ≠ 0 ∨ n < 2 then powerDigits (n + 1) (size / 10) (digitByte (digit size) :: out) else out
  termination_by size + (2 - n)
  decreasing_by omega

/-- `put_power`. -/
def putPower (power : ℤ) : List UInt8 :=
  101 :: (if power < 0 then 45 else 43) :: powerDigits 0 power.natAbs []

/-- `put_fixed`. -/
def putFixed (v : Decimal) (precision : ℕ) : List UInt8 :=
  (if v.d = [] ∨ v.point ≤ 0 then [48]
    else (List.range v.point.toNat).map fun i : ℕ => digitByte (v.digitAt i)) ++
  if precision > 0 then
    46 :: (List.range precision).map fun i : ℕ =>
      if v.d = [] then 48 else digitByte (v.digitAt (v.point + i))
  else []

/-- `put_scientific`. -/
def putScientific (v : Decimal) (precision : ℕ) : List UInt8 :=
  (if v.d = [] then 48 else digitByte (v.digitAt 0)) :: ((if precision > 0 then
        46 :: (List.range precision).map fun i : ℕ => digitByte (v.digitAt (i + 1))
      else []) ++
    putPower (if v.d = [] then 0 else v.point - 1))

/-- `put_shortest`. -/
def putShortest (v : Decimal) (exponent : Bool) : List UInt8 :=
  let power := if v.d = [] then 0 else v.point - 1
  let places := v.d.length - v.point
  if ¬ exponent ∧ power ≥ -4 ∧ power < 16 then putFixed v (if places > 0 then places.toNat else 0)
  else putScientific v (if v.d.length > 1 then v.d.length - 1 else 0)

/-- `isnan`, and `isinf`, by the bits. -/
def Given.isNan : Given → Bool
  | .f64 bits => bits % 2 ^ 63 > 2047 * 2 ^ 52
  | .f32 bits => bits % 2 ^ 31 > 255 * 2 ^ 23

def Given.isInf : Given → Bool
  | .f64 bits => bits % 2 ^ 63 = 2047 * 2 ^ 52
  | .f32 bits => bits % 2 ^ 31 = 255 * 2 ^ 23

/-- `anti_rt_builder_float`: what it appends. -/
def builderFloat (value : Given) (precision : ℤ) (exponent : Bool) : List UInt8 :=
  let p := partsOf value
  if value.isNan then [110, 97, 110]
  else if value.isInf then (if p.negative then [45, 105, 110, 102] else [105, 110, 102])
  else
    (if p.negative then [45] else []) ++
    if precision < 0 then
      putShortest (if p.m = 0 then ⟨[], 0⟩ else shortest p) exponent
    else
      let precision := min precision 100000000
      let v := exact p.m p.e
      if exponent then putScientific (v.roundTo (precision + 1)) precision.toNat
      else putFixed (v.roundTo (v.point + precision)) precision.toNat

end AnticFloat
