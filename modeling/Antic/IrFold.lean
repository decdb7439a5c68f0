import Antic.IrSyntax
import Mathlib.Data.Nat.Bitwise
import Mathlib.Data.Int.Basic

/-! # Folding an integer operation — `ir_fold.c` and the constants of `arith.c`

    One rule folds an integer operation of the IR, for the optimizer and for the layout.  A
    `uint64_t` is a `Nat` below `2 ^ 64` with the remainder written where C wraps, an `int64_t` is
    an `Int`, and a mask of the low bits is a remainder. -/

namespace AnticIr

/-! ## The arithmetic on constants of `n` bits -/

/-- The low 64 bits, where C wraps. -/
def wrap64 (v : Nat) : Nat := v % 2 ^ 64

/-- The difference of two 64-bit numbers, where C wraps. -/
def sub64 (a b : Nat) : Nat := (a + 2 ^ 64 - b % 2 ^ 64) % 2 ^ 64

/-- The 64 bits of a signed value. -/
def toBits64 (x : Int) : Nat := (x % 2 ^ 64).toNat

/-- `arith_signed`: the low `n` bits as a signed value. -/
def arithSigned (v n : Nat) : Int :=
  if v % 2 ^ n < 2 ^ (n - 1) then (v % 2 ^ n : Nat)
  else ((v % 2 ^ n : Nat) : Int) - 2 ^ n

/-- `extend` of `arith.c`. -/
def arithExtend (v n : Nat) (isSigned : Bool) : Nat :=
  if isSigned then toBits64 (arithSigned v n) else v % 2 ^ n

/-- `arith_shift_right`: the shift that copies the sign rounds down. -/
def arithShiftRight (a : Int) (k : Nat) : Int := a / 2 ^ k

/-- `multiply`: the halves of the 128-bit product, from the four products of the 32-bit halves. -/
def arithMultiply (a b : Nat) : Nat × Nat :=
  let a0 := a % 2 ^ 32
  let a1 := a / 2 ^ 32
  let b0 := b % 2 ^ 32
  let b1 := b / 2 ^ 32
  let p00 := a0 * b0
  let p01 := a0 * b1
  let p10 := a1 * b0
  let middle := p00 / 2 ^ 32 + p01 % 2 ^ 32 + p10 % 2 ^ 32
  (wrap64 (a1 * b1 + p01 / 2 ^ 32 + p10 / 2 ^ 32 + middle / 2 ^ 32),
    wrap64 (middle * 2 ^ 32) + p00 % 2 ^ 32)

/-- `arith_mul_high`. -/
def arithMulHigh (a b n : Nat) (isSigned : Bool) : Nat :=
  if n < 64 then
    let product := wrap64 (arithExtend a n isSigned * arithExtend b n isSigned)
    let high :=
      if isSigned ∧ product / 2 ^ 63 ≠ 0 then
        2 ^ 64 - 1 - (2 ^ 64 - 1 - product) / 2 ^ n
      else product / 2 ^ n
    arithExtend high n isSigned
  else
    let hi := (arithMultiply a b).1
    if isSigned then
      sub64 (sub64 hi (if a / 2 ^ 63 ≠ 0 then b else 0)) (if b / 2 ^ 63 ≠ 0 then a else 0)
    else hi

/-- `largest`. -/
def arithLargest (n : Nat) (isSigned : Bool) : Nat := 2 ^ (if isSigned then n - 1 else n) - 1

/-- `smallest`. -/
def arithSmallest (n : Nat) (isSigned : Bool) : Nat :=
  if isSigned then 2 ^ 64 - 1 - arithLargest n true else 0

/-- The operator of `direction` and `arith_saturate`. -/
inductive ArithOp where
  | add | sub | mul
  deriving DecidableEq, Repr

/-- The operation on signed values, exact. -/
def ArithOp.onInt : ArithOp → Int → Int → Int
  | .add, x, y => x + y
  | .sub, x, y => x - y
  | .mul, x, y => x * y

/-- The operation on 64-bit numbers, where C wraps. -/
def ArithOp.on64 : ArithOp → Nat → Nat → Nat
  | .add, a, b => wrap64 (a + b)
  | .sub, a, b => sub64 a b
  | .mul, a, b => wrap64 (a * b)

/-- `direction`: 1 above the largest value, -1 below the smallest, 0 inside. -/
def arithDirection (op : ArithOp) (a b n : Nat) (isSigned : Bool) : Int :=
  if n < 64 ∧ isSigned = false then
    let a := arithExtend a n false
    let b := arithExtend b n false
    match op with
    | .sub => if a < b then -1 else 0
    | op => if op.on64 a b > arithLargest n false then 1 else 0
  else if n < 64 then
    let r := op.onInt (arithSigned a n) (arithSigned b n)
    let top : Int := arithLargest n true
    if r > top then 1 else if r < -top - 1 then -1 else 0
  else if isSigned = false then
    match op with
    | .add => if wrap64 (a + b) < a then 1 else 0
    | .sub => if a < b then -1 else 0
    | .mul => if (arithMultiply a b).1 ≠ 0 then 1 else 0
  else
    match op with
    | .mul =>
      let (hi, lo) := arithMultiply a b
      let hi := sub64 hi (if a / 2 ^ 63 ≠ 0 then b else 0)
      let hi := sub64 hi (if b / 2 ^ 63 ≠ 0 then a else 0)
      if hi = (if lo / 2 ^ 63 ≠ 0 then uint64Max else 0) then 0
      else if (a ^^^ b) / 2 ^ 63 ≠ 0 then -1 else 1
    | op =>
      let r := op.on64 a b
      let signB := if op = .add then b else 2 ^ 64 - 1 - b
      if ((a ^^^ r) &&& (signB ^^^ r)) / 2 ^ 63 = 0 then 0
      else if a / 2 ^ 63 ≠ 0 then -1 else 1

/-- `arith_saturate`. -/
def arithSaturate (op : ArithOp) (a b n : Nat) (isSigned : Bool) : Nat :=
  let d := arithDirection op a b n isSigned
  if d > 0 then arithLargest n isSigned
  else if d < 0 then arithSmallest n isSigned
  else arithExtend (op.on64 a b) n isSigned

/-! ## The fold -/

/-- `ir_fold_bits`. -/
def irFoldBits : IrType → Nat
  | .i8 => 8
  | .i16 => 16
  | .i32 => 32
  | _ => 64

/-- `ir_fold_trim`. -/
def irFoldTrim (type : IrType) (v : Nat) : Nat := v % 2 ^ irFoldBits type

/-- `ir_fold_signed`. -/
def irFoldSigned (type : IrType) (v : Nat) : Int := arithSigned v (irFoldBits type)

/-- `enum ir_fold`, with the value of a fold. -/
inductive IrFolded where
  | folded (v : Nat)
  | notBinary
  | byZero
  | leastByMinusOne
  | shiftRange
  deriving DecidableEq, Repr

/-- `is_shift`. -/
def isShift (op : IrOp) : Bool := op = .shl ∨ op = .shrS ∨ op = .shrU

/-- The operations that divide. -/
def divides (op : IrOp) : Bool := op = .sdiv ∨ op = .udiv ∨ op = .srem ∨ op = .urem

/-- 1 when the comparison holds, else 0. -/
def boolBit (p : Prop) [Decidable p] : Nat := if p then 1 else 0

/-- The switch of `ir_fold_int`, before its last trim.  A comparison gives its bit. -/
def foldSwitch (op : IrOp) (type : IrType) (a b count : Nat) : Option Nat :=
  let n := irFoldBits type
  let x := irFoldSigned type a
  let y := irFoldSigned type b
  match op with
  | .add => some (wrap64 (a + b))
  | .sub => some (sub64 a b)
  | .mul => some (wrap64 (a * b))
  | .sdiv => some (toBits64 (x.tdiv y))
  | .srem => some (toBits64 (x.tmod y))
  | .udiv => some (a / b)
  | .urem => some (a % b)
  | .and => some (a &&& b)
  | .or => some (a ||| b)
  | .xor => some (a ^^^ b)
  | .shl => some (wrap64 (a * 2 ^ count))
  | .shrS => some (toBits64 (arithShiftRight x count))
  | .shrU => some (a / 2 ^ count)
  | .eq => some (boolBit (a = b))
  | .ne => some (boolBit (a ≠ b))
  | .slt => some (boolBit (x < y))
  | .sle => some (boolBit (x ≤ y))
  | .sgt => some (boolBit (x > y))
  | .sge => some (boolBit (x ≥ y))
  | .ult => some (boolBit (a < b))
  | .ule => some (boolBit (a ≤ b))
  | .ugt => some (boolBit (a > b))
  | .uge => some (boolBit (a ≥ b))
  | .mulhS => some (arithMulHigh a b n true)
  | .mulhU => some (arithMulHigh a b n false)
  | .addSatS => some (arithSaturate .add a b n true)
  | .addSatU => some (arithSaturate .add a b n false)
  | .subSatS => some (arithSaturate .sub a b n true)
  | .subSatU => some (arithSaturate .sub a b n false)
  | .mulSatS => some (arithSaturate .mul a b n true)
  | .mulSatU => some (arithSaturate .mul a b n false)
  | _ => none

/-- `ir_fold_int`.  The bit of a comparison is below 2, so the last trim leaves
    it as the early return of the source does. -/
def irFoldInt (op : IrOp) (type : IrType) (a b : Nat) : IrFolded :=
  let n := irFoldBits type
  let count := b
  let a := irFoldTrim type a
  let b := irFoldTrim type b
  if isShift op ∧ count ≥ n then .shiftRange
  else if divides op ∧ b = 0 then .byZero
  else if (op = .sdiv ∨ op = .srem) ∧ a = 2 ^ (n - 1) ∧ b = 2 ^ n - 1 then
    .leastByMinusOne
  else
    match foldSwitch op type a b count with
    | some v => .folded (irFoldTrim type v)
    | none => .notBinary

/-- `ir_int_op`: an integer constant keeps only the bits of its type. -/
def irIntOp (type : IrType) (value : Nat) : IrOperand := ⟨.int, type, irFoldTrim type value⟩

end AnticIr
