import Antic.IrFold
import Antic.Target

/-! # Constant expressions — `sema_const.c`

    A constant of a target-sized type is computed at 64 bits and held to the narrowest width of its
    type.  An expression is one that the checker has taken: a name stands for the expression of its
    constant, and a struct literal holds one value a field.  The floats enter through their
    operations, which the compiler and the program share.  A value that is refused is `none`,
    whatever the message. -/

namespace AnticConst

open AnticIr

/-! ## Types -/

/-- The integer types, from `TYPE_I8` to `TYPE_CWCHAR`. -/
inductive IntType where
  | i8 | i16 | i32 | i64 | clong | u8 | u16 | u32 | u64 | culong | cwchar
  deriving DecidableEq, Repr, Inhabited

inductive FloatType where
  | f16 | f32 | f64
  deriving DecidableEq, Repr, Inhabited

/- The types of a constant.  A `pointer` is nullable, and `none` is its one
   constant; a tuple is a struct. -/
mutual

inductive Ty where
  | bool
  | char
  | int (t : IntType)
  | float (t : FloatType)
  | str
  | pointer (id : Nat)
  | enum (id : Nat) (base : IntType)
  | array (element : Ty) (length : Nat)
  | struct (id : Nat) (fields : Fields)
  deriving DecidableEq

inductive Fields where
  | nil
  | cons (field : Ty) (fields : Fields)
  deriving DecidableEq

end

instance : Inhabited Ty := ⟨.bool⟩

def Fields.get? : Fields → Nat → Option Ty
  | .nil, _ => none
  | .cons t _, 0 => some t
  | .cons _ ts, i + 1 => ts.get? i

/-- `types_is_target_sized`. -/
def typesIsTargetSized : IntType → Bool
  | .clong | .culong | .cwchar => true
  | _ => false

/-- `types_is_signed`. -/
def typesIsSigned : IntType → Bool
  | .i8 | .i16 | .i32 | .i64 | .clong => true
  | _ => false

/-- `types_bits`: the narrowest width of a target-sized type. -/
def typesBits : IntType → Nat
  | .i8 | .u8 => 8
  | .i16 | .u16 | .cwchar => 16
  | .i32 | .u32 | .clong | .culong => 32
  | .i64 | .u64 => 64

/-- The width a constant of the type is computed at. -/
def constBits (t : IntType) : Nat :=
  if typesIsTargetSized t then 64 else typesBits t

/-- The signedness of the type of an operand; a type that is no integer is not signed. -/
def Ty.isSigned : Ty → Bool
  | .int t => typesIsSigned t
  | _ => false

/-- The integer that a value of the type converts as: an enum as its base. -/
def Ty.base : Ty → IntType
  | .int t => t
  | .enum _ base => base
  | _ => .i64

/-- `types_is_numeric`. -/
def Ty.isNumeric : Ty → Bool
  | .int _ | .float .f32 | .float .f64 => true
  | _ => false

/-! ## Floats -/

inductive FloatOp where
  | add | sub | mul | div
  deriving DecidableEq, Repr

/-- The operations on floats.  `less` is false for a NaN, and `trunc` has no
    value for a NaN and an infinity. -/
structure FloatOps (F : Type) where
  trunc : F → Option Int
  /-- An integer in one rounding, to an `f32` where `single` is set. -/
  ofInt : (single : Bool) → Int → F
  /-- The nearest `f32`. -/
  toSingle : F → F
  /-- `anti_rt_f16_widen` of `anti_rt_f16_narrow`. -/
  toHalf : F → F
  neg : F → F
  arith : FloatOp → F → F → F
  less : F → F → Bool
  isNan : F → Bool

/-! ## Expressions -/

inductive UnaryOp where
  | minus | bang | tilde
  deriving DecidableEq, Repr

inductive BinaryOp where
  | plus | plusWrap | plusSat | minus | minusWrap | minusSat
  | star | starWrap | starSat | mulHigh | slash | percent
  | amp | pipe | caret | shl | shlWrap | shr
  | eq | ne | lt | le | gt | ge
  | andAnd | orOr | questionQuestion
  deriving DecidableEq, Repr

/-- A checked expression.  `flags` marks the operation of the flags form, and `node` is the literal
    that an array or a struct is made by: its elements lie in the memory of that literal.  `other`
    is every form that gives no number: a call, a variable, `size_of` and the rest. -/
inductive Expr (F : Type) where
  | int (t : IntType) (integer : Nat)
  | float (t : FloatType) (floating : F)
  | char (character : Nat)
  | bool (boolean : Bool)
  | none (id : Nat)
  | string (bytes : List UInt8)
  | name (value : Expr F)
  | enumValue (id : Nat) (base : IntType) (number : Nat)
  | cast (result : Ty) (operand : Expr F)
  | unary (op : UnaryOp) (flags : Bool) (operand : Expr F)
  | binary (op : BinaryOp) (flags : Bool) (left right : Expr F)
  | array (element : Ty) (node : Nat) (elements : List (Expr F))
  | arrayRepeat (node : Nat) (length : Nat) (value : Expr F)
  | struct (id : Nat) (fields : Fields) (node : Nat) (values : List (Expr F))
  | field (base : Expr F) (index : Nat)
  | len (base : Expr F)
  | index (base index : Expr F)
  | inRange (value low high : Expr F)
  | other (t : Ty)

instance {F : Type} : Inhabited (Expr F) := ⟨.bool false⟩

def BinaryOp.isComparison : BinaryOp → Bool
  | .eq | .ne | .lt | .le | .gt | .ge => true
  | _ => false

/-- Whether the result of the operator is a `bool` of its own. -/
def BinaryOp.givesBool (op : BinaryOp) : Bool := op.isComparison || op = .andAnd || op = .orOr

def Ty.element : Ty → Ty
  | .array element _ => element
  | _ => default

def Ty.fieldType (t : Ty) (index : Nat) : Ty :=
  match t with
  | .struct _ fields => (fields.get? index).getD default
  | _ => default

/-- The type the checker has given the expression. -/
def Expr.type {F : Type} : Expr F → Ty
  | .int t _ => .int t
  | .float t _ => .float t
  | .char _ => .char
  | .bool _ => .bool
  | .none id => .pointer id
  | .string _ => .str
  | .name value => value.type
  | .enumValue id base _ => .enum id base
  | .cast result _ => result
  | .unary op _ operand => if op = .bang then .bool else operand.type
  | .binary op _ left _ => if op.givesBool then .bool else left.type
  | .array element _ elements => .array element elements.length
  | .arrayRepeat _ length value => .array value.type length
  | .struct id fields _ _ => .struct id fields
  | .field base i => base.type.fieldType i
  | .len _ => .int .i64
  | .index base _ => base.type.element
  | .inRange _ _ _ => .bool
  | .other t => t

/-! ## Values -/

/-- `struct const_value`.  `node` stands for the address of the items. -/
inductive Value (F : Type) where
  | int (type : Ty) (integer : Nat)
  | bool (boolean : Bool)
  | char (character : Nat)
  | float (floating : F)
  | null
  | text (bytes : List UInt8)
  | array (node : Nat) (items : List (Value F))
  | struct (node : Nat) (items : List (Value F))

instance {F : Type} : Inhabited (Value F) := ⟨.null⟩

/-- What `as.integer` reads: the number, or the bits that lie there. -/
def Value.integer {F : Type} : Value F → Nat
  | .int _ n => n
  | .bool b => b.toNat
  | .char c => c
  | .array node _ | .struct node _ => node
  | .float _ | .null | .text _ => 0

/-- `wrap`. -/
def wrap (t : IntType) (v : Nat) : Nat :=
  let bits := constBits t
  if bits < 64 then
    let v := v % 2 ^ bits
    if typesIsSigned t ∧ v / 2 ^ (bits - 1) ≠ 0 then v ||| (2 ^ 64 - 2 ^ bits)
    else v
  else v

/-- `one_value`. -/
def oneValue (t : IntType) (v : Nat) : Bool :=
  let bits := typesBits t
  if typesIsTargetSized t then
    if typesIsSigned t then
      decide (-2 ^ (bits - 1) ≤ arithSigned v 64 ∧ arithSigned v 64 < 2 ^ (bits - 1))
    else decide (v < 2 ^ bits)
  else true

/-- `fits_every_target` of the number `v` of type `t`. -/
def fitsEveryTarget {F : Type} (t : IntType) (v : Nat) : Option (Value F) :=
  if oneValue t v then some (.int (.int t) v) else none

/-- `integer_fits`. -/
def integerFits (source : IntType) (v : Nat) (t : IntType) : Bool :=
  let bits := constBits t
  let high := if typesIsSigned t then bits - 1 else bits
  if typesIsSigned source ∧ arithSigned v 64 < 0 then
    decide (typesIsSigned t ∧ (bits = 64 ∨ -2 ^ high ≤ arithSigned v 64))
  else decide (high = 64 ∨ v < 2 ^ high)

/-- `is_scalar_value`. -/
def isScalarValue (v : Nat) : Bool := decide (v ≤ 0x10FFFF ∧ (v < 0xD800 ∨ v > 0xDFFF))

/-- `float_fits`. -/
def floatFits {F : Type} (ops : FloatOps F) (x : F) (t : IntType) : Bool :=
  let bits := typesBits t
  let low : Int := if typesIsSigned t then -2 ^ (bits - 1) else 0
  let high : Int := if typesIsSigned t then 2 ^ (bits - 1) else 2 ^ bits
  match ops.trunc x with
  | some z => decide (low ≤ z ∧ z < high)
  | none => false

/-! ## Operations without a value -/

/-- `reports_undefined` of a conversion. -/
def castUndefined {F : Type} (ops : FloatOps F) (result : Ty) (a : Value F) : Bool :=
  match result, a with
  | .int t, .float x => !floatFits ops x t
  | .int t, .int source v => !integerFits source.base v t
  | .char, .int _ v => !isScalarValue v
  | _, _ => false

/-- `reports_undefined` of a unary `-`; `literal` is set where its operand is a literal. -/
def minusUndefined {F : Type} (t : Ty) (flags literal : Bool) (a : Value F) :
    Bool :=
  match t, a with
  | .int t, .int _ v =>
    typesIsSigned t && !flags && !literal &&
      decide (arithDirection .sub 0 v (constBits t) true ≠ 0)
  | _, _ => false

/-- The sign that `arith_overflows` takes for the operator. -/
def BinaryOp.sign : BinaryOp → Option ArithOp
  | .plus => some .add
  | .minus => some .sub
  | .star => some .mul
  | _ => none

/-- `reports_undefined` of a binary operation in a constant. -/
def binaryUndefined {F : Type} (op : BinaryOp) (t : Ty) (flags : Bool) (a b : Value F) : Bool :=
  match t with
  | .int t =>
    let bits := typesBits t
    let divides := op = .slash ∨ op = .percent
    let below := typesIsSigned t ∧ arithSigned b.integer 64 < 0
    if divides ∧ b.integer = 0 then true
    else if divides ∧ typesIsSigned t ∧
        a.integer % 2 ^ bits = 2 ^ (bits - 1) ∧
        arithSigned b.integer 64 = -1 then true
    else if (op = .shl ∨ op = .shr) ∧ (below ∨ b.integer ≥ bits) then true
    else if op = .shlWrap ∧ below then true
    else
      match op.sign with
      | some sign =>
        !flags && decide (arithDirection sign a.integer b.integer
          (constBits t) (typesIsSigned t) ≠ 0)
      | none => false
  | _ => false

/-! ## The operations -/

/-- `const_as`, of a value whose type is another than `result`. -/
def constAs {F : Type} (ops : FloatOps F) (result : Ty) (a : Value F) :
    Option (Value F) :=
  if castUndefined ops result a then none
  else
    match result, a with
    | .float .f16, .float x => some (.float (ops.toHalf (ops.toSingle x)))
    | .float .f32, .float x => some (.float (ops.toSingle x))
    | .float .f64, .float x => some (.float x)
    | .float t, .int source v =>
      let z : Int := if typesIsSigned source.base then arithSigned v 64 else v
      some (.float (ops.ofInt (decide (t = .f32)) z))
    | .int t, .float x => fitsEveryTarget t (wrap t (toBits64 ((ops.trunc x).getD 0)))
    | .int t, .bool b => fitsEveryTarget t (wrap t b.toNat)
    | .int t, .char c => fitsEveryTarget t (wrap t c)
    | .int t, .int _ v => fitsEveryTarget t (wrap t v)
    | .char, .int _ v => some (.char (v % 2 ^ 32))
    | _, _ => none

/-- `const_unary` of the value `a` of the operand, whose type is `t`. -/
def constUnary {F : Type} (ops : FloatOps F) (op : UnaryOp) (t : Ty)
    (flags literal : Bool) (a : Value F) : Option (Value F) :=
  if op = .minus ∧ minusUndefined t flags literal a then none
  else
    match op, t, a with
    | .bang, _, .bool b => some (.bool (!b))
    | .tilde, .int t, .int _ v => fitsEveryTarget t (wrap t (2 ^ 64 - 1 - v))
    | .minus, _, .float x => some (.float (ops.neg x))
    | .minus, .int t, .int _ v => fitsEveryTarget t (wrap t (sub64 0 v))
    | _, _, _ => none

/-- The answer of the comparison `op` where the order of the operands is `cmp`. -/
def BinaryOp.answer (op : BinaryOp) (cmp : Ordering) : Bool :=
  match op with
  | .eq => cmp = .eq
  | .ne => cmp ≠ .eq
  | .lt => cmp = .lt
  | .le => cmp ≠ .gt
  | .gt => cmp = .gt
  | _ => cmp ≠ .lt

/-- `compare_text`: the order of the bytes, and a text before every longer one it begins. -/
def compareText : List UInt8 → List UInt8 → Ordering
  | [], [] => .eq
  | [], _ :: _ => .lt
  | _ :: _, [] => .gt
  | a :: as, b :: bs =>
    if a < b then .lt else if b < a then .gt else compareText as bs

def FloatOps.compare {F : Type} (ops : FloatOps F) (x y : F) : Ordering :=
  if ops.less x y then .lt else if ops.less y x then .gt else .eq

/-- `const_compare`. -/
def constCompare {F : Type} (ops : FloatOps F) (op : BinaryOp) (isSigned : Bool)
    (a b : Value F) : Bool :=
  match a, b with
  | .float x, .float y =>
    if ops.isNan x ∨ ops.isNan y then op = .ne
    else op.answer (ops.compare x y)
  | .null, .null => op.answer .eq
  | .null, _ => op.answer .gt
  | _, .null => op.answer .gt
  | .text x, .text y => op.answer (compareText x y)
  | _, _ =>
    if isSigned then
      op.answer (compare (arithSigned a.integer 64) (arithSigned b.integer 64))
    else op.answer (compare a.integer b.integer)

/-- `const_integer`: the operation before it wraps. -/
def constInteger (op : BinaryOp) (t : IntType) (a b : Nat) : Nat :=
  let isSigned := typesIsSigned t
  let bits := typesBits t
  match op with
  | .plus | .plusWrap => wrap64 (a + b)
  | .minus | .minusWrap => sub64 a b
  | .star | .starWrap => wrap64 (a * b)
  | .shlWrap => if b ≥ constBits t then 0 else wrap64 (a * 2 ^ b)
  | .plusSat => arithSaturate .add a b (constBits t) isSigned
  | .minusSat => arithSaturate .sub a b (constBits t) isSigned
  | .starSat => arithSaturate .mul a b (constBits t) isSigned
  | .mulHigh => arithMulHigh a b bits isSigned
  | .amp => a &&& b
  | .pipe => a ||| b
  | .caret => a ^^^ b
  | .slash =>
    if isSigned then toBits64 ((arithSigned a 64).tdiv (arithSigned b 64))
    else a / b
  | .percent =>
    if isSigned then toBits64 ((arithSigned a 64).tmod (arithSigned b 64))
    else a % b
  | .shl => wrap64 (a * 2 ^ b)
  | .shr =>
    -- The sign of a signed value comes in from the left, by the shift of its
    -- complement.
    if isSigned then
      if a / 2 ^ 63 ≠ 0 then 2 ^ 64 - 1 - (2 ^ 64 - 1 - a) / 2 ^ b
      else a / 2 ^ b
    else a % 2 ^ bits / 2 ^ b
  | _ => 0

/-- The float operation of the operator. -/
def BinaryOp.float : BinaryOp → FloatOp
  | .plus => .add
  | .minus => .sub
  | .star => .mul
  | _ => .div

/-- `const_binary` of the values of both operands, the left of type `t`. -/
def constBinary {F : Type} (ops : FloatOps F) (op : BinaryOp) (t : Ty)
    (flags : Bool) (a b : Value F) : Option (Value F) :=
  if binaryUndefined op t flags a b then none
  else if op = .mulHigh ∧ typesIsTargetSized t.base then none
  else if op.isComparison then some (.bool (constCompare ops op t.isSigned a b))
  else
    match t, a, b with
    | .float t, .float x, .float y =>
      let z := ops.arith op.float x y
      some (.float (if t = .f32 then ops.toSingle z else z))
    | .int t, _, _ => fitsEveryTarget t (wrap t (constInteger op t a.integer b.integer))
    | _, _, _ => none

mutual

/-- `const_elements`: the scalar elements of a value of the type. -/
def constElements : Ty → Nat
  | .array element length => length * constElements element
  | .struct _ fields => constElementsOf fields
  | _ => 1

def constElementsOf : Fields → Nat
  | .nil => 0
  | .cons t ts => constElements t + constElementsOf ts

end

/-- `CONST_ELEMENTS_MAX`. -/
def constElementsMax : Nat := 2 ^ 20

def Expr.isLiteral {F : Type} : Expr F → Bool
  | .int _ _ => true
  | _ => false

/-- The items of a value at an index: `const_field` reads those of a struct and
    `const_index` those of an array. -/
def Value.field? {F : Type} : Value F → Nat → Option (Value F)
  | .struct _ items, i => items[i]?
  | _, _ => none

def Value.element? {F : Type} : Value F → Nat → Option (Value F)
  | .array _ items, i => items[i]?
  | _, _ => none

mutual

/-- `sema_eval_const`. -/
def semaEvalConst {F : Type} (ops : FloatOps F) : Expr F → Option (Value F)
  | .int t n => some (.int (.int t) (wrap t n))
  | .float _ x => some (.float x)
  | .char c => some (.char c)
  | .bool b => some (.bool b)
  | .none _ => some .null
  | .string bytes => some (.text bytes)
  | .name value => semaEvalConst ops value
  | .enumValue id base number => some (.int (.enum id base) number)
  | .cast result operand => do
      let a ← semaEvalConst ops operand
      if operand.type = result then some a else constAs ops result a
  | .unary op flags operand => do
      let a ← semaEvalConst ops operand
      constUnary ops op operand.type flags operand.isLiteral a
  | .binary op flags left right => do
      let a ← semaEvalConst ops left
      match op, a with
      | .questionQuestion, _ => none
      | .andAnd, .bool false => some a
      | .orOr, .bool true => some a
      | .andAnd, _ => semaEvalConst ops right
      | .orOr, _ => semaEvalConst ops right
      | _, _ =>
        let b ← semaEvalConst ops right
        constBinary ops op left.type flags a b
  | .array _ node elements => do
      some (.array node (← semaEvalConsts ops elements))
  | .arrayRepeat node length value =>
    if constElements (.array value.type length) > constElementsMax then none
    else do
      let a ← semaEvalConst ops value
      some (.array node (List.replicate length a))
  | .struct _ _ node values => do
      some (.struct node (← semaEvalConsts ops values))
  | .field base index => do (← semaEvalConst ops base).field? index
  | .len base =>
    match base with
    | .string bytes => some (.int (.int .i64) bytes.length)
    | base => do
        let a ← semaEvalConst ops base
        match base.type, a with
        | .str, .text bytes => some (.int (.int .i64) bytes.length)
        | .array _ length, _ => some (.int (.int .i64) length)
        | _, _ => none
  | .index base index => do
      let a ← semaEvalConst ops base
      let b ← semaEvalConst ops index
      a.element? b.integer
  | .inRange value low high => do
      -- `value >= low && value < high`, with the value in both.
      if !(value.type.isNumeric || value.type = .char) then none
      let a ← semaEvalConst ops value
      let b ← semaEvalConst ops low
      if constCompare ops .ge value.type.isSigned a b then
        let a ← semaEvalConst ops value
        let c ← semaEvalConst ops high
        some (.bool (constCompare ops .lt value.type.isSigned a c))
      else some (.bool false)
  | .other _ => none

/-- `const_items`. -/
def semaEvalConsts {F : Type} (ops : FloatOps F) : List (Expr F) → Option (List (Value F))
  | [] => some []
  | e :: es => do
      let v ← semaEvalConst ops e
      some (v :: (← semaEvalConsts ops es))

end

end AnticConst
