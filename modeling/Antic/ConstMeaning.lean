import Antic.ConstEval
import Antic.IrArith

/-! # What the program computes

    The meaning of an expression where it runs, on one target: an integer is a number of the width
    and the signedness its type has there, and an operation that a dev build stops has no value.
    `c_wchar` is signed where `wchar_t` is, as `layout_resolve` makes its operations.  `parts` are
    the expressions that are evaluated on the way. -/

namespace AnticConst

open AnticIr MachineInt

/-! ## Integers of a target -/

/-- The width and the signedness of an integer type on a target. -/
structure Width where
  bits : Nat
  isSigned : Bool
  deriving DecidableEq, Repr

/-- `lower_ir_type_of` of the integer types. -/
def lowerIrTypeOf : IntType → IrType
  | .i8 | .u8 => .i8
  | .i16 | .u16 => .i16
  | .i32 | .u32 => .i32
  | .i64 | .u64 => .i64
  | .clong | .culong => .clong
  | .cwchar => .cwchar

/-- The type on the target; `c_wchar` has the signedness of `wchar_t`. -/
def IntType.on (t : IntType) (target : Target) : Width :=
  ⟨irFoldBits (target.type (lowerIrTypeOf t)),
    typesIsSigned t || (t = .cwchar && target.wcharSigned)⟩

/-- The number that the bits of a constant of the type stand for. -/
def IntType.number (t : IntType) (v : Nat) : Int :=
  if typesIsSigned t then arithSigned v 64 else v

namespace Width

variable (w : Width)

def Holds (z : Int) : Prop := lowest w.bits w.isSigned ≤ z ∧ z ≤ highest w.bits w.isSigned

instance (z : Int) : Decidable (w.Holds z) := inferInstanceAs (Decidable (_ ∧ _))

/-- The value modulo `2 ^ bits`. -/
def wrap (z : Int) : Int :=
  if w.isSigned then signed w.bits (MachineInt.bits w.bits z)
  else MachineInt.bits w.bits z

def clamp (z : Int) : Int :=
  MachineInt.clamp (lowest w.bits w.isSigned) (highest w.bits w.isSigned) z

/-- The exact result, which has no value outside the range; the operation of
    the flags form wraps. -/
def plain (flags : Bool) (z : Int) : Option Int :=
  if w.Holds z then some z else if flags then some (w.wrap z) else none

/-- A bitwise operation on the bits of both. -/
def bitwise (f : Nat → Nat → Nat) (x y : Int) : Int :=
  w.wrap (f (MachineInt.bits w.bits x) (MachineInt.bits w.bits y))

end Width

/-- The integer operation `op` on values of width `w`. -/
def runInteger (w : Width) (op : BinaryOp) (flags : Bool) (x y : Int) :
    Option Int :=
  match op with
  | .plus => w.plain flags (x + y)
  | .minus => w.plain flags (x - y)
  | .star => w.plain flags (x * y)
  | .plusWrap => some (w.wrap (x + y))
  | .minusWrap => some (w.wrap (x - y))
  | .starWrap => some (w.wrap (x * y))
  | .plusSat => some (w.clamp (x + y))
  | .minusSat => some (w.clamp (x - y))
  | .starSat => some (w.clamp (x * y))
  | .mulHigh => some (x * y / 2 ^ w.bits)
  | .slash => if y = 0 ∨ ¬ w.Holds (x.tdiv y) then none else some (x.tdiv y)
  | .percent => if y = 0 ∨ ¬ w.Holds (x.tdiv y) then none else some (x.tmod y)
  | .amp => some (w.bitwise (· &&& ·) x y)
  | .pipe => some (w.bitwise (· ||| ·) x y)
  | .caret => some (w.bitwise (· ^^^ ·) x y)
  | .shl =>
    -- The bits that leave the type are no overflow.
    if 0 ≤ y ∧ y < w.bits then some (w.wrap (x * 2 ^ y.toNat)) else none
  | .shlWrap =>
    if y < 0 then none
    else if y < w.bits then some (w.wrap (x * 2 ^ y.toNat)) else some 0
  | .shr => if 0 ≤ y ∧ y < w.bits then some (x / 2 ^ y.toNat) else none
  | _ => none

/-! ## Values -/

/-- A value where the program runs.  `node` tells which literal made an array
    or a struct, and no operation of the program reads it. -/
inductive RunValue (F : Type) where
  | int (z : Int)
  | bool (boolean : Bool)
  | char (character : Nat)
  | float (floating : F)
  | null
  | text (bytes : List UInt8)
  | array (node : Nat) (items : List (RunValue F))
  | struct (node : Nat) (items : List (RunValue F))

mutual

/-- The default `==`: the parts of an array and of a struct one by one. -/
def RunValue.equal {F : Type} (ops : FloatOps F) : RunValue F → RunValue F → Bool
  | .int x, .int y => x = y
  | .bool a, .bool b => a = b
  | .char a, .char b => a = b
  | .float x, .float y => !ops.isNan x && !ops.isNan y && ops.compare x y = .eq
  | .null, .null => true
  | .text a, .text b => a = b
  | .array _ a, .array _ b => RunValue.equalAll ops a b
  | .struct _ a, .struct _ b => RunValue.equalAll ops a b
  | _, _ => false

def RunValue.equalAll {F : Type} (ops : FloatOps F) : List (RunValue F) → List (RunValue F) → Bool
  | [], [] => true
  | a :: as, b :: bs => a.equal ops b && RunValue.equalAll ops as bs
  | _, _ => false

end

/-- The literal an array or a struct was made by. -/
def RunValue.node? {F : Type} : RunValue F → Option Nat
  | .array node _ | .struct node _ => some node
  | _ => none

/-- The comparison `op`. -/
def runCompare {F : Type} (ops : FloatOps F) (op : BinaryOp) (a b : RunValue F) : Option Bool :=
  match a, b with
  | .int x, .int y => some (op.answer (compare x y))
  | .bool x, .bool y => some (op.answer (compare x.toNat y.toNat))
  | .char x, .char y => some (op.answer (compare x y))
  | .float x, .float y =>
    some (if ops.isNan x ∨ ops.isNan y then op = .ne
      else op.answer (ops.compare x y))
  | .text x, .text y => some (op.answer (compareText x y))
  | .null, .null => some (op.answer .eq)
  | a, b =>
    match op with
    | .eq => some (a.equal ops b)
    | .ne => some (!a.equal ops b)
    | _ => none

/-- `as` to the type `result`. -/
def runAs {F : Type} (target : Target) (ops : FloatOps F) (result : Ty)
    (a : RunValue F) : Option (RunValue F) :=
  let held (t : IntType) (z : Int) : Option (RunValue F) :=
    if (t.on target).Holds z then some (.int z) else none
  match result, a with
  | .float .f16, .float x => some (.float (ops.toHalf (ops.toSingle x)))
  | .float .f32, .float x => some (.float (ops.toSingle x))
  | .float .f64, .float x => some (.float x)
  | .float t, .int z => some (.float (ops.ofInt (decide (t = .f32)) z))
  | .int t, .float x => (ops.trunc x).bind (held t)
  | .int t, .bool b => held t b.toNat
  | .int t, .char c => held t c
  | .int t, .int z => held t z
  | .char, .int z =>
    if 0 ≤ z ∧ isScalarValue z.toNat then some (.char z.toNat) else none
  | _, _ => none

/-- A unary operator on the value of an operand of type `t`. -/
def runUnary {F : Type} (target : Target) (ops : FloatOps F) (op : UnaryOp)
    (t : Ty) (flags : Bool) (a : RunValue F) : Option (RunValue F) :=
  match op, t, a with
  | .bang, _, .bool b => some (.bool (!b))
  | .tilde, .int t, .int z => some (.int ((t.on target).wrap (-z - 1)))
  | .minus, _, .float x => some (.float (ops.neg x))
  | .minus, .int t, .int z => ((t.on target).plain flags (-z)).map .int
  | _, _, _ => none

/-- The number that an integer operand adds: a carry is a `bool`. -/
def RunValue.number? {F : Type} : RunValue F → Option Int
  | .int z => some z
  | .bool b => some b.toNat
  | _ => none

/-- A binary operator on the values of both operands, the left of type `t`. -/
def runBinary {F : Type} (target : Target) (ops : FloatOps F) (op : BinaryOp)
    (t : Ty) (flags : Bool) (a b : RunValue F) : Option (RunValue F) :=
  if op.isComparison then (runCompare ops op a b).map .bool
  else
    match t, a, b with
    | .float t, .float x, .float y =>
      let z := ops.arith op.float x y
      some (.float (if t = .f32 then ops.toSingle z else z))
    | .int t, a, b => do
        let x ← a.number?
        let y ← b.number?
        (runInteger (t.on target) op flags x y).map .int
    | _, _, _ => none

def RunValue.field? {F : Type} : RunValue F → Nat → Option (RunValue F)
  | .struct _ items, i => items[i]?
  | _, _ => none

/-- An element at an index, which stands inside the array. -/
def RunValue.element? {F : Type} : RunValue F → RunValue F → Option (RunValue F)
  | .array _ items, .int z => if 0 ≤ z then items[z.toNat]? else none
  | _, _ => none

/-! ## Expressions -/

mutual

/-- The value of an expression where it runs. -/
def run {F : Type} (target : Target) (ops : FloatOps F) : Expr F → Option (RunValue F)
  | .int t n => some (.int ((t.on target).wrap n))
  | .float _ x => some (.float x)
  | .char c => some (.char c)
  | .bool b => some (.bool b)
  | .none _ => some .null
  | .string bytes => some (.text bytes)
  | .name value => run target ops value
  | .enumValue _ base number => some (.int (base.number number))
  | .cast result operand => do
      let a ← run target ops operand
      if operand.type = result then some a else runAs target ops result a
  | .unary op flags operand =>
    match op, operand with
    -- A `-` directly before a literal forms one constant.
    | .minus, .int t n => some (.int ((t.on target).wrap (-n)))
    | op, operand => do
        let a ← run target ops operand
        runUnary target ops op operand.type flags a
  | .binary op flags left right => do
      let a ← run target ops left
      match op, a with
      | .questionQuestion, _ => none
      | .andAnd, .bool false => some a
      | .orOr, .bool true => some a
      | .andAnd, _ => run target ops right
      | .orOr, _ => run target ops right
      | _, _ =>
        let b ← run target ops right
        runBinary target ops op left.type flags a b
  | .array _ node elements => do
      some (.array node (← runAll target ops elements))
  | .arrayRepeat node length value => do
      some (.array node (List.replicate length (← run target ops value)))
  | .struct _ _ node values => do
      some (.struct node (← runAll target ops values))
  | .field base index => do (← run target ops base).field? index
  | .len base => do
      match ← run target ops base with
      | .text bytes => some (.int bytes.length)
      | .array _ items => some (.int items.length)
      | _ => none
  | .index base index => do
      let a ← run target ops base
      let b ← run target ops index
      a.element? b
  | .inRange value low high => do
      let a ← run target ops value
      let b ← run target ops low
      if ← runCompare ops .ge a b then
        let c ← run target ops high
        some (.bool (← runCompare ops .lt a c))
      else some (.bool false)
  | .other _ => none

def runAll {F : Type} (target : Target) (ops : FloatOps F) :
    List (Expr F) → Option (List (RunValue F))
  | [] => some []
  | e :: es => do
      let v ← run target ops e
      some (v :: (← runAll target ops es))

end

/-- Whether the right operand of `op` is evaluated after the left one gave `a`. -/
def BinaryOp.goesOn {F : Type} (op : BinaryOp) (a : Option (RunValue F)) : Bool :=
  match op, a with
  | .andAnd, some (.bool false) => false
  | .orOr, some (.bool true) => false
  | _, _ => true

mutual

/-- The expression and the parts of it that are evaluated where it runs. -/
def parts {F : Type} (target : Target) (ops : FloatOps F) : Expr F → List (Expr F)
  | .name value => .name value :: parts target ops value
  | .cast result operand => .cast result operand :: parts target ops operand
  | .unary op flags operand =>
    .unary op flags operand :: (match op, operand with
      | .minus, .int _ _ => []
      | _, operand => parts target ops operand)
  | .binary op flags left right =>
    .binary op flags left right :: (parts target ops left ++
        if op.goesOn (run target ops left) then parts target ops right else [])
  | .array element node elements => .array element node elements :: partsAll target ops elements
  | .arrayRepeat node length value => .arrayRepeat node length value :: parts target ops value
  | .struct id fields node values => .struct id fields node values :: partsAll target ops values
  | .field base index => .field base index :: parts target ops base
  | .len base => .len base :: parts target ops base
  | .index base index => .index base index :: (parts target ops base ++ parts target ops index)
  | .inRange value low high =>
    .inRange value low high :: (parts target ops value ++ parts target ops low ++
        (match run target ops value, run target ops low with
        | some a, some b =>
          if runCompare ops .ge a b = some true then parts target ops high
          else []
        | _, _ => []))
  | e => [e]

def partsAll {F : Type} (target : Target) (ops : FloatOps F) : List (Expr F) → List (Expr F)
  | [] => []
  | e :: es => parts target ops e ++ partsAll target ops es

end

/-! ## What a constant stands for -/

mutual

/-- The value that a constant stands for. -/
def Value.read {F : Type} : Value F → RunValue F
  | .int t n => .int (t.base.number n)
  | .bool b => .bool b
  | .char c => .char c
  | .float x => .float x
  | .null => .null
  | .text bytes => .text bytes
  | .array node items => .array node (Value.readAll items)
  | .struct node items => .struct node (Value.readAll items)

def Value.readAll {F : Type} : List (Value F) → List (RunValue F)
  | [] => []
  | v :: vs => v.read :: Value.readAll vs

end

/-- The constant of `e` is the value that the program computes on the target, and both have one. -/
def Agrees {F : Type} (target : Target) (ops : FloatOps F) (e : Expr F) : Prop :=
  ∃ v, semaEvalConst ops e = some v ∧ run target ops e = some v.read

/-- A `-|` of `c_wchar` below zero, where `wchar_t` is signed. -/
def borrows {F : Type} (target : Target) (ops : FloatOps F) : Expr F → Bool
  | .binary .minusSat _ left right =>
    match left.type, run target ops left, run target ops right with
    | .int .cwchar, some (.int x), some (.int y) => target.wcharSigned && decide (x < y)
    | _, _, _ => false
  | _ => false

/-- Two arrays or structs whose parts are equal though two literals made them,
    or not equal though one did. -/
def placesMislead {F : Type} (ops : FloatOps F) (a b : RunValue F) : Bool :=
  match a.node?, b.node? with
  | some i, some j => decide (i = j) != a.equal ops b
  | _, _ => false

/-- A comparison of two such values. -/
def comparesPlaces {F : Type} (target : Target) (ops : FloatOps F) : Expr F → Bool
  | .binary op _ left right =>
    match run target ops left, run target ops right with
    | some a, some b => op.isComparison && placesMislead ops a b
    | _, _ => false
  | _ => false

/-! ## What the checker promises -/

/-- `max_of`. -/
def maxOf (t : IntType) : Nat :=
  if typesIsSigned t then 2 ^ (typesBits t - 1) - 1 else 2 ^ typesBits t - 1

/-- The number is a value of the type on every target, as a constant writes it. -/
def heldNumber (t : IntType) (v : Nat) : Bool :=
  decide (v < 2 ^ 64) && wrap t v == v && oneValue t v

/-- `can_convert`, of two types that are not the same. -/
def canConvert (source result : Ty) : Bool :=
  let form : Ty → Ty
    | .enum _ base => .int base
    | t => t
  match form source, form result with
  | .float .f16, t => t = .float .f16 ∨ t = .float .f32
  | t, .float .f16 => t = .float .f32
  | .bool, .int _ => true
  | .char, .int .u32 => true
  | .int .u32, .char => true
  | .pointer _, .pointer _ => true
  | source, result => source.isNumeric && result.isNumeric

/-- The operand types that the operator takes. -/
def operandsFit {F : Type} (op : BinaryOp) (left right : Expr F) : Bool :=
  match op with
  | .andAnd | .orOr => left.type = .bool ∧ right.type = .bool
  | .eq | .ne => decide (left.type = right.type ∧ left.type ≠ .float .f16)
  | .lt | .le | .gt | .ge =>
    decide (left.type = right.type) &&
      (left.type.isNumeric || left.type = .char || left.type = .str)
  | .plus | .minus =>
    (decide (left.type = right.type) && left.type.isNumeric) ||
      -- A carry goes into an integer.
      (match left.type, right with
      | .int _, .field base i => base.type.fieldType i = .bool
      | _, _ => false)
  | .star | .slash => decide (left.type = right.type) && left.type.isNumeric
  | .questionQuestion => true
  | _ =>
    match left.type with
    | .int t => right.type = .int t
    | _ => false

mutual

/-- The checks of a constant expression that the evaluation relies on. -/
def checked {F : Type} : Expr F → Bool
  | .int t n => decide (n ≤ maxOf t)
  | .char c => isScalarValue c
  | .float _ _ | .bool _ | .none _ | .other _ => true
  | .string bytes => decide (bytes.length ≤ maxOf .i64)
  | .name value => checked value
  | .enumValue _ base number => heldNumber base number
  | .cast result operand =>
    checked operand && (decide (operand.type = result) || canConvert operand.type result)
  | .unary op _ operand =>
    match op, operand with
    | .minus, .int t n =>
      if typesIsSigned t then decide (n ≤ maxOf t + 1) else decide (n = 0)
    | op, operand =>
      checked operand && (match op, operand.type with
        | .minus, .int t => typesIsSigned t
        | .minus, .float t => t ≠ .f16
        | .bang, .bool => true
        | .tilde, .int _ => true
        | _, _ => false)
  | .binary op _ left right => checked left && checked right && operandsFit op left right
  | .array element _ elements =>
    decide (elements.length ≤ maxOf .i64) && checkedAll elements &&
      elements.all fun e => e.type = element
  | .arrayRepeat _ length value => decide (length ≤ maxOf .i64) && checked value
  | .struct _ fields _ values => checkedAll values && typesFit fields values
  | .field base i =>
    checked base && (match base.type with
      | .struct _ fields => (fields.get? i).isSome
      | _ => false)
  | .len base =>
    checked base && (match base.type with
      | .str | .array _ _ => true
      | _ => false)
  | .index base index =>
    checked base && checked index && (match base.type, index.type with
      | .array _ _, .int _ => true
      | _, _ => false)
  | .inRange value low high =>
    checked value && checked low && checked high &&
      decide (low.type = value.type) && decide (high.type = value.type)

def checkedAll {F : Type} : List (Expr F) → Bool
  | [] => true
  | e :: es => checked e && checkedAll es

/-- Each value has the type of its field. -/
def typesFit {F : Type} : Fields → List (Expr F) → Bool
  | .nil, [] => true
  | .cons t ts, e :: es => decide (e.type = t) && typesFit ts es
  | _, _ => false

end

end AnticConst
