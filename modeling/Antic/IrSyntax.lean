import Mathlib.Logic.Basic

/-! # The intermediate representation of antic

    Typed three-address code in functions of basic blocks, as `ir.h` declares it.  A type of the
    source keeps its fields and their names; a C array with its count is a `List`, a name is the
    list of its bytes, and a pointer that may be `NULL` is an `Option`.

    * The union inside an operand is ONE number, `val`: the temporary, the integer, the bits of the
      double or the index.  The passes read a member of the union without looking at the kind in a
      few places, and the number models that.
    * The sentinels `IR_NO_AGG`, `IR_NO_RESULT` and `IR_NO_INDEX` are the number `UINT32_MAX`, as in
      the source, since a library file holds them as bytes. -/

namespace AnticIr

/-- The bytes of a C string, without the NUL. -/
abbrev CName := List UInt8

/-- `UINT32_MAX`. -/
def uint32Max : Nat := 4294967295

/-- `UINT64_MAX`. -/
def uint64Max : Nat := 18446744073709551615

def irNoAgg : Nat := uint32Max
def irNoResult : Nat := uint32Max
def irNoIndex : Nat := uint32Max

/-- `enum ir_type`: the scalar value types. -/
inductive IrType where
  | void | i8 | i16 | i32 | i64 | f32 | f64 | ptr | agg | clong | cwchar | lock
  deriving DecidableEq, Repr, Inhabited

/-- `type >= IR_I8 && type <= IR_I64`. -/
def isFixedInt : IrType → Bool
  | .i8 | .i16 | .i32 | .i64 => true
  | _ => false

/-- `struct ir_vtype`: the type of a value in memory. -/
structure IrVtype where
  type : IrType
  agg : Nat
  deriving DecidableEq, Repr, Inhabited

/-- `ir_scalar`. -/
def irScalar (type : IrType) : IrVtype := ⟨type, irNoAgg⟩

/-- `ir_aggregate`. -/
def irAggregate (agg : Nat) : IrVtype := ⟨.agg, agg⟩

inductive IrAggKind where
  | struct | union | array
  deriving DecidableEq, Repr, Inhabited

inductive IrExt where
  | none | sign | zero
  deriving DecidableEq, Repr, Inhabited

/-- `struct ir_field`: a field of a struct or union, or the element of an array. -/
structure IrField where
  name : Option CName
  type : IrVtype
  bits : Nat
  ext : IrExt
  atomic : Bool
  deriving DecidableEq, Repr, Inhabited

/-- `struct ir_aggtype`. -/
structure IrAggtype where
  kind : IrAggKind
  name : CName
  fields : List IrField
  packed : Bool
  simd : Bool
  align : Nat
  length : Nat
  lengthText : Option CName
  deriving DecidableEq, Repr, Inhabited

/-- `ir_bitfield_fits`: a bitfield has an integer type of a fixed width and no more bits than it. -/
def irBitfieldFits (f : IrField) : Bool :=
  match f.type.type with
  | .i8 => f.bits ≤ 8
  | .i16 => f.bits ≤ 16
  | .i32 => f.bits ≤ 32
  | .i64 => f.bits ≤ 64
  | _ => false

/-- `ir_lane_bytes`. -/
def irLaneBytes : IrType → Nat
  | .i8 => 1
  | .i16 => 2
  | .i32 | .f32 => 4
  | .i64 | .f64 => 8
  | _ => 0

/-- `simd_shape`. -/
def simdShape (laneBytes count : Nat) (mask : Bool) : Bool :=
  laneBytes ≠ 0 && count ≠ 0 && (count &&& (count - 1)) = 0 && (mask || laneBytes * count % 8 = 0)

/-- `antl_verify_simd_agg`: the shape the checker gives a `simd struct`. -/
def verifySimdAgg (t : IrAggtype) : Bool :=
  match t.fields with
  | [] => false
  | f :: _ =>
    t.kind = .struct && !t.packed && t.align = 0 &&
    (t.fields.all fun g => g.type.type = f.type.type && g.bits = 0 &&
      g.ext = .none && g.name.isSome && g.name ≠ some [95]) &&
    simdShape (irLaneBytes f.type.type) t.fields.length (f.type.type = .i8)

/-- An aggregate as `ir_struct_add`, `ir_simd_add` and `ir_array_add` make it from what the checker
    or `read_tables` accepts: bitfields fit their types, a simd struct has its shape, and an array
    has one field and no alignment of its own. -/
def aggOk (t : IrAggtype) : Bool :=
  (t.fields.all fun f => f.bits = 0 || irBitfieldFits f) &&
  (!t.simd || verifySimdAgg t) &&
  (t.kind ≠ .array || (t.fields.length = 1 && t.align = 0 && !t.simd)) &&
  t.align ≤ uint64Max

/-- `enum ir_op`, in the order of the source. -/
inductive IrOp where
  | add | sub | mul | sdiv | udiv | srem | urem
  | and | or | xor | shl | shrS | shrU
  | fadd | fsub | fmul | fdiv
  | neg | not | fneg | copy
  | eq | ne | slt | sle | sgt | sge | ult | ule | ugt | uge
  | feq | fne | flt | fle | fgt | fge
  | addOv | subOv | mulOv
  | mulhS | mulhU
  | addSatS | addSatU | subSatS | subSatU | mulSatS | mulSatU
  | addFl | subFl | mulFl | shlFl | shrSFl | shrUFl | negFl
  | flag
  | trunc | sext | zext | sitof | uitof | ftosi | ftoui | fext | ftrunc
  | hext | htrunc
  | slot | load | store | ptradd | memcopy | addr | bitload | bitstore
  | vbinary | vunary | vsplat | vselect | vshuffle | vreduce
  | lifeStart | lifeEnd
  | call
  | jump | branch | branchOv | ret | unreachable
  deriving DecidableEq, Repr, Inhabited

inductive IrSymKind where
  | int | sizeOf | offsetOf | op
  deriving DecidableEq, Repr, Inhabited

/-- `struct ir_sym`: an integer that depends on the target.  `op` is the number
    of an `enum ir_op`. -/
structure IrSym where
  kind : IrSymKind
  type : IrType
  value : Nat
  of : IrVtype
  field : Nat
  op : IrOp
  a : Nat
  b : Nat
  deriving DecidableEq, Repr, Inhabited

inductive IrOperandKind where
  | none | temp | int | float | global | func | block | sym
  deriving DecidableEq, Repr, Inhabited

/-- `struct ir_operand`.  `val` is the union `as`. -/
structure IrOperand where
  kind : IrOperandKind
  type : IrType
  val : Nat
  deriving DecidableEq, Repr, Inhabited

/-- The operand that is absent. -/
def IrOperand.absent : IrOperand := ⟨.none, .void, 0⟩

/-- `struct ir_inst`. -/
structure IrInst where
  op : IrOp
  type : IrType
  line : Nat := 0
  result : Nat := irNoResult
  a : IrOperand := .absent
  b : IrOperand := .absent
  c : IrOperand := .absent
  of : IrVtype := irScalar .void
  field : Nat := 0
  member : Nat := 0
  args : List IrOperand := []
  deriving DecidableEq, Repr, Inhabited

/-- The type of the temporary that `ir.c` makes for a result: `ir_call` gives the
    address of an aggregate. -/
def IrInst.tempType (inst : IrInst) : IrType :=
  if inst.op = .call ∧ inst.type = .agg then .ptr else inst.type

theorem IrInst.tempType_of_ne {inst : IrInst} (h : inst.op ≠ .call) : inst.tempType = inst.type :=
  if_neg fun hc => h hc.1

inductive IrFail where
  | none | assert | check | guard
  deriving DecidableEq, Repr, Inhabited

/-- `struct ir_block`.  Its index is its place in the function. -/
structure IrBlock where
  insts : List IrInst
  fail : IrFail := .none
  deriving DecidableEq, Repr, Inhabited

/-- `struct ir_param`. -/
structure IrParam where
  type : IrType
  ext : IrExt := .none
  agg : Nat := irNoAgg
  temp : Nat
  nonnull : Bool := false
  own : Bool := false
  derefSize : Nat := irNoIndex
  deriving DecidableEq, Repr, Inhabited

inductive IrEffects where
  | any | none | readsArgs | writesArgs
  deriving DecidableEq, Repr, Inhabited

/-- `struct ir_function`.  Its index is its place in the module. -/
structure IrFunction where
  file : Nat := irNoIndex
  declLine : Nat := 0
  module : Option CName
  name : CName
  unit : Option CName := .none
  params : List IrParam := []
  result : IrType
  resultAgg : Nat := irNoAgg
  resultExt : IrExt := .none
  allocates : Bool := false
  resultRange : Bool := false
  resultLow : Nat := 0
  resultHigh : Nat := 0
  isExtern : Bool := false
  variadic : Bool := false
  exported : Bool := false
  byName : Bool := false
  resultOfC : Bool := false
  worker : Bool := false
  neverReturns : Bool := false
  effects : IrEffects := .any
  guarantees : Nat := 0
  writesTables : Bool := false
  blocks : List IrBlock := []
  temps : List IrType := []
  deriving DecidableEq, Repr, Inhabited

/-- `struct ir_reloc`. -/
structure IrReloc where
  offset : Nat
  global : Nat
  fn : Bool
  deriving DecidableEq, Repr, Inhabited

inductive IrConstKind where
  | none | int | float | sym | addr | func | agg
  deriving DecidableEq, Repr, Inhabited

/-- `struct ir_const`: an aggregate constant as a typed tree.  `val` holds the integer, the bits of
    the float, the symbolic value, the global or the function, whichever the kind names. -/
inductive IrConst where
  | mk (kind : IrConstKind) (type : IrVtype) (scalar : IrType) (val : Nat) (items : List IrConst)
  deriving Repr, Inhabited

/-- `struct ir_global`.  Its index is its place in the module. -/
structure IrGlobal where
  module : Option CName
  name : CName
  unit : Option CName := .none
  bytes : List UInt8 := []
  size : Nat := 0
  align : Nat := 0
  relocs : List IrReloc := []
  value : Option IrConst := .none
  mutable : Bool := false
  exported : Bool := false
  isExtern : Bool := false
  dropped : Bool := false
  deriving Repr, Inhabited

/-- `struct ir_subtable`. -/
structure IrSubtable where
  interface : Nat
  table : Nat
  agg : Nat
  field : Nat
  deriving DecidableEq, Repr, Inhabited

/-- `struct ir_inject`. -/
structure IrInject where
  interface : CName
  field : CName
  descriptor : Nat
  final : Bool
  deriving DecidableEq, Repr, Inhabited

/-- `struct ir_provides`. -/
structure IrProvides where
  interface : CName
  descriptor : Nat
  deriving DecidableEq, Repr, Inhabited

/-- `struct ir_class`. -/
structure IrClass where
  module : CName
  name : CName
  flags : Nat := 0
  descriptor : Nat := irNoIndex
  base : Nat := irNoIndex
  table : Nat := irNoIndex
  init : Nat := irNoIndex
  agg : Nat := irNoAgg
  subtables : List IrSubtable := []
  mutableFields : List Nat := []
  injects : List IrInject := []
  provides : List IrProvides := []
  deriving DecidableEq, Repr, Inhabited

/-- `struct ir_module`, with what the passes here read. -/
structure IrModule where
  files : List CName := []
  aggs : List IrAggtype := []
  syms : List IrSym := []
  functions : List IrFunction := []
  globals : List IrGlobal := []
  classes : List IrClass := []
  deriving Repr, Inhabited

end AnticIr
