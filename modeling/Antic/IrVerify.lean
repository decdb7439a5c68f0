import Antic.IrFold
import Antic.IrVerifyClasses
import Mathlib.Data.Finset.Card

/-! # The check of a function — `ir_verify`

    What every later stage relies on: each block ends with exactly one terminator, every operand
    refers to something that exists, operand types agree with their instruction, and every path to a
    use of a temporary passes a definition of it.  A check here is the answer of the source's; the
    texts of the errors are left out. -/

namespace AnticIr

/-- The number of an operation in `enum ir_op`. -/
def IrOp.num (op : IrOp) : Nat := op.ctorIdx

/-- `is_overflow`. -/
def isOverflow (op : IrOp) : Bool := op = .addOv ∨ op = .subOv ∨ op = .mulOv

/-- `is_flag_operation`. -/
def isFlagOperation : IrOp → Bool
  | .addFl | .subFl | .mulFl | .shlFl | .shrSFl | .shrUFl | .negFl => true
  | _ => false

/-- `is_terminator`. -/
def isTerminator : IrOp → Bool
  | .jump | .branch | .branchOv | .ret | .unreachable => true
  | _ => false

/-- The operands of an instruction, in the order of `operand`. -/
def IrInst.operands (inst : IrInst) : List IrOperand := inst.a :: inst.b :: inst.c :: inst.args

/-- All instructions of a function. -/
def IrFunction.insts (f : IrFunction) : List IrInst := f.blocks.flatMap IrBlock.insts

section Verify

variable (m : IrModule) (f : IrFunction)

/-- `operand_ok`. -/
def operandOk (o : IrOperand) : Bool :=
  match o.kind with
  | .temp => o.val < f.temps.length
  | .block => o.val < f.blocks.length
  | .func => o.val < m.functions.length
  | .global => o.val < m.globals.length
  | .sym => o.val < m.syms.length
  | _ => true

/-- `indices_ok`. -/
def indicesOk (inst : IrInst) : Bool :=
  (inst.result = irNoResult || inst.result < f.temps.length) &&
  inst.operands.all (operandOk m f)

/-- `params_ok`. -/
def paramsOk : Bool := f.params.all fun p => p.temp < f.temps.length

/-- `facts_ok`. -/
def factsOk : Bool :=
  (f.resultExt = .none || f.result = .i8 || f.result = .i16) &&
  (!f.allocates || (f.result = .ptr && f.isExtern)) &&
  (!f.resultRange || (isFixedInt f.result &&
    (irIntOp f.result f.resultLow).val ≠ (irIntOp f.result f.resultHigh).val)) &&
  f.params.all fun p =>
    (p.derefSize = irNoIndex || (p.nonnull && p.derefSize < m.syms.length)) &&
    (p.type = .ptr || (!p.nonnull && !p.own && p.derefSize = irNoIndex))

/-- `target_ok`. -/
def targetOk (o : IrOperand) : Bool := o.kind = .block

/-- `vtype_ok`. -/
def vtypeOk (inst : IrInst) : Bool :=
  inst.of.type ≠ .void && (inst.of.type ≠ .agg || inst.of.agg < m.aggs.length)

/-- `type_of`. -/
def typeOf (o : IrOperand) : IrType :=
  if o.kind = .temp then f.temps.getD o.val .void else o.type

/-- `same_type`. -/
def sameType (o : IrOperand) (expected : IrType) : Bool :=
  o.kind = .none || !operandOk m f o || typeOf f o = expected

/-- `access`. -/
def accessKindOk (inst : IrInst) : Bool :=
  inst.field ≤ 2 && !(inst.op = .store && inst.field = 2) &&
  (inst.field = 0 || inst.type = .ptr)

/-- `access_type`. -/
def accessTypeOk (inst : IrInst) : Bool :=
  inst.of.type = .void ||
  (inst.type ≠ .i8 && inst.type ≠ .lock && inst.type ≠ .agg &&
    inst.type ≠ .void && inst.field = 0 &&
    if inst.of.type ≠ .agg then inst.of.type = inst.type
    else
      match m.aggs[inst.of.agg]? with
      | none => false
      | some agg =>
        agg.kind = .struct && !agg.simd &&
        match agg.fields[inst.member]? with
        | none => false
        | some field => field.bits = 0 && field.type.type = inst.type)

/-- `lane_op_ok`. -/
def laneOpOk (kind : IrOp) (op : Nat) (lane : IrType) : Bool :=
  let isFloat : Bool := lane = .f32 ∨ lane = .f64
  let among (ops : List IrOp) : Bool := op ∈ ops.map IrOp.num
  match kind with
  | .vbinary =>
    if IrOp.eq.num ≤ op ∧ op ≤ IrOp.uge.num then !isFloat
    else if IrOp.feq.num ≤ op ∧ op ≤ IrOp.fge.num then isFloat
    else if isFloat then IrOp.fadd.num ≤ op ∧ op ≤ IrOp.fdiv.num
    else among [.add, .sub, .mul, .and, .or, .xor]
  | .vunary => if isFloat then among [.fneg] else among [.neg, .not]
  | .vreduce =>
    if among [.or, .and] then lane = .i8
    else if isFloat then among [.fadd, .flt, .fgt]
    else among [.add, .slt, .ult, .sgt, .ugt]
  | _ => op = IrOp.copy.num

/-- `CPU_VECTOR_BYTE_CAP`. -/
def cpuVectorByteCap : Nat := 256

/-- `vector_ok`. -/
def vectorOk (inst : IrInst) : Bool :=
  match (if inst.of.type = .agg then m.aggs[inst.of.agg]? else none) with
  | none => false
  | some t =>
    let lane := match t.fields with
      | [] => .void
      | field :: _ => field.type.type
    t.simd &&
    irLaneBytes lane * t.fields.length ≤ cpuVectorByteCap &&
    inst.type = lane && laneOpOk inst.op inst.field lane &&
    sameType m f inst.a .ptr &&
    match inst.op with
    | .vsplat => sameType m f inst.b lane
    | .vselect =>
      sameType m f inst.b .ptr && sameType m f inst.c .ptr &&
      inst.args.length = 1 && inst.args.all (sameType m f · .ptr)
    | .vshuffle =>
      sameType m f inst.b .ptr && inst.args.length = t.fields.length &&
      inst.args.all fun o => o.kind = .int && o.val < t.fields.length
    | .vreduce => true
    | _ => sameType m f inst.b .ptr && sameType m f inst.c .ptr

/-- The case of a call in `check_inst`. -/
def callOk (inst : IrInst) : Bool :=
  let named := if inst.b.kind = .func then inst.b else inst.a
  (inst.a.kind = .func || sameType m f inst.a .ptr) &&
  (named.kind ≠ .func ||
    match m.functions[named.val]? with
    | none => true
    | some callee =>
      (if callee.variadic then callee.params.length ≤ inst.args.length
        else inst.args.length = callee.params.length) &&
      (inst.args.drop callee.params.length).all fun o => o.type ≠ .agg) &&
  (inst.c.kind = .none || (inst.c.kind = .global && operandOk m f inst.c && inst.field ≠ 0))

/-- `check_inst`. -/
def checkInst (inst : IrInst) : Bool :=
  let result := if f.result = .agg then .ptr else f.result
  match inst.op with
  | .add | .sub | .mul | .sdiv | .udiv | .srem | .urem | .and | .or | .xor
  | .shl | .shrS | .shrU | .fadd | .fsub | .fmul | .fdiv
  | .addOv | .subOv | .mulOv | .mulhS | .mulhU | .addSatS | .addSatU | .subSatS
  | .subSatU | .mulSatS | .mulSatU | .mulFl | .shlFl | .shrSFl | .shrUFl =>
    sameType m f inst.a inst.type && sameType m f inst.b inst.type
  | .neg | .not | .fneg | .copy | .negFl => sameType m f inst.a inst.type
  | .addFl | .subFl =>
    sameType m f inst.a inst.type && sameType m f inst.b inst.type &&
    sameType m f inst.c .i8
  | .flag => inst.a.kind = .temp && inst.type = .i8 && inst.field ≤ 3
  | .eq | .ne | .slt | .sle | .sgt | .sge | .ult | .ule | .ugt | .uge
  | .feq | .fne | .flt | .fle | .fgt | .fge =>
    (!operandOk m f inst.a || !operandOk m f inst.b ||
      typeOf f inst.a = typeOf f inst.b) && inst.type = .i8
  | .hext => sameType m f inst.a .i16 && inst.type = .f32
  | .htrunc => sameType m f inst.a .f32 && inst.type = .i16
  | .load => sameType m f inst.a .ptr && accessKindOk inst && accessTypeOk m inst
  | .store =>
    sameType m f inst.a inst.type && sameType m f inst.b .ptr &&
    accessKindOk inst && accessTypeOk m inst
  | .ptradd => sameType m f inst.a .ptr && sameType m f inst.b .i64
  | .memcopy => sameType m f inst.a .ptr && sameType m f inst.b .ptr && vtypeOk m inst
  | .slot => vtypeOk m inst
  | .bitload | .bitstore =>
    sameType m f (if inst.op = .bitload then inst.a else inst.b) .ptr &&
    (inst.op = .bitload || sameType m f inst.a inst.type) &&
    inst.of.type = .agg &&
    match (m.aggs[inst.of.agg]?).bind fun t => t.fields[inst.field]? with
    | none => false
    | some field => field.bits ≠ 0
  | .vbinary | .vunary | .vsplat | .vselect | .vshuffle | .vreduce => vectorOk m f inst
  | .call => callOk m f inst
  | .jump => targetOk inst.a
  | .branch => sameType m f inst.a .i8 && targetOk inst.b && targetOk inst.c
  | .branchOv => inst.a.kind = .temp && targetOk inst.b && targetOk inst.c
  | .ret => inst.type = result && (inst.type = .void || sameType m f inst.a inst.type)
  | _ => true

/-- `arith_facts_ok`.  `slots` tells the temporaries an `IR_SLOT` defines. -/
def arithFactsOk (slots : Nat → Bool) (inst : IrInst) : Bool :=
  match inst.op with
  | .add | .sub | .mul => inst.field ≤ 3
  | .addOv | .subOv | .mulOv => inst.field ≤ 1
  | .ptradd => inst.field ≤ 1
  | .load =>
    (inst.b.kind = .none && inst.c.kind = .none) ||
    (inst.b.kind = .int && inst.c.kind = .int && inst.b.type = inst.type &&
      inst.c.type = inst.type && isFixedInt inst.type &&
      inst.b.val ≠ inst.c.val)
  | .lifeStart | .lifeEnd => inst.a.kind = .temp && inst.a.val < f.temps.length && slots inst.a.val
  | _ => true

/-- The temporaries that an `IR_SLOT` defines. -/
def slotTemps (t : Nat) : Bool := f.insts.any fun inst => inst.op = .slot && inst.result = t

/-- The last instruction before a run of flag reads.  `before` holds the newest
    instruction first. -/
def flagSource (before : List IrInst) : Option IrInst :=
  (before.dropWhile fun inst => inst.op = .flag).head?

/-- The rules of an instruction about the ones next to it.  `before` holds the
    newest instruction first. -/
def placeOk (before : List IrInst) (inst : IrInst) (after : List IrInst) : Bool :=
  (inst.op ≠ .branchOv ||
    match before with
    | [] => false
    | last :: _ => isOverflow last.op && last.result = inst.a.val) &&
  (inst.op ≠ .flag ||
    match flagSource before with
    | none => false
    | some source => isFlagOperation source.op && source.result = inst.a.val) &&
  (!(inst.op = .call && inst.a.kind = .func && (match m.functions[inst.a.val]? with
        | none => false
        | some callee => callee.neverReturns)) ||
    match after with
    | [] => false
    | next :: _ => next.op = .unreachable) &&
  (!isTerminator inst.op || after.isEmpty)

/-- The instructions of a block, each with the ones before it. -/
def checkInsts : List IrInst → List IrInst → Bool
  | _, [] => true
  | before, inst :: rest =>
    indicesOk m f inst && checkInst m f inst &&
    arithFactsOk f (slotTemps f) inst && placeOk m before inst rest &&
    checkInsts (inst :: before) rest

/-- A block ends with a terminator. -/
def endsOk (insts : List IrInst) : Bool :=
  match insts.getLast? with
  | none => false
  | some last => isTerminator last.op

/-! ## Definite assignment -/

/-- A block whose last instruction is `last` may go to block `b`. -/
def goesTo (last : IrInst) (b : Nat) : Bool :=
  (last.op = .jump && last.a.val = b) ||
  ((last.op = .branch || last.op = .branchOv) && (last.b.val = b || last.c.val = b))

/-- `entry_set`: the temporaries defined on every path into block `b`, where
    `out` has those defined at the end of each block. -/
def entrySet (out : List (Finset Nat)) (b : Nat) : Finset Nat :=
  let start :=
    if b = 0 then (f.params.map IrParam.temp).toFinset
    else Finset.range f.temps.length
  (f.blocks.zip out).foldl (fun set (pred, defined) =>
    match pred.insts.getLast? with
    | none => set
    | some last => if goesTo last b then set ∩ defined else set) start

/-- The temporaries that a list of instructions adds to those defined. -/
def defining (set : Finset Nat) (insts : List IrInst) : Finset Nat :=
  insts.foldl (fun set inst =>
    if inst.result < f.temps.length then insert inst.result set else set) set

/-- One turn of the `while` of `check_definitions`. -/
def definitionsTurn (out : List (Finset Nat)) : List (Finset Nat) :=
  (List.range f.blocks.length).foldl (fun out b =>
    match f.blocks[b]? with
    | none => out
    | some block => out.set b (defining f (entrySet f out b) block.insts)) out

/-- The `while` of `check_definitions`, with the turns left.  A turn that changes something takes an
    element out of a set, so the turns given below are enough. -/
def definitionsLoop : Nat → List (Finset Nat) → List (Finset Nat)
  | 0, out => out
  | turns + 1, out =>
    let next := definitionsTurn f out
    if next = out then out else definitionsLoop turns next

/-- The temporaries defined at the end of each block. -/
def definitions : List (Finset Nat) :=
  definitionsLoop f (f.blocks.length * f.temps.length + 1)
    (f.blocks.map fun _ => Finset.range f.temps.length)

/-- The uses of a list of instructions are defined before them. -/
def usesOk : Finset Nat → List IrInst → Bool
  | _, [] => true
  | set, inst :: rest =>
    (inst.operands.all fun o => o.kind ≠ .temp || f.temps.length ≤ o.val || o.val ∈ set) &&
    usesOk (defining f set [inst]) rest

/-- `check_definitions`. -/
def checkDefinitions : Bool :=
  (f.blocks.zipIdx).all fun (block, b) => usesOk f (entrySet f (definitions f) b) block.insts

/-- The turn of `ir_verify` for one function. -/
def verifyFunction : Bool :=
  factsOk m f &&
  (f.isExtern || (paramsOk f &&
      f.blocks.all (fun b => checkInsts m f [] b.insts && endsOk b.insts) &&
      checkDefinitions f))

end Verify

/-- `ir_verify`. -/
def irVerify (m : IrModule) : Bool :=
  m.classes.all (checkClass m) && m.functions.all (verifyFunction m)

end AnticIr
