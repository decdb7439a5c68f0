import Antic.IrExec

/-! # The optimizer — folding and the peephole rules of `optimize.c`

    The passes rewrite a function whose types are not those of one target yet:  `c_long`, `c_wchar`
    and the word of a Mutex have the width that `layout_resolve` gives them later. -/

namespace AnticIr

/-! ## Helpers -/

/-- `is_constant`. -/
def isConstant (o : IrOperand) : Bool := o.kind = .int ∨ o.kind = .float

/-- `is_int`. -/
def isInt (o : IrOperand) (v : Nat) : Bool := o.kind = .int ∧ o.val = irFoldTrim o.type v

/-- `is_temp`. -/
def isTemp (o : IrOperand) (temp : Nat) : Bool := o.kind = .temp ∧ o.val = temp

/-- `make_copy`: the instruction as a copy of `value`, with its result and its type. -/
def makeCopy (inst : IrInst) (value : IrOperand) : IrInst :=
  { inst with op := .copy, a := value, b := .absent, c := .absent, field := 0,
              of := irScalar .void, member := 0, args := [] }

/-- `ir_float_op`. -/
def irFloatOp (type : IrType) (value : Nat) : IrOperand := ⟨.float, type, value⟩

/-- `struct counts`: how often each temporary is defined and used. -/
structure Counts where
  defs : Nat → Nat
  uses : Nat → Nat

/-- `count`.  A parameter counts as one definition. -/
def count (f : IrFunction) : Counts where
  defs t := f.params.countP (fun p => p.temp = t) +
    f.insts.countP fun i => i.result ≠ irNoResult ∧ i.result = t
  uses t := (f.insts.flatMap IrInst.operands).countP (isTemp · t)

/-! ## Constant folding -/

/-- `fold_float`. -/
def foldFloat (fl : Floats) (op : IrOp) (t : IrType) (a b : Nat) :
    Option IrOperand :=
  match op with
  | .fadd | .fsub | .fmul | .fdiv =>
    some (irFloatOp t (if t = .f32 then fl.single op (fl.round a) (fl.round b)
      else fl.double op a b))
  | .feq | .fne | .flt | .fle | .fgt | .fge => some (irIntOp .i8 (boolBit (fl.compare op a b)))
  | _ => none

/-- `fold_conversion`. -/
def foldConversion (fl : Floats) (inst : IrInst) : Option IrOperand :=
  let source := inst.a.type
  let target := inst.type
  let n := irFoldBits target
  let v := inst.a.val
  match inst.op with
  | .trunc | .zext => some (irIntOp target v)
  | .sext => some (irIntOp target (toBits64 (irFoldSigned source v)))
  | .sitof =>
    some (irFloatOp target (if target = .f32 then fl.ofIntSingle (irFoldSigned source v)
      else fl.ofInt (irFoldSigned source v)))
  | .uitof => some (irFloatOp target (if target = .f32 then fl.ofIntSingle v else fl.ofInt v))
  | .ftosi =>
    if fl.compare .fge v (fl.ofInt (-2 ^ (n - 1))) ∧ fl.compare .flt v (fl.ofInt (2 ^ (n - 1))) then
      (fl.toInt v).map fun z => irIntOp target (toBits64 z)
    else none
  | .ftoui =>
    if fl.compare .fgt v (fl.ofInt (-1)) ∧ fl.compare .flt v (fl.ofInt (2 ^ n)) then
      (fl.toInt v).map fun z => irIntOp target (toBits64 z)
    else none
  | .hext => some (irFloatOp target (fl.widen (v % 2 ^ 16)))
  | .htrunc => some (irIntOp target (fl.narrow (fl.round v)))
  | .fext | .ftrunc => some (irFloatOp target (if target = .f32 then fl.round v else v))
  | _ => none

/-- `is_target_sized`. -/
def isTargetSized (type : IrType) : Bool := type = .clong ∨ type = .cwchar ∨ type = .lock

/-- The integer operations of two operands that `fold_inst` lists. -/
def isFoldable : IrOp → Bool
  | .add | .sub | .mul | .sdiv | .udiv | .srem | .urem | .and | .or | .xor
  | .shl | .shrS | .shrU | .eq | .ne | .slt | .sle | .sgt | .sge | .ult | .ule
  | .ugt | .uge | .mulhS | .mulhU | .addSatS | .addSatU | .subSatS | .subSatU
  | .mulSatS | .mulSatU => true
  | _ => false

/-- `fold_inst`.  An operation on `c_long` or `c_wchar` wraps at a width that
    only the back end knows, so none is computed. -/
def foldInst (fl : Floats) (inst : IrInst) : Option IrOperand :=
  if isTargetSized inst.type ∨ isTargetSized inst.a.type ∨ isTargetSized inst.b.type then none
  else if isFoldable inst.op then
    if inst.a.kind ≠ .int ∨ inst.b.kind ≠ .int then none
    else
      match irFoldInt inst.op inst.a.type inst.a.val inst.b.val with
      | .folded v => some (irIntOp inst.type v)
      | _ => none
  else
    match inst.op with
    | .fadd | .fsub | .fmul | .fdiv | .feq | .fne | .flt | .fle | .fgt | .fge =>
      if inst.a.kind = .float ∧ inst.b.kind = .float then
        foldFloat fl inst.op inst.a.type inst.a.val inst.b.val
      else none
    | .neg =>
      if inst.a.kind ≠ .int then none
      else some (irIntOp inst.type (sub64 0 inst.a.val))
    | .not =>
      if inst.a.kind ≠ .int then none
      else some (irIntOp inst.type (2 ^ 64 - 1 - inst.a.val))
    | .fneg =>
      if inst.a.kind ≠ .float then none
      else some (irFloatOp inst.type (fl.neg inst.a.val))
    | .trunc | .sext | .zext | .sitof | .uitof | .ftosi | .ftoui | .fext
    | .ftrunc | .hext | .htrunc =>
      if isConstant inst.a then foldConversion fl inst else none
    | _ => none

/-- The turn of `fold_constants` for one instruction. -/
def foldOne (fl : Floats) (inst : IrInst) : IrInst :=
  if inst.op = .branch ∧ inst.a.kind = .int then
    { inst with a := if inst.a.val ≠ 0 then inst.b else inst.c, op := .jump,
                b := .absent, c := .absent }
  else
    match foldInst fl inst with
    | some value => makeCopy inst value
    | none => inst

/-- `fold_constants`. -/
def foldConstants (fl : Floats) (f : IrFunction) : IrFunction :=
  { f with blocks := f.blocks.map fun b =>
      { b with insts := b.insts.map (foldOne fl) } }

/-! ## The peephole rules -/

/-- `is_commutative`. -/
def isCommutative : IrOp → Bool
  | .add | .mul | .and | .or | .xor | .eq | .ne | .fadd | .fmul | .feq
  | .fne => true
  | _ => false

/-- `power_of_two`: the exponent, or 0. -/
def powerOfTwo (o : IrOperand) : Nat :=
  if o.kind ≠ .int ∨ o.val < 2 ∨ o.val &&& (o.val - 1) ≠ 0 then 0
  else Nat.log2 o.val

/-- `simplify`: a simpler instruction with the same result. -/
def simplify (inst : IrInst) : IrInst :=
  if isCommutative inst.op ∧ isConstant inst.a ∧ isConstant inst.b = false then
    { inst with a := inst.b, b := inst.a }
  else
    match inst.op with
    | .add | .sub | .or | .xor | .shl | .shrS | .shrU =>
      if isInt inst.b 0 then makeCopy inst inst.a else inst
    | .mul =>
      if isInt inst.b 0 then makeCopy inst inst.b
      else if isInt inst.b 1 then makeCopy inst inst.a
      else if powerOfTwo inst.b > 0 then
        { inst with op := .shl, b := irIntOp inst.type (powerOfTwo inst.b),
                    field := 0 }
      else inst
    | .sdiv => if isInt inst.b 1 then makeCopy inst inst.a else inst
    | .udiv =>
      if isInt inst.b 1 then makeCopy inst inst.a
      else if powerOfTwo inst.b > 0 then
        { inst with op := .shrU, b := irIntOp inst.type (powerOfTwo inst.b) }
      else inst
    | .urem =>
      if powerOfTwo inst.b > 0 then
        { inst with op := .and, b := irIntOp inst.type (inst.b.val - 1) }
      else inst
    | .and =>
      if isInt inst.b 0 then makeCopy inst inst.b
      else if isInt inst.b (2 ^ 64 - 1) then makeCopy inst inst.a
      else inst
    | .branch =>
      if inst.b.val = inst.c.val then
        { inst with op := .jump, a := inst.b, b := .absent, c := .absent }
      else inst
    | _ => inst

/-- The loop of `final_target`, with its steps left. -/
def finalTargetFrom (blocks : List (List IrInst)) (b : Nat) : Nat → Nat → Nat
  | 0, _ => b
  | steps + 1, target =>
    match blocks[target]? with
    | some [inst] =>
      if inst.op = .jump then finalTargetFrom blocks b steps inst.a.val
      else target
    | _ => target

/-- `final_target`: the block that a jump to `b` reaches after blocks that only
    jump.  Jumps that form a cycle keep `b`. -/
def finalTarget (blocks : List (List IrInst)) (b : Nat) : Nat :=
  finalTargetFrom blocks b (blocks.length + 1) b

/-- `retarget`. -/
def retarget (blocks : List (List IrInst)) (o : IrOperand) : IrOperand :=
  { o with val := finalTarget blocks o.val }

/-- The targets of a jump or a branch, moved. -/
def retargetInst (blocks : List (List IrInst)) (inst : IrInst) : IrInst :=
  if inst.op = .jump then { inst with a := retarget blocks inst.a }
  else if inst.op = .branch ∨ inst.op = .branchOv then
    let b := retarget blocks inst.b
    { inst with b := b, c := retarget blocks inst.c }
  else inst

/-- The pair `t = op` and `x = copy t` becomes `x = op`, when the copy is the only use of `t`. -/
def fuses (c : Counts) (paramCount : Nat) (inst next : IrInst) : Bool :=
  next.op = .copy ∧ inst.result ≠ irNoResult ∧ isTemp next.a inst.result ∧
    c.defs inst.result = 1 ∧ c.uses inst.result = 1 ∧ inst.result ≥ paramCount

/-- The turns of `apply_peephole_rules` over the rest of a block.  `look` gives the blocks of the
    function with the current one, whose first instructions are `done`, as it then stands. -/
def peepholeInsts (c : Counts) (paramCount : Nat) (look : List IrInst → List (List IrInst)) :
    List IrInst → List IrInst → List IrInst
  | _, [] => []
  | done, [inst] =>
    let inst := simplify inst
    if inst.op = .copy ∧ isTemp inst.a inst.result then []
    else [retargetInst (look (done ++ [inst])) inst]
  | done, inst :: next :: rest =>
    let inst := simplify inst
    if inst.op = .copy ∧ isTemp inst.a inst.result then
      peepholeInsts c paramCount look done (next :: rest)
    else if fuses c paramCount inst next then
      let inst := { inst with result := next.result }
      inst :: peepholeInsts c paramCount look (done ++ [inst]) rest
    else
      let inst := retargetInst (look (done ++ inst :: next :: rest)) inst
      inst :: peepholeInsts c paramCount look (done ++ [inst]) (next :: rest)

/-- The blocks after the turns for blocks `b`, `b + 1`, .. of `n`. -/
def peepholeBlocks (c : Counts) (paramCount : Nat) :
    Nat → Nat → List (List IrInst) → List (List IrInst)
  | 0, _, blocks => blocks
  | n + 1, b, blocks =>
    match blocks[b]? with
    | none => blocks
    | some insts =>
      peepholeBlocks c paramCount n (b + 1)
        (blocks.set b (peepholeInsts c paramCount (blocks.set b) [] insts))

/-- `apply_peephole_rules`. -/
def applyPeepholeRules (f : IrFunction) : IrFunction :=
  let blocks := peepholeBlocks (count f) f.params.length f.blocks.length 0 f.code
  { f with
    blocks := List.zipWith (fun b insts => { b with insts := insts }) f.blocks blocks }

end AnticIr
