import Antic.IrSegments

/-! # The lowering of a `for` over a range — `lower_stmt.c`

    `lower_for` for a range: `range_start` reads the bounds and enters the body at the first value,
    and `range_step` leaves where the next value would be past the end.

    * The lowering of the bounds and of the body is a parameter.  `Lowers` is what the loop relies
      on: other code is appended to the current block or put into new blocks, writes new temporaries
      and those of variables, and jumps to new blocks and to the blocks that statements know.
    * The slots at the front of the entry block, which `ir_entry_slot` inserts there, stand apart in
      `slots`.
    * The lines of instructions are left out, since nothing here reads them. -/

namespace AnticIr

/-- What `struct lowerer` holds of the function: the slots of its entry block, its
    blocks, the types of its temporaries and the current block; the temporaries of
    variables, and the blocks that a statement may jump to. -/
structure Lowerer where
  slots : List IrInst
  blocks : List (List IrInst)
  temps : List IrType
  b : Nat
  symbols : Nat → Bool
  known : List Nat

/-- A piece of the lowering. -/
abbrev Lower (α : Type) : Type := StateM Lowerer α

/-- The instructions of each block. -/
def Lowerer.code (l : Lowerer) : List (List IrInst) :=
  match l.blocks with
  | [] => []
  | entry :: rest => (l.slots ++ entry) :: rest

/-- `IR_NSW`. -/
def irNsw : Nat := 1

/-- `IR_NUW`. -/
def irNuw : Nat := 2

/-! ## The builder -/

/-- `ir_temp`. -/
def irTemp (type : IrType) : Lower Nat := fun l =>
  (l.temps.length, { l with temps := l.temps ++ [type] })

/-- `append`, to the current block. -/
def appendInst (inst : IrInst) : Lower Unit := fun l =>
  ((), { l with blocks := l.blocks.modify l.b (· ++ [inst]) })

/-- `ir_temp_op`. -/
def lowerTemp (t : Nat) : Lower IrOperand := fun l => (⟨.temp, l.temps.getD t .void, t⟩, l)

/-- `ir_block_op`. -/
def irBlockOp (b : Nat) : IrOperand := ⟨.block, .void, b⟩

/-- `ir_binary_wrap`. -/
def irBinaryWrap (op : IrOp) (type : IrType) (x y : IrOperand) (wrap : Nat) : Lower Nat := do
  let result ← irTemp type
  appendInst { op, type, result, a := x, b := y, field := wrap }
  pure result

/-- `ir_binary`. -/
def irBinary (op : IrOp) (type : IrType) (x y : IrOperand) : Lower Nat := irBinaryWrap op type x y 0

/-- `ir_unary`. -/
def irUnary (op : IrOp) (type : IrType) (x : IrOperand) : Lower Nat := do
  let result ← irTemp type
  appendInst { op, type, result, a := x }
  pure result

/-- `ir_assign`. -/
def irAssign (dst : Nat) (src : IrOperand) : Lower Unit := do
  let d ← lowerTemp dst
  appendInst { op := .copy, type := d.type, result := dst, a := src }

/-- `ir_store`. -/
def irStore (type : IrType) (value pointer : IrOperand) : Lower Unit :=
  appendInst { op := .store, type, a := value, b := pointer }

/-- `ir_jump`. -/
def irJump (target : Nat) : Lower Unit :=
  appendInst { op := .jump, type := .void, a := irBlockOp target }

/-- `ir_branch`. -/
def irBranch (cond : IrOperand) (thenBlock elseBlock : Nat) : Lower Unit :=
  appendInst { op := .branch, type := .void, a := cond, b := irBlockOp thenBlock,
               c := irBlockOp elseBlock }

/-- `lower_new_block`. -/
def lowerNewBlock : Lower Nat := fun l => (l.blocks.length, { l with blocks := l.blocks ++ [[]] })

/-- `l->b = block`. -/
def setBlock (b : Nat) : Lower Unit := fun l => ((), { l with b := b })

/-- The place where the next instruction goes. -/
def herePlace : Lower (Nat × Nat) := fun l => ((l.b, (l.blocks.getD l.b []).length), l)

/-! ## The loop -/

/-- The name of the loop: whether its address is taken, and then the temporary of its slot. -/
structure LoopName where
  addressTaken : Bool
  slot : Nat

/-- The `for` over a range, as `lower_for` reads it.  `bits` is the width of the type,
    and the body says whether code goes on behind it. -/
structure RangeFor where
  type : IrType
  isSigned : Bool
  /-- `step_value`, an `int64_t`. -/
  stepValue : Int
  low : Lower IrOperand
  high : Lower IrOperand
  name : Option LoopName
  body : Lower Bool

/-- `struct for_walk`, with what a range uses of it. -/
structure ForWalk where
  body : Nat
  step : Nat
  exit : Nat
  low : IrOperand := .absent
  high : IrOperand := .absent
  counterType : IrType := .i64
  counter : Nat := 0
  unsignedRange : Bool
  down : Bool
  k : Nat
  wrap : Nat := 0

/-- `bind_loop_name`. -/
def bindLoopName (name : LoopName) (type : IrType) (value : IrOperand) : Lower Unit := do
  if name.addressTaken then
    irStore type value (← lowerTemp name.slot)
  else
    let ir ← irUnary .copy type value
    fun l => ((), { l with symbols := Function.update l.symbols ir true })

/-- The wrap facts of the step, by the type, the step and the operand read for the low bound. -/
def rangeWrap (type : IrType) (unsignedRange : Bool) (k : Nat) (read : IrOperand) : Nat :=
  if unsignedRange then irNuw
  else
    let bits := if isFixedInt type then irFoldBits type else 32
    let wrap := if k < 2 ^ (bits - 1) then irNsw else 0
    if read.kind = .int ∧ isFixedInt type ∧ 0 ≤ arithSigned read.val bits then wrap ||| irNuw
    else wrap

/-- The operands that `range_start` reads for the bounds, where it copies them, and the
    block to which a range with values goes. -/
structure RangePlaces where
  lowRead : IrOperand
  lowAt : Nat × Nat
  highRead : IrOperand
  enterAt : Nat × Nat
  first : Nat

/-- `range_start`. -/
def rangeStart (s : RangeFor) (w : ForWalk) : Lower (ForWalk × RangePlaces) := do
  let first ← if w.down then lowerNewBlock else pure w.body
  let type := s.type
  let w := { w with counterType := type }
  let lowRead ← s.low
  let w := { w with wrap := rangeWrap type w.unsignedRange w.k lowRead }
  let lowAt ← herePlace
  let w := { w with low := ← lowerTemp (← irUnary .copy type lowRead) }
  let highRead ← s.high
  let enterAt ← herePlace
  let w := { w with high := ← lowerTemp (← irUnary .copy type highRead) }
  let w := { w with counter := ← irUnary .copy type w.low }
  irBranch (← lowerTemp (← irBinary (if w.unsignedRange then .ult else .slt) .i8 w.low w.high))
    first w.exit
  if w.down then
    setBlock first
    let span ← lowerTemp (← irBinary .sub type w.high w.low)
    let span ← lowerTemp (← irBinary .sub type span (irIntOp type 1))
    let steps ← lowerTemp (← irBinary .udiv type span (irIntOp type w.k))
    let last ← lowerTemp (← irBinary .mul type steps (irIntOp type w.k))
    irAssign w.counter (← lowerTemp (← irBinary .add type w.low last))
    irJump w.body
  pure (w, ⟨lowRead, lowAt, highRead, enterAt, first⟩)

/-- `range_step`, with the block that moves the counter. -/
def rangeStep (w : ForWalk) : Lower Nat := do
  let type := w.counterType
  let advance ← lowerNewBlock
  let counter ← lowerTemp w.counter
  let left ← if w.down then irBinary .sub type counter w.low
    else irBinary .sub type w.high counter
  irBranch (← lowerTemp (← irBinary (if w.down then .ult else .ule) .i8 (← lowerTemp left)
    (irIntOp type w.k))) w.exit advance
  setBlock advance
  irAssign w.counter (← lowerTemp (← irBinaryWrap (if w.down then .sub else .add) type
    (← lowerTemp w.counter) (irIntOp type w.k) w.wrap))
  irJump w.body
  pure advance

/-- The walk that `lower_for` sets up: the sign of the step apart from its magnitude. -/
def startWalk (s : RangeFor) (body step exit : Nat) : ForWalk :=
  let unsignedRange := !s.isSigned
  let down := decide (s.stepValue < 0) && !unsignedRange
  { body, step, exit, unsignedRange, down,
    k := if down then toBits64 (-s.stepValue) else toBits64 s.stepValue }

/-- What `lower_for` leaves behind, with the places of the loop. -/
structure LoweredFor where
  walk : ForWalk
  places : RangePlaces
  advance : Nat

/-- `lower_for` for a range. -/
def lowerFor (s : RangeFor) : Lower LoweredFor := do
  let body ← lowerNewBlock
  let step ← lowerNewBlock
  let exit ← lowerNewBlock
  let (w, places) ← rangeStart s (startWalk s body step exit)
  -- the body may `continue` at the step and `break` to the exit
  let known := (← get).known
  modify fun l => { l with known := step :: exit :: l.known }
  setBlock body
  match s.name with
  | some name => bindLoopName name w.counterType (← lowerTemp w.counter)
  | none => pure ()
  let goesOn ← s.body
  if goesOn then irJump step
  modify fun l => { l with known := known }
  setBlock step
  let advance ← rangeStep w
  setBlock exit
  pure ⟨w, places, advance⟩

/-! ## What other code does -/

/-- An instruction that lowering from `l` to `l'` may add. -/
structure Foreign (l l' : Lowerer) (inst : IrInst) : Prop where
  /-- It writes no temporary, a new one, or that of a variable. -/
  writes : inst.result = irNoResult ∨ l.temps.length ≤ inst.result ∨ l.symbols inst.result = true
  /-- It goes to a new block, or to one that statements know. -/
  jumps : ∀ b ∈ irTargets inst, (l.blocks.length ≤ b ∧ b < l'.blocks.length) ∨ b ∈ l.known

/-- What the loop relies on in the lowering of its bounds and of its body. -/
structure Lowers (l l' : Lowerer) : Prop where
  length : l.blocks.length ≤ l'.blocks.length
  kept : ∀ i < l.blocks.length, i ≠ l.b → l'.blocks[i]? = l.blocks[i]?
  current : ∃ more, l'.blocks[l.b]? = some (l.blocks.getD l.b [] ++ more) ∧
    ∀ inst ∈ more, Foreign l l' inst
  fresh : ∀ i, l.blocks.length ≤ i → ∀ insts, l'.blocks[i]? = some insts →
    ∀ inst ∈ insts, Foreign l l' inst
  slots : l.slots <+: l'.slots
  temps : l.temps <+: l'.temps
  symbols : ∀ t, l'.symbols t = true → l.symbols t = true ∨
    (l.temps.length ≤ t ∧ t < l'.temps.length)
  known : l'.known = l.known
  here : l'.b < l'.blocks.length ∧ (l'.b = l.b ∨ l.blocks.length ≤ l'.b)

/-- The current block exists, and so do the temporaries of variables and the blocks that
    statements know. -/
structure Lowerer.WellFormed (l : Lowerer) : Prop where
  here : l.b < l.blocks.length
  symbols : ∀ t, l.symbols t = true → t < l.temps.length
  known : ∀ b ∈ l.known, b < l.blocks.length

/-- The promises of the code of the bounds and of the body.  The operand of the low bound
    has the type of the range. -/
structure RangeFor.Promises (s : RangeFor) : Prop where
  low : ∀ l : Lowerer, l.WellFormed → Lowers l (s.low l).2
  high : ∀ l : Lowerer, l.WellFormed → Lowers l (s.high l).2
  body : ∀ l : Lowerer, l.WellFormed → Lowers l (s.body l).2
  lowType : ∀ l : Lowerer, l.WellFormed → (s.low l).1.type = s.type

/-- The step as a value of the type. -/
def RangeFor.step (s : RangeFor) : Int :=
  if s.isSigned then s.stepValue else toBits64 s.stepValue

/-- The step is no zero and fits the type, which has a fixed width. -/
structure RangeFor.StepFits (s : RangeFor) : Prop where
  fixed : isFixedInt s.type = true
  nonzero : s.step ≠ 0
  fits : if s.isSigned then
      -2 ^ (irFoldBits s.type - 1) ≤ s.step ∧ s.step < 2 ^ (irFoldBits s.type - 1)
    else s.step < 2 ^ irFoldBits s.type

/-- The function when all of it is lowered.  What comes behind the loop goes on in the
    exit block, and adds to no other block of the loop. -/
structure Finished (l l' final : Lowerer) (exit : Nat) : Prop where
  some : final.blocks ≠ []
  kept : ∀ i < l'.blocks.length, (i = l.b ∨ l.blocks.length ≤ i) → i ≠ exit →
    final.blocks[i]? = l'.blocks[i]?

/-- Where a place is, behind the slots of the entry block. -/
def Lowerer.place (l : Lowerer) (p : Nat × Nat) : Nat × Nat :=
  (p.1, if p.1 = 0 then l.slots.length + p.2 else p.2)

/-- The places of a loop in the function. -/
def RangePlaces.placed (p : RangePlaces) (l : Lowerer) : RangePlaces :=
  { p with lowAt := l.place p.lowAt, enterAt := l.place p.enterAt }

end AnticIr
