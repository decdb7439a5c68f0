import Antic.IrArith
import Antic.IrVerify

/-! # Running a function of the IR

    The meaning of a function whose types are those of one target.  A block runs its instructions in
    order and leaves through its terminator.

    * An operation whose only effect is its result is computed here; where C leaves it undefined it
      has no value, and the run ends.
    * Every other instruction, a load, a store or a call among them, is an event: what it answers
      depends on the events up to it, and on nothing else.  Two runs with the same events have the
      same calls and stores in the same order.
    * The floating-point arithmetic is that of the machine, as parameters; the laws are the ones the
      folding relies on. -/

namespace AnticIr

open MachineInt

/-- The arithmetic on floating-point numbers.  A number is the bits of a double;
    one of type `f32` is a double that `round` leaves alone. -/
structure Floats where
  double : IrOp → Nat → Nat → Nat
  single : IrOp → Nat → Nat → Nat
  compare : IrOp → Nat → Nat → Bool
  neg : Nat → Nat
  /-- `arith_to_f32`. -/
  round : Nat → Nat
  ofInt : Int → Nat
  ofIntSingle : Int → Nat
  /-- The integer part, where there is one. -/
  toInt : Nat → Option Int
  /-- `anti_rt_f16_widen`. -/
  widen : Nat → Nat
  /-- `anti_rt_f16_narrow`. -/
  narrow : Nat → Nat
  round_round : ∀ d, round (round d) = round d
  round_lt : ∀ d, round d < 2 ^ 64
  add_comm : ∀ a b, double .fadd a b = double .fadd b a
  mul_comm : ∀ a b, double .fmul a b = double .fmul b a
  single_add_comm : ∀ a b, single .fadd a b = single .fadd b a
  single_mul_comm : ∀ a b, single .fmul a b = single .fmul b a
  eq_comm : ∀ a b, compare .feq a b = compare .feq b a
  ne_comm : ∀ a b, compare .fne a b = compare .fne b a
  toInt_signed : ∀ n d, compare .fge d (ofInt (-2 ^ (n - 1))) = true →
    compare .flt d (ofInt (2 ^ (n - 1))) = true →
    ∃ z, toInt d = some z ∧ -2 ^ (n - 1) ≤ z ∧ z < 2 ^ (n - 1)
  toInt_unsigned : ∀ n d, compare .fgt d (ofInt (-1)) = true →
    compare .flt d (ofInt (2 ^ n)) = true →
    ∃ z, toInt d = some z ∧ 0 ≤ z ∧ z < 2 ^ n

/-- What a value of `type` keeps of a number. -/
def trimTo (fl : Floats) (type : IrType) (v : Nat) : Nat :=
  if type = .f32 then fl.round v else irFoldTrim type v

theorem trimTo_trimTo (fl : Floats) (type : IrType) (v : Nat) :
    trimTo fl type (trimTo fl type v) = trimTo fl type v := by
  by_cases h : type = .f32
  · simp only [trimTo, if_pos h]
    exact fl.round_round v
  · simp only [trimTo, if_neg h]
    exact Nat.mod_mod _ _

/-- The operations that are computed here. -/
def isComputed : IrOp → Bool
  | .add | .sub | .mul | .sdiv | .udiv | .srem | .urem | .and | .or | .xor
  | .shl | .shrS | .shrU | .fadd | .fsub | .fmul | .fdiv | .neg | .not | .fneg
  | .copy | .eq | .ne | .slt | .sle | .sgt | .sge | .ult | .ule | .ugt | .uge
  | .feq | .fne | .flt | .fle | .fgt | .fge | .mulhS | .mulhU
  | .addSatS | .addSatU | .subSatS | .subSatU | .mulSatS | .mulSatU
  | .trunc | .sext | .zext | .sitof | .uitof | .ftosi | .ftoui | .fext
  | .ftrunc | .hext | .htrunc => true
  | _ => false

/-- A comparison works at the type of its operands, and gives an `i8`. -/
def isCompare : IrOp → Bool
  | .eq | .ne | .slt | .sle | .sgt | .sge | .ult | .ule | .ugt | .uge => true
  | _ => false

/-- The value of operation `op` of type `type` on operands of type `operand`,
    before it is trimmed to `type`. -/
def compute (fl : Floats) (op : IrOp) (type operand : IrType) (a b : Nat) :
    Option Nat :=
  let n := irFoldBits type
  match op with
  | .copy | .trunc | .zext | .fext | .ftrunc => some a
  | .neg => some (bits n (-a))
  | .not => some (2 ^ n - 1 - a)
  | .fadd | .fsub | .fmul | .fdiv =>
    some (if operand = .f32 then fl.single op a b else fl.double op a b)
  | .feq | .fne | .flt | .fle | .fgt | .fge => some (boolBit (fl.compare op a b))
  | .fneg => some (fl.neg a)
  | .sext => some (bits n (signed (irFoldBits operand) a))
  | .sitof =>
    let z := signed (irFoldBits operand) a
    some (if type = .f32 then fl.ofIntSingle z else fl.ofInt z)
  | .uitof => some (if type = .f32 then fl.ofIntSingle a else fl.ofInt a)
  | .ftosi =>
    (fl.toInt a).bind fun z =>
      if -2 ^ (n - 1) ≤ z ∧ z < 2 ^ (n - 1) then some (bits n z) else none
  | .ftoui =>
    (fl.toInt a).bind fun z =>
      if 0 ≤ z ∧ z < 2 ^ n then some (bits n z) else none
  | .hext => some (fl.widen (a % 2 ^ 16))
  | .htrunc => some (fl.narrow (fl.round a))
  | op => intOp op (irFoldBits operand) a b

/-- What an instruction that is not computed here is given. -/
inductive Arg where
  | none
  | value (type : IrType) (v : Nat)
  | global (i : Nat)
  | func (i : Nat)
  | block (i : Nat)
  deriving DecidableEq, Repr

/-- A load, a store, a call or another instruction that is not computed here. -/
structure Event where
  op : IrOp
  type : IrType
  of : IrVtype
  field : Nat
  member : Nat
  args : List Arg
  deriving DecidableEq, Repr

/-- The rest of the machine: what an event answers, whether the arithmetic of the last event left
    its range, and where the globals and functions are.  The newest event is the first. -/
structure Env where
  answer : List Event → Nat
  overflow : List Event → Bool
  address : IrOperandKind → Nat → Nat

/-- The state inside a function. -/
structure Machine where
  regs : Nat → Nat
  trace : List Event

/-- How a block is left. -/
inductive Exit where
  | goto (block : Nat) (m : Machine)
  | ret (v : Nat) (trace : List Event)
  | unreachable (trace : List Event)
  /-- An operation without a value. -/
  | undefined
  /-- The end of a block without a terminator. -/
  | fell

section Exec

variable (fl : Floats) (env : Env)

/-- The value of an operand. -/
def operandValue (m : Machine) (o : IrOperand) : Nat :=
  match o.kind with
  | .temp => m.regs o.val
  | .int | .float => trimTo fl o.type o.val
  | .none => 0
  | kind => env.address kind o.val % 2 ^ 64

/-- An operand as an event shows it. -/
def operandArg (m : Machine) (o : IrOperand) : Arg :=
  match o.kind with
  | .none => .none
  | .global => .global o.val
  | .func => .func o.val
  | .block => .block o.val
  | _ => .value o.type (operandValue fl env m o)

/-- Write a result, where the instruction has one. -/
def Machine.write (m : Machine) (result v : Nat) : Machine :=
  if result = irNoResult then m
  else { m with regs := Function.update m.regs result v }

@[simp] theorem Machine.write_trace (m : Machine) (result v : Nat) :
    (m.write result v).trace = m.trace := by
  unfold Machine.write
  split <;> rfl

theorem Machine.write_regs (m : Machine) (result v x : Nat) : (m.write result v).regs x =
      if result ≠ irNoResult ∧ x = result then v else m.regs x := by
  unfold Machine.write
  by_cases hr : result = irNoResult
  · simp [hr]
  · by_cases hx : x = result
    · simp [hr, hx]
    · simp [hr, hx]

/-- The type at which an operation works. -/
def operandType (inst : IrInst) : IrType :=
  if isCompare inst.op then inst.a.type else
    match inst.op with
    | .trunc | .sext | .zext | .sitof | .uitof | .ftosi | .ftoui | .fext
    | .ftrunc | .hext | .htrunc | .feq | .fne | .flt | .fle | .fgt | .fge => inst.a.type
    | _ => inst.type

/-- The value of an instruction that is computed here. -/
def instValue (m : Machine) (inst : IrInst) : Option Nat :=
  (compute fl inst.op inst.type (operandType inst) (operandValue fl env m inst.a)
    (operandValue fl env m inst.b)).map (trimTo fl inst.type)

/-- The event of an instruction. -/
def instEvent (m : Machine) (inst : IrInst) : Event :=
  { op := inst.op, type := inst.type, of := inst.of, field := inst.field,
    member := inst.member,
    args := operandArg fl env m inst.a :: operandArg fl env m inst.b ::
      operandArg fl env m inst.c :: inst.args.map (operandArg fl env m) }

/-- The value of an instruction that is not a terminator, with the events up to
    it.  `none` has no value. -/
def execValue (inst : IrInst) (m : Machine) : Option (Nat × List Event) :=
  if isComputed inst.op then (instValue fl env m inst).map (·, m.trace)
  else
    let trace := instEvent fl env m inst :: m.trace
    some (trimTo fl inst.type (env.answer trace), trace)

theorem execValue_computed {inst : IrInst} (h : isComputed inst.op = true) (m : Machine) :
    execValue fl env inst m = (instValue fl env m inst).map (·, m.trace) := by
  rw [execValue, if_pos h]

/-- Run an instruction that is not a terminator. -/
def execInst (inst : IrInst) (m : Machine) : Option Machine :=
  (execValue fl env inst m).map fun (v, trace) => ({ m with trace := trace }).write inst.result v

/-- Leave a block. -/
def execTerminator (inst : IrInst) (m : Machine) : Exit :=
  match inst.op with
  | .jump => .goto inst.a.val m
  | .branch => .goto (if operandValue fl env m inst.a ≠ 0 then inst.b.val else inst.c.val) m
  | .branchOv => .goto (if env.overflow m.trace then inst.b.val else inst.c.val) m
  | .ret => .ret (if inst.type = .void then 0 else operandValue fl env m inst.a) m.trace
  | _ => .unreachable m.trace

/-- Run the instructions of a block. -/
def execBlock : List IrInst → Machine → Exit
  | [], _ => .fell
  | inst :: rest, m =>
    if isTerminator inst.op then execTerminator fl env inst m
    else
      match execInst fl env inst m with
      | none => .undefined
      | some m => execBlock rest m

/-- How far a run is: at the start of a block, or at its end. -/
inductive Run where
  | running (block : Nat) (m : Machine)
  | ended (exit : Exit)
  /-- A block that does not exist. -/
  | lost

/-- Run `n` blocks of a function, from block `b` on.  `code` is the instructions of each block. -/
def runBlocks (code : List (List IrInst)) : Nat → Nat → Machine → Run
  | 0, b, m => .running b m
  | n + 1, b, m =>
    match code[b]? with
    | none => .lost
    | some insts =>
      match execBlock fl env insts m with
      | .goto b m => runBlocks code n b m
      | exit => .ended exit

end Exec

/-- What is seen of a run: the value it returned, where it has, and its events. -/
inductive Seen where
  | running (trace : List Event)
  | returned (v : Nat) (trace : List Event)
  | unreachable (trace : List Event)
  | undefined
  | fell
  | lost
  deriving DecidableEq, Repr

/-- The instructions of each block. -/
def IrFunction.code (f : IrFunction) : List (List IrInst) := f.blocks.map IrBlock.insts

def Run.seen : Run → Seen
  | .running _ m => .running m.trace
  | .ended (.ret v trace) => .returned v trace
  | .ended (.unreachable trace) => .unreachable trace
  | .ended (.goto _ m) => .running m.trace
  | .ended .undefined => .undefined
  | .ended .fell => .fell
  | .lost => .lost

/-- All that is seen of a function from machine `m` on: the events after any
    number of blocks, and how it ends. -/
def behaviour (fl : Floats) (env : Env) (f : IrFunction) (m : Machine) :
    Set Seen :=
  Set.range fun n => (runBlocks fl env f.code n 0 m).seen

end AnticIr
