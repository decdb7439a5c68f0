import Antic.IrMemory

/-! # Running a module

    The meaning of a module one instruction at a time, over a memory of bytes and a stack of frames.

    * A sum, a difference or a product gives its wrapped value, and the machine keeps whether the
      last one left the range of its type.  `IR_BRANCH_OV` reads that.
    * A plain one with a wrap fact has no value where the fact does not hold.
    * A call of a function of the module with a body runs it in a frame of its own.  Any other call
      is an event.
    * Every other instruction does what it does in `stepInst`. -/

namespace AnticIr

open MachineInt ByteMemory

/-- What a run of a module needs besides the meaning of the instructions. -/
structure Linkage where
  /-- The bits of an integer type on the target. -/
  width : IrType → Nat
  /-- The function at an address. -/
  callee : Word → Option Nat
  /-- The memory at the start of a function: the aggregates that are passed by value are copied. -/
  enter : List Event → Memory 64 → Memory 64
  /-- The registers of a new frame, apart from the scalar parameters. -/
  fresh : List Event → Memory 64 → Nat → Word

/-- Where an instruction is. -/
structure Place where
  fn : Nat
  block : Nat
  pos : Nat
  deriving DecidableEq, Repr

/-- The instruction at a place. -/
def IrModule.instIn (m : IrModule) (p : Place) : Option IrInst :=
  (m.functions[p.fn]?).bind fun f => (f.blocks[p.block]?).bind fun b => b.insts[p.pos]?

/-- The parameters of a function that has a body. -/
def IrModule.entryOf (m : IrModule) (j : Nat) : Option (List IrParam) :=
  (m.functions[j]?).bind fun f =>
    if f.isExtern ∨ f.blocks.length = 0 then none else some f.params

/-- A frame stands before an instruction; a caller at its call. -/
structure Frame where
  place : Place
  regs : Nat → Word

/-- The state of a run. -/
structure ModuleState where
  frame : Frame
  callers : List Frame
  mem : Memory 64
  events : List Event
  /-- The last sum, difference or product left the range of its type. -/
  overflowed : Bool

/-- What one instruction leads to. -/
inductive Ran where
  | at_ (s : ModuleState)
  | returned (v : Word) (s : ModuleState)
  | unreachable (s : ModuleState)
  /-- An operation without a value. -/
  | undefined
  /-- No instruction there. -/
  | lost

/-- What the instructions of a function work on. -/
def ModuleState.machine (s : ModuleState) : MemMachine := ⟨s.frame.regs, s.mem, s.events⟩

/-- After an instruction. -/
def ModuleState.put (s : ModuleState) (m : MemMachine) : ModuleState :=
  { s with
    frame := ⟨{ s.frame.place with pos := s.frame.place.pos + 1 }, m.regs⟩
    mem := m.mem
    events := m.events }

/-- At the start of a block. -/
def ModuleState.goto (s : ModuleState) (block : Nat) : ModuleState :=
  { s with frame := { s.frame with place := ⟨s.frame.place.fn, block, 0⟩ } }

/-! ## Arithmetic -/

/-- The exact result of a sum, a difference or a product. -/
def exactValue (op : IrOp) (x y : Int) : Int :=
  match op with
  | .add | .addOv => x + y
  | .sub | .subOv => x - y
  | _ => x * y

/-- Its wrapped result in a register. -/
def wrapped (op : IrOp) (a b : Word) : Word :=
  match op with
  | .add | .addOv => a + b
  | .sub | .subOv => a - b
  | _ => a * b

section Step

variable (M : Meaning) (L : Linkage)

/-- The signed result of `inst` leaves the range of its type. -/
def leavesSigned (m : MemMachine) (inst : IrInst) : Bool :=
  let n := L.width inst.type
  let z := exactValue inst.op (signed n (valueOf M m inst.a).toNat)
    (signed n (valueOf M m inst.b).toNat)
  z < -2 ^ (n - 1) ∨ 2 ^ (n - 1) ≤ z

/-- The unsigned one does. -/
def leavesUnsigned (m : MemMachine) (inst : IrInst) : Bool :=
  let z := exactValue inst.op (valueOf M m inst.a).toNat (valueOf M m inst.b).toNat
  z < 0 ∨ 2 ^ L.width inst.type ≤ z

/-- `inst` carries a wrap fact that does not hold: bit 0 of the field is `IR_NSW`, and
    bit 1 is `IR_NUW`. -/
def breaksFact (m : MemMachine) (inst : IrInst) : Bool :=
  (inst.field.testBit 0 && leavesSigned M L m inst) ||
    (inst.field.testBit 1 && leavesUnsigned M L m inst)

/-- Run a sum, a difference or a product.  An overflow operation always has a value. -/
def stepArith (overflow : Bool) (inst : IrInst) (s : ModuleState) : Ran :=
  if !overflow && breaksFact M L s.machine inst then .undefined
  else
    let v := wrapped inst.op (valueOf M s.machine inst.a) (valueOf M s.machine inst.b)
    .at_ { s.put (s.machine.write inst.result (M.trim inst.type v)) with
      overflowed := leavesSigned M L s.machine inst }

/-! ## Calls -/

/-- The function that a call runs: its number and its parameters. -/
def calleeOf (m : IrModule) (s : ModuleState) (inst : IrInst) : Option (Nat × List IrParam) :=
  let j := if inst.a.kind = .func then some inst.a.val
    else L.callee (valueOf M s.machine inst.a)
  j.bind fun j => (m.entryOf j).map (j, ·)

/-- The registers of a new frame. -/
def frameRegs (s : ModuleState) (events : List Event) (params : List IrParam)
    (args : List IrOperand) : Nat → Word :=
  (params.zip args).foldl (fun regs (p, o) =>
      if p.type = .agg then regs
      else Function.update regs p.temp (M.trim p.type (valueOf M s.machine o)))
    (L.fresh events s.mem)

/-- Enter function `j`. -/
def enterCall (s : ModuleState) (inst : IrInst) (j : Nat) (params : List IrParam) : ModuleState :=
  let events := shownEvent M s.machine inst :: s.events
  { frame := ⟨⟨j, 0, 0⟩, frameRegs M L s events params inst.args⟩
    callers := s.frame :: s.callers
    mem := L.enter events s.mem
    events := events
    overflowed := s.overflowed }

/-- Return to the call `inst` of `caller`. -/
def leaveCall (s : ModuleState) (caller : Frame) (rest : List Frame) (inst : IrInst) (v : Word) :
    ModuleState :=
  { s with
    frame :=
      ⟨{ caller.place with pos := caller.place.pos + 1 },
        if inst.result = irNoResult then caller.regs
        else Function.update caller.regs inst.result (M.trim inst.type v)⟩
    callers := rest }

/-- The value that a return gives. -/
def returnValue (s : ModuleState) (inst : IrInst) : Word :=
  if inst.type = .void then 0 else valueOf M s.machine inst.a

/-- Run a return. -/
def stepReturn (m : IrModule) (inst : IrInst) (s : ModuleState) : Ran :=
  match s.callers with
  | [] => .returned (returnValue M s inst) s
  | caller :: rest =>
    match m.instIn caller.place with
    | none => .lost
    | some call => .at_ (leaveCall M s caller rest call (returnValue M s inst))

/-- Run an instruction that stays in its block. -/
def stepPlain (inst : IrInst) (s : ModuleState) : Ran :=
  match stepInst M inst s.machine with
  | none => .undefined
  | some m => .at_ (s.put m)

/-! ## Steps -/

/-- Run an instruction. -/
def runInst (m : IrModule) (inst : IrInst) (s : ModuleState) : Ran :=
  match inst.op with
  | .jump => .at_ (s.goto inst.a.val)
  | .branch => .at_ (s.goto (if valueOf M s.machine inst.a ≠ 0 then inst.b.val else inst.c.val))
  | .branchOv => .at_ (s.goto (if s.overflowed then inst.b.val else inst.c.val))
  | .ret => stepReturn M m inst s
  | .unreachable => .unreachable s
  | .add | .sub | .mul => stepArith M L false inst s
  | .addOv | .subOv | .mulOv => stepArith M L true inst s
  | .call =>
    match calleeOf M L m s inst with
    | some (j, params) => .at_ (enterCall M L s inst j params)
    | none => stepPlain M inst s
  | _ => stepPlain M inst s

/-- Run the instruction before which the run stands. -/
def stepModule (m : IrModule) (s : ModuleState) : Ran :=
  match m.instIn s.frame.place with
  | none => .lost
  | some inst => runInst M L m inst s

/-- Run `n` instructions. -/
def runModule (m : IrModule) : Nat → ModuleState → Ran
  | 0, s => .at_ s
  | n + 1, s =>
    match stepModule M L m s with
    | .at_ s => runModule m n s
    | r => r

end Step

section Runs

variable {M : Meaning} {L : Linkage} {m m' : IrModule}

/-- **Lockstep.**  A module that repeats every step of a run runs alike. -/
theorem runModule_eq : ∀ (n : Nat) (s : ModuleState),
      (∀ k < n, ∀ s', runModule M L m k s = .at_ s' → stepModule M L m' s' = stepModule M L m s') →
      runModule M L m' n s = runModule M L m n s := by
  intro n
  induction n with
  | zero =>
    intro s _
    rfl
  | succ n ih =>
    intro s h
    rw [runModule, runModule, h 0 (Nat.zero_lt_succ n) s rfl]
    cases hstep : stepModule M L m s with
    | at_ s₁ =>
      refine ih s₁ fun k hk s' hrun => h (k + 1) (Nat.succ_lt_succ hk) s' ?_
      rw [runModule, hstep]
      exact hrun
    | returned | unreachable | undefined | lost => rfl

theorem runModule_succ : ∀ (n : Nat) (s s' : ModuleState), runModule M L m n s = .at_ s' →
      runModule M L m (n + 1) s = stepModule M L m s' := by
  intro n
  induction n with
  | zero =>
    intro s s' h
    cases h
    rw [runModule]
    cases stepModule M L m s <;> rfl
  | succ n ih =>
    intro s s' h
    rw [runModule] at h
    rw [runModule]
    cases hstep : stepModule M L m s with
    | at_ s₁ =>
      rw [hstep] at h
      exact ih s₁ s' h
    | returned | unreachable | undefined | lost =>
      rw [hstep] at h
      cases h

/-- A module steps as another where its instruction does what the other's does, its
    calls enter the same functions, and its callers stand at the same calls. -/
theorem stepModule_eq {s : ModuleState} {inst inst' : IrInst}
    (hinst : m.instIn s.frame.place = some inst)
    (hinst' : m'.instIn s.frame.place = some inst')
    (h : runInst M L m' inst' s = runInst M L m inst s) :
    stepModule M L m' s = stepModule M L m s := by
  rw [stepModule, stepModule, hinst, hinst']
  exact h

end Runs

end AnticIr
