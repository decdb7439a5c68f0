import Antic.ByteMemory
import Antic.IrExec

/-! # Running a function over a memory of bytes

    The meaning of a function one instruction at a time.  A register is 64 bits, a load and a store
    reach the bytes of the memory, and an address is a sum.

    * What the other operations compute is the machine's, as a parameter: it depends on the
      operation, its types and the values of its operands, and on nothing else.
    * A call, a copy of memory and every other instruction that is not computed here is an event.
      What it answers, and what it makes of the memory, depends on the events up to it and on the
      memory. -/

namespace AnticIr

open ByteMemory

/-- A register. -/
abbrev Word := BitVec 64

/-- The machine: the values of a type and their bytes, the addresses of globals and functions, and
    what the operations and the events do.  The newest event is the first. -/
structure Meaning where
  trim : IrType → Word → Word
  trim_trim : ∀ type v, trim type (trim type v) = trim type v
  /-- The addresses, the integer constants, the floats and the symbolic values. -/
  constant : IrOperandKind → Nat → Word
  size : IrType → Nat
  size_le : ∀ type, size type ≤ 8
  encode : IrType → Word → Nat
  decode : IrType → Nat → Word
  decode_encode : ∀ type v, trim type (decode type (encode type v % 256 ^ size type)) = trim type v
  /-- `none` has no value. -/
  compute : Event → Option Word
  answer : List Event → Memory 64 → Word
  effect : List Event → Memory 64 → Memory 64
  overflow : List Event → Bool
  constant_int : ∀ n, constant .int n = BitVec.ofNat 64 n
  /-- An `i64` and an address fill a register. -/
  trim_i64 : ∀ v, trim .i64 v = v
  trim_ptr : ∀ v, trim .ptr v = v

/-- The state inside a function. -/
structure MemMachine where
  regs : Nat → Word
  mem : Memory 64
  events : List Event

/-- Where a run stands: before an instruction of a block. -/
structure At where
  block : Nat
  pos : Nat
  m : MemMachine

/-- What one instruction leads to. -/
inductive Reached where
  | at_ (s : At)
  | returned (v : Word) (m : MemMachine)
  | unreachable (m : MemMachine)
  /-- An operation without a value. -/
  | undefined
  /-- The end of a block without a terminator. -/
  | fell
  /-- A block that does not exist. -/
  | lost

/-- The instructions that may change the memory besides a store. -/
def writesMemory : IrOp → Bool
  | .memcopy | .bitstore | .vbinary | .vunary | .vsplat | .vselect | .vshuffle
  | .lifeStart | .lifeEnd | .call => true
  | _ => false

section Exec

variable (M : Meaning)

/-- The value of an operand. -/
def valueOf (m : MemMachine) (o : IrOperand) : Word :=
  match o.kind with
  | .temp => m.regs o.val
  | .none => 0
  | kind => M.trim o.type (M.constant kind o.val)

/-- An operand as an event shows it. -/
def shownArg (m : MemMachine) (o : IrOperand) : Arg :=
  match o.kind with
  | .none => .none
  | .block => .block o.val
  | _ => .value o.type (valueOf M m o).toNat

/-- What is seen of an instruction: the operation and the values of its operands. -/
def shownEvent (m : MemMachine) (inst : IrInst) : Event :=
  { op := inst.op, type := inst.type, of := inst.of, field := inst.field,
    member := inst.member, args := inst.operands.map (shownArg M m) }

/-- Write a result, where the instruction has one. -/
def MemMachine.write (m : MemMachine) (result : Nat) (v : Word) : MemMachine :=
  if result = irNoResult then m
  else { m with regs := Function.update m.regs result v }

/-- Run an instruction that is not a terminator. -/
def stepInst (inst : IrInst) (m : MemMachine) : Option MemMachine :=
  match inst.op with
  | .copy => some (m.write inst.result (M.trim inst.type (valueOf M m inst.a)))
  | .ptradd => some (m.write inst.result (valueOf M m inst.a + valueOf M m inst.b))
  | .load =>
    some (m.write inst.result (M.trim inst.type (M.decode inst.type
      (readBytes m.mem (valueOf M m inst.a) (M.size inst.type)))))
  | .store =>
    let v := M.encode inst.type (valueOf M m inst.a)
    some { m with mem := writeBytes m.mem (valueOf M m inst.b) (M.size inst.type) v }
  | op =>
    if isComputed op then
      (M.compute (shownEvent M m inst)).map fun v => m.write inst.result (M.trim inst.type v)
    else
      let events := shownEvent M m inst :: m.events
      let mem := if writesMemory op then M.effect events m.mem else m.mem
      some (({ m with mem := mem, events := events }).write inst.result
        (M.trim inst.type (M.answer events m.mem)))

/-- Leave a block. -/
def leave (inst : IrInst) (m : MemMachine) : Reached :=
  match inst.op with
  | .jump => .at_ ⟨inst.a.val, 0, m⟩
  | .branch => .at_ ⟨if valueOf M m inst.a ≠ 0 then inst.b.val else inst.c.val, 0, m⟩
  | .branchOv => .at_ ⟨if M.overflow m.events then inst.b.val else inst.c.val, 0, m⟩
  | .ret => .returned (if inst.type = .void then 0 else valueOf M m inst.a) m
  | _ => .unreachable m

/-- Run the instruction before which a run stands. -/
def stepAt (code : List (List IrInst)) (s : At) : Reached :=
  match code[s.block]? with
  | none => .lost
  | some insts =>
    match insts[s.pos]? with
    | none => .fell
    | some inst =>
      if isTerminator inst.op then leave M inst s.m
      else
        match stepInst M inst s.m with
        | none => .undefined
        | some m => .at_ ⟨s.block, s.pos + 1, m⟩

/-- Run `n` instructions. -/
def runSteps (code : List (List IrInst)) : Nat → At → Reached
  | 0, s => .at_ s
  | n + 1, s =>
    match stepAt M code s with
    | .at_ s => runSteps code n s
    | r => r

/-- The instruction before which a run stands, as it is seen. -/
def shownAt (code : List (List IrInst)) (s : At) : Option Event :=
  ((code[s.block]?).bind fun insts => insts[s.pos]?).map (shownEvent M s.m)

/-- The instruction at a place. -/
def instAt (code : List (List IrInst)) (p : Nat × Nat) : Option IrInst :=
  (code[p.1]?).bind fun insts => insts[p.2]?

/-- The start of a function. -/
def startAt (m : MemMachine) : At := ⟨0, 0, m⟩

end Exec

/-! ## Two codes in lockstep -/

section Lockstep

variable {M : Meaning} {code code' : List (List IrInst)}

/-- **Lockstep.**  Where an invariant holds at the start, is kept by each step of the first code,
    and makes each step of the second code the same, the two run alike. -/
theorem runSteps_eq (Inv : At → Prop) (hsame : ∀ s, Inv s → stepAt M code' s = stepAt M code s)
    (hkeep : ∀ s s', Inv s → stepAt M code s = .at_ s' → Inv s')
    (n : Nat) {s : At} (hs : Inv s) : runSteps M code' n s = runSteps M code n s := by
  induction n generalizing s with
  | zero => rfl
  | succ n ih =>
    rw [runSteps, runSteps, hsame s hs]
    cases hstep : stepAt M code s with
    | at_ s' => exact ih (hkeep s s' hs hstep)
    | returned | unreachable | undefined | fell | lost => rfl

theorem runSteps_inv (Inv : At → Prop) (hkeep : ∀ s s', Inv s → stepAt M code s = .at_ s' → Inv s')
    (n : Nat) {s s' : At} (hs : Inv s) (hrun : runSteps M code n s = .at_ s') : Inv s' := by
  induction n generalizing s with
  | zero =>
    cases hrun
    exact hs
  | succ n ih =>
    rw [runSteps] at hrun
    cases hstep : stepAt M code s with
    | at_ s₁ =>
      rw [hstep] at hrun
      exact ih (hkeep s s₁ hs hstep) hrun
    | returned | unreachable | undefined | fell | lost =>
      rw [hstep] at hrun
      cases hrun

end Lockstep

section Facts

variable {M : Meaning} {m : MemMachine}

theorem write_regs (m : MemMachine) (result : Nat) (v : Word) (x : Nat) :
    (m.write result v).regs x =
      if result ≠ irNoResult ∧ x = result then v else m.regs x := by
  unfold MemMachine.write
  by_cases hr : result = irNoResult
  · simp [hr]
  · by_cases hx : x = result
    · simp [hr, hx]
    · simp [hr, hx]

@[simp] theorem write_mem (m : MemMachine) (result : Nat) (v : Word) :
    (m.write result v).mem = m.mem := by
  unfold MemMachine.write
  split <;> rfl

theorem valueOf_congr {m' : MemMachine} {o : IrOperand}
    (h : o.kind = .temp → m'.regs o.val = m.regs o.val) : valueOf M m' o = valueOf M m o := by
  unfold valueOf
  split
  · next hk => exact h hk
  · rfl
  · rfl

theorem stepInst_regs {inst : IrInst} {m' : MemMachine} (h : stepInst M inst m = some m')
    {x : Nat} (hx : x ≠ inst.result ∨ inst.result = irNoResult) : m'.regs x = m.regs x := by
  have hwrite (m₁ : MemMachine) (v : Word) (hregs : m₁.regs = m.regs) :
      (m₁.write inst.result v).regs x = m.regs x := by
    rw [write_regs, if_neg, hregs]
    rintro ⟨hres, he⟩
    rcases hx with hx | hx
    · exact hx he
    · exact hres hx
  unfold stepInst at h
  split at h
  · cases h
    exact hwrite m _ rfl
  · cases h
    exact hwrite m _ rfl
  · cases h
    exact hwrite m _ rfl
  · cases h
    rfl
  · split at h
    · obtain ⟨v, -, rfl⟩ := Option.map_eq_some_iff.1 h
      exact hwrite m _ rfl
    · cases h
      exact hwrite _ _ rfl

end Facts

/-! ## A machine -/

section Machine

theorem irFoldBits_eq (type : IrType) : irFoldBits type = 8 * (irFoldBits type / 8) := by
  cases type <;> rfl

/-- A machine whose values are the low bits of a register. -/
def plainMachine : Meaning where
  trim type v := BitVec.ofNat 64 (irFoldTrim type v.toNat)
  trim_trim type v := by
    have hle : 2 ^ irFoldBits type ≤ 2 ^ 64 :=
      Nat.pow_le_pow_right (by norm_num) (irFoldBits_le type)
    have hlt : irFoldTrim type v.toNat < 2 ^ irFoldBits type := Nat.mod_lt _ (by positivity)
    rw [BitVec.toNat_ofNat, Nat.mod_eq_of_lt (Nat.lt_of_lt_of_le hlt hle)]
    exact congrArg _ (Nat.mod_mod _ _)
  constant _ n := BitVec.ofNat 64 n
  size type := irFoldBits type / 8
  size_le type := by cases type <;> decide
  encode _ v := v.toNat
  decode _ n := BitVec.ofNat 64 n
  decode_encode type v := by
    have hpow : 256 ^ (irFoldBits type / 8) = 2 ^ irFoldBits type := by
      rw [show (256 : Nat) = 2 ^ 8 from rfl, ← Nat.pow_mul, ← irFoldBits_eq]
    have hle : 2 ^ irFoldBits type ≤ 2 ^ 64 :=
      Nat.pow_le_pow_right (by norm_num) (irFoldBits_le type)
    have hlt : v.toNat % 2 ^ irFoldBits type < 2 ^ irFoldBits type := Nat.mod_lt _ (by positivity)
    rw [hpow, BitVec.toNat_ofNat, Nat.mod_eq_of_lt (Nat.lt_of_lt_of_le hlt hle)]
    exact congrArg _ (Nat.mod_mod _ _)
  compute _ := none
  answer _ _ := 0
  effect _ mem := mem
  overflow _ := false
  constant_int _ := rfl
  trim_i64 v := by
    show BitVec.ofNat 64 (v.toNat % 2 ^ 64) = v
    rw [Nat.mod_eq_of_lt v.isLt, BitVec.ofNat_toNat, BitVec.setWidth_eq]
  trim_ptr v := by
    show BitVec.ofNat 64 (v.toNat % 2 ^ 64) = v
    rw [Nat.mod_eq_of_lt v.isLt, BitVec.ofNat_toNat, BitVec.setWidth_eq]

end Machine

end AnticIr
