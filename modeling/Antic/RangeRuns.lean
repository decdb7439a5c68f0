import Antic.RangeLoop
import Antic.RangeValues

/-! # Running a range loop

    `RangeCode` is what the lowering of a range leaves in the blocks of the function:
    the four pieces that `range_start` and `range_step` build, and between them the code
    of the bounds and of the body, which leaves the temporaries of the loop alone.

    A run from the copy of the low bound on is followed block by block (`InLoop`), with
    the value of the counter at each turn of the body.  `LoopState` is the invariant: it
    says in which block the run is, and how many turns are over. -/

namespace AnticIr

open MachineInt

-- ── The pieces ────

/-- What `range_start` appends behind the code of the high bound. -/
def enterInsts (w : ForWalk) (highRead : IrOperand) (first : Nat) : List IrInst :=
  [{ op := .copy, type := w.counterType, result := w.high.val, a := highRead },
   { op := .copy, type := w.counterType, result := w.counter, a := w.low },
   { op := if w.unsignedRange then .ult else .slt, type := .i8, result := w.counter + 1,
     a := w.low, b := w.high },
   { op := .branch, type := .void, a := ⟨.temp, .i8, w.counter + 1⟩, b := irBlockOp first,
     c := irBlockOp w.exit }]

/-- The block that finds the first value of a walk downwards, from temporary `t` on. -/
def firstInsts (w : ForWalk) (t : Nat) : List IrInst :=
  let type := w.counterType
  [{ op := .sub, type, result := t, a := w.high, b := w.low },
   { op := .sub, type, result := t + 1, a := ⟨.temp, type, t⟩, b := irIntOp type 1 },
   { op := .udiv, type, result := t + 2, a := ⟨.temp, type, t + 1⟩, b := irIntOp type w.k },
   { op := .mul, type, result := t + 3, a := ⟨.temp, type, t + 2⟩, b := irIntOp type w.k },
   { op := .add, type, result := t + 4, a := w.low, b := ⟨.temp, type, t + 3⟩ },
   { op := .copy, type, result := w.counter, a := ⟨.temp, type, t + 4⟩ },
   { op := .jump, type := .void, a := irBlockOp w.body }]

/-- The step block, from temporary `t` on. -/
def stepInsts (w : ForWalk) (t advance : Nat) : List IrInst :=
  let type := w.counterType
  let counter : IrOperand := ⟨.temp, type, w.counter⟩
  [{ op := .sub, type, result := t, a := if w.down then counter else w.high,
     b := if w.down then w.low else counter },
   { op := if w.down then .ult else .ule, type := .i8, result := t + 1,
     a := ⟨.temp, type, t⟩, b := irIntOp type w.k },
   { op := .branch, type := .void, a := ⟨.temp, .i8, t + 1⟩, b := irBlockOp w.exit,
     c := irBlockOp advance }]

/-- The block that moves the counter, from temporary `t` on. -/
def advanceInsts (w : ForWalk) (t : Nat) : List IrInst :=
  let type := w.counterType
  [{ op := if w.down then .sub else .add, type, result := t, a := ⟨.temp, type, w.counter⟩,
     b := irIntOp type w.k, field := w.wrap },
   { op := .copy, type, result := w.counter, a := ⟨.temp, type, t⟩ },
   { op := .jump, type := .void, a := irBlockOp w.body }]

/-- The temporaries that the loop keeps from turn to turn. -/
def ForWalk.keeps (w : ForWalk) (t : Nat) : Prop := t = w.low.val ∨ t = w.high.val ∨ t = w.counter

/-- The code at a place, up to where the loop is entered. -/
structure Reading (code : List (List IrInst)) (w : ForWalk) (places : RangePlaces)
    (known reads : Nat → Prop) (place : Nat × Nat) (insts tail : List IrInst) : Prop where
  rest : restAt code place = insts ++ tail
  apart : ∀ inst ∈ insts, Apart (· = w.low.val) (fun b => reads b ∨ known b) inst
  ends : (places.enterAt = (place.1, place.2 + insts.length) ∧
      tail = enterInsts w places.highRead places.first) ∨
    (places.enterAt.1 ≠ place.1 ∧ tail = [])

/-- **The code of a range loop.**  `known` are the blocks that statements around the loop
    know, `reads` those of the high bound, and `inner` those of the body. -/
structure RangeCode (code : List (List IrInst)) (w : ForWalk) (places : RangePlaces)
    (advance : Nat) (known reads inner : Nat → Prop) : Prop where
  low_eq : w.low = ⟨.temp, w.counterType, w.low.val⟩
  high_eq : w.high = ⟨.temp, w.counterType, w.high.val⟩
  counter_eq : w.counter = w.high.val + 1
  low_lt : w.low.val < w.high.val
  first_eq : ¬ w.down → places.first = w.body
  low : ∃ insts tail, restAt code places.lowAt =
      { op := .copy, type := w.counterType, result := w.low.val, a := places.lowRead } ::
        (insts ++ tail) ∧
    Reading code w places known reads (places.lowAt.1, places.lowAt.2 + 1) insts tail
  reads : ∀ b, reads b → ∃ insts tail, Reading code w places known reads (b, 0) insts tail
  enter : restAt code places.enterAt = enterInsts w places.highRead places.first
  first : w.down → restAt code (places.first, 0) = firstInsts w (w.counter + 2)
  body : ∀ b, b = w.body ∨ inner b → ∀ inst ∈ restAt code (b, 0),
    Apart w.keeps (fun b => inner b ∨ b = w.step ∨ b = w.exit ∨ known b) inst
  step : ∃ t, w.counter + 1 < t ∧ t + 2 < irNoResult ∧
    restAt code (w.step, 0) = stepInsts w t advance ∧
    restAt code (advance, 0) = advanceInsts w (t + 2)
  bound : w.counter + 1 < irNoResult
  first_bound : w.down → w.counter + 6 < irNoResult
  apart : w.body ≠ w.step ∧ w.body ≠ w.exit ∧ w.body ≠ advance ∧ w.step ≠ w.exit ∧
    w.step ≠ advance ∧ w.exit ≠ advance
  first_apart : w.down → places.first ≠ w.body ∧ places.first ≠ w.step ∧
    places.first ≠ w.exit ∧ places.first ≠ advance
  inner_apart : ∀ b, inner b → b ≠ w.body ∧ b ≠ w.step ∧ b ≠ w.exit ∧ b ≠ advance ∧
    (w.down → b ≠ places.first)
  new : ∀ b, b = w.body ∨ b = w.step ∨ b = w.exit ∨ b = advance ∨ b = places.first → ¬ known b

-- ── Runs ────

section Exec

variable (fl : Floats) (env : Env)

/-- What an arrival at a block adds to the values of the turns. -/
def visit (w : ForWalk) (b : Nat) (m : Machine) (visits : List Nat) : List Nat :=
  if b = w.body then visits ++ [m.regs w.counter] else visits

/-- The run that enters the loop with machine `m₀` is at a block, after the turns of these values:
    it has not left through the exit or to a block that statements around the loop know. -/
inductive InLoop (code : List (List IrInst)) (w : ForWalk) (enterAt : Nat × Nat)
    (known : Nat → Prop) (m₀ : Machine) : List Nat → Nat → Machine → Prop
  | enter {b : Nat} {m : Machine} :
      execBlock fl env (restAt code enterAt) m₀ = .goto b m → ¬ known b →
      InLoop code w enterAt known m₀ (visit w b m []) b m
  | next {visits : List Nat} {b b' : Nat} {m m' : Machine} :
      InLoop code w enterAt known m₀ visits b m → b ≠ w.exit →
      execBlock fl env (restAt code (b, 0)) m = .goto b' m' → ¬ known b' →
      InLoop code w enterAt known m₀ (visit w b' m' visits) b' m'

/-- Whether an operation keeps what it is marked with: the exact result lies in the
    signed values for `IR_NSW`, and in the unsigned ones for `IR_NUW`. -/
def MarkHolds (inst : IrInst) (m : Machine) : Prop :=
  let n := irFoldBits inst.type
  let a := operandValue fl env m inst.a
  let b := operandValue fl env m inst.b
  let exact := fun x y : Int => match inst.op with
    | .add => x + y
    | .sub => x - y
    | .mul => x * y
    | _ => 0
  (inst.field &&& irNsw ≠ 0 → -2 ^ (n - 1) ≤ exact (signed n a) (signed n b) ∧
    exact (signed n a) (signed n b) < 2 ^ (n - 1)) ∧
  (inst.field &&& irNuw ≠ 0 → 0 ≤ exact a b ∧ exact a b < 2 ^ n)

/-- In a run of these instructions every mark holds. -/
def MarksHold : List IrInst → Machine → Prop
  | [], _ => True
  | inst :: rest, m =>
    MarkHolds fl env inst m ∧ ∀ m', execInst fl env inst m = some m' → MarksHold rest m'

/-- **What a range loop does**, once it is entered with machine `m₀`: its turns are those of
    `values`.

    * In every run, whatever the body does, the turns so far are the first of the values.
    * The loop begins with a turn unless there are no values, and a turn that comes to the step is
      followed by another one until the values are used up.
    * So where every turn comes to the step, the run leaves through the exit after all of them.
    * No operation of the loop breaks what it is marked with. -/
structure VisitsExactly (code : List (List IrInst)) (w : ForWalk) (places : RangePlaces)
    (advance : Nat) (known : Nat → Prop) (m₀ : Machine) (values : List Nat) : Prop where
  visits : ∀ visits b m, InLoop fl env code w places.enterAt known m₀ visits b m → visits <+: values
  starts : (values = [] ∧ ∃ m, InLoop fl env code w places.enterAt known m₀ [] w.exit m) ∨
    (values ≠ [] ∧ ∃ v m, InLoop fl env code w places.enterAt known m₀ [v] w.body m)
  steps : ∀ visits m, InLoop fl env code w places.enterAt known m₀ visits w.step m →
    (visits = values ∧ ∃ m', InLoop fl env code w places.enterAt known m₀ visits w.exit m') ∨
    (visits ≠ values ∧ ∃ v m', InLoop fl env code w places.enterAt known m₀ (visits ++ [v])
      w.body m')
  ends : (∀ visits m, InLoop fl env code w places.enterAt known m₀ visits w.body m →
      ∃ m', Along fl env code (fun b => b = w.exit ∨ known b) (w.body, 0) m (w.step, 0) m') →
    ∃ m, InLoop fl env code w places.enterAt known m₀ values w.exit m
  enterMarks : MarksHold fl env (restAt code places.enterAt) m₀
  marks : ∀ visits b m, InLoop fl env code w places.enterAt known m₀ visits b m →
    b = w.step ∨ b = advance ∨ (w.down = true ∧ b = places.first) →
      MarksHold fl env (restAt code (b, 0)) m

end Exec

end AnticIr
