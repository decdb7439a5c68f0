import Antic.IrMemory
import Antic.Optimize

/-! # Copy propagation — `propagate_copies` of `optimize.c`

    Inside one block, a use after `x = copy v` and before the next definition of `x` or of `v` reads
    `v`.  Across blocks, `x = copy v` replaces every use of `x` when `x` has a single definition,
    and `v` is a constant, a parameter that no instruction assigns, or a temporary with a single
    definition earlier in the same block. -/

namespace AnticIr

/-- Change the operands of an instruction. -/
def IrInst.mapOperands (g : IrOperand → IrOperand) (inst : IrInst) : IrInst :=
  { inst with a := g inst.a, b := g inst.b, c := g inst.c, args := inst.args.map g }

/-- The array `known`: what each temporary is a copy of, or the absent operand.  The
    list `active` of the source names the temporaries that are known. -/
abbrev Known := Nat → IrOperand

/-- An operand, or what it is a copy of. -/
def Known.look (known : Known) (o : IrOperand) : IrOperand :=
  if o.kind = .temp ∧ (known o.val).kind ≠ .none then known o.val else o

/-- What is known after the definition of `r`. -/
def Known.kill (known : Known) (r : Nat) : Known :=
  fun t => if t = r ∨ isTemp (known t) r then .absent else known t

/-- What is known after an instruction, whose operands were looked up. -/
def Known.turn (known : Known) (inst : IrInst) : Known :=
  if inst.result = irNoResult then known
  else
    let known := known.kill inst.result
    if inst.op = .copy ∧ isTemp inst.a inst.result = false then
      Function.update known inst.result inst.a
    else known

/-- The loop of `propagate_in_block`. -/
def propagateFrom : Known → List IrInst → List IrInst
  | _, [] => []
  | known, inst :: rest =>
    let inst := inst.mapOperands known.look
    inst :: propagateFrom (known.turn inst) rest

/-- `propagate_in_block`. -/
def propagateInBlock (insts : List IrInst) : List IrInst := propagateFrom (fun _ => .absent) insts

/-- The operand that replaces a use of `temp`. -/
def replaceUse (temp : Nat) (value o : IrOperand) : IrOperand :=
  if isTemp o temp then value else o

/-- `replace_uses`. -/
def replaceUses (code : List (List IrInst)) (temp : Nat) (value : IrOperand) :
    List (List IrInst) :=
  code.map (List.map (IrInst.mapOperands (replaceUse temp value)))

/-- The places of a code, in order. -/
def places (code : List (List IrInst)) : List (Nat × Nat) :=
  (List.range code.length).flatMap fun b => (List.range (code.getD b []).length).map fun i => (b, i)

/-- The instruction at a place defines a temporary. -/
def definesAt (code : List (List IrInst)) (t : Nat) (p : Nat × Nat) : Bool :=
  match instAt code p with
  | none => false
  | some inst => inst.result ≠ irNoResult ∧ inst.result = t

/-- The members `block` and `index` of `struct counts`: where a temporary was defined last. -/
def countPlace (code : List (List IrInst)) (t : Nat) : Nat × Nat :=
  (places code).foldl (fun last p => if definesAt code t p then p else last) (0, 0)

/-- The turn of the second loop of `propagate_copies` for the place `p`. -/
def propagateTurn (defs : Nat → Nat) (place : Nat → Nat × Nat) (paramCount : Nat)
    (code : List (List IrInst)) (p : Nat × Nat) : List (List IrInst) :=
  match instAt code p with
  | none => code
  | some inst =>
    let x := inst.result
    let y := inst.a.val
    if inst.op ≠ .copy ∨ defs x ≠ 1 ∨ isTemp inst.a x then code
    else if isConstant inst.a ∨ (inst.a.kind = .temp ∧ defs y = 1 ∧
        (y < paramCount ∨ ((place y).1 = p.1 ∧ (place y).2 < p.2))) then
      replaceUses code x inst.a
    else code

/-- `propagate_copies` on the blocks. -/
def propagateCode (f : IrFunction) : List (List IrInst) :=
  let code := f.code.map propagateInBlock
  (places code).foldl (propagateTurn (count f).defs (countPlace code) f.params.length) code

/-- `propagate_copies`. -/
def propagateCopies (f : IrFunction) : IrFunction :=
  { f with
    blocks := List.zipWith (fun b insts => { b with insts := insts }) f.blocks
      (propagateCode f) }

end AnticIr
