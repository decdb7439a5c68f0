import Antic.Target
import Antic.Optimize

/-! # Giving a function the types of a target — `layout_resolve` -/

namespace AnticIr

/-- `is_conversion`. -/
def isConversion (op : IrOp) : Bool := op = .trunc ∨ op = .sext ∨ op = .zext

/-- `resolve`.  `syms` are the folded values of the symbolic values. -/
def resolveOperand (t : Target) (syms : Nat → Nat) (o : IrOperand) : IrOperand :=
  match o.kind with
  | .int => irIntOp (t.type o.type) o.val
  | .sym => irIntOp (t.type o.type) (syms o.val)
  | _ => { o with type := t.type o.type }

/-- `wchar_signedness`: the signed form of an operation on `c_wchar`, where `wchar_t` is signed. -/
def wcharSignedness (t : Target) (inst : IrInst) : IrOp :=
  if (inst.type = .cwchar ∨ inst.a.type = .cwchar) ∧ t.wcharSigned then
    signedOp inst.op
  else inst.op

/-- The turn of `layout_resolve` for one instruction.  A conversion between
    `c_long` and a type of its width on this target changes nothing. -/
def resolveInst (t : Target) (syms : Nat → Nat) (inst : IrInst) : IrInst :=
  let op := wcharSignedness t inst
  let type := t.type inst.type
  let a := resolveOperand t syms inst.a
  { inst with
    op := if isConversion op ∧ a.type = type then .copy else op,
    type := type, a := a, b := resolveOperand t syms inst.b,
    c := resolveOperand t syms inst.c,
    args := inst.args.map (resolveOperand t syms) }

/-- The symbolic values that the operands of a function name. -/
def symsOf (f : IrFunction) : List Nat :=
  ((f.insts.flatMap IrInst.operands).filter fun o => o.kind = .sym).map IrOperand.val

/-- The function with the types and the values of the target. -/
def resolveFunction (t : Target) (syms : Nat → Nat) (f : IrFunction) :
    IrFunction :=
  { f with
    result := t.type f.result,
    params := f.params.map fun p => { p with type := t.type p.type },
    temps := f.temps.map t.type,
    blocks := f.blocks.map fun b =>
      { b with insts := b.insts.map (resolveInst t syms) } }

/-- `layout_resolve`: it fails where a symbolic value does not fold. -/
def layoutResolve (t : Target) (fold : Nat → Option Nat) (f : IrFunction) :
    Option IrFunction :=
  if ∀ s ∈ symsOf f, (fold s).isSome then
    some (resolveFunction t (fun s => (fold s).getD 0) f)
  else none

end AnticIr
