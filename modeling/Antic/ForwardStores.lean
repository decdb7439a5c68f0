import Antic.IrMemory
import Antic.Optimize

/-! # Store-to-load forwarding — `forward_stores` of `optimize.c`

    Inside one block the pass remembers the last value stored to an address or loaded from it, and
    turns a second load of that address into a copy.  The IR is not in SSA form, so an address is a
    base temporary and an offset operand, and a write of one of them makes it unknown. -/

namespace AnticIr

/-- `struct address`. -/
structure Address where
  base : IrOperand
  offset : IrOperand
  known : Bool
  deriving DecidableEq, Repr

/-- An address of zero bytes. -/
def Address.none : Address := ⟨.absent, .absent, false⟩

/-- `names_temp`. -/
def namesTemp (o : IrOperand) (t : Nat) : Bool := o.kind = .temp ∧ o.val = t

/-- `ir_same_scalar`. -/
def irSameScalar (a b : IrOperand) : Bool :=
  match a.kind with
  | .none => true
  | .temp | .int | .float => a.val = b.val
  | _ => false

/-- `same_operand`. -/
def sameOperand (a b : IrOperand) : Bool :=
  if a.kind ≠ b.kind then false
  else
    match a.kind with
    | .global | .func | .block | .sym => a.val = b.val
    | _ => irSameScalar a b

/-- The turn of `address_of` for one instruction. -/
def addressTurn (at_ : IrOperand) (a : Address) (inst : IrInst) : Address :=
  if inst.result = at_.val then
    if inst.op = .ptradd then
      ⟨inst.a, inst.b, inst.a.kind = .temp ∧ !namesTemp inst.a inst.result ∧
        !namesTemp inst.b inst.result⟩
    else ⟨at_, irIntOp .i64 0, true⟩
  else if inst.result ≠ irNoResult ∧
      (namesTemp a.base inst.result ∨ namesTemp a.offset inst.result) then
    { a with known := false }
  else a

/-- `address_of`, with the instructions of the block before `upto`. -/
def addressOf (before : List IrInst) (at_ : IrOperand) : Address :=
  let start : Address := ⟨at_, irIntOp .i64 0, at_.kind = .temp⟩
  if at_.kind = .temp then before.foldl (addressTurn at_) start else start

/-- `same_address`. -/
def sameAddress (a b : Address) : Bool :=
  a.known && b.known && sameOperand a.base b.base && sameOperand a.offset b.offset

/-- What `forward_stores` remembers: the address, the value and its type. -/
structure Held where
  held : Address
  value : IrOperand
  type : IrType

/-- Nothing remembered. -/
def Held.start : Held := ⟨.none, .absent, .void⟩

/-- `ir_temp_op`. -/
def irTempOp (temps : List IrType) (t : Nat) : IrOperand := ⟨.temp, temps.getD t .void, t⟩

/-- A write of a temporary that is remembered. -/
def Held.written (h : Held) (inst : IrInst) : Held :=
  if inst.result ≠ irNoResult ∧ (namesTemp h.value inst.result ∨ namesTemp h.held.base inst.result ∨
        namesTemp h.held.offset inst.result) then
    { h with held := .none }
  else h

/-- The instructions that wipe what is remembered. -/
def wipes : IrOp → Bool
  | .call | .memcopy | .bitstore | .bitload | .vbinary | .vunary | .vsplat
  | .vselect | .vshuffle | .lifeStart | .lifeEnd => true
  | _ => false

/-- The turn of `forward_stores` for one instruction. -/
def forwardTurn (temps : List IrType) (before : List IrInst) (h : Held) (inst : IrInst) :
    IrInst × Held :=
  let h := h.written inst
  match inst.op with
  | .load =>
    let at_ := addressOf before inst.a
    if h.held.known ∧ sameAddress h.held at_ ∧ h.type = inst.type then
      (makeCopy inst h.value, h)
    else if namesTemp at_.base inst.result ∨ namesTemp at_.offset inst.result then
      (inst, { h with held := .none })
    else (inst, ⟨at_, irTempOp temps inst.result, inst.type⟩)
  | .store =>
    let at_ := addressOf before inst.b
    let h := if !h.held.known ∨ !sameAddress h.held at_ then { h with held := .none } else h
    (inst, if at_.known then ⟨at_, inst.a, inst.type⟩ else h)
  | op => (inst, if wipes op then { h with held := .none } else h)

/-- The turns for the rest of a block, with the instructions before as they then stand. -/
def forwardFrom (temps : List IrType) : List IrInst → Held → List IrInst → List IrInst
  | _, _, [] => []
  | before, h, inst :: rest =>
    let (inst, h) := forwardTurn temps before h inst
    inst :: forwardFrom temps (before ++ [inst]) h rest

/-- `forward_stores` on one block. -/
def forwardBlock (temps : List IrType) (insts : List IrInst) : List IrInst :=
  forwardFrom temps [] .start insts

/-- `forward_stores`. -/
def forwardStores (f : IrFunction) : IrFunction :=
  { f with blocks := f.blocks.map fun b => { b with insts := forwardBlock f.temps b.insts } }

end AnticIr
