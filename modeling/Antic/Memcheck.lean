import Antic.IrMemory
import Antic.Layout

/-! # The checks of `--memory-checks` — `memcheck.c`

    `memcheck_function` puts a call before every access of a function that may reach outside its
    frame and the globals.  Which temporaries stay inside is the greatest solution that the loop of
    `frame_addresses` finds.

    The second half says what the checks are for, from the code that the back end emits: the bytes
    that an instruction touches, and where the address in a temporary came from. -/

namespace AnticMemcheck

open AnticIr AnticLayout

/-! ## The addresses of the frame -/

section Frame

variable (f : IrFunction)

/-- `from_frame` of `frame_addresses`: the instruction gives an address in the
    frame or in a global, where the temporaries of `frame` hold one. -/
def fromFrame (frame : Finset Nat) (inst : IrInst) : Bool :=
  inst.op = .slot || (inst.op = .addr && inst.a.kind = .global) ||
  ((inst.op = .copy || inst.op = .ptradd) && inst.a.kind = .temp && inst.a.val ∈ frame)

/-- The temporaries that an instruction writes. -/
def written : Finset Nat :=
  ((f.insts.filter fun inst => inst.result ≠ irNoResult).map IrInst.result).toFinset

/-- The body of the loops of `frame_addresses`. -/
def dropForeign (frame : Finset Nat) (inst : IrInst) : Finset Nat :=
  if inst.result ≠ irNoResult ∧ inst.result ∈ frame ∧ fromFrame frame inst = false then
    frame.erase inst.result
  else frame

/-- One turn of `while (changed)`. -/
def frameTurn (frame : Finset Nat) : Finset Nat := f.insts.foldl dropForeign frame

/-- `while (changed)`, with the turns left.  A turn that changes something takes a temporary out. -/
def frameLoop : Nat → Finset Nat → Finset Nat
  | 0, frame => frame
  | turns + 1, frame =>
    let next := frameTurn f frame
    if next = frame then frame else frameLoop turns next

/-- `frame_addresses`. -/
def frameAddresses : Finset Nat := frameLoop f ((written f).card + 1) (written f)

end Frame

/-! ## The checks -/

/-- `is_comparison`, on the number of an operation. -/
def isComparison (op : Nat) : Bool :=
  (IrOp.eq.num ≤ op && op ≤ IrOp.uge.num) || (IrOp.feq.num ≤ op && op ≤ IrOp.fge.num)

/-- `m->memcheck_load` and `m->memcheck_store`. -/
structure Checks where
  load : Nat
  store : Nat
  deriving DecidableEq, Repr

section Insert

variable (m : IrModule) (l : Layouts) (entry : Checks) (frame : Finset Nat)

/-- The call that `check` appends. -/
def checkCall (store : Bool) (address : IrOperand) (size line : Nat) : IrInst :=
  { op := .call, type := .void, line := line, result := irNoResult,
    a := ⟨.func, .ptr, if store then entry.store else entry.load⟩,
    of := ⟨.void, 0⟩, args := [address, irIntOp .i64 size] }

/-- `check`. -/
def check (store : Bool) (address : IrOperand) (size line : Nat) : List IrInst :=
  if size = 0 ∨ address.kind = .global ∨ (address.kind = .temp ∧ address.val ∈ frame) then []
  else [checkCall entry store address size line]

/-- `lanes`: the bytes of the lanes of a value of the aggregate, or of a mask. -/
def lanes (inst : IrInst) (mask : Bool) : Nat :=
  match m.aggs[inst.of.agg]? with
  | none => 0
  | some agg => agg.fields.length * if mask then 1 else sizeOf l (irScalar inst.type)

/-- `bit_unit_end`. -/
def bitUnitEnd (inst : IrInst) : Nat :=
  let bits := (l.aggs inst.of.agg).bits.getD inst.field {}
  bits.unitOffset + sizeOf l (irScalar bits.unitType)

/-- `check_inst`. -/
def checkInst (inst : IrInst) : List IrInst :=
  let check := check entry frame
  let cmp := isComparison inst.field
  let fold := inst.field = IrOp.or.num ∨ inst.field = IrOp.and.num
  match inst.op with
  | .load => check false inst.a (sizeOf l (irScalar inst.type)) inst.line
  | .store => check true inst.b (sizeOf l (irScalar inst.type)) inst.line
  | .bitload => check false inst.a (bitUnitEnd l inst) inst.line
  | .bitstore => check true inst.b (bitUnitEnd l inst) inst.line
  | .memcopy =>
    check false inst.b (sizeOf l inst.of) inst.line ++
    check true inst.a (sizeOf l inst.of) inst.line
  | .vbinary =>
    check false inst.b (lanes m l inst false) inst.line ++
    check false inst.c (lanes m l inst false) inst.line ++
    check true inst.a (lanes m l inst cmp) inst.line
  | .vunary | .vshuffle =>
    check false inst.b (lanes m l inst false) inst.line ++
    check true inst.a (lanes m l inst false) inst.line
  | .vsplat => check true inst.a (lanes m l inst false) inst.line
  | .vselect =>
    check false inst.b (lanes m l inst true) inst.line ++
    check false inst.c (lanes m l inst false) inst.line ++
    check false (inst.args.getD 0 .absent) (lanes m l inst false) inst.line ++
    check true inst.a (lanes m l inst false) inst.line
  | .vreduce => check false inst.a (lanes m l inst fold) inst.line
  | _ => []

/-- The instructions of a block with the checks put in. -/
def checkedInsts (insts : List IrInst) : List IrInst :=
  insts.flatMap fun inst => checkInst m l entry frame inst ++ [inst]

/-- `memcheck_function`. -/
def memcheckFunction (f : IrFunction) : IrFunction :=
  { f with blocks := f.blocks.map fun block =>
      { block with insts := checkedInsts m l entry (frameAddresses f) block.insts } }

end Insert

/-! ## What an instruction touches -/

/-- Bytes that an instruction reads or writes: those from `first` up to `last`
    after the address in an operand. -/
structure Touch where
  store : Bool
  address : IrOperand
  first : Nat
  last : Nat
  deriving DecidableEq, Repr

section Touches

variable (m : IrModule) (l : Layouts)

/-- The bytes of a value that a load or a store moves.  No register holds an aggregate. -/
def valueBytes (type : IrType) : Nat :=
  if type = .agg then 0 else scalarSize l.target type

/-- The bytes of a vector of lanes of `bytes` bytes, one lane for each field. -/
def vectorBytes (inst : IrInst) (bytes : Nat) : Nat :=
  match m.aggs[inst.of.agg]? with
  | none => 0
  | some agg => agg.fields.length * bytes

/-- The unit that an access of a bitfield loads and stores. -/
def unitTouch (store : Bool) (address : IrOperand) (inst : IrInst) : Touch :=
  let bits := (l.aggs inst.of.agg).bits.getD inst.field {}
  ⟨store, address, bits.unitOffset, bits.unitOffset + valueBytes l bits.unitType⟩

/-- What the code of an instruction touches, as the back end emits it.  A simd
    comparison stores one byte for each lane, and a select reads its mask so; every
    other vector has the lanes of the instruction. -/
def touches (inst : IrInst) : List Touch :=
  let whole := vectorBytes m inst (valueBytes l inst.type)
  let mask := vectorBytes m inst 1
  match inst.op with
  | .load => [⟨false, inst.a, 0, valueBytes l inst.type⟩]
  | .store => [⟨true, inst.b, 0, valueBytes l inst.type⟩]
  | .bitload => [unitTouch l false inst.a inst]
  | .bitstore => [unitTouch l true inst.b inst]
  | .memcopy => [⟨false, inst.b, 0, sizeOf l inst.of⟩, ⟨true, inst.a, 0, sizeOf l inst.of⟩]
  | .vbinary =>
    [⟨false, inst.b, 0, whole⟩, ⟨false, inst.c, 0, whole⟩,
      ⟨true, inst.a, 0, if isComparison inst.field then mask else whole⟩]
  | .vunary | .vshuffle => [⟨false, inst.b, 0, whole⟩, ⟨true, inst.a, 0, whole⟩]
  | .vsplat => [⟨true, inst.a, 0, whole⟩]
  | .vselect =>
    [⟨false, inst.b, 0, mask⟩, ⟨false, inst.c, 0, whole⟩,
      ⟨false, inst.args.getD 0 .absent, 0, whole⟩, ⟨true, inst.a, 0, whole⟩]
  | .vreduce => [⟨false, inst.a, 0, whole⟩]
  | _ => []

end Touches

/-! ## Where an address came from -/

/-- The origin of a value: a slot of the frame or a global, the value that a
    temporary held when the function was entered, or anything else. -/
inductive Origin where
  | own
  | entry (temp : Nat)
  | foreign
  deriving DecidableEq, Repr

/-- The origin of an operand. -/
def operandOrigin (origin : Nat → Origin) (o : IrOperand) : Origin :=
  match o.kind with
  | .temp => origin o.val
  | .global => .own
  | _ => .foreign

/-- The origin of a result: a copy and an offset keep the one of their operand. -/
def resultOrigin (origin : Nat → Origin) (inst : IrInst) : Origin :=
  match inst.op with
  | .slot => .own
  | .addr | .copy | .ptradd => operandOrigin origin inst.a
  | _ => .foreign

/-- The origins after an instruction. -/
def track (origin : Nat → Origin) (inst : IrInst) : Nat → Origin :=
  if isTerminator inst.op ∨ inst.op = .store ∨ inst.result = irNoResult then origin
  else Function.update origin inst.result (resultOrigin origin inst)

/-- The states of the runs of `code` from `m₀`, with the origin of each temporary. -/
inductive Tracked (M : Meaning) (code : List (List IrInst)) (m₀ : MemMachine) :
    At → (Nat → Origin) → Prop
  | start : Tracked M code m₀ (startAt m₀) .entry
  | step {s s' : At} {origin : Nat → Origin} {inst : IrInst} :
      Tracked M code m₀ s origin → instAt code (s.block, s.pos) = some inst →
      stepAt M code s = .at_ s' → Tracked M code m₀ s' (track origin inst)

/-- The operand holds an address that came neither from the frame or a global nor
    from what a temporary of `frameAddresses` held at the entry.  A parameter that
    is only given frame addresses is such a temporary. -/
def Foreign (f : IrFunction) (origin : Nat → Origin) (o : IrOperand) : Prop :=
  operandOrigin origin o ≠ .own ∧ ∀ x ∈ frameAddresses f, operandOrigin origin o ≠ .entry x

end AnticMemcheck
