import Antic.RangeRunProofs

/-! # The code of a range loop

    `lower_for` builds the pieces of `RangeCode`.  What a builder function adds to the current block
    is an `emit`, and `rangeStart_eq` and `rangeStep_eq` say what the two halves emit.
    `lowerFor_code` puts them together with the promises about the code of the bounds and of the
    body. -/

namespace AnticIr

open List

-- ── Emitting ────

/-- The instructions of a block so far. -/
def Lowerer.block (l : Lowerer) (b : Nat) : List IrInst := l.blocks.getD b []

/-- Append instructions to the current block, with their temporaries. -/
def Lowerer.emit (l : Lowerer) (types : List IrType) (insts : List IrInst) : Lowerer :=
  { l with temps := l.temps ++ types, blocks := l.blocks.modify l.b (· ++ insts) }

/-- Make a new block. -/
def Lowerer.newBlock (l : Lowerer) : Lowerer := { l with blocks := l.blocks ++ [[]] }

/-- Go on in another block. -/
def Lowerer.at (l : Lowerer) (b : Nat) : Lowerer := { l with b := b }

section Emit

variable (l : Lowerer) (types types' : List IrType) (insts insts' : List IrInst) (b : Nat)

@[simp] theorem emit_b : (l.emit types insts).b = l.b := rfl
@[simp] theorem emit_temps : (l.emit types insts).temps = l.temps ++ types := rfl
@[simp] theorem emit_symbols : (l.emit types insts).symbols = l.symbols := rfl
@[simp] theorem emit_known : (l.emit types insts).known = l.known := rfl
@[simp] theorem emit_slots : (l.emit types insts).slots = l.slots := rfl
@[simp] theorem emit_length : (l.emit types insts).blocks.length = l.blocks.length :=
  length_modify _ _ _
@[simp] theorem newBlock_b : l.newBlock.b = l.b := rfl
@[simp] theorem newBlock_temps : l.newBlock.temps = l.temps := rfl
@[simp] theorem newBlock_symbols : l.newBlock.symbols = l.symbols := rfl
@[simp] theorem newBlock_known : l.newBlock.known = l.known := rfl
@[simp] theorem newBlock_slots : l.newBlock.slots = l.slots := rfl
@[simp] theorem newBlock_length : l.newBlock.blocks.length = l.blocks.length + 1 := length_append
@[simp] theorem at_b : (l.at b).b = b := rfl
@[simp] theorem at_temps : (l.at b).temps = l.temps := rfl
@[simp] theorem at_symbols : (l.at b).symbols = l.symbols := rfl
@[simp] theorem at_known : (l.at b).known = l.known := rfl
@[simp] theorem at_slots : (l.at b).slots = l.slots := rfl
@[simp] theorem at_length : (l.at b).blocks.length = l.blocks.length := rfl
@[simp] theorem at_block (b' : Nat) : (l.at b).block b' = l.block b' := rfl

@[simp] theorem emit_emit :
    (l.emit types insts).emit types' insts' = l.emit (types ++ types') (insts ++ insts') := by
  simp only [Lowerer.emit, append_assoc, modify_modify_eq]
  congr 2
  funext x
  exact append_assoc x insts insts'

@[simp] theorem newBlock_block : l.newBlock.block b = l.block b := by
  simp only [Lowerer.block, Lowerer.newBlock, getD_eq_getElem?_getD, getElem?_append]
  split
  · rfl
  · have hnone : l.blocks[b]? = none := getElem?_eq_none (by omega)
    rw [hnone]
    cases b - l.blocks.length <;> rfl

theorem emit_block (hb : l.b < l.blocks.length) :
    (l.emit types insts).block b = if b = l.b then l.block b ++ insts else l.block b := by
  simp only [Lowerer.block, Lowerer.emit]
  by_cases h : b = l.b
  · subst h
    simp [hb]
  · simp [h, Ne.symm h]

end Emit

-- ── The builder ────

section Builder

variable (l : Lowerer) (op : IrOp) (type : IrType) (x y c : IrOperand) (wrap dst b b' : Nat)

theorem irUnary_eq : irUnary op type x l =
    (l.temps.length, l.emit [type] [{ op, type, result := l.temps.length, a := x }]) := rfl

theorem irBinaryWrap_eq : irBinaryWrap op type x y wrap l = (l.temps.length,
      l.emit [type] [{ op, type, result := l.temps.length, a := x, b := y, field := wrap }]) := rfl

theorem irBinary_eq : irBinary op type x y l =
    (l.temps.length, l.emit [type] [{ op, type, result := l.temps.length, a := x, b := y }]) := rfl

theorem emit_none (insts : List IrInst) : l.emit [] insts =
    { l with blocks := l.blocks.modify l.b (· ++ insts) } := by
  simp [Lowerer.emit]

theorem irAssign_eq : irAssign dst x l =
    ((), l.emit [] [{ op := .copy, type := l.temps.getD dst .void, result := dst, a := x }]) := by
  rw [emit_none]
  rfl

theorem irJump_eq : irJump b l =
    ((), l.emit [] [{ op := .jump, type := .void, a := irBlockOp b }]) := by
  rw [emit_none]
  rfl

theorem irBranch_eq : irBranch c b b' l =
    ((), l.emit [] [{ op := .branch, type := .void, a := c, b := irBlockOp b,
                      c := irBlockOp b' }]) := by
  rw [emit_none]
  rfl

theorem lowerTemp_eq (t : Nat) :
    lowerTemp t l = (⟨.temp, l.temps.getD t .void, t⟩, l) := rfl

theorem lowerNewBlock_eq : lowerNewBlock l = (l.blocks.length, l.newBlock) := rfl

theorem setBlock_eq : setBlock b l = ((), l.at b) := rfl

theorem herePlace_eq : herePlace l = ((l.b, (l.block l.b).length), l) := rfl

@[simp] theorem emit_at (types : List IrType) (insts : List IrInst) :
    ((l.emit types insts).at b).b = b := rfl

end Builder

theorem bind_run {α β : Type} (f : Lower α) (g : α → Lower β) (l : Lowerer) :
    (f >>= g) l = g (f l).1 (f l).2 := rfl

theorem pure_run {α : Type} (a : α) (l : Lowerer) : (pure a : Lower α) l = (a, l) := rfl

-- ── The start ────

/-- The walk after the low bound was read, into temporary `low`, and the high one into
    temporary `high`. -/
def ForWalk.started (w : ForWalk) (type : IrType) (lowRead : IrOperand) (low high : Nat) :
    ForWalk :=
  { w with counterType := type, low := ⟨.temp, type, low⟩, high := ⟨.temp, type, high⟩,
           counter := high + 1, wrap := rangeWrap type w.unsignedRange w.k lowRead }

/-- The copy of the low bound. -/
def lowCopy (type : IrType) (lowRead : IrOperand) (low : Nat) : IrInst :=
  { op := .copy, type, result := low, a := lowRead }

variable {w : ForWalk}

/-- **What the start builds**, upwards. -/
theorem rangeStart_up {s : RangeFor} {l l₂ l₃ : Lowerer} {lowRead highRead : IrOperand}
    (hdown : w.down = false) (hlow : s.low l = (lowRead, l₂))
    (hhigh : s.high (l₂.emit [s.type] [lowCopy s.type lowRead l₂.temps.length]) = (highRead, l₃)) :
    let w' := w.started s.type lowRead l₂.temps.length l₃.temps.length
    rangeStart s w l = ((w', ⟨lowRead, (l₂.b, (l₂.block l₂.b).length), highRead,
        (l₃.b, (l₃.block l₃.b).length), w.body⟩),
      l₃.emit [s.type, s.type, .i8] (enterInsts w' highRead w.body)) := by
  simp only [lowCopy] at hhigh
  simp only [rangeStart, hdown, Bool.false_eq_true, if_false, bind_run, pure_run, hlow, hhigh,
    herePlace_eq, irUnary_eq, lowerTemp_eq, irBinary_eq, irBranch_eq]
  simp [ForWalk.started, enterInsts, hdown]

/-- **What the start builds**, downwards. -/
theorem rangeStart_down {s : RangeFor} {l l₂ l₃ : Lowerer} {lowRead highRead : IrOperand}
    (hdown : w.down = true) (hlow : s.low l.newBlock = (lowRead, l₂))
    (hhigh : s.high (l₂.emit [s.type] [lowCopy s.type lowRead l₂.temps.length]) = (highRead, l₃)) :
    let w' := w.started s.type lowRead l₂.temps.length l₃.temps.length
    let entered := l₃.emit [s.type, s.type, .i8] (enterInsts w' highRead l.blocks.length)
    rangeStart s w l = ((w', ⟨lowRead, (l₂.b, (l₂.block l₂.b).length), highRead,
        (l₃.b, (l₃.block l₃.b).length), l.blocks.length⟩),
      (entered.at l.blocks.length).emit (List.replicate 5 s.type)
        (firstInsts w' (w'.counter + 2))) := by
  simp only [lowCopy] at hhigh
  simp only [rangeStart, hdown, if_true, bind_run, pure_run, lowerNewBlock_eq, hlow, hhigh,
    herePlace_eq, irUnary_eq, lowerTemp_eq, irBinary_eq, irBranch_eq, irAssign_eq, irJump_eq,
    setBlock_eq]
  simp [ForWalk.started, enterInsts, firstInsts, hdown]

-- ── The step ────

/-- **What the step builds**, in the current block and in a new one. -/
theorem rangeStep_eq {l : Lowerer} (hcounter : l.temps.getD w.counter .void = w.counterType)
    (hin : w.counter < l.temps.length) :
    rangeStep w l = (l.blocks.length, ((l.newBlock.emit [w.counterType, .i8]
          (stepInsts w l.temps.length l.blocks.length)).at l.blocks.length).emit
        [w.counterType] (advanceInsts w (l.temps.length + 2))) := by
  have hget : ∀ more, (l.temps ++ more)[w.counter]?.getD .void = w.counterType := by
    intro more
    rw [getElem?_append_left hin, ← getD_eq_getElem?_getD, hcounter]
  cases hdown : w.down with
  | true =>
    simp only [rangeStep, hdown, if_true, bind_run, pure_run, lowerNewBlock_eq, lowerTemp_eq,
      irBinary_eq, irBinaryWrap_eq, irBranch_eq, irAssign_eq, irJump_eq, setBlock_eq,
      newBlock_temps, hcounter]
    simp [stepInsts, advanceInsts, hdown, hget]
  | false =>
    simp only [rangeStep, hdown, Bool.false_eq_true, if_false, bind_run, pure_run,
      lowerNewBlock_eq, lowerTemp_eq, irBinary_eq, irBinaryWrap_eq, irBranch_eq, irAssign_eq,
      irJump_eq, setBlock_eq, newBlock_temps,
      hcounter]
    simp [stepInsts, advanceInsts, hdown, hget]

-- ── The whole loop ────

/-- Know other blocks. -/
def Lowerer.knows (l : Lowerer) (known : List Nat) : Lowerer := { l with known := known }

/-- What the binding of the name builds. -/
def Lowerer.named (l : Lowerer) (name : Option LoopName) (type : IrType) (counter : Nat) :
    Lowerer :=
  match name with
  | none => l
  | some name =>
    if name.addressTaken then
      l.emit [] [{ op := .store, type, a := ⟨.temp, type, counter⟩,
                   b := ⟨.temp, l.temps.getD name.slot .void, name.slot⟩ }]
    else
      { l.emit [type] [{ op := .copy, type, result := l.temps.length,
                         a := ⟨.temp, type, counter⟩ }] with
        symbols := Function.update l.symbols l.temps.length true }

theorem bindLoopName_eq (name : LoopName) (type : IrType) (counter : Nat) (l : Lowerer) :
    bindLoopName name type ⟨.temp, type, counter⟩ l = ((), l.named (some name) type counter) := by
  obtain ⟨taken, slot⟩ := name
  cases taken with
  | true =>
    simp only [Lowerer.named]
    rw [emit_none]
    rfl
  | false => rfl

/-- The body ends at the step, where code goes on behind it. -/
def Lowerer.closed (l : Lowerer) (goesOn : Bool) (step : Nat) : Lowerer :=
  if goesOn then l.emit [] [{ op := .jump, type := .void, a := irBlockOp step }] else l

/-- **What `lower_for` builds**, from what its parts build. -/
theorem lowerFor_eq {s : RangeFor} {l l₄ l₆ l₉ : Lowerer} {places : RangePlaces} {goesOn : Bool}
    {n advance : Nat} (hn : l.blocks.length = n)
    (hstart : rangeStart s (startWalk s n (n + 1) (n + 1 + 1)) l.newBlock.newBlock.newBlock =
      ((w, places), l₄)) (hcounter : l₄.temps.getD w.counter .void = w.counterType)
    (hbody : s.body (((l₄.knows ((n + 1) :: (n + 1 + 1) :: l₄.known)).at n).named s.name
      w.counterType w.counter) = (goesOn, l₆))
    (hstep : rangeStep w (((l₆.closed goesOn (n + 1)).knows l₄.known).at (n + 1)) =
      (advance, l₉)) : lowerFor s l = (⟨w, places, advance⟩, l₉.at (n + 1 + 1)) := by
  subst hn
  have hget : ∀ l : Lowerer, (get : Lower Lowerer) l = (l, l) := fun _ => rfl
  have hmodify : ∀ (f : Lowerer → Lowerer) (l : Lowerer),
      (modify f : Lower Unit) l = ((), f l) := fun _ _ => rfl
  simp only [Lowerer.knows] at hbody hstep
  cases hname : s.name with
  | none =>
    simp only [hname, Lowerer.named] at hbody
    cases goesOn with
    | true =>
      simp only [Lowerer.closed, if_true] at hstep
      simp only [lowerFor, bind_run, pure_run, lowerNewBlock_eq, newBlock_length, hstart,
        hname, hget, hmodify, setBlock_eq, hbody, if_true, irJump_eq, hstep]
    | false =>
      simp only [Lowerer.closed, Bool.false_eq_true, if_false] at hstep
      simp only [lowerFor, bind_run, pure_run, lowerNewBlock_eq, newBlock_length, hstart,
        hname, hget, hmodify, setBlock_eq, hbody, Bool.false_eq_true, if_false, hstep]
  | some name =>
    simp only [hname] at hbody
    cases goesOn with
    | true =>
      simp only [Lowerer.closed, if_true] at hstep
      simp only [lowerFor, bind_run, pure_run, lowerNewBlock_eq, newBlock_length, hstart,
        hname, hget, hmodify, setBlock_eq, lowerTemp_eq, at_temps, hcounter,
        bindLoopName_eq, hbody, if_true, irJump_eq, hstep]
    | false =>
      simp only [Lowerer.closed, Bool.false_eq_true, if_false] at hstep
      simp only [lowerFor, bind_run, pure_run, lowerNewBlock_eq, newBlock_length, hstart,
        hname, hget, hmodify, setBlock_eq, lowerTemp_eq, at_temps, hcounter,
        bindLoopName_eq, hbody, Bool.false_eq_true, if_false, hstep]

end AnticIr
