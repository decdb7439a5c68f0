import Antic.GrowingBitmap
import Antic.WholeClasses

/-! # The slots that the calls of a program reach — `whole_tables.c`

    For each abstract class a bitmap of the slots that some call through a table may
    reach.  The loader of a library reads it.  Counts and slots are `uint32_t`. -/

namespace AnticWhole

open AnticIr GrowingBitmap

/-- A `uint32_t`. -/
def u32 (n : Nat) : Nat := n % 2 ^ 32

/-- `struct slots`. -/
structure Slots where
  bits : Bytes := []
  count : Nat := 0

/-- `mark_slot`. -/
def markSlot (s : Slots) (slot : Nat) : Slots :=
  let s :=
    if s.count ≤ slot then
      let bytes := slot / 8 + 1
      let used := u32 (s.count + 7) / 8
      { bits := zeroBytes (resize s.bits bytes) used (bytes - used), count := u32 (slot + 1) }
    else s
  { s with bits := setBit s.bits slot }

/-- `IR_CLASS_ABSTRACT`. -/
def IrClass.isAbstract (c : IrClass) : Bool := c.flags % 2 = 1

/-- The loop of `whole_at_or_below`, with the turns left. -/
def climbs (up : Nat → Option Nat) (goal : Nat) : Nat → Option Nat → Bool
  | 0, _ => false
  | _ + 1, none => false
  | turns + 1, some r => r = goal || climbs up goal turns (up r)

/-- `whole_at_or_below`.  No class lies below one that is not known. -/
def wholeAtOrBelow (w : Whole) (record : Nat) : ClassRef → Bool
  | .root => true
  | .unknown => false
  | .record i => climbs (above w.m w.slots) i (w.m.classes.length + 1) (some record)

/-- A call through a table. -/
def tableCall? (inst : IrInst) : Bool := inst.op = .call ∧ inst.c.kind = .global

/-- The turn of `mark_calls` for one instruction. -/
def markCall (w : Whole) (m : IrModule) (slots : List Slots) (inst : IrInst) : List Slots :=
  if tableCall? inst then
    slots.mapIdx fun c s =>
      match m.classes[c]? with
      | none => s
      | some record =>
        if IrClass.isAbstract record ∧ wholeAtOrBelow w c (wholeRecordOf w inst.c.val) then
          markSlot s inst.field
        else s
  else slots

/-- `mark_calls`. -/
def markCalls (w : Whole) (m : IrModule) (f : IrFunction) (slots : List Slots) : List Slots :=
  (f.blocks.flatMap IrBlock.insts).foldl (markCall w m) slots

/-- The first loop of `whole_write_slots`: the bitmap of each class. -/
def markReached (w : Whole) (m : IrModule) (reached : Nat → Bool) : List Slots :=
  m.functions.zipIdx.foldl (fun slots (f, i) => if reached i then markCalls w m f slots else slots)
    (List.replicate m.classes.length {})

/-- A record `anti_slots` of the table, which names the descriptor by its global. -/
structure SlotRecord where
  descriptor : Nat
  slotCount : Nat
  bits : Bytes

/-- The table `anti_rt_slots`. -/
structure SlotTable where
  interfaces : List SlotRecord
  reflect : Bool

/-- `write_slot_table`. -/
def writeSlotTable (m : IrModule) (slots : List Slots) (every : Bool) : SlotTable where
  interfaces := (m.classes.zip slots).filterMap fun (c, s) =>
    if s.count = 0 then none
    else some ⟨c.descriptor, s.count, s.bits.take (u32 (s.count + 7) / 8)⟩
  reflect := every

/-- `whole_write_slots`: the table, where the program carries one. -/
def wholeWriteSlots (w : Whole) (m : IrModule) (reached : Nat → Bool) (every force : Bool) :
    Option SlotTable :=
  let slots := markReached w m reached
  if slots.any (fun s => decide (0 < s.count)) || force then
    some (writeSlotTable m slots every)
  else none

end AnticWhole
