import Antic.HashTables
import Antic.Interleaving
import Antic.MachineInt

/-! # The table of `HashMap<K, V>` — `SlotTable<E>` of `map.anti`

    The entries stand in the slots of the hash table itself, each with a mark: 0 for an empty slot,
    `REMOVED` for one whose entry was removed, and the marked hash otherwise.

    * A place of a walk is ONE `int` of 64 bits: the slot where the walk started in the high half
      and the steps from it in the low half.  The shift drops the bits that it moves out of the 64,
      as the language has it.
    * `take_place` leaves the count to its caller, who takes it off. -/

namespace AnticCollection

open MachineInt

/-- `SlotTable<E>`.  `room` tells whether there is a block; an entry of zero bytes
    is `none`; `elementSize` and `elementAlign` are the size of `E` and the
    alignment of a block that holds it. -/
structure SlotTable (E : Type) where
  elementSize : Nat
  elementAlign : Nat
  seed : UInt64
  count : Nat := 0
  room : Bool := false
  size : Nat := 0
  removed : Nat := 0
  walks : UInt64 := 0
  walkSeed : UInt64 := 0
  marks : Nat → UInt64 := fun _ => emptyMark
  slots : Nat → Option E := fun _ => none

/-- The mark of a slot that holds an entry: `marks[i] > REMOVED`. -/
def isLive (m : UInt64) : Bool := removedMark < m

/-- `(start << 32) | k`. -/
def packed (start k : Nat) : Int := signed 64 ((start <<< 32) % 2 ^ 64 ||| k)

/-- `at >> 32`, of a place that is not negative. -/
def startOf (at_ : Nat) : Nat := at_ >>> 32

/-- `at & 0xFFFFFFFF`, of a place that is not negative. -/
def stepOf (at_ : Nat) : Nat := at_ &&& 0xFFFFFFFF

/-- Double `size` until it is `want`, with the turns left: the loop of `shrink`. -/
def doubledPlain (want : Nat) : Nat → Nat → Except Stop Nat
  | 0, _ => .error .endless
  | turns + 1, size =>
    if size < want then doubledPlain want turns (size * 2) else .ok size

/-- What a walk does at a slot. -/
inductive WalkEvent (E : Type) where
  /-- The walk gives the entry of the slot. -/
  | given (slot : Nat) (e : Option E)
  /-- The entry of the slot is taken out. -/
  | taken (slot : Nat)

namespace SlotTable

variable {E : Type}

/-- `size - 1`. -/
def mask (t : SlotTable E) : Nat := t.size - 1

/-- `resized`, less the record of the change. -/
def resized (t : SlotTable E) (count : Nat) : SlotTable E := { t with count := count }

/-- Write the parts of an entry in place. -/
def write (t : SlotTable E) (i : Nat) (e : Option E) : SlotTable E :=
  { t with slots := Function.update t.slots i e }

/-- `slot_of`. -/
def slotOf (t : SlotTable E) (h : UInt64) (same : E → Bool) :
    Except Stop (Option Nat) :=
  if t.room = false then .ok none
  else do
    let i ← seek t.marks (fun i => t.marks i = h && (t.slots i).any same) t.mask
      t.size (homeOf h t.mask)
    return if t.marks i = emptyMark then none else some i

/-- `free_slot`. -/
def freeSlot (t : SlotTable E) (h : UInt64) : Except Stop Nat :=
  if t.room = false then .error .fatal
  else seek t.marks (fun i => !isLive (t.marks i)) t.mask t.size (homeOf h t.mask)

/-- The size of the block of `size` slots, where an `int` holds it. -/
def blockSize (t : SlotTable E) (size : Nat) : Except Stop Nat := do
  let atSlots ← aligned (← roomTimes size 8) t.elementAlign
  roomPlus atSlots (← roomTimes size t.elementSize)

/-- A new block of `size` slots, every byte zero. -/
def emptied (t : SlotTable E) (size : Nat) : SlotTable E :=
  { t with room := decide (0 < size)
           size := size
           removed := 0
           marks := fun _ => emptyMark
           slots := fun _ => none }

/-- The turn of the loop of `resize` for a slot that holds an entry. -/
def moveIn (t : SlotTable E) (h : UInt64) (e : Option E) :
    Except Stop (SlotTable E) := do
  let i ← t.freeSlot h
  return { t with marks := Function.update t.marks i h
                  slots := Function.update t.slots i e }

/-- `resize`. -/
def resize (t : SlotTable E) (size : Nat) : Except Stop (SlotTable E) := do
  let _ ← (if 0 < size then t.blockSize size else .ok 0)
  if t.room = false ∨ size = 0 then return t.emptied size
  else
    (List.range t.size).foldlM (fun made i =>
      if isLive (t.marks i) then made.moveIn (t.marks i) (t.slots i)
      else .ok made) (t.emptied size)

/-- The size that `put` asks for. -/
def putSize (t : SlotTable E) : Nat :=
  if t.size < firstBuckets then firstBuckets
  else if t.size < (t.count + 1) * 4 then t.size * 2 else t.size

/-- `put`, with the slot of the new entry. -/
def put (t : SlotTable E) (h : UInt64) : Except Stop (SlotTable E × Nat) := do
  let t ← (if t.size < (t.count + t.removed + 1) * 2 then t.resize t.putSize else .ok t)
  let i ← t.freeSlot h
  let removed := if t.marks i = removedMark then t.removed - 1 else t.removed
  return (({ t with removed := removed
                    marks := Function.update t.marks i h }).resized (t.count + 1), i)

/-- `reserve`. -/
def reserve (t : SlotTable E) (n : Int) : Except Stop (SlotTable E) :=
  if 0 < n then do
    let need ← roomPlus (t.count + t.removed) n.toNat
    let twice ← roomTimes need 2
    if t.size < twice then do
      let want ← roomTimes (← roomPlus t.count n.toNat) 2
      let size ← doubled want 64 firstBuckets
      t.resize size
    else return t
  else .ok t

/-- `shrink`. -/
def shrink (t : SlotTable E) : Except Stop (SlotTable E) := do
  let size ← (if 0 < t.count then doubledPlain (2 * t.count) 64 firstBuckets else .ok 0)
  if size < t.size ∨ 0 < t.removed then t.resize size else return t

/-- `slot_at`. -/
def slotAt (t : SlotTable E) (at_ : Nat) : Nat := (startOf at_ + stepOf at_) &&& t.mask

/-- `live_from`.  The place is negative after the last. -/
def liveFrom (t : SlotTable E) (start step : Nat) : Int :=
  if t.room = false then -1
  else
    match (List.range' step (t.size - step)).find? fun k =>
      isLive (t.marks ((start + k) &&& t.mask)) with
    | none => -1
    | some k => packed start k

/-- `shuffle`.  `draw` is what `anti_rt_hash_draw` gives. -/
def shuffle (t : SlotTable E) (draw : UInt64) : SlotTable E × UInt64 :=
  let walkSeed := if t.walkSeed = 0 then draw ||| 1 else t.walkSeed
  let walks := t.walks + 1
  ({ t with walkSeed := walkSeed, walks := walks }, seeded walks walkSeed)

/-- `first_place`. -/
def firstPlace (t : SlotTable E) (draw : UInt64) : SlotTable E × Int :=
  if t.count = 0 then (t, -1)
  else
    let (t, r) := t.shuffle draw
    (t, t.liveFrom (homeOf r t.mask) 0)

/-- `check_place`. -/
def checkPlace (t : SlotTable E) (at_ : Int) : Except Stop Nat :=
  if t.room = false then .error .noElement
  else if at_ < 0 then .error .noElement
  else if t.size ≤ startOf at_.toNat ∨ t.size ≤ stepOf at_.toNat then
    .error .noElement
  else if isLive (t.marks (t.slotAt at_.toNat)) then .ok at_.toNat
  else .error .noElement

/-- `next_place`. -/
def nextPlace (t : SlotTable E) (at_ : Int) : Except Stop Int := do
  let p ← t.checkPlace at_
  return t.liveFrom (startOf p) (stepOf p + 1)

/-- `take_place`. -/
def takePlace (t : SlotTable E) (at_ : Int) :
    Except Stop (SlotTable E × Option E × Int) := do
  let p ← t.checkPlace at_
  let i := t.slotAt p
  let t := { t with marks := Function.update t.marks i removedMark
                    removed := t.removed + 1 }
  return (t.write i none, t.slots i, t.liveFrom (startOf p) (stepOf p + 1))

/-- `copy`. -/
def copy (t : SlotTable E) : Except Stop (SlotTable E) := do
  let made ← ({ t with marks := fun _ => emptyMark
                       slots := fun _ => none
                       room := false
                       size := 0
                       removed := 0
                       walkSeed := 0
                       count := 0 } : SlotTable E).reserve t.count
  if t.room = false then return made
  else
    (List.range t.size).foldlM (fun made i =>
      if isLive (t.marks i) then do
        let (made, slot) ← made.put (t.marks i)
        return made.write slot (t.slots i)
      else .ok made) made

/-- Take out what the body of a walk at the place `at_` takes at other places.  A call at a place
    without an entry stops the program, and so does the walk when the entry of its own place is
    gone; neither is a walk, and they are left out. -/
def takeOthers (at_ : Nat) : List Int → SlotTable E → SlotTable E × List (WalkEvent E)
  | [], t => (t, [])
  | p :: places, t =>
    if t.slotAt p.toNat = t.slotAt at_ then takeOthers at_ places t
    else
      match t.takePlace p with
      | .error _ => takeOthers at_ places t
      | .ok (t', _, _) =>
        let (made, log) := takeOthers at_ places (t'.resized (t'.count - 1))
        (made, .taken (t.slotAt p.toNat) :: log)

/-- The loop of a walk.  `plan` tells, with the turns left, what its body does: the other places
    that it takes, and whether it takes the place of the walk, as `remove_all` does. -/
def walkFrom (plan : Nat → List Int × Bool) (t : SlotTable E) :
    Nat → Int → Except Stop (SlotTable E × List (WalkEvent E))
  | 0, _ => .error .endless
  | fuel + 1, at_ =>
    if at_ < 0 then .ok (t, [])
    else do
      let i := t.slotAt at_.toNat
      let given := WalkEvent.given i (t.slots i)
      let (t, others) := takeOthers at_.toNat (plan fuel).1 t
      if (plan fuel).2 then do
        let (t, _, after) ← t.takePlace at_
        let (t, rest) ← walkFrom plan (t.resized (t.count - 1)) fuel after
        return (t, given :: others ++ .taken i :: rest)
      else do
        let next ← t.nextPlace at_
        let (t, rest) ← walkFrom plan t fuel next
        return (t, given :: others ++ rest)

/-- A walk that starts at the slot `start`. -/
def walk (plan : Nat → List Int × Bool) (t : SlotTable E) (start : Nat) :
    Except Stop (SlotTable E × List (WalkEvent E)) :=
  t.walkFrom plan (t.size + 1) (t.liveFrom start 0)

end SlotTable

/-! ## The calls of a hash map -/

section HashMap

variable {K V : Type} [BEq K] (hash : K → UInt64)

/-- `find`. -/
def hashFind (t : SlotTable (K × V)) (k : K) : Except Stop (Option Nat) :=
  t.slotOf (marked t.seed (hash k)) fun e => e.1 == k

/-- `add`: the one call of `put`, after the probe that finds no entry of the key. -/
def hashAdd (t : SlotTable (K × V)) (k : K) (v : V) :
    Except Stop (SlotTable (K × V) × Bool) := do
  match ← hashFind hash t k with
  | some _ => return (t, false)
  | none =>
    let (t, i) ← t.put (marked t.seed (hash k))
    return (t.write i (some (k, v)), true)

/-- The calls that change the table. -/
inductive SlotCall (K V : Type) where
  | put (k : K) (v : V)
  | takePlace (at_ : Int)
  | reserve (n : Int)
  | shrink
  | copy

/-- What a call gives. -/
inductive SlotAnswer (K V : Type) where
  | nothing
  | added (new : Bool)
  | taken (e : Option (K × V)) (after : Int)

/-- A call.  A `copy` goes on with the copy. -/
def slotCall (t : SlotTable (K × V)) :
    SlotCall K V → Except Stop (SlotTable (K × V) × SlotAnswer K V)
  | .put k v => do
      let (t, new) ← hashAdd hash t k v
      return (t, .added new)
  | .takePlace at_ => do
      let (t, e, after) ← t.takePlace at_
      return (t.resized (t.count - 1), .taken e after)
  | .reserve n => do return (← t.reserve n, .nothing)
  | .shrink => do return (← t.shrink, .nothing)
  | .copy => do return (← t.copy, .nothing)

/-- A call that returns. -/
def SlotStep (t : SlotTable (K × V)) (call : SlotCall K V × SlotAnswer K V)
    (t' : SlotTable (K × V)) : Prop :=
  slotCall hash t call.1 = .ok (t', call.2)

/-! ## A finite map -/

/-- The finite map after a call, where the call gives what the map gives. -/
inductive FiniteStep (f : K → Option V) :
    SlotCall K V → SlotAnswer K V → (K → Option V) → Prop where
  | putNew (k : K) (v : V) : f k = none →
      FiniteStep f (.put k v) (.added true) fun x => if k == x then some v else f x
  | putOld (k : K) (v : V) : f k ≠ none → FiniteStep f (.put k v) (.added false) f
  | takePlace (at_ : Int) (e : K × V) (after : Int) : f e.1 = some e.2 →
      FiniteStep f (.takePlace at_) (.taken (some e) after) fun x => if e.1 == x then none else f x
  | reserve (n : Int) : FiniteStep f (.reserve n) .nothing f
  | shrink : FiniteStep f .shrink .nothing f
  | copy : FiniteStep f .copy .nothing f

/-- A sequence of calls of a finite map, with what they give. -/
inductive FiniteRun : List (SlotCall K V × SlotAnswer K V) → (K → Option V) → Prop where
  | start : FiniteRun [] fun _ => none
  | snoc {calls : List (SlotCall K V × SlotAnswer K V)} {f f' : K → Option V}
      {call : SlotCall K V} {answer : SlotAnswer K V} :
      FiniteRun calls f → FiniteStep f call answer f' →
      FiniteRun (calls ++ [(call, answer)]) f'

end HashMap

end AnticCollection
