import Antic.Collections
import Mathlib.Logic.Function.Basic

/-! # The collections of one room — `Indexed<T>` of `collection.anti`, and `Deque`,
      `Ring` and `List`

    A slot of zero bytes is `none`.  `memcpy` and `memmove` copy slots, each from
    what its source held before.  The counts are those of elements in memory, and
    the sizes of a room take the checks of `room_times` and `room_plus`. -/

namespace AnticCollection

open Function

/-- The slots of a room. -/
abbrev Room (T : Type) := Nat → Option T

/-- The fields of `Indexed<T>`.  `calls` counts the calls of the allocator since
    the collection was made. -/
structure Indexed (T : Type) where
  elementSize : Nat
  count : Nat := 0
  items : Option (Room T) := none
  capacity : Nat := 0
  head : Nat := 0
  spare : Nat := 0
  ring : Bool := false
  calls : Nat := 0

section Bytes

variable {T : Type}

/-- `memcpy` and `memmove` of `n` slots. -/
def copySlots (to_ : Room T) (at_ : Nat) (src : Room T) (start n : Nat) : Room T :=
  fun i => if at_ ≤ i ∧ i < at_ + n then src (start + (i - at_)) else to_ i

/-- `memset` of one slot to zero. -/
def zeroSlot (r : Room T) (i : Nat) : Room T := update r i none

/-- `close_gap`. -/
def closeGap (r : Room T) (at_ used : Nat) : Room T :=
  zeroSlot (if at_ + 1 < used then copySlots r at_ r (at_ + 1) (used - at_ - 1) else r) (used - 1)

/-- The loop of `take_place` in a ring, with the turns left: each element moves one slot back. -/
def shiftBack (slot : Nat → Nat) : Nat → Nat → Room T → Room T
  | 0, _, r => r
  | left + 1, i, r => shiftBack slot left (i + 1) (update r (slot i) (r (slot (i + 1))))

/-- The loop of `reverse`. -/
def reverseSlots (r : Room T) (i j : Nat) : Room T :=
  if i < j then
    reverseSlots (update (update r i (r j)) j (r i)) (i + 1) (j - 1)
  else r
termination_by j - i

end Bytes

namespace Indexed

variable {T : Type} (t : Indexed T)

/-- The room, which a `catch fatal` stops without. -/
def room : Except Stop (Room T) :=
  match t.items with
  | some items => .ok items
  | none => .error .fatal

/-- `slot`. -/
def slot (i : Nat) : Nat :=
  if t.head + i ≥ t.capacity then t.head + i - t.capacity else t.head + i

/-- `check_place`. -/
def checkPlace (at_ : Int) : Except Stop Nat :=
  if at_ < 0 ∨ at_ ≥ t.count then .error .noElement else .ok at_.toNat

/-- The index of a slice of `n` elements, which traps outside it. -/
def checkIndex (i : Int) (n : Nat) : Except Stop Nat :=
  if i < 0 ∨ i ≥ n then .error .fatal else .ok i.toNat

/-- `resized`, with the number of elements after. -/
def resized (n : Nat) : Indexed T := { t with count := n }

/-- The elements of the old room in order from the start of the new one. -/
def moved (items : Room T) : Room T :=
  let first := min (t.capacity - t.head) t.count
  let made := if 0 < first then copySlots (fun _ => none) 0 items t.head first
    else fun _ => none
  if first < t.count then copySlots made first items 0 (t.count - first) else made

/-- `resize`. -/
def resize (n : Nat) : Except Stop (Indexed T) := do
  let size ← roomPlus n t.spare
  if size = 0 then
    return { t with items := none, capacity := 0, head := 0, calls := t.calls + 1 }
  else do
    let _ ← roomTimes size t.elementSize
    match t.items with
    | none => return { t with items := some fun _ => none, capacity := n, head := 0,
                              calls := t.calls + 1 }
    | some items => return { t with items := some (t.moved items), capacity := n,
                                    head := 0, calls := t.calls + 2 }

/-- `FIRST_CAPACITY`, and `grown`. -/
def grown (have_ need : Nat) : Except Stop Nat := doubled need 64 (max have_ 8)

/-- `make_room` for one element. -/
def makeRoom : Except Stop (Indexed T) :=
  if t.count + 1 > t.capacity then do t.resize (← grown t.capacity (t.count + 1))
  else .ok t

/-- `reserve_room`.  A negative `n` makes no room. -/
def reserveRoom (n : Int) : Except Stop (Indexed T) :=
  if 0 < n then do
    let need ← roomPlus t.count n.toNat
    if need > t.capacity then t.resize need else return t
  else .ok t

/-- `shrink_room`. -/
def shrinkRoom : Except Stop (Indexed T) :=
  if t.capacity > t.count then t.resize t.count else .ok t

/-- `copy_into`, with room for `n`: the copy. -/
def copyInto (n : Nat) : Except Stop (Indexed T) := do
  let size ← roomPlus n t.spare
  if size = 0 then
    return { t with items := none, capacity := 0, head := 0, calls := 0 }
  else do
    let _ ← roomTimes size t.elementSize
    let made : Room T := fun i => if i < t.count then t.items.bind fun r => r (t.slot i) else none
    return { t with items := some made, capacity := n, head := 0, calls := 1 }

/-! ## The places -/

/-- `first_place`. -/
def firstPlace : Option Nat := if t.count = 0 then none else some 0

/-- `next_place`. -/
def nextPlace (at_ : Int) : Except Stop (Option Nat) := do
  let i ← t.checkPlace at_
  return if i + 1 ≥ t.count then none else some (i + 1)

/-- The element of a slot.  A slot of zero bytes holds none. -/
def elementOf (x : Option T) : Except Stop T :=
  match x with
  | some x => .ok x
  | none => .error .noElement

/-- `lend_place`, with the element it lent. -/
def lendPlace (at_ : Int) (f : T → T) : Except Stop (Indexed T × T) := do
  let i ← t.checkPlace at_
  let items ← t.room
  let x ← elementOf (items (t.slot i))
  return ({ t with items := some (update items (t.slot i) (some (f x))) }, x)

/-- `take_place`. -/
def takePlace (at_ : Int) : Except Stop (Indexed T × T × Option Nat) := do
  let i ← t.checkPlace at_
  let items ← t.room
  let after := if i + 1 < t.count then some i else none
  let x ← elementOf (items (t.slot i))
  if t.ring = false then
    return ({ t with items := some (closeGap items i t.count) }, x, after)
  else if i = 0 then
    return ({ t with items := some (zeroSlot items t.head), head := t.slot 1 }, x, after)
  else
    let items := shiftBack t.slot (t.count - 1 - i) i items
    return ({ t with items := some (zeroSlot items (t.slot (t.count - 1))) }, x, after)

/-- The slots of a walk, in order. -/
def walk : List (Option T) := (List.range t.count).map fun i => t.items.bind fun r => r (t.slot i)

end Indexed

/-- `Indexed<T>` as a collection. -/
def indexed (T : Type) : Collection (Indexed T) T where
  count := Indexed.count
  firstPlace := Indexed.firstPlace
  nextPlace := Indexed.nextPlace
  lendPlace := Indexed.lendPlace
  takePlace := Indexed.takePlace
  removed t := t.resized (t.count - 1)

/-! ## The classes -/

section Classes

variable {T : Type}

/-- Take the element at `at_` off, and count it off. -/
def takeOff (t : Indexed T) (at_ : Int) : Except Stop (Indexed T × T) := do
  let (t, x, _) ← t.takePlace at_
  return (t.resized (t.count - 1), x)

namespace Deque

/-- `Deque.new`. -/
def new (elementSize : Nat) (capacity : Int) : Except Stop (Indexed T) :=
  let made : Indexed T := { elementSize := elementSize, ring := true }
  if capacity > 0 then made.resize capacity.toNat else .ok made

/-- `push_front`. -/
def pushFront (t : Indexed T) (x : T) : Except Stop (Indexed T) := do
  let t ← t.makeRoom
  let items ← t.room
  let head := (t.head + t.capacity - 1) % t.capacity
  return ({ t with head := head, items := some (update items head (some x)) }).resized (t.count + 1)

/-- `push_back`. -/
def pushBack (t : Indexed T) (x : T) : Except Stop (Indexed T) := do
  let t ← t.makeRoom
  let items ← t.room
  return ({ t with items := some (update items (t.slot t.count) (some x)) }).resized (t.count + 1)

/-- `pop_front`. -/
def popFront (t : Indexed T) : Except Stop (Indexed T × Option T) :=
  if t.count = 0 then .ok (t, none)
  else do
    let (t, x) ← takeOff t 0
    return (t, some x)

/-- `pop_back`. -/
def popBack (t : Indexed T) : Except Stop (Indexed T × Option T) :=
  if t.count = 0 then .ok (t, none)
  else do
    let (t, x) ← takeOff t (t.count - 1)
    return (t, some x)

/-- `copy`. -/
def copy (t : Indexed T) : Except Stop (Indexed T) := t.copyInto t.count

end Deque

namespace ListOf

/-- `List.new`. -/
def new (elementSize : Nat) (capacity : Int) : Except Stop (Indexed T) :=
  let made : Indexed T := { elementSize := elementSize }
  if capacity > 0 then made.resize capacity.toNat else .ok made

/-- `push`. -/
def push (t : Indexed T) (x : T) : Except Stop (Indexed T) := do
  let t ← t.makeRoom
  let items ← t.room
  return ({ t with items := some (update items t.count (some x)) }).resized (t.count + 1)

/-- `pop`. -/
def pop (t : Indexed T) : Except Stop (Indexed T × Option T) := Deque.popBack t

/-- `insert`. -/
def insert (t : Indexed T) (i : Int) (x : T) : Except Stop (Indexed T) := do
  let t ← t.makeRoom
  let items ← t.room
  let i ← Indexed.checkIndex i (t.count + 1)
  let items := if i < t.count then
      zeroSlot (copySlots items (i + 1) items i (t.count - i)) i
    else items
  return ({ t with items := some (update items i (some x)) }).resized (t.count + 1)

/-- `remove_at`. -/
def removeAt (t : Indexed T) (i : Int) : Except Stop (Indexed T × T) := do
  let _ ← Indexed.checkIndex i t.count
  takeOff t i

/-- `l[i] = x`. -/
def setIndex (t : Indexed T) (i : Int) (x : T) : Except Stop (Indexed T) := do
  let i ← Indexed.checkIndex i t.count
  let items ← t.room
  return { t with items := some (update (zeroSlot items i) i (some x)) }

/-- `reverse`. -/
def reverse (t : Indexed T) : Indexed T :=
  { t with items := t.items.map fun r => reverseSlots r 0 (t.count - 1) }

end ListOf

namespace Ring

/-- `Ring.new`: a negative `N` finds no room. -/
def new (elementSize : Nat) (N : Int) : Except Stop (Indexed T) :=
  if N < 0 then .error .fatal
  else ({ elementSize := elementSize, ring := true } : Indexed T).resize N.toNat

/-- `push`. -/
def push (N : Int) (t : Indexed T) (x : T) : Except Stop (Indexed T × Bool) :=
  if (t.count : Int) = N then .ok (t, false)
  else do
    let items ← t.room
    return (({ t with items := some (update items (t.slot t.count) (some x)) }).resized
      (t.count + 1), true)

/-- `pop`. -/
def pop (t : Indexed T) : Except Stop (Indexed T × Option T) := Deque.popFront t

/-- `copy`. -/
def copy (N : Int) (t : Indexed T) : Except Stop (Indexed T) := t.copyInto N.toNat

end Ring

end Classes

/-! ## The calls of a class -/

inductive Kind where
  | deque
  | ring (N : Int)
  | list

/-- The calls that change a collection. -/
inductive SeqCall (T : Type) : Kind → Type where
  | pushFront (x : T) : SeqCall T .deque
  | pushBack (x : T) : SeqCall T .deque
  | popFront : SeqCall T .deque
  | popBack : SeqCall T .deque
  | ringPush {N : Int} (x : T) : SeqCall T (.ring N)
  | ringPop {N : Int} : SeqCall T (.ring N)
  | push (x : T) : SeqCall T .list
  | pop : SeqCall T .list
  | insert (i : Int) (x : T) : SeqCall T .list
  | removeAt (i : Int) : SeqCall T .list
  | setIndex (i : Int) (x : T) : SeqCall T .list
  | reverse : SeqCall T .list
  | reserveDeque (n : Int) : SeqCall T .deque
  | reserveList (n : Int) : SeqCall T .list
  | shrinkDeque : SeqCall T .deque
  | shrinkList : SeqCall T .list
  /-- `take_place`, with the count its caller takes off. -/
  | takePlace {k : Kind} (at_ : Int) : SeqCall T k
  | lendPlace {k : Kind} (at_ : Int) (f : T → T) : SeqCall T k
  | form {k : Kind} (f : Form T) : SeqCall T k
  | copy {k : Kind} : SeqCall T k

/-- What a call gives. -/
inductive SeqAnswer (T : Type) where
  | finished
  | flag (b : Bool)
  | element (x : Option T)
  | taken (x : Option T) (after : Option Nat)
  | form (a : FormAnswer T)

section Calls

variable {T : Type}

/-- `new`. -/
def seqNew (elementSize : Nat) (capacity : Int) : Kind → Except Stop (Indexed T)
  | .deque => Deque.new elementSize capacity
  | .ring N => Ring.new elementSize N
  | .list => ListOf.new elementSize capacity

/-- `copy`. -/
def seqCopy (t : Indexed T) : Kind → Except Stop (Indexed T)
  | .deque => Deque.copy t
  | .ring N => Ring.copy N t
  | .list => Deque.copy t

/-- A call.  A `copy` goes on with the copy. -/
def seqCall (t : Indexed T) : {k : Kind} → SeqCall T k → Except Stop (Indexed T × SeqAnswer T)
  | _, .pushFront x => do return (← Deque.pushFront t x, .finished)
  | _, .pushBack x => do return (← Deque.pushBack t x, .finished)
  | _, .popFront => do
      let (t, x) ← Deque.popFront t
      return (t, .element x)
  | _, .popBack => do
      let (t, x) ← Deque.popBack t
      return (t, .element x)
  | _, .ringPush (N := N) x => do
      let (t, held) ← Ring.push N t x
      return (t, .flag held)
  | _, .ringPop => do
      let (t, x) ← Ring.pop t
      return (t, .element x)
  | _, .push x => do return (← ListOf.push t x, .finished)
  | _, .pop => do
      let (t, x) ← ListOf.pop t
      return (t, .element x)
  | _, .insert i x => do return (← ListOf.insert t i x, .finished)
  | _, .removeAt i => do
      let (t, x) ← ListOf.removeAt t i
      return (t, .element (some x))
  | _, .setIndex i x => do return (← ListOf.setIndex t i x, .finished)
  | _, .reverse => .ok (ListOf.reverse t, .finished)
  | _, .reserveDeque n => do return (← t.reserveRoom n, .finished)
  | _, .reserveList n => do return (← t.reserveRoom n, .finished)
  | _, .shrinkDeque => do return (← t.shrinkRoom, .finished)
  | _, .shrinkList => do return (← t.shrinkRoom, .finished)
  | _, .takePlace at_ => do
      let (t, x, after) ← t.takePlace at_
      return (t.resized (t.count - 1), .taken (some x) after)
  | _, .lendPlace at_ f => do
      let (t, _) ← t.lendPlace at_ f
      return (t, .finished)
  | _, .form f => do
      let (t, a) ← (indexed T).form t f
      return (t, .form a)
  | k, .copy => do return (← seqCopy t k, .finished)

/-- A call that returns. -/
def SeqStep (k : Kind) (t : Indexed T) (call : SeqCall T k × SeqAnswer T) (t' : Indexed T) : Prop :=
  seqCall t call.1 = .ok (t', call.2)

end Calls

end AnticCollection
