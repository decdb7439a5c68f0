import Antic.Indexed

/-! # `PriorityQueue<T>` — `queue.anti`

    A queue is an `Indexed<T>` with one spare slot past its capacity, which swaps go through.  `lt`
    is the `<` of `T`.  A slot of zero bytes is less than an element; no comparison reads one.  A
    test and a change answer by the turn, as for the forms of a collection. -/

namespace AnticCollection

namespace PriorityQueue

variable {T : Type} (lt : T → T → Bool)

/-- `<` on two slots. -/
def slotLt : Option T → Option T → Bool
  | some a, some b => lt a b
  | none, some _ => true
  | _, none => false

/-- `copy_slot`. -/
def copySlot (r : Room T) (to_ from_ : Nat) : Room T := Function.update r to_ (r from_)

/-- `swap`, with the spare slot of the room. -/
def swap (spare : Nat) (r : Room T) (a b : Nat) : Room T :=
  zeroSlot (copySlot (copySlot (copySlot r spare a) a b) b spare) spare

/-- `sift_up`. -/
def siftUp (spare : Nat) (r : Room T) (at_ : Nat) : Room T :=
  if at_ > 0 then
    let up := (at_ - 1) / 2
    if slotLt lt (r at_) (r up) = false then r
    else siftUp spare (swap spare r at_ up) up
  else r
termination_by at_
decreasing_by omega

/-- `sift_down`. -/
def siftDown (spare n : Nat) (r : Room T) (at_ : Nat) : Room T :=
  if 2 * at_ + 1 < n then
    let left := 2 * at_ + 1
    let child := if left + 1 < n ∧ slotLt lt (r (left + 1)) (r left) = true then left + 1
      else left
    if slotLt lt (r child) (r at_) = false then r
    else siftDown spare n (swap spare r at_ child) child
  else r
termination_by n - at_
decreasing_by split <;> omega

/-- `fix`. -/
def fix (spare : Nat) (r : Room T) (i n : Nat) : Room T :=
  siftDown lt spare n (siftUp lt spare r i) i

/-- The loop of `heapify`, from the position before `i` down. -/
def heapifyFrom (spare n : Nat) : Nat → Room T → Room T
  | 0, r => r
  | i + 1, r => heapifyFrom spare n i (siftDown lt spare n r i)

/-- `heapify`. -/
def heapify (spare n : Nat) (r : Room T) : Room T := heapifyFrom lt spare n (n / 2) r

/-- `PriorityQueue.new`. -/
def new (elementSize : Nat) (capacity : Int) : Except Stop (Indexed T) :=
  let made : Indexed T := { elementSize := elementSize, spare := 1 }
  if capacity > 0 then made.resize capacity.toNat else .ok made

/-- `push`. -/
def push (t : Indexed T) (x : T) : Except Stop (Indexed T) := do
  let t ← t.makeRoom
  let items ← t.room
  let items := Function.update items t.count (some x)
  return ({ t with items := some (siftUp lt t.capacity items t.count) }).resized (t.count + 1)

/-- `lend_place`, with the element it lent. -/
def lendPlace (t : Indexed T) (at_ : Int) (f : T → T) : Except Stop (Indexed T × T) := do
  let i ← t.checkPlace at_
  let items ← t.room
  let x ← Indexed.elementOf (items i)
  return ({ t with items := some (fix lt t.capacity
    (Function.update items i (some (f x))) i t.count) }, x)

/-- `take_place`. -/
def takePlace (t : Indexed T) (at_ : Int) : Except Stop (Indexed T × T × Option Nat) := do
  let i ← t.checkPlace at_
  let items ← t.room
  let last := t.count - 1
  let after := if i < last then some i else none
  let x ← Indexed.elementOf (items i)
  let items := zeroSlot (if i < last then copySlot items i last else items) last
  let items := if i < last then fix lt t.capacity items i last else items
  return ({ t with items := some items }, x, after)

/-- `pop`. -/
def pop (t : Indexed T) : Except Stop (Indexed T × Option T) :=
  if t.count = 0 then .ok (t, none)
  else do
    let (t, x, _) ← takePlace lt t 0
    return (t.resized (t.count - 1), some x)

/-- `peek`. -/
def peek (t : Indexed T) : Except Stop (Option T) :=
  if t.count = 0 then .ok none
  else do
    let items ← t.room
    return some (← Indexed.elementOf (items 0))

section Forms

variable (test : Nat → T → Bool) (change : Nat → T → T)

/-- The loop of `update_all`, with the turns left: the room and the number of changes. -/
def updateFrom : Nat → Nat → Room T → Nat → Except Stop (Room T × Nat)
  | 0, _, r, n => .ok (r, n)
  | left + 1, i, r, n => do
      let x ← Indexed.elementOf (r i)
      if test i x then
        updateFrom left (i + 1) (Function.update r i (some (change i x))) (n + 1)
      else updateFrom left (i + 1) r n

/-- `update_all`. -/
def updateAll (t : Indexed T) : Except Stop (Indexed T × Nat) :=
  match t.items with
  | none => .ok (t, 0)
  | some items => do
      let (items, n) ← updateFrom test change t.count 0 items 0
      if n > 0 then
        return ({ t with items := some (heapify lt t.capacity t.count items) }, n)
      else return ({ t with items := some items }, n)

/-- The loop of `remove_all`, with the turns left: the room and the number of elements kept. -/
def removeFrom : Nat → Nat → Room T → Nat → Except Stop (Room T × Nat)
  | 0, _, r, kept => .ok (r, kept)
  | left + 1, i, r, kept => do
      let x ← Indexed.elementOf (r i)
      if test i x then removeFrom left (i + 1) (zeroSlot r i) kept
      else if kept < i then
        removeFrom left (i + 1) (zeroSlot (copySlot r kept i) i) (kept + 1)
      else removeFrom left (i + 1) r (kept + 1)

/-- `remove_all`. -/
def removeAll (t : Indexed T) : Except Stop (Indexed T × Nat) :=
  match t.items with
  | none => .ok (t, 0)
  | some items => do
      let (items, kept) ← removeFrom test t.count 0 items 0
      if t.count - kept > 0 then
        return (({ t with items := some (heapify lt t.capacity kept items) }).resized kept,
          t.count - kept)
      else return ({ t with items := some items }, t.count - kept)

end Forms

/-- `copy`. -/
def copy (t : Indexed T) : Except Stop (Indexed T) := t.copyInto t.count

/-- `PriorityQueue<T>` as a collection. -/
def queue : Collection (Indexed T) T where
  count := Indexed.count
  firstPlace := Indexed.firstPlace
  nextPlace := Indexed.nextPlace
  lendPlace := lendPlace lt
  takePlace := takePlace lt
  removed t := t.resized (t.count - 1)

/-- The forms, of which the class has two of its own. -/
def form (t : Indexed T) : Form T → Except Stop (Indexed T × FormAnswer T)
  | .updateAll test change => do
      let (t, n) ← updateAll lt test change t
      return (t, .number n)
  | .removeAll test => do
      let (t, n) ← removeAll lt test t
      return (t, .number n)
  | f => (queue lt).form t f

end PriorityQueue

/-! ## The calls -/

/-- The calls of a queue. -/
inductive QueueCall (T : Type) where
  | push (x : T)
  | pop
  | peek
  | lendPlace (at_ : Int) (f : T → T)
  /-- `take_place`, with the count its caller takes off. -/
  | takePlace (at_ : Int)
  | form (f : Form T)
  | reserve (n : Int)
  | shrink
  | copy

/-- A call.  A `copy` goes on with the copy. -/
def queueCall {T : Type} (lt : T → T → Bool) (t : Indexed T) :
    QueueCall T → Except Stop (Indexed T × SeqAnswer T)
  | .push x => do return (← PriorityQueue.push lt t x, .finished)
  | .pop => do
      let (t, x) ← PriorityQueue.pop lt t
      return (t, .element x)
  | .peek => do return (t, .element (← PriorityQueue.peek t))
  | .lendPlace at_ f => do
      let (t, _) ← PriorityQueue.lendPlace lt t at_ f
      return (t, .finished)
  | .takePlace at_ => do
      let (t, x, after) ← PriorityQueue.takePlace lt t at_
      return (t.resized (t.count - 1), .taken (some x) after)
  | .form f => do
      let (t, a) ← PriorityQueue.form lt t f
      return (t, .form a)
  | .reserve n => do return (← t.reserveRoom n, .finished)
  | .shrink => do return (← t.shrinkRoom, .finished)
  | .copy => do return (← PriorityQueue.copy t, .finished)

/-- A call that returns. -/
def QueueStep {T : Type} (lt : T → T → Bool) (t : Indexed T) (call : QueueCall T × SeqAnswer T)
    (t' : Indexed T) : Prop :=
  queueCall lt t call.1 = .ok (t', call.2)

end AnticCollection
