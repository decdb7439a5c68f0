import Antic.SharedCode

/-! # The ring of one producer and one consumer — `SpscRing` of `concurrent.anti`

    Each load and store of a field and of a slot is one instruction, so the calls of the two sides
    interleave at every one of them.  The counters and the slots are the memory both sides share.

    * A slot of zero bytes is `none`.  `=` into a slot tears down the element it finds there first.
    * A test answers by the position it is asked at, so it may keep a state of its own: every form
      asks it once a position.
    * `accepted`, `popped` and `removed` are the history of the ring, which no call reads.  A store
      that publishes a change writes its part of the history in the same instruction. -/

namespace AnticRing

open SharedCode

/-- The counters: `given` and `taken_seen` are the producer's, `taken` and
    `given_seen` the consumer's. -/
inductive Counter where
  | given | taken | takenSeen | givenSeen
  deriving DecidableEq, Repr

/-- The ring, with the elements that `push` accepted, that `pop` gave, and that
    the removal forms gave or tore down. -/
structure Memory (T : Type) where
  counter : Counter → Nat := fun _ => 0
  items : Nat → Option T := fun _ => none
  accepted : List T := []
  popped : List T := []
  removed : List T := []

/-- What a store adds to the history. -/
structure Note (T : Type) where
  accepted : List T := []
  popped : List T := []
  removed : List T := []

inductive Instr (T : Type) where
  | load (c : Counter)
  | store (c : Counter) (n : Nat) (note : Note T)
  | read (slot : Nat)
  | write (slot : Nat) (x : Option T)
  | destroy (x : Option T)
  /-- `no_element`, which stops the program. -/
  | stop

def Instr.out {T : Type} : Instr T → Type
  | .load _ => Nat
  | .read _ => Option T
  | _ => Unit

/-- What an instruction does. -/
def exec {T : Type} : (i : Instr T) → Memory T → Memory T × i.out
  | .load c, m => (m, m.counter c)
  | .store c n note, m =>
    ({ m with counter := Function.update m.counter c n
              accepted := m.accepted ++ note.accepted
              popped := m.popped ++ note.popped
              removed := m.removed ++ note.removed }, ())
  | .read slot, m => (m, m.items slot)
  | .write slot x, m => ({ m with items := Function.update m.items slot x }, ())
  | .destroy x, m => ({ m with removed := m.removed ++ x.toList }, ())
  | .stop, m => (m, ())

/-- The code of a call. -/
abbrev Op (T R : Type) := Code (Instr T) Instr.out R

section Instructions

variable {T : Type}

def load (c : Counter) : Op T Nat := .one (Instr.load c)

def store (c : Counter) (n : Nat) (note : Note T := {}) : Op T Unit := .one (Instr.store c n note)

def read (slot : Nat) : Op T (Option T) := .one (Instr.read slot)

def write (slot : Nat) (x : Option T) : Op T Unit := .one (Instr.write slot x)

def destroy (x : Option T) : Op T Unit := .one (Instr.destroy x)

def noElement : Op T Unit := .one Instr.stop

end Instructions

/-- What a call gives. -/
inductive Answer (T : Type) where
  | flag (b : Bool)
  | element (x : Option T)
  /-- `none`. -/
  | absent
  /-- The failure `NotOne`, with the number of matches. -/
  | notOne (n : Nat)
  | number (n : Nat)
  | elements (xs : List (Option T))
  | finished

section Ring

variable {T : Type} (N : Nat)

/-! ## The producer -/

/-- `items[slot] = x`. -/
def assign (slot : Nat) (x : T) : Op T Unit := do
  let old ← read slot
  destroy old
  write slot (some x)

/-- `push`. -/
def push (x : T) : Op T (Answer T) := do
  let given ← load .given
  let seen ← load .takenSeen
  let full ←
    if given - seen ≥ N then do
      let taken ← load .taken
      store .takenSeen taken
      let seen ← load .takenSeen
      pure (decide (given - seen ≥ N))
    else pure false
  if full then
    return .flag false
  else do
    assign (given % N) x
    store .given (given + 1) { accepted := [x] }
    return .flag true

/-- `is_full`. -/
def isFull : Op T (Answer T) := do
  let taken ← load .taken
  let given ← load .given
  return .flag (decide (given - taken ≥ N))

/-! ## The consumer -/

/-- `take`. -/
def take (p : Nat) : Op T (Option T) := do
  let got ← read (p % N)
  write (p % N) none
  return got

/-- `pop`. -/
def pop : Op T (Answer T) := do
  let taken ← load .taken
  let seen ← load .givenSeen
  let empty ←
    if taken = seen then do
      let given ← load .given
      store .givenSeen given
      let seen ← load .givenSeen
      pure (decide (taken = seen))
    else pure false
  if empty then
    return .absent
  else do
    let got ← take N taken
    store .taken (taken + 1) { popped := got.toList }
    return .element got

/-- `held`. -/
def held : Op T (Nat × Nat) := do
  let head ← load .taken
  let given ← load .given
  store .givenSeen given
  let tail ← load .givenSeen
  return (head, tail)

/-- `peek`. -/
def peek : Op T (Answer T) := do
  let (head, tail) ← held
  if head = tail then
    return .absent
  else do
    let x ← read (head % N)
    return .element x

/-- The copies of the elements at `n` positions from `p` on. -/
def copies : (n p : Nat) → Op T (List (Option T))
  | 0, _ => pure []
  | n + 1, p => do
      let x ← read (p % N)
      let xs ← copies n (p + 1)
      return x :: xs

/-- `iter`. -/
def iter : Op T (Answer T) := do
  let (head, tail) ← held
  let xs ← copies N (tail - head) head
  return .elements xs

/-! ## The view of the consumer -/

/-- `Held`: the positions from `head` up to `tail`. -/
structure Held where
  head : Nat
  tail : Nat

/-- `elements`. -/
def elements : Op T Held := do
  let (head, tail) ← held
  return { head, tail }

namespace Held

/-- `first_place`. -/
def firstPlace (v : Held) : Option Nat :=
  if v.head = v.tail then none else some v.head

/-- `check_place`. -/
def checkPlace (v : Held) (place : Nat) : Op T Unit :=
  if place < v.head ∨ place ≥ v.tail then noElement else pure ()

/-- `next_place`. -/
def nextPlace (v : Held) (place : Nat) : Op T (Option Nat) := do
  v.checkPlace place
  return if place + 1 ≥ v.tail then none else some (place + 1)

/-- `accepts`, through `lend_place`. -/
def accepts (v : Held) (test : Nat → T → Bool) (place : Nat) : Op T Bool := do
  v.checkPlace place
  let x ← read (place % N)
  return x.any (test place)

/-- The moves of `take_place`: the elements at `n` positions from the head on go
    one slot towards the newest, the newest first. -/
def moveUp (head : Nat) : Nat → Op T Unit
  | 0 => pure ()
  | n + 1 => do
      let x ← read ((head + n) % N)
      write ((head + n + 1) % N) x
      moveUp head n

/-- `take_place`, with the view after it. -/
def takePlace (v : Held) (place : Nat) : Op T (Option T × Option Nat × Held) := do
  v.checkPlace place
  let got ← read (place % N)
  let next ← v.nextPlace place
  moveUp N v.head (place - v.head)
  write (v.head % N) none
  return (got, next, { v with head := v.head + 1 })

/-- `first_match` from a place on.  The fuel is one more than the places. -/
def firstMatch (v : Held) (test : Nat → T → Bool) : Nat → Option Nat → Op T (Option Nat)
  | 0, _ => do noElement; return none
  | _ + 1, none => pure none
  | fuel + 1, some place => do
      if ← v.accepts N test place then
        return some place
      else do
        let next ← v.nextPlace place
        firstMatch v test fuel next

/-- `one_match` from a place on, with the match it found and their number. -/
def oneMatch (v : Held) (test : Nat → T → Bool) :
    Nat → Option Nat → Option Nat → Nat → Op T (Option Nat × Nat)
  | 0, _, found, n => do noElement; return (found, n)
  | _ + 1, none, found, n => pure (found, n)
  | fuel + 1, some place, found, n => do
      let yes ← v.accepts N test place
      let next ← v.nextPlace place
      if yes then oneMatch v test fuel next (if n = 0 then some place else found) (n + 1)
      else oneMatch v test fuel next found n

/-- The pass of `remove_all` over `n` positions from the head on, the newest
    first.  `keep` is the position after the room the elements that stay go to. -/
def keepOthers (head : Nat) (test : Nat → T → Bool) : Nat → Nat → Op T Nat
  | 0, keep => pure keep
  | n + 1, keep => do
      let p := head + n
      let x ← read (p % N)
      if x.any (test p) then do
        let gone ← read (p % N)
        destroy gone
        write (p % N) none
        keepOthers head test n keep
      else if keep - 1 ≠ p then do
        let moved ← read (p % N)
        write ((keep - 1) % N) moved
        write (p % N) none
        keepOthers head test n (keep - 1)
      else
        keepOthers head test n (keep - 1)

/-- The loop of `clear` from a place on. -/
def clearFrom : Nat → Option Nat → Held → Op T Held
  | 0, _, v => do noElement; return v
  | _ + 1, none, v => pure v
  | fuel + 1, some place, v => do
      let (gone, next, v) ← v.takePlace N place
      destroy gone
      clearFrom fuel next v

/-- One more than the places of the view. -/
def fuel (v : Held) : Nat := v.tail - v.head + 1

end Held

/-- `remove_first`. -/
def removeFirst (test : Nat → T → Bool) : Op T (Answer T) := do
  let v ← elements
  let place ← v.firstMatch N test v.fuel v.firstPlace
  match place with
  | none => do
      store .taken v.head
      return .absent
  | some place => do
      let (got, _, v) ← v.takePlace N place
      store .taken v.head { removed := got.toList }
      return .element got

/-- `remove_all`. -/
def removeAll (test : Nat → T → Bool) : Op T (Answer T) := do
  let v ← elements
  let keep ← Held.keepOthers N v.head test (v.tail - v.head) v.tail
  store .taken keep
  return .number (keep - v.head)

/-- `remove_one`. -/
def removeOne (test : Nat → T → Bool) : Op T (Answer T) := do
  let v ← elements
  let (found, n) ← v.oneMatch N test v.fuel v.firstPlace none 0
  if n ≠ 1 then
    return .notOne n
  else
    match found with
    | none => do noElement; return .notOne n
    | some place => do
        let (got, _, v) ← v.takePlace N place
        store .taken v.head { removed := got.toList }
        return .element got

/-- `clear`. -/
def clear : Op T (Answer T) := do
  let v ← elements
  let v ← Held.clearFrom N v.fuel v.firstPlace v
  store .taken v.head
  return .finished

end Ring

/-! ## The two threads -/

inductive Side where
  | producer | consumer
  deriving DecidableEq, Repr

inductive ProducerCall (T : Type) where
  | push (x : T)
  | isFull

inductive ConsumerCall (T : Type) where
  | pop
  | peek
  | removeFirst (test : Nat → T → Bool)
  | removeAll (test : Nat → T → Bool)
  | removeOne (test : Nat → T → Bool)
  | clear
  | iter

def Call (T : Type) : Side → Type
  | .producer => ProducerCall T
  | .consumer => ConsumerCall T

def body {T : Type} (N : Nat) : (t : Side) → Call T t → Op T (Answer T)
  | .producer, .push x => push N x
  | .producer, .isFull => isFull N
  | .consumer, .pop => pop N
  | .consumer, .peek => peek N
  | .consumer, .removeFirst test => removeFirst N test
  | .consumer, .removeAll test => removeAll N test
  | .consumer, .removeOne test => removeOne N test
  | .consumer, .clear => clear N
  | .consumer, .iter => iter N

/-- The ring of `N` slots. -/
def ring (T : Type) (N : Nat) : System Side (Call T) (Instr T) Instr.out (Memory T) (Answer T) where
  exec := exec
  ready _ _ _ := True
  body := body N

abbrev RingWorld (T : Type) := World Side (Call T) (Instr T) Instr.out (Memory T) (Answer T)

/-- `new`. -/
def new (T : Type) : RingWorld T where
  memory := {}
  threads _ := .idle

end AnticRing
