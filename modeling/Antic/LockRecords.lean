import Antic.HashTables

/-! # The record of the orders of locks — `lock.c`

    A dev build records the orders in which threads take locks: a pair of a lock that a
    thread holds and one that it takes.  The records stand in one table that every thread
    reads and writes under one lock, so a call of a function here is one step.

    A lock is its address.  A bucket of the table whose first lock is `NULL` is empty, and
    one that a destroyed lock left is `GONE`; a probe goes on past it. -/

namespace AnticLockRecords

open AnticCollection

/-- `HELD_MAX`. -/
def HELD_MAX : Nat := 32

/-- `struct held`. -/
structure Held where
  lock : UInt64
  site : String

/-- `struct order`. -/
structure Order where
  first : UInt64
  second : UInt64
  firstSite : String
  secondSite : String
  reported : Bool
  deriving DecidableEq

/-- An empty bucket of `calloc`. -/
def Order.zero : Order := ⟨0, 0, "", "", false⟩

/-- `GONE`. -/
def gone : UInt64 := 1

/-- The table: `orders`, `order_count` and `order_capacity`. -/
structure Orders where
  slots : Nat → Order
  count : Nat
  capacity : Nat

/-- The table of a program that starts. -/
def Orders.empty : Orders := ⟨fun _ => .zero, 0, 0⟩

namespace Orders

def firsts (o : Orders) (i : Nat) : UInt64 := (o.slots i).first

/-- The hash of `order_slot`. -/
def hashOf (first second : UInt64) : UInt64 :=
  let h := first * 0x9e3779b97f4a7c15 ^^^ second
  h ^^^ (h >>> 29)

/-- `order_slot`. -/
def orderSlot (o : Orders) (first second : UInt64) : Nat :=
  homeOf (hashOf first second) (o.capacity - 1)

/-- `order_find`. -/
def orderFind (o : Orders) (first second : UInt64) : Except Stop (Option Nat) :=
  if o.capacity = 0 then .ok none
  else do
    let i ← seek o.firsts (fun i => (o.slots i).first = first ∧ (o.slots i).second = second)
      (o.capacity - 1) o.capacity (o.orderSlot first second)
    return if (o.slots i).first = 0 then none else some i

/-- The loop of `orders_grow` over the buckets of the old table, with `left` of them left. -/
def regrow (put : Orders → Order → Except Stop Orders) (old : Orders) :
    (left i : Nat) → Orders → Except Stop Orders
  | 0, _, o => .ok o
  | left + 1, i, o =>
    if (old.slots i).first ≠ 0 ∧ (old.slots i).first ≠ gone then do
      regrow put old left (i + 1) (← put o (old.slots i))
    else regrow put old left (i + 1) o

/-- `orders_grow`. -/
def ordersGrow (put : Orders → Order → Except Stop Orders) (o : Orders) : Except Stop Orders :=
  regrow put o o.capacity 0 ⟨fun _ => .zero, 0, if o.capacity = 0 then 64 else o.capacity * 2⟩

/-- `orders[i] = *o` and `order_count++`. -/
def fill (o : Orders) (i : Nat) (r : Order) : Orders :=
  { o with slots := Function.update o.slots i r, count := o.count + 1 }

/-- `order_put`, which may call itself through `orders_grow`. -/
def orderPut : (depth : Nat) → Orders → Order → Except Stop Orders
  | 0, _, _ => .error .endless
  | depth + 1, o, r => do
      let o ← if (o.count + 1) * 2 > o.capacity then ordersGrow (orderPut depth) o else .ok o
      let i ← seek o.firsts (fun _ => false) (o.capacity - 1) o.capacity (o.orderSlot r.first r.second)
      return o.fill i r

/-- `reported = 1`, in the record at the place. -/
def report (o : Orders) : Option Nat → Orders
  | none => o
  | some i => { o with slots := Function.update o.slots i { o.slots i with reported := true } }

/-- `order_forget`. -/
def orderForget (o : Orders) (lock : UInt64) : Orders :=
  { o with
    slots := fun i =>
      if i < o.capacity ∧ ((o.slots i).first = lock ∨ (o.slots i).second = lock) then
        { o.slots i with first := gone, second := gone }
      else o.slots i }

end Orders

/-- What a note says: the locks that a thread takes and holds, and the sites of its two orders. -/
structure Note where
  lock : UInt64
  held : UInt64
  site : String
  heldSite : String
  secondSite : String
  firstSite : String

/-- "two locks are taken in opposite orders and can deadlock". -/
def Note.text (n : Note) : String :=
  "anti: two locks are taken in opposite orders and can deadlock: " ++ n.site ++
    " takes one while holding the one of " ++ n.heldSite ++ ", and " ++ n.secondSite ++
    " takes that one while holding the one of " ++ n.firstSite

/-- The record of one lock that is held, and the note of its conflict. -/
def recordOne (lock : UInt64) (site : String) (h : Held) (o : Orders) :
    Except Stop (Orders × List Note) := do
  if h.lock = lock then return (o, [])
  else
    let reverse ← o.orderFind lock h.lock
    let forward ← o.orderFind h.lock lock
    let (o, notes) : Orders × List Note :=
      match reverse with
      | none => (o, [])
      | some i =>
        let r := o.slots i
        if r.reported then (o, [])
        else
          ((o.report reverse).report forward,
            [⟨lock, h.lock, site, h.site, r.secondSite, r.firstSite⟩])
    let o ←
      match forward with
      | some _ => pure o
      | none => o.orderPut 2 ⟨h.lock, lock, h.site, site, reverse.isSome⟩
    return (o, notes)

/-- The loop of `order_take`. -/
def recordAll (lock : UInt64) (site : String) :
    List Held → Orders → Except Stop (Orders × List Note)
  | [], o => .ok (o, [])
  | h :: rest, o => do
      let (o, notes) ← recordOne lock site h o
      let (o, more) ← recordAll lock site rest o
      return (o, notes ++ more)

/-- The stack of a thread: what stands in `held`, and `held_count`. -/
structure Stack where
  held : List Held
  count : Nat

/-- What `order_take` does with the stack. -/
def Stack.push (s : Stack) (lock : UInt64) (site : String) : Stack :=
  ⟨if s.count < HELD_MAX then s.held ++ [⟨lock, site⟩] else s.held, s.count + 1⟩

/-- `held` without the topmost entry of a lock, or without its last one. -/
def eraseLast (lock : UInt64) (held : List Held) : List Held :=
  match held.reverse.findIdx? fun h => h.lock = lock with
  | none => held.dropLast
  | some i => held.eraseIdx (held.length - 1 - i)

/-- `order_give`. -/
def Stack.give (s : Stack) (lock : UInt64) : Stack :=
  if s.count = 0 then s
  else if s.count > HELD_MAX then { s with count := s.count - 1 }
  else ⟨eraseLast lock s.held, s.count - 1⟩

/-- `order_take`: the table, the stack and the notes behind it. -/
def orderTake (o : Orders) (s : Stack) (lock : UInt64) (site : String) :
    Except Stop (Orders × Stack × List Note) := do
  let (o, notes) ← if s.count > 0 then recordAll lock site s.held o else .ok (o, [])
  return (o, s.push lock site, notes)

/-- `held_already`: whether the program stops. -/
def heldAlready (s : Stack) (lock : UInt64) : Bool := s.held.any fun h => h.lock = lock

/-! ## Threads -/

/-- What a thread has to do with a lock: a Mutex or an object that it waits for or holds. -/
inductive Mode where
  | free
  | mutexWait
  | mutex
  | objectWait
  | object (depth : Nat)
  deriving DecidableEq

/-- The program: the table, and the stack and the locks of each thread. -/
structure Locks (τ : Type) where
  orders : Orders
  stack : τ → Stack
  mode : τ → UInt64 → Mode

variable {τ : Type} [DecidableEq τ]

/-- A program that starts. -/
def Locks.start : Locks τ := ⟨.empty, fun _ => ⟨[], 0⟩, fun _ _ => .free⟩

/-- The thread is in no call. -/
def Locks.Idle (s : Locks τ) (t : τ) : Prop :=
  ∀ l, s.mode t l ≠ .mutexWait ∧ s.mode t l ≠ .objectWait

def Locks.setMode (s : Locks τ) (t : τ) (l : UInt64) (m : Mode) : Locks τ :=
  { s with mode := Function.update s.mode t (Function.update (s.mode t) l m) }

def Locks.setStack (s : Locks τ) (t : τ) (k : Stack) : Locks τ :=
  { s with stack := Function.update s.stack t k }

/-- What a step does for the record: a thread takes a lock or gives one back, or a lock is
    destroyed; another step is quiet. -/
inductive Event (τ : Type) where
  | took (t : τ) (lock : UInt64) (notes : List Note)
  | gave (t : τ) (lock : UInt64)
  | destroyed (lock : UInt64)
  | quiet

/-- An address of a lock is neither `NULL` nor `GONE`. -/
def IsLock (l : UInt64) : Prop := l ≠ 0 ∧ l ≠ gone

instance (l : UInt64) : Decidable (IsLock l) := inferInstanceAs (Decidable (_ ∧ _))

/-- A step of a thread.  A take that a dev build stops has none, nor has one that is deeper
    than `HELD_MAX`. -/
inductive Step : Locks τ → Event τ → Locks τ → Prop where
  /-- `anti_rt_mutex_lock_at`, up to the wait. -/
  | lockMutex {s : Locks τ} {t : τ} {l : UInt64} {site : String} {o : Orders} {k : Stack}
      {notes : List Note} : s.Idle t → IsLock l → heldAlready (s.stack t) l = false →
      (s.stack t).count < HELD_MAX → orderTake s.orders (s.stack t) l site = .ok (o, k, notes) →
      Step s (.took t l notes) (({ s with orders := o }.setStack t k).setMode t l .mutexWait)
  /-- The wait ends. -/
  | getMutex {s : Locks τ} {t : τ} {l : UInt64} : s.mode t l = .mutexWait →
      (∀ u, s.mode u l ≠ .mutex) → Step s .quiet (s.setMode t l .mutex)
  /-- `anti_rt_mutex_unlock_at`. -/
  | unlockMutex {s : Locks τ} {t : τ} {l : UInt64} : s.Idle t → s.mode t l = .mutex →
      Step s (.gave t l) ((s.setStack t ((s.stack t).give l)).setMode t l .free)
  /-- `anti_rt_object_lock_at` of an object that the thread does not hold, up to the wait. -/
  | lockObject {s : Locks τ} {t : τ} {l : UInt64} {site : String} {o : Orders} {k : Stack}
      {notes : List Note} : s.Idle t → IsLock l → s.mode t l = .free →
      (s.stack t).count < HELD_MAX → orderTake s.orders (s.stack t) l site = .ok (o, k, notes) →
      Step s (.took t l notes) (({ s with orders := o }.setStack t k).setMode t l .objectWait)
  /-- The wait ends. -/
  | getObject {s : Locks τ} {t : τ} {l : UInt64} : s.mode t l = .objectWait →
      (∀ u n, s.mode u l ≠ .object n) → Step s .quiet (s.setMode t l (.object 1))
  /-- `anti_rt_object_lock_at` of an object that the thread holds. -/
  | deepen {s : Locks τ} {t : τ} {l : UInt64} {n : Nat} : s.Idle t → s.mode t l = .object n →
      Step s .quiet (s.setMode t l (.object (n + 1)))
  /-- `anti_rt_object_unlock_at` that leaves the object held. -/
  | rise {s : Locks τ} {t : τ} {l : UInt64} {n : Nat} : s.Idle t → s.mode t l = .object (n + 2) →
      Step s .quiet (s.setMode t l (.object (n + 1)))
  /-- `anti_rt_object_unlock_at` that gives the object back. -/
  | unlockObject {s : Locks τ} {t : τ} {l : UInt64} : s.Idle t → s.mode t l = .object 1 →
      Step s (.gave t l) ((s.setStack t ((s.stack t).give l)).setMode t l .free)
  /-- `anti_rt_mutex_destroy`. -/
  | destroy {s : Locks τ} {l : UInt64} : IsLock l → Step s (.destroyed l)
        (if s.orders.capacity ≠ 0 then { s with orders := s.orders.orderForget l } else s)

/-- A run of the program, with its events, the last one first. -/
inductive Run : List (Event τ) → Locks τ → Prop where
  | start : Run [] Locks.start
  | step {past : List (Event τ)} {s s' : Locks τ} {e : Event τ} :
      Run past s → Step s e s' → Run (e :: past) s'

/-! ## What a run says -/

/-- The thread took the lock and did not give it back. -/
def Holding (t : τ) (l : UInt64) : List (Event τ) → Prop
  | [] => False
  | .took u k _ :: past => (u = t ∧ k = l) ∨ Holding t l past
  | .gave u k :: past => ¬ (u = t ∧ k = l) ∧ Holding t l past
  | _ :: past => Holding t l past

/-- A thread took the second lock while it held the first, and neither was destroyed since. -/
def Ordered (first second : UInt64) : List (Event τ) → Prop
  | [] => False
  | .took t l _ :: past => (l = second ∧ Holding t first past) ∨ Ordered first second past
  | .destroyed l :: past => l ≠ first ∧ l ≠ second ∧ Ordered first second past
  | _ :: past => Ordered first second past

/-- The two locks were taken in both orders. -/
def Conflict (a b : UInt64) (past : List (Event τ)) : Prop := Ordered a b past ∧ Ordered b a past

/-- The note is about the two locks. -/
def Note.about (n : Note) (a b : UInt64) : Bool :=
  (n.lock = a && n.held = b) || (n.lock = b && n.held = a)

/-- The notes that a step gives about two locks. -/
def Event.notesAbout (a b : UInt64) : Event τ → List Note
  | .took _ _ notes => notes.filter fun n => n.about a b
  | _ => []

end AnticLockRecords
