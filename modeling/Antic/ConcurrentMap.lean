import Antic.EntryTable
import Antic.Histories
import Antic.SharedCode
import Mathlib.Data.List.FinRange

/-! # The map of many threads — `ConcurrentMap` of `concurrent.anti`

    The body of a `sync part.lock` is one instruction, and so is the taking and
    the giving back of each lock where an operation holds them all.  The calls of
    any number of threads interleave at every instruction.

    * The tables of a part are lists of entries.  The order of a walk is a draw of
      its own for every walk.
    * A walk asks a test once for each entry, so a test that keeps a state is a
      function of the entry in each of its passes.
    * A part keeps the history of its calls, which no call reads. -/

namespace AnticShared

open AnticCollection SharedCode Histories

/-- `PARTS`. -/
abbrev PARTS : Nat := 16

/-- A part of the map, which its lock guards. -/
structure Part (K V : Type) where
  entries : List (K × V) := []
  versions : List (K × Nat) := []
  clock : Nat := 0

/-- The order of a walk over the entries of a table. -/
structure Walk (K V : Type) where
  order : List (K × V) → List (K × V)
  perm : ∀ l, (order l).Perm l

/-! ## The sections of a part -/

section Sections

variable {K V : Type} [BEq K]

/-- `contains`. -/
def assocContains {α : Type} (l : List (K × α)) (k : K) : Bool := l.any fun e => e.1 == k

/-- The entry of `k` written in place. -/
def assocWrite (l : List (K × V)) (k : K) (f : K × V → K × V) : List (K × V) :=
  l.map fun e => if e.1 == k then f e else e

/-- `lend_entry`: the key that `change` wrote goes back where it is another. -/
def lendEntry (change : K × V → K × V) (e : K × V) : K × V :=
  if (change e).1 == e.1 then change e else (e.1, (change e).2)

namespace Part

/-- `changed`. -/
def changed (p : Part K V) (k : K) : Part K V :=
  { p with clock := p.clock + 1, versions := assocSet p.versions k (p.clock + 1) }

/-- `set`, with what it adds to `size`. -/
def set (p : Part K V) (k : K) (v : V) : Part K V × Int :=
  (({ p with entries := assocSet p.entries k v } : Part K V).changed k,
    if assocContains p.entries k then 0 else 1)

/-- `add`. -/
def add (p : Part K V) (k : K) (v : V) : (Part K V × Int) × Bool :=
  if assocContains p.entries k then ((p, 0), false)
  else ((({ p with entries := p.entries ++ [(k, v)] } : Part K V).changed k, 1), true)

/-- `remove`. -/
def remove (p : Part K V) (k : K) : (Part K V × Int) × Option V :=
  if assocContains p.entries k then
    (({ p with versions := assocErase p.versions k
               entries := assocErase p.entries k }, -1), assocGet p.entries k)
  else ((p, 0), none)

/-- `update`. -/
def update (p : Part K V) (k : K) (change : V → V) : Part K V × Bool :=
  if assocContains p.entries k then
    (({ p with entries := assocWrite p.entries k fun e => (e.1, change e.2) } :
      Part K V).changed k, true)
  else (p, false)

/-- `get_versioned`. -/
def getVersioned (p : Part K V) (k : K) : Option (V × Nat) :=
  (assocGet p.entries k).map fun v => (v, (assocGet p.versions k).getD 0)

/-- `set_if_version`.  It fails with `Changed`: the version it was called with,
    and the one it found. -/
def setIfVersion (p : Part K V) (k : K) (v : V) (version : Int) :
    Part K V × Except (Int × Int) Unit :=
  match assocGet p.versions k with
  | none => (p, .error (version, -1))
  | some now =>
    if (now : Int) ≠ version then (p, .error (version, now))
    else (({ p with entries := assocSet p.entries k v } : Part K V).changed k, .ok ())

/-- What `update_all` and `update_in` do with the entry `e`. -/
def updateEntry (change : K × V → K × V) (p : Part K V) (e : K × V) : Part K V :=
  ({ p with entries := assocWrite p.entries e.1 (lendEntry change) } : Part K V).changed e.1

/-- What `forgets` and then the table do with the entry `e`. -/
def removeEntry (p : Part K V) (e : K × V) : Part K V :=
  { p with versions := assocErase p.versions e.1, entries := assocErase p.entries e.1 }

/-- The walk of `update_all` over the entries left. -/
def updateEach (test : K × V → Bool) (change : K × V → K × V) :
    List (K × V) → Part K V → Part K V × Nat
  | [], p => (p, 0)
  | e :: es, p =>
    if test e then
      let (p, n) := updateEach test change es (p.updateEntry change e)
      (p, n + 1)
    else updateEach test change es p

/-- The walk of `remove_all` over the entries left. -/
def removeEach (test : K × V → Bool) : List (K × V) → Part K V → Part K V × Nat
  | [], p => (p, 0)
  | e :: es, p =>
    if test e then
      let (p, n) := removeEach test es (p.removeEntry e)
      (p, n + 1)
    else removeEach test es p

/-- `update_in`. -/
def updateIn (w : Walk K V) (test : K × V → Bool) (change : K × V → K × V)
    (p : Part K V) : Part K V × Bool :=
  match (w.order p.entries).find? test with
  | none => (p, false)
  | some e => (p.updateEntry change e, true)

/-- `remove_in`. -/
def removeIn (w : Walk K V) (test : K × V → Bool) (p : Part K V) :
    (Part K V × Int) × Option (K × V) :=
  match (w.order p.entries).find? test with
  | none => ((p, 0), none)
  | some e => ((p.removeEntry e, -1), some e)

/-- The section of `clear`. -/
def clear (p : Part K V) : Part K V × Int :=
  ({ p with entries := [], versions := [] }, -p.entries.length)

end Part

end Sections

/-! ## The calls of one key -/

/-- A call of one key. -/
inductive KeyOp (V : Type) where
  | get
  | contains
  | set (v : V)
  | add (v : V)
  | remove
  | update (change : V → V)
  | getVersioned
  | setIfVersion (v : V) (version : Int)

/-- What a call of one key gives. -/
inductive KeyAnswer (V : Type) where
  | finished
  | flag (b : Bool)
  | value (v : Option V)
  | versioned (v : Option (V × Nat))
  | outcome (r : Except (Int × Int) Unit)

/-- The calls of one key on a part, with what they add to `size`. -/
def Part.keyCall {K V : Type} [BEq K] (p : Part K V) (k : K) :
    KeyOp V → (Part K V × Int) × KeyAnswer V
  | .get => ((p, 0), .value (assocGet p.entries k))
  | .contains => ((p, 0), .flag (assocContains p.entries k))
  | .set v => (p.set k v, .finished)
  | .add v => let (r, added) := p.add k v; (r, .flag added)
  | .remove => let (r, gone) := p.remove k; (r, .value gone)
  | .update change => let (p, found) := p.update k change; ((p, 0), .flag found)
  | .getVersioned => ((p, 0), .versioned (p.getVersioned k))
  | .setIfVersion v version =>
    let (p, r) := p.setIfVersion k v version
    ((p, 0), .outcome r)

/-! ## The instructions -/

/-- What runs inside the lock of a part. -/
inductive Section (K V : Type) where
  | key (k : K) (op : KeyOp V)
  | updateAll (w : Walk K V) (test : K × V → Bool) (change : K × V → K × V)
  | updateIn (w : Walk K V) (test : K × V → Bool) (change : K × V → K × V)
  | removeAll (w : Walk K V) (test : K × V → Bool)
  | removeIn (w : Walk K V) (test : K × V → Bool)
  | clear
  /-- The walk of `matches`, which counts. -/
  | count (test : K × V → Bool)

def Section.out {K V : Type} : Section K V → Type
  | .key _ _ => KeyAnswer V
  | .updateAll _ _ _ => Nat
  | .updateIn _ _ _ => Bool
  | .removeAll _ _ => Nat
  | .removeIn _ _ => Option (K × V)
  | .clear => Unit
  | .count _ => Nat

/-- A call that took effect on a part. -/
abbrev Note (ι K V : Type) := Event ι K (KeyOp V) (KeyAnswer V)

section Run

variable {ι K V : Type} [BEq K]

/-- The part after a section, what the section adds to `size`, and what it gives. -/
def Section.run : (s : Section K V) → Part K V → (Part K V × Int) × s.out
  | .key k op, p => p.keyCall k op
  | .updateAll w test change, p =>
    let (p', n) := Part.updateEach test change (w.order p.entries) p
    ((p', 0), n)
  | .updateIn w test change, p =>
    let (p', found) := p.updateIn w test change
    ((p', 0), found)
  | .removeAll w test, p =>
    let (p', gone) := Part.removeEach test (w.order p.entries) p
    ((p', -gone), gone)
  | .removeIn w test, p => p.removeIn w test
  | .clear, p => (p.clear, ())
  | .count test, p => ((p, 0), p.entries.countP test)

/-- The note of an entry that a walk updates. -/
def updateNote (t : ι) (change : K × V → K × V) (p : Part K V) (e : K × V) : Note ι K V :=
  ⟨t, e.1, .update fun v => (change (e.1, v)).2, .flag true, some (p.clock + 1)⟩

/-- The note of an entry that a walk removes. -/
def removeNote (t : ι) (e : K × V) : Note ι K V := ⟨t, e.1, .remove, .value (some e.2), none⟩

/-- The notes of `updateEach`. -/
def updateNotes (t : ι) (test : K × V → Bool) (change : K × V → K × V) :
    List (K × V) → Part K V → List (Note ι K V)
  | [], _ => []
  | e :: es, p =>
    if test e then
      updateNote t change p e :: updateNotes t test change es (p.updateEntry change e)
    else updateNotes t test change es p

/-- What a section adds to the history of its part: one note for each entry it
    reads or changes by its key, and one for each entry its walk changes. -/
def Section.notes (t : ι) : Section K V → Part K V → List (Note ι K V)
  | .key k op, p =>
    let ((p', _), a) := p.keyCall k op
    [⟨t, k, op, a, if p'.clock = p.clock then none else some p'.clock⟩]
  | .updateAll w test change, p => updateNotes t test change (w.order p.entries) p
  | .updateIn w test change, p =>
    ((w.order p.entries).find? test).toList.map (updateNote t change p)
  | .removeAll w test, p => ((w.order p.entries).filter test).map (removeNote t)
  | .removeIn w test, p => ((w.order p.entries).find? test).toList.map (removeNote t)
  | .clear, p => p.entries.map (removeNote t)
  | .count _, _ => []

end Run

/-- The memory of the map: the parts with their locks, and the number of entries. -/
structure Store (ι K V : Type) where
  parts : Fin PARTS → Part K V
  holder : Fin PARTS → Option ι
  history : Fin PARTS → List (Note ι K V)
  size : Int

inductive Instr (ι K V : Type) where
  /-- `sync part.lock` with the section in it. -/
  | sync (t : ι) (i : Fin PARTS) (s : Section K V)
  | lock (t : ι) (i : Fin PARTS)
  | unlock (t : ι) (i : Fin PARTS)
  /-- A section of a thread that holds the lock. -/
  | inside (t : ι) (i : Fin PARTS) (s : Section K V)

section Instructions

variable {ι K V : Type}

def Instr.out : Instr ι K V → Type
  | .sync _ _ s => s.out
  | .inside _ _ s => s.out
  | .lock _ _ => Unit
  | .unlock _ _ => Unit

variable [BEq K]

/-- The memory after a section of the part `i`. -/
def Store.run (m : Store ι K V) (t : ι) (i : Fin PARTS) (s : Section K V) :
    Store ι K V :=
  { m with parts := Function.update m.parts i (s.run (m.parts i)).1.1
           size := m.size + (s.run (m.parts i)).1.2
           history := Function.update m.history i
             (m.history i ++ s.notes t (m.parts i)) }

/-- What an instruction does. -/
def exec : (i : Instr ι K V) → Store ι K V → Store ι K V × i.out
  | .sync t i s, m => (m.run t i s, (s.run (m.parts i)).2)
  | .inside t i s, m => (m.run t i s, (s.run (m.parts i)).2)
  | .lock t i, m => ({ m with holder := Function.update m.holder i (some t) }, ())
  | .unlock _ i, m => ({ m with holder := Function.update m.holder i none }, ())

/-- A lock that is held makes a thread wait. -/
def ready (m : Store ι K V) : Instr ι K V → Prop
  | .sync _ i _ => m.holder i = none
  | .lock _ i => m.holder i = none
  | .unlock _ _ => True
  | .inside _ _ _ => True

end Instructions

/-! ## The calls of the map -/

theorem top_lt (x : UInt64) : (x >>> 60).toNat < PARTS := by
  rw [UInt64.toNat_shiftRight, Nat.shiftRight_eq_div_pow]
  exact Nat.div_lt_of_lt_mul x.toNat_lt

/-- What a call gives. -/
inductive Answer (K V : Type) where
  | key (a : KeyAnswer V)
  | finished
  | flag (b : Bool)
  | number (n : Nat)
  | entry (e : Option (K × V))
  /-- The failure `NotOne`, with the number of matches. -/
  | notOne (n : Nat)

/-- The code of a call. -/
abbrev Op (ι K V R : Type) := Code (Instr ι K V) Instr.out R

section Calls

variable {ι K V : Type} (hash : K → UInt64) (seed : UInt64) (t : ι)

def sync (i : Fin PARTS) (s : Section K V) : Op ι K V s.out := .one (Instr.sync t i s)

def lock (i : Fin PARTS) : Op ι K V Unit := .one (Instr.lock t i)

def unlock (i : Fin PARTS) : Op ι K V Unit := .one (Instr.unlock t i)

def inside (i : Fin PARTS) (s : Section K V) : Op ι K V s.out := .one (Instr.inside t i s)

/-- `part_of`: the top bits of the seeded hash, the `PARTS` of which are four. -/
def partOf (k : K) : Fin PARTS := ⟨(seeded (hash k) seed >>> 60).toNat, top_lt _⟩

/-- A call of one key: `get`, `contains`, `set`, `add`, `remove`, `update`,
    `get_versioned` and `set_if_version`, each inside the lock of its part. -/
def keyCall (k : K) (op : KeyOp V) : Op ι K V (Answer K V) := do
  let a ← sync t (partOf hash seed k) (.key k op)
  return .key a

/-- `locked_from`, with the parts left to lock. -/
def lockedFrom {R : Type} (f : Op ι K V R) : List (Fin PARTS) → Op ι K V R
  | [] => f
  | i :: is => do
      lock t i
      let r ← lockedFrom f is
      unlock t i
      return r

/-- `whole`. -/
def whole {R : Type} (f : Op ι K V R) : Op ι K V R := lockedFrom t f (List.finRange PARTS)

/-- The loop of `matches` over the parts left. -/
def matchesFrom (test : K × V → Bool) : List (Fin PARTS) → Nat → Op ι K V Nat
  | [], n => return n
  | i :: is, n => do
      let found : Nat ← inside t i (.count test)
      matchesFrom test is (n + found)

/-- The loop of `update_all`. -/
def updateAll (w : Fin PARTS → Walk K V) (test : K × V → Bool)
    (change : K × V → K × V) : List (Fin PARTS) → Nat → Op ι K V (Answer K V)
  | [], n => return .number n
  | i :: is, n => do
      let found : Nat ← sync t i (.updateAll (w i) test change)
      updateAll w test change is (n + found)

/-- The loop of `update_first`. -/
def updateFirst (w : Fin PARTS → Walk K V) (test : K × V → Bool)
    (change : K × V → K × V) : List (Fin PARTS) → Op ι K V (Answer K V)
  | [] => return .flag false
  | i :: is => do
      let found : Bool ← sync t i (.updateIn (w i) test change)
      if found then return .flag true else updateFirst w test change is

/-- The loop of `update_one` once `matches` gave 1. -/
def updateLocked (w : Fin PARTS → Walk K V) (test : K × V → Bool)
    (change : K × V → K × V) : List (Fin PARTS) → Op ι K V Unit
  | [] => return ()
  | i :: is => do
      let found : Bool ← inside t i (.updateIn (w i) test change)
      if found then return () else updateLocked w test change is

scoped instance neZero_two : NeZero 2 := ⟨by decide⟩

/-- `update_one`.  `test` may answer otherwise in its second pass. -/
def updateOne (w : Fin PARTS → Walk K V) (test : Fin 2 → K × V → Bool)
    (change : K × V → K × V) : Op ι K V (Answer K V) := do
  let n ← whole t do
    let n ← matchesFrom t (test 0) (List.finRange PARTS) 0
    if n = 1 then
      updateLocked t w (test 1) change (List.finRange PARTS)
      return n
    else return n
  if n ≠ 1 then return .notOne n else return .finished

/-- The loop of `remove_all`. -/
def removeAll (w : Fin PARTS → Walk K V) (test : K × V → Bool) :
    List (Fin PARTS) → Nat → Op ι K V (Answer K V)
  | [], n => return .number n
  | i :: is, n => do
      let gone : Nat ← sync t i (.removeAll (w i) test)
      removeAll w test is (n + gone)

/-- The loop of `remove_first`. -/
def removeFirst (w : Fin PARTS → Walk K V) (test : K × V → Bool) :
    List (Fin PARTS) → Op ι K V (Answer K V)
  | [] => return .entry none
  | i :: is => do
      let taken : Option (K × V) ← sync t i (.removeIn (w i) test)
      match taken with
      | some e => return .entry (some e)
      | none => removeFirst w test is

/-- The loop of `remove_one` once `matches` gave 1. -/
def removeLocked (w : Fin PARTS → Walk K V) (test : K × V → Bool) :
    List (Fin PARTS) → Op ι K V (Option (K × V))
  | [] => return none
  | i :: is => do
      let taken : Option (K × V) ← inside t i (.removeIn (w i) test)
      match taken with
      | some e => return some e
      | none => removeLocked w test is

/-- `remove_one`. -/
def removeOne (w : Fin PARTS → Walk K V) (test : Fin 2 → K × V → Bool) :
    Op ι K V (Answer K V) := do
  let (n, taken) ← whole t do
    let n ← matchesFrom t (test 0) (List.finRange PARTS) 0
    if n = 1 then
      let taken ← removeLocked t w (test 1) (List.finRange PARTS)
      return (n, taken)
    else return (n, none)
  match taken with
  | some e => return .entry (some e)
  | none => return .notOne n

/-- The loop of `clear`. -/
def clear : List (Fin PARTS) → Op ι K V (Answer K V)
  | [] => return .finished
  | i :: is => do
      sync t i .clear
      clear is

/-- The calls of the map. -/
inductive Call (K V : Type) where
  | key (k : K) (op : KeyOp V)
  | updateAll (w : Fin PARTS → Walk K V) (test : K × V → Bool) (change : K × V → K × V)
  | updateFirst (w : Fin PARTS → Walk K V) (test : K × V → Bool) (change : K × V → K × V)
  | updateOne (w : Fin PARTS → Walk K V) (test : Fin 2 → K × V → Bool) (change : K × V → K × V)
  | removeAll (w : Fin PARTS → Walk K V) (test : K × V → Bool)
  | removeFirst (w : Fin PARTS → Walk K V) (test : K × V → Bool)
  | removeOne (w : Fin PARTS → Walk K V) (test : Fin 2 → K × V → Bool)
  | clear

/-- The code of a call. -/
def body : Call K V → Op ι K V (Answer K V)
  | .key k op => keyCall hash seed t k op
  | .updateAll w test change => updateAll t w test change (List.finRange PARTS) 0
  | .updateFirst w test change => updateFirst t w test change (List.finRange PARTS)
  | .updateOne w test change => updateOne t w test change
  | .removeAll w test => removeAll t w test (List.finRange PARTS) 0
  | .removeFirst w test => removeFirst t w test (List.finRange PARTS)
  | .removeOne w test => removeOne t w test
  | .clear => clear t (List.finRange PARTS)

/-- The threads that share a map. -/
def concurrentMap [BEq K] :
    System ι (fun _ => Call K V) (Instr ι K V) Instr.out (Store ι K V) (Answer K V) where
  exec := exec
  ready _ i m := ready m i
  body := body hash seed

abbrev MapWorld (ι K V : Type) :=
  World ι (fun _ => Call K V) (Instr ι K V) Instr.out (Store ι K V) (Answer K V)

/-- A new map, before any call. -/
def new : MapWorld ι K V where
  memory := ⟨fun _ => {}, fun _ => none, fun _ => [], 0⟩
  threads _ := .idle

end Calls

end AnticShared
