import Antic.HashTables
import Antic.Interleaving

/-! # The table of `Map<K, V>` — `EntryTable<E>` of `map.anti`

    The entries stand in one array in the order they were added, each with its marked hash, and a
    hash table holds their positions.  A removed entry keeps its position with a hash of 0 until the
    room is rebuilt.

    * The arrays of the room are functions of the index.  An entry of zero bytes is `none`.
    * A place or a position of -1 is `none`.
    * `take_place` leaves the count to its caller; the operations of a map take it off, as every
      caller in the library does. -/

namespace AnticCollection

open Function

/-- `EntryTable<E>`.  `room` tells whether there is a block; `marks` and
    `positions` are the two words of a bucket; `elementSize` is `size_of(E)`. -/
structure EntryTable (E : Type) where
  elementSize : Nat
  seed : UInt64
  count : Nat := 0
  used : Nat := 0
  room : Bool := false
  roomSize : Nat := 0
  bucketCount : Nat := 0
  entries : Nat → Option E := fun _ => none
  hashes : Nat → UInt64 := fun _ => emptyMark
  marks : Nat → UInt64 := fun _ => emptyMark
  positions : Nat → Nat := fun _ => 0

namespace EntryTable

variable {E : Type}

/-- `bucket_count - 1`. -/
def mask (t : EntryTable E) : Nat := t.bucketCount - 1

/-- `resized`, less the record of the change. -/
def resized (t : EntryTable E) (count : Nat) : EntryTable E := { t with count := count }

/-- `position`. -/
def position (t : EntryTable E) (h : UInt64) (same : E → Bool) :
    Except Stop (Option Nat) :=
  if t.room = false then .ok none
  else do
    let i ← seek t.marks (fun i => t.marks i = h && (t.entries (t.positions i)).any same)
      t.mask t.bucketCount (homeOf h t.mask)
    return if t.marks i = emptyMark then none else some (t.positions i)

/-- `place`. -/
def place (t : EntryTable E) (h : UInt64) (at_ : Nat) : Except Stop (EntryTable E) :=
  if t.room = false then .error .fatal
  else do
    let i ← seek t.marks (fun i => t.marks i = removedMark) t.mask t.bucketCount (homeOf h t.mask)
    return { t with marks := update t.marks i h
                    positions := update t.positions i at_ }

/-- `forget`. -/
def forget (t : EntryTable E) (at_ : Nat) : Except Stop (EntryTable E) :=
  if t.room = false then .error .fatal
  else do
    let h := t.hashes at_
    let i ← seek t.marks (fun i => t.marks i = h && t.positions i = at_) t.mask
      t.bucketCount (homeOf h t.mask)
    return if t.marks i = emptyMark then t
      else { t with marks := update t.marks i removedMark }

/-- The number of buckets of room for `n` entries, where an `int` holds the size of its block. -/
def bucketsFor (t : EntryTable E) (n : Nat) : Except Stop Nat := do
  let want ← roomTimes n 2
  let buckets ← doubled want 64 firstBuckets
  let atHashes ← aligned (← roomTimes n t.elementSize) 8
  let atBuckets ← roomPlus atHashes (← roomTimes n 8)
  let _ ← roomPlus atBuckets (← roomTimes buckets 16)
  return buckets

/-- New room for `n` entries, every byte zero. -/
def emptied (t : EntryTable E) (n buckets : Nat) : EntryTable E :=
  { elementSize := t.elementSize, seed := t.seed, count := t.count,
    room := decide (0 < n), roomSize := n, bucketCount := buckets }

/-- The turn of the loop of `rebuild` for an entry that was not removed. -/
def moveIn (t : EntryTable E) (h : UInt64) (e : Option E) :
    Except Stop (EntryTable E) := do
  let t ← ({ t with entries := update t.entries t.used e
                    hashes := update t.hashes t.used h }).place h t.used
  return { t with used := t.used + 1 }

/-- `rebuild`. -/
def rebuild (t : EntryTable E) (n : Nat) : Except Stop (EntryTable E) := do
  let buckets ← (if 0 < n then t.bucketsFor n else .ok 0)
  if t.room = false ∨ n = 0 then return t.emptied n buckets
  else
    (List.range t.used).foldlM (fun made i =>
      if t.hashes i = emptyMark then .ok made
      else made.moveIn (t.hashes i) (t.entries i)) (t.emptied n buckets)

/-- `FIRST_CAPACITY`. -/
def firstCapacity : Nat := 8

/-- `grown`. -/
def grown (have_ need : Nat) : Except Stop Nat :=
  doubled need 64 (max have_ firstCapacity)

/-- `make_room`. -/
def makeRoom (t : EntryTable E) : Except Stop (EntryTable E) :=
  if 0 < t.roomSize ∧ t.roomSize ≤ (t.used - t.count) * 4 then t.rebuild t.roomSize
  else do t.rebuild (← grown t.roomSize (t.roomSize + 1))

/-- `append`, with the position of the new entry. -/
def append (t : EntryTable E) (h : UInt64) : Except Stop (EntryTable E × Nat) := do
  let t ← (if t.used = t.roomSize then t.makeRoom else .ok t)
  if t.room = false then .error .fatal
  else do
    let made := t.used
    let t ← ({ t with hashes := update t.hashes made h }).place h made
    return (({ t with used := t.used + 1 }).resized (t.count + 1), made)

/-- Write the parts of an entry in place. -/
def write (t : EntryTable E) (at_ : Nat) (e : Option E) : EntryTable E :=
  { t with entries := update t.entries at_ e }

/-- `reserve`. -/
def reserve (t : EntryTable E) (n : Int) : Except Stop (EntryTable E) :=
  if 0 < n then do
    let need ← roomPlus t.count n.toNat
    if t.roomSize - (t.used - t.count) < need then t.rebuild need else return t
  else .ok t

/-- `shrink`. -/
def shrink (t : EntryTable E) : Except Stop (EntryTable E) :=
  if t.count < t.roomSize then t.rebuild t.count else .ok t

/-- `live_after`, from the position after. -/
def liveFrom (t : EntryTable E) (i : Nat) : Option Nat :=
  if t.room = false then none
  else (List.range' i (t.used - i)).find? fun i => t.hashes i ≠ emptyMark

/-- `check_place`. -/
def checkPlace (t : EntryTable E) (at_ : Int) : Except Stop Nat :=
  if t.room = false then .error .noElement
  else if at_ < 0 ∨ t.used ≤ at_ ∨ t.hashes at_.toNat = emptyMark then
    .error .noElement
  else .ok at_.toNat

/-- `first_place`. -/
def firstPlace (t : EntryTable E) : Option Nat := t.liveFrom 0

/-- `next_place`. -/
def nextPlace (t : EntryTable E) (at_ : Int) : Except Stop (Option Nat) := do
  let i ← t.checkPlace at_
  return t.liveFrom (i + 1)

/-- `take_place`. -/
def takePlace (t : EntryTable E) (at_ : Int) :
    Except Stop (EntryTable E × Option E × Option Nat) := do
  let i ← t.checkPlace at_
  let t ← t.forget i
  let t := { t with hashes := update t.hashes i emptyMark }
  return (t.write i none, t.entries i, t.liveFrom (i + 1))

/-- `copy`. -/
def copy (t : EntryTable E) : Except Stop (EntryTable E) := do
  let made ← ({ elementSize := t.elementSize, seed := t.seed } : EntryTable E).rebuild t.count
  if t.room = false then return made
  else
    (List.range t.used).foldlM (fun made i =>
      if t.hashes i = emptyMark then .ok made
      else do
        let (made, slot) ← made.append (t.hashes i)
        return made.write slot (t.entries i)) made

/-- The places that `first_place` and `next_place` give, from a place on. -/
def walkFrom (t : EntryTable E) : Nat → Option Nat → Except Stop (List Nat)
  | 0, _ => .error .endless
  | _ + 1, none => .ok []
  | fuel + 1, some at_ => do
      let next ← t.nextPlace at_
      let rest ← t.walkFrom fuel next
      return at_ :: rest

/-- The places of a walk.  Each lies after the one before it. -/
def walk (t : EntryTable E) : Except Stop (List Nat) := t.walkFrom (t.used + 1) t.firstPlace

end EntryTable

/-! ## Maps -/

section Map

variable {K V : Type} [BEq K] (hash : K → UInt64)

/-- `find`. -/
def mapFind (t : EntryTable (K × V)) (k : K) : Except Stop (Option Nat) :=
  t.position (marked t.seed (hash k)) fun e => e.1 == k

/-- `get`. -/
def mapGet (t : EntryTable (K × V)) (k : K) : Except Stop (Option V) := do
  let found ← mapFind hash t k
  return found.bind fun i => (t.entries i).map Prod.snd

/-- `set`, with `entry_for`: an entry that is there keeps its key. -/
def mapSet (t : EntryTable (K × V)) (k : K) (v : V) :
    Except Stop (EntryTable (K × V)) := do
  match ← mapFind hash t k with
  | some i => return t.write i ((t.entries i).map fun e => (e.1, v))
  | none =>
    let (t, i) ← t.append (marked t.seed (hash k))
    return t.write i (some (k, v))

/-- `add`. -/
def mapAdd (t : EntryTable (K × V)) (k : K) (v : V) :
    Except Stop (EntryTable (K × V) × Bool) := do
  match ← mapFind hash t k with
  | some _ => return (t, false)
  | none =>
    let (t, i) ← t.append (marked t.seed (hash k))
    return (t.write i (some (k, v)), true)

/-- `remove`. -/
def mapRemove (t : EntryTable (K × V)) (k : K) :
    Except Stop (EntryTable (K × V) × Option V) := do
  match ← mapFind hash t k with
  | none => return (t, none)
  | some i =>
    let (t, taken, _) ← t.takePlace i
    return (t.resized (t.count - 1), taken.map Prod.snd)

/-- The calls that change a map. -/
inductive MapCall (K V : Type) where
  | set (k : K) (v : V)
  | add (k : K) (v : V)
  | remove (k : K)
  | takePlace (at_ : Int)
  | reserve (n : Int)
  | shrink
  | copy

/-- What a call gives. -/
inductive MapAnswer (K V : Type) where
  | nothing
  | added (new : Bool)
  | removed (v : Option V)
  | taken (e : Option (K × V)) (after : Option Nat)

/-- A call of a map.  A `copy` goes on with the copy. -/
def mapCall (t : EntryTable (K × V)) :
    MapCall K V → Except Stop (EntryTable (K × V) × MapAnswer K V)
  | .set k v => do return (← mapSet hash t k v, .nothing)
  | .add k v => do
      let (t, new) ← mapAdd hash t k v
      return (t, .added new)
  | .remove k => do
      let (t, v) ← mapRemove hash t k
      return (t, .removed v)
  | .takePlace at_ => do
      let (t, e, after) ← t.takePlace at_
      return (t.resized (t.count - 1), .taken e after)
  | .reserve n => do return (← t.reserve n, .nothing)
  | .shrink => do return (← t.shrink, .nothing)
  | .copy => do return (← t.copy, .nothing)

/-- A call that returns. -/
def MapStep (t : EntryTable (K × V)) (call : MapCall K V × MapAnswer K V)
    (t' : EntryTable (K × V)) : Prop :=
  mapCall hash t call.1 = .ok (t', call.2)

/-! ## An association list in the order of insertion -/

/-- The value under `k`. -/
def assocGet (l : List (K × V)) (k : K) : Option V := (l.find? fun e => e.1 == k).map Prod.snd

/-- Write `v` under `k`, at the end where `k` is new. -/
def assocSet (l : List (K × V)) (k : K) (v : V) : List (K × V) :=
  if l.any fun e => e.1 == k then
    l.map fun e => if e.1 == k then (e.1, v) else e
  else l ++ [(k, v)]

/-- Take the entry of `k` out. -/
def assocErase (l : List (K × V)) (k : K) : List (K × V) := l.filter fun e => !(e.1 == k)

/-- The association list after a call, where the call gives what the list gives. -/
inductive AssocStep (l : List (K × V)) :
    MapCall K V → MapAnswer K V → List (K × V) → Prop where
  | set (k : K) (v : V) : AssocStep l (.set k v) .nothing (assocSet l k v)
  | addNew (k : K) (v : V) : assocGet l k = none →
      AssocStep l (.add k v) (.added true) (l ++ [(k, v)])
  | addOld (k : K) (v : V) : assocGet l k ≠ none → AssocStep l (.add k v) (.added false) l
  | remove (k : K) : AssocStep l (.remove k) (.removed (assocGet l k)) (assocErase l k)
  | takePlace (at_ : Int) (before after : List (K × V)) (e : K × V)
      (place : Option Nat) : l = before ++ e :: after →
      AssocStep l (.takePlace at_) (.taken (some e) place) (before ++ after)
  | reserve (n : Int) : AssocStep l (.reserve n) .nothing l
  | shrink : AssocStep l .shrink .nothing l
  | copy : AssocStep l .copy .nothing l

/-- A sequence of calls of an association list, with what they give. -/
inductive AssocRun : List (MapCall K V × MapAnswer K V) → List (K × V) → Prop where
  | start : AssocRun [] []
  | snoc {calls : List (MapCall K V × MapAnswer K V)} {l l' : List (K × V)}
      {call : MapCall K V} {answer : MapAnswer K V} :
      AssocRun calls l → AssocStep l call answer l' →
      AssocRun (calls ++ [(call, answer)]) l'

end Map

end AnticCollection
