import Mathlib.Data.List.Basic

/-! # The stable sort — `collection.anti`

    `sort_stable` sorts runs by insertion and merges them in place.  A slice is a list, and
    an index into it a number that may be outside; a function gives nothing where it uses
    such an index, or where a loop runs out of fuel.  The numbers do not overflow: three
    times the length of a slice that fits in memory is a number of the code's `int`. -/

namespace AnticStableSort

variable {α : Type}

/-- `s[i]`. -/
def place (s : List α) (i : Int) : Option α :=
  if i < 0 then none else s[i.toNat]?

/-- `swap`: the bytes of two elements change places. -/
def swap (s : List α) (i j : Int) : Option (List α) := do
  let x ← place s i
  let y ← place s j
  return (s.set i.toNat y).set j.toNat x

/-- `less(&s[i], &s[j])`. -/
def lessAt (less : α → α → Bool) (s : List α) (i j : Int) : Option Bool := do
  let x ← place s i
  let y ← place s j
  return less x y

/-- `RUN`. -/
def RUN : Int := 20

/-! ## Insertion -/

/-- The inner loop of `insertion`. -/
def insertionBack (less : α → α → Bool) (a : Int) : Nat → List α → (j : Int) → Option (List α)
  | 0, _, _ => none
  | fuel + 1, s, j =>
    if j > a then do
      if ← lessAt less s j (j - 1) then
        insertionBack less a fuel (← swap s j (j - 1)) (j - 1)
      else return s
    else return s

/-- The loop of `insertion`. -/
def insertionFrom (less : α → α → Bool) (a b : Int) : Nat → List α → (i : Int) → Option (List α)
  | 0, _, _ => none
  | fuel + 1, s, i =>
    if i < b then do
      insertionFrom less a b fuel (← insertionBack less a (s.length + 1) s i) (i + 1)
    else return s

/-- `insertion`. -/
def insertion (less : α → α → Bool) (s : List α) (a b : Int) : Option (List α) :=
  insertionFrom less a b (s.length + 1) s (a + 1)

/-! ## Rotation -/

/-- The loop of `swap_run`. -/
def swapRunFrom (a b n : Int) : Nat → List α → (i : Int) → Option (List α)
  | 0, _, _ => none
  | fuel + 1, s, i =>
    if i < n then do swapRunFrom a b n fuel (← swap s (a + i) (b + i)) (i + 1)
    else return s

/-- `swap_run`. -/
def swapRun (s : List α) (a b n : Int) : Option (List α) := swapRunFrom a b n (s.length + 1) s 0

/-- The loop of `rotate`, and the swap behind it. -/
def rotateFrom (m : Int) : Nat → List α → (i j : Int) → Option (List α)
  | 0, _, _, _ => none
  | fuel + 1, s, i, j =>
    if i ≠ j then
      if i > j then do rotateFrom m fuel (← swapRun s (m - i) m j) (i - j) j
      else do rotateFrom m fuel (← swapRun s (m - i) (m + j - i) i) i (j - i)
    else swapRun s (m - i) m i

/-- `rotate`. -/
def rotate (s : List α) (a m b : Int) : Option (List α) :=
  rotateFrom m (s.length + 1) s (m - a) (b - m)

/-! ## The merge -/

/-- A binary search from `i` up to `j`: `up` says that the place is behind `h`. -/
def search (up : Int → Option Bool) : Nat → (i j : Int) → Option Int
  | 0, _, _ => none
  | fuel + 1, i, j =>
    if i < j then do
      let h := (i + j) / 2
      if ← up h then search up fuel (h + 1) j else search up fuel i h
    else return i

/-- `while k < last { swap(s, k, k + 1); k += 1; }`. -/
def moveUp (last : Int) : Nat → List α → (k : Int) → Option (List α)
  | 0, _, _ => none
  | fuel + 1, s, k =>
    if k < last then do moveUp last fuel (← swap s k (k + 1)) (k + 1) else return s

/-- `while k > i { swap(s, k, k - 1); k -= 1; }`. -/
def moveDown (i : Int) : Nat → List α → (k : Int) → Option (List α)
  | 0, _, _ => none
  | fuel + 1, s, k =>
    if k > i then do moveDown i fuel (← swap s k (k - 1)) (k - 1) else return s

/-- `merge`. -/
def merge (less : α → α → Bool) : Nat → List α → (a m b : Int) → Option (List α)
  | 0, _, _, _, _ => none
  | fuel + 1, s, a, m, b =>
    if m - a = 1 then do
      let i ← search (fun h => lessAt less s h a) (s.length + 1) m b
      moveUp (i - 1) (s.length + 1) s a
    else if b - m = 1 then do
      let i ← search (fun h => (lessAt less s m h).map not) (s.length + 1) a m
      moveDown i (s.length + 1) s m
    else do
      let mid := (a + b) / 2
      let n := mid + m
      let (start, r) := if m > mid then (n - b, mid) else (a, m)
      let p := n - 1
      let start ← search (fun c => (lessAt less s (p - c) c).map not) (s.length + 1) start r
      let last := n - start
      let s ← if start < m ∧ m < last then rotate s start m last else some s
      let s ← if a < start ∧ start < mid then merge less fuel s a start mid else some s
      if mid < last ∧ last < b then merge less fuel s mid last b else some s

/-! ## The sort -/

/-- The runs that are sorted by insertion, and where the last one starts. -/
def insertRuns (less : α → α → Bool) (n : Int) : Nat → List α → (a : Int) → Option (List α × Int)
  | 0, _, _ => none
  | fuel + 1, s, a =>
    if a + RUN ≤ n then do insertRuns less n fuel (← insertion less s a (a + RUN)) (a + RUN)
    else return (s, a)

/-- The merges of two whole runs, and where they end. -/
def mergeRuns (less : α → α → Bool) (n run : Int) : Nat → List α → (a : Int) → Option (List α × Int)
  | 0, _, _ => none
  | fuel + 1, s, a =>
    if a + 2 * run ≤ n then do
      mergeRuns less n run fuel (← merge less (s.length + 1) s a (a + run) (a + 2 * run))
        (a + 2 * run)
    else return (s, a)

/-- The passes over the runs, which double in length. -/
def passes (less : α → α → Bool) (n : Int) : Nat → List α → (run : Int) → Option (List α)
  | 0, _, _ => none
  | fuel + 1, s, run =>
    if run < n then do
      let (s, a) ← mergeRuns less n run (s.length + 1) s 0
      let s ← if a + run < n then merge less (s.length + 1) s a (a + run) n else some s
      passes less n fuel s (run * 2)
    else return s

/-- `sort_stable`. -/
def sortStable (less : α → α → Bool) (s : List α) : Option (List α) := do
  let n : Int := s.length
  let (s, a) ← insertRuns less n (s.length + 1) s 0
  let s ← insertion less s a n
  passes less n (s.length + 1) s RUN

end AnticStableSort
