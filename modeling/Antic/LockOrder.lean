import Antic.GraphSearch

/-! # The order of the locks — `sema_lock.c`

    An edge leads from a lock that code holds to a lock it takes.  `find_cycles` reads
    the edges of the libraries and after them those of the module, keeps them one by
    one, and refuses one that closes a cycle with those it kept.

    * A lock is its index in the table of the walk, below `lock_count`.
    * `g->added` is zeroed before the loop; here it is a function of the index.
    * `main` is the position of `main` where the module is a program that has one. -/

namespace AnticLockOrder

open GraphSearch

/-- `struct pos`. -/
structure Pos where
  line : Int
  column : Int
  deriving DecidableEq, Repr

/-- `struct graph_edge`.  An edge of the module has no `module`. -/
structure GraphEdge (lockCount : Nat) where
  held : Fin lockCount
  taken : Fin lockCount
  pos : Pos
  module_ : Option (List UInt8)
  deriving DecidableEq, Repr

variable {lockCount : Nat}

/-- `pos_order`. -/
def posOrder (a b : Pos) : Ordering :=
  if a.line ≠ b.line then compare a.line b.line else compare a.column b.column

/-- `edge_order`. -/
def edgeOrder (a b : GraphEdge lockCount) : Ordering :=
  if a.module_.isNone ≠ b.module_.isNone then
    if a.module_.isSome then .lt else .gt
  else
    -- two edges of the module compare equal here
    ((compare (a.module_.getD []) (b.module_.getD [])).then (posOrder a.pos b.pos)).then
      ((compare a.held b.held).then (compare a.taken b.taken))

/-- An edge with its index. -/
abbrev Indexed (lockCount : Nat) : Type := GraphEdge lockCount × Nat

/-- The edges added so far. -/
def arcs (edges : List (GraphEdge lockCount)) (added : Nat → Bool) :
    List (Indexed lockCount) :=
  edges.zipIdx.filter fun e => added e.2

/-- `find_path`. -/
def findPath (edges : List (GraphEdge lockCount)) (added : Nat → Bool)
    (start goal : Fin lockCount) : List (Indexed lockCount) :=
  shortest (fun e => e.1.held) (fun e => e.1.taken) (arcs edges added) lockCount start goal

/-- What `refuse_cycle` says of `edge`: "%s is locked %s while %s is held, and %s locks
    them in the other order", or the cycle by the number of its locks. -/
inductive Refusal (lockCount : Nat) where
  | otherOrder (edge next : GraphEdge lockCount) (pos : Pos)
  | cycle (edge next : GraphEdge lockCount) (locks : Nat) (pos : Pos)
  deriving DecidableEq, Repr

/-- `refuse_cycle`, with the first edge of the path and the count of the rest. -/
def refuseCycle (edge next : GraphEdge lockCount) (rest : Nat) (pos : Pos) :
    Refusal lockCount :=
  if rest = 0 then .otherOrder edge next pos else .cycle edge next (rest + 2) pos

/-- `kept_before`. -/
def keptBefore (edges : List (GraphEdge lockCount)) (added : Nat → Bool) (e : Nat)
    (edge : GraphEdge lockCount) : Bool :=
  (edges.take e).zipIdx.any fun k => added k.2 && k.1.held == edge.held && k.1.taken == edge.taken

/-- The flags of the edges, and the refusals in order. -/
structure Cycles (lockCount : Nat) where
  added : Nat → Bool
  refused : List (Refusal lockCount)

/-- `g->added[e] = true`. -/
def Cycles.add (s : Cycles lockCount) (e : Nat) : Cycles lockCount :=
  { s with added := Function.update s.added e true }

/-- The body of the loop of `find_cycles`. -/
def readEdge (main : Option Pos) (edges : List (GraphEdge lockCount)) (s : Cycles lockCount)
    (e : Indexed lockCount) : Cycles lockCount :=
  if e.1.held = e.1.taken then s
  else if keptBefore edges s.added e.2 e.1 then s.add e.2
  else
    match findPath edges s.added e.1.taken e.1.held with
    | [] => s.add e.2
    | next :: rest =>
      match e.1.module_, main with
      | some _, none => s.add e.2
      | none, _ => { s with refused := s.refused ++ [refuseCycle e.1 next.1 rest.length e.1.pos] }
      | some _, some pos =>
        { s with refused := s.refused ++ [refuseCycle e.1 next.1 rest.length pos] }

/-- `find_cycles` after its first `k` edges. -/
def findCyclesTo (main : Option Pos) (edges : List (GraphEdge lockCount)) (k : Nat) :
    Cycles lockCount :=
  (edges.zipIdx.take k).foldl (readEdge main edges) ⟨fun _ => false, []⟩

/-- `find_cycles`. -/
def findCycles (main : Option Pos) (edges : List (GraphEdge lockCount)) : Cycles lockCount :=
  findCyclesTo main edges edges.length

end AnticLockOrder
