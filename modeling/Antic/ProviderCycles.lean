import Antic.Reach
import Antic.Versions

/-! # The cycles of the providers — `whole_tables.c`

    One interface needs another where its provider, or a function it calls, names the slot of the
    other.  `check_cycles` refuses a cycle of that relation by a search by depth, and reports the
    first one it closes.

    * `work` and `stack` are arrays of a fixed length, and a write past the end of one gives `none`.
      So does a loop that outlives its fuel.
    * The flags of `seen`, `globals` and `state` are functions of the index. -/

namespace AnticCycles

open AnticIr AnticDeps

/-- `struct injectable`, with what `check_cycles` reads. -/
structure Injectable where
  interface : CName
  slot : Nat
  provider : Nat := irNoIndex
  deriving DecidableEq, Repr

/-- `a[i] = x`. -/
def store {α : Type} (a : List α) (i : Nat) (x : α) : Option (List α) :=
  if i < a.length then some (a.set i x) else none

-- ── What a provider reaches ────

/-- `struct whole_walk`, with the globals that were named. -/
structure WholeWalk where
  seen : Nat → Bool := fun _ => false
  work : List Nat
  pending : Nat := 0
  globals : Nat → Bool := fun _ => false

/-- `seen[f] = true` and `work[pending++] = f`. -/
def WholeWalk.push (w : WholeWalk) (f : Nat) : Option WholeWalk :=
  (store w.work w.pending f).map fun work =>
    { w with seen := Function.update w.seen f true, work, pending := w.pending + 1 }

/-- `reach_operand`. -/
def reachOperand (w : WholeWalk) (o : IrOperand) : Option WholeWalk :=
  if o.kind = .global then some { w with globals := Function.update w.globals o.val true }
  else if o.kind = .func ∧ w.seen o.val = false then w.push o.val
  else some w

/-- The first two operands of the instructions, in the order of the loops. -/
def firstOperands (f : IrFunction) : List IrOperand :=
  f.blocks.flatMap fun b => b.insts.flatMap fun i => [i.a, i.b]

/-- The loop of `reach_calls`. -/
def reachLoop (m : IrModule) : Nat → WholeWalk → Option WholeWalk
  | 0, w => if w.pending = 0 then some w else none
  | fuel + 1, w =>
    if w.pending = 0 then some w
    else do
      let f ← m.functions[← w.work[w.pending - 1]?]?
      reachLoop m fuel (← (firstOperands f).foldlM reachOperand { w with pending := w.pending - 1 })

/-- `reach_calls`. -/
def reachCalls (m : IrModule) (start : Nat) (w : WholeWalk) : Option WholeWalk :=
  if w.seen start then some w
  else (WholeWalk.push { w with pending := 0 } start).bind (reachLoop m m.functions.length)

/-- The row of an interface in `edges`. -/
def edgesOf (m : IrModule) (list : List Injectable) (a : Injectable) :
    Option (List Bool) :=
  if a.provider = irNoIndex then some (list.map fun _ => false)
  else (reachCalls m a.provider { work := m.functions.map fun _ => 0 }).map fun w =>
    list.map fun b => w.globals b.slot

-- ── The search ────

/-- The values 0, 1 and 2 of `state`. -/
inductive Colour where
  | white | grey | black
  deriving DecidableEq, Repr

/-- `state`, `stack` and `depth`. -/
structure Search where
  state : Nat → Colour
  stack : List Nat
  depth : Nat

/-- `stack[depth++] = i`. -/
def Search.push (s : Search) (i : Nat) : Option Search :=
  (store s.stack s.depth i).map fun stack => { s with stack, depth := s.depth + 1 }

/-- `edges[node * count + i]`. -/
def edgeAt (edges : List (List Bool)) (node i : Nat) : Bool := (edges.getD node []).getD i false

/-- The loop of `cycle_from` over `is`, with what follows it.  `visit` is the call. -/
def scan (edges : List (List Bool)) (visit : Nat → Search → Option (Bool × Search))
    (node : Nat) : List Nat → Search → Option (Bool × Search)
  | [], s =>
    some (false, { s with state := Function.update s.state node .black,
                          depth := s.depth - 1 })
  | i :: is, s =>
    if edgeAt edges node i then
      match s.state i with
      | .grey => (s.push i).map fun s => (true, s)
      | .white => do
        let (found, s) ← visit i s
        if found then some (true, s) else scan edges visit node is s
      | .black => scan edges visit node is s
    else scan edges visit node is s

/-- `cycle_from`. -/
def cycleFrom (edges : List (List Bool)) (count : Nat) : Nat → Nat → Search → Option (Bool × Search)
  | 0, _, _ => none
  | fuel + 1, node, s =>
    (Search.push { s with state := Function.update s.state node .grey } node).bind
      (scan edges (cycleFrom edges count fuel) node (List.range count))

/-- The second loop of `check_cycles` over `is`: the search that closed a cycle. -/
def firstCycle (edges : List (List Bool)) (count : Nat) : List Nat → Search → Option (Option Search)
  | [], _ => some none
  | i :: is, s =>
    if s.state i ≠ .white then firstCycle edges count is { s with depth := 0 }
    else do
      let (found, s) ← cycleFrom edges count count i s
      if found then some (some s) else firstCycle edges count is { s with depth := 0 }

-- ── The report ────

/-- The message for the interfaces `a`, `b` and `rest` in turn. -/
def cycleText (a b : CName) (rest : List CName) : Text :=
  bytesOf "the providers make a cycle: `" ++ a ++ bytesOf "` needs `" ++ b ++ bytesOf "`" ++
    rest.flatMap (fun c => bytesOf ", which needs `" ++ c ++ bytesOf "`") ++ [10]

/-- `list[i].interface`. -/
def interfaceAt (list : List Injectable) (i : Nat) : CName :=
  (list[i]?.map Injectable.interface).getD []

/-- The message of `check_cycles`, from the first place of the node on top. -/
def report (list : List Injectable) (s : Search) : Text :=
  let j := s.stack.idxOf (s.stack.getD (s.depth - 1) 0)
  cycleText (interfaceAt list (s.stack.getD j 0)) (interfaceAt list (s.stack.getD (j + 1) 0))
    (((s.stack.take s.depth).drop (j + 2)).map (interfaceAt list))

/-- `check_cycles`: `errors` as it leaves it. -/
def checkCycles (m : IrModule) (list : List Injectable) (errors : Text) : Option Text := do
  let edges ← list.mapM (edgesOf m list)
  match ← firstCycle edges list.length (List.range list.length)
      ⟨fun _ => .white, List.replicate (list.length + 1) 0, 0⟩ with
  | none => some errors
  | some s => some (errors ++ report list s)

end AnticCycles
