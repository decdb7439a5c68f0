import Antic.WholeClasses

/-! # What a program reaches, and the removal of the rest

    `ir_reach` walks from the entries over operands, constants, relocations and the definition of
    each declared datum.  `remove_unused_functions` keeps what the walk marks, moves it to the front
    of its list and rewrites every index.

    * The work list holds functions, then globals plus the count of functions.
    * `m->hosts` is a parameter, as the module of the other passes has no use for it.
    * The walk runs on fuel for every function and global once, and the proofs show that it is
      enough. -/

namespace AnticReach

open AnticIr AnticWhole FiniteWalk

/-! ## The entries -/

/-- The bytes of `main`. -/
def mainName : CName := [109, 97, 105, 110]

/-- `IR_PATTERNS_START`: the bytes of `patterns.start`. -/
def patternsStart : CName := [112, 97, 116, 116, 101, 114, 110, 115, 46, 115, 116, 97, 114, 116]

/-- `ir_in_unit`. -/
def irInUnit (module unit : Option CName) (entry : CName) : Bool :=
  match unit with
  | some u => u = entry
  | none => module = some entry

/-- `ir_is_main_of`. -/
def irIsMainOf (f : IrFunction) (module : CName) : Bool :=
  !f.isExtern && f.module.isSome && irInUnit f.module f.unit module && f.name = mainName

/-- `ir_is_patterns_start`. -/
def irIsPatternsStart (f : IrFunction) : Bool :=
  !f.isExtern && f.module.isSome && f.name = patternsStart

/-- The first loop of `ir_reach`. -/
def hasMain (m : IrModule) (entry : Option CName) (all : Bool) : Bool :=
  match entry with
  | none => false
  | some e => !all && m.functions.any fun f => irIsMainOf f e

/-- The condition of `ir_reach` on a function. -/
def entryFunction (hosts : Bool) (entry : Option CName) (main : Bool) (f : IrFunction) : Bool :=
  !f.isExtern &&
    match entry with
    | none => true
    | some e => hosts || f.exported || irIsPatternsStart f ||
        (irInUnit f.module f.unit e && (!main || irIsMainOf f e))

/-- The condition of `ir_reach` on a global. -/
def entryGlobal (hosts : Bool) (entry : Option CName) (all : Bool) (g : IrGlobal) : Bool :=
  g.exported || (hosts && !g.isExtern && !g.dropped) ||
    match entry with
    | none => false
    | some e => all && !g.isExtern && !g.dropped && g.module.isSome &&
        irInUnit g.module g.unit e

/-! ## The definitions of the declared data -/

/-- The table of `definitions_of` as a function, empty past the end. -/
def place (table : List (Option Nat)) (i : Nat) : Option Nat := table.getD i none

/-- The number of places for `n` globals. -/
def capacity (n : Nat) : Nat := doubleUpTo (2 * n + 2) (2 * n + 2) 1

/-- Enter global `i` where it is a definition, at the first empty place. -/
def enterDefinition (table : List (Option Nat)) (gi : IrGlobal × Nat) :
    List (Option Nat) :=
  if gi.1.isExtern || gi.1.module = none then table
  else
    table.set (probe (place table) (fun _ => false) table.length table.length
        (home table.length gi.1.module gi.1.name)) (some gi.2)

/-- The table of `definitions_of` after its first loop. -/
def definitionTable (m : IrModule) : List (Option Nat) :=
  m.globals.zipIdx.foldl enterDefinition (List.replicate (capacity m.globals.length) none)

/-- The name test of the second loop of `definitions_of`. -/
def names (m : IrModule) (g : IrGlobal) (d : Nat) : Bool :=
  match m.globals[d]? with
  | none => false
  | some def' => def'.module = g.module && def'.name = g.name

/-- The body of the second loop of `definitions_of`. -/
def definitionIn (m : IrModule) (table : List (Option Nat)) (g : IrGlobal) :
    Option Nat :=
  if !g.isExtern || g.module = none then none
  else
    place table (probe (place table) (names m g) table.length table.length
        (home table.length g.module g.name))

/-- `definitions_of`. -/
def definitionsOf (m : IrModule) : List (Option Nat) :=
  m.globals.map (definitionIn m (definitionTable m))

/-! ## The walk -/

/-- `struct walk`, with the flags of `struct ir_reach`. -/
structure Walk where
  functions : Nat → Bool := fun _ => false
  globals : Nat → Bool := fun _ => false
  work : List Nat := []

/-- `reach_function`. -/
def reachFunction (w : Walk) (f : Nat) : Walk :=
  if w.functions f then w
  else { w with functions := Function.update w.functions f true,
                work := f :: w.work }

/-- `reach_global`, in a module of `n` functions. -/
def reachGlobal (n : Nat) (w : Walk) (g : Nat) : Walk :=
  if w.globals g then w
  else { w with globals := Function.update w.globals g true,
                work := (n + g) :: w.work }

mutual

/-- `reach_const`. -/
def reachConst (n : Nat) : IrConst → Walk → Walk
  | .mk kind _ _ val items, w =>
    match kind with
    | .addr => reachGlobal n w val
    | .func => reachFunction w val
    | .agg => reachConsts n items w
    | _ => w

def reachConsts (n : Nat) : List IrConst → Walk → Walk
  | [], w => w
  | c :: cs, w => reachConsts n cs (reachConst n c w)

end

/-- `reach_operand`. -/
def reachOperand (n : Nat) (w : Walk) (o : IrOperand) : Walk :=
  if o.kind = .func then reachFunction w o.val
  else if o.kind = .global then reachGlobal n w o.val
  else w

/-- The operands of an instruction, in the order of `operand`. -/
def operandsOf (i : IrInst) : List IrOperand := i.a :: i.b :: i.c :: i.args

/-- `walk_function`. -/
def walkFunction (n : Nat) (w : Walk) (f : IrFunction) : Walk :=
  f.blocks.foldl (fun w b => b.insts.foldl (fun w i => (operandsOf i).foldl (reachOperand n) w) w) w

/-- The body of the loop of `walk_global` over the relocations. -/
def reachReloc (n : Nat) (w : Walk) (r : IrReloc) : Walk :=
  if r.fn then reachFunction w r.global else reachGlobal n w r.global

/-- `walk_global`. -/
def walkGlobal (n : Nat) (defined : List (Option Nat)) (w : Walk) (index : Nat)
    (g : IrGlobal) : Walk :=
  let w := match g.value with
    | none => w
    | some c => reachConst n c w
  let w := g.relocs.foldl (reachReloc n) w
  match defined.getD index none with
  | none => w
  | some d => reachGlobal n w d

/-- The body of the loop of `ir_reach` over the work list. -/
def visit (m : IrModule) (defined : List (Option Nat)) (item : Nat) (w : Walk) :
    Walk :=
  if item < m.functions.length then
    match m.functions[item]? with
    | none => w
    | some f => walkFunction m.functions.length w f
  else
    match m.globals[item - m.functions.length]? with
    | none => w
    | some g => walkGlobal m.functions.length defined w (item - m.functions.length) g

/-- The loop of `ir_reach` over the work list.  `none` is a walk that does not
    end within the fuel. -/
def walkAll (m : IrModule) (defined : List (Option Nat)) : Nat → Walk → Option Walk
  | fuel, w =>
    match w.work with
    | [] => some w
    | item :: rest =>
      match fuel with
      | 0 => none
      | fuel + 1 => walkAll m defined fuel (visit m defined item { w with work := rest })

/-- The two loops of `ir_reach` that mark the entries. -/
def startWalk (m : IrModule) (hosts : Bool) (entry : Option CName) (all : Bool) :
    Walk :=
  let main := hasMain m entry all
  let w := m.functions.zipIdx.foldl (fun w fi =>
    if entryFunction hosts entry main fi.1 then reachFunction w fi.2 else w) {}
  m.globals.zipIdx.foldl (fun w gi =>
    if entryGlobal hosts entry all gi.1 then
      reachGlobal m.functions.length w gi.2
    else w) w

/-- `ir_reach`. -/
def irReach (m : IrModule) (hosts : Bool) (entry : Option CName) (all : Bool) :
    Option Walk :=
  walkAll m (definitionsOf m) (m.functions.length + m.globals.length) (startWalk m hosts entry all)

/-! ## The removal -/

/-- The loop that moves what is live to the front, from place `i` on with `n`
    kept so far: the list that remains and the map of the places. -/
def compactFrom {α : Type} (live : Nat → Bool) : Nat → Nat → List α → List α × List Nat
  | _, _, [] => ([], [])
  | i, n, x :: xs =>
    if live i then
      let (kept, map) := compactFrom live (i + 1) (n + 1) xs
      (x :: kept, n :: map)
    else
      let (kept, map) := compactFrom live (i + 1) n xs
      (kept, 0 :: map)

mutual

/-- `remap_const`. -/
def remapConst (globals functions : List Nat) : IrConst → IrConst
  | .mk kind type scalar val items =>
    match kind with
    | .addr => .mk kind type scalar (globals.getD val 0) items
    | .func => .mk kind type scalar (functions.getD val 0) items
    | .agg => .mk kind type scalar val (remapConsts globals functions items)
    | _ => .mk kind type scalar val items

def remapConsts (globals functions : List Nat) : List IrConst → List IrConst
  | [] => []
  | c :: cs => remapConst globals functions c :: remapConsts globals functions cs

end

/-- The body of the loop of `remap_operands`. -/
def remapOperand (functions globals : List Nat) (o : IrOperand) : IrOperand :=
  if o.kind = .func then { o with val := functions.getD o.val 0 }
  else if o.kind = .global then { o with val := globals.getD o.val 0 }
  else o

def remapInst (functions globals : List Nat) (i : IrInst) : IrInst :=
  { i with a := remapOperand functions globals i.a,
           b := remapOperand functions globals i.b,
           c := remapOperand functions globals i.c,
           args := i.args.map (remapOperand functions globals) }

def remapBlock (functions globals : List Nat) (b : IrBlock) : IrBlock :=
  { b with insts := b.insts.map (remapInst functions globals) }

/-- `remap_operands`. -/
def remapOperands (functions globals : List Nat) (f : IrFunction) : IrFunction :=
  { f with blocks := f.blocks.map (remapBlock functions globals) }

/-- The body of the loop of `remove_unused_functions` over the relocations. -/
def remapReloc (functions globals : List Nat) (r : IrReloc) : IrReloc :=
  { r with global := if r.fn then functions.getD r.global 0
                     else globals.getD r.global 0 }

/-- The body of the loop of `remove_unused_functions` over the globals that remain. -/
def remapGlobal (functions globals : List Nat) (g : IrGlobal) : IrGlobal :=
  { g with relocs := g.relocs.map (remapReloc functions globals),
           value := g.value.map (remapConst globals functions) }

/-- `remove_unused_functions`. -/
def removeUnusedFunctions (m : IrModule) (hosts : Bool) (entry : Option CName)
    (all : Bool) : Option IrModule :=
  (irReach m hosts entry all).map fun live =>
    let (functions, map) := compactFrom live.functions 0 0 m.functions
    let (globals, globalMap) := compactFrom live.globals 0 0 m.globals
    { m with classes := [],
             functions := functions.map (remapOperands map globalMap),
             globals := globals.map (remapGlobal map globalMap) }

end AnticReach
