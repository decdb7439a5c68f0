import Antic.IrFold

/-! # The signatures of a library file — `read_signature` of `antl_read_ir.c`

    A signature record of a library file becomes a function of the program, or joins one that the
    program has.  A record here is decoded: its flags and its effects are the bytes of the file, and
    its aggregates, its symbolic values and its file are those of the program. -/

namespace AnticAntl

open AnticIr

/-- A parameter of a signature record. -/
structure ParamRecord where
  type : IrType
  ext : IrExt := .none
  agg : Nat := irNoAgg
  nonnull : Bool := false
  own : Bool := false
  deref : Nat := irNoIndex
  deriving DecidableEq, Repr, Inhabited

/-- `struct signature`, with the parameters that follow it. -/
structure Signature where
  flags : Nat
  effects : Nat
  module : Option CName
  name : CName
  result : IrType
  resultAgg : Nat := irNoAgg
  resultExt : IrExt := .none
  low : Nat := 0
  high : Nat := 0
  file : Nat := irNoIndex
  declLine : Nat := 0
  params : List ParamRecord := []
  deriving DecidableEq, Repr, Inhabited

/-- A flag of the record. -/
def Signature.flag (s : Signature) (bit : Nat) : Bool := s.flags.testBit bit

def Signature.isDeclaration (s : Signature) : Bool := s.flag 0
def Signature.variadic (s : Signature) : Bool := s.flag 1
def Signature.exported (s : Signature) : Bool := s.flag 2
def Signature.worker (s : Signature) : Bool := s.flag 3
def Signature.neverReturns (s : Signature) : Bool := s.flag 4
def Signature.writesTables (s : Signature) : Bool := s.flag 5
def Signature.allocates (s : Signature) : Bool := s.flag 6
def Signature.resultRange (s : Signature) : Bool := s.flag 7

/-- The class of memory effects in the low two bits of the byte. -/
def effectsOf (effects : Nat) : IrEffects :=
  match effects % 4 with
  | 0 => .any
  | 1 => .none
  | 2 => .readsArgs
  | _ => .writesArgs

/-- The guarantees in the other bits of the byte. -/
def guaranteesOf (effects : Nat) : Nat := effects / 4

/-- `IR_GUARANTEES`. -/
def irGuarantees : Nat := 7

/-- A type of 8 or 16 bits. -/
def isNarrow (type : IrType) : Bool := type = .i8 ∨ type = .i16

/-- The check at the end of `read_signature_head`. -/
def headOk (s : Signature) : Bool :=
  guaranteesOf s.effects ≤ irGuarantees &&
  (!s.resultRange || (isFixedInt s.result && irFoldTrim s.result s.low = s.low &&
      irFoldTrim s.result s.high = s.high && s.low ≠ s.high)) &&
  (s.resultExt = .none || isNarrow s.result) &&
  (!s.allocates || (s.module = none && s.result = .ptr)) &&
  (s.isDeclaration || s.module ≠ none) &&
  (s.module = none || !s.variadic) &&
  (s.module ≠ none || !s.exported)

/-- The check of `read_params`. -/
def paramOk (p : ParamRecord) : Bool :=
  p.type ≠ .void && (decide (p.ext ≠ .none) == isNarrow p.type) &&
  ((!p.nonnull && !p.own) || p.type = .ptr) &&
  (p.deref = irNoIndex || p.nonnull)

/-- `find_function` from index `i` on: the last function of this module and name. -/
def findFrom (module : Option CName) (name : CName) :
    List IrFunction → Nat → Option Nat → Option Nat
  | [], _, found => found
  | g :: gs, i, found =>
    findFrom module name gs (i + 1) (if g.module = module ∧ g.name = name then some i else found)

/-- `find_function`. -/
def findFunction (program : IrModule) (module : Option CName) (name : CName) : Option Nat :=
  findFrom module name program.functions 0 none

/-- `merge_effects`. -/
def mergeEffects (f : IrFunction) (effects : Nat) : IrFunction :=
  if f.effects ≠ effectsOf effects then
    { f with effects := .any, guarantees := 0 }
  else { f with guarantees := f.guarantees &&& guaranteesOf effects }

/-- `merge_declaration`. -/
def mergeDeclaration (f : IrFunction) (s : Signature) : IrFunction :=
  mergeEffects { f with
      neverReturns := f.neverReturns && s.neverReturns,
      allocates := f.allocates && s.allocates,
      resultExt := if f.resultExt ≠ s.resultExt then .none else f.resultExt,
      resultRange := if f.resultRange = false ∨ s.resultRange = false ∨
          f.resultLow ≠ s.low ∨ f.resultHigh ≠ s.high then false
        else f.resultRange,
      writesTables := f.writesTables || s.writesTables } s.effects

/-- `ir_is_copy_name`. -/
def irIsCopyName (name : CName) : Bool := name.contains 60

/-- `ir_param_add` with the fields `read_params` sets after it. -/
def addParam (f : IrFunction) (p : ParamRecord) : IrFunction :=
  let param : IrParam :=
    { type := p.type, ext := p.ext, agg := p.agg,
      temp := if f.isExtern then irNoResult else f.temps.length,
      nonnull := p.nonnull, own := p.own, derefSize := p.deref }
  { f with params := f.params ++ [param], temps := if f.isExtern then f.temps
             else f.temps ++ [if p.type = .agg then .ptr else p.type] }

/-- `new_function`: a definition, a C function or a declaration.  `unit` is the
    module of the library file. -/
def newFunction (unit : CName) (s : Signature) : IrFunction :=
  { file := s.file, declLine := s.declLine, module := s.module, name := s.name,
    unit := if s.isDeclaration = false ∧ s.module ≠ none ∧
        s.module ≠ some unit then some unit else none,
    result := s.result, resultAgg := s.resultAgg,
    resultExt := s.resultExt, allocates := s.allocates,
    resultRange := s.resultRange, resultLow := s.low, resultHigh := s.high,
    isExtern := s.isDeclaration,
    variadic := s.isDeclaration && s.module = none && s.variadic,
    exported := s.exported, worker := s.worker,
    neverReturns := s.neverReturns, effects := effectsOf s.effects,
    guarantees := guaranteesOf s.effects, writesTables := s.writesTables }

/-- `read_params` over the parameters of the new function. -/
def readParams (f : IrFunction) (params : List ParamRecord) : Option IrFunction :=
  if params.all paramOk then some (params.foldl addParam f) else none

/-- A signature as C passes it: the result with its aggregate, the variadic
    mark and the type and the aggregate of each parameter. -/
structure CSignature where
  result : IrType
  resultAgg : Nat
  variadic : Bool
  params : List (IrType × Nat)
  deriving DecidableEq, Repr

/-- The signature of a function of the program. -/
def functionSignature (f : IrFunction) : CSignature :=
  ⟨f.result, f.resultAgg, f.variadic, f.params.map fun p => (p.type, p.agg)⟩

/-- The signature of a record. -/
def Signature.ofC (s : Signature) : CSignature :=
  ⟨s.result, s.resultAgg, s.variadic, s.params.map fun p => (p.type, p.agg)⟩

/-- `same_signature`, which a function of a module always has. -/
def sameSignature (f : IrFunction) (s : Signature) : Bool :=
  s.module ≠ none || functionSignature f = s.ofC

/-- What `read_signature` says of the body that follows. -/
structure SignatureRead where
  index : Nat
  hasBody : Bool
  skip : Bool
  deriving DecidableEq, Repr

/-- A definition of a copy of a generic, which more than one library file may hold. -/
def Signature.isCopy (s : Signature) : Bool :=
  !s.isDeclaration && s.module ≠ none && irIsCopyName s.name

/-- A copy fills a function that the program so far only declares. -/
def Signature.fills (s : Signature) (f : IrFunction) : Bool := s.isCopy && f.isExtern

/-- The function of the program that the record joins. -/
def Signature.filled (s : Signature) (f : IrFunction) : IrFunction :=
  if s.fills f then { f with isExtern := false } else f

/-- `read_signature` of a record that was read without damage.  `none` is a file that is refused. -/
def readSignature (unit : CName) (program : IrModule) (s : Signature) :
    Option (IrModule × SignatureRead) :=
  if headOk s = false then none
  else
    match findFunction program s.module s.name with
    | none =>
      (readParams (newFunction unit s) s.params).map fun f =>
        ({ program with functions := program.functions ++ [f] },
          { index := program.functions.length, hasBody := !s.isDeclaration, skip := false })
    | some i =>
      match program.functions[i]? with
      | none => none
      | some f =>
        let merged := mergeDeclaration (s.filled f) s
        if s.isDeclaration = false ∧ s.isCopy = false then none
        else if sameSignature merged s = false then none
        else
          some ({ program with
              functions := program.functions.set i merged },
            { index := i, hasBody := s.fills f, skip := s.isCopy && !s.fills f })

/-- The signatures of the library files, each with the module of its file, in
    the order in which they are read. -/
def readSignatures (program : IrModule) : List (CName × Signature) → Option IrModule
  | [] => some program
  | (unit, s) :: rest =>
    match readSignature unit program s with
    | none => none
    | some (program, _) => readSignatures program rest

end AnticAntl
