import Antic.Layout

/-! # The C convention of a function — `abi.c`

    `abi_classify` says for each parameter and for the result which LLVM types its signature names:
    the scalar itself, the words an aggregate is coerced to, a vector, or a pointer.  The layouts of
    the module give the size, the alignment and the members of each aggregate. -/

namespace AnticAbi

open AnticIr AnticLayout

/-- `enum abi_kind`. -/
inductive AbiKind where
  | direct | coerce | byval | indirect | sret | vector
  deriving DecidableEq, Repr, Inhabited

/-- The LLVM types of a scalar. -/
inductive ScalarName where
  | void | i8 | i16 | i32 | i64 | i128 | float | double | ptr
  deriving DecidableEq, Repr, Inhabited

/-- The LLVM types a signature names: `<n x T>` and `[n x T]` besides the scalars. -/
inductive LlvmType where
  | scalar (name : ScalarName)
  | vector (count : Nat) (lane : ScalarName)
  | array (count : Nat) (element : ScalarName)
  deriving DecidableEq, Repr, Inhabited

/-- `struct abi_param`.  A type beyond `wordCount` is not a word. -/
structure AbiParam where
  kind : AbiKind := .direct
  types : List LlvmType := []
  wordCount : Nat := 0
  size : Nat := 0
  align : Nat := 0
  signExtend : Bool := false
  deriving DecidableEq, Repr, Inhabited

/-- `SYSV_INT_ARGS`. -/
def sysvIntArgs : Nat := 6

/-- `SYSV_FP_ARGS`. -/
def sysvFpArgs : Nat := 8

/-- `scalar_name`. -/
def scalarName (type : IrType) (bytes : Nat) : ScalarName :=
  if type = .f32 then .float
  else if type = .f64 then .double
  else if type = .ptr then .ptr
  else if bytes = 1 then .i8
  else if bytes = 2 then .i16
  else if bytes = 4 then .i32
  else .i64

/-- `is_float`. -/
def isFloat (type : IrType) : Bool := type = .f32 ∨ type = .f64

/-- `scalar`. -/
def scalar (l : Layouts) (type : IrType) (ext : IrExt) : AbiParam :=
  let bytes := sizeOf l (irScalar type)
  { kind := .direct, size := bytes, align := alignOf l (irScalar type),
    signExtend := ext = .sign, wordCount := 1,
    types := [.scalar (scalarName type bytes)] }

/-- `pointer`. -/
def pointer (kind : AbiKind) (agg : Layout) : AbiParam :=
  { kind := kind, wordCount := 1, types := [.scalar .ptr], size := agg.size,
    align := agg.align }

/-- `vector`: the lanes of a simd struct of 16 bytes. -/
def vector (l : Layouts) (agg : Layout) : AbiParam :=
  let lane := (agg.members.getD 0 default).type
  let bytes := sizeOf l (irScalar lane)
  { kind := .vector, wordCount := 1,
    types := [.vector (agg.size / bytes) (scalarName lane bytes)],
    size := agg.size, align := agg.align }

/-- `coerce`. -/
def coerce (agg : Layout) : AbiParam :=
  { kind := .coerce, size := agg.size, align := agg.align }

/-- `set_word` at the next word. -/
def AbiParam.push (p : AbiParam) (type : LlvmType) : AbiParam :=
  { p with types := p.types ++ [type], wordCount := p.wordCount + 1 }

/-! ## System V -/

/-- The body of the loop of `sysv_words` over the members: the type of eightbyte
    `k`, and whether it is of class INTEGER.  One without a member takes no word. -/
def sysvWord (members : List LayoutMember) (k : Nat) : Option (LlvmType × Bool) :=
  let held := members.filter fun m => m.offset / 8 = k
  let integer := held.any fun m => !isFloat m.type
  let f64 := held.any fun m => m.type = .f64
  let f32 := held.countP fun m => m.type = .f32
  if held.isEmpty then none
  else
    some (if integer then .scalar .i64
      else if f64 then .scalar .double
      else if f32 > 1 then .vector 2 .float
      else .scalar .float, integer)

/-- The variables of the loop of `sysv_words` over the eightbytes. -/
structure Words where
  out : AbiParam
  ints : Nat := 0
  floats : Nat := 0
  deriving DecidableEq, Repr

/-- One turn of that loop. -/
def Words.next (members : List LayoutMember) (w : Words) (k : Nat) : Words :=
  match sysvWord members k with
  | none => w
  | some (type, integer) =>
    { out := w.out.push type, ints := w.ints + integer.toNat,
      floats := w.floats + (!integer).toNat }

/-- `sysv_words`.  `none` is an aggregate of class MEMORY. -/
def sysvWords (agg : Layout) : Option Words :=
  if agg.size > 16 ∨ agg.size = 0 ∨ agg.unaligned then none
  else
    some ((List.range ((agg.size + 7) / 8)).foldl (Words.next agg.members)
      { out := coerce agg })

/-- The counters of `sysv`. -/
structure Registers where
  ints : Nat := 0
  floats : Nat := 0
  deriving DecidableEq, Repr

/-- The turn of `sysv` for one parameter. -/
def sysvParam (l : Layouts) (r : Registers) (p : IrParam) : AbiParam × Registers :=
  if p.type ≠ .agg then
    (scalar l p.type p.ext,
      { ints := r.ints + (!isFloat p.type).toNat,
        floats := r.floats + (isFloat p.type).toNat })
  else
    let agg := l.aggs p.agg
    if agg.vector then (vector l agg, { r with floats := r.floats + 1 })
    else
      match sysvWords agg with
      | none => (pointer .byval agg, r)
      | some w =>
        if (w.ints = 0 ∨ r.ints + w.ints ≤ sysvIntArgs) ∧
            (w.floats = 0 ∨ r.floats + w.floats ≤ sysvFpArgs) then
          (w.out, { ints := r.ints + w.ints, floats := r.floats + w.floats })
        else (pointer .byval agg, r)

/-- The loop of `sysv` over the parameters. -/
def sysvParams (l : Layouts) : Registers → List IrParam → List AbiParam
  | _, [] => []
  | r, p :: ps =>
    let (out, r) := sysvParam l r p
    out :: sysvParams l r ps

/-- The result of `sysv`: a hidden pointer takes the first integer register. -/
def sysvResult (l : Layouts) (f : IrFunction) (result : AbiParam) :
    AbiParam × Registers :=
  if f.result = .agg then
    let agg := l.aggs f.resultAgg
    if agg.vector then (vector l agg, {})
    else
      match sysvWords agg with
      | none => (pointer .sret agg, { ints := 1 })
      | some w => (w.out, {})
  else (result, {})

/-! ## The other conventions -/

/-- `hfa_members`: the members of a homogeneous float aggregate, or 0. -/
def hfaMembers (agg : Layout) : Nat :=
  match agg.members with
  | [] => 0
  | first :: rest =>
    if agg.members.length > 4 ∨ isFloat first.type = false then 0
    else if rest.any fun m => m.type ≠ first.type then 0
    else agg.members.length

/-- `aapcs64_aggregate`. -/
def aapcs64Aggregate (l : Layouts) (agg : Layout) (hfa : Bool) (larger : AbiKind) :
    AbiParam :=
  let members := if hfa then hfaMembers agg else 0
  if agg.vector ∧ hfa then vector l agg
  else if members > 0 then
    (coerce agg).push (.array members
      (if (agg.members.getD 0 default).type = .f32 then .float else .double))
  else if agg.size > 16 then pointer larger agg
  else if agg.align = 16 then (coerce agg).push (.scalar .i128)
  else (coerce agg).push (.array ((agg.size + 7) / 8) .i64)

/-- `windows_x64_aggregate`. -/
def windowsX64Aggregate (l : Layouts) (agg : Layout) (isResult : Bool)
    (other : AbiKind) : AbiParam :=
  if agg.vector ∧ isResult then vector l agg
  else if agg.size = 1 then (coerce agg).push (.scalar .i8)
  else if agg.size = 2 then (coerce agg).push (.scalar .i16)
  else if agg.size = 4 then (coerce agg).push (.scalar .i32)
  else if agg.size = 8 then (coerce agg).push (.scalar .i64)
  else pointer other agg

/-- A parameter of a convention that classifies each one alone. -/
def eachParam (l : Layouts) (aggregate : Layout → AbiParam) (p : IrParam) : AbiParam :=
  if p.type = .agg then aggregate (l.aggs p.agg) else scalar l p.type p.ext

/-! ## The classification -/

/-- `enum convention`. -/
inductive Convention where
  | sysv | windowsX64 | aapcs64 | appleArm64 | windowsArm64
  deriving DecidableEq, Repr

/-- The `convention` of `target_info`. -/
def conventionOf : Target → Convention
  | .linuxX8664 | .macosX8664 => .sysv
  | .windowsX8664 => .windowsX64
  | .linuxArm64 => .aapcs64
  | .macosArm64 => .appleArm64
  | .windowsArm64 => .windowsArm64

/-- `abi_classify`: the parameters and the result. -/
def abiClassify (t : Target) (l : Layouts) (f : IrFunction) :
    List AbiParam × AbiParam :=
  let result : AbiParam :=
    if f.result = .void then { types := [.scalar .void] }
    else if f.result ≠ .agg then scalar l f.result .none
    else {}
  match conventionOf t with
  | .sysv =>
    let (result, r) := sysvResult l f result
    (sysvParams l r f.params, result)
  | .windowsX64 =>
    (f.params.map (eachParam l fun agg => windowsX64Aggregate l agg false .indirect),
      if f.result = .agg then windowsX64Aggregate l (l.aggs f.resultAgg) true .sret
      else result)
  | .aapcs64 | .appleArm64 | .windowsArm64 =>
    let hfa := !(f.variadic && t.os = .windows)
    (f.params.map (eachParam l fun agg => aapcs64Aggregate l agg hfa .indirect),
      if f.result = .agg then aapcs64Aggregate l (l.aggs f.resultAgg) true .sret
      else result)

end AnticAbi
