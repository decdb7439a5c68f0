import Antic.IrFold
import Antic.Target

/-! # The layout of the aggregates for one target — `layout.c`

    `compute` lays out an aggregate by the rules of C, `layout_fold` folds a symbolic value, and the
    two call each other: an array length may be computed from the size of a type.  The recursion
    runs on fuel, in open form: `step` is the code of both with their recursive calls as a
    parameter, and `eval` ties the knot.

    * A size in bytes or bits is a 64-bit number.  The sums and products that the source guards
      saturate and set `overflow`; the ones it leaves unguarded wrap.
    * `wrapped` is a ghost: it records that an unguarded sum left 64 bits.  The source has no such
      flag, and the proofs show that it stays down. -/

namespace AnticLayout

open AnticIr Function

/-- `struct layout_member`. -/
structure LayoutMember where
  offset : Nat
  type : IrType
  deriving DecidableEq, Repr, Inhabited

/-- `struct layout_bits`. -/
structure LayoutBits where
  pos : Nat := 0
  unitOffset : Nat := 0
  unitType : IrType := .void
  shift : Nat := 0
  deriving DecidableEq, Repr, Inhabited

/-- `struct layout`. -/
structure Layout where
  size : Nat := 0
  align : Nat := 0
  offsets : List Nat := []
  bits : List LayoutBits := []
  members : List LayoutMember := []
  unaligned : Bool := false
  shared : Bool := false
  vector : Bool := false
  /-- Ghost: an unguarded 64-bit sum wrapped. -/
  wrapped : Bool := false
  deriving DecidableEq, Repr, Inhabited

/-- `LAYOUT_MEMBER_LIMIT`. -/
def layoutMemberLimit : Nat := 32

inductive Seen where
  | unseen | busy | done
  deriving DecidableEq, Repr, Inhabited

/-- The messages of `fail`, with what each names. -/
inductive LayoutError where
  | bitfieldSpans (field : Option CName) (agg : CName)
  | bitfieldRead (field : Option CName) (agg : CName) (bytes size : Nat)
  | dependsOnItself (agg : CName)
  | arrayLength (text : Option CName) (length : Int)
  | alignBelow (agg : CName) (given align : Nat)
  | sizeInBits (agg : CName)
  | dividesByZero
  | dividesLeast
  | shiftsOutOfRange (bits : Nat)
  | doesNotFold (op : IrOp)
  deriving DecidableEq, Repr

/-- `struct layouts`: the tables, by index. -/
structure Layouts where
  target : Target
  m : IrModule
  aggs : Nat → Layout := fun _ => {}
  aggState : Nat → Seen := fun _ => .unseen
  values : Nat → Nat := fun _ => 0
  symState : Nat → Seen := fun _ => .unseen
  error : Option LayoutError := none

/-- `l->failed`. -/
def Layouts.failed (l : Layouts) : Bool := l.error.isSome

/-- `fail`: the first message stays. -/
def Layouts.fail (l : Layouts) (e : LayoutError) : Layouts :=
  match l.error with
  | none => { l with error := some e }
  | some _ => l

/-- A failure where a check found one. -/
def Layouts.failWith (l : Layouts) : Option LayoutError → Layouts
  | none => l
  | some e => l.fail e

/-! ## Sizes -/

/-- `scalar_size`: every scalar is as large as it is aligned. -/
def scalarSize (t : Target) (type : IrType) : Nat :=
  match t.type type with
  | .i8 => 1
  | .i16 => 2
  | .i32 | .f32 => 4
  | _ => 8

/-- A result of the size arithmetic with the `bool *overflow` that the source
    passes along, which is only ever set. -/
structure Sized (α : Type) where
  val : α
  overflow : Bool := false
  wrapped : Bool := false
  deriving DecidableEq, Repr

instance : Monad Sized where
  pure a := { val := a }
  bind x k :=
    { val := (k x.val).val, overflow := x.overflow || (k x.val).overflow,
      wrapped := x.wrapped || (k x.val).wrapped }

/-- `add_size`. -/
def addSize (a b : Nat) : Sized Nat :=
  if b > uint64Max - a then { val := uint64Max, overflow := true }
  else { val := a + b }

/-- `mul_size`. -/
def mulSize (a b : Nat) : Sized Nat :=
  if a ≠ 0 ∧ b > uint64Max / a then { val := uint64Max, overflow := true }
  else { val := a * b }

/-- A sum of the source that no check guards. -/
def rawAdd (a b : Nat) : Sized Nat := { val := wrap64 (a + b), wrapped := decide (2 ^ 64 ≤ a + b) }

/-- `whole_bytes`: the bytes that hold `bit` bits. -/
def wholeBytes (bit : Nat) : Nat := bit / 8 + if bit % 8 ≠ 0 then 1 else 0

/-- `round_up`: `n` rounded up to a multiple of `align`. -/
def roundUp (n align : Nat) : Sized Nat := do
  let last ← addSize n (sub64 align 1)
  pure (last / align * align)

/-! ## The placement of the fields -/

/-- `is_unit_break`: a field named `_`. -/
def isUnitBreak (f : IrField) : Bool := f.name = some [95]

/-- What the loop of `compute` asks about the type of a field. -/
structure TypeInfo where
  size : Nat
  align : Nat
  shared : Bool
  unaligned : Bool
  deriving DecidableEq, Repr

/-- The variables of the loop of `compute`. -/
structure Place where
  bit : Nat := 0
  align : Nat := 1
  unitStart : Nat := 0
  unitSize : Nat := 0
  unitUsed : Nat := 0
  offsets : List Nat := []
  bits : List LayoutBits := []
  unaligned : Bool := false
  shared : Bool := false
  deriving DecidableEq, Repr

/-- Record the offset and the first bit of the field just placed. -/
def Place.record (p : Place) (offset pos : Nat) : Place :=
  { p with offsets := p.offsets ++ [offset], bits := p.bits ++ [{ pos := pos }] }

/-- The end of a turn of the loop: the alignment grows to the field's, and the
    aggregate is unaligned with a field that is. -/
def Place.close (p : Place) (fieldAlign natural offset width : Nat) (unaligned : Bool) : Place :=
  { p with
    align := if fieldAlign > p.align then fieldAlign else p.align,
    unaligned := p.unaligned || (width = 0 && offset % natural ≠ 0) || unaligned }

/-- The branch of a zero-width bitfield. -/
def placeBreak (msvc aapcs64 : Bool) (natural naturalBits fieldAlign : Nat)
    (p : Place) : Sized Place := do
  if msvc = false then
    let bit ← roundUp p.bit naturalBits
    let align := if aapcs64 ∧ natural > p.align then natural else p.align
    pure (({ p with bit := bit, align := align }).record (bit / 8) 0)
  else if p.unitSize ≠ 0 then
    let start ← roundUp (wholeBytes p.bit) fieldAlign
    let bit ← mulSize start 8
    let align := if fieldAlign > p.align then fieldAlign else p.align
    pure (({ p with bit := bit, align := align, unitSize := 0 }).record (bit / 8) 0)
  else
    pure (p.record (p.bit / 8) 0)

/-- The branch of a plain field of a struct: it closes an open unit and takes
    the next multiple of its alignment. -/
def placePlain (fieldAlign : Nat) (info : TypeInfo) (p : Place) : Sized Place := do
  let offset ← roundUp (wholeBytes p.bit) fieldAlign
  let stop ← addSize offset info.size
  let bit ← mulSize stop 8
  pure (({ p with unitSize := 0, bit := bit }.record offset 0).close
    fieldAlign info.align offset 0 info.unaligned)

/-- The branches of a bitfield of a struct for MSVC: the next bits of an open
    unit of the same size, or a new unit. -/
def placeShared (fieldAlign sizeBits width : Nat) (info : TypeInfo) (p : Place) : Sized Place := do
  let fits ← rawAdd p.unitUsed width
  if p.unitSize = info.size ∧ fits ≤ sizeBits then
    let pos ← rawAdd p.unitStart p.unitUsed
    pure (({ p with unitUsed := fits }.record (pos / 8) pos).close
      fieldAlign info.align (pos / 8) width info.unaligned)
  else
    let start ← roundUp (wholeBytes p.bit) fieldAlign
    let unitStart ← mulSize start 8
    let bit ← addSize unitStart sizeBits
    pure (({ p with unitStart := unitStart, unitSize := info.size,
                    unitUsed := width, bit := bit }.record
      (unitStart / 8) unitStart).close fieldAlign info.align (unitStart / 8) width info.unaligned)

/-- The branch of a bitfield of a struct for System V: the next free bit, unless
    it would cross a boundary of its type's alignment. -/
def placeNext (packed : Bool) (fieldAlign sizeBits naturalBits width : Nat)
    (info : TypeInfo) (p : Place) : Sized Place := do
  let crossing ← rawAdd (p.bit % naturalBits) width
  let bit ← (if packed = false ∧ crossing > sizeBits then
      roundUp p.bit naturalBits
    else pure p.bit)
  let next ← addSize bit width
  pure (({ p with bit := next }.record (bit / 8) bit).close
    fieldAlign info.align (bit / 8) width info.unaligned)

/-- The branch of a field of a union. -/
def placeUnion (msvc : Bool) (fieldAlign sizeBits width : Nat)
    (info : TypeInfo) (p : Place) : Sized Place :=
  let stop := if width = 0 ∨ msvc then sizeBits else width
  pure (({ p with bit := if stop > p.bit then stop else p.bit }.record 0 0).close
    fieldAlign info.align 0 width info.unaligned)

/-- One turn of the loop of `compute` over the fields. -/
def placeField (t : Target) (agg : IrAggtype) (f : IrField) (info : TypeInfo)
    (p : Place) : Sized Place := do
  let msvc := decide (t.os = .windows)
  let aapcs64 := decide (t.os = .linux ∧ t.arch = .arm64)
  let sizeBits ← mulSize info.size 8
  let naturalBits ← mulSize info.align 8
  let shared := f.atomic || f.type.type = .lock || info.shared
  let fieldAlign := if agg.packed ∧ shared = false then 1 else info.align
  let p := { p with shared := p.shared || shared }
  if isUnitBreak f then
    placeBreak msvc aapcs64 info.align naturalBits fieldAlign p
  else if agg.kind = .union then
    placeUnion msvc fieldAlign sizeBits f.bits info p
  else if f.bits = 0 then
    placePlain fieldAlign info p
  else if msvc then
    placeShared fieldAlign sizeBits f.bits info p
  else
    placeNext agg.packed fieldAlign sizeBits naturalBits f.bits info p

/-- The bytes of the smallest integer that holds `need` bytes. -/
def unitBytes (need : Nat) : Nat :=
  if need ≤ 1 then 1 else if need ≤ 2 then 2 else if need ≤ 4 then 4 else 8

/-- The integer type of `bytes` bytes. -/
def unitTypeOf (bytes : Nat) : IrType :=
  if bytes = 1 then .i8 else if bytes = 2 then .i16
  else if bytes = 4 then .i32 else .i64

/-- `bit_unit`: the integer a load or store of bitfield `i` reads. -/
def bitUnit (agg : IrAggtype) (size : Nat) (f : IrField) (b : LayoutBits) :
    Sized (Except LayoutError LayoutBits) := do
  let sum ← rawAdd (b.pos % 8) f.bits
  let sum ← rawAdd sum 7
  let need := sum / 8
  let bytes := unitBytes need
  if need > 8 then
    pure (.error (.bitfieldSpans f.name agg.name))
  else if bytes > size then
    pure (.error (.bitfieldRead f.name agg.name bytes size))
  else
    let stop ← rawAdd (b.pos / 8) bytes
    let unitOffset := if stop > size then size - bytes else b.pos / 8
    pure (.ok { b with unitOffset := unitOffset, unitType := unitTypeOf bytes,
                       shift := (b.pos - unitOffset * 8) % 256 })

/-- The loop of `compute` that calls `bit_unit` for each bitfield, up to the first that fails. -/
def bitUnits (agg : IrAggtype) (size : Nat) : List IrField → List LayoutBits →
      Sized (Option LayoutError × List LayoutBits)
  | f :: fs, b :: bs => do
      if f.bits ≠ 0 then
        match ← bitUnit agg size f b with
        | .error e => pure (some e, b :: bs)
        | .ok b =>
          let (e, rest) ← bitUnits agg size fs bs
          pure (e, b :: rest)
      else
        let (e, rest) ← bitUnits agg size fs bs
        pure (e, b :: rest)
  | _, bs => pure (none, bs)

/-! ## The members -/

/-- Add a scalar, once for one offset. -/
def addMember (out : List LayoutMember) (offset : Nat) (type : IrType) : List LayoutMember :=
  if out.any (fun x => x.offset = offset ∧ x.type = type) then out
  else if out.length < layoutMemberLimit then out ++ [⟨offset, type⟩]
  else out

/-- The size of a value of type `v`, from the tables. -/
def sizeOf (l : Layouts) (v : IrVtype) : Nat :=
  if v.type = .agg then (l.aggs v.agg).size else scalarSize l.target v.type

/-- The alignment of a value of type `v`, from the tables. -/
def alignOf (l : Layouts) (v : IrVtype) : Nat :=
  if v.type = .agg then (l.aggs v.agg).align else scalarSize l.target v.type

/-- `flatten`: the scalars of a value of type `v` at `offset`.  `none` is a
    nesting deeper than the fuel. -/
def flatten (l : Layouts) : Nat → IrVtype → Nat → List LayoutMember → Option (List LayoutMember)
  | 0, _, _, _ => none
  | fuel + 1, v, offset, out =>
    if v.type ≠ .agg then
      some (addMember out offset (l.target.type v.type))
    else
      match l.m.aggs[v.agg]? with
      | none => none
      | some t =>
        if t.kind = .array then
          match t.fields with
          | [] => none
          | f :: _ =>
            let step := sizeOf l f.type
            if step = 0 then some out
            else
              (List.range ((l.aggs v.agg).size / step)).foldlM (fun out i => flatten l fuel f.type
                  (wrap64 (offset + i * step)) out) out
        else
          (t.fields.zip (l.aggs v.agg).offsets).foldlM (fun out fo =>
              if isUnitBreak fo.1 then some out
              else flatten l fuel fo.1.type (wrap64 (offset + fo.2)) out)
            out

/-! ## The recursion -/

/-- The two recursive calls: `layout_agg` and `layout_fold`. -/
inductive Query where
  | agg (i : Nat)
  | fold (sym : Nat)
  deriving DecidableEq, Repr

/-- A recursive call: the tables after it and, for a fold, its value.  `none` is a call that does
    not end within the fuel or leaves the tables of the module. -/
abbrev Rec := Layouts → Query → Option (Layouts × Option Nat)

/-- Lay out the type of a field before it is asked for. -/
def visit (rec : Rec) (l : Layouts) (v : IrVtype) : Option Layouts :=
  if v.type = .agg then (rec l (.agg v.agg)).map Prod.fst else some l

/-- What the tables say about type `v`. -/
def infoOf (l : Layouts) (v : IrVtype) : TypeInfo :=
  { size := sizeOf l v, align := alignOf l v, shared := v.type = .agg && (l.aggs v.agg).shared,
    unaligned := v.type = .agg && (l.aggs v.agg).unaligned }

/-- The loop of `compute` over the fields of a struct or union. -/
def computeFields (rec : Rec) (agg : IrAggtype) : List IrField → Layouts →
    Sized Place → Option (Layouts × Sized Place)
  | [], l, p => some (l, p)
  | f :: fs, l, p =>
    match visit rec l f.type with
    | none => none
    | some l =>
      computeFields rec agg fs l (p >>= placeField l.target agg f (infoOf l f.type))

/-- The length of an array from its folded value: a length that did not fold or
    is below one counts as one. -/
def arrayLength (agg : IrAggtype) (l : Layouts) : Option Nat → Layouts × Nat
  | none => (l, 1)
  | some length =>
    if arithSigned length 64 < 1 then
      (l.fail (.arrayLength agg.lengthText (arithSigned length 64)), 1)
    else (l, length)

/-- The branch of `compute` for an array. -/
def computeArray (rec : Rec) (agg : IrAggtype) (l : Layouts) : Option (Layouts × Sized Place) :=
  match agg.fields with
  | [] => none
  | f :: _ =>
    match rec l (.fold agg.length) with
    | none => none
    | some (l, folded) =>
      let length := arrayLength agg l folded
      match visit rec length.1 f.type with
      | none => none
      | some l =>
        let info := infoOf l f.type
        some (l, do
          let bytes ← mulSize length.2 info.size
          let bit ← mulSize bytes 8
          pure { bit := bit, align := info.align, offsets := agg.fields.map fun _ => 0,
                 bits := agg.fields.map fun _ => {},
                 unaligned := info.unaligned,
                 shared := f.type.type = .lock || info.shared })

/-- The alignment at the end of `compute`, before `align(N)`: a simd struct
    aligns to its size or to sixteen, whichever is less. -/
def ownAlign (agg : IrAggtype) (p : Place) : Nat :=
  if agg.simd then
    if wholeBytes p.bit < 16 then wholeBytes p.bit else 16
  else p.align

/-- The end of `compute`: the alignment, the size and the units of the
    bitfields, from what the loop placed. -/
def finish (fuel : Nat) (agg : IrAggtype) (i : Nat) (l : Layouts)
    (p : Sized Place) : Option Layouts :=
  let own := ownAlign agg p.val
  let l := l.failWith (if agg.align ≠ 0 ∧ agg.align < own then
      some (.alignBelow agg.name agg.align own) else none)
  let align := if agg.align > own then agg.align else own
  let size := p >>= fun p => roundUp (wholeBytes p.bit) align
  let out : Layout :=
    { size := size.val, align := align, offsets := p.val.offsets,
      bits := p.val.bits, unaligned := p.val.unaligned,
      shared := p.val.shared, wrapped := size.wrapped }
  if size.overflow ∨ size.val > uint64Max / 8 then
    let l := l.fail (.sizeInBits agg.name)
    some { l with
      aggs := update l.aggs i { out with size := 1, align := 1 },
      aggState := update l.aggState i .done }
  else
    let units := if agg.kind = .array then pure (none, p.val.bits)
      else bitUnits agg size.val agg.fields p.val.bits
    let l := l.failWith units.val.1
    let out := { out with vector := agg.simd ∧ size.val = 16, bits := units.val.2,
                          wrapped := size.wrapped || units.wrapped }
    let l := { l with aggs := update l.aggs i out, aggState := update l.aggState i .done }
    if size.val ≤ layoutMemberLimit then
      match flatten l fuel (irAggregate i) 0 [] with
      | none => none
      | some members =>
        some { l with aggs := update l.aggs i { out with members := members } }
    else some l

/-- `compute`. -/
def compute (fuel : Nat) (rec : Rec) (l : Layouts) (i : Nat) : Option Layouts :=
  match l.m.aggs[i]? with
  | none => none
  | some agg =>
    if l.aggState i = .busy then
      let l := l.fail (.dependsOnItself agg.name)
      some { l with
        aggs := update l.aggs i { l.aggs i with size := 1, align := 1 } }
    else
      let l := { l with aggState := update l.aggState i .busy }
      let placed := if agg.kind = .array then computeArray rec agg l
        else computeFields rec agg agg.fields l (pure {})
      match placed with
      | none => none
      | some (l, p) => finish fuel agg i l p

/-- `target_op`: an operation on `c_wchar` takes its signed form where `wchar_t` is signed. -/
def targetOp (t : Target) (s : IrSym) (operand : IrType) : IrOp :=
  if (s.type = .cwchar ∨ operand = .cwchar) ∧ t.wcharSigned then signedOp s.op
  else s.op

/-- `fold_op`: apply the operation of `s` to the folded operands. -/
def foldOp (t : Target) (s : IrSym) (operand : IrType) (a b : Nat) : Except LayoutError Nat :=
  let type := t.type operand
  let result := t.type s.type
  let op := targetOp t s operand
  match op with
  | .neg => .ok (irFoldTrim result (sub64 0 a))
  | .not => .ok (irFoldTrim result (2 ^ 64 - 1 - a))
  | .trunc | .zext => .ok (irFoldTrim result (irFoldTrim type a))
  | .sext => .ok (irFoldTrim result (toBits64 (irFoldSigned type a)))
  | _ =>
    match irFoldInt op type a b with
    | .folded v => .ok (irFoldTrim result v)
    | .byZero => .error .dividesByZero
    | .leastByMinusOne => .error .dividesLeast
    | .shiftRange => .error (.shiftsOutOfRange (irFoldBits type))
    | .notBinary => .error (.doesNotFold op)

/-- The end of `layout_fold`: a value of a fold that did not fail is kept. -/
def keep (l : Layouts) (sym v : Nat) : Layouts × Option Nat :=
  if l.failed then (l, none)
  else
    ({ l with values := update l.values sym v, symState := update l.symState sym .done }, some v)

/-- The branch of `layout_fold` for an operation on one or two symbolic values. -/
def foldOperation (rec : Rec) (l : Layouts) (sym : Nat) (s : IrSym) :
    Option (Layouts × Option Nat) :=
  match l.m.syms[s.a]? with
  | none => none
  | some operand =>
    match rec l (.fold s.a) with
    | none => none
    | some (l, none) => some (l, none)
    | some (l, some a) =>
      match (if s.b = irNoAgg then some (l, some 0)
        else rec l (.fold s.b)) with
      | none => none
      | some (l, none) => some (l, none)
      | some (l, some b) =>
        match foldOp l.target s operand.type a b with
        | .error e => some (l.fail e, none)
        | .ok v => some (keep l sym v)

/-- `layout_fold`. -/
def layoutFold (rec : Rec) (l : Layouts) (sym : Nat) : Option (Layouts × Option Nat) :=
  match l.m.syms[sym]? with
  | none => none
  | some s =>
    if l.symState sym = .done then some (l, some (l.values sym))
    else
      match s.kind with
      | .int => some (keep l sym s.value)
      | .sizeOf =>
        match visit rec l s.of with
        | none => none
        | some l => some (keep l sym (sizeOf l s.of))
      | .offsetOf =>
        match rec l (.agg s.of.agg) with
        | none => none
        | some (l, _) => ((l.aggs s.of.agg).offsets[s.field]?).map (keep l sym)
      | .op => foldOperation rec l sym s

/-- The code of `layout_agg` and `layout_fold` over their recursive calls. -/
def step (fuel : Nat) (rec : Rec) (l : Layouts) : Query → Option (Layouts × Option Nat)
  | .agg i =>
    if l.aggState i = .done then some (l, none)
    else (compute fuel rec l i).map fun l => (l, none)
  | .fold sym => layoutFold rec l sym

/-- `layout_agg` and `layout_fold`, with fuel for the depth of their calls. -/
def eval : Nat → Rec
  | 0 => fun _ _ => none
  | fuel + 1 => fun l q => step fuel (eval fuel) l q

/-- The loop of `layout_init` from aggregate `i` on, `n` of them. -/
def initFrom (fuel : Nat) : Nat → Nat → Layouts → Option Layouts
  | 0, _, l => some l
  | n + 1, i, l =>
    if l.failed then some l
    else
      match eval fuel l (.agg i) with
      | none => none
      | some (l, _) => initFrom fuel n (i + 1) l

/-- `layout_init`: lay out every aggregate of `m` for target `t`.  It succeeds
    when the result has not failed. -/
def layoutInit (fuel : Nat) (t : Target) (m : IrModule) : Option Layouts :=
  initFrom fuel m.aggs.length 0 { target := t, m := m }

end AnticLayout
