import Antic.Layout

/-! # The bytes of a constant — `layout_data`

    Every target is little endian, so a value reaches memory lowest byte first.
    A bitfield is read and written through its unit: `write_bits` reads the
    integer, puts the masked value in it and writes it back.

    * The bytes of a global start as zeros, and each field writes its own.
    * The bits of a float constant are a parameter: `arith_to_f32` and `isnan`
      are floating point of the host.
    * `storeField` is the body of the loop of `write_agg`, so that the fields can
      be stored in any order. -/

namespace AnticLayout

open AnticIr

/-- The loop of `write_int` from byte `i` on, for `n` more bytes. -/
def writeIntFrom (offset bits : Nat) : Nat → Nat → IrGlobal → IrGlobal
  | 0, _, g => g
  | n + 1, i, g =>
    if wrap64 (offset + i) < g.size then
      writeIntFrom offset bits n (i + 1)
        { g with bytes := g.bytes.set (wrap64 (offset + i))
                   (UInt8.ofNat (bits >>> (i * 8))) }
    else g

/-- `write_int`. -/
def writeInt (g : IrGlobal) (offset size bits : Nat) : IrGlobal :=
  writeIntFrom offset bits size 0 g

/-- The loop of `read_int` from byte `i` on, for `n` more bytes. -/
def readIntFrom (g : IrGlobal) (offset : Nat) : Nat → Nat → Nat → Nat
  | 0, _, bits => bits
  | n + 1, i, bits =>
    if wrap64 (offset + i) < g.size then
      readIntFrom g offset n (i + 1)
        (bits ||| (g.bytes.getD (wrap64 (offset + i)) 0).toNat <<< (i * 8))
    else bits

/-- `read_int`. -/
def readInt (g : IrGlobal) (offset size : Nat) : Nat :=
  readIntFrom g offset size 0 0

/-- The mask of `write_bits`. -/
def bitsMask (width : Nat) : Nat :=
  if width ≥ 64 then uint64Max else 1 <<< width - 1

/-- `write_bits`: put the value of a bitfield in the bits it occupies. -/
def writeBits (l : Layouts) (g : IrGlobal) (f : IrField) (b : LayoutBits)
    (base value : Nat) : IrGlobal :=
  let size := sizeOf l (irScalar b.unitType)
  let unit := readInt g (wrap64 (base + b.unitOffset)) size
  writeInt g (wrap64 (base + b.unitOffset)) size
    (unit ||| wrap64 ((value &&& bitsMask f.bits) <<< b.shift))

/-- `add_reloc`. -/
def addReloc (g : IrGlobal) (offset target : Nat) (fn : Bool) : IrGlobal :=
  { g with relocs := g.relocs ++ [⟨offset, target, fn⟩] }

/-- The member `integer` of a constant, which only an integer sets. -/
def constInteger : IrConst → Nat
  | .mk .int _ _ val _ => val
  | _ => 0

section Write

/- The bits of a float constant of `size` bytes, and the depth that a fold of a
   symbolic value may take. -/
variable (floatBits : Nat → Nat → Nat) (fuel : Nat)

mutual

/-- `write_const`.  `none` is a fold that does not end within the fuel or leaves
    the tables of the module. -/
def writeConst : IrConst → Nat → Layouts → IrGlobal →
    Option (Layouts × IrGlobal)
  | .mk kind type scalar val items, base, l, g =>
    match kind with
    | .none => some (l, g)
    | .int => some (l, writeInt g base (sizeOf l (irScalar scalar)) val)
    | .float =>
      let size := sizeOf l (irScalar scalar)
      some (l, writeInt g base size (floatBits size val))
    | .sym =>
      match layoutFold (eval fuel) l val with
      | none => none
      | some (l, none) => some (l, g)
      | some (l, some bits) =>
        some (l, writeInt g base (sizeOf l (irScalar scalar)) bits)
    | .addr => some (l, addReloc g base val false)
    | .func => some (l, addReloc g base val true)
    | .agg =>
      match l.m.aggs[type.agg]? with
      | none => none
      | some t =>
        if t.kind = .array then
          match t.fields with
          | [] => none
          | f :: _ => writeElements items (sizeOf l f.type) 0 base l g
        else writeFields items t (l.aggs type.agg) 0 base l g

/-- The loop of `write_agg` over the elements of an array, from `i` on. -/
def writeElements : List IrConst → Nat → Nat → Nat → Layouts → IrGlobal →
    Option (Layouts × IrGlobal)
  | [], _, _, _, l, g => some (l, g)
  | c :: cs, step, i, base, l, g =>
    match writeConst c (wrap64 (base + i * step)) l g with
    | none => none
    | some (l, g) => writeElements cs step (i + 1) base l g

/-- The loop of `write_agg` over the fields, from `i` on. -/
def writeFields : List IrConst → IrAggtype → Layout → Nat → Nat → Layouts →
    IrGlobal → Option (Layouts × IrGlobal)
  | [], _, _, _, _, l, g => some (l, g)
  | c :: cs, t, out, i, base, l, g =>
    match t.fields[i]? with
    | none => some (l, g)
    | some f =>
      if isUnitBreak f then writeFields cs t out (i + 1) base l g
      else if f.bits ≠ 0 then
        writeFields cs t out (i + 1) base l
          (writeBits l g f (out.bits.getD i {}) base (constInteger c))
      else
        match writeConst c (wrap64 (base + out.offsets.getD i 0)) l g with
        | none => none
        | some (l, g) => writeFields cs t out (i + 1) base l g

end

/-- The body of the loop of `write_agg` over the fields: store item `c` in field `i`. -/
def storeField (t : IrAggtype) (out : Layout) (base : Nat) (x : Nat × IrConst)
    (l : Layouts) (g : IrGlobal) : Option (Layouts × IrGlobal) :=
  match t.fields[x.1]? with
  | none => some (l, g)
  | some f =>
    if isUnitBreak f then some (l, g)
    else if f.bits ≠ 0 then
      some (l, writeBits l g f (out.bits.getD x.1 {}) base (constInteger x.2))
    else
      writeConst floatBits fuel x.2 (wrap64 (base + out.offsets.getD x.1 0)) l g

/-- The stores of some fields, in the order of the list. -/
def storeFields (t : IrAggtype) (out : Layout) (base : Nat) :
    List (Nat × IrConst) → Layouts → IrGlobal → Option (Layouts × IrGlobal)
  | [], l, g => some (l, g)
  | x :: xs, l, g =>
    match storeField floatBits fuel t out base x l g with
    | none => none
    | some (l, g) => storeFields t out base xs l g

end Write

end AnticLayout
