import Antic.Closures
import Antic.Contracts
import Mathlib

/-! # The check of the table of a library — `plugin.c`

    The images of the process are a `Memory`: the records of each kind that an image
    holds from an address on, with any values in them.  0 is NULL, and an int64 is an
    `Int`.  Where a call answers 0 the model stops with `damaged`; a read past the
    records and a product that passes an int64 are stops of their own. -/

namespace AnticDamage

/-! ## Type ids — `object.h` -/

/-- `enum anti_type`. -/
inductive AntiType where
  | none | bool | char | i8 | i16 | i32 | i64 | clong | u8 | u16 | u32 | u64 | culong
  | cwchar | f32 | f64 | str | ptr | fn | slice | array | struct | union | enum | «class»
  | f16 | variant | optional | handle | regex | tuple
deriving DecidableEq

def AntiType.id (t : AntiType) : Int := t.ctorIdx

def antiTypeOf (id : Int) : Int := id % 256

def antiTypeElement (id : Int) : Int := id / 2 ^ 8 % 256

def antiTypeInner (id : Int) : Int := id / 2 ^ 16 % 256

def antiTypeCount (id : Int) : Int := id % 2 ^ 64 / 2 ^ 24

/-- `anti_rt_type_scalar`. -/
def typeScalar (type : Int) : Int :=
  if antiTypeOf type = AntiType.enum.id then antiTypeElement type else antiTypeOf type

/-- The sizes that the host gives. -/
structure Host where
  long : Nat
  wchar : Nat
  pointer : Nat
  text : Nat
  object : Nat

/-- `anti_rt_type_size`. -/
def typeSize (host : Host) (type : Int) : Nat :=
  let is (types : List AntiType) : Bool := types.any fun t => typeScalar type = t.id
  if is [.bool, .i8, .u8] then 1
  else if is [.i16, .u16, .f16] then 2
  else if is [.char, .i32, .u32, .f32] then 4
  else if is [.i64, .u64, .f64] then 8
  else if is [.clong, .culong] then host.long
  else if is [.cwchar] then host.wchar
  else if is [.ptr, .fn] then host.pointer
  else if is [.str, .slice] then host.text
  else 0

/-- The first case of the two switches over the types held inline. -/
def inline (type : Int) : Bool :=
  [AntiType.struct, .class, .tuple, .variant, .optional].any fun t => type = t.id

/-! ## Records -/

structure Text where
  ptr : Nat
  length : Int

/-- `struct anti_field`. -/
structure Field where
  name : Text
  offset : Int
  type : Int
  owned : Int
  descriptor : Nat

/-- `struct anti_function`. -/
structure Function where
  name : Text
  slot : Int
  paramCount : Int
  signature : Text

/-- `struct anti_descriptor`. -/
structure Descriptor where
  name : Text
  parent : Nat
  size : Int
  depth : Int
  ancestors : Nat
  fieldCount : Int
  fields : Nat
  functionCount : Int
  functions : Nat
  version : Text
  typeArgCount : Int
  typeArgs : Nat

/-- `struct anti_provides`. -/
structure Provides where
  path : Text
  descriptor : Nat
  classOf : Nat
  init : Nat
  offset : Int
  chain : Nat
  chainLength : Int
  built : Text

/-- `struct anti_class`. -/
structure Class where
  descriptor : Nat
  init : Nat
  module : Text

/-- `struct anti_provided`. -/
structure Provided where
  count : Int
  entries : Nat
  version : Text
  classCount : Int
  classes : Nat

/-- The records that lie in an image from each address on. -/
structure Memory where
  descriptors : List (Nat × Descriptor)
  fields : Nat → List Field
  functions : Nat → List Function
  ancestors : Nat → List Nat
  chains : Nat → List Int
  entries : Nat → List Provides
  classes : Nat → List Class
  /-- Whether an image holds the address. -/
  image : Nat → Bool
  null : descriptors.lookup 0 = none

def Memory.descriptor (m : Memory) (a : Nat) : List Descriptor := (m.descriptors.lookup a).toList

/-! ## Checks -/

/-- Why a check ends early. -/
inductive Stop where
  | damaged
  | found (what : String)
  | outside
  | overflow
  | endless
deriving DecidableEq

/-- A check, over the list of `struct anti_reached`. -/
abbrev Check := EStateM Stop (List Nat)

def require (ok : Bool) : Check Unit := if ok then pure () else throw .damaged

/-- The text of `damage_in` for what a call finds. -/
def blame (what : String) (x : Check Unit) : Check Unit := fun r =>
  match x r with
  | .error .damaged r => .error (.found what) r
  | result => result

/-- A read of record `i` of the list at an address. -/
def record {α : Type} (lists : Nat → List α) (list i : Nat) : Check α :=
  match (lists list)[i]? with
  | some x => pure x
  | none => throw .outside

/-- The `n` records of a list from record `i` on. -/
def each {α : Type} (lists : Nat → List α) (list : Nat) (body : α → Check Unit) :
    Nat → Nat → Check Unit
  | _, 0 => pure ()
  | i, n + 1 => do
    let x ← record lists list i
    body x
    each lists list body (i + 1) n

/-- A product of two int64. -/
def times (a b : Int) : Check Int :=
  if -2 ^ 63 ≤ a * b ∧ a * b < 2 ^ 63 then pure (a * b) else throw .overflow

def textSound (t : Text) : Bool := 0 ≤ t.length && t.length < 2 ^ 31 && (t.length = 0 || t.ptr ≠ 0)

def listSound {α : Type} (lists : Nat → List α) (list : Nat) (count : Int) : Bool :=
  count = 0 || (0 < count && list ≠ 0 && count ≤ (lists list).length)

def reach (d : Nat) : Check Unit := modify fun r => if d ∈ r then r else r ++ [d]

/-! ## Widths -/

/-- `INT64_MAX`. -/
def int64Max : Int := 2 ^ 63 - 1

/-- `ANTI_ARRAY_LEVELS`. -/
def antiArrayLevels : Int := 16

/-- The switch of `element_width` and of `width_of`. -/
def switchWidth (host : Host) (m : Memory) (kind type : Int) (d : Nat) : Check Int :=
  if inline kind then
    if d ≠ 0 then do
      let d ← record m.descriptor d 0
      pure d.size
    else pure 0
  else pure (typeSize host type)

def elementWidth (host : Host) (m : Memory) (type : Int) (element : Nat) : Check Int :=
  switchWidth host m (antiTypeInner type) (antiTypeInner type) element

/-- The loop of `array_width`. -/
def scale (length : Nat → Check Int) : Nat → Nat → Int → Check Int
  | _, 0, width => pure width
  | i, n + 1, width =>
    if width < 0 then pure width
    else do
      let length' ← length i
      if length' < 0 ∨ (0 < length' ∧ int64Max / length' < width) then pure (-1)
      else do
        let width ← times width length'
        scale length (i + 1) n width

/-- `array_width` from the element on. -/
def spread (host : Host) (m : Memory) (type : Int) (element levels : Nat)
    (length : Nat → Check Int) : Check Int :=
  if element ≠ 0 ∧ ¬ listSound m.descriptor element 1 then pure (-1)
  else do
    (if element ≠ 0 then reach element else pure ())
    let width ← elementWidth host m type element
    scale length 0 levels width

def arrayWidth (host : Host) (m : Memory) (type : Int) (d : Nat) : Check Int :=
  if antiTypeElement type = AntiType.array.id then
    if d = 0 then pure 0
    else do
      let d ← record m.descriptor d 0
      if d.fieldCount < 1 ∨ antiArrayLevels < d.fieldCount ∨
          ¬ listSound m.fields d.fields d.fieldCount then pure (-1)
      else do
        let last ← record m.fields d.fields (d.fieldCount.toNat - 1)
        spread host m type last.descriptor d.fieldCount.toNat fun i => do
          let level ← record m.fields d.fields i
          pure level.owned
  else spread host m type d 1 fun _ => pure (antiTypeCount type)

def widthOf (host : Host) (m : Memory) (f : Field) : Check Int :=
  if f.descriptor ≠ 0 ∧ ¬ listSound m.descriptor f.descriptor 1 then pure (-1)
  else if typeScalar f.type = AntiType.array.id then arrayWidth host m f.type f.descriptor
  else do
    (if f.descriptor ≠ 0 ∧ antiTypeElement f.type ≠ AntiType.array.id then
      reach f.descriptor
    else pure ())
    switchWidth host m (typeScalar f.type) f.type f.descriptor

/-! ## Descriptors, classes and tables -/

def recordsSound (m : Memory) (fields : Nat) (count : Int) : Check Unit := do
  require (listSound m.fields fields count)
  each m.fields fields (fun f => require (textSound f.name)) 0 count.toNat

def fieldsSound (host : Host) (m : Memory) (fields : Nat) (count size : Int) :
    Check Unit := do
  recordsSound m fields count
  each m.fields fields (fun f => do
    let width ← widthOf host m f
    require (0 ≤ width && width ≤ size && 0 ≤ f.offset && f.offset ≤ size - width))
    0 count.toNat

/-- The condition of `descriptor_sound` on a function. -/
def functionSound (m : Memory) (f : Function) : Bool :=
  textSound f.name && 0 ≤ f.slot && 0 ≤ f.paramCount && textSound f.signature &&
    (f.signature.ptr = 0 || m.image f.signature.ptr)

def descriptorSound (host : Host) (m : Memory) (a : Nat) : Check Unit := do
  require (a ≠ 0 && listSound m.descriptor a 1)
  let d ← record m.descriptor a 0
  require (textSound d.name && textSound d.version && 0 ≤ d.size)
  fieldsSound host m d.fields d.fieldCount d.size
  recordsSound m d.typeArgs d.typeArgCount
  require (listSound m.functions d.functions d.functionCount)
  each m.fields d.typeArgs (fun t => require (0 ≤ t.offset)) 0 d.typeArgCount.toNat
  each m.functions d.functions (fun f => require (functionSound m f)) 0 d.functionCount.toNat

/-- The loop of `class_sound`, with the steps that the depth leaves. -/
def parentsSound (host : Host) (m : Memory) : Nat → Nat → Check Unit
  | 0, up => require (up = 0)
  | n + 1, up => do
    require (up ≠ 0)
    descriptorSound host m up
    let d ← record m.descriptor up 0
    require (0 < d.size)
    parentsSound host m n d.parent

/-- The condition of `class_sound` on the list of ancestors. -/
def ancestorsSound (m : Memory) (a : Nat) (d : Descriptor) : Check Unit :=
  if d.ancestors ≠ 0 then do
    require (listSound m.ancestors d.ancestors (d.depth + 1))
    let last ← record m.ancestors d.ancestors d.depth.toNat
    require (last = a)
  else pure ()

def classSound (host : Host) (m : Memory) (a : Nat) : Check Unit := do
  descriptorSound host m a
  let d ← record m.descriptor a 0
  require (0 < d.size && 0 ≤ d.depth && d.depth ≠ int64Max)
  ancestorsSound m a d
  parentsSound host m d.depth.toNat d.parent

/-- The first loop of `damage_in`. -/
def entrySound (host : Host) (m : Memory) (e : Provides) : Check Unit := do
  blame "a text of an entry" (require (textSound e.path && textSound e.built))
  blame "the interface of an entry" (require (e.descriptor ≠ 0 && m.image e.descriptor))
  blame "the class of an entry" do
    classSound host m e.classOf
    require (e.init ≠ 0)
  let c ← record m.descriptor e.classOf 0
  blame "the offset of an entry" (require (0 ≤ e.offset && e.offset ≤ c.size - host.object))
  blame "the version chain of an entry"
    (require (1 ≤ e.chainLength && listSound m.chains e.chain e.chainLength))

/-- The second loop of `damage_in`. -/
def ownClassSound (host : Host) (m : Memory) (c : Class) : Check Unit :=
  blame "a class" do
    classSound host m c.descriptor
    require (c.init ≠ 0 && textSound c.module)

/-- The last loop of `damage_in`, from place `i` of the list on. -/
def walkReached (host : Host) (m : Memory) : Nat → Nat → Check Unit
  | 0, i => do
    let r ← get
    if r.length ≤ i then pure () else throw .endless
  | fuel + 1, i => do
    let r ← get
    match r[i]? with
    | none => pure ()
    | some d => do
      blame "a type that a field holds" (descriptorSound host m d)
      walkReached host m fuel (i + 1)

def damageIn (host : Host) (m : Memory) (table : Provided) : Check Unit := do
  blame "the runtime version" (require (textSound table.version))
  blame "a count" (require (listSound m.entries table.entries table.count &&
    listSound m.classes table.classes table.classCount))
  each m.entries table.entries (entrySound host m) 0 table.count.toNat
  each m.classes table.classes (ownClassSound host m) 0 table.classCount.toNat
  walkReached host m m.descriptors.length 0

/-- `damage_of`: what ends the check, or nothing. -/
def damageOf (host : Host) (m : Memory) (table : Provided) : Option Stop :=
  match damageIn host m table [] with
  | .ok _ _ => none
  | .error e _ => some e

end AnticDamage
