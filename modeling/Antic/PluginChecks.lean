import Antic.ProgramSlots

/-! # The checks of a library and its tables of stubs — `plugin.c`

    The address of a descriptor is what the linker gives its symbol, so a descriptor
    is known by its module and its name. -/

namespace AnticPlugin

open AnticIr AnticWhole GrowingBitmap

abbrev Text := List UInt8

/-- The address of a descriptor. -/
abbrev Address := Option CName × CName

/-! ## Versions -/

/-- `version_part`: the digits of the next part, and the rest. -/
def versionPart (t : Text) : Text × Text :=
  let t := t.dropWhile (· = 48)
  let digit (c : UInt8) : Bool := 48 ≤ c ∧ c ≤ 57
  let rest := (t.dropWhile digit).dropWhile (· ≠ 46)
  (t.takeWhile digit, rest.drop 1)

/-- `version_below`, with the turns left. -/
def versionBelowFrom : Nat → Text → Text → Bool
  | 0, _, _ => false
  | turns + 1, a, b =>
    let (one, a) := versionPart a
    let (two, b) := versionPart b
    if one.length ≠ two.length then one.length < two.length
    else if one ≠ two then one < two
    else if a = [] ∧ b = [] then false
    else versionBelowFrom turns a b

/-- `version_below`. -/
def versionBelow (a b : Text) : Bool := versionBelowFrom 8 a b

/-! ## The records -/

/-- `struct anti_versions`. -/
structure Versions where
  chain : List Int
  chainLength : Int
  floor : Option Text

/-- `struct anti_descriptor`, with what the loader reads of it. -/
structure Descriptor where
  address : Address
  size : Int
  fieldCount : Int
  functionCount : Int
  versions : Option Versions

/-- `struct anti_provides`, with what the checks read of it. -/
structure Provides where
  descriptor : Option Descriptor
  offset : Int
  chain : List Int
  chainLength : Int
  fields : Int
  size : Int
  built : Text

/-- `struct anti_slots`. -/
structure AntiSlots where
  descriptor : Address
  slotCount : Int
  bits : Bytes

/-- `struct anti_slot_table`. -/
structure AntiSlotTable where
  interfaces : List AntiSlots
  reflect : Int

/-- The table of the program, as the linker leaves it. -/
def linkSlots (m : IrModule) (t : SlotTable) : AntiSlotTable where
  interfaces := t.interfaces.filterMap fun r =>
    (m.globals[r.descriptor]?).map fun g => ⟨(g.module, g.name), r.slotCount, r.bits⟩
  reflect := if t.reflect then 1 else 0

/-- `anti_rt_plugin_slots`. -/
def pluginSlots (t : AntiSlotTable) (d : Address) : Option AntiSlots :=
  t.interfaces.find? fun s => s.descriptor = d

/-! ## The checks -/

/-- Why an interface is refused. -/
inductive Refusal where
  | noVersion
  | notTheInterface
  | builtTooOld
  | fieldAdded
  | noSuchFunction (slot : Int)
  deriving DecidableEq

/-- The loop of `checked` over the slots past the library's entries: the first slot
    at `at_` or above that a call reaches. -/
def missingSlot (s : AntiSlots) : Nat → Int → Option Int
  | 0, _ => none
  | turns + 1, at_ =>
    if at_ < s.slotCount then
      if bitAt s.bits at_.toNat = some false then missingSlot s turns (at_ + 1)
      else some at_
    else none

/-- `checked`. -/
def checked (t : AntiSlotTable) (e : Provides) : Except Refusal Unit :=
  match e.descriptor with
  | none => .error .noVersion
  | some d =>
    match d.versions with
    | none => .error .noVersion
    | some v =>
      if v.chainLength < 1 ∨ e.chainLength < 1 then .error .noVersion
      else
        let at_ := if v.chainLength < e.chainLength then v.chainLength else e.chainLength
        let hash (chain : List Int) : Int := chain.getD (at_ - 1).toNat 0
        if hash v.chain ≠ hash e.chain then .error .notTheInterface
        else if v.floor.any fun floor => versionBelow e.built floor then .error .builtTooOld
        else if e.fields ≠ d.fieldCount ∨ e.size ≠ d.size then .error .fieldAdded
        else
          match pluginSlots t d.address with
          | none => .ok ()
          | some s =>
            match missingSlot s (s.slotCount - e.chainLength).toNat e.chainLength with
            | none => .ok ()
            | some slot => .error (.noSuchFunction slot)

/-! ## Tables with stubs -/

/-- An entry of a table of the loader. -/
inductive Entry (F : Type) where
  | zero
  /-- What stands in a table of the library. -/
  | own (f : F)
  | stub
  deriving DecidableEq

/-- `needs_stubs`. -/
def needsStubs (t : AntiSlotTable) (e : Provides) (d : Descriptor) : Bool :=
  t.reflect ≠ 0 ∧ e.offset ≠ 0 ∧ e.chainLength - 1 < d.functionCount

/-- `struct anti_stubbed` and its table. -/
structure Stubbed (F : Type) where
  filled : Bool
  table : List (Entry F)

/-- `stubs_of`. -/
def stubsOf (F : Type) (e : Provides) (d : Descriptor) : Stubbed F where
  filled := false
  table := (List.range (d.functionCount + 1).toNat).map fun (i : Nat) =>
    if e.chainLength - 1 + 1 ≤ (i : Int) then .stub else .zero

/-- What `claim` keeps for an entry. -/
def claimStubs (F : Type) (t : AntiSlotTable) (e : Provides) (d : Descriptor) :
    Option (Stubbed F) :=
  if needsStubs t e d then some (stubsOf F e d) else none

/-- The part of `build` under the lock: the library's entries go into a table that has none yet.
    `own` is the table that `init` gave the sub-object. -/
def fillStubs {F : Type} (e : Provides) (own : Nat → F) (s : Stubbed F) : Stubbed F :=
  if s.filled then s
  else
    { filled := true,
      table := s.table.mapIdx fun i entry =>
        if (i : Int) < e.chainLength then .own (own i) else entry }

/-- `build`, after `init`: the table kept for the entry, and the one of the object. -/
def buildTable {F : Type} (e : Provides) (own : Nat → F) (kept : Option (Stubbed F)) :
    Option (Stubbed F) × (Nat → Option (Entry F)) :=
  match kept with
  | none => (none, fun i => some (.own (own i)))
  | some s =>
    let s := fillStubs e own s
    (some s, fun i => s.table[i]?)

/-- The table of an object of the entry after `n` others were built. -/
def builtTable {F : Type} (e : Provides) (own : Nat → F) :
    Nat → Option (Stubbed F) → Nat → Option (Entry F)
  | 0, kept => (buildTable e own kept).2
  | n + 1, kept => builtTable e own n (buildTable e own kept).1

end AnticPlugin
