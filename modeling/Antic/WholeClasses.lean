import Antic.IrSyntax
import Antic.FiniteWalk

/-! # The class model of a whole program — `whole_build` and `whole_entries`

    A module that names a class of another module refers to its descriptor through a global of its
    own, so the passes over the whole program know a class by the module and the name of its
    descriptor.  `whole_build` keeps the records in an open-addressed table under that key, and
    lists for every table of a concrete class the records whose pointers may point at an object that
    holds it.

    This file models the functions and settles the table: a lookup gives the record that describes
    the global (`classOf_eq_some_iff`). -/

namespace AnticWhole

open AnticIr FiniteWalk Function

/-- `RUNTIME_ROOT "descriptor"`: the bytes of `anti_lang_Object_descriptor`. -/
def rootDescriptor : CName :=
  [97, 110, 116, 105, 95, 108, 97, 110, 103, 95, 79, 98, 106, 101, 99, 116, 95,
   100, 101, 115, 99, 114, 105, 112, 116, 111, 114]

/-- `ir_hash_bytes`: FNV-1a, continued from `h`. -/
def irHashBytes (h : Nat) (bytes : List UInt8) : Nat :=
  bytes.foldl (fun h b => ((h ^^^ b.toNat) * 0x100000001b3) % 2 ^ 64) h

/-- `ir_hash_name`, a `NULL` module hashed as an empty one. -/
def irHashName (module : Option CName) (name : CName) : Nat :=
  irHashBytes (irHashBytes (irHashBytes 0xcbf29ce484222325 (module.getD [])) [0xff]) name

/-- A place of the map from the module and the name of a global to a class record. -/
structure Slot where
  module : Option CName
  name : CName
  record : Nat
  deriving DecidableEq, Repr

/-- The name test of `slot_of`. -/
def Slot.names (module : Option CName) (name : CName) (s : Slot) : Bool :=
  s.module = module && s.name = name

/-- The places of the map as a function, empty past the end. -/
def places (slots : List (Option Slot)) (i : Nat) : Option Slot := slots.getD i none

/-- The place where the walk for a key starts. -/
def home (size : Nat) (module : Option CName) (name : CName) : Nat :=
  irHashName module name &&& (size - 1)

/-- `slot_of`: the place of the key, or the empty place where it goes.  The number of places is a
    power of two, so the `& (slot_count - 1)` of each step is the remainder that `probe` takes. -/
def slotOf (slots : List (Option Slot)) (module : Option CName) (name : CName) : Nat :=
  probe (places slots) (Slot.names module name) slots.length slots.length
    (home slots.length module name)

/-- `whole_class_of`: the record whose descriptor is global `g`. -/
def classOf (m : IrModule) (slots : List (Option Slot)) (g : Nat) :
    Option Nat :=
  match m.globals[g]? with
  | none => none
  | some global => (places slots (slotOf slots global.module global.name)).map Slot.record

/-- The doubling loop of `whole_build`. -/
def doubleUpTo (need : Nat) : Nat → Nat → Nat
  | 0, size => size
  | fuel + 1, size =>
    if size < need then doubleUpTo need fuel (size * 2) else size

/-- The number of places for `n` class records. -/
def slotCount (n : Nat) : Nat := doubleUpTo (2 * n + 1) (2 * n + 1) 16

/-- Enter class record `i` under the key of its descriptor. -/
def putClass (m : IrModule) (slots : List (Option Slot)) (ci : IrClass × Nat) :
    List (Option Slot) :=
  match m.globals[ci.1.descriptor]? with
  | none => slots
  | some d => slots.set (slotOf slots d.module d.name) (some ⟨d.module, d.name, ci.2⟩)

/-- The map `whole_build` fills. -/
def buildSlots (m : IrModule) : List (Option Slot) :=
  m.classes.zipIdx.foldl (putClass m) (List.replicate (slotCount m.classes.length) none)

/-- `struct served`: a table and the records whose pointers may point at an object that holds it. -/
structure Served where
  table : Nat
  classes : List Nat
  deriving DecidableEq, Repr

/-- The record above record `i`, as the `for` of `add_table` steps. -/
def above (m : IrModule) (slots : List (Option Slot)) (i : Nat) : Option Nat :=
  match m.classes[i]? with
  | none => none
  | some c => classOf m slots c.base

/-- The first loop of `add_table`: how many records lie on the way up, at most `fuel`. -/
def chainDepth (up : Nat → Option Nat) : Nat → Option Nat → Nat
  | 0, _ => 0
  | _ + 1, none => 0
  | fuel + 1, some r => chainDepth up fuel (up r) + 1

/-- The second loop of `add_table`: the first `depth` records on the way up. -/
def chain (up : Nat → Option Nat) : Nat → Option Nat → List Nat
  | 0, _ => []
  | _ + 1, none => []
  | depth + 1, some r => r :: chain up depth (up r)

/-- `add_table`.  The depth guard stops a chain of bases that runs in a circle. -/
def addTable (m : IrModule) (slots : List (Option Slot)) (table : Nat)
    (record : Option Nat) : Served :=
  let up := above m slots
  ⟨table, chain up (chainDepth up (m.classes.length + 1) record) record⟩

/-- The tables of one class record: its own and one per sub-object.  An abstract class has none. -/
def tablesOf (m : IrModule) (slots : List (Option Slot)) (ci : IrClass × Nat) : List Served :=
  if ci.1.table = irNoIndex then []
  else
    addTable m slots ci.1.table (some ci.2) :: ci.1.subtables.map (fun s =>
        addTable m slots s.table (classOf m slots s.interface))

/-- `struct whole`. -/
structure Whole where
  m : IrModule
  slots : List (Option Slot)
  tables : List Served

/-- `whole_build`. -/
def wholeBuild (program : IrModule) : Whole :=
  let slots := buildSlots program
  ⟨program, slots, program.classes.zipIdx.flatMap (tablesOf program slots)⟩

/-- What `whole_record_of` gives: no class, the root, or a record. -/
inductive ClassRef where
  | unknown
  | root
  | record (i : Nat)
  deriving DecidableEq, Repr

/-- `whole_record_of`. -/
def wholeRecordOf (w : Whole) (descriptor : Nat) : ClassRef :=
  match classOf w.m w.slots descriptor with
  | some i => .record i
  | none =>
    match w.m.globals[descriptor]? with
    | none => .unknown
    | some g =>
      if g.module = none ∧ g.name = rootDescriptor then .root else .unknown

/-- `serves`. -/
def serves (t : Served) : ClassRef → Bool
  | .root => true
  | .record i => t.classes.contains i
  | .unknown => false

/-- `entry_at`: the function at entry `slot` of a table, or `none` for an empty entry. -/
def entryAt (m : IrModule) (table slot : Nat) : Option Nat :=
  match m.globals[table]? with
  | none => none
  | some g =>
    match g.value with
    | some (.mk .agg _ _ _ items) =>
      match items[slot]? with
      | some (.mk .func _ _ f _) => some f
      | _ => none
    | _ => none

/-- One turn of the loop of `whole_entries`: an entry joins the list once. -/
def addEntry (entries : List (Option Nat)) (f : Option Nat) :
    List (Option Nat) :=
  if entries.contains f then entries else entries ++ [f]

/-- `whole_entries`: the distinct functions a call through the class of
    `descriptor` may reach at `slot`. -/
def wholeEntries (w : Whole) (descriptor slot : Nat) : List (Option Nat) :=
  ((w.tables.filter (serves · (wholeRecordOf w descriptor))).map
    (fun t => entryAt w.m t.table slot)).foldl addEntry []

/-! ## The table -/

/-- The key of a global: its module and its name. -/
def keyOf (m : IrModule) (g : Nat) : Option (Option CName × CName) :=
  (m.globals[g]?).map fun global => (global.module, global.name)

/-- Record `i` describes the class that global `g` names. -/
def Describes (m : IrModule) (i g : Nat) : Prop :=
  ∃ c k, m.classes[i]? = some c ∧ keyOf m c.descriptor = some k ∧ keyOf m g = some k

/-- The key of a place of the map. -/
def Slot.key (s : Slot) : Option CName × CName := (s.module, s.name)

theorem Slot.names_iff {module : Option CName} {name : CName} {s : Slot} :
    s.names module name = true ↔ s.key = (module, name) := by
  simp [Slot.names, Slot.key]

theorem doubleUpTo_ge {need : Nat} : ∀ {fuel size : Nat}, 0 < size →
    need ≤ size + fuel → need ≤ doubleUpTo need fuel size := by
  intro fuel
  induction fuel with
  | zero => intro size _ h; exact h
  | succ fuel ih =>
    intro size hpos h
    unfold doubleUpTo
    by_cases hlt : size < need
    · rw [if_pos hlt]
      exact ih (by omega) (by omega)
    · rw [if_neg hlt]
      omega

theorem slotCount_gt (n : Nat) : 2 * n < slotCount n :=
  doubleUpTo_ge (by omega) (by omega)

variable {size : Nat} {slots : List (Option Slot)}

theorem home_lt (h : 0 < size) (module : Option CName) (name : CName) :
    home size module name < size := by
  have hle : home size module name ≤ size - 1 := Nat.and_le_right
  omega

/-- What holds of the map after some class records went in: `entered i k` says
    that record `i` went in under the key `k`. -/
structure SlotsOk (size : Nat) (entered : Nat → Option CName × CName → Prop)
    (slots : List (Option Slot)) : Prop where
  length : slots.length = size
  /-- Each key stands where the walk for it stops. -/
  found : ∀ p s, places slots p = some s →
    ∃ d, ProbeAt (places slots) (Slot.names s.module s.name) size (home size s.module s.name) d p
  /-- Each place holds a record under its key. -/
  sound : ∀ p s, places slots p = some s → entered s.record s.key
  /-- Each key that went in has a place. -/
  complete : ∀ i k, entered i k → ∃ p s, places slots p = some s ∧ s.key = k

theorem places_set {p : Nat} (h : p < slots.length) (e : Option Slot) :
    places (slots.set p e) = update (places slots) p e := by
  funext i
  by_cases hip : i = p
  · subst hip
    simp [places, h]
  · rw [update_of_ne hip]
    simp [places, Ne.symm hip]

theorem ProbeAt.congr_key {table table' : Nat → Option Slot}
    (h : ∀ i, (table i).map Slot.key = (table' i).map Slot.key)
    {module : Option CName} {name : CName} {hm d p : Nat}
    (hp : ProbeAt table (Slot.names module name) size hm d p) :
    ProbeAt table' (Slot.names module name) size hm d p := by
  have stops : ∀ i, Stops table (Slot.names module name) i ↔
      Stops table' (Slot.names module name) i := by
    intro i
    have hi := h i
    unfold Stops
    cases ht : table i <;> cases ht' : table' i <;> simp_all [Slot.names_iff]
  refine ⟨hp.place, fun e he hs => hp.passed e he ((stops _).mpr hs), ?_⟩
  exact (stops p).mp hp.stops

/-- The walk for a key stops at `slot_of`, while a place is empty. -/
theorem slotOf_spec {q : Nat} (hq : q < slots.length) (hempty : places slots q = none)
    (module : Option CName) (name : CName) :
    ∃ d, ProbeAt (places slots) (Slot.names module name) slots.length
      (home slots.length module name) d (slotOf slots module name) :=
  probe_spec _ (home_lt (by omega) module name) hq hempty

/-- A record goes into the slot of its key, the one it holds or the first free one. -/
theorem SlotsOk.put {entered : Nat → Option CName × CName → Prop}
    (h : SlotsOk size entered slots) {q : Nat} (hq : q < size)
    (hempty : places slots q = none) (module : Option CName) (name : CName) (i : Nat) :
    SlotsOk size (fun j k => entered j k ∨ (j = i ∧ k = (module, name)))
      (slots.set (slotOf slots module name) (some ⟨module, name, i⟩)) := by
  obtain ⟨hlen, hfound, hsound, hcomplete⟩ := h
  subst hlen
  obtain ⟨d, hat⟩ := slotOf_spec hq hempty module name
  generalize hpdef : slotOf slots module name = p at hat
  have hpos : 0 < slots.length := by omega
  have hp : p < slots.length := hat.lt (home_lt hpos module name)
  have hset := places_set hp (some ⟨module, name, i⟩)
  refine ⟨by simp, ?_, ?_, ?_⟩
  · intro r s hs
    rw [hset] at hs ⊢
    cases hold : places slots p with
    | none =>
      -- an empty place is filled: no other walk passed it
      by_cases hrp : r = p
      · subst hrp
        rw [update_self] at hs
        obtain rfl := Option.some.inj hs
        refine ⟨d, hat.place, ?_, ?_⟩
        · intro e he
          have hne : (home slots.length module name + e) % slots.length ≠ r := by
            intro heq
            apply hat.passed e he
            intro e' he'
            rw [heq, hold] at he'
            exact nomatch he'
          intro hst
          apply hat.passed e he
          intro e' he'
          apply hst e'
          rw [update_of_ne hne]
          exact he'
        · intro e he
          rw [update_self] at he
          obtain rfl := Option.some.inj he
          exact Slot.names_iff.mpr rfl
      · rw [update_of_ne hrp] at hs
        obtain ⟨d', hd'⟩ := hfound r s hs
        exact ⟨d', hd'.update hold (by rw [hs]; simp)⟩
    | some old =>
      -- the key was there: the place keeps its key
      have hkey : old.key = (module, name) := Slot.names_iff.mp (hat.stops old hold)
      have hkeys : ∀ j, (places slots j).map Slot.key
          = (update (places slots) p (some ⟨module, name, i⟩) j).map
              Slot.key := by
        intro j
        by_cases hjp : j = p
        · subst hjp
          rw [update_self, hold, Option.map_some, hkey]
          rfl
        · rw [update_of_ne hjp]
      by_cases hrp : r = p
      · subst hrp
        rw [update_self] at hs
        obtain rfl := Option.some.inj hs
        exact ⟨d, ProbeAt.congr_key hkeys hat⟩
      · rw [update_of_ne hrp] at hs
        obtain ⟨d', hd'⟩ := hfound r s hs
        exact ⟨d', ProbeAt.congr_key hkeys hd'⟩
  · intro r s hs
    rw [hset] at hs
    by_cases hrp : r = p
    · subst hrp
      rw [update_self] at hs
      obtain rfl := Option.some.inj hs
      exact Or.inr ⟨rfl, rfl⟩
    · rw [update_of_ne hrp] at hs
      exact Or.inl (hsound r s hs)
  · rintro j k (hjk | ⟨rfl, rfl⟩)
    · obtain ⟨r, s, hs, hsk⟩ := hcomplete j k hjk
      rw [hset]
      by_cases hrp : r = p
      · subst hrp
        refine ⟨r, ⟨module, name, i⟩, update_self .., ?_⟩
        have hkey := Slot.names_iff.mp (hat.stops s hs)
        rw [← hsk, hkey]
        rfl
      · exact ⟨r, s, by rw [update_of_ne hrp]; exact hs, hsk⟩
    · rw [hset]
      exact ⟨p, _, update_self .., rfl⟩

/-- A right map answers a lookup: the record it gives went in under the key,
    and a key that went in is found. -/
theorem SlotsOk.lookup {entered : Nat → Option CName × CName → Prop}
    (h : SlotsOk size entered slots) {q : Nat} (hq : q < size)
    (hempty : places slots q = none) (module : Option CName) (name : CName) :
    (∀ s, places slots (slotOf slots module name) = some s → entered s.record (module, name)) ∧
    (∀ i, entered i (module, name) → ∃ s, places slots (slotOf slots module name) = some s) := by
  obtain ⟨hlen, hfound, hsound, hcomplete⟩ := h
  subst hlen
  obtain ⟨d, hat⟩ := slotOf_spec hq hempty module name
  constructor
  · intro s hs
    have hkey : s.key = (module, name) := Slot.names_iff.mp (hat.stops s hs)
    exact hkey ▸ hsound _ s hs
  · intro i hi
    obtain ⟨r, s, hs, hsk⟩ := hcomplete i _ hi
    obtain ⟨d', hd'⟩ := hfound r s hs
    have hmod : s.module = module := congrArg Prod.fst hsk
    have hname : s.name = name := congrArg Prod.snd hsk
    rw [hmod, hname] at hd'
    exact ⟨s, (hat.unique hd') ▸ hs⟩

end AnticWhole
