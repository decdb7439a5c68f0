import Antic.PluginChecks
import Mathlib.Data.List.FinRange
import Mathlib.Logic.Function.Basic

/-! # The calls that load a library — `plugin.c`, `loaded.c`

    The platform, the files and the images are a `World`.  Each call is a function of the
    loaded slots, with no other thread between its steps.  The handles that a call opens
    and closes are kept in the order of the calls of the platform.  The tables with stubs
    of a slot stand in `PluginChecks`.  Memory that runs out ends the program. -/

namespace AnticPlugin

/-- `ANTI_PLUGIN_PATH`. -/
def pluginPath : Nat := 4096

/-- `ANTI_PLUGIN_MAX`. -/
def pluginMax : Nat := 16

/-- `ANTI_CLASS_ARGS`. -/
def classArgs : Nat := 1

/-- `ANTI_CLASS_REQUIRED`. -/
def classRequired : Nat := 2

/-! ## The tables of a library -/

/-- `struct anti_provides`, with what the calls read beside the checks. -/
structure ProvidesLine extends Provides where
  path : Text
  /-- The name of `class_of`. -/
  className : Text
  /-- The image that the table of `class_of` lies in. -/
  classImage : Nat
  flags : Nat

/-- `struct anti_provided`, at its address. -/
structure Provided where
  address : Nat
  entries : List ProvidesLine
  version : Text

/-! ## The state -/

/-- The reason of a failure, with what its text names. -/
inductive Reason where
  | pathTooLong
  | pathHoldsNul
  | usesModule (name module : Text)
  | notOpened (name why : Text)
  | noPlugin (name : Text)
  | damaged (name damage : Text)
  | otherRuntime (name built host : Text)
  | ownInterface (name path : Text)
  | refused (name path : Text) (why : Refusal)
  | allOpen
  | notOpen
  | noInterface (d : Address)
  | takesArguments (className : Text)
  | alive (live : Int)
  | noIndex (index : Text)
  | otherDigest (library index : Text)
  | bothProvide (one two path : Text)
  | nowhere (path : Text)
  | providesNo (library path : Text)

/-- `struct anti_plugin`. -/
structure Plugin where
  handle : Option Nat
  base : Option Nat
  table : Option Provided
  live : Int
  used : Int
  loads : Int

/-- A slot of zero bytes. -/
def Plugin.blank : Plugin := ⟨none, none, none, 0, 0, 0⟩

/-- The loaded slots, and what the calls have opened and closed. -/
structure State where
  slots : Fin pluginMax → Plugin
  openCount : Int
  message : Option Reason
  opened : List Nat
  closed : List Nat

/-- The state at the start of a program. -/
def State.start : State := ⟨fun _ => .blank, 0, none, [], []⟩

def State.set (s : State) (i : Fin pluginMax) (p : Plugin) : State :=
  { s with slots := Function.update s.slots i p }

/-- `fail`. -/
def State.fail (s : State) (r : Reason) : State := { s with message := some r }

/-- The call of `anti_rt_library_close`. -/
def State.close (s : State) (handle : Nat) : State := { s with closed := s.closed ++ [handle] }

/-! ## The world -/

/-- An entry of an index: `path`, `digest`, `runtime`, and the interfaces. -/
structure Listed where
  path : Text
  digest : Text
  runtime : Text
  interfaces : List Text

/-- What stands at the path of an index. -/
inductive Index where
  | absent
  | broken
  | libraries (entries : List Listed)

/-- The program, the platform and the files. -/
structure World where
  /-- `anti_rt_slots`. -/
  slots : AntiSlotTable
  /-- `anti_rt_runtime_version`. -/
  version : Text
  /-- `anti_rt_library_open`, with `anti_rt_library_error` where it fails. -/
  openLibrary : Text → Except Text Nat
  /-- `missing_module`. -/
  missingModule : Text → Text → Option Text
  /-- The symbol `anti_rt_provides` of a handle. -/
  provides : Nat → Option Provided
  /-- `damage_of`. -/
  damage : Provided → Option Text
  /-- `anti_rt_plugin_image` of a descriptor. -/
  image : Address → Nat
  /-- `anti_rt_plugin_image` of a table. -/
  tableImage : Provided → Nat
  index : Text → Index
  /-- `digest_file`. -/
  digest : Text → Option Text
  /-- `anti_rt_path_list_separator`. -/
  separator : UInt8

/-! ## Load -/

/-- `path_of`. -/
def pathOf (path : Text) : Except Reason Text :=
  if path.length + 1 > pluginPath then .error .pathTooLong
  else if 0 ∈ path then .error .pathHoldsNul
  else .ok path

/-- `matches_host`. -/
def matchesHost (w : World) (name : Text) (base : Nat) : List ProvidesLine → Except Reason Unit
  | [] => .ok ()
  | e :: rest =>
    match e.descriptor with
    | none => .error (.ownInterface name e.path)
    | some d =>
      if w.image d.address = base then .error (.ownInterface name e.path)
      else
        match checked w.slots e.toProvides with
        | .error r => .error (.refused name e.path r)
        | .ok () => matchesHost w name base rest

/-- The checks of `anti_rt_plugin_load` between the open and the lock. -/
def accepts (w : World) (name : Text) (handle : Nat) : Except Reason Provided :=
  match w.provides handle with
  | none => .error (.noPlugin name)
  | some table =>
    match w.damage table with
    | some damage => .error (.damaged name damage)
    | none =>
      if table.version ≠ w.version then .error (.otherRuntime name table.version w.version)
      else
        match matchesHost w name (w.tableImage table) table.entries with
        | .error r => .error r
        | .ok () => .ok table

/-- The slot of `claim` that holds the table already. -/
def openSlot (s : State) (table : Provided) : Option (Fin pluginMax) :=
  (List.finRange pluginMax).find? fun i =>
    (s.slots i).used ≠ 0 && (s.slots i).table.map Provided.address = some table.address

/-- The free slot of `claim`. -/
def freeSlot (s : State) : Option (Fin pluginMax) :=
  (List.finRange pluginMax).find? fun i => (s.slots i).used = 0

/-- `claim`: the slot, and whether the library is open already. -/
def claim (s : State) (handle : Nat) (table : Provided) (base : Nat) :
    Option (Fin pluginMax) × Bool × State :=
  match openSlot s table with
  | some i => (some i, true, s.set i { s.slots i with loads := (s.slots i).loads + 1 })
  | none =>
    match freeSlot s with
    | none => (none, false, s.fail .allOpen)
    | some i =>
      let s := s.set i ⟨some handle, some base, some table, 0, 1, 1⟩
      (some i, false, { s with openCount := s.openCount + 1 })

/-- `anti_rt_plugin_load`: the slot as the handle of the load. -/
def pluginLoad (w : World) (s : State) (path : Text) : Option Nat × State :=
  let s := { s with message := none }
  match pathOf path with
  | .error r => (none, s.fail r)
  | .ok name =>
    match w.openLibrary name with
    | .error why =>
      match w.missingModule name why with
      | some module => (none, s.fail (.usesModule name module))
      | none => (none, s.fail (.notOpened name why))
    | .ok handle =>
      let s := { s with opened := s.opened ++ [handle] }
      match accepts w name handle with
      | .error r => (none, (s.fail r).close handle)
      | .ok table =>
        match claim s handle table (w.tableImage table) with
        | (some i, false, s) => (some i, s)
        | (p, _, s) => (p.map Fin.val, s.close handle)

/-! ## Objects -/

/-- `slot_of`.  A handle that is no slot stands past the last one. -/
def slotOf (s : State) (handle : Nat) : Option (Fin pluginMax) :=
  (List.finRange pluginMax).find? fun i => i.val = handle && (s.slots i).used ≠ 0

/-- `entry_of`. -/
def entryOf (p : Plugin) (d : Option Address) (path : Text) : Option ProvidesLine :=
  match p.table with
  | none => none
  | some table =>
    table.entries.find? fun e =>
      match d with
      | some d => e.descriptor.map Descriptor.address = some d
      | none => e.path = path

/-- The atomic add to `live` of a slot. -/
def State.addLive (s : State) (i : Fin pluginMax) (delta : Int) : State :=
  s.set i { s.slots i with live := (s.slots i).live + delta }

/-- `count`, which the hooks of an object call. -/
def count (s : State) (base : Nat) (delta : Int) : State :=
  if s.openCount = 0 then s
  else
    match (List.finRange pluginMax).find? fun i =>
        (s.slots i).used ≠ 0 && (s.slots i).base = some base with
    | none => s
    | some i => s.addLive i delta

/-- `reserve`: the slot and the entry. -/
def reserve (s : State) (handle : Nat) (d : Option Address) (path : Text) :
    Option (Fin pluginMax) × Option ProvidesLine × State :=
  match slotOf s handle with
  | none => (none, none, s.fail .notOpen)
  | some i =>
    match entryOf (s.slots i) d path with
    | none => (some i, none, s)
    | some e => (some i, some e, s.addLive i 1)

/-- Whether the class of an entry takes arguments, which the host has none of. -/
def takesArguments (e : ProvidesLine) : Bool := e.flags &&& (classArgs ||| classRequired) ≠ 0

/-- `build`: an object of the class of the entry, whose `created` hook counts it. -/
def build (s : State) (e : ProvidesLine) : Option ProvidesLine × State :=
  if takesArguments e then (none, s.fail (.takesArguments e.className))
  else (some e, count s e.classImage 1)

/-- `built`. -/
def built (s : State) (i : Fin pluginMax) (e : ProvidesLine) : Option ProvidesLine × State :=
  let (object, s) := build s e
  (object, s.addLive i (-1))

/-- `anti_rt_plugin_instance`. -/
def pluginInstance (s : State) (handle : Nat) (d : Address) : Option ProvidesLine × State :=
  let s := { s with message := none }
  match reserve s handle (some d) [] with
  | (none, _, s) => (none, s.fail .notOpen)
  | (some _, none, s) => (none, s.fail (.noInterface d))
  | (some i, some e, s) => built s i e

/-- `anti_rt_plugin_unload`. -/
def pluginUnload (s : State) (handle : Nat) : Bool × State :=
  let s := { s with message := none }
  match slotOf s handle with
  | none => (false, s.fail .notOpen)
  | some i =>
    let p := s.slots i
    if p.live ≠ 0 then (false, s.fail (.alive p.live))
    else if p.loads > 1 then (true, s.set i { p with loads := p.loads - 1 })
    else
      let s := s.set i .blank
      let s := { s with openCount := s.openCount - 1 }
      (true, match p.handle with
        | some handle => s.close handle
        | none => s)

/-! ## Discovery -/

/-- `joined`. -/
def joined (dir name : Text) : Option Text :=
  let path := dir ++ (if dir.length > 0 then [47] else []) ++ name
  if 0 < path.length ∧ path.length < pluginPath then some path else none

/-- `ANTI_PLUGIN_INDEX`, `anti-plugins.toml`. -/
def pluginIndex : Text :=
  [97, 110, 116, 105, 45, 112, 108, 117, 103, 105, 110, 115, 46, 116, 111, 109, 108]

/-- The loop of `discover_in` over the entries of an index. -/
def discoverEntries (w : World) (dir index path : Text) :
    List Listed → (found : Option Text) → Except Reason (Option Text)
  | [], found => .ok found
  | e :: rest, found =>
    if e.path.length = 0 ∨ e.path.length ≥ pluginPath ∨ e.runtime.length ≥ pluginPath ∨
        path ∉ e.interfaces then
      discoverEntries w dir index path rest found
    else if e.runtime ≠ w.version then discoverEntries w dir index path rest found
    else
      match pathOf e.path with
      | .error _ => discoverEntries w dir index path rest found
      | .ok file =>
        match joined dir file with
        | none => discoverEntries w dir index path rest found
        | some library =>
          if w.digest library ≠ some e.digest then .error (.otherDigest library index)
          else
            match found with
            | some out => .error (.bothProvide out library path)
            | none => discoverEntries w dir index path rest (some library)

/-- `discover_in`. -/
def discoverIn (w : World) (dir path : Text) : Except Reason (Option Text) :=
  match joined dir pluginIndex with
  | none => .ok none
  | some index =>
    match w.index index with
    | .absent => .ok none
    | .broken => .error (.noIndex index)
    | .libraries entries => discoverEntries w dir index path entries none

/-- The loop of `discover` over the directories. -/
def discoverDirs (w : World) (path : Text) : List Text → Except Reason (Option Text)
  | [] => .ok none
  | dir :: rest =>
    match discoverIn w (if dir.length > 0 then dir else [46]) path with
    | .error r => .error r
    | .ok (some library) => .ok (some library)
    | .ok none => discoverDirs w path rest

/-- `discover`. -/
def discover (w : World) (dirs path : Text) : Except Reason (Option Text) :=
  if dirs = [] then .ok none else discoverDirs w path (dirs.splitOn w.separator)

/-! ## A provider -/

/-- The library of `anti_rt_plugin_provider`: the one it is given, or what it discovers. -/
def chosen (w : World) (path library dirs : Text) : Except Reason Text :=
  if library.length ≠ 0 then .ok library
  else
    match discover w dirs path with
    | .error r => .error r
    | .ok none => .error (.nowhere path)
    | .ok (some found) => .ok found

/-- `anti_rt_plugin_provider` after its load. -/
def afterLoad (s : State) (handle : Nat) (path library : Text) : Option ProvidesLine × State :=
  match reserve s handle none path with
  | (none, _, s) => (none, s)
  | (some _, none, s) => (none, (pluginUnload s handle).2.fail (.providesNo library path))
  | (some i, some e, s) => built s i e

/-- `anti_rt_plugin_provider`. -/
def pluginProvider (w : World) (s : State) (path library dirs : Text) :
    Option ProvidesLine × State :=
  let s := { s with message := none }
  match chosen w path library dirs with
  | .error r => (none, s.fail r)
  | .ok library =>
    match pluginLoad w s library with
    | (none, s) => (none, s)
    | (some handle, s) => afterLoad s handle path library

end AnticPlugin
