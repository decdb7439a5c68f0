import Antic.Deps
import Antic.Records
import Antic.Toml

/-! # The lock file — `lock_read` of `deps.c`

    The entries of a lock file are read by their numbers, `package.0`, `package.1` and so
    on, up to the first that is not there.  Each is checked as it is read and goes into
    the graph under its name.

    A value is a C string, so it ends at its first NUL. -/

namespace AnticDeps

open AnticToml

/-- Why a lock file is read as none. -/
inductive LockTrouble where
  /-- "%s is no TOML that anti reads" -/
  | toml
  /-- "%s names %s, which is no package name, so %s is not read" -/
  | name (what : Text)
  /-- "%s names %s, which is no version, so %s is not read" -/
  | version (what : Text)
  /-- "%s names %s, which is no repository URL, so %s is not read" -/
  | repo (what : Text)
  /-- "%s names %s, which is no module path, so %s is not read" -/
  | module_ (what : Text)
  /-- "%s names %s, which is no SHA-256 digest, so %s is not read" -/
  | digest (what : Text)
  /-- A loop runs out of fuel. -/
  | endless
deriving DecidableEq, Repr

/-- `manifest_value`. -/
def manifestValue (doc : Doc) (key : Text) : Option Text := (tomlFind doc key).map cstr

/-- `value_at`. -/
def valueAt (doc : Doc) (head : Text) (index : Nat) (tail : Text) : Option Text :=
  manifestValue doc (numbered head index ++ tail)

/-! ## The entries of the file -/

/-- What the file says of one package, beside its modules and its needs. -/
structure LockHead where
  index : Nat
  name : Text
  version : Text
  repo : Option Text
  path : Option Text
deriving DecidableEq, Repr

/-- The package of a number, where the file names it and its version. -/
def headAt (doc : Doc) (i : Nat) : Option LockHead := do
  let name ← valueAt doc (bytesOf "package") i (bytesOf ".name")
  let version ← valueAt doc (bytesOf "package") i (bytesOf ".version")
  return { index := i, name, version
           repo := valueAt doc (bytesOf "package") i (bytesOf ".repo")
           path := valueAt doc (bytesOf "package") i (bytesOf ".path") }

/-- The module of a number of a package, with its digest. -/
def moduleAt (doc : Doc) (i j : Nat) : Option (Text × Text) := do
  let head := numbered (bytesOf "package") i ++ bytesOf ".modules"
  let path ← valueAt doc head j (bytesOf ".path")
  let digest ← valueAt doc head j (bytesOf ".sha256")
  return (path, digest)

/-- The need of a number of a package. -/
def needAt (doc : Doc) (i j : Nat) : Option Text :=
  valueAt doc (numbered (bytesOf "package") i ++ bytesOf ".needs") j []

/-- A loop over the numbers from `i`, up to the first that is not there. -/
def eachAt {α β : Type} (at_ : Nat → Option α) (step : β → α → Except LockTrouble β) :
    (fuel i : Nat) → β → Except LockTrouble β
  | 0, _, _ => .error .endless
  | fuel + 1, i, acc =>
    match at_ i with
    | none => .ok acc
    | some a => do eachAt at_ step fuel (i + 1) (← step acc a)

/-- Turns for every number that a document can hold. -/
def turnsOf (doc : Doc) : Nat := doc.pairs.length + 1

/-! ## Reading the entries -/

/-- The byte `"`. -/
def quoteByte : UInt8 := 34

/-- `lock_package_valid`. -/
def lockPackageValid (h : LockHead) : Except LockTrouble Unit :=
  if !nameValid h.name then .error (.name h.name)
  else if !versionValid h.version then .error (.version h.version)
  else
    match h.repo with
    | some repo => if repo.contains quoteByte then .error (.repo repo) else .ok ()
    | none => .ok ()

/-- `lock_module_valid`. -/
def lockModuleValid (module_ digest : Text) : Except LockTrouble Unit :=
  if !nameValid module_ then .error (.module_ module_)
  else if !digestValid digest then .error (.digest digest)
  else .ok ()

/-- The turn of the loop over the modules: `text_append` to the digest of the path. -/
def lockModule (modules : List Module) (entry : Text × Text) :
    Except LockTrouble (List Module) := do
  lockModuleValid entry.1 entry.2
  return putModule (fun m => { m with digest := m.digest ++ entry.2 }) entry.1 modules

/-- The turn of the loop over the needs. -/
def lockNeed (needs : List Text) (need : Text) : Except LockTrouble (List Text) :=
  if !nameValid need then .error (.name need) else .ok (packageNeed needs need)

/-- A package that `graph_add` makes. -/
def freshPackage (name : Text) : Package := ⟨name, [], [], [], [], []⟩

/-- `graph_add`, and a change of the package it gives. -/
def graphAdd (f : Package → Package) (name : Text) (graph : List Package) : List Package :=
  Records.upsert Package.name freshPackage f name graph

/-- The turn of the loop over the packages. -/
def lockPackage (doc : Doc) (graph : List Package) (h : LockHead) :
    Except LockTrouble (List Package) := do
  lockPackageValid h
  let p := (graphPackage graph h.name).getD (freshPackage h.name)
  let modules ← eachAt (moduleAt doc h.index) lockModule (turnsOf doc) 0 p.modules
  let needs ← eachAt (needAt doc h.index) lockNeed (turnsOf doc) 0 p.needs
  return graphAdd (fun p => { p with
      version := p.version ++ h.version
      repo := p.repo ++ h.repo.getD []
      path := p.path ++ h.path.getD []
      modules, needs }) h.name graph

/-- What `lock_read` gives: whether the build goes on, the graph, and the message. -/
structure LockRead where
  ok : Bool
  graph : List Package
  said : Option LockTrouble

/-- `lock_read` of the bytes of the file, or of no file.  A string that fails its check
    frees the graph. -/
def lockRead : Option Text → LockRead
  | none => { ok := true, graph := [], said := none }
  | some bytes =>
    match tomlRead bytes with
    | .error _ => { ok := false, graph := [], said := some .toml }
    | .ok doc =>
      match eachAt (headAt doc) (lockPackage doc) (turnsOf doc) 0 [] with
      | .ok graph => { ok := true, graph, said := none }
      | .error e => { ok := true, graph := [], said := some e }

end AnticDeps
