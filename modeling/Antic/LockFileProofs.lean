import Antic.LockFile
import Antic.TomlRepeats
import Mathlib.Data.List.Perm.Subperm

/-! # What a lock file puts in the graph — `lock_read` of `deps.c`

    Every string is checked as it is read, and the strings of the entries of one name then
    stand one after the other in one package.

    * **`lockRead_eq`** — the graph gathers the entries by their names, or is empty.
    * **`lockRead_checked_iff`** — so the graph holds checked strings alone exactly where
      the entries of each name join to checked strings. -/

namespace AnticDeps

open AnticToml Records Bool

-- ── The loops over the numbers ────

/-- What stands at the numbers from `i`, up to the first that is not there. -/
def upTo {α : Type} (at_ : Nat → Option α) : (fuel i : Nat) → List α
  | 0, _ => []
  | fuel + 1, i =>
    match at_ i with
    | none => []
    | some a => a :: upTo at_ fuel (i + 1)

section Loops

variable {α β : Type} {at_ : Nat → Option α} {step : β → α → Except LockTrouble β}

theorem upTo_isSome {fuel i j : Nat} (h : j < (upTo at_ fuel i).length) :
    (at_ (i + j)).isSome = true := by
  induction fuel generalizing i j with
  | zero => cases h
  | succ fuel ih =>
    rw [upTo] at h
    cases ha : at_ i with
    | none =>
      rw [ha] at h
      cases h
    | some a =>
      rw [ha] at h
      cases j with
      | zero => rw [Nat.add_zero, ha, Option.isSome_some]
      | succ j =>
        have hnext := ih (Nat.lt_of_succ_lt_succ h)
        rwa [Nat.add_assoc, Nat.add_comm 1 j] at hnext

/-- A loop with turns to spare goes over what stands at the numbers. -/
theorem eachAt_eq {fuel i : Nat} {acc : β} (h : (upTo at_ fuel i).length < fuel) :
    eachAt at_ step fuel i acc = (upTo at_ fuel i).foldlM step acc := by
  induction fuel generalizing i acc with
  | zero => cases h
  | succ fuel ih =>
    rw [upTo] at h ⊢
    rw [eachAt]
    cases ha : at_ i with
    | none => rfl
    | some a =>
      rw [ha] at h
      have hlt := Nat.lt_of_succ_lt_succ h
      simp only [List.foldlM_cons]
      cases step acc a with
      | error e => rfl
      | ok b => exact ih hlt

theorem mem_keys_of_tomlFind {doc : Doc} {key : Text} (h : (tomlFind doc key).isSome = true) :
    key ∈ doc.keys := by
  rw [tomlFind, Option.isSome_map, List.find?_isSome] at h
  obtain ⟨p, hp, hkey⟩ := h
  rw [beq_iff_eq] at hkey
  exact hkey ▸ List.mem_map_of_mem hp

theorem numbered_inj {head tail : Text} {i j : Nat}
    (h : numbered head i ++ tail = numbered head j ++ tail) : i = j := by
  have hdigits : decimal i = decimal j := by
    simpa [numbered] using h
  rw [← decimal_value i, hdigits, decimal_value j]

/-- **The numbers of a document end**: each of them has a key of its own. -/
theorem upTo_length {doc : Doc} {head tail : Text}
    (h : ∀ j, (at_ j).isSome = true → (valueAt doc head j tail).isSome = true) :
    (upTo at_ (turnsOf doc) 0).length < turnsOf doc := by
  have hsub : (List.range (upTo at_ (turnsOf doc) 0).length).map (fun j => numbered head j ++ tail)
      ⊆ doc.keys := by
    intro key hkey
    obtain ⟨j, hj, rfl⟩ := List.mem_map.mp hkey
    have hat : (at_ j).isSome = true := by
      have hsome := upTo_isSome (List.mem_range.mp hj)
      rwa [Nat.zero_add] at hsome
    have hvalue := h j hat
    rw [valueAt, manifestValue, Option.isSome_map] at hvalue
    exact mem_keys_of_tomlFind hvalue
  have hnodup : ((List.range (upTo at_ (turnsOf doc) 0).length).map
      fun j => numbered head j ++ tail).Nodup :=
    List.nodup_range.map fun i j hij => numbered_inj hij
  have hle := (List.subperm_of_subset hnodup hsub).length_le
  rw [List.length_map, List.length_range, Doc.keys, List.length_map] at hle
  exact Nat.lt_succ_of_le hle

end Loops

/-- A turn adds what passes its check, and gives a reason for what does not. -/
structure Checks {α β : Type} (step : β → α → Except LockTrouble β) (valid : α → Bool)
    (put : β → α → β) : Prop where
  added : ∀ b a, valid a = true → step b a = .ok (put b a)
  refused : ∀ b a, valid a = false → ∃ e, e ≠ .endless ∧ step b a = .error e

theorem Checks.fold {α β : Type} {step : β → α → Except LockTrouble β} {valid : α → Bool}
    {put : β → α → β} (h : Checks step valid put) :
    Checks (fun b l => List.foldlM step b l) (fun l => l.all valid)
      (fun b l => List.foldl put b l) := by
  constructor
  · intro b l hl
    induction l generalizing b with
    | nil => rfl
    | cons a l ih =>
      rw [List.all_cons, and_eq_true] at hl
      rw [List.foldlM_cons, h.added b a hl.1]
      exact ih (put b a) hl.2
  · intro b l hl
    induction l generalizing b with
    | nil => cases hl
    | cons a l ih =>
      rw [List.all_cons, and_eq_false_iff] at hl
      rw [List.foldlM_cons]
      cases ha : valid a with
      | true =>
        rw [h.added b a ha]
        exact ih (put b a) (hl.resolve_left (by simp [ha]))
      | false =>
        obtain ⟨e, he, hstep⟩ := h.refused b a ha
        exact ⟨e, he, by rw [hstep]; rfl⟩

-- ── The entries of a document ────

/-- What the file says of one package. -/
structure LockEntry where
  head : LockHead
  modules : List (Text × Text)
  needs : List Text

def LockEntry.name (e : LockEntry) : Text := e.head.name

/-- The entry of a head. -/
def lockEntryOf (doc : Doc) (h : LockHead) : LockEntry where
  head := h
  modules := upTo (moduleAt doc h.index) (turnsOf doc) 0
  needs := upTo (needAt doc h.index) (turnsOf doc) 0

/-- The entries of a document. -/
def entriesOf (doc : Doc) : List LockEntry :=
  (upTo (headAt doc) (turnsOf doc) 0).map (lockEntryOf doc)

/-- The strings of a head follow their grammar. -/
def LockHead.valid (h : LockHead) : Bool :=
  nameValid h.name && versionValid h.version && !(h.repo.getD []).contains quoteByte

/-- The strings of an entry follow their grammar. -/
def LockEntry.valid (e : LockEntry) : Bool :=
  e.head.valid && (e.modules.all fun m => nameValid m.1 && digestValid m.2) && e.needs.all nameValid

/-- Append a digest to that of a module path. -/
def putDigest (modules : List Module) (m : Text × Text) : List Module :=
  putModule (fun n => { n with digest := n.digest ++ m.2 }) m.1 modules

/-- Append an entry to a package. -/
def LockEntry.into (p : Package) (e : LockEntry) : Package :=
  { p with
    version := p.version ++ e.head.version
    repo := p.repo ++ e.head.repo.getD []
    path := p.path ++ e.head.path.getD []
    modules := e.modules.foldl putDigest p.modules
    needs := e.needs.foldl packageNeed p.needs }

theorem lockModule_checks :
    Checks lockModule (fun m => nameValid m.1 && digestValid m.2) putDigest := by
  constructor
  · intro modules m hm
    rw [and_eq_true] at hm
    simp [lockModule, lockModuleValid, hm.1, hm.2, putDigest, bind, Except.bind, pure, Except.pure]
  · intro modules m hm
    cases hname : nameValid m.1 with
    | false =>
      exact ⟨.module_ m.1, by simp, by
        simp [lockModule, lockModuleValid, hname, bind, Except.bind]⟩
    | true =>
      have hdigest : digestValid m.2 = false := by simpa [hname] using hm
      exact ⟨.digest m.2, by simp, by
        simp [lockModule, lockModuleValid, hname, hdigest, bind, Except.bind]⟩

theorem lockNeed_checks : Checks lockNeed nameValid packageNeed := by
  constructor
  · intro needs need h
    simp [lockNeed, h]
  · intro needs need h
    exact ⟨.name need, by simp, by simp [lockNeed, h]⟩

theorem lockPackageValid_ok {h : LockHead} (hvalid : h.valid = true) :
    lockPackageValid h = .ok () := by
  rw [LockHead.valid, and_eq_true, and_eq_true] at hvalid
  obtain ⟨⟨hname, hversion⟩, hrepo⟩ := hvalid
  rw [lockPackageValid, if_neg (by simp [hname]), if_neg (by simp [hversion])]
  cases hr : h.repo with
  | none => rfl
  | some repo =>
    rw [hr] at hrepo
    exact if_neg (by simpa using hrepo)

theorem lockPackageValid_error {h : LockHead} (hvalid : h.valid = false) :
    ∃ e, e ≠ .endless ∧ lockPackageValid h = .error e := by
  rw [lockPackageValid]
  cases hname : nameValid h.name with
  | false => exact ⟨.name h.name, by simp, by simp⟩
  | true =>
    cases hversion : versionValid h.version with
    | false => exact ⟨.version h.version, by simp, by simp⟩
    | true =>
      have hrepo : ((h.repo.getD []).contains quoteByte) = true := by
        simpa [LockHead.valid, hname, hversion] using hvalid
      cases hr : h.repo with
      | none =>
        rw [hr] at hrepo
        cases hrepo
      | some repo =>
        rw [hr] at hrepo
        exact ⟨.repo repo, by simp, by simpa using hrepo⟩

theorem headAt_ends (doc : Doc) : (upTo (headAt doc) (turnsOf doc) 0).length < turnsOf doc := by
  have hname : ∀ j, (headAt doc j).isSome = true →
      (valueAt doc (bytesOf "package") j (bytesOf ".name")).isSome = true := by
    intro j hj
    rw [headAt] at hj
    cases hv : valueAt doc (bytesOf "package") j (bytesOf ".name") with
    | none => simp [hv] at hj
    | some v => rfl
  exact upTo_length hname

theorem moduleAt_ends (doc : Doc) (i : Nat) :
    (upTo (moduleAt doc i) (turnsOf doc) 0).length < turnsOf doc := by
  have hpath : ∀ j, (moduleAt doc i j).isSome = true →
      (valueAt doc (numbered (bytesOf "package") i ++ bytesOf ".modules") j
        (bytesOf ".path")).isSome = true := by
    intro j hj
    rw [moduleAt] at hj
    cases hv : valueAt doc (numbered (bytesOf "package") i ++ bytesOf ".modules") j
        (bytesOf ".path") with
    | none => simp [hv] at hj
    | some v => rfl
  exact upTo_length hpath

theorem needAt_ends (doc : Doc) (i : Nat) :
    (upTo (needAt doc i) (turnsOf doc) 0).length < turnsOf doc :=
  upTo_length fun _ h => h

/-- The package of a name as `graph_add` gives it. -/
def packageOf (graph : List Package) (name : Text) : Package :=
  (lookup Package.name name graph).getD (freshPackage name)

/-- A turn over the packages goes over what stands at the numbers. -/
theorem lockPackage_eq (doc : Doc) (graph : List Package) (h : LockHead) :
    lockPackage doc graph h = (do
      lockPackageValid h
      let modules ← (lockEntryOf doc h).modules.foldlM lockModule (packageOf graph h.name).modules
      let needs ← (lockEntryOf doc h).needs.foldlM lockNeed (packageOf graph h.name).needs
      return graphAdd (fun p => { p with
          version := p.version ++ h.version
          repo := p.repo ++ h.repo.getD []
          path := p.path ++ h.path.getD []
          modules, needs }) h.name graph) := by
  have hpackage : (graphPackage graph h.name).getD (freshPackage h.name) = packageOf graph h.name := by
    rw [graphPackage, packageOf, lookup]
    congr 2
    funext p
    exact beq_eq_decide_eq p.name h.name
  rw [lockPackage]
  simp only [hpackage, eachAt_eq (moduleAt_ends doc h.index), eachAt_eq (needAt_ends doc h.index)]
  rfl

/-- **A turn over the packages** appends the entry to the package of its name. -/
theorem lockPackage_checks (doc : Doc) :
    Checks (lockPackage doc) (fun h => (lockEntryOf doc h).valid) fun graph h =>
      upsert Package.name freshPackage (fun p => (lockEntryOf doc h).into p) h.name graph := by
  have hmodules := lockModule_checks.fold
  have hneeds := lockNeed_checks.fold
  constructor
  · intro graph h hvalid
    rw [LockEntry.valid, and_eq_true, and_eq_true] at hvalid
    obtain ⟨⟨hhead, hmods⟩, hnds⟩ := hvalid
    have hhead' : h.valid = true := hhead
    rw [lockPackage_eq, lockPackageValid_ok hhead', hmodules.added _ _ hmods, hneeds.added _ _ hnds]
    exact congrArg Except.ok (upsert_congr rfl)
  · intro graph h hvalid
    rw [LockEntry.valid, and_eq_false_iff, and_eq_false_iff] at hvalid
    rw [lockPackage_eq]
    cases hhead : h.valid with
    | false =>
      obtain ⟨e, he, herror⟩ := lockPackageValid_error hhead
      exact ⟨e, he, by rw [herror]; rfl⟩
    | true =>
      rw [lockPackageValid_ok hhead]
      have hhead' : (lockEntryOf doc h).head.valid = true := hhead
      rw [hhead'] at hvalid
      cases hmods : (lockEntryOf doc h).modules.all fun m => nameValid m.1 && digestValid m.2 with
      | false =>
        obtain ⟨e, he, herror⟩ := hmodules.refused (packageOf graph h.name).modules _ hmods
        exact ⟨e, he, by rw [herror]; rfl⟩
      | true =>
        rw [hmods] at hvalid
        have hnds : (lockEntryOf doc h).needs.all nameValid = false := by simpa using hvalid
        obtain ⟨e, he, herror⟩ := hneeds.refused (packageOf graph h.name).needs _ hnds
        refine ⟨e, he, ?_⟩
        rw [hmodules.added _ _ hmods, herror]
        rfl

/-- The packages that entries make. -/
def gathered (entries : List LockEntry) : List Package :=
  gather Package.name freshPackage LockEntry.name LockEntry.into entries []

/-- **The graph of a lock file** gathers its entries by their names, or it is empty where
    an entry fails a check. -/
theorem lockRead_eq {bytes : Text} {doc : Doc} (h : tomlRead bytes = .ok doc) :
    ((entriesOf doc).all LockEntry.valid = true →
      lockRead (some bytes) = { ok := true, graph := gathered (entriesOf doc), said := none }) ∧
    ((entriesOf doc).all LockEntry.valid = false → ∃ e, e ≠ .endless ∧
      lockRead (some bytes) = { ok := true, graph := [], said := some e }) := by
  have hall : (entriesOf doc).all LockEntry.valid
      = (upTo (headAt doc) (turnsOf doc) 0).all fun h => (lockEntryOf doc h).valid := by
    rw [entriesOf, List.all_map]
    rfl
  rw [hall, lockRead, h]
  simp only [eachAt_eq (headAt_ends doc)]
  constructor
  · intro hvalid
    rw [(lockPackage_checks doc).fold.added _ _ hvalid, gathered, entriesOf, gather, List.foldl_map]
    rfl
  · intro hvalid
    obtain ⟨e, he, herror⟩ := (lockPackage_checks doc).fold.refused [] _ hvalid
    exact ⟨e, he, by rw [herror]⟩

-- ── What entries of one name join to ────

theorem freshPackage_name (name : Text) : (freshPackage name).name = name := rfl

theorem into_name (p : Package) (e : LockEntry) : (e.into p).name = p.name := rfl

/-- Entries put in one after the other stand one after the other. -/
theorem foldl_into (es : List LockEntry) (p : Package) : es.foldl LockEntry.into p = { p with
      version := p.version ++ es.flatMap fun e => e.head.version
      repo := p.repo ++ es.flatMap fun e => e.head.repo.getD []
      path := p.path ++ es.flatMap fun e => e.head.path.getD []
      modules := (es.flatMap LockEntry.modules).foldl putDigest p.modules
      needs := (es.flatMap LockEntry.needs).foldl packageNeed p.needs } := by
  induction es generalizing p with
  | nil => simp
  | cons e es ih =>
    rw [List.foldl_cons, ih]
    simp [LockEntry.into]

theorem mem_of_foldl_packageNeed {names needs : List Text} {x : Text}
    (h : x ∈ names.foldl packageNeed needs) : x ∈ needs ∨ x ∈ names := by
  induction names generalizing needs with
  | nil => exact .inl h
  | cons name names ih =>
    rcases ih h with hx | hx
    · rw [packageNeed] at hx
      split at hx
      · exact .inl hx
      · rcases List.mem_append.mp hx with hx | hx
        · exact .inl hx
        · exact .inr (List.mem_singleton.mp hx ▸ List.mem_cons_self)
    · exact .inr (List.mem_cons_of_mem _ hx)

/-- A module that `package_module` makes. -/
def freshModule (path : Text) : Module := ⟨path, [], []⟩

theorem putModule_eq (f : Module → Module) (path : Text) (modules : List Module) :
    putModule f path modules = upsert Module.path freshModule f path modules := by
  induction modules with
  | nil => rfl
  | cons m modules ih =>
    rw [putModule, upsert, ih]
    simp only [beq_iff_eq]

/-- Append a digest. -/
def appendDigest (n : Module) (m : Text × Text) : Module := { n with digest := n.digest ++ m.2 }

theorem freshModule_path (path : Text) : (freshModule path).path = path := rfl

theorem appendDigest_path (n : Module) (m : Text × Text) : (appendDigest n m).path = n.path := rfl

theorem foldl_putDigest (ms : List (Text × Text)) :
    ms.foldl putDigest [] = gather Module.path freshModule Prod.fst appendDigest ms [] := by
  congr 1
  funext modules m
  exact putModule_eq _ m.1 modules

theorem foldl_appendDigest (ms : List (Text × Text)) (n : Module) :
    ms.foldl appendDigest n = { n with digest := n.digest ++ ms.flatMap Prod.snd } := by
  induction ms generalizing n with
  | nil => simp
  | cons m ms ih =>
    rw [List.foldl_cons, ih]
    simp [appendDigest]

theorem lookup_modules (ms : List (Text × Text)) (path : Text) :
    lookup Module.path path (ms.foldl putDigest []) =
      if ∃ m ∈ ms, m.1 = path then
        some ⟨path, (ms.filter fun m => m.1 = path).flatMap Prod.snd, []⟩
      else none := by
  rw [foldl_putDigest, lookup_gather appendDigest_path freshModule_path, foldl_appendDigest]
  rfl

theorem nodup_modules (ms : List (Text × Text)) :
    ((ms.foldl putDigest []).map Module.path).Nodup := by
  rw [foldl_putDigest]
  exact nodup_gather appendDigest_path freshModule_path ms List.nodup_nil

variable {ms : List (Text × Text)}

/-- The module of a path holds the digests of the path, one after the other. -/
theorem mem_modules {n : Module} : n ∈ ms.foldl putDigest [] ↔ (∃ m ∈ ms, m.1 = n.path) ∧
      n = ⟨n.path, (ms.filter fun m => m.1 = n.path).flatMap Prod.snd, []⟩ := by
  rw [mem_iff_lookup (nodup_modules ms), lookup_modules]
  split
  case isTrue h =>
    rw [Option.some.injEq]
    exact ⟨fun heq => ⟨h, heq.symm⟩, fun heq => heq.2.symm⟩
  case isFalse h => exact ⟨fun heq => (by cases heq), fun heq => absurd heq.1 h⟩

theorem digestValid_length {digest : Text} (h : digestValid digest = true) :
    digest.length = 64 := by
  rw [digestValid, and_eq_true, beq_iff_eq] at h
  exact h.1

theorem flatMap_length (h : ∀ m ∈ ms, digestValid m.2 = true) :
    (ms.flatMap Prod.snd).length = 64 * ms.length := by
  induction ms with
  | nil => rfl
  | cons m ms ih =>
    rw [List.flatMap_cons, List.length_append, ih fun x hx => h x (List.mem_cons_of_mem _ hx),
      digestValid_length (h m List.mem_cons_self), List.length_cons]
    omega

/-- **Digests of one path join to no digest**, unless the path stands alone. -/
theorem digests_valid_iff (h : ∀ m ∈ ms, digestValid m.2 = true) :
    (∀ n ∈ ms.foldl putDigest [], digestValid n.digest = true) ↔ (ms.map Prod.fst).Nodup := by
  have hcount : ∀ path, (ms.map Prod.fst).count path = (ms.filter fun m => m.1 = path).length := by
    intro path
    rw [List.count, List.countP_map, List.countP_eq_length_filter]
    congr 2
    funext m
    exact beq_eq_decide_eq m.1 path
  constructor
  · intro hvalid
    rw [List.nodup_iff_count_le_one]
    intro path
    rw [hcount]
    by_cases hpath : ∃ m ∈ ms, m.1 = path
    · let n : Module := ⟨path, (ms.filter fun m => m.1 = path).flatMap Prod.snd, []⟩
      have hmem : n ∈ ms.foldl putDigest [] := mem_modules.mpr ⟨hpath, rfl⟩
      have hlen : ((ms.filter fun m => m.1 = path).flatMap Prod.snd).length = 64 :=
        digestValid_length (hvalid n hmem)
      rw [flatMap_length fun m hm => h m (List.mem_filter.mp hm).1] at hlen
      omega
    · have hnil : (ms.filter fun m => m.1 = path) = [] := by
        rw [List.filter_eq_nil_iff]
        intro m hm heq
        exact hpath ⟨m, hm, by simpa using heq⟩
      rw [hnil]
      exact Nat.zero_le 1
  · intro hnodup n hn
    obtain ⟨⟨m, hm, hpath⟩, heq⟩ := mem_modules.mp hn
    have hle := List.nodup_iff_count_le_one.mp hnodup n.path
    rw [hcount] at hle
    have hmem : m ∈ ms.filter fun m => m.1 = n.path := List.mem_filter.mpr ⟨hm, by simpa using hpath⟩
    rw [heq]
    cases hone : ms.filter fun m => m.1 = n.path with
    | nil =>
      rw [hone] at hmem
      cases hmem
    | cons x rest =>
      rw [hone] at hle hmem
      have hrest : rest = [] := by
        rw [List.length_cons] at hle
        exact List.length_eq_zero_iff.mp (by omega)
      subst hrest
      have hx : m = x := List.mem_singleton.mp hmem
      subst hx
      change digestValid ([m].flatMap Prod.snd) = true
      rw [List.flatMap_singleton]
      exact h m hm

-- ── What the graph holds ────

/-- The strings of a package follow their grammar, and its repository URL is a value of
    the file where it has one. -/
structure CheckedPackage (values : List Text) (p : Package) : Prop where
  version : versionValid p.version = true
  distinct : (p.modules.map Module.path).Nodup
  paths : ∀ m ∈ p.modules, nameValid m.path = true
  digests : ∀ m ∈ p.modules, digestValid m.digest = true
  repo : p.repo = [] ∨ p.repo ∈ values
  needs : ∀ need ∈ p.needs, nameValid need = true

/-- The packages of a graph have distinct names and checked strings. -/
structure Checked (values : List Text) (graph : List Package) : Prop where
  distinct : (graph.map Package.name).Nodup
  packages : ∀ p ∈ graph, CheckedPackage values p

/-- The entries of one name join to a checked package. -/
structure Joins (values : List Text) (es : List LockEntry) : Prop where
  version : versionValid (es.flatMap fun e => e.head.version) = true
  repo : (es.flatMap fun e => e.head.repo.getD []) = [] ∨
    (es.flatMap fun e => e.head.repo.getD []) ∈ values
  modules : ((es.flatMap LockEntry.modules).map Prod.fst).Nodup

theorem LockEntry.valid_modules {e : LockEntry} (h : e.valid = true) :
    ∀ m ∈ e.modules, nameValid m.1 = true ∧ digestValid m.2 = true := by
  rw [LockEntry.valid, and_eq_true, and_eq_true] at h
  intro m hm
  simpa using List.all_eq_true.mp h.1.2 m hm

theorem LockEntry.valid_needs {e : LockEntry} (h : e.valid = true) :
    ∀ need ∈ e.needs, nameValid need = true := by
  rw [LockEntry.valid, and_eq_true] at h
  exact List.all_eq_true.mp h.2

theorem checkedPackage_iff {values : List Text} {es : List LockEntry} {name : Text}
    (h : ∀ e ∈ es, e.valid = true) :
    CheckedPackage values (es.foldl LockEntry.into (freshPackage name)) ↔ Joins values es := by
  rw [foldl_into]
  have hmodules : ∀ m ∈ es.flatMap LockEntry.modules,
      nameValid m.1 = true ∧ digestValid m.2 = true := by
    intro m hm
    obtain ⟨e, he, hme⟩ := List.mem_flatMap.mp hm
    exact LockEntry.valid_modules (h e he) m hme
  have hdigests := digests_valid_iff fun m hm => (hmodules m hm).2
  constructor
  · rintro ⟨hversion, -, -, hdigest, hrepo, -⟩
    exact ⟨hversion, hrepo, hdigests.mp hdigest⟩
  · rintro ⟨hversion, hrepo, hnodup⟩
    refine ⟨hversion, nodup_modules _, ?_, hdigests.mpr hnodup, hrepo, ?_⟩
    · intro n hn
      obtain ⟨⟨m, hm, hpath⟩, -⟩ := mem_modules.mp hn
      rw [← hpath]
      exact (hmodules m hm).1
    · intro need hneed
      rcases mem_of_foldl_packageNeed hneed with hneed | hneed
      · cases hneed
      · obtain ⟨e, he, hne⟩ := List.mem_flatMap.mp hneed
        exact LockEntry.valid_needs (h e he) need hne

/-- The entries of a name. -/
def named (entries : List LockEntry) (name : Text) : List LockEntry :=
  entries.filter fun e => e.name = name

theorem lookup_gathered (entries : List LockEntry) (name : Text) :
    lookup Package.name name (gathered entries) =
      if ∃ e ∈ entries, e.name = name then
        some ((named entries name).foldl LockEntry.into (freshPackage name))
      else none := by
  rw [gathered, lookup_gather into_name freshPackage_name]
  rfl

/-- A graph of checked entries is checked where the entries of each name join. -/
theorem gathered_checked_iff {values : List Text} {entries : List LockEntry}
    (h : ∀ e ∈ entries, e.valid = true) :
    Checked values (gathered entries) ↔ ∀ e ∈ entries, Joins values (named entries e.name) := by
  have hnodup : ((gathered entries).map Package.name).Nodup :=
    nodup_gather into_name freshPackage_name entries List.nodup_nil
  have hnamed : ∀ name, ∀ e ∈ named entries name, e.valid = true := by
    intro name e he
    exact h e (List.mem_filter.mp he).1
  constructor
  · intro hchecked e he
    have hlookup := lookup_gathered entries e.name
    rw [if_pos ⟨e, he, rfl⟩] at hlookup
    exact (checkedPackage_iff (hnamed e.name)).mp
      (hchecked.packages _ (List.mem_of_find?_eq_some hlookup))
  · intro hjoins
    refine ⟨hnodup, ?_⟩
    intro p hp
    have hlookup := (mem_iff_lookup hnodup).mp hp
    rw [lookup_gathered] at hlookup
    split at hlookup
    case isTrue hname =>
      obtain ⟨e, he, hname⟩ := hname
      rw [← Option.some.inj hlookup, checkedPackage_iff (hnamed p.name), ← hname]
      exact hjoins e he
    case isFalse => cases hlookup

/-- The values of a document, as C strings. -/
def valuesOf (doc : Doc) : List Text := doc.pairs.map fun p => cstr p.value

/-- The values of a lock file that is TOML. -/
def fileValues : Option Text → List Text
  | none => []
  | some bytes => ((tomlRead bytes).toOption.map valuesOf).getD []

theorem checked_nil (values : List Text) : Checked values [] := by
  refine ⟨List.nodup_nil, ?_⟩
  intro p hp
  cases hp

/-- **When the graph of a lock file is checked.**  For every content of the lock file, the
    graph that `lock_read` gives is empty or holds distinct packages of checked strings
    exactly where the file is no TOML, an entry of it fails a check, or the entries of each
    name join: their versions to a version, their repository URLs to none or a value of
    the file, and no module path is there twice. -/
theorem lockRead_checked_iff (bytes : Option Text) :
    Checked (fileValues bytes) (lockRead bytes).graph ↔
      ∀ text doc, bytes = some text → tomlRead text = .ok doc →
        (∀ e ∈ entriesOf doc, e.valid = true) →
        ∀ e ∈ entriesOf doc, Joins (valuesOf doc) (named (entriesOf doc) e.name) := by
  cases bytes with
  | none => exact ⟨fun _ text doc h => (by cases h), fun _ => checked_nil _⟩
  | some text =>
    cases hread : tomlRead text with
    | error e =>
      constructor
      · intro _ text' doc htext hdoc
        cases htext
        rw [hread] at hdoc
        cases hdoc
      · intro
        rw [lockRead, hread]
        exact checked_nil _
    | ok doc =>
      have hvalues : fileValues (some text) = valuesOf doc := by
        rw [fileValues, hread]
        rfl
      obtain ⟨hgood, hbad⟩ := lockRead_eq hread
      cases hall : (entriesOf doc).all LockEntry.valid with
      | true =>
        rw [hgood hall, hvalues]
        have hvalid := List.all_eq_true.mp hall
        constructor
        · intro hchecked text' doc' htext hdoc _
          cases htext
          cases hread.symm.trans hdoc
          exact (gathered_checked_iff hvalid).mp hchecked
        · intro hjoins
          exact (gathered_checked_iff hvalid).mpr (hjoins text doc rfl hread hvalid)
      | false =>
        obtain ⟨e, -, hempty⟩ := hbad hall
        rw [hempty]
        constructor
        · intro _ text' doc' htext hdoc hvalid
          cases htext
          cases hread.symm.trans hdoc
          rw [List.all_eq_true.mpr hvalid] at hall
          cases hall
        · intro
          exact checked_nil _

/-- A lock file that names one package twice. -/
def twicePackage : Text :=
  bytesOf "[[package]]\nname='a'\nversion='1.0.0'\n[[package]]\nname='a'\nversion='1.0.0'\n"

/-- The package of the two entries has the version `1.0.01.0.0`, which is none. -/
theorem twicePackage_unchecked :
    (lockRead (some twicePackage)).graph.map Package.version = [bytesOf "1.0.01.0.0"] ∧
    ¬ Checked (fileValues (some twicePackage)) (lockRead (some twicePackage)).graph := by
  have hversions : (lockRead (some twicePackage)).graph.map Package.version
      = [bytesOf "1.0.01.0.0"] := by decide +kernel
  refine ⟨hversions, ?_⟩
  intro h
  have hall : ∀ v ∈ (lockRead (some twicePackage)).graph.map Package.version,
      versionValid v = true := by
    intro v hv
    obtain ⟨p, hp, rfl⟩ := List.mem_map.mp hv
    exact (h.packages p hp).version
  rw [hversions] at hall
  exact absurd (hall _ List.mem_cons_self) (by decide)

end AnticDeps
