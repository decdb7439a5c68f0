import Antic.Versions

/-! # The walk that closes the dependency graph — `deps.c`

    The indexes of the repositories, the library files of the path projects and their manifests do
    not change while the walk runs; `World` holds them.  The resolver is the list of requirements
    and the picks, in the order of the program's arrays. -/

namespace AnticDeps

/-! ## What the walk reads -/

/-- `struct manifest_repository`. -/
structure Repository where
  alias_ : Text
  url : Text

/-- `struct manifest_dependency`. -/
structure ManifestDependency where
  name : Text
  version : Text
  repo : Text
  path : Text

/-- `manifest_repository_url`. -/
def repositoryUrl (repositories : List Repository) (alias_ : Text) : Option Text :=
  (repositories.find? fun r => r.alias_ == alias_).map Repository.url

/-- `struct manifest`, as `manifest_read` leaves it: it refuses a dependency that is
    no package name or names an unknown repository, and keeps one entry for a name. -/
structure Manifest where
  repositories : List Repository
  dependencies : List ManifestDependency
  names : ∀ d ∈ dependencies, nameValid d.name = true
  distinct : (dependencies.map ManifestDependency.name).Nodup
  known : ∀ d ∈ dependencies, d.repo ≠ [] → (repositoryUrl repositories d.repo).isSome = true

/-- A dependency of a version of an index. -/
structure IndexDependency where
  name : Text
  constraint : Option Text
  repo : Option Text

/-- A version of an index, with the path and the digest of each module. -/
structure IndexVersion where
  version : Text
  yanked : Option Text
  modules : List (Text × Text)
  dependencies : List IndexDependency

/-- What `repo_index` gives.  A file that cannot be read or is no TOML has no versions. -/
inductive RepoAnswer where
  | held (versions : Option (List IndexVersion))
  | absent
  | failed

/-- The header of a library file. -/
structure Header where
  name : Text
  version : Text
  module_ : Text
  dependencies : List IndexDependency

/-- A library file of a directory, with the header and the digest where it can be read. -/
structure LibraryFile where
  file : Text
  header : Option Header
  digest : Option Text

/-- What stands under the directory of a path dependency in place of a manifest. -/
inductive ProjectManifest where
  | absent
  | refused
  | read (m : Manifest)

/-- What the walk reads.  `repo.c` refuses a URL without a scheme, so the empty one
    gives no answer. -/
structure World where
  index : (url name : Text) → RepoAnswer
  unnamed : ∀ name, index [] name = .failed
  pathOf : Text → Option Text
  files : Text → Option (List LibraryFile)
  project : Text → ProjectManifest
  root : Text

/-- The authority of a URL is the loopback, with a port of digits or none. -/
def isLoopback (rest : Text) : Bool :=
  let authority := rest.takeWhile fun c => c != 47 && c != 63 && c != 35
  if authority.contains 64 then false
  else
    [bytesOf "127.0.0.1", bytesOf "localhost", bytesOf "[::1]"].any fun name =>
      name.isPrefixOf authority &&
        match authority.drop name.length with
        | [] => true
        | c :: port => c == 58 && port.all isDigit

/-- `repo_url_allowed`. -/
def urlAllowed (url : Text) : Bool :=
  if (bytesOf "https://").isPrefixOf url || (bytesOf "file://").isPrefixOf url then true
  else if (bytesOf "http://").isPrefixOf url then isLoopback (url.drop 7)
  else false

/-! ## Requirements and picks -/

/-- `struct requirement`. -/
structure Requirement where
  name : Text
  constraint : Text
  repo : Text
  path : Text
  /-- `from`: the package whose pick needs it, empty for the manifest. -/
  origin : Text

/-- `struct dep_module`. -/
structure Module where
  path : Text
  digest : Text
  file : Text

/-- `struct dep_package`. -/
structure Package where
  name : Text
  version : Text
  repo : Text
  path : Text
  modules : List Module
  needs : List Text

/-- The parts of `struct resolver` that the walk changes. -/
structure Resolver where
  requirements : List Requirement
  graph : List Package

/-- Why the walk fails. -/
inductive Trouble where
  /-- "%s names the version %s of %s, which is no version" -/
  | version (version name : Text)
  /-- "%s names the module %s, which is no module path" -/
  | module_ (path : Text)
  /-- "%s names the digest %s of %s, which is no SHA-256 digest" -/
  | digest (digest path : Text)
  /-- "%s names no module of %s %s" -/
  | noModule (name version : Text)
  /-- "%s names the dependency %s, which is no package name" -/
  | dependency (name : Text)
  /-- "%s names the version %s of %s, which is no constraint" -/
  | constraint (constraint name : Text)
  /-- `repo_url_allowed` says why. -/
  | url (url : Text)
  /-- `repo_index` says why, or the file is no index. -/
  | index (url name : Text)
  /-- "%s has no version of %s that satisfies every constraint on it" -/
  | noVersion (url name : Text)
  /-- "%s and %s both hold %s, so the dependency names which one" -/
  | both (first second name : Text)
  /-- "no repository of the manifest has a version of %s that satisfies every constraint on it" -/
  | nowhere (name : Text)
  /-- The directory of a path dependency gives no library files. -/
  | directory (path : Text)
  /-- The header of a library file is not read. -/
  | header (file : Text)
  /-- The manifest of a path project is not read. -/
  | project (path : Text)
  /-- "cannot read %s" -/
  | unread (file : Text)
  /-- "%s and %s both hold the module %s" -/
  | bothHold (first second path : Text)
  /-- "%s holds no library file of the package %s" -/
  | noLibrary (directory name : Text)
  /-- "%s holds %s %s, which no constraint on the package takes" -/
  | notTaken (directory name version : Text)
  /-- A loop runs out of fuel. -/
  | endless

/-- `graph_package`. -/
def graphPackage (graph : List Package) (name : Text) : Option Package :=
  graph.find? fun p => p.name == name

/-- `require`. -/
def require (requirements : List Requirement) (r : Requirement) : List Requirement :=
  if requirements.any fun q =>
      q.name == r.name && q.constraint == r.constraint && q.origin == r.origin then requirements
  else requirements ++ [r]

/-- `satisfies_all`. -/
def satisfiesAll (requirements : List Requirement) (name version : Text) : Bool :=
  requirements.all fun q => !(q.name == name) || satisfies q.constraint version

/-! ## Taking a pick back -/

/-- The worklist of `unpick`, its top first. -/
def unpickLoop : Nat → List Text → Resolver → Option Resolver
  | _, [], r => some r
  | 0, _ :: _, _ => none
  | fuel + 1, gone :: work, r =>
    let graph := r.graph.filter fun p => p.name != gone
    let dropped := r.requirements.filter fun q => q.origin == gone
    let pushed := (dropped.map Requirement.name).filter fun name => (graphPackage graph name).isSome
    unpickLoop fuel (pushed.reverse ++ work)
      ⟨r.requirements.filter fun q => q.origin != gone, graph⟩

/-- `unpick`. -/
def unpick (r : Resolver) (name : Text) : Option Resolver :=
  unpickLoop (r.requirements.length + 1) [name] r

/-! ## Reading an index -/

/-- `yanked` says that the version is no answer. -/
def IndexVersion.isYanked (v : IndexVersion) : Bool := v.yanked == some (bytesOf "true")

/-- `best_version`, with the best so far. -/
def bestVersion (requirements : List Requirement) (name : Text) :
    List IndexVersion → Option IndexVersion → Except Trouble (Option IndexVersion)
  | [], best => .ok best
  | v :: versions, best =>
    if !versionValid v.version then .error (.version v.version name)
    else if v.isYanked || !satisfiesAll requirements name v.version then
      bestVersion requirements name versions best
    else
      match best with
      | none => bestVersion requirements name versions (some v)
      | some b =>
        if 0 < versionCompare v.version b.version then
          bestVersion requirements name versions (some v)
        else bestVersion requirements name versions (some b)

/-- `package_module`: the module of the path, changed by `f`, or a new one. -/
def putModule (f : Module → Module) (path : Text) : List Module → List Module
  | [] => [f ⟨path, [], []⟩]
  | m :: modules => if m.path == path then f m :: modules else m :: putModule f path modules

/-- `index_modules`. -/
def indexModules : List (Text × Text) → List Module → Except Trouble (List Module)
  | [], modules => .ok modules
  | (path, digest) :: rest, modules =>
    if !nameValid path then .error (.module_ path)
    else if !digestValid digest then .error (.digest digest path)
    else indexModules rest (putModule (fun m => { m with digest := digest }) path modules)

/-- The requirement that a dependency makes. -/
def IndexDependency.requirement (d : IndexDependency) (origin : Text) : Requirement :=
  ⟨d.name, d.constraint.getD [], d.repo.getD [], [], origin⟩

/-- `index_dependencies`. -/
def indexDependencies (origin : Text) :
    List IndexDependency → List Requirement → Except Trouble (List Requirement)
  | [], requirements => .ok requirements
  | d :: rest, requirements =>
    if !nameValid d.name then .error (.dependency d.name)
    else if d.constraint.any fun c => !constraintValid c then
      .error (.constraint (d.constraint.getD []) d.name)
    else if d.repo.any fun u => !urlAllowed u then .error (.url (d.repo.getD []))
    else indexDependencies origin rest (require requirements (d.requirement origin))

/-- `repo_index`, which takes package names alone. -/
def repoIndex (w : World) (url name : Text) : RepoAnswer :=
  if nameValid name then w.index url name else .failed

/-- `resolve_from_index`: the package and the requirements with its own, or none. -/
def resolveFromIndex (w : World) (requirements : List Requirement) (name url : Text) :
    Except Trouble (Option (Package × List Requirement)) :=
  match repoIndex w url name with
  | .failed | .held none => .error (.index url name)
  | .absent => .ok none
  | .held (some versions) => do
      match ← bestVersion requirements name versions none with
      | none => pure none
      | some best => do
          let modules ← indexModules best.modules []
          if modules.isEmpty then throw (.noModule name best.version)
          else do
            let requirements ← indexDependencies name best.dependencies requirements
            pure (some (⟨name, best.version, url, [], modules, []⟩, requirements))

/-- The search of `resolve_from_repo` over the repositories of the manifest. -/
def searchRepositories (w : World) (name : Text) :
    List Repository → List Requirement → Option Package →
    Except Trouble (Option Package × List Requirement)
  | [], requirements, winner => .ok (winner, requirements)
  | repository :: rest, requirements, winner => do
      match ← resolveFromIndex w requirements name repository.url with
      | none => searchRepositories w name rest requirements winner
      | some (one, requirements) =>
        match winner with
        | some p => throw (.both p.repo repository.url name)
        | none => searchRepositories w name rest requirements (some one)

/-- `resolve_from_repo`. -/
def resolveFromRepo (w : World) (m : Manifest) (requirements : List Requirement)
    (source : Requirement) : Except Trouble (Package × List Requirement) := do
  if source.repo.isEmpty then
    match ← searchRepositories w source.name m.repositories requirements none with
    | (none, _) => throw (.nowhere source.name)
    | (some p, requirements) => pure (p, requirements)
  else
    match ← resolveFromIndex w requirements source.name source.repo with
    | none => throw (.noVersion source.repo source.name)
    | some found => pure found

/-! ## Reading a path project -/

/-- A path that starts at a root. -/
def isAbsolute : Text → Bool
  | c :: rest => c == 47 || rest.head? == some 58
  | [] => false

/-- `resolve_path`. -/
def resolvePath (root path : Text) : Text :=
  if isAbsolute path then path else root ++ 47 :: path

/-- The requirements of `require_project_paths`. -/
def projectRequirements (source : Requirement) (m : Manifest) : List Requirement :=
  (m.dependencies.filter fun d => !d.path.isEmpty).map fun d =>
    ⟨d.name, d.version, [],
      if isAbsolute d.path then d.path else source.path ++ 47 :: d.path, source.name⟩

/-- `require_project_paths`. -/
def requireProjectPaths (w : World) (source : Requirement) (given : Text)
    (requirements : List Requirement) : Except Trouble (List Requirement) :=
  match w.project given with
  | .absent => .ok requirements
  | .refused => .error (.project given)
  | .read m => .ok ((projectRequirements source m).foldl require requirements)

/-- The loop of `resolve_from_path` over the library files.  The package is there once
    a file of it was found. -/
def readFiles (w : World) (source : Requirement) (given directory : Text) :
    List LibraryFile → Option Package → List Requirement →
    Except Trouble (Option Package × List Requirement)
  | [], found, requirements => .ok (found, requirements)
  | f :: files, found, requirements =>
    match f.header with
    | none => .error (.header f.file)
    | some header =>
      if header.name == source.name then do
        let (p, requirements) ←
          match found with
          | some p => pure (p, requirements)
          | none => do
              -- the first file gives the version and the dependencies
              let requirements ← requireProjectPaths w source given
                ((header.dependencies.map (·.requirement source.name)).foldl require requirements)
              pure (⟨source.name, header.version, [], directory, [], []⟩, requirements)
        match f.digest with
        | none => throw (.unread f.file)
        | some digest =>
          match p.modules.find? fun m => m.path == header.module_ && !m.file.isEmpty with
          | some m => throw (.bothHold m.file f.file header.module_)
          | none =>
            let modules := putModule (fun m => { m with digest := digest, file := f.file })
              header.module_ p.modules
            readFiles w source given directory files (some { p with modules := modules })
              requirements
      else readFiles w source given directory files found requirements

/-- `resolve_from_path`. -/
def resolveFromPath (w : World) (requirements : List Requirement) (source : Requirement) :
    Except Trouble (Package × List Requirement) := do
  let given := resolvePath w.root source.path
  match w.pathOf given with
  | none => throw (.directory given)
  | some directory =>
    match w.files directory with
    | none => throw (.directory directory)
    | some files => do
        match ← readFiles w source given directory files none requirements with
        | (none, _) => throw (.noLibrary directory source.name)
        | (some p, requirements) =>
          if satisfiesAll requirements source.name p.version then pure (p, requirements)
          else throw (.notTaken directory source.name p.version)

/-! ## The walk -/

/-- `source_of`: the first requirement of the name that names a source, or the first one. -/
def sourceOf (requirements : List Requirement) (name : Text) : Option Requirement :=
  (requirements.find? fun q => q.name == name && (!q.path.isEmpty || !q.repo.isEmpty)).or
    (requirements.find? fun q => q.name == name)

/-- A new pick of a package that has none. -/
def pick (w : World) (m : Manifest) (r : Resolver) (source : Requirement) :
    Except Trouble Resolver := do
  let (p, requirements) ←
    if source.path.isEmpty then resolveFromRepo w m r.requirements source
    else resolveFromPath w r.requirements source
  pure ⟨requirements, r.graph ++ [p]⟩

/-- One turn of `walk_round`, with whether the round has changed anything. -/
def walkName (w : World) (m : Manifest) (name : Text) (r : Resolver) (changed : Bool) :
    Except Trouble (Resolver × Bool) :=
  match graphPackage r.graph name with
  | some p =>
    if satisfiesAll r.requirements name p.version then .ok (r, changed)
    else
      match sourceOf r.requirements name with
      | none => .ok (r, changed)
      | some source =>
        match unpick r name with
        | none => .error .endless
        | some r => (pick w m r { source with name := name }).map fun r => (r, true)
  | none =>
    match sourceOf r.requirements name with
    | none => .ok (r, changed)
    | some source => (pick w m r { source with name := name }).map fun r => (r, true)

/-- The names of the requirements, each once. -/
def namesOf : List Requirement → List Text → List Text
  | [], names => names
  | q :: requirements, names =>
    namesOf requirements (if names.contains q.name then names else names ++ [q.name])

/-- The turns of `walk_round`. -/
def walkNames (w : World) (m : Manifest) : List Text → Resolver → Bool →
    Except Trouble (Resolver × Bool)
  | [], r, changed => .ok (r, changed)
  | name :: names, r, changed =>
    match walkName w m name r changed with
    | .error e => .error e
    | .ok (r, changed) => walkNames w m names r changed

/-- `walk_round`. -/
def walkRound (w : World) (m : Manifest) (r : Resolver) : Except Trouble (Resolver × Bool) :=
  walkNames w m (namesOf r.requirements []) r false

/-- The requirement that a dependency of the manifest makes. -/
def ManifestDependency.requirement (m : Manifest) (d : ManifestDependency) : Requirement :=
  ⟨d.name, d.version,
    if d.repo.isEmpty then [] else (repositoryUrl m.repositories d.repo).getD [], d.path, []⟩

/-- The resolver before the first round. -/
def startWalk (m : Manifest) : Resolver :=
  ⟨(m.dependencies.map (·.requirement m)).foldl require [], []⟩

/-- The rounds of `deps_resolve`: the settled resolver, or none after the last round. -/
def walkRounds (w : World) (m : Manifest) : Nat → Resolver → Except Trouble (Option Resolver)
  | 0, _ => .ok none
  | rounds + 1, r =>
    match walkRound w m r with
    | .error e => .error e
    | .ok (r, true) => walkRounds w m rounds r
    | .ok (r, false) => .ok (some r)

/-- `DEPS_ROUNDS`. -/
def depsRounds : Nat := 64

/-! ## The lock of a settled walk -/

/-- `package_need`. -/
def packageNeed (needs : List Text) (need : Text) : List Text :=
  if needs.contains need then needs else needs ++ [need]

/-- `record_needs`. -/
def recordNeeds (r : Resolver) : List Package :=
  r.graph.map fun p => { p with
    needs := ((r.requirements.filter fun q => q.origin == p.name).map Requirement.name).foldl
      packageNeed p.needs }

/-- One turn of the outer loop of `lock_reached`: the package at `i` reaches what it needs. -/
def reachFrom (graph : List Package) (reached : Nat → Bool) (i : Nat) : Nat → Bool :=
  match graph[i]? with
  | none => reached
  | some p =>
    if reached i then
      fun k => reached k || (graph[k]?.any fun q => p.needs.contains q.name)
    else reached

/-- The pass of `lock_reached` over the packages before `n`. -/
def reachPass (graph : List Package) (reached : Nat → Bool) : Nat → Nat → Bool
  | 0 => reached
  | n + 1 => reachFrom graph (reachPass graph reached n) n

/-- The loop of `lock_reached`, which ends with a pass that reaches nothing more. -/
def reachLoop (graph : List Package) : Nat → (Nat → Bool) → Option (Nat → Bool)
  | 0, _ => none
  | fuel + 1, reached =>
    let reached' := reachPass graph reached graph.length
    if (List.range graph.length).all fun k => reached' k == reached k then some reached'
    else reachLoop graph fuel reached'

/-- `lock_reached`. -/
def lockReached (m : Manifest) (graph : List Package) : Option Bool :=
  (reachLoop graph (graph.length + 1) fun i =>
    graph[i]?.any fun p => m.dependencies.any fun d => p.name == d.name).map fun reached =>
      (List.range graph.length).all reached

/-- The locked package answers the dependency of a repository. -/
def lockAnswersOne (m : Manifest) (graph : List Package) (d : ManifestDependency) : Bool :=
  match graphPackage graph d.name with
  | none => false
  | some p =>
    p.path.isEmpty && satisfies d.version p.version &&
      (d.repo.isEmpty || repositoryUrl m.repositories d.repo == some p.repo)

/-- `lock_answers`. -/
def lockAnswers (m : Manifest) (graph : List Package) (paths : Bool) : Option Bool :=
  if graph.isEmpty then some m.dependencies.isEmpty
  else if m.dependencies.all fun d =>
      if d.path.isEmpty then lockAnswersOne m graph d else !paths then lockReached m graph
  else some false

end AnticDeps
