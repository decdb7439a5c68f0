import Antic.Contracts
import Antic.Deps

/-! # What a pick of the walk is, and the requirements it adds

    A pick of a repository is an entry of the index that no other entry exceeds, a
    pick of a path the first library file of the package.  Both add the requirements
    of what they were picked from, and no other. -/

namespace AnticDeps

open Contracts List Option

/-- The program gives a reason; no loop of it ran out. -/
def Says (e : Trouble) : Prop := e ≠ .endless

theorem nameValid_ne {name : Text} (h : nameValid name = true) : name ≠ [] := by
  rintro rfl
  exact absurd h (by decide)

/-! ## Adding requirements -/

/-- What `require` compares. -/
def Requirement.key (q : Requirement) : Text × Text × Text := (q.name, q.constraint, q.origin)

/-- `requirements'` is `requirements` with those of `needs` that were not there. -/
structure Grows (requirements needs requirements' : List Requirement) : Prop where
  added : ∃ extra, requirements' = requirements ++ extra ∧ ∀ q ∈ extra, q ∈ needs
  has : ∀ q ∈ needs, q.key ∈ requirements'.map Requirement.key
  once : (requirements.map Requirement.key).Nodup → (requirements'.map Requirement.key).Nodup

section Grows

variable {requirements requirements' requirements'' needs needs' : List Requirement}

theorem Grows.subset (h : Grows requirements needs requirements') {q : Requirement}
    (hq : q ∈ requirements) : q ∈ requirements' := by
  obtain ⟨extra, rfl, _⟩ := h.added
  exact mem_append_left _ hq

theorem Grows.mem (h : Grows requirements needs requirements') {q : Requirement}
    (hq : q ∈ requirements') : q ∈ requirements ∨ q ∈ needs := by
  obtain ⟨extra, rfl, hextra⟩ := h.added
  exact (mem_append.1 hq).imp id (hextra q)

theorem Grows.refl : Grows requirements [] requirements :=
  ⟨⟨[], (append_nil _).symm, fun _ h => h⟩, fun _ h => (nomatch h), id⟩

theorem Grows.trans (h : Grows requirements needs requirements')
    (h' : Grows requirements' needs' requirements'') :
    Grows requirements (needs ++ needs') requirements'' := by
  obtain ⟨extra, heq, hextra⟩ := h.added
  obtain ⟨extra', heq', hextra'⟩ := h'.added
  refine ⟨⟨extra ++ extra', ?_, fun q hq => ?_⟩, fun q hq => ?_, fun hn => h'.once (h.once hn)⟩
  · rw [heq', heq, append_assoc]
  · rcases mem_append.1 hq with hq | hq
    · exact mem_append_left _ (hextra q hq)
    · exact mem_append_right _ (hextra' q hq)
  · rcases mem_append.1 hq with hq | hq
    · obtain ⟨k, hk, hkey⟩ := List.mem_map.1 (h.has q hq)
      exact List.mem_map.2 ⟨k, h'.subset hk, hkey⟩
    · exact h'.has q hq

theorem any_key {r : Requirement} :
    (requirements.any fun q => q.name == r.name && q.constraint == r.constraint &&
      q.origin == r.origin) = true ↔ r.key ∈ requirements.map Requirement.key := by
  simp only [List.any_eq_true, Bool.and_eq_true, beq_iff_eq, List.mem_map, Requirement.key,
    Prod.mk.injEq, and_assoc]

theorem grows_require (requirements : List Requirement) (r : Requirement) :
    Grows requirements [r] (require requirements r) := by
  unfold require
  split
  · next h =>
      refine ⟨⟨[], (append_nil _).symm, fun _ h => (nomatch h)⟩, fun q hq => ?_, id⟩
      rw [mem_singleton.1 hq]
      exact any_key.1 h
  · next h =>
      refine ⟨⟨[r], rfl, fun _ h => h⟩, fun q hq => ?_, fun hn => ?_⟩
      · rw [mem_singleton.1 hq, map_append]
        exact mem_append_right _ (mem_singleton.2 rfl)
      · rw [map_append]
        refine nodup_append.2 ⟨hn, pairwise_singleton _ _, fun k hk k' hk' heq => ?_⟩
        rw [heq, mem_singleton.1 hk'] at hk
        exact h (any_key.2 hk)

theorem grows_foldl (needs requirements : List Requirement) :
    Grows requirements needs (needs.foldl require requirements) := by
  induction needs generalizing requirements with
  | nil => exact .refl
  | cons q needs ih => exact (grows_require requirements q).trans (ih _)

end Grows

theorem satisfiesAll_iff {requirements : List Requirement} {name version : Text} :
    satisfiesAll requirements name version = true ↔
      ∀ q ∈ requirements, q.name = name → satisfies q.constraint version = true := by
  simp only [satisfiesAll, List.all_eq_true, Bool.or_eq_true, Bool.not_eq_true',
    beq_eq_false_iff_ne]
  exact forall₂_congr fun q _ => imp_iff_not_or.symm

/-! ## The entry of an index -/

/-- The index of the repository of `p` holds an entry with the version of `p`, and its
    dependencies make the requirements `needs`. -/
def IndexEntry (w : World) (p : Package) (needs : List Requirement) : Prop :=
  ∃ versions v, repoIndex w p.repo p.name = .held (some versions) ∧ v ∈ versions ∧
    v.version = p.version ∧ v.isYanked = false ∧
    needs = v.dependencies.map (·.requirement p.name)

/-- No version of the index that is not yanked and satisfies the requirements on the
    package exceeds the pick. -/
def Highest (w : World) (requirements : List Requirement) (p : Package) : Prop :=
  ∀ versions, repoIndex w p.repo p.name = .held (some versions) → ∀ v ∈ versions,
    v.isYanked = false → satisfiesAll requirements p.name v.version = true →
    versionCompare v.version p.version ≤ 0

/-- What `best_version` gives exceeds what it started with and every version that answers. -/
theorem bestVersion_gives (requirements : List Requirement) (name : Text)
    (versions : List IndexVersion) (best : Option IndexVersion) :
    Gives (bestVersion requirements name versions best) (fun r => ∀ b, r = some b →
      (best = some b ∨ b ∈ versions ∧ b.isYanked = false) ∧
      (∀ v ∈ best, versionCompare v.version b.version ≤ 0) ∧
      ∀ v ∈ versions, v.isYanked = false → satisfiesAll requirements name v.version = true →
        versionCompare v.version b.version ≤ 0) Says := by
  induction versions generalizing best with
  | nil =>
    refine .pure fun b hb => ⟨.inl hb, fun v hv => ?_, fun v hv => (nomatch hv)⟩
    rw [mem_def, hb, some.injEq] at hv
    rw [hv]
    exact Int.le_of_eq (versionCompare_self _)
  | cons v versions ih =>
    rw [bestVersion.eq_def]
    dsimp only
    split
    · exact .throw (fun h => nomatch h)
    split
    · next hskip =>
        refine (ih best).weaken fun r hr b hb => ?_
        obtain ⟨hfrom, hbest, hall⟩ := hr b hb
        refine ⟨hfrom.imp id fun h => ⟨mem_cons_of_mem _ h.1, h.2⟩, hbest,
          fun u hu hyanked hsat => ?_⟩
        rcases mem_cons.1 hu with rfl | hu
        · simp [hyanked, hsat] at hskip
        · exact hall u hu hyanked hsat
    next hkeep =>
    have hv : v.isYanked = false := by
      cases h : v.isYanked with
      | false => rfl
      | true => exact absurd (by rw [h]; rfl) hkeep
    -- the version `c` that is kept exceeds the best so far and `v`
    have kept : ∀ c : IndexVersion, (best = some c ∨ c = v) →
        (∀ u ∈ best, versionCompare u.version c.version ≤ 0) →
        versionCompare v.version c.version ≤ 0 →
        Gives (bestVersion requirements name versions (some c)) (fun r => ∀ b, r = some b →
          (best = some b ∨ b ∈ v :: versions ∧ b.isYanked = false) ∧
          (∀ u ∈ best, versionCompare u.version b.version ≤ 0) ∧
          ∀ u ∈ v :: versions, u.isYanked = false →
            satisfiesAll requirements name u.version = true →
            versionCompare u.version b.version ≤ 0) Says := by
      intro c hc hbest hvc
      refine (ih (some c)).weaken fun r hr b hb => ?_
      obtain ⟨hfrom, hcb, hall⟩ := hr b hb
      have hcb := hcb c rfl
      refine ⟨?_, fun u hu => versionCompare_trans (hbest u hu) hcb, fun u hu hyanked hsat => ?_⟩
      · rcases hfrom with hfrom | hfrom
        · rw [← some.inj hfrom]
          rcases hc with hc | rfl
          · exact .inl hc
          · exact .inr ⟨mem_cons_self, hv⟩
        · exact .inr ⟨mem_cons_of_mem _ hfrom.1, hfrom.2⟩
      · rcases mem_cons.1 hu with rfl | hu
        · exact versionCompare_trans hvc hcb
        · exact hall u hu hyanked hsat
    cases hbest : best with
    | none =>
      rw [hbest] at kept
      exact kept v (.inr rfl) (fun u hu => (nomatch hu))
        (Int.le_of_eq (versionCompare_self v.version))
    | some b =>
      rw [hbest] at kept
      dsimp only
      split
      · next hgt =>
          refine kept v (.inr rfl) (fun u hu => ?_) (Int.le_of_eq (versionCompare_self v.version))
          rw [← some.inj hu]
          exact compareParts_swap 3 hgt
      · next hle =>
          refine kept b (.inl rfl) (fun u hu => ?_) (Int.not_lt.1 hle)
          rw [← some.inj hu]
          exact Int.le_of_eq (versionCompare_self b.version)

theorem indexModules_gives (files : List (Text × Text)) (modules : List Module) :
    Gives (indexModules files modules) (fun _ => True) Says := by
  induction files generalizing modules with
  | nil => exact .pure trivial
  | cons file files ih =>
    rw [indexModules]
    split
    · exact .throw (fun h => nomatch h)
    split
    · exact .throw (fun h => nomatch h)
    · exact ih _

theorem indexDependencies_gives (origin : Text) (dependencies : List IndexDependency)
    (requirements : List Requirement) :
    Gives (indexDependencies origin dependencies requirements)
      (Grows requirements (dependencies.map (·.requirement origin))) Says := by
  induction dependencies generalizing requirements with
  | nil => exact .pure .refl
  | cons d dependencies ih =>
    rw [indexDependencies]
    split
    · exact .throw (fun h => nomatch h)
    split
    · exact .throw (fun h => nomatch h)
    split
    · exact .throw (fun h => nomatch h)
    · exact (ih _).weaken fun r hr => (grows_require requirements _).trans hr

/-- A pick of the repository `url`, of the package `name`. -/
structure FromIndex (w : World) (requirements : List Requirement) (name url : Text)
    (p : Package) (needs : List Requirement) : Prop where
  name_eq : p.name = name
  repo_eq : p.repo = url
  path_eq : p.path = []
  named : name ≠ []
  entry : IndexEntry w p needs
  highest : Highest w requirements p

theorem repoIndex_held {w : World} {url name : Text} {versions : Option (List IndexVersion)}
    (h : repoIndex w url name = .held versions) : name ≠ [] ∧ url ≠ [] := by
  rw [repoIndex] at h
  split at h
  · next hname =>
      refine ⟨nameValid_ne hname, ?_⟩
      rintro rfl
      rw [w.unnamed] at h
      cases h
  · cases h

theorem resolveFromIndex_gives (w : World) (requirements : List Requirement) (name url : Text) :
    Gives (resolveFromIndex w requirements name url) (fun r => ∀ p requirements',
      r = some (p, requirements') → ∃ needs, FromIndex w requirements name url p needs ∧
        Grows requirements needs requirements') Says := by
  rw [resolveFromIndex]
  split
  · exact .throw (fun h => nomatch h)
  · exact .throw (fun h => nomatch h)
  · exact .pure (fun _ _ h => nomatch h)
  next versions hindex =>
  refine Gives.bind (bestVersion_gives requirements name versions none) fun best hbest => ?_
  cases best with
  | none => exact .pure (fun _ _ h => nomatch h)
  | some v =>
    obtain ⟨hfrom, _, hall⟩ := hbest v rfl
    obtain ⟨hv, hyanked⟩ := hfrom.resolve_left (fun h => nomatch h)
    refine Gives.bind (indexModules_gives v.modules []) fun modules _ => ?_
    split
    · exact .throw (fun h => nomatch h)
    refine Gives.bind (indexDependencies_gives name v.dependencies requirements)
      fun grown hgrown => ?_
    refine .pure fun p requirements' h => ?_
    obtain ⟨rfl, rfl⟩ := Prod.mk.inj (some.inj h)
    refine ⟨_, ⟨rfl, rfl, rfl, (repoIndex_held hindex).1, ?_, fun others hothers u hu => ?_⟩,
      hgrown⟩
    · exact ⟨versions, v, hindex, hv, rfl, hyanked, rfl⟩
    · rw [hindex] at hothers
      obtain rfl := some.inj (RepoAnswer.held.inj hothers)
      exact hall u hu

/-- A search without a winner so far finds the one repository that holds the package. -/
theorem searchRepositories_gives (w : World) (name : Text) (repositories : List Repository)
    (requirements : List Requirement) (winner : Option Package) :
    Gives (searchRepositories w name repositories requirements winner) (fun r =>
      (∀ p, winner = some p → r = (some p, requirements)) ∧
      (winner = none → ∀ p, r.1 = some p → ∃ url needs,
        FromIndex w requirements name url p needs ∧ Grows requirements needs r.2)) Says := by
  induction repositories generalizing requirements winner with
  | nil => exact .pure ⟨fun p hp => by rw [hp], fun h p hp => nomatch h ▸ hp⟩
  | cons repository rest ih =>
    refine Gives.bind (resolveFromIndex_gives w requirements name repository.url)
      fun found hfound => ?_
    cases found with
    | none => exact ih requirements winner
    | some found =>
      obtain ⟨one, requirements'⟩ := found
      cases winner with
      | some p => exact .throw (fun h => nomatch h)
      | none =>
        obtain ⟨needs, hone, hgrows⟩ := hfound one requirements' rfl
        refine (ih requirements' (some one)).weaken fun r hr => ?_
        refine ⟨fun p hp => (nomatch hp), fun _ p hp => ⟨repository.url, needs, ?_⟩⟩
        have hr := hr.1 one rfl
        rw [hr] at hp
        rw [← some.inj hp, hr]
        exact ⟨hone, hgrows⟩

theorem resolveFromRepo_gives (w : World) (m : Manifest) (requirements : List Requirement)
    (source : Requirement) :
    Gives (resolveFromRepo w m requirements source) (fun r => ∃ url needs,
      FromIndex w requirements source.name url r.1 needs ∧ Grows requirements needs r.2 ∧
        (source.repo ≠ [] → url = source.repo)) Says := by
  rw [resolveFromRepo]
  split
  · next hempty =>
      refine Gives.bind (searchRepositories_gives w source.name m.repositories requirements none)
        fun found hfound => ?_
      obtain ⟨winner, requirements'⟩ := found
      cases winner with
      | none => exact .throw (fun h => nomatch h)
      | some p =>
        obtain ⟨url, needs, hp, hgrows⟩ := hfound.2 rfl p rfl
        refine .pure ⟨url, needs, hp, hgrows, fun h => absurd ?_ h⟩
        exact List.isEmpty_iff.1 hempty
  · refine Gives.bind (resolveFromIndex_gives w requirements source.name source.repo)
      fun found hfound => ?_
    cases found with
    | none => exact .throw (fun h => nomatch h)
    | some found =>
      obtain ⟨p, requirements'⟩ := found
      obtain ⟨needs, hp, hgrows⟩ := hfound p requirements' rfl
      exact .pure ⟨source.repo, needs, hp, hgrows, fun _ => rfl⟩

/-! ## The library file of a path -/

/-- The requirements that the project at the path of `source` makes. -/
def projectNeeds (w : World) (source : Requirement) : List Requirement :=
  match w.project (resolvePath w.root source.path) with
  | .read m => projectRequirements source m
  | _ => []

/-- The requirements of the header of a library file and of the project around it. -/
def libraryNeeds (w : World) (source : Requirement) (header : Header) : List Requirement :=
  header.dependencies.map (·.requirement source.name) ++ projectNeeds w source

/-- The directory of a path holds library files of the package, and the first of them
    gives the version of `p` and the requirements `needs`. -/
def PathEntry (w : World) (p : Package) (needs : List Requirement) : Prop :=
  ∃ source files f header, source.name = p.name ∧ source.path ≠ [] ∧
    w.pathOf (resolvePath w.root source.path) = some p.path ∧ w.files p.path = some files ∧
    files.find? (fun f => f.header.any (·.name == p.name)) = some f ∧
    f.header = some header ∧ header.version = p.version ∧ needs = libraryNeeds w source header

theorem requireProjectPaths_gives (w : World) (source : Requirement)
    (requirements : List Requirement) :
    Gives (requireProjectPaths w source (resolvePath w.root source.path) requirements)
      (Grows requirements (projectNeeds w source)) Says := by
  rw [requireProjectPaths, projectNeeds]
  cases w.project (resolvePath w.root source.path) with
  | absent => exact .pure .refl
  | refused => exact .throw (fun h => nomatch h)
  | read m => exact .pure (grows_foldl _ _)

/-- What the loop over the library files has found. -/
structure FromFiles (w : World) (source : Requirement) (directory : Text)
    (files : List LibraryFile) (requirements : List Requirement) (p : Package)
    (requirements' : List Requirement) : Prop where
  name_eq : p.name = source.name
  path_eq : p.path = directory
  first : ∃ f header, files.find? (fun f => f.header.any (·.name == source.name)) = some f ∧
    f.header = some header ∧ header.version = p.version ∧
    Grows requirements (libraryNeeds w source header) requirements'

/-- The files after the first change the modules of the package alone. -/
def SamePick (p q : Package) : Prop := q.name = p.name ∧ q.version = p.version ∧ q.path = p.path

/-- What `readFiles` does with a file of the package, once the package is there. -/
def joinFile (w : World) (source : Requirement) (given directory : Text) (f : LibraryFile)
    (header : Header) (files : List LibraryFile) (p : Package)
    (requirements : List Requirement) : Except Trouble (Option Package × List Requirement) :=
  match f.digest with
  | none => throw (.unread f.file)
  | some digest =>
    match p.modules.find? fun m => m.path == header.module_ && !m.file.isEmpty with
    | some m => throw (.bothHold m.file f.file header.module_)
    | none =>
      let modules := putModule (fun m => { m with digest := digest, file := f.file })
        header.module_ p.modules
      readFiles w source given directory files (some { p with modules := modules }) requirements

theorem readFiles_gives (w : World) (source : Requirement) (directory : Text)
    (files : List LibraryFile) (found : Option Package) (requirements : List Requirement) :
    Gives (readFiles w source (resolvePath w.root source.path) directory files found requirements)
      (fun r =>
        (∀ p, found = some p → ∃ q, r = (some q, requirements) ∧ SamePick p q) ∧
        (found = none → ∀ p, r.1 = some p →
          FromFiles w source directory files requirements p r.2)) Says := by
  induction files generalizing found requirements with
  | nil =>
    refine .pure ⟨fun p hp => ⟨p, by rw [hp], rfl, rfl, rfl⟩, fun h p hp => ?_⟩
    rw [h] at hp
    cases hp
  | cons f files ih =>
    rw [readFiles]
    cases hheader : f.header with
    | none => exact .throw (by rintro ⟨⟩)
    | some header =>
    dsimp only
    split
    · next hname =>
        have hfirst : (f :: files).find? (fun f => f.header.any (·.name == source.name)) =
            some f := by
          rw [find?_cons_of_pos]
          rw [hheader]
          exact hname
        -- once there is a package, the module of this file joins it
        have joined : ∀ (p : Package) (requirements' : List Requirement),
            Gives (joinFile w source (resolvePath w.root source.path) directory f header files p
              requirements') (fun r => ∃ q, r = (some q, requirements') ∧ SamePick p q) Says := by
          intro p requirements'
          rw [joinFile]
          split
          · exact .throw (by rintro ⟨⟩)
          · split
            · exact .throw (by rintro ⟨⟩)
            · refine (ih (some _) requirements').weaken fun r hr => ?_
              obtain ⟨q, hq, hsame⟩ := hr.1 _ rfl
              exact ⟨q, hq, hsame⟩
        cases found with
        | some p =>
          refine (joined p requirements).weaken fun r hr => ⟨fun p₀ hp₀ => ?_, by rintro ⟨⟩⟩
          rw [← some.inj hp₀]
          exact hr
        | none =>
          refine Gives.bind (requireProjectPaths_gives w source _) fun grown hgrown => ?_
          refine (joined ⟨source.name, header.version, [], directory, [], []⟩ grown).weaken
            fun r hr => ⟨by rintro p ⟨⟩, fun _ p hp => ?_⟩
          obtain ⟨q, rfl, hn, hv, hpath⟩ := hr
          rw [← some.inj hp]
          refine ⟨hn, hpath, f, header, hfirst, hheader, hv.symm, ?_⟩
          exact (grows_foldl _ requirements).trans hgrown
    · next hname =>
        refine (ih found requirements).weaken fun r hr => ⟨hr.1, fun hnone p hp => ?_⟩
        obtain ⟨hn, hpath, g, gh, hfind, hrest⟩ := hr.2 hnone p hp
        refine ⟨hn, hpath, g, gh, ?_, hrest⟩
        rw [find?_cons_of_neg, hfind]
        rw [hheader]
        exact hname

theorem resolveFromPath_gives (w : World) (requirements : List Requirement)
    (source : Requirement) (hpath : source.path ≠ []) :
    Gives (resolveFromPath w requirements source) (fun r => r.1.name = source.name ∧
      ∃ needs, PathEntry w r.1 needs ∧ Grows requirements needs r.2) Says := by
  rw [resolveFromPath]
  split
  · exact .throw (fun h => nomatch h)
  next directory hdirectory =>
  split
  · exact .throw (fun h => nomatch h)
  next files hfiles =>
  refine Gives.bind (readFiles_gives w source directory files none requirements) fun r hr => ?_
  obtain ⟨found, requirements'⟩ := r
  cases found with
  | none => exact .throw (fun h => nomatch h)
  | some p =>
    obtain ⟨hname, hdir, f, header, hfind, hheader, hversion, hgrows⟩ := hr.2 rfl p rfl
    dsimp only
    split
    · refine .pure ⟨hname, _, ⟨source, files, f, header, hname.symm, hpath, ?_, ?_, ?_,
        hheader, hversion, rfl⟩, hgrows⟩
      · rw [hdir, hdirectory]
      · rw [hdir, hfiles]
      · rw [hname, hfind]
    · exact .throw (fun h => nomatch h)

/-! ## A pick -/

/-- Where the pick `p` comes from, with the requirements that it makes. -/
inductive Picked (w : World) (requirements : List Requirement) (p : Package)
    (needs : List Requirement) : Prop where
  | index : IndexEntry w p needs → Highest w requirements p → Picked w requirements p needs
  | path : PathEntry w p needs → Picked w requirements p needs

/-- A pick stays one while the requirements on its package stay. -/
theorem Picked.keep {w : World} {requirements requirements' needs : List Requirement}
    {p : Package} (h : Picked w requirements p needs)
    (hkeep : ∀ q ∈ requirements, q.name = p.name → q ∈ requirements') :
    Picked w requirements' p needs := by
  cases h with
  | index hentry hhighest =>
    refine .index hentry fun versions hversions v hv hyanked hsat => ?_
    refine hhighest versions hversions v hv hyanked (satisfiesAll_iff.2 fun q hq hname => ?_)
    exact satisfiesAll_iff.1 hsat q (hkeep q hq hname) hname
  | path hentry => exact .path hentry

theorem projectRequirements_spec {source q : Requirement} {m : Manifest}
    (h : q ∈ projectRequirements source m) : q.origin = source.name ∧ q.name ≠ [] := by
  obtain ⟨d, hd, rfl⟩ := List.mem_map.1 h
  exact ⟨rfl, nameValid_ne (m.names d (mem_filter.1 hd).1)⟩

/-- What a pick needs is required by it, and a path is given for a named package alone. -/
theorem Picked.needs {w : World} {requirements needs : List Requirement} {p : Package}
    (h : Picked w requirements p needs) {q : Requirement} (hq : q ∈ needs) :
    q.origin = p.name ∧ (q.path ≠ [] → q.name ≠ []) := by
  cases h with
  | index hentry _ =>
    obtain ⟨versions, v, _, _, _, _, rfl⟩ := hentry
    obtain ⟨d, _, rfl⟩ := List.mem_map.1 hq
    exact ⟨rfl, fun h => absurd rfl h⟩
  | path hentry =>
    obtain ⟨source, files, f, header, hname, _, _, _, _, _, _, rfl⟩ := hentry
    rcases mem_append.1 hq with hq | hq
    · obtain ⟨d, _, rfl⟩ := List.mem_map.1 hq
      exact ⟨hname, fun h => absurd rfl h⟩
    · rw [projectNeeds] at hq
      split at hq
      · obtain ⟨horigin, hne⟩ := projectRequirements_spec hq
        exact ⟨horigin.trans hname, fun _ => hne⟩
      · exact absurd hq not_mem_nil

/-- What `pick` does: the package `p`, which needs `needs`, joins the graph. -/
structure Picks (w : World) (r : Resolver) (source : Requirement) (r' : Resolver)
    (p : Package) (needs : List Requirement) : Prop where
  graph : r'.graph = r.graph ++ [p]
  name_eq : p.name = source.name
  picked : Picked w r.requirements p needs
  grows : Grows r.requirements needs r'.requirements
  /-- A source without a path gives an entry of an index. -/
  repo : source.path = [] → p.name ≠ [] ∧ (p.path = [] ∧ p.repo ≠ []) ∧
    (∀ q ∈ needs, q.path = []) ∧ (source.repo ≠ [] → p.repo = source.repo)

theorem pick_gives (w : World) (m : Manifest) (r : Resolver) (source : Requirement) :
    Gives (pick w m r source) (fun r' => ∃ p needs, Picks w r source r' p needs) Says := by
  rw [pick]
  split
  · next hempty =>
      refine Gives.bind (resolveFromRepo_gives w m r.requirements source) fun found hfound => ?_
      obtain ⟨url, needs, hp, hgrows, hurl⟩ := hfound
      refine .pure ⟨found.1, needs, rfl, hp.name_eq, .index hp.entry hp.highest, hgrows, fun _ => ?_⟩
      obtain ⟨versions, v, hindex, _, _, _, rfl⟩ := hp.entry
      refine ⟨hp.name_eq ▸ hp.named, ⟨hp.path_eq, (repoIndex_held hindex).2⟩, fun q hq => ?_,
        fun hrepo => hp.repo_eq.trans (hurl hrepo)⟩
      obtain ⟨d, _, rfl⟩ := List.mem_map.1 hq
      rfl
  · next hpath =>
      have hpath : source.path ≠ [] := fun h => hpath (List.isEmpty_iff.2 h)
      refine Gives.bind (resolveFromPath_gives w r.requirements source hpath) fun found hfound => ?_
      obtain ⟨hname, needs, hentry, hgrows⟩ := hfound
      exact .pure ⟨found.1, needs, rfl, hname, .path hentry, hgrows, fun h => absurd h hpath⟩

end AnticDeps
