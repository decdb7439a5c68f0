import Antic.DepsSettledProofs

/-! # The sources of the picks

    `source_of` prefers a requirement that names a source, wherever it stands in the list,
    but a round asks it for a package without a pick, and for one whose version fails a
    constraint, and for no other.  A requirement that names the source of a package that
    has been picked through the repositories of the manifest is not followed.

    * **`sources_followed`** — in every walk whose turns name the sources in time, every
      pick comes from the source that its requirements name.
    * `late_source_missed` — a walk that settles on another source. -/

namespace AnticDeps

open Closures Contracts List

/-! ## Sources -/

/-- What a requirement may name as the source of a package. -/
inductive Source where
  | directory (path : Text)
  | repository (url : Text)
deriving DecidableEq

/-- The source that a requirement names: the path before the repository. -/
def Requirement.source (q : Requirement) : Option Source :=
  if q.path ≠ [] then some (.directory q.path)
  else if q.repo ≠ [] then some (.repository q.repo)
  else none

/-- The pick was resolved from the source. -/
def FromSource (w : World) (p : Package) : Source → Prop
  | .directory path => w.pathOf (resolvePath w.root path) = some p.path ∧ p.repo = []
  | .repository url => p.path = [] ∧ p.repo = url

/-- Every pick on which a requirement names a source comes from the one that `source_of` gives. -/
def FollowsSource (w : World) (r : Resolver) : Prop :=
  ∀ p ∈ r.graph, ∀ q, sourceOf r.requirements p.name = some q → ∀ s, q.source = some s →
    FromSource w p s

/-- The first source that a requirement on the package names. -/
def namedSource (requirements : List Requirement) (name : Text) : Option Source :=
  requirements.findSome? fun q => if q.name = name then q.source else none

theorem Requirement.source_isSome (q : Requirement) :
    q.source.isSome = (!q.path.isEmpty || !q.repo.isEmpty) := by
  rw [Requirement.source]
  cases hpath : q.path with
  | cons c path => rfl
  | nil =>
    cases hrepo : q.repo with
    | nil => rfl
    | cons c repo => rfl

theorem namedSource_eq (requirements : List Requirement) (name : Text) :
    namedSource requirements name = (requirements.find? fun q =>
      q.name == name && (!q.path.isEmpty || !q.repo.isEmpty)).bind Requirement.source := by
  induction requirements with
  | nil => rfl
  | cons q requirements ih =>
    rw [namedSource, findSome?_cons, find?_cons, ← Requirement.source_isSome]
    by_cases hname : q.name = name
    · rw [if_pos hname, beq_iff_eq.mpr hname, Bool.true_and]
      cases hsource : q.source with
      | some s => exact hsource.symm
      | none => exact ih
    · rw [if_neg hname, beq_eq_false_iff_ne.mpr hname, Bool.false_and]
      exact ih

variable {requirements needs : List Requirement}

/-- `source_of` gives the first requirement that names a source, where there is one. -/
theorem sourceOf_source {name : Text} {q : Requirement}
    (h : sourceOf requirements name = some q) : q.source = namedSource requirements name := by
  rw [namedSource_eq]
  obtain ⟨hmem, hname⟩ := sourceOf_mem h
  rw [sourceOf] at h
  cases hfirst : requirements.find? fun x =>
      x.name == name && (!x.path.isEmpty || !x.repo.isEmpty) with
  | some x =>
    rw [hfirst, Option.some_or, Option.some_inj] at h
    rw [h]
    rfl
  | none =>
    have hnone := find?_eq_none.mp hfirst q hmem
    rw [← Requirement.source_isSome] at hnone
    simpa [hname] using hnone

theorem namedSource_append (requirements extra : List Requirement) (name : Text) :
    namedSource (requirements ++ extra) name
      = (namedSource requirements name).or (namedSource extra name) :=
  findSome?_append

theorem namedSource_mem {name : Text} {s : Source} (h : namedSource requirements name = some s) :
    ∃ q ∈ requirements, q.name = name ∧ q.source = some s := by
  obtain ⟨q, hq, hs⟩ := exists_of_findSome?_eq_some h
  split at hs
  · exact ⟨q, hq, by assumption, hs⟩
  · cases hs

/-- The picks follow their sources as the first named source tells them. -/
theorem followsSource_iff {w : World} {r : Resolver} : FollowsSource w r ↔
    ∀ p ∈ r.graph, ∀ s, namedSource r.requirements p.name = some s → FromSource w p s := by
  constructor
  · intro h p hp s hs
    obtain ⟨x, hx, hname, -⟩ := namedSource_mem hs
    cases hq : sourceOf r.requirements p.name with
    | none => exact absurd hname (sourceOf_none hq x hx)
    | some q => exact h p hp q hq s (by rw [sourceOf_source hq, hs])
  · intro h p hp q hq s hs
    exact h p hp s (by rw [← sourceOf_source hq, hs])

/-! ## What a pick comes from -/

/-- The library files keep the directory of the package, which has no repository. -/
theorem readFiles_place (w : World) (source : Requirement) (given directory : Text)
    (files : List LibraryFile) (found : Option Package) (requirements : List Requirement)
    (hfound : ∀ p, found = some p → p.path = directory ∧ p.repo = []) :
    Gives (readFiles w source given directory files found requirements)
      (fun r => ∀ p, r.1 = some p → p.path = directory ∧ p.repo = []) fun _ => True := by
  induction files generalizing found requirements with
  | nil => exact .pure hfound
  | cons f files ih =>
    rw [readFiles]
    cases f.header with
    | none => exact .throw trivial
    | some header =>
      refine Gives.ite ?_ fun _ => ih found requirements hfound
      intro
      have hjoined : ∀ (p : Package) (requirements' : List Requirement),
          p.path = directory ∧ p.repo = [] →
          Gives (joinFile w source given directory f header files p requirements')
            (fun r => ∀ p, r.1 = some p → p.path = directory ∧ p.repo = []) fun _ => True := by
        intro p requirements' hp
        rw [joinFile]
        split
        · exact .throw trivial
        · split
          · exact .throw trivial
          · refine ih (some _) requirements' ?_
            intro q hq
            cases hq
            exact hp
      cases found with
      | some p => exact hjoined p requirements (hfound p rfl)
      | none =>
        have hneeds : Gives (requireProjectPaths w source given
            ((header.dependencies.map (·.requirement source.name)).foldl require
              requirements)) (fun _ => True) fun _ => True := by
          rw [requireProjectPaths]
          split
          · exact .pure trivial
          · exact .throw trivial
          · exact .pure trivial
        refine Gives.bind hneeds fun grown _ => ?_
        exact hjoined ⟨source.name, header.version, [], directory, [], []⟩ grown ⟨rfl, rfl⟩

theorem resolveFromPath_place (w : World) (requirements : List Requirement)
    (source : Requirement) : Gives (resolveFromPath w requirements source)
      (fun r => w.pathOf (resolvePath w.root source.path) = some r.1.path ∧ r.1.repo = [])
      fun _ => True := by
  rw [resolveFromPath]
  split
  · exact .throw trivial
  next directory hdirectory =>
  split
  · exact .throw trivial
  next files hfiles =>
  refine Gives.bind (readFiles_place w source _ directory files none requirements
    (by rintro p ⟨⟩)) ?_
  rintro ⟨found, requirements'⟩ hfound
  cases found with
  | none => exact .throw trivial
  | some p =>
    obtain ⟨hpath, hrepo⟩ := hfound p rfl
    refine Gives.ite (fun _ => .pure ⟨?_, hrepo⟩) fun _ => .throw trivial
    rw [hdirectory, hpath]

/-- **A pick comes from the source** of the requirement that it is made with. -/
theorem pick_from {w : World} {m : Manifest} {r r' : Resolver} {source : Requirement}
    {p : Package} (h : pick w m r source = .ok r') (hpicks : Picks w r source r' p needs)
    {s : Source} (hs : source.source = some s) : FromSource w p s := by
  rw [Requirement.source] at hs
  by_cases hpath : source.path = []
  · obtain ⟨-, ⟨hp, -⟩, -, hrepo⟩ := hpicks.repo hpath
    rw [if_neg (not_not_intro hpath)] at hs
    split at hs
    · next hne =>
        cases hs
        exact ⟨hp, hrepo hne⟩
    · cases hs
  · rw [if_pos hpath] at hs
    cases hs
    have hplace : Gives (pick w m r source) (fun r' => ∀ p, r'.graph = r.graph ++ [p] →
        w.pathOf (resolvePath w.root source.path) = some p.path ∧ p.repo = []) fun _ => True := by
      rw [pick, if_neg (by rwa [List.isEmpty_iff])]
      refine Gives.bind (resolveFromPath_place w r.requirements source) ?_
      rintro ⟨found, requirements⟩ hfound
      refine .pure ?_
      intro p hp
      obtain rfl : found = p := singleton_inj.mp (append_cancel_left hp)
      exact hfound
    exact hplace.of_ok h p hpicks.graph

/-- A search without a winner so far ends with a pick of one of the repositories. -/
theorem searchRepositories_place (w : World) (name : Text) (repositories : List Repository)
    (requirements : List Requirement) (winner : Option Package) :
    Gives (searchRepositories w name repositories requirements winner) (fun r =>
      ∀ p, r.1 = some p → winner = some p ∨ ∃ repository ∈ repositories, p.repo = repository.url)
      fun _ => True := by
  induction repositories generalizing requirements winner with
  | nil => exact .pure fun p hp => .inl hp
  | cons repository rest ih =>
    have hrest : ∀ requirements winner, Gives (searchRepositories w name rest requirements winner)
        (fun r => ∀ p, r.1 = some p → winner = some p ∨
          ∃ other ∈ repository :: rest, p.repo = other.url) fun _ => True := by
      intro requirements winner
      refine (ih requirements winner).weaken fun r hr p hp => (hr p hp).imp_right ?_
      rintro ⟨other, hmem, hurl⟩
      exact ⟨other, mem_cons_of_mem _ hmem, hurl⟩
    have hindex : Gives (resolveFromIndex w requirements name repository.url) (fun r =>
        ∀ p requirements', r = some (p, requirements') → p.repo = repository.url)
        fun _ => True := by
      have h := (resolveFromIndex_gives w requirements name repository.url)
      cases hr : resolveFromIndex w requirements name repository.url with
      | error e => exact .throw trivial
      | ok r =>
        refine .pure fun p requirements' hp => ?_
        obtain ⟨needs, hfrom, -⟩ := h.of_ok hr p requirements' hp
        exact hfrom.repo_eq
    refine Gives.bind hindex fun found hfound => ?_
    cases found with
    | none => exact hrest requirements winner
    | some found =>
      obtain ⟨one, requirements'⟩ := found
      cases winner with
      | some p => exact .throw trivial
      | none =>
        refine (hrest requirements' (some one)).weaken fun r hr p hp => ?_
        rcases hr p hp with hone | hother
        · cases hone
          exact .inr ⟨repository, mem_cons_self, hfound one requirements' rfl⟩
        · exact .inr hother

/-- A pick whose requirement names no source is of a repository of the manifest. -/
theorem pick_searched {w : World} {m : Manifest} {r r' : Resolver} {source : Requirement}
    {p : Package} (h : pick w m r source = .ok r') (hpicks : Picks w r source r' p needs)
    (hs : source.source = none) : ∃ repository ∈ m.repositories, p.repo = repository.url := by
  have hempty := Requirement.source_isSome source
  rw [hs, Option.isSome_none, Eq.comm, Bool.or_eq_false_iff, Bool.not_eq_false', Bool.not_eq_false']
    at hempty
  have hplace : Gives (pick w m r source) (fun r' => ∀ p, r'.graph = r.graph ++ [p] →
      ∃ repository ∈ m.repositories, p.repo = repository.url) fun _ => True := by
    rw [pick, if_pos hempty.1, resolveFromRepo, if_pos hempty.2]
    refine Gives.bind (R := fun r => ∃ repository ∈ m.repositories, r.1.repo = repository.url) ?_ ?_
    · refine Gives.bind
        (searchRepositories_place w source.name m.repositories r.requirements none) ?_
      rintro ⟨found, requirements⟩ hfound
      cases found with
      | none => exact .throw trivial
      | some p => exact .pure ((hfound p rfl).resolve_left (by rintro ⟨⟩))
    · rintro ⟨found, requirements⟩ hfound
      refine .pure ?_
      intro p hp
      obtain rfl : found = p := singleton_inj.mp (append_cancel_left hp)
      exact hfound
  exact hplace.of_ok h p hpicks.graph

/-! ## Walks that name their sources in time -/

/-- The resolver from which the round picks the package: as it is where the package has
    no pick, and without what is taken back where its version fails a constraint. -/
inductive PicksFrom (r : Resolver) (name : Text) : Resolver → Prop where
  | first : (∀ p ∈ r.graph, p.name ≠ name) → PicksFrom r name r
  | again {p : Package} {gone : List Text} : graphPackage r.graph name = some p →
      satisfiesAll r.requirements name p.version = false →
      (∀ x, x ∈ gone ↔ TakenBack r name x) → PicksFrom r name (r.without gone)

/-- What the source of the package gives for it: the package, and the requirements that
    its dependencies make. -/
structure Offers (w : World) (m : Manifest) (r b : Resolver) (name : Text) (p : Package)
    (needs : List Requirement) : Prop where
  name_eq : p.name = name
  picked : Picked w b.requirements p needs
  named : ∀ s, namedSource r.requirements name = some s → FromSource w p s
  searched : namedSource r.requirements name = none →
    ∃ repository ∈ m.repositories, p.repo = repository.url

/-- The turn of the package names sources in time, if it picks the package at all. -/
structure InTime (w : World) (m : Manifest) (r : Resolver) (name : Text) : Prop where
  /-- Of a package that stays picked or is picked again, no source comes first that did
      not before requirements were taken back. -/
  kept : ∀ b, PicksFrom r name b → ∀ x, (x = name ∨ ∃ p ∈ b.graph, p.name = x) →
    ∀ s, namedSource b.requirements x = some s → namedSource r.requirements x = some s
  /-- No dependency names the source of a package that has a pick from another one, while
      no requirement names its source. -/
  new : ∀ b, PicksFrom r name b → ∀ p needs, Offers w m r b name p needs → ∀ q ∈ needs,
    ∀ s, q.source = some s → namedSource b.requirements q.name = none →
      ∀ p' ∈ b.graph ++ [p], p'.name = q.name → FromSource w p' s

theorem map_ok {ε α β : Type} {x : Except ε α} {f : α → β} {b : β} (h : x.map f = .ok b) :
    ∃ a, x = .ok a ∧ f a = b := by
  cases x with
  | error e => cases h
  | ok a => exact ⟨a, rfl, Except.ok.inj h⟩

section Sources

variable {w : World} {m : Manifest} {r r' b : Resolver} {name : Text}

theorem FollowsSource.pick (hr : FollowsSource w r) (hin : InTime w m r name)
    (hb : PicksFrom r name b) (hsub : ∀ p ∈ b.graph, p ∈ r.graph) {source : Requirement}
    (hsource : sourceOf r.requirements name = some source)
    (hpick : pick w m b { source with name := name } = .ok r') : FollowsSource w r' := by
  rw [followsSource_iff] at hr ⊢
  obtain ⟨p, needs, hpicks⟩ := (pick_gives w m b _).of_ok hpick
  have hname : p.name = name := hpicks.name_eq
  have hfrom : ∀ s, namedSource r.requirements name = some s → FromSource w p s := by
    intro s hs
    exact pick_from hpick hpicks ((sourceOf_source hsource).trans hs)
  obtain ⟨extra, hextra, hneeds⟩ := hpicks.grows.added
  intro p' hp' s hs
  rw [hpicks.graph] at hp'
  rw [hextra, namedSource_append, Option.or_eq_some_iff] at hs
  rcases hs with hs | ⟨hnone, hs⟩
  · rcases mem_append.mp hp' with hp' | hp'
    · exact hr p' (hsub p' hp') s (hin.kept b hb _ (.inr ⟨p', hp', rfl⟩) s hs)
    · obtain rfl := mem_singleton.mp hp'
      exact hfrom s (hname ▸ hin.kept b hb _ (.inl hname) s hs)
  · obtain ⟨q, hq, hqname, hqs⟩ := namedSource_mem hs
    have hoffers : Offers w m r b name p needs :=
      { name_eq := hname
        picked := hpicks.picked
        named := hfrom
        searched := fun hnone =>
          pick_searched hpick hpicks ((sourceOf_source hsource).trans hnone) }
    exact hin.new b hb p needs hoffers q (hneeds q hq) s hqs (hqname ▸ hnone) p' hp' hqname.symm

theorem FollowsSource.walkName (hr : FollowsSource w r) (hin : InTime w m r name)
    {changed changed' : Bool} (h : walkName w m name r changed = .ok (r', changed')) :
    FollowsSource w r' := by
  rw [AnticDeps.walkName] at h
  cases hp : graphPackage r.graph name with
  | none =>
    rw [hp] at h
    cases hsource : sourceOf r.requirements name with
    | none =>
      rw [hsource] at h
      cases h
      exact hr
    | some source =>
      rw [hsource] at h
      obtain ⟨r₁, hpick, hr₁⟩ := map_ok h
      cases hr₁
      exact hr.pick hin (.first (graphPackage_none hp)) (fun p hp => hp) hsource hpick
  | some p =>
    rw [hp] at h
    dsimp only at h
    split at h
    · cases h
      exact hr
    · next hsat =>
        cases hsource : sourceOf r.requirements name with
        | none =>
          rw [hsource] at h
          cases h
          exact hr
        | some source =>
          obtain ⟨gone, hunpick, hgone⟩ := unpick_spec r name
          rw [hsource, hunpick] at h
          obtain ⟨r₁, hpick, hr₁⟩ := map_ok h
          cases hr₁
          refine hr.pick hin (.again hp (Bool.eq_false_iff.2 hsat) hgone) ?_ hsource hpick
          exact fun p hp => (mem_graph_without.1 hp).1

/-- **Sources are followed** in every state of a walk whose turns name them in time, and
    so in the one that it settles on. -/
theorem sources_followed (hwalk : Walk w m (InTime w m) r) : FollowsSource w r ∧
    ∀ r', walkRound w m r = .ok (r', false) → FollowsSource w r' := by
  have hr : FollowsSource w r := by
    refine hwalk.keeps (fun p hp => (nomatch hp)) ?_
    intro name r r' changed changed' hr hin hname
    exact hr.walkName hin hname
  refine ⟨hr, ?_⟩
  intro r' hround
  rw [(walkRound_same hround).1]
  exact hr

end Sources

/-! ## Two orders of one manifest -/

/-- The repository that `b` names for `a`. -/
def otherUrl : Text := bytesOf "file://s"

/-- `b`, which names the repository of `a`. -/
def namingEntry : IndexVersion :=
  ⟨bytesOf "1.0.0", none, [(bytesOf "b", List.replicate 64 48)],
    [⟨bytesOf "a", none, some otherUrl⟩]⟩

/-- Two repositories hold `a`, and the one of the manifest holds `b`. -/
def twoRepositories : World where
  index url name :=
    if url = indexUrl ∧ name = bytesOf "b" then .held (some [namingEntry])
    else if (url = indexUrl ∨ url = otherUrl) ∧ name = bytesOf "a" then
      .held (some [entryOf "a" "1.0.0" []])
    else if url = indexUrl ∨ url = otherUrl then .absent
    else .failed
  unnamed name := by
    rw [if_neg, if_neg, if_neg]
    · decide
    · rintro ⟨h, -⟩
      exact absurd h (by decide)
    · rintro ⟨h, -⟩
      exact absurd h (by decide)
  pathOf _ := none
  files _ := none
  project _ := .absent
  root := []

/-- What `twoRepositories` gives needs `a` alone, and `b` alone needs it. -/
theorem twoRepositories_needs {p : Package} (h : Picked twoRepositories requirements p needs)
    {q : Requirement} (hq : q ∈ needs) : p.name = bytesOf "b" ∧ q.name = bytesOf "a" := by
  cases h with
  | path hentry =>
    obtain ⟨source, files, f, header, -, -, -, hfiles, -⟩ := hentry
    cases hfiles
  | index hentry =>
    obtain ⟨versions, v, hindex, hv, -, -, rfl⟩ := hentry
    rw [repoIndex] at hindex
    split at hindex
    · rw [twoRepositories] at hindex
      dsimp only at hindex
      split at hindex
      · next hname =>
          cases hindex
          obtain rfl := mem_singleton.mp hv
          obtain rfl := mem_singleton.mp hq
          exact ⟨hname.2, rfl⟩
      · split at hindex
        · cases hindex
          obtain rfl := mem_singleton.mp hv
          cases hq
        · split at hindex <;> cases hindex
    · cases hindex

/-- `a` is required before `b` is. -/
def lateManifest : Manifest := manifestOf ["a", "b"] a_b_valid a_b_distinct

/-- The walk settles on the `a` of the repository of the manifest, though the one
    requirement that names a source of `a` names the other. -/
theorem late_source_missed : ¬ ∀ (w : World) (m : Manifest) (r : Resolver),
    walkRounds w m depsRounds (startWalk m) = .ok (some r) → FollowsSource w r := by
  intro h
  have missed : ((walkRounds twoRepositories lateManifest depsRounds
      (startWalk lateManifest)).toOption.join.any fun r => r.graph.any fun p =>
        namedSource r.requirements p.name == some (.repository otherUrl) &&
          p.repo == indexUrl) = true := by
    decide +kernel
  obtain ⟨r, hr, hgraph⟩ := (Option.any_eq_true _ _).mp missed
  obtain ⟨p, hp, hboth⟩ := List.any_eq_true.mp hgraph
  rw [Bool.and_eq_true, beq_iff_eq, beq_iff_eq] at hboth
  have hfrom := followsSource_iff.mp (h _ _ r (eq_ok_of_join hr)) p hp _ hboth.1
  have hrepo : p.repo = otherUrl := hfrom.2
  rw [hboth.2] at hrepo
  exact absurd hrepo (by decide)

/-- `b` is required before `a` is. -/
def timelyManifest : Manifest := manifestOf ["b", "a"] (by decide) (by decide)

/-- A package without a pick is picked in time where no dependency names the source of a
    package that has one. -/
theorem InTime.first {w : World} {m : Manifest} {r : Resolver} {name : Text}
    (hfirst : ∀ p ∈ r.graph, p.name ≠ name)
    (hnew : ∀ p needs, p.name = name → Picked w r.requirements p needs → ∀ q ∈ needs,
      ∀ p' ∈ r.graph ++ [p], p'.name ≠ q.name) : InTime w m r name := by
  have hsame : ∀ b, PicksFrom r name b → b = r := by
    intro b hb
    cases hb with
    | first => rfl
    | again hp =>
      obtain ⟨hmem, hname⟩ := graphPackage_some hp
      exact absurd hname (hfirst _ hmem)
  refine ⟨?_, ?_⟩
  · intro b hb x _ s hs
    rw [hsame b hb] at hs
    exact hs
  · intro b hb p needs hoffers q hq s _ _ p' hp' hname
    have hpicked := hoffers.picked
    rw [hsame b hb] at hp' hpicked
    exact absurd hname (hnew p needs hoffers.name_eq hpicked q hq p' hp')

theorem timely_walk_follows : ∃ r, walkRound twoRepositories timelyManifest r = .ok (r, false) ∧
    FollowsSource twoRepositories r ∧ r.graph.map Package.repo = [indexUrl, otherUrl] := by
  have hba : bytesOf "b" ≠ bytesOf "a" := by decide
  have hmeet : TurnsMeet twoRepositories timelyManifest (InTime twoRepositories timelyManifest)
      (namesOf (startWalk timelyManifest).requirements []) (startWalk timelyManifest) := by
    have hnames : namesOf (startWalk timelyManifest).requirements [] = [bytesOf "b", bytesOf "a"] := by
      decide
    refine ⟨.first (fun p hp => (nomatch hp)) ?_, ?_⟩
    · intro p needs hname hpicked q hq p' hp'
      obtain rfl := mem_singleton.mp hp'
      rw [hname, (twoRepositories_needs hpicked hq).2]
      exact hba
    · intro changed r changed' hturn
      have hgraph : ∀ p ∈ r.graph, p.name = bytesOf "b" := by
        cases walkName_turn hturn with
        | same => exact fun p hp => (nomatch hp)
        | first _ _ hpicks =>
          rw [hpicks.graph]
          intro p hp
          rw [mem_singleton.mp hp]
          exact hpicks.name_eq
        | again hp => cases hp
      refine ⟨.first ?_ ?_, fun _ _ _ _ => trivial⟩
      · intro p hp hname
        exact hba ((hgraph p hp).symm.trans hname)
      · intro p needs hname hpicked q hq
        have hb := (twoRepositories_needs hpicked hq).1
        exact absurd (hb.symm.trans hname) hba
  have hwalk : Walk twoRepositories timelyManifest (InTime twoRepositories timelyManifest)
      (after twoRepositories timelyManifest (startWalk timelyManifest)) :=
    .round .start hmeet (walkRound_after _ _ _ true (by decide +kernel))
  have hlast := walkRound_after twoRepositories timelyManifest
    (after twoRepositories timelyManifest (startWalk timelyManifest)) false (by decide +kernel)
  have hsame := (walkRound_same hlast).1
  rw [hsame] at hlast
  exact ⟨_, hlast, (sources_followed hwalk).1, by decide +kernel⟩

end AnticDeps
