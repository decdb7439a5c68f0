import Antic.Closures
import Antic.DepsProofs
import Mathlib.Data.List.Nodup

/-! # What the walk keeps

    Taking a pick back takes back every pick that its requirements lead to, so no
    requirement on a package that stays is lost.  `Kept` holds in every state of every
    walk.  That every pick is reached from the manifest takes more: a pick that goes
    back must still be required when it is made again. -/

namespace AnticDeps

open Closures Contracts List Function

/-! ## Taking a pick back -/

variable {graph : List Package} {name : Text}

theorem graphPackage_isSome :
    (graphPackage graph name).isSome = true ↔ ∃ p ∈ graph, p.name = name := by
  simp only [graphPackage, find?_isSome, beq_iff_eq]

theorem graphPackage_some {p : Package} (h : graphPackage graph name = some p) :
    p ∈ graph ∧ p.name = name :=
  ⟨mem_of_find?_eq_some h, by simpa using find?_some h⟩

theorem graphPackage_none (h : graphPackage graph name = none) : ∀ p ∈ graph, p.name ≠ name :=
  fun p hp hname => find?_eq_none.1 h p hp (beq_iff_eq.2 hname)

/-- A requirement of `x` on `y`, which has a pick. -/
def Drags (r : Resolver) (x y : Text) : Prop :=
  ∃ q ∈ r.requirements, q.origin = x ∧ q.name = y ∧ (graphPackage r.graph y).isSome = true

/-- The packages whose picks go back with the pick of `name`. -/
def TakenBack (r : Resolver) (name : Text) : Text → Prop := Reached (· = name) (Drags r)

/-- The resolver without the picks of the packages `gone` and their requirements. -/
def Resolver.without (r : Resolver) (gone : List Text) : Resolver :=
  ⟨r.requirements.filter fun q => !gone.contains q.origin,
    r.graph.filter fun p => !gone.contains p.name⟩

section Without

variable {r : Resolver} {gone : List Text}

theorem mem_requirements_without {q : Requirement} :
    q ∈ (r.without gone).requirements ↔ q ∈ r.requirements ∧ q.origin ∉ gone := by
  simp [Resolver.without]

theorem mem_graph_without {p : Package} :
    p ∈ (r.without gone).graph ↔ p ∈ r.graph ∧ p.name ∉ gone := by
  simp [Resolver.without]

theorem without_nil : r.without [] = r := by
  simp [Resolver.without]

theorem without_cons (x : Text) : r.without (x :: gone) =
    ⟨(r.without gone).requirements.filter fun q => q.origin != x,
      (r.without gone).graph.filter fun p => p.name != x⟩ := by
  simp only [Resolver.without, List.filter_filter]
  congr 1 <;> refine filter_congr fun a _ => ?_
  · rw [contains_cons, Bool.not_or]
    rfl
  · rw [contains_cons, Bool.not_or]
    rfl

/-- Each turn of the loop takes one package, and the requirements of it pay for the
    packages that it adds. -/
theorem unpickLoop_spec (name : Text) (fuel : Nat) (gone work : List Text)
    (hwork : Worklist (· = name) (Drags r) (· ∈ gone) work)
    (hfuel : work.length + (r.without gone).requirements.length ≤ fuel) :
    ∃ gone', unpickLoop fuel work (r.without gone) = some (r.without gone') ∧
      ∀ x, x ∈ gone' ↔ TakenBack r name x := by
  induction fuel generalizing gone work with
  | zero =>
    obtain rfl : work = [] := length_eq_zero_iff.1 (by omega)
    exact ⟨gone, rfl, hwork.finish⟩
  | succ fuel ih =>
    cases work with
    | nil => exact ⟨gone, rfl, hwork.finish⟩
    | cons x work =>
      rw [unpickLoop, ← without_cons]
      have hgraph : ((r.without gone).graph.filter fun p => p.name != x) =
          (r.without (x :: gone)).graph := by
        rw [without_cons]
      rw [hgraph]
      refine ih (x :: gone) _ (hwork.pop (fun y => ?_) (fun y hy => ?_) fun y hxy hy => ?_) ?_
      · rw [mem_cons, or_comm]
      · obtain ⟨hy, hpick⟩ := mem_filter.1 (mem_reverse.1 hy)
        obtain ⟨q, hq, rfl⟩ := List.mem_map.1 hy
        obtain ⟨hq, hx⟩ := mem_filter.1 hq
        obtain ⟨p, hp, hname⟩ := graphPackage_isSome.1 hpick
        exact ⟨q, (mem_requirements_without.1 hq).1, beq_iff_eq.1 hx, rfl,
          graphPackage_isSome.2 ⟨p, (mem_graph_without.1 hp).1, hname⟩⟩
      · by_cases hgone : x ∈ gone
        · -- the package went before, and what it drags waits or is gone
          rcases hwork.closed x y hgone hxy with h | h
          · exact absurd (mem_cons_of_mem x h) hy
          · rcases mem_cons.1 h with rfl | h
            · exact absurd mem_cons_self hy
            · exact .inr h
        · obtain ⟨q, hq, rfl, rfl, hpick⟩ := hxy
          refine .inl (mem_reverse.2 (mem_filter.2 ⟨List.mem_map.2 ⟨q, ?_, rfl⟩, ?_⟩))
          · exact mem_filter.2 ⟨mem_requirements_without.2 ⟨hq, hgone⟩, beq_iff_eq.2 rfl⟩
          · obtain ⟨p, hp, hname⟩ := graphPackage_isSome.1 hpick
            exact graphPackage_isSome.2 ⟨p, mem_graph_without.2 ⟨hp, hname ▸ hy⟩, hname⟩
      · have hlength := length_eq_length_filter_add
          (l := (r.without gone).requirements) (fun q => q.origin == x)
        have hrest : (r.without (x :: gone)).requirements =
            (r.without gone).requirements.filter fun q => !(q.origin == x) := by
          rw [without_cons]
          rfl
        have hpushed := length_filter_le
          (fun name => (graphPackage (r.without (x :: gone)).graph name).isSome)
          ((((r.without gone).requirements.filter fun q => q.origin == x)).map Requirement.name)
        rw [length_map] at hpushed
        rw [length_append, length_reverse, hrest]
        rw [length_cons] at hfuel
        omega

/-- `unpick` ends, and takes back just what the requirements of `name` lead to. -/
theorem unpick_spec (r : Resolver) (name : Text) :
    ∃ gone, unpick r name = some (r.without gone) ∧ ∀ x, x ∈ gone ↔ TakenBack r name x := by
  have h := unpickLoop_spec (r := r) name (r.requirements.length + 1) [] [name]
    (.start (fun x => not_mem_nil) fun x => mem_singleton.symm)
  rw [without_nil] at h
  refine h ?_
  rw [length_singleton]
  omega

end Without

/-! ## What one turn of a round can do -/

/-- The requirements on the package are met. -/
def Met (r : Resolver) (name : Text) : Prop :=
  ∀ q ∈ r.requirements, q.name = name → ∃ p ∈ r.graph, p.name = name ∧
    satisfies q.constraint p.version = true

/-- A turn of a round leaves the resolver, picks a package without a pick, or takes the
    picks of `gone` back before it picks again. -/
inductive Turn (w : World) (r : Resolver) (name : Text) (changed : Bool) :
    Resolver → Bool → Prop where
  | same : Met r name → Turn w r name changed r changed
  | first {source : Requirement} {r' : Resolver} {p : Package} {needs : List Requirement} :
      (∀ p ∈ r.graph, p.name ≠ name) → sourceOf r.requirements name = some source →
      Picks w r { source with name := name } r' p needs → Turn w r name changed r' true
  | again {source : Requirement} {gone : List Text} {r' : Resolver} {p₀ p : Package}
      {needs : List Requirement} :
      graphPackage r.graph name = some p₀ →
      satisfiesAll r.requirements name p₀.version = false →
      sourceOf r.requirements name = some source → (∀ x, x ∈ gone ↔ TakenBack r name x) →
      Picks w (r.without gone) { source with name := name } r' p needs →
      Turn w r name changed r' true

theorem sourceOf_mem {requirements : List Requirement} {source : Requirement}
    (h : sourceOf requirements name = some source) :
    source ∈ requirements ∧ source.name = name := by
  rcases Option.or_eq_some_iff.1 h with h | ⟨_, h⟩
  · have hname := find?_some h
    simp only [Bool.and_eq_true, beq_iff_eq] at hname
    exact ⟨mem_of_find?_eq_some h, hname.1⟩
  · exact ⟨mem_of_find?_eq_some h, by simpa using find?_some h⟩

theorem sourceOf_none {requirements : List Requirement}
    (h : sourceOf requirements name = none) : ∀ q ∈ requirements, q.name ≠ name := by
  have h := (Option.or_eq_none_iff.1 h).2
  exact fun q hq hname => find?_eq_none.1 h q hq (beq_iff_eq.2 hname)

theorem walkName_gives (w : World) (m : Manifest) (name : Text) (r : Resolver) (changed : Bool) :
    Gives (walkName w m name r changed) (fun o => Turn w r name changed o.1 o.2) Says := by
  have unasked : sourceOf r.requirements name = none → Met r name :=
    fun h q hq hname => absurd hname (sourceOf_none h q hq)
  rw [walkName]
  cases hp : graphPackage r.graph name with
  | none =>
    cases hsource : sourceOf r.requirements name with
    | none => exact .pure (.same (unasked hsource))
    | some source =>
      refine Gives.bind (pick_gives w m r _) fun r' hr' => .pure ?_
      obtain ⟨p, needs, hpicks⟩ := hr'
      exact .first (graphPackage_none hp) hsource hpicks
  | some p₀ =>
    dsimp only
    split
    · next hsat =>
        refine .pure (.same fun q hq hname => ?_)
        obtain ⟨hmem, hp₀⟩ := graphPackage_some hp
        exact ⟨p₀, hmem, hp₀, satisfiesAll_iff.1 hsat q hq hname⟩
    · next hsat =>
        cases hsource : sourceOf r.requirements name with
        | none => exact .pure (.same (unasked hsource))
        | some source =>
          obtain ⟨gone, hunpick, hgone⟩ := unpick_spec r name
          rw [hunpick]
          refine Gives.bind (pick_gives w m (r.without gone) _) fun r' hr' => .pure ?_
          obtain ⟨p, needs, hpicks⟩ := hr'
          exact .again hp (Bool.eq_false_iff.2 hsat) hsource hgone hpicks

/-! ## What holds in every state -/

/-- The requirements of the manifest. -/
def roots (m : Manifest) : List Requirement := m.dependencies.map (·.requirement m)

/-- The requirements are those of the manifest and of the picks, and each pick is one
    of what it was picked from. -/
structure Kept (w : World) (m : Manifest) (r : Resolver) (needs : Text → List Requirement) :
    Prop where
  names : (r.graph.map Package.name).Nodup
  named : ∀ p ∈ r.graph, p.name ≠ []
  picked : ∀ p ∈ r.graph, Picked w r.requirements p (needs p.name)
  first : ∃ rest, r.requirements = roots m ++ rest
  made : ∀ q ∈ r.requirements, q ∈ roots m ∨ ∃ p ∈ r.graph, q ∈ needs p.name
  has : ∀ p ∈ r.graph, ∀ q ∈ needs p.name, q.key ∈ r.requirements.map Requirement.key
  once : (r.requirements.map Requirement.key).Nodup
  pathNamed : ∀ q ∈ r.requirements, q.path ≠ [] → q.name ≠ []
  repos : ∀ q ∈ roots m, q.path = [] → q.repo ≠ [] → ∀ p ∈ r.graph, p.name = q.name →
    p.repo = q.repo
  pathless : (∀ q ∈ roots m, q.path = []) →
    (∀ q ∈ r.requirements, q.path = []) ∧ ∀ p ∈ r.graph, p.path = [] ∧ p.repo ≠ []

theorem root_spec {m : Manifest} {q : Requirement} (h : q ∈ roots m) :
    q.origin = [] ∧ ∃ d ∈ m.dependencies, d.name = q.name := by
  obtain ⟨d, hd, rfl⟩ := List.mem_map.1 h
  exact ⟨rfl, d, hd, rfl⟩

theorem root_named {m : Manifest} {q : Requirement} (h : q ∈ roots m) : q.name ≠ [] := by
  obtain ⟨_, d, hd, hname⟩ := root_spec h
  exact hname ▸ nameValid_ne (m.names d hd)

theorem root_unique {m : Manifest} {q q' : Requirement} (h : q ∈ roots m) (h' : q' ∈ roots m)
    (hname : q.name = q'.name) : q = q' := by
  obtain ⟨d, hd, rfl⟩ := List.mem_map.1 h
  obtain ⟨d', hd', rfl⟩ := List.mem_map.1 h'
  rw [inj_on_of_nodup_map m.distinct hd hd' hname]

theorem roots_names (m : Manifest) :
    (roots m).map Requirement.name = m.dependencies.map ManifestDependency.name := by
  rw [roots, List.map_map]
  rfl

theorem roots_keys (m : Manifest) : ((roots m).map Requirement.key).Nodup := by
  refine Nodup.of_map Prod.fst ?_
  rw [List.map_map]
  exact (roots_names m).symm ▸ m.distinct

theorem startWalk_requirements (m : Manifest) : (startWalk m).requirements = roots m := by
  have grown : ∀ (qs ps : List Requirement), ((ps ++ qs).map Requirement.key).Nodup →
      qs.foldl require ps = ps ++ qs := by
    intro qs
    induction qs with
    | nil => exact fun ps _ => (append_nil ps).symm
    | cons q qs ih =>
      intro ps h
      have hnew : require ps q = ps ++ [q] := by
        refine if_neg fun hany => ?_
        rw [map_append, nodup_append] at h
        exact h.2.2 _ (any_key.1 hany) _ mem_cons_self rfl
      rw [foldl_cons, hnew, ih, append_assoc]
      · rfl
      · rw [append_assoc]
        exact h
  exact grown (roots m) [] (roots_keys m)

theorem Kept.start (w : World) (m : Manifest) : Kept w m (startWalk m) fun _ => [] where
  names := nodup_nil
  named _ h := nomatch h
  picked _ h := nomatch h
  first := ⟨[], by rw [startWalk_requirements, append_nil]⟩
  made q hq := .inl (startWalk_requirements m ▸ hq)
  has _ h := nomatch h
  once := startWalk_requirements m ▸ roots_keys m
  pathNamed q hq _ := root_named (startWalk_requirements m ▸ hq)
  repos _ _ _ _ _ h := nomatch h
  pathless h := ⟨fun q hq => h q (startWalk_requirements m ▸ hq), fun _ h => nomatch h⟩

section Kept

variable {w : World} {m : Manifest} {r : Resolver} {needs : Text → List Requirement}

variable (h : Kept w m r needs)
include h

theorem Kept.root_mem {q : Requirement} (hq : q ∈ roots m) : q ∈ r.requirements := by
  obtain ⟨rest, hrest⟩ := h.first
  rw [hrest]
  exact mem_append_left _ hq

theorem Kept.origin {q : Requirement} (hq : q ∈ r.requirements) :
    q ∈ roots m ∨ ∃ p ∈ r.graph, q ∈ needs p.name ∧ q.origin = p.name := by
  refine (h.made q hq).imp id fun ⟨p, hp, hneed⟩ => ⟨p, hp, hneed, ?_⟩
  exact ((h.picked p hp).needs hneed).1

variable {name : Text} {source : Requirement} {r' : Resolver}

theorem TakenBack.ne {x : Text} (hname : name ≠ []) (hx : TakenBack r name x) : x ≠ [] := by
  cases hx with
  | seed hx => exact hx ▸ hname
  | next _ hxy =>
    obtain ⟨q, _, _, rfl, hpick⟩ := hxy
    obtain ⟨p, hp, hp'⟩ := graphPackage_isSome.1 hpick
    exact hp' ▸ h.named p hp

theorem Kept.without (hname : name ≠ []) {gone : List Text}
    (hgone : ∀ x, x ∈ gone ↔ TakenBack r name x) : Kept w m (r.without gone) needs := by
  have hnil : [] ∉ gone := fun hmem => TakenBack.ne h hname ((hgone _).1 hmem) rfl
  -- a requirement on a package that stays is no requirement of one that goes
  have stays : ∀ q ∈ r.requirements, ∀ p ∈ r.graph, p.name = q.name → p.name ∉ gone →
      q.origin ∉ gone := by
    intro q hq p hp hpq hstay horigin
    refine hstay ((hgone _).2 (.next ((hgone _).1 horigin) ⟨q, hq, rfl, hpq.symm, ?_⟩))
    exact graphPackage_isSome.2 ⟨p, hp, rfl⟩
  exact {
    names := h.names.sublist (filter_sublist.map _)
    named := fun p hp => h.named p (mem_graph_without.1 hp).1
    picked := fun p hp => by
      obtain ⟨hp, hstay⟩ := mem_graph_without.1 hp
      refine (h.picked p hp).keep fun q hq hpq => mem_requirements_without.2 ⟨hq, ?_⟩
      exact stays q hq p hp hpq.symm hstay
    first := by
      obtain ⟨rest, hrest⟩ := h.first
      refine ⟨rest.filter fun q => !gone.contains q.origin, ?_⟩
      have hroots : (roots m).filter (fun q => !gone.contains q.origin) = roots m := by
        refine filter_eq_self.2 fun q hq => ?_
        rw [(root_spec hq).1]
        simpa using hnil
      rw [Resolver.without, hrest, filter_append, hroots]
    made := fun q hq => by
      obtain ⟨hq, hstay⟩ := mem_requirements_without.1 hq
      refine (h.origin hq).imp id fun ⟨p, hp, hneed, horigin⟩ => ⟨p, ?_, hneed⟩
      exact mem_graph_without.2 ⟨hp, horigin ▸ hstay⟩
    has := fun p hp q hq => by
      obtain ⟨hp, hstay⟩ := mem_graph_without.1 hp
      obtain ⟨q', hq', hkey⟩ := List.mem_map.1 (h.has p hp q hq)
      refine List.mem_map.2 ⟨q', mem_requirements_without.2 ⟨hq', ?_⟩, hkey⟩
      have horigin : q'.origin = q.origin := congrArg (·.2.2) hkey
      rw [horigin, ((h.picked p hp).needs hq).1]
      exact hstay
    once := h.once.sublist (filter_sublist.map _)
    pathNamed := fun q hq => h.pathNamed q (mem_requirements_without.1 hq).1
    repos := fun q hq hpath hrepo p hp => h.repos q hq hpath hrepo p (mem_graph_without.1 hp).1
    pathless := fun hroots =>
      ⟨fun q hq => (h.pathless hroots).1 q (mem_requirements_without.1 hq).1,
        fun p hp => (h.pathless hroots).2 p (mem_graph_without.1 hp).1⟩ }

/-- What the invariants ask of the source of a pick. -/
structure Fits (m : Manifest) (source : Requirement) : Prop where
  named : source.path ≠ [] → source.name ≠ []
  root : ∀ q ∈ roots m, q.path = [] → q.repo ≠ [] → q.name = source.name →
    source.repo = q.repo ∧ source.path = []
  pathless : (∀ q ∈ roots m, q.path = []) → source.path = []

/-- The requirement of the manifest comes first, so its repository is the source. -/
theorem Kept.fits (hsource : sourceOf r.requirements name = some source) :
    Fits m { source with name := name } := by
  obtain ⟨hmem, hname⟩ := sourceOf_mem hsource
  refine ⟨fun hpath => hname ▸ h.pathNamed source hmem hpath, fun q hq hpath hrepo hqname => ?_,
    fun hroots => (h.pathless hroots).1 source hmem⟩
  obtain ⟨rest, hrest⟩ := h.first
  obtain ⟨found, hfound⟩ : ∃ s, (roots m).find? (fun q => q.name == name &&
      (!q.path.isEmpty || !q.repo.isEmpty)) = some s := by
    refine Option.isSome_iff_exists.1 (find?_isSome.2 ⟨q, hq, ?_⟩)
    simp only [Bool.and_eq_true, beq_iff_eq, Bool.or_eq_true, Bool.not_eq_true',
      isEmpty_eq_false_iff]
    exact ⟨hqname, .inr hrepo⟩
  have hfirst : source = found := by
    rw [sourceOf, hrest, find?_append, hfound] at hsource
    exact (Option.some.inj hsource).symm
  have hq : found = q := by
    have hfname := find?_some hfound
    simp only [Bool.and_eq_true, beq_iff_eq] at hfname
    exact root_unique (mem_of_find?_eq_some hfound) hq (hfname.1.trans hqname.symm)
  rw [hfirst, hq]
  exact ⟨rfl, hpath⟩

theorem Kept.pick (hfits : Fits m source) (hnew : ∀ p ∈ r.graph, p.name ≠ source.name)
    {p : Package} {made : List Requirement} (hpicks : Picks w r source r' p made) :
    Kept w m r' (update needs p.name made) := by
  have hp := hpicks.name_eq
  have old : ∀ p' ∈ r.graph, update needs p.name made p'.name = needs p'.name :=
    fun p' hp' => update_of_ne (hp ▸ hnew p' hp') ..
  have mem : ∀ p' ∈ r'.graph, p' ∈ r.graph ∨ p' = p := by
    intro p' hp'
    rw [hpicks.graph] at hp'
    exact (mem_append.1 hp').imp id mem_singleton.1
  have sub : ∀ q ∈ r.requirements, q ∈ r'.requirements := fun q hq => hpicks.grows.subset hq
  have hgraph : ∀ p' ∈ r.graph, p' ∈ r'.graph := fun p' hp' => hpicks.graph ▸ mem_append_left _ hp'
  have hself : p ∈ r'.graph := hpicks.graph ▸ mem_append_right _ mem_cons_self
  refine {
    names := ?_, named := fun p' hp' => ?_, picked := fun p' hp' => ?_, first := ?_,
    made := fun q hq => ?_, has := fun p' hp' q hq => ?_, once := hpicks.grows.once h.once,
    pathNamed := fun q hq => ?_, repos := fun q hq hpath hrepo p' hp' hname => ?_,
    pathless := fun hroots => ⟨fun q hq => ?_, fun p' hp' => ?_⟩ }
  · rw [hpicks.graph, map_append, nodup_append]
    refine ⟨h.names, pairwise_singleton _ _, fun x hx y hy hxy => ?_⟩
    obtain ⟨p', hp', rfl⟩ := List.mem_map.1 hx
    rw [map_singleton, mem_singleton] at hy
    exact hnew p' hp' (hxy.trans (hy.trans hp))
  · rcases mem p' hp' with hp' | rfl
    · exact h.named p' hp'
    · by_cases hpath : source.path = []
      · exact (hpicks.repo hpath).1
      · exact hp ▸ hfits.named hpath
  · rcases mem p' hp' with hp' | rfl
    · rw [old p' hp']
      exact (h.picked p' hp').keep fun q hq _ => sub q hq
    · rw [update_self]
      exact hpicks.picked.keep fun q hq _ => sub q hq
  · obtain ⟨rest, hrest⟩ := h.first
    obtain ⟨extra, hextra, _⟩ := hpicks.grows.added
    exact ⟨rest ++ extra, by rw [hextra, hrest, append_assoc]⟩
  · rcases hpicks.grows.mem hq with hq | hq
    · refine (h.made q hq).imp id fun ⟨p', hp', hneed⟩ => ⟨p', hgraph p' hp', ?_⟩
      rw [old p' hp']
      exact hneed
    · exact .inr ⟨p, hself, by rw [update_self]; exact hq⟩
  · rcases mem p' hp' with hp' | rfl
    · rw [old p' hp'] at hq
      obtain ⟨q', hq', hkey⟩ := List.mem_map.1 (h.has p' hp' q hq)
      exact List.mem_map.2 ⟨q', sub q' hq', hkey⟩
    · rw [update_self] at hq
      exact hpicks.grows.has q hq
  · rcases hpicks.grows.mem hq with hq | hq
    · exact h.pathNamed q hq
    · exact (hpicks.picked.needs hq).2
  · rcases mem p' hp' with hp' | rfl
    · exact h.repos q hq hpath hrepo p' hp' hname
    · obtain ⟨hsame, hsource⟩ := hfits.root q hq hpath hrepo (hname.symm.trans hp)
      rw [← hsame]
      exact (hpicks.repo hsource).2.2.2 (hsame ▸ hrepo)
  · rcases hpicks.grows.mem hq with hq | hq
    · exact (h.pathless hroots).1 q hq
    · exact (hpicks.repo (hfits.pathless hroots)).2.2.1 q hq
  · rcases mem p' hp' with hp' | rfl
    · exact (h.pathless hroots).2 p' hp'
    · exact (hpicks.repo (hfits.pathless hroots)).2.1

theorem Kept.turn {changed changed' : Bool} (hturn : Turn w r name changed r' changed') :
    ∃ needs', Kept w m r' needs' := by
  cases hturn with
  | same _ => exact ⟨needs, h⟩
  | first hnew hsource hpicks => exact ⟨_, h.pick (h.fits hsource) hnew hpicks⟩
  | @again source gone r' p₀ p _ hp _ hsource hgone hpicks =>
    obtain ⟨hmem, hname⟩ := graphPackage_some hp
    refine ⟨_, (h.without (hname ▸ h.named p₀ hmem) hgone).pick (h.fits hsource)
      (fun p' hp' heq => ?_) hpicks⟩
    exact (mem_graph_without.1 hp').2 ((hgone _).2 (.seed heq))

/-! ## What the manifest reaches -/

/-- The packages that the requirements of picks lead to from the manifest. -/
def ReachedBy (m : Manifest) (r : Resolver) : Text → Prop :=
  Reached (fun x => ∃ d ∈ m.dependencies, d.name = x)
    fun x y => ∃ q ∈ r.requirements, q.origin = x ∧ q.name = y

/-- Every pick is reached. -/
def AllReached (m : Manifest) (r : Resolver) : Prop := ∀ p ∈ r.graph, ReachedBy m r p.name

/-- Where every pick is reached, every requirement leads to a package that is. -/
theorem AllReached.required (hall : AllReached m r) {q : Requirement}
    (hq : q ∈ r.requirements) : ReachedBy m r q.name := by
  rcases h.origin hq with hroot | ⟨p, hp, _, horigin⟩
  · exact .seed (root_spec hroot).2
  · exact .next (hall p hp) ⟨q, hq, horigin, rfl⟩

theorem AllReached.without (hall : AllReached m r) {gone : List Text}
    (hgone : ∀ x, x ∈ gone ↔ TakenBack r name x) : AllReached m (r.without gone) := by
  -- the way to a pick that stays leads over picks that stay
  have way : ∀ x, ReachedBy m r x → (∃ p ∈ r.graph, p.name = x) → x ∉ gone →
      ReachedBy m (r.without gone) x := by
    intro x hx
    induction hx with
    | seed hx => exact fun _ _ => .seed hx
    | @next x y _ hxy ih =>
      rintro ⟨p, hp, rfl⟩ hstay
      obtain ⟨q, hq, rfl, hname⟩ := hxy
      have horigin : q.origin ∉ gone := by
        intro hmem
        refine hstay ((hgone _).2 (.next ((hgone _).1 hmem) ⟨q, hq, rfl, hname, ?_⟩))
        exact graphPackage_isSome.2 ⟨p, hp, rfl⟩
      rcases h.origin hq with hroot | ⟨p', hp', _, hp''⟩
      · exact .seed (hname ▸ (root_spec hroot).2)
      · exact .next (ih ⟨p', hp', hp''.symm⟩ horigin)
          ⟨q, mem_requirements_without.2 ⟨hq, horigin⟩, rfl, hname⟩
  intro p hp
  obtain ⟨hp, hstay⟩ := mem_graph_without.1 hp
  exact way p.name (hall p hp) ⟨p, hp, rfl⟩ hstay

theorem AllReached.pick (hall : AllReached m r)
    (hasked : ∃ q ∈ r.requirements, q.name = source.name) {p : Package}
    {made : List Requirement} (hpicks : Picks w r source r' p made) : AllReached m r' := by
  have grown : ∀ x, ReachedBy m r x → ReachedBy m r' x := fun x hx =>
    hx.mono (fun _ h => h) fun _ _ ⟨q, hq, hxy⟩ => ⟨q, hpicks.grows.subset hq, hxy⟩
  intro p' hp'
  rw [hpicks.graph] at hp'
  rcases mem_append.1 hp' with hp' | hp'
  · exact grown _ (hall p' hp')
  · obtain ⟨q, hq, hname⟩ := hasked
    rw [mem_singleton.1 hp', hpicks.name_eq, ← hname]
    exact grown _ (hall.required h hq)

/-- If the round takes the pick of the package back, a requirement on the package stays:
    one of the manifest, or of a pick that does not go back with it. -/
def StaysRequired (r : Resolver) (name : Text) : Prop :=
  ∀ p, graphPackage r.graph name = some p → satisfiesAll r.requirements name p.version = false →
    ∃ q ∈ r.requirements, q.name = name ∧ ¬ TakenBack r name q.origin

theorem AllReached.turn (hall : AllReached m r) (hstays : StaysRequired r name)
    {changed changed' : Bool} (hturn : Turn w r name changed r' changed') :
    AllReached m r' := by
  cases hturn with
  | same _ => exact hall
  | @first source _ _ _ _ hsource hpicks => exact hall.pick h ⟨source, sourceOf_mem hsource⟩ hpicks
  | @again source gone _ p₀ _ _ hp hsat _ hgone hpicks =>
    obtain ⟨hmem, hname⟩ := graphPackage_some hp
    refine (hall.without h hgone).pick (h.without (hname ▸ h.named p₀ hmem) hgone) ?_ hpicks
    obtain ⟨q, hq, hqname, hnot⟩ := hstays p₀ hp hsat
    exact ⟨q, mem_requirements_without.2 ⟨hq, fun hmem => hnot ((hgone _).1 hmem)⟩, hqname⟩

end Kept

end AnticDeps
