import Antic.DepsWalkProofs
import Mathlib.Data.Finset.Card

/-! # A settled walk is a solution

    A round that changes nothing has met every requirement.  With what the walk keeps,
    the graph is then closed under the requirements, and the lock of it answers the
    manifest as soon as every pick is reached. -/

namespace AnticDeps

open Closures Contracts List Option

/-! ## The passes of `lock_reached` -/

section Lock

variable {graph : List Package}

/-- What is reached needs nothing else of the graph. -/
def ReachClosed (graph : List Package) (reached : Nat → Bool) : Prop :=
  ∀ i p k q, graph[i]? = some p → graph[k]? = some q → reached i = true →
    p.needs.contains q.name = true → reached k = true

theorem reachFrom_mono {reached : Nat → Bool} (i : Nat) {k : Nat} (h : reached k = true) :
    reachFrom graph reached i k = true := by
  rw [reachFrom]
  cases graph[i]? with
  | none => exact h
  | some p =>
    dsimp only
    by_cases hi : reached i = true
    · rw [if_pos hi]
      show (reached k || _) = true
      rw [h, Bool.true_or]
    · rw [if_neg hi]
      exact h

theorem reachPass_mono (graph : List Package) (reached : Nat → Bool) {n k : Nat} (j : Nat)
    (h : reachPass graph reached n k = true) : reachPass graph reached (n + j) k = true := by
  induction j with
  | zero => exact h
  | succ j ih => exact reachFrom_mono _ ih

theorem reachPass_closed {reached : Nat → Bool}
    (h : ∀ k < graph.length, reachPass graph reached graph.length k = reached k) :
    ReachClosed graph (reachPass graph reached graph.length) := by
  intro i p k q hp hq hi hneed
  have hilt := (List.getElem?_eq_some_iff.1 hp).1
  have hbefore : reachPass graph reached i i = true := by
    have := reachPass_mono graph reached (n := 0) i (k := i) ((h i hilt).symm.trans hi)
    rwa [Nat.zero_add] at this
  have hafter : reachPass graph reached (i + 1) k = true := by
    show reachFrom graph (reachPass graph reached i) i k = true
    simp only [reachFrom, hp, hbefore, if_true, hq, any_some, hneed, Bool.or_true]
  have := reachPass_mono graph reached (graph.length - (i + 1)) hafter
  rwa [show i + 1 + (graph.length - (i + 1)) = graph.length by omega] at this

/-- Each pass but the last one reaches a package more, so the loop ends. -/
theorem reachLoop_spec (graph : List Package) (fuel : Nat) (reached : Nat → Bool)
    (hfuel : ((Finset.range graph.length).filter fun k => reached k = false).card < fuel) :
    ∃ final, reachLoop graph fuel reached = some final ∧
      (∀ k, reached k = true → final k = true) ∧ ReachClosed graph final := by
  induction fuel generalizing reached with
  | zero => cases hfuel
  | succ fuel ih =>
    have grows : ∀ k, reached k = true →
        reachPass graph reached graph.length k = true := fun k hk => by
      have := reachPass_mono graph reached (n := 0) graph.length hk
      rwa [Nat.zero_add] at this
    rw [reachLoop]
    split
    · next hall =>
        refine ⟨_, rfl, grows, reachPass_closed fun k hk => ?_⟩
        exact beq_iff_eq.1 (List.all_eq_true.1 hall k (mem_range.2 hk))
    · next hmore =>
        obtain ⟨k, hk, hnew⟩ : ∃ k < graph.length,
            reachPass graph reached graph.length k ≠ reached k := by
          by_contra hnone
          refine hmore (List.all_eq_true.2 fun k hk => beq_iff_eq.2 ?_)
          by_contra hne
          exact hnone ⟨k, mem_range.1 hk, hne⟩
        have hold : reached k = false := by
          cases h : reached k with
          | false => rfl
          | true => exact absurd ((grows k h).trans h.symm) hnew
        have hsub : ((Finset.range graph.length).filter fun k =>
            reachPass graph reached graph.length k = false) ⊆
            (Finset.range graph.length).filter fun k => reached k = false := by
          intro j hj
          obtain ⟨hlt, hj⟩ := Finset.mem_filter.1 hj
          refine Finset.mem_filter.2 ⟨hlt, Bool.eq_false_iff.2 fun h => ?_⟩
          rw [grows j h] at hj
          cases hj
        have hfewer := Finset.card_lt_card ((Finset.ssubset_iff_of_subset hsub).2
          ⟨k, Finset.mem_filter.2 ⟨Finset.mem_range.2 hk, hold⟩, fun hmem =>
            hnew ((Finset.mem_filter.1 hmem).2.trans hold.symm)⟩)
        obtain ⟨final, hfinal, hkeep, hclosed⟩ := ih (reachPass graph reached graph.length)
          (by omega)
        exact ⟨final, hfinal, fun j hj => hkeep j (grows j hj), hclosed⟩

end Lock

/-! ## The lock of a closed graph -/

section Answers

variable {w : World} {m : Manifest} {r : Resolver} {needs : Text → List Requirement}

theorem packageNeed_mem {needs : List Text} {need x : Text} (h : x ∈ needs ∨ x = need) :
    x ∈ packageNeed needs need := by
  unfold packageNeed
  split
  · next hmem =>
      rcases h with h | rfl
      · exact h
      · exact contains_iff_mem.1 hmem
  · exact mem_append.2 (h.imp id mem_singleton.2)

theorem foldl_packageNeed {names needs : List Text} {x : Text} (h : x ∈ needs ∨ x ∈ names) :
    x ∈ names.foldl packageNeed needs := by
  induction names generalizing needs with
  | nil => exact h.resolve_right not_mem_nil
  | cons name names ih =>
    refine ih ?_
    rcases h with h | h
    · exact .inl (packageNeed_mem (.inl h))
    · exact (mem_cons.1 h).imp (fun h => packageNeed_mem (.inr h)) id

theorem recordNeeds_getElem? {k : Nat} {p : Package} (h : (recordNeeds r)[k]? = some p) :
    ∃ p₀ ∈ r.graph, p₀.name = p.name ∧ p₀.version = p.version ∧ p₀.repo = p.repo ∧
      p₀.path = p.path ∧ ∀ q ∈ r.requirements, q.origin = p.name → q.name ∈ p.needs := by
  rw [recordNeeds, getElem?_map, map_eq_some_iff] at h
  obtain ⟨p₀, hp₀, rfl⟩ := h
  refine ⟨p₀, mem_of_getElem? hp₀, rfl, rfl, rfl, rfl, fun q hq horigin => ?_⟩
  refine foldl_packageNeed (.inr (List.mem_map.2 ⟨q, mem_filter.2 ⟨hq, ?_⟩, rfl⟩))
  exact beq_iff_eq.2 horigin

theorem recordNeeds_name (p : Package) (h : p ∈ r.graph) :
    ∃ (k : Nat) (q : Package), (recordNeeds r)[k]? = some q ∧ q.name = p.name := by
  obtain ⟨k, hk⟩ := mem_iff_getElem?.1 h
  exact ⟨k, _, (getElem?_map ..).trans (congrArg (Option.map _) hk), rfl⟩

theorem lockReached_eq (h : Kept w m r needs) (hall : AllReached m r) :
    lockReached m (recordNeeds r) = some true := by
  obtain ⟨final, hfinal, hkeep, hclosed⟩ := reachLoop_spec (recordNeeds r)
    ((recordNeeds r).length + 1) (fun i => (recordNeeds r)[i]?.any fun p =>
      m.dependencies.any fun d => p.name == d.name) (by
      refine Nat.lt_succ_of_le ((Finset.card_filter_le _ _).trans ?_)
      rw [Finset.card_range])
  have root : ∀ k p, (recordNeeds r)[k]? = some p → (∃ d ∈ m.dependencies, d.name = p.name) →
      final k = true := by
    rintro k p hp ⟨d, hd, hname⟩
    refine hkeep k ?_
    simp only [hp, any_some, List.any_eq_true, beq_iff_eq]
    exact ⟨d, hd, hname.symm⟩
  have reach : ∀ x, ReachedBy m r x → ∀ k p, (recordNeeds r)[k]? = some p → p.name = x →
      final k = true := by
    intro x hx
    induction hx with
    | seed hx => exact fun k p hp hname => root k p hp (hname ▸ hx)
    | @next x y _ hxy ih =>
      intro k p hp hname
      obtain ⟨q, hq, horigin, hq'⟩ := hxy
      rcases h.origin hq with hroot | ⟨p₀, hp₀, _, hp₀'⟩
      · exact root k p hp (hname ▸ hq' ▸ (root_spec hroot).2)
      · obtain ⟨i, u, hu, hu'⟩ := recordNeeds_name p₀ hp₀
        have huname : u.name = x := hu'.trans (hp₀'.symm.trans horigin)
        obtain ⟨_, _, _, _, _, _, hneeds⟩ := recordNeeds_getElem? hu
        refine hclosed i u k p hu hp (ih i u hu huname) (contains_iff_mem.2 ?_)
        rw [hname, ← hq']
        exact hneeds q hq (horigin.trans huname.symm)
  rw [lockReached, hfinal, map_some]
  refine congrArg some (List.all_eq_true.2 fun k hk => ?_)
  have hk := getElem?_eq_getElem (mem_range.1 hk)
  obtain ⟨p₀, hp₀, hname, _⟩ := recordNeeds_getElem? hk
  exact reach _ (hall p₀ hp₀) k _ hk hname.symm

/-- Every requirement is met by a pick. -/
def AllMet (r : Resolver) : Prop :=
  ∀ q ∈ r.requirements, ∃ p ∈ r.graph, p.name = q.name ∧ satisfies q.constraint p.version = true

/-- The pick of a dependency that the manifest makes on a repository answers it, if the
    repository has a URL. -/
theorem lockAnswersOne_iff (h : Kept w m r needs) (hmet : AllMet r)
    (hpaths : ∀ q ∈ roots m, q.path = []) {d : ManifestDependency} (hd : d ∈ m.dependencies) :
    lockAnswersOne m (recordNeeds r) d = true ↔
      (d.repo ≠ [] → repositoryUrl m.repositories d.repo ≠ some []) := by
  have hroot : d.requirement m ∈ roots m := List.mem_map.2 ⟨d, hd, rfl⟩
  obtain ⟨p, hp, hname, hsat⟩ := hmet _ (h.root_mem hroot)
  obtain ⟨k, q, hk, hq⟩ := recordNeeds_name p hp
  obtain ⟨u, hu⟩ : ∃ u, graphPackage (recordNeeds r) d.name = some u := by
    refine isSome_iff_exists.1 (graphPackage_isSome.2 ⟨q, mem_of_getElem? hk, ?_⟩)
    exact hq.trans hname
  obtain ⟨humem, huname⟩ := graphPackage_some hu
  obtain ⟨j, hj⟩ := mem_iff_getElem?.1 humem
  obtain ⟨p₀, hp₀, hn, hv, hrepo, hpath, _⟩ := recordNeeds_getElem? hj
  have hp₀name : p₀.name = d.name := hn.trans huname
  obtain rfl : p₀ = p := inj_on_of_nodup_map h.names hp₀ hp (hp₀name.trans hname.symm)
  obtain ⟨hpath₀, hrepo₀⟩ := (h.pathless hpaths).2 p₀ hp₀
  have hsat : satisfies d.version u.version = true := hv ▸ hsat
  rw [lockAnswersOne, hu]
  simp only [← hpath, hpath₀, isEmpty_nil, Bool.true_and, hsat, Bool.or_eq_true,
    List.isEmpty_iff, beq_iff_eq]
  rw [← hrepo]
  by_cases hd' : d.repo = []
  · exact ⟨fun _ hne => absurd hd' hne, fun _ => .inl hd'⟩
  obtain ⟨url, hurl⟩ := isSome_iff_exists.1 (m.known d hd hd')
  have hrequired : (d.requirement m).repo = url := by
    show (if d.repo.isEmpty then [] else _) = url
    rw [if_neg (fun h => hd' (List.isEmpty_iff.1 h)), hurl, getD_some]
  constructor
  · rintro (h | h) _ hnil
    · exact hd' h
    · exact hrepo₀ (some.inj (h.symm.trans hnil))
  · intro hne
    have hurl' : url ≠ [] := fun h => hne hd' (h ▸ hurl)
    have := h.repos _ hroot (hpaths _ hroot) (hrequired ▸ hurl') p₀ hp₀ hp₀name
    exact .inr (by rw [hurl, this, hrequired])

/-- The lock of a walk that met everything answers the manifest. -/
theorem lockAnswers_iff (h : Kept w m r needs) (hall : AllReached m r) (hmet : AllMet r)
    (hpaths : ∀ d ∈ m.dependencies, d.path = []) :
    lockAnswers m (recordNeeds r) true = some true ↔
      ∀ d ∈ m.dependencies, d.repo ≠ [] → repositoryUrl m.repositories d.repo ≠ some [] := by
  have hroots : ∀ q ∈ roots m, q.path = [] := by
    intro q hq
    obtain ⟨d, hd, rfl⟩ := List.mem_map.1 hq
    exact hpaths d hd
  rw [lockAnswers, lockReached_eq h hall]
  split
  · next hempty =>
      have hgraph : r.graph = [] := by
        simpa [recordNeeds] using hempty
      have hdeps : m.dependencies = [] := by
        refine eq_nil_iff_forall_not_mem.2 fun d hd => ?_
        obtain ⟨p, hp, _⟩ := hmet _ (h.root_mem (List.mem_map.2 ⟨d, hd, rfl⟩))
        exact not_mem_nil (hgraph ▸ hp)
      rw [hdeps]
      exact ⟨fun _ d hd => (nomatch hd), fun _ => rfl⟩
  · have each : (m.dependencies.all fun d =>
        if d.path.isEmpty then lockAnswersOne m (recordNeeds r) d else !true) = true ↔
        ∀ d ∈ m.dependencies, d.repo ≠ [] → repositoryUrl m.repositories d.repo ≠ some [] := by
      rw [List.all_eq_true]
      refine forall₂_congr fun d hd => ?_
      rw [hpaths d hd, isEmpty_nil, if_pos rfl]
      exact lockAnswersOne_iff h hmet hroots hd
    split
    · next hall' => exact ⟨fun _ => each.1 hall', fun _ => rfl⟩
    · next hall' => exact ⟨fun h => (nomatch h), fun hurls => absurd (each.2 hurls) hall'⟩

end Answers

/-! ## Rounds -/

/-- Every turn of the round over `names` finds `C` of the package and the resolver. -/
def TurnsMeet (w : World) (m : Manifest) (C : Resolver → Text → Prop) : List Text → Resolver → Prop
  | [], _ => True
  | name :: names, r => C r name ∧ ∀ changed r' changed',
      walkName w m name r changed = .ok (r', changed') → TurnsMeet w m C names r'

/-- The states between the rounds of a walk whose turns meet `C`. -/
inductive Walk (w : World) (m : Manifest) (C : Resolver → Text → Prop) : Resolver → Prop where
  | start : Walk w m C (startWalk m)
  | round {r r' : Resolver} {changed : Bool} : Walk w m C r →
      TurnsMeet w m C (namesOf r.requirements []) r → walkRound w m r = .ok (r', changed) →
      Walk w m C r'

/-- What the walk ends with. -/
structure Settled (w : World) (m : Manifest) (r : Resolver) : Prop where
  /-- The graph holds each package name once. -/
  once : (r.graph.map Package.name).Nodup
  /-- The requirements are those of the manifest and, for each pick, those of what it was
      picked from; each is there once, and a pick of a repository is the highest one. -/
  exactly : ∃ needs : Text → List Requirement,
    (∀ p ∈ r.graph, Picked w r.requirements p (needs p.name)) ∧
    (∀ q ∈ r.requirements, q ∈ roots m ∨ ∃ p ∈ r.graph, q ∈ needs p.name) ∧
    (∀ q, (q ∈ roots m ∨ ∃ p ∈ r.graph, q ∈ needs p.name) →
      q.key ∈ r.requirements.map Requirement.key) ∧
    (r.requirements.map Requirement.key).Nodup
  met : AllMet r
  reached : AllReached m r
  /-- Without path dependencies the lock answers, unless a dependency names a repository
      whose URL is empty. -/
  locked : (∀ d ∈ m.dependencies, d.path = []) → (lockAnswers m (recordNeeds r) true = some true ↔
      ∀ d ∈ m.dependencies, d.repo ≠ [] → repositoryUrl m.repositories d.repo ≠ some [])

section Rounds

variable {w : World} {m : Manifest} {C : Resolver → Text → Prop}

theorem walkName_turn {name : Text} {r r' : Resolver} {changed changed' : Bool}
    (h : walkName w m name r changed = .ok (r', changed')) : Turn w r name changed r' changed' := by
  have := (walkName_gives w m name r changed).run
  rw [h] at this
  exact this

theorem walkNames_keeps {I : Resolver → Prop}
    (step : ∀ {name r r' changed changed'}, I r → C r name →
      walkName w m name r changed = .ok (r', changed') → I r')
    (names : List Text) {r r' : Resolver} {changed changed' : Bool} (hr : I r)
    (hmeet : TurnsMeet w m C names r)
    (h : walkNames w m names r changed = .ok (r', changed')) : I r' := by
  induction names generalizing r changed with
  | nil =>
    obtain ⟨rfl, rfl⟩ := Prod.mk.inj (Except.ok.inj h)
    exact hr
  | cons name names ih =>
    rw [walkNames] at h
    split at h
    · cases h
    · next r₁ changed₁ hname => exact ih (step hr hmeet.1 hname) (hmeet.2 _ _ _ hname) h

/-- What holds at the start and is kept by every turn holds between the rounds. -/
theorem Walk.keeps {I : Resolver → Prop} (start : I (startWalk m))
    (step : ∀ {name r r' changed changed'}, I r → C r name →
      walkName w m name r changed = .ok (r', changed') → I r') {r : Resolver} (h : Walk w m C r) : I r := by
  induction h with
  | start => exact start
  | round _ hmeet hround ih => exact walkNames_keeps step _ ih hmeet hround

theorem mem_namesOf {requirements : List Requirement} {names : List Text} {x : Text}
    (h : x ∈ names ∨ ∃ q ∈ requirements, q.name = x) : x ∈ namesOf requirements names := by
  induction requirements generalizing names with
  | nil => exact h.resolve_right fun ⟨_, hq, _⟩ => nomatch hq
  | cons q requirements ih =>
    refine ih ?_
    rcases h with h | ⟨q', hq', rfl⟩
    · refine .inl ?_
      split
      · exact h
      · exact mem_append_left _ h
    · rcases mem_cons.1 hq' with rfl | hq'
      · refine .inl ?_
        split
        · next hmem => exact contains_iff_mem.1 hmem
        · exact mem_append_right _ mem_cons_self
      · exact .inr ⟨q', hq', rfl⟩

/-- A round that has changed something ends so, and one that has not has met the
    requirements on each name and left the resolver as it was. -/
theorem walkNames_same (names : List Text) {r r' : Resolver} {changed : Bool}
    (h : walkNames w m names r changed = .ok (r', false)) :
    r' = r ∧ changed = false ∧ ∀ name ∈ names, Met r name := by
  induction names generalizing r changed with
  | nil =>
    obtain ⟨rfl, rfl⟩ := Prod.mk.inj (Except.ok.inj h)
    exact ⟨rfl, rfl, fun _ h => nomatch h⟩
  | cons name names ih =>
    rw [walkNames] at h
    split at h
    · cases h
    · next r₁ changed₁ hname =>
        obtain ⟨rfl, rfl, hmet⟩ := ih h
        cases walkName_turn hname with
        | same hfirst =>
          refine ⟨rfl, rfl, fun x hx => ?_⟩
          rcases mem_cons.1 hx with rfl | hx
          · exact hfirst
          · exact hmet x hx

theorem walkRound_same {r r' : Resolver} (h : walkRound w m r = .ok (r', false)) :
    r' = r ∧ AllMet r := by
  obtain ⟨hr, _, hmet⟩ := walkNames_same _ h
  refine ⟨hr, fun q hq => hmet q.name (mem_namesOf (.inr ⟨q, hq, rfl⟩)) q hq rfl⟩

/-- In every walk whose turns take a pick back only while the package stays required, a
    round that changes nothing ends with a solution. -/
theorem walk_settles {r r' : Resolver} (hwalk : Walk w m StaysRequired r)
    (hround : walkRound w m r = .ok (r', false)) : Settled w m r' := by
  obtain ⟨rfl, hmet⟩ := walkRound_same hround
  obtain ⟨⟨needs, hkept⟩, hall⟩ := hwalk.keeps
    (I := fun r => (∃ needs, Kept w m r needs) ∧ AllReached m r)
    ⟨⟨_, Kept.start w m⟩, fun p hp => (nomatch hp)⟩
    fun ⟨⟨_, hkept⟩, hall⟩ hstays hname =>
      ⟨hkept.turn (walkName_turn hname), hall.turn hkept hstays (walkName_turn hname)⟩
  exact {
    once := hkept.names
    exactly := ⟨needs, hkept.picked, hkept.made, fun q hq => by
      rcases hq with hq | ⟨p, hp, hq⟩
      · exact List.mem_map.2 ⟨q, hkept.root_mem hq, rfl⟩
      · exact hkept.has p hp q hq, hkept.once⟩
    met := hmet
    reached := hall
    locked := lockAnswers_iff hkept hall hmet }

theorem walkRounds_walk (n : Nat) {r r' : Resolver} (hwalk : Walk w m (fun _ _ => True) r)
    (h : walkRounds w m n r = .ok (some r')) :
    ∃ r₁, Walk w m (fun _ _ => True) r₁ ∧ walkRound w m r₁ = .ok (r', false) := by
  have free : ∀ names r, TurnsMeet w m (fun _ _ => True) names r := by
    intro names
    induction names with
    | nil => exact fun _ => trivial
    | cons _ _ ih => exact fun _ => ⟨trivial, fun _ r' _ _ => ih r'⟩
  induction n generalizing r with
  | zero => cases h
  | succ n ih =>
    rw [walkRounds] at h
    split at h
    · cases h
    · next r₁ hround => exact ih (.round hwalk (free _ _) hround) h
    · next r₁ hround =>
        obtain rfl := some.inj (Except.ok.inj h)
        exact ⟨r, hwalk, hround⟩

end Rounds

/-! ## Two walks -/

theorem Kept.staysRequired {w : World} {m : Manifest} {r : Resolver}
    {needs : Text → List Requirement} (h : Kept w m r needs) {q : Requirement}
    (hq : q ∈ roots m) : StaysRequired r q.name := by
  intro p hp _
  obtain ⟨hmem, hname⟩ := graphPackage_some hp
  refine ⟨q, h.root_mem hq, rfl, fun hback => ?_⟩
  exact TakenBack.ne h (hname ▸ h.named p hmem) hback (root_spec hq).1

/-- A round over dependencies of the manifest takes back nothing else. -/
theorem Walk.meets_of_roots {w : World} {m : Manifest} {r : Resolver}
    (h : Walk w m StaysRequired r) (names : List Text)
    (hnames : ∀ name ∈ names, ∃ q ∈ roots m, q.name = name) :
    TurnsMeet w m StaysRequired names r := by
  have hkept : ∃ needs, Kept w m r needs :=
    h.keeps (I := fun r => ∃ needs, Kept w m r needs) ⟨_, Kept.start w m⟩
      fun ⟨_, hkept⟩ _ hname => hkept.turn (walkName_turn hname)
  clear h
  induction names generalizing r with
  | nil => trivial
  | cons name names ih =>
    obtain ⟨needs, hkept⟩ := hkept
    obtain ⟨q, hq, rfl⟩ := hnames _ mem_cons_self
    refine ⟨hkept.staysRequired hq, fun changed r' changed' hname => ?_⟩
    exact ih (fun name hmem => hnames name (mem_cons_of_mem _ hmem))
      (hkept.turn (walkName_turn hname))

/-- The one repository of the walks below. -/
def indexUrl : Text := bytesOf "file://r"

/-- A version of an index, with one module. -/
def entryOf (name version : String) (dependencies : List (String × String)) : IndexVersion :=
  ⟨bytesOf version, none, [(bytesOf name, List.replicate 64 48)], dependencies.map fun d =>
    ⟨bytesOf d.1, if d.2 = "" then none else some (bytesOf d.2), none⟩⟩

def worldOf (entries : List (String × List IndexVersion)) : World where
  index url name :=
    if url = indexUrl then
      match entries.find? fun e => bytesOf e.1 == name with
      | some e => .held (some e.2)
      | none => .absent
    else .failed
  unnamed _ := if_neg (by decide)
  pathOf _ := none
  files _ := none
  project _ := .absent
  root := []

/-- A manifest with the repository and dependencies on any version from 1.0.0 on. -/
def manifestOf (names : List String) (hnames : ∀ name ∈ names, nameValid (bytesOf name) = true)
    (hdistinct : (names.map bytesOf).Nodup) : Manifest where
  repositories := [⟨bytesOf "r", indexUrl⟩]
  dependencies := names.map fun name => ⟨bytesOf name, bytesOf ">=1.0.0", [], []⟩
  names d hd := by
    obtain ⟨name, hname, rfl⟩ := List.mem_map.1 hd
    exact hnames name hname
  distinct := by
    rw [List.map_map]
    exact hdistinct
  known d hd hrepo := by
    obtain ⟨name, _, rfl⟩ := List.mem_map.1 hd
    exact absurd rfl hrepo

/-- The resolver after a round. -/
def after (w : World) (m : Manifest) (r : Resolver) : Resolver :=
  match walkRound w m r with
  | .ok (r', _) => r'
  | .error _ => r

theorem walkRound_after (w : World) (m : Manifest) (r : Resolver) (changed : Bool)
    (h : (match walkRound w m r with
      | .ok (_, c) => c == changed
      | .error _ => false) = true) : walkRound w m r = .ok (after w m r, changed) := by
  rw [after]
  cases hr : walkRound w m r with
  | error e =>
    rw [hr] at h
    cases h
  | ok o =>
    rw [hr] at h
    rw [← beq_iff_eq.1 h]

theorem eq_ok_of_join {ε α : Type} {x : Except ε (Option α)} {a : α}
    (h : x.toOption.join = some a) : x = .ok (some a) := by
  cases x with
  | error e => cases h
  | ok o => exact congrArg Except.ok h

/-- The pick of `a` goes back when `b` asks for its first version. -/
def loweredWorld : World := worldOf [("a", [entryOf "a" "1.0.0" [], entryOf "a" "2.0.0" []]),
    ("b", [entryOf "b" "1.0.0" [("a", "=1.0.0")]])]

theorem a_b_valid : ∀ name ∈ ["a", "b"], nameValid (bytesOf name) = true := by
  decide

theorem a_b_distinct : (["a", "b"].map bytesOf).Nodup := by
  decide

def loweredManifest : Manifest := manifestOf ["a", "b"] a_b_valid a_b_distinct

theorem lowered_walk_settles : ∃ r, walkRound loweredWorld loweredManifest r = .ok (r, false) ∧
    r.graph.map Package.name = [bytesOf "b", bytesOf "a"] ∧
    Settled loweredWorld loweredManifest r := by
  have round : ∀ {r} (changed : Bool), Walk loweredWorld loweredManifest StaysRequired r →
      ((namesOf r.requirements []).all fun name =>
        (roots loweredManifest).any fun q => q.name == name) = true →
      (match walkRound loweredWorld loweredManifest r with
        | .ok (_, c) => c == changed
        | .error _ => false) = true →
      Walk loweredWorld loweredManifest StaysRequired (after loweredWorld loweredManifest r) := by
    intro r changed hwalk hnames hround
    refine .round hwalk (hwalk.meets_of_roots _ fun name hname => ?_) (walkRound_after _ _ _ changed hround)
    simpa using List.all_eq_true.1 hnames name hname
  have h1 := round true .start (by decide +kernel) (by decide +kernel)
  have h2 := round true h1 (by decide +kernel) (by decide +kernel)
  have hlast := walkRound_after loweredWorld loweredManifest (after loweredWorld
    loweredManifest (after loweredWorld loweredManifest (startWalk loweredManifest))) false
    (by decide +kernel)
  have hsame := (walkRound_same hlast).1
  rw [hsame] at hlast
  exact ⟨_, hlast, by decide +kernel, walk_settles h2 hlast⟩

/-- `b` 2.0.0 and `a` 1.0.0 need each other, and `b` 1.0.0 leads back to `b`. -/
def cyclicWorld : World := worldOf
  [("a", [entryOf "a" "1.0.0" [], entryOf "a" "2.0.0" [("b", "=1.0.0")]]),
    ("b", [entryOf "b" "1.0.0" [("a", ""), ("c", "")], entryOf "b" "2.0.0" [("a", "1.0.0")]]),
    ("c", [entryOf "c" "1.0.0" [("b", ">=2.0.0")]])]

def cyclicManifest : Manifest := manifestOf ["a"] (by decide) (by decide)

/-- The walk takes the pick of `b` back, which takes back `a`, the one package that needs
    `b`; it then picks `b` all the same, and nothing leads to it. -/
theorem cyclic_walk_unreached : ¬ ∀ (w : World) (m : Manifest) (r r' : Resolver),
    Walk w m (fun _ _ => True) r → walkRound w m r = .ok (r', false) → Settled w m r' := by
  intro h
  have refused : ((walkRounds cyclicWorld cyclicManifest depsRounds
      (startWalk cyclicManifest)).toOption.join.bind fun r =>
        lockAnswers cyclicManifest (recordNeeds r) true) = some false := by
    decide +kernel
  obtain ⟨r, hr, hanswer⟩ := bind_eq_some_iff.mp refused
  obtain ⟨r₁, hwalk, hround⟩ := walkRounds_walk depsRounds .start (eq_ok_of_join hr)
  have answers := ((h _ _ _ _ hwalk hround).locked (by decide)).2 (by decide)
  rw [answers] at hanswer
  cases hanswer

end AnticDeps
