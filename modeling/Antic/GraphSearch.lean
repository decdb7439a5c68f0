import Mathlib.Logic.Relation
import Mathlib.Data.Fintype.Card

/-! # Cycles of a growing graph, and shortest paths by breadth

    * `OnCycle` is a step that lies on a cycle.  A step whose end does not lead back
      to its start puts no step on a cycle (`onCycle_with`), so a graph that grows by
      such steps keeps the cycles it had.
    * `search` is the search by breadth with a queue and an early stop, over arcs that
      are scanned in a fixed order; `trace` reads the path back.  `Levels` is its
      invariant: the depth of a vertex in the tree, which is its distance. -/

namespace GraphSearch

open List Function

variable {V α : Type*}

-- ── Cycles ────

section Cycles

variable {R : V → V → Prop} {a b : V}

/-- The step from `x` to `y` lies on a cycle. -/
def OnCycle (R : V → V → Prop) (x y : V) : Prop := R x y ∧ Relation.ReflTransGen R y x

/-- `R` with one more step. -/
def With (R : V → V → Prop) (a b : V) (x y : V) : Prop := R x y ∨ (x = a ∧ y = b)

theorem reach_with {z : V} (h : Relation.ReflTransGen (With R a b) b z) :
    Relation.ReflTransGen R b z := by
  induction h with
  | refl => exact .refl
  | tail _ hstep ih =>
    rcases hstep with hstep | ⟨-, rfl⟩
    · exact ih.tail hstep
    · exact .refl

theorem reach_with_cases {x y : V} (h : Relation.ReflTransGen (With R a b) x y) :
    Relation.ReflTransGen R x y ∨
      (Relation.ReflTransGen (With R a b) x a ∧ Relation.ReflTransGen (With R a b) b y) := by
  induction h with
  | refl => exact .inl .refl
  | tail hwalk hstep ih =>
    rcases hstep with hstep | ⟨rfl, rfl⟩
    · rcases ih with ih | ⟨hxa, hby⟩
      · exact .inl (ih.tail hstep)
      · exact .inr ⟨hxa, hby.tail (.inl hstep)⟩
    · exact .inr ⟨hwalk, .refl⟩

/-- A step whose end does not lead back puts nothing on a cycle. -/
theorem onCycle_with (hback : ¬ Relation.ReflTransGen R b a) {x y : V} :
    OnCycle (With R a b) x y ↔ OnCycle R x y := by
  constructor
  · intro ⟨hstep, hwalk⟩
    rcases hstep with hstep | ⟨rfl, rfl⟩
    · rcases reach_with_cases hwalk with hwalk | ⟨hya, hbx⟩
      · exact ⟨hstep, hwalk⟩
      · exact absurd (reach_with ((hbx.tail (.inl hstep)).trans hya)) hback
    · exact absurd (reach_with hwalk) hback
  · intro ⟨hstep, hwalk⟩
    exact ⟨.inl hstep, hwalk.lift id fun _ _ h => .inl h⟩

end Cycles

-- ── Paths ────

section Paths

variable (src tgt : α → V)

/-- A path of arcs, in order. -/
inductive Path (arcs : List α) : V → V → List α → Prop where
  | nil (v : V) : Path arcs v v []
  | cons {e : α} {v : V} {p : List α} : e ∈ arcs → Path arcs (tgt e) v p →
      Path arcs (src e) v (e :: p)

variable {src tgt} {arcs : List α}

theorem Path.snoc {u : V} {e : α} {p : List α} (h : Path src tgt arcs u (src e) p)
    (he : e ∈ arcs) : Path src tgt arcs u (tgt e) (p ++ [e]) := by
  generalize hw : src e = w at h
  induction h with
  | nil v =>
    subst hw
    exact .cons he (.nil _)
  | cons hmem _ ih => exact .cons hmem (ih hw)

theorem exists_path_iff {u v : V} : (∃ p, Path src tgt arcs u v p) ↔
      Relation.ReflTransGen (fun x y => ∃ e ∈ arcs, src e = x ∧ tgt e = y) u v := by
  constructor
  · rintro ⟨p, h⟩
    induction h with
    | nil v => exact .refl
    | cons he _ ih => exact .head ⟨_, he, rfl, rfl⟩ ih
  · intro h
    induction h with
    | refl => exact ⟨[], .nil _⟩
    | tail _ hstep ih =>
      obtain ⟨e, he, rfl, rfl⟩ := hstep
      obtain ⟨p, hp⟩ := ih
      exact ⟨_, hp.snoc he⟩

end Paths

-- ── The search ────

/-- The state of the search: the arc each vertex was found by, the vertices that wait,
    and the vertices that were found. -/
structure Search (V α : Type*) where
  via : V → Option α
  queue : List V
  seen : V → Bool

section Search

variable [DecidableEq V] (src tgt : α → V)

/-- One arc, while the successors of `x` are read. -/
def meet (x : V) (s : Search V α) (e : α) : Search V α :=
  if src e = x ∧ s.seen (tgt e) = false then
    { via := update s.via (tgt e) (some e), queue := s.queue ++ [tgt e],
      seen := update s.seen (tgt e) true }
  else s

/-- Take vertices off the queue until it is empty or `goal` is found. -/
def search (arcs : List α) (goal : V) : Nat → Search V α → Search V α
  | 0, s => s
  | fuel + 1, s =>
    match s.queue with
    | [] => s
    | x :: rest =>
      if s.seen goal then s
      else search arcs goal fuel (arcs.foldl (meet src tgt x) { s with queue := rest })

/-- The state in which only `start` is found. -/
def begin (start : V) : Search V α := ⟨fun _ => none, [start], update (fun _ => false) start true⟩

/-- The arcs back from `v` to `start`, put in front of `p`. -/
def trace (via : V → Option α) (start : V) : Nat → V → List α → List α
  | 0, _, p => p
  | fuel + 1, v, p =>
    if v = start then p
    else
      match via v with
      | none => p
      | some e => trace via start fuel (src e) (e :: p)

/-- A path from `start` to `goal`, empty where there is none. -/
def shortest (arcs : List α) (size : Nat) (start goal : V) : List α :=
  let s := search src tgt arcs goal size (begin start)
  if s.seen goal && !(start = goal) then trace src s.via start size goal [] else []

variable {src tgt} {arcs : List α} {start : V}

/-- What the search keeps, with the depth of each vertex that was found. -/
structure Levels (src tgt : α → V) (arcs : List α) (start : V) (s : Search V α)
    (depth : V → Nat) : Prop where
  start_seen : s.seen start = true
  start_depth : depth start = 0
  tree : ∀ v, s.seen v = true → v ≠ start → ∃ e ∈ arcs, s.via v = some e ∧ tgt e = v ∧
    s.seen (src e) = true ∧ depth v = depth (src e) + 1
  queued : ∀ v ∈ s.queue, s.seen v = true
  done : ∀ e ∈ arcs, s.seen (src e) = true → src e ∉ s.queue →
    s.seen (tgt e) = true ∧ depth (tgt e) ≤ depth (src e) + 1
  order : s.queue.Pairwise fun u v => depth u ≤ depth v
  near : ∀ u ∈ s.queue, ∀ v, s.seen v = true → depth v ≤ depth u + 1
  behind : ∀ u ∈ s.queue, ∀ v, s.seen v = true → v ∉ s.queue → depth v ≤ depth u

theorem levels_begin : Levels src tgt arcs start (begin start) fun _ => 0 where
  start_seen := by simp [begin]
  start_depth := rfl
  tree := by
    intro v hv hne
    simp [begin, update_of_ne hne] at hv
  queued := by
    intro v hv
    simp only [begin, mem_singleton] at hv
    simp [begin, hv]
  done := by
    intro e _ hseen hq
    have hne : src e ≠ start := by simpa [begin] using hq
    simp [begin, update_of_ne hne] at hseen
  order := by simp [begin]
  near := by simp
  behind := by simp

/-- The invariant while the arcs of `x` are read, after `scanned`. -/
structure Scan (src tgt : α → V) (arcs : List α) (start x : V) (scanned : List α)
    (s : Search V α) (depth : V → Nat) : Prop where
  start_seen : s.seen start = true
  start_depth : depth start = 0
  current : s.seen x = true
  tree : ∀ v, s.seen v = true → v ≠ start → ∃ e ∈ arcs, s.via v = some e ∧ tgt e = v ∧
    s.seen (src e) = true ∧ depth v = depth (src e) + 1
  queued : ∀ v ∈ s.queue, s.seen v = true
  done : ∀ e ∈ arcs, s.seen (src e) = true → src e ∉ s.queue →
    (src e = x → e ∈ scanned) → s.seen (tgt e) = true ∧ depth (tgt e) ≤ depth (src e) + 1
  order : s.queue.Pairwise fun u v => depth u ≤ depth v
  low : ∀ u ∈ s.queue, depth x ≤ depth u
  high : ∀ v, s.seen v = true → depth v ≤ depth x + 1
  behind : ∀ v, s.seen v = true → v ∉ s.queue → depth v ≤ depth x

variable {s : Search V α} {depth : V → Nat}

theorem Levels.scan {x : V} {rest : List V} (h : Levels src tgt arcs start s depth)
    (hq : s.queue = x :: rest) :
    Scan src tgt arcs start x [] { s with queue := rest } depth := by
  have horder := h.order
  rw [hq, pairwise_cons] at horder
  have hx : x ∈ s.queue := hq ▸ mem_cons_self
  refine ⟨h.start_seen, h.start_depth, h.queued x hx, h.tree, fun v hv => ?_,
    fun e he hseen hrest hscan => ?_, horder.2, horder.1, h.near x hx, fun v hv hrest => ?_⟩
  · exact h.queued v (hq ▸ mem_cons_of_mem _ hv)
  · refine h.done e he hseen ?_
    rw [hq, mem_cons, not_or]
    exact ⟨fun heq => absurd (hscan heq) not_mem_nil, hrest⟩
  · by_cases hvx : v = x
    · rw [hvx]
    refine h.behind x hx v hv ?_
    rw [hq, mem_cons, not_or]
    exact ⟨hvx, hrest⟩

omit [DecidableEq V] in
theorem Scan.levels {x : V} (h : Scan src tgt arcs start x arcs s depth) :
    Levels src tgt arcs start s depth := by
  refine ⟨h.start_seen, h.start_depth, h.tree, h.queued,
    fun e he hseen hq => h.done e he hseen hq fun _ => he, h.order, ?_, ?_⟩
  · intro u hu v hv
    exact (h.high v hv).trans (Nat.add_le_add_right (h.low u hu) 1)
  · intro u hu v hv hq
    exact (h.behind v hv hq).trans (h.low u hu)

theorem Scan.skip {x : V} {scanned : List α} {e : α} (h : Scan src tgt arcs start x scanned s depth)
    (hold : src e = x → s.seen (tgt e) = true) :
    Scan src tgt arcs start x (scanned ++ [e]) s depth := by
  refine { h with done := fun f hf hseen hq hscan => ?_ }
  by_cases hfx : src f = x
  · rcases mem_append.1 (hscan hfx) with hmem | hmem
    · exact h.done f hf hseen hq fun _ => hmem
    · rw [mem_singleton] at hmem
      subst hmem
      exact ⟨hold hfx, hfx ▸ h.high _ (hold hfx)⟩
  · exact h.done f hf hseen hq fun heq => absurd heq hfx

/-- A vertex found from `x` joins the queue one deeper than `x`. -/
theorem Scan.found {x : V} {scanned : List α} {e : α}
    (h : Scan src tgt arcs start x scanned s depth) (he : e ∈ arcs) (hx : src e = x)
    (hnew : s.seen (tgt e) = false) :
    Scan src tgt arcs start x (scanned ++ [e]) (meet src tgt x s e)
      (update depth (tgt e) (depth x + 1)) := by
  have hmeet : meet src tgt x s e =
      { via := update s.via (tgt e) (some e), queue := s.queue ++ [tgt e],
        seen := update s.seen (tgt e) true } := by
    rw [meet, if_pos ⟨hx, hnew⟩]
  -- what was found before keeps its depth
  have hold : ∀ v, s.seen v = true → v ≠ tgt e := by
    rintro v hv rfl
    rw [hnew] at hv
    exact nomatch hv
  have hdepth : ∀ v, s.seen v = true →
      update depth (tgt e) (depth x + 1) v = depth v :=
    fun v hv => update_of_ne (hold v hv) _ _
  have hseen : ∀ v, (meet src tgt x s e).seen v = true ↔ s.seen v = true ∨ v = tgt e := by
    intro v
    rw [hmeet]
    by_cases hv : v = tgt e
    · simp [hv]
    · simp [hv]
  have hqueue : ∀ v, v ∈ (meet src tgt x s e).queue ↔ v ∈ s.queue ∨ v = tgt e := by
    intro v
    rw [hmeet]
    simp
  refine ⟨(hseen _).2 (.inl h.start_seen), ?_, (hseen _).2 (.inl h.current), ?_, ?_, ?_, ?_, ?_,
    ?_, ?_⟩
  · rw [hdepth _ h.start_seen, h.start_depth]
  · intro v hv hne
    rcases (hseen v).1 hv with hv | rfl
    · obtain ⟨f, hf, hvia, htgt, hsrc, hd⟩ := h.tree v hv hne
      refine ⟨f, hf, ?_, htgt, (hseen _).2 (.inl hsrc), ?_⟩
      · rw [hmeet]
        exact (update_of_ne (hold v hv) _ _).trans hvia
      · rw [hdepth v hv, hdepth _ hsrc, hd]
    · refine ⟨e, he, ?_, rfl, (hseen _).2 (.inl (hx ▸ h.current)), ?_⟩
      · rw [hmeet]
        exact update_self _ _ _
      · rw [update_self, hx, hdepth x h.current]
  · intro v hv
    rcases (hqueue v).1 hv with hv | rfl
    · exact (hseen v).2 (.inl (h.queued v hv))
    · exact (hseen _).2 (.inr rfl)
  · intro f hf hfs hfq hscan
    rw [hqueue, not_or] at hfq
    have hfs : s.seen (src f) = true := ((hseen _).1 hfs).resolve_right hfq.2
    by_cases hfx : src f = x
    · rcases mem_append.1 (hscan hfx) with hmem | hmem
      · obtain ⟨hs, hd⟩ := h.done f hf hfs hfq.1 fun _ => hmem
        refine ⟨(hseen _).2 (.inl hs), ?_⟩
        rw [hdepth _ hs, hdepth _ hfs]
        exact hd
      · rw [mem_singleton] at hmem
        subst hmem
        refine ⟨(hseen _).2 (.inr rfl), ?_⟩
        rw [update_self, hdepth _ (hfx ▸ h.current), hfx]
    · obtain ⟨hs, hd⟩ := h.done f hf hfs hfq.1 fun heq => absurd heq hfx
      refine ⟨(hseen _).2 (.inl hs), ?_⟩
      rw [hdepth _ hs, hdepth _ hfs]
      exact hd
  · rw [hmeet]
    refine pairwise_append.2 ⟨h.order.imp_of_mem fun hu hv huv => ?_,
      pairwise_singleton _ _, fun u hu v hv => ?_⟩
    · rw [hdepth _ (h.queued _ hu), hdepth _ (h.queued _ hv)]
      exact huv
    · rw [mem_singleton] at hv
      rw [hv, hdepth _ (h.queued u hu), update_self]
      exact h.high u (h.queued u hu)
  · intro u hu
    rw [hdepth x h.current]
    rcases (hqueue u).1 hu with hu | rfl
    · rw [hdepth u (h.queued u hu)]
      exact h.low u hu
    · rw [update_self]
      exact Nat.le_succ _
  · intro v hv
    rw [hdepth x h.current]
    rcases (hseen v).1 hv with hv | rfl
    · rw [hdepth v hv]
      exact h.high v hv
    · rw [update_self]
  · intro v hv hq
    rw [hqueue, not_or] at hq
    have hv : s.seen v = true := ((hseen v).1 hv).resolve_right hq.2
    rw [hdepth x h.current, hdepth v hv]
    exact h.behind v hv hq.1

theorem Scan.fold {x : V} : ∀ {rest scanned : List α} {s : Search V α} {depth : V → Nat},
    Scan src tgt arcs start x scanned s depth → (∀ e ∈ rest, e ∈ arcs) →
      ∃ depth', Scan src tgt arcs start x (scanned ++ rest)
        (rest.foldl (meet src tgt x) s) depth' := by
  intro rest
  induction rest with
  | nil =>
    intro scanned s depth h _
    exact ⟨depth, by simpa using h⟩
  | cons e rest ih =>
    intro scanned s depth h hmem
    have hrest : ∀ f ∈ rest, f ∈ arcs := fun f hf => hmem f (mem_cons_of_mem _ hf)
    rw [foldl_cons, append_cons]
    by_cases hx : src e = x ∧ s.seen (tgt e) = false
    · exact ih (h.found (hmem e mem_cons_self) hx.1 hx.2) hrest
    · have hskip : meet src tgt x s e = s := if_neg hx
      rw [hskip]
      refine ih (h.skip fun heq => ?_) hrest
      simpa [heq] using hx

theorem levels_search {goal : V} : ∀ {fuel : Nat} {s : Search V α} {depth : V → Nat},
    Levels src tgt arcs start s depth →
      ∃ depth', Levels src tgt arcs start (search src tgt arcs goal fuel s) depth' := by
  intro fuel
  induction fuel with
  | zero =>
    intro s depth h
    exact ⟨depth, h⟩
  | succ fuel ih =>
    intro s depth h
    cases hq : s.queue with
    | nil =>
      simp only [search, hq]
      exact ⟨depth, h⟩
    | cons x rest =>
      by_cases hg : s.seen goal = true
      · simp only [search, hq, if_pos hg]
        exact ⟨depth, h⟩
      · simp only [search, hq, if_neg hg]
        obtain ⟨depth', h'⟩ := (h.scan hq).fold (fun e he => he)
        exact ih h'.levels

-- The fuel: a vertex that is not found yet, or waits, is taken off at most once.

/-- The vertices that are not found, and those that wait. -/
def left [Fintype V] (s : Search V α) : Nat :=
  (Finset.univ.filter fun v => s.seen v = false).card + s.queue.length

theorem left_meet [Fintype V] (x : V) (s : Search V α) (e : α) :
    left (meet src tgt x s e) = left s := by
  by_cases h : src e = x ∧ s.seen (tgt e) = false
  · rw [meet, if_pos h]
    have hmem : tgt e ∈ Finset.univ.filter fun v => s.seen v = false := by simp [h.2]
    have herase : (Finset.univ.filter fun v =>
        update s.seen (tgt e) true v = false) =
          (Finset.univ.filter fun v => s.seen v = false).erase (tgt e) := by
      ext v
      by_cases hv : v = tgt e
      · simp [hv]
      · simp [hv]
    have hpos := Finset.card_pos.2 ⟨_, hmem⟩
    simp only [left, herase, Finset.card_erase_of_mem hmem, length_append, length_singleton]
    omega
  · rw [meet, if_neg h]

theorem left_fold [Fintype V] (x : V) (rest : List α) (s : Search V α) :
    left (rest.foldl (meet src tgt x) s) = left s := by
  induction rest generalizing s with
  | nil => rfl
  | cons e rest ih => rw [foldl_cons, ih, left_meet]

theorem search_ends [Fintype V] {goal : V} : ∀ {fuel : Nat} {s : Search V α}, left s ≤ fuel →
    (search src tgt arcs goal fuel s).queue = [] ∨
      (search src tgt arcs goal fuel s).seen goal = true := by
  intro fuel
  induction fuel with
  | zero =>
    intro s h
    refine .inl (length_eq_zero_iff.1 ?_)
    show s.queue.length = 0
    simp only [left] at h
    omega
  | succ fuel ih =>
    intro s h
    cases hq : s.queue with
    | nil => exact .inl (by simp only [search, hq])
    | cons x rest =>
      by_cases hg : s.seen goal = true
      · exact .inr (by simp only [search, hq, if_pos hg]; exact hg)
      · simp only [search, hq, if_neg hg]
        refine ih ?_
        rw [left_fold]
        simp only [left, hq, length_cons] at h ⊢
        omega

theorem left_begin [Fintype V] : left (begin start : Search V α) = Fintype.card V := by
  have herase : (Finset.univ.filter fun v =>
      update (fun _ => false) start true v = false) = Finset.univ.erase start := by
    ext v
    by_cases hv : v = start
    · simp [hv]
    · simp [hv]
  have hpos : 0 < Fintype.card V := Fintype.card_pos_iff.2 ⟨start⟩
  have hleft : left (begin start : Search V α) = (Finset.univ.filter fun v =>
      update (fun _ => false) start true v = false).card + 1 := rfl
  rw [hleft, herase, Finset.card_erase_of_mem (Finset.mem_univ start), Finset.card_univ]
  omega

-- What the levels say of paths.

variable (h : Levels src tgt arcs start s depth)
include h

/-- A path from a vertex that was found stays among the vertices found, or passes one
    that waits before its end. -/
theorem Levels.along {u v : V} {p : List α} (hp : Path src tgt arcs u v p) :
    ∀ {i : Nat}, s.seen u = true → depth u ≤ i → (s.seen v = true ∧ depth v ≤ i + p.length) ∨
        ∃ w ∈ s.queue, depth w < i + p.length := by
  induction hp with
  | nil v => exact fun hu hi => .inl ⟨hu, hi⟩
  | @cons e v p he hp ih =>
    intro i hu hi
    by_cases hq : src e ∈ s.queue
    · exact .inr ⟨src e, hq, by rw [length_cons]; omega⟩
    obtain ⟨hs, hd⟩ := h.done e he hu hq
    have hnext := ih hs (hd.trans (Nat.add_le_add_right hi 1))
    rw [length_cons, Nat.add_comm p.length 1, ← Nat.add_assoc]
    exact hnext

/-- No path to a vertex that was found is shorter than its depth. -/
theorem Levels.depth_le {v : V} {p : List α} (hp : Path src tgt arcs start v p)
    (hv : s.seen v = true) : depth v ≤ p.length := by
  rcases h.along hp h.start_seen h.start_depth.le with ⟨-, hd⟩ | ⟨w, hw, hd⟩
  · omega
  · have := h.near w hw v hv
    omega

theorem Levels.reached (hq : s.queue = []) {v : V} {p : List α}
    (hp : Path src tgt arcs start v p) : s.seen v = true := by
  rcases h.along hp h.start_seen h.start_depth.le with ⟨hv, -⟩ | ⟨w, hw, -⟩
  · exact hv
  · rw [hq] at hw
    exact absurd hw not_mem_nil

omit [DecidableEq V] in
theorem Levels.exists_depth : ∀ {n : Nat} {v : V}, s.seen v = true →
      depth v = n → ∀ j ≤ n, ∃ u, depth u = j := by
  intro n
  induction n with
  | zero =>
    intro v _ hd j hj
    exact ⟨v, by omega⟩
  | succ n ih =>
    intro v hv hd j hj
    by_cases hjn : j = n + 1
    · exact ⟨v, by omega⟩
    have hne : v ≠ start := by
      rintro rfl
      rw [h.start_depth] at hd
      omega
    obtain ⟨e, -, -, -, hs, hde⟩ := h.tree v hv hne
    exact ih hs (by omega) j (by omega)

omit [DecidableEq V] in
theorem Levels.depth_lt [Fintype V] {v : V} (hv : s.seen v = true) :
    depth v < Fintype.card V := by
  have hsub : Finset.range (depth v + 1) ⊆ Finset.univ.image depth := by
    intro j hj
    obtain ⟨u, hu⟩ := h.exists_depth hv rfl j (Nat.lt_succ_iff.1 (Finset.mem_range.1 hj))
    exact Finset.mem_image.2 ⟨u, Finset.mem_univ u, hu⟩
  have hcard := (Finset.card_le_card hsub).trans Finset.card_image_le
  rwa [Finset.card_range, Finset.card_univ] at hcard

theorem Levels.trace_spec : ∀ {fuel : Nat} {v : V} (p : List α), s.seen v = true → depth v ≤ fuel →
        ∃ q, trace src s.via start fuel v p = q ++ p ∧ Path src tgt arcs start v q ∧
          q.length = depth v := by
  intro fuel
  induction fuel with
  | zero =>
    intro v p hv hd
    by_cases hs : v = start
    · subst hs
      exact ⟨[], rfl, .nil _, by rw [h.start_depth]; rfl⟩
    · obtain ⟨e, -, -, -, -, hde⟩ := h.tree v hv hs
      omega
  | succ fuel ih =>
    intro v p hv hd
    by_cases hs : v = start
    · subst hs
      exact ⟨[], by simp [trace], .nil _, by rw [h.start_depth]; rfl⟩
    · obtain ⟨e, he, hvia, htgt, hsrc, hde⟩ := h.tree v hv hs
      obtain ⟨q, hq, hpath, hlen⟩ := ih (e :: p) hsrc (by omega)
      refine ⟨q ++ [e], ?_, htgt ▸ hpath.snoc he, ?_⟩
      · simp only [trace, if_neg hs, hvia, hq, append_assoc, singleton_append]
      · rw [length_append, length_singleton, hlen, hde]

omit h in
/-- **The search by breadth.**  What it gives is a path, no path is shorter, and it
    gives one wherever there is one. -/
theorem shortest_spec [Fintype V] {goal : V} (hne : start ≠ goal) :
    (shortest src tgt arcs (Fintype.card V) start goal ≠ [] →
      Path src tgt arcs start goal (shortest src tgt arcs (Fintype.card V) start goal)) ∧
    ∀ p, Path src tgt arcs start goal p → shortest src tgt arcs (Fintype.card V) start goal ≠ [] ∧
        (shortest src tgt arcs (Fintype.card V) start goal).length ≤ p.length := by
  have hbegin : Levels src tgt arcs start (begin start) fun _ => 0 := levels_begin
  obtain ⟨depth, h⟩ : ∃ depth, Levels src tgt arcs start
      (search src tgt arcs goal (Fintype.card V) (begin start)) depth := levels_search hbegin
  have hends : (search src tgt arcs goal (Fintype.card V) (begin start)).queue = [] ∨
      (search src tgt arcs goal (Fintype.card V) (begin start)).seen goal = true :=
    search_ends left_begin.le
  by_cases hseen : (search src tgt arcs goal (Fintype.card V) (begin start)).seen goal = true
  · obtain ⟨q, hq, hpath, hlen⟩ := h.trace_spec [] hseen (h.depth_lt hseen).le
    have heq : shortest src tgt arcs (Fintype.card V) start goal = q := by
      simp [shortest, hseen, hne, hq]
    rw [heq]
    have hqne : q ≠ [] := by
      rintro rfl
      cases hpath
      exact hne rfl
    exact ⟨fun _ => hpath, fun p hp => ⟨hqne, hlen ▸ h.depth_le hp hseen⟩⟩
  · have heq : shortest src tgt arcs (Fintype.card V) start goal = [] := by
      simp [shortest, hseen]
    refine ⟨fun hnil => absurd heq hnil, fun p hp => ?_⟩
    exact absurd (h.reached (hends.resolve_right hseen) hp) hseen

end Search

end GraphSearch
