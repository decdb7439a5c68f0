import Antic.LockOrder

/-! # Which edges `find_cycles` refuses

    `Before e` is the graph of the edges added before edge `e`.  One edge is decided by `added_iff`,
    and `before_succ` says what it does to the graph; the rest is an induction over the edges.

    * In a program no added edge ever lies on a cycle.
    * Without a `main` the libraries may close cycles among themselves.  The edges of the module
      then put nothing more on a cycle, but one that runs beside an edge on such a cycle is kept by
      `kept_before` all the same. -/

namespace AnticLockOrder

open GraphSearch Relation List

variable {lockCount : Nat} {main : Option Pos} {edges : List (GraphEdge lockCount)}

/-- An edge from `x` to `y` was added before edge `e`. -/
def Before (edges : List (GraphEdge lockCount)) (added : Nat → Bool) (e : Nat)
    (x y : Fin lockCount) : Prop :=
  ∃ k < e, ∃ f, edges[k]? = some f ∧ added k = true ∧ f.held = x ∧ f.taken = y

/-- An edge of a library from `x` to `y`. -/
def OfLibrary (edges : List (GraphEdge lockCount)) (x y : Fin lockCount) : Prop :=
  ∃ f ∈ edges, f.module_ ≠ none ∧ f.held ≠ f.taken ∧ f.held = x ∧ f.taken = y

/-- The edges are sorted by `edge_order`. -/
def Sorted (edges : List (GraphEdge lockCount)) : Prop :=
  edges.Pairwise fun a b => edgeOrder a b ≠ .gt

-- ── `find_path` ────

variable {added : Nat → Bool} {e k : Nat} {edge : GraphEdge lockCount}

theorem mem_arcs {e : Indexed lockCount} :
    e ∈ arcs edges added ↔ edges[e.2]? = some e.1 ∧ added e.2 = true := by
  rw [arcs, mem_filter, mem_zipIdx_iff_getElem?]

theorem path_iff (hadded : ∀ k, added k = true → k < e) {u v : Fin lockCount} :
    (∃ p, Path (fun e => e.1.held) (fun e => e.1.taken) (arcs edges added) u v p) ↔
      ReflTransGen (Before edges added e) u v := by
  have hsame : (fun x y => ∃ a ∈ arcs edges added, a.1.held = x ∧ a.1.taken = y) =
      Before edges added e := by
    funext x y
    refine propext ⟨?_, ?_⟩
    · rintro ⟨⟨f, k⟩, hmem, rfl, rfl⟩
      obtain ⟨hf, hk⟩ := mem_arcs.1 hmem
      exact ⟨k, hadded k hk, f, hf, hk, rfl, rfl⟩
    · rintro ⟨k, -, f, hf, hk, rfl, rfl⟩
      exact ⟨(f, k), mem_arcs.2 ⟨hf, hk⟩, rfl, rfl⟩
  rw [exists_path_iff, hsame]

/-- `find_path` gives a path of the edges added, no path is shorter, and it gives one
    wherever there is one. -/
theorem findPath_shortest (edges : List (GraphEdge lockCount)) (added : Nat → Bool)
    {start goal : Fin lockCount} (hne : start ≠ goal) :
    (findPath edges added start goal ≠ [] →
      Path (fun e => e.1.held) (fun e => e.1.taken) (arcs edges added) start goal
        (findPath edges added start goal)) ∧
    ∀ p, Path (fun e => e.1.held) (fun e => e.1.taken) (arcs edges added) start goal p →
      findPath edges added start goal ≠ [] ∧
        (findPath edges added start goal).length ≤ p.length := by
  have hspec := @shortest_spec (Fin lockCount) (Indexed lockCount) _ (fun e => e.1.held)
    (fun e => e.1.taken) (arcs edges added) start _ goal hne
  rwa [Fintype.card_fin] at hspec

theorem findPath_eq_nil (hadded : ∀ k, added k = true → k < e) {u v : Fin lockCount} (hne : u ≠ v) :
    findPath edges added u v = [] ↔ ¬ ReflTransGen (Before edges added e) u v := by
  rw [← path_iff hadded]
  constructor
  · rintro hnil ⟨p, hp⟩
    exact ((findPath_shortest edges added hne).2 p hp).1 hnil
  · intro hno
    by_contra hnil
    exact hno ⟨_, (findPath_shortest edges added hne).1 hnil⟩

-- ── One edge ────

theorem readEdge_added (s : Cycles lockCount) (e : Indexed lockCount) (hk : k ≠ e.2) :
    (readEdge main edges s e).added k = s.added k := by
  have hadd : (s.add e.2).added k = s.added k := Function.update_of_ne hk _ _
  unfold readEdge
  split
  · rfl
  split
  · exact hadd
  split
  · exact hadd
  split
  · exact hadd
  · rfl
  · rfl

theorem findCyclesTo_succ (hk : edges[k]? = some edge) : findCyclesTo main edges (k + 1) =
      readEdge main edges (findCyclesTo main edges k) (edge, k) := by
  have hget : edges.zipIdx[k]? = some (edge, k) := by
    rw [getElem?_zipIdx, hk]
    simp
  obtain ⟨hlt, hget⟩ := List.getElem?_eq_some_iff.1 hget
  rw [findCyclesTo, take_succ_eq_append_getElem hlt, foldl_append, hget]
  rfl

theorem findCyclesTo_of_le (hk : edges.length ≤ k) :
    findCyclesTo main edges k = findCycles main edges := by
  have hlen : edges.zipIdx.length ≤ edges.length := by rw [length_zipIdx]
  rw [findCycles, findCyclesTo, findCyclesTo, take_of_length_le hlen,
    take_of_length_le (hlen.trans hk)]

theorem added_turn : ∀ {n : Nat}, (findCyclesTo main edges n).added k =
      if k < n then (findCyclesTo main edges (k + 1)).added k else false := by
  intro n
  induction n with
  | zero => rfl
  | succ n ih =>
    cases hn : edges[n]? with
    | none =>
      -- past the end nothing changes
      have hle := List.getElem?_eq_none_iff.1 hn
      rw [findCyclesTo_of_le (hle.trans (Nat.le_succ n)), ← findCyclesTo_of_le hle, ih]
      by_cases hk : k < n
      · rw [if_pos hk, if_pos (hk.trans (Nat.lt_succ_self n))]
      · rw [if_neg hk]
        split
        · obtain rfl : k = n := by omega
          rw [findCyclesTo_of_le (hle.trans (Nat.le_succ k)), ← findCyclesTo_of_le hle, ih,
            if_neg hk]
        · rfl
    | some edge =>
      by_cases hk : k = n
      · rw [hk, if_pos (Nat.lt_succ_self n)]
      · rw [findCyclesTo_succ hn, readEdge_added _ _ hk, ih]
        by_cases hlt : k < n
        · rw [if_pos hlt, if_pos (hlt.trans (Nat.lt_succ_self n))]
        · rw [if_neg hlt, if_neg (by omega)]

theorem added_lt {n : Nat} (h : (findCyclesTo main edges n).added k = true) : k < n := by
  rw [added_turn] at h
  by_contra hk
  rw [if_neg hk] at h
  exact nomatch h

theorem added_final {n : Nat} (hk : k < n) :
    (findCyclesTo main edges n).added k = (findCycles main edges).added k := by
  rw [findCycles, added_turn (n := n), added_turn (n := edges.length), if_pos hk]
  split
  · rfl
  · have hle : edges.length ≤ k := Nat.le_of_not_lt ‹_›
    rw [findCyclesTo_of_le (hle.trans (Nat.le_succ k)), ← findCyclesTo_of_le hle, added_turn,
      if_neg (Nat.lt_irrefl k)]

/-- The graph of `find_cycles` before edge `e`. -/
abbrev BeforeTurn (main : Option Pos) (edges : List (GraphEdge lockCount)) (e : Nat) :
    Fin lockCount → Fin lockCount → Prop :=
  Before edges (findCycles main edges).added e

theorem before_turn :
    Before edges (findCyclesTo main edges e).added e = BeforeTurn main edges e := by
  funext x y
  refine propext (exists_congr fun k => and_congr_right fun hk => ?_)
  rw [added_final hk]

theorem keptBefore_iff :
    keptBefore edges added e edge = true ↔ Before edges added e edge.held edge.taken := by
  rw [keptBefore, List.any_eq_true]
  constructor
  · rintro ⟨⟨f, k⟩, hmem, hk⟩
    rw [mem_zipIdx_iff_getElem?] at hmem
    obtain ⟨hlt, hget⟩ := List.getElem?_eq_some_iff.1 hmem
    simp only [Bool.and_eq_true, beq_iff_eq] at hk
    have hke : k < e := by
      have := hlt.trans_le (length_take_le _ _)
      exact this
    rw [getElem?_take, if_pos hke] at hmem
    exact ⟨k, hke, f, hmem, hk.1.1, hk.1.2, hk.2⟩
  · rintro ⟨k, hke, f, hf, hk, hheld, htaken⟩
    refine ⟨(f, k), ?_, by simp [hk, hheld, htaken]⟩
    rw [mem_zipIdx_iff_getElem?, getElem?_take, if_pos hke]
    exact hf

/-- **One edge.**  It is added beside an edge that was kept, where it closes no cycle,
    or where it is of a library and the module has no `main`. -/
theorem added_iff (he : edges[e]? = some edge) :
    (findCycles main edges).added e = true ↔ edge.held ≠ edge.taken ∧
      (BeforeTurn main edges e edge.held edge.taken ∨
        ¬ ReflTransGen (BeforeTurn main edges e) edge.taken edge.held ∨
        (edge.module_ ≠ none ∧ main = none)) := by
  rw [← added_final (Nat.lt_succ_self e), findCyclesTo_succ he, ← before_turn, ← keptBefore_iff]
  have hbefore : ∀ k, (findCyclesTo main edges e).added k = true → k < e := fun _ => added_lt
  have hold : (findCyclesTo main edges e).added e ≠ true := fun h => Nat.lt_irrefl e (added_lt h)
  have hadd : ((findCyclesTo main edges e).add e).added e = true := Function.update_self _ _ _
  by_cases hself : edge.held = edge.taken
  · simp [readEdge, hself, hold]
  rw [← findPath_eq_nil hbefore (Ne.symm hself)]
  by_cases hkept : keptBefore edges (findCyclesTo main edges e).added e edge = true
  · simp [readEdge, hself, hkept, hadd]
  cases hpath : findPath edges (findCyclesTo main edges e).added edge.taken edge.held with
  | nil => simp [readEdge, hself, hpath, hadd]
  | cons next rest =>
    cases hmodule : edge.module_ with
    | none => simp [readEdge, hself, hkept, hpath, hmodule, hold]
    | some m =>
      cases main with
      | none => simp [readEdge, hself, hpath, hmodule, hadd]
      | some pos => simp [readEdge, hself, hkept, hpath, hmodule, hold]

theorem before_succ (he : edges[e]? = some edge) : BeforeTurn main edges (e + 1) =
      if (findCycles main edges).added e = true then
        With (BeforeTurn main edges e) edge.held edge.taken
      else BeforeTurn main edges e := by
  funext x y
  refine propext ⟨?_, fun h => ?_⟩
  · rintro ⟨k, hk, f, hf, hadded, hx, hy⟩
    rcases Nat.lt_succ_iff_lt_or_eq.1 hk with hlt | rfl
    · have hold : BeforeTurn main edges e x y := ⟨k, hlt, f, hf, hadded, hx, hy⟩
      split
      · exact .inl hold
      · exact hold
    · rw [he] at hf
      obtain rfl := Option.some.inj hf
      rw [if_pos hadded]
      exact .inr ⟨hx.symm, hy.symm⟩
  · have hmono : BeforeTurn main edges e x y → BeforeTurn main edges (e + 1) x y := by
      rintro ⟨k, hk, hrest⟩
      exact ⟨k, hk.trans (Nat.lt_succ_self e), hrest⟩
    split at h
    next hadded =>
      rcases h with h | ⟨rfl, rfl⟩
      · exact hmono h
      · exact ⟨e, Nat.lt_succ_self e, edge, he, hadded, rfl, rfl⟩
    next => exact hmono h

theorem before_succ_none (he : edges[e]? = none) :
    BeforeTurn main edges (e + 1) = BeforeTurn main edges e := by
  funext x y
  refine propext ⟨?_, ?_⟩
  · rintro ⟨k, hk, f, hf, hrest⟩
    rcases Nat.lt_succ_iff_lt_or_eq.1 hk with hlt | rfl
    · exact ⟨k, hlt, f, hf, hrest⟩
    · rw [he] at hf
      exact nomatch hf
  · rintro ⟨k, hk, hrest⟩
    exact ⟨k, hk.trans (Nat.lt_succ_self e), hrest⟩

theorem with_self {R : Fin lockCount → Fin lockCount → Prop} {a b : Fin lockCount}
    (h : R a b) : With R a b = R := by
  funext x y
  refine propext ⟨?_, .inl⟩
  rintro (hxy | ⟨rfl, rfl⟩)
  · exact hxy
  · exact h

-- ── Every edge ────

theorem Sorted.library_first (h : Sorted edges) {i j : Nat} {f g : GraphEdge lockCount}
    (hf : edges[i]? = some f) (hg : edges[j]? = some g) (hown : f.module_ = none)
    (hlib : g.module_ ≠ none) : j < i := by
  by_contra hij
  obtain ⟨hi, rfl⟩ := List.getElem?_eq_some_iff.1 hf
  obtain ⟨hj, rfl⟩ := List.getElem?_eq_some_iff.1 hg
  have hne : i ≠ j := by
    rintro rfl
    exact hlib hown
  have horder := pairwise_iff_getElem.1 h i j hi hj (by omega)
  obtain ⟨m, hm⟩ := Option.ne_none_iff_exists'.1 hlib
  exact horder (by simp [edgeOrder, hown, hm])

theorem program_acyclic {pos : Pos} : ∀ (e : Nat) {x y : Fin lockCount},
    ¬ OnCycle (BeforeTurn (some pos) edges e) x y := by
  intro e
  induction e with
  | zero =>
    rintro x y ⟨⟨k, hk, -⟩, -⟩
    exact absurd hk (Nat.not_lt_zero k)
  | succ e ih =>
    intro x y
    cases he : edges[e]? with
    | none => rw [before_succ_none he]; exact ih
    | some edge =>
      rw [before_succ he]
      by_cases hadded : (findCycles (some pos) edges).added e = true
      · rw [if_pos hadded]
        rcases ((added_iff he).1 hadded).2 with hkept | hno | ⟨-, hmain⟩
        · rw [with_self hkept]
          exact ih
        · rw [onCycle_with hno]
          exact ih
        · exact nomatch hmain
      · rw [if_neg hadded]
        exact ih

/-- Every edge of a library between two locks is added where there is no `main`. -/
theorem library_added (he : edges[e]? = some edge) (hlib : edge.module_ ≠ none)
    (hne : edge.held ≠ edge.taken) : (findCycles none edges).added e = true :=
  (added_iff he).2 ⟨hne, .inr (.inr ⟨hlib, rfl⟩)⟩

/-- Before an edge of the module all edges of the libraries are in the graph. -/
theorem library_before (h : Sorted edges) (he : edges[e]? = some edge)
    (hown : edge.module_ = none) {x y : Fin lockCount} (hxy : OfLibrary edges x y) :
    BeforeTurn none edges e x y := by
  obtain ⟨f, hf, hlib, hne, rfl, rfl⟩ := hxy
  obtain ⟨k, hk⟩ := getElem?_of_mem hf
  exact ⟨k, h.library_first he hk hown hlib, f, hk, library_added hk hlib hne, rfl, rfl⟩

/-- Without a `main` only edges beside those of a cycle of the libraries lie on one. -/
theorem library_cycles (h : Sorted edges) : ∀ (e : Nat) {x y : Fin lockCount},
    OnCycle (BeforeTurn none edges e) x y → OnCycle (OfLibrary edges) x y := by
  intro e
  induction e with
  | zero =>
    rintro x y ⟨⟨k, hk, -⟩, -⟩
    exact absurd hk (Nat.not_lt_zero k)
  | succ e ih =>
    intro x y hcycle
    cases he : edges[e]? with
    | none =>
      rw [before_succ_none he] at hcycle
      exact ih hcycle
    | some edge =>
      by_cases hown : edge.module_ = none
      · rw [before_succ he] at hcycle
        by_cases hadded : (findCycles none edges).added e = true
        · rw [if_pos hadded] at hcycle
          rcases ((added_iff he).1 hadded).2 with hkept | hno | ⟨hlib, -⟩
          · rw [with_self hkept] at hcycle
            exact ih hcycle
          · exact ih ((onCycle_with hno).1 hcycle)
          · exact absurd hown hlib
        · rw [if_neg hadded] at hcycle
          exact ih hcycle
      · -- up to here the graph holds edges of libraries alone
        have hsub : ∀ u v, BeforeTurn none edges (e + 1) u v → OfLibrary edges u v := by
          rintro u v ⟨k, hk, f, hf, hadded, rfl, rfl⟩
          refine ⟨f, mem_of_getElem? hf, fun hnone => ?_, ((added_iff hf).1 hadded).1,
            rfl, rfl⟩
          have := h.library_first hf he hnone hown
          omega
        exact ⟨hsub _ _ hcycle.1, hcycle.2.lift id hsub⟩

-- ── The property ────

/-- `find_cycles` refuses exactly the edges of the module that close a cycle. -/
structure RefusesCycles (main : Option Pos) (edges : List (GraphEdge lockCount)) : Prop where
  /-- An edge of the module is added iff it closes no cycle with those before it. -/
  exactly : ∀ e edge, edges[e]? = some edge → edge.module_ = none → edge.held ≠ edge.taken →
    ((findCycles main edges).added e = true ↔
      ¬ ReflTransGen (BeforeTurn main edges e) edge.taken edge.held)
  /-- `find_path` gives a shortest path wherever there is one. -/
  shortest : ∀ (added : Nat → Bool) (start goal : Fin lockCount), start ≠ goal →
    (findPath edges added start goal ≠ [] →
      Path (fun e => e.1.held) (fun e => e.1.taken) (arcs edges added) start goal
        (findPath edges added start goal)) ∧
    ∀ p, Path (fun e => e.1.held) (fun e => e.1.taken) (arcs edges added) start goal p →
      findPath edges added start goal ≠ [] ∧ (findPath edges added start goal).length ≤ p.length
  /-- In a program no added edge lies on a cycle. -/
  acyclic : main ≠ none → ∀ x y, ¬ OnCycle (BeforeTurn main edges edges.length) x y
  /-- In a library no added edge of the module lies on a cycle of those up to it. -/
  own : main = none → ∀ e edge, edges[e]? = some edge → edge.module_ = none →
    (findCycles main edges).added e = true →
      ¬ OnCycle (BeforeTurn main edges (e + 1)) edge.held edge.taken

/-- An edge of the module that is added closes a cycle only beside an edge that was kept on one. -/
theorem own_cases (he : edges[e]? = some edge) (hown : edge.module_ = none)
    (hadded : (findCycles main edges).added e = true) :
    BeforeTurn main edges e edge.held edge.taken ∨
      ¬ ReflTransGen (BeforeTurn main edges e) edge.taken edge.held := by
  rcases ((added_iff he).1 hadded).2 with hkept | hno | ⟨hlib, -⟩
  · exact .inl hkept
  · exact .inr hno
  · exact absurd hown hlib

/-- **Exactly when `find_cycles` refuses what closes a cycle.**  It does in every
    program.  In a library it does unless an edge of the module runs from the same lock
    to the same lock as an edge of a library that lies on a cycle of the libraries. -/
theorem refuses_cycles_iff (h : Sorted edges) : RefusesCycles main edges ↔
      (main ≠ none ∨ ∀ edge ∈ edges, edge.module_ = none → edge.held ≠ edge.taken →
        ¬ OnCycle (OfLibrary edges) edge.held edge.taken) := by
  constructor
  · intro hrefuses
    by_cases hmain : main ≠ none
    · exact .inl hmain
    obtain rfl : main = none := not_not.1 hmain
    refine .inr fun edge hedge hown hne ⟨hstep, hback⟩ => ?_
    obtain ⟨e, he⟩ := getElem?_of_mem hedge
    -- the edge beside it was kept, so this one is added, and it closes the cycle
    have hadded : (findCycles none edges).added e = true :=
      (added_iff he).2 ⟨hne, .inl (library_before h he hown hstep)⟩
    exact (hrefuses.exactly e edge he hown hne).1 hadded
      (hback.lift id fun _ _ hxy => library_before h he hown hxy)
  · intro hcond
    -- an edge beside one that was kept closes no cycle
    have hbeside : ∀ e edge, edges[e]? = some edge → edge.module_ = none →
        edge.held ≠ edge.taken → ¬ OnCycle (BeforeTurn main edges e) edge.held edge.taken := by
      intro e edge he hown hne hcycle
      cases main with
      | some pos => exact program_acyclic e hcycle
      | none =>
        rcases hcond with hmain | hcond
        · exact hmain rfl
        · exact hcond edge (mem_of_getElem? he) hown hne (library_cycles h e hcycle)
    refine ⟨fun e edge he hown hne => ?_, fun added _ _ => findPath_shortest edges added, ?_, ?_⟩
    · constructor
      · intro hadded hback
        rcases own_cases he hown hadded with hkept | hno
        · exact hbeside e edge he hown hne ⟨hkept, hback⟩
        · exact hno hback
      · intro hno
        exact (added_iff he).2 ⟨hne, .inr (.inl hno)⟩
    · intro hmain x y
      obtain ⟨pos, rfl⟩ := Option.ne_none_iff_exists'.1 hmain
      exact program_acyclic edges.length
    · intro _ e edge he hown hadded hcycle
      have hne := ((added_iff he).1 hadded).1
      rw [before_succ he, if_pos hadded] at hcycle
      rcases own_cases he hown hadded with hkept | hno
      · rw [with_self hkept] at hcycle
        exact hbeside e edge he hown hne hcycle
      · exact hno ((onCycle_with hno).1 hcycle).2

-- ── A cycle of two libraries ────

/-- Two libraries that lock in opposite orders, and an edge of the module beside the
    first of them. -/
def besideCycle : List (GraphEdge 2) :=
  [⟨0, 1, ⟨3, 5⟩, some [97]⟩, ⟨1, 0, ⟨4, 5⟩, some [98]⟩, ⟨0, 1, ⟨9, 9⟩, none⟩]

theorem besideCycle_not_refused : Sorted besideCycle ∧ ¬ RefusesCycles none besideCycle := by
  have hadded : ∀ k < 3, (findCycles none besideCycle).added k = true := by decide
  refine ⟨by simp [Sorted]; decide, fun h => ?_⟩
  have hback : BeforeTurn none besideCycle 2 1 0 :=
    ⟨1, by decide, ⟨1, 0, ⟨4, 5⟩, some [98]⟩, rfl, hadded 1 (by decide), rfl, rfl⟩
  exact (h.exactly 2 ⟨0, 1, ⟨9, 9⟩, none⟩ rfl rfl (by decide)).1 (hadded 2 (by decide))
    (.single hback)

/-- A library whose own lock order the module takes the other way round. -/
def otherOrder : List (GraphEdge 2) := [⟨0, 1, ⟨3, 5⟩, some [97]⟩, ⟨1, 0, ⟨9, 9⟩, none⟩]

theorem otherOrder_refused : Sorted otherOrder ∧ RefusesCycles none otherOrder := by
  have hsorted : Sorted otherOrder := by
    simp [Sorted, otherOrder, edgeOrder]
  refine ⟨hsorted, (refuses_cycles_iff hsorted).2 (.inr ?_)⟩
  rintro edge hedge hown - ⟨⟨f, hf, hlib, -, hheld, -⟩, -⟩
  simp only [otherOrder, mem_cons, not_mem_nil, or_false] at hedge hf
  rcases hedge with rfl | rfl
  · exact nomatch hown
  rcases hf with rfl | rfl
  · exact absurd hheld (by decide)
  · exact hlib rfl

end AnticLockOrder
