import Mathlib.Logic.Relation
import Mathlib.Data.List.Chain
import Mathlib.Data.List.Nodup

/-! # The three colours of a search by depth

    The grey nodes are the path of the search, from where it began to where it stands.
    A node is black once all its successors are, so the black nodes lie on no cycle.  A
    successor that stands on the path closes a walk that repeats only its first node. -/

namespace ThreeColours

open Relation List

variable {V : Type*} {R : V → V → Prop} {path : List V} {black : V → Prop} {v w : V}

/-- The grey nodes in order, and the black ones. -/
structure Colours (R : V → V → Prop) (path : List V) (black : V → Prop) : Prop where
  walk : path.IsChain R
  nodup : path.Nodup
  apart : ∀ v ∈ path, ¬ black v
  closed : ∀ v w, black v → R v w → black w
  acyclic : ∀ v, black v → ¬ TransGen R v v

theorem Colours.start (hblack : ∀ v, ¬ black v) : Colours R [] black :=
  ⟨.nil, .nil, fun _ h => absurd h not_mem_nil, fun v _ h => absurd h (hblack v),
    fun v h => absurd h (hblack v)⟩

theorem Colours.reached (h : Colours R path black) (hv : black v) (hw : ReflTransGen R v w) :
    black w := by
  induction hw with
  | refl => exact hv
  | tail _ hstep ih => exact h.closed _ _ ih hstep

theorem Colours.push (h : Colours R path black) (hpath : v ∉ path) (hblack : ¬ black v)
    (hlink : ∀ u ∈ path.getLast?, R u v) : Colours R (path ++ [v]) black := by
  refine { h with walk := ?_, nodup := ?_, apart := ?_ }
  · refine isChain_append.2 ⟨h.walk, isChain_singleton v, fun u hu x hx => ?_⟩
    obtain rfl : v = x := Option.some.inj hx
    exact hlink u hu
  · exact nodup_append_comm.1 (nodup_cons.2 ⟨hpath, h.nodup⟩)
  · intro u hu
    rcases mem_append.1 hu with hu | hu
    · exact h.apart u hu
    · rw [mem_singleton.1 hu]
      exact hblack

theorem Colours.finish {black' : V → Prop} (h : Colours R (path ++ [v]) black)
    (hall : ∀ w, R v w → black w) (hblack' : ∀ w, black' w ↔ black w ∨ w = v) :
    Colours R path black' := by
  have hnodup := nodup_append.1 h.nodup
  refine ⟨(isChain_append.1 h.walk).1, hnodup.1, ?_, ?_, ?_⟩
  · intro u hu hdone
    rcases (hblack' u).1 hdone with hdone | rfl
    · exact h.apart u (mem_append_left _ hu) hdone
    · exact hnodup.2.2 u hu u mem_cons_self rfl
  · intro u x hu hstep
    rcases (hblack' u).1 hu with hu | rfl
    · exact (hblack' x).2 (.inl (h.closed u x hu hstep))
    · exact (hblack' x).2 (.inl (hall x hstep))
  · intro u hu hcycle
    rcases (hblack' u).1 hu with hu | rfl
    · exact h.acyclic u hu hcycle
    · -- the first step of the cycle leads to a black node, and from there back
      obtain ⟨x, hstep, hback⟩ := TransGen.head'_iff.1 hcycle
      exact h.apart u (mem_append_right _ mem_cons_self) (h.reached (hall x hstep) hback)

/-- A walk that ends where it begins and repeats nothing else. -/
structure ClosedWalk (R : V → V → Prop) (walk : List V) : Prop where
  steps : walk.IsChain R
  closed : walk.head? = walk.getLast?
  long : 2 ≤ walk.length
  nodup : walk.dropLast.Nodup

/-- A successor on the path closes a walk, from its first place on. -/
theorem Colours.close [DecidableEq V] (h : Colours R path black) (hw : w ∈ path)
    (hlink : ∀ u ∈ path.getLast?, R u w) :
    ClosedWalk R ((path ++ [w]).drop ((path ++ [w]).idxOf w)) := by
  obtain ⟨before, after, rfl, hfirst⟩ := eq_append_cons_of_mem hw
  have hdrop : (before ++ w :: after ++ [w]).drop ((before ++ w :: after ++ [w]).idxOf w)
      = w :: after ++ [w] := by
    rw [append_assoc, idxOf_append_of_notMem hfirst, cons_append,
      idxOf_cons_self, Nat.add_zero, drop_left]
  rw [hdrop]
  have hsuffix : w :: after <:+ before ++ w :: after := suffix_append _ _
  refine ⟨?_, ?_, ?_, ?_⟩
  · refine isChain_append.2 ⟨h.walk.suffix hsuffix, isChain_singleton w, ?_⟩
    intro u hu x hx
    obtain rfl : w = x := Option.some.inj hx
    rw [getLast?_append_of_ne_nil _ (cons_ne_nil _ _)] at hlink
    exact hlink u hu
  · rw [getLast?_append_of_ne_nil _ (cons_ne_nil _ _)]
    rfl
  · simp
  · rw [dropLast_concat]
    exact h.nodup.sublist hsuffix.sublist

theorem transGen_of_steps : ∀ {rest : List V} {v : V}, (v :: rest ++ [w]).IsChain R →
    TransGen R v w := by
  intro rest
  induction rest with
  | nil =>
    intro v h
    exact .single (isChain_cons_cons.1 h).1
  | cons x rest ih =>
    intro v h
    obtain ⟨hstep, hrest⟩ := isChain_cons_cons.1 h
    exact .head hstep (ih hrest)

theorem ClosedWalk.cycle {walk : List V} (h : ClosedWalk R walk) : ∃ v, TransGen R v v := by
  obtain ⟨hsteps, hclosed, hlong, -⟩ := h
  cases walk with
  | nil => exact absurd hlong (by simp)
  | cons v rest =>
    rcases eq_nil_or_concat rest with rfl | ⟨rest, w, rfl⟩
    · exact absurd hlong (by simp)
    · rw [concat_eq_append, ← cons_append] at hclosed hsteps
      rw [getLast?_concat] at hclosed
      obtain rfl : v = w := Option.some.inj hclosed
      exact ⟨v, transGen_of_steps hsteps⟩

end ThreeColours
