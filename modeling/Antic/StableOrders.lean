import Mathlib.Data.List.Basic
import Mathlib.Order.Defs.Unbundled

/-! # Sequences in order, and rearrangements that keep ties

    `less` is a strict weak order.  Two elements tie where neither is before the other.  A
    rearrangement of a sequence is stable where the elements that tie stay in their order:  for
    every element, those that tie with it are the same sequence before and after.

    * `Stably.exchange` — two neighbouring blocks may change places where every element of the
      second is before every element of the first.
    * `InOrder.exchange` — the halves that such an exchange makes out of two sequences in order. -/

namespace StableOrders

open List Bool

variable {α : Type} (less : α → α → Bool)

/-- Neither element is before the other. -/
def tie (x y : α) : Bool := !less x y && !less y x

/-- No element is before one in front of it. -/
def InOrder (l : List α) : Prop := l.Pairwise fun x y => less y x = false

/-- The same elements, and those that tie in the order that they had. -/
structure Stably (l l' : List α) : Prop where
  perm : l'.Perm l
  ties : ∀ x, l'.filter (tie less x) = l.filter (tie less x)

section Order

variable {less} [IsStrictWeakOrder α fun x y => less x y = true]

theorem less_irrefl (x : α) : less x x = false :=
  eq_false_iff.mpr (irrefl_of (fun x y => less x y = true) x)

theorem less_asymm {x y : α} (h : less x y = true) : less y x = false := by
  rw [eq_false_iff]
  intro h'
  exact irrefl_of (fun x y => less x y = true) x (trans_of (fun x y => less x y = true) h h')

theorem not_less_trans {x y z : α} (hyx : less y x = false) (hzy : less z y = false) :
    less z x = false := by
  rw [eq_false_iff]
  intro hzx
  by_cases hxy : less x y = true
  · have hzy' := trans_of (fun x y => less x y = true) hzx hxy
    rw [hzy] at hzy'
    cases hzy'
  · by_cases hyz : less y z = true
    · have hyx' := trans_of (fun x y => less x y = true) hyz hzx
      rw [hyx] at hyx'
      cases hyx'
    · have hties := ‹IsStrictWeakOrder α fun x y => less x y = true›.incomp_trans x y z
        ⟨hxy, eq_false_iff.mp hyx⟩ ⟨hyz, eq_false_iff.mp hzy⟩
      exact hties.2 hzx

theorem less_between {x x' y y' : α} (hy : less y y' = false) (h : less y x = true)
    (hx : less x' x = false) : less y' x' = true := by
  by_contra hno
  rw [not_eq_true] at hno
  have hyx := not_less_trans hx (not_less_trans hno hy)
  rw [h] at hyx
  cases hyx

theorem tie_less {x p q : α} (hp : tie less x p = true) (hq : tie less x q = true) :
    less q p = false := by
  rw [tie, and_eq_true, not_eq_true', not_eq_true'] at hp hq
  exact not_less_trans hp.1 hq.2

end Order

-- ── Stable rearrangements ────

section Stably

variable {less} {l l' l'' k k' : List α}

theorem Stably.refl (l : List α) : Stably less l l := ⟨List.Perm.refl l, fun _ => rfl⟩

theorem Stably.trans (h : Stably less l l') (h' : Stably less l' l'') : Stably less l l'' :=
  ⟨h'.perm.trans h.perm, fun x => (h'.ties x).trans (h.ties x)⟩

theorem Stably.append (h : Stably less l l') (h' : Stably less k k') :
    Stably less (l ++ k) (l' ++ k') := by
  refine ⟨h.perm.append h'.perm, ?_⟩
  intro x
  rw [filter_append, filter_append, h.ties x, h'.ties x]

theorem Stably.length_eq (h : Stably less l l') : l'.length = l.length := h.perm.length_eq

variable [IsStrictWeakOrder α fun x y => less x y = true]

/-- **Neighbouring blocks change places** where the second is before the first. -/
theorem Stably.exchange {u v : List α} (h : ∀ p ∈ u, ∀ q ∈ v, less q p = true) :
    Stably less (u ++ v) (v ++ u) := by
  refine ⟨perm_append_comm, ?_⟩
  intro x
  rw [filter_append, filter_append]
  by_cases hu : u.filter (tie less x) = []
  · rw [hu, nil_append, append_nil]
  · obtain ⟨p, hp⟩ := exists_mem_of_ne_nil _ hu
    rw [mem_filter] at hp
    have hv : v.filter (tie less x) = [] := by
      rw [filter_eq_nil_iff]
      intro q hq htie
      have hless := tie_less hp.2 htie
      rw [h p hp.1 q hq] at hless
      cases hless
    rw [hv, nil_append, append_nil]

end Stably

-- ── Sequences in order ────

section InOrder

variable {less} {l l' k k' : List α}

theorem InOrder.append (hl : InOrder less l) (hk : InOrder less k)
    (h : ∀ x ∈ l, ∀ y ∈ k, less y x = false) : InOrder less (l ++ k) :=
  pairwise_append.mpr ⟨hl, hk, h⟩

theorem InOrder.left (h : InOrder less (l ++ k)) : InOrder less l := (pairwise_append.mp h).1

theorem InOrder.right (h : InOrder less (l ++ k)) : InOrder less k := (pairwise_append.mp h).2.1

theorem InOrder.cross (h : InOrder less (l ++ k)) : ∀ x ∈ l, ∀ y ∈ k, less y x = false :=
  (pairwise_append.mp h).2.2

theorem InOrder.le_of_le [IsStrictWeakOrder α fun x y => less x y = true] (h : InOrder less l)
    {i j : Nat} (hi : i < l.length) (hj : j < l.length) (hij : i ≤ j) : less l[j] l[i] = false := by
  rcases Nat.eq_or_lt_of_le hij with rfl | hlt
  · exact less_irrefl l[i]
  · exact pairwise_iff_getElem.mp h i j hi hj hlt

theorem inOrder_of_length {l : List α} (h : l.length ≤ 1) : InOrder less l := by
  match l, h with
  | [], _ => exact Pairwise.nil
  | [x], _ => exact pairwise_singleton _ x

end InOrder

end StableOrders
