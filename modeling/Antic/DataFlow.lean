import Mathlib

/-! # Rounds of a data flow analysis

    A list of finite sets, and a transfer function that gives the set of each entry from the whole
    list.  A round replaces the entries one after another.  From sets that are large enough each
    round takes elements out, so the rounds end at sets that the transfer function gives back. -/

namespace DataFlow

open List

variable {α : Type*}

/-- Entry by entry a subset. -/
abbrev Within (out out' : List (Finset α)) : Prop := List.Forall₂ (· ⊆ ·) out out'

theorem within_refl (out : List (Finset α)) : Within out out :=
  forall₂_same.2 fun _ _ => Finset.Subset.refl _

variable {out out' : List (Finset α)}

theorem Within.trans {out'' : List (Finset α)} (h : Within out out')
    (h' : Within out' out'') : Within out out'' := by
  induction h generalizing out'' with
  | nil => exact h'
  | cons hs _ ih =>
    cases h' with
    | cons hs' hrest => exact .cons (Finset.Subset.trans hs hs') (ih hrest)

theorem within_getD (h : Within out out') (b : Nat) : out.getD b ∅ ⊆ out'.getD b ∅ := by
  induction h generalizing b with
  | nil => exact Finset.Subset.refl _
  | cons hs _ ih =>
    cases b with
    | zero => exact hs
    | succ b => exact ih b

theorem set_within {b : Nat} {s : Finset α} (h : s ⊆ out.getD b ∅) :
    Within (out.set b s) out := by
  induction out generalizing b with
  | nil => exact .nil
  | cons t out ih =>
    cases b with
    | zero => exact .cons h (within_refl out)
    | succ b => exact .cons (Finset.Subset.refl t) (ih h)

theorem within_set {b : Nat} {s : Finset α} (h : Within out out') (hs : out.getD b ∅ ⊆ s) :
    Within out (out'.set b s) := by
  induction h generalizing b with
  | nil => exact .nil
  | cons ht hrest ih =>
    cases b with
    | zero => exact .cons hs hrest
    | succ b => exact .cons ht (ih hs)

/-- The number of elements. -/
def weight (out : List (Finset α)) : Nat := (out.map Finset.card).sum

theorem weight_le (h : Within out out') : weight out ≤ weight out' := by
  induction h with
  | nil => exact Nat.le_refl _
  | cons hs _ ih => exact Nat.add_le_add (Finset.card_le_card hs) ih

theorem weight_lt (h : Within out out') (hne : out ≠ out') : weight out < weight out' := by
  induction h with
  | nil => exact absurd rfl hne
  | @cons s s' rest rest' hs hrest ih =>
    by_cases he : s = s'
    · subst he
      exact Nat.add_lt_add_left (ih fun h => hne (h ▸ rfl)) _
    · exact Nat.add_lt_add_of_lt_of_le
        (Finset.card_lt_card (Finset.ssubset_iff_subset_ne.2 ⟨hs, he⟩)) (weight_le hrest)

section Rounds

variable (transfer : List (Finset α) → Nat → Finset α)

/-- One round over the first `n` entries. -/
def round (n : Nat) (out : List (Finset α)) : List (Finset α) :=
  (List.range n).foldl (fun out b => out.set b (transfer out b)) out

/-- Rounds until one changes nothing, or the turns are used up. -/
def settle [DecidableEq α] (n : Nat) : Nat → List (Finset α) → List (Finset α)
  | 0, out => out
  | turns + 1, out =>
    let next := round transfer n out
    if next = out then out else settle n turns next

/-- The transfer function adds nothing. -/
def PostFixed (out : List (Finset α)) : Prop := ∀ b, b < out.length → transfer out b ⊆ out.getD b ∅

/-- The transfer function gives every entry back. -/
def Fixed (out : List (Finset α)) : Prop := ∀ b, b < out.length → transfer out b = out.getD b ∅

variable {transfer}

variable {out : List (Finset α)}

variable (hmono : ∀ {o o'}, Within o o' → ∀ b, transfer o b ⊆ transfer o' b)
include hmono

theorem postFixed_set (h : PostFixed transfer out) (b : Nat) :
    PostFixed transfer (out.set b (transfer out b)) ∧
      Within (out.set b (transfer out b)) out := by
  by_cases hb : b < out.length
  · have hle := set_within (h b hb)
    refine ⟨fun k hk => ?_, hle⟩
    rw [length_set] at hk
    by_cases hkb : k = b
    · subst hkb
      rw [getD_eq_getElem _ _ (by rwa [length_set]), getElem_set_self]
      exact hmono hle k
    · refine Finset.Subset.trans (hmono hle k) ?_
      rw [getD_eq_getElem?_getD, getElem?_set_ne (Ne.symm hkb), ← getD_eq_getElem?_getD]
      exact h k hk
  · rw [set_eq_of_length_le (Nat.not_lt.1 hb)]
    exact ⟨h, within_refl out⟩

theorem postFixed_round (n : Nat) (h : PostFixed transfer out) :
    PostFixed transfer (round transfer n out) ∧ Within (round transfer n out) out := by
  induction n with
  | zero => exact ⟨h, within_refl out⟩
  | succ n ih =>
    rw [round, range_succ, foldl_append]
    obtain ⟨hpost, hle⟩ := postFixed_set hmono ih.1 n
    exact ⟨hpost, hle.trans ih.2⟩

omit hmono in
theorem round_length (n : Nat) (out : List (Finset α)) :
    (round transfer n out).length = out.length := by
  induction n with
  | zero => rfl
  | succ n ih =>
    rw [round, range_succ, foldl_append]
    exact length_set.trans ih

/-- A round that ends where it began changed no entry on its way. -/
theorem fixed_of_round (h : PostFixed transfer out)
    (hround : round transfer out.length out = out) : Fixed transfer out := by
  have hkeep (n : Nat) (hn : n ≤ out.length) : round transfer n out = out := by
    by_contra hne
    have hlt := weight_lt (postFixed_round hmono n h).2 hne
    have hrest (k : Nat) : weight (round transfer (n + k) out) ≤
        weight (round transfer n out) := by
      induction k with
      | zero => exact Nat.le_refl _
      | succ k ih =>
        rw [← Nat.add_assoc, round, range_succ, foldl_append]
        exact Nat.le_trans
          (weight_le (postFixed_set hmono (postFixed_round hmono (n + k) h).1 _).2) ih
    have hall := hrest (out.length - n)
    rw [Nat.add_sub_cancel' hn, hround] at hall
    exact absurd hlt (Nat.not_lt.2 hall)
  intro b hb
  have hset : out.set b (transfer out b) = out := by
    have hnext := hkeep (b + 1) hb
    rw [round, range_succ, foldl_append] at hnext
    have hbefore : round transfer b out = out := hkeep b (Nat.le_of_lt hb)
    rw [round] at hbefore
    rw [hbefore] at hnext
    exact hnext
  have hget : (out.set b (transfer out b)).getD b ∅ = transfer out b := by
    rw [getD_eq_getElem _ _ (by rwa [length_set]), getElem_set_self]
  rw [← hget, hset]

theorem within_round {kept : List (Finset α)}
    (hkept : ∀ b, b < kept.length → kept.getD b ∅ ⊆ transfer kept b) (n : Nat)
    (h : Within kept out) : Within kept (round transfer n out) := by
  induction n with
  | zero => exact h
  | succ n ih =>
    rw [round, range_succ, foldl_append]
    by_cases hn : n < kept.length
    · exact within_set ih (Finset.Subset.trans (hkept n hn) (hmono ih n))
    · rw [foldl_cons, foldl_nil, set_eq_of_length_le (ih.length_eq ▸ Nat.not_lt.1 hn)]
      exact ih

/-- **The rounds end at the greatest fixed sets**: they keep whatever the transfer
    function keeps. -/
theorem within_settle [DecidableEq α] {kept : List (Finset α)}
    (hkept : ∀ b, b < kept.length → kept.getD b ∅ ⊆ transfer kept b) (n turns : Nat)
    (h : Within kept out) : Within kept (settle transfer n turns out) := by
  induction turns generalizing out with
  | zero => exact h
  | succ turns ih =>
    rw [settle]
    split
    · exact h
    · exact ih (within_round hmono hkept n h)

theorem settle_within [DecidableEq α] (n turns : Nat) (h : PostFixed transfer out) :
    Within (settle transfer n turns out) out := by
  induction turns generalizing out with
  | zero => exact within_refl out
  | succ turns ih =>
    rw [settle]
    split
    · exact within_refl out
    · obtain ⟨hpost, hle⟩ := postFixed_round hmono n h
      exact (ih hpost).trans hle

/-- **The rounds end.**  With more turns than there are elements, the sets they end at are fixed. -/
theorem settle_fixed [DecidableEq α] (turns : Nat) (h : PostFixed transfer out)
    (hturns : weight out < turns) :
    Fixed transfer (settle transfer out.length turns out) ∧
      (settle transfer out.length turns out).length = out.length := by
  induction turns generalizing out with
  | zero => exact absurd hturns (Nat.not_lt_zero _)
  | succ turns ih =>
    rw [settle]
    by_cases he : round transfer out.length out = out
    · rw [if_pos he]
      exact ⟨fixed_of_round hmono h he, rfl⟩
    · rw [if_neg he]
      obtain ⟨hpost, hle⟩ := postFixed_round hmono out.length h
      have hlen := @round_length _ transfer out.length out
      have hnext := ih hpost (Nat.lt_of_lt_of_le (weight_lt hle he) (Nat.le_of_lt_succ hturns))
      rw [hlen] at hnext
      exact hnext

end Rounds

end DataFlow
