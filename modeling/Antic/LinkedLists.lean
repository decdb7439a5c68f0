import Mathlib.Data.List.Basic
import Mathlib.Logic.Function.Basic

/-! # Lists linked through a field of their nodes

    A list is a head and a link in each node.  `Chain` says which nodes the links
    lead through.  A node is taken out by a walk over the LINKS, not over the
    nodes: the walk stops at the link that leads to the node, and that link is
    written.  Walks have fuel; more than the nodes of the list is enough. -/

namespace LinkedLists

open List Function

variable {J : Type*}

/-- The nodes that the links lead through from a head. -/
inductive Chain (next : J → Option J) : Option J → List J → Prop where
  | nil : Chain next none []
  | cons {a : J} {l : List J} : Chain next (next a) l → Chain next (some a) (a :: l)

/-- A place where a link stands. -/
inductive Link (J : Type*) where
  | head
  | node (a : J)

/-- The link that stands at a place. -/
def load (head : Option J) (next : J → Option J) : Link J → Option J
  | .head => head
  | .node a => next a

/-- The last node of the walk from a link on, `last` where there is none. -/
def lastFrom (next : J → Option J) : Nat → Option J → Option J → Option (Option J)
  | 0, _, _ => none
  | _ + 1, none, last => some last
  | fuel + 1, some a, _ => lastFrom next fuel (next a) (some a)

section Chain

variable {next next' : J → Option J} {head : Option J} {l : List J}

variable (h : Chain next head l)
include h

theorem Chain.unique {l' : List J} (h' : Chain next head l') : l = l' := by
  induction h generalizing l' with
  | nil =>
    cases h'
    rfl
  | cons _ ih =>
    cases h' with
    | cons h' => rw [ih h']

theorem Chain.head_eq : head = l.head? := by
  cases h with
  | nil => rfl
  | cons _ => rfl

theorem Chain.congr (heq : ∀ a ∈ l, next' a = next a) : Chain next' head l := by
  induction h with
  | nil => exact .nil
  | cons _ ih =>
    refine .cons ?_
    rw [heq _ (mem_cons_self ..)]
    exact ih fun a ha => heq a (mem_cons_of_mem _ ha)

omit h in
/-- Without its first node a list goes on from the link of that node. -/
theorem Chain.tail {a : J} (h : Chain next (some a) l) :
    ∃ l', l = a :: l' ∧ Chain next (next a) l' := by
  cases h with
  | cons h => exact ⟨_, rfl, h⟩

theorem lastFrom_eq : ∀ {fuel : Nat} (last : Option J),
    l.length < fuel → lastFrom next fuel head last = some (l.getLast?.or last) := by
  induction h with
  | nil =>
    intro fuel last hfuel
    cases fuel with
    | zero => cases hfuel
    | succ fuel => rfl
  | @cons a l _ ih =>
    intro fuel last hfuel
    cases fuel with
    | zero => cases hfuel
    | succ fuel =>
      rw [lastFrom, ih _ (Nat.lt_of_succ_lt_succ hfuel)]
      cases l with
      | nil => rfl
      | cons b l =>
        rw [getLast?_cons_cons]
        cases hlast : (b :: l).getLast? with
        | none => exact absurd (getLast?_eq_none_iff.1 hlast) (by simp)
        | some c => rfl

variable [DecidableEq J]

theorem Chain.push {a : J} (ha : a ∉ l) :
    Chain (update next a head) (some a) (a :: l) := by
  refine .cons ?_
  rw [update_self]
  refine h.congr fun b hb => update_of_ne ?_ _ _
  rintro rfl
  exact ha hb

theorem Chain.snoc (hnodup : l.Nodup) {a : J} (hend : next a = none) (ha : a ∉ l) :
    (l = [] → Chain next (some a) [a]) ∧
    ∀ last, l.getLast? = some last →
      Chain (update next last (some a)) head (l ++ [a]) := by
  constructor
  · intro _
    refine .cons ?_
    rw [hend]
    exact .nil
  · induction h with
    | nil => intro last hlast; exact nomatch hlast
    | @cons b l h ih =>
      intro last hlast
      obtain ⟨hb, hnodup⟩ := nodup_cons.1 hnodup
      have hab : a ≠ b := fun h => ha (h ▸ mem_cons_self ..)
      have ha' : a ∉ l := fun h => ha (mem_cons_of_mem _ h)
      refine .cons ?_
      cases l with
      | nil =>
        have hb : b = last := by simpa using hlast
        subst hb
        rw [update_self]
        refine .cons ?_
        rw [update_of_ne hab, hend]
        exact .nil
      | cons c l =>
        have hne : b ≠ last := by
          rintro rfl
          exact hb (mem_of_getLast? hlast)
        rw [update_of_ne hne]
        exact ih hnodup ha' last hlast

end Chain

section Unlink

variable [DecidableEq J]

/-- The walk over the links to the one that leads to `a`, or to the last. -/
def seekLink (head : Option J) (next : J → Option J) (a : J) : Nat → Link J → Option (Link J)
  | 0, _ => none
  | fuel + 1, at_ =>
    match load head next at_ with
    | none => some at_
    | some b => if b = a then some at_ else seekLink head next a fuel (.node b)

/-- Write the link that stands at a place. -/
def store (head : Option J) (next : J → Option J) (v : Option J) :
    Link J → Option J × (J → Option J)
  | .head => (v, next)
  | .node b => (head, update next b v)

/-- Take `a` out of the list, with whether it was there. -/
def unlink (fuel : Nat) (head : Option J) (next : J → Option J) (a : J) :
    Option (Bool × Option J × (J → Option J)) := do
  let at_ ← seekLink head next a fuel .head
  if load head next at_ = some a then
    return (true, store head next (next a) at_)
  else return (false, head, next)

variable {head : Option J} {next : J → Option J} {l : List J} {a : J}

/-- The walk from a link on finds the node where it is, and the link that is written
    leaves the rest of the list. -/
theorem seekLink_spec (hnodup : l.Nodup) : ∀ (fuel : Nat) (at_ : Link J),
    Chain next (load head next at_) l → (∀ b, at_ = .node b → b ∉ l) →
    l.length < fuel →
    ∃ found, seekLink head next a fuel at_ = some found ∧ (a ∉ l → load head next found = none) ∧
      (a ∈ l → load head next found = some a ∧
        ∃ head' next', store head next (next a) found = (head', next') ∧
          Chain next' (load head' next' at_) (l.erase a) ∧
          (∀ b, at_ ≠ .node b → b ∉ l → next' b = next b) ∧
          (at_ ≠ .head → head' = head)) := by
  induction l with
  | nil =>
    intro fuel at_ hchain _ hfuel
    cases fuel with
    | zero => cases hfuel
    | succ fuel =>
      have hload : load head next at_ = none := hchain.head_eq
      refine ⟨at_, ?_, fun _ => hload, fun h => absurd h not_mem_nil⟩
      rw [seekLink, hload]
  | cons b l ih =>
    intro fuel at_ hchain hat hfuel
    obtain ⟨hb, hnodup⟩ := nodup_cons.1 hnodup
    have hload : load head next at_ = some b := hchain.head_eq
    rw [hload] at hchain
    obtain ⟨_, heq, hrest⟩ := hchain.tail
    cases heq
    cases fuel with
    | zero => cases hfuel
    | succ fuel =>
      by_cases hba : b = a
      · -- the link of the walk leads to the node
        subst hba
        refine ⟨at_, ?_, fun h => absurd (mem_cons_self ..) h, fun _ => ⟨hload, ?_⟩⟩
        · rw [seekLink, hload]
          exact if_pos rfl
        · rw [erase_cons_head]
          cases at_ with
          | head => exact ⟨_, _, rfl, hrest, fun _ _ _ => rfl, fun h => absurd rfl h⟩
          | node c =>
            have hc : c ∉ l := fun h => hat c rfl (mem_cons_of_mem _ h)
            refine ⟨_, _, rfl, ?_, fun d hd _ => ?_, fun _ => rfl⟩
            · show Chain _ (update next c (next b) c) l
              rw [update_self]
              refine hrest.congr fun d hd => update_of_ne ?_ _ _
              rintro rfl
              exact hc hd
            · refine update_of_ne ?_ _ _
              rintro rfl
              exact hd rfl
      · obtain ⟨found, hseek, hno, hyes⟩ := ih hnodup fuel
          (.node b) hrest (fun c hc => by cases hc; exact hb)
          (Nat.lt_of_succ_lt_succ hfuel)
        have hmem : a ∈ b :: l ↔ a ∈ l := by
          rw [mem_cons]
          exact ⟨fun h => h.resolve_left fun h => hba h.symm, Or.inr⟩
        refine ⟨found, ?_, fun h => hno fun h' => h (hmem.2 h'), fun h => ?_⟩
        · rw [seekLink, hload]
          exact (if_neg hba).trans hseek
        · obtain ⟨hfound, head', next', hstore, hchain', hframe, hhead⟩ := hyes (hmem.1 h)
          refine ⟨hfound, head', next', hstore, ?_, fun c hc hcl => ?_, fun _ => ?_⟩
          · have hsame : load head' next' at_ = some b := by
              cases at_ with
              | head =>
                show head' = some b
                rw [hhead (fun h => nomatch h)]
                exact hload
              | node c =>
                have hc := hat c rfl
                have hcb : c ≠ b := fun h => hc (h ▸ mem_cons_self ..)
                show next' c = some b
                rw [hframe c (fun h => hcb (by cases h; rfl)) fun h => hc (mem_cons_of_mem _ h)]
                exact hload
            rw [hsame, erase_cons_tail (by simpa using hba)]
            exact .cons hchain'
          · have hcb : c ≠ b := fun h => hcl (h ▸ mem_cons_self ..)
            exact hframe c (fun h => hcb (by cases h; rfl)) fun h => hcl (mem_cons_of_mem _ h)
          · exact hhead fun h => nomatch h

/-- **A node is taken out of its list, and no link outside the list changes.** -/
theorem unlink_eq (hchain : Chain next head l) (hnodup : l.Nodup) {fuel : Nat}
    (hfuel : l.length < fuel) :
    ∃ head' next', unlink fuel head next a = some (decide (a ∈ l), head', next') ∧
      Chain next' head' (l.erase a) ∧ ∀ b, b ∉ l → next' b = next b := by
  obtain ⟨found, hseek, hno, hyes⟩ :=
    seekLink_spec (a := a) hnodup fuel .head hchain (fun _ h => nomatch h) hfuel
  by_cases ha : a ∈ l
  · obtain ⟨hload, head', next', hstore, hchain', hframe, _⟩ := hyes ha
    refine ⟨head', next', ?_, hchain', fun b hb => hframe b (fun h => nomatch h) hb⟩
    simp [unlink, hseek, hload, hstore, ha]
  · have hload := hno ha
    refine ⟨head, next, ?_, ?_, fun _ _ => rfl⟩
    · simp [unlink, hseek, hload, ha]
    · rw [erase_of_not_mem ha]
      exact hchain

end Unlink

end LinkedLists
