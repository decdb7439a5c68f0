import Mathlib.Algebra.BigOperators.Fin
import Mathlib.Data.Fintype.Card

/-! # Marking by rounds, and the first answer of a walk by depth

    A finite graph whose nodes hold items in order; an item is an answer or leads to a node.

    * `rounds` marks nodes until a round marks nothing more: the least set that its test keeps
      (`rounds_closed`, `rounds_sound`).
    * `Dfs` is the walk by depth that enters each node once and stops at the first answer; `walk`
      does it with a stack, and leaves out the nodes that lead to no answer.  `walk_spec` says that
      this changes nothing, and that the walk from a node that leads to an answer finds one. -/

namespace DepthFirst

open List

variable {V : Type*} [DecidableEq V]

-- ── Marking by rounds ────

section Rounds

variable (test : (V → Bool) → V → Bool)

/-- Mark `v` where the test says so. -/
def mark (m : V → Bool) (v : V) : V → Bool :=
  if m v then m else Function.update m v (test m v)

/-- Rounds over `nodes` until one changes nothing. -/
def rounds (nodes : List V) : Nat → (V → Bool) → V → Bool
  | 0, m => m
  | fuel + 1, m =>
    let m' := nodes.foldl (mark test) m
    if nodes.all fun v => m' v == m v then m' else rounds nodes fuel m'

variable {test}

theorem mark_mono {m : V → Bool} {u v : V} (h : m u = true) : mark test m v u = true := by
  unfold mark
  split
  · exact h
  · have hne : u ≠ v := by
      rintro rfl
      exact absurd h ‹_›
    rwa [Function.update_of_ne hne]

variable {nodes : List V}

theorem fold_mono {m : V → Bool} {u : V} (h : m u = true) :
    nodes.foldl (mark test) m u = true := by
  induction nodes generalizing m with
  | nil => exact h
  | cons v nodes ih => exact ih (mark_mono h)

theorem fold_sound {P : V → Prop} (htest : ∀ m v, (∀ u, m u = true → P u) → test m v = true → P v) :
    ∀ {m : V → Bool}, (∀ u, m u = true → P u) → ∀ u, nodes.foldl (mark test) m u = true → P u := by
  induction nodes with
  | nil => exact fun h => h
  | cons v nodes ih =>
    intro m h
    refine ih fun u hu => ?_
    unfold mark at hu
    split at hu
    · exact h u hu
    · by_cases huv : u = v
      · rw [huv, Function.update_self] at hu
        exact huv ▸ htest m v h hu
      · rw [Function.update_of_ne huv] at hu
        exact h u hu

theorem fold_closed : ∀ {m : V → Bool}, (∀ u, nodes.foldl (mark test) m u = true → m u = true) →
      ∀ v ∈ nodes, test m v = true → m v = true := by
  induction nodes with
  | nil => exact fun _ v hv => absurd hv not_mem_nil
  | cons w nodes ih =>
    intro m h v hv htest
    have hsame : mark test m w = m := by
      funext u
      cases hu : m u with
      | true => exact mark_mono hu
      | false =>
        cases hm : mark test m w u with
        | false => rfl
        | true =>
          have hfold : nodes.foldl (mark test) (mark test m w) u = true := fold_mono hm
          rw [h u hfold] at hu
          exact nomatch hu
    rw [foldl_cons, hsame] at h
    rcases mem_cons.1 hv with rfl | hv
    · by_contra hmv
      rw [mark, if_neg hmv] at hsame
      have := congrFun hsame v
      rw [Function.update_self, htest] at this
      exact hmv this.symm
    · exact ih h v hv htest

theorem rounds_sound {P : V → Prop}
    (htest : ∀ m v, (∀ u, m u = true → P u) → test m v = true → P v) :
    ∀ {fuel : Nat} {m : V → Bool}, (∀ u, m u = true → P u) →
      ∀ u, rounds test nodes fuel m u = true → P u := by
  intro fuel
  induction fuel with
  | zero => exact fun h => h
  | succ fuel ih =>
    intro m h u hu
    have hfold : ∀ u, nodes.foldl (mark test) m u = true → P u := fold_sound htest h
    rw [rounds] at hu
    split at hu
    · exact hfold u hu
    · exact ih hfold u hu

/-- With a round for every node that is not marked, and one more, what the test takes
    at the end is marked. -/
theorem rounds_closed [Fintype V] (hnodes : ∀ v, v ∈ nodes) :
    ∀ {fuel : Nat} {m : V → Bool}, (Finset.univ.filter fun v => m v = false).card < fuel →
      ∀ v, test (rounds test nodes fuel m) v = true → rounds test nodes fuel m v = true := by
  intro fuel
  induction fuel with
  | zero => exact fun h => absurd h (Nat.not_lt_zero _)
  | succ fuel ih =>
    intro m hfuel
    rw [rounds]
    split
    next hsame =>
      have heq : nodes.foldl (mark test) m = m := by
        funext v
        exact beq_iff_eq.1 (List.all_eq_true.1 hsame v (hnodes v))
      exact fun v => fold_closed (fun u hu => by rwa [heq] at hu) v (hnodes v)
    next hdiff =>
      -- a node was marked, so a round less is enough
      refine ih ?_
      obtain ⟨v, hv⟩ : ∃ v, nodes.foldl (mark test) m v ≠ m v := by
        by_contra hno
        refine hdiff (List.all_eq_true.2 fun v _ => beq_iff_eq.2 ?_)
        by_contra hne
        exact hno ⟨v, hne⟩
      have hmv : m v = false := by
        cases hmv : m v with
        | false => rfl
        | true => rw [hmv, fold_mono hmv] at hv; exact absurd rfl hv
      have hlt : (Finset.univ.filter fun v => nodes.foldl (mark test) m v = false) ⊂
          Finset.univ.filter fun v => m v = false := by
        refine Finset.ssubset_iff_subset_ne.2 ⟨fun u hu => ?_, fun heq => ?_⟩
        · simp only [Finset.mem_filter, Finset.mem_univ, true_and] at hu ⊢
          cases hmu : m u with
          | false => rfl
          | true => rw [fold_mono hmu] at hu; exact nomatch hu
        · have hmem : v ∈ Finset.univ.filter fun v => m v = false := by simp [hmv]
          rw [← heq, Finset.mem_filter, ← hmv] at hmem
          exact hv hmem.2
      have := Finset.card_lt_card hlt
      omega

end Rounds

-- ── The first answer by depth ────

variable {I A : Type*} (items : V → List I) (read : I → A ⊕ V)

/-- The node leads to an answer. -/
inductive Answers : V → Prop where
  | here {v : V} {i : I} {a : A} : i ∈ items v → read i = .inl a → Answers v
  | there {v w : V} {i : I} : i ∈ items v → read i = .inr w → Answers w → Answers v

/-- The walk by depth over a list of items, with the nodes entered before and after,
    up to the first answer. -/
inductive Dfs : Finset V → List I → Finset V → Option A → Prop where
  | nil (E : Finset V) : Dfs E [] E none
  | answer {E : Finset V} {i : I} {rest : List I} {a : A} : read i = .inl a →
      Dfs E (i :: rest) E (some a)
  | entered {E E' : Finset V} {i : I} {rest : List I} {v : V} {r : Option A} :
      read i = .inr v → v ∈ E → Dfs E rest E' r → Dfs E (i :: rest) E' r
  | found {E E' : Finset V} {i : I} {rest : List I} {v : V} {a : A} :
      read i = .inr v → v ∉ E → Dfs (insert v E) (items v) E' (some a) →
      Dfs E (i :: rest) E' (some a)
  | past {E E' E'' : Finset V} {i : I} {rest : List I} {v : V} {r : Option A} :
      read i = .inr v → v ∉ E → Dfs (insert v E) (items v) E' none →
      Dfs E' rest E'' r → Dfs E (i :: rest) E'' r

/-- The walk on a stack of lists that are not read to their end.  Only nodes that are
    `useful` are entered. -/
def walk (useful : V → Bool) : Nat → Finset V → List (List I) → Option A
  | 0, _, _ => none
  | _ + 1, _, [] => none
  | fuel + 1, E, [] :: stack => walk useful fuel E stack
  | fuel + 1, E, (i :: rest) :: stack =>
    match read i with
    | .inl a => some a
    | .inr v =>
      if useful v && !decide (v ∈ E) then
        walk useful fuel (insert v E) (items v :: rest :: stack)
      else walk useful fuel E (rest :: stack)

variable {items read} {useful : V → Bool}

/-- The walk over the lists of a stack, one after the other. -/
inductive OverStack (items : V → List I) (read : I → A ⊕ V) :
    Finset V → List (List I) → A → Prop where
  | top {E E' : Finset V} {l : List I} {stack : List (List I)} {a : A} :
      Dfs items read E l E' (some a) → OverStack items read E (l :: stack) a
  | under {E E' : Finset V} {l : List I} {stack : List (List I)} {a : A} :
      Dfs items read E l E' none → OverStack items read E' stack a →
      OverStack items read E (l :: stack) a

/-- Items that lead to no answer. -/
def Quiet (items : V → List I) (read : I → A ⊕ V) (l : List I) : Prop :=
  ∀ i ∈ l, ∃ v, read i = .inr v ∧ ¬ Answers items read v

omit [DecidableEq V] in
theorem quiet_items {v : V} (h : ¬ Answers items read v) : Quiet items read (items v) := by
  intro i hi
  cases hr : read i with
  | inl a => exact absurd (.here hi hr) h
  | inr w => exact ⟨w, rfl, fun hw => h (.there hi hr hw)⟩

/-- The walk over quiet items ends, and enters only nodes that lead to no answer. -/
theorem Quiet.dfs [Fintype V] : ∀ {n : Nat} {E : Finset V} {l : List I}, (Eᶜ).card ≤ n →
    Quiet items read l → ∃ E', Dfs items read E l E' none ∧ E ⊆ E' ∧
        ∀ v ∈ E', v ∈ E ∨ ¬ Answers items read v := by
  intro n
  induction n with
  | zero =>
    intro E l hn h
    have hall : ∀ v, v ∈ E := by
      intro v
      by_contra hv
      have := Finset.card_pos.2 ⟨v, Finset.mem_compl.2 hv⟩
      omega
    induction l with
    | nil => exact ⟨E, .nil E, subset_rfl, fun _ => .inl⟩
    | cons i rest ih =>
      obtain ⟨v, hr, -⟩ := h i mem_cons_self
      obtain ⟨E', hd, hsub, hnew⟩ := ih fun j hj => h j (mem_cons_of_mem _ hj)
      exact ⟨E', .entered hr (hall v) hd, hsub, hnew⟩
  | succ n ihn =>
    intro E l
    induction l generalizing E with
    | nil => exact fun _ _ => ⟨E, .nil E, subset_rfl, fun _ => .inl⟩
    | cons i rest ih =>
      intro hn h
      obtain ⟨v, hr, hv⟩ := h i mem_cons_self
      have hrest : Quiet items read rest := fun j hj => h j (mem_cons_of_mem _ hj)
      by_cases hmem : v ∈ E
      · obtain ⟨E', hd, hsub, hnew⟩ := ih hn hrest
        exact ⟨E', .entered hr hmem hd, hsub, hnew⟩
      have hlt : ((insert v E)ᶜ).card < (Eᶜ).card := by
        rw [Finset.card_compl, Finset.card_compl, Finset.card_insert_of_notMem hmem]
        have := Finset.card_lt_univ_of_notMem hmem
        omega
      obtain ⟨E₁, hd₁, hsub₁, hnew₁⟩ := ihn (by omega : ((insert v E)ᶜ).card ≤ n) (quiet_items hv)
      have hE₁ : E ⊆ E₁ := (Finset.subset_insert v E).trans hsub₁
      obtain ⟨E₂, hd₂, hsub₂, hnew₂⟩ := ih
        ((Finset.card_le_card (Finset.compl_subset_compl.2 hE₁)).trans hn) hrest
      refine ⟨E₂, .past hr hmem hd₁ hd₂, hE₁.trans hsub₂, fun w hw => ?_⟩
      rcases hnew₂ w hw with hw | hw
      · rcases hnew₁ w hw with hw | hw
        · rcases Finset.mem_insert.1 hw with rfl | hw
          · exact .inr hv
          · exact .inl hw
        · exact .inr hw
      · exact .inr hw

/-- **The stack does the walk by depth.**  The nodes it leaves out lead to no answer,
    so the walk that enters them as well (`E'`) goes on as it does. -/
theorem walk_overStack [Fintype V] (huseful : ∀ v, useful v = true ↔ Answers items read v) :
    ∀ {fuel : Nat} {E E' : Finset V} {stack : List (List I)} {a : A},
      walk items read useful fuel E stack = some a → E ⊆ E' →
      (∀ v ∈ E', v ∈ E ∨ ¬ Answers items read v) → OverStack items read E' stack a := by
  intro fuel
  induction fuel with
  | zero => exact fun h => nomatch h
  | succ fuel ih =>
    intro E E' stack a h hsub hnew
    match stack with
    | [] => exact nomatch h
    | [] :: stack => exact .under (.nil E') (ih h hsub hnew)
    | (i :: rest) :: stack =>
      rw [walk] at h
      cases hr : read i with
      | inl b =>
        rw [hr] at h
        obtain rfl := Option.some.inj h
        exact .top (.answer hr)
      | inr v =>
        rw [hr] at h
        by_cases hv : useful v = true ∧ v ∉ E
        · have hans := (huseful v).1 hv.1
          have hv' : v ∉ E' := fun hmem => (hnew v hmem).elim hv.2 fun hno => hno hans
          simp only [hv.1, hv.2] at h
          have hwalk := ih h (Finset.insert_subset_insert v hsub) fun w hw => by
            rcases Finset.mem_insert.1 hw with rfl | hw
            · exact .inl (Finset.mem_insert_self _ _)
            · exact (hnew w hw).imp_left (Finset.mem_insert_of_mem ·)
          rcases hwalk with hd | ⟨hd, hwalk⟩
          · exact .top (.found hr hv' hd)
          rcases hwalk with hd₂ | ⟨hd₂, hwalk⟩
          · exact .top (.past hr hv' hd hd₂)
          · exact .under (.past hr hv' hd hd₂) hwalk
        · have hskip : (useful v && !decide (v ∈ E)) = false := by
            simpa using hv
          simp only [hskip] at h
          by_cases hv' : v ∈ E'
          · rcases ih h hsub hnew with hd | ⟨hd, hwalk⟩
            · exact .top (.entered hr hv' hd)
            · exact .under (.entered hr hv' hd) hwalk
          · -- the walk by depth enters `v` and comes back with nothing
            have hno : ¬ Answers items read v := fun hans =>
              hv ⟨(huseful v).2 hans, fun hmem => hv' (hsub hmem)⟩
            obtain ⟨E₁, hd₁, hsub₁, hnew₁⟩ := Quiet.dfs (E := insert v E') le_rfl (quiet_items hno)
            have hE₁ : E' ⊆ E₁ := (Finset.subset_insert v E').trans hsub₁
            have hwalk := ih h (hsub.trans hE₁) fun w hw => by
              rcases hnew₁ w hw with hw | hw
              · rcases Finset.mem_insert.1 hw with rfl | hw
                · exact .inr hno
                · exact hnew w hw
              · exact .inr hw
            rcases hwalk with hd | ⟨hd, hwalk⟩
            · exact .top (.past hr hv' hd₁ hd)
            · exact .under (.past hr hv' hd₁ hd) hwalk

/-- The turns a walk has left. -/
def turns [Fintype V] (items : V → List I) (E : Finset V) (stack : List (List I)) : Nat :=
  (∑ v ∈ Eᶜ, ((items v).length + 1)) + (stack.map fun l => l.length + 1).sum

/-- An item is read, or waits on the stack. -/
def Pending (items : V → List I) (read : I → A ⊕ V) (useful : V → Bool) (E : Finset V)
    (stack : List (List I)) : Prop :=
  ∀ v ∈ E, ∀ i ∈ items v, (∃ l ∈ stack, i ∈ l) ∨ ∃ w, read i = .inr w ∧ (useful w = true → w ∈ E)

/-- A walk that finds nothing has read every item of what it entered. -/
theorem walk_none [Fintype V] : ∀ {fuel : Nat} {E : Finset V} {stack : List (List I)},
    walk items read useful fuel E stack = none → turns items E stack ≤ fuel →
      Pending items read useful E stack → ∃ E', E ⊆ E' ∧ Pending items read useful E' [] := by
  intro fuel
  induction fuel with
  | zero =>
    intro E stack _ hturns hpend
    cases stack with
    | nil => exact ⟨E, subset_rfl, hpend⟩
    | cons l stack =>
      simp only [turns, map_cons, sum_cons] at hturns
      omega
  | succ fuel ih =>
    intro E stack h hturns hpend
    match stack with
    | [] => exact ⟨E, subset_rfl, hpend⟩
    | [] :: stack =>
      refine ih h ?_ fun v hv i hi => ?_
      · simp only [turns, map_cons, sum_cons] at hturns ⊢
        omega
      · rcases hpend v hv i hi with ⟨l, hl, hil⟩ | hread
        · rcases mem_cons.1 hl with rfl | hl
          · exact absurd hil not_mem_nil
          · exact .inl ⟨l, hl, hil⟩
        · exact .inr hread
    | (i :: rest) :: stack =>
      rw [walk] at h
      cases hr : read i with
      | inl b => rw [hr] at h; exact nomatch h
      | inr v =>
        rw [hr] at h
        -- what waited behind `i` waits on
        have hwait : ∀ l ∈ (i :: rest) :: stack, ∀ j ∈ l,
            j = i ∨ ∃ l' ∈ rest :: stack, j ∈ l' := by
          intro l hl j hj
          rcases mem_cons.1 hl with rfl | hl
          · rcases mem_cons.1 hj with hj | hj
            · exact .inl hj
            · exact .inr ⟨rest, mem_cons_self, hj⟩
          · exact .inr ⟨l, mem_cons_of_mem _ hl, hj⟩
        by_cases hv : useful v = true ∧ v ∉ E
        · simp only [hv.1, hv.2] at h
          have hturns' : turns items (insert v E) (items v :: rest :: stack) ≤ fuel := by
            have hsum : ∑ u ∈ Eᶜ, ((items u).length + 1) =
                (items v).length + 1 + ∑ u ∈ (insert v E)ᶜ, ((items u).length + 1) := by
              rw [Finset.compl_insert]
              exact (Finset.add_sum_erase _ _ (Finset.mem_compl.2 hv.2)).symm
            simp only [turns, map_cons, sum_cons, length_cons] at hturns ⊢
            omega
          obtain ⟨E', hsub, hpend'⟩ := ih h hturns' fun u hu j hj => by
            rcases Finset.mem_insert.1 hu with rfl | hu
            · exact .inl ⟨items u, mem_cons_self, hj⟩
            · rcases hpend u hu j hj with ⟨l, hl, hjl⟩ | ⟨w, hw, hin⟩
              · rcases hwait l hl j hjl with rfl | ⟨l', hl', hjl'⟩
                · exact .inr ⟨v, hr, fun _ => Finset.mem_insert_self _ _⟩
                · exact .inl ⟨l', mem_cons_of_mem _ hl', hjl'⟩
              · exact .inr ⟨w, hw, fun hwu => Finset.mem_insert_of_mem (hin hwu)⟩
          exact ⟨E', (Finset.subset_insert v E).trans hsub, hpend'⟩
        · have hskip : (useful v && !decide (v ∈ E)) = false := by
            simpa using hv
          simp only [hskip] at h
          refine ih h ?_ fun u hu j hj => ?_
          · simp only [turns, map_cons, sum_cons, length_cons] at hturns ⊢
            omega
          · rcases hpend u hu j hj with ⟨l, hl, hjl⟩ | hread
            · rcases hwait l hl j hjl with rfl | hwait
              · refine .inr ⟨v, hr, fun hvu => ?_⟩
                by_contra hvE
                exact hv ⟨hvu, hvE⟩
              · exact .inl hwait
            · exact .inr hread

omit [DecidableEq V] in
theorem Pending.not_answers (huseful : ∀ v, useful v = true ↔ Answers items read v)
    {E : Finset V} (h : Pending items read useful E []) {v : V} (hv : Answers items read v) :
    v ∉ E := by
  induction hv with
  | here hi hr =>
    intro hmem
    rcases h _ hmem _ hi with ⟨l, hl, -⟩ | ⟨w, hw, -⟩
    · exact absurd hl not_mem_nil
    · rw [hr] at hw
      exact nomatch hw
  | there hi hr hw ih =>
    intro hmem
    rcases h _ hmem _ hi with ⟨l, hl, -⟩ | ⟨u, hu, hin⟩
    · exact absurd hl not_mem_nil
    · rw [hr] at hu
      obtain rfl := Sum.inr.inj hu
      exact ih (hin ((huseful _).2 hw))

/-- **The walk from a node that leads to an answer** finds the first one of the walk by depth. -/
theorem walk_spec [Fintype V] (huseful : ∀ v, useful v = true ↔ Answers items read v) {v : V}
    (hv : Answers items read v) {fuel : Nat} (hfuel : turns items {v} [items v] ≤ fuel) :
    ∃ a E, walk items read useful fuel {v} [items v] = some a ∧
      Dfs items read {v} (items v) E (some a) := by
  cases h : walk items read useful fuel {v} [items v] with
  | none =>
    obtain ⟨E, hsub, hpend⟩ := walk_none h hfuel fun u hu i hi => by
      rw [Finset.mem_singleton] at hu
      exact .inl ⟨items v, mem_cons_self, hu ▸ hi⟩
    exact absurd (hsub (Finset.mem_singleton_self v)) (hpend.not_answers huseful hv)
  | some a =>
    rcases walk_overStack huseful h subset_rfl fun _ => .inl with hd | ⟨-, hunder⟩
    · exact ⟨a, _, rfl, hd⟩
    · exact nomatch hunder

theorem turns_start [Fintype V] (v : V) :
    turns items {v} [items v] = ∑ u, ((items u).length + 1) := by
  rw [← Finset.add_sum_erase _ _ (Finset.mem_univ v), turns]
  have hcompl : ({v} : Finset V)ᶜ = Finset.univ.erase v := by
    ext u
    simp
  rw [hcompl, map_cons, map_nil, sum_cons, sum_nil, Nat.add_zero, Nat.add_comm]

end DepthFirst
