import Antic.ProviderCycles
import Antic.ReachProofs
import Antic.ThreeColours

/-! # The link step refuses the cycles of the providers and nothing else

    1. `reachLoop_spec` — the walk ends within its work list and has marked the globals that the
       functions it reaches name.
    2. `cycleFrom_spec` — the search keeps the three colours, or its stack holds a closed walk.
    3. `checkCycles_exact` — an error stands where the need relation has a cycle. -/

namespace AnticCycles

open AnticIr AnticReach AnticDeps Closures ThreeColours Relation List

/-- Function `f` names `x` by one of the first two operands of an instruction. -/
def Names (m : IrModule) (f : Nat) (x : Ref) : Prop :=
  ∃ fn, m.functions[f]? = some fn ∧ ∃ o ∈ firstOperands fn, x ∈ operandRefs o

/-- Function `f` names function `g`. -/
def Calls (m : IrModule) (f g : Nat) : Prop := Names m f (.fn g)

/-- A function that `start` reaches names global `g`. -/
def ReachesGlobal (m : IrModule) (start g : Nat) : Prop :=
  ∃ f, Reached (· = start) (Calls m) f ∧ Names m f (.glob g)

/-- Interface `i` of the list needs interface `j`. -/
def Needs (m : IrModule) (list : List Injectable) (i j : Nat) : Prop :=
  ∃ a b, list[i]? = some a ∧ list[j]? = some b ∧ a.provider ≠ irNoIndex ∧
    ReachesGlobal m a.provider b.slot

/-- Every function that the check looks up exists, as `ir_verify` and `resolve_provider` see to. -/
structure FunctionsExist (m : IrModule) (list : List Injectable) : Prop where
  operands : ∀ fn ∈ m.functions, ∀ o ∈ firstOperands fn, o.kind = .func → o.val < m.functions.length
  providers : ∀ a ∈ list, a.provider ≠ irNoIndex → a.provider < m.functions.length

-- ── Arrays ────

theorem store_of_lt {α : Type} {a : List α} {i : Nat} (h : i < a.length) (x : α) :
    store a i x = some (a.set i x) := if_pos h

theorem take_set_succ {a : List Nat} {i : Nat} (h : i < a.length) (x : Nat) :
    (a.set i x).take (i + 1) = a.take i ++ [x] := by
  rw [take_add_one, take_set_of_le (Nat.le_refl i), getElem?_set_self h]
  rfl

theorem length_le_of_nodup {l : List Nat} {n : Nat} (hnodup : l.Nodup)
    (hlt : ∀ x ∈ l, x < n) : l.length ≤ n := by
  have hsub : l ⊆ List.range n := fun x hx => mem_range.2 (hlt x hx)
  have hle := (subperm_of_subset hnodup hsub).length_le
  rwa [length_range] at hle

-- ── The walk of `reach_calls` ────

/-- The functions of `done` were read, and those of `todo` wait, the next one first. -/
structure Reading (m : IrModule) (done todo : List Nat) (w : WholeWalk) : Prop where
  size : w.work.length = m.functions.length
  waits : w.work.take w.pending = todo.reverse
  pending : w.pending = todo.length
  nodup : (done ++ todo).Nodup
  inside : ∀ f ∈ done ++ todo, f < m.functions.length
  seen : ∀ f, w.seen f = true ↔ f ∈ done ++ todo

section Walk

variable {m : IrModule} {done todo : List Nat} {w : WholeWalk} {f : Nat}

theorem Reading.push (h : Reading m done todo w) (hf : w.seen f = false)
    (hlt : f < m.functions.length) :
    ∃ w', w.push f = some w' ∧ Reading m done (f :: todo) w' ∧ w'.globals = w.globals := by
  have hnew : f ∉ done ++ todo := by
    rw [← h.seen, hf]
    exact Bool.false_ne_true
  have hnodup : (done ++ f :: todo).Nodup := nodup_middle.2 (nodup_cons.2 ⟨hnew, h.nodup⟩)
  have hmem : ∀ g, g ∈ done ++ f :: todo ↔ g = f ∨ g ∈ done ++ todo := by
    intro g
    rw [mem_append, mem_cons, mem_append, or_left_comm]
  have hinside : ∀ g ∈ done ++ f :: todo, g < m.functions.length := by
    intro g hg
    rcases (hmem g).1 hg with rfl | hg
    · exact hlt
    · exact h.inside g hg
  have hroom : w.pending < w.work.length := by
    have hlen := length_le_of_nodup hnodup hinside
    rw [length_append, length_cons] at hlen
    rw [h.pending, h.size]
    omega
  rw [WholeWalk.push, store_of_lt hroom]
  refine ⟨_, rfl, ⟨?_, ?_, ?_, hnodup, hinside, fun g => ?_⟩, rfl⟩
  · rw [length_set, h.size]
  · rw [take_set_succ hroom, h.waits, reverse_cons]
  · rw [h.pending, length_cons]
  · rw [hmem, ← h.seen]
    by_cases hg : g = f <;> simp [hg]

/-- Part of the walk named the set `S`. -/
structure Named (m : IrModule) (done todo : List Nat) (S : Ref → Prop)
    (w w' : WholeWalk) (pushed : List Nat) : Prop where
  reading : Reading m done (pushed ++ todo) w'
  sound : ∀ f ∈ pushed, S (.fn f)
  all : ∀ f, S (.fn f) → f ∈ done ++ (pushed ++ todo)
  globals : ∀ g, w'.globals g = true ↔ w.globals g = true ∨ S (.glob g)

theorem reachOperand_spec (h : Reading m done todo w) {o : IrOperand}
    (hin : o.kind = .func → o.val < m.functions.length) :
    ∃ w' pushed, reachOperand w o = some w' ∧
      Named m done todo (· ∈ operandRefs o) w w' pushed := by
  by_cases hglobal : o.kind = .global
  · have hrefs : operandRefs o = [.glob o.val] := by simp [operandRefs, hglobal]
    rw [hrefs, reachOperand, if_pos hglobal]
    refine ⟨_, [], rfl, { h with }, by simp, by simp, fun g => ?_⟩
    by_cases hg : g = o.val <;> simp [hg]
  · rw [reachOperand, if_neg hglobal]
    by_cases hfunc : o.kind = .func
    · have hrefs : operandRefs o = [.fn o.val] := by simp [operandRefs, hfunc]
      rw [hrefs]
      cases hseen : w.seen o.val with
      | true =>
        have hmem := (h.seen o.val).1 hseen
        exact ⟨w, [], by simp, h, by simp, by simpa using hmem, by simp⟩
      | false =>
        obtain ⟨w', hpush, hr, hglobals⟩ := h.push hseen (hin hfunc)
        exact ⟨w', [o.val], by simpa [hfunc] using hpush, hr, by simp, by simp, by simp [hglobals]⟩
    · have hrefs : operandRefs o = [] := by simp [operandRefs, hfunc, hglobal]
      rw [hrefs, if_neg fun hcall => hfunc hcall.1]
      exact ⟨w, [], rfl, h, by simp, by simp, by simp⟩

theorem operands_spec : ∀ {os : List IrOperand} {todo : List Nat} {w : WholeWalk},
    Reading m done todo w → (∀ o ∈ os, o.kind = .func → o.val < m.functions.length) →
      ∃ w' pushed, os.foldlM reachOperand w = some w' ∧
        Named m done todo (fun x => ∃ o ∈ os, x ∈ operandRefs o) w w' pushed := by
  intro os
  induction os with
  | nil => exact fun {todo w} h _ => ⟨w, [], rfl, h, by simp, by simp, by simp⟩
  | cons o os ih =>
    intro todo w h hin
    obtain ⟨w₁, pushed₁, hstep, h₁⟩ := reachOperand_spec h (hin o mem_cons_self)
    obtain ⟨w₂, pushed₂, hrest, h₂⟩ := ih h₁.reading fun o ho => hin o (mem_cons_of_mem _ ho)
    refine ⟨w₂, pushed₂ ++ pushed₁, ?_, ?_, fun f hf => ?_, fun f hf => ?_, fun g => ?_⟩
    · rw [foldlM_cons, hstep]
      exact hrest
    · rw [append_assoc]
      exact h₂.reading
    · rcases mem_append.1 hf with hf | hf
      · obtain ⟨o', ho', hf⟩ := h₂.sound f hf
        exact ⟨o', mem_cons_of_mem _ ho', hf⟩
      · exact ⟨o, mem_cons_self, h₁.sound f hf⟩
    · rw [append_assoc]
      obtain ⟨o', ho', hf⟩ := hf
      rcases mem_cons.1 ho' with rfl | ho'
      · have hmem := h₁.all f hf
        rw [mem_append] at hmem ⊢
        exact hmem.imp_right (mem_append_right _)
      · exact h₂.all f ⟨o', ho', hf⟩
    · rw [h₂.globals, h₁.globals, or_assoc]
      simp

theorem Reading.pop (h : Reading m done (f :: todo) w) :
    w.pending ≠ 0 ∧ w.work[w.pending - 1]? = some f ∧
      Reading m (f :: done) todo { w with pending := w.pending - 1 } := by
  have hpending : w.pending = todo.length + 1 := h.pending
  have hwaits : w.work.take (todo.length + 1) = todo.reverse ++ [f] := by
    rw [← hpending, h.waits, reverse_cons]
  have hmem : ∀ g, g ∈ f :: done ++ todo ↔ g ∈ done ++ f :: todo := by simp [or_left_comm]
  refine ⟨by omega, ?_, h.size, ?_, Nat.sub_eq_of_eq_add hpending,
    nodup_middle.1 h.nodup, fun g hg => h.inside g ((hmem g).1 hg), fun g => ?_⟩
  · have hat := congrArg (fun l => l[todo.length]?) hwaits
    simpa [hpending] using hat
  · have htake := congrArg (fun l => l.take todo.length) hwaits
    simpa [hpending, take_take] using htake
  · rw [h.seen, hmem]

variable {list : List Injectable} {start : Nat}

/-- With nothing left to read, what was read is what `start` reaches. -/
theorem Reading.finish (h : Reading m done [] w)
    (hlist : Worklist (· = start) (Calls m) (· ∈ done) [])
    (hglobals : ∀ g, w.globals g = true ↔ ∃ f ∈ done, Names m f (.glob g)) (fuel : Nat) :
    ∃ w', reachLoop m fuel w = some w' ∧ ∀ g, w'.globals g = true ↔ ReachesGlobal m start g := by
  refine ⟨w, by cases fuel <;> exact if_pos h.pending, fun g => ?_⟩
  simp only [hglobals, hlist.finish, ReachesGlobal]

/-- **The walk ends within its work list**, and has marked what the functions name that
    it reaches. -/
theorem reachLoop_spec (hm : FunctionsExist m list) : ∀ {fuel : Nat} {done todo : List Nat}
    {w : WholeWalk}, Reading m done todo w → Worklist (· = start) (Calls m) (· ∈ done) todo →
      (∀ g, w.globals g = true ↔ ∃ f ∈ done, Names m f (.glob g)) →
      m.functions.length ≤ fuel + done.length →
      ∃ w', reachLoop m fuel w = some w' ∧ ∀ g, w'.globals g = true ↔ ReachesGlobal m start g := by
  intro fuel
  induction fuel with
  | zero =>
    intro done todo w h hlist hglobals hfuel
    cases todo with
    | nil => exact h.finish hlist hglobals _
    | cons f todo =>
      have hlen := length_le_of_nodup h.nodup h.inside
      rw [length_append, length_cons] at hlen
      omega
  | succ fuel ih =>
    intro done todo w h hlist hglobals hfuel
    cases todo with
    | nil => exact h.finish hlist hglobals _
    | cons f todo =>
      obtain ⟨hpending, hwork, hpop⟩ := h.pop
      obtain ⟨fn, hat⟩ : ∃ fn, m.functions[f]? = some fn :=
        ⟨_, getElem?_eq_getElem (h.inside f (by simp))⟩
      obtain ⟨w', pushed, hfold, hnamed⟩ :=
        operands_spec hpop (hm.operands fn (mem_of_getElem? hat))
      have hnames : ∀ x, (∃ o ∈ firstOperands fn, x ∈ operandRefs o) ↔ Names m f x := by
        simp [Names, hat]
      have hnext : Worklist (· = start) (Calls m) (· ∈ f :: done) (pushed ++ todo) := by
        refine hlist.pop (by simp [or_comm]) (fun g hg => (hnames _).1 (hnamed.sound g hg)) ?_
        intro g hg hdone
        have hmem := hnamed.all g ((hnames _).2 hg)
        exact mem_append.1 ((mem_append.1 hmem).resolve_left hdone)
      obtain ⟨w'', hloop, hspec⟩ := ih hnamed.reading hnext
        (fun g => by simp [hnamed.globals, hglobals, hnames, or_comm])
        (by rw [length_cons]; omega)
      refine ⟨w'', ?_, hspec⟩
      rw [reachLoop, if_neg hpending, hwork]
      simp only [Option.bind_eq_bind, Option.bind_some, hat, hfold]
      exact hloop

theorem edgesOf_spec (hm : FunctionsExist m list) {a : Injectable} (ha : a ∈ list) :
    ∃ row, edgesOf m list a = some row ∧ ∀ j, row.getD j false = true ↔
      ∃ b, list[j]? = some b ∧ a.provider ≠ irNoIndex ∧
        ReachesGlobal m a.provider b.slot := by
  by_cases hno : a.provider = irNoIndex
  · exact ⟨_, if_pos hno, fun j => by cases list[j]? <;> simp [hno]⟩
  · have h₀ : Reading m [] [] { work := m.functions.map fun _ => 0 } := by
      refine ⟨length_map _, rfl, rfl, nodup_nil, by simp, by simp⟩
    obtain ⟨w, hpush, h₁, hglobals⟩ := h₀.push rfl (hm.providers a ha hno)
    have hlist : Worklist (· = a.provider) (Calls m) (· ∈ []) [a.provider] :=
      Worklist.start (by simp) (by simp)
    obtain ⟨w', hloop, hmarked⟩ := reachLoop_spec hm h₁ hlist (by simp [hglobals])
      (Nat.le_add_right _ _)
    refine ⟨list.map fun b => w'.globals b.slot, ?_, fun j => ?_⟩
    · rw [edgesOf, if_neg hno, reachCalls, if_neg Bool.false_ne_true]
      rw [hpush, Option.bind_some, hloop, Option.map_some]
    · cases hj : list[j]? <;> simp [hj, hno, hmarked]

end Walk

-- ── The search of `cycle_from` ────

/-- An edge of the array. -/
def Edge (edges : List (List Bool)) (v w : Nat) : Prop := edgeAt edges v w = true

/-- The stack holds the path of the grey nodes. -/
structure Searching (edges : List (List Bool)) (count : Nat) (path : List Nat)
    (s : Search) : Prop where
  size : s.stack.length = count + 1
  stack : s.stack.take s.depth = path
  depth : s.depth = path.length
  inside : ∀ v ∈ path, v < count
  grey : ∀ v, s.state v = .grey ↔ v ∈ path
  colours : Colours (Edge edges) path (s.state · = .black)

/-- The last node of the stack closes a walk. -/
structure Closing (edges : List (List Bool)) (s : Search) : Prop where
  room : s.depth ≤ s.stack.length
  closes : ∃ path w, s.stack.take s.depth = path ++ [w] ∧ w ∈ path ∧
    ClosedWalk (Edge edges) ((path ++ [w]).drop ((path ++ [w]).idxOf w))

/-- What a call leaves: the path as it was and its node black, or a closed walk. -/
inductive After (edges : List (List Bool)) (count : Nat) (path : List Nat) (node : Nat)
    (s : Search) : Bool × Search → Prop where
  | passed {s' : Search} (h : Searching edges count path s') (node : s'.state node = .black)
      (keeps : ∀ v, s.state v = .black → s'.state v = .black) : After _ _ _ _ _ (false, s')
  | closed {s' : Search} (h : Closing edges s') : After _ _ _ _ _ (true, s')

section Search

variable {edges : List (List Bool)} {count node : Nat} {path : List Nat} {s : Search}

theorem Searching.store (h : Searching edges count path s) (i : Nat) :
    ∃ stack, store s.stack s.depth i = some stack ∧ stack.length = count + 1 ∧
      stack.take (s.depth + 1) = path ++ [i] := by
  have hlen := length_le_of_nodup h.colours.nodup h.inside
  have hroom : s.depth < s.stack.length := by
    rw [h.depth, h.size]
    omega
  refine ⟨s.stack.set s.depth i, store_of_lt hroom i, ?_, ?_⟩
  · rw [length_set, h.size]
  · rw [take_set_succ hroom, h.stack]

theorem Searching.close (h : Searching edges count path s) {i : Nat}
    (hi : s.state i = .grey) (hlink : ∀ u ∈ path.getLast?, Edge edges u i) :
    ∃ s', s.push i = some s' ∧ Closing edges s' := by
  obtain ⟨stack, hstore, hsize, htake⟩ := h.store i
  have hmem := (h.grey i).1 hi
  have hlen := congrArg List.length htake
  rw [Search.push, hstore]
  refine ⟨_, rfl, ?_, path, i, htake, hmem, h.colours.close hmem hlink⟩
  rw [length_take, length_append, length_singleton, ← h.depth] at hlen
  exact le_of_eq_of_le hlen.symm (Nat.min_le_right _ _)

theorem Searching.enter (h : Searching edges count path s) (hnode : s.state node = .white)
    (hlt : node < count) (hlink : ∀ u ∈ path.getLast?, Edge edges u node) :
    ∃ s', Search.push { s with state := Function.update s.state node .grey } node = some s' ∧
      Searching edges count (path ++ [node]) s' ∧
      ∀ v, s'.state v = .black ↔ s.state v = .black := by
  obtain ⟨stack, hstore, hsize, htake⟩ := h.store node
  have hblack : ∀ v, Function.update s.state node .grey v = .black ↔ s.state v = .black := by
    intro v
    by_cases hv : v = node <;> simp [hv, hnode]
  have hnew : node ∉ path := by
    rw [← h.grey, hnode]
    exact nofun
  rw [Search.push, hstore]
  refine ⟨_, rfl, ⟨hsize, htake, ?_, ?_, fun v => ?_, ?_⟩, hblack⟩
  · rw [h.depth, length_append, length_singleton]
  · intro v hv
    rcases mem_append.1 hv with hv | hv
    · exact h.inside v hv
    · rw [mem_singleton.1 hv]
      exact hlt
  · rw [mem_append, ← h.grey]
    by_cases hv : v = node <;> simp [hv]
  · simp only [hblack]
    exact h.colours.push hnew (by simp [hnode]) hlink

theorem Searching.leave (h : Searching edges count (path ++ [node]) s)
    (hall : ∀ w, Edge edges node w → s.state w = .black) :
    Searching edges count path
      { s with state := Function.update s.state node .black, depth := s.depth - 1 } := by
  have hdepth : s.depth = path.length + 1 := by
    rw [h.depth, length_append, length_singleton]
  have hnew : node ∉ path := fun hmem =>
    (nodup_append.1 h.colours.nodup).2.2 node hmem node mem_cons_self rfl
  refine ⟨h.size, ?_, Nat.sub_eq_of_eq_add hdepth, ?_, fun v => ?_, ?_⟩
  · have htake := congrArg (fun l => l.take path.length) h.stack
    simpa [hdepth, take_take] using htake
  · exact fun v hv => h.inside v (mem_append_left _ hv)
  · by_cases hv : v = node <;> simp [hv, hnew, h.grey]
  · refine h.colours.finish hall fun v => ?_
    by_cases hv : v = node <;> simp [hv]

theorem edge_last {i : Nat} (h : Edge edges node i) :
    ∀ u ∈ (path ++ [node]).getLast?, Edge edges u i := by
  intro u hu
  rw [getLast?_concat] at hu
  obtain rfl : node = u := Option.some.inj hu
  exact h

/-- What held of the rest of the loop or of the nodes that are done, after a turn. -/
theorem mem_rest {i v : Nat} {is : List Nat} {P Q : Prop} (h : v ∈ i :: is ∨ P)
    (hi : v = i → Q) (hP : P → Q) : v ∈ is ∨ Q := by
  rcases h with hmem | h
  · exact (mem_cons.1 hmem).symm.imp_right hi
  · exact .inr (hP h)

/-- The loop of `cycle_from`, where its calls do what a call does. -/
theorem scan_spec {visit : Nat → Search → Option (Bool × Search)}
    (hvisit : ∀ i s, Searching edges count (path ++ [node]) s → s.state i = .white →
      i < count → Edge edges node i →
        ∃ r, visit i s = some r ∧ After edges count (path ++ [node]) i s r) :
    ∀ {is : List Nat} {s : Search}, Searching edges count (path ++ [node]) s →
      (∀ i ∈ is, i < count) → (∀ w, Edge edges node w → w ∈ is ∨ s.state w = .black) →
        ∃ r, scan edges visit node is s = some r ∧ After edges count path node s r := by
  intro is
  induction is with
  | nil =>
    intro s h _ hall
    refine ⟨_, rfl, .passed (h.leave fun w hw => ?_) (Function.update_self ..) fun v hv => ?_⟩
    · exact (hall w hw).resolve_left not_mem_nil
    · by_cases hnode : v = node
      · simp [hnode]
      · simpa [hnode] using hv
  | cons i is ih =>
    intro s h hin hall
    have hrest : ∀ j ∈ is, j < count := fun j hj => hin j (mem_cons_of_mem _ hj)
    have hskip (hi : Edge edges node i → s.state i = .black) (w : Nat)
        (hw : Edge edges node w) : w ∈ is ∨ s.state w = .black :=
      mem_rest (hall w hw) (by rintro rfl; exact hi hw) id
    by_cases hedge : edgeAt edges node i = true
    · rw [scan, if_pos hedge]
      cases hi : s.state i with
      | grey =>
        obtain ⟨s', hpush, hclosing⟩ := h.close hi (edge_last hedge)
        exact ⟨(true, s'), by rw [hpush]; rfl, .closed hclosing⟩
      | black => exact ih h hrest (hskip fun _ => hi)
      | white =>
        obtain ⟨r, hr, hafter⟩ := hvisit i s h hi (hin i mem_cons_self) hedge
        rw [hr]
        cases hafter with
        | closed hclosing => exact ⟨_, rfl, .closed hclosing⟩
        | @passed s' h' hnode hkeeps =>
          obtain ⟨r, hr, hafter⟩ := ih h' hrest fun w hw =>
            mem_rest (hall w hw) (by rintro rfl; exact hnode) (hkeeps w)
          refine ⟨r, hr, ?_⟩
          cases hafter with
          | closed hclosing => exact .closed hclosing
          | passed h'' hnode' hkeeps' =>
            exact .passed h'' hnode' fun v hv => hkeeps' v (hkeeps v hv)
    · rw [scan, if_neg hedge]
      exact ih h hrest (hskip fun hi => absurd hi hedge)

/-- **The search by depth**: a call that finds nothing leaves its node black and the path
    as it was, and one that finds a cycle leaves a closed walk on the stack. -/
theorem cycleFrom_spec (hin : ∀ v w, Edge edges v w → w < count) :
    ∀ {fuel : Nat} {path : List Nat} {node : Nat} {s : Search},
      Searching edges count path s → s.state node = .white → node < count →
      (∀ u ∈ path.getLast?, Edge edges u node) → count ≤ fuel + path.length →
        ∃ r, cycleFrom edges count fuel node s = some r ∧
          After edges count path node s r := by
  intro fuel
  induction fuel with
  | zero =>
    intro path node s h hnode hlt hlink hfuel
    obtain ⟨s', -, hs, -⟩ := h.enter hnode hlt hlink
    have hlen := length_le_of_nodup hs.colours.nodup hs.inside
    rw [length_append, length_singleton] at hlen
    omega
  | succ fuel ih =>
    intro path node s h hnode hlt hlink hfuel
    obtain ⟨s', hpush, hs, hblack⟩ := h.enter hnode hlt hlink
    obtain ⟨r, hr, hafter⟩ := scan_spec (fun i s h hi hilt hedge =>
      ih h hi hilt (edge_last hedge) (by rw [length_append, length_singleton]; omega)) hs
      (fun i hi => mem_range.1 hi) fun w hw => .inl (mem_range.2 (hin node w hw))
    refine ⟨r, ?_, ?_⟩
    · rw [cycleFrom, hpush, Option.bind_some]
      exact hr
    · cases hafter with
      | closed hclosing => exact .closed hclosing
      | passed h' hnode' hkeeps => exact .passed h' hnode' fun v hv => hkeeps v ((hblack v).2 hv)

/-- The loop over the interfaces finds a closed walk, or there is no cycle. -/
theorem firstCycle_spec (hin : ∀ v w, Edge edges v w → v < count ∧ w < count) :
    ∀ {is : List Nat} {s : Search}, Searching edges count [] s → (∀ i ∈ is, i < count) →
      (∀ v < count, v ∈ is ∨ s.state v = .black) → ∃ r, firstCycle edges count is s = some r ∧
          (r = none → ∀ v, ¬ TransGen (Edge edges) v v) ∧
          ∀ s', r = some s' → Closing edges s' := by
  intro is
  induction is with
  | nil =>
    intro s h _ hall
    refine ⟨none, rfl, fun _ v hcycle => ?_, nofun⟩
    obtain ⟨w, hstep, -⟩ := TransGen.head'_iff.1 hcycle
    have hv := (hall v (hin v w hstep).1).resolve_left not_mem_nil
    exact h.colours.acyclic v hv hcycle
  | cons i is ih =>
    intro s h hlt hall
    have hrest : ∀ j ∈ is, j < count := fun j hj => hlt j (mem_cons_of_mem _ hj)
    -- a search that finds nothing has emptied its path
    have hreset {s : Search} (h : Searching edges count [] s) : { s with depth := 0 } = s := by
      rw [← show s.depth = 0 from h.depth]
    have hnext {s' : Search} (hi : s'.state i = .black)
        (hkeeps : ∀ v, s.state v = .black → s'.state v = .black) (v : Nat) (hv : v < count) :
        v ∈ is ∨ s'.state v = .black :=
      mem_rest (hall v hv) (by rintro rfl; exact hi) (hkeeps v)
    cases hi : s.state i with
    | grey => exact absurd ((h.grey i).1 hi) not_mem_nil
    | black =>
      rw [firstCycle, if_pos (by rw [hi]; exact nofun), hreset h]
      exact ih h hrest (hnext hi fun _ hv => hv)
    | white =>
      obtain ⟨r, hr, hafter⟩ := cycleFrom_spec (fun v w hw => (hin v w hw).2) h hi
        (hlt i mem_cons_self) nofun (Nat.le_add_right count 0)
      rw [firstCycle, if_neg (by rw [hi]; exact not_not.2 rfl), hr]
      cases hafter with
      | closed hclosing =>
        refine ⟨_, rfl, nofun, fun s' hs' => ?_⟩
        obtain rfl := Option.some.inj hs'
        exact hclosing
      | passed h' hnode hkeeps =>
        obtain ⟨r, hr, hspec⟩ := ih h' hrest (hnext hnode hkeeps)
        refine ⟨r, ?_, hspec⟩
        rw [← hr, ← hreset h']
        rfl

end Search

-- ── The report ────

theorem report_spec {edges : List (List Bool)} {s : Search} (h : Closing edges s)
    (list : List Injectable) : ∃ i j rest, ClosedWalk (Edge edges) (i :: j :: rest) ∧
      report list s = cycleText (interfaceAt list i) (interfaceAt list j)
        (rest.map (interfaceAt list)) := by
  obtain ⟨hroom, path, w, htake, hmem, hwalk⟩ := h
  have hdepth : s.depth = path.length + 1 := by
    rw [← length_take_of_le hroom, htake, length_append, length_singleton]
  have hstack := take_append_drop s.depth s.stack
  rw [htake] at hstack
  have hlast : s.stack.getD (s.depth - 1) 0 = w := by
    rw [← hstack, hdepth]
    simp
  have hplace : s.stack.idxOf w = (path ++ [w]).idxOf w := by
    rw [← hstack, idxOf_append_of_mem (mem_append_left _ hmem)]
  have hlt := idxOf_lt_length_of_mem (mem_append_left [w] hmem)
  have hsplit := take_append_drop ((path ++ [w]).idxOf w) (path ++ [w])
  have hlen := length_take_of_le hlt.le
  rw [report, hlast, hplace, htake]
  generalize (path ++ [w]).idxOf w = j at *
  generalize (path ++ [w]).take j = before at *
  obtain ⟨a, b, rest, hrest⟩ : ∃ a b rest, (path ++ [w]).drop j = a :: b :: rest := by
    have hlong := hwalk.long
    match hdrop : (path ++ [w]).drop j with
    | [] | [_] =>
      rw [hdrop] at hlong
      exact absurd hlong (by simp)
    | a :: b :: rest => exact ⟨a, b, rest, rfl⟩
  rw [hrest] at hwalk hsplit
  refine ⟨a, b, rest, hwalk, ?_⟩
  rw [← hstack, ← hsplit, ← hlen]
  simp

theorem edges_spec {f : Injectable → Option (List Bool)} {Q : Injectable → Nat → Prop} :
    ∀ {l : List Injectable}, (∀ a ∈ l, ∃ row, f a = some row ∧
      ∀ j, row.getD j false = true ↔ Q a j) →
      ∃ edges, l.mapM f = some edges ∧ ∀ i j, Edge edges i j ↔ ∃ a, l[i]? = some a ∧ Q a j := by
  intro l
  induction l with
  | nil => exact fun _ => ⟨[], rfl, fun i j => by simp [Edge, edgeAt]⟩
  | cons a l ih =>
    intro hall
    obtain ⟨row, hrow, hQ⟩ := hall a mem_cons_self
    obtain ⟨edges, hedges, hat⟩ := ih fun b hb => hall b (mem_cons_of_mem _ hb)
    refine ⟨row :: edges, by rw [mapM_cons, hrow, hedges]; rfl, fun i j => ?_⟩
    cases i with
    | zero => simpa [Edge, edgeAt] using hQ j
    | succ i => exact hat i j

/-- **The providers that need themselves are refused, and nothing else is.**  The check
    writes past the end of neither its work list nor its stack, it writes an error where
    the need relation has a cycle, and the error names a closed walk of the relation that
    repeats no interface but its first. -/
theorem checkCycles_exact (m : IrModule) (list : List Injectable)
    (hm : FunctionsExist m list) (errors : Text) :
    ∃ errors', checkCycles m list errors = some errors' ∧
      (errors' ≠ errors ↔ ∃ i, TransGen (Needs m list) i i) ∧
      (errors' ≠ errors → ∃ i j rest, ClosedWalk (Needs m list) (i :: j :: rest) ∧
        errors' = errors ++ cycleText (interfaceAt list i) (interfaceAt list j)
          (rest.map (interfaceAt list))) := by
  obtain ⟨edges, hedges, hat⟩ := edges_spec fun a ha => edgesOf_spec hm ha
  have hneeds : Edge edges = Needs m list := by
    ext i j
    simp [hat, Needs]
  have hin : ∀ v w, Edge edges v w → v < list.length ∧ w < list.length := by
    intro v w hvw
    rw [hneeds] at hvw
    obtain ⟨a, b, ha, hb, -⟩ := hvw
    exact ⟨(List.getElem?_eq_some_iff.1 ha).1, (List.getElem?_eq_some_iff.1 hb).1⟩
  have hstart : Searching edges list.length []
      ⟨fun _ => .white, List.replicate (list.length + 1) 0, 0⟩ :=
    ⟨length_replicate, rfl, rfl, nofun, by simp, Colours.start nofun⟩
  obtain ⟨r, hr, hnone, hsome⟩ := firstCycle_spec hin hstart
    (fun i hi => mem_range.1 hi) fun v hv => .inl (mem_range.2 hv)
  rw [checkCycles, hedges, Option.bind_eq_bind, Option.bind_some, hr, Option.bind_eq_bind,
    Option.bind_some]
  cases r with
  | none =>
    refine ⟨errors, rfl, ⟨absurd rfl, fun hcycle => ?_⟩, absurd rfl⟩
    obtain ⟨i, hi⟩ := hcycle
    exact absurd (hneeds ▸ hi) (hnone rfl i)
  | some s =>
    obtain ⟨i, j, rest, hwalk, hreport⟩ := report_spec (hsome s rfl) list
    rw [hneeds] at hwalk
    exact ⟨_, rfl, ⟨fun _ => hwalk.cycle, fun _ => by simp [hreport, cycleText]⟩,
      fun _ => ⟨i, j, rest, hwalk, by rw [hreport]⟩⟩

/-- Two providers that each name the slot of the other, the second through a call. -/
def clockAndLogger : IrModule :=
  let names (kind : IrOperandKind) (i : Nat) : IrFunction :=
    { module := none, name := [], result := .ptr,
      blocks := [{ insts := [{ op := .load, type := .ptr, a := ⟨kind, .ptr, i⟩ }] }] }
  { functions := [names .global 1, names .func 2, names .global 0] }

theorem checkCycles_exact_clockAndLogger :
    ∃ errors', checkCycles clockAndLogger [⟨[67], 0, 0⟩, ⟨[76], 1, 1⟩] [] = some errors' ∧
      (errors' ≠ [] ↔ ∃ i, TransGen (Needs clockAndLogger [⟨[67], 0, 0⟩, ⟨[76], 1, 1⟩]) i i) ∧
      (errors' ≠ [] → ∃ i j rest,
        ClosedWalk (Needs clockAndLogger [⟨[67], 0, 0⟩, ⟨[76], 1, 1⟩]) (i :: j :: rest) ∧
        errors' = cycleText (interfaceAt [⟨[67], 0, 0⟩, ⟨[76], 1, 1⟩] i)
          (interfaceAt [⟨[67], 0, 0⟩, ⟨[76], 1, 1⟩] j)
          (rest.map (interfaceAt [⟨[67], 0, 0⟩, ⟨[76], 1, 1⟩]))) :=
  checkCycles_exact _ _ ⟨by decide, by decide⟩ []

end AnticCycles
