import Antic.ReachProofs

/-! # The removal of unused code keeps every reference

    `remove_unused_functions` compacts two lists and rewrites the indices in
    bodies, relocations and constants.  Two facts carry the result: what is
    marked stays, at the place the map gives (`compactFrom_kept`), and whatever a
    marked function or global names is marked as well, by `irReach_marks`. -/

namespace AnticReach

open AnticIr Closures List Option

/-! ## The compaction -/

section Compact

variable {α : Type} {live : Nat → Bool}

theorem compactFrom_kept : ∀ (xs : List α) (i n k : Nat) (x : α), xs[k]? = some x →
      live (i + k) = true →
      ∃ p, (compactFrom live i n xs).2[k]? = some (n + p) ∧
        (compactFrom live i n xs).1[p]? = some x := by
  intro xs
  induction xs with
  | nil =>
    intro i n k x hk _
    exact absurd hk (by simp)
  | cons y xs ih =>
    intro i n k x hk hlive
    unfold compactFrom
    cases k with
    | zero =>
      obtain rfl := some.inj hk
      rw [Nat.add_zero] at hlive
      rw [if_pos hlive]
      exact ⟨0, rfl, rfl⟩
    | succ k =>
      rw [← Nat.add_assoc, Nat.add_right_comm] at hlive
      split
      · obtain ⟨p, hmap, hkept⟩ := ih (i + 1) (n + 1) k x hk hlive
        refine ⟨p + 1, ?_, hkept⟩
        rw [show n + (p + 1) = n + 1 + p by omega]
        exact hmap
      · exact ih (i + 1) n k x hk hlive

theorem compactFrom_live : ∀ (xs : List α) (i n p : Nat) (x : α),
      (compactFrom live i n xs).1[p]? = some x →
      ∃ k, xs[k]? = some x ∧ live (i + k) = true ∧
        (compactFrom live i n xs).2[k]? = some (n + p) := by
  intro xs
  induction xs with
  | nil =>
    intro i n p x h
    exact absurd h (by simp [compactFrom])
  | cons y xs ih =>
    intro i n p x h
    unfold compactFrom at h ⊢
    split at h
    · rename_i hlive
      rw [if_pos hlive]
      cases p with
      | zero =>
        obtain rfl := some.inj h
        exact ⟨0, rfl, hlive, rfl⟩
      | succ p =>
        obtain ⟨k, hx, hk, hmap⟩ := ih (i + 1) (n + 1) p x h
        refine ⟨k + 1, hx, ?_, ?_⟩
        · rw [show i + (k + 1) = i + 1 + k by omega]
          exact hk
        · rw [show n + (p + 1) = n + 1 + p by omega]
          exact hmap
    · rename_i hdead
      rw [if_neg hdead]
      obtain ⟨k, hx, hk, hmap⟩ := ih (i + 1) n p x h
      refine ⟨k + 1, hx, ?_, hmap⟩
      rw [show i + (k + 1) = i + 1 + k by omega]
      exact hk

/-- No two live entries get one number. -/
theorem compactFrom_inj : ∀ (xs : List α) (i n j k q : Nat), live (i + j) = true →
      live (i + k) = true → (compactFrom live i n xs).2[j]? = some q →
      (compactFrom live i n xs).2[k]? = some q → j = k := by
  have hge : ∀ (xs : List α) (i n k q : Nat), live (i + k) = true →
      (compactFrom live i n xs).2[k]? = some q → n ≤ q := by
    intro xs
    induction xs with
    | nil =>
      intro i n k q _ h
      exact absurd h (by simp [compactFrom])
    | cons y xs ih =>
      intro i n k q hk h
      unfold compactFrom at h
      cases k with
      | zero =>
        rw [Nat.add_zero] at hk
        rw [if_pos hk] at h
        exact (some.inj h).le
      | succ k =>
        rw [← Nat.add_assoc, Nat.add_right_comm] at hk
        split at h
        · exact Nat.le_of_succ_le (ih (i + 1) (n + 1) k q hk h)
        · exact ih (i + 1) n k q hk h
  intro xs
  induction xs with
  | nil =>
    intro i n j k q _ _ h
    exact absurd h (by simp [compactFrom])
  | cons y xs ih =>
    intro i n j k q hj hk h h'
    unfold compactFrom at h h'
    split at h
    · rename_i hlive
      rw [if_pos hlive] at h'
      cases j with
      | zero =>
        cases k with
        | zero => rfl
        | succ k =>
          obtain rfl := some.inj h
          rw [← Nat.add_assoc, Nat.add_right_comm] at hk
          have := hge xs (i + 1) (n + 1) k n hk h'
          omega
      | succ j =>
        rw [← Nat.add_assoc, Nat.add_right_comm] at hj
        cases k with
        | zero =>
          obtain rfl := some.inj h'
          have := hge xs (i + 1) (n + 1) j n hj h
          omega
        | succ k =>
          rw [← Nat.add_assoc, Nat.add_right_comm] at hk
          rw [ih (i + 1) (n + 1) j k q hj hk h h']
    · rename_i hdead
      rw [if_neg hdead] at h'
      cases j with
      | zero => exact absurd hj hdead
      | succ j =>
        rw [← Nat.add_assoc, Nat.add_right_comm] at hj
        cases k with
        | zero => exact absurd hk hdead
        | succ k =>
          rw [← Nat.add_assoc, Nat.add_right_comm] at hk
          rw [ih (i + 1) n j k q hj hk h h']

/-- The live elements of `xs` stand in `ys`, each changed by `φ` and each at its own place. -/
structure Compacted (live : Nat → Bool) (xs : List α) (map : List Nat) (φ : α → α) (ys : List α) :
    Prop where
  kept : ∀ i x, xs[i]? = some x → live i = true → ys[map.getD i 0]? = some (φ x)
  inj : ∀ i j, i < xs.length → j < xs.length → live i = true → live j = true →
    map.getD i 0 = map.getD j 0 → i = j
  live : ∀ j y, ys[j]? = some y →
    ∃ i x, xs[i]? = some x ∧ live i = true ∧ map.getD i 0 = j ∧ y = φ x

theorem compacted (xs : List α) (φ : α → α) :
    Compacted live xs (compactFrom live 0 0 xs).2 φ ((compactFrom live 0 0 xs).1.map φ) := by
  have hat : ∀ i x, xs[i]? = some x → live i = true →
      ∃ p, (compactFrom live 0 0 xs).2[i]? = some p ∧ (compactFrom live 0 0 xs).1[p]? = some x := by
    intro i x hx hi
    obtain ⟨p, hmap, hkept⟩ :=
      @compactFrom_kept _ live xs 0 0 i x hx (by rwa [Nat.zero_add])
    exact ⟨p, by rwa [Nat.zero_add] at hmap, hkept⟩
  refine ⟨fun i x hx hi => ?_, fun i j hi hj hli hlj heq => ?_, fun j y hy => ?_⟩
  · obtain ⟨p, hmap, hkept⟩ := hat i x hx hi
    rw [getD_eq_getElem?_getD, hmap, getD_some, getElem?_map, hkept]
    rfl
  · obtain ⟨p, hp, -⟩ := hat i _ (getElem?_eq_getElem hi) hli
    obtain ⟨q, hq, -⟩ := hat j _ (getElem?_eq_getElem hj) hlj
    rw [getD_eq_getElem?_getD, getD_eq_getElem?_getD, hp, hq, getD_some, getD_some] at heq
    subst heq
    exact compactFrom_inj xs 0 0 i j p (by rwa [Nat.zero_add]) (by rwa [Nat.zero_add]) hp hq
  · rw [getElem?_map, map_eq_some_iff] at hy
    obtain ⟨x, hx, rfl⟩ := hy
    obtain ⟨i, hi, hlive, hmap⟩ := compactFrom_live xs 0 0 j x hx
    rw [Nat.zero_add] at hlive hmap
    exact ⟨i, x, hi, hlive, by rw [getD_eq_getElem?_getD, hmap, getD_some], rfl⟩

end Compact

/-! ## The references -/

/-- Where a function or a global goes. -/
def Ref.move (functions globals : List Nat) : Ref → Ref
  | .fn i => .fn (functions.getD i 0)
  | .glob i => .glob (globals.getD i 0)

section Move

variable (functions globals : List Nat)

theorem operandRefs_remap (o : IrOperand) : operandRefs (remapOperand functions globals o) =
      (operandRefs o).map (Ref.move functions globals) := by
  unfold operandRefs remapOperand
  by_cases hf : o.kind = .func
  · simp [hf, Ref.move]
  · by_cases hg : o.kind = .global
    · simp [hg, Ref.move]
    · simp [hf, hg]

theorem functionRefs_remap (f : IrFunction) : functionRefs (remapOperands functions globals f) =
      (functionRefs f).map (Ref.move functions globals) := by
  unfold functionRefs remapOperands remapBlock remapInst operandsOf
  simp only [flatMap_map, map_flatMap, flatMap_cons, map_append, operandRefs_remap]

mutual

theorem constRefs_remap : ∀ c : IrConst, constRefs (remapConst globals functions c) =
      (constRefs c).map (Ref.move functions globals)
  | .mk kind type scalar val items => by
      cases kind with
      | addr => simp [remapConst, constRefs, Ref.move]
      | func => simp [remapConst, constRefs, Ref.move]
      | agg =>
        simp only [remapConst, constRefs]
        exact constsRefs_remap items
      | none => simp [remapConst, constRefs]
      | int => simp [remapConst, constRefs]
      | float => simp [remapConst, constRefs]
      | sym => simp [remapConst, constRefs]

theorem constsRefs_remap : ∀ cs : List IrConst, constsRefs (remapConsts globals functions cs) =
      (constsRefs cs).map (Ref.move functions globals)
  | [] => rfl
  | c :: cs => by
      simp only [remapConsts, constsRefs, map_append, constRefs_remap c, constsRefs_remap cs]

end

theorem relocRef_remap (r : IrReloc) : relocRef (remapReloc functions globals r) =
      (relocRef r).move functions globals := by
  unfold relocRef remapReloc
  by_cases h : r.fn = true
  · simp [h, Ref.move]
  · simp [h, Ref.move]

theorem globalRefs_remap (g : IrGlobal) : globalRefs (remapGlobal functions globals g) =
      (globalRefs g).map (Ref.move functions globals) := by
  unfold globalRefs remapGlobal
  cases g.value with
  | none => simp [relocRef_remap]
  | some c => simp [relocRef_remap, constRefs_remap]

/-! ## What is left apart from the references -/

/-- A function with every reference blank. -/
def blankFunction (f : IrFunction) : IrFunction := remapOperands [] [] f

/-- A global with every reference blank. -/
def blankGlobal (g : IrGlobal) : IrGlobal := remapGlobal [] [] g

theorem blankOperand_remap (o : IrOperand) : remapOperand [] [] (remapOperand functions globals o) =
      remapOperand [] [] o := by
  unfold remapOperand
  by_cases hf : o.kind = .func
  · simp [hf]
  · by_cases hg : o.kind = .global
    · simp [hg]
    · simp [hf, hg]

theorem blankFunction_remap (f : IrFunction) :
    blankFunction (remapOperands functions globals f) = blankFunction f := by
  have hargs : ∀ os : List IrOperand,
      (os.map (remapOperand functions globals)).map (remapOperand [] []) =
        os.map (remapOperand [] []) := by
    intro os
    rw [List.map_map]
    exact map_congr_left fun o _ => blankOperand_remap functions globals o
  have hinst : ∀ i : IrInst, remapInst [] [] (remapInst functions globals i) =
      remapInst [] [] i := by
    intro i
    unfold remapInst
    simp only [blankOperand_remap, hargs]
  have hblock : ∀ b : IrBlock,
      remapBlock [] [] (remapBlock functions globals b) = remapBlock [] [] b := by
    intro b
    unfold remapBlock
    simp only [List.map_map]
    congr 1
    exact map_congr_left fun i _ => hinst i
  unfold blankFunction remapOperands
  simp only [List.map_map]
  congr 1
  exact map_congr_left fun b _ => hblock b

mutual

theorem blankConst_remap : ∀ c : IrConst, remapConst [] [] (remapConst globals functions c) =
      remapConst [] [] c
  | .mk kind type scalar val items => by
      cases kind with
      | agg =>
        simp only [remapConst]
        rw [blankConsts_remap items]
      | addr => simp [remapConst]
      | func => simp [remapConst]
      | none => simp [remapConst]
      | int => simp [remapConst]
      | float => simp [remapConst]
      | sym => simp [remapConst]

theorem blankConsts_remap :
    ∀ cs : List IrConst, remapConsts [] [] (remapConsts globals functions cs) = remapConsts [] [] cs
  | [] => rfl
  | c :: cs => by
      simp only [remapConsts, blankConst_remap c, blankConsts_remap cs]

end

theorem blankGlobal_remap (g : IrGlobal) :
    blankGlobal (remapGlobal functions globals g) = blankGlobal g := by
  have hreloc : ∀ r : IrReloc,
      remapReloc [] [] (remapReloc functions globals r) = remapReloc [] [] r := by
    intro r
    unfold remapReloc
    simp
  have hrelocs : (g.relocs.map (remapReloc functions globals)).map
      (remapReloc [] []) = g.relocs.map (remapReloc [] []) := by
    rw [List.map_map]
    exact map_congr_left fun r _ => hreloc r
  have hvalue : (g.value.map (remapConst globals functions)).map
      (remapConst [] []) = g.value.map (remapConst [] []) := by
    cases g.value with
    | none => rfl
    | some c => exact congrArg some (blankConst_remap functions globals c)
  unfold blankGlobal remapGlobal
  simp only [hrelocs, hvalue]

end Move

/-! ## The main result -/

/-- In `m'` the second names the function or the global that the first names in
    `m`: of the same module and name, and equal to it apart from references. -/
inductive SameRef (m m' : IrModule) : Ref → Ref → Prop
  | fn {i j : Nat} {f f' : IrFunction} (hf : m.functions[i]? = some f)
      (hf' : m'.functions[j]? = some f') (hmodule : f'.module = f.module)
      (hname : f'.name = f.name) (h : blankFunction f' = blankFunction f) :
      SameRef m m' (.fn i) (.fn j)
  | glob {i j : Nat} {g g' : IrGlobal} (hg : m.globals[i]? = some g)
      (hg' : m'.globals[j]? = some g') (hmodule : g'.module = g.module)
      (hname : g'.name = g.name) (h : blankGlobal g' = blankGlobal g) :
      SameRef m m' (.glob i) (.glob j)

/-- The references `xs'` name in `m'`, one by one, what `xs` name in `m`. -/
def SameRefs (m m' : IrModule) (xs xs' : List Ref) : Prop := List.Forall₂ (SameRef m m') xs xs'

theorem sameRefs_map {m m' : IrModule} {move : Ref → Ref} {xs : List Ref}
    (h : ∀ x ∈ xs, SameRef m m' x (move x)) :
    SameRefs m m' xs (xs.map move) := by
  unfold SameRefs
  rw [forall₂_map_right_iff]
  exact forall₂_same.mpr h

/-- **EVERY REFERENCE KEEPS ITS MEANING.**  For every module whose indices exist, every entry and
    both modes: the walk marks exactly what the entries reach; what it marks is present in the
    result, at a place of its own; and every function and every global of the result was marked, and
    its operands, relocations and constants name, one by one, the functions and globals that they
    named before. -/
theorem unused_removed {m : IrModule} (hm : IndexesExist m) (hosts : Bool)
    (entry : Option CName) (all : Bool) :
    ∃ w m', ∃ move : Ref → Ref, irReach m hosts entry all = some w ∧
      removeUnusedFunctions m hosts entry all = some m' ∧
      (∀ x, w.Marked x ↔ Reached (Entry m hosts entry all) (Refers m) x) ∧
      (∀ x, w.Marked x → SameRef m m' x (move x)) ∧
      (∀ x y, w.Marked x → w.Marked y → move x = move y → x = y) ∧
      (∀ j f', m'.functions[j]? = some f' → ∃ i f,
        m.functions[i]? = some f ∧ w.Marked (.fn i) ∧ move (.fn i) = .fn j ∧
        blankFunction f' = blankFunction f ∧
        SameRefs m m' (functionRefs f) (functionRefs f')) ∧
      (∀ j g', m'.globals[j]? = some g' → ∃ i g,
        m.globals[i]? = some g ∧ w.Marked (.glob i) ∧ move (.glob i) = .glob j ∧
        blankGlobal g' = blankGlobal g ∧
        SameRefs m m' (globalRefs g) (globalRefs g')) := by
  obtain ⟨w, hw, hmarks⟩ : ∃ w, irReach m hosts entry all = some w ∧
      ∀ x, w.Marked x ↔ Reached (Entry m hosts entry all) (Refers m) x :=
    irReach_marks hm
  -- Whatever is marked exists.
  have hinside : ∀ x, w.Marked x → x.In m := by
    intro x hx
    refine ((hmarks x).mp hx).closed (fun y hy => hy.inside) ?_
    exact fun y z _ hyz => hyz.inside hm
  obtain ⟨fs, gs, m', hm', hfns, hglobs⟩ : ∃ fs gs m',
      removeUnusedFunctions m hosts entry all = some m' ∧
      Compacted w.functions m.functions fs (remapOperands fs gs) m'.functions ∧
      Compacted w.globals m.globals gs (remapGlobal fs gs) m'.globals := by
    unfold removeUnusedFunctions
    rw [hw]
    exact ⟨_, _, _, rfl, compacted _ _, compacted _ _⟩
  have hsame : ∀ x, w.Marked x → SameRef m m' x (x.move fs gs) := by
    intro x hx
    cases x with
    | fn i =>
      have hf := getElem?_eq_getElem (hinside _ hx)
      exact .fn hf (hfns.kept i _ hf hx) rfl rfl (blankFunction_remap fs gs _)
    | glob i =>
      have hg := getElem?_eq_getElem (hinside _ hx)
      exact .glob hg (hglobs.kept i _ hg hx) rfl rfl (blankGlobal_remap fs gs _)
  have hnext : ∀ x y, w.Marked x → Refers m x y → w.Marked y := by
    intro x y hx hxy
    exact (hmarks y).mpr (.next ((hmarks x).mp hx) hxy)
  refine ⟨w, m', Ref.move fs gs, hw, hm', hmarks, hsame, ?_, ?_, ?_⟩
  · intro x y hx hy hxy
    cases x with
    | fn i =>
      cases y with
      | glob j => exact absurd hxy (by simp [Ref.move])
      | fn j => rw [hfns.inj i j (hinside _ hx) (hinside _ hy) hx hy (Ref.fn.inj hxy)]
    | glob i =>
      cases y with
      | fn j => exact absurd hxy (by simp [Ref.move])
      | glob j => rw [hglobs.inj i j (hinside _ hx) (hinside _ hy) hx hy (Ref.glob.inj hxy)]
  · intro j f' hf'
    obtain ⟨i, f, hi, hlive, rfl, rfl⟩ := hfns.live j f' hf'
    have hmarked : w.Marked (.fn i) := hlive
    refine ⟨i, f, hi, hmarked, rfl, blankFunction_remap fs gs f, ?_⟩
    rw [functionRefs_remap]
    exact sameRefs_map fun x hx => hsame x (hnext _ x hmarked (.body hi hx))
  · intro j g' hg'
    obtain ⟨i, g, hi, hlive, rfl, rfl⟩ := hglobs.live j g' hg'
    have hmarked : w.Marked (.glob i) := hlive
    refine ⟨i, g, hi, hmarked, rfl, blankGlobal_remap fs gs g, ?_⟩
    rw [globalRefs_remap]
    exact sameRefs_map fun x hx => hsame x (hnext _ x hmarked (.data hi hx))

/-- A program whose `main` names a table that holds an address, and a datum that it declares and
    that another module defines twice; one function and two data are unused. -/
def tableProgram : IrModule where
  functions :=
    [{ module := some mainName, name := [102], result := .void },
     { module := some mainName, name := mainName, result := .void,
       blocks := [{ insts :=
         [{ op := .addr, type := .ptr, result := 0, a := ⟨.global, .ptr, 2⟩ },
          { op := .addr, type := .ptr, result := 1, a := ⟨.global, .ptr, 3⟩ },
          { op := .ret, type := .void }] }] }]
  globals :=
    [{ module := some mainName, name := [117] }, { module := some mainName, name := [116] },
     { module := some mainName, name := [118], relocs := [⟨0, 1, false⟩] },
     { module := some [98], name := [120], isExtern := true },
     { module := some [98], name := [120], mutable := true },
     { module := some [98], name := [120] }]

/-- Of `tableProgram` one function and four data stay, the first definition
    among them, and the table names the address it held. -/
theorem unused_tableProgram : ∃ w m', irReach tableProgram false (some mainName) false = some w ∧
      removeUnusedFunctions tableProgram false (some mainName) false = some m' ∧
      m'.functions.map IrFunction.name = [mainName] ∧
      m'.globals.map IrGlobal.name = [[116], [118], [120], [120]] ∧
      m'.globals.map IrGlobal.mutable = [false, false, false, true] ∧
      ∃ x, w.Marked (.glob 2) ∧ SameRef tableProgram m' (.glob 2) x := by
  have hm : IndexesExist tableProgram := ⟨by decide, by decide⟩
  obtain ⟨w, m', move, hw, hm', hmarks, hsame, -⟩ := unused_removed hm false (some mainName) false
  have hshape : (removeUnusedFunctions tableProgram false (some mainName)
      false).map (fun m => (m.functions.map IrFunction.name,
        m.globals.map IrGlobal.name, m.globals.map IrGlobal.mutable)) =
      some ([mainName], [[116], [118], [120], [120]], [false, false, false, true]) := by
    decide +kernel
  rw [hm', map_some] at hshape
  obtain ⟨h1, h2⟩ := Prod.mk.inj (some.inj hshape)
  obtain ⟨h2, h3⟩ := Prod.mk.inj h2
  have hmain : w.Marked (.fn 1) := (hmarks _).mpr (.seed (.fn rfl (by decide)))
  have htable : w.Marked (.glob 2) :=
    (hmarks _).mpr (.next ((hmarks _).mp hmain) (.body rfl (by decide)))
  exact ⟨w, m', hw, hm', h1, h2, h3, _, htable, hsame _ htable⟩

end AnticReach
