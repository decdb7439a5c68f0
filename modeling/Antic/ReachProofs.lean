import Antic.Reach
import Antic.Closures

/-! # The walk marks what the entries reach

    What the entries reach is stated over the module alone: `Entry` and `Refers` name no mark, no
    work list and no table.

    1. `definitionsOf_eq_some_iff` — the table gives each declared datum the first definition of its
       module and name.
    2. `Adds` — what each function of the walk marks and lists, with a rule for sequencing; each
       function adds what its part of the module refers to.
    3. `irReach_marks` — the loop ends within its fuel and has marked the least set. -/

namespace AnticReach

open AnticIr AnticWhole FiniteWalk Closures List

/-! ## The definitions -/

/-- Global `d` defines the datum of the module and name of `g`. -/
def Defines (m : IrModule) (g : IrGlobal) (d : Nat) : Prop :=
  ∃ g', m.globals[d]? = some g' ∧ g'.isExtern = false ∧ g'.module = g.module ∧ g'.name = g.name

/-- Global `d` is the first definition of the datum that global `i` declares. -/
def DefinitionOf (m : IrModule) (i d : Nat) : Prop :=
  ∃ g, m.globals[i]? = some g ∧ g.isExtern = true ∧ g.module ≠ none ∧
    Defines m g d ∧ ∀ e < d, ¬ Defines m g e

/-- Global `gi` is entered in the table. -/
def entered (gi : IrGlobal × Nat) : Bool := !(gi.1.isExtern || gi.1.module = none)

/-- The home of global `i` in a table of `size` places. -/
def globalHome (m : IrModule) (size i : Nat) : Nat :=
  match m.globals[i]? with
  | none => 0
  | some g => home size g.module g.name

theorem capacity_gt (n : Nat) : 2 * n + 1 < capacity n := by
  have h : 2 * n + 2 ≤ doubleUpTo (2 * n + 2) (2 * n + 2) 1 :=
    doubleUpTo_ge (by omega) (by omega)
  exact h

theorem place_set {table : List (Option Nat)} {p : Nat} (h : p < table.length) (e : Option Nat) :
    place (table.set p e) = Function.update (place table) p e := by
  funext i
  by_cases hip : i = p
  · subst hip
    simp [place, h]
  · rw [Function.update_of_ne hip]
    simp [place, Ne.symm hip]

/-- The entries of a table and the globals still to come leave room. -/
def Room (size n : Nat) (table : List (Option Nat)) : Prop :=
  table.length = size ∧
    ((Finset.range size).filter (fun i => (place table i).isSome)).card + n < size

/-- The first loop of `definitions_of` files the definitions in their order. -/
theorem enterDefinition_foldl {m : IrModule} {size : Nat} :
    ∀ (gs : List (IrGlobal × Nat)) (ids : List Nat) (table : List (Option Nat)),
      (∀ gi ∈ gs, m.globals[gi.2]? = some gi.1) →
      Filed (globalHome m size) size ids (place table) →
      Room size gs.length table →
      Filed (globalHome m size) size (ids ++ (gs.filter entered).map Prod.snd)
        (place (gs.foldl enterDefinition table)) ∧
      Room size 0 (gs.foldl enterDefinition table) := by
  intro gs
  induction gs with
  | nil =>
    intro ids table _ h hroom
    simpa using ⟨h, hroom⟩
  | cons gi gs ih =>
    intro ids table hmem h hroom
    obtain ⟨rfl, hcard⟩ := hroom
    rw [length_cons] at hcard
    have hrest : ∀ gj ∈ gs, m.globals[gj.2]? = some gj.1 :=
      fun gj hgj => hmem gj (mem_cons_of_mem _ hgj)
    by_cases hin : gi.1.isExtern || gi.1.module = none
    · -- A declaration and a datum of no module are passed over.
      have hskip : enterDefinition table gi = table := by
        unfold enterDefinition
        rw [if_pos hin]
      have hno : entered gi = false := by simp [entered, hin]
      rw [foldl_cons, hskip, filter_cons_of_neg (by simp [hno])]
      exact ih ids table hrest h ⟨rfl, by omega⟩
    · have hyes : entered gi = true := by simp [entered, hin]
      obtain ⟨q, hq, hempty⟩ := exists_empty (place table) table.length (by omega)
      have hhome : globalHome m table.length gi.2 =
          home table.length gi.1.module gi.1.name := by
        unfold globalHome
        rw [hmem gi (mem_cons_self ..)]
      have hlt : home table.length gi.1.module gi.1.name < table.length := home_lt (by omega) _ _
      obtain ⟨d, hat⟩ := probe_spec (fun _ => false) hlt hq hempty
      have hp := hat.lt hlt
      have hput : enterDefinition table gi = table.set
          (probe (place table) (fun _ => false) table.length table.length
            (home table.length gi.1.module gi.1.name)) (some gi.2) := by
        unfold enterDefinition
        rw [if_neg hin]
      have hplace := place_set hp (some gi.2)
      have hcard' := card_update_le (place table) table.length
        (probe (place table) (fun _ => false) table.length table.length
          (home table.length gi.1.module gi.1.name)) (some gi.2)
      rw [← hplace, ← hput] at hcard'
      have hnext : Room table.length gs.length (enterDefinition table gi) := by
        refine ⟨by rw [hput, length_set], by omega⟩
      obtain ⟨q', hq', hempty'⟩ := exists_empty (place (enterDefinition table gi)) table.length
        (by omega)
      have hat' : ProbeAt (place table) (fun _ => false) table.length
          (globalHome m table.length gi.2) d
          (probe (place table) (fun _ => false) table.length table.length
            (home table.length gi.1.module gi.1.name)) := by
        rw [hhome]
        exact hat
      have hfiled := h.put hat' hq' (by rw [← hplace, ← hput]; exact hempty')
      rw [← hplace, ← hput] at hfiled
      rw [foldl_cons, filter_cons_of_pos hyes, map_cons, ← singleton_append, ← append_assoc]
      exact ih (ids ++ [gi.2]) _ hrest hfiled hnext

/-- The definitions of a module, by index. -/
def definitions (m : IrModule) : List Nat := (m.globals.zipIdx.filter entered).map Prod.snd

theorem definitionTable_filed (m : IrModule) : Filed (globalHome m (capacity m.globals.length))
      (capacity m.globals.length) (definitions m) (place (definitionTable m)) ∧
    Room (capacity m.globals.length) 0 (definitionTable m) := by
  have hempty : place (List.replicate (capacity m.globals.length) none) =
      fun _ => none := by
    funext i
    simp only [place, getD_eq_getElem?_getD, getElem?_replicate]
    split <;> rfl
  have hroom : Room (capacity m.globals.length) m.globals.zipIdx.length
      (List.replicate (capacity m.globals.length) none) := by
    have hgt := capacity_gt m.globals.length
    refine ⟨by simp, ?_⟩
    rw [hempty, length_zipIdx]
    simp
    omega
  have hmem : ∀ gi ∈ m.globals.zipIdx, m.globals[gi.2]? = some gi.1 :=
    fun gi hgi => mem_zipIdx_iff_getElem?.mp hgi
  have h := enterDefinition_foldl (m := m) m.globals.zipIdx [] _ hmem
    (by rw [hempty]; exact Filed.empty _ _) hroom
  simpa [definitions, definitionTable] using h

theorem mem_definitions {m : IrModule} {d : Nat} :
    d ∈ definitions m ↔ ∃ g, m.globals[d]? = some g ∧ g.isExtern = false ∧
      g.module ≠ none := by
  unfold definitions
  simp only [List.mem_map, mem_filter, Prod.exists, exists_eq_right,
    mem_zipIdx_iff_getElem?, entered]
  constructor
  · rintro ⟨g, hg, hin⟩
    exact ⟨g, hg, by simpa using hin⟩
  · rintro ⟨g, hg, h1, h2⟩
    exact ⟨g, hg, by simp [h1, h2]⟩

theorem definitions_sorted (m : IrModule) : (definitions m).Pairwise (· < ·) := by
  refine Pairwise.map _ (fun a b h => h) ?_
  refine Pairwise.filter _ ?_
  rw [pairwise_iff_getElem]
  intro i j hi hj hij
  simpa using hij

theorem names_iff {m : IrModule} {g : IrGlobal} {d : Nat} : names m g d = true ↔
      ∃ g', m.globals[d]? = some g' ∧ g'.module = g.module ∧ g'.name = g.name := by
  unfold names
  cases m.globals[d]? with
  | none => simp
  | some g' => simp

/-- Among the definitions in ascending order the search finds the first. -/
theorem find_definitions {m : IrModule} {g : IrGlobal} (hm : g.module ≠ none) {d : Nat} :
    (definitions m).find? (names m g) = some d ↔
      Defines m g d ∧ ∀ e < d, ¬ Defines m g e := by
  have hdef : ∀ e, (e ∈ definitions m ∧ names m g e = true) ↔ Defines m g e := by
    intro e
    rw [mem_definitions, names_iff]
    constructor
    · rintro ⟨⟨g1, h1, hx, -⟩, g2, h2, hmod, hname⟩
      obtain rfl := Option.some.inj (h1.symm.trans h2)
      exact ⟨g1, h1, hx, hmod, hname⟩
    · rintro ⟨g1, h1, hx, hmod, hname⟩
      exact ⟨⟨g1, h1, hx, by rw [hmod]; exact hm⟩, g1, h1, hmod, hname⟩
  constructor
  · intro h
    rw [find?_eq_some_iff_append] at h
    obtain ⟨hhit, before, after, heq, hbefore⟩ := h
    have hd : d ∈ definitions m := by rw [heq]; simp
    refine ⟨(hdef d).mp ⟨hd, hhit⟩, fun e he hdefines => ?_⟩
    obtain ⟨hmem, hname⟩ := (hdef e).mpr hdefines
    have hsorted := definitions_sorted m
    rw [heq] at hmem hsorted
    rcases mem_append.mp hmem with hmem | hmem
    · exact absurd hname (by simpa using hbefore e hmem)
    · rcases mem_cons.mp hmem with rfl | hmem
      · exact absurd he (Nat.lt_irrefl _)
      · have := (pairwise_cons.mp (pairwise_append.mp hsorted).2.1).1 e hmem
        omega
  · rintro ⟨hdefines, hleast⟩
    obtain ⟨hmem, hname⟩ := (hdef d).mpr hdefines
    cases hfind : (definitions m).find? (names m g) with
    | none =>
      rw [find?_eq_none] at hfind
      exact absurd hname (hfind d hmem)
    | some e =>
      have hhit := (hdef e).mp ⟨mem_of_find?_eq_some hfind, find?_some hfind⟩
      rw [find?_eq_some_iff_append] at hfind
      obtain ⟨-, before, after, heq, hbefore⟩ := hfind
      have hsorted := definitions_sorted m
      rw [heq] at hmem hsorted
      rcases mem_append.mp hmem with hd | hd
      · exact absurd hname (by simpa using hbefore d hd)
      · rcases mem_cons.mp hd with rfl | hd
        · rfl
        · have hlt := (pairwise_cons.mp (pairwise_append.mp hsorted).2.1).1 d hd
          exact absurd hhit (hleast e hlt)

/-- **THE FIRST DEFINITION IS FOUND**, through the table. -/
theorem definitionsOf_eq_some_iff {m : IrModule} {i d : Nat} :
    (definitionsOf m).getD i none = some d ↔ DefinitionOf m i d := by
  obtain ⟨hfiled, hlen, hcard⟩ := definitionTable_filed m
  unfold definitionsOf DefinitionOf
  rw [getD_eq_getElem?_getD, getElem?_map]
  cases hg : m.globals[i]? with
  | none => simp
  | some g =>
    simp only [Option.map_some, Option.getD_some, Option.some.injEq,
      exists_eq_left']
    unfold definitionIn
    by_cases hno : (!g.isExtern || g.module = none) = true
    · rw [if_pos hno]
      have hcond : ¬ (g.isExtern = true ∧ g.module ≠ none) := by
        simpa [imp_iff_not_or] using hno
      simp only [reduceCtorEq, false_iff]
      exact fun h => hcond ⟨h.1, h.2.1⟩
    · have hcond : g.isExtern = true ∧ g.module ≠ none := by
        simpa using hno
      rw [if_neg hno, hlen]
      have hpos : 0 < capacity m.globals.length := by
        omega
      have hlt : home (capacity m.globals.length) g.module g.name <
          capacity m.globals.length := home_lt hpos _ _
      obtain ⟨q, hq, hempty⟩ := exists_empty (place (definitionTable m)) _ (by omega)
      obtain ⟨e, hprobe⟩ := probe_spec (names m g) hlt hq hempty
      have hhome : ∀ j ∈ definitions m, names m g j = true →
          globalHome m (capacity m.globals.length) j =
            home (capacity m.globals.length) g.module g.name := by
        intro j _ hj
        obtain ⟨g', hg', hmod, hname⟩ := names_iff.mp hj
        simp only [globalHome, hg', hmod, hname]
      obtain ⟨e', p, hprobe', hp⟩ := hfiled.found _ (names m g) hlt hhome
      rw [hprobe.unique hprobe', hp, find_definitions hcond.2]
      simp [hcond]

/-! ## What the walk marks -/

/-- A function or a global of the module. -/
inductive Ref where
  | fn (i : Nat)
  | glob (i : Nat)
  deriving DecidableEq, Repr

/-- The entry of the work list for a function or a global. -/
def Ref.item (n : Nat) : Ref → Nat
  | .fn i => i
  | .glob i => n + i

/-- The function or the global exists. -/
def Ref.In (m : IrModule) : Ref → Prop
  | .fn i => i < m.functions.length
  | .glob i => i < m.globals.length

instance (m : IrModule) (x : Ref) : Decidable (x.In m) :=
  match x with
  | .fn i => inferInstanceAs (Decidable (i < m.functions.length))
  | .glob i => inferInstanceAs (Decidable (i < m.globals.length))

theorem Ref.item_lt {m : IrModule} {x : Ref} (h : x.In m) :
    x.item m.functions.length < m.functions.length + m.globals.length := by
  cases x with
  | fn i =>
    have : i < m.functions.length := h
    show i < _
    omega
  | glob i =>
    have : i < m.globals.length := h
    show m.functions.length + i < _
    omega

theorem Ref.item_inj {m : IrModule} {x y : Ref} (hx : x.In m) (hy : y.In m)
    (h : x.item m.functions.length = y.item m.functions.length) : x = y := by
  cases x with
  | fn i =>
    have hi : i < m.functions.length := hx
    cases y with
    | fn j => exact congrArg Ref.fn h
    | glob j =>
      have h : i = m.functions.length + j := h
      omega
  | glob i =>
    cases y with
    | fn j =>
      have hj : j < m.functions.length := hy
      have h : m.functions.length + i = j := h
      omega
    | glob j => rw [Nat.add_left_cancel h]

/-- The walk has marked the function or the global. -/
def Walk.Marked (w : Walk) : Ref → Prop
  | .fn i => w.functions i = true
  | .glob i => w.globals i = true

/-- A part of the walk marks the set `S`, and lists each of its members that was
    not marked before once. -/
structure Adds (n : Nat) (S : Ref → Prop) (w w' : Walk) : Prop where
  marked : ∀ x, w'.Marked x ↔ w.Marked x ∨ S x
  work : ∃ pushed : List Ref, w'.work = pushed.map (Ref.item n) ++ w.work ∧
    pushed.Nodup ∧ ∀ x, x ∈ pushed ↔ S x ∧ ¬ w.Marked x

section Adds

variable {n : Nat} {S T : Ref → Prop} {w w' w'' : Walk}

theorem Adds.nothing (n : Nat) (w : Walk) : Adds n (fun _ => False) w w :=
  ⟨fun _ => by simp, [], rfl, nodup_nil, fun _ => by simp⟩

theorem Adds.congr (h : Adds n S w w') (hST : ∀ x, T x ↔ S x) :
    Adds n T w w' := by
  obtain ⟨hm, pushed, hwork, hnodup, hpushed⟩ := h
  refine ⟨fun x => ?_, pushed, hwork, hnodup, fun x => ?_⟩
  · rw [hm, hST]
  · rw [hpushed, hST]

theorem Adds.trans (h : Adds n S w w') (h' : Adds n T w' w'') :
    Adds n (fun x => S x ∨ T x) w w'' := by
  obtain ⟨hm, pushed, hwork, hnodup, hpushed⟩ := h
  obtain ⟨hm', pushed', hwork', hnodup', hpushed'⟩ := h'
  refine ⟨fun x => ?_, pushed' ++ pushed, ?_, ?_, fun x => ?_⟩
  · rw [hm', hm, or_assoc]
  · rw [hwork', hwork, map_append, append_assoc]
  · refine nodup_append.mpr ⟨hnodup', hnodup, fun x hx y hy heq => ?_⟩
    subst heq
    exact ((hpushed' x).mp hx).2 ((hm x).mpr (Or.inr ((hpushed x).mp hy).1))
  · rw [mem_append, hpushed', hpushed, hm]
    by_cases hS : S x
    · simp [hS]
    · simp [hS]

theorem Adds.foldl {α : Type} {step : Walk → α → Walk} {set : α → Ref → Prop}
    (hstep : ∀ a w, Adds n (set a) w (step w a)) :
    ∀ (as : List α) (w : Walk),
      Adds n (fun x => ∃ a ∈ as, set a x) w (as.foldl step w) := by
  intro as
  induction as with
  | nil =>
    intro w
    exact (Adds.nothing n w).congr (by simp)
  | cons a as ih =>
    intro w
    exact ((hstep a w).trans (ih (step w a))).congr (by simp)

theorem reachFunction_adds (n : Nat) (w : Walk) (f : Nat) :
    Adds n (fun x => x = .fn f) w (reachFunction w f) := by
  unfold reachFunction
  split
  · rename_i hf
    refine ⟨fun x => ?_, [], rfl, nodup_nil, fun x => ?_⟩
    · constructor
      · exact Or.inl
      · rintro (h | rfl)
        · exact h
        · exact hf
    · simp only [not_mem_nil, false_iff, not_and, not_not]
      rintro rfl
      exact hf
  · rename_i hf
    refine ⟨fun x => ?_, [.fn f], rfl, nodup_singleton _, fun x => ?_⟩
    · cases x with
      | fn i =>
        by_cases hi : i = f
        · subst hi
          simp [Walk.Marked]
        · simp [Walk.Marked, hi]
      | glob i => simp [Walk.Marked]
    · rw [mem_singleton]
      constructor
      · rintro rfl
        exact ⟨rfl, hf⟩
      · exact And.left

theorem reachGlobal_adds (n : Nat) (w : Walk) (g : Nat) :
    Adds n (fun x => x = .glob g) w (reachGlobal n w g) := by
  unfold reachGlobal
  split
  · rename_i hg
    refine ⟨fun x => ?_, [], rfl, nodup_nil, fun x => ?_⟩
    · constructor
      · exact Or.inl
      · rintro (h | rfl)
        · exact h
        · exact hg
    · simp only [not_mem_nil, false_iff, not_and, not_not]
      rintro rfl
      exact hg
  · rename_i hg
    refine ⟨fun x => ?_, [.glob g], rfl, nodup_singleton _, fun x => ?_⟩
    · cases x with
      | fn i => simp [Walk.Marked]
      | glob i =>
        by_cases hi : i = g
        · subst hi
          simp [Walk.Marked]
        · simp [Walk.Marked, hi]
    · rw [mem_singleton]
      constructor
      · rintro rfl
        exact ⟨rfl, hg⟩
      · exact And.left

end Adds

/-! ## What the parts of a module refer to -/

mutual

/-- The functions and globals that a constant names. -/
def constRefs : IrConst → List Ref
  | .mk kind _ _ val items =>
    match kind with
    | .addr => [.glob val]
    | .func => [.fn val]
    | .agg => constsRefs items
    | _ => []

def constsRefs : List IrConst → List Ref
  | [] => []
  | c :: cs => constRefs c ++ constsRefs cs

end

/-- What an operand names. -/
def operandRefs (o : IrOperand) : List Ref :=
  if o.kind = .func then [.fn o.val]
  else if o.kind = .global then [.glob o.val]
  else []

/-- What the body of a function names. -/
def functionRefs (f : IrFunction) : List Ref :=
  f.blocks.flatMap fun b => b.insts.flatMap fun i => (operandsOf i).flatMap operandRefs

/-- What a relocation names. -/
def relocRef (r : IrReloc) : Ref :=
  if r.fn then .fn r.global else .glob r.global

/-- What the value and the relocations of a global name. -/
def globalRefs (g : IrGlobal) : List Ref :=
  (match g.value with
    | none => []
    | some c => constRefs c) ++ g.relocs.map relocRef

/-- One step of what the entries reach. -/
inductive Refers (m : IrModule) : Ref → Ref → Prop
  | body {i : Nat} {f : IrFunction} {x : Ref} (hf : m.functions[i]? = some f)
      (hx : x ∈ functionRefs f) : Refers m (.fn i) x
  | data {i : Nat} {g : IrGlobal} {x : Ref} (hg : m.globals[i]? = some g)
      (hx : x ∈ globalRefs g) : Refers m (.glob i) x
  | definition {i d : Nat} (h : DefinitionOf m i d) : Refers m (.glob i) (.glob d)

/-- The entries of a program. -/
inductive Entry (m : IrModule) (hosts : Bool) (entry : Option CName)
    (all : Bool) : Ref → Prop
  | fn {i : Nat} {f : IrFunction} (hf : m.functions[i]? = some f)
      (h : entryFunction hosts entry (hasMain m entry all) f = true) :
      Entry m hosts entry all (.fn i)
  | glob {i : Nat} {g : IrGlobal} (hg : m.globals[i]? = some g)
      (h : entryGlobal hosts entry all g = true) :
      Entry m hosts entry all (.glob i)

mutual

theorem reachConst_adds (n : Nat) :
    ∀ (c : IrConst) (w : Walk), Adds n (· ∈ constRefs c) w (reachConst n c w)
  | .mk kind type scalar val items, w => by
      cases kind with
      | addr =>
        simp only [constRefs, reachConst, mem_singleton]
        exact reachGlobal_adds n w val
      | func =>
        simp only [constRefs, reachConst, mem_singleton]
        exact reachFunction_adds n w val
      | agg =>
        simp only [constRefs, reachConst]
        exact reachConsts_adds n items w
      | none => exact (Adds.nothing n w).congr (by simp [constRefs])
      | int => exact (Adds.nothing n w).congr (by simp [constRefs])
      | float => exact (Adds.nothing n w).congr (by simp [constRefs])
      | sym => exact (Adds.nothing n w).congr (by simp [constRefs])

theorem reachConsts_adds (n : Nat) : ∀ (cs : List IrConst) (w : Walk),
      Adds n (· ∈ constsRefs cs) w (reachConsts n cs w)
  | [], w => (Adds.nothing n w).congr (by simp [constsRefs])
  | c :: cs, w =>
    ((reachConst_adds n c w).trans (reachConsts_adds n cs _)).congr (by simp [constsRefs])

end

theorem reachOperand_adds (n : Nat) (o : IrOperand) (w : Walk) :
    Adds n (· ∈ operandRefs o) w (reachOperand n w o) := by
  unfold reachOperand operandRefs
  split
  · exact (reachFunction_adds n w o.val).congr (by simp)
  · split
    · exact (reachGlobal_adds n w o.val).congr (by simp)
    · exact (Adds.nothing n w).congr (by simp)

theorem walkFunction_adds (n : Nat) (f : IrFunction) (w : Walk) :
    Adds n (· ∈ functionRefs f) w (walkFunction n w f) := by
  have hinst : ∀ (i : IrInst) (w : Walk), Adds n (fun x => ∃ o ∈ operandsOf i, x ∈ operandRefs o) w
        ((operandsOf i).foldl (reachOperand n) w) :=
    fun i w => Adds.foldl (fun o w => reachOperand_adds n o w) _ w
  have hblock : ∀ (b : IrBlock) (w : Walk),
      Adds n (fun x => ∃ i ∈ b.insts, ∃ o ∈ operandsOf i, x ∈ operandRefs o) w
        (b.insts.foldl (fun w i => (operandsOf i).foldl (reachOperand n) w) w) :=
    fun b w => Adds.foldl (fun i w => hinst i w) _ w
  exact (Adds.foldl (fun b w => hblock b w) f.blocks w).congr (by simp [functionRefs])

theorem reachReloc_adds (n : Nat) (r : IrReloc) (w : Walk) :
    Adds n (· = relocRef r) w (reachReloc n w r) := by
  unfold reachReloc relocRef
  split
  · exact reachFunction_adds n w r.global
  · exact reachGlobal_adds n w r.global

theorem walkGlobal_adds (n : Nat) (defined : List (Option Nat)) (index : Nat)
    (g : IrGlobal) (w : Walk) :
    Adds n (fun x => x ∈ globalRefs g ∨ ∃ d, defined.getD index none = some d ∧ x = .glob d) w
      (walkGlobal n defined w index g) := by
  have hrelocs := fun w => Adds.foldl (fun r w => reachReloc_adds n r w) g.relocs w
  unfold walkGlobal
  have hdata : Adds n (· ∈ globalRefs g) w (g.relocs.foldl (reachReloc n) (match g.value with
        | none => w
        | some c => reachConst n c w)) := by
    unfold globalRefs
    cases g.value with
    | none => exact (hrelocs w).congr (by simp [eq_comm])
    | some c =>
      exact ((reachConst_adds n c w).trans (hrelocs _)).congr (by simp [eq_comm])
  cases hd : defined.getD index none with
  | none => exact hdata.congr (by simp)
  | some d => exact (hdata.trans (reachGlobal_adds n _ d)).congr (by simp)

/-- The turn of the loop for a function or a global adds what it refers to. -/
theorem visit_adds (m : IrModule) {x : Ref} (hx : x.In m) (w : Walk) :
    Adds m.functions.length (Refers m x) w
      (visit m (definitionsOf m) (x.item m.functions.length) w) := by
  cases x with
  | fn i =>
    have hi : i < m.functions.length := hx
    have hf := getElem?_eq_getElem hi
    generalize m.functions[i] = f at hf
    unfold visit
    simp only [Ref.item, if_pos hi, hf]
    refine (walkFunction_adds _ f w).congr fun y => ?_
    constructor
    · rintro (⟨hf', hy⟩ | _ | _)
      obtain rfl := Option.some.inj (hf.symm.trans hf')
      exact hy
    · exact Refers.body hf
  | glob i =>
    have hi : i < m.globals.length := hx
    have hg := getElem?_eq_getElem hi
    generalize m.globals[i] = g at hg
    unfold visit
    simp only [Ref.item, if_neg (show ¬ m.functions.length + i <
      m.functions.length by omega), Nat.add_sub_cancel_left, hg]
    refine (walkGlobal_adds _ _ i g w).congr fun y => ?_
    constructor
    · intro h
      cases h with
      | data hg' hy =>
        obtain rfl := Option.some.inj (hg.symm.trans hg')
        exact Or.inl hy
      | definition hd => exact Or.inr ⟨_, definitionsOf_eq_some_iff.mpr hd, rfl⟩
    · rintro (hy | ⟨d, hd, rfl⟩)
      · exact Refers.data hg hy
      · exact Refers.definition (definitionsOf_eq_some_iff.mp hd)

theorem startWalk_adds (m : IrModule) (hosts : Bool) (entry : Option CName) (all : Bool) :
    Adds m.functions.length (Entry m hosts entry all) {} (startWalk m hosts entry all) := by
  have hfn : ∀ (fi : IrFunction × Nat) (w : Walk), Adds m.functions.length
      (fun x => entryFunction hosts entry (hasMain m entry all) fi.1 = true ∧ x = .fn fi.2) w
      (if entryFunction hosts entry (hasMain m entry all) fi.1 then
        reachFunction w fi.2 else w) := by
    intro fi w
    split
    · rename_i h
      exact (reachFunction_adds _ w fi.2).congr (by simp [h])
    · rename_i h
      exact (Adds.nothing _ w).congr (by simp [h])
  have hglob : ∀ (gi : IrGlobal × Nat) (w : Walk), Adds m.functions.length
      (fun x => entryGlobal hosts entry all gi.1 = true ∧ x = .glob gi.2) w
      (if entryGlobal hosts entry all gi.1 then
        reachGlobal m.functions.length w gi.2 else w) := by
    intro gi w
    split
    · rename_i h
      exact (reachGlobal_adds _ w gi.2).congr (by simp [h])
    · rename_i h
      exact (Adds.nothing _ w).congr (by simp [h])
  refine ((Adds.foldl hfn m.functions.zipIdx {}).trans
    (Adds.foldl hglob m.globals.zipIdx _)).congr fun x => ?_
  constructor
  · intro h
    cases h with
    | @fn i f hf h => exact Or.inl ⟨(f, i), mem_zipIdx_iff_getElem?.mpr hf, h, rfl⟩
    | @glob i g hg h => exact Or.inr ⟨(g, i), mem_zipIdx_iff_getElem?.mpr hg, h, rfl⟩
  · rintro (⟨fi, hf, h, rfl⟩ | ⟨gi, hg, h, rfl⟩)
    · exact Entry.fn (mem_zipIdx_iff_getElem?.mp hf) h
    · exact Entry.glob (mem_zipIdx_iff_getElem?.mp hg) h

/-! ## The loop over the work list -/

/-- Every index of an operand, a constant and a relocation exists. -/
structure IndexesExist (m : IrModule) : Prop where
  functions : ∀ f ∈ m.functions, ∀ x ∈ functionRefs f, x.In m
  globals : ∀ g ∈ m.globals, ∀ x ∈ globalRefs g, x.In m

theorem Refers.inside {m : IrModule} (hm : IndexesExist m) {x y : Ref}
    (h : Refers m x y) : y.In m := by
  cases h with
  | body hf hx => exact hm.functions _ (mem_of_getElem? hf) _ hx
  | data hg hx => exact hm.globals _ (mem_of_getElem? hg) _ hx
  | definition h =>
    obtain ⟨-, -, -, -, ⟨g', hg', -⟩, -⟩ := h
    exact (List.getElem?_eq_some_iff.mp hg').1

theorem Entry.inside {m : IrModule} {hosts : Bool} {entry : Option CName}
    {all : Bool} {x : Ref} (h : Entry m hosts entry all x) : x.In m := by
  cases h with
  | fn hf _ => exact (List.getElem?_eq_some_iff.mp hf).1
  | glob hg _ => exact (List.getElem?_eq_some_iff.mp hg).1

/-- Where the loop is: `done` was walked, `todo` waits in the work list, and
    together they are what is marked. -/
structure Walked (m : IrModule) (hosts : Bool) (entry : Option CName)
    (all : Bool) (w : Walk) (done todo : List Ref) : Prop where
  work : w.work = todo.map (Ref.item m.functions.length)
  nodup : (done ++ todo).Nodup
  inside : ∀ x ∈ done ++ todo, x.In m
  marked : ∀ x, w.Marked x ↔ x ∈ done ∨ x ∈ todo
  list : Worklist (Entry m hosts entry all) (Refers m) (· ∈ done) todo

section Loop

variable {m : IrModule} {hosts : Bool} {entry : Option CName} {all : Bool}

theorem startWalk_walked :
    ∃ todo, Walked m hosts entry all (startWalk m hosts entry all) [] todo := by
  obtain ⟨hmarked, todo, hwork, hnodup, htodo⟩ := startWalk_adds m hosts entry all
  have hno : ∀ x, ¬ ({} : Walk).Marked x := by
    intro x
    cases x <;> simp [Walk.Marked]
  have hiff : ∀ x, x ∈ todo ↔ Entry m hosts entry all x := by
    intro x
    rw [htodo]
    exact ⟨And.left, fun h => ⟨h, hno x⟩⟩
  refine ⟨todo, by simpa using hwork, hnodup, ?_, ?_, ?_⟩
  · intro x hx
    exact ((hiff x).mp hx).inside
  · intro x
    rw [hmarked, hiff]
    simp [hno]
  · exact Worklist.start (by simp) fun x => (hiff x).symm

/-- One turn of the loop: the item in front is done, and what it refers to waits
    unless it was marked. -/
theorem Walked.turn (hm : IndexesExist m) {w : Walk} {x : Ref}
    {done todo : List Ref} (h : Walked m hosts entry all w done (x :: todo)) :
    ∃ todo', Walked m hosts entry all (visit m (definitionsOf m) (x.item m.functions.length)
        { w with work := todo.map (Ref.item m.functions.length) })
      (x :: done) todo' := by
  have hx : x.In m := h.inside x (by simp)
  obtain ⟨hmarked, pushed, hwork, hnodup, hpushed⟩ := visit_adds m hx
    { w with work := todo.map (Ref.item m.functions.length) }
  have hsame : ∀ y, Walk.Marked { w with work := todo.map (Ref.item m.functions.length) } y ↔
      y ∈ done ∨ y ∈ x :: todo := by
    intro y
    rw [← h.marked y]
    cases y <;> exact Iff.rfl
  have hnew : ∀ y ∈ pushed, y ∉ done ∧ y ∉ x :: todo := by
    intro y hy
    have := ((hpushed y).mp hy).2
    rw [hsame, not_or] at this
    exact this
  have hold := h.nodup
  refine ⟨pushed ++ todo, ?_, ?_, ?_, ?_, ?_⟩
  · rw [hwork, map_append]
  · -- What is pushed is new, so nothing waits or is done twice.
    rw [nodup_append] at hold
    obtain ⟨hd, hcons, hdisj⟩ := hold
    rw [nodup_cons] at hcons
    refine nodup_append.mpr ⟨nodup_cons.mpr ⟨?_, hd⟩, nodup_append.mpr ⟨hnodup, hcons.2, ?_⟩, ?_⟩
    · exact fun hin => hdisj x hin x (mem_cons_self ..) rfl
    · rintro a ha b hb rfl
      exact (hnew a ha).2 (mem_cons_of_mem _ hb)
    · rintro a ha b hb rfl
      rcases mem_append.mp hb with hb | hb
      · rcases mem_cons.mp ha with rfl | ha
        · exact (hnew a hb).2 (mem_cons_self ..)
        · exact (hnew a hb).1 ha
      · rcases mem_cons.mp ha with rfl | ha
        · exact hcons.1 hb
        · exact hdisj a ha a (mem_cons_of_mem _ hb) rfl
  · intro y hy
    rcases mem_append.mp hy with hy | hy
    · rcases mem_cons.mp hy with rfl | hy
      · exact hx
      · exact h.inside y (mem_append_left _ hy)
    · rcases mem_append.mp hy with hy | hy
      · exact ((hpushed y).mp hy).1.inside hm
      · exact h.inside y (by simp [hy])
  · intro y
    rw [hmarked, hsame, mem_cons, mem_cons, mem_append, hpushed, hsame, mem_cons]
    tauto
  · refine h.list.pop (fun y => ?_) (fun y hy => ((hpushed y).mp hy).1) ?_
    · rw [mem_cons, or_comm]
    · intro y hy hnot
      by_cases htodo : y ∈ todo
      · exact Or.inr htodo
      · refine Or.inl ((hpushed y).mpr ⟨hy, ?_⟩)
        rw [hsame]
        rw [mem_cons, not_or] at hnot
        simp [hnot.1, hnot.2, htodo]

/-- What is done and what waits are at most all functions and globals. -/
theorem Walked.length_le {w : Walk} {done todo : List Ref}
    (h : Walked m hosts entry all w done todo) :
    done.length + todo.length ≤ m.functions.length + m.globals.length := by
  have hnodup : ((done ++ todo).map (Ref.item m.functions.length)).Nodup := by
    refine Nodup.map_on (fun x hx y hy heq => ?_) h.nodup
    exact Ref.item_inj (h.inside x hx) (h.inside y hy) heq
  have hsub : (done ++ todo).map (Ref.item m.functions.length) ⊆
      List.range (m.functions.length + m.globals.length) := by
    intro k hk
    obtain ⟨x, hx, rfl⟩ := List.mem_map.mp hk
    exact mem_range.mpr (Ref.item_lt (h.inside x hx))
  have hle := (subperm_of_subset hnodup hsub).length_le
  simpa using hle

/-- The loop ends within its fuel and has marked what the entries reach. -/
theorem walkAll_marks (hm : IndexesExist m) : ∀ (fuel : Nat) (w : Walk) (done todo : List Ref),
      Walked m hosts entry all w done todo →
      m.functions.length + m.globals.length ≤ fuel + done.length →
      ∃ w', walkAll m (definitionsOf m) fuel w = some w' ∧
        ∀ x, w'.Marked x ↔ Reached (Entry m hosts entry all) (Refers m) x := by
  intro fuel
  induction fuel with
  | zero =>
    intro w done todo h hfuel
    have hlen := h.length_le
    have hnil : todo = [] := length_eq_zero_iff.mp (by omega)
    subst hnil
    refine ⟨w, ?_, fun x => ?_⟩
    · unfold walkAll
      rw [h.work]
      rfl
    · rw [h.marked, ← h.list.finish x]
      simp
  | succ fuel ih =>
    intro w done todo h hfuel
    cases todo with
    | nil =>
      refine ⟨w, ?_, fun x => ?_⟩
      · unfold walkAll
        rw [h.work]
        rfl
      · rw [h.marked, ← h.list.finish x]
        simp
    | cons x todo =>
      obtain ⟨todo', hturn⟩ := h.turn hm
      obtain ⟨w', hw', hmarks⟩ := ih _ _ _ hturn (by rw [length_cons]; omega)
      refine ⟨w', ?_, hmarks⟩
      rw [← hw']
      conv_lhs => unfold walkAll
      rw [h.work]
      rfl

/-- **THE WALK MARKS THE LEAST SET**: `ir_reach` ends and marks what contains
    the entries and is closed under what a body, a constant, a relocation and a
    declared datum refer to, and nothing else. -/
theorem irReach_marks (hm : IndexesExist m) : ∃ w, irReach m hosts entry all = some w ∧
      ∀ x, w.Marked x ↔ Reached (Entry m hosts entry all) (Refers m) x := by
  obtain ⟨todo, hstart⟩ : ∃ todo, Walked m hosts entry all (startWalk m hosts entry all) [] todo :=
    startWalk_walked
  exact walkAll_marks hm _ _ [] todo hstart (by simp)

end Loop

end AnticReach
