import Antic.AntlSignature
import Mathlib.Data.List.Perm.Basic

/-! # What the declarations of one C function merge to

    1. `Facts` is what a declaration or a function of the program states, and
       `mergeFacts` is what reading one more declaration does to it.
    2. `Meets` says of the merged facts, one by one, that they hold where all
       declarations state them.  It fixes them whatever the order was.
    3. `Holds` is the invariant of reading any records, of this function or of
       others: the program has the one function with the merged facts. -/

namespace AnticAntl

open AnticIr List Option

/-- The extension, `nonnull`, `own` and dereferenceable size of a parameter. -/
structure ParamFacts where
  ext : IrExt
  nonnull : Bool
  own : Bool
  deref : Nat
  deriving DecidableEq, Repr

/-- What a function or a declaration of it states. -/
@[ext]
structure Facts where
  neverReturns : Bool
  allocates : Bool
  resultExt : IrExt
  range : Option (Nat × Nat)
  effects : IrEffects
  guarantees : Nat
  writesTables : Bool
  params : List ParamFacts
  deriving DecidableEq, Repr

/-- The facts of a function of the program. -/
def stated (f : IrFunction) : Facts :=
  { neverReturns := f.neverReturns, allocates := f.allocates,
    resultExt := f.resultExt,
    range := if f.resultRange then some (f.resultLow, f.resultHigh) else none,
    effects := f.effects, guarantees := f.guarantees,
    writesTables := f.writesTables,
    params := f.params.map fun p => ⟨p.ext, p.nonnull, p.own, p.derefSize⟩ }

/-- The facts of a record. -/
def statedBy (s : Signature) : Facts :=
  { neverReturns := s.neverReturns, allocates := s.allocates,
    resultExt := s.resultExt,
    range := if s.resultRange then some (s.low, s.high) else none,
    effects := effectsOf s.effects, guarantees := guaranteesOf s.effects,
    writesTables := s.writesTables,
    params := s.params.map fun p => ⟨p.ext, p.nonnull, p.own, p.deref⟩ }

/-- One more declaration. -/
def mergeFacts (m d : Facts) : Facts :=
  { neverReturns := m.neverReturns && d.neverReturns,
    allocates := m.allocates && d.allocates,
    resultExt := if m.resultExt = d.resultExt then m.resultExt else .none,
    range := if m.range = d.range then m.range else none,
    effects := if m.effects = d.effects then m.effects else .any,
    guarantees := if m.effects = d.effects then m.guarantees &&& d.guarantees
      else 0,
    writesTables := m.writesTables || d.writesTables,
    params := m.params }

theorem stated_mergeEffects (f : IrFunction) (effects : Nat) :
    stated (mergeEffects f effects) =
      { stated f with
        effects := if f.effects = effectsOf effects then f.effects else .any,
        guarantees := if f.effects = effectsOf effects then
          f.guarantees &&& guaranteesOf effects else 0 } := by
  unfold mergeEffects
  by_cases h : f.effects = effectsOf effects
  · rw [if_neg (by simpa using h), if_pos h, if_pos h]
    rfl
  · rw [if_pos h, if_neg h, if_neg h]
    rfl

theorem merged_range (f : IrFunction) (s : Signature) :
    (if (if f.resultRange = false ∨ s.resultRange = false ∨
        f.resultLow ≠ s.low ∨ f.resultHigh ≠ s.high then false
        else f.resultRange) then some (f.resultLow, f.resultHigh) else none) =
      if (stated f).range = (statedBy s).range then (stated f).range
      else none := by
  unfold stated statedBy
  by_cases hl : f.resultLow = s.low ∧ f.resultHigh = s.high
  · cases f.resultRange <;> cases s.resultRange <;> simp
  · cases f.resultRange <;> cases s.resultRange <;> simp

theorem stated_mergeDeclaration (f : IrFunction) (s : Signature) :
    stated (mergeDeclaration f s) = mergeFacts (stated f) (statedBy s) := by
  unfold mergeDeclaration
  rw [stated_mergeEffects]
  refine Facts.ext rfl rfl ?_ (merged_range f s) rfl rfl rfl rfl
  exact ite_not ..

theorem foldl_addParam_params (ps : List ParamRecord) :
    ∀ f : IrFunction, ((ps.foldl addParam f).params.map fun p =>
        (⟨p.ext, p.nonnull, p.own, p.derefSize⟩ : ParamFacts)) =
      (f.params.map fun p => ⟨p.ext, p.nonnull, p.own, p.derefSize⟩) ++
        ps.map fun p => ⟨p.ext, p.nonnull, p.own, p.deref⟩ := by
  induction ps with
  | nil =>
    intro f
    simp
  | cons p ps ih =>
    intro f
    rw [foldl_cons, ih]
    simp [addParam]

theorem foldl_addParam_frame (ps : List ParamRecord) :
    ∀ f : IrFunction, ∃ params temps,
      ps.foldl addParam f = { f with params := params, temps := temps } := by
  induction ps with
  | nil => exact fun f => ⟨f.params, f.temps, rfl⟩
  | cons p ps ih =>
    intro f
    obtain ⟨params, temps, h⟩ := ih (addParam f p)
    exact ⟨params, temps, h⟩

variable {unit n : CName} {s : Signature} {f : IrFunction} {ds : List Signature}
  {p p' : IrModule} {r : SignatureRead}

theorem stated_newFunction (h : readParams (newFunction unit s) s.params = some f) :
    stated f = statedBy s := by
  unfold readParams at h
  split at h
  · obtain rfl := some.inj h
    obtain ⟨params, temps, hf⟩ := foldl_addParam_frame s.params (newFunction unit s)
    have hp := foldl_addParam_params s.params (newFunction unit s)
    rw [hf] at hp ⊢
    unfold stated
    rw [hp]
    rfl
  · exact absurd h (by simp)

/-! ## The meet of the declarations -/

/-- The facts `m`, its parameters apart, are those that all of `ds` state; it
    writes tables when one of them does. -/
structure Meets (m : Facts) (ds : List Facts) : Prop where
  neverReturns : m.neverReturns = true ↔ ∀ d ∈ ds, d.neverReturns = true
  allocates : m.allocates = true ↔ ∀ d ∈ ds, d.allocates = true
  resultExt : ∀ e, e ≠ .none → (m.resultExt = e ↔ ∀ d ∈ ds, d.resultExt = e)
  range : ∀ r, m.range = some r ↔ ∀ d ∈ ds, d.range = some r
  effects : ∀ e, e ≠ .any → (m.effects = e ↔ ∀ d ∈ ds, d.effects = e)
  guarantees : ∀ i, m.guarantees.testBit i = true ↔
    (∀ d ∈ ds, d.effects = m.effects) ∧ ∀ d ∈ ds, d.guarantees.testBit i = true
  writesTables : m.writesTables = true ↔ ∃ d ∈ ds, d.writesTables = true

theorem meets_single (d : Facts) : Meets d [d] := by
  constructor <;> simp

theorem forall_mem_snoc {α : Type} {P : α → Prop} {ds : List α} {d : α} :
    (∀ x ∈ ds ++ [d], P x) ↔ (∀ x ∈ ds, P x) ∧ P d := by
  simp only [mem_append, mem_singleton]
  constructor
  · intro h
    exact ⟨fun x hx => h x (Or.inl hx), h d (Or.inr rfl)⟩
  · rintro ⟨h, hd⟩ x (hx | rfl)
    · exact h x hx
    · exact hd

/-- A value that stays while all agree and falls to `bot` otherwise. -/
theorem agree_snoc {α β : Type} [DecidableEq β] (get : α → β) {bot a b : β}
    {ds : List α} {d : α} (hd : get d = b)
    (h : ∀ e, e ≠ bot → (a = e ↔ ∀ x ∈ ds, get x = e)) (e : β) (he : e ≠ bot) :
    (if a = b then a else bot) = e ↔ ∀ x ∈ ds ++ [d], get x = e := by
  rw [forall_mem_snoc, hd, ← h e he]
  split
  · rename_i hab
    rw [hab]
    exact (and_self_iff).symm
  · rename_i hab
    constructor
    · intro hbot
      exact absurd hbot.symm he
    · rintro ⟨rfl, rfl⟩
      exact absurd rfl hab

theorem Meets.snoc {m : Facts} {ds : List Facts} (h : Meets m ds)
    (hne : ds ≠ []) (d : Facts) : Meets (mergeFacts m d) (ds ++ [d]) := by
  refine ⟨?_, ?_, agree_snoc Facts.resultExt rfl h.resultExt, ?_,
    agree_snoc Facts.effects rfl h.effects, ?_, ?_⟩
  · rw [forall_mem_snoc, ← h.neverReturns]
    exact Bool.and_eq_true_iff
  · rw [forall_mem_snoc, ← h.allocates]
    exact Bool.and_eq_true_iff
  · intro r
    refine agree_snoc Facts.range rfl ?_ (some r) (by simp)
    intro e he
    obtain ⟨r', rfl⟩ := ne_none_iff_exists'.mp he
    exact h.range r'
  · intro i
    rw [forall_mem_snoc, forall_mem_snoc]
    unfold mergeFacts
    by_cases he : m.effects = d.effects
    · simp only [if_pos he, Nat.testBit_and, Bool.and_eq_true, h.guarantees]
      constructor
      · rintro ⟨⟨h1, h2⟩, h3⟩
        exact ⟨⟨h1, he.symm⟩, h2, h3⟩
      · rintro ⟨⟨h1, -⟩, h2, h3⟩
        exact ⟨⟨h1, h2⟩, h3⟩
    · simp only [if_neg he, Nat.zero_testBit, Bool.false_eq_true, false_iff]
      rintro ⟨⟨h1, h2⟩, -⟩
      -- All are of the class that says nothing, so the merged class is too.
      refine he ?_
      rw [h2]
      by_contra hany
      obtain ⟨x, hx⟩ := exists_mem_of_ne_nil ds hne
      exact hany ((((h.effects _ hany).mp rfl) x hx).symm.trans (h1 x hx))
  · simp only [mergeFacts, Bool.or_eq_true, h.writesTables, mem_append,
      mem_singleton]
    constructor
    · rintro (⟨x, hx, hw⟩ | hw)
      · exact ⟨x, Or.inl hx, hw⟩
      · exact ⟨d, Or.inr rfl, hw⟩
    · rintro ⟨x, hx | rfl, hw⟩
      · exact Or.inl ⟨x, hx, hw⟩
      · exact Or.inr hw

theorem eq_of_agree {β : Type} {bot a b : β} {P : β → Prop}
    (ha : ∀ e, e ≠ bot → (a = e ↔ P e)) (hb : ∀ e, e ≠ bot → (b = e ↔ P e)) :
    a = b := by
  by_cases h : a = bot
  · by_cases h' : b = bot
    · rw [h, h']
    · exact (ha b h').mpr ((hb b h').mp rfl)
  · exact ((hb a h).mpr ((ha a h).mp rfl)).symm

/-- The meet depends on which declarations there are, not on their order. -/
theorem Meets.perm {m : Facts} {ds ds' : List Facts} (h : Meets m ds)
    (hp : ds.Perm ds') : Meets m ds' := by
  obtain ⟨h1, h2, h3, h4, h5, h6, h7⟩ := h
  simp only [hp.mem_iff] at h1 h2 h3 h4 h5 h6 h7
  exact ⟨h1, h2, h3, h4, h5, h6, h7⟩

/-- **THE MEET IS ONE**, its parameters apart. -/
theorem Meets.unique {m m' : Facts} {ds : List Facts} (h : Meets m ds)
    (h' : Meets m' ds) (hp : m.params = m'.params) : m = m' := by
  have heff : m.effects = m'.effects := eq_of_agree h.effects h'.effects
  refine Facts.ext ?_ ?_ (eq_of_agree h.resultExt h'.resultExt) ?_ heff ?_ ?_ hp
  · rw [Bool.eq_iff_iff, h.neverReturns, h'.neverReturns]
  · rw [Bool.eq_iff_iff, h.allocates, h'.allocates]
  · refine Option.ext fun r => ?_
    rw [h.range, h'.range]
  · refine Nat.eq_of_testBit_eq fun i => ?_
    rw [Bool.eq_iff_iff, h.guarantees, h'.guarantees, heff]
  · rw [Bool.eq_iff_iff, h.writesTables, h'.writesTables]

/-! ## The function that a name finds -/

/-- A function of this module and name. -/
def Named (module : Option CName) (name : CName) (f : IrFunction) : Prop :=
  f.module = module ∧ f.name = name

section Find

variable (module : Option CName) (name : CName)

theorem findFrom_snoc (f : IrFunction) [Decidable (Named module name f)] :
    ∀ (fs : List IrFunction) (i : Nat) (found : Option Nat),
      findFrom module name (fs ++ [f]) i found =
        if Named module name f then some (i + fs.length)
        else findFrom module name fs i found := by
  intro fs
  induction fs with
  | nil =>
    intro i found
    by_cases h : Named module name f
    · simp [findFrom, h, h.1, h.2]
    · have hn : ¬ (f.module = module ∧ f.name = name) := h
      simp [findFrom, h, hn]
  | cons g gs ih =>
    intro i found
    simp only [cons_append, findFrom, ih, length_cons]
    rw [show i + 1 + gs.length = i + (gs.length + 1) by omega]

theorem findFrom_set {f f' : IrFunction} (hm : f'.module = f.module)
    (hn : f'.name = f.name) :
    ∀ (fs : List IrFunction) (k i : Nat) (found : Option Nat),
      fs[k]? = some f →
      findFrom module name (fs.set k f') i found =
        findFrom module name fs i found := by
  intro fs
  induction fs with
  | nil =>
    intro k i found h
    exact absurd h (by simp)
  | cons g gs ih =>
    intro k i found h
    cases k with
    | zero =>
      obtain rfl : g = f := by simpa using h
      simp only [set_cons_zero, findFrom, hm, hn]
    | succ k =>
      exact ih k _ _ (by simpa using h)

theorem findFrom_named :
    ∀ (fs : List IrFunction) (i j : Nat) (found : Option Nat),
      findFrom module name fs i found = some j →
      found = some j ∨ ∃ k f, j = i + k ∧ fs[k]? = some f ∧
        Named module name f := by
  intro fs
  induction fs with
  | nil =>
    intro i j found h
    exact Or.inl h
  | cons g gs ih =>
    intro i j found h
    rcases ih (i + 1) j _ h with hf | ⟨k, f, rfl, hk, hn⟩
    · split at hf
      · rename_i hg
        obtain rfl := some.inj hf
        exact Or.inr ⟨0, g, rfl, rfl, hg⟩
      · exact Or.inl hf
    · exact Or.inr ⟨k + 1, f, by omega, by simpa using hk, hn⟩

theorem findFunction_named {module : Option CName} {name : CName} {p : IrModule}
    {j : Nat}
    (h : findFunction p module name = some j) :
    ∃ f, p.functions[j]? = some f ∧ Named module name f := by
  rcases findFrom_named _ _ _ _ _ _ h with hf | ⟨k, f, rfl, hk, hn⟩
  · exact absurd hf (by simp)
  · exact ⟨f, by simpa using hk, hn⟩

end Find

theorem mergeEffects_frame (f : IrFunction) (effects : Nat) :
    ∃ e g, mergeEffects f effects = { f with effects := e, guarantees := g } := by
  unfold mergeEffects
  split
  · exact ⟨_, _, rfl⟩
  · exact ⟨f.effects, _, rfl⟩

theorem named_mergeDeclaration {module : Option CName} {name : CName}
    (h : Named module name f) (s : Signature) :
    Named module name (mergeDeclaration f s) := by
  unfold mergeDeclaration
  obtain ⟨e, g, hf⟩ := mergeEffects_frame _ s.effects
  rw [hf]
  exact h

theorem functionSignature_mergeDeclaration (f : IrFunction) (s : Signature) :
    functionSignature (mergeDeclaration f s) = functionSignature f := by
  unfold mergeDeclaration
  obtain ⟨e, g, hf⟩ := mergeEffects_frame _ s.effects
  rw [hf]
  rfl

/-- What reading a record can do to the functions of the program: add one, or
    merge into the one of its name. -/
theorem readSignature_cases (h : readSignature unit p s = some (p', r)) :
    (∃ f, findFunction p s.module s.name = none ∧
      readParams (newFunction unit s) s.params = some f ∧
      p' = { p with functions := p.functions ++ [f] }) ∨
    ∃ i f, findFunction p s.module s.name = some i ∧
      p.functions[i]? = some f ∧
      p' = { p with functions :=
        p.functions.set i (mergeDeclaration (s.filled f) s) } := by
  unfold readSignature at h
  split at h
  · exact absurd h (by simp)
  · split at h
    · rename_i hfind
      left
      obtain ⟨f, hf, heq⟩ := map_eq_some_iff.mp h
      exact ⟨f, hfind, hf, (Prod.mk.inj heq).1.symm⟩
    · rename_i i hfind
      right
      split at h
      · exact absurd h (by simp)
      · rename_i f hf
        dsimp only at h
        split at h
        · exact absurd h (by simp)
        · split at h
          · exact absurd h (by simp)
          · exact ⟨i, f, hfind, hf, (Prod.mk.inj (some.inj h)).1.symm⟩

theorem named_filled {module : Option CName} {name : CName} (h : Named module name f)
    (s : Signature) : Named module name (s.filled f) := by
  unfold Signature.filled
  split <;> exact h

theorem filled_of_c (h : s.module = none) (f : IrFunction) : s.filled f = f := by
  simp [Signature.filled, Signature.fills, Signature.isCopy, h]

theorem named_newFunction (h : readParams (newFunction unit s) s.params = some f) :
    Named s.module s.name f := by
  unfold readParams at h
  split at h
  · obtain rfl := some.inj h
    obtain ⟨params, temps, hf⟩ := foldl_addParam_frame s.params (newFunction unit s)
    rw [hf]
    exact ⟨rfl, rfl⟩
  · exact absurd h (by simp)

/-! ## Reading the records of all files -/

/-- A declaration of the C function `n`. -/
def declares (n : CName) (s : Signature) : Bool := s.module = none ∧ s.name = n

/-- After the declarations `ds` of `n`, in this order and among any others, the
    program has the function with their meet and the parameters of the first. -/
def Holds (p : IrModule) (n : CName) : List Signature → Prop
  | [] => findFunction p none n = none
  | d :: ds => ∃ i f, findFunction p none n = some i ∧
      p.functions[i]? = some f ∧ Meets (stated f) ((d :: ds).map statedBy) ∧
      (stated f).params = (statedBy d).params

theorem Holds.of_kept (hold : Holds p n ds)
    (hfind : findFunction p' none n = findFunction p none n)
    (hkept : ∀ (i : Nat) f, p.functions[i]? = some f → Named none n f →
      p'.functions[i]? = some f) : Holds p' n ds := by
  cases ds with
  | nil => exact hfind.trans hold
  | cons d ds =>
    obtain ⟨i, f, hi, hf, hm, hp⟩ := hold
    obtain ⟨f', hf', hn⟩ := findFunction_named hi
    obtain rfl := some.inj (hf.symm.trans hf')
    exact ⟨i, f, hfind.trans hi, hkept i f hf hn, hm, hp⟩

theorem Holds.other (hold : Holds p n ds) (hs : declares n s = false)
    (h : readSignature unit p s = some (p', r)) : Holds p' n ds := by
  have hkey : ∀ f, Named s.module s.name f → ¬ Named none n f := by
    rintro f ⟨h1, h2⟩ ⟨h3, h4⟩
    have : declares n s = true := by simp [declares, ← h1, ← h2, h3, h4]
    rw [hs] at this
    exact absurd this (by simp)
  rcases readSignature_cases h with ⟨f, -, hf, rfl⟩ | ⟨i, f, hi, hf, rfl⟩
  · refine hold.of_kept ?_ ?_
    · have hn := hkey f (named_newFunction hf)
      have hdec : Decidable (Named none n f) := isFalse hn
      exact (findFrom_snoc none n f _ _ _).trans (if_neg hn)
    · intro j f' hj _
      have hlt : j < p.functions.length := (List.getElem?_eq_some_iff.mp hj).1
      exact (getElem?_append_left hlt).trans hj
  · obtain ⟨f', hf', hn⟩ := findFunction_named hi
    obtain rfl := some.inj (hf.symm.trans hf')
    have hnew := named_mergeDeclaration (named_filled hn s) s
    refine hold.of_kept ?_ ?_
    · exact findFrom_set none _ (hnew.1.trans hn.1.symm) (hnew.2.trans hn.2.symm) _ _ _ _ hf
    · intro j f' hj hnj
      have hne : i ≠ j := by
        rintro rfl
        obtain rfl := some.inj (hf.symm.trans hj)
        exact hkey f hn hnj
      exact (getElem?_set_ne hne).trans hj

theorem Holds.snoc (hold : Holds p n ds) (hs : declares n s = true)
    (h : readSignature unit p s = some (p', r)) : Holds p' n (ds ++ [s]) := by
  obtain ⟨hmod, rfl⟩ : s.module = none ∧ s.name = n := by
    simpa [declares] using hs
  rcases readSignature_cases h with ⟨f, hnone, hf, rfl⟩ | ⟨i, f, hi, hf, rfl⟩
  · rw [hmod] at hnone
    cases ds with
    | cons d ds =>
      obtain ⟨i, f', hi, -⟩ := hold
      rw [hnone] at hi
      exact absurd hi (by simp)
    | nil =>
      have hn : Named none s.name f := by
        have := named_newFunction hf
        rwa [hmod] at this
      have hdec : Decidable (Named none s.name f) := isTrue hn
      refine ⟨p.functions.length, f, ?_, by simp, ?_, ?_⟩
      · have hsnoc := findFrom_snoc none s.name f
          p.functions 0 none
        rw [if_pos hn, Nat.zero_add] at hsnoc
        exact hsnoc
      · rw [stated_newFunction hf]
        exact meets_single _
      · rw [stated_newFunction hf]
  · rw [hmod] at hi
    obtain ⟨f', hf', hn⟩ := findFunction_named hi
    obtain rfl := some.inj (hf.symm.trans hf')
    rw [filled_of_c hmod]
    cases ds with
    | nil =>
      rw [hold] at hi
      exact absurd hi (by simp)
    | cons d ds =>
      obtain ⟨j, f', hj, hf', hm, hp⟩ := hold
      obtain rfl := some.inj (hi.symm.trans hj)
      obtain rfl := some.inj (hf.symm.trans hf')
      have hnew := named_mergeDeclaration hn s
      have hlt : i < p.functions.length := (List.getElem?_eq_some_iff.mp hf).1
      refine ⟨i, mergeDeclaration f s, ?_, ?_, ?_, ?_⟩
      · exact (findFrom_set none _ (hnew.1.trans hn.1.symm) (hnew.2.trans hn.2.symm)
          _ _ _ _ hf).trans hi
      · exact getElem?_set_self hlt
      · have hmap : ((d :: ds) ++ [s]).map statedBy =
            (d :: ds).map statedBy ++ [statedBy s] := map_append
        rw [stated_mergeDeclaration]
        exact hmap ▸ hm.snoc (by simp) _
      · rw [stated_mergeDeclaration]
        exact hp

/-- The declarations of `n` among the records, in the order of reading. -/
def declarationsOf (n : CName) (records : List (CName × Signature)) :
    List Signature :=
  (records.map Prod.snd).filter (declares n)

theorem declarationsOf_map (unit : CName) (h : ∀ d ∈ ds, declares n d = true) :
    declarationsOf n (ds.map fun d => (unit, d)) = ds := by
  unfold declarationsOf
  rw [List.map_map, show Prod.snd ∘ (fun d : Signature => (unit, d)) = id from rfl,
    List.map_id]
  exact filter_eq_self.mpr h

theorem readSignatures_holds :
    ∀ (records : List (CName × Signature)) (p p' : IrModule)
      (ds : List Signature), Holds p n ds →
      readSignatures p records = some p' →
      Holds p' n (ds ++ declarationsOf n records) := by
  intro records
  induction records with
  | nil =>
    intro p p' ds hold h
    obtain rfl := some.inj h
    rw [show declarationsOf n [] = [] from rfl, append_nil]
    exact hold
  | cons x rest ih =>
    obtain ⟨unit, s⟩ := x
    intro p p' ds hold h
    unfold readSignatures at h
    split at h
    · exact absurd h (by simp)
    · rename_i p1 r hr
      by_cases hs : declares n s = true
      · have hstep := ih p1 p' (ds ++ [s]) (hold.snoc hs hr) h
        rw [append_assoc] at hstep
        have hcons : declarationsOf n ((unit, s) :: rest) =
            s :: declarationsOf n rest := by
          simp [declarationsOf, hs]
        rw [hcons]
        exact hstep
      · have hs : declares n s = false := by simpa using hs
        have hcons : declarationsOf n ((unit, s) :: rest) =
            declarationsOf n rest := by
          simp [declarationsOf, hs]
        rw [hcons]
        exact ih p1 p' ds (hold.other hs hr) h

/-! ## Every order is accepted -/

/-- A declaration of the C function `n` that a library file can hold. -/
def DeclarationOk (n : CName) (s : Signature) : Prop :=
  declares n s = true ∧ headOk s = true ∧ s.params.all paramOk = true

theorem foldl_addParam_types (ps : List ParamRecord) :
    ∀ f : IrFunction,
      (ps.foldl addParam f).params.map (fun p => (p.type, p.agg)) =
        f.params.map (fun p => (p.type, p.agg)) ++
          ps.map fun p => (p.type, p.agg) := by
  induction ps with
  | nil =>
    intro f
    simp
  | cons p ps ih =>
    intro f
    rw [foldl_cons, ih]
    simp [addParam]

/-- The program has no function `n` yet, or one of signature `c`. -/
def Accepts (p : IrModule) (n : CName) (c : CSignature) : Prop :=
  findFunction p none n = none ∨ ∃ i f, findFunction p none n = some i ∧
    p.functions[i]? = some f ∧ functionSignature f = c

theorem readSignature_accepts (unit : CName) (hs : DeclarationOk n s)
    (ha : Accepts p n s.ofC) :
    ∃ p' r, readSignature unit p s = some (p', r) ∧ Accepts p' n s.ofC := by
  obtain ⟨hd, hhead, hparams⟩ := hs
  obtain ⟨hmod, rfl⟩ : s.module = none ∧ s.name = n := by
    simpa [declares] using hd
  have hdecl : s.isDeclaration = true := by
    unfold headOk at hhead
    simp only [Bool.and_eq_true, Bool.or_eq_true] at hhead
    exact hhead.1.1.2.resolve_right (by simp [hmod])
  rcases ha with hnone | ⟨i, f, hi, hf, hc⟩
  · have hread : readSignature unit p s = some
        ({ p with functions := p.functions ++
            [s.params.foldl addParam (newFunction unit s)] },
          { index := p.functions.length, hasBody := !s.isDeclaration,
            skip := false }) := by
      simp [readSignature, hhead, hmod, hnone, readParams, hparams]
    have hnamed : Named none s.name (s.params.foldl addParam
        (newFunction unit s)) := by
      rw [← hmod]
      exact named_newFunction (show readParams (newFunction unit s) s.params = some _ by
        simp [readParams, hparams])
    have hdec : Decidable (Named none s.name (s.params.foldl addParam
        (newFunction unit s))) := isTrue hnamed
    have hsnoc := findFrom_snoc none s.name
      (s.params.foldl addParam (newFunction unit s)) p.functions 0 none
    rw [if_pos hnamed, Nat.zero_add] at hsnoc
    refine ⟨_, _, hread, Or.inr ⟨p.functions.length, _, hsnoc,
      getElem?_concat_length, ?_⟩⟩
    have htypes := foldl_addParam_types s.params (newFunction unit s)
    obtain ⟨params, temps, hframe⟩ := foldl_addParam_frame s.params
      (newFunction unit s)
    rw [hframe] at htypes ⊢
    unfold functionSignature
    rw [htypes]
    simp [newFunction, Signature.ofC, hdecl, hmod]
  · have hsame : functionSignature (mergeDeclaration (s.filled f) s) = s.ofC := by
      rw [functionSignature_mergeDeclaration, filled_of_c hmod, hc]
    have hread : readSignature unit p s = some
        ({ p with functions :=
            p.functions.set i (mergeDeclaration (s.filled f) s) },
          { index := i, hasBody := s.fills f,
            skip := s.isCopy && !s.fills f }) := by
      simp [readSignature, hhead, hmod, hi, hf, hdecl, sameSignature, hsame]
    obtain ⟨f', hf', hn⟩ := findFunction_named hi
    obtain rfl := some.inj (hf.symm.trans hf')
    have hnew := named_mergeDeclaration (named_filled hn s) s
    have hlt : i < p.functions.length := (List.getElem?_eq_some_iff.mp hf).1
    refine ⟨_, _, hread, Or.inr ⟨i, _, ?_, getElem?_set_self hlt, hsame⟩⟩
    exact (findFrom_set none _ (hnew.1.trans hn.1.symm) (hnew.2.trans hn.2.symm)
      _ _ _ _ hf).trans hi

/-- The declarations of one C function with one signature are accepted in any order. -/
theorem readSignatures_accepts (unit : CName) {c : CSignature} :
    ∀ (ds : List Signature) (p : IrModule), Accepts p n c →
      (∀ d ∈ ds, DeclarationOk n d ∧ d.ofC = c) →
      ∃ p', readSignatures p (ds.map fun d => (unit, d)) = some p' := by
  intro ds
  induction ds with
  | nil => exact fun p _ _ => ⟨p, rfl⟩
  | cons d ds ih =>
    intro p ha hds
    obtain ⟨hok, rfl⟩ := hds d (mem_cons_self ..)
    obtain ⟨p1, r, hr, ha1⟩ := readSignature_accepts unit hok ha
    obtain ⟨p', hp'⟩ := ih p1 ha1 fun d' hd' => hds d' (mem_cons_of_mem _ hd')
    refine ⟨p', ?_⟩
    rw [map_cons, readSignatures, hr]
    exact hp'

/-! ## The main result -/

/-- What the program states of the C function `n`. -/
def statedOf (p : IrModule) (n : CName) : Option Facts :=
  match findFunction p none n with
  | none => none
  | some i => (p.functions[i]?).map stated

/-- `m` states a fact only if every one of `ds` states it, and writes tables if one does. -/
structure StatesOnly (m : Facts) (ds : List Facts) : Prop where
  neverReturns : m.neverReturns = true → ∀ d ∈ ds, d.neverReturns = true
  allocates : m.allocates = true → ∀ d ∈ ds, d.allocates = true
  resultExt : m.resultExt ≠ .none → ∀ d ∈ ds, d.resultExt = m.resultExt
  range : ∀ r, m.range = some r → ∀ d ∈ ds, d.range = some r
  effects : m.effects ≠ .any → ∀ d ∈ ds, d.effects = m.effects
  guarantees : ∀ i, m.guarantees.testBit i = true →
    ∀ d ∈ ds, d.guarantees.testBit i = true
  params : ∀ (i : Nat) q, m.params[i]? = some q → ∀ d ∈ ds,
    ∃ q', d.params[i]? = some q' ∧ (q.nonnull = true → q'.nonnull = true) ∧
      (q.own = true → q'.own = true) ∧
      (q.deref ≠ irNoIndex → q'.deref = q.deref)
  writesTables : (∃ d ∈ ds, d.writesTables = true) → m.writesTables = true

/-- The meet of declarations that agree on their parameters states only what all of them state. -/
theorem Meets.statesOnly {m : Facts} {ds : List Facts} (h : Meets m ds)
    (hp : ∀ d ∈ ds, d.params = m.params) : StatesOnly m ds := by
  refine ⟨h.neverReturns.mp, h.allocates.mp,
    fun hne => (h.resultExt _ hne).mp rfl, fun r => (h.range r).mp,
    fun hne => (h.effects _ hne).mp rfl, fun i hi => ((h.guarantees i).mp hi).2,
    ?_, h.writesTables.mpr⟩
  intro i q hq d hd
  exact ⟨q, by rw [hp d hd]; exact hq, id, id, fun _ => rfl⟩

theorem Holds.stated {d : Signature} (h : Holds p n (d :: ds)) :
    ∃ m, statedOf p n = some m ∧ Meets m ((d :: ds).map statedBy) ∧
      m.params = (statedBy d).params := by
  obtain ⟨i, f, hi, hf, hm, hp⟩ := h
  refine ⟨AnticAntl.stated f, ?_, hm, hp⟩
  unfold statedOf
  rw [hi]
  simp [hf]

/-- Records of library files, in an order of reading, whose declarations of `n`
    are `ds`, and the program they give. -/
def Reads (n : CName) (ds : List Signature)
    (records : List (CName × Signature)) (p : IrModule) : Prop :=
  (declarationsOf n records).Perm ds ∧ readSignatures {} records = some p

theorem Reads.stated {records : List (CName × Signature)} (h : Reads n ds records p)
    (hne : ds ≠ []) :
    ∃ m d ds', statedOf p n = some m ∧ declarationsOf n records = d :: ds' ∧
      d ∈ ds ∧ Meets m (ds.map statedBy) ∧ m.params = (statedBy d).params := by
  obtain ⟨hperm, hread⟩ := h
  have hold := readSignatures_holds records {} p []
    (show findFunction {} none n = none from rfl) hread
  cases hds : declarationsOf n records with
  | nil =>
    rw [hds] at hperm
    exact absurd hperm.nil_eq.symm hne
  | cons d ds' =>
    rw [hds] at hold hperm
    obtain ⟨m, hm, hmeets, hp⟩ := hold.stated
    exact ⟨m, d, ds', hm, rfl, hperm.mem_iff.mp (mem_cons_self ..),
      hmeets.perm (hperm.map _), hp⟩

/-- Some order reads declaration `x` first, and the program then has its parameters. -/
theorem reads_first (hok : ∀ d ∈ ds, DeclarationOk n d)
    (hsame : ∀ d ∈ ds, ∀ d' ∈ ds, d.ofC = d'.ofC) {x : Signature} (hx : x ∈ ds) :
    ∃ records p m, Reads n ds records p ∧ statedOf p n = some m ∧
      m.params = (statedBy x).params := by
  have hperm : (x :: ds.erase x).Perm ds := (perm_cons_erase hx).symm
  have hmem : ∀ y ∈ x :: ds.erase x, y ∈ ds := fun y hy => hperm.mem_iff.mp hy
  obtain ⟨p, hp⟩ := readSignatures_accepts [] (x :: ds.erase x) {}
    (Or.inl rfl) fun y hy => ⟨hok y (hmem y hy), hsame y (hmem y hy) x hx⟩
  have hdecls := declarationsOf_map []
    fun y hy => (hok y (hmem y hy)).1
  have hreads : Reads n ds _ p := ⟨by rw [hdecls]; exact hperm, hp⟩
  obtain ⟨m, d, ds', hm, hd, -, -, hpar⟩ := hreads.stated (ne_nil_of_mem hx)
  obtain ⟨rfl, -⟩ := cons.inj (hdecls.symm.trans hd)
  exact ⟨_, p, m, hreads, hm, hpar⟩

/-- **WHAT THE DECLARATIONS MERGE TO.**  The records of any library files, read
    in any order, leave the C function `n` with what all its declarations state
    and with one record for every order, exactly when the declarations agree on
    the facts of their parameters: those are kept from the first. -/
theorem declarations_merge_iff (n : CName) (ds : List Signature)
    (hne : ds ≠ []) (hok : ∀ d ∈ ds, DeclarationOk n d)
    (hsame : ∀ d ∈ ds, ∀ d' ∈ ds, d.ofC = d'.ofC) :
    (∀ records p, Reads n ds records p →
      (∃ m, statedOf p n = some m ∧ StatesOnly m (ds.map statedBy)) ∧
      ∀ records' p', Reads n ds records' p' → statedOf p' n = statedOf p n) ↔
    ∀ d ∈ ds, ∀ d' ∈ ds, (statedBy d).params = (statedBy d').params := by
  constructor
  · intro h d hd d' hd'
    obtain ⟨records, p, m, hr, hm, hp⟩ := reads_first hok hsame hd
    obtain ⟨records', p', m', hr', hm', hp'⟩ := reads_first hok hsame hd'
    have heq := (h _ p hr).2 _ p' hr'
    rw [hm, hm'] at heq
    obtain rfl := some.inj heq
    exact hp.symm.trans hp'
  · intro h records p hr
    obtain ⟨m, d, -, hm, -, hd, hmeets, hp⟩ := hr.stated hne
    refine ⟨⟨m, hm, hmeets.statesOnly ?_⟩, ?_⟩
    · intro x hx
      obtain ⟨d', hd', rfl⟩ := List.mem_map.mp hx
      rw [hp]
      exact h d' hd' d hd
    · intro records' p' hr'
      obtain ⟨m', d', -, hm', -, hd', hmeets', hp'⟩ := hr'.stated hne
      rw [hm, hm']
      refine congrArg some (hmeets'.unique hmeets ?_)
      rw [hp, hp']
      exact h d' hd' d hd

/-- A declaration of `free` with the facts of its one parameter. -/
def freeDeclaration (nonnull : Bool) (flags effects : Nat) : Signature where
  flags := flags
  effects := effects
  module := none
  name := [102, 114, 101, 101]
  result := .void
  params := [{ type := .ptr, nonnull := nonnull }]

/-- Two declarations that agree on the parameter: the merged function states
    only what both state. -/
theorem declarations_merge_free :
    ∃ p m, Reads [102, 114, 101, 101]
        [freeDeclaration true 1 13, freeDeclaration true 1 5]
        [([97], freeDeclaration true 1 13), ([98], freeDeclaration true 1 5)] p ∧
      statedOf p [102, 114, 101, 101] = some m ∧
      StatesOnly m
        [statedBy (freeDeclaration true 1 13),
          statedBy (freeDeclaration true 1 5)] := by
  have hread : (readSignatures {} [([97], freeDeclaration true 1 13),
      ([98], freeDeclaration true 1 5)]).isSome = true := by decide
  obtain ⟨p, hp⟩ := isSome_iff_exists.mp hread
  have hok : ∀ d ∈ [freeDeclaration true 1 13, freeDeclaration true 1 5],
      DeclarationOk [102, 114, 101, 101] d := by
    intro d hd
    have hall : ∀ d ∈ [freeDeclaration true 1 13, freeDeclaration true 1 5],
        declares [102, 114, 101, 101] d = true ∧ headOk d = true ∧
          d.params.all paramOk = true := by decide
    exact hall d hd
  have hreads : Reads [102, 114, 101, 101]
      [freeDeclaration true 1 13, freeDeclaration true 1 5]
      [([97], freeDeclaration true 1 13), ([98], freeDeclaration true 1 5)] p :=
    ⟨by decide, hp⟩
  obtain ⟨m, hm, hstates⟩ := ((declarations_merge_iff _ _ (by decide) hok
    (by decide)).mpr (by decide) _ p hreads).1
  exact ⟨p, m, hreads, hm, hstates⟩

/-- The parameter of the first declaration stays: the merged function promises a
    pointer that is never null, which the second module does not. -/
theorem declarations_merge_first_param :
    ∃ p m, Reads [102, 114, 101, 101]
        [freeDeclaration true 1 1, freeDeclaration false 1 1]
        [([97], freeDeclaration true 1 1), ([98], freeDeclaration false 1 1)] p ∧
      statedOf p [102, 114, 101, 101] = some m ∧
      ¬ StatesOnly m
        [statedBy (freeDeclaration true 1 1),
          statedBy (freeDeclaration false 1 1)] := by
  have hread : ((readSignatures {} [([97], freeDeclaration true 1 1),
      ([98], freeDeclaration false 1 1)]).bind fun p =>
        statedOf p [102, 114, 101, 101]) =
      some (statedBy (freeDeclaration true 1 1)) := by decide
  obtain ⟨p, hp, hm⟩ := bind_eq_some_iff.mp hread
  refine ⟨p, _, ⟨by decide, hp⟩, hm, fun h => ?_⟩
  obtain ⟨q, hq, hnull, -⟩ := h.params 0 ⟨.none, true, false, irNoIndex⟩ rfl
    (statedBy (freeDeclaration false 1 1)) (by decide)
  obtain rfl : (⟨.none, false, false, irNoIndex⟩ : ParamFacts) = q :=
    some.inj hq
  exact absurd (hnull rfl) (by decide)

end AnticAntl
