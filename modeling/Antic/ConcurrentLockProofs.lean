import Antic.ConcurrentPartProofs
import Mathlib.Algebra.BigOperators.Fin

/-! # What the threads of a map rely on

    A thread relies on the parts whose locks it holds to stay as they are, and on the others to add
    only calls of their own to the histories.  `At` is what a thread knows in the middle of a call:
    its own calls since the call began, the locks it holds, and the parts behind them. -/

namespace AnticShared

open AnticCollection SharedCode Histories Interleaving List Function

variable {ι K V : Type} [BEq K] {hash : K → UInt64} {seed : UInt64}

/-! ## The memory -/

/-- What the memory is at every moment. -/
structure Store.Sound (hash : K → UInt64) (seed : UInt64) (m : Store ι K V) : Prop where
  part : ∀ i, (m.parts i).Sound (m.history i)
  size : m.size = ∑ i, ((m.parts i).entries.length : Int)
  keys : ∀ i, ∀ n ∈ m.history i, partOf hash seed n.key = i

/-- A call of one key runs in the part of its key. -/
def Section.Fits (hash : K → UInt64) (seed : UInt64) (i : Fin PARTS) : Section K V → Prop
  | .key k _ => partOf hash seed k = i
  | _ => True

theorem sum_update {α M : Type} [AddCommMonoid M] (g : Fin PARTS → α) (i : Fin PARTS) (x : α)
    (f : α → M) : ∑ j, f (update g i x j) + f (g i) = ∑ j, f (g j) + f x := by
  have hsame : (fun j => f (update g i x j)) =
      update (fun j => f (g j)) i (f x) := by
    funext j
    exact apply_update (fun _ => f) g i x j
  have hsum := Finset.sum_update_of_mem (Finset.mem_univ i) (fun j => f (g j)) (f x)
  have hold := Finset.sum_eq_add_sum_sdiff_singleton_of_mem (Finset.mem_univ i) fun j => f (g j)
  rw [hsame, hsum, hold, add_comm (f x), add_comm (f (g i)), add_right_comm]

variable {m : Store ι K V}

theorem Store.Sound.run [EquivBEq K]
    (hagree : ∀ a b : K, (a == b) = true → hash a = hash b) (hm : m.Sound hash seed)
    (t : ι) {i : Fin PARTS} {s : Section K V} (hfits : s.Fits hash seed i) :
    (m.run t i s).Sound hash seed := by
  obtain ⟨hsound, hlength⟩ := section_sound t s (hm.part i)
  constructor
  · intro j
    by_cases hj : j = i
    · subst hj
      simp only [Store.run, update_self]
      exact hsound
    · simp only [Store.run, update_of_ne hj]
      exact hm.part j
  · show m.size + (s.run (m.parts i)).1.2 = _
    have hsum := sum_update m.parts i (s.run (m.parts i)).1.1 fun p => (p.entries.length : Int)
    rw [hm.size]
    show _ = ∑ j, (((update m.parts i _) j).entries.length : Int)
    omega
  · intro j n hn
    by_cases hj : j = i
    · subst hj
      simp only [Store.run, update_self, mem_append] at hn
      rcases hn with hn | hn
      · exact hm.keys j n hn
      · obtain ⟨-, ⟨op, rfl⟩ | ⟨e, he, hk⟩⟩ := notes_key t s _ hn
        · exact hfits
        · obtain ⟨n', hn', hk'⟩ := noted_of_mem (hm.part j) he
          rw [hk, ← hm.keys j n' hn', partOf, partOf]
          congr 4
          exact (hagree _ _ hk').symm
    · simp only [Store.run, update_of_ne hj] at hn
      exact hm.keys j n hn

/-! ## The protocol -/

/-- What a thread relies on between two of its steps. -/
structure Rely (t : ι) (m m' : Store ι K V) : Prop where
  history : ∀ i, ∃ l, m'.history i = m.history i ++ l ∧ ∀ n ∈ l, n.thread ≠ t
  held : ∀ i, m.holder i = some t → m'.parts i = m.parts i
  holds : ∀ i, m'.holder i = some t ↔ m.holder i = some t

/-- The instructions that a thread may run. -/
def may (hash : K → UInt64) (seed : UInt64) (t : ι) : Instr ι K V → Store ι K V → Prop
  | .sync u i s, _ => u = t ∧ s.Fits hash seed i
  | .inside u i s, m => u = t ∧ s.Fits hash seed i ∧ m.holder i = some t
  | .lock u _, _ => u = t
  | .unlock u i, m => u = t ∧ m.holder i = some t

omit [BEq K] in
theorem Rely.refl (t : ι) (m : Store ι K V) : Rely t m m :=
  ⟨fun _ => ⟨[], (append_nil _).symm, fun _ h => absurd h not_mem_nil⟩,
    fun _ _ => rfl, fun _ => Iff.rfl⟩

omit [BEq K] in
theorem Rely.trans (t : ι) (a b c : Store ι K V) (hab : Rely t a b) (hbc : Rely t b c) :
    Rely t a c := by
  constructor
  · intro i
    obtain ⟨l, hl, hne⟩ := hab.history i
    obtain ⟨l', hl', hne'⟩ := hbc.history i
    refine ⟨l ++ l', by rw [hl', hl, append_assoc], fun n hn => ?_⟩
    rcases mem_append.1 hn with hn | hn
    · exact hne n hn
    · exact hne' n hn
  · intro i hi
    rw [hbc.held i ((hab.holds i).2 hi), hab.held i hi]
  · exact fun i => (hbc.holds i).trans (hab.holds i)

/-- A section of another thread, in a part that `u` does not hold. -/
theorem Rely.run {t u : ι} (hne : u ≠ t) {i : Fin PARTS} (hfree : m.holder i ≠ some u)
    (s : Section K V) : Rely u m (m.run t i s) := by
  refine ⟨fun j => ?_, fun j hj => ?_, fun _ => Iff.rfl⟩
  · by_cases hj : j = i
    · subst hj
      refine ⟨s.notes t (m.parts j), ?_, fun n hn => ?_⟩
      · exact update_self ..
      · rw [(notes_key t s _ hn).1]
        exact hne.symm
    · refine ⟨[], ?_, fun _ h => absurd h not_mem_nil⟩
      rw [append_nil]
      exact update_of_ne hj ..
  · have hji : j ≠ i := fun h => hfree (h ▸ hj)
    exact update_of_ne hji ..

omit [BEq K] in
theorem Rely.lock {u : ι} {i : Fin PARTS} {o : Option ι} (hfree : m.holder i ≠ some u)
    (ho : o ≠ some u) : Rely u m { m with holder := update m.holder i o } := by
  refine ⟨(Rely.refl u m).history, fun _ _ => rfl, fun j => ?_⟩
  by_cases hj : j = i
  · subst hj
    simp only [update_self]
    exact ⟨fun h => absurd h ho, fun h => absurd h hfree⟩
  · simp only [update_of_ne hj]

theorem may_keeps (t u : ι) (i : Instr ι K V) (m : Store ι K V) (hne : u ≠ t)
    (hready : ready m i) (hmay : may hash seed t i m) : Rely u m (exec i m).1 := by
  have hother {j : Fin PARTS} (h : m.holder j = some t) : m.holder j ≠ some u :=
    fun h' => hne (Option.some.inj (h'.symm.trans h))
  have hfree {j : Fin PARTS} (h : m.holder j = none) : m.holder j ≠ some u :=
    fun h' => nomatch h'.symm.trans h
  cases i with
  | sync v j s =>
    obtain ⟨rfl, -⟩ := hmay
    exact .run hne (hfree hready) s
  | inside v j s =>
    obtain ⟨rfl, -, hj⟩ := hmay
    exact .run hne (hother hj) s
  | lock v j =>
    cases (show v = t from hmay)
    exact .lock (hfree hready) fun h => hne (Option.some.inj h).symm
  | unlock v j =>
    obtain ⟨rfl, hj⟩ := hmay
    exact .lock (hother hj) nofun

/-- An instruction that a thread may run keeps the memory sound. -/
theorem Store.Sound.exec [EquivBEq K]
    (hagree : ∀ a b : K, (a == b) = true → hash a = hash b) {t : ι} {i : Instr ι K V}
    (hmay : may hash seed t i m) (hm : m.Sound hash seed) :
    (AnticShared.exec i m).1.Sound hash seed := by
  cases i with
  | sync u j s => exact hm.run hagree u hmay.2
  | inside u j s => exact hm.run hagree u hmay.2.1
  | lock u j => exact ⟨hm.part, hm.size, hm.keys⟩
  | unlock u j => exact ⟨hm.part, hm.size, hm.keys⟩

/-! ## A thread in the middle of a call -/

section At

variable [DecidableEq ι] {t : ι}

/-- What a thread knows in a call: its own calls since the call began, part by
    part, the locks it holds, and the parts behind them. -/
structure At (t : ι) (v : View (Store ι K V)) (f : Fin PARTS → List (Note ι K V))
    (L : Set (Fin PARTS)) (P : Fin PARTS → Part K V) : Prop where
  owns : ∀ i, ∃ l, v.now.history i = v.began.history i ++ l ∧ l.filter (fun n => n.thread = t) = f i
  holds : ∀ i, v.now.holder i = some t ↔ i ∈ L
  parts : ∀ i ∈ L, v.now.parts i = P i
  mem : v.now ∈ v.moments

variable {v v' : View (Store ι K V)} {f : Fin PARTS → List (Note ι K V)}
  {L : Set (Fin PARTS)} {P : Fin PARTS → Part K V}

omit [BEq K] in
theorem At.start {m : Store ι K V} (hidle : ∀ i, m.holder i ≠ some t)
    (P : Fin PARTS → Part K V) : At t (.start m) (fun _ => []) ∅ P :=
  ⟨fun _ => ⟨[], (append_nil _).symm, rfl⟩,
    fun i => ⟨fun h => absurd h (hidle i), fun h => nomatch h⟩, fun _ h => (nomatch h),
    mem_cons_self⟩

omit [BEq K] in
theorem At.goes (h : At t v f L P) (hv : v.Goes (Rely t) v') : At t v' f L P := by
  constructor
  · intro i
    obtain ⟨l, hl, hf⟩ := h.owns i
    obtain ⟨l', hl', hne⟩ := hv.rely.history i
    refine ⟨l ++ l', ?_, ?_⟩
    · rw [hl', hl, hv.began, append_assoc]
    · have hnone : l'.filter (fun n => n.thread = t) = [] :=
        filter_eq_nil_iff.2 fun n hn => by simpa using hne n hn
      rw [filter_append, hf, hnone, append_nil]
  · exact fun i => (hv.rely.holds i).trans (h.holds i)
  · intro i hi
    rw [hv.rely.held i ((h.holds i).2 hi), h.parts i hi]
  · exact hv.mem

theorem At.run (h : At t v f L P) (i : Fin PARTS) (s : Section K V) :
    At t (v.after (v.now.run t i s)) (update f i (f i ++ s.notes t (v.now.parts i))) L
      (update P i (s.run (v.now.parts i)).1.1) := by
  have hown : (s.notes t (v.now.parts i)).filter (fun n => n.thread = t) =
      s.notes t (v.now.parts i) :=
    filter_eq_self.2 fun n hn => by simpa using (notes_key t s _ hn).1
  constructor
  · intro j
    obtain ⟨l, hl, hf⟩ := h.owns j
    by_cases hj : j = i
    · subst hj
      refine ⟨l ++ s.notes t (v.now.parts j), ?_, ?_⟩
      · show update v.now.history j _ j = v.began.history j ++ _
        rw [update_self, hl, append_assoc]
      · rw [filter_append, hf, hown, update_self]
    · refine ⟨l, ?_, ?_⟩
      · show update v.now.history i _ j = v.began.history j ++ _
        rw [update_of_ne hj, hl]
      · rw [hf, update_of_ne hj]
  · exact h.holds
  · intro j hj
    show update v.now.parts i _ j = _
    by_cases hji : j = i
    · subst hji
      rw [update_self, update_self]
    · rw [update_of_ne hji, update_of_ne hji, h.parts j hj]
  · exact mem_cons_self

omit [BEq K] in
theorem At.lock (h : At t v f L P) (i : Fin PARTS) :
    At t (v.after { v.now with holder := update v.now.holder i (some t) }) f
      (insert i L) (update P i (v.now.parts i)) := by
  refine ⟨h.owns, fun j => ?_, fun j hj => ?_, mem_cons_self⟩
  · show update v.now.holder i (some t) j = some t ↔ _
    by_cases hji : j = i
    · subst hji
      rw [update_self]
      exact ⟨fun _ => Set.mem_insert _ _, fun _ => rfl⟩
    · rw [update_of_ne hji, Set.mem_insert_iff, h.holds j]
      exact ⟨.inr, fun h => h.resolve_left hji⟩
  · show v.now.parts j = _
    by_cases hji : j = i
    · subst hji
      rw [update_self]
    · rw [update_of_ne hji]
      exact h.parts j (hj.resolve_left hji)

omit [BEq K] in
theorem At.unlock (h : At t v f (insert i L) P) (hi : i ∉ L) :
    At t (v.after { v.now with holder := update v.now.holder i none }) f L P := by
  refine ⟨h.owns, fun j => ?_, fun j hj => h.parts j (Set.mem_insert_of_mem _ hj), mem_cons_self⟩
  show update v.now.holder i none j = some t ↔ _
  by_cases hji : j = i
  · subst hji
    rw [update_self]
    exact ⟨nofun, fun h => absurd h hi⟩
  · rw [update_of_ne hji, h.holds j, Set.mem_insert_iff]
    exact ⟨fun h => h.resolve_left hji, .inr⟩

end At

end AnticShared
