import Antic.ConcurrentCallProofs
import Antic.ConcurrentVersionProofs

/-! # A map of many threads loses no update -/

namespace AnticShared

open AnticCollection SharedCode Histories Interleaving Function

variable {ι K V : Type} [BEq K] [DecidableEq ι] {hash : K → UInt64} {seed : UInt64}

/-- The threads of a map. -/
def threads (ι K V : Type) [BEq K] [DecidableEq ι] (hash : K → UInt64) (seed : UInt64) :
    Protocol (concurrentMap (ι := ι) (K := K) (V := V) hash seed) where
  rely := Rely
  refl := Rely.refl
  trans := Rely.trans
  allowed := may hash seed
  keeps := may_keeps
  idle t m := ∀ i, m.holder i ≠ some t
  idle_goes t m m' hidle hrely i := fun h => hidle i ((hrely.holds i).1 h)
  post := Answered hash seed
  post_idle := by
    rintro t c r v ⟨f, P, hat, -⟩ i hi
    exact (hat.holds i).1 hi
  safe t c m hidle := body_safe hidle c

/-! ## Histories grow -/

/-- The calls on parts so far stay in the histories. -/
def Grows (m m' : Store ι K V) : Prop := ∀ i, m.history i <+: m'.history i

omit [DecidableEq ι] in
theorem grows_exec (i : Instr ι K V) (m : Store ι K V) : Grows m (exec i m).1 := by
  have hrun (t : ι) (j : Fin PARTS) (s : Section K V) : Grows m (m.run t j s) := by
    intro x
    show m.history x <+: update m.history j _ x
    by_cases hx : x = j
    · subst hx
      rw [update_self]
      exact List.prefix_append _ _
    · rw [update_of_ne hx]
  cases i with
  | sync t j s => exact hrun t j s
  | inside t j s => exact hrun t j s
  | lock t j => exact fun _ => List.prefix_rfl
  | unlock t j => exact fun _ => List.prefix_rfl

/-- What a call that returned saw is in the histories. -/
def Seen (m : Store ι K V) :
    Thread (Call K V) (Instr ι K V) Instr.out (Store ι K V) (Answer K V) → Prop
  | .returned _ v _ => Grows v.now m
  | _ => True

omit [BEq K] [DecidableEq ι] in
theorem seen_settle {m : Store ι K V} {c : Call K V} {v : View (Store ι K V)}
    (hv : v.now = m) (code : Op ι K V (Answer K V)) : Seen m (.settle c v code) := by
  cases code with
  | done r => exact fun i => hv ▸ List.prefix_rfl
  | act i next => trivial

theorem seen {ls : List (ι × Option (Instr ι K V))} {w : MapWorld ι K V}
    (hrun : Runs (concurrentMap hash seed).Step new ls w) (t : ι) :
    Seen w.memory (w.threads t) := by
  refine hrun.invariant (fun _ w => ∀ t, Seen w.memory (w.threads t)) ?_ ?_ t
  · intro t
    show Seen new.memory .idle
    trivial
  · intro _ w l w' hseen hstep t
    cases hstep with
    | @call u c hidle =>
      by_cases ht : t = u
      · subst ht
        simp only [update_self]
        exact seen_settle rfl _
      · simp only [update_of_ne ht]
        exact hseen t
    | @act u c began moments i next hthread hready =>
      by_cases ht : t = u
      · subst ht
        simp only [update_self]
        exact seen_settle rfl _
      · simp only [update_of_ne ht]
        have ht := hseen t
        cases hthread : w.threads t with
        | idle => trivial
        | running c began moments code => trivial
        | returned c v r =>
          rw [hthread] at ht
          exact fun j => (ht j).trans (grows_exec i w.memory j)

/-! ## Every run -/

/-- What holds of a map at every moment. -/
structure Synchronized (hash : K → UInt64) (seed : UInt64) (w : MapWorld ι K V) : Prop where
  /-- The keys of `entries` and of `versions` are the same, each once. -/
  keys : ∀ i, w.memory.holder i = none → (∀ k, assocContains (w.memory.parts i).entries k =
      assocContains (w.memory.parts i).versions k) ∧
    (w.memory.parts i).entries.Pairwise Apart ∧ (w.memory.parts i).versions.Pairwise Apart
  /-- Every version is at most `clock`. -/
  versions_le : ∀ i, ∀ e ∈ (w.memory.parts i).versions, e.2 ≤ (w.memory.parts i).clock
  /-- No two changes of a part got one version. -/
  versions_distinct : ∀ i, (stamps (w.memory.history i)).Pairwise (· < ·)
  /-- `set_if_version` with the version of a `get_versioned` succeeds where the
      entry is there and no call touched it in between, and only there. -/
  set_if_version : ∀ i before got mid tried after v x n,
    w.memory.history i = before ++ [got] ++ mid ++ [tried] ++ after →
    got.op = .getVersioned → got.answer = .versioned (some (v, n)) →
    tried.op = .setIfVersion x (n : Nat) → (got.key == tried.key) = true →
    (tried.answer = .outcome (.ok ()) ↔
      (∃ b, Runs (cells V).Step (cells V).empty (before ++ [got] ++ mid) b ∧
        (b.cells tried.key).isSome) ∧
      ∀ e ∈ mid, ¬ Touches tried.key e)
  /-- The history of a part is one of a map that runs its calls one by one, and
      leaves what the part holds. -/
  sequential : ∀ i, Runs (cells V).Step (cells V).empty (w.memory.history i)
    ⟨(w.memory.parts i).cell, (w.memory.parts i).clock⟩
  /-- The calls of a key are in the history of its part. -/
  located : ∀ i, ∀ n ∈ w.memory.history i, partOf hash seed n.key = i
  /-- A call that returned has its own calls on parts in the histories, after what was there when it
      began and before it returned, and answers what they gave. -/
  answered : ∀ t c v r, w.threads t = .returned c v r →
    (∃ f, (∀ i, ∃ l, v.now.history i = v.began.history i ++ l ∧
        l.filter (fun n => n.thread = t) = f i) ∧ Tells hash seed t c r f v.moments) ∧
    ∀ i, v.now.history i <+: w.memory.history i
  /-- `size` is the number of entries. -/
  size : w.memory.size = ∑ i, ((w.memory.parts i).entries.length : Int)

/-- **No update is lost**: after every run of any number of threads. -/
theorem concurrent_map [EquivBEq K] (hagree : ∀ a b : K, (a == b) = true → hash a = hash b)
    {ls : List (ι × Option (Instr ι K V))} {w : MapWorld ι K V}
    (hrun : Runs (concurrentMap hash seed).Step new ls w) : Synchronized hash seed w := by
  have hstart (t : ι) : (new : MapWorld ι K V).threads t = .idle ∧
      (threads ι K V hash seed).idle t (new : MapWorld ι K V).memory := ⟨rfl, fun _ => nofun⟩
  have hok := (threads ι K V hash seed).sound hrun hstart
  have hnew : (new : MapWorld ι K V).memory.Sound hash seed :=
    ⟨fun _ => new_sound, rfl, fun _ _ h => absurd h List.not_mem_nil⟩
  have hsound : w.memory.Sound hash seed :=
    (threads ι K V hash seed).invariant hrun hstart hnew fun _ _ _ hi h => h.exec hagree hi
  constructor
  · intro i _
    refine ⟨fun k => ?_, (hsound.part i).entries_apart, (hsound.part i).versions_apart⟩
    rw [assocContains_eq, assocContains_eq]
    exact (hsound.part i).keys k
  · intro i e he
    have hp := hsound.part i
    have hget := assocGet_of_mem hp.versions_apart he BEq.rfl
    have hkeys := hp.keys e.1
    rw [hget] at hkeys
    obtain ⟨v, hv⟩ := Option.isSome_iff_exists.1 hkeys
    obtain ⟨n, hn, hcell⟩ := hp.cell_some hv
    rw [hget] at hn
    cases hn
    exact version_le hp.legal e.1 v e.2 hcell
  · exact fun i => (ticks (hsound.part i).legal).increasing
  · intro i before got mid tried after v x n hhistory
    have hlegal := (hsound.part i).legal
    rw [hhistory] at hlegal
    obtain ⟨b, hb, -⟩ := hlegal.cut rfl
    exact set_if_version_iff hb
  · exact fun i => (hsound.part i).legal
  · exact hsound.keys
  · intro t c v r hthread
    have ht := hok t
    have hs := seen hrun t
    rw [hthread] at ht hs
    obtain ⟨⟨f, P, hat, htells⟩, -⟩ := ht
    exact ⟨⟨f, hat.owns, htells⟩, hs⟩
  · exact hsound.size

/-- Two threads write an entry each of a new map. -/
theorem concurrent_map_set : ∃ ls, ∃ w : MapWorld Bool Nat Nat,
    Runs (concurrentMap UInt64.ofNat 7).Step new ls w ∧ w.memory.size = 2 ∧
    Synchronized UInt64.ofNat 7 w := by
  have hrun : Runs (concurrentMap UInt64.ofNat 7).Step
    (new : MapWorld Bool Nat Nat) [] new := .start
  have h₁ := hrun.snoc (.call (t := true) (Call.key 3 (.set 10)) rfl)
  have h₂ := h₁.snoc (.call (t := false) (Call.key 4 (.set 20)) rfl)
  have h₃ := h₂.snoc (.act (t := true) rfl rfl)
  have h₄ := h₃.snoc (.act (t := false) rfl rfl)
  exact ⟨_, _, h₄, rfl, concurrent_map (fun a b h => congrArg UInt64.ofNat (eq_of_beq h)) h₄⟩

end AnticShared
