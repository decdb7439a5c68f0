import Antic.Pool
import Mathlib.Data.List.Perm.Subperm
import Mathlib.Data.List.Range

/-! # The calls of `parallel`

    What the history of a run holds of each call, and how the calls stand that have not returned.
    The work of the threads is all that the invariant sees of their stacks, and a step trades the
    work of one thread. -/

namespace AnticPool

open Interleaving LinkedLists List Option

/-! ## The history of a run -/

section History

variable {O R : Type}

/-- The chunks of a call that were started, in order. -/
def startsOf (c : Nat) (h : List (Event O R)) : List Nat :=
  h.filterMap fun
    | .chunkStart c' index _ _ => if c' = c then some index else none
    | _ => none

/-- The chunks of a call that have ended, in order. -/
def endsOf (c : Nat) (h : List (Event O R)) : List Nat :=
  h.filterMap fun
    | .chunkEnd c' index => if c' = c then some index else none
    | _ => none

/-- The call that an event is about. -/
def Event.call : Event O R → Option Nat
  | .called j => some j.id
  | .chunkStart c _ _ _ => some c
  | .chunkEnd c _ => some c
  | .returned c => some c
  | _ => none

variable {h evs : List (Event O R)} {c : Nat}

@[simp] theorem startsOf_append : startsOf c (h ++ evs) = startsOf c h ++ startsOf c evs :=
  filterMap_append

@[simp] theorem endsOf_append : endsOf c (h ++ evs) = endsOf c h ++ endsOf c evs := filterMap_append

theorem startsOf_nil_of_call (hevs : ∀ ev ∈ evs, ev.call ≠ some c) :
    startsOf c evs = [] := by
  refine filterMap_eq_nil_iff.2 fun ev hev => ?_
  have := hevs ev hev
  cases ev with
  | chunkStart c' i f l => exact if_neg fun h => this (congrArg some h)
  | _ => rfl

theorem endsOf_nil_of_call (hevs : ∀ ev ∈ evs, ev.call ≠ some c) : endsOf c evs = [] := by
  refine filterMap_eq_nil_iff.2 fun ev hev => ?_
  have := hevs ev hev
  cases ev with
  | chunkEnd c' i => exact if_neg fun h => this (congrArg some h)
  | _ => rfl

end History

/-! ## The slices of the chunks -/

section Slices

variable {count chunks : Int}

theorem slice_ends (count chunks : Int) (index : Nat) :
    (sliceOf count chunks index).1 + (sliceOf count chunks index).2 =
      (sliceOf count chunks (index + 1 : Nat)).1 := by
  simp only [sliceOf]
  push_cast
  rw [Int.add_mul, Int.one_mul]
  split <;> split <;> omega

/-- The elements of a chunk, by their numbers. -/
def elementsOf (count chunks : Int) (index : Nat) : List Int :=
  (List.range (sliceOf count chunks index).2.toNat).map
    fun k : Nat => (sliceOf count chunks index).1 + k

/-- A call has no more chunks than elements, and a chunk where it has an element. -/
def Fits (count chunks : Int) : Prop := chunks ≤ count ∧ (0 < count → 0 < chunks)

theorem fits_chunksOf (asked count configured online : Int) :
    Fits count (chunksOf asked count (workerCount configured online)) := by
  have hworkers : 0 < workerCount configured online := by
    unfold workerCount processors
    split
    · assumption
    · split <;> omega
  simp only [chunksOf]
  constructor <;> split <;> split <;> omega

/-- **The slices of the chunks are the elements in order**, each element once. -/
theorem slices_partition (hfits : Fits count chunks) :
    (List.range chunks.toNat).flatMap (elementsOf count chunks) =
      (List.range count.toNat).map fun k : Nat => (k : Int) := by
  -- without a chunk there is no element
  by_cases hchunks : 0 < chunks
  swap
  · have hcount : count.toNat = 0 := by
      have := hfits.2
      omega
    rw [hcount, show chunks.toNat = 0 by omega]
    rfl
  have hcount : 0 ≤ count := by
    have := hfits.1
    omega
  have hbase : 0 ≤ count.tdiv chunks := Int.tdiv_nonneg hcount (by omega)
  have hextra : 0 ≤ count.tmod chunks := Int.tmod_nonneg _ hcount
  -- the chunks before `n` are the elements before the first of `n`
  have hsteps : ∀ n : Nat, 0 ≤ (sliceOf count chunks n).1 ∧
      (List.range n).flatMap (elementsOf count chunks) =
        (List.range (sliceOf count chunks n).1.toNat).map fun k : Nat => (k : Int) := by
    intro n
    induction n with
    | zero =>
      have hzero : (sliceOf count chunks ((0 : Nat) : Int)).1 = 0 := by
        simp only [sliceOf]
        split <;> omega
      rw [hzero]
      exact ⟨Int.le_refl _, rfl⟩
    | succ n ih =>
      have hlength : 0 ≤ (sliceOf count chunks n).2 := by
        simp only [sliceOf]
        split <;> omega
      have hends := slice_ends count chunks n
      obtain ⟨hfirst, hlist⟩ := ih
      refine ⟨by omega, ?_⟩
      have hsum : (sliceOf count chunks (n + 1 : Nat)).1.toNat =
          (sliceOf count chunks n).1.toNat + (sliceOf count chunks n).2.toNat := by omega
      rw [range_succ, flatMap_append, hlist, hsum, range_add, map_append, List.map_map]
      congr 1
      simp only [flatMap_cons, flatMap_nil, append_nil]
      refine map_congr_left fun k _ => ?_
      simp only [Function.comp_apply]
      omega
  have hlast : (sliceOf count chunks (chunks.toNat : Int)).1 = count := by
    have hmod : count.tmod chunks < chunks := Int.tmod_lt_of_pos _ hchunks
    have hdiv := Int.mul_tdiv_add_tmod count chunks
    rw [Int.toNat_of_nonneg (by omega)]
    simp only [sliceOf]
    rw [if_neg (by omega)]
    exact hdiv
  rw [(hsteps chunks.toNat).2, hlast]

end Slices

/-! ## How the calls stand -/

section Calls

variable {τ J O R : Type}

/-- The call that the work is. -/
def Work.jobs : Work J → Option Jobs
  | .entering j => some j
  | .inline j _ => some j
  | .pool j => some j
  | _ => none

/-- How a call stands that has not returned. -/
def Standing (h : List (Event O R)) (s : State τ J O R) (has : Work J → Prop) : Work J → Prop
  | .entering j => startsOf j.id h = [] ∧ endsOf j.id h = []
  | .inline j index => index < j.chunks ∧
      startsOf j.id h = List.range (index + 1) ∧ endsOf j.id h = List.range index
  | .pool j => s.active = some j ∧ startsOf j.id h = List.range s.taken ∧
      (0 < j.chunks ∧ s.taken ≤ j.chunks) ∧
      (endsOf j.id h).Nodup ∧ (endsOf j.id h).length = s.finished ∧
      (∀ i ∈ endsOf j.id h, i < s.taken) ∧
      ∀ i, i < s.taken → i ∈ endsOf j.id h ∨ has (.chunk j i)
  | _ => True

/-- What holds of the calls of `parallel` at every time. -/
structure CallsOk (h : List (Event O R)) (s : State τ J O R) (has : Work J → Prop) :
    Prop where
  standing : ∀ x j, has x → x.jobs = some j →
    .called j ∈ h ∧ .returned j.id ∉ h ∧ Standing h s has x
  single : ∀ x y j j', has x → has y → x.jobs = some j → y.jobs = some j' → j.id = j'.id → x = y
  chunk : ∀ j i, has (.chunk j i) → s.active = some j ∧ i < s.taken ∧ i ∉ endsOf j.id h
  active : ∀ j, s.active = some j → has (.pool j)
  returned : ∀ c, .returned c ∈ h → ∃ j, .called j ∈ h ∧ j.id = c ∧
    startsOf c h = List.range j.chunks.toNat ∧
    (endsOf c h).Perm (List.range j.chunks.toNat)
  opened : ∀ j, .called j ∈ h → .returned j.id ∈ h ∨ ∃ x, has x ∧ x.jobs = some j
  called : ∀ j j', .called j ∈ h → .called j' ∈ h → j.id = j'.id → j = j'
  slices : ∀ (c i : Nat) (first length : Int), .chunkStart c i first length ∈ h →
    ∃ j, .called j ∈ h ∧ j.id = c ∧ (first, length) = sliceOf j.count j.chunks i ∧
      (i : Int) < j.chunks
  fresh : ∀ ev ∈ h, ∀ c, ev.call = some c → c < s.calls
  fits : ∀ j, .called j ∈ h → Fits j.count j.chunks

variable {h evs : List (Event O R)} {s s' : State τ J O R} {has has' : Work J → Prop}

variable {j : Jobs}

theorem Standing.other {x : Work J} (hx : Standing h s has x) (hj : x.jobs = some j)
    (hevs : ∀ ev ∈ evs, ev.call ≠ some j.id)
    (hpool : x = .pool j → Standing (h ++ evs) s' has' x) :
    Standing (h ++ evs) s' has' x := by
  have hstarts := startsOf_nil_of_call hevs
  have hends := endsOf_nil_of_call hevs
  cases x with
  | entering j' =>
    cases hj
    simpa [Standing, hstarts, hends] using hx
  | inline j' i =>
    cases hj
    simpa [Standing, hstarts, hends] using hx
  | pool j' =>
    cases hj
    exact hpool rfl
  | chunk j' i => cases hj
  | join a => cases hj
  | leaving a => cases hj
  | job a => cases hj

/-- The call that uses the pool stands as before where nothing is about it. -/
theorem Standing.pool (hx : Standing h s has (.pool j))
    (hevs : ∀ ev ∈ evs, ev.call ≠ some j.id) (hactive : s'.active = s.active)
    (htaken : s'.taken = s.taken) (hfinished : s'.finished = s.finished)
    (hchunks : ∀ i, has (.chunk j i) → has' (.chunk j i)) :
    Standing (h ++ evs) s' has' (.pool j) := by
  obtain ⟨h1, h2, h3, h4, h5, h6, h7⟩ := hx
  simp only [Standing, startsOf_append, endsOf_append, startsOf_nil_of_call hevs,
    endsOf_nil_of_call hevs, append_nil, hactive, htaken, hfinished]
  exact ⟨h1, h2, h3, h4, h5, h6, fun i hi => (h7 i hi).imp id (hchunks i)⟩

/-- **A step of one call**: its work `x` becomes `y`, or the call returns. -/
theorem CallsOk.act (hc : CallsOk h s has) {x : Work J} (hx : has x)
    (hj : x.jobs = some j) (hevs : ∀ ev ∈ evs, ev.call = some j.id)
    (hcalled : ∀ j', .called j' ∉ evs) (hcalls : s'.calls = s.calls)
    (y : Option (Work J)) (hy : ∀ z, y = some z → z.jobs = some j)
    (hhas : ∀ z, z.jobs ≠ none → (has' z ↔ y = some z ∨ has z ∧ z ≠ x))
    (hchunk : ∀ j i, has' (.chunk j i) →
      s'.active = some j ∧ i < s'.taken ∧ i ∉ endsOf j.id (h ++ evs))
    (hactive : ∀ j, s'.active = some j → has' (.pool j))
    (hpool : ∀ j', has (.pool j') → j'.id ≠ j.id →
      Standing (h ++ evs) s' has' (.pool j')) (hstand : ∀ z, y = some z →
      Standing (h ++ evs) s' has' z ∧ .returned j.id ∉ evs)
    (hend : y = none → .returned j.id ∈ evs) (hret : .returned j.id ∈ evs →
      startsOf j.id (h ++ evs) = List.range j.chunks.toNat ∧
      (endsOf j.id (h ++ evs)).Perm (List.range j.chunks.toNat))
    (hslices : ∀ (i : Nat) (first length : Int), .chunkStart j.id i first length ∈ evs →
      (first, length) = sliceOf j.count j.chunks i ∧ (i : Int) < j.chunks) :
    CallsOk (h ++ evs) s' has' := by
  obtain ⟨hjcalled, hjret, _⟩ := hc.standing x j hx hj
  have holdcall : ∀ {j'}, .called j' ∈ h ++ evs → .called j' ∈ h := by
    intro j' hmem
    exact (mem_append.1 hmem).resolve_right (hcalled j')
  have hotherid : ∀ {c}, .returned c ∈ evs → c = j.id := by
    intro c hmem
    exact some.inj (hevs _ hmem)
  have hjobs : ∀ {z j'}, z.jobs = some j' → has' z → y = some z ∨ has z ∧ z ≠ x :=
    fun hz hh => (hhas _ (by rw [hz]; exact fun h => nomatch h)).1 hh
  have hid : ∀ {z j'}, has z → z ≠ x → z.jobs = some j' → j'.id ≠ j.id :=
    fun hz hne hzj heq => hne (hc.single _ _ _ _ hz hx hzj hj heq)
  refine ⟨?_, ?_, hchunk, hactive, ?_, ?_, ?_, ?_, ?_, ?_⟩
  · intro z j' hz hzj
    rcases hjobs hzj hz with rfl | ⟨hz, hne⟩
    · obtain ⟨hst, hnot⟩ := hstand z rfl
      rw [hy z rfl] at hzj
      cases hzj
      exact ⟨mem_append_left _ hjcalled, fun hmem => (mem_append.1 hmem).elim hjret hnot, hst⟩
    · obtain ⟨hcall, hnot, hst⟩ := hc.standing z j' hz hzj
      have hne := hid hz hne hzj
      refine ⟨mem_append_left _ hcall, fun hmem => ?_, ?_⟩
      · exact (mem_append.1 hmem).elim hnot fun hmem => hne (hotherid hmem)
      · refine hst.other hzj (fun ev hev heq => ?_) fun hzp => ?_
        · rw [hevs ev hev] at heq
          exact hne (some.inj heq).symm
        · rw [hzp] at hz ⊢
          exact hpool j' hz hne
  · intro z w j' j'' hz hw hzj hwj heq
    rcases hjobs hzj hz with rfl | ⟨hz, hzne⟩
    · rcases hjobs hwj hw with hyw | ⟨hw, hwne⟩
      · exact some.inj hyw
      · rw [hy z rfl] at hzj
        cases hzj
        exact absurd heq.symm (hid hw hwne hwj)
    · rcases hjobs hwj hw with rfl | ⟨hw, hwne⟩
      · rw [hy w rfl] at hwj
        cases hwj
        exact absurd heq (hid hz hzne hzj)
      · exact hc.single z w j' j'' hz hw hzj hwj heq
  · intro c hmem
    rcases mem_append.1 hmem with hmem | hmem
    · obtain ⟨j', hcall, rfl, hs, he⟩ := hc.returned c hmem
      have hne : j'.id ≠ j.id := fun heq => hjret (heq ▸ hmem)
      have hother : ∀ ev ∈ evs, ev.call ≠ some j'.id := by
        intro ev hev heq
        rw [hevs ev hev] at heq
        exact hne (some.inj heq).symm
      refine ⟨j', mem_append_left _ hcall, rfl, ?_, ?_⟩
      · rw [startsOf_append, startsOf_nil_of_call hother, append_nil, hs]
      · rw [endsOf_append, endsOf_nil_of_call hother, append_nil]
        exact he
    · have hcid := hotherid hmem
      subst hcid
      exact ⟨j, mem_append_left _ hjcalled, rfl, hret hmem⟩
  · intro j' hmem
    rcases hc.opened j' (holdcall hmem) with hr | ⟨z, hz, hzj⟩
    · exact Or.inl (mem_append_left _ hr)
    · by_cases hzx : z = x
      · subst hzx
        rw [hj] at hzj
        cases hzj
        cases hyy : y with
        | none => exact Or.inl (mem_append_right _ (hend hyy))
        | some w =>
          refine Or.inr ⟨w, (hhas w ?_).2 (Or.inl hyy), hy w hyy⟩
          rw [hy w hyy]
          exact fun h => nomatch h
      · refine Or.inr ⟨z, (hhas z ?_).2 (Or.inr ⟨hz, hzx⟩), hzj⟩
        rw [hzj]
        exact fun h => nomatch h
  · exact fun j' j'' h' h'' => hc.called j' j'' (holdcall h') (holdcall h'')
  · intro c i first length hmem
    rcases mem_append.1 hmem with hmem | hmem
    · obtain ⟨j', hcall, hrest⟩ := hc.slices c i first length hmem
      exact ⟨j', mem_append_left _ hcall, hrest⟩
    · have hcid : c = j.id := some.inj (hevs _ hmem)
      subst hcid
      exact ⟨j, mem_append_left _ hjcalled, rfl, hslices i first length hmem⟩
  · intro ev hev c hcall
    rw [hcalls]
    rcases mem_append.1 hev with hev | hev
    · exact hc.fresh ev hev c hcall
    · rw [hevs ev hev] at hcall
      cases hcall
      exact hc.fresh _ hjcalled j.id rfl
  · exact fun j' hmem => hc.fits j' (holdcall hmem)

theorem CallsOk.frame (hc : CallsOk h s has) (hevs : ∀ ev ∈ evs, ev.call = none)
    (hactive : s'.active = s.active) (htaken : s'.taken = s.taken)
    (hfinished : s'.finished = s.finished) (hcalls : s'.calls = s.calls)
    (hjobs : ∀ z, z.jobs ≠ none → (has' z ↔ has z))
    (hchunks : ∀ j i, has' (.chunk j i) ↔ has (.chunk j i)) :
    CallsOk (h ++ evs) s' has' := by
  have hother : ∀ c, ∀ ev ∈ evs, ev.call ≠ some c := by
    intro c ev hev heq
    rw [hevs ev hev] at heq
    cases heq
  have hold : ∀ {ev : Event O R} {c}, ev.call = some c → ev ∈ h ++ evs → ev ∈ h := by
    intro ev c hcall hmem
    refine (mem_append.1 hmem).resolve_right fun hmem => ?_
    rw [hevs ev hmem] at hcall
    cases hcall
  have hstarts : ∀ c, startsOf c (h ++ evs) = startsOf c h := fun c => by
    rw [startsOf_append, startsOf_nil_of_call (hother c), append_nil]
  have hends : ∀ c, endsOf c (h ++ evs) = endsOf c h := fun c => by
    rw [endsOf_append, endsOf_nil_of_call (hother c), append_nil]
  have hback : ∀ {z j}, z.jobs = some j → has' z → has z :=
    fun hzj hz => (hjobs _ (by rw [hzj]; exact fun h => nomatch h)).1 hz
  refine ⟨?_, ?_, ?_, ?_, ?_, ?_, ?_, ?_, ?_, ?_⟩
  · intro z j hz hzj
    have hz := hback hzj hz
    obtain ⟨hcall, hret, hst⟩ := hc.standing z j hz hzj
    refine ⟨mem_append_left _ hcall, fun hmem => hret (hold rfl hmem), ?_⟩
    refine hst.other hzj (hother j.id) fun hzp => ?_
    rw [hzp] at hst ⊢
    exact hst.pool (hother j.id) hactive htaken hfinished fun i => (hchunks j i).2
  · exact fun z w j j' hz hw hzj hwj => hc.single z w j j' (hback hzj hz) (hback hwj hw) hzj hwj
  · intro j i hi
    rw [hactive, htaken, hends]
    exact hc.chunk j i ((hchunks j i).1 hi)
  · intro j hj
    rw [hactive] at hj
    exact (hjobs (.pool j) (by simp [Work.jobs])).2 (hc.active j hj)
  · intro c hmem
    obtain ⟨j, hcall, hid, hs, he⟩ := hc.returned c (hold rfl hmem)
    refine ⟨j, mem_append_left _ hcall, hid, ?_, ?_⟩
    · rw [hstarts, hs]
    · rw [hends]
      exact he
  · intro j hmem
    rcases hc.opened j (hold rfl hmem) with hr | ⟨z, hz, hzj⟩
    · exact Or.inl (mem_append_left _ hr)
    · refine Or.inr ⟨z, (hjobs z ?_).2 hz, hzj⟩
      rw [hzj]
      exact fun h => nomatch h
  · exact fun j j' hm hm' => hc.called j j' (hold rfl hm) (hold rfl hm')
  · intro c i first length hmem
    obtain ⟨j, hcall, hrest⟩ := hc.slices c i first length (hold rfl hmem)
    exact ⟨j, mem_append_left _ hcall, hrest⟩
  · intro ev hev c hcall
    rw [hcalls]
    exact hc.fresh ev (hold hcall hev) c hcall
  · exact fun j hmem => hc.fits j (hold rfl hmem)

/-- A call of `parallel` enters with a number that no event of the history has. -/
theorem CallsOk.call (hc : CallsOk h s has) (hid : j.id = s.calls)
    (hfits : Fits j.count j.chunks) (hactive : s'.active = s.active)
    (htaken : s'.taken = s.taken) (hfinished : s'.finished = s.finished)
    (hcalls : s'.calls = s.calls + 1) (hhas : ∀ z, has' z ↔ z = .entering j ∨ has z) :
    CallsOk (h ++ [.called j]) s' has' := by
  have hnew : ∀ ev ∈ h, ev.call ≠ some j.id := by
    intro ev hev heq
    have := hc.fresh ev hev _ heq
    omega
  have hold : ∀ {z j'}, has z → z.jobs = some j' → j'.id ≠ j.id := by
    intro z j' hz hzj heq
    exact hnew _ (hc.standing z j' hz hzj).1 (congrArg some heq)
  have hchunk : ∀ {j' i}, has' (.chunk j' i) ↔ has (.chunk j' i) := by
    intro j' i
    rw [hhas]
    simp
  refine ⟨?_, ?_, ?_, ?_, ?_, ?_, ?_, ?_, ?_, ?_⟩
  · intro z j' hz hzj
    rcases (hhas z).1 hz with rfl | hz
    · cases hzj
      refine ⟨by simp, fun hmem => ?_, ?_⟩
      · have hmem : Event.returned j.id ∈ h := by simpa using hmem
        exact hnew _ hmem rfl
      · show startsOf j.id (h ++ _) = [] ∧ endsOf j.id (h ++ _) = []
        rw [startsOf_append, endsOf_append, startsOf_nil_of_call hnew, endsOf_nil_of_call hnew]
        exact ⟨rfl, rfl⟩
    · obtain ⟨hcall, hret, hst⟩ := hc.standing z j' hz hzj
      refine ⟨mem_append_left _ hcall, by simpa using hret, ?_⟩
      have hother : ∀ ev ∈ ([.called j] : List (Event O R)), ev.call ≠ some j'.id := by
        intro ev hev heq
        rw [mem_singleton.1 hev] at heq
        exact hold hz hzj (some.inj heq).symm
      refine hst.other hzj hother fun hzp => ?_
      rw [hzp] at hst ⊢
      exact hst.pool hother hactive htaken hfinished fun i => hchunk.2
  · intro z w j' j'' hz hw hzj hwj heq
    rcases (hhas z).1 hz with rfl | hz
    · rcases (hhas w).1 hw with rfl | hw
      · rfl
      · cases hzj
        exact absurd heq.symm (hold hw hwj)
    · rcases (hhas w).1 hw with rfl | hw
      · cases hwj
        exact absurd heq (hold hz hzj)
      · exact hc.single z w j' j'' hz hw hzj hwj heq
  · intro j' i hi
    rw [hactive, htaken, endsOf_append]
    obtain ⟨h1, h2, h3⟩ := hc.chunk j' i (hchunk.1 hi)
    exact ⟨h1, h2, by simpa [endsOf] using h3⟩
  · intro j' hj'
    rw [hactive] at hj'
    exact (hhas _).2 (Or.inr (hc.active j' hj'))
  · intro c hmem
    have hmem : Event.returned c ∈ h := by simpa using hmem
    obtain ⟨j', hcall, hid', hs, he⟩ := hc.returned c hmem
    refine ⟨j', mem_append_left _ hcall, hid', ?_, ?_⟩
    · rw [startsOf_append, hs]
      exact append_nil _
    · rw [endsOf_append]
      exact (append_nil _).symm ▸ he
  · intro j' hmem
    rcases mem_append.1 hmem with hmem | hmem
    · rcases hc.opened j' hmem with hr | ⟨z, hz, hzj⟩
      · exact Or.inl (mem_append_left _ hr)
      · exact Or.inr ⟨z, (hhas z).2 (Or.inr hz), hzj⟩
    · cases mem_singleton.1 hmem
      exact Or.inr ⟨_, (hhas _).2 (Or.inl rfl), rfl⟩
  · intro j' j'' hm hm' heq
    rcases mem_append.1 hm with hm | hm
    · rcases mem_append.1 hm' with hm' | hm'
      · exact hc.called j' j'' hm hm' heq
      · cases mem_singleton.1 hm'
        exact absurd (congrArg some heq) (hnew _ hm)
    · cases mem_singleton.1 hm
      rcases mem_append.1 hm' with hm' | hm'
      · exact absurd (congrArg some heq.symm) (hnew _ hm')
      · cases mem_singleton.1 hm'
        rfl
  · intro c i first length hmem
    have hmem : Event.chunkStart c i first length ∈ h := by simpa using hmem
    obtain ⟨j', hcall, hrest⟩ := hc.slices c i first length hmem
    exact ⟨j', mem_append_left _ hcall, hrest⟩
  · intro ev hev c hcall
    rw [hcalls]
    rcases mem_append.1 hev with hev | hev
    · exact Nat.lt_succ_of_lt (hc.fresh ev hev c hcall)
    · rw [mem_singleton.1 hev] at hcall
      cases hcall
      omega
  · intro j' hmem
    rcases mem_append.1 hmem with hmem | hmem
    · exact hc.fits j' hmem
    · cases mem_singleton.1 hmem
      exact hfits

/-! ## The steps of a call -/

@[simp] theorem startsOf_chunkStart (j : Jobs) (i c : Nat) :
    startsOf c [(chunkStart j i : Event O R)] = if j.id = c then [i] else [] := by
  unfold startsOf chunkStart
  by_cases hjc : j.id = c <;> simp [hjc]

@[simp] theorem endsOf_chunkStart (j : Jobs) (i c : Nat) :
    endsOf c [(chunkStart j i : Event O R)] = [] := rfl

@[simp] theorem endsOf_chunkEnd (c c' i : Nat) :
    endsOf c [(.chunkEnd c' i : Event O R)] = if c' = c then [i] else [] := by
  unfold endsOf
  by_cases hc : c' = c <;> simp [hc]

@[simp] theorem startsOf_chunkEnd (c c' i : Nat) :
    startsOf c [(.chunkEnd c' i : Event O R)] = [] := rfl

@[simp] theorem startsOf_returned (c c' : Nat) :
    startsOf c [(.returned c' : Event O R)] = [] := rfl

@[simp] theorem endsOf_returned (c c' : Nat) :
    endsOf c [(.returned c' : Event O R)] = [] := rfl

theorem mem_chunkStart {index i c : Nat} {first length : Int} :
    (.chunkStart c i first length : Event O R) ∈ [chunkStart j index] →
      c = j.id ∧ i = index ∧ (first, length) = sliceOf j.count j.chunks i := by
  intro hmem
  have hmem := mem_singleton.1 hmem
  cases hmem
  exact ⟨rfl, rfl, rfl⟩

variable (hc : CallsOk h s has)
include hc

/-- A call that runs its own chunks goes on to a chunk, or returns. -/
theorem CallsOk.inline (s' : State τ J O R) {x : Work J} {index : Nat}
    {pre : List (Event O R)} (hx : has x) (hj : x.jobs = some j) (hxp : x ≠ .pool j)
    (hpre : ∀ ev ∈ pre, ∃ i, ev = .chunkEnd j.id i)
    (hstarts : startsOf j.id (h ++ pre) = List.range index)
    (hends : endsOf j.id (h ++ pre) = List.range index)
    (hindex : index = 0 ∨ index ≤ j.chunks) (hactive : s'.active = s.active)
    (htaken : s'.taken = s.taken) (hfinished : s'.finished = s.finished)
    (hcalls : s'.calls = s.calls)
    (hchunks : ∀ j i, has' (.chunk j i) ↔ has (.chunk j i)) :
    (index < j.chunks → (∀ z, z.jobs ≠ none → (has' z ↔ z = .inline j index ∨ has z ∧ z ≠ x)) →
      CallsOk (h ++ (pre ++ [chunkStart j index])) s' has') ∧
    (¬ index < j.chunks → (∀ z, z.jobs ≠ none → (has' z ↔ has z ∧ z ≠ x)) →
      CallsOk (h ++ (pre ++ [.returned j.id])) s' has') := by
  -- what both ends of the loop share
  have hact : ∀ {last : Event O R} {y : Option (Work J)}, last.call = some j.id →
      (∀ j', last ≠ .called j') → (∀ z, y = some z → z.jobs = some j) →
      (∀ z, z.jobs ≠ none → (has' z ↔ y = some z ∨ has z ∧ z ≠ x)) →
      (∀ z, y = some z → Standing (h ++ (pre ++ [last])) s' has' z ∧
        .returned j.id ∉ pre ++ [last]) →
      (y = none → last = .returned j.id) →
      (last = .returned j.id → startsOf j.id (h ++ (pre ++ [last])) = List.range j.chunks.toNat ∧
        (endsOf j.id (h ++ (pre ++ [last]))).Perm (List.range j.chunks.toNat)) →
      (∀ (i : Nat) (first length : Int), last = .chunkStart j.id i first length →
        (first, length) = sliceOf j.count j.chunks i ∧ (i : Int) < j.chunks) →
      CallsOk (h ++ (pre ++ [last])) s' has' := by
    intro last y hlast hncall hy hhas hstand hend hret hslice
    have hall : ∀ ev ∈ pre ++ [last], ev.call = some j.id := by
      intro ev hev
      rcases mem_append.1 hev with hev | hev
      · obtain ⟨i, rfl⟩ := hpre ev hev
        rfl
      · rw [mem_singleton.1 hev]
        exact hlast
    have hmem : ∀ {ev : Event O R}, (∀ i, ev ≠ .chunkEnd j.id i) → ev ∈ pre ++ [last] →
        ev = last := by
      intro ev hne hev
      rcases mem_append.1 hev with hev | hev
      · obtain ⟨i, rfl⟩ := hpre ev hev
        exact absurd rfl (hne i)
      · exact mem_singleton.1 hev
    have hother : ∀ {c}, c ≠ j.id → ∀ ev ∈ pre ++ [last], ev.call ≠ some c := by
      intro c hne ev hev heq
      rw [hall ev hev] at heq
      exact hne (some.inj heq).symm
    have hpoolid : ∀ {j'}, has (.pool j') → j'.id ≠ j.id := by
      intro j' hp heq
      have := hc.single _ _ _ _ hp hx rfl hj heq
      rw [← this] at hj
      cases hj
      exact hxp this.symm
    refine hc.act hx hj hall (fun j' hm => hncall j' (hmem (by intro _ h; cases h) hm).symm)
      hcalls y hy hhas (fun j' i hi => ?_) (fun j' hj' => ?_) (fun j' hp hne => ?_) hstand
      (fun hyn => ?_) (fun hm => hret (hmem (by intro _ h; cases h) hm).symm)
      fun i first length hm => hslice i first length (hmem (by intro _ h; cases h) hm).symm
    · obtain ⟨h1, h2, h3⟩ := hc.chunk j' i ((hchunks j' i).1 hi)
      have hne := hpoolid (hc.active j' h1)
      rw [hactive, htaken, endsOf_append, endsOf_nil_of_call (hother hne), append_nil]
      exact ⟨h1, h2, h3⟩
    · rw [hactive] at hj'
      refine (hhas _ (by simp [Work.jobs])).2 (Or.inr ⟨hc.active j' hj', fun heq => ?_⟩)
      rw [← heq] at hj
      cases hj
      exact hxp heq.symm
    · exact (hc.standing _ j' hp rfl).2.2.pool (hother hne) hactive htaken hfinished
        fun i => (hchunks j' i).2
    · rw [hend hyn]
      simp
  have hassoc : ∀ last : Event O R, h ++ (pre ++ [last]) = (h ++ pre) ++ [last] :=
    fun last => (append_assoc ..).symm
  constructor
  · intro hlt hhas
    refine hact rfl (fun j' h => nomatch h) (y := some (.inline j index)) ?_ ?_ ?_
      (fun h => nomatch h) (fun h => nomatch h) ?_
    · rintro _ h
      cases h
      rfl
    · intro z hz
      rw [hhas z hz]
      simp [eq_comm]
    · rintro _ h
      cases h
      refine ⟨⟨hlt, ?_, ?_⟩, ?_⟩
      · rw [hassoc, startsOf_append, hstarts, startsOf_chunkStart, if_pos rfl, range_succ]
      · rw [hassoc, endsOf_append, hends, endsOf_chunkStart, append_nil]
      · intro hmem
        rcases mem_append.1 hmem with hmem | hmem
        · obtain ⟨i, hi⟩ := hpre _ hmem
          cases hi
        · cases mem_singleton.1 hmem
    · intro i first length heq
      obtain ⟨_, rfl, hsl⟩ := mem_chunkStart (mem_singleton.2 heq.symm)
      exact ⟨hsl, hlt⟩
  · intro hge hhas
    have hchunks : index = j.chunks.toNat := by omega
    refine hact rfl (fun j' h => nomatch h) (y := none) (fun _ h => nomatch h) ?_
      (fun _ h => nomatch h) (fun _ => rfl) ?_ (fun _ _ _ h => nomatch h)
    · intro z hz
      rw [hhas z hz]
      simp
    · intro _
      rw [hassoc, startsOf_append, endsOf_append, hstarts, hends, hchunks]
      simp

/-- What `taken` and `finished` count does not matter while no call uses the pool. -/
theorem CallsOk.recount (hfree : s.active = none) (hactive : s'.active = none)
    (hcalls : s'.calls = s.calls) : CallsOk h s' has := by
  have hstand : ∀ {x j}, x.jobs = some j → Standing h s has x → Standing h s' has x := by
    intro x j hxj hst
    rw [← append_nil h]
    refine hst.other hxj (fun _ h => nomatch h) fun hxp => ?_
    rw [hxp] at hst
    have := hst.1
    rw [hfree] at this
    cases this
  refine ⟨fun x j hx hxj => ?_, hc.single, fun j i hi => ?_, fun j hj => ?_, hc.returned,
    hc.opened, hc.called, hc.slices, fun ev hev c hcall => ?_, hc.fits⟩
  · obtain ⟨h1, h2, h3⟩ := hc.standing x j hx hxj
    exact ⟨h1, h2, hstand hxj h3⟩
  · have := (hc.chunk j i hi).1
    rw [hfree] at this
    cases this
  · rw [hactive] at hj
    cases hj
  · rw [hcalls]
    exact hc.fresh ev hev c hcall

theorem CallsOk.activate (hx : has (.entering j)) (hpos : 0 < j.chunks)
    (hfree : s.active = none) (hactive : s'.active = some j) (htaken : s'.taken = 0)
    (hfinished : s'.finished = 0) (hcalls : s'.calls = s.calls)
    (hhas : ∀ z, has' z ↔ z = .pool j ∨ has z ∧ z ≠ .entering j) : CallsOk h s' has' := by
  obtain ⟨_, _, hstarts, hends⟩ := hc.standing _ j hx rfl
  have hnopool : ∀ j', ¬ has (.pool j') := by
    intro j' hp
    have := (hc.standing _ j' hp rfl).2.2.1
    rw [hfree] at this
    cases this
  rw [← append_nil h]
  refine hc.act hx rfl (fun _ h => nomatch h) (fun _ h => nomatch h) hcalls
    (some (.pool j)) ?_ ?_ ?_ ?_ (fun j' hp => absurd hp (hnopool j')) ?_
    (fun h => nomatch h) (fun h => nomatch h) (fun _ _ _ h => nomatch h)
  · rintro _ h
    cases h
    rfl
  · intro z _
    rw [hhas z]
    simp [eq_comm]
  · intro j' i hi
    rcases (hhas _).1 hi with h | ⟨h, _⟩
    · cases h
    · have := (hc.chunk j' i h).1
      rw [hfree] at this
      cases this
  · intro j' hj'
    rw [hactive] at hj'
    cases hj'
    exact (hhas _).2 (Or.inl rfl)
  · rintro _ h
    cases h
    refine ⟨⟨hactive, ?_⟩, not_mem_nil⟩
    rw [append_nil, hstarts, hends, htaken, hfinished]
    exact ⟨rfl, ⟨hpos, by omega⟩, nodup_nil, rfl, fun _ h => absurd h not_mem_nil,
      fun _ h => absurd h (Nat.not_lt_zero _)⟩

/-- What a step of the call that uses the pool keeps, where its work stays. -/
theorem CallsOk.act_pool (hx : has (.pool j)) {ev : Event O R}
    (hev : ev.call = some j.id) (hncall : ∀ j', ev ≠ .called j')
    (hnret : ev ≠ .returned j.id) (hactive : s'.active = s.active)
    (hcalls : s'.calls = s.calls) (hhas : ∀ z, z.jobs ≠ none → (has' z ↔ has z))
    (hchunk : ∀ i, has' (.chunk j i) → i < s'.taken ∧ i ∉ endsOf j.id (h ++ [ev]))
    (hchunks : ∀ j' i, has' (.chunk j' i) → j' = j ∨ has (.chunk j' i))
    (hstand : Standing (h ++ [ev]) s' has' (.pool j))
    (hslice : ∀ (i : Nat) (first length : Int), ev = .chunkStart j.id i first length →
      (first, length) = sliceOf j.count j.chunks i ∧ (i : Int) < j.chunks) :
    CallsOk (h ++ [ev]) s' has' := by
  have hjactive : s.active = some j := (hc.standing _ j hx rfl).2.2.1
  refine hc.act hx rfl (fun ev' h => mem_singleton.1 h ▸ hev)
    (fun j' h => hncall j' (mem_singleton.1 h).symm) hcalls (some (.pool j)) ?_ ?_
    (fun j' i hi => ?_) (fun j' hj' => ?_) (fun j' hp hne => ?_) ?_ (fun h => nomatch h)
    (fun h => absurd (mem_singleton.1 h).symm hnret)
    fun i first length h => hslice i first length (mem_singleton.1 h).symm
  · rintro _ h
    cases h
    rfl
  · intro z hz
    rw [hhas z hz]
    by_cases hzp : z = .pool j
    · simp [hzp, hx]
    · simp [hzp, eq_comm]
  · have hj' : j' = j := by
      rcases hchunks j' i hi with h | h
      · exact h
      · have := (hc.chunk j' i h).1
        rw [hjactive] at this
        exact (some.inj this).symm
    subst hj'
    rw [hactive]
    exact ⟨hjactive, hchunk i hi⟩
  · rw [hactive] at hj'
    exact (hhas _ (by simp [Work.jobs])).2 (hc.active j' hj')
  · have := (hc.standing _ j' hp rfl).2.2.1
    rw [hjactive] at this
    cases this
    exact absurd rfl hne
  · rintro _ h
    cases h
    exact ⟨hstand, fun h => hnret (mem_singleton.1 h).symm⟩

theorem CallsOk.takeChunk (hx : has (.pool j)) (hlt : s.taken < j.chunks)
    (hactive : s'.active = s.active) (htaken : s'.taken = s.taken + 1)
    (hfinished : s'.finished = s.finished) (hcalls : s'.calls = s.calls)
    (hhas : ∀ z, has' z ↔ z = .chunk j s.taken ∨ has z) :
    CallsOk (h ++ [chunkStart j s.taken]) s' has' := by
  obtain ⟨_, _, h1, h2, h3, h4, h5, h6, h7⟩ := hc.standing _ j hx rfl
  have hends : endsOf j.id (h ++ [chunkStart j s.taken]) = endsOf j.id h := by simp
  refine hc.act_pool hx rfl (fun _ h => nomatch h) (fun h => nomatch h) hactive hcalls
    ?_ (fun i hi => ?_) (fun j' i hi => ?_) ⟨?_, ?_⟩ ?_
  · intro z hz
    rw [hhas z]
    refine ⟨fun h => h.resolve_left fun hzc => hz (hzc ▸ rfl), Or.inr⟩
  · rw [hends, htaken]
    rcases (hhas _).1 hi with hi | hi
    · cases hi
      exact ⟨Nat.lt_succ_self _, fun h => Nat.lt_irrefl _ (h6 _ h)⟩
    · obtain ⟨_, hlt, hnot⟩ := hc.chunk j i hi
      exact ⟨Nat.lt_succ_of_lt hlt, hnot⟩
  · rcases (hhas _).1 hi with hi | hi
    · cases hi
      exact Or.inl rfl
    · exact Or.inr hi
  · rw [hactive]
    exact h1
  · rw [hends, startsOf_append, h2, startsOf_chunkStart, if_pos rfl, htaken, hfinished, range_succ]
    refine ⟨rfl, ⟨h3.1, by omega⟩, h4, h5, fun i hi => Nat.lt_succ_of_lt (h6 i hi), fun i hi => ?_⟩
    rcases Nat.lt_succ_iff_lt_or_eq.1 hi with hi | rfl
    · exact (h7 i hi).imp id fun h => (hhas _).2 (Or.inr h)
    · exact Or.inr ((hhas _).2 (Or.inl rfl))
  · intro i first length heq
    obtain ⟨_, rfl, hsl⟩ := mem_chunkStart (mem_singleton.2 heq.symm)
    exact ⟨hsl, hlt⟩

theorem CallsOk.endChunk {i : Nat} (hx : has (.chunk j i))
    (hactive : s'.active = s.active) (htaken : s'.taken = s.taken)
    (hfinished : s'.finished = s.finished + 1) (hcalls : s'.calls = s.calls)
    (hhas : ∀ z, has' z ↔ has z ∧ z ≠ .chunk j i) :
    CallsOk (h ++ [.chunkEnd j.id i]) s' has' := by
  obtain ⟨hjactive, hi, hnot⟩ := hc.chunk j i hx
  have hpool := hc.active j hjactive
  obtain ⟨_, _, h1, h2, h3, h4, h5, h6, h7⟩ := hc.standing _ j hpool rfl
  have hends : endsOf j.id (h ++ [.chunkEnd j.id i]) = endsOf j.id h ++ [i] := by simp
  refine hc.act_pool hpool rfl (fun _ h => nomatch h) (fun h => nomatch h) hactive hcalls
    ?_ (fun k hk => ?_) (fun j' k hk => Or.inr ((hhas _).1 hk).1) ⟨?_, ?_⟩
    (fun _ _ _ h => nomatch h)
  · intro z hz
    rw [hhas z]
    exact ⟨And.left, fun h => ⟨h, fun hzc => hz (hzc ▸ rfl)⟩⟩
  · obtain ⟨hk, hne⟩ := (hhas _).1 hk
    obtain ⟨_, hlt, hnot'⟩ := hc.chunk j k hk
    rw [htaken, hends]
    refine ⟨hlt, fun hmem => ?_⟩
    rcases mem_append.1 hmem with hmem | hmem
    · exact hnot' hmem
    · exact hne (by rw [mem_singleton.1 hmem])
  · rw [hactive]
    exact h1
  · rw [hends, startsOf_append, startsOf_chunkEnd, append_nil, h2, htaken, hfinished]
    refine ⟨rfl, h3, ?_, by simp [h5], fun k hk => ?_, fun k hk => ?_⟩
    · refine nodup_append.2 ⟨h4, nodup_singleton _, fun a ha b hb hab => ?_⟩
      rw [mem_singleton.1 hb] at hab
      exact hnot (hab ▸ ha)
    · rcases mem_append.1 hk with hk | hk
      · exact h6 k hk
      · rw [mem_singleton.1 hk]
        exact hi
    · by_cases hki : k = i
      · exact Or.inl (mem_append_right _ (mem_singleton.2 hki))
      · rcases h7 k hk with h | h
        · exact Or.inl (mem_append_left _ h)
        · refine Or.inr ((hhas _).2 ⟨h, fun heq => hki ?_⟩)
          cases heq
          rfl

/-- The call that uses the pool returns, when all its chunks have ended. -/
theorem CallsOk.finish (hx : has (.pool j)) (hge : ¬ s.finished < j.chunks)
    (hactive : s'.active = none) (hcalls : s'.calls = s.calls)
    (hhas : ∀ z, has' z ↔ has z ∧ z ≠ .pool j) :
    CallsOk (h ++ [.returned j.id]) s' has' := by
  obtain ⟨_, _, h1, h2, h3, h4, h5, h6, h7⟩ := hc.standing _ j hx rfl
  have hsub : endsOf j.id h ⊆ List.range s.taken :=
    fun i hi => mem_range.2 (h6 i hi)
  have hle : s.finished ≤ s.taken := by
    have := (h4.subperm hsub).length_le
    rwa [h5, length_range] at this
  have hall : s.taken = j.chunks.toNat := by omega
  have hperm : (endsOf j.id h).Perm (List.range s.taken) := by
    refine (h4.subperm hsub).perm_of_length_le ?_
    rw [h5, length_range]
    omega
  have hnochunk : ∀ j' i, ¬ has (.chunk j' i) := by
    intro j' i hi
    obtain ⟨hj', hlt, hnot⟩ := hc.chunk j' i hi
    rw [h1] at hj'
    cases hj'
    exact hnot (hperm.mem_iff.2 (mem_range.2 hlt))
  refine hc.act hx rfl (fun ev h => mem_singleton.1 h ▸ rfl)
    (fun j' h => nomatch mem_singleton.1 h) hcalls none (fun _ h => nomatch h) ?_
    (fun j' i hi => absurd ((hhas _).1 hi).1 (hnochunk j' i)) (fun j' hj' => ?_)
    (fun j' hp hne => ?_) (fun _ h => nomatch h) (fun _ => mem_singleton.2 rfl)
    (fun _ => ?_) fun i first length h => nomatch mem_singleton.1 h
  · intro z _
    rw [hhas z]
    simp
  · rw [hactive] at hj'
    cases hj'
  · have := (hc.standing _ j' hp rfl).2.2.1
    rw [h1] at this
    cases this
    exact absurd rfl hne
  · rw [startsOf_append, endsOf_append, startsOf_returned, endsOf_returned,
      append_nil, append_nil, h2, ← hall]
    exact ⟨rfl, hperm⟩

end Calls

end AnticPool
