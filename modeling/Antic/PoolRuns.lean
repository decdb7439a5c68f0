import Antic.PoolProofs

/-! # Runs of the worker pool

    Every step keeps `Inv`, so it holds after every run.  What the pool promises is read off it:
    `RunsOnce` speaks of the history of a run and of the memory of the pool, and names no step. -/

namespace AnticPool

open Interleaving LinkedLists List

section Steps

variable {τ J O R : Type} [DecidableEq τ]
variable {h evs : List (Event O R)} {s s' : State τ J O R}

theorem Inv.restack (hi : Inv h s) {t : τ} {stack : List (Frame J)}
    (hworks : works stack = works (s.frames t))
    (hawake : ∀ f rest, stack = f :: rest → f.asleep = false)
    (hunder : ∀ g ∈ stack.tail, g ∈ (s.frames t).tail) :
    Inv (h ++ []) (s.goto t stack) := by
  refine hi.idle t (fun _ h => nomatch h) rfl (SameJobs.goto t _ (SameJobs.refl _)) rfl rfl
    rfl (fun u => ?_) (hi.sleeps.same
      (quiet_update hawake fun g hg => Or.inl (hunder g hg)))
  by_cases hu : u = t
  · rw [hu, ← hworks]
    exact congrArg works (Function.update_self ..)
  · exact congrArg works (Function.update_of_ne hu _ _)

theorem Inv.spawn (hi : Inv h s) {t : τ} (ht : s.frames t = []) :
    Inv (h ++ []) (s.goto t [.program]) := by
  refine hi.restack (by rw [ht]; rfl) (fun f rest hf => ?_) fun g hg => nomatch hg
  cases hf
  rfl

theorem Inv.stir (hi : Inv h s) {t : τ} {cond : Condition (List (Frame J))}
    (hc : IsCondition cond) (ha : cond.asleep (s.frames t) = true) :
    Inv (h ++ []) (s.goto t (cond.wake (s.frames t))) := by
  obtain ⟨htail, hawake⟩ := quiet_wake hc ha
  exact hi.restack (works_wake hc ha) hawake fun g hg => htail ▸ hg

omit [DecidableEq τ] in
theorem Inv.fatal (hi : Inv h s) (t : τ) : Inv (h ++ [.fatal]) { s with stopped := true } := by
  refine hi.idle t (fun ev hev => ?_) rfl
    ⟨rfl, rfl, rfl, rfl, rfl, rfl, rfl, rfl, rfl, rfl, rfl⟩ rfl rfl rfl (fun _ => rfl)
    (hi.sleeps.same (Quiet.refl _))
  rw [mem_singleton.1 hev]
  exact ⟨rfl, rfl⟩

omit [DecidableEq τ] in
theorem StartLocked.sameJobs (hs : StartLocked s s') : SameJobs s s' := by
  cases hs with
  | running _ => exact SameJobs.refl _
  | start _ _ _ => exact ⟨rfl, rfl, rfl, rfl, rfl, rfl, rfl, rfl, rfl, rfl, rfl⟩

variable {rest : List (Frame J)}

omit [DecidableEq τ] in
theorem StartLocked.frames (hs : StartLocked s s') {t : τ} {f : Frame J}
    (ht : s.frames t = f :: rest) : s'.frames t = f :: rest := by
  cases hs with
  | running _ => exact ht
  | start frames _ hframes =>
    rcases hframes t with hu | ⟨hu, _⟩
    · exact hu.trans ht
    · rw [ht] at hu
      cases hu

theorem Inv.inlineEnd (hi : Inv h s) {t : τ} {j : Jobs} {index : Nat}
    (ht : s.frames t = .parallel j (.inline index) :: rest) :
    Inv (h ++ (.chunkEnd j.id index :: (AnticPool.inlineFrom s t j (index + 1) rest).2))
      (AnticPool.inlineFrom s t j (index + 1) rest).1 := by
  have hx : s.has (.inline j index) := has_of_top ht (mem_singleton.2 rfl)
  obtain ⟨hlt, hstarts, hends⟩ := (hi.calls.standing _ j hx rfl).2.2
  refine hi.inlineFrom ht rfl rfl (fun h => nomatch h) [.chunkEnd j.id index]
    (fun ev hev => ⟨index, mem_singleton.1 hev⟩) ?_ ?_ (Or.inr (by omega))
  · rw [startsOf_append, hstarts, startsOf_chunkEnd, append_nil]
  · rw [endsOf_append, hends, endsOf_chunkEnd, if_pos rfl, range_succ]

theorem Inv.inline (hi : Inv h s) {t : τ} {j : Jobs}
    (ht : s.frames t = .parallel j .enter :: rest) :
    Inv (h ++ (AnticPool.inlineFrom s t j 0 rest).2) (AnticPool.inlineFrom s t j 0 rest).1 := by
  have hx : s.has (.entering j) := has_of_top ht (mem_singleton.2 rfl)
  obtain ⟨hstarts, hends⟩ := (hi.calls.standing _ j hx rfl).2.2
  exact hi.inlineFrom ht rfl rfl (fun h => nomatch h) [] (fun _ h => nomatch h)
    (by rw [append_nil, hstarts]; rfl) (by rw [append_nil, hends]; rfl)
    (Or.inl rfl)

variable [DecidableEq J] [DecidableEq O]

/-- **Every step keeps the invariant.** -/
theorem Inv.step (hi : Inv h s) (hs : Step s evs s') : Inv (h ++ evs) s' := by
  cases hs with
  | spawn t ht => exact hi.spawn ht
  | callParallel t f rest asked count configured online resultSize chunks ht hf hchunks _ _ =>
    refine hi.call (j := ⟨s.calls, count, chunks⟩) ht hf rfl ?_
    rw [hchunks]
    exact fits_chunksOf asked count configured online
  | callNone t f rest asked count configured online _ _ hnone =>
    exact hi.callNone (hnone ▸ fits_chunksOf asked count configured online)
  | callFatal t _ _ _ _ => exact hi.fatal t
  | inline t j rest s₁ ht hstart _ => exact (hi.startLocked t hstart).inline (hstart.frames ht)
  | inlineEnd t j index rest ht => exact hi.inlineEnd ht
  | activate t j rest s₁ ht hstart hfree =>
    exact (hi.startLocked t hstart).enterPool (hstart.frames ht) hfree
  | chunkEnd t j index rest ht => exact hi.chunkEnd_takeChunk ht
  | parallelWoken t j rest ht => exact hi.waitDone ht
  | dispatch t f rest a object r s₁ _ _ hfree hstart =>
    refine (hi.startLocked t hstart).dispatch t object r ?_
    rw [hstart.sameJobs.allocated]
    exact hfree
  | callJoin t f rest a ht hf halloc hnone => exact hi.callJoin ht hf halloc hnone
  | joinNull t f rest _ _ => exact (append_nil h).symm ▸ hi
  | joinEnter t a rest ht => exact hi.joinTurn ht rfl
  | joinWoken t a rest ht => exact hi.joinTurn ht rfl
  | joinRunEnd t a rest r ht => exact hi.endJob r ht rfl rfl (Or.inr ⟨rfl, rfl⟩)
  | joinLeave t a rest ht => exact hi.joinLeave ht
  | workerLook t rest ht => exact hi.workerTurn ht rfl
  | workerWoken t rest ht => exact hi.workerTurn ht rfl
  | workerJobEnd t a rest r ht => exact hi.endJob r ht rfl rfl (Or.inl ⟨rfl, rfl⟩)
  | workerChunkEnd t j index rest ht => exact hi.workerChunkEnd ht
  | stir t cond hc ha => exact hi.stir hc ha

omit [DecidableEq τ] [DecidableEq O] [DecidableEq J] in
theorem Starts.inv (hs : Starts s) : Inv [] s := by
  have hworks : ∀ t, s.works t = [] := by
    intro t
    show works (s.frames t) = []
    rcases hs.frames t with ht | ht <;> rw [ht] <;> rfl
  have hnone : ∀ x, ¬ s.has x := by
    rintro x ⟨t, ht⟩
    rw [hworks t] at ht
    exact nomatch ht
  have hfree : ∀ a, ¬ s.allocated a = true := by
    intro a ha
    rw [hs.allocated a] at ha
    cases ha
  have hasleep : ∀ t f rest, s.frames t = f :: rest → f = .program ∧ rest = [] := by
    intro t f rest hf
    rcases hs.frames t with ht | ht <;> rw [ht] at hf <;> cases hf
    exact ⟨rfl, rfl⟩
  constructor
  · refine ⟨fun t => ?_, fun {t u x} ht _ => absurd ⟨t, ht⟩ (hnone x)⟩
    rw [hworks t]
    exact nodup_nil
  · refine ⟨fun x _ hx => absurd hx (hnone x), fun x _ _ _ hx => absurd hx (hnone x),
      fun _ _ hx => absurd hx (hnone _), fun j hj => ?_, fun _ hm => (nomatch hm),
      fun _ hm => (nomatch hm), fun _ _ hm => (nomatch hm), fun _ _ _ _ hm => (nomatch hm),
      fun _ hm => (nomatch hm), fun _ hm => (nomatch hm)⟩
    rw [hs.active] at hj
    cases hj
  · refine ⟨⟨[], ?_, nodup_nil, hs.queuedLast, fun a => ?_⟩,
      ⟨[], ?_, nodup_nil, fun a => ?_⟩, fun a _ ha => absurd ha (hfree a),
      fun a _ ha => absurd ha (hfree a), fun a ha => absurd ha (hfree a),
      fun a ha => absurd ha (hfree a), fun a ha => absurd ha (hfree a),
      fun a ha => absurd ha (hfree a), fun a ha => absurd ha (hfree a),
      fun a hx => absurd hx (hnone _), fun a hx => absurd hx (hnone _),
      fun a hx => absurd hx (hnone _), ⟨nodup_nil, fun _ hm => (nomatch hm)⟩,
      fun _ hm => (nomatch hm), ⟨nodup_nil, fun _ hm => (nomatch hm)⟩, fun _ _ hm => (nomatch hm),
      fun _ _ hm => (nomatch hm), fun hm => (nomatch hm)⟩
    · rw [hs.queued]
      exact .nil
    · exact ⟨fun hm => (nomatch hm), fun hm => absurd hm.1 (hfree a)⟩
    · rw [hs.inFlight]
      exact .nil
    · exact ⟨fun hm => (nomatch hm), fun hm => absurd hm.1 (hfree a)⟩
  · refine ⟨fun t rest ht => ?_, fun t j rest ht => ?_, fun t a rest ht => ?_, fun t g hg => ?_⟩
    · exact nomatch (hasleep t _ rest ht).1
    · exact nomatch (hasleep t _ rest ht).1
    · exact nomatch (hasleep t _ rest ht).1
    · rcases hs.frames t with ht | ht <;> rw [ht] at hg <;> exact nomatch hg

/-- **The invariant holds after every run.** -/
theorem inv_of_runs {s₀ : State τ J O R} {steps : List (List (Event O R))}
    (hs : Starts s₀) (hrun : Runs Goes s₀ steps s) : Inv steps.flatten s := by
  refine hrun.invariant (fun steps s => Inv steps.flatten s) hs.inv ?_
  intro steps t evs u hi hgo
  rw [flatten_append, flatten_singleton]
  exact hi.step hgo.2

end Steps

/-! ## What the pool promises -/

section Promise

variable {τ J O R : Type}

/-- A job of the object was dispatched and has not ended. -/
def InFlight (h : List (Event O R)) (object : O) : Prop :=
  ∃ n, .dispatched n object ∈ h ∧ n ∉ jobEnds h

/-- A thread runs the job: it is a worker, or it joins the job. -/
def RunsJob (s : State τ J O R) (a : J) (t : τ) : Prop :=
  .worker (.job a) ∈ s.frames t ∨ .join a .run ∈ s.frames t

/-- **Every piece of work is run once**, after the history `h`. -/
structure RunsOnce [DecidableEq J] [DecidableEq O] (h : List (Event O R))
    (s : State τ J O R) : Prop where
  /-- The slices of a call are its elements in order. -/
  elements : ∀ j, .called j ∈ h →
    (List.range j.chunks.toNat).flatMap (elementsOf j.count j.chunks) =
      (List.range j.count.toNat).map fun k : Nat => (k : Int)
  /-- A chunk runs on its slice. -/
  slices : ∀ (c i : Nat) (first length : Int), .chunkStart c i first length ∈ h →
    ∃ j, .called j ∈ h ∧ j.id = c ∧ (i : Int) < j.chunks ∧
      (first, length) = sliceOf j.count j.chunks i
  /-- The chunks of a call start in order, each once, and end at most once. -/
  chunks : ∀ j, .called j ∈ h → (∃ n, n ≤ j.chunks.toNat ∧ startsOf j.id h = List.range n) ∧
    (endsOf j.id h).Nodup ∧ ∀ i ∈ endsOf j.id h, i ∈ startsOf j.id h
  /-- A call that has returned has run all of its chunks to their ends. -/
  returned : ∀ j, .called j ∈ h → .returned j.id ∈ h → startsOf j.id h = List.range j.chunks.toNat ∧
    (endsOf j.id h).Perm (List.range j.chunks.toNat)
  /-- A worker in a chunk reads the call that is active. -/
  reads : ∀ t j i, .worker (.chunk j i) ∈ s.frames t → s.active = some j
  starts : (jobStarts h).Nodup ∧ ∀ n ∈ jobStarts h, ∃ object, .dispatched n object ∈ h
  ends : (jobEnds h).Nodup ∧ ∀ n ∈ jobEnds h, n ∈ jobStarts h
  /-- A job that was started and has not ended is run by one thread. -/
  running : ∀ n ∈ jobStarts h, n ∉ jobEnds h →
    ∃ a, s.allocated a = true ∧ s.serial a = n ∧ ∃! t, RunsJob s a t
  /-- A join returns after the end of its job, with the result of it. -/
  joined : ∀ n r, .joined n r ∈ h →
    n ∈ jobStarts h ∧ .jobEnd n r ∈ h ∧ ∀ r', .jobEnd n r' ∈ h → r' = r
  /-- A thread in a job or in a join has the memory of the job. -/
  memory : ∀ t a, RunsJob s a t ∨ (∃ at_, .join a at_ ∈ s.frames t) → s.allocated a = true
  /-- No two jobs of one object are in flight. -/
  apart : ∀ n m object, .dispatched n object ∈ h → .dispatched m object ∈ h →
    n ∉ jobEnds h → m ∉ jobEnds h → n = m
  /-- A dispatch gives no job exactly where the object is in flight. -/
  dispatch : ∀ s₁ a object (r : R), StartLocked s s₁ →
    (InFlight h object ∧ AnticPool.dispatch s₁ a object r = some (s₁, [.refused object])) ∨
    (¬ InFlight h object ∧ AnticPool.dispatch s₁ a object r =
      some (enqueue s₁ a object r, [.dispatched s₁.dispatches object]))
  /-- The queue ends at `queued_last`, and holds the jobs not yet taken. -/
  queue : ∃ l, Chain s.next s.queued l ∧ s.queuedLast = l.getLast? ∧ (l.map s.serial).Nodup ∧
    ∀ n, n ∈ l.map s.serial ↔ (∃ object, .dispatched n object ∈ h) ∧ n ∉ jobStarts h
  /-- Who waits for work has none to take. -/
  ready : ∀ t rest, s.frames t = .worker .asleep :: rest →
    s.queued = none ∧ ∀ j, s.active = some j → (s.taken : Int) = j.chunks
  /-- Who waits for chunks uses the pool, and some have not ended. -/
  waits : ∀ t j rest, s.frames t = .parallel j .asleep :: rest →
    s.active = some j ∧ s.finished < j.chunks
  /-- Who waits for a job cannot take it, and it has not ended. -/
  joins : ∀ t a rest, s.frames t = .join a .asleep :: rest →
    s.done a = false ∧ s.serial a ∉ jobEnds h ∧ s.serial a ∈ jobStarts h
  /-- Every walk over a list ends. -/
  walks : .endless ∉ h

variable {h : List (Event O R)} {s s₁ : State τ J O R}

theorem mem_works {stack : List (Frame J)} {f : Frame J} (hf : f ∈ stack) {x : Work J}
    (hx : x ∈ f.works) : x ∈ works stack :=
  mem_flatMap.2 ⟨f, hf, hx⟩

theorem runsJob_iff {a : J} {t : τ} : RunsJob s a t ↔ .job a ∈ s.works t := by
  constructor
  · rintro (hf | hf)
    · exact mem_works hf (mem_singleton.2 rfl)
    · exact mem_works hf (mem_cons_of_mem _ (mem_singleton.2 rfl))
  · intro hx
    obtain ⟨f, hf, hx⟩ := mem_flatMap.1 hx
    rcases f with _ | ⟨_ | _ | _ | b | _⟩ | ⟨_, _ | _ | _ | _ | _⟩ | ⟨b, _ | _ | _ | _ | _⟩ <;>
      simp only [Frame.works, mem_cons, not_mem_nil, or_false, reduceCtorEq,
        false_or, Work.job.injEq] at hx
    · rw [hx]
      exact Or.inl hf
    · rw [hx]
      exact Or.inr hf

theorem jobEnd_unique : ∀ {h : List (Event O R)}, (jobEnds h).Nodup → ∀ {n : Nat} {r r' : R},
    .jobEnd n r ∈ h → .jobEnd n r' ∈ h → r' = r := by
  intro h
  induction h with
  | nil => exact fun _ _ _ _ hr => nomatch hr
  | cons ev h ih =>
    intro hnodup n r r' hr hr'
    have hrest : (jobEnds h).Nodup := by
      cases ev with
      | jobEnd m q => exact (nodup_cons.1 hnodup).2
      | _ => exact hnodup
    rcases mem_cons.1 hr with rfl | hold
    · rcases mem_cons.1 hr' with heq | hold'
      · cases heq
        rfl
      · exact absurd (mem_jobEnds.2 ⟨r', hold'⟩) (nodup_cons.1 hnodup).1
    · rcases mem_cons.1 hr' with rfl | hold'
      · exact absurd (mem_jobEnds.2 ⟨r, hold⟩) (nodup_cons.1 hnodup).1
      · exact ih hrest hold hold'

variable {has : Work J → Prop}

theorem CallsOk.chunks_once (hc : CallsOk h s has) {j : Jobs} (hj : .called j ∈ h) :
    (∃ n, n ≤ j.chunks.toNat ∧ startsOf j.id h = List.range n) ∧
    (endsOf j.id h).Nodup ∧ ∀ i ∈ endsOf j.id h, i ∈ startsOf j.id h := by
  rcases hc.opened j hj with hr | ⟨x, hx, hxj⟩
  · obtain ⟨j', hj', hid, hs, he⟩ := hc.returned _ hr
    rw [hc.called j' j hj' hj hid] at hs he
    refine ⟨⟨_, Nat.le_refl _, hs⟩, he.nodup_iff.2 nodup_range, fun i hi => ?_⟩
    rw [hs]
    exact he.mem_iff.1 hi
  · have hst := (hc.standing x j hx hxj).2.2
    cases x with
    | entering j' =>
      cases hxj
      obtain ⟨hs, he⟩ := hst
      rw [hs, he]
      exact ⟨⟨0, Nat.zero_le _, rfl⟩, nodup_nil, fun _ hm => (nomatch hm)⟩
    | inline j' index =>
      cases hxj
      obtain ⟨hlt, hs, he⟩ := hst
      rw [hs, he]
      refine ⟨⟨_, by omega, rfl⟩, nodup_range, fun i hi => ?_⟩
      rw [mem_range] at hi ⊢
      omega
    | pool j' =>
      cases hxj
      obtain ⟨_, hs, ⟨_, hle⟩, hnodup, _, hlt, _⟩ := hst
      rw [hs]
      exact ⟨⟨_, by omega, rfl⟩, hnodup, fun i hi => mem_range.2 (hlt i hi)⟩
    | chunk j' i => cases hxj
    | join a => cases hxj
    | leaving a => cases hxj
    | job a => cases hxj

theorem JobsOk.inFlight_iff (hj : JobsOk h s has) (object : O) : InFlight h object ↔
      ∃ a, s.allocated a = true ∧ s.done a = false ∧ s.object a = object := by
  constructor
  · rintro ⟨n, hn, hends⟩
    obtain ⟨a, ha, rfl, ho⟩ := (hj.dispatched n object hn).resolve_left hends
    refine ⟨a, ha, ?_, ho⟩
    by_contra hd
    exact hends ((hj.done a ha).1 (by simpa using hd))
  · rintro ⟨a, ha, hd, rfl⟩
    refine ⟨s.serial a, hj.born a ha, fun hends => ?_⟩
    rw [(hj.done a ha).2 hends] at hd
    cases hd

theorem JobsOk.queue_serials (hj : JobsOk h s has) :
    ∃ l, Chain s.next s.queued l ∧ s.queuedLast = l.getLast? ∧ (l.map s.serial).Nodup ∧
      ∀ n, n ∈ l.map s.serial ↔ (∃ object, .dispatched n object ∈ h) ∧ n ∉ jobStarts h := by
  obtain ⟨l, hchain, hnodup, hlast, hmem⟩ := hj.queue
  refine ⟨l, hchain, hlast, ?_, fun n => ?_⟩
  · refine hnodup.map_on fun a ha b hb heq => ?_
    exact hj.serials a b ((hmem a).1 ha).1 ((hmem b).1 hb).1 heq
  · rw [List.mem_map]
    constructor
    · rintro ⟨a, ha, rfl⟩
      obtain ⟨halloc, hnot⟩ := (hmem a).1 ha
      exact ⟨⟨_, hj.born a halloc⟩, hnot⟩
    · rintro ⟨⟨object, hn⟩, hnot⟩
      have hends : n ∉ jobEnds h := fun hm => hnot (hj.ends.2 n hm)
      obtain ⟨a, ha, rfl, _⟩ := (hj.dispatched n object hn).resolve_left hends
      exact ⟨a, (hmem a).2 ⟨ha, hnot⟩, rfl⟩

theorem Inv.running_unique (hi : Inv h s) {n : Nat} (hn : n ∈ jobStarts h) (hends : n ∉ jobEnds h) :
    ∃ a, s.allocated a = true ∧ s.serial a = n ∧ ∃! t, RunsJob s a t := by
  obtain ⟨object, hdisp⟩ := hi.jobs.started n hn
  obtain ⟨a, ha, rfl, _⟩ := (hi.jobs.dispatched n object hdisp).resolve_left hends
  have hd : s.done a = false := by
    by_contra hd
    exact hends ((hi.jobs.done a ha).1 (by simpa using hd))
  obtain ⟨t, ht⟩ := hi.jobs.running a ha hn hd
  refine ⟨a, ha, rfl, t, runsJob_iff.2 ht, fun u hu => ?_⟩
  exact hi.owned.apart (runsJob_iff.1 hu) ht

theorem Inv.memory (hi : Inv h s) {t : τ} {a : J}
    (ht : RunsJob s a t ∨ ∃ at_, .join a at_ ∈ s.frames t) : s.allocated a = true := by
  rcases ht with ht | ⟨at_, hf⟩
  · exact (hi.jobs.job a ⟨t, runsJob_iff.1 ht⟩).1
  · cases at_ with
    | enter | asleep | woken => exact hi.jobs.join a ⟨t, mem_works hf (mem_singleton.2 rfl)⟩
    | run => exact hi.jobs.join a ⟨t, mem_works hf (mem_cons_self ..)⟩
    | leaving => exact (hi.jobs.leaving a ⟨t, mem_works hf (mem_singleton.2 rfl)⟩).1

variable [DecidableEq J] [DecidableEq O]

theorem JobsOk.dispatch_answer (hj : JobsOk h s has) (a : J) (object : O) (r : R) :
    (InFlight h object ∧ AnticPool.dispatch s a object r = some (s, [.refused object])) ∨
    (¬ InFlight h object ∧ AnticPool.dispatch s a object r =
      some (AnticPool.enqueue s a object r, [.dispatched s.dispatches object])) := by
  obtain ⟨b, hflying, hiff⟩ := hj.flying_iff object
  rw [hj.inFlight_iff, ← hiff]
  cases b with
  | true => exact Or.inl ⟨rfl, by simp [AnticPool.dispatch, hflying]⟩
  | false => exact Or.inr ⟨Bool.false_ne_true, by simp [AnticPool.dispatch, hflying]⟩

theorem Inv.runsOnce (hi : Inv h s) : RunsOnce h s where
  elements j hj := slices_partition (hi.calls.fits j hj)
  slices c i first length hmem := by
    obtain ⟨j, hj, hid, hslice, hlt⟩ := hi.calls.slices c i first length hmem
    exact ⟨j, hj, hid, hlt, hslice⟩
  chunks j hj := hi.calls.chunks_once hj
  returned j hj hr := by
    obtain ⟨j', hj', hid, hs, he⟩ := hi.calls.returned _ hr
    rw [hi.calls.called j' j hj' hj hid] at hs he
    exact ⟨hs, he⟩
  reads t j i hf := (hi.calls.chunk j i ⟨t, mem_works hf (mem_singleton.2 rfl)⟩).1
  starts := ⟨hi.jobs.starts.1, hi.jobs.started⟩
  ends := hi.jobs.ends
  running n hn hends := hi.running_unique hn hends
  joined n r hmem := by
    have hend := hi.jobs.joined n r hmem
    exact ⟨hi.jobs.ends.2 n (mem_jobEnds.2 ⟨r, hend⟩), hend,
      fun r' hr' => jobEnd_unique hi.jobs.ends.1 hend hr'⟩
  memory t a ht := hi.memory ht
  apart n m object hn hm hne hme := by
    obtain ⟨a, ha, rfl, hao⟩ := (hi.jobs.dispatched n object hn).resolve_left hne
    obtain ⟨b, hb, rfl, hbo⟩ := (hi.jobs.dispatched m object hm).resolve_left hme
    have hnot : ∀ c, s.allocated c = true → s.serial c ∉ jobEnds h → s.done c = false := by
      intro c hc hce
      by_contra hd
      exact hce ((hi.jobs.done c hc).1 (by simpa using hd))
    rw [hi.jobs.objects a b ha (hnot a ha hne) hb (hnot b hb hme) (hao.trans hbo.symm)]
  dispatch s₁ a object r hstart := by
    have hjobs : JobsOk (h ++ []) s₁ s.has :=
      hi.jobs.frame (fun _ hm => nomatch hm) hstart.sameJobs fun _ _ => Iff.rfl
    rw [append_nil] at hjobs
    exact hjobs.dispatch_answer a object r
  queue := hi.jobs.queue_serials
  ready := hi.sleeps.ready
  waits t j rest ht :=
    ⟨(hi.calls.standing _ j (has_of_top ht (mem_singleton.2 rfl)) rfl).2.2.1,
      hi.sleeps.parallel t j rest ht⟩
  joins t a rest ht := by
    obtain ⟨hd, hs⟩ := hi.sleeps.join t a rest ht
    refine ⟨hd, fun hends => ?_, hs⟩
    have ha := hi.jobs.join a (has_of_top ht (mem_singleton.2 rfl))
    rw [(hi.jobs.done a ha).2 hends] at hd
    cases hd
  walks := hi.jobs.endless

/-- **The pool runs every piece of work exactly once**, in every run. -/
theorem pool_runs_once [DecidableEq τ] {s₀ : State τ J O R}
    {steps : List (List (Event O R))} (hs : Starts s₀) (hrun : Runs Goes s₀ steps s) :
    RunsOnce steps.flatten s :=
  (inv_of_runs hs hrun).runsOnce

/-- One thread of the program, and no worker. -/
def oneThread : State Unit Nat Nat Nat where
  frames := fun _ => [.program]
  started := true
  active := none
  taken := 0
  finished := 0
  queued := none
  queuedLast := none
  inFlight := none
  next := fun _ => none
  live := fun _ => none
  done := fun _ => false
  object := fun _ => 0
  result := fun _ => 0
  allocated := fun _ => false
  serial := fun _ => 0
  calls := 0
  dispatches := 0
  stopped := false

/-- The thread dispatches object 5, runs 3 elements in 2 chunks, and joins its job. -/
def oneThreadHistory : List (List (Event Nat Nat)) :=
  [[.dispatched 0 5], [.called ⟨0, 3, 2⟩], [.chunkStart 0 0 0 2],
    [.chunkEnd 0 0, .chunkStart 0 1 2 1], [.chunkEnd 0 1, .returned 0], [], [.jobStart 0],
    [.jobEnd 0 7], [.joined 0 7]]

theorem oneThread_starts : Starts oneThread :=
  ⟨fun _ => Or.inr rfl, rfl, rfl, rfl, rfl, fun _ => rfl, rfl, rfl⟩

/-- The run of `oneThread`, and what the pool promises of it. -/
theorem oneThread_runs_once : ∃ s, Runs Goes oneThread oneThreadHistory s ∧
    RunsOnce oneThreadHistory.flatten s := by
  have hfirst : Goes oneThread [.dispatched 0 5] _ :=
    ⟨rfl, .dispatch () .program [] 9 5 0 oneThread rfl rfl rfl (.running rfl)⟩
  have h1 := Runs.snoc .start hfirst
  have h2 := Runs.snoc h1 ⟨rfl, .callParallel () .program [] 2 3 0 0 8 2 rfl rfl rfl
    (by decide) (by unfold tooLarge; decide)⟩
  have h3 := Runs.snoc h2 ⟨rfl, .activate () _ _ _ rfl (.running rfl) rfl⟩
  have h4 := Runs.snoc h3 ⟨rfl, .chunkEnd () _ _ _ rfl⟩
  have h5 := Runs.snoc h4 ⟨rfl, .chunkEnd () _ _ _ rfl⟩
  have h6 := Runs.snoc h5 ⟨rfl, .callJoin () .program [] 9 rfl rfl rfl
    fun _ => ⟨not_mem_nil, not_mem_nil⟩⟩
  have h7 := Runs.snoc h6 ⟨rfl, .joinEnter () _ _ rfl⟩
  have h8 := Runs.snoc h7 ⟨rfl, .joinRunEnd () _ _ 7 rfl⟩
  have h9 := Runs.snoc h8 ⟨rfl, .joinLeave () _ _ rfl⟩
  exact ⟨_, h9, pool_runs_once oneThread_starts h9⟩

end Promise

end AnticPool
