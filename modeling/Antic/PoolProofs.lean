import Antic.PoolCallProofs
import Antic.PoolJobProofs

/-! # The worker pool runs every piece of work once

    `Inv` is what holds at every time, whatever the threads do.  A step is taken apart into the
    moves that the lemmas about calls and jobs know, and each move keeps `Inv`. -/

namespace AnticPool

open Interleaving LinkedLists List Function

section Invariant

variable {τ J O R : Type}

/-- The work of each thread. -/
def State.works (s : State τ J O R) (t : τ) : List (Work J) := AnticPool.works (s.frames t)

/-- Some thread has the work. -/
def State.has (s : State τ J O R) : Work J → Prop := Has s.works

/-- A function that waits without a wake. -/
def Frame.asleep : Frame J → Bool
  | .worker .asleep | .parallel _ .asleep | .join _ .asleep => true
  | _ => false

/-- No thread sleeps while its condition holds. -/
structure Sleeps (h : List (Event O R)) (s : State τ J O R) : Prop where
  ready : ∀ t rest, s.frames t = .worker .asleep :: rest →
    s.queued = none ∧ ∀ j, s.active = some j → (s.taken : Int) = j.chunks
  parallel : ∀ t j rest, s.frames t = .parallel j .asleep :: rest →
    s.finished < j.chunks
  join : ∀ t a rest, s.frames t = .join a .asleep :: rest →
    s.done a = false ∧ s.serial a ∈ jobStarts h
  /-- A function of the pool is called by the code of the program. -/
  under : ∀ t, ∀ g ∈ (s.frames t).tail, g.userCode = true

/-- What holds at every time. -/
structure Inv (h : List (Event O R)) (s : State τ J O R) : Prop where
  owned : Owned s.works
  calls : CallsOk h s s.has
  jobs : JobsOk h s s.has
  sleeps : Sleeps h s

variable {h evs : List (Event O R)} {s s' : State τ J O R}

/-! ## Wakes and starts leave the work where it is -/

theorem works_cons (f : Frame J) (rest : List (Frame J)) :
    works (f :: rest) = f.works ++ works rest := rfl

variable {stack rest : List (Frame J)} {cond : Condition (List (Frame J))}
  {frames : τ → List (Frame J)} {f g : Frame J} {t : τ} {j : Jobs} {index : Nat} {a : J}

theorem workReady_asleep (ha : workReady.asleep stack = true) :
    ∃ rest, stack = .worker .asleep :: rest := by
  rcases stack with _ | ⟨_ | ⟨_ | _ | _ | _ | _⟩ | _ | _, rest⟩ <;>
    first | exact ⟨rest, rfl⟩ | cases ha

theorem workDone_asleep (ha : workDone.asleep stack = true) :
    ∃ rest, (∃ j, stack = .parallel j .asleep :: rest) ∨
      ∃ a, stack = .join a .asleep :: rest := by
  rcases stack with _ | ⟨_ | _ | ⟨j, _ | _ | _ | _ | _⟩ | ⟨a, _ | _ | _ | _ | _⟩, rest⟩ <;>
    first | exact ⟨rest, Or.inl ⟨j, rfl⟩⟩ | exact ⟨rest, Or.inr ⟨a, rfl⟩⟩ | cases ha

theorem works_wake (hc : IsCondition cond) (ha : cond.asleep stack = true) :
    works (cond.wake stack) = works stack := by
  cases hc with
  | workReady =>
    obtain ⟨rest, rfl⟩ := workReady_asleep ha
    rfl
  | workDone =>
    obtain ⟨rest, ⟨j, rfl⟩ | ⟨a, rfl⟩⟩ := workDone_asleep ha
    · rfl
    · rfl

theorem works_wakeAll (hc : IsCondition cond) (frames : τ → List (Frame J)) (t : τ) :
    works (wakeAll cond frames t) = works (frames t) := by
  cases ha : cond.asleep (frames t) with
  | true => rw [wakeAll_of_asleep ha, works_wake hc ha]
  | false => rw [wakeAll_of_not_asleep ha]

/-- Who sleeps now slept before, in the same place, and what is new under the top is
    code of the program. -/
structure Quiet (frames frames' : τ → List (Frame J)) : Prop where
  asleep : ∀ t f rest, frames' t = f :: rest → f.asleep = true → frames t = f :: rest
  under : ∀ t, ∀ g ∈ (frames' t).tail, g ∈ (frames t).tail ∨ g.userCode = true

theorem Quiet.refl (frames : τ → List (Frame J)) : Quiet frames frames :=
  ⟨fun _ _ _ h _ => h, fun _ _ h => Or.inl h⟩

theorem Quiet.trans {frames₁ frames₂ : τ → List (Frame J)} (h₁ : Quiet frames frames₁)
    (h₂ : Quiet frames₁ frames₂) : Quiet frames frames₂ :=
  ⟨fun t f rest h ha => h₁.asleep t f rest (h₂.asleep t f rest h ha) ha,
    fun t g hg => (h₂.under t g hg).elim (h₁.under t g) Or.inr⟩

theorem asleep_of_userCode (h : f.userCode = true) : f.asleep = false := by
  rcases f with _ | ⟨_ | _ | _ | _ | _⟩ | ⟨_, _ | _ | _ | _ | _⟩ | ⟨_, _ | _ | _ | _ | _⟩ <;>
    first | rfl | cases h

/-- A thread that is woken does not sleep, and the wake is all that changes. -/
theorem quiet_wake (hc : IsCondition cond) (ha : cond.asleep stack = true) :
    (cond.wake stack).tail = stack.tail ∧
      ∀ f rest, cond.wake stack = f :: rest → f.asleep = false := by
  cases hc with
  | workReady =>
    obtain ⟨rest, rfl⟩ := workReady_asleep ha
    refine ⟨rfl, fun f rest' hf => ?_⟩
    cases hf
    rfl
  | workDone =>
    obtain ⟨rest, ⟨j, rfl⟩ | ⟨a, rfl⟩⟩ := workDone_asleep ha
    · refine ⟨rfl, fun f rest' hf => ?_⟩
      cases hf
      rfl
    · refine ⟨rfl, fun f rest' hf => ?_⟩
      cases hf
      rfl

theorem quiet_wakeAll (hc : IsCondition cond) (frames : τ → List (Frame J)) :
    Quiet frames (wakeAll cond frames) := by
  constructor
  · intro t f rest hf hfa
    cases ha : cond.asleep (frames t) with
    | true =>
      rw [wakeAll_of_asleep ha] at hf
      rw [(quiet_wake hc ha).2 f rest hf] at hfa
      cases hfa
    | false => rwa [wakeAll_of_not_asleep ha] at hf
  · intro t g hg
    cases ha : cond.asleep (frames t) with
    | true =>
      rw [wakeAll_of_asleep ha, (quiet_wake hc ha).1] at hg
      exact Or.inl hg
    | false =>
      rw [wakeAll_of_not_asleep ha] at hg
      exact Or.inl hg

/-- What keeps the sleepers asleep for a reason. -/
structure SameSleep (s s' : State τ J O R) : Prop where
  queued : s'.queued = s.queued
  active : s'.active = s.active
  taken : s'.taken = s.taken
  finished : s'.finished = s.finished
  done : s'.done = s.done
  serial : s'.serial = s.serial

theorem mem_jobStarts_append {n : Nat} (hn : n ∈ jobStarts h) : n ∈ jobStarts (h ++ evs) := by
  rw [jobStarts_append]
  exact mem_append_left _ hn

theorem Sleeps.step (hs : Sleeps h s) (hq : Quiet s.frames s'.frames)
    (hready : ∀ t rest, s.frames t = .worker .asleep :: rest →
      s'.queued = none ∧ ∀ j, s'.active = some j → (s'.taken : Int) = j.chunks)
    (hparallel : ∀ t j rest, s.frames t = .parallel j .asleep :: rest → s'.finished < j.chunks)
    (hdone : s'.done = s.done) (hserial : s'.serial = s.serial) : Sleeps (h ++ evs) s' := by
  refine ⟨fun t rest ht => hready t rest (hq.asleep t _ rest ht rfl),
    fun t j rest ht => hparallel t j rest (hq.asleep t _ rest ht rfl),
    fun t a rest ht => ?_, fun t g hg => (hq.under t g hg).elim (hs.under t g) id⟩
  rw [hdone, hserial]
  obtain ⟨hd, hn⟩ := hs.join t a rest (hq.asleep t _ rest ht rfl)
  exact ⟨hd, mem_jobStarts_append hn⟩

theorem Sleeps.same (hs : Sleeps h s) (hq : Quiet s.frames s'.frames)
    (hsame : SameSleep s s' := by constructor <;> rfl) : Sleeps (h ++ evs) s' := by
  refine hs.step hq ?_ ?_ hsame.done hsame.serial
  · rw [hsame.queued, hsame.active, hsame.taken]
    exact hs.ready
  · rw [hsame.finished]
    exact hs.parallel

theorem Sleeps.wakeDone (hs : Sleeps h s) (hq : Quiet (wakeAll workDone s.frames) s'.frames)
    (hqueued : s'.queued = s.queued) (hactive : s'.active = s.active)
    (htaken : s'.taken = s.taken) : Sleeps (h ++ evs) s' := by
  have hq₂ := (quiet_wakeAll .workDone s.frames).trans hq
  have hawake : ∀ {t f rest}, s'.frames t = f :: rest → f.asleep = true →
      workDone.asleep (f :: rest) = true → False := by
    intro t f rest ht ha hd
    have hn : workDone.asleep (wakeAll workDone s.frames t) = false := not_asleep_wakeAll t
    rw [hq.asleep t f rest ht ha, hd] at hn
    cases hn
  refine ⟨fun t rest ht => ?_, fun t j rest ht => (hawake ht rfl rfl).elim,
    fun t a rest ht => (hawake ht rfl rfl).elim,
    fun t g hg => (hq₂.under t g hg).elim (hs.under t g) id⟩
  rw [hqueued, hactive, htaken]
  exact hs.ready t rest (hq₂.asleep t _ rest ht rfl)

theorem Sleeps.wakeReady (hs : Sleeps h s)
    (hq : Quiet (wakeAll workReady s.frames) s'.frames)
    (hparallel : ∀ t j rest, s.frames t = .parallel j .asleep :: rest →
      s'.finished < j.chunks)
    (hjoin : ∀ t a rest, s.frames t = .join a .asleep :: rest →
      s'.done a = false ∧ s'.serial a ∈ jobStarts (h ++ evs)) : Sleeps (h ++ evs) s' := by
  have hq₂ := (quiet_wakeAll .workReady s.frames).trans hq
  refine ⟨fun t rest ht => ?_, fun t j rest ht => hparallel t j rest (hq₂.asleep t _ rest ht rfl),
    fun t a rest ht => hjoin t a rest (hq₂.asleep t _ rest ht rfl),
    fun t g hg => (hq₂.under t g hg).elim (hs.under t g) id⟩
  have hn : workReady.asleep (wakeAll workReady s.frames t) = false := not_asleep_wakeAll t
  rw [hq.asleep t _ rest ht rfl] at hn
  cases hn

variable [DecidableEq τ]

theorem quiet_update (hstack : ∀ f rest, stack = f :: rest → f.asleep = false)
    (hunder : ∀ g ∈ stack.tail, g ∈ (frames t).tail ∨ g.userCode = true) :
    Quiet frames (update frames t stack) := by
  constructor
  · intro u f rest hu ha
    by_cases hut : u = t
    · subst hut
      rw [update_self] at hu
      rw [hstack f rest hu] at ha
      cases ha
    · rwa [update_of_ne hut] at hu
  · intro u g hg
    by_cases hut : u = t
    · subst hut
      rw [update_self] at hg
      exact hunder g hg
    · rw [update_of_ne hut] at hg
      exact Or.inl hg

theorem quiet_top (ht : frames t = f :: rest) (hg : g.asleep = false) :
    Quiet frames (update frames t (g :: rest)) := by
  refine quiet_update (fun f rest' heq => ?_) fun k hk => Or.inl ?_
  · cases heq
    exact hg
  · rw [ht]
    exact hk

theorem quiet_push (ht : frames t = f :: rest) (hf : f.userCode = true)
    (hg : g.asleep = false) : Quiet frames (update frames t (g :: f :: rest)) := by
  refine quiet_update (fun f rest' heq => ?_) fun k hk => ?_
  · cases heq
    exact hg
  · rcases mem_cons.1 hk with rfl | hk
    · exact Or.inr hf
    · refine Or.inl ?_
      rw [ht]
      exact hk

theorem Sleeps.quiet_pop (hs : Sleeps h s) (ht : s.frames t = f :: rest) :
    Quiet s.frames (update s.frames t rest) := by
  refine quiet_update (fun g rest' heq => asleep_of_userCode (hs.under t g ?_))
    fun k hk => Or.inl ?_
  · rw [ht, heq]
    exact mem_cons_self ..
  · rw [ht]
    exact mem_of_mem_tail hk

theorem trades_goto {old new rest : List (Work J)} (hold : works (s.frames t) = old ++ rest)
    (hnew : works stack = new ++ rest)
    (hframes : ∀ u, works (s'.frames u) = works (s.frames u)) :
    Trades s.works (s'.goto t stack).works old new := by
  refine ⟨t, rest, hold, ?_, fun u hu => ?_⟩
  · show works (update s'.frames t stack t) = _
    rw [update_self, hnew]
  · show works (update s'.frames t stack u) = _
    rw [update_of_ne hu]
    exact hframes u

/-! ## Moves that are about no call and no job -/

omit [DecidableEq τ] in
theorem Inv.idle (hi : Inv h s) (t : τ) (hevs : ∀ ev ∈ evs, ev.call = none ∧ ev.aboutJob = false)
    (hcalls : s'.calls = s.calls) (hjobs : SameJobs s s') (hactive : s'.active = s.active)
    (htaken : s'.taken = s.taken) (hfinished : s'.finished = s.finished)
    (hworks : ∀ u, works (s'.frames u) = works (s.frames u))
    (hsleeps : Sleeps (h ++ evs) s') : Inv (h ++ evs) s' := by
  have htrades : Trades s.works s'.works [] [] := Trades.of_eq t hworks
  have hhas : ∀ z, s'.has z ↔ s.has z := by
    intro z
    rw [State.has, hi.owned.has_iff htrades]
    simp [State.has]
  exact ⟨hi.owned.trade htrades nodup_nil (by rintro y ⟨⟩),
    hi.calls.frame (fun ev hev => (hevs ev hev).1) hactive htaken hfinished hcalls
      (fun z _ => hhas z) (fun j i => hhas _),
    hi.jobs.frame (fun ev hev => (hevs ev hev).2) hjobs (fun z _ => hhas z), hsleeps⟩

omit [DecidableEq τ] in
theorem Inv.startLocked (hi : Inv h s) (t : τ) (hs : StartLocked s s') : Inv h s' := by
  cases hs with
  | running _ => exact hi
  | start frames _ hframes =>
    have hworks : ∀ u, works (frames u) = works (s.frames u) := by
      intro u
      rcases hframes u with hu | ⟨hu, hu'⟩
      · rw [hu]
      · rw [hu, hu']
        rfl
    have hquiet : Quiet s.frames frames := by
      constructor
      · intro u f rest hu ha
        rcases hframes u with hu' | ⟨_, hu'⟩
        · rw [← hu']
          exact hu
        · rw [hu'] at hu
          cases hu
          cases ha
      · intro u g hg
        rcases hframes u with hu' | ⟨_, hu'⟩
        · rw [hu'] at hg
          exact Or.inl hg
        · rw [hu'] at hg
          exact nomatch hg
    rw [← append_nil h]
    exact hi.idle t (fun _ h => nomatch h) rfl
      ⟨rfl, rfl, rfl, rfl, rfl, rfl, rfl, rfl, rfl, rfl, rfl⟩ rfl rfl rfl hworks
      (hi.sleeps.same hquiet)

/-! ## The moves of a call -/

omit [DecidableEq τ] in
theorem Inv.jobs_trade (hi : Inv h s) {old new : List (Work J)}
    (htrades : Trades s.works s'.works old new)
    (hold : ∀ z ∈ old, z.aboutJob = false := by simp [Work.aboutJob])
    (hnew : ∀ z ∈ new, z.aboutJob = false := by simp [Work.aboutJob])
    (hevs : ∀ ev ∈ evs, ev.aboutJob = false := by simp [Event.aboutJob, chunkStart])
    (hsame : SameJobs s s' := by constructor <;> rfl) : JobsOk (h ++ evs) s' s'.has := by
  refine hi.jobs.frame hevs hsame fun z hz => (hi.owned.has_iff htrades z).trans ?_
  have hne : z ∉ old ∧ z ∉ new := by
    constructor <;> intro hmem
    · exact absurd hz (by simp [hold z hmem])
    · exact absurd hz (by simp [hnew z hmem])
  simp [hne, State.has]

omit [DecidableEq τ] in
theorem SameJobs.goto [DecidableEq τ] (t : τ) (stack : List (Frame J))
    (hs : SameJobs s s') : SameJobs s (s'.goto t stack) :=
  ⟨hs.queued, hs.queuedLast, hs.inFlight, hs.next, hs.live, hs.done, hs.object, hs.result,
    hs.allocated, hs.serial, hs.dispatches⟩

theorem Inv.call (hi : Inv h s) (ht : s.frames t = f :: rest) (hf : f.userCode = true)
    (hid : j.id = s.calls) (hfits : Fits j.count j.chunks) :
    Inv (h ++ [.called j]) (({ s with calls := s.calls + 1 }).goto t
      (.parallel j .enter :: f :: rest)) := by
  have htrades : Trades s.works (({ s with calls := s.calls + 1 }).goto t
      (.parallel j .enter :: f :: rest)).works [] [.entering j] :=
    trades_goto (by rw [ht]; rfl : _ = [] ++ works (f :: rest)) rfl fun _ => rfl
  have hhas := hi.owned.has_iff htrades
  have hfresh : ¬ s.has (.entering j) := by
    intro hx
    have := hi.calls.fresh _ (hi.calls.standing _ j hx rfl).1 j.id rfl
    omega
  refine ⟨hi.owned.trade htrades (nodup_singleton _) fun x hx => ?_, ?_, ?_, ?_⟩
  · rw [mem_singleton.1 hx]
    exact Or.inr hfresh
  · refine hi.calls.call hid hfits rfl rfl rfl rfl fun z => (hhas z).trans ?_
    simp [State.has]
  · exact hi.jobs_trade htrades
  · exact hi.sleeps.same (quiet_push ht hf rfl)

omit [DecidableEq τ] in
theorem Inv.callNone (hi : Inv h s) {count : Int} (hcount : Fits count 0) :
    Inv (h ++ [.called ⟨s.calls, count, 0⟩, .returned s.calls])
      { s with calls := s.calls + 1 } := by
  have hfresh : ¬ s.has (.entering ⟨s.calls, count, 0⟩) := by
    intro hx
    have := hi.calls.fresh _ (hi.calls.standing _ _ hx rfl).1 s.calls rfl
    omega
  have hhas : ∀ z, z.jobs ≠ none → (s.has z ↔ (z = .entering ⟨s.calls, count, 0⟩ ∨ s.has z) ∧
      z ≠ .entering ⟨s.calls, count, 0⟩) := by
    intro z _
    constructor
    · intro hz
      refine ⟨Or.inr hz, ?_⟩
      rintro rfl
      exact hfresh hz
    · exact fun ⟨hz, hne⟩ => hz.resolve_left hne
  -- the call enters and returns
  have hcall : CallsOk (h ++ [.called ⟨s.calls, count, 0⟩]) { s with calls := s.calls + 1 }
      fun z => z = .entering ⟨s.calls, count, 0⟩ ∨ s.has z :=
    hi.calls.call rfl hcount rfl rfl rfl rfl fun z => Iff.rfl
  have hstand := (hcall.standing (.entering ⟨s.calls, count, 0⟩) _ (Or.inl rfl) rfl).2.2
  have hnil : ∀ ev ∈ ([] : List (Event O R)), ∃ i, ev = .chunkEnd s.calls i :=
    fun _ h => nomatch h
  have hret := (hcall.inline { s with calls := s.calls + 1 } (Or.inl rfl) rfl
    (fun h => nomatch h) hnil ((append_nil _).symm ▸ hstand.1 : _ = List.range 0)
    ((append_nil _).symm ▸ hstand.2) (Or.inl rfl) rfl rfl rfl rfl
    (fun j i => by simp)).2 (Int.lt_irrefl 0) hhas
  rw [append_assoc] at hret
  refine ⟨hi.owned, hret, ?_, ?_⟩
  · refine hi.jobs.frame (fun ev hev => ?_)
      ⟨rfl, rfl, rfl, rfl, rfl, rfl, rfl, rfl, rfl, rfl, rfl⟩ fun z _ => Iff.rfl
    rcases mem_cons.1 hev with rfl | hev
    · rfl
    · rw [mem_singleton.1 hev]
      rfl
  · exact hi.sleeps.same (Quiet.refl _)

theorem Inv.inlineFrom (hi : Inv h s) {at_ : ParallelAt}
    (ht : s.frames t = .parallel j at_ :: rest) {x : Work J}
    (hat : Frame.works (.parallel j at_) = [x]) (hxj : x.jobs = some j) (hxp : x ≠ .pool j)
    (pre : List (Event O R)) (hpre : ∀ ev ∈ pre, ∃ i, ev = .chunkEnd j.id i)
    (hstarts : startsOf j.id (h ++ pre) = List.range index)
    (hends : endsOf j.id (h ++ pre) = List.range index)
    (hindex : index = 0 ∨ index ≤ j.chunks) :
    Inv (h ++ (pre ++ (inlineFrom s t j index rest).2)) (inlineFrom s t j index rest).1 := by
  have hx : s.has x := by
    refine ⟨t, ?_⟩
    show x ∈ works (s.frames t)
    rw [ht, works_cons, hat]
    exact mem_cons_self ..
  have hold : works (s.frames t) = [x] ++ works rest := by rw [ht, works_cons, hat]
  have hchunkx : ∀ j' i, (.chunk j' i : Work J) ≠ x := by
    rintro j' i rfl
    cases hxj
  have hjobx : ∀ z ∈ [x], z.aboutJob = false := by
    intro z hz
    rw [mem_singleton.1 hz]
    cases x <;> simp_all [Work.aboutJob, Work.jobs]
  have hevs : ∀ {last : Event O R}, last.aboutJob = false →
      ∀ ev ∈ pre ++ [last], ev.aboutJob = false := by
    intro last hlast ev hev
    rcases mem_append.1 hev with hev | hev
    · obtain ⟨i, rfl⟩ := hpre ev hev
      rfl
    · rw [mem_singleton.1 hev]
      exact hlast
  unfold AnticPool.inlineFrom
  by_cases hlt : (index : Int) < j.chunks
  · rw [if_pos hlt]
    have htrades : Trades s.works (s.goto t (.parallel j (.inline index) :: rest)).works
        [x] [.inline j index] := trades_goto hold rfl fun _ => rfl
    have hhas := hi.owned.has_iff htrades
    refine ⟨hi.owned.trade htrades (nodup_singleton _) fun y hy => ?_, ?_, ?_, ?_⟩
    · rw [mem_singleton.1 hy]
      by_cases heq : (.inline j index : Work J) = x
      · exact Or.inl (mem_singleton.2 heq)
      · exact Or.inr fun hy => heq (hi.calls.single _ _ _ _ hy hx rfl hxj rfl)
    · refine (hi.calls.inline (s.goto t (.parallel j (.inline index) :: rest)) hx hxj hxp
        hpre hstarts hends hindex rfl rfl rfl rfl fun j' i => (hhas _).trans ?_).1 hlt
        fun z _ => (hhas z).trans ?_
      · simp [hchunkx, State.has]
      · simp [State.has]
    · exact hi.jobs_trade htrades hjobx (by simp [Work.aboutJob]) (hevs rfl)
    · exact hi.sleeps.same (quiet_top ht rfl)
  · rw [if_neg hlt]
    have htrades : Trades s.works (s.goto t rest).works [x] [] :=
      trades_goto hold rfl fun _ => rfl
    have hhas := hi.owned.has_iff htrades
    refine ⟨hi.owned.trade htrades nodup_nil (by rintro y ⟨⟩), ?_, ?_, ?_⟩
    · refine (hi.calls.inline (s.goto t rest) hx hxj hxp hpre hstarts hends hindex rfl rfl
        rfl rfl fun j' i => (hhas _).trans ?_).2 hlt fun z _ => (hhas z).trans ?_
      · simp [hchunkx, State.has]
      · simp [State.has]
    · exact hi.jobs_trade htrades hjobx (by simp [Work.aboutJob]) (hevs rfl)
    · exact hi.sleeps.same (hi.sleeps.quiet_pop ht)

/-! ## The moves of the call that uses the pool -/

omit [DecidableEq τ] in
theorem has_of_top (ht : s.frames t = f :: rest) {x : Work J} (hx : x ∈ f.works) :
    s.has x := by
  refine ⟨t, ?_⟩
  show x ∈ works (s.frames t)
  rw [ht, works_cons]
  exact mem_append_left _ hx

omit [DecidableEq τ] in
theorem works_top (ht : s.frames t = f :: rest) :
    works (s.frames t) = f.works ++ works rest := by
  rw [ht]
  rfl

omit [DecidableEq τ] in
theorem Inv.pool_thread (hi : Inv h s) {u : τ} {j' : Jobs} {at_ at' : ParallelAt}
    {rest' : List (Frame J)} (ht : s.frames t = .parallel j at_ :: rest)
    (hj : .pool j ∈ Frame.works (.parallel j at_ : Frame J))
    (hu : s.frames u = .parallel j' at' :: rest')
    (hj' : .pool j' ∈ Frame.works (.parallel j' at' : Frame J)) : u = t := by
  have h1 := (hi.calls.standing _ j (has_of_top ht hj) rfl).2.2.1
  have h2 := (hi.calls.standing _ j' (has_of_top hu hj') rfl).2.2.1
  rw [h1] at h2
  cases h2
  refine hi.owned.apart (x := .pool j) ?_ ?_
  · show _ ∈ works (s.frames u)
    rw [works_top hu]
    exact mem_append_left _ hj'
  · show _ ∈ works (s.frames t)
    rw [works_top ht]
    exact mem_append_left _ hj

theorem Inv.sleep (hi : Inv h s) (ht : s.frames t = f :: rest) (hworks : g.works = f.works)
    (hready : g = .worker .asleep →
      s.queued = none ∧ ∀ j, s.active = some j → (s.taken : Int) = j.chunks)
    (hparallel : ∀ j, g = .parallel j .asleep → s.finished < j.chunks)
    (hjoin : ∀ a, g = .join a .asleep → s.done a = false ∧ s.serial a ∈ jobStarts h) :
    Inv (h ++ []) (s.goto t (g :: rest)) := by
  have hself : ∀ {k rest'}, (s.goto t (g :: rest)).frames t = k :: rest' → k = g := by
    intro k rest' hk
    have hk : update s.frames t (g :: rest) t = k :: rest' := hk
    rw [update_self] at hk
    cases hk
    rfl
  have hother : ∀ {u}, u ≠ t → (s.goto t (g :: rest)).frames u = s.frames u :=
    fun hu => update_of_ne hu _ _
  refine hi.idle t (fun _ h => nomatch h) rfl (SameJobs.goto t _ (SameJobs.refl s)) rfl
    rfl rfl (fun u => ?_) ⟨fun u rest' hu => ?_, fun u j rest' hu => ?_,
    fun u a rest' hu => ?_, fun u k hk => ?_⟩
  · by_cases hut : u = t
    · subst hut
      show works (update s.frames u _ u) = _
      rw [update_self, ht, works_cons, works_cons, hworks]
    · rw [hother hut]
  · by_cases hut : u = t
    · subst hut
      exact hready (hself hu).symm
    · exact hi.sleeps.ready u rest' ((hother hut).symm.trans hu)
  · by_cases hut : u = t
    · subst hut
      exact hparallel j (hself hu).symm
    · exact hi.sleeps.parallel u j rest' ((hother hut).symm.trans hu)
  · rw [append_nil]
    by_cases hut : u = t
    · subst hut
      exact hjoin a (hself hu).symm
    · exact hi.sleeps.join u a rest' ((hother hut).symm.trans hu)
  · by_cases hut : u = t
    · subst hut
      have hk : k ∈ (update s.frames u (g :: rest) u).tail := hk
      rw [update_self] at hk
      refine hi.sleeps.under u k ?_
      rw [ht]
      exact hk
    · rw [hother hut] at hk
      exact hi.sleeps.under u k hk

theorem Inv.waitDone (hi : Inv h s) (ht : s.frames t = .parallel j .woken :: rest) :
    Inv (h ++ (waitDone s t j rest).2) (waitDone s t j rest).1 := by
  have hx : s.has (.pool j) := has_of_top ht (mem_singleton.2 rfl)
  unfold AnticPool.waitDone
  split
  · next hlt =>
      refine hi.sleep ht rfl (fun h => nomatch h) (fun j' hj' => ?_) fun a h => nomatch h
      cases hj'
      exact hlt
  · next hge =>
      have htrades : Trades s.works (({ s with active := none }).goto t rest).works
          [.pool j] [] := trades_goto (works_top ht) rfl fun _ => rfl
      have hhas := hi.owned.has_iff htrades
      refine ⟨hi.owned.trade htrades nodup_nil (by rintro y ⟨⟩), ?_, ?_, ?_⟩
      · refine hi.calls.finish hx hge rfl rfl fun z => (hhas z).trans ?_
        simp [State.has]
      · exact hi.jobs_trade htrades
      · refine hi.sleeps.step (hi.sleeps.quiet_pop ht) (fun u rest' hu => ?_)
          hi.sleeps.parallel rfl rfl
        exact ⟨(hi.sleeps.ready u rest' hu).1, fun j' hj' => nomatch hj'⟩

/-- A call takes a chunk, or looks whether its chunks have ended. -/
theorem Inv.takeChunk (hi : Inv h s) (ht : s.frames t = .parallel j .woken :: rest) :
    Inv (h ++ (takeChunk s t j rest).2) (takeChunk s t j rest).1 := by
  have hx : s.has (.pool j) := has_of_top ht (mem_singleton.2 rfl)
  unfold AnticPool.takeChunk
  split
  · next hlt =>
      have htrades : Trades s.works (({ s with taken := s.taken + 1 }).goto t
          (.parallel j (.chunk s.taken) :: rest)).works [.pool j]
          [.pool j, .chunk j s.taken] := trades_goto (works_top ht) rfl fun _ => rfl
      have hhas := hi.owned.has_iff htrades
      have hfresh : ¬ s.has (.chunk j s.taken) :=
        fun h => Nat.lt_irrefl _ (hi.calls.chunk j _ h).2.1
      have hactive := (hi.calls.standing _ j hx rfl).2.2.1
      refine ⟨hi.owned.trade htrades (by simp) fun y hy => ?_, ?_, ?_, ?_⟩
      · rcases mem_cons.1 hy with rfl | hy
        · exact Or.inl (mem_singleton.2 rfl)
        · rw [mem_singleton.1 hy]
          exact Or.inr hfresh
      · refine hi.calls.takeChunk hx hlt rfl rfl rfl rfl fun z => (hhas z).trans ?_
        by_cases hz : z = .pool j
        · subst hz
          simp [hx]
        · simp [hz, State.has]
      · exact hi.jobs_trade htrades
      · refine hi.sleeps.step (quiet_top ht rfl) (fun u rest' hu => ?_) hi.sleeps.parallel rfl rfl
        -- a worker that sleeps has seen every chunk taken
        have := (hi.sleeps.ready u rest' hu).2 j hactive
        omega
  · exact hi.waitDone ht

theorem takeChunk_goto (s : State τ J O R) (t : τ) (j : Jobs) (stack rest : List (Frame J)) :
    takeChunk (s.goto t stack) t j rest = takeChunk s t j rest := by
  unfold takeChunk waitDone
  simp [State.goto]

theorem Inv.activate (hi : Inv h s) (ht : s.frames t = .parallel j .enter :: rest)
    (hpos : 0 < j.chunks) (hfree : s.active = none) :
    Inv (h ++ []) ((AnticPool.activate s j).goto t (.parallel j .woken :: rest)) := by
  have hx : s.has (.entering j) := has_of_top ht (mem_singleton.2 rfl)
  have hworks : ∀ u, works ((AnticPool.activate s j).frames u) = works (s.frames u) :=
    works_wakeAll .workReady s.frames
  have htrades : Trades s.works ((AnticPool.activate s j).goto t (.parallel j .woken :: rest)).works
      [.entering j] [.pool j] := trades_goto (works_top ht) rfl hworks
  have hhas := hi.owned.has_iff htrades
  have hnopool : ∀ j', ¬ s.has (.pool j') := by
    intro j' hp
    have := (hi.calls.standing _ j' hp rfl).2.2.1
    rw [hfree] at this
    cases this
  refine ⟨hi.owned.trade htrades (nodup_singleton _) fun y hy => ?_, ?_, ?_, ?_⟩
  · rw [mem_singleton.1 hy]
    exact Or.inr (hnopool j)
  · rw [append_nil]
    refine hi.calls.activate hx hpos hfree rfl rfl rfl rfl fun z => (hhas z).trans ?_
    simp [State.has]
  · exact hi.jobs_trade htrades
  · have hawake : wakeAll workReady s.frames t = .parallel j .enter :: rest := by
      rw [wakeAll_of_not_asleep (by rw [ht]; rfl), ht]
    have hq₁ : Quiet (wakeAll workReady s.frames) (update
        (wakeAll workReady s.frames) t (.parallel j .woken :: rest)) := quiet_top hawake rfl
    refine hi.sleeps.wakeReady hq₁ (fun u j' rest' hu => ?_) fun u a rest' hu => ?_
    · exact absurd (has_of_top hu (mem_singleton.2 rfl)) (hnopool j')
    · rw [append_nil]
      exact hi.sleeps.join u a rest' hu

theorem Inv.chunkEnd (hi : Inv h s) (ht : s.frames t = .parallel j (.chunk index) :: rest) :
    Inv (h ++ [.chunkEnd j.id index]) (({ s with finished := s.finished + 1 }).goto t
      (.parallel j .woken :: rest)) := by
  have hx : s.has (.chunk j index) := has_of_top ht (by simp [Frame.works])
  have hp : s.has (.pool j) := has_of_top ht (by simp [Frame.works])
  have htrades : Trades s.works (({ s with finished := s.finished + 1 }).goto t
      (.parallel j .woken :: rest)).works [.pool j, .chunk j index] [.pool j] :=
    trades_goto (works_top ht) rfl fun _ => rfl
  have hhas := hi.owned.has_iff htrades
  refine ⟨hi.owned.trade htrades (nodup_singleton _) fun y hy => ?_, ?_, ?_, ?_⟩
  · rw [mem_singleton.1 hy]
    exact Or.inl (mem_cons_self ..)
  · refine hi.calls.endChunk hx rfl rfl rfl rfl fun z => (hhas z).trans ?_
    by_cases hz : z = .pool j
    · subst hz
      simp [hp]
    · simp [hz, State.has]
  · exact hi.jobs_trade htrades
  · refine hi.sleeps.step (quiet_top ht rfl) hi.sleeps.ready (fun u j' rest' hu => ?_) rfl rfl
    -- the caller itself is the one call that uses the pool
    have hut := hi.pool_thread ht (by simp [Frame.works]) hu (mem_singleton.2 rfl)
    rw [hut, ht] at hu
    cases hu

theorem Inv.workerChunkEnd (hi : Inv h s)
    (ht : s.frames t = .worker (.chunk j index) :: rest) :
    Inv (h ++ [.chunkEnd j.id index])
      (({ s with finished := s.finished + 1
                 frames := wakeAll workDone s.frames }).goto t (.worker .look :: rest)) := by
  have hx : s.has (.chunk j index) := has_of_top ht (mem_singleton.2 rfl)
  have htrades : Trades s.works (({ s with finished := s.finished + 1
                                           frames := wakeAll workDone s.frames }).goto t
      (.worker .look :: rest)).works [.chunk j index] [] :=
    trades_goto (works_top ht) rfl (works_wakeAll .workDone s.frames)
  have hhas := hi.owned.has_iff htrades
  refine ⟨hi.owned.trade htrades nodup_nil (by rintro y ⟨⟩), ?_, ?_, ?_⟩
  · refine hi.calls.endChunk hx rfl rfl rfl rfl fun z => (hhas z).trans ?_
    simp [State.has]
  · exact hi.jobs_trade htrades
  · refine hi.sleeps.wakeDone (quiet_top (f := .worker (.chunk j index)) ?_ rfl) rfl rfl rfl
    rw [wakeAll_of_not_asleep (by rw [ht]; rfl), ht]

/-- A call of a negative number of chunks takes the pool and gives it back. -/
theorem Inv.activateNone (hi : Inv h s) (ht : s.frames t = .parallel j .enter :: rest)
    (hnone : ¬ 0 < j.chunks) (hfree : s.active = none) :
    Inv (h ++ [.returned j.id]) (({ AnticPool.activate s j with active := none }).goto t rest) := by
  have hx : s.has (.entering j) := has_of_top ht (mem_singleton.2 rfl)
  obtain ⟨_, _, hstarts, hends⟩ := hi.calls.standing _ j hx rfl
  have htrades : Trades s.works (({ AnticPool.activate s j with active := none }).goto t
      rest).works [.entering j] [] :=
    trades_goto (works_top ht) rfl (works_wakeAll .workReady s.frames)
  have hhas := hi.owned.has_iff htrades
  refine ⟨hi.owned.trade htrades nodup_nil (by rintro y ⟨⟩), ?_, ?_, ?_⟩
  · have hret : CallsOk (h ++ ([] ++ [.returned j.id])) s
        (Has (({ AnticPool.activate s j with active := none }).goto t rest).works) := by
      have hnil : ∀ ev ∈ ([] : List (Event O R)), ∃ i, ev = .chunkEnd j.id i :=
        fun _ h => nomatch h
      refine (hi.calls.inline s hx rfl (fun h => nomatch h) hnil ?_ ?_ (Or.inl rfl)
        rfl rfl rfl rfl fun j' i => (hhas _).trans ?_).2 ?_ fun z _ => (hhas z).trans ?_
      · rw [append_nil, hstarts]
        rfl
      · rw [append_nil, hends]
        rfl
      · simp [State.has]
      · exact hnone
      · simp [State.has]
    exact hret.recount hfree rfl rfl
  · exact hi.jobs_trade htrades
  · have hawake : wakeAll workReady s.frames t = .parallel j .enter :: rest := by
      rw [wakeAll_of_not_asleep (by rw [ht]; rfl), ht]
    refine hi.sleeps.wakeReady (quiet_update (fun f rest' heq => ?_) fun g hg => Or.inl ?_)
      (fun u j' rest' hu => ?_) fun u a rest' hu => ?_
    · refine asleep_of_userCode (hi.sleeps.under t f ?_)
      rw [ht, heq]
      exact mem_cons_self ..
    · rw [hawake]
      exact mem_of_mem_tail hg
    · have := (hi.calls.standing _ j' (has_of_top hu (mem_singleton.2 rfl)) rfl).2.2.1
      rw [hfree] at this
      cases this
    · obtain ⟨h1, h2⟩ := hi.sleeps.join u a rest' hu
      exact ⟨h1, mem_jobStarts_append h2⟩

theorem Inv.enterPool (hi : Inv h s) (ht : s.frames t = .parallel j .enter :: rest)
    (hfree : s.active = none) :
    Inv (h ++ (AnticPool.takeChunk (AnticPool.activate s j) t j rest).2)
      (AnticPool.takeChunk (AnticPool.activate s j) t j rest).1 := by
  by_cases hpos : 0 < j.chunks
  · rw [← takeChunk_goto _ t j (.parallel j .woken :: rest)]
    have hact := hi.activate ht hpos hfree
    rw [append_nil] at hact
    exact hact.takeChunk (update_self ..)
  · have heq : AnticPool.takeChunk (AnticPool.activate s j) t j rest =
        (({ AnticPool.activate s j with active := none }).goto t rest, [.returned j.id]) := by
      have htaken : ¬ ((AnticPool.activate s j).taken : Int) < j.chunks := by
        simpa [AnticPool.activate] using hpos
      have hfinished : ¬ ((AnticPool.activate s j).finished : Int) < j.chunks := by
        simpa [AnticPool.activate] using hpos
      rw [AnticPool.takeChunk, if_neg htaken, AnticPool.waitDone, if_neg hfinished]
    rw [heq]
    exact hi.activateNone ht hpos hfree

theorem Inv.chunkEnd_takeChunk (hi : Inv h s)
    (ht : s.frames t = .parallel j (.chunk index) :: rest) :
    Inv (h ++ (.chunkEnd j.id index ::
        (AnticPool.takeChunk { s with finished := s.finished + 1 } t j rest).2))
      (AnticPool.takeChunk { s with finished := s.finished + 1 } t j rest).1 := by
  have hend := hi.chunkEnd ht
  have hnext := hend.takeChunk (update_self ..)
  rw [takeChunk_goto, append_assoc] at hnext
  exact hnext

theorem Inv.workerChunk (hi : Inv h s) {w : WorkerAt J}
    (ht : s.frames t = .worker w :: rest) (hw : Frame.works (.worker w) = [])
    (hactive : s.active = some j) (hne : (s.taken : Int) ≠ j.chunks) :
    Inv (h ++ [chunkStart j s.taken]) (({ s with taken := s.taken + 1 }).goto t
      (.worker (.chunk j s.taken) :: rest)) := by
  have hx : s.has (.pool j) := hi.calls.active j hactive
  have hle := (hi.calls.standing _ j hx rfl).2.2.2.2.1.2
  have htrades : Trades s.works (({ s with taken := s.taken + 1 }).goto t
      (.worker (.chunk j s.taken) :: rest)).works [] [.chunk j s.taken] :=
    trades_goto (by rw [works_top ht, hw] : _ = [] ++ works rest) rfl fun _ => rfl
  have hhas := hi.owned.has_iff htrades
  have hfresh : ¬ s.has (.chunk j s.taken) :=
    fun h => Nat.lt_irrefl _ (hi.calls.chunk j _ h).2.1
  refine ⟨hi.owned.trade htrades (nodup_singleton _) fun y hy => ?_, ?_, ?_, ?_⟩
  · rw [mem_singleton.1 hy]
    exact Or.inr hfresh
  · refine hi.calls.takeChunk hx (by omega) rfl rfl rfl rfl fun z => (hhas z).trans ?_
    simp [State.has]
  · exact hi.jobs_trade htrades
  · refine hi.sleeps.step (quiet_top ht rfl) (fun u rest' hu => ?_) hi.sleeps.parallel rfl rfl
    exact absurd ((hi.sleeps.ready u rest' hu).2 j hactive) hne

/-! ## The moves of a job -/

omit [DecidableEq τ] in
theorem has_eq_of_works (hworks : ∀ u, works (s'.frames u) = works (s.frames u)) :
    s'.has = s.has := by
  have : s'.works = s.works := funext hworks
  rw [State.has, this, State.has]

variable [DecidableEq J]

omit [DecidableEq τ] in
theorem Inv.dispatch [DecidableEq O] (hi : Inv h s) (t : τ) (object : O) (r : R)
    (hfree : s.allocated a = false) :
    Inv (h ++ (ended s (dispatch s a object r)).2) (ended s (dispatch s a object r)).1 := by
  obtain ⟨b, hflying, hiff⟩ := hi.jobs.flying_iff object
  cases b with
  | true =>
    have heq : AnticPool.dispatch s a object r = some (s, [.refused object]) := by
      simp [AnticPool.dispatch, hflying]
    rw [heq]
    refine hi.idle t (fun ev hev => ?_) rfl (SameJobs.refl s) rfl rfl rfl (fun _ => rfl)
      (hi.sleeps.same (Quiet.refl _))
    rw [mem_singleton.1 hev]
    exact ⟨rfl, rfl⟩
  | false =>
    have heq : AnticPool.dispatch s a object r =
        some (enqueue s a object r, [.dispatched s.dispatches object]) := by
      simp [AnticPool.dispatch, hflying]
    rw [heq]
    have hobject : ∀ b, s.allocated b = true → s.done b = false → s.object b ≠ object :=
      fun b h1 h2 h3 => absurd (hiff.2 ⟨b, h1, h2, h3⟩) (by decide)
    have hworks : ∀ u, works ((enqueue s a object r).frames u) = works (s.frames u) :=
      works_wakeAll .workReady s.frames
    have hhas := has_eq_of_works hworks
    refine ⟨?_, ?_, ?_, ?_⟩
    · exact hi.owned.trade (Trades.of_eq t hworks) nodup_nil (by rintro y ⟨⟩)
    · refine hi.calls.frame (fun ev hev => ?_) rfl rfl rfl rfl (fun z _ => ?_) fun j i => ?_
      · rw [mem_singleton.1 hev]
        rfl
      · exact iff_of_eq (congrFun hhas z)
      · exact iff_of_eq (congrFun hhas _)
    · have := hi.jobs.enqueue r hfree hobject
      rw [← hhas] at this
      exact this
    · refine hi.sleeps.wakeReady (Quiet.refl _) hi.sleeps.parallel fun u b rest hu => ?_
      obtain ⟨hd, hn⟩ := hi.sleeps.join u b rest hu
      have hba : b ≠ a := by
        rintro rfl
        have := hi.jobs.join b (has_of_top hu (mem_singleton.2 rfl))
        rw [hfree] at this
        cases this
      refine ⟨(update_of_ne hba _ _).trans hd, mem_jobStarts_append ?_⟩
      show update s.serial a s.dispatches b ∈ jobStarts h
      rw [update_of_ne hba]
      exact hn

omit [DecidableEq J] in
theorem Inv.callJoin (hi : Inv h s) (ht : s.frames t = f :: rest) (hf : f.userCode = true)
    (halloc : s.allocated a = true)
    (hnone : ∀ u, .join a ∉ works (s.frames u) ∧ .leaving a ∉ works (s.frames u)) :
    Inv (h ++ []) (s.goto t (.join a .enter :: f :: rest)) := by
  have htrades : Trades s.works (s.goto t (.join a .enter :: f :: rest)).works [] [.join a] :=
    trades_goto (by rw [ht]; rfl : _ = [] ++ works (f :: rest)) rfl fun _ => rfl
  have hhas := hi.owned.has_iff htrades
  have hnojoin : ¬ s.has (.join a) := fun ⟨u, hu⟩ => (hnone u).1 hu
  have hnoleave : ¬ s.has (.leaving a) := fun ⟨u, hu⟩ => (hnone u).2 hu
  refine ⟨hi.owned.trade htrades (nodup_singleton _) fun y hy => ?_, ?_, ?_, ?_⟩
  · rw [mem_singleton.1 hy]
    exact Or.inr hnojoin
  · refine hi.calls.frame (fun _ h => nomatch h) rfl rfl rfl rfl
      (fun z hz => (hhas z).trans ?_) fun j i => (hhas _).trans ?_
    · have hne : z ≠ .join a := by
        rintro rfl
        exact hz rfl
      simp [hne, State.has]
    · simp [State.has]
  · rw [append_nil]
    refine hi.jobs.joins (SameJobs.goto t _ (SameJobs.refl s)) (fun b => (hhas _).trans ?_)
      (fun b hb => ?_) fun b hb => ?_
    · simp [State.has]
    · rcases (hhas _).1 hb with hb | ⟨hb, _⟩
      · cases mem_singleton.1 hb
        exact halloc
      · exact hi.jobs.join b hb
    · rcases (hhas _).1 hb with hb | ⟨hb, _⟩
      · cases mem_singleton.1 hb
      · obtain ⟨h1, h2, h3⟩ := hi.jobs.leaving b hb
        refine ⟨h1, h2, fun hjb => ?_⟩
        rcases (hhas _).1 hjb with hjb | ⟨hjb, _⟩
        · cases mem_singleton.1 hjb
          exact hnoleave hb
        · exact h3 hjb
  · exact hi.sleeps.same (quiet_push ht hf rfl)

omit [DecidableEq J] in
theorem Inv.joinDone (hi : Inv h s) {w : JoinAt} (ht : s.frames t = .join a w :: rest)
    (hw : Frame.works (.join a w) = [.join a]) (hdone : s.done a = true) :
    Inv (h ++ []) (s.goto t (.join a .leaving :: rest)) := by
  have hx : s.has (.join a) := has_of_top ht (by rw [hw]; exact mem_singleton.2 rfl)
  have htrades : Trades s.works (s.goto t (.join a .leaving :: rest)).works
      [.join a] [.leaving a] :=
    trades_goto (by rw [works_top ht, hw] : _ = [.join a] ++ works rest) rfl fun _ => rfl
  have hhas := hi.owned.has_iff htrades
  have hnoleave : ¬ s.has (.leaving a) := fun h => (hi.jobs.leaving a h).2.2 hx
  refine ⟨hi.owned.trade htrades (nodup_singleton _) fun y hy => ?_, ?_, ?_, ?_⟩
  · rw [mem_singleton.1 hy]
    exact Or.inr hnoleave
  · refine hi.calls.frame (fun _ h => nomatch h) rfl rfl rfl rfl
      (fun z hz => (hhas z).trans ?_) fun j i => (hhas _).trans ?_
    · have hne : z ≠ .join a ∧ z ≠ .leaving a := by
        constructor <;> rintro rfl <;> exact hz rfl
      simp [hne, State.has]
    · simp [State.has]
  · rw [append_nil]
    refine hi.jobs.joins (SameJobs.goto t _ (SameJobs.refl s)) (fun b => (hhas _).trans ?_)
      (fun b hb => ?_) fun b hb => ?_
    · simp [State.has]
    · rcases (hhas _).1 hb with hb | ⟨hb, _⟩
      · cases mem_singleton.1 hb
      · exact hi.jobs.join b hb
    · rcases (hhas _).1 hb with hb | ⟨hb, _⟩
      · cases mem_singleton.1 hb
        refine ⟨hi.jobs.join a hx, hdone, fun hjb => ?_⟩
        rcases (hhas _).1 hjb with hjb | ⟨_, hjb⟩
        · cases mem_singleton.1 hjb
        · exact hjb (mem_singleton.2 rfl)
      · obtain ⟨h1, h2, h3⟩ := hi.jobs.leaving b hb
        refine ⟨h1, h2, fun hjb => ?_⟩
        rcases (hhas _).1 hjb with hjb | ⟨hjb, _⟩
        · cases mem_singleton.1 hjb
        · exact h3 hjb
  · exact hi.sleeps.same (quiet_top ht rfl)

theorem Inv.takeJob (hi : Inv h s) (ht : s.frames t = f :: rest) (hg : g.asleep = false)
    {l : List J} (hchain : Chain s.next s.queued l) (ha : a ∈ l)
    {queued queuedLast : Option J} {next : J → Option J}
    (hchain' : Chain next queued (l.erase a)) (hlast : queuedLast = (l.erase a).getLast?)
    (hworks : f.works = [] ∧ g.works = [.job a] ∨
      f.works = [.join a] ∧ g.works = [.join a, .job a]) :
    Inv (h ++ [.jobStart (s.serial a)])
      (({ s with queued := queued
                 next := next
                 queuedLast := queuedLast }).goto t (g :: rest)) := by
  obtain ⟨l', hl', _, _, hmem⟩ := hi.jobs.queue
  have hnot : s.serial a ∉ jobStarts h := ((hmem a).1 (hl'.unique hchain ▸ ha)).2
  have hfresh : ¬ s.has (.job a) := fun h => hnot (hi.jobs.job a h).2.2
  have htrades : Trades s.works (({ s with queued := queued
                                           next := next
                                           queuedLast := queuedLast }).goto t
      (g :: rest)).works f.works g.works := trades_goto (works_top ht) rfl fun _ => rfl
  have hhas := hi.owned.has_iff htrades
  have hjoina : ∀ b, .join b ∈ f.works → s.has (.join b) := fun b hb => has_of_top ht hb
  -- the job is the one thing that is new
  have hiff : ∀ z, (({ s with queued := queued
                              next := next
                              queuedLast := queuedLast }).goto t (g :: rest)).has z ↔
      z = .job a ∨ s.has z := by
    intro z
    rw [State.has, hhas z]
    rcases hworks with ⟨h1, h2⟩ | ⟨h1, h2⟩
    · simp [h1, h2, State.has]
    · have hja := hjoina a (h1 ▸ mem_singleton.2 rfl)
      rw [h1, h2]
      by_cases hz : z = .join a
      · subst hz
        simp [hja]
      · simp [hz, State.has]
  have hsame : ∀ z, z ≠ .job a → ((({ s with queued := queued
                                             next := next
                                             queuedLast := queuedLast }).goto t
      (g :: rest)).has z ↔ s.has z) :=
    fun z hz => (hiff z).trans ⟨fun h => h.resolve_left hz, Or.inr⟩
  refine ⟨hi.owned.trade htrades ?_ fun y hy => ?_, ?_, ?_, ?_⟩
  · rcases hworks with ⟨_, h2⟩ | ⟨_, h2⟩
    · rw [h2]
      exact nodup_singleton _
    · rw [h2]
      simp
  · rcases hworks with ⟨h1, h2⟩ | ⟨h1, h2⟩
    · rw [h2] at hy
      rw [mem_singleton.1 hy]
      exact Or.inr hfresh
    · rw [h2] at hy
      rcases mem_cons.1 hy with rfl | hy
      · exact Or.inl (h1 ▸ mem_singleton.2 rfl)
      · rw [mem_singleton.1 hy]
        exact Or.inr hfresh
  · refine hi.calls.frame (fun ev hev => by rw [mem_singleton.1 hev]; rfl) rfl rfl rfl
      rfl (fun z hz => hsame z ?_) fun j i => hsame _ fun h => nomatch h
    rintro rfl
    exact hz rfl
  · refine hi.jobs.take hchain ha hchain' hlast ⟨rfl, rfl, rfl, rfl, rfl, rfl, rfl, rfl⟩
      (fun b => (hiff _).trans ?_) (fun b => hsame _ fun h => nomatch h)
      fun b => hsame _ fun h => nomatch h
    simp
  · have hq : Quiet s.frames (update s.frames t (g :: rest)) := quiet_top ht hg
    have hne : s.queued ≠ none := by
      rw [hchain.head_eq]
      intro hn
      rw [head?_eq_none_iff.1 hn] at ha
      exact absurd ha not_mem_nil
    refine hi.sleeps.step hq (fun u rest' hu => ?_) hi.sleeps.parallel rfl rfl
    exact absurd (hi.sleeps.ready u rest' hu).1 hne

theorem getLast?_erase {l : List J} (ha : a ∈ l) (hne : l.getLast? ≠ some a) :
    (l.erase a).getLast? = l.getLast? := by
  induction l with
  | nil => exact absurd ha not_mem_nil
  | cons b l ih =>
    by_cases hba : b = a
    · subst hba
      rw [erase_cons_head]
      cases l with
      | nil => exact absurd rfl hne
      | cons c l => rw [getLast?_cons_cons]
    · rw [erase_cons_tail (by simpa using hba)]
      have ha' : a ∈ l := (mem_cons.1 ha).resolve_left fun h => hba h.symm
      cases l with
      | nil => exact absurd ha' not_mem_nil
      | cons c l =>
        rw [getLast?_cons_cons] at hne ⊢
        rw [← ih ha' hne]
        cases hl : (c :: l).erase a with
        | nil =>
          have := ih ha' hne
          rw [hl] at this
          exact absurd (getLast?_eq_none_iff.1 this.symm) (by simp)
        | cons d l' => rw [getLast?_cons_cons]

theorem Inv.joinTurn (hi : Inv h s) {w : JoinAt} (ht : s.frames t = .join a w :: rest)
    (hw : Frame.works (.join a w) = [.join a]) :
    Inv (h ++ (ended s (joinTurn s t a rest)).2) (ended s (joinTurn s t a rest)).1 := by
  have hx : s.has (.join a) := has_of_top ht (by rw [hw]; exact mem_singleton.2 rfl)
  cases hdone : s.done a with
  | true =>
    have heq : AnticPool.joinTurn s t a rest =
        some (s.goto t (.join a .leaving :: rest), []) := by
      simp [AnticPool.joinTurn, hdone]
    rw [heq]
    exact hi.joinDone ht hw hdone
  | false =>
    obtain ⟨l, hchain, hnodup, hlast, hmem⟩ := hi.jobs.queue
    have hlt := hi.jobs.length_lt hnodup fun b hb => ((hmem b).1 hb).1
    obtain ⟨queued, next, hunlink, hchain', _⟩ := unlink_eq (a := a) hchain hnodup hlt
    by_cases ha : a ∈ l
    · -- the caller takes the job itself
      have hlt' : (l.erase a).length < s.dispatches + 1 :=
        Nat.lt_of_le_of_lt length_erase_le hlt
      have hnewlast : (if s.queuedLast = some a then
          lastFrom next (s.dispatches + 1) queued none else some s.queuedLast) =
          some (l.erase a).getLast? := by
        split
        · rw [lastFrom_eq hchain' none hlt', Option.or_none]
        · next hne =>
            rw [hlast] at hne ⊢
            rw [getLast?_erase ha hne]
      have heq : AnticPool.joinTurn s t a rest =
          some (({ s with queued := queued
                          next := next
                          queuedLast := (l.erase a).getLast? }).goto t
            (.join a .run :: rest), [.jobStart (s.serial a)]) := by
        simp [AnticPool.joinTurn, hdone, hunlink, ha, hnewlast]
      rw [heq]
      exact hi.takeJob ht rfl hchain ha hchain' rfl (Or.inr ⟨hw, rfl⟩)
    · have heq : AnticPool.joinTurn s t a rest =
          some (s.goto t (.join a .asleep :: rest), []) := by
        simp [AnticPool.joinTurn, hdone, hunlink, ha]
      rw [heq]
      refine hi.sleep ht hw.symm (fun h => nomatch h) (fun j h => nomatch h) fun b hb => ?_
      cases hb
      refine ⟨hdone, ?_⟩
      by_contra hn
      exact ha ((hmem a).2 ⟨hi.jobs.join a hx, hn⟩)

theorem Inv.workerTurn (hi : Inv h s) {w : WorkerAt J} (ht : s.frames t = .worker w :: rest)
    (hw : Frame.works (.worker w) = []) :
    Inv (h ++ (workerTurn s t rest).2) (workerTurn s t rest).1 := by
  unfold AnticPool.workerTurn
  cases hq : s.queued with
  | some a =>
    obtain ⟨l, hchain, hnodup, hlast, _⟩ := hi.jobs.queue
    rw [hq] at hchain
    obtain ⟨l', rfl, hchain'⟩ := hchain.tail
    have herase : (a :: l').erase a = l' := erase_cons_head ..
    have hnewlast : (if s.next a = none then none else s.queuedLast) = l'.getLast? := by
      rw [hchain'.head_eq, hlast]
      cases l' with
      | nil => rfl
      | cons b l' =>
        exact if_neg fun h => nomatch h
    refine hi.takeJob (l := a :: l') ht rfl (hq ▸ hchain) (mem_cons_self ..) ?_ ?_
      (Or.inl ⟨hw, rfl⟩)
    · rw [herase]
      exact hchain'
    · rw [herase]
      exact hnewlast
  | none =>
    cases hact : s.active with
    | none =>
      refine hi.sleep ht hw.symm (fun _ => ⟨hq, fun j hj => ?_⟩) (fun j h => nomatch h)
        fun a h => nomatch h
      rw [hact] at hj
      cases hj
    | some j =>
      by_cases hall : (s.taken : Int) = j.chunks
      · simp only [if_pos hall]
        refine hi.sleep ht hw.symm (fun _ => ⟨hq, fun j' hj' => ?_⟩) (fun j h => nomatch h)
          fun a h => nomatch h
        rw [hact] at hj'
        cases hj'
        exact hall
      · simp only [if_neg hall]
        have hchunk := hi.workerChunk ht hw hact hall
        rw [hq, hact] at hchunk
        exact hchunk

/-- A worker or a thread that joins ends the job it runs, and wakes who waits for it. -/
theorem Inv.endJob (hi : Inv h s) (r : R) (ht : s.frames t = f :: rest)
    (hf : f.asleep = false) (hg : g.asleep = false)
    (hworks : f.works = [.job a] ∧ g.works = [] ∨
      f.works = [.join a, .job a] ∧ g.works = [.leaving a]) :
    Inv (h ++ (ended s (endJob s t a r (g :: rest))).2)
      (ended s (endJob s t a r (g :: rest))).1 := by
  have hx : s.has (.job a) := by
    refine has_of_top ht ?_
    rcases hworks with ⟨h1, _⟩ | ⟨h1, _⟩ <;> rw [h1] <;> simp
  obtain ⟨inFlight, live, hfinish⟩ := hi.jobs.finish_ends a r
  generalize hs₁ : ({ s with inFlight := inFlight
                             live := live
                             done := update s.done a true
                             result := update s.result a r } : State τ J O R) = s₁
    at hfinish
  have heq : AnticPool.endJob s t a r (g :: rest) =
      some (({ s₁ with frames := wakeAll workDone s₁.frames }).goto t (g :: rest),
        [.jobEnd (s₁.serial a) r]) := by
    simp [AnticPool.endJob, hfinish]
  have hframes : s₁.frames = s.frames := hs₁ ▸ rfl
  have hserial : s₁.serial = s.serial := hs₁ ▸ rfl
  rw [heq]
  show Inv (h ++ [.jobEnd (s₁.serial a) r]) _
  rw [congrFun hserial a]
  have htrades : Trades s.works (({ s₁ with frames := wakeAll workDone s₁.frames }).goto t
      (g :: rest)).works f.works g.works := by
    refine trades_goto (works_top ht) rfl fun u => ?_
    show works (wakeAll workDone s₁.frames u) = _
    rw [works_wakeAll .workDone, hframes]
  have hhas := hi.owned.has_iff htrades
  have hnoleave : f.works = [.join a, .job a] → ¬ s.has (.leaving a) := by
    intro h1 hl
    exact (hi.jobs.leaving a hl).2.2 (has_of_top ht (h1 ▸ mem_cons_self ..))
  have hcall : ∀ z : Work J, z.aboutJob = false → z ∉ f.works ∧ z ∉ g.works := by
    intro z hz
    rcases hworks with ⟨h1, h2⟩ | ⟨h1, h2⟩ <;> rw [h1, h2] <;>
      constructor <;> intro hmem <;> simp at hmem
    all_goals rcases hmem with rfl | rfl <;> cases hz
  have hold : ∀ z : Work J, z.aboutJob = false →
      ((({ s₁ with frames := wakeAll workDone s₁.frames }).goto t (g :: rest)).has z ↔
        s.has z) := by
    intro z hz
    rw [State.has, hhas z]
    simp [hcall z hz, State.has]
  refine ⟨hi.owned.trade htrades ?_ fun y hy => ?_, ?_, ?_, ?_⟩
  · rcases hworks with ⟨_, h2⟩ | ⟨_, h2⟩ <;> rw [h2] <;> simp
  · rcases hworks with ⟨_, h2⟩ | ⟨h1, h2⟩
    · rw [h2] at hy
      exact nomatch hy
    · rw [h2] at hy
      rw [mem_singleton.1 hy]
      exact Or.inr (hnoleave h1)
  · refine hi.calls.frame (fun ev hev => by rw [mem_singleton.1 hev]; rfl)
      (by rw [← hs₁]; rfl) (by rw [← hs₁]; rfl) (by rw [← hs₁]; rfl) (by rw [← hs₁]; rfl)
      (fun z hz => hold z ?_) fun j i => hold _ rfl
    cases z with
    | entering _ => rfl
    | inline _ _ => rfl
    | pool _ => rfl
    | chunk _ _ => rfl
    | join _ => exact absurd rfl hz
    | leaving _ => exact absurd rfl hz
    | job _ => exact absurd rfl hz
  · have hjobs : JobsOk (h ++ [.jobEnd (s.serial a) r]) s₁
        (({ s₁ with frames := wakeAll workDone s₁.frames }).goto t (g :: rest)).has := by
      refine hi.jobs.finish hx hfinish (fun b => (hhas _).trans ?_) (fun b hb => ?_)
        fun b hb => ?_
      · rcases hworks with ⟨h1, h2⟩ | ⟨h1, h2⟩ <;> simp [h1, h2, State.has]
      · rcases (hhas _).1 hb with hb | ⟨hb, _⟩
        · rcases hworks with ⟨_, h2⟩ | ⟨_, h2⟩ <;> rw [h2] at hb <;> simp at hb
        · exact hb
      · rcases (hhas _).1 hb with hb | ⟨hb, _⟩
        · rcases hworks with ⟨_, h2⟩ | ⟨h1, h2⟩
          · rw [h2] at hb
            exact nomatch hb
          · rw [h2] at hb
            cases mem_singleton.1 hb
            refine Or.inr ⟨rfl, fun hja => ?_⟩
            rcases (hhas _).1 hja with hja | ⟨_, hja⟩
            · rw [h2] at hja
              cases mem_singleton.1 hja
            · exact hja (h1 ▸ mem_cons_self ..)
        · exact Or.inl hb
    exact hjobs.same
      (SameJobs.goto t _ ⟨rfl, rfl, rfl, rfl, rfl, rfl, rfl, rfl, rfl, rfl, rfl⟩)
  · have hawake : wakeAll workDone s.frames t = f :: rest := by
      rw [wakeAll_of_not_asleep, ht]
      rw [ht]
      cases hd : workDone.asleep (f :: rest) with
      | false => rfl
      | true =>
        obtain ⟨rest', ⟨j, hj⟩ | ⟨b, hb⟩⟩ := workDone_asleep hd
        · cases hj
          cases hf
        · cases hb
          cases hf
    refine hi.sleeps.wakeDone ?_ (by rw [← hs₁]; rfl) (by rw [← hs₁]; rfl)
      (by rw [← hs₁]; rfl)
    show Quiet _ (update (wakeAll workDone s₁.frames) t (g :: rest))
    rw [hframes]
    exact quiet_top hawake hg

theorem Inv.joinLeave (hi : Inv h s) (ht : s.frames t = .join a .leaving :: rest) :
    Inv (h ++ [.joined (s.serial a) (s.result a)])
      (({ s with allocated := update s.allocated a false }).goto t rest) := by
  have hx : s.has (.leaving a) := has_of_top ht (mem_singleton.2 rfl)
  have htrades : Trades s.works (({ s with
      allocated := update s.allocated a false }).goto t rest).works
      [.leaving a] [] := trades_goto (works_top ht) rfl fun _ => rfl
  have hhas := hi.owned.has_iff htrades
  refine ⟨hi.owned.trade htrades nodup_nil (by rintro y ⟨⟩), ?_, ?_, ?_⟩
  · refine hi.calls.frame (fun ev hev => by rw [mem_singleton.1 hev]; rfl) rfl rfl rfl
      rfl (fun z hz => (hhas z).trans ?_) fun j i => (hhas _).trans ?_
    · have hne : z ≠ .leaving a := by
        rintro rfl
        exact hz rfl
      simp [hne, State.has]
    · simp [State.has]
  · have hjobs : JobsOk (h ++ [.joined (s.serial a) (s.result a)])
        { s with allocated := update s.allocated a false }
        (({ s with allocated := update s.allocated a false }).goto t rest).has := by
      refine hi.jobs.leave hx (fun b => (hhas _).trans ?_) (fun b => (hhas _).trans ?_)
        fun b => (hhas _).trans ?_
      · simp [State.has]
      · simp [State.has]
      · simp [State.has]
    exact hjobs.same (SameJobs.goto t _ (SameJobs.refl _))
  · exact hi.sleeps.same (hi.sleeps.quiet_pop ht)

end Invariant

end AnticPool
