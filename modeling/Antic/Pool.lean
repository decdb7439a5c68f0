import Antic.Interleaving
import Antic.LinkedLists

/-! # The worker pool of `parallel`, `dispatch` and `join` — `threads.c`

    A thread is a stack of the functions of the pool it is in, since the code of a chunk or of a job
    may call the pool again.  Each section under the lock of the pool is one step; the end of a
    chunk or of a job belongs to the section after it.

    * The job of a dispatch is memory at an address `a : J`, which the join gives back and a later
      dispatch may be given again.  `serial` tells the jobs of one address apart, `id` the calls of
      `parallel`; the program has neither.
    * The walks over the lists have fuel: one turn more than there were dispatches.  A walk that
      needs more gives `endless`. -/

namespace AnticPool

open Interleaving LinkedLists Function

/-! ## A call of `parallel` -/

/-- `struct jobs`, less the pointers that the body gets. -/
structure Jobs where
  id : Nat
  count : Int
  chunks : Int
  deriving DecidableEq, Repr

/-- `INT64_MAX`. -/
def int64Max : Int := 9223372036854775807

/-- `anti_rt_processors`, of the number that the system gives. -/
def processors (online : Int) : Int :=
  if 0 < online then online else 1

/-- `worker_count`, with the number that the configuration has. -/
def workerCount (configured online : Int) : Int :=
  if 0 < configured then configured else processors online

/-- The chunks of a call that asks for `chunks` of them. -/
def chunksOf (chunks count workers : Int) : Int :=
  let chunks := if chunks ≤ 0 then workers else chunks
  if count < chunks then count else chunks

/-- The results of the chunks are too large for a block of memory. -/
def tooLarge (chunks resultSize : Int) : Prop :=
  resultSize < 0 ∨ 0 < resultSize ∧ (int64Max.tdiv 2).tdiv resultSize < chunks

/-- `slice_of`: the first element and the length of a chunk. -/
def sliceOf (count chunks index : Int) : Int × Int :=
  let base := count.tdiv chunks
  let extra := count.tmod chunks
  (index * base + (if index < extra then index else extra),
    base + (if index < extra then 1 else 0))

/-! ## Threads -/

/-- Where a worker is in `worker_main`. -/
inductive WorkerAt (J : Type) where
  /-- Before it takes the lock to look for work. -/
  | look
  | asleep
  | woken
  | job (a : J)
  | chunk (j : Jobs) (index : Nat)

/-- Where a thread is in `anti_rt_parallel`. -/
inductive ParallelAt where
  /-- Before it takes the lock. -/
  | enter
  /-- In a chunk of a call that found the pool busy. -/
  | inline (index : Nat)
  /-- In a chunk that it took as the workers do. -/
  | chunk (index : Nat)
  | asleep
  | woken

/-- Where a thread is in `anti_rt_join`. -/
inductive JoinAt where
  /-- Before it takes the lock. -/
  | enter
  | asleep
  | woken
  /-- In the job, which it took itself. -/
  | run
  /-- After the lock: it copies the result and frees the job. -/
  | leaving

/-- A function that a thread is in. -/
inductive Frame (J : Type) where
  /-- The code of the program. -/
  | program
  | worker (at_ : WorkerAt J)
  | parallel (j : Jobs) (at_ : ParallelAt)
  | join (a : J) (at_ : JoinAt)

/-- Code of the program runs: it may call the pool. -/
def Frame.userCode {J : Type} : Frame J → Bool
  | .program | .worker (.job _) | .worker (.chunk _ _)
  | .parallel _ (.inline _) | .parallel _ (.chunk _) | .join _ .run => true
  | _ => false

/-- What one thread alone has to do with. -/
inductive Work (J : Type) where
  /-- A call of `parallel` before it took the lock. -/
  | entering (j : Jobs)
  /-- A call that runs its own chunks, with the chunk. -/
  | inline (j : Jobs) (index : Nat)
  /-- The call that uses the pool. -/
  | pool (j : Jobs)
  /-- A chunk of the call that uses the pool. -/
  | chunk (j : Jobs) (index : Nat)
  /-- The join of a job. -/
  | join (a : J)
  /-- A join that has seen the job done. -/
  | leaving (a : J)
  /-- The run of a job. -/
  | job (a : J)
  deriving DecidableEq

/-- The work of a function that a thread is in. -/
def Frame.works {J : Type} : Frame J → List (Work J)
  | .program => []
  | .worker (.job a) => [.job a]
  | .worker (.chunk j index) => [.chunk j index]
  | .worker _ => []
  | .parallel j .enter => [.entering j]
  | .parallel j (.inline index) => [.inline j index]
  | .parallel j (.chunk index) => [.pool j, .chunk j index]
  | .parallel j _ => [.pool j]
  | .join a .run => [.join a, .job a]
  | .join a .leaving => [.leaving a]
  | .join a _ => [.join a]

/-- The work of a thread. -/
def works {J : Type} (stack : List (Frame J)) : List (Work J) :=
  stack.flatMap Frame.works

/-- What a step shows. -/
inductive Event (O R : Type) where
  | called (j : Jobs)
  | chunkStart (call index : Nat) (first length : Int)
  | chunkEnd (call index : Nat)
  | returned (call : Nat)
  | dispatched (job : Nat) (object : O)
  /-- A dispatch gives no job. -/
  | refused (object : O)
  | jobStart (job : Nat)
  | jobEnd (job : Nat) (r : R)
  /-- A join returns with a copy of the result. -/
  | joined (job : Nat) (r : R)
  /-- The program stops with a message. -/
  | fatal
  /-- A walk over a list does not end. -/
  | endless

/-- The threads and what the lock of the pool guards. -/
structure State (τ J O R : Type) where
  /-- The functions each thread is in, innermost first; none before its start. -/
  frames : τ → List (Frame J)
  started : Bool
  active : Option Jobs
  taken : Nat
  finished : Nat
  queued : Option J
  queuedLast : Option J
  inFlight : Option J
  next : J → Option J
  live : J → Option J
  done : J → Bool
  object : J → O
  result : J → R
  /-- The memory at the address is a job. -/
  allocated : J → Bool
  serial : J → Nat
  calls : Nat
  dispatches : Nat
  stopped : Bool

section Waits

variable {J : Type}

/-- The condition `WORK_READY`. -/
def workReady : Condition (List (Frame J)) where
  asleep
    | .worker .asleep :: _ => true
    | _ => false
  woken
    | .worker .woken :: _ => true
    | _ => false
  wake
    | .worker _ :: rest => .worker .woken :: rest
    | stack => stack
  wakes := by
    rintro (_ | ⟨_ | ⟨_ | _ | _ | _ | _⟩ | _ | _, _⟩) h <;> simp_all
  apart := by
    rintro (_ | ⟨_ | ⟨_ | _ | _ | _ | _⟩ | _ | _, _⟩) h <;> simp_all

/-- The condition `WORK_DONE`. -/
def workDone : Condition (List (Frame J)) where
  asleep
    | .parallel _ .asleep :: _ | .join _ .asleep :: _ => true
    | _ => false
  woken
    | .parallel _ .woken :: _ | .join _ .woken :: _ => true
    | _ => false
  wake
    | .parallel j _ :: rest => .parallel j .woken :: rest
    | .join a _ :: rest => .join a .woken :: rest
    | stack => stack
  wakes := by
    rintro (_ | ⟨_ | _ | ⟨_, _ | _ | _ | _ | _⟩ | ⟨_, _ | _ | _ | _ | _⟩, _⟩) h <;>
      simp_all
  apart := by
    rintro (_ | ⟨_ | _ | ⟨_, _ | _ | _ | _ | _⟩ | ⟨_, _ | _ | _ | _ | _⟩, _⟩) h <;>
      simp_all

/-- The conditions that threads wait on. -/
inductive IsCondition : Condition (List (Frame J)) → Prop where
  | workReady : IsCondition workReady
  | workDone : IsCondition workDone

end Waits

section Sections

variable {τ J O R : Type} [DecidableEq τ]

/-- Thread `t` goes on with the stack. -/
def State.goto (s : State τ J O R) (t : τ) (stack : List (Frame J)) :
    State τ J O R :=
  { s with frames := update s.frames t stack }

/-- What a section gives, where its walks end. -/
def ended (s : State τ J O R) (r : Option (State τ J O R × List (Event O R))) :
    State τ J O R × List (Event O R) :=
  r.getD ({ s with stopped := true }, [.endless])

/-- `start_locked`.  Any number of the workers may fail to start. -/
inductive StartLocked (s : State τ J O R) : State τ J O R → Prop where
  | running : s.started = true → StartLocked s s
  | start (frames : τ → List (Frame J)) : s.started = false →
      (∀ t, frames t = s.frames t ∨ s.frames t = [] ∧ frames t = [.worker .look]) →
      StartLocked s { s with started := true, frames := frames }

/-- The start of a chunk. -/
def chunkStart (j : Jobs) (index : Nat) : Event O R :=
  let (first, length) := sliceOf j.count j.chunks index
  .chunkStart j.id index first length

/-- The loop of a call that found the pool busy, before chunk `index`. -/
def inlineFrom (s : State τ J O R) (t : τ) (j : Jobs) (index : Nat)
    (rest : List (Frame J)) : State τ J O R × List (Event O R) :=
  if index < j.chunks then
    (s.goto t (.parallel j (.inline index) :: rest), [chunkStart j index])
  else (s.goto t rest, [.returned j.id])

/-- `while (finished < chunks) wait_done();` and the end of `anti_rt_parallel`. -/
def waitDone (s : State τ J O R) (t : τ) (j : Jobs) (rest : List (Frame J)) :
    State τ J O R × List (Event O R) :=
  if s.finished < j.chunks then (s.goto t (.parallel j .asleep :: rest), [])
  else (({ s with active := none }).goto t rest, [.returned j.id])

/-- `while (taken < chunks)`, up to the next release of the lock. -/
def takeChunk (s : State τ J O R) (t : τ) (j : Jobs) (rest : List (Frame J)) :
    State τ J O R × List (Event O R) :=
  if s.taken < j.chunks then
    (({ s with taken := s.taken + 1 }).goto t (.parallel j (.chunk s.taken) :: rest),
      [chunkStart j s.taken])
  else waitDone s t j rest

/-- What `anti_rt_parallel` does where the pool is free, before its loop. -/
def activate (s : State τ J O R) (j : Jobs) : State τ J O R :=
  { s with active := some j
           taken := 0
           finished := 0
           frames := wakeAll workReady s.frames }

/-- The walk of `anti_rt_dispatch` over the jobs in flight: is one of the object? -/
def flying [DecidableEq O] (s : State τ J O R) (object : O) :
    Nat → Option J → Option Bool
  | 0, _ => none
  | _ + 1, none => some false
  | fuel + 1, some a =>
    if s.object a = object then some true else flying s object fuel (s.live a)

variable [DecidableEq J]

/-- `finish_one`, of a job that wrote the result `r`. -/
def finishOne (s : State τ J O R) (a : J) (r : R) : Option (State τ J O R) := do
  let (_, inFlight, live) ← unlink (s.dispatches + 1) s.inFlight s.live a
  return { s with inFlight := inFlight
                  live := live
                  done := update s.done a true
                  result := update s.result a r }

/-- The section at the end of a job, after which the thread goes on with the stack. -/
def endJob (s : State τ J O R) (t : τ) (a : J) (r : R) (stack : List (Frame J)) :
    Option (State τ J O R × List (Event O R)) := do
  let s ← finishOne s a r
  return (({ s with frames := wakeAll workDone s.frames }).goto t stack,
    [.jobEnd (s.serial a) r])

/-- `calloc` of a job, with memory `r` for its result, and both lists. -/
def enqueue (s : State τ J O R) (a : J) (object : O) (r : R) : State τ J O R :=
  let next := update s.next a none
  { s with live := update s.live a s.inFlight
           inFlight := some a
           queued := match s.queuedLast with
             | none => some a
             | some _ => s.queued
           next := match s.queuedLast with
             | none => next
             | some last => update next last (some a)
           queuedLast := some a
           done := update s.done a false
           object := update s.object a object
           result := update s.result a r
           allocated := update s.allocated a true
           serial := update s.serial a s.dispatches
           dispatches := s.dispatches + 1
           frames := wakeAll workReady s.frames }

/-- The section of `anti_rt_dispatch`, with memory at `a`. -/
def dispatch [DecidableEq O] (s : State τ J O R) (a : J) (object : O) (r : R) :
    Option (State τ J O R × List (Event O R)) := do
  if ← flying s object (s.dispatches + 1) s.inFlight then return (s, [.refused object])
  else return (enqueue s a object r, [.dispatched s.dispatches object])

/-- A turn of the loop of `anti_rt_join`. -/
def joinTurn (s : State τ J O R) (t : τ) (a : J) (rest : List (Frame J)) :
    Option (State τ J O R × List (Event O R)) :=
  if s.done a then return (s.goto t (.join a .leaving :: rest), [])
  else do
    let (found, queued, next) ← unlink (s.dispatches + 1) s.queued s.next a
    if found then do
      let queuedLast ←
        (if s.queuedLast = some a then lastFrom next (s.dispatches + 1) queued none
         else some s.queuedLast)
      return (({ s with queued := queued
                        next := next
                        queuedLast := queuedLast }).goto t (.join a .run :: rest),
        [.jobStart (s.serial a)])
    else return (s.goto t (.join a .asleep :: rest), [])

/-- A turn of `worker_main` with the lock. -/
def workerTurn (s : State τ J O R) (t : τ) (rest : List (Frame J)) :
    State τ J O R × List (Event O R) :=
  match s.queued with
  | some a =>
    (({ s with queued := s.next a
               queuedLast := if s.next a = none then none else s.queuedLast }).goto t
        (.worker (.job a) :: rest),
      [.jobStart (s.serial a)])
  | none =>
    match s.active with
    | none => (s.goto t (.worker .asleep :: rest), [])
    | some j =>
      if (s.taken : Int) = j.chunks then (s.goto t (.worker .asleep :: rest), [])
      else
        (({ s with taken := s.taken + 1 }).goto t
            (.worker (.chunk j s.taken) :: rest),
          [chunkStart j s.taken])

/-- **One step of a program with a pool.** -/
inductive Step [DecidableEq O] (s : State τ J O R) :
    List (Event O R) → State τ J O R → Prop where
  /-- A thread of the program starts. -/
  | spawn (t : τ) : s.frames t = [] → Step s [] (s.goto t [.program])
  | callParallel (t : τ) (f : Frame J) (rest : List (Frame J))
      (asked count configured online resultSize chunks : Int) :
      s.frames t = f :: rest → f.userCode = true →
      chunks = chunksOf asked count (workerCount configured online) → chunks ≠ 0 →
      ¬ (0 < chunks ∧ tooLarge chunks resultSize) →
      Step s [.called ⟨s.calls, count, chunks⟩]
        (({ s with calls := s.calls + 1 }).goto t
          (.parallel ⟨s.calls, count, chunks⟩ .enter :: f :: rest))
  /-- A call without a chunk returns at once. -/
  | callNone (t : τ) (f : Frame J) (rest : List (Frame J))
      (asked count configured online : Int) :
      s.frames t = f :: rest → f.userCode = true →
      chunksOf asked count (workerCount configured online) = 0 →
      Step s [.called ⟨s.calls, count, 0⟩, .returned s.calls]
        { s with calls := s.calls + 1 }
  /-- The results are too large, or there is no memory for a call. -/
  | callFatal (t : τ) (f : Frame J) (rest : List (Frame J)) :
      s.frames t = f :: rest → f.userCode = true →
      Step s [.fatal] { s with stopped := true }
  | inline (t : τ) (j : Jobs) (rest : List (Frame J)) (s₁ : State τ J O R) :
      s.frames t = .parallel j .enter :: rest → StartLocked s s₁ → s₁.active ≠ none →
      Step s (inlineFrom s₁ t j 0 rest).2 (inlineFrom s₁ t j 0 rest).1
  | inlineEnd (t : τ) (j : Jobs) (index : Nat) (rest : List (Frame J)) :
      s.frames t = .parallel j (.inline index) :: rest →
      Step s (.chunkEnd j.id index :: (inlineFrom s t j (index + 1) rest).2)
        (inlineFrom s t j (index + 1) rest).1
  | activate (t : τ) (j : Jobs) (rest : List (Frame J)) (s₁ : State τ J O R) :
      s.frames t = .parallel j .enter :: rest → StartLocked s s₁ → s₁.active = none →
      Step s (takeChunk (activate s₁ j) t j rest).2 (takeChunk (activate s₁ j) t j rest).1
  | chunkEnd (t : τ) (j : Jobs) (index : Nat) (rest : List (Frame J)) :
      s.frames t = .parallel j (.chunk index) :: rest →
      Step s (.chunkEnd j.id index ::
          (takeChunk { s with finished := s.finished + 1 } t j rest).2)
        (takeChunk { s with finished := s.finished + 1 } t j rest).1
  | parallelWoken (t : τ) (j : Jobs) (rest : List (Frame J)) :
      s.frames t = .parallel j .woken :: rest →
      Step s (waitDone s t j rest).2 (waitDone s t j rest).1
  | dispatch (t : τ) (f : Frame J) (rest : List (Frame J)) (a : J) (object : O) (r : R)
      (s₁ : State τ J O R) :
      s.frames t = f :: rest → f.userCode = true → s.allocated a = false →
      StartLocked s s₁ →
      Step s (ended s₁ (dispatch s₁ a object r)).2 (ended s₁ (dispatch s₁ a object r)).1
  /-- A `join` of a job, which ends with it: a job is joined once. -/
  | callJoin (t : τ) (f : Frame J) (rest : List (Frame J)) (a : J) :
      s.frames t = f :: rest → f.userCode = true → s.allocated a = true →
      (∀ u, .join a ∉ works (s.frames u) ∧ .leaving a ∉ works (s.frames u)) →
      Step s [] (s.goto t (.join a .enter :: f :: rest))
  /-- A `join` of a job that is null. -/
  | joinNull (t : τ) (f : Frame J) (rest : List (Frame J)) :
      s.frames t = f :: rest → f.userCode = true → Step s [] s
  | joinEnter (t : τ) (a : J) (rest : List (Frame J)) :
      s.frames t = .join a .enter :: rest →
      Step s (ended s (joinTurn s t a rest)).2 (ended s (joinTurn s t a rest)).1
  | joinWoken (t : τ) (a : J) (rest : List (Frame J)) :
      s.frames t = .join a .woken :: rest →
      Step s (ended s (joinTurn s t a rest)).2 (ended s (joinTurn s t a rest)).1
  | joinRunEnd (t : τ) (a : J) (rest : List (Frame J)) (r : R) :
      s.frames t = .join a .run :: rest →
      Step s (ended s (endJob s t a r (.join a .leaving :: rest))).2
        (ended s (endJob s t a r (.join a .leaving :: rest))).1
  | joinLeave (t : τ) (a : J) (rest : List (Frame J)) :
      s.frames t = .join a .leaving :: rest →
      Step s [.joined (s.serial a) (s.result a)]
        (({ s with allocated := update s.allocated a false }).goto t rest)
  | workerLook (t : τ) (rest : List (Frame J)) :
      s.frames t = .worker .look :: rest →
      Step s (workerTurn s t rest).2 (workerTurn s t rest).1
  | workerWoken (t : τ) (rest : List (Frame J)) :
      s.frames t = .worker .woken :: rest →
      Step s (workerTurn s t rest).2 (workerTurn s t rest).1
  | workerJobEnd (t : τ) (a : J) (rest : List (Frame J)) (r : R) :
      s.frames t = .worker (.job a) :: rest →
      Step s (ended s (endJob s t a r (.worker .look :: rest))).2
        (ended s (endJob s t a r (.worker .look :: rest))).1
  | workerChunkEnd (t : τ) (j : Jobs) (index : Nat) (rest : List (Frame J)) :
      s.frames t = .worker (.chunk j index) :: rest →
      Step s [.chunkEnd j.id index]
        (({ s with finished := s.finished + 1
                   frames := wakeAll workDone s.frames }).goto t (.worker .look :: rest))
  /-- A wait ends though nobody woke it. -/
  | stir (t : τ) (cond : Condition (List (Frame J))) :
      IsCondition cond → cond.asleep (s.frames t) = true →
      Step s [] (s.goto t (cond.wake (s.frames t)))

/-- A step of a program that has not stopped. -/
def Goes [DecidableEq O] (s : State τ J O R) (evs : List (Event O R))
    (s' : State τ J O R) : Prop :=
  s.stopped = false ∧ Step s evs s'

/-- A program that has called the pool nowhere yet. -/
structure Starts (s : State τ J O R) : Prop where
  frames : ∀ t, s.frames t = [] ∨ s.frames t = [.program]
  active : s.active = none
  queued : s.queued = none
  queuedLast : s.queuedLast = none
  inFlight : s.inFlight = none
  allocated : ∀ a, s.allocated a = false
  calls : s.calls = 0
  dispatches : s.dispatches = 0

end Sections

end AnticPool
