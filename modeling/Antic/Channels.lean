import Antic.Interleaving
import Mathlib.Data.Nat.ModEq
import Mathlib.Data.List.Basic

/-! # The channels of `chan T` — `sync.c`

    A channel is a ring of values behind a monitor; a `select` that finds no channel ready waits on
    one condition of the whole program.  The threads run the functions of `sync.c`, each section
    under the monitor of a channel being one step.  The lock of the selects is held across several
    such sections, so its holder is part of the state, and so is the counter `waiting`.

    * A thread that waits is asleep until a wake, or for no reason: a wait may return at any time.
      It looks at its condition again when it runs.
    * A step that stops the program, such as a `send` on a closed channel, leaves a state from which
      no step goes on. -/

namespace AnticSync

open Interleaving Function

section Channel

variable {V : Type*}

/-- `struct channel`.  `values` holds the ring, by slot. -/
structure Channel (V : Type*) where
  size : Nat
  capacity : Nat
  head : Nat
  count : Nat
  closed : Bool
  values : Nat → V

/-- `INT64_MAX`. -/
def int64Max : Nat := 9223372036854775807

/-- `anti_rt_chan_new`, where it returns.  The values of new memory are any. -/
def chanNew (size capacity : Nat) (values : Nat → V) : Option (Channel V) :=
  if capacity < 1 then none
  else if size = 0 ∨ capacity ≤ int64Max / 2 / size then
    some { size := size, capacity := capacity, head := 0, count := 0,
           closed := false, values := values }
  else none

/-- The value `take` copies out. -/
def Channel.oldest (ch : Channel V) : V := ch.values ch.head

/-- `take`, less the wake of a sender. -/
def Channel.take (ch : Channel V) : Channel V :=
  { ch with head := (ch.head + 1) % ch.capacity, count := ch.count - 1 }

/-- The slot that `anti_rt_chan_send` writes. -/
def Channel.slot (ch : Channel V) : Nat := (ch.head + ch.count) % ch.capacity

/-- What `anti_rt_chan_send` does to the ring. -/
def Channel.put (ch : Channel V) (v : V) : Channel V :=
  { ch with values := update ch.values ch.slot v, count := ch.count + 1 }

/-- What `anti_rt_chan_close` does to the channel. -/
def Channel.close (ch : Channel V) : Channel V := { ch with closed := true }

/-- A channel that a select would take an arm of. -/
def Channel.ready (ch : Channel V) : Prop := 0 < ch.count ∨ ch.closed = true

/-- The slots that hold a value not yet taken, oldest first. -/
def Channel.slots (ch : Channel V) : List Nat :=
  (List.range ch.count).map fun i => (ch.head + i) % ch.capacity

/-- The values not yet taken, oldest first. -/
def Channel.contents (ch : Channel V) : List V := ch.slots.map ch.values

end Channel

/-- Where a thread is with the wait of its function. -/
inductive Wait where
  /-- It has not waited, and takes the monitor next. -/
  | entering
  | asleep
  /-- A wake is pending. -/
  | woken
  deriving DecidableEq, Repr

/-- Where a thread is in `wake_selects`. -/
inductive Waking where
  /-- Before the load of `waiting`. -/
  | load
  /-- Before it takes the lock of the selects. -/
  | hold
  deriving DecidableEq, Repr

/-- Where a thread is in `anti_rt_select`. -/
inductive Selecting where
  /-- At the head of the `for (;;)`. -/
  | turn
  /-- Before `try_arm` of the `k`-th arm from `start` on. -/
  | arm (start k : Nat)
  /-- Before the add to `waiting`. -/
  | count
  /-- Before it takes the lock of the selects. -/
  | hold
  /-- In `any_ready` before arm `i`, with the lock. -/
  | look (i : Nat)
  | asleep
  | woken
  /-- Before it gives the lock back. -/
  | release
  /-- Before the subtraction from `waiting`. -/
  | uncount
  deriving DecidableEq, Repr

/-- Where a thread is. -/
inductive Pc (ι V : Type*) where
  | outside
  | send (c : ι) (v : V) (w : Wait)
  | recv (c : ι) (w : Wait)
  | close (c : ι)
  | held (c : ι)
  /-- `wake_selects` of a `send` or a `close` on `c`. -/
  | wake (c : ι) (at_ : Waking)
  /-- An arm without a channel is a handle that is `NULL`. -/
  | select (arms : List (Option ι)) (at_ : Selecting)

/-- Where the call of a function starts. -/
def Pc.entry {ι V : Type*} : Pc ι V → Bool
  | .send _ _ .entering | .recv _ .entering | .close _ | .held _
  | .select _ .turn => true
  | _ => false

/-- What a step shows. -/
inductive Act (τ ι V : Type*) where
  | put (t : τ) (c : ι) (v : V)
  /-- A `recv`, a `held` or an arm of a select takes a value. -/
  | take (t : τ) (c : ι) (v : V)
  /-- A `recv` or an arm of a select answers that `c` is closed and empty. -/
  | ended (t : τ) (c : ι)
  | close (t : τ) (c : ι)
  /-- The program stops with a message. -/
  | fatal (t : τ)
  | silent

/-- The threads, the channels, and what the selects share. -/
structure State (τ ι V : Type*) where
  chans : ι → Channel V
  pcs : τ → Pc ι V
  /-- `waiting`. -/
  waiting : Int
  /-- Who holds `ANTI_RT_LOCK_SELECT`. -/
  holder : Option τ
  /-- `turn`, of each thread. -/
  turn : τ → UInt32
  stopped : Bool

section Goto

variable {τ ι V : Type*} [DecidableEq τ]

/-- Thread `t` goes to `p`. -/
def State.goto (s : State τ ι V) (t : τ) (p : Pc ι V) : State τ ι V :=
  { s with pcs := update s.pcs t p }

@[simp] theorem State.goto_chans (s : State τ ι V) (t : τ) (p : Pc ι V) :
    (s.goto t p).chans = s.chans := rfl

@[simp] theorem State.goto_pcs (s : State τ ι V) (t : τ) (p : Pc ι V) :
    (s.goto t p).pcs = update s.pcs t p := rfl

@[simp] theorem State.goto_waiting (s : State τ ι V) (t : τ) (p : Pc ι V) :
    (s.goto t p).waiting = s.waiting := rfl

@[simp] theorem State.goto_holder (s : State τ ι V) (t : τ) (p : Pc ι V) :
    (s.goto t p).holder = s.holder := rfl

end Goto

section SetChan

variable {τ ι V : Type*} [DecidableEq ι]

/-- Channel `c` becomes `ch`. -/
def State.setChan (s : State τ ι V) (c : ι) (ch : Channel V) : State τ ι V :=
  { s with chans := update s.chans c ch }

@[simp] theorem State.setChan_chans (s : State τ ι V) (c : ι) (ch : Channel V) :
    (s.setChan c ch).chans = update s.chans c ch := rfl

@[simp] theorem State.setChan_pcs (s : State τ ι V) (c : ι) (ch : Channel V) :
    (s.setChan c ch).pcs = s.pcs := rfl

@[simp] theorem State.setChan_waiting (s : State τ ι V) (c : ι) (ch : Channel V) :
    (s.setChan c ch).waiting = s.waiting := rfl

@[simp] theorem State.setChan_holder (s : State τ ι V) (c : ι) (ch : Channel V) :
    (s.setChan c ch).holder = s.holder := rfl

end SetChan

section Step

variable {τ ι V : Type*} [DecidableEq τ] [DecidableEq ι]

/-- The condition `NOT_EMPTY` of channel `c`. -/
def notEmpty (c : ι) : Condition (Pc ι V) where
  asleep
    | .recv d .asleep => d = c
    | _ => false
  woken
    | .recv d .woken => d = c
    | _ => false
  wake
    | .recv d _ => .recv d .woken
    | p => p
  wakes := by
    rintro (_ | _ | ⟨d, _ | _ | _⟩ | _ | _ | _ | _) h <;> simp_all
  apart := by
    rintro (_ | _ | ⟨d, _ | _ | _⟩ | _ | _ | _ | _) h <;> simp_all

/-- The condition `NOT_FULL` of channel `c`. -/
def notFull (c : ι) : Condition (Pc ι V) where
  asleep
    | .send d _ .asleep => d = c
    | _ => false
  woken
    | .send d _ .woken => d = c
    | _ => false
  wake
    | .send d v _ => .send d v .woken
    | p => p
  wakes := by
    rintro (_ | ⟨d, _, _ | _ | _⟩ | _ | _ | _ | _ | _) h <;> simp_all
  apart := by
    rintro (_ | ⟨d, _, _ | _ | _⟩ | _ | _ | _ | _ | _) h <;> simp_all

/-- The condition `SELECT_READY`. -/
def selectReady : Condition (Pc ι V) where
  asleep
    | .select _ .asleep => true
    | _ => false
  woken
    | .select _ .woken => true
    | _ => false
  wake
    | .select arms _ => .select arms .woken
    | p => p
  wakes := by
    rintro (_ | _ | _ | _ | _ | _ | ⟨_, _ | _ | _ | _ | _ | _ | _ | _ | _⟩) h <;>
      simp_all
  apart := by
    rintro (_ | _ | _ | _ | _ | _ | ⟨_, _ | _ | _ | _ | _ | _ | _ | _ | _⟩) h <;>
      simp_all

/-- The conditions that threads wait on. -/
inductive IsCondition : Condition (Pc ι V) → Prop where
  | notEmpty (c : ι) : IsCondition (notEmpty c)
  | notFull (c : ι) : IsCondition (notFull c)
  | selectReady : IsCondition selectReady

/-- `take` of channel `c` by thread `t`, which goes to `p`.  `pcs` has the sender woken. -/
def State.taken (s : State τ ι V) (t : τ) (c : ι) (pcs : τ → Pc ι V) (p : Pc ι V) : State τ ι V :=
  (({ s with pcs := pcs }).setChan c (s.chans c).take).goto t p

/-- The first arm that a select of thread `t` looks at. -/
def State.startOf (s : State τ ι V) (t : τ) (arms : List (Option ι)) : Nat :=
  if 0 < arms.length then (s.turn t).toNat % arms.length else 0

/-- **One step of a program with channels.** -/
inductive Step (s : State τ ι V) : Act τ ι V → State τ ι V → Prop where
  /-- A thread calls `send`, `recv`, `close`, `held` or `select`. -/
  | call (t : τ) (p : Pc ι V) : s.pcs t = .outside → p.entry = true → Step s .silent (s.goto t p)
  /-- A thread calls `send`, `recv` or `close` with a handle that is `NULL`. -/
  | callNull (t : τ) :
      s.pcs t = .outside → Step s (.fatal t) { s with stopped := true }
  | sendWait (t : τ) (c : ι) (v : V) (w : Wait) : s.pcs t = .send c v w → w ≠ .asleep →
      (s.chans c).count = (s.chans c).capacity → (s.chans c).closed = false →
      Step s .silent (s.goto t (.send c v .asleep))
  | sendClosed (t : τ) (c : ι) (v : V) (w : Wait) :
      s.pcs t = .send c v w → w ≠ .asleep → (s.chans c).closed = true →
      Step s (.fatal t) { s with stopped := true }
  | sendPut (t : τ) (c : ι) (v : V) (w : Wait) (pcs : τ → Pc ι V) :
      s.pcs t = .send c v w → w ≠ .asleep →
      (s.chans c).count ≠ (s.chans c).capacity → (s.chans c).closed = false →
      WakeOne (notEmpty c) s.pcs pcs →
      Step s (.put t c v) ((({ s with pcs := pcs }).setChan c ((s.chans c).put v)).goto t
          (.wake c .load))
  | recvWait (t : τ) (c : ι) (w : Wait) : s.pcs t = .recv c w → w ≠ .asleep →
      (s.chans c).count = 0 → (s.chans c).closed = false →
      Step s .silent (s.goto t (.recv c .asleep))
  | recvTake (t : τ) (c : ι) (w : Wait) (pcs : τ → Pc ι V) :
      s.pcs t = .recv c w → w ≠ .asleep → 0 < (s.chans c).count →
      WakeOne (notFull c) s.pcs pcs →
      Step s (.take t c (s.chans c).oldest) (s.taken t c pcs .outside)
  | recvEnded (t : τ) (c : ι) (w : Wait) : s.pcs t = .recv c w → w ≠ .asleep →
      (s.chans c).count = 0 → (s.chans c).closed = true →
      Step s (.ended t c) (s.goto t .outside)
  | close (t : τ) (c : ι) : s.pcs t = .close c → Step s (.close t c)
        ((({ s with pcs := wakeAll (notFull c) (wakeAll (notEmpty c) s.pcs) }).setChan c
          (s.chans c).close).goto t (.wake c .load))
  | heldTake (t : τ) (c : ι) (pcs : τ → Pc ι V) : s.pcs t = .held c → 0 < (s.chans c).count →
      WakeOne (notFull c) s.pcs pcs →
      Step s (.take t c (s.chans c).oldest) (s.taken t c pcs .outside)
  | heldNone (t : τ) (c : ι) : s.pcs t = .held c → (s.chans c).count = 0 →
      Step s .silent (s.goto t .outside)
  /-- `wake_selects` finds no select that waits. -/
  | wakeNone (t : τ) (c : ι) : s.pcs t = .wake c .load → ¬ 0 < s.waiting →
      Step s .silent (s.goto t .outside)
  | wakeSome (t : τ) (c : ι) : s.pcs t = .wake c .load → 0 < s.waiting →
      Step s .silent (s.goto t (.wake c .hold))
  | wakeSelects (t : τ) (c : ι) : s.pcs t = .wake c .hold → s.holder = none → Step s .silent
        (({ s with pcs := wakeAll selectReady s.pcs }).goto t .outside)
  | selectTurn (t : τ) (arms : List (Option ι)) : s.pcs t = .select arms .turn → Step s .silent
        (({ s with turn := update s.turn t (s.turn t + 1) }).goto t
          (.select arms (.arm (s.startOf t arms) 0)))
  | armTake (t : τ) (arms : List (Option ι)) (start k : Nat) (c : ι) (pcs : τ → Pc ι V) :
      s.pcs t = .select arms (.arm start k) → k < arms.length →
      arms[(start + k) % arms.length]? = some (some c) → 0 < (s.chans c).count →
      WakeOne (notFull c) s.pcs pcs →
      Step s (.take t c (s.chans c).oldest) (s.taken t c pcs .outside)
  | armEnded (t : τ) (arms : List (Option ι)) (start k : Nat) (c : ι) :
      s.pcs t = .select arms (.arm start k) → k < arms.length →
      arms[(start + k) % arms.length]? = some (some c) → (s.chans c).count = 0 →
      (s.chans c).closed = true → Step s (.ended t c) (s.goto t .outside)
  | armNot (t : τ) (arms : List (Option ι)) (start k : Nat) (c : ι) :
      s.pcs t = .select arms (.arm start k) → k < arms.length →
      arms[(start + k) % arms.length]? = some (some c) → (s.chans c).count = 0 →
      (s.chans c).closed = false →
      Step s .silent (s.goto t (.select arms (.arm start (k + 1))))
  | armNull (t : τ) (arms : List (Option ι)) (start k : Nat) :
      s.pcs t = .select arms (.arm start k) → k < arms.length →
      arms[(start + k) % arms.length]? = some none →
      Step s (.fatal t) { s with stopped := true }
  | armsOver (t : τ) (arms : List (Option ι)) (start k : Nat) :
      s.pcs t = .select arms (.arm start k) → ¬ k < arms.length →
      Step s .silent (s.goto t (.select arms .count))
  | selectCount (t : τ) (arms : List (Option ι)) : s.pcs t = .select arms .count → Step s .silent
        (({ s with waiting := s.waiting + 1 }).goto t (.select arms .hold))
  | selectHold (t : τ) (arms : List (Option ι)) : s.pcs t = .select arms .hold → s.holder = none →
      Step s .silent (({ s with holder := some t }).goto t (.select arms (.look 0)))
  | lookReady (t : τ) (arms : List (Option ι)) (i : Nat) (c : ι) :
      s.pcs t = .select arms (.look i) → arms[i]? = some (some c) → (s.chans c).ready →
      Step s .silent (s.goto t (.select arms .release))
  | lookNot (t : τ) (arms : List (Option ι)) (i : Nat) (c : ι) :
      s.pcs t = .select arms (.look i) → arms[i]? = some (some c) →
      ¬ (s.chans c).ready →
      Step s .silent (s.goto t (.select arms (.look (i + 1))))
  /-- No channel is ready: the wait gives the lock back. -/
  | selectWait (t : τ) (arms : List (Option ι)) (i : Nat) :
      s.pcs t = .select arms (.look i) → arms.length ≤ i →
      Step s .silent (({ s with holder := none }).goto t (.select arms .asleep))
  /-- The wait of a select returns, with the lock. -/
  | selectWoken (t : τ) (arms : List (Option ι)) : s.pcs t = .select arms .woken → s.holder = none →
      Step s .silent (({ s with holder := some t }).goto t (.select arms .release))
  | selectRelease (t : τ) (arms : List (Option ι)) : s.pcs t = .select arms .release →
      Step s .silent (({ s with holder := none }).goto t (.select arms .uncount))
  | selectUncount (t : τ) (arms : List (Option ι)) : s.pcs t = .select arms .uncount →
      Step s .silent (({ s with waiting := s.waiting - 1 }).goto t (.select arms .turn))
  /-- A wait ends though nobody woke it. -/
  | stir (t : τ) (cond : Condition (Pc ι V)) : IsCondition cond → cond.asleep (s.pcs t) = true →
      Step s .silent (s.goto t (cond.wake (s.pcs t)))

/-- A step of a program that has not stopped. -/
def Goes (s : State τ ι V) (a : Act τ ι V) (s' : State τ ι V) : Prop :=
  s.stopped = false ∧ Step s a s'

/-- New channels, and threads that have called nothing yet. -/
structure Starts (s : State τ ι V) : Prop where
  chans : ∀ c, ∃ size capacity values, chanNew size capacity values = some (s.chans c)
  pcs : ∀ t, s.pcs t = .outside
  waiting : s.waiting = 0
  holder : s.holder = none

end Step

end AnticSync
