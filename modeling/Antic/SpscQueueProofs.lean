import Antic.SpscCallsProofs

/-! # The ring is a queue -/

namespace AnticRing

open SharedCode Interleaving

variable {T : Type} {N : Nat}

/-- What a side knows between two calls. -/
def between (N : Nat) : Side → Memory T → Prop
  | .producer => Producing N
  | .consumer => Consuming N

/-- What a call of a side leaves. -/
def post (N : Nat) : (t : Side) → Call T t → Answer T → View (Memory T) → Prop
  | .producer => producerPost N
  | .consumer => consumerPost N

theorem Producing.goes {s s' : Memory T} (h : Producing N s)
    (hrely : rely N .producer s s') : Producing N s' := by
  have ht := hrely h.counters
  refine ⟨ht.counters, fun p h₁ h₂ => ?_⟩
  rw [ht.given] at h₁
  by_cases hp : p < s.counter .taken + N
  · rw [ht.free p h₁ hp]
    exact h.free p h₁ hp
  · exact ht.freed p (Nat.le_of_not_lt hp) h₂

theorem Consuming.goes {s s' : Memory T} (h : Consuming N s)
    (hrely : rely N .consumer s s') : Consuming N s' := by
  have hgoes : (View.start s).Goes (rely N .consumer) ⟨s, s', [s', s]⟩ :=
    ⟨rfl, hrely, fun m hm => List.mem_cons_of_mem _ hm, List.mem_cons_self⟩
  exact (h.start.goes hgoes).consuming rfl

theorem post_between (t : Side) (c : Call T t) (r : Answer T) (v : View (Memory T))
    (h : post N t c r v) : between N t v.now := by
  cases t with
  | producer => exact h.1
  | consumer => exact h.1

/-- The two sides of the ring. -/
def sides (T : Type) (N : Nat) : Protocol (ring T N) where
  rely := rely N
  refl := rely_refl
  trans := rely_trans
  allowed := may N
  keeps t u i s hne _ hi := may_keeps t u i s hne hi
  idle := between N
  idle_goes t s s' h hrely := by
    cases t with
    | producer => exact Producing.goes h hrely
    | consumer => exact Consuming.goes h hrely
  post := post N
  post_idle := post_between
  safe t c s h := by
    cases t with
    | producer => exact producer_safe h c
    | consumer => exact consumer_safe h c

theorem new_counters : Counters N (new T).memory :=
  ⟨Nat.le_refl _, Nat.zero_le _, Nat.le_refl _, Nat.le_refl _, Nat.le_refl _⟩

theorem new_between (t : Side) : between N t (new T).memory := by
  cases t with
  | producer => exact ⟨new_counters, fun _ _ _ => rfl⟩
  | consumer => exact ⟨new_counters, [], rfl, Holds.nil, List.Sublist.refl _, List.Perm.refl _⟩

theorem new_sound : Sound N (new T).memory :=
  ⟨new_counters, [], List.Sublist.refl _, List.Perm.refl _⟩

/-- The slot that an instruction reads or writes. -/
def Instr.slot? : Instr T → Option Nat
  | .read slot | .write slot _ => some slot
  | _ => none

/-- The next instruction of a side. -/
def Next (w : RingWorld T) (t : Side) (i : Instr T) : Prop :=
  ∃ c began moments next, w.threads t = .running c began moments (.act i next)

/-- What holds of the ring at every moment. -/
structure Queue (N : Nat) (w : RingWorld T) : Prop where
  /-- `0 <= given - taken <= N`. -/
  taken_le : w.memory.counter .taken ≤ w.memory.counter .given
  given_le : w.memory.counter .given ≤ w.memory.counter .taken + N
  /-- The producer reaches no slot of a position the ring holds. -/
  producer_slot : ∀ i slot p, Next w .producer i → i.slot? = some slot →
    w.memory.counter .taken ≤ p → p < w.memory.counter .given → slot ≠ p % N
  /-- The consumer reaches the slots of the positions the ring holds. -/
  consumer_slot : ∀ i slot, Next w .consumer i → i.slot? = some slot →
    ∃ p, w.memory.counter .taken ≤ p ∧ p < w.memory.counter .given ∧ slot = p % N
  /-- No call stops the program. -/
  runs : ∀ t, ¬ Next w t .stop
  /-- What was accepted is what was popped, what was removed and a queue behind
      what was popped, in the order of the pushes. -/
  kept : ∃ queue, Kept w.memory.popped queue w.memory.removed w.memory.accepted
  /-- Between two calls of the consumer the queue stands in the slots. -/
  held : (w.threads .consumer).isRunning = false → ∃ queue : List T,
    w.memory.counter .given = w.memory.counter .taken + queue.length ∧
    Holds N w.memory (w.memory.counter .taken) (queue.map some) ∧
    Kept w.memory.popped queue w.memory.removed w.memory.accepted
  /-- `push` gives `true` with the element accepted, and `false` where the ring
      held `N` elements at a moment of the call. -/
  pushed : ∀ c v r, w.threads .producer = .returned c v r → producerAnswer N c r v
  /-- `pop` gives the element it took off, and `none` where the ring held none at a
      moment of the call. -/
  taken : ∀ c v r, w.threads .consumer = .returned c v r → consumerAnswer c r v

/-- **The ring is a queue**: after every run of a producer and a consumer. -/
theorem ring_queue {ls : List (Side × Option (Instr T))} {w : RingWorld T}
    (hrun : Interleaving.Runs (ring T N).Step (new T) ls w) : Queue N w := by
  have hstart (t : Side) : (new T).threads t = .idle ∧
      (sides T N).idle t (new T).memory := ⟨rfl, new_between t⟩
  have hok := (sides T N).sound hrun hstart
  have hsound : Sound N w.memory :=
    (sides T N).invariant hrun hstart new_sound fun _ _ _ hi h => h.exec hi
  have hmay {t : Side} {i : Instr T} (hnext : Next w t i) : may N t i w.memory := by
    obtain ⟨c, began, moments, next, hthread⟩ := hnext
    have ht := hok t
    rw [hthread] at ht
    exact Protocol.ThreadOk.allowed _ ht trivial
  constructor
  · exact hsound.counters.taken_given
  · exact hsound.counters.given_le
  · intro i slot p hnext hslot h₁ h₂
    have hi := hmay hnext
    have hroom : slot = w.memory.counter .given % N ∧
        w.memory.counter .given < w.memory.counter .taken + N := by
      cases i with
      | read s | write s x =>
        cases Option.some.inj hslot
        exact hi
      | load | store | destroy | stop => cases hslot
    rw [hroom.1]
    exact (slot_ne h₂ (by omega)).symm
  · intro i slot hnext hslot
    have hi := hmay hnext
    cases i with
    | read s | write s x =>
      cases Option.some.inj hslot
      exact hi
    | load | store | destroy | stop => cases hslot
  · intro t hnext
    have hi := hmay hnext
    cases t <;> exact hi
  · exact hsound.kept
  · intro hidle
    have hc := hok .consumer
    cases hthread : w.threads .consumer with
    | idle =>
      rw [hthread] at hc
      exact hc.held
    | returned c v r =>
      rw [hthread] at hc
      exact hc.2.held
    | running c began moments code =>
      rw [hthread] at hidle
      cases hidle
  · intro c v r hthread
    have hp := hok .producer
    rw [hthread] at hp
    exact hp.1.2
  · intro c v r hthread
    have hc := hok .consumer
    rw [hthread] at hc
    exact hc.1.2

/-- A push into a ring of one slot and a pop, which begins while the push still runs. -/
theorem ring_queue_push : ∃ ls w, Interleaving.Runs (ring Nat 1).Step (new Nat) ls w ∧
    w.memory.accepted = [7] ∧ w.memory.popped = [7] ∧ Queue 1 w := by
  have hrun : Interleaving.Runs (ring Nat 1).Step (new Nat) [] (new Nat) := .start
  have h₁ := hrun.snoc (.call (t := .producer) (ProducerCall.push 7) rfl)
  have h₂ := h₁.snoc (.act (t := .producer) rfl trivial)
  have h₃ := h₂.snoc (.call (t := .consumer) ConsumerCall.pop rfl)
  have h₄ := h₃.snoc (.act (t := .consumer) rfl trivial)
  have h₅ := h₄.snoc (.act (t := .producer) rfl trivial)
  have h₆ := h₅.snoc (.act (t := .producer) rfl trivial)
  have h₇ := h₆.snoc (.act (t := .producer) rfl trivial)
  have h₈ := h₇.snoc (.act (t := .consumer) rfl trivial)
  have h₉ := h₈.snoc (.act (t := .producer) rfl trivial)
  have g₀ := h₉.snoc (.act (t := .producer) rfl trivial)
  -- from here on the consumer alone
  have g₁ := g₀.snoc (.act (t := .consumer) rfl trivial)
  have g₂ := g₁.snoc (.act (t := .consumer) rfl trivial)
  have g₃ := g₂.snoc (.act (t := .consumer) rfl trivial)
  have g₄ := g₃.snoc (.act (t := .consumer) rfl trivial)
  have g₅ := g₄.snoc (.act (t := .consumer) rfl trivial)
  have g₆ := g₅.snoc (.act (t := .consumer) rfl trivial)
  exact ⟨_, _, g₆, rfl, rfl, ring_queue g₆⟩

end AnticRing
