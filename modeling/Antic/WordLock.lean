import Antic.Interleaving
import Mathlib.Tactic.Common

/-! # The word of a lock — `platform_posix.c`

    `anti_rt_word_lock` and `anti_rt_word_unlock` over a futex.  The word is 0 when free, 1 when
    held and 2 when held with a thread that waits.  Each step below is one atomic access of the word
    or one call of the kernel, by one of any number of threads. -/

namespace AnticLock

open Interleaving

variable {τ : Type*} [DecidableEq τ]

/-- Where a thread is in the two functions. -/
inductive WordPc where
  /-- Outside of them, without the lock. -/
  | out
  /-- Before the compare-and-exchange. -/
  | compare
  /-- Before the exchange with 2. -/
  | exchange
  /-- Before the futex wait. -/
  | wait
  /-- In the futex wait. -/
  | asleep
  /-- Between its lock and its unlock. -/
  | held
  /-- Before the futex wake. -/
  | wake
  deriving DecidableEq, Repr

/-- The word and the threads that use it. -/
structure Word (τ : Type*) where
  value : Nat
  pc : τ → WordPc

/-- The word is `value` and the thread goes on at `p`. -/
def Word.put (w : Word τ) (value : Nat) (t : τ) (p : WordPc) : Word τ :=
  ⟨value, Function.update w.pc t p⟩

/-- A free word with nobody at it. -/
def Word.free : Word τ := ⟨0, fun _ => .out⟩

/-- One step of the thread. -/
inductive WordStep : Word τ → τ → Word τ → Prop where
  | call {w : Word τ} {t : τ} : w.pc t = .out → WordStep w t (w.put w.value t .compare)
  | take {w : Word τ} {t : τ} : w.pc t = .compare → w.value = 0 → WordStep w t (w.put 1 t .held)
  | found {w : Word τ} {t : τ} : w.pc t = .compare → w.value ≠ 0 →
      WordStep w t (w.put w.value t (if w.value = 2 then .wait else .exchange))
  | exchange {w : Word τ} {t : τ} : w.pc t = .exchange →
      WordStep w t (w.put 2 t (if w.value = 0 then .held else .wait))
  | sleep {w : Word τ} {t : τ} : w.pc t = .wait → w.value = 2 →
      WordStep w t (w.put w.value t .asleep)
  /-- The word is not 2, so the wait returns at once. -/
  | back {w : Word τ} {t : τ} : w.pc t = .wait → w.value ≠ 2 →
      WordStep w t (w.put w.value t .exchange)
  /-- The wait returns for no reason. -/
  | spurious {w : Word τ} {t : τ} : w.pc t = .asleep → WordStep w t (w.put w.value t .exchange)
  | release {w : Word τ} {t : τ} : w.pc t = .held →
      WordStep w t (w.put 0 t (if w.value = 2 then .wake else .out))
  | wake {w : Word τ} {t u : τ} : w.pc t = .wake → w.pc u = .asleep →
      WordStep w t ((w.put w.value u .exchange).put w.value t .out)
  | idle {w : Word τ} {t : τ} : w.pc t = .wake → (∀ u, w.pc u ≠ .asleep) →
      WordStep w t (w.put w.value t .out)

/-- A thread that sets the word to 2 with its next step. -/
def Word.Raising (w : Word τ) : Prop := ∃ t, w.pc t = .exchange

/-- A wake that is still to come. -/
def Word.WakePending (w : Word τ) : Prop := ∃ t, w.pc t = .wake

/-- What holds of the word and the threads at all times. -/
structure WordInv (w : Word τ) : Prop where
  /-- Nobody holds a free word. -/
  free : w.value = 0 → ∀ t, w.pc t ≠ .held
  one : ∀ t u, w.pc t = .held → w.pc u = .held → t = u
  /-- While a thread sleeps, the word is 2, or a wake or an exchange with 2 is to come. -/
  awake : ∀ t, w.pc t = .asleep → w.value = 2 ∨ w.WakePending ∨ w.Raising

omit [DecidableEq τ] in
theorem WordInv.start : WordInv (Word.free : Word τ) :=
  ⟨fun _ _ h => (nomatch h), fun _ _ h => (nomatch h), fun _ h => (nomatch h)⟩

section Put

variable {w : Word τ} {t u : τ} {value : Nat} {p q : WordPc}

theorem put_pc_self : (w.put value t p).pc t = p := Function.update_self ..

theorem put_pc_of_ne (h : u ≠ t) : (w.put value t p).pc u = w.pc u := Function.update_of_ne h ..

theorem put_pc_eq (h : (w.put value t p).pc u = q) : (u = t ∧ p = q) ∨ (u ≠ t ∧ w.pc u = q) := by
  by_cases hu : u = t
  · rw [hu, put_pc_self] at h
    exact .inl ⟨hu, h⟩
  · rw [put_pc_of_ne hu] at h
    exact .inr ⟨hu, h⟩

/-- A thread that takes no lock and leaves nobody without a wake keeps the invariant. -/
theorem WordInv.put (h : WordInv w) (hp : p ≠ .held)
    (hfree : value = 0 → w.value = 0 ∨ w.pc t = .held)
    (hawake : (∃ u, (w.put value t p).pc u = .asleep) →
      value = 2 ∨ (w.put value t p).WakePending ∨ (w.put value t p).Raising) :
    WordInv (w.put value t p) := by
  refine ⟨fun hv u hu => ?_, fun u v hu hv => ?_, fun u hu => hawake ⟨u, hu⟩⟩
  · rcases put_pc_eq hu with ⟨_, hu⟩ | ⟨hne, hu⟩
    · exact hp hu
    · rcases hfree hv with hzero | hheld
      · exact h.free hzero u hu
      · exact hne (h.one u t hu hheld)
  · rcases put_pc_eq hu with ⟨_, hu⟩ | ⟨_, hu⟩
    · exact absurd hu hp
    rcases put_pc_eq hv with ⟨_, hv⟩ | ⟨_, hv⟩
    · exact absurd hv hp
    · exact h.one u v hu hv

theorem WordInv.hold (h : WordInv w) (hzero : w.value = 0) (hvalue : value ≠ 0)
    (hawake : (∃ u, (w.put value t .held).pc u = .asleep) →
      value = 2 ∨ (w.put value t .held).WakePending ∨ (w.put value t .held).Raising) :
    WordInv (w.put value t .held) := by
  refine ⟨fun hv => absurd hv hvalue, fun u v hu hv => ?_, fun u hu => hawake ⟨u, hu⟩⟩
  rcases put_pc_eq hu with ⟨hu, _⟩ | ⟨_, hu⟩
  · rcases put_pc_eq hv with ⟨hv, _⟩ | ⟨_, hv⟩
    · rw [hu, hv]
    · exact absurd hv (h.free hzero v)
  · exact absurd hu (h.free hzero u)

/-- What is to come stays to come after a step of another thread, and after a step that
    ends at the exchange. -/
theorem pending_put (ht : p = .exchange ∨ (w.pc t ≠ .wake ∧ w.pc t ≠ .exchange))
    (h : w.WakePending ∨ w.Raising) :
    (w.put value t p).WakePending ∨ (w.put value t p).Raising := by
  rcases ht with rfl | ⟨hwake, hexchange⟩
  · exact .inr ⟨t, put_pc_self⟩
  · refine h.imp (fun ⟨u, hu⟩ => ⟨u, ?_⟩) fun ⟨u, hu⟩ => ⟨u, ?_⟩
    · have hne : u ≠ t := by
        rintro rfl
        exact hwake hu
      rw [put_pc_of_ne hne]
      exact hu
    · have hne : u ≠ t := by
        rintro rfl
        exact hexchange hu
      rw [put_pc_of_ne hne]
      exact hu

/-- A thread that does not fall asleep leaves the word and what is to come. -/
theorem awake_put (h : WordInv w) (hp : p ≠ .asleep)
    (ht : p = .exchange ∨ (w.pc t ≠ .wake ∧ w.pc t ≠ .exchange))
    (hs : ∃ u, (w.put w.value t p).pc u = .asleep) :
    w.value = 2 ∨ (w.put w.value t p).WakePending ∨ (w.put w.value t p).Raising := by
  obtain ⟨u, hu⟩ := hs
  rcases put_pc_eq hu with ⟨_, hu⟩ | ⟨_, hu⟩
  · exact absurd hu hp
  · exact (h.awake u hu).imp id (pending_put ht)

end Put

theorem WordInv.step {w w' : Word τ} {t : τ} (h : WordInv w) (hs : WordStep w t w') :
    WordInv w' := by
  cases hs with
  | call hpc =>
    refine h.put (by decide) .inl (awake_put h (by decide) (.inr ?_))
    rw [hpc]
    decide
  | take hpc hzero =>
    refine h.hold hzero (by decide) fun ⟨u, hu⟩ => .inr ?_
    rcases put_pc_eq hu with ⟨_, hu⟩ | ⟨_, hu⟩
    · cases hu
    · refine pending_put (.inr ?_) ((h.awake u hu).resolve_left (by omega))
      rw [hpc]
      decide
  | found hpc hvalue =>
    split
    · refine h.put (by decide) .inl (awake_put h (by decide) (.inr ?_))
      rw [hpc]
      decide
    · exact h.put (by decide) .inl (awake_put h (by decide) (.inl rfl))
  | exchange hpc =>
    split
    · next hzero => exact h.hold hzero (by decide) fun _ => .inl rfl
    · exact h.put (by decide) (fun h => nomatch h) fun _ => .inl rfl
  | sleep hpc hvalue => exact h.put (by decide) .inl fun _ => .inl hvalue
  | back hpc _ | spurious hpc => exact h.put (by decide) .inl (awake_put h (by decide) (.inl rfl))
  | release hpc =>
    split
    · exact h.put (by decide) (fun _ => .inr hpc) fun _ => .inr (.inl ⟨t, put_pc_self⟩)
    · next hvalue =>
        -- nobody sleeps behind a word of 1 without something to come
        refine h.put (by decide) (fun _ => .inr hpc) fun ⟨u, hu⟩ => .inr ?_
        rcases put_pc_eq hu with ⟨_, hu⟩ | ⟨_, hu⟩
        · cases hu
        · refine pending_put (.inr ?_) ((h.awake u hu).resolve_left hvalue)
          rw [hpc]
          decide
  | @wake u hpc hu =>
    -- the woken thread takes the word with 2 next
    have hwoken : WordInv (w.put w.value u .exchange) :=
      h.put (by decide) .inl (awake_put h (by decide) (.inl rfl))
    have hne : u ≠ t := by
      rintro rfl
      rw [hpc] at hu
      cases hu
    refine hwoken.put (by decide) .inl fun _ => .inr (.inr ⟨u, ?_⟩)
    rw [put_pc_of_ne hne, put_pc_self]
  | idle hpc hnone =>
    refine h.put (by decide) .inl fun ⟨u, hu⟩ => ?_
    rcases put_pc_eq hu with ⟨_, hu⟩ | ⟨_, hu⟩
    · cases hu
    · exact absurd hu (hnone u)

theorem WordInv.run {w : Word τ} {ts : List τ} (h : Runs WordStep Word.free ts w) : WordInv w :=
  h.invariant (fun _ w => WordInv w) .start fun _ _ _ _ h hs => h.step hs

end AnticLock
