import Antic.Interleaving
import Mathlib.Data.List.Basic

/-! # Threads that run code on a shared memory

    The code of a call takes its steps one INSTRUCTION at a time, and between two of its
    instructions the other threads take theirs.  Each thread RELIES on a relation between the memory
    at one of its steps and at the next, and an instruction that is ALLOWED keeps what the others
    rely on.  `Code.Safe` checks the code of one thread alone, and `Protocol.sound` puts the threads
    together. -/

namespace SharedCode

open Function

/-! ## Code -/

/-- The rest of a call: its answer, or an instruction and what follows each of its outputs. -/
inductive Code (I : Type) (out : I → Type) (R : Type) where
  | done (answer : R)
  | act (i : I) (next : out i → Code I out R)

section Monad

variable {I : Type} {out : I → Type} {R Q : Type}

def Code.bind : Code I out R → (R → Code I out Q) → Code I out Q
  | .done r, f => f r
  | .act i next, f => .act i fun o => (next o).bind f

instance : Monad (Code I out) where
  pure := .done
  bind := .bind

/-- The code of one instruction. -/
def Code.one (i : I) : Code I out (out i) := .act i .done

@[simp] theorem Code.pure_bind (r : R) (f : R → Code I out Q) :
    (pure r : Code I out R) >>= f = f r := rfl

@[simp] theorem Code.act_bind (i : I) (next : out i → Code I out R) (f : R → Code I out Q) :
    (Code.act i next) >>= f = .act i fun o => next o >>= f := rfl

theorem Code.bind_assoc {U : Type} (c : Code I out R) (f : R → Code I out Q)
    (k : Q → Code I out U) : c >>= f >>= k = c >>= fun r => f r >>= k := by
  induction c with
  | done r => rfl
  | act i next ih => exact congrArg (Code.act i) (funext ih)

end Monad

/-! ## One thread -/

/-- What a thread sees of the memory in a call: where the call began, the memory
    now, and the memory at every moment of the call. -/
structure View (S : Type) where
  began : S
  now : S
  moments : List S

variable {I : Type} {out : I → Type} {S R Q : Type}

/-- The view at the start of a call. -/
def View.start (s : S) : View S := ⟨s, s, [s]⟩

/-- The thread took a step itself. -/
def View.after (v : View S) (s : S) : View S :=
  { v with now := s, moments := s :: v.moments }

/-- The other threads took some steps. -/
structure View.Goes (rely : S → S → Prop) (v v' : View S) : Prop where
  began : v'.began = v.began
  rely : rely v.now v'.now
  moments : v.moments ⊆ v'.moments
  mem : v'.now ∈ v'.moments

/-- Every instruction of the code is allowed where it runs, and the answer is one of `post`,
    whatever the others do between two instructions.  An instruction waits until it is ready. -/
def Code.Safe (exec : (i : I) → S → S × out i) (ready : I → S → Prop)
    (rely : S → S → Prop) (allowed : I → S → Prop) (post : R → View S → Prop) :
    Code I out R → View S → Prop
  | .done r, v => post r v
  | .act i next, v => ∀ v', v.Goes rely v' → ready i v'.now →
      allowed i v'.now ∧ (next (exec i v'.now).2).Safe exec ready rely allowed post
        (v'.after (exec i v'.now).1)

section Rules

variable {exec : (i : I) → S → S × out i} {ready : I → S → Prop}
  {rely : S → S → Prop} {allowed : I → S → Prop}

theorem Code.Safe.mono {post post' : R → View S → Prop}
    (h : ∀ r v, post r v → post' r v) : ∀ {c : Code I out R} {v : View S},
    c.Safe exec ready rely allowed post v → c.Safe exec ready rely allowed post' v
  | .done r, v, hs => h r v hs
  | .act _ _, _, hs => fun v' hv hr => ⟨(hs v' hv hr).1, (hs v' hv hr).2.mono h⟩

theorem Code.Safe.bind {mid : R → View S → Prop} {post : Q → View S → Prop}
    {f : R → Code I out Q}
    (hf : ∀ r v, mid r v → (f r).Safe exec ready rely allowed post v) :
    ∀ {c : Code I out R} {v : View S}, c.Safe exec ready rely allowed mid v →
      (c >>= f).Safe exec ready rely allowed post v
  | .done r, v, hs => hf r v hs
  | .act _ _, _, hs => fun v' hv hr => ⟨(hs v' hv hr).1, (hs v' hv hr).2.bind hf⟩

theorem View.Goes.trans (htrans : ∀ a b c, rely a b → rely b c → rely a c)
    {u v w : View S} (huv : u.Goes rely v) (hvw : v.Goes rely w) : u.Goes rely w where
  began := hvw.began.trans huv.began
  rely := htrans _ _ _ huv.rely hvw.rely
  moments := fun _ h => hvw.moments (huv.moments h)
  mem := hvw.mem

/-- Code with an instruction to run stays safe while the others go on. -/
theorem Code.Safe.goes (htrans : ∀ a b c, rely a b → rely b c → rely a c)
    {post : R → View S → Prop} {i : I} {next : out i → Code I out R} {v v' : View S}
    (hs : (Code.act i next).Safe exec ready rely allowed post v)
    (hv : v.Goes rely v') : (Code.act i next).Safe exec ready rely allowed post v' :=
  fun w hw => hs w (hv.trans htrans hw)

end Rules

/-! ## Threads -/

/-- A thread of the calls `C`. -/
inductive Thread (C : Type) (I : Type) (out : I → Type) (S R : Type) where
  | idle
  | running (call : C) (began : S) (moments : List S) (code : Code I out R)
  | returned (call : C) (view : View S) (answer : R)

/-- The thread with the rest of its call. -/
def Thread.settle {C : Type} (call : C) (v : View S) :
    Code I out R → Thread C I out S R
  | .done r => .returned call v r
  | code => .running call v.began v.moments code

/-- A moment more of a call that runs. -/
def Thread.sees {C : Type} (s : S) : Thread C I out S R → Thread C I out S R
  | .running call began moments code => .running call began (s :: moments) code
  | thread => thread

def Thread.isRunning {C : Type} : Thread C I out S R → Bool
  | .running _ _ _ _ => true
  | _ => false

variable {ι : Type} {Call : ι → Type}

/-- What each call of each thread runs. -/
structure System (ι : Type) (Call : ι → Type) (I : Type) (out : I → Type)
    (S R : Type) where
  exec : (i : I) → S → S × out i
  ready : ι → I → S → Prop
  body : (t : ι) → Call t → Code I out R

structure World (ι : Type) (Call : ι → Type) (I : Type) (out : I → Type)
    (S R : Type) where
  memory : S
  threads : (t : ι) → Thread (Call t) I out S R

variable [DecidableEq ι]

/-- A thread starts a call, or takes the next instruction of its call. -/
inductive System.Step (P : System ι Call I out S R) :
    World ι Call I out S R → ι × Option I → World ι Call I out S R → Prop where
  | call {w : World ι Call I out S R} {t : ι} (c : Call t)
      (hidle : (w.threads t).isRunning = false) :
      Step P w (t, none)
        { w with threads := update w.threads t
                  (.settle c (.start w.memory) (P.body t c)) }
  | act {w : World ι Call I out S R} {t : ι} {c : Call t} {began : S}
      {moments : List S} {i : I} {next : out i → Code I out R}
      (hthread : w.threads t = .running c began moments (.act i next))
      (hready : P.ready t i w.memory) :
      Step P w (t, some i)
        { memory := (P.exec i w.memory).1
          threads := update
            (fun u => (w.threads u).sees (P.exec i w.memory).1) t
            (.settle c ((View.mk began w.memory moments).after (P.exec i w.memory).1)
              (next (P.exec i w.memory).2)) }

/-! ## The threads together -/

/-- What each thread relies on, and that every thread keeps what the others rely on. -/
structure Protocol (P : System ι Call I out S R) where
  rely : ι → S → S → Prop
  refl : ∀ t s, rely t s s
  trans : ∀ t a b c, rely t a b → rely t b c → rely t a c
  allowed : ι → I → S → Prop
  keeps : ∀ t u i s, u ≠ t → P.ready t i s → allowed t i s →
    rely u s (P.exec i s).1
  /-- What the thread knows between two calls. -/
  idle : ι → S → Prop
  idle_goes : ∀ t s s', idle t s → rely t s s' → idle t s'
  post : (t : ι) → Call t → R → View S → Prop
  post_idle : ∀ t c r v, post t c r v → idle t v.now
  safe : ∀ t c s, idle t s →
    (P.body t c).Safe P.exec (P.ready t) (rely t) (allowed t) (post t c) (.start s)

namespace Protocol

variable {P : System ι Call I out S R} (pr : Protocol P)

/-- What the protocol says of a thread at the memory `s`. -/
def ThreadOk (t : ι) (s : S) : Thread (Call t) I out S R → Prop
  | .idle => pr.idle t s
  | .running c began moments code => s ∈ moments ∧
      code.Safe P.exec (P.ready t) (pr.rely t) (pr.allowed t) (pr.post t c)
        ⟨began, s, moments⟩ ∧ ∃ i next, code = .act i next
  | .returned c v r => pr.post t c r v ∧ pr.idle t s

omit [DecidableEq ι] in
theorem threadOk_settle {t : ι} {c : Call t} {v : View S} {code : Code I out R}
    (hmem : v.now ∈ v.moments)
    (h : code.Safe P.exec (P.ready t) (pr.rely t) (pr.allowed t) (pr.post t c) v) :
    pr.ThreadOk t v.now (.settle c v code) := by
  cases code with
  | done r => exact ⟨h, pr.post_idle t c r v h⟩
  | act i next => exact ⟨hmem, h, i, next, rfl⟩

omit [DecidableEq ι] in
theorem threadOk_sees {t : ι} {s s' : S} {thread : Thread (Call t) I out S R}
    (h : pr.ThreadOk t s thread) (hrely : pr.rely t s s') :
    pr.ThreadOk t s' (thread.sees s') := by
  cases thread with
  | idle => exact pr.idle_goes t s s' h hrely
  | returned c v r => exact ⟨h.1, pr.idle_goes t s s' h.2 hrely⟩
  | running c began moments code =>
    obtain ⟨-, hsafe, i, next, rfl⟩ := h
    have hgoes : View.Goes (pr.rely t) ⟨began, s, moments⟩
        ⟨began, s', s' :: moments⟩ :=
      ⟨rfl, hrely, List.subset_cons_self _ _, List.mem_cons_self⟩
    exact ⟨List.mem_cons_self, hsafe.goes (pr.trans t) hgoes, i, next, rfl⟩

variable {w w' : World ι Call I out S R}

theorem threadOk_step {l : ι × Option I}
    (h : ∀ t, pr.ThreadOk t w.memory (w.threads t)) (hstep : P.Step w l w') :
    ∀ t, pr.ThreadOk t w'.memory (w'.threads t) := by
  cases hstep with
  | @call t c hidle =>
    intro u
    by_cases hu : u = t
    · subst hu
      have hknown : pr.idle u w.memory := by
        have hu := h u
        cases hthread : w.threads u with
        | idle =>
          rw [hthread] at hu
          exact hu
        | returned c v r =>
          rw [hthread] at hu
          exact hu.2
        | running c began moments code =>
          rw [hthread] at hidle
          cases hidle
      simp only [update_self]
      exact pr.threadOk_settle (v := .start w.memory) List.mem_cons_self
        (pr.safe u c w.memory hknown)
    · simp only [update_of_ne hu]
      exact h u
  | @act t c began moments i next hthread hready =>
    have ht := h t
    rw [hthread] at ht
    obtain ⟨hmem, hsafe, -⟩ := ht
    have hself : View.Goes (pr.rely t) ⟨began, w.memory, moments⟩
        ⟨began, w.memory, moments⟩ :=
      ⟨rfl, pr.refl t _, fun _ hx => hx, hmem⟩
    obtain ⟨hallowed, hnext⟩ := hsafe _ hself hready
    intro u
    by_cases hu : u = t
    · subst hu
      simp only [update_self]
      exact pr.threadOk_settle (v := View.after _ _) List.mem_cons_self hnext
    · simp only [update_of_ne hu]
      exact pr.threadOk_sees (h u) (pr.keeps t u i w.memory hu hready hallowed)

/-- **The threads together**: every thread is where the protocol has it, after every run. -/
theorem sound {ls : List (ι × Option I)} (hrun : Interleaving.Runs P.Step w ls w')
    (hstart : ∀ t, w.threads t = .idle ∧ pr.idle t w.memory) :
    ∀ t, pr.ThreadOk t w'.memory (w'.threads t) := by
  refine hrun.invariant (fun _ w => ∀ t, pr.ThreadOk t w.memory (w.threads t)) ?_ ?_
  · intro t
    show pr.ThreadOk t w.memory (w.threads t)
    rw [(hstart t).1]
    exact (hstart t).2
  · exact fun _ _ _ _ h hstep => pr.threadOk_step h hstep

omit [DecidableEq ι] in
theorem ThreadOk.allowed {t : ι} {s began : S} {moments : List S} {c : Call t} {i : I}
    {next : out i → Code I out R}
    (h : pr.ThreadOk t s (.running c began moments (.act i next)))
    (hready : P.ready t i s) : pr.allowed t i s :=
  (h.2.1 _ ⟨rfl, pr.refl t s, fun _ hx => hx, h.1⟩ hready).1

/-- What every allowed instruction keeps of the memory holds at every moment of a run. -/
theorem invariant {G : S → Prop} {ls : List (ι × Option I)}
    (hrun : Interleaving.Runs P.Step w ls w')
    (hstart : ∀ t, w.threads t = .idle ∧ pr.idle t w.memory) (hG : G w.memory)
    (hkeep : ∀ t i s, pr.allowed t i s → G s → G (P.exec i s).1) : G w'.memory := by
  induction hrun with
  | start => exact hG
  | snoc hrun hstep ih =>
    have hok := pr.sound hrun hstart
    cases hstep with
    | call c hidle => exact ih
    | @act t c began moments i next hthread hready =>
      have ht := hok t
      rw [hthread] at ht
      exact hkeep t i _ (ThreadOk.allowed pr ht hready) ih

end Protocol

end SharedCode
