import Antic.WordLock
import Mathlib.Order.Basic

/-! # The hidden lock of a synchronized object — `lock.c`

    A thread that holds the lock of an object takes it again without waiting.  It knows
    itself by `owner`, which it reads without the lock.  Each access of `owner` and of
    `depth` is a step, and each step of the word below it. -/

namespace AnticLock

open Interleaving Function

variable {τ ω : Type*} [DecidableEq τ] [LinearOrder ω]

/-- What one take of the program holds: one object, or the two of `sync a, b`. -/
inductive Block (ω : Type*) where
  | one (o : ω)
  | two (a b : ω)

/-- The order in which `anti_rt_object_lock` and `anti_rt_object_lock_pair` take the
    locks.  The order of `ω` is the one of the addresses. -/
def Block.takes : Block ω → List ω
  | .one o => [o]
  | .two a b =>
    let first := if a ≤ b then a else b
    let second := if first = a then b else a
    if second ≠ first then [first, second] else [first]

/-- The order in which `anti_rt_object_unlock` and `anti_rt_object_unlock_pair` give them back. -/
def Block.gives : Block ω → List ω
  | .one o => [o]
  | .two a b => if a ≠ b then [b, a] else [a]

/-- Where a thread is in `anti_rt_object_lock`. -/
inductive LockAt where
  /-- `object_enter`, before it reads `owner`. -/
  | enter
  /-- `object_enter`, before `depth++`. -/
  | deepen
  /-- `object_hold`, in `anti_rt_word_lock`. -/
  | word
  /-- `object_hold`, before it sets `owner`. -/
  | own
  /-- `object_hold`, before it sets `depth`. -/
  | begin
  deriving DecidableEq

/-- Where a thread is in `anti_rt_object_unlock`. -/
inductive UnlockAt where
  /-- `object_leave`, before `--depth`. -/
  | leave
  /-- Before it clears `owner`. -/
  | disown
  /-- In `anti_rt_word_unlock`. -/
  | release
  deriving DecidableEq

/-- Where a thread is.  `taken` are the locks of the block that it has, `o` the one it is
    at and `rest` the others. -/
inductive Place (ω : Type*) where
  | rest
  | locking (e : Block ω) (taken : List ω) (o : ω) (rest : List ω) (p : LockAt)
  | unlocking (o : ω) (rest : List ω) (p : UnlockAt)

/-- The locks, by their objects, and the threads.  An owner of 0 is none. -/
structure Objects (τ ω : Type*) where
  word : ω → Word τ
  owner : ω → Option τ
  depth : ω → Int
  place : τ → Place ω
  /-- The blocks that the thread is in, the inner one first. -/
  nest : τ → List (Block ω)

/-- All locks free and all threads outside. -/
def Objects.free : Objects τ ω where
  word _ := Word.free
  owner _ := none
  depth _ := 0
  place _ := .rest
  nest _ := []

/-- The place of the thread after a lock of the block is taken. -/
def Objects.nextLock (s : Objects τ ω) (t : τ) (e : Block ω) (taken : List ω) : List ω → Objects τ ω
  | [] =>
    { s with
      place := update s.place t .rest
      nest := update s.nest t (e :: s.nest t) }
  | o :: rest => { s with place := update s.place t (.locking e taken o rest .enter) }

/-- The place of the thread after a lock of a block is given back. -/
def Objects.nextUnlock (s : Objects τ ω) (t : τ) : List ω → Objects τ ω
  | [] => { s with place := update s.place t .rest }
  | o :: rest => { s with place := update s.place t (.unlocking o rest .leave) }

def Objects.goto (s : Objects τ ω) (t : τ) (p : Place ω) : Objects τ ω :=
  { s with place := update s.place t p }

def Objects.setWord (s : Objects τ ω) (o : ω) (w : Word τ) : Objects τ ω :=
  { s with word := update s.word o w }

def Objects.setOwner (s : Objects τ ω) (o : ω) (owner : Option τ) : Objects τ ω :=
  { s with owner := update s.owner o owner }

def Objects.setDepth (s : Objects τ ω) (o : ω) (depth : Int) : Objects τ ω :=
  { s with depth := update s.depth o depth }

/-- One step of the thread.  A thread gives back the block it is in, so its blocks are
    nested properly. -/
inductive ObjectStep : Objects τ ω → τ → Objects τ ω → Prop where
  | lock {s : Objects τ ω} {t : τ} (e : Block ω) : s.place t = .rest →
      ObjectStep s t (s.nextLock t e [] e.takes)
  | again {s : Objects τ ω} {t : τ} {e : Block ω} {taken rest : List ω} {o : ω} :
      s.place t = .locking e taken o rest .enter → s.owner o = some t →
      ObjectStep s t (s.goto t (.locking e taken o rest .deepen))
  | deepen {s : Objects τ ω} {t : τ} {e : Block ω} {taken rest : List ω} {o : ω} :
      s.place t = .locking e taken o rest .deepen →
      ObjectStep s t ((s.setDepth o (s.depth o + 1)).nextLock t e (taken ++ [o]) rest)
  | hold {s : Objects τ ω} {t : τ} {e : Block ω} {taken rest : List ω} {o : ω} {w : Word τ} :
      s.place t = .locking e taken o rest .enter → s.owner o ≠ some t →
      WordStep (s.word o) t w →
      ObjectStep s t ((s.setWord o w).goto t (.locking e taken o rest .word))
  /-- A step of `anti_rt_word_lock`, or of the kernel for the thread. -/
  | word {s : Objects τ ω} {t : τ} {e : Block ω} {taken rest : List ω} {o : ω} {w : Word τ} :
      s.place t = .locking e taken o rest .word → WordStep (s.word o) t w →
      ObjectStep s t ((s.setWord o w).goto t
        (.locking e taken o rest (if w.pc t = .held then .own else .word)))
  | own {s : Objects τ ω} {t : τ} {e : Block ω} {taken rest : List ω} {o : ω} :
      s.place t = .locking e taken o rest .own →
      ObjectStep s t ((s.setOwner o (some t)).goto t (.locking e taken o rest .begin))
  | begin {s : Objects τ ω} {t : τ} {e : Block ω} {taken rest : List ω} {o : ω} :
      s.place t = .locking e taken o rest .begin →
      ObjectStep s t ((s.setDepth o 1).nextLock t e (taken ++ [o]) rest)
  | unlock {s : Objects τ ω} {t : τ} {e : Block ω} {nest : List (Block ω)} :
      s.place t = .rest → s.nest t = e :: nest →
      ObjectStep s t ({ s with nest := update s.nest t nest }.nextUnlock t e.gives)
  | leave {s : Objects τ ω} {t : τ} {rest : List ω} {o : ω} : s.place t = .unlocking o rest .leave →
      ObjectStep s t (if 0 < s.depth o - 1 then (s.setDepth o (s.depth o - 1)).nextUnlock t rest
        else (s.setDepth o (s.depth o - 1)).goto t (.unlocking o rest .disown))
  | disown {s : Objects τ ω} {t : τ} {rest : List ω} {o : ω} :
      s.place t = .unlocking o rest .disown →
      ObjectStep s t ((s.setOwner o none).goto t (.unlocking o rest .release))
  /-- A step of `anti_rt_word_unlock`. -/
  | release {s : Objects τ ω} {t : τ} {rest : List ω} {o : ω} {w : Word τ} :
      s.place t = .unlocking o rest .release → WordStep (s.word o) t w →
      ObjectStep s t (if w.pc t = .out then (s.setWord o w).nextUnlock t rest
        else s.setWord o w)

end AnticLock
