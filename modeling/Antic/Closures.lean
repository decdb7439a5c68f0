import Mathlib.Data.List.Basic

/-! # What a relation reaches from its seeds, and the worklist that finds it

    A worklist holds the keys whose successors are not read yet.  Which of them is taken next, and
    how often a key waits in it, changes nothing about the keys that are done at the end. -/

namespace Closures

open List

variable {K : Type*} {seed : K → Prop} {next : K → K → Prop}

/-- The keys that `next` reaches from the seeds. -/
inductive Reached (seed : K → Prop) (next : K → K → Prop) : K → Prop where
  | seed {x : K} : seed x → Reached seed next x
  | next {x y : K} : Reached seed next x → next x y → Reached seed next y

/-- A set with the seeds in it that `next` does not leave has all that is reached. -/
theorem Reached.closed {S : K → Prop} (hseed : ∀ x, seed x → S x)
    (hnext : ∀ x y, S x → next x y → S y) {x : K} (h : Reached seed next x) : S x := by
  induction h with
  | seed hx => exact hseed _ hx
  | next _ hxy ih => exact hnext _ _ ih hxy

theorem Reached.mono {seed' : K → Prop} {next' : K → K → Prop}
    (hseed : ∀ x, seed x → seed' x) (hnext : ∀ x y, next x y → next' x y) {x : K}
    (h : Reached seed next x) : Reached seed' next' x :=
  h.closed (fun x hx => .seed (hseed x hx)) fun x y hx hxy => .next hx (hnext x y hxy)

/-- The keys that are done and the keys that wait, of a worklist that started with the seeds. -/
structure Worklist (seed : K → Prop) (next : K → K → Prop) (done : K → Prop)
    (work : List K) : Prop where
  sound : ∀ x, done x ∨ x ∈ work → Reached seed next x
  seeds : ∀ x, seed x → done x ∨ x ∈ work
  closed : ∀ x y, done x → next x y → done y ∨ y ∈ work

theorem Worklist.start {done : K → Prop} {work : List K} (hdone : ∀ x, ¬ done x)
    (hwork : ∀ x, seed x ↔ x ∈ work) : Worklist seed next done work :=
  ⟨fun x h => .seed ((hwork x).2 (h.resolve_left (hdone x))), fun x h => .inr ((hwork x).1 h),
    fun x _ h => absurd h (hdone x)⟩

/-- The key in front is done; successors of it wait.  A successor that does not wait is done. -/
theorem Worklist.pop {done done' : K → Prop} {x : K} {work pushed : List K}
    (h : Worklist seed next done (x :: work))
    (hdone : ∀ y, done' y ↔ done y ∨ y = x)
    (hsound : ∀ y ∈ pushed, next x y)
    (hall : ∀ y, next x y → ¬ done' y → y ∈ pushed ∨ y ∈ work) :
    Worklist seed next done' (pushed ++ work) := by
  refine ⟨fun y hy => ?_, fun y hy => ?_, fun y z hy hyz => ?_⟩
  · rcases hy with hy | hy
    · rcases (hdone y).1 hy with hy | rfl
      · exact h.sound y (.inl hy)
      · exact h.sound y (.inr mem_cons_self)
    · rcases mem_append.1 hy with hy | hy
      · exact .next (h.sound x (.inr mem_cons_self)) (hsound y hy)
      · exact h.sound y (.inr (mem_cons_of_mem _ hy))
  · rcases h.seeds y hy with hy | hy
    · exact .inl ((hdone y).2 (.inl hy))
    rcases mem_cons.1 hy with hy | hy
    · exact .inl ((hdone y).2 (.inr hy))
    · exact .inr (mem_append_right _ hy)
  · by_cases hz : done' z
    · exact .inl hz
    refine .inr (mem_append.2 ?_)
    rcases (hdone y).1 hy with hy | rfl
    · rcases h.closed y z hy hyz with hz' | hz'
      · exact absurd ((hdone z).2 (.inl hz')) hz
      rcases mem_cons.1 hz' with hz' | hz'
      · exact absurd ((hdone z).2 (.inr hz')) hz
      · exact .inr hz'
    · exact hall z hyz hz

/-- With nothing left to do, what is done is what the seeds reach. -/
theorem Worklist.finish {done : K → Prop} (h : Worklist seed next done []) (x : K) :
    done x ↔ Reached seed next x := by
  refine ⟨fun hx => h.sound x (.inl hx), fun hx => ?_⟩
  refine hx.closed (fun y hy => ?_) fun y z hy hyz => ?_
  · exact (h.seeds y hy).resolve_right not_mem_nil
  · exact (h.closed y z hy hyz).resolve_right not_mem_nil

end Closures
