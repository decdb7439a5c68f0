import Antic.HashTables
import Mathlib.Data.List.Basic

/-! # What every collection shares — `Collection<T>` of `collection.anti`

    A collection fills five functions that reach an element by its place, and the `_all`, `_first`
    and `_one` forms are loops over them.  `Cursor` says what the five functions are to do, and each
    form then does to the elements in the order of the walk what its name says.

    A loop has as much fuel as there are elements.  A test answers by the turn it is asked in, so it
    may keep a state of its own. -/

namespace AnticCollection

open List

/-- The functions a collection fills.  `lendPlace` gives the element it lent
    beside the collection after, and `removed` is `resized(-1)`. -/
structure Collection (C T : Type) where
  count : C → Nat
  firstPlace : C → Option Nat
  nextPlace : C → Int → Except Stop (Option Nat)
  lendPlace : C → Int → (T → T) → Except Stop (C × T)
  takePlace : C → Int → Except Stop (C × T × Option Nat)
  removed : C → C

namespace Collection

variable {C T : Type} (c : Collection C T)

/-! ## The forms -/

/-- `accepts`. -/
def accepts (s : C) (place : Nat) (test : T → Bool) : Except Stop (C × Bool) := do
  let (s, x) ← c.lendPlace s place id
  return (s, test x)

/-- The loop of `first_match`. -/
def firstMatchFrom (test : Nat → T → Bool) :
    Nat → Nat → Option Nat → C → Except Stop (C × Option Nat)
  | _, _, none, s => .ok (s, none)
  | 0, _, some _, _ => .error .endless
  | fuel + 1, turn, some place, s => do
      let (s, yes) ← c.accepts s place (test turn)
      if yes then return (s, some place)
      else firstMatchFrom test fuel (turn + 1) (← c.nextPlace s place) s

/-- `first_match`. -/
def firstMatch (test : Nat → T → Bool) (s : C) : Except Stop (C × Option Nat) :=
  c.firstMatchFrom test (c.count s) 0 (c.firstPlace s) s

/-- The loop of `one_match`, with the first match so far and the number of matches. -/
def oneMatchFrom (test : Nat → T → Bool) :
    Nat → Nat → Option Nat → Option Nat → Nat → C → Except Stop (C × Option Nat × Nat)
  | _, _, none, found, n, s => .ok (s, found, n)
  | 0, _, some _, _, _, _ => .error .endless
  | fuel + 1, turn, some place, found, n, s => do
      let (s, yes) ← c.accepts s place (test turn)
      let after ← c.nextPlace s place
      if yes then
        oneMatchFrom test fuel (turn + 1) after (if n = 0 then some place else found) (n + 1) s
      else oneMatchFrom test fuel (turn + 1) after found n s

/-- `one_match`: the place of the one match, or the failure `NotOne` with the number of matches. -/
def oneMatch (test : Nat → T → Bool) (s : C) : Except Stop (C × Except Nat (Option Nat)) := do
  let (s, found, n) ← c.oneMatchFrom test (c.count s) 0 (c.firstPlace s) none 0 s
  if n ≠ 1 then return (s, .error n) else return (s, .ok found)

/-- The loop of `update_all`. -/
def updateAllFrom (test : Nat → T → Bool) (change : Nat → T → T) :
    Nat → Nat → Option Nat → Nat → C → Except Stop (C × Nat)
  | _, _, none, n, s => .ok (s, n)
  | 0, _, some _, _, _ => .error .endless
  | fuel + 1, turn, some place, n, s => do
      let (s, yes) ← c.accepts s place (test turn)
      if yes then
        let (s, _) ← c.lendPlace s place (change turn)
        updateAllFrom test change fuel (turn + 1) (← c.nextPlace s place) (n + 1) s
      else updateAllFrom test change fuel (turn + 1) (← c.nextPlace s place) n s

/-- `update_all`. -/
def updateAll (test : Nat → T → Bool) (change : Nat → T → T) (s : C) :
    Except Stop (C × Nat) :=
  c.updateAllFrom test change (c.count s) 0 (c.firstPlace s) 0 s

/-- `update_first`. -/
def updateFirst (test : Nat → T → Bool) (change : T → T) (s : C) :
    Except Stop (C × Bool) := do
  match ← c.firstMatch test s with
  | (s, none) => return (s, false)
  | (s, some place) =>
    let (s, _) ← c.lendPlace s place change
    return (s, true)

/-- `update_one`.  A place that is not there is `-1`. -/
def updateOne (test : Nat → T → Bool) (change : T → T) (s : C) :
    Except Stop (C × Except Nat Unit) := do
  match ← c.oneMatch test s with
  | (s, .error n) => return (s, .error n)
  | (s, .ok found) =>
    let (s, _) ← c.lendPlace s (found.elim (-1) fun place => place) change
    return (s, .ok ())

/-- The loop of `remove_all`. -/
def removeAllFrom (test : Nat → T → Bool) : Nat → Nat → Option Nat → Nat → C → Except Stop (C × Nat)
  | _, _, none, n, s => .ok (s, n)
  | 0, _, some _, _, _ => .error .endless
  | fuel + 1, turn, some place, n, s => do
      let (s, yes) ← c.accepts s place (test turn)
      if yes then
        let (s, _, after) ← c.takePlace s place
        removeAllFrom test fuel (turn + 1) after (n + 1) (c.removed s)
      else removeAllFrom test fuel (turn + 1) (← c.nextPlace s place) n s

/-- `remove_all`. -/
def removeAll (test : Nat → T → Bool) (s : C) : Except Stop (C × Nat) :=
  c.removeAllFrom test (c.count s) 0 (c.firstPlace s) 0 s

/-- `remove_first`. -/
def removeFirst (test : Nat → T → Bool) (s : C) : Except Stop (C × Option T) := do
  match ← c.firstMatch test s with
  | (s, none) => return (s, none)
  | (s, some place) =>
    let (s, x, _) ← c.takePlace s place
    return (c.removed s, some x)

/-- `remove_one`. -/
def removeOne (test : Nat → T → Bool) (s : C) : Except Stop (C × Except Nat T) := do
  match ← c.oneMatch test s with
  | (s, .error n) => return (s, .error n)
  | (s, .ok found) =>
    let (s, x, _) ← c.takePlace s (found.elim (-1) fun place => place)
    return (c.removed s, .ok x)

/-- The loop of `clear`. -/
def clearFrom : Nat → Option Nat → C → Except Stop C
  | _, none, s => .ok s
  | 0, some _, _ => .error .endless
  | fuel + 1, some place, s => do
      let (s, _, after) ← c.takePlace s place
      clearFrom fuel after (c.removed s)

/-- `clear`. -/
def clear (s : C) : Except Stop C := c.clearFrom (c.count s) (c.firstPlace s) s

end Collection

/-! ## The forms on a list of elements -/

/-- A call of one of the forms. -/
inductive Form (T : Type) where
  | updateAll (test : Nat → T → Bool) (change : Nat → T → T)
  | updateFirst (test : Nat → T → Bool) (change : T → T)
  | updateOne (test : Nat → T → Bool) (change : T → T)
  | removeAll (test : Nat → T → Bool)
  | removeFirst (test : Nat → T → Bool)
  | removeOne (test : Nat → T → Bool)
  | clear

/-- What a form gives. -/
inductive FormAnswer (T : Type) where
  | finished
  | number (n : Nat)
  | flag (b : Bool)
  | element (x : Option T)
  /-- The failure `NotOne`, with the number of matches. -/
  | notOne (n : Nat)

/-- A form of a collection. -/
def Collection.form {C T : Type} (c : Collection C T) (s : C) :
    Form T → Except Stop (C × FormAnswer T)
  | .updateAll test change => do
      let (s, n) ← c.updateAll test change s
      return (s, .number n)
  | .updateFirst test change => do
      let (s, found) ← c.updateFirst test change s
      return (s, .flag found)
  | .updateOne test change => do
      match ← c.updateOne test change s with
      | (s, .error n) => return (s, .notOne n)
      | (s, .ok ()) => return (s, .finished)
  | .removeAll test => do
      let (s, n) ← c.removeAll test s
      return (s, .number n)
  | .removeFirst test => do
      let (s, x) ← c.removeFirst test s
      return (s, .element x)
  | .removeOne test => do
      match ← c.removeOne test s with
      | (s, .error n) => return (s, .notOne n)
      | (s, .ok x) => return (s, .element (some x))
  | .clear => do return (← c.clear s, .finished)

section Lists

variable {T : Type} (test : Nat → T → Bool)

/-- The number of elements that a test accepts, from the turn `i` on. -/
def hits : Nat → List T → Nat
  | _, [] => 0
  | i, x :: xs => (if test i x then 1 else 0) + hits (i + 1) xs

/-- The elements before the first match, the match, and those after it. -/
def splitFirst : Nat → List T → Option (List T × T × List T)
  | _, [] => none
  | i, x :: xs =>
    if test i x then some ([], x, xs)
    else (splitFirst (i + 1) xs).map fun (before, y, after) => (x :: before, y, after)

def changedAll (change : Nat → T → T) : Nat → List T → List T
  | _, [] => []
  | i, x :: xs => (if test i x then change i x else x) :: changedAll change (i + 1) xs

def keptAll : Nat → List T → List T
  | _, [] => []
  | i, x :: xs => if test i x then keptAll (i + 1) xs else x :: keptAll (i + 1) xs

def changedFirst (change : T → T) (l : List T) : List T :=
  match splitFirst test 0 l with
  | none => l
  | some (before, x, after) => before ++ change x :: after

def keptFirst (l : List T) : List T :=
  match splitFirst test 0 l with
  | none => l
  | some (before, _, after) => before ++ after

def firstOf (l : List T) : Option T := (splitFirst test 0 l).map fun r => r.2.1

end Lists

/-- What a form does to the elements in the order of the walk. -/
def Form.run {T : Type} (l : List T) : Form T → List T × FormAnswer T
  | .updateAll test change => (changedAll test change 0 l, .number (hits test 0 l))
  | .updateFirst test change => (changedFirst test change l, .flag (firstOf test l).isSome)
  | .updateOne test change =>
    if hits test 0 l = 1 then (changedFirst test change l, .finished)
    else (l, .notOne (hits test 0 l))
  | .removeAll test => (keptAll test 0 l, .number (hits test 0 l))
  | .removeFirst test => (keptFirst test l, .element (firstOf test l))
  | .removeOne test =>
    if hits test 0 l = 1 then (keptFirst test l, .element (firstOf test l))
    else (l, .notOne (hits test 0 l))
  | .clear => ([], .finished)

theorem hits_one {test : Nat → T → Bool} {turn : Nat} {l : List T} (hone : hits test turn l = 1) :
    ∃ before x after, splitFirst test turn l = some (before, x, after) := by
  induction l generalizing turn with
  | nil => cases hone
  | cons x l ih =>
    rw [hits] at hone
    rw [splitFirst]
    cases hyes : test turn x with
    | true => exact ⟨[], x, l, rfl⟩
    | false =>
      rw [hyes] at hone
      obtain ⟨before, y, after, hsplit⟩ := ih (hone.symm.trans (Nat.zero_add _)).symm
      exact ⟨x :: before, y, after, by rw [hsplit]; rfl⟩

/-! ## A collection whose functions walk its elements -/

/-- `At s done rest place`: a walk of `s` has passed the elements `done`, the
    elements `rest` are to come, and it stands at `place`. -/
structure Reader {C T : Type} (c : Collection C T)
    (At : C → List T → List T → Option Nat → Prop) : Prop where
  count : ∀ {s done rest p}, At s done rest p → c.count s = done.length + rest.length
  nil : ∀ {s done p}, At s done [] p → p = none
  cons : ∀ {s done x rest p}, At s done (x :: rest) p → ∃ q, p = some q
  look : ∀ {s done x rest q}, At s done (x :: rest) (some q) → c.lendPlace s q id = .ok (s, x)
  next : ∀ {s done x rest q}, At s done (x :: rest) (some q) →
    ∃ p, c.nextPlace s q = .ok p ∧ At s (done ++ [x]) rest p

/-- A change in place and a removal leave the other elements in their order. -/
structure Cursor {C T : Type} (c : Collection C T)
    (At : C → List T → List T → Option Nat → Prop) : Prop extends Reader c At where
  lend : ∀ {s done x rest q}, At s done (x :: rest) (some q) → ∀ f,
    ∃ s', c.lendPlace s q f = .ok (s', x) ∧ At s' done (f x :: rest) (some q)
  take : ∀ {s done x rest q}, At s done (x :: rest) (some q) →
    ∃ s' p, c.takePlace s q = .ok (s', x, p) ∧ At (c.removed s') done rest p
  rewind : ∀ {s done rest p}, At s done rest p → At s [] (done ++ rest) (c.firstPlace s)

namespace Reader

variable {C T : Type} {c : Collection C T} {At : C → List T → List T → Option Nat → Prop}
  (h : Reader c At) {s : C} {done rest : List T} {p : Option Nat}
include h

theorem accepts_eq {x : T} {q : Nat} (hat : At s done (x :: rest) (some q))
    (test : T → Bool) : c.accepts s q test = .ok (s, test x) := by
  rw [Collection.accepts, h.look hat]
  rfl

/-! ### The search for a match -/

theorem firstMatchFrom_eq (test : Nat → T → Bool) {fuel : Nat} (turn : Nat)
    (hat : At s done rest p) (hfuel : rest.length ≤ fuel) :
    match splitFirst test turn rest with
    | none => c.firstMatchFrom test fuel turn p s = .ok (s, none)
    | some (before, x, after) => ∃ q,
        c.firstMatchFrom test fuel turn p s = .ok (s, some q) ∧
        At s (done ++ before) (x :: after) (some q) := by
  induction rest generalizing done p fuel turn with
  | nil =>
    cases h.nil hat
    cases fuel <;> rfl
  | cons x rest ih =>
    obtain ⟨q, rfl⟩ := h.cons hat
    cases fuel with
    | zero => cases hfuel
    | succ fuel =>
      obtain ⟨p, hnext, hat'⟩ := h.next hat
      rw [splitFirst]
      cases hyes : test turn x with
      | true =>
        refine ⟨q, ?_, ?_⟩
        · rw [Collection.firstMatchFrom, h.accepts_eq hat, hyes]
          rfl
        · rw [append_nil]
          exact hat
      | false =>
        have hmiss : c.firstMatchFrom test (fuel + 1) turn (some q) s =
            c.firstMatchFrom test fuel (turn + 1) p s := by
          rw [Collection.firstMatchFrom, h.accepts_eq hat, hyes]
          show (c.nextPlace s q >>= fun p => c.firstMatchFrom test fuel (turn + 1) p s) = _
          rw [hnext]
          rfl
        have hrest := ih (turn + 1) hat' (Nat.le_of_succ_le_succ hfuel)
        rw [hmiss]
        cases hsplit : splitFirst test (turn + 1) rest with
        | none =>
          rw [hsplit] at hrest
          exact hrest
        | some r =>
          rw [hsplit] at hrest
          obtain ⟨q', hloop, hq'⟩ := hrest
          refine ⟨q', hloop, ?_⟩
          rw [append_assoc] at hq'
          exact hq'

theorem firstMatch_eq (test : Nat → T → Bool) {l : List T} (hat : At s [] l (c.firstPlace s)) :
    match splitFirst test 0 l with
    | none => c.firstMatch test s = .ok (s, none)
    | some (before, x, after) => ∃ q, c.firstMatch test s = .ok (s, some q) ∧
        At s before (x :: after) (some q) :=
  h.firstMatchFrom_eq test 0 hat (by rw [h.count hat]; exact Nat.le_add_left _ _)

theorem oneMatchFrom_eq (test : Nat → T → Bool) {fuel : Nat} (turn n : Nat) (found : Option Nat)
    (hat : At s done rest p) (hfuel : rest.length ≤ fuel) :
    ∃ place, c.oneMatchFrom test fuel turn p found n s = .ok (s, place, n + hits test turn rest) ∧
      (0 < n → place = found) ∧
      (n = 0 → match splitFirst test turn rest with
        | none => place = found
        | some (before, x, after) => ∃ q, place = some q ∧
            At s (done ++ before) (x :: after) (some q)) := by
  induction rest generalizing done p fuel turn n found with
  | nil =>
    cases h.nil hat
    refine ⟨found, ?_, fun _ => rfl, fun _ => rfl⟩
    cases fuel <;> rfl
  | cons x rest ih =>
    obtain ⟨q, rfl⟩ := h.cons hat
    cases fuel with
    | zero => cases hfuel
    | succ fuel =>
      obtain ⟨p, hnext, hat'⟩ := h.next hat
      have hle := Nat.le_of_succ_le_succ hfuel
      rw [splitFirst, hits, Collection.oneMatchFrom, h.accepts_eq hat]
      cases hyes : test turn x with
      | true =>
        obtain ⟨place, hloop, hpos, -⟩ := ih (turn + 1) (n + 1)
          (if n = 0 then some q else found) hat' hle
        refine ⟨place, ?_, fun hn => ?_, fun hn => ?_⟩
        · show (c.nextPlace s q >>= fun p => c.oneMatchFrom test fuel (turn + 1) p
            (if n = 0 then some q else found) (n + 1) s) = _
          rw [hnext, ← Nat.add_assoc]
          exact hloop
        · rw [hpos (Nat.succ_pos n), if_neg (Nat.ne_of_gt hn)]
        · refine ⟨q, ?_, ?_⟩
          · rw [hpos (Nat.succ_pos n), if_pos hn]
          · rw [append_nil]
            exact hat
      | false =>
        obtain ⟨place, hloop, hpos, hzero⟩ := ih (turn + 1) n found hat' hle
        refine ⟨place, ?_, hpos, fun hn => ?_⟩
        · show (c.nextPlace s q >>= fun p => c.oneMatchFrom test fuel (turn + 1) p found n s) = _
          rw [hnext]
          show c.oneMatchFrom test fuel (turn + 1) p found n s = .ok (s, place, n + (0 + _))
          rw [Nat.zero_add]
          exact hloop
        · have hrest := hzero hn
          cases hsplit : splitFirst test (turn + 1) rest with
          | none =>
            rw [hsplit] at hrest
            exact hrest
          | some r =>
            rw [hsplit] at hrest
            obtain ⟨q', hplace, hq'⟩ := hrest
            refine ⟨q', hplace, ?_⟩
            rw [append_assoc] at hq'
            exact hq'

/-- `one_match` gives the place of the first match where there is one match. -/
theorem oneMatch_eq (test : Nat → T → Bool) {l : List T} (hat : At s [] l (c.firstPlace s)) :
    (hits test 0 l ≠ 1 ∧ c.oneMatch test s = .ok (s, .error (hits test 0 l))) ∨
    (hits test 0 l = 1 ∧ ∃ before x after q, splitFirst test 0 l = some (before, x, after) ∧
      c.oneMatch test s = .ok (s, .ok (some q)) ∧ At s before (x :: after) (some q)) := by
  have hle : l.length ≤ c.count s := by
    rw [h.count hat]
    exact Nat.le_add_left _ _
  obtain ⟨place, hloop, -, hfound⟩ := h.oneMatchFrom_eq test 0 0 none hat hle
  rw [Nat.zero_add] at hloop
  have hone : c.oneMatch test s = if hits test 0 l ≠ 1 then .ok (s, .error (hits test 0 l))
      else .ok (s, .ok place) := by
    rw [Collection.oneMatch, hloop]
    rfl
  by_cases hn : hits test 0 l = 1
  · obtain ⟨before, x, after, hsplit⟩ := hits_one hn
    have hfound := hfound rfl
    rw [hsplit] at hfound
    obtain ⟨q, rfl, hq⟩ := hfound
    exact .inr ⟨hn, before, x, after, q, hsplit, hone.trans (if_neg (not_not.2 hn)), hq⟩
  · exact .inl ⟨hn, hone.trans (if_pos hn)⟩

/-! ### The forms for one match

    `P s l` holds of a collection of the elements `l`.  The element of the match is
    lent or taken, and the rest of the form follows. -/

section Matches

variable {l : List T} (P : C → List T → Prop) (hP : P s l)
  (hat : At s [] l (c.firstPlace s)) (test : Nat → T → Bool)
include hP hat

theorem updateFirst_eq (change : T → T)
    (hlend : ∀ {before x after q}, At s before (x :: after) (some q) →
      ∃ s', c.lendPlace s q change = .ok (s', x) ∧ P s' (before ++ change x :: after)) :
    ∃ s', c.form s (.updateFirst test change) = .ok (s', .flag (firstOf test l).isSome) ∧
      P s' (changedFirst test change l) := by
  have hmatch := h.firstMatch_eq test hat
  rw [changedFirst, firstOf]
  cases hsplit : splitFirst test 0 l with
  | none =>
    rw [hsplit] at hmatch
    refine ⟨s, ?_, hP⟩
    rw [Collection.form, Collection.updateFirst, hmatch]
    rfl
  | some r =>
    rw [hsplit] at hmatch
    obtain ⟨q, hq, hat'⟩ := hmatch
    obtain ⟨s', hcall, hend⟩ := hlend hat'
    have hform : c.updateFirst test change s = .ok (s', true) := by
      rw [Collection.updateFirst, hq]
      show (c.lendPlace s q change >>= fun r => pure (r.1, true)) = _
      rw [hcall]
      rfl
    refine ⟨s', ?_, hend⟩
    rw [Collection.form, hform]
    rfl

theorem removeFirst_eq (htake : ∀ {before x after q}, At s before (x :: after) (some q) →
      ∃ s' p, c.takePlace s q = .ok (s', x, p) ∧ P (c.removed s') (before ++ after)) :
    ∃ s', c.form s (.removeFirst test) = .ok (s', .element (firstOf test l)) ∧
      P s' (keptFirst test l) := by
  have hmatch := h.firstMatch_eq test hat
  rw [keptFirst, firstOf]
  cases hsplit : splitFirst test 0 l with
  | none =>
    rw [hsplit] at hmatch
    refine ⟨s, ?_, hP⟩
    rw [Collection.form, Collection.removeFirst, hmatch]
    rfl
  | some r =>
    obtain ⟨before, x, after⟩ := r
    rw [hsplit] at hmatch
    obtain ⟨q, hq, hat'⟩ := hmatch
    obtain ⟨s', p, hcall, hend⟩ := htake hat'
    have hform : c.removeFirst test s = .ok (c.removed s', some x) := by
      rw [Collection.removeFirst, hq]
      show (c.takePlace s q >>= fun r => pure (c.removed r.1, some r.2.1)) = _
      rw [hcall]
      rfl
    refine ⟨c.removed s', ?_, hend⟩
    rw [Collection.form, hform]
    rfl

theorem updateOne_eq (change : T → T)
    (hlend : ∀ {before x after q}, At s before (x :: after) (some q) →
      ∃ s', c.lendPlace s q change = .ok (s', x) ∧ P s' (before ++ change x :: after)) :
    ∃ s', c.form s (.updateOne test change) = .ok (s', ((Form.updateOne test change).run l).2) ∧
      P s' ((Form.updateOne test change).run l).1 := by
  rw [Form.run]
  rcases h.oneMatch_eq test hat with ⟨hn, hone⟩ | ⟨hn, before, x, after, q, hsplit, hone, hat'⟩
  · rw [if_neg hn]
    refine ⟨s, ?_, hP⟩
    rw [Collection.form, Collection.updateOne, hone]
    rfl
  · obtain ⟨s', hcall, hend⟩ := hlend hat'
    rw [if_pos hn, changedFirst, hsplit]
    have hform : c.updateOne test change s = .ok (s', .ok ()) := by
      rw [Collection.updateOne, hone]
      show (c.lendPlace s q change >>= fun r => pure (r.1, Except.ok ())) = _
      rw [hcall]
      rfl
    refine ⟨s', ?_, hend⟩
    rw [Collection.form, hform]
    rfl

theorem removeOne_eq (htake : ∀ {before x after q}, At s before (x :: after) (some q) →
      ∃ s' p, c.takePlace s q = .ok (s', x, p) ∧ P (c.removed s') (before ++ after)) :
    ∃ s', c.form s (.removeOne test) = .ok (s', ((Form.removeOne test).run l).2) ∧
      P s' ((Form.removeOne test).run l).1 := by
  rw [Form.run]
  rcases h.oneMatch_eq test hat with ⟨hn, hone⟩ | ⟨hn, before, x, after, q, hsplit, hone, hat'⟩
  · rw [if_neg hn]
    refine ⟨s, ?_, hP⟩
    rw [Collection.form, Collection.removeOne, hone]
    rfl
  · obtain ⟨s', p, hcall, hend⟩ := htake hat'
    rw [if_pos hn, keptFirst, firstOf, hsplit]
    have hform : c.removeOne test s = .ok (c.removed s', .ok x) := by
      rw [Collection.removeOne, hone]
      show (c.takePlace s q >>= fun r => pure (c.removed r.1, Except.ok r.2.1)) = _
      rw [hcall]
      rfl
    refine ⟨c.removed s', ?_, hend⟩
    rw [Collection.form, hform]
    rfl

end Matches

end Reader

namespace Cursor

variable {C T : Type} {c : Collection C T} {At : C → List T → List T → Option Nat → Prop}
  (h : Cursor c At) {s : C} {done rest : List T} {p : Option Nat}
include h

/-! ### The walks that change elements -/

theorem updateAllFrom_eq (test : Nat → T → Bool) (change : Nat → T → T)
    {fuel : Nat} (turn n : Nat) (hat : At s done rest p) (hfuel : rest.length ≤ fuel) :
    ∃ s' p', c.updateAllFrom test change fuel turn p n s = .ok (s', n + hits test turn rest) ∧
      At s' (done ++ changedAll test change turn rest) [] p' := by
  induction rest generalizing done p fuel turn n s with
  | nil =>
    cases h.nil hat
    refine ⟨s, none, ?_, ?_⟩
    · cases fuel <;> rfl
    · rw [changedAll, append_nil]
      exact hat
  | cons x rest ih =>
    obtain ⟨q, rfl⟩ := h.cons hat
    cases fuel with
    | zero => cases hfuel
    | succ fuel =>
      have hle := Nat.le_of_succ_le_succ hfuel
      rw [hits, changedAll, Collection.updateAllFrom, h.accepts_eq hat]
      cases hyes : test turn x with
      | true =>
        obtain ⟨s₁, hlend, hat₁⟩ := h.lend hat (change turn)
        obtain ⟨p, hnext, hat'⟩ := h.next hat₁
        obtain ⟨s', p', hloop, hend⟩ := ih (turn + 1) (n + 1) hat' hle
        refine ⟨s', p', ?_, ?_⟩
        · show (c.lendPlace s q (change turn) >>= fun r => c.nextPlace r.1 q >>= fun p =>
            c.updateAllFrom test change fuel (turn + 1) p (n + 1) r.1) = _
          rw [hlend]
          show (c.nextPlace s₁ q >>= fun p => _) = _
          rw [hnext, ← Nat.add_assoc]
          exact hloop
        · rw [append_assoc] at hend
          exact hend
      | false =>
        obtain ⟨p, hnext, hat'⟩ := h.next hat
        obtain ⟨s', p', hloop, hend⟩ := ih (turn + 1) n hat' hle
        refine ⟨s', p', ?_, ?_⟩
        · show (c.nextPlace s q >>= fun p =>
            c.updateAllFrom test change fuel (turn + 1) p n s) = .ok (s', n + (0 + _))
          rw [hnext, Nat.zero_add]
          exact hloop
        · rw [append_assoc] at hend
          exact hend

theorem removeAllFrom_eq (test : Nat → T → Bool) {fuel : Nat} (turn n : Nat)
    (hat : At s done rest p) (hfuel : rest.length ≤ fuel) :
    ∃ s' p', c.removeAllFrom test fuel turn p n s = .ok (s', n + hits test turn rest) ∧
      At s' (done ++ keptAll test turn rest) [] p' := by
  induction rest generalizing done p fuel turn n s with
  | nil =>
    cases h.nil hat
    refine ⟨s, none, ?_, ?_⟩
    · cases fuel <;> rfl
    · rw [keptAll, append_nil]
      exact hat
  | cons x rest ih =>
    obtain ⟨q, rfl⟩ := h.cons hat
    cases fuel with
    | zero => cases hfuel
    | succ fuel =>
      have hle := Nat.le_of_succ_le_succ hfuel
      rw [hits, keptAll, Collection.removeAllFrom, h.accepts_eq hat]
      cases hyes : test turn x with
      | true =>
        obtain ⟨s₁, p, htake, hat'⟩ := h.take hat
        obtain ⟨s', p', hloop, hend⟩ := ih (turn + 1) (n + 1) hat' hle
        refine ⟨s', p', ?_, hend⟩
        show (c.takePlace s q >>= fun r =>
          c.removeAllFrom test fuel (turn + 1) r.2.2 (n + 1) (c.removed r.1)) = _
        rw [htake, ← Nat.add_assoc]
        exact hloop
      | false =>
        obtain ⟨p, hnext, hat'⟩ := h.next hat
        obtain ⟨s', p', hloop, hend⟩ := ih (turn + 1) n hat' hle
        refine ⟨s', p', ?_, ?_⟩
        · show (c.nextPlace s q >>= fun p =>
            c.removeAllFrom test fuel (turn + 1) p n s) = .ok (s', n + (0 + _))
          rw [hnext, Nat.zero_add]
          exact hloop
        · rw [append_assoc] at hend
          exact hend

theorem clearFrom_eq {fuel : Nat} (hat : At s done rest p) (hfuel : rest.length ≤ fuel) :
    ∃ s' p', c.clearFrom fuel p s = .ok s' ∧ At s' done [] p' := by
  induction rest generalizing p fuel s with
  | nil =>
    cases h.nil hat
    refine ⟨s, none, ?_, hat⟩
    cases fuel <;> rfl
  | cons x rest ih =>
    obtain ⟨q, rfl⟩ := h.cons hat
    cases fuel with
    | zero => cases hfuel
    | succ fuel =>
      obtain ⟨s₁, p, htake, hat'⟩ := h.take hat
      obtain ⟨s', p', hloop, hend⟩ := ih hat' (Nat.le_of_succ_le_succ hfuel)
      refine ⟨s', p', ?_, hend⟩
      rw [Collection.clearFrom, htake]
      exact hloop

/-! ### The forms -/

/-- A walk of the elements `l` starts. -/
def Stands (c : Collection C T) (At : C → List T → List T → Option Nat → Prop) (s : C)
    (l : List T) : Prop := At s [] l (c.firstPlace s)

/-- **Each form does what its name says**: the elements in the order of the walk
    become what the form makes of the list of them. -/
theorem form_eq (f : Form T) {l : List T} (hat : At s [] l (c.firstPlace s)) :
    ∃ s', c.form s f = .ok (s', (f.run l).2) ∧ Stands c At s' (f.run l).1 := by
  have hle : l.length ≤ c.count s := by
    rw [h.count hat]
    exact Nat.le_add_left _ _
  cases f with
  | updateAll test change =>
    obtain ⟨s', p', hloop, hend⟩ := h.updateAllFrom_eq test change 0 0 hat hle
    refine ⟨s', ?_, ?_⟩
    · rw [Collection.form, Collection.updateAll, hloop, Nat.zero_add]
      rfl
    · have hrewind := h.rewind hend
      rw [nil_append, append_nil] at hrewind
      exact hrewind
  | removeAll test =>
    obtain ⟨s', p', hloop, hend⟩ := h.removeAllFrom_eq test 0 0 hat hle
    refine ⟨s', ?_, ?_⟩
    · rw [Collection.form, Collection.removeAll, hloop, Nat.zero_add]
      rfl
    · have hrewind := h.rewind hend
      rw [nil_append, append_nil] at hrewind
      exact hrewind
  | clear =>
    obtain ⟨s', p', hloop, hend⟩ := h.clearFrom_eq hat hle
    refine ⟨s', ?_, h.rewind hend⟩
    rw [Collection.form, Collection.clear, hloop]
    rfl
  | updateFirst test change =>
    refine h.updateFirst_eq (Stands c At) hat hat test change fun hm => ?_
    obtain ⟨s', hlend, hend⟩ := h.lend hm change
    exact ⟨s', hlend, h.rewind hend⟩
  | removeFirst test =>
    refine h.removeFirst_eq (Stands c At) hat hat test fun hm => ?_
    obtain ⟨s', p, htake, hend⟩ := h.take hm
    exact ⟨s', p, htake, h.rewind hend⟩
  | updateOne test change =>
    refine h.updateOne_eq (Stands c At) hat hat test change fun hm => ?_
    obtain ⟨s', hlend, hend⟩ := h.lend hm change
    exact ⟨s', hlend, h.rewind hend⟩
  | removeOne test =>
    refine h.removeOne_eq (Stands c At) hat hat test fun hm => ?_
    obtain ⟨s', p, htake, hend⟩ := h.take hm
    exact ⟨s', p, htake, h.rewind hend⟩

end Cursor

end AnticCollection
