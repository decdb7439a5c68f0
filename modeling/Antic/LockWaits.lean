import Antic.DepthFirst
import Antic.LockOrder

/-! # Waits while a lock is held — `sema_lock.c`

    The pass has read the bodies: each function has the waits and the calls of its body
    in the order of the text.  `find_waits` marks the functions that reach a wait and
    gives each the first one; `warn_waits` warns where the code holds a lock.

    * A function is its index in the table `fns`, below `fn_count`; a site that calls
      no function of the table has no callee (`NO_INDEX`).
    * `read_function` reads one body after the other, so the sites of the functions
      stand in the table `waits` one function after the other. -/

namespace AnticLockWaits

open AnticLockOrder DepthFirst

/-- `enum wait_kind`. -/
inductive WaitKind where
  | recv | send | select | join | joinAll
  deriving DecidableEq, Repr

/-- `struct wait_origin`.  `module_` is empty for a line of the module that compiles. -/
structure WaitOrigin where
  kind : WaitKind
  line : Int
  module_ : List UInt8
  deriving DecidableEq, Repr

/-- `struct wait_site`, with the names of `symbol` and of `lock_fn`. -/
structure WaitSite (fnCount : Nat) where
  pos : Pos
  callee : Option (Fin fnCount)
  symbol : Option (List UInt8)
  origin : WaitOrigin
  held : Bool
  lockPos : Pos
  lockCount : Nat
  lockFn : Option (List UInt8)
  deriving DecidableEq, Repr

/-- `struct function`: where its source is, none for the module, and its sites. -/
structure Function_ (fnCount : Nat) where
  home : Option (List UInt8)
  sites : List (WaitSite fnCount)
  deriving DecidableEq, Repr

/-- The functions of `struct lock_walk`. -/
abbrev LockWalk (fnCount : Nat) : Type := Fin fnCount → Function_ fnCount

/-- What `find_waits` gives each function. -/
structure Waits (fnCount : Nat) where
  waits : Fin fnCount → Bool
  wait : Fin fnCount → WaitOrigin

variable {fnCount : Nat}

/-- The table `w->waits`, each site with its function. -/
def LockWalk.table (w : LockWalk fnCount) : List (Function_ fnCount × WaitSite fnCount) :=
  (List.finRange fnCount).flatMap fun f => (w f).sites.map fun s => (w f, s)

/-- `site_wait(w, s) != NULL`. -/
def siteWaits (waits : Fin fnCount → Bool) (s : WaitSite fnCount) : Bool :=
  match s.callee with
  | none => true
  | some c => waits c

/-- `site_wait`. -/
def siteWait (r : Waits fnCount) (s : WaitSite fnCount) : Option WaitOrigin :=
  match s.callee with
  | none => some s.origin
  | some c => if r.waits c then some (r.wait c) else none

/-- What a walk reads at a site: the wait, or the function it calls. -/
def readSite (s : WaitSite fnCount) : WaitOrigin ⊕ Fin fnCount :=
  match s.callee with
  | none => .inl s.origin
  | some c => .inr c

/-- Whether a function that is not marked yet reaches a wait at one of its sites. -/
def reachesWait (w : LockWalk fnCount) (waits : Fin fnCount → Bool) (f : Fin fnCount) : Bool :=
  (w f).sites.any (siteWaits waits)

/-- The loop of `find_waits` over `changed`. -/
def markWaits (w : LockWalk fnCount) : Fin fnCount → Bool :=
  rounds (reachesWait w) (List.finRange fnCount) (fnCount + 1) fun _ => false

/-- The turns of `first_wait`: every function is entered once and every site read once. -/
def walkTurns (w : LockWalk fnCount) : Nat :=
  ((List.finRange fnCount).map fun f => (w f).sites.length + 1).sum

/-- `first_wait`. -/
def firstWait (w : LockWalk fnCount) (waits : Fin fnCount → Bool) (f : Fin fnCount) :
    Option WaitOrigin :=
  walk (fun c => (w c).sites) readSite waits (walkTurns w) {f} [(w f).sites]

/-- The body of the second loop of `find_waits`. -/
def giveWait (w : LockWalk fnCount) (r : Waits fnCount) (f : Fin fnCount) : Waits fnCount :=
  if r.waits f then
    match firstWait w r.waits f with
    | some o => { r with wait := Function.update r.wait f o }
    | none => { r with waits := Function.update r.waits f false }
  else r

/-- `find_waits`.  The records start zeroed. -/
def findWaits (w : LockWalk fnCount) : Waits fnCount :=
  (List.finRange fnCount).foldl (giveWait w) ⟨markWaits w, fun _ => ⟨.recv, 0, []⟩⟩

/-- `warned_before`. -/
def warnedBefore (w : LockWalk fnCount) (r : Waits fnCount) (i : Nat) (s : WaitSite fnCount) :
    Bool :=
  (w.table.take i).any fun k =>
    k.2.held && k.2.pos.line == s.pos.line && k.2.pos.column == s.pos.column &&
      (siteWait r k.2).isSome

/-- The lock that a warning names: "`%.*s` holds the lock of its object", or "the `sync`
    of line %d holds %s". -/
inductive Holder where
  | function (name : List UInt8)
  | sync (line : Int) (locks : Nat)
  deriving DecidableEq, Repr

/-- The texts of `warn_wait`: "`%s` may wait while %s", and "`%.*s` may wait in `%s` %s
    while %s". -/
inductive WaitText where
  | wait (kind : WaitKind) (holder : Holder)
  | call (name : List UInt8) (kind : WaitKind) (line : Int) (module_ : List UInt8) (holder : Holder)
  deriving DecidableEq, Repr

/-- A warning at its position. -/
structure Warning where
  pos : Pos
  text : WaitText
  deriving DecidableEq, Repr

/-- `warn_wait`. -/
def warnWait (s : WaitSite fnCount) (o : WaitOrigin) : Warning :=
  let holder := match s.lockFn with
    | some name => .function name
    | none => .sync s.lockPos.line s.lockCount
  match s.symbol with
  | none => ⟨s.pos, .wait o.kind holder⟩
  | some name => ⟨s.pos, .call name o.kind o.line o.module_ holder⟩

/-- What the site at `i` of the table gives. -/
def warnSite (w : LockWalk fnCount) (r : Waits fnCount)
    (e : (Function_ fnCount × WaitSite fnCount) × Nat) : Option Warning :=
  if e.1.1.home.isSome then none
  else
    match siteWait r e.1.2 with
    | none => none
    | some o =>
      if e.1.2.held && !warnedBefore w r e.2 e.1.2 then some (warnWait e.1.2 o) else none

/-- `warn_waits`, which says nothing inside a quiet probe. -/
def warnWaits (quiet : Nat) (w : LockWalk fnCount) (r : Waits fnCount) : List Warning :=
  if 0 < quiet then [] else w.table.zipIdx.filterMap (warnSite w r)

end AnticLockWaits
