import Antic.ConcurrentMap
import Antic.HashMapProofs

/-! # The sections of a part, and the cells of a map

    A part refines a keyed store with one cell for each key: the value and the
    version of the key, or nothing.  `Part.Sound` says what a part is after the
    calls of its history, and each section keeps it. -/

namespace AnticShared

open AnticCollection SharedCode Histories Interleaving List Option

variable {ι K V : Type} [BEq K]

/-! ## The tables -/

section Tables

variable {α : Type} {l : List (K × α)} {k k' : K}

theorem assocContains_eq (l : List (K × α)) (k : K) :
    assocContains l k = (assocGet l k).isSome := by
  induction l with
  | nil => rfl
  | cons e l ih =>
    show (e.1 == k || assocContains l k) = _
    rw [assocGet_cons, ih]
    cases e.1 == k with
    | true => rfl
    | false => rfl

theorem assocGet_append (l : List (K × α)) (e : K × α) (k : K) :
    assocGet (l ++ [e]) k = (assocGet l k).or (if e.1 == k then some e.2 else none) := by
  induction l with
  | nil => exact assocGet_cons e [] k
  | cons x l ih =>
    show assocGet (x :: (l ++ [e])) k = _
    rw [assocGet_cons, assocGet_cons, ih]
    cases x.1 == k with
    | true => rfl
    | false => rfl

theorem exists_of_get {x : α} (h : assocGet l k = some x) :
    ∃ e ∈ l, (e.1 == k) = true ∧ e.2 = x := by
  obtain ⟨e, he, hx⟩ := map_eq_some_iff.1 h
  exact ⟨e, mem_of_find?_eq_some he, by simpa using find?_some he, hx⟩

variable [EquivBEq K]

theorem assocGet_congr (l : List (K × α)) (h : (k == k') = true) :
    assocGet l k = assocGet l k' := by
  have hsame : (fun e : K × α => e.1 == k) = fun e => e.1 == k' :=
    funext fun e => BEq.congr_right h
  rw [assocGet, assocGet, hsame]

theorem assocGet_erase (l : List (K × α)) (k k' : K) :
    assocGet (assocErase l k) k' = if k == k' then none else assocGet l k' := by
  induction l with
  | nil =>
    show none = _
    split <;> rfl
  | cons e l ih =>
    rw [assocGet_cons]
    cases hek : e.1 == k with
    | true =>
      -- the entry goes, and what follows decides
      rw [assocErase, filter_cons_of_neg (by simp [hek]), ← assocErase, ih, BEq.congr_left hek]
      cases k == k' with
      | true => rfl
      | false => rfl
    | false =>
      rw [assocErase, filter_cons_of_pos (by simp [hek]), ← assocErase, assocGet_cons, ih]
      cases hkk : k == k' with
      | true =>
        rw [← BEq.congr_right hkk, hek]
        rfl
      | false => rfl

theorem assocGet_write {f : K × α → K × α} (l : List (K × α)) (k k' : K)
    (hkey : ∀ e ∈ l, (e.1 == k) = true → ((f e).1 == e.1) = true) :
    assocGet (assocWrite l k f) k' =
      if k == k' then (l.find? fun e => e.1 == k).map fun e => (f e).2
      else assocGet l k' := by
  induction l with
  | nil =>
    show none = _
    split <;> rfl
  | cons e l ih =>
    have ih := ih fun x hx => hkey x (mem_cons_of_mem _ hx)
    show assocGet ((if e.1 == k then f e else e) :: assocWrite l k f) k' = _
    rw [find?_cons]
    cases hek : e.1 == k with
    | true =>
      have hfk : ((f e).1 == k') = (k == k') := by
        rw [BEq.congr_left (hkey e mem_cons_self hek), BEq.congr_left hek]
      show assocGet (f e :: assocWrite l k f) k' = _
      rw [assocGet_cons, hfk, ih, assocGet_cons, BEq.congr_left hek]
      cases k == k' with
      | true => rfl
      | false => rfl
    | false =>
      show assocGet (e :: assocWrite l k f) k' = _
      rw [assocGet_cons, ih, assocGet_cons]
      cases hkk : k == k' with
      | true =>
        rw [← BEq.congr_right hkk, hek]
        rfl
      | false => rfl

theorem assocGet_set (l : List (K × α)) (k k' : K) (x : α) :
    assocGet (assocSet l k x) k' = if k == k' then some x else assocGet l k' := by
  rw [assocSet]
  split
  · next hin =>
      have hwrite := assocGet_write (f := fun e => (e.1, x)) l k k' fun e _ _ => BEq.rfl
      refine hwrite.trans ?_
      have hsome : assocContains l k = true := hin
      rw [assocContains_eq] at hsome
      obtain ⟨y, hy⟩ := isSome_iff_exists.1 hsome
      obtain ⟨e, he, -⟩ := map_eq_some_iff.1 hy
      rw [he]
      rfl
  · next hout =>
      have hnone : assocContains l k = false := by simpa [assocContains] using hout
      rw [assocContains_eq, isSome_eq_false_iff, isNone_iff_eq_none] at hnone
      rw [assocGet_append]
      cases hkk : k == k' with
      | true =>
        rw [← assocGet_congr l hkk, hnone]
        rfl
      | false => exact or_none

/-! ### The entries as a finite map -/

/-- The entries of a part step as those of a `HashMap` do. -/
theorem Part.add_finite (p : Part K V) (k : K) (v : V) : FiniteStep (assocGet p.entries)
    (.put k v) (.added (p.add k v).2) (assocGet (p.add k v).1.1.entries) := by
  unfold Part.add
  split
  · next hin =>
    rw [assocContains_eq] at hin
    exact .putOld k v (isSome_iff_ne_none.1 hin)
  · next hout =>
    rw [assocContains_eq, Bool.not_eq_true, isSome_eq_false_iff, isNone_iff_eq_none] at hout
    have hget : assocGet (p.entries ++ [(k, v)]) =
        fun x => if k == x then some v else assocGet p.entries x := by
      funext x
      rw [assocGet_append]
      cases hkx : k == x with
      | true =>
        rw [← assocGet_congr p.entries hkx, hout]
        rfl
      | false => exact or_none
    show FiniteStep _ _ _ (assocGet (p.entries ++ [(k, v)]))
    rw [hget]
    exact .putNew k v hout

theorem Part.removeEntry_finite (p : Part K V) {e : K × V} (h : assocGet p.entries e.1 = some e.2)
    (at_ after : Int) : FiniteStep (assocGet p.entries) (.takePlace at_) (.taken (some e) after)
      (assocGet (p.removeEntry e).entries) := by
  have hget : assocGet (p.removeEntry e).entries =
      fun x => if e.1 == x then none else assocGet p.entries x :=
    funext (assocGet_erase p.entries e.1)
  rw [hget]
  exact .takePlace at_ e after h

/-! ### One entry a key -/

omit [EquivBEq K] in
theorem apart_erase (h : l.Pairwise Apart) (k : K) : (assocErase l k).Pairwise Apart :=
  h.sublist filter_sublist

theorem apart_write {f : K × α → K × α} (h : l.Pairwise Apart)
    (hkey : ∀ e ∈ l, (e.1 == k) = true → ((f e).1 == e.1) = true) :
    (assocWrite l k f).Pairwise Apart := by
  have hfst (e : K × α) (he : e ∈ l) : ((if e.1 == k then f e else e).1 == e.1) = true := by
    split
    · next hek => exact hkey e he hek
    · exact BEq.rfl
  rw [assocWrite, pairwise_map]
  refine h.imp_of_mem fun {a b} ha hb hab => ?_
  rw [Apart, BEq.congr_left (hfst a ha), BEq.congr_right (hfst b hb)]
  exact hab

theorem apart_set (h : l.Pairwise Apart) (k : K) (x : α) : (assocSet l k x).Pairwise Apart := by
  rw [assocSet]
  split
  · exact apart_write (f := fun e => (e.1, x)) h fun e _ _ => BEq.rfl
  · next hout =>
      refine pairwise_append.2 ⟨h, pairwise_singleton _ _, fun a ha b hb => ?_⟩
      rw [mem_singleton.1 hb]
      show (a.1 == k) = false
      by_contra hak
      exact hout (List.any_eq_true.2 ⟨a, ha, by simpa using hak⟩)

end Tables

/-! ## The cells -/

/-- The value and the version under a key. -/
abbrev Cell (V : Type) := Option (V × Nat)

/-- What a call of one key is to do, when `n` is the version of its change. -/
def KeyOp.step {V : Type} : KeyOp V → Nat → Cell V → Cell V × KeyAnswer V × Bool
  | .get, _, c => (c, .value (c.map Prod.fst), false)
  | .contains, _, c => (c, .flag c.isSome, false)
  | .set v, n, _ => (some (v, n), .finished, true)
  | .add v, n, none => (some (v, n), .flag true, true)
  | .add _, _, some c => (some c, .flag false, false)
  | .remove, _, c => (none, .value (c.map Prod.fst), false)
  | .update _, _, none => (none, .flag false, false)
  | .update change, n, some (v, _) => (some (change v, n), .flag true, true)
  | .getVersioned, _, c => (c, .versioned c, false)
  | .setIfVersion _ version, _, none => (none, .outcome (.error (version, -1)), false)
  | .setIfVersion v version, n, some (w, now) =>
    if (now : Int) = version then (some (v, n), .outcome (.ok ()), true)
    else (some (w, now), .outcome (.error (version, now)), false)

/-- A map of cells. -/
def cells (V : Type) : Spec (KeyOp V) (KeyAnswer V) (Cell V) := ⟨none, KeyOp.step⟩

/-- The cell of a key of a part. -/
def Part.cell (p : Part K V) (k : K) : Cell V :=
  (assocGet p.entries k).bind fun v => (assocGet p.versions k).map fun n => (v, n)

/-- What a part is after the calls of `h`. -/
structure Part.Sound (p : Part K V) (h : List (Note ι K V)) : Prop where
  entries_apart : p.entries.Pairwise Apart
  versions_apart : p.versions.Pairwise Apart
  keys : ∀ k, (assocGet p.entries k).isSome = (assocGet p.versions k).isSome
  legal : Runs (cells V).Step (cells V).empty h ⟨p.cell, p.clock⟩

theorem new_sound : ({} : Part K V).Sound ([] : List (Note ι K V)) :=
  ⟨.nil, .nil, fun _ => rfl, .start⟩

namespace Part.Sound

variable {p : Part K V} {h : List (Note ι K V)} {k : K}

theorem cell_none (hk : assocGet p.entries k = none) : p.cell k = none := by
  rw [Part.cell, hk]
  rfl

theorem cell_some (hp : p.Sound h) {v : V} (hk : assocGet p.entries k = some v) :
    ∃ n, assocGet p.versions k = some n ∧ p.cell k = some (v, n) := by
  have hkeys := hp.keys k
  rw [hk] at hkeys
  obtain ⟨n, hn⟩ := isSome_iff_exists.1 hkeys.symm
  refine ⟨n, hn, ?_⟩
  rw [Part.cell, hk, hn]
  rfl

theorem cell_fst (hp : p.Sound h) (k : K) : (p.cell k).map Prod.fst = assocGet p.entries k := by
  cases hk : assocGet p.entries k with
  | none => rw [cell_none hk]; rfl
  | some v =>
    obtain ⟨n, -, hcell⟩ := hp.cell_some hk
    rw [hcell]
    rfl

/-! ### The three kinds of steps -/

variable {op : KeyOp V} {a : KeyAnswer V}

theorem legal_snoc (hp : p.Sound h) (t : ι) {p' : Part K V} {c : Cell V} {used : Bool}
    (hstep : op.step (p.clock + 1) (p.cell k) = (c, a, used))
    (hcell : ∀ x, p'.cell x = if k == x then c else p.cell x)
    (hclock : p'.clock = if used then p.clock + 1 else p.clock) :
    Runs (cells V).Step (cells V).empty
      (h ++ [⟨t, k, op, a, if used then some (p.clock + 1) else none⟩])
      ⟨p'.cell, p'.clock⟩ := by
  have hs := Spec.Step.call (S := cells V) (b := ⟨p.cell, p.clock⟩) t k op (p.clock + 1)
    (Nat.lt_succ_self _)
  have hevent : (cells V).event t k op (p.clock + 1) (p.cell k) =
      (⟨t, k, op, a, if used then some (p.clock + 1) else none⟩ : Note ι K V) := by
    show (⟨t, k, op, (op.step _ _).2.1, if (op.step _ _).2.2 then _ else _⟩ : Note ι K V) = _
    rw [hstep]
  have hbook : (cells V).book ⟨p.cell, p.clock⟩ k op (p.clock + 1) = ⟨p'.cell, p'.clock⟩ := by
    show Book.mk (put p.cell k (op.step _ _).1) (if (op.step _ _).2.2 then _ else _) = _
    rw [hstep, hclock]
    congr 1
    funext x
    exact (hcell x).symm
  rw [hevent, hbook] at hs
  exact hp.legal.snoc hs

variable [EquivBEq K]

theorem read (hp : p.Sound h) (t : ι)
    (hstep : op.step (p.clock + 1) (p.cell k) = (p.cell k, a, false)) :
    p.Sound (h ++ [⟨t, k, op, a, none⟩]) := by
  refine ⟨hp.entries_apart, hp.versions_apart, hp.keys, hp.legal_snoc t hstep ?_ rfl⟩
  intro x
  split
  · next hkx => rw [Part.cell, Part.cell, assocGet_congr _ hkx, assocGet_congr _ hkx]
  · rfl

theorem stamped (hp : p.Sound h) (t : ι) {l : List (K × V)} {v : V} (hapart : l.Pairwise Apart)
    (hget : ∀ x, assocGet l x = if k == x then some v else assocGet p.entries x)
    (hstep : op.step (p.clock + 1) (p.cell k) = (some (v, p.clock + 1), a, true)) :
    (({ p with entries := l } : Part K V).changed k).Sound
      (h ++ [⟨t, k, op, a, some (p.clock + 1)⟩]) := by
  refine ⟨hapart, apart_set hp.versions_apart _ _, ?_, hp.legal_snoc t hstep ?_ rfl⟩
  · intro x
    show (assocGet l x).isSome = (assocGet (assocSet p.versions k (p.clock + 1)) x).isSome
    rw [hget, assocGet_set]
    split
    · rfl
    · exact hp.keys x
  · intro x
    show (assocGet l x).bind (fun v =>
      (assocGet (assocSet p.versions k (p.clock + 1)) x).map fun n => (v, n)) = _
    rw [hget, assocGet_set]
    split
    · rfl
    · rfl

theorem removed (hp : p.Sound h) (t : ι)
    (hstep : op.step (p.clock + 1) (p.cell k) = (none, a, false)) :
    ({ p with versions := assocErase p.versions k
              entries := assocErase p.entries k } : Part K V).Sound
      (h ++ [⟨t, k, op, a, none⟩]) := by
  refine ⟨apart_erase hp.entries_apart k, apart_erase hp.versions_apart k, ?_,
    hp.legal_snoc t hstep ?_ rfl⟩
  · intro x
    show (assocGet (assocErase p.entries k) x).isSome =
      (assocGet (assocErase p.versions k) x).isSome
    rw [assocGet_erase, assocGet_erase]
    split
    · rfl
    · exact hp.keys x
  · intro x
    show (assocGet (assocErase p.entries k) x).bind (fun v =>
      (assocGet (assocErase p.versions k) x).map fun n => (v, n)) = _
    rw [assocGet_erase, assocGet_erase]
    split
    · rfl
    · rfl

end Part.Sound

/-! ## The number of entries -/

section Lengths

variable {α : Type} {l : List (K × α)}

theorem length_write (l : List (K × α)) (k : K) (f : K × α → K × α) :
    (assocWrite l k f).length = l.length :=
  length_map _

theorem length_set (l : List (K × α)) (k : K) (x : α) :
    ((assocSet l k x).length : Int) = l.length + if assocContains l k then 0 else 1 := by
  show ((if assocContains l k then _ else _ : List (K × α)).length : Int) = _
  cases assocContains l k with
  | true =>
    show ((assocWrite l k fun e => (e.1, x)).length : Int) = _
    rw [length_write]
    exact (Int.add_zero _).symm
  | false => simp

theorem length_erase [EquivBEq K] (hl : l.Pairwise Apart) {e : K × α} (he : e ∈ l) {k : K}
    (hk : (e.1 == k) = true) : ((assocErase l k).length : Int) = l.length + -1 := by
  obtain ⟨before, after, rfl⟩ := append_of_mem he
  rw [assocErase_of_split hl hk]
  simp only [length_append, length_cons]
  omega

end Lengths

/-! ## The calls of one key -/

section KeyCalls

variable [EquivBEq K] {p : Part K V} {h : List (Note ι K V)} {k : K} {t : ι}

/-- What a call of one key leaves: the part after one call more, and the number of its entries. -/
def Follows (t : ι) (k : K) (op : KeyOp V) (p : Part K V) (h : List (Note ι K V))
    (r : (Part K V × Int) × KeyAnswer V) : Prop :=
  r.1.1.Sound (h ++ [⟨t, k, op, r.2,
    if r.1.1.clock = p.clock then none else some r.1.1.clock⟩]) ∧
  (r.1.1.entries.length : Int) = p.entries.length + r.1.2

variable (hp : p.Sound h)
include hp

theorem Follows.read {op : KeyOp V} {a : KeyAnswer V}
    (hstep : op.step (p.clock + 1) (p.cell k) = (p.cell k, a, false)) :
    Follows t k op p h ((p, 0), a) := by
  refine ⟨?_, (Int.add_zero _).symm⟩
  show p.Sound (h ++ [⟨t, k, op, a, if p.clock = p.clock then none else _⟩])
  rw [if_pos rfl]
  exact hp.read t hstep

theorem Follows.stamped {l : List (K × V)} {op : KeyOp V} {a : KeyAnswer V} {v : V}
    {n : Int} (hapart : l.Pairwise Apart)
    (hget : ∀ x, assocGet l x = if k == x then some v else assocGet p.entries x)
    (hlength : (l.length : Int) = p.entries.length + n)
    (hstep : op.step (p.clock + 1) (p.cell k) = (some (v, p.clock + 1), a, true)) :
    Follows t k op p h ((({ p with entries := l } : Part K V).changed k, n), a) := by
  refine ⟨?_, hlength⟩
  show Part.Sound _ (h ++ [⟨t, k, op, a, if p.clock + 1 = p.clock then none else _⟩])
  rw [if_neg (Nat.succ_ne_self _)]
  exact hp.stamped t hapart hget hstep

omit hp in
omit [EquivBEq K] in
theorem assocGet_none_of (hk : assocContains p.entries k = false) :
    assocGet p.entries k = none := by
  rw [assocContains_eq] at hk
  exact isNone_iff_eq_none.1 (isSome_eq_false_iff.1 hk)

omit hp in
omit [EquivBEq K] in
theorem assocGet_some_of (hk : assocContains p.entries k = true) :
    ∃ v, assocGet p.entries k = some v := by
  rw [assocContains_eq] at hk
  exact isSome_iff_exists.1 hk

theorem set_follows (v : V) : Follows t k (.set v) p h (p.set k v, .finished) :=
  .stamped hp (apart_set hp.entries_apart k v) (fun x => assocGet_set _ k x v)
    (length_set _ k v) rfl

theorem add_follows (v : V) :
    Follows t k (.add v) p h ((p.add k v).1, .flag (p.add k v).2) := by
  cases hin : assocContains p.entries k with
  | true =>
    obtain ⟨w, hw⟩ := assocGet_some_of hin
    obtain ⟨n, -, hcell⟩ := hp.cell_some hw
    have hadd : p.add k v = ((p, 0), false) := by
      rw [Part.add, if_pos hin]
    rw [hadd]
    refine .read hp ?_
    rw [hcell]
    rfl
  | false =>
    have hset : assocSet p.entries k v = p.entries ++ [(k, v)] := by
      show (if assocContains p.entries k then _ else _) = _
      rw [hin]
      rfl
    have hlength := length_set p.entries k v
    have hapart := apart_set hp.entries_apart k v
    have hget := fun x => assocGet_set p.entries k x v
    rw [hset] at hlength hapart hget
    rw [hin] at hlength
    have hadd : p.add k v =
        ((({ p with entries := p.entries ++ [(k, v)] } : Part K V).changed k, 1), true) := by
      rw [Part.add, hin]
      rfl
    rw [hadd]
    refine .stamped hp hapart hget hlength ?_
    rw [Part.Sound.cell_none (assocGet_none_of hin)]
    rfl

theorem remove_follows :
    Follows t k .remove p h ((p.remove k).1, .value (p.remove k).2) := by
  cases hin : assocContains p.entries k with
  | true =>
    obtain ⟨v, hv⟩ := assocGet_some_of hin
    obtain ⟨e, he, hek, -⟩ := exists_of_get hv
    have hremove : p.remove k = (({ p with versions := assocErase p.versions k
                                           entries := assocErase p.entries k }, -1),
        assocGet p.entries k) := by
      rw [Part.remove, if_pos hin]
    rw [hremove]
    refine ⟨?_, length_erase hp.entries_apart he hek⟩
    show Part.Sound _ (h ++ [⟨t, k, _, _, if p.clock = p.clock then none else _⟩])
    rw [if_pos rfl]
    refine hp.removed t ?_
    show (none, KeyAnswer.value ((p.cell k).map Prod.fst), false) = _
    rw [hp.cell_fst]
  | false =>
    have hremove : p.remove k = ((p, 0), none) := by
      rw [Part.remove, hin]
      rfl
    rw [hremove]
    refine .read hp ?_
    rw [Part.Sound.cell_none (assocGet_none_of hin)]
    rfl

theorem update_follows (change : V → V) : Follows t k (.update change) p h
      (((p.update k change).1, 0), .flag (p.update k change).2) := by
  cases hin : assocContains p.entries k with
  | true =>
    obtain ⟨v, hv⟩ := assocGet_some_of hin
    obtain ⟨n, -, hcell⟩ := hp.cell_some hv
    have hupdate : p.update k change =
        (({ p with entries := assocWrite p.entries k fun e => (e.1, change e.2) } :
          Part K V).changed k, true) := by
      rw [Part.update, if_pos hin]
    rw [hupdate]
    refine .stamped hp (v := change v) (apart_write hp.entries_apart fun e _ _ => BEq.rfl) ?_ ?_ ?_
    · intro x
      rw [assocGet_write (f := fun e => (e.1, change e.2)) p.entries k x fun e _ _ => BEq.rfl]
      obtain ⟨e, he, hev⟩ := map_eq_some_iff.1 hv
      rw [he, map_some, hev]
    · rw [length_write]
      exact (Int.add_zero _).symm
    · rw [hcell]
      rfl
  | false =>
    have hupdate : p.update k change = (p, false) := by
      rw [Part.update, hin]
      rfl
    rw [hupdate]
    refine .read hp ?_
    rw [Part.Sound.cell_none (assocGet_none_of hin)]
    rfl

omit [EquivBEq K] in
theorem getVersioned_eq : p.getVersioned k = p.cell k := by
  cases hk : assocGet p.entries k with
  | none =>
    rw [Part.Sound.cell_none hk, Part.getVersioned, hk]
    rfl
  | some v =>
    obtain ⟨n, hn, hcell⟩ := hp.cell_some hk
    rw [hcell, Part.getVersioned, hk, hn]
    rfl

theorem setIfVersion_follows (v : V) (version : Int) : Follows t k (.setIfVersion v version) p h
      (((p.setIfVersion k v version).1, 0), .outcome (p.setIfVersion k v version).2) := by
  cases hk : assocGet p.entries k with
  | none =>
    have hkeys := hp.keys k
    rw [hk] at hkeys
    have hnone : assocGet p.versions k = none :=
      isNone_iff_eq_none.1 (isSome_eq_false_iff.1 hkeys.symm)
    have hset : p.setIfVersion k v version = (p, .error (version, -1)) := by
      rw [Part.setIfVersion, hnone]
    rw [hset]
    refine .read hp ?_
    rw [Part.Sound.cell_none hk]
    rfl
  | some w =>
    obtain ⟨n, hn, hcell⟩ := hp.cell_some hk
    by_cases hsame : (n : Int) = version
    · have hset : p.setIfVersion k v version =
          (({ p with entries := assocSet p.entries k v } : Part K V).changed k, .ok ()) := by
        rw [Part.setIfVersion, hn]
        exact if_neg (not_not.2 hsame)
      rw [hset]
      have hin : assocContains p.entries k = true := by
        rw [assocContains_eq, hk]
        rfl
      have hlength := length_set p.entries k v
      rw [hin] at hlength
      refine .stamped hp (apart_set hp.entries_apart k v) (fun x => assocGet_set _ k x v) hlength ?_
      rw [hcell]
      exact if_pos hsame
    · have hset : p.setIfVersion k v version = (p, .error (version, n)) := by
        rw [Part.setIfVersion, hn]
        exact if_pos hsame
      rw [hset]
      refine .read hp ?_
      rw [hcell]
      exact if_neg hsame

theorem keyCall_follows (op : KeyOp V) : Follows t k op p h (p.keyCall k op) := by
  cases op with
  | get =>
    refine .read hp ?_
    show (p.cell k, KeyAnswer.value ((p.cell k).map Prod.fst), false) = _
    rw [hp.cell_fst]
  | contains =>
    refine .read hp ?_
    show (p.cell k, KeyAnswer.flag (p.cell k).isSome, false) = _
    rw [assocContains_eq, ← hp.cell_fst, isSome_map]
  | set v => exact set_follows hp v
  | add v => exact add_follows hp v
  | remove => exact remove_follows hp
  | update change => exact update_follows hp change
  | getVersioned =>
    refine .read hp ?_
    show (p.cell k, KeyAnswer.versioned (p.cell k), false) = _
    rw [← getVersioned_eq hp]
  | setIfVersion v version => exact setIfVersion_follows hp v version

end KeyCalls

/-! ## The walks -/

section Walks

variable [EquivBEq K] {p : Part K V} {h : List (Note ι K V)} (t : ι)
  {test : K × V → Bool} {change : K × V → K × V}

theorem lendEntry_fst (change : K × V → K × V) (e : K × V) :
    ((lendEntry change e).1 == e.1) = true := by
  rw [lendEntry]
  split
  · next hsame => exact hsame
  · exact BEq.rfl

omit [EquivBEq K] in
theorem lendEntry_snd (change : K × V → K × V) (e : K × V) :
    (lendEntry change e).2 = (change e).2 := by
  rw [lendEntry]
  split
  · rfl
  · rfl

theorem find?_of_mem {α : Type} {l : List (K × α)} (hl : l.Pairwise Apart) {e : K × α}
    (he : e ∈ l) : (l.find? fun x => x.1 == e.1) = some e :=
  find?_eq_of_unique he BEq.rfl fun _ hb hk => eq_of_same_key hl hb he hk BEq.rfl

variable {e : K × V} {es : List (K × V)}

theorem updateEntry_sound (hp : p.Sound h) (he : e ∈ p.entries) :
    (p.updateEntry change e).Sound (h ++ [updateNote t change p e]) := by
  refine hp.stamped t (v := (change e).2) (apart_write hp.entries_apart
    fun x _ _ => lendEntry_fst change x) ?_ ?_
  · intro x
    rw [assocGet_write p.entries e.1 x fun y _ _ => lendEntry_fst change y,
      find?_of_mem hp.entries_apart he, map_some, lendEntry_snd]
  · have hget := assocGet_of_mem hp.entries_apart he BEq.rfl
    obtain ⟨n, -, hcell⟩ := hp.cell_some hget
    rw [hcell]
    rfl

theorem removeEntry_sound (hp : p.Sound h) (he : e ∈ p.entries) :
    (p.removeEntry e).Sound (h ++ [removeNote t e]) := by
  refine hp.removed t ?_
  show (none, KeyAnswer.value ((p.cell e.1).map Prod.fst), false) = _
  rw [hp.cell_fst, assocGet_of_mem hp.entries_apart he BEq.rfl]

/-- What the entries left of a walk are: entries of the part. -/
structure Left (es : List (K × V)) (p : Part K V) : Prop where
  apart : es.Pairwise Apart
  mem : ∀ e ∈ es, e ∈ p.entries

omit [EquivBEq K] in
theorem Left.tail (hl : Left (e :: es) p) : Left es p :=
  ⟨hl.apart.of_cons, fun x hx => hl.mem x (mem_cons_of_mem _ hx)⟩

theorem Left.order (w : Walk K V) (hp : p.Sound h) : Left (w.order p.entries) p :=
  ⟨((w.perm _).pairwise_iff apart_symm).2 hp.entries_apart, fun _ he => (w.perm _).mem_iff.1 he⟩

theorem Left.updateEntry (hl : Left (e :: es) p) : Left es (p.updateEntry change e) := by
  refine ⟨hl.apart.of_cons, fun x hx => ?_⟩
  have hne : (x.1 == e.1) = false := apart_symm ((pairwise_cons.1 hl.apart).1 x hx)
  refine List.mem_map.2 ⟨x, hl.mem x (mem_cons_of_mem _ hx), ?_⟩
  rw [hne]
  rfl

theorem Left.removeEntry (hl : Left (e :: es) p) : Left es (p.removeEntry e) := by
  refine ⟨hl.apart.of_cons, fun x hx => ?_⟩
  have hne : (x.1 == e.1) = false := apart_symm ((pairwise_cons.1 hl.apart).1 x hx)
  refine mem_filter.2 ⟨hl.mem x (mem_cons_of_mem _ hx), ?_⟩
  rw [hne]
  rfl

theorem updateEach_sound (test : K × V → Bool) (change : K × V → K × V) (hp : p.Sound h)
    (hl : Left es p) :
    (Part.updateEach test change es p).1.Sound (h ++ updateNotes t test change es p) ∧
    (Part.updateEach test change es p).1.entries.length = p.entries.length ∧
    (Part.updateEach test change es p).2 = (updateNotes t test change es p).length := by
  induction es generalizing p h with
  | nil =>
    refine ⟨?_, rfl, rfl⟩
    rw [updateNotes, append_nil]
    exact hp
  | cons e es ih =>
    rw [Part.updateEach, updateNotes]
    cases test e with
    | false => exact ih hp hl.tail
    | true =>
      obtain ⟨hsound, hlength, hcount⟩ :=
        ih (updateEntry_sound t hp (hl.mem e mem_cons_self)) hl.updateEntry
      refine ⟨?_, ?_, congrArg (· + 1) hcount⟩
      · rw [append_assoc] at hsound
        exact hsound
      · exact hlength.trans (length_write _ _ _)

theorem removeEach_sound (test : K × V → Bool) (hp : p.Sound h) (hl : Left es p) :
    (Part.removeEach test es p).1.Sound (h ++ (es.filter test).map (removeNote t)) ∧
    ((Part.removeEach test es p).1.entries.length : Int) =
      p.entries.length + -((Part.removeEach test es p).2 : Int) ∧
    (Part.removeEach test es p).2 = (es.filter test).length := by
  induction es generalizing p h with
  | nil =>
    refine ⟨?_, (Int.add_zero _).symm, rfl⟩
    rw [filter_nil, map_nil, append_nil]
    exact hp
  | cons e es ih =>
    rw [Part.removeEach, filter_cons]
    cases test e with
    | false => exact ih hp hl.tail
    | true =>
      have he := hl.mem e mem_cons_self
      obtain ⟨hsound, hlength, hcount⟩ := ih (removeEntry_sound t hp he) hl.removeEntry
      refine ⟨?_, ?_, congrArg (· + 1) hcount⟩
      · rw [append_assoc] at hsound
        exact hsound
      · have hone : ((p.removeEntry e).entries.length : Int) = p.entries.length + -1 :=
          length_erase hp.entries_apart he BEq.rfl
        show ((Part.removeEach test es (p.removeEntry e)).1.entries.length : Int) =
          p.entries.length + -(((Part.removeEach test es (p.removeEntry e)).2 + 1 : Nat) : Int)
        omega

omit [EquivBEq K] in
theorem removeEach_clock (test : K × V → Bool) (es : List (K × V)) (p : Part K V) :
    (Part.removeEach test es p).1.clock = p.clock := by
  induction es generalizing p with
  | nil => rfl
  | cons e es ih =>
    rw [Part.removeEach]
    cases test e with
    | false => exact ih p
    | true => exact ih (p.removeEntry e)

theorem versions_nil (hp : p.Sound h) (hnil : p.entries = []) : p.versions = [] := by
  cases hv : p.versions with
  | nil => rfl
  | cons e l =>
    have hmem : e ∈ p.versions := hv ▸ mem_cons_self
    have hkeys := hp.keys e.1
    rw [assocGet_of_mem hp.versions_apart hmem BEq.rfl, hnil] at hkeys
    cases hkeys

theorem clear_sound (hp : p.Sound h) :
    p.clear.1.Sound (h ++ p.entries.map (removeNote t)) := by
  -- `clear` is `remove_all` with a test that accepts every entry
  obtain ⟨hsound, hlength, hcount⟩ :=
    removeEach_sound t (fun _ => true) hp ⟨hp.entries_apart, fun _ he => he⟩
  have hall : p.entries.filter (fun _ => true) = p.entries := filter_eq_self.2 fun _ _ => rfl
  rw [hall] at hsound hcount
  have hclock := removeEach_clock (fun _ => true) p.entries p
  generalize (Part.removeEach (fun _ => true) p.entries p).1 = q at hsound hlength hclock
  have hnil : q.entries = [] := by
    exact eq_nil_of_length_eq_zero (by omega)
  have hq : q = p.clear.1 := by
    obtain ⟨entries, versions, clock⟩ := q
    cases hnil
    cases versions_nil hsound rfl
    cases hclock
    rfl
  exact hq ▸ hsound

end Walks

/-! ## The sections -/

section Sections

variable [EquivBEq K] {p : Part K V} {h : List (Note ι K V)} (t : ι)

/-- What a section leaves: the part after the calls it notes, and the number of its entries. -/
theorem section_sound (s : Section K V) (hp : p.Sound h) : (s.run p).1.1.Sound (h ++ s.notes t p) ∧
    ((s.run p).1.1.entries.length : Int) = p.entries.length + (s.run p).1.2 := by
  cases s with
  | key k op => exact keyCall_follows hp op
  | updateAll w test change =>
    obtain ⟨hsound, hlength, -⟩ := updateEach_sound t test change hp (.order w hp)
    exact ⟨hsound, (congrArg Int.ofNat hlength).trans (Int.add_zero _).symm⟩
  | updateIn w test change =>
    show (p.updateIn w test change).1.Sound _ ∧
      ((p.updateIn w test change).1.entries.length : Int) = p.entries.length + 0
    rw [Part.updateIn, Section.notes]
    cases hfind : (w.order p.entries).find? test with
    | none => exact ⟨(append_nil h).symm ▸ hp, (Int.add_zero _).symm⟩
    | some e =>
      have he : e ∈ p.entries := (w.perm _).mem_iff.1 (mem_of_find?_eq_some hfind)
      refine ⟨updateEntry_sound t hp he, ?_⟩
      exact (congrArg Int.ofNat (length_write _ _ _)).trans (Int.add_zero _).symm
  | removeAll w test =>
    obtain ⟨hsound, hlength, -⟩ := removeEach_sound t test hp (.order w hp)
    exact ⟨hsound, hlength⟩
  | removeIn w test =>
    show (p.removeIn w test).1.1.Sound _ ∧ ((p.removeIn w test).1.1.entries.length : Int) =
        p.entries.length + (p.removeIn w test).1.2
    rw [Part.removeIn, Section.notes]
    cases hfind : (w.order p.entries).find? test with
    | none => exact ⟨(append_nil h).symm ▸ hp, (Int.add_zero _).symm⟩
    | some e =>
      have he : e ∈ p.entries := (w.perm _).mem_iff.1 (mem_of_find?_eq_some hfind)
      exact ⟨removeEntry_sound t hp he, length_erase hp.entries_apart he BEq.rfl⟩
  | clear => exact ⟨clear_sound t hp, (Int.add_right_neg _).symm⟩
  | count test => exact ⟨(append_nil h).symm ▸ hp, (Int.add_zero _).symm⟩

omit [EquivBEq K] in
theorem updateNotes_key {test : K × V → Bool} {change : K × V → K × V}
    {es : List (K × V)} {p : Part K V} {n : Note ι K V}
    (hn : n ∈ updateNotes t test change es p) : n.thread = t ∧ ∃ e ∈ es, n.key = e.1 := by
  induction es generalizing p with
  | nil => exact absurd hn not_mem_nil
  | cons e es ih =>
    have htail {q : Part K V} (hq : n ∈ updateNotes t test change es q) :
        n.thread = t ∧ ∃ x ∈ e :: es, n.key = x.1 := by
      obtain ⟨ht, x, hx, hk⟩ := ih hq
      exact ⟨ht, x, mem_cons_of_mem _ hx, hk⟩
    rw [updateNotes] at hn
    cases htest : test e with
    | false =>
      rw [htest] at hn
      exact htail hn
    | true =>
      rw [htest, if_pos rfl] at hn
      rcases mem_cons.1 hn with rfl | hn
      · exact ⟨rfl, e, mem_cons_self, rfl⟩
      · exact htail hn

omit [EquivBEq K] in
/-- A note of a section is of the key it calls, or of an entry of the part. -/
theorem notes_key (s : Section K V) (p : Part K V) {n : Note ι K V} (hn : n ∈ s.notes t p) :
    n.thread = t ∧ ((∃ op, s = .key n.key op) ∨ ∃ e ∈ p.entries, n.key = e.1) := by
  cases s with
  | key k op =>
    rcases mem_singleton.1 hn with rfl
    exact ⟨rfl, .inl ⟨op, rfl⟩⟩
  | updateAll w test change =>
    obtain ⟨ht, e, he, hk⟩ := updateNotes_key t hn
    exact ⟨ht, .inr ⟨e, (w.perm _).mem_iff.1 he, hk⟩⟩
  | updateIn w test change | removeIn w test =>
    obtain ⟨e, he, rfl⟩ := List.mem_map.1 hn
    exact ⟨rfl, .inr ⟨e, (w.perm _).mem_iff.1 (mem_of_find?_eq_some (mem_toList.1 he)), rfl⟩⟩
  | removeAll w test =>
    obtain ⟨e, he, rfl⟩ := List.mem_map.1 hn
    exact ⟨rfl, .inr ⟨e, (w.perm _).mem_iff.1 (mem_of_mem_filter he), rfl⟩⟩
  | clear =>
    obtain ⟨e, he, rfl⟩ := List.mem_map.1 hn
    exact ⟨rfl, .inr ⟨e, he, rfl⟩⟩
  | count test => exact absurd hn not_mem_nil

theorem noted_of_mem (hp : p.Sound h) {e : K × V} (he : e ∈ p.entries) :
    ∃ n ∈ h, (n.key == e.1) = true := by
  by_contra hno
  have hcell : p.cell e.1 = none := by
    refine cells_start hp.legal fun n hn => ?_
    by_contra hk
    exact hno ⟨n, hn, by simpa using hk⟩
  have hfst := hp.cell_fst e.1
  rw [hcell, assocGet_of_mem hp.entries_apart he BEq.rfl] at hfst
  cases hfst

end Sections

end AnticShared
