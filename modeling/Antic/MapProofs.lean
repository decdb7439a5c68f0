import Antic.EntryTableProofs

/-! # The calls of a map, and an association list

    `MapOk` adds the keys to what holds of a table: every entry stands under the marked hash of its
    key, and no two keys are equal.  One lemma for each call says that it does to the entries of the
    table what the association list does to its own. -/

namespace AnticCollection

open Interleaving EntryTable List

section Map

variable {K V : Type} [BEq K]

/-- The entry of a position that was not removed. -/
def entryAt (t : EntryTable (K × V)) (i : Nat) : Option (K × V) := (t.pairAt i).bind Prod.snd

/-- The entries of a table, in the order of their positions. -/
def toList (t : EntryTable (K × V)) : List (K × V) := t.pairs.filterMap Prod.snd

/-- Two entries of different keys. -/
def Apart (a b : K × V) : Prop := (a.1 == b.1) = false

/-- What holds of the table of a map between the calls. -/
structure MapOk (hash : K → UInt64) (t : EntryTable (K × V)) : Prop
    extends EntryTable.Ok t where
  keyed : ∀ p ∈ t.pairs, ∃ e, p = (marked t.seed (hash e.1), some e)
  distinct : (toList t).Pairwise Apart

variable {hash : K → UInt64} {t : EntryTable (K × V)}

omit [BEq K] in
theorem toList_eq (t : EntryTable (K × V)) :
    toList t = (List.range t.used).filterMap (entryAt t) := by
  rw [toList, pairs, filterMap_filterMap]
  rfl

variable {i : Nat} {e : K × V}

/-- A position that was not removed holds an entry under the hash of its key. -/
theorem MapOk.entry (h : MapOk hash t) (hi : t.hashes i ≠ emptyMark) :
    ∃ e, t.entries i = some e ∧ t.hashes i = marked t.seed (hash e.1) ∧
      entryAt t i = some e := by
  have hlt : i < t.used := by
    by_contra hle
    exact hi (h.beyond i (Nat.le_of_not_lt hle))
  have hmem : (t.hashes i, t.entries i) ∈ t.pairs :=
    mem_filterMap.2 ⟨i, mem_range.2 hlt, by simp [pairAt, hi]⟩
  obtain ⟨e, he⟩ := h.keyed _ hmem
  refine ⟨e, congrArg Prod.snd he, congrArg Prod.fst he, ?_⟩
  rw [entryAt, pairAt, if_neg hi, he]
  rfl

omit [BEq K] in
theorem live_of_entryAt (h : entryAt t i = some e) :
    t.hashes i ≠ emptyMark ∧ t.entries i = some e := by
  unfold entryAt pairAt at h
  split at h
  · exact nomatch h
  · exact ⟨by assumption, h⟩

theorem MapOk.mem_toList (h : MapOk hash t) (he : entryAt t i = some e) :
    e ∈ toList t := by
  rw [toList_eq]
  refine mem_filterMap.2 ⟨i, mem_range.2 ?_, he⟩
  by_contra hle
  exact (live_of_entryAt he).1 (h.beyond i (Nat.le_of_not_lt hle))

/-! ## The calls -/

theorem MapOk.of_pairs (h : MapOk hash t) {t' : EntryTable (K × V)} (hok : t'.Ok)
    (hseed : t'.seed = t.seed) (hpairs : t'.pairs = t.pairs) :
    MapOk hash t' ∧ toList t' = toList t := by
  have hlist : toList t' = toList t := by rw [toList, hpairs, toList]
  refine ⟨⟨hok, fun p hp => ?_, ?_⟩, hlist⟩
  · rw [hseed]
    exact h.keyed p (hpairs ▸ hp)
  · rw [hlist]
    exact h.distinct

theorem MapOk.append (h : MapOk hash t) {k : K} (v : V) (hno : ∀ e ∈ toList t, (e.1 == k) = false) :
    Yields (do
        let (t, i) ← t.append (marked t.seed (hash k))
        return t.write i (some (k, v)))
      fun t' => MapOk hash t' ∧ toList t' = toList t ++ [(k, v)] := by
  refine (h.toOk.append (liveMark_marked t.seed (hash k))).bind fun r hr => ?_
  have hlist : toList (r.1.write r.2 (some (k, v))) = toList t ++ [(k, v)] := by
    rw [toList, hr.pairs, filterMap_append]
    rfl
  have hseed : (r.1.write r.2 (some (k, v))).seed = t.seed := hr.seed
  refine .pure ⟨⟨hr.ok _, fun p hp => ?_, ?_⟩, hlist⟩
  · rw [hr.pairs] at hp
    rw [hseed]
    rcases mem_append.1 hp with hp | hp
    · exact h.keyed p hp
    · exact ⟨(k, v), mem_singleton.1 hp⟩
  · rw [hlist]
    refine pairwise_append.2 ⟨h.distinct, pairwise_singleton _ _, ?_⟩
    intro e he e' he'
    rw [mem_singleton.1 he']
    exact hno e he

theorem MapOk.take (h : MapOk hash t) (hi : t.hashes i ≠ emptyMark) :
    ∃ t' e before after, t.takePlace i =
        .ok (t', some e, (t.placesFrom (i + 1)).head?) ∧ entryAt t i = some e ∧
      toList t = before ++ e :: after ∧
      MapOk hash (t'.resized (t'.count - 1)) ∧
      toList (t'.resized (t'.count - 1)) = before ++ after ∧
      ∃ l, t.places = l ++ i :: t.placesFrom (i + 1) ∧
        t'.places = l ++ t.placesFrom (i + 1) := by
  obtain ⟨e, hentry, hmark, hat⟩ := h.entry hi
  obtain ⟨t', heq, hok', hseed, hused, hcount, hhashes, hentries⟩ := h.toRoomOk.takePlace hi
  obtain ⟨p₁, p₂, hpairs, hpairs'⟩ := h.pairs_take hi hused hhashes hentries
  rw [hentry] at hpairs heq
  have hlist : toList t = p₁.filterMap Prod.snd ++ e :: p₂.filterMap Prod.snd := by
    rw [toList, hpairs, filterMap_append]
    rfl
  have hlist' : toList (t'.resized (t'.count - 1)) =
      p₁.filterMap Prod.snd ++ p₂.filterMap Prod.snd := by
    show t'.pairs.filterMap Prod.snd = _
    rw [hpairs', filterMap_append]
  refine ⟨t', e, _, _, heq, hat, hlist, ⟨⟨?_, ?_⟩, fun p hp => ?_, ?_⟩, hlist',
    h.places_take hi hused hhashes⟩
  · exact hok'.resized _
  · show t'.count - 1 = t'.pairs.length
    rw [hcount, h.count, hpairs, hpairs', length_append, length_append, length_cons]
    omega
  · have hp : p ∈ t'.pairs := hp
    show ∃ e, p = (marked t'.seed (hash e.1), some e)
    rw [hseed]
    refine h.keyed p ?_
    rw [hpairs'] at hp
    rw [hpairs]
    rcases mem_append.1 hp with hp | hp
    · exact mem_append_left _ hp
    · exact mem_append_right _ (mem_cons_of_mem _ hp)
  · rw [hlist']
    have hd := h.distinct
    rw [hlist] at hd
    exact hd.sublist (Sublist.append_left (sublist_cons_self _ _) _)

/-- The entry with its value replaced, where it is the entry of `k`. -/
def replaced (k : K) (v : V) (e : K × V) : K × V := if e.1 == k then (e.1, v) else e

theorem replaced_fst (k : K) (v : V) (e : K × V) : (replaced k v e).1 = e.1 := by
  unfold replaced
  split <;> rfl

variable [EquivBEq K]

/-- Two positions of a list of entries of different keys hold two keys. -/
theorem index_eq_of_apart {n : Nat} {g : Nat → Option (K × V)}
    (hd : ((List.range n).filterMap g).Pairwise Apart) {j : Nat} {e' : K × V}
    (hin : i < n) (hjn : j < n) (hi : g i = some e) (hj : g j = some e')
    (hk : (e.1 == e'.1) = true) : i = j := by
  have hpair : ∀ {i j : Nat} {e e' : K × V}, i < j → j < n →
      g i = some e → g j = some e' → (e.1 == e'.1) = false := by
    intro i j e e' hij hj hi' hj'
    rw [pairwise_filterMap, pairwise_iff_getElem] at hd
    have := hd i j (by simp; omega) (by simpa using hj) hij
    simp only [getElem_range] at this
    exact this e hi' e' hj'
  rcases Nat.lt_trichotomy i j with hij | hij | hij
  · rw [hpair hij hjn hi hj] at hk
    exact absurd hk (by decide)
  · exact hij
  · have hk' : (e'.1 == e.1) = true := BEq.symm hk
    rw [hpair hij hin hj hi] at hk'
    exact absurd hk' (by decide)

theorem MapOk.apart (h : MapOk hash t) {j : Nat} {e' : K × V}
    (hi : entryAt t i = some e) (hj : entryAt t j = some e')
    (hk : (e.1 == e'.1) = true) : i = j := by
  have hlt : ∀ {i : Nat} {e : K × V}, entryAt t i = some e → i < t.used := by
    intro i e he
    by_contra hle
    exact (live_of_entryAt he).1 (h.beyond i (Nat.le_of_not_lt hle))
  have hd := h.distinct
  rw [toList_eq] at hd
  exact index_eq_of_apart hd (hlt hi) (hlt hj) hi hj hk

/-- The element that `find?` gives where one element alone is accepted. -/
theorem find?_eq_of_unique {α : Type} {p : α → Bool} {l : List α} {a : α}
    (hmem : a ∈ l) (ha : p a = true) (huniq : ∀ b ∈ l, p b = true → b = a) :
    l.find? p = some a := by
  cases hf : l.find? p with
  | none => exact absurd ha (find?_eq_none.1 hf a hmem)
  | some b => rw [huniq b (mem_of_find?_eq_some hf) (find?_some hf)]

/-- **`find` gives the entry of a key, or none where the key is not there.** -/
theorem MapOk.find_cases (h : MapOk hash t)
    (hhash : ∀ a b : K, (a == b) = true → hash a = hash b) (k : K) :
    (∃ i e, mapFind hash t k = .ok (some i) ∧ entryAt t i = some e ∧
      (e.1 == k) = true ∧ (toList t).find? (fun e => e.1 == k) = some e) ∨
    (mapFind hash t k = .ok none ∧ ∀ e ∈ toList t, (e.1 == k) = false) := by
  by_cases hex : ∃ e ∈ toList t, (e.1 == k) = true
  · left
    obtain ⟨e, hmem, hk⟩ := hex
    have hmem' := hmem
    rw [toList_eq] at hmem'
    obtain ⟨i, _, hi⟩ := mem_filterMap.1 hmem'
    obtain ⟨hlive, hentry⟩ := live_of_entryAt hi
    obtain ⟨e₁, he₁, hmark, _⟩ := h.entry hlive
    rw [hentry] at he₁
    cases he₁
    refine ⟨i, e, ?_, hi, hk, find?_eq_of_unique hmem hk fun b hb hbk => ?_⟩
    · refine h.position_some (hmark.trans ?_) (liveMark_marked _ _).1 ?_ fun j hj hany => ?_
      · rw [hhash _ _ hk]
      · simp [hentry, hk]
      · have hj' : t.hashes j ≠ emptyMark := by
          rw [hj]
          exact (liveMark_marked _ _).1
        obtain ⟨e', he', _, hat⟩ := h.entry hj'
        rw [he'] at hany
        have hk' : (e'.1 == k) = true := by simpa using hany
        exact h.apart hat hi (PartialEquivBEq.trans hk' (BEq.symm hk))
    · rw [toList_eq] at hb
      obtain ⟨j, _, hj⟩ := mem_filterMap.1 hb
      have hji := h.apart hj hi (PartialEquivBEq.trans hbk (BEq.symm hk))
      rw [hji, hi] at hj
      exact (Option.some.inj hj).symm
  · right
    have hno : ∀ e ∈ toList t, (e.1 == k) = false := by
      intro e he
      cases hk : e.1 == k with
      | false => rfl
      | true => exact absurd ⟨e, he, hk⟩ hex
    refine ⟨h.position_none (liveMark_marked _ _) fun i hi => ?_, hno⟩
    have hlive : t.hashes i ≠ emptyMark := by
      rw [hi]
      exact (liveMark_marked _ _).1
    obtain ⟨e, he, _, hat⟩ := h.entry hlive
    rw [he]
    simpa using hno e (h.mem_toList hat)

theorem MapOk.overwrite (h : MapOk hash t) {k : K} (v : V) (hi : entryAt t i = some e)
    (hk : (e.1 == k) = true) :
    MapOk hash (t.write i ((t.entries i).map fun e => (e.1, v))) ∧
      toList (t.write i ((t.entries i).map fun e => (e.1, v))) = (toList t).map (replaced k v) := by
  obtain ⟨hlive, hentry⟩ := live_of_entryAt hi
  have hpairs : (t.write i ((t.entries i).map fun e => (e.1, v))).pairs =
      t.pairs.map fun p => (p.1, p.2.map (replaced k v)) := by
    show (List.range t.used).filterMap _ = ((List.range t.used).filterMap _).map _
    rw [map_filterMap]
    refine filterMap_congr fun j _ => ?_
    unfold pairAt
    by_cases hj : t.hashes j = emptyMark
    · rw [if_pos hj]
      exact if_pos hj
    · rw [if_neg hj]
      show (if t.hashes j = emptyMark then none else _) = _
      rw [if_neg hj]
      obtain ⟨e', he', _, hat⟩ := h.entry hj
      by_cases hji : j = i
      · subst hji
        simp [EntryTable.write, hentry, replaced, hk]
      · have hne : (e'.1 == k) = false := by
          by_contra hk'
          exact hji (h.apart hat hi (PartialEquivBEq.trans (by simpa using hk') (BEq.symm hk)))
        simp [EntryTable.write, Function.update_of_ne hji, he', replaced, hne]
  have hlist : toList (t.write i ((t.entries i).map fun e => (e.1, v))) =
      (toList t).map (replaced k v) := by
    rw [toList, hpairs, filterMap_map, toList, map_filterMap]
    rfl
  refine ⟨⟨⟨h.toRoomOk.write hlive _, ?_⟩, fun p hp => ?_, ?_⟩, hlist⟩
  · rw [hpairs, length_map]
    exact h.count
  · rw [hpairs] at hp
    obtain ⟨p₀, hp₀, rfl⟩ := List.mem_map.1 hp
    obtain ⟨e₀, rfl⟩ := h.keyed p₀ hp₀
    refine ⟨replaced k v e₀, ?_⟩
    show _ = (marked t.seed (hash (replaced k v e₀).1), _)
    rw [replaced_fst]
    rfl
  · rw [hlist, pairwise_map]
    refine h.distinct.imp fun {a b} hab => ?_
    rw [Apart, replaced_fst, replaced_fst]
    exact hab

theorem assocErase_of_split {before after : List (K × V)} {k : K}
    (hd : (before ++ e :: after).Pairwise Apart) (hk : (e.1 == k) = true) :
    assocErase (before ++ e :: after) k = before ++ after := by
  obtain ⟨_, hcons, hcross⟩ := pairwise_append.1 hd
  obtain ⟨hhead, _⟩ := pairwise_cons.1 hcons
  have hsome : ∀ x : K × V, (x.1 == e.1) = false → (!(x.1 == k)) = true := by
    intro x hx
    by_contra hxk
    have hxk : (x.1 == k) = true := by simpa using hxk
    rw [PartialEquivBEq.trans hxk (BEq.symm hk)] at hx
    exact absurd hx (by decide)
  rw [assocErase, filter_append, filter_cons_of_neg (by simp [hk])]
  congr 1
  · exact filter_eq_self.2 fun x hx => hsome x (hcross x hx e (mem_cons_self ..))
  · refine filter_eq_self.2 fun x hx => hsome x ?_
    by_contra hxe
    have hxe : (x.1 == e.1) = true := by simpa using hxe
    have hex := hhead x hx
    rw [Apart, BEq.symm hxe] at hex
    exact absurd hex (by decide)

/-- What a call that returns does: what the association list does. -/
def Follows (hash : K → UInt64) (t : EntryTable (K × V)) (call : MapCall K V)
    (r : EntryTable (K × V) × MapAnswer K V) : Prop :=
  MapOk hash r.1 ∧ AssocStep (toList t) call r.2 (toList r.1)

omit [EquivBEq K] in
theorem assocGet_eq_none {l : List (K × V)} {k : K}
    (hno : ∀ e ∈ l, (e.1 == k) = false) : assocGet l k = none := by
  rw [assocGet, find?_eq_none.2 fun e he => by simp [hno e he]]
  rfl

theorem MapOk.set (h : MapOk hash t)
    (hhash : ∀ a b : K, (a == b) = true → hash a = hash b) (k : K) (v : V) :
    Yields (mapCall hash t (.set k v)) (Follows hash t (.set k v)) := by
  rcases h.find_cases hhash k with ⟨i, e, hf, hi, hk, hfind⟩ | ⟨hf, hno⟩
  · obtain ⟨hok, hlist⟩ := h.overwrite v hi hk
    have hany : (toList t).any (fun e => e.1 == k) = true := by
      rw [List.any_eq_true]
      exact ⟨e, mem_of_find?_eq_some hfind, hk⟩
    have hset : assocSet (toList t) k v = (toList t).map (replaced k v) :=
      if_pos hany
    have hcall : mapCall hash t (.set k v) =
        .ok (t.write i ((t.entries i).map fun e => (e.1, v)), .nothing) := by
      simp only [mapCall, mapSet, hf]
      rfl
    rw [hcall]
    refine .pure ⟨hok, ?_⟩
    rw [hlist, ← hset]
    exact .set k v
  · have hany : ¬ (toList t).any (fun e => e.1 == k) = true := by
      rw [List.any_eq_true]
      rintro ⟨e, he, hk⟩
      rw [hno e he] at hk
      exact absurd hk (by decide)
    have hset : assocSet (toList t) k v = toList t ++ [(k, v)] := if_neg hany
    have hcall : mapCall hash t (.set k v) = Except.bind (do
        let (t, i) ← t.append (marked t.seed (hash k))
        return t.write i (some (k, v))) fun t' => .ok (t', .nothing) := by
      simp only [mapCall, mapSet, hf]
      rfl
    rw [hcall]
    refine (h.append v hno).bind fun t' ⟨hok, hlist⟩ => .pure ⟨hok, ?_⟩
    rw [hlist, ← hset]
    exact .set k v

theorem MapOk.add (h : MapOk hash t)
    (hhash : ∀ a b : K, (a == b) = true → hash a = hash b) (k : K) (v : V) :
    Yields (mapCall hash t (.add k v)) (Follows hash t (.add k v)) := by
  rcases h.find_cases hhash k with ⟨i, e, hf, hi, hk, hfind⟩ | ⟨hf, hno⟩
  · have hcall : mapCall hash t (.add k v) = .ok (t, .added false) := by
      simp only [mapCall, mapAdd, hf]
      rfl
    rw [hcall]
    refine .pure ⟨h, .addOld k v ?_⟩
    rw [assocGet, hfind]
    exact fun he => nomatch he
  · have hcall : mapCall hash t (.add k v) = Except.bind (do
        let (t, i) ← t.append (marked t.seed (hash k))
        return t.write i (some (k, v))) fun t' => .ok (t', .added true) := by
      simp only [mapCall, mapAdd, hf]
      cases t.append (marked t.seed (hash k)) <;> rfl
    rw [hcall]
    refine (h.append v hno).bind fun t' ⟨hok, hlist⟩ => .pure ⟨hok, ?_⟩
    rw [hlist]
    exact .addNew k v (assocGet_eq_none hno)

theorem MapOk.remove (h : MapOk hash t)
    (hhash : ∀ a b : K, (a == b) = true → hash a = hash b) (k : K) :
    Yields (mapCall hash t (.remove k)) (Follows hash t (.remove k)) := by
  rcases h.find_cases hhash k with ⟨i, e, hf, hi, hk, hfind⟩ | ⟨hf, hno⟩
  · obtain ⟨t', e', before, after, htake, hat, hlist, hok, hlist', _⟩ :=
      h.take (live_of_entryAt hi).1
    rw [hi] at hat
    cases hat
    have hcall : mapCall hash t (.remove k) =
        .ok (t'.resized (t'.count - 1), .removed (some e.2)) := by
      simp only [mapCall, mapRemove, hf]
      show Except.bind (Except.bind (t.takePlace i) _) _ = _
      rw [htake]
      rfl
    have hget : assocGet (toList t) k = some e.2 := by
      rw [assocGet, hfind]
      rfl
    rw [hcall, ← hget]
    refine .pure ⟨hok, ?_⟩
    have herase : toList (t'.resized (t'.count - 1)) = assocErase (toList t) k := by
      rw [hlist', hlist, assocErase_of_split (hlist ▸ h.distinct) hk]
    rw [herase]
    exact .remove k
  · have hcall : mapCall hash t (.remove k) = .ok (t, .removed none) := by
      simp only [mapCall, mapRemove, hf]
      rfl
    have hget : assocGet (toList t) k = none := assocGet_eq_none hno
    have herase : assocErase (toList t) k = toList t :=
      filter_eq_self.2 fun e he => by simp [hno e he]
    rw [hcall, ← hget]
    refine .pure ⟨h, ?_⟩
    have hstep := AssocStep.remove (l := toList t) k
    rwa [herase] at hstep

/-- A place that holds an entry. -/
def HoldsEntry (t : EntryTable (K × V)) (at_ : Int) : Prop :=
  0 ≤ at_ ∧ at_ < t.used ∧ t.hashes at_.toNat ≠ emptyMark

omit [EquivBEq K] in
theorem MapOk.takePlace (h : MapOk hash t) {at_ : Int} (hat : HoldsEntry t at_) :
    Yields (mapCall hash t (.takePlace at_)) (Follows hash t (.takePlace at_)) := by
  obtain ⟨t', e, before, after, htake, _, hlist, hok, hlist', _⟩ := h.take hat.2.2
  rw [Int.toNat_of_nonneg hat.1] at htake
  have hcall : mapCall hash t (.takePlace at_) = .ok (t'.resized (t'.count - 1),
        .taken (some e) (t.placesFrom (at_.toNat + 1)).head?) := by
    simp only [mapCall, htake]
    rfl
  rw [hcall]
  refine .pure ⟨hok, ?_⟩
  rw [hlist']
  exact .takePlace at_ before after e _ hlist

/-- What a call of a map gives: what the association list gives, or the program
    stops for want of memory or at a place without an entry. -/
theorem MapOk.call (h : MapOk hash t)
    (hhash : ∀ a b : K, (a == b) = true → hash a = hash b) (call : MapCall K V) :
    Yields (mapCall hash t call) (Follows hash t call) ∨
    (∃ at_, call = .takePlace at_ ∧ ¬ HoldsEntry t at_ ∧
      mapCall hash t call = .error .noElement) := by
  cases call with
  | set k v => exact Or.inl (h.set hhash k v)
  | add k v => exact Or.inl (h.add hhash k v)
  | remove k => exact Or.inl (h.remove hhash k)
  | takePlace at_ =>
    by_cases hat : HoldsEntry t at_
    · exact Or.inl (h.takePlace hat)
    · refine Or.inr ⟨at_, rfl, hat, ?_⟩
      simp only [mapCall, takePlace_error hat]
      rfl
  | reserve n =>
    left
    refine (h.toOk.reserve n).bind fun t' ⟨hok, hseed, hpairs⟩ => .pure ?_
    obtain ⟨hmap, hlist⟩ := h.of_pairs hok hseed hpairs
    exact ⟨hmap, hlist ▸ .reserve n⟩
  | shrink =>
    left
    refine h.toOk.shrink.bind fun t' ⟨hok, hseed, hpairs⟩ => .pure ?_
    obtain ⟨hmap, hlist⟩ := h.of_pairs hok hseed hpairs
    exact ⟨hmap, hlist ▸ .shrink⟩
  | copy =>
    left
    refine h.toOk.copy.bind fun t' ⟨hok, hseed, hpairs⟩ => .pure ?_
    obtain ⟨hmap, hlist⟩ := h.of_pairs hok hseed hpairs
    exact ⟨hmap, hlist ▸ .copy⟩

/-! ## Every sequence of calls -/

/-- **What a map is after a sequence of calls.** -/
structure InsertionOrdered (hash : K → UInt64)
    (calls : List (MapCall K V × MapAnswer K V)) (t : EntryTable (K × V)) :
    Prop where
  /-- The calls gave what an association list gives, and left the same entries. -/
  assoc : AssocRun calls (toList t)
  get : ∀ k, mapGet hash t k = .ok (assocGet (toList t) k)
  /-- A walk gives each entry once, in the order of the list. -/
  walk : t.walk = .ok t.places ∧ t.places.Nodup ∧
    t.places.map t.entries = (toList t).map some ∧ (toList t).Pairwise Apart
  /-- `take_place` takes the entry of its place, gives the place after it, and
      leaves the places of the others. -/
  take : ∀ at_ t' e after, t.takePlace at_ = .ok (t', e, after) →
    ∃ i before rest, at_ = (i : Nat) ∧ t.places = before ++ i :: rest ∧
      e = t.entries i ∧ after = rest.head? ∧ t'.places = before ++ rest
  /-- A call returns, unless memory runs out or its place holds no entry. -/
  returns : ∀ call stop, mapCall hash t call = .error stop → stop = .memory ∨
    stop = .noElement ∧ ∃ at_, call = .takePlace at_ ∧ ∀ i ∈ t.places, at_ ≠ (i : Nat)
  position_ends : ∀ h same, ∃ found, t.position h same = .ok found
  place_ends : t.room = true → ∀ h i, ∃ t', t.place h i = .ok t'
  forget_ends : ∀ i ∈ t.places, ∃ t', t.forget i = .ok t'
  empty : t.room = true → ∃ p, p < t.bucketCount ∧ t.marks p = emptyMark
  /-- A live entry is reached from the bucket of its hash before any empty bucket. -/
  reached : ∀ i ∈ t.places, ∃ p, p < t.bucketCount ∧ t.marks p = t.hashes i ∧
    t.positions p = i ∧ ReachedFrom t.marks t.bucketCount (t.hashes i) p
  count_le : t.count ≤ t.used
  used_le : t.used ≤ t.roomSize
  buckets : t.room = true → 2 * t.roomSize ≤ t.bucketCount

omit [BEq K] [EquivBEq K] in
theorem mem_places : i ∈ t.places ↔ i < t.used ∧ t.hashes i ≠ emptyMark := by
  rw [places, mem_filter, mem_range]
  simp

omit [EquivBEq K] in
theorem MapOk.entries_places (h : MapOk hash t) :
    t.places.map t.entries = (toList t).map some := by
  have hl : ∀ l : List Nat, (l.filter fun i => t.hashes i ≠ emptyMark).map t.entries =
      (l.filterMap (entryAt t)).map some := by
    intro l
    induction l with
    | nil => rfl
    | cons i l ih =>
      by_cases hi : t.hashes i = emptyMark
      · rw [filter_cons_of_neg (by simp [hi]),
          filterMap_cons_none (by simp [entryAt, pairAt, hi]), ih]
      · obtain ⟨e, he, _, hat⟩ := h.entry hi
        rw [filter_cons_of_pos (by simp [hi]), filterMap_cons_some hat, map_cons, map_cons, ih, he]
  rw [places, hl, toList_eq]

theorem MapOk.get (h : MapOk hash t)
    (hhash : ∀ a b : K, (a == b) = true → hash a = hash b) (k : K) :
    mapGet hash t k = .ok (assocGet (toList t) k) := by
  rcases h.find_cases hhash k with ⟨i, e, hf, hi, _, hfind⟩ | ⟨hf, hno⟩
  · rw [mapGet, hf, assocGet, hfind]
    show Except.ok ((t.entries i).map Prod.snd) = _
    rw [(live_of_entryAt hi).2]
  · rw [mapGet, hf, assocGet_eq_none hno]
    rfl

omit [EquivBEq K] in
theorem MapOk.take_place (h : MapOk hash t) {at_ : Int} {t' : EntryTable (K × V)}
    {e : Option (K × V)} {after : Option Nat}
    (htake : t.takePlace at_ = .ok (t', e, after)) :
    ∃ i before rest, at_ = (i : Nat) ∧ t.places = before ++ i :: rest ∧
      e = t.entries i ∧ after = rest.head? ∧ t'.places = before ++ rest := by
  by_cases hat : HoldsEntry t at_
  · obtain ⟨t₁, e₁, _, _, htake₁, hentry, _, _, _, l, hl, hl'⟩ := h.take hat.2.2
    rw [Int.toNat_of_nonneg hat.1, htake] at htake₁
    cases htake₁
    exact ⟨at_.toNat, l, _, (Int.toNat_of_nonneg hat.1).symm, hl,
      (live_of_entryAt hentry).2.symm, rfl, hl'⟩
  · rw [takePlace_error hat] at htake
    cases htake

/-- **A map is an insertion-ordered finite map**, after every sequence of calls, for
    every seed and every hash that agrees with the equality of the keys. -/
theorem map_insertion_ordered (hhash : ∀ a b : K, (a == b) = true → hash a = hash b) {seed : UInt64}
    {elementSize : Nat} {calls : List (MapCall K V × MapAnswer K V)}
    (hrun : Runs (MapStep hash) { elementSize := elementSize, seed := seed } calls t) :
    InsertionOrdered hash calls t := by
  have hinv : MapOk hash t ∧ AssocRun calls (toList t) := by
    refine hrun.invariant (fun calls t => MapOk hash t ∧ AssocRun calls (toList t)) ?_ ?_
    · refine ⟨⟨new_ok seed elementSize, fun p hp => absurd hp not_mem_nil, ?_⟩, .start⟩
      exact Pairwise.nil
    · rintro calls t ⟨call, answer⟩ t' ⟨hok, hassoc⟩ hstep
      rcases hok.call hhash call with hy | ⟨_, _, _, herr⟩
      · obtain ⟨hok', hfollow⟩ := hy.of_ok hstep
        exact ⟨hok', hassoc.snoc hfollow⟩
      · have hstep : mapCall hash t call = .ok (t', answer) := hstep
        rw [herr] at hstep
        cases hstep
  obtain ⟨hok, hassoc⟩ := hinv
  refine ⟨hassoc, hok.get hhash, ⟨hok.walk, ?_, hok.entries_places, hok.distinct⟩,
    fun at_ t' e after => hok.take_place, fun call stop hstop => ?_, hok.position_ends,
    fun hroom h i => ?_, fun i hi => ?_, hok.exists_empty,
    fun i hi => hok.index.reached i (mem_places.1 hi).2, ?_, hok.used_le,
    fun hroom => ?_⟩
  · exact nodup_range.filter _
  · rcases hok.call hhash call with hy | ⟨at_, hcall, hat, herr⟩
    · rcases hy with ⟨r, hr, _⟩ | hm
      · rw [hr] at hstop
        cases hstop
      · rw [hm] at hstop
        cases hstop
        exact Or.inl rfl
    · rw [herr] at hstop
      cases hstop
      refine Or.inr ⟨rfl, at_, hcall, fun i hi he => hat ?_⟩
      obtain ⟨hlt, hlive⟩ := mem_places.1 hi
      subst he
      exact ⟨by omega, by omega, by simpa using hlive⟩
  · obtain ⟨q, _, _, _, heq⟩ := hok.place_eq hroom t rfl rfl hroom h i
    exact ⟨_, heq⟩
  · obtain ⟨q, _, _, _, heq⟩ := hok.forget_eq (mem_places.1 hi).2
    exact ⟨_, heq⟩
  · rw [hok.count, length_pairs]
    exact t.places_le_used
  · obtain ⟨_, _, hle⟩ := hok.buckets hroom
    exact hle

end Map

/-- A new map of numbers. -/
def numberMap : EntryTable (Nat × Nat) := { elementSize := 16, seed := 5 }

/-- Two keys are entered, and the first is removed again. -/
def numberCalls : List (MapCall Nat Nat × MapAnswer Nat Nat) :=
  [(.set 1 10, .nothing), (.set 2 20, .nothing), (.remove 1, .removed (some 10))]

theorem numberMap_set : ∃ t, Runs (MapStep UInt64.ofNat) numberMap numberCalls t ∧
    InsertionOrdered UInt64.ofNat numberCalls t := by
  have h1 := Runs.snoc .start
    (show MapStep UInt64.ofNat numberMap (.set 1 10, .nothing) _ from rfl)
  have h2 := Runs.snoc h1 (show MapStep UInt64.ofNat _ (.set 2 20, .nothing) _ from rfl)
  have h3 := Runs.snoc h2 (show MapStep UInt64.ofNat _ (.remove 1, .removed (some 10)) _ from rfl)
  exact ⟨_, h3, map_insertion_ordered (fun a b hab => by rw [beq_iff_eq.1 hab]) h3⟩

end AnticCollection
