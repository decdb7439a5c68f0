import Antic.Damage
import Mathlib.Data.List.Nodup
import Mathlib.Data.List.Perm.Subperm

/-! # What the check of a table finds

    The list of what is reached only grows, and each call leaves in it what its fields
    lead to.  At the end every descriptor in it is settled, so that the list holds all
    that the classes reach by fields that the check follows. -/

namespace AnticDamage

open Contracts Closures List

/-! ## Sound descriptors -/

def Memory.fieldsOf (m : Memory) (d : Descriptor) : List Field :=
  (m.fields d.fields).take d.fieldCount.toNat

/-- The descriptor of the element of an array, of the last level where it has several. -/
def Memory.element (m : Memory) (f : Field) : Nat :=
  if antiTypeElement f.type = AntiType.array.id then
    match m.descriptors.lookup f.descriptor with
    | some d => ((m.fieldsOf d).getLast?.map Field.descriptor).getD 0
    | none => 0
  else f.descriptor

/-- The lengths of the levels of an array. -/
def Memory.lengths (m : Memory) (f : Field) : List Int :=
  if antiTypeElement f.type = AntiType.array.id then
    match m.descriptors.lookup f.descriptor with
    | some d => (m.fieldsOf d).map Field.owned
    | none => [0]
  else [antiTypeCount f.type]

/-- The bytes of a value of the type. -/
def heldWidth (host : Host) (m : Memory) (kind type : Int) (d : Nat) : Int :=
  if inline kind then ((m.descriptors.lookup d).map Descriptor.size).getD 0
  else typeSize host type

/-- The bytes of a field. -/
def width (host : Host) (m : Memory) (f : Field) : Int :=
  if typeScalar f.type = AntiType.array.id then
    heldWidth host m (antiTypeInner f.type) (antiTypeInner f.type) (m.element f) *
      (m.lengths f).prod
  else heldWidth host m (typeScalar f.type) f.type f.descriptor

/-- The descriptor lies in the memory with its fields, and they lie in its objects. -/
def SoundAt (host : Host) (m : Memory) (a : Nat) : Prop :=
  ∃ d, m.descriptors.lookup a = some d ∧ 0 ≤ d.size ∧
    0 ≤ d.fieldCount ∧ d.fieldCount ≤ (m.fields d.fields).length ∧
    ∀ f ∈ m.fieldsOf d, 0 ≤ f.offset ∧ f.offset + width host m f ≤ d.size

/-- The check follows the field to the descriptor. -/
def Follows (m : Memory) (f : Field) (a : Nat) : Prop :=
  a ≠ 0 ∧ if typeScalar f.type = AntiType.array.id then a = m.element f
    else a = f.descriptor ∧ antiTypeElement f.type ≠ AntiType.array.id

/-- The field is no pointer and no slice, and the check passes over its descriptor. -/
def PassesOver (f : Field) (a : Nat) : Prop :=
  a ≠ 0 ∧ a = f.descriptor ∧ antiTypeElement f.type = AntiType.array.id ∧
    typeScalar f.type ∉ [AntiType.array, .ptr, .slice].map AntiType.id

/-- A field of the descriptor at `a` takes the step to `b`. -/
def Through (m : Memory) (step : Field → Nat → Prop) (a b : Nat) : Prop :=
  ∃ d, m.descriptors.lookup a = some d ∧ ∃ f ∈ m.fieldsOf d, step f b

/-- A field of the descriptor at `a` carries the descriptor `b`. -/
def Leads (m : Memory) : Nat → Nat → Prop := Through m fun f b => Follows m f b ∨ PassesOver f b

/-- A class and its parents. -/
inductive OnChain (m : Memory) : Nat → Nat → Prop where
  | self {a : Nat} : a ≠ 0 → OnChain m a a
  | up {a b : Nat} {d : Descriptor} : m.descriptors.lookup a = some d →
      OnChain m d.parent b → OnChain m a b

/-- A class of the table, or a parent of one. -/
def Starts (m : Memory) (table : Provided) (a : Nat) : Prop :=
  (∃ e ∈ (m.entries table.entries).take table.count.toNat, OnChain m e.classOf a) ∨
    ∃ c ∈ (m.classes table.classes).take table.classCount.toNat, OnChain m c.descriptor a

def Reachable (m : Memory) (table : Provided) : Nat → Prop := Reached (Starts m table) (Leads m)

/-- What fields that the check passes over lead to. -/
def Unseen (m : Memory) (table : Provided) : Nat → Prop :=
  Reached (fun b => ∃ a, Reachable m table a ∧ Through m PassesOver a b) (Leads m)

/-- A sound descriptor whose fields lead into the list. -/
def Settled (host : Host) (m : Memory) (r : List Nat) (a : Nat) : Prop :=
  SoundAt host m a ∧ ∀ b, Through m (Follows m) a b → b ∈ r

theorem Settled.mono {host : Host} {m : Memory} {r r' : List Nat} {a : Nat}
    (h : Settled host m r a) (hr : r <+: r') : Settled host m r' a :=
  ⟨h.1, fun b hb => hr.subset (h.2 b hb)⟩

/-! ## Rules -/

/-- The list holds descriptors of the memory, each once, and what was there before. -/
structure Grown (m : Memory) (before r : List Nat) : Prop where
  old : before <+: r
  held : ∀ a ∈ r, ∃ d, m.descriptors.lookup a = some d
  once : r.Nodup

variable {α β : Type} {host : Host} {m : Memory} {E : Stop → Prop} {before : List Nat}

theorem Grown.trans {r r' : List Nat} (h : Grown m before r) (h' : Grown m r r') :
    Grown m before r' := ⟨h.old.trans h'.old, h'.held, h'.once⟩

theorem Grown.self {r : List Nat} (h : Grown m before r) : Grown m r r :=
  ⟨prefix_rfl, h.held, h.once⟩

theorem Grown.length_le {r : List Nat} (h : Grown m before r) :
    r.length ≤ m.descriptors.length := by
  have hsub : r ⊆ m.descriptors.map Prod.fst := by
    intro a ha
    obtain ⟨d, hd⟩ := h.held a ha
    obtain ⟨l₁, l₂, hl, -⟩ := lookup_eq_some_iff.1 hd
    rw [hl]
    simp
  have hle := (subperm_of_subset h.once hsub).length_le
  rwa [length_map] at hle

/-- From a list that has grown, `x` ends with one that has and with `Q`. -/
def Checks (m : Memory) (E : Stop → Prop) (before : List Nat) (x : Check α)
    (Q : α → List Nat → Prop) : Prop :=
  Contract (Grown m before) x (fun a r => Grown m before r ∧ Q a r) fun e _ => E e

theorem Checks.bind {x : Check α} {f : α → Check β} {R : α → List Nat → Prop}
    {Q : β → List Nat → Prop} (hx : Checks m E before x R)
    (hf : ∀ a r, Grown m before r → R a r → Checks m E r (f a) Q) :
    Checks m E before (x >>= f) Q := by
  refine Contract.bind hx fun a => ⟨fun s hs => ?_⟩
  have h := (hf a s hs.1 hs.2).run s hs.1.self
  cases hres : f a s with
  | ok b t =>
    rw [hres] at h
    exact ⟨hs.1.trans h.1, h.2⟩
  | error e t =>
    rw [hres] at h
    exact h

theorem Checks.pure {a : α} {Q : α → List Nat → Prop}
    (h : ∀ r, Grown m before r → Q a r) : Checks m E before (Pure.pure a) Q :=
  Contract.pure fun r hr => ⟨hr, h r hr⟩

theorem Checks.weaken {x : Check α} {Q R : α → List Nat → Prop}
    (h : Checks m E before x Q) (hQ : ∀ a r, before <+: r → Q a r → R a r) :
    Checks m E before x R :=
  Contract.weaken h (fun _ hs => hs) fun a r hr => ⟨hr.1, hQ a r hr.1.old hr.2⟩

theorem Checks.require (ok : Bool) :
    Checks m (· = .damaged) before (require ok) fun _ _ => ok = true := by
  unfold AnticDamage.require
  split
  · next h => exact .pure fun _ _ => h
  · exact Contract.throw fun _ _ => rfl

/-- What `damage_in` may answer. -/
def Found (e : Stop) : Prop := ∃ what, e = .found what

theorem Checks.blame {x : Check Unit} {Q : Unit → List Nat → Prop}
    (h : Checks m (· = .damaged) before x Q) (what : String) :
    Checks m Found before (blame what x) Q := by
  refine ⟨fun s hs => ?_⟩
  have hxs := h.run s hs
  unfold AnticDamage.blame
  cases hres : x s with
  | ok a t =>
    rw [hres] at hxs
    exact hxs
  | error e t =>
    rw [hres] at hxs
    subst hxs
    exact ⟨what, rfl⟩

theorem Checks.record {lists : Nat → List α} {list i : Nat} {x : α}
    (h : (lists list)[i]? = some x) :
    Checks m E before (record lists list i) fun y _ => y = x := by
  unfold AnticDamage.record
  rw [h]
  exact .pure fun _ _ => rfl

theorem Checks.descriptor {a : Nat} {d : Descriptor} (h : m.descriptors.lookup a = some d) :
    Checks m E before (AnticDamage.record m.descriptor a 0) fun y _ => y = d :=
  .record (by simp [Memory.descriptor, h])

theorem Checks.reach {d : Descriptor} {a : Nat} (h : m.descriptors.lookup a = some d) :
    Checks m E before (reach a) fun _ r => a ∈ r := by
  refine ⟨fun r hr => ?_⟩
  show Grown m before (if a ∈ r then r else r ++ [a]) ∧ a ∈ if a ∈ r then r else r ++ [a]
  split
  · next hmem => exact ⟨hr, hmem⟩
  · next hnew =>
    refine ⟨⟨hr.old.trans (prefix_append r [a]), ?_, ?_⟩, by simp⟩
    · intro b hb
      rcases mem_append.1 hb with hb | hb
      · exact hr.held b hb
      · exact ⟨d, mem_singleton.1 hb ▸ h⟩
    · exact hr.once.append (nodup_singleton a) (by simpa using hnew)

theorem Checks.each {lists : Nat → List α} {list : Nat} {body : α → Check Unit}
    {Q : α → List Nat → Prop}
    (hmono : ∀ x r r', r <+: r' → Q x r → Q x r')
    (hbody : ∀ x r, Checks m E r (body x) fun _ => Q x) :
    ∀ (n i : Nat) (before : List Nat), i + n ≤ (lists list).length →
      Checks m E before (each lists list body i n) fun _ r =>
        ∀ x ∈ ((lists list).drop i).take n, Q x r := by
  intro n
  induction n with
  | zero =>
    intro i before _
    exact .pure fun _ _ x hx => absurd hx (by simp)
  | succ n ih =>
    intro i before hlen
    have hlt : i < (lists list).length := by omega
    refine .bind (.record (getElem?_eq_getElem hlt)) fun x r _ hx => ?_
    refine .bind (hbody x r) fun _ r' hr' hQ => ?_
    refine (ih (i + 1) r' (by omega)).weaken fun _ r'' hr'' hrest y hy => ?_
    rw [drop_eq_getElem_cons hlt, take_succ_cons, mem_cons] at hy
    rcases hy with rfl | hy
    · exact hmono _ _ _ hr'' (hx ▸ hQ)
    · exact hrest y hy

theorem of_listSound {lists : Nat → List α} {list : Nat} {count : Int}
    (h : listSound lists list count = true) :
    0 ≤ count ∧ count ≤ (lists list).length := by
  simp only [listSound, Bool.or_eq_true, Bool.and_eq_true, decide_eq_true_eq] at h
  omega

theorem Memory.of_listSound {a : Nat} (h : listSound m.descriptor a 1 = true) :
    ∃ d, m.descriptors.lookup a = some d := by
  have hlen := (AnticDamage.of_listSound h).2
  cases hd : m.descriptors.lookup a with
  | none => simp [Memory.descriptor, hd] at hlen
  | some d => exact ⟨d, rfl⟩

/-! ## Widths -/

theorem times_checks {a b : Int} (ha : 0 ≤ a) (hb : 0 ≤ b) (h : a * b ≤ int64Max) :
    Checks m E before (times a b) fun w _ => w = a * b := by
  have hpos := Int.mul_nonneg ha hb
  unfold times
  unfold int64Max at h
  rw [if_pos ⟨by omega, by omega⟩]
  exact .pure fun _ _ => rfl

/-- Where no product passes an int64, the loop gives the product of all lengths. -/
theorem scale_checks {length : Nat → Check Int} {lengths : List Int}
    (hlength : ∀ i v, lengths[i]? = some v → ∀ r, Checks m E r (length i) fun w _ => w = v) :
    ∀ (n i : Nat) (w : Int) (before : List Nat), i + n = lengths.length →
      Checks m E before (scale length i n w) fun w' _ =>
        0 ≤ w' → w' = w * (lengths.drop i).prod := by
  intro n
  induction n with
  | zero =>
    intro i w before hn
    refine .pure fun _ _ _ => ?_
    rw [drop_of_length_le (by omega), prod_nil, Int.mul_one]
  | succ n ih =>
    intro i w before hn
    have hlt : i < lengths.length := by omega
    unfold scale
    split
    · next hneg => exact .pure fun _ _ h => absurd h (by omega)
    · next hpos =>
      refine .bind (hlength i _ (getElem?_eq_getElem hlt) before) ?_
      rintro v r hr rfl
      split
      · exact .pure fun _ _ h => absurd h (by decide)
      · next hfit =>
        rw [not_or, Int.not_lt] at hfit
        have hmax : w * lengths[i] ≤ int64Max := by
          rcases Int.lt_or_eq_of_le hfit.1 with hv | hv
          · rw [← Int.le_ediv_iff_mul_le hv]
            exact Int.not_lt.1 fun hlt => hfit.2 ⟨hv, hlt⟩
          · rw [← hv, Int.mul_zero]
            decide
        refine .bind (times_checks (Int.not_lt.1 hpos) hfit.1 hmax) ?_
        rintro w' r' hr' rfl
        refine (ih (i + 1) _ r' (by omega)).weaken fun w' _ _ h hw => ?_
        rw [h hw, drop_eq_getElem_cons hlt, prod_cons, Int.mul_assoc]

theorem switchWidth_checks {kind type : Int} {d : Nat}
    (hd : d ≠ 0 → ∃ x, m.descriptors.lookup d = some x) :
    Checks m E before (switchWidth host m kind type d) fun w _ =>
      w = heldWidth host m kind type d := by
  unfold switchWidth heldWidth
  split
  · split
    · next hne =>
      obtain ⟨x, hx⟩ := hd hne
      refine .bind (.descriptor hx) ?_
      rintro y r hr rfl
      exact .pure fun _ _ => by rw [hx]; rfl
    · next hz =>
      rw [not_not] at hz
      exact .pure fun _ _ => by rw [hz, m.null]; rfl
  · exact .pure fun _ _ => rfl

/-- What the widths of a field tell. -/
def Measures (host : Host) (m : Memory) (f : Field) (w : Int) (r : List Nat) : Prop :=
  0 ≤ w → w = width host m f ∧ ∀ a, Follows m f a → a ∈ r

theorem reach_checks {p : Prop} [Decidable p] {a : Nat}
    (h : p → ∃ d, m.descriptors.lookup a = some d) :
    Checks m E before (if p then reach a else pure ()) fun _ r => p → a ∈ r := by
  split
  · next hp =>
    obtain ⟨d, hd⟩ := h hp
    exact (Checks.reach hd).weaken fun _ _ _ hr _ => hr
  · next hp => exact .pure fun _ _ h => absurd h hp

theorem spread_checks {f : Field} {levels : Nat} {length : Nat → Check Int}
    (harray : typeScalar f.type = AntiType.array.id)
    (hlevels : levels = (m.lengths f).length)
    (hlength : ∀ i v, (m.lengths f)[i]? = some v → ∀ r, Checks m E r (length i) fun w _ => w = v) :
    Checks m E before (spread host m f.type (m.element f) levels length) (Measures host m f) := by
  unfold spread
  split
  · exact .pure fun _ _ h => absurd h (by decide)
  · next hsound =>
    have hheld : m.element f ≠ 0 → ∃ d, m.descriptors.lookup (m.element f) = some d := by
      intro hne
      refine Memory.of_listSound ?_
      by_contra hno
      exact hsound ⟨hne, hno⟩
    refine .bind (reach_checks hheld) fun _ r hr hmem => ?_
    refine .bind (switchWidth_checks hheld) ?_
    rintro w r' hr' rfl
    refine (scale_checks hlength levels 0 _ r' (by omega)).weaken fun w r'' hr'' h hw => ?_
    refine ⟨?_, fun a ha => ?_⟩
    · rw [h hw, width, if_pos harray, drop_zero]
    · obtain ⟨hne, ha⟩ := ha
      rw [if_pos harray] at ha
      subst ha
      exact hr''.subset (hr'.old.subset (hmem hne))

theorem arrayWidth_checks {f : Field} (harray : typeScalar f.type = AntiType.array.id)
    (hd : f.descriptor ≠ 0 → ∃ d, m.descriptors.lookup f.descriptor = some d) :
    Checks m E before (arrayWidth host m f.type f.descriptor) (Measures host m f) := by
  unfold arrayWidth
  split
  · next hnested =>
    split
    · next hz =>
      have helement : m.element f = 0 := by simp [Memory.element, hz, m.null]
      have hlengths : m.lengths f = [0] := by simp [Memory.lengths, hnested, hz, m.null]
      refine .pure fun _ _ _ => ⟨?_, fun a ha => ?_⟩
      · simp [width, harray, hlengths]
      · obtain ⟨hne, ha⟩ := ha
        rw [if_pos harray, helement] at ha
        exact absurd ha hne
    · next hne =>
      obtain ⟨d, hd⟩ := hd hne
      refine .bind (.descriptor hd) ?_
      rintro x r hr rfl
      split
      · exact .pure fun _ _ h => absurd h (by decide)
      · next hsound =>
        rw [not_or, not_or, not_not] at hsound
        have hcount := of_listSound hsound.2.2
        have hlen : (m.fieldsOf x).length = x.fieldCount.toNat := by
          rw [Memory.fieldsOf, length_take]
          omega
        have hlt : x.fieldCount.toNat - 1 < (m.fieldsOf x).length := by omega
        have hlast : (m.fields x.fields)[x.fieldCount.toNat - 1]? =
            some (m.fieldsOf x)[x.fieldCount.toNat - 1] := by
          simp [Memory.fieldsOf]
        refine .bind (.record hlast) ?_
        rintro last r' hr' rfl
        have helement : m.element f = (m.fieldsOf x)[x.fieldCount.toNat - 1].descriptor := by
          simp only [Memory.element, if_pos hnested, hd, getLast?_eq_getElem?, hlen]
          rw [getElem?_eq_getElem (by omega)]
          rfl
        rw [← helement]
        have hlengths : m.lengths f = (m.fieldsOf x).map Field.owned := by
          simp only [Memory.lengths, if_pos hnested, hd]
        refine spread_checks harray (by rw [hlengths, length_map, hlen]) ?_
        intro i v hv r''
        rw [hlengths, getElem?_map, Option.map_eq_some_iff] at hv
        obtain ⟨g, hg, rfl⟩ := hv
        have hg' : (m.fields x.fields)[i]? = some g := by
          rw [← hg, Memory.fieldsOf, getElem?_take_of_lt]
          exact hlen ▸ (List.getElem?_eq_some_iff.1 hg).1
        refine .bind (.record hg') ?_
        rintro y r''' _ rfl
        exact .pure fun _ _ => rfl
  · next hflat =>
    have helement : m.element f = f.descriptor := if_neg hflat
    have hlengths : m.lengths f = [antiTypeCount f.type] := if_neg hflat
    rw [← helement]
    refine spread_checks harray (by rw [hlengths]; rfl) fun i v hv r => .pure fun _ _ => ?_
    rw [hlengths] at hv
    exact mem_singleton.1 (mem_of_getElem? hv) |>.symm

theorem widthOf_checks (f : Field) :
    Checks m E before (widthOf host m f) (Measures host m f) := by
  unfold widthOf
  split
  · exact .pure fun _ _ h => absurd h (by decide)
  · next hsound =>
    have hheld : f.descriptor ≠ 0 → ∃ d, m.descriptors.lookup f.descriptor = some d := by
      intro hne
      refine Memory.of_listSound ?_
      by_contra hno
      exact hsound ⟨hne, hno⟩
    split
    · next harray => exact arrayWidth_checks harray hheld
    · next harray =>
      refine .bind (reach_checks fun h => hheld h.1) fun _ r hr hmem => ?_
      refine (switchWidth_checks hheld).weaken fun w r' hr' hw _ => ⟨?_, fun a ha => ?_⟩
      · rw [hw, width, if_neg harray]
      · obtain ⟨hne, ha⟩ := ha
        rw [if_neg harray] at ha
        obtain ⟨rfl, helement⟩ := ha
        exact hr'.subset (hmem ⟨hne, helement⟩)

/-! ## Descriptors and classes -/

theorem recordsSound_checks {fields : Nat} {count : Int} :
    Checks m (· = .damaged) before (recordsSound m fields count) fun _ _ =>
      0 ≤ count ∧ count ≤ (m.fields fields).length := by
  refine .bind (.require _) fun _ r hr hsound => ?_
  have hcount := of_listSound hsound
  refine (Checks.each (fun _ _ _ _ h => h) (fun f r => .require _) _ 0 r ?_).weaken
    fun _ _ _ _ => hcount
  omega

theorem fieldsSound_checks {d : Descriptor} :
    Checks m (· = .damaged) before (fieldsSound host m d.fields d.fieldCount d.size)
      fun _ r => (0 ≤ d.fieldCount ∧ d.fieldCount ≤ (m.fields d.fields).length) ∧
        ∀ f ∈ m.fieldsOf d, (0 ≤ f.offset ∧ f.offset + width host m f ≤ d.size) ∧
          ∀ b, Follows m f b → b ∈ r := by
  refine .bind recordsSound_checks fun _ r hr hcount => ?_
  refine (Checks.each ?_ (fun f r => ?_) _ 0 r (by omega)).weaken fun _ _ _ h => ⟨hcount, h⟩
  · exact fun f r r' hr h => ⟨h.1, fun b hb => hr.subset (h.2 b hb)⟩
  · refine .bind (widthOf_checks f) fun w r' hr' hw => ?_
    refine (Checks.require _).weaken fun _ r'' hr'' hok => ?_
    simp only [Bool.and_eq_true, decide_eq_true_eq] at hok
    obtain ⟨⟨⟨hpos, hle⟩, hoffset⟩, hfit⟩ := hok
    obtain ⟨rfl, hmem⟩ := hw hpos
    exact ⟨⟨hoffset, by omega⟩, fun b hb => hr''.subset (hmem b hb)⟩

theorem descriptorSound_checks (host : Host) (m : Memory) (a : Nat) (before : List Nat) :
    Checks m (· = .damaged) before (descriptorSound host m a) fun _ r => Settled host m r a := by
  refine .bind (.require _) fun _ r hr hsound => ?_
  rw [Bool.and_eq_true] at hsound
  obtain ⟨d, hd⟩ := Memory.of_listSound hsound.2
  refine .bind (.descriptor hd) ?_
  rintro x r₁ hr₁ rfl
  refine .bind (.require _) fun _ r₂ hr₂ hsize => ?_
  simp only [Bool.and_eq_true, decide_eq_true_eq] at hsize
  refine .bind fieldsSound_checks fun _ r₃ hr₃ hfields => ?_
  have hsettled : Settled host m r₃ a := by
    refine ⟨⟨x, hd, hsize.2, hfields.1.1, hfields.1.2, fun f hf => (hfields.2 f hf).1⟩, ?_⟩
    rintro b ⟨y, hy, f, hf, hb⟩
    obtain rfl : x = y := Option.some.inj (hd.symm.trans hy)
    exact (hfields.2 f hf).2 b hb
  refine .bind recordsSound_checks fun _ r₄ hr₄ hargs => ?_
  refine .bind (.require _) fun _ r₅ hr₅ hfunctions => ?_
  have hcount := of_listSound hfunctions
  refine .bind (Checks.each (fun _ _ _ _ h => h) (fun _ _ => .require _) _ 0 r₅ (by omega))
    fun _ r₆ hr₆ _ => ?_
  refine (Checks.each (fun _ _ _ _ h => h) (fun _ _ => .require _) _ 0 r₆ (by omega)).weaken
    fun _ r₇ hr₇ _ => hsettled.mono ?_
  exact hr₄.old.trans (hr₅.old.trans (hr₆.old.trans hr₇))

theorem Settled.chain {a : Nat} {d : Descriptor} {r r' : List Nat}
    (ha : Settled host m r a) (hd : m.descriptors.lookup a = some d) (hr : r <+: r')
    (hup : ∀ b, OnChain m d.parent b → Settled host m r' b) (b : Nat)
    (hb : OnChain m a b) : Settled host m r' b := by
  cases hb with
  | self _ => exact ha.mono hr
  | up hd' hb =>
    obtain rfl := Option.some.inj (hd.symm.trans hd')
    exact hup b hb

theorem parentsSound_checks : ∀ (n up : Nat) (before : List Nat),
      Checks m (· = .damaged) before (parentsSound host m n up) fun _ r =>
        ∀ b, OnChain m up b → Settled host m r b := by
  intro n
  induction n with
  | zero =>
    intro up before
    refine (Checks.require _).weaken fun _ _ _ hz b hb => ?_
    obtain rfl := of_decide_eq_true hz
    cases hb with
    | self hne => exact absurd rfl hne
    | up hd _ => exact absurd (m.null.symm.trans hd) (by simp)
  | succ n ih =>
    intro up before
    refine .bind (.require _) fun _ r hr _ => ?_
    refine .bind (descriptorSound_checks host m _ _) fun _ r₁ hr₁ hup => ?_
    obtain ⟨d, hd, -⟩ := hup.1
    refine .bind (.descriptor hd) ?_
    rintro x r₂ hr₂ rfl
    refine .bind (.require _) fun _ r₃ hr₃ _ => ?_
    exact (ih _ r₃).weaken fun _ r₄ hr₄ => hup.chain hd (hr₂.old.trans (hr₃.old.trans hr₄))

theorem classSound_checks (host : Host) (m : Memory) (a : Nat) (before : List Nat) :
    Checks m (· = .damaged) before (classSound host m a) fun _ r =>
      (∃ d, m.descriptors.lookup a = some d) ∧ ∀ b, OnChain m a b → Settled host m r b := by
  refine .bind (descriptorSound_checks host m _ _) fun _ r hr ha => ?_
  obtain ⟨d, hd, -⟩ := ha.1
  refine .bind (.descriptor hd) ?_
  rintro x r₁ hr₁ rfl
  refine .bind (.require _) fun _ r₂ hr₂ hdepth => ?_
  simp only [Bool.and_eq_true, decide_eq_true_eq] at hdepth
  have hancestors : Checks m (· = .damaged) r₂ (ancestorsSound m a x) fun _ _ => True := by
    unfold ancestorsSound
    split
    · refine .bind (.require _) fun _ r₃ hr₃ hsound => ?_
      have hcount := of_listSound hsound
      refine .bind (.record (getElem?_eq_getElem (by omega))) fun _ r₄ hr₄ _ => ?_
      exact (Checks.require _).weaken fun _ _ _ _ => trivial
    · exact .pure fun _ _ => trivial
  refine .bind hancestors fun _ r₃ hr₃ _ => ?_
  exact (parentsSound_checks _ _ r₃).weaken fun _ r₄ hr₄ hup =>
    ⟨⟨x, hd⟩, ha.chain hd (hr₁.old.trans (hr₂.old.trans (hr₃.old.trans hr₄))) hup⟩

/-! ## The table -/

theorem entrySound_checks (e : Provides) (before : List Nat) :
    Checks m Found before (entrySound host m e) fun _ r =>
      ∀ b, OnChain m e.classOf b → Settled host m r b := by
  refine .bind (.blame (.require _) _) fun _ r hr _ => ?_
  refine .bind (.blame (.require _) _) fun _ r₁ hr₁ _ => ?_
  have hclass := Checks.bind (classSound_checks host m e.classOf r₁) fun _ r₂ hr₂ h =>
    (Checks.require (e.init ≠ 0)).weaken fun _ r₃ hr₃ _ =>
      And.intro h.1 fun b hb => (h.2 b hb).mono hr₃
  refine .bind (.blame hclass _) fun _ r₂ hr₂ h => ?_
  obtain ⟨⟨d, hd⟩, hchain⟩ := h
  refine .bind (.descriptor hd) fun _ r₃ hr₃ _ => ?_
  refine .bind (.blame (.require _) _) fun _ r₄ hr₄ _ => ?_
  exact (Checks.blame (.require _) _).weaken fun _ r₅ hr₅ _ b hb =>
    (hchain b hb).mono (hr₃.old.trans (hr₄.old.trans hr₅))

theorem ownClassSound_checks (c : Class) (before : List Nat) :
    Checks m Found before (ownClassSound host m c) fun _ r =>
      ∀ b, OnChain m c.descriptor b → Settled host m r b := by
  refine .blame (.bind (classSound_checks host m _ before) fun _ r hr h => ?_) _
  exact (Checks.require _).weaken fun _ r₁ hr₁ _ b hb => (h.2 b hb).mono hr₁

/-- The loop over the list that grows: every descriptor before place `i` is settled, and
    each turn settles one more of the memory. -/
theorem walkReached_settles (host : Host) : ∀ (fuel i : Nat) (s : List Nat), Grown m before s →
      (∀ a ∈ s.take i, Settled host m s a) → m.descriptors.length ≤ fuel + i →
      Contract (· = s) (walkReached host m fuel i)
        (fun _ r => Grown m s r ∧ ∀ a ∈ r, Settled host m r a) fun e _ => Found e := by
  intro fuel
  induction fuel generalizing before with
  | zero =>
    intro i s hs hdone hfuel
    have hlen := hs.length_le
    refine Contract.get ?_
    rintro _ rfl
    rw [if_pos (by omega)]
    refine Contract.pure ?_
    rintro _ rfl
    rw [take_of_length_le (by omega)] at hdone
    exact ⟨hs.self, hdone⟩
  | succ fuel ih =>
    intro i s hs hdone hfuel
    refine Contract.get ?_
    rintro s rfl
    cases hi : s[i]? with
    | none =>
      refine Contract.pure ?_
      rintro _ rfl
      rw [take_of_length_le (List.getElem?_eq_none_iff.1 hi)] at hdone
      exact ⟨hs.self, hdone⟩
    | some a =>
      obtain ⟨hlt, ha⟩ := List.getElem?_eq_some_iff.1 hi
      have hblame := (descriptorSound_checks host m a s).blame "a type that a field holds"
      refine Contract.bind (Contract.weaken hblame ?_ fun _ _ h => h) fun _ => ⟨?_⟩
      · rintro _ rfl
        exact hs.self
      rintro r ⟨hr, hset⟩
      have htake : ∀ b ∈ r.take (i + 1), Settled host m r b := by
        intro b hb
        obtain ⟨t, rfl⟩ := hr.old
        rw [take_append_of_le_length hlt, take_add_one, mem_append] at hb
        rcases hb with hb | hb
        · exact (hdone b hb).mono hr.old
        · rw [hi] at hb
          exact mem_singleton.1 hb ▸ hset
      have hrest := (ih (i + 1) r hr htake (by omega)).run r rfl
      cases hres : walkReached host m fuel (i + 1) r with
      | ok u r' =>
        rw [hres] at hrest
        exact ⟨hr.trans hrest.1, hrest.2⟩
      | error e r' =>
        rw [hres] at hrest
        exact hrest

theorem damageIn_checks (host : Host) (m : Memory) (table : Provided) :
    Checks m Found before (damageIn host m table) fun _ r =>
      (∀ a, Starts m table a → Settled host m r a) ∧ ∀ a ∈ r, Settled host m r a := by
  have hmono : ∀ (c : Nat) (r r' : List Nat), r <+: r' →
      (∀ b, OnChain m c b → Settled host m r b) → ∀ b, OnChain m c b → Settled host m r' b :=
    fun c r r' hr h b hb => (h b hb).mono hr
  refine .bind (.blame (.require _) _) fun _ r hr _ => ?_
  refine .bind (.blame (.require _) _) fun _ r₁ hr₁ hcount => ?_
  rw [Bool.and_eq_true] at hcount
  have hentries := of_listSound hcount.1
  have hclasses := of_listSound hcount.2
  refine .bind (Checks.each (fun e => hmono e.classOf) entrySound_checks _ 0 r₁
    (by omega)) fun _ r₂ hr₂ hall => ?_
  refine .bind (Checks.each (fun c => hmono c.descriptor) ownClassSound_checks _ 0 r₂
    (by omega)) fun _ r₃ hr₃ hown => ?_
  refine ⟨fun s hs => ?_⟩
  have hwalk := (walkReached_settles host _ 0 s hs (by simp) (Nat.le_refl _)).run s rfl
  cases hres : walkReached host m m.descriptors.length 0 s with
  | ok u r =>
    rw [hres] at hwalk
    refine ⟨hs.trans hwalk.1, fun a ha => ?_, hwalk.2⟩
    have hgrown := hs.old.trans hwalk.1.old
    rcases ha with ⟨e, he, ha⟩ | ⟨c, hc, ha⟩
    · exact (hall e he a ha).mono (hr₃.old.trans hgrown)
    · exact (hown c hc a ha).mono hgrown
  | error e r =>
    rw [hres] at hwalk
    exact hwalk

theorem Unseen.reachable {table : Provided} {a : Nat} (h : Unseen m table a) :
    Reachable m table a := by
  refine h.closed (fun b hb => ?_) fun x y hx hxy => hx.next hxy
  obtain ⟨c, hc, d, hd, f, hf, hpass⟩ := hb
  exact hc.next ⟨d, hd, f, hf, .inr hpass⟩

/-- **What the check accepts**: it ends with an answer on every table in every memory, with
    no read past the records and no product past an int64.  On a table it accepts, all that
    the classes reach is sound exactly when that is which it passed over. -/
theorem damageOf_sound (host : Host) (m : Memory) (table : Provided) :
    (damageOf host m table = none ∨ ∃ what, damageOf host m table = some (.found what)) ∧
      (damageOf host m table = none → ((∀ a, Reachable m table a → SoundAt host m a) ↔
          ∀ a, Unseen m table a → SoundAt host m a)) := by
  have h := (damageIn_checks host m table).run [] ⟨prefix_rfl, by simp, nodup_nil⟩
  unfold damageOf
  cases hres : damageIn host m table [] with
  | error e r =>
    rw [hres] at h
    obtain ⟨what, rfl⟩ := h
    exact ⟨.inr ⟨what, rfl⟩, fun hnone => absurd hnone (by simp)⟩
  | ok u r =>
    rw [hres] at h
    obtain ⟨-, hstart, hall⟩ := h
    refine ⟨.inl rfl, fun _ => ⟨fun hsound a ha => hsound a ha.reachable, ?_⟩⟩
    intro hunseen a ha
    have hcases : Settled host m r a ∨ Unseen m table a := by
      induction ha with
      | seed hs => exact .inl (hstart _ hs)
      | next hx hxy ih =>
        obtain ⟨d, hd, f, hf, hstep⟩ := hxy
        rcases ih with hset | hpassed
        · rcases hstep with hfollow | hpass
          · exact .inl (hall _ (hset.2 _ ⟨d, hd, f, hf, hfollow⟩))
          · exact .inr (.seed ⟨_, hx, d, hd, f, hf, hpass⟩)
        · exact .inr (hpassed.next ⟨d, hd, f, hf, hstep⟩)
    rcases hcases with hset | hpassed
    · exact hset.1
    · exact hunseen a hpassed

/-! ## A field of an optional array -/

/-- A class at 1 with a field of type `?[4]i64`.  The descriptor of the optional, at 2, has
    a field past its size. -/
def optionalArray : Memory where
  descriptors :=
    let d (size : Int) (fields : Nat) : Descriptor :=
      ⟨⟨0, 0⟩, 0, size, 0, 0, 1, fields, 0, 0, ⟨0, 0⟩, 0, 0⟩
    [(1, d 48 1), (2, d 40 2)]
  fields list :=
    if list = 1 then [⟨⟨0, 0⟩, 8, 27 + 20 * 2 ^ 8, 0, 2⟩]
    else [⟨⟨0, 0⟩, 4096, AntiType.i64.id, 0, 0⟩]
  functions _ := []
  ancestors _ := []
  chains _ := []
  entries _ := []
  classes _ := [⟨1, 1, ⟨0, 0⟩⟩]
  image _ := true
  null := rfl

theorem optionalArray_accepted :
    damageOf ⟨8, 4, 8, 16, 16⟩ optionalArray ⟨0, 0, ⟨0, 0⟩, 1, 1⟩ = none ∧
      Reachable optionalArray ⟨0, 0, ⟨0, 0⟩, 1, 1⟩ 2 ∧
      ¬ SoundAt ⟨8, 4, 8, 16, 16⟩ optionalArray 2 := by
  refine ⟨by rfl, ?_, ?_⟩
  · refine .next (x := 1) (.seed (.inr ⟨_, mem_singleton.2 rfl, .self (by decide)⟩)) ?_
    refine ⟨_, rfl, _, mem_singleton.2 rfl, .inr ⟨by decide, rfl, by decide, by decide⟩⟩
  · rintro ⟨d, hd, -, -, -, hfields⟩
    obtain rfl := Option.some.inj hd
    exact absurd (hfields _ (mem_singleton.2 rfl)).2 (by decide)

end AnticDamage
