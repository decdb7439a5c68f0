import Antic.LayoutPlaceProofs

/-! # No two fields overlap

    `compute` and `layout_fold` call each other through the tables.  What a call leaves behind is
    stated once for both, as `Answers`:

    1. `Extends` — a call keeps the entries that are done or in work.
    2. `Folds` — the meaning of a symbolic value over the finished layouts; it makes no use of the
       cache.
    3. `Laid` — what a finished layout satisfies; `Tables` says it of every entry that is done.
    4. `eval_answers` — every call within its fuel keeps `Tables`, by induction on the fuel. -/

namespace AnticLayout

open AnticIr List Function Option

/-! ## The tables through a call -/

@[simp] theorem Layouts.failed_fail (l : Layouts) (e : LayoutError) : (l.fail e).failed = true := by
  unfold Layouts.fail Layouts.failed
  split
  · rfl
  · rename_i h
    rw [h]
    rfl

/-- Later tables keep what the earlier ones had finished, as long as nothing failed. -/
structure Extends (l l' : Layouts) : Prop where
  target : l'.target = l.target
  m : l'.m = l.m
  failed : l'.failed = false → l.failed = false
  done : l'.failed = false → ∀ i, l.aggState i = .done → l'.aggState i = .done
  aggs : l'.failed = false → ∀ i, l.aggState i = .done → l'.aggs i = l.aggs i

theorem Extends.refl (l : Layouts) : Extends l l := ⟨rfl, rfl, id, fun _ _ h => h, fun _ _ _ => rfl⟩

variable {l l' : Layouts} {agg : IrAggtype}

theorem Extends.trans {l'' : Layouts} (h : Extends l l') (h' : Extends l' l'') : Extends l l'' := by
  refine ⟨h'.target.trans h.target, h'.m.trans h.m, fun hf => h.failed (h'.failed hf), ?_, ?_⟩
  · intro hf i hi
    exact h'.done hf i (h.done (h'.failed hf) i hi)
  · intro hf i hi
    rw [h'.aggs hf i (h.done (h'.failed hf) i hi), h.aggs (h'.failed hf) i hi]

/-- The tables of a failed run of the same module. -/
structure Fails (l l' : Layouts) : Prop where
  target : l'.target = l.target
  m : l'.m = l.m
  failed : l'.failed = true

theorem fail_fails (l : Layouts) (e : LayoutError) : Fails l (l.fail e) := by
  refine ⟨?_, ?_, Layouts.failed_fail l e⟩ <;>
  · unfold Layouts.fail
    split <;> rfl

theorem failWith_cases (l : Layouts) (e : Option LayoutError) :
    l.failWith e = l ∨ Fails l (l.failWith e) := by
  cases e with
  | none => exact Or.inl rfl
  | some e => exact Or.inr (fail_fails l e)

theorem failWith_none {e : Option LayoutError} (h : (l.failWith e).failed = false) : e = none := by
  cases e with
  | none => rfl
  | some e =>
    rw [show l.failWith (some e) = l.fail e from rfl, Layouts.failed_fail] at h
    exact absurd h (by simp)

theorem Fails.of_fails {l'' : Layouts} (h : l' = l ∨ Fails l l') (h' : Fails l' l'') :
    Fails l l'' := by
  rcases h with rfl | h
  · exact h'
  · exact ⟨h'.target.trans h.target, h'.m.trans h.m, h'.failed⟩

/-- A failure keeps nothing, so it extends whatever it came from. -/
theorem Fails.extends (h : Fails l l') : Extends l l' := by
  refine ⟨h.target, h.m, ?_, ?_, ?_⟩ <;>
  · intro hf
    rw [h.failed] at hf
    exact absurd hf (by simp)

/-- The type of `v` is a scalar or laid out. -/
def Known (l : Layouts) (v : IrVtype) : Prop := v.type = .agg → l.aggState v.agg = .done

theorem Known.mono {v : IrVtype} (h : Extends l l') (hf : l'.failed = false)
    (hk : Known l v) : Known l' v :=
  fun hv => h.done hf _ (hk hv)

theorem infoOf_eq {v : IrVtype} (h : Extends l l') (hf : l'.failed = false)
    (hk : Known l v) : infoOf l' v = infoOf l v := by
  unfold infoOf sizeOf alignOf
  rw [h.target]
  by_cases hv : v.type = .agg
  · rw [h.aggs hf v.agg (hk hv)]
  · simp [hv]

theorem sizeOf_eq {v : IrVtype} (h : Extends l l') (hf : l'.failed = false)
    (hk : Known l v) : sizeOf l' v = sizeOf l v :=
  congrArg TypeInfo.size (infoOf_eq h hf hk)

/-! ## The value of a symbolic value -/

/-- Symbolic value `sym` is `v` on the target, over the finished layouts. -/
inductive Folds (l : Layouts) : Nat → Nat → Prop
  | int {sym : Nat} {s : IrSym} (hs : l.m.syms[sym]? = some s)
      (hk : s.kind = .int) : Folds l sym s.value
  | sizeOf {sym : Nat} {s : IrSym} (hs : l.m.syms[sym]? = some s)
      (hk : s.kind = .sizeOf) (hv : Known l s.of) :
      Folds l sym (AnticLayout.sizeOf l s.of)
  | offsetOf {sym v : Nat} {s : IrSym} (hs : l.m.syms[sym]? = some s)
      (hk : s.kind = .offsetOf) (hd : l.aggState s.of.agg = .done)
      (hv : (l.aggs s.of.agg).offsets[s.field]? = some v) : Folds l sym v
  | unary {sym a v : Nat} {s operand : IrSym} (hs : l.m.syms[sym]? = some s)
      (hk : s.kind = .op) (ho : l.m.syms[s.a]? = some operand)
      (hb : s.b = irNoAgg) (ha : Folds l s.a a)
      (hv : foldOp l.target s operand.type a 0 = .ok v) : Folds l sym v
  | binary {sym a b v : Nat} {s operand : IrSym} (hs : l.m.syms[sym]? = some s) (hk : s.kind = .op)
      (ho : l.m.syms[s.a]? = some operand) (hb : s.b ≠ irNoAgg)
      (ha : Folds l s.a a) (hb : Folds l s.b b)
      (hv : foldOp l.target s operand.type a b = .ok v) : Folds l sym v

theorem Folds.mono (h : Extends l l') (hf : l'.failed = false) {sym v : Nat}
    (hv : Folds l sym v) : Folds l' sym v := by
  induction hv with
  | int hs hk => exact .int (by rw [h.m]; exact hs) hk
  | sizeOf hs hk hv =>
    rw [← sizeOf_eq h hf hv]
    exact .sizeOf (by rw [h.m]; exact hs) hk (hv.mono h hf)
  | offsetOf hs hk hd hv =>
    exact .offsetOf (by rw [h.m]; exact hs) hk (h.done hf _ hd) (by rw [h.aggs hf _ hd]; exact hv)
  | unary hs hk ho hb _ hv iha =>
    exact .unary (by rw [h.m]; exact hs) hk (by rw [h.m]; exact ho) hb iha
      (by rw [h.target]; exact hv)
  | binary hs hk ho hb _ _ hv iha ihb =>
    exact .binary (by rw [h.m]; exact hs) hk (by rw [h.m]; exact ho) hb iha ihb
      (by rw [h.target]; exact hv)

/-! ## A finished layout -/

/-- The fields of `agg` with the facts of their types. -/
def fieldInfos (l : Layouts) (agg : IrAggtype) : List (IrField × TypeInfo) :=
  agg.fields.map fun f => (f, infoOf l f.type)

/-- Where the loop of `compute` is after the given fields. -/
def placeOver (t : Target) (agg : IrAggtype) (infos : List (IrField × TypeInfo)) : Place :=
  infos.foldl (fun p info => (placeField t agg info.1 info.2 p).val) {}

/-- Where `compute` is after an array of `n` elements of field `f`. -/
def arrayPlace (agg : IrAggtype) (f : IrField) (n : Nat) (info : TypeInfo) : Place :=
  { bit := n * info.size * 8, align := info.align,
    offsets := agg.fields.map fun _ => 0, bits := agg.fields.map fun _ => {},
    unaligned := info.unaligned, shared := f.type.type = .lock || info.shared }

/-- The layout `out` is the one that the end of `compute` makes of `p`. -/
structure Shaped (agg : IrAggtype) (p : Place) (out : Layout) : Prop where
  align : out.align =
    if agg.align > ownAlign agg p then agg.align else ownAlign agg p
  size : out.size = (roundUp (wholeBytes p.bit) out.align).val
  offsets : out.offsets = p.offsets
  bits : out.bits = if agg.kind = .array then p.bits
    else (bitUnits agg out.size agg.fields p.bits).val.2
  unaligned : out.unaligned = p.unaligned
  shared : out.shared = p.shared

/-- Place `p` is the one that the types of the fields lead to. -/
structure Leads (l : Layouts) (agg : IrAggtype) (p : Place) : Prop where
  fields : agg.kind ≠ .array → p = placeOver l.target agg (fieldInfos l agg)
  array : agg.kind = .array → ∀ f ∈ agg.fields, ∃ n, Folds l agg.length n ∧
    p = arrayPlace agg f n (infoOf l f.type)

/-- What the layout `out` of `agg` satisfies when `compute` has finished it. -/
structure Laid (l : Layouts) (agg : IrAggtype) (out : Layout) : Prop where
  known : ∀ f ∈ agg.fields, Known l f.type
  alignPos : 1 ≤ out.align
  alignMax : out.align ≤ uint64Max
  sizeMax : out.size ≤ uint64Max / 8
  sizeAlign : out.align ∣ out.size
  offsets : out.offsets.length = agg.fields.length
  bits : out.bits.length = agg.fields.length
  wrapped : out.wrapped = false
  within : agg.kind ≠ .array → ∀ x ∈ placedAt (fieldInfos l agg) out.offsets out.bits,
      x.Within (8 * out.size)
  first : agg.kind ≠ .array → 0 < out.size →
    ∃ x ∈ placedAt (fieldInfos l agg) out.offsets out.bits, x.AtStart
  units : agg.kind ≠ .array → ∀ x ∈ agg.fields.zip out.bits, x.1.bits ≠ 0 →
    UnitCovers l.target out.size x.1.bits x.2
  fields : agg.kind = .struct → FieldsInv agg (placedAt (fieldInfos l agg) out.offsets out.bits)
      (8 * out.size)
  array : agg.kind = .array → ∀ f ∈ agg.fields, ∃ n, Folds l agg.length n ∧
    1 ≤ arithSigned n 64 ∧ out.size = n * sizeOf l f.type
  computed : ∃ p, Shaped agg p out ∧ Leads l agg p

theorem Laid.mono {out : Layout} (h : Extends l l') (hf : l'.failed = false)
    (ho : Laid l agg out) : Laid l' agg out := by
  have hinfos : fieldInfos l' agg = fieldInfos l agg := by
    refine map_congr_left fun f hmem => ?_
    rw [infoOf_eq h hf (ho.known f hmem)]
  refine ⟨fun f hmem => (ho.known f hmem).mono h hf, ho.alignPos, ho.alignMax,
    ho.sizeMax, ho.sizeAlign, ho.offsets, ho.bits, ho.wrapped, ?_, ?_, ?_, ?_, ?_, ?_⟩
  · rw [hinfos]
    exact ho.within
  · rw [hinfos]
    exact ho.first
  · rw [h.target]
    exact ho.units
  · rw [hinfos]
    exact ho.fields
  · intro hk f hmem
    obtain ⟨n, hn, hpos, hsize⟩ := ho.array hk f hmem
    exact ⟨n, hn.mono h hf, hpos, by rw [sizeOf_eq h hf (ho.known f hmem), hsize]⟩
  · obtain ⟨p, hshape, hleads⟩ := ho.computed
    refine ⟨p, hshape, ?_, ?_⟩
    · intro hk
      rw [hinfos, h.target]
      exact hleads.fields hk
    · intro hk f hmem
      obtain ⟨n, hn, hp⟩ := hleads.array hk f hmem
      exact ⟨n, hn.mono h hf, by rw [infoOf_eq h hf (ho.known f hmem), hp]⟩

/-! ## The members -/

theorem foldlM_ext {α β : Type} {f g : β → α → Option β} (xs : List α) :
    (∀ b, ∀ a ∈ xs, f b a = g b a) → ∀ b, xs.foldlM f b = xs.foldlM g b := by
  induction xs with
  | nil =>
    intro _ b
    rfl
  | cons x xs ih =>
    intro h b
    rw [foldlM_cons, foldlM_cons, h b x mem_cons_self]
    exact congrArg _ (funext (ih fun b a ha => h b a (mem_cons_of_mem _ ha)))

/-- The members depend on the sizes and offsets of the aggregates they go through. -/
theorem flatten_congr (hm : l'.m = l.m) (ht : l'.target = l.target)
    (Within : IrVtype → Prop) (hin : ∀ v, Within v → v.type = .agg →
      ((l'.aggs v.agg).size = (l.aggs v.agg).size ∧
        (l'.aggs v.agg).offsets = (l.aggs v.agg).offsets) ∧
      ∀ agg, l.m.aggs[v.agg]? = some agg → ∀ f ∈ agg.fields, Within f.type) :
    ∀ (n : Nat) (v : IrVtype) (offset : Nat) (out : List LayoutMember), Within v →
      flatten l' n v offset out = flatten l n v offset out := by
  intro n
  induction n with
  | zero =>
    intro v offset out _
    rfl
  | succ n ih =>
    intro v offset out hv
    unfold flatten
    by_cases hagg : v.type = .agg
    · rw [if_neg (not_not.mpr hagg), if_neg (not_not.mpr hagg), hm]
      obtain ⟨⟨hsize, hoffsets⟩, hfields⟩ := hin v hv hagg
      cases hget : l.m.aggs[v.agg]? with
      | none => rfl
      | some agg =>
        dsimp only
        have hfields := hfields agg hget
        rw [hsize, hoffsets]
        split
        · -- An array goes through its element.
          split
          · rfl
          · rename_i f fs hfs
            have hf : Within f.type := hfields f (by rw [hfs]; exact mem_cons_self)
            have hstep : sizeOf l' f.type = sizeOf l f.type := by
              unfold sizeOf
              rw [ht]
              split
              · rename_i hfa
                exact (hin f.type hf hfa).1.1
              · rfl
            rw [hstep]
            split
            · rfl
            · refine foldlM_ext _ (fun acc k _ => ?_) out
              exact ih f.type _ acc hf
        · refine foldlM_ext _ (fun acc fo hfo => ?_) out
          split
          · rfl
          · exact ih fo.1.type _ acc (hfields fo.1 (of_mem_zip hfo).1)
    · rw [if_pos hagg, if_pos hagg, ht]

/-- The tables of a run that has not failed: what is done is laid out, and the
    cached values are those of the symbolic values. -/
structure Tables (l : Layouts) : Prop where
  laid : l.failed = false → ∀ i, l.aggState i = .done →
    ∃ agg, l.m.aggs[i]? = some agg ∧ Laid l agg (l.aggs i)
  folded : l.failed = false → ∀ sym, l.symState sym = .done → Folds l sym (l.values sym)
  members : l.failed = false → ∀ i, l.aggState i = .done → (l.aggs i).size ≤ layoutMemberLimit →
    ∃ n, flatten l n (irAggregate i) 0 [] = some (l.aggs i).members

theorem Tables.of_failed (h : l.failed = true) : Tables l := by
  constructor <;>
  · intro hf
    rw [h] at hf
    exact absurd hf (by simp)

/-- The members of a finished aggregate stay those of the tables. -/
theorem Tables.keeps (ht : Tables l) (h : Extends l l') (hf : l'.failed = false)
    {i : Nat} (hi : l.aggState i = .done)
    (hsize : (l'.aggs i).size ≤ layoutMemberLimit) :
    ∃ n, flatten l' n (irAggregate i) 0 [] = some (l'.aggs i).members := by
  have hf' := h.failed hf
  rw [h.aggs hf i hi] at hsize ⊢
  obtain ⟨n, hn⟩ := ht.members hf' i hi hsize
  refine ⟨n, (flatten_congr h.m h.target (Known l) ?_ n _ 0 [] ?_).trans hn⟩
  · intro v hv hagg
    obtain ⟨agg', hget', hlaid⟩ := ht.laid hf' _ (hv hagg)
    refine ⟨by rw [h.aggs hf _ (hv hagg)]; exact ⟨rfl, rfl⟩, ?_⟩
    intro agg hget
    obtain rfl := some.inj (hget'.symm.trans hget)
    exact hlaid.known
  · intro _
    exact hi

/-- What the calls between two states of the tables keep: an aggregate in work stays in work. -/
structure Calls (l l' : Layouts) : Prop where
  ext : Extends l l'
  tables : Tables l'
  busy : l'.failed = false → ∀ i, l.aggState i = .busy → l'.aggState i = .busy

theorem Calls.refl (h : Tables l) : Calls l l := ⟨Extends.refl l, h, fun _ _ hi => hi⟩

theorem Calls.trans {l'' : Layouts} (h : Calls l l') (h' : Calls l' l'') : Calls l l'' :=
  ⟨h.ext.trans h'.ext, h'.tables, fun hf i hi => h'.busy hf i (h.busy (h'.ext.failed hf) i hi)⟩

theorem Fails.calls (h : Fails l l') : Calls l l' := by
  refine ⟨h.extends, Tables.of_failed h.failed, ?_⟩
  intro hf
  rw [h.failed] at hf
  exact absurd hf (by simp)

/-- What a call of `layout_agg` or `layout_fold` leaves behind. -/
structure Answers (l : Layouts) (q : Query) (l' : Layouts) (r : Option Nat) :
    Prop extends Calls l l' where
  agg : ∀ i, q = .agg i → l'.failed = false → l'.aggState i = .done
  value : ∀ sym v, q = .fold sym → r = some v → l'.failed = false → Folds l' sym v
  none : ∀ sym, q = .fold sym → r = none → l'.failed = true

/-- The calls of `rec` answer as they should over the tables of module `m`. -/
def RecOk (m : IrModule) (rec : Rec) : Prop :=
  ∀ l q l' r, l.m = m → Tables l → rec l q = some (l', r) → Answers l q l' r

section Recursion

variable {m : IrModule} {rec : Rec}

variable {l l' : Layouts} {agg : IrAggtype} {r : Option Nat} {p : Sized Place} {sym : Nat}

theorem visit_calls (hrec : RecOk m rec) {v : IrVtype} (hm : l.m = m) (ht : Tables l)
    (h : visit rec l v = some l') : Calls l l' ∧ (l'.failed = false → Known l' v) := by
  unfold visit at h
  split at h
  · obtain ⟨⟨l1, r⟩, hr, rfl⟩ := map_eq_some_iff.mp h
    have ha := hrec _ _ _ _ hm ht hr
    exact ⟨ha.toCalls, fun hf _ => ha.agg _ rfl hf⟩
  · rename_i hv
    obtain rfl := some.inj h
    exact ⟨Calls.refl ht, fun _ hagg => absurd hagg hv⟩

theorem scalarSize_pos (t : Target) (type : IrType) :
    1 ≤ scalarSize t type ∧ scalarSize t type ≤ 8 := by
  unfold scalarSize
  split <;> decide

/-- The facts of a type that is laid out are those the loop relies on. -/
theorem infoOf_ok {f : IrField} (ht : Tables l) (hf : l.failed = false)
    (hk : Known l f.type) (hb : f.bits = 0 ∨ irBitfieldFits f = true) :
    InfoOk f (infoOf l f.type) := by
  have hscalar := scalarSize_pos l.target f.type.type
  by_cases hv : f.type.type = .agg
  · obtain ⟨agg, -, hl⟩ := ht.laid hf _ (hk hv)
    have halign : (infoOf l f.type).align = (l.aggs f.type.agg).align := by
      simp [infoOf, alignOf, hv]
    refine ⟨by rw [halign]; exact hl.alignPos, by rw [halign]; exact hl.alignMax, fun hw => ?_⟩
    rcases hb with hb | hb
    · exact absurd hb hw
    · simp [irBitfieldFits, hv] at hb
  · have halign : (infoOf l f.type).align = scalarSize l.target f.type.type := by
      simp [infoOf, alignOf, hv]
    have hsize : (infoOf l f.type).size = scalarSize l.target f.type.type := by
      simp [infoOf, sizeOf, hv]
    refine ⟨by omega, by unfold uint64Max; omega, fun hw => ?_⟩
    rcases hb with hb | hb
    · exact absurd hb hw
    · refine ⟨?_, by omega, by omega⟩
      unfold irBitfieldFits at hb
      split at hb <;> rename_i hty <;>
        simp_all [scalarSize, Target.type]

/-- The loop over the fields keeps its invariant through the layouts it asks for. -/
theorem computeFields_ok (hrec : RecOk m rec) :
    ∀ (fs done : List IrField) (l l' : Layouts) (p p' : Sized Place), l.m = m → Tables l →
      (∀ f ∈ fs, f.bits = 0 ∨ irBitfieldFits f = true) →
      (l.failed = false → (∀ f ∈ done, Known l f.type) ∧
        p.val = placeOver l.target agg (done.map fun f => (f, infoOf l f.type)) ∧
        Ends p (PlaceInv l.target agg (done.map fun f => (f, infoOf l f.type)))) →
      computeFields rec agg fs l p = some (l', p') →
      Calls l l' ∧ (l'.failed = false → (∀ f ∈ done ++ fs, Known l' f.type) ∧
        p'.val = placeOver l'.target agg ((done ++ fs).map fun f => (f, infoOf l' f.type)) ∧
        Ends p' (PlaceInv l'.target agg ((done ++ fs).map fun f => (f, infoOf l' f.type)))) := by
  intro fs
  induction fs with
  | nil =>
    intro done l l' p p' _ ht _ hp h
    obtain ⟨rfl, rfl⟩ := Prod.mk.inj (some.inj h)
    rw [append_nil]
    exact ⟨Calls.refl ht, hp⟩
  | cons f fs ih =>
    intro done l l' p p' hm ht hb hp h
    unfold computeFields at h
    split at h
    · exact absurd h (by simp)
    · rename_i l1 hv
      obtain ⟨hc, hk⟩ := visit_calls hrec hm ht hv
      have hnext := ih (done ++ [f]) l1 l' _ p' (hc.ext.m.trans hm) hc.tables
        (fun g hg => hb g (mem_cons_of_mem _ hg)) ?_ h
      · rw [append_assoc] at hnext
        exact ⟨hc.trans hnext.1, hnext.2⟩
      · intro hf
        obtain ⟨hknown, hval, hends⟩ := hp (hc.ext.failed hf)
        have hinfos : (done.map fun g => (g, infoOf l1 g.type)) =
            done.map fun g => (g, infoOf l g.type) := by
          refine map_congr_left fun g hg => ?_
          rw [infoOf_eq hc.ext hf (hknown g hg)]
        refine ⟨?_, ?_, ?_⟩
        · intro g hg
          rcases mem_append.mp hg with hg | hg
          · exact (hknown g hg).mono hc.ext hf
          · rw [mem_singleton.mp hg]
            exact hk hf
        · rw [bind_val, map_append, hinfos, hval, hc.ext.target]
          simp [placeOver]
        · rw [map_append, hinfos]
          refine ends_bind hends fun q hq => ?_
          rw [← hc.ext.target] at hq
          exact placeField_ends hq (infoOf_ok hc.tables hf (hk hf) (hb f (mem_cons_self ..)))

/-- What the end of `compute` relies on: the fields are placed below `bit`, or
    the array has its length of elements. -/
structure Placing (l : Layouts) (agg : IrAggtype) (p : Place) : Prop where
  known : ∀ f ∈ agg.fields, Known l f.type
  offsets : p.offsets.length = agg.fields.length
  bits : p.bits.length = agg.fields.length
  alignPos : 1 ≤ ownAlign agg p
  alignMax : ownAlign agg p ≤ uint64Max
  bitMax : p.bit ≤ uint64Max
  posMax : ∀ b ∈ p.bits, b.pos ≤ uint64Max
  within : agg.kind ≠ .array → ∀ x ∈ placedAt (fieldInfos l agg) p.offsets p.bits, x.Within p.bit
  first : agg.kind ≠ .array → 0 < p.bit →
    ∃ x ∈ placedAt (fieldInfos l agg) p.offsets p.bits, x.AtStart
  fields : agg.kind = .struct → FieldsInv agg (placedAt (fieldInfos l agg) p.offsets p.bits) p.bit
  array : agg.kind = .array → ∀ f ∈ agg.fields, ∃ n, Folds l agg.length n ∧
    1 ≤ arithSigned n 64 ∧ p.bit = n * sizeOf l f.type * 8 ∧
    p.align ∣ sizeOf l f.type
  leads : Leads l agg p

theorem aggOk_bits (h : aggOk agg = true) :
    ∀ f ∈ agg.fields, f.bits = 0 ∨ irBitfieldFits f = true := by
  unfold aggOk at h
  simp only [Bool.and_eq_true, List.all_eq_true, Bool.or_eq_true, decide_eq_true_eq] at h
  exact h.1.1.1

theorem aggOk_simd (h : aggOk agg = true) (hs : agg.simd = true) : verifySimdAgg agg = true := by
  unfold aggOk at h
  simp only [Bool.and_eq_true, hs] at h
  simpa using h.1.1.2

theorem aggOk_array (h : aggOk agg = true) (hk : agg.kind = .array) :
    agg.fields.length = 1 ∧ agg.align = 0 ∧ agg.simd = false := by
  unfold aggOk at h
  simp only [Bool.and_eq_true, hk] at h
  simpa [and_assoc] using h.1.2

theorem aggOk_align (h : aggOk agg = true) : agg.align ≤ uint64Max := by
  unfold aggOk at h
  simp only [Bool.and_eq_true, decide_eq_true_eq] at h
  exact h.2

theorem irLaneBytes_pos {type : IrType} (h : irLaneBytes type ≠ 0) : type ≠ .agg := by
  rintro rfl
  exact h rfl

/-- The lanes of a simd struct have bytes, so its alignment is not zero. -/
theorem ownAlign_ok {p : Place} (hok : aggOk agg = true)
    (h : PlaceInv l.target agg (fieldInfos l agg) p) :
    1 ≤ ownAlign agg p ∧ ownAlign agg p ≤ uint64Max := by
  unfold ownAlign
  split
  · rename_i hs
    have hv := aggOk_simd hok hs
    unfold verifySimdAgg at hv
    split at hv
    · exact absurd hv (by simp)
    · rename_i f fs hfs
      simp only [Bool.and_eq_true, decide_eq_true_eq, hfs, all_cons, simdShape] at hv
      obtain ⟨⟨⟨⟨hkind, -⟩, -⟩, ⟨⟨⟨⟨-, hbits⟩, -⟩, -⟩, hname⟩, -⟩, ⟨⟨hlane, -⟩, -⟩, -⟩ := hv
      have hagg := irLaneBytes_pos hlane
      have hinfos : fieldInfos l agg = (f, infoOf l f.type) ::
          fs.map fun g => (g, infoOf l g.type) := by
        unfold fieldInfos
        rw [hfs]
        rfl
      rw [hinfos] at h
      have hpos := wholeBytes_pos (h.bit_pos hkind (by simpa [isUnitBreak] using hname) hbits (by
          show 0 < sizeOf l f.type
          unfold sizeOf
          rw [if_neg hagg]
          exact (scalarSize_pos _ _).1))
      unfold uint64Max
      split <;> omega
  · exact ⟨h.alignPos, h.alignMax⟩

theorem PlaceInv.placing {p : Place} (h : PlaceInv l.target agg (fieldInfos l agg) p)
    (hok : aggOk agg = true) (hknown : ∀ f ∈ agg.fields, Known l f.type)
    (hk : agg.kind ≠ .array) (hp : p = placeOver l.target agg (fieldInfos l agg)) :
    Placing l agg p := by
  obtain ⟨h1, h2⟩ := ownAlign_ok hok h
  refine ⟨hknown, by simpa [fieldInfos] using h.offsets,
    by simpa [fieldInfos] using h.bits, h1, h2, h.bitMax, h.posMax,
    fun _ => h.within, fun _ => h.first, ?_, fun ha => absurd ha hk, fun _ => hp,
    fun ha => absurd ha hk⟩
  exact fun hs => (h.fields hs).mono h.unit.reach_le

theorem align_dvd_size {v : IrVtype} (ht : Tables l) (hf : l.failed = false) (hk : Known l v) :
    alignOf l v ∣ sizeOf l v ∧ 1 ≤ alignOf l v ∧ alignOf l v ≤ uint64Max := by
  unfold alignOf sizeOf
  split
  · rename_i hv
    obtain ⟨agg, -, hl⟩ := ht.laid hf _ (hk hv)
    exact ⟨hl.sizeAlign, hl.alignPos, hl.alignMax⟩
  · have := scalarSize_pos l.target v.type
    exact ⟨dvd_rfl, this.1, this.2.trans (by decide)⟩

theorem arrayLength_ok (h : Answers l (.fold agg.length) l' r) : Calls l (arrayLength agg l' r).1 ∧
      ((arrayLength agg l' r).1.failed = false →
        Folds (arrayLength agg l' r).1 agg.length (arrayLength agg l' r).2 ∧
        1 ≤ arithSigned (arrayLength agg l' r).2 64) := by
  cases r with
  | none =>
    refine ⟨h.toCalls, fun hf => ?_⟩
    have hfailed : l'.failed = true := h.none _ rfl rfl
    exact absurd (show l'.failed = false from hf) (by simp [hfailed])
  | some length =>
    simp only [arrayLength]
    split
    · refine ⟨h.toCalls.trans (fail_fails _ _).calls, fun hf => ?_⟩
      exact absurd hf (by simp)
    · rename_i hlt
      exact ⟨h.toCalls, fun hf => ⟨h.value _ _ rfl rfl hf, not_lt.mp hlt⟩⟩

theorem computeArray_ok (hrec : RecOk m rec) (hok : aggOk agg = true)
    (hk : agg.kind = .array) (hm : l.m = m) (ht : Tables l)
    (h : computeArray rec agg l = some (l', p)) :
    Calls l l' ∧ (l'.failed = false → Ends p (Placing l' agg)) := by
  obtain ⟨hlen, -, hsimd⟩ := aggOk_array hok hk
  obtain ⟨f, hfs⟩ := length_eq_one_iff.mp hlen
  unfold computeArray at h
  rw [hfs] at h
  dsimp only at h
  split at h
  · exact absurd h (by simp)
  · rename_i l1 folded hr
    obtain ⟨hc1, hlength⟩ := arrayLength_ok (hrec _ _ _ _ hm ht hr)
    split at h
    · exact absurd h (by simp)
    · rename_i l2 hv
      obtain ⟨hc2, hknown⟩ := visit_calls hrec (hc1.ext.m.trans hm) hc1.tables hv
      obtain ⟨rfl, rfl⟩ := Prod.mk.inj (some.inj h)
      refine ⟨hc1.trans hc2, fun hf => ?_⟩
      obtain ⟨hfold, hpos⟩ := hlength (hc2.ext.failed hf)
      obtain ⟨hdvd, h1, h2⟩ := align_dvd_size hc2.tables hf (hknown hf)
      refine ends_bind (mulSize_ends _ _) ?_
      rintro bytes ⟨rfl, -⟩
      refine ends_bind (mulSize_ends _ _) ?_
      rintro bit ⟨rfl, hbit⟩
      have hown : ∀ p : Place, ownAlign agg p = p.align := by
        intro p
        unfold ownAlign
        rw [if_neg (by simp [hsimd])]
      refine ends_pure ⟨?_, by simp [hfs], by simp [hfs], by rw [hown]; exact h1,
        by rw [hown]; exact h2, hbit, by simp, fun hn => absurd hk hn,
        fun hn => absurd hk hn, ?_, ?_, fun hn => absurd hk hn, ?_⟩
      · rw [hfs]
        intro g hg
        rw [mem_singleton.mp hg]
        exact hknown hf
      · intro hs
        rw [hk] at hs
        exact absurd hs (by decide)
      · intro _ g hg
        rw [hfs] at hg
        rw [mem_singleton.mp hg]
        exact ⟨_, hfold.mono hc2.ext hf, hpos, rfl, hdvd⟩
      · intro _ g hg
        rw [hfs] at hg
        rw [mem_singleton.mp hg]
        exact ⟨_, hfold.mono hc2.ext hf, by rw [arrayPlace, hfs]⟩

/-- What the end of `compute` can do: it fails, or it writes one entry. -/
theorem finish_cases {fuel : Nat} {i : Nat} (h : finish fuel agg i l p = some l') : Fails l l' ∨
    ∃ out align size, ∃ units : Sized (Option LayoutError × List LayoutBits),
      align = (if agg.align > ownAlign agg p.val then agg.align
        else ownAlign agg p.val) ∧
      size = (p >>= fun p => roundUp (wholeBytes p.bit) align) ∧
      size.overflow = false ∧ size.val ≤ uint64Max / 8 ∧
      units = (if agg.kind = .array then pure (none, p.val.bits)
        else bitUnits agg size.val agg.fields p.val.bits) ∧
      out.size = size.val ∧ out.align = align ∧
      out.offsets = p.val.offsets ∧ out.bits = units.val.2 ∧
      out.unaligned = p.val.unaligned ∧ out.shared = p.val.shared ∧
      out.wrapped = (size.wrapped || units.wrapped) ∧
      (l'.failed = false → units.val.1 = none) ∧
      (out.size ≤ layoutMemberLimit → ∃ n, flatten l' n (irAggregate i) 0 [] = some out.members) ∧
      l' = { l with aggs := update l.aggs i out, aggState := update l.aggState i .done } := by
  unfold finish at h
  extract_lets own l1 align size out lf units l2 out2 l3 at h
  have h1 : l1 = l ∨ Fails l l1 := failWith_cases _ _
  split at h
  · left
    obtain rfl := some.inj h
    have hf := Fails.of_fails h1 (fail_fails l1 (.sizeInBits agg.name))
    exact ⟨hf.target, hf.m, hf.failed⟩
  · rename_i hsize
    have h2 : l2 = l1 ∨ Fails l1 l2 := failWith_cases _ _
    -- The members are written into the entry that is already there.
    have hlast : ∃ members, (size.val ≤ layoutMemberLimit →
          flatten l3 fuel (irAggregate i) 0 [] = some members) ∧
        l' = { l3 with
          aggs := update l3.aggs i { out2 with members := members } } := by
      split at h
      · split at h
        · exact absurd h (by simp)
        · rename_i members hmembers
          exact ⟨members, fun _ => hmembers, (some.inj h).symm⟩
      · rename_i hlimit
        refine ⟨[], fun hle => absurd hle hlimit, (some.inj h).symm.trans ?_⟩
        show l3 = { l3 with
          aggs := update (update l2.aggs i out2) i out2 }
        rw [update_idem]
    obtain ⟨members, hmembers, rfl⟩ := hlast
    -- The entry is written twice, and only its members differ.
    have hflat : size.val ≤ layoutMemberLimit → ∃ n, flatten { l3 with
        aggs := update l3.aggs i { out2 with members := members } } n
          (irAggregate i) 0 [] = some members := by
      intro hle
      refine ⟨fuel, Eq.trans ?_ (hmembers hle)⟩
      refine flatten_congr ?_ ?_ (fun _ => True) ?_ fuel _ 0 [] trivial
      · rfl
      · rfl
      intro v _ _
      refine ⟨?_, fun _ _ _ _ => trivial⟩
      show (update (update l2.aggs i out2) i { out2 with members := members } v.agg).size =
          (update l2.aggs i out2 v.agg).size ∧
        (update (update l2.aggs i out2) i { out2 with members := members } v.agg).offsets =
          (update l2.aggs i out2 v.agg).offsets
      rw [update_idem]
      by_cases hvi : v.agg = i
      · rw [hvi, update_self, update_self]
        exact ⟨rfl, rfl⟩
      · rw [update_of_ne hvi, update_of_ne hvi]
        exact ⟨rfl, rfl⟩
    rcases h2 with h2 | h2
    · rcases h1 with h1 | h1
      · right
        refine ⟨{ out2 with members := members }, align, size, units, rfl, rfl, ?_,
          Nat.le_of_not_lt (not_or.mp hsize).2, rfl, rfl, rfl, rfl, rfl, rfl, rfl, rfl, fun hf => failWith_none hf, hflat, ?_⟩
        · simpa using (not_or.mp hsize).1
        · show { l2 with
              aggs := update (update l2.aggs i out2) i { out2 with members := members },
              aggState := update l2.aggState i .done } = _
          rw [update_idem, h2, h1]
      · left
        rw [h2.symm] at h1
        exact ⟨h1.target, h1.m, h1.failed⟩
    · left
      have hf := Fails.of_fails h1 h2
      exact ⟨hf.target, hf.m, hf.failed⟩

theorem bits_le_64 (h : aggOk agg = true) : ∀ f ∈ agg.fields, f.bits ≤ 64 := by
  intro f hf
  rcases aggOk_bits h f hf with h0 | hfit
  · omega
  · unfold irBitfieldFits at hfit
    split at hfit <;> simp at hfit <;> omega

/-- The least multiple of `align` above a multiple of it is that multiple. -/
theorem eq_of_multiples {align n r : Nat} (hn : align ∣ n) (hr : align ∣ r)
    (hle : n ≤ r) (hlt : r < n + align) : r = n := by
  obtain ⟨a, rfl⟩ := hn
  obtain ⟨b, rfl⟩ := hr
  have h1 : align * b < align * (a + 1) := by
    exact hlt
  have hb : b < a + 1 := Nat.lt_of_mul_lt_mul_left h1
  have h2 : align * b ≤ align * a := Nat.mul_le_mul_left _ (by omega)
  omega

/-- A bitfield that is placed ends below the size, or it is a break at bit zero. -/
theorem Placing.first_or_within {p : Place} {n : Nat} (h : Placing l agg p)
    (hk : agg.kind ≠ .array) (hn : p.bit ≤ n) {x : IrField × LayoutBits}
    (hx : x ∈ agg.fields.zip p.bits) (hx0 : x.1.bits ≠ 0) :
    x.2.pos = 0 ∨ x.2.pos + x.1.bits ≤ n := by
  obtain ⟨j, hj, hget⟩ := mem_iff_getElem.mp hx
  have hlen : j < agg.fields.length ∧ j < p.bits.length := by
    simpa using hj
  have hjo : j < p.offsets.length := by rw [h.offsets]; exact hlen.1
  have hmem : ((x.1, infoOf l x.1.type), p.offsets[j], x.2.pos) ∈
      placedAt (fieldInfos l agg) p.offsets p.bits := by
    refine mem_of_getElem? (i := j) ?_
    simp [placedAt, fieldInfos, hlen.1, hlen.2, hjo, ← hget]
  have hw := h.within hk _ hmem
  by_cases hbreak : isUnitBreak x.1 = true
  · exact Or.inl (hw.atZero hbreak)
  · exact Or.inr ((hw.bits (by simpa using hbreak) hx0).trans hn)

/-- What is placed is laid out once the size rounds up to the alignment. -/
theorem Placing.laid {p : Place} {out : Layout} {align size : Nat}
    (h : Placing l agg p) (hok : aggOk agg = true)
    (ha : align = if agg.align > ownAlign agg p then agg.align
      else ownAlign agg p) (hle : wholeBytes p.bit ≤ size) (hdvd : align ∣ size)
    (hlt : size < wholeBytes p.bit + align) (hmax : size ≤ uint64Max / 8)
    (hsize : out.size = size) (halign : out.align = align)
    (hoff : out.offsets = p.offsets)
    (hbits : out.bits.map LayoutBits.pos = p.bits.map LayoutBits.pos)
    (hunits : agg.kind ≠ .array → ∀ x ∈ agg.fields.zip out.bits,
      x.1.bits ≠ 0 → UnitCovers l.target out.size x.1.bits x.2)
    (hshape : Shaped agg p out) (hw : out.wrapped = false) : Laid l agg out := by
  have hreach : p.bit ≤ 8 * size := by
    have := le_wholeBytes p.bit
    omega
  refine ⟨h.known, ?_, ?_, hsize ▸ hmax, by rw [hsize, halign]; exact hdvd, by rw [hoff, h.offsets],
    ?_, hw, ?_, ?_, hunits, ?_, ?_, p, hshape, h.leads⟩
  · rw [halign, ha]
    exact max_align_pos h.alignPos
  · rw [halign, ha]
    exact max_align_max (aggOk_align hok) h.alignMax
  · rw [← h.bits, ← length_map LayoutBits.pos, hbits, length_map]
  · intro hk x hx
    unfold placedAt at hx
    rw [hoff, hbits] at hx
    rw [hsize]
    exact (h.within hk x hx).mono hreach
  · intro hk hpos
    unfold placedAt
    rw [hoff, hbits]
    refine h.first hk (Nat.pos_of_ne_zero fun h0 => ?_)
    -- Nothing placed leaves nothing to round up.
    have hzero := eq_zero_of_roundUp (by rw [h0]; rfl) hdvd hlt
    omega
  · intro hk
    unfold placedAt
    rw [hoff, hbits, hsize]
    exact (h.fields hk).mono hreach
  · intro hk f hf
    obtain ⟨n, hn, hpos, hbit, hal⟩ := h.array hk f hf
    obtain ⟨-, h0, hs⟩ := aggOk_array hok hk
    have hown : align = p.align := by
      rw [ha, h0, if_neg (by omega)]
      unfold ownAlign
      rw [if_neg (by simp [hs])]
    refine ⟨n, hn, hpos, ?_⟩
    rw [hbit, wholeBytes_mul_eight] at hle hlt
    rw [hsize]
    exact eq_of_multiples (hown ▸ hal.mul_left n) hdvd hle hlt

/-- The end of `compute` writes a layout that is laid out, over the entry that was in work. -/
theorem finish_ok {fuel : Nat} {i : Nat} (hok : aggOk agg = true)
    (hi : l.m.aggs[i]? = some agg) (ht : Tables l)
    (hbusy : l.failed = false → l.aggState i = .busy)
    (hp : l.failed = false → Ends p (Placing l agg))
    (h : finish fuel agg i l p = some l') :
    Extends l l' ∧ Tables l' ∧ (l'.failed = false → l'.aggState = update l.aggState i .done) := by
  rcases finish_cases h with hf | ⟨out, align, size, units, ha, hsize, hover,
    hsizeMax, hunits, h1, h2, h3, h4, h6, h7, h5, hnone, hflat, rfl⟩
  · refine ⟨hf.extends, Tables.of_failed hf.failed, fun hno => ?_⟩
    rw [hf.failed] at hno
    exact absurd hno (by simp)
  · have hlaid : l.failed = false → Laid l agg out := by
      intro hf
      rw [hsize, bind_overflow, Bool.or_eq_false_iff] at hover
      obtain ⟨ho1, ho2⟩ := hover
      obtain ⟨hw1, hplacing⟩ := hp hf ho1
      have hmax : align ≤ uint64Max := by
        rw [ha]
        exact max_align_max (aggOk_align hok) hplacing.alignMax
      have hpos : 1 ≤ align := by
        rw [ha]
        exact max_align_pos hplacing.alignPos
      obtain ⟨hw2, hle, hdvd, -, hlt⟩ := roundUp_ends _ _
        (wholeBytes_le _ hplacing.bitMax) hpos hmax ho2
      have hbelow : p.val.bit ≤ 8 * size.val := by
        have := le_wholeBytes p.val.bit
        rw [hsize, bind_val]
        omega
      have hu : units.wrapped = false ∧ units.val.2.map LayoutBits.pos =
          p.val.bits.map LayoutBits.pos ∧
          (agg.kind ≠ .array → ∀ x ∈ agg.fields.zip units.val.2,
            x.1.bits ≠ 0 → UnitCovers l.target size.val x.1.bits x.2) := by
        by_cases hk : agg.kind = .array
        · rw [hunits, if_pos hk]
          exact ⟨rfl, rfl, fun hn => absurd hk hn⟩
        · rw [if_neg hk] at hunits
          obtain ⟨hw, hmap, hcovers⟩ := bitUnits_ends l.target agg size.val
            agg.fields p.val.bits (bits_le_64 hok) hplacing.posMax
            (bitUnits_overflow _ _ _ _)
          rw [hunits]
          refine ⟨hw, hmap, fun hk x hx hx0 => hcovers ?_ ?_ x hx hx0⟩
          · intro y hy hy0
            exact hplacing.first_or_within hk hbelow hy hy0
          · rw [← hunits]
            exact hnone hf
      have hshape : Shaped agg p.val out := by
        refine ⟨h2.trans ha, by rw [h1, hsize, bind_val, h2], h3, ?_, h6, h7⟩
        rw [h4, hunits, h1]
        split <;> rfl
      refine hplacing.laid hok ha hle hdvd hlt
        (by rwa [hsize, bind_val] at hsizeMax) (by rw [h1, hsize, bind_val]) h2 h3
        (by rw [h4, hu.2.1]) (by rw [h4, h1]; exact hu.2.2) hshape ?_
      rw [h5, hu.1, hsize, bind_wrapped, hw1, hw2]
      rfl
    have hne : l.failed = false → ∀ j, l.aggState j = .done → j ≠ i := by
      rintro hf j hj rfl
      rw [hbusy hf] at hj
      exact absurd hj (by decide)
    have hext : Extends l { l with
        aggs := update l.aggs i out,
        aggState := update l.aggState i .done } := by
      refine ⟨rfl, rfl, id, ?_, ?_⟩
      · intro hf j hj
        show update l.aggState i .done j = .done
        rw [update_of_ne (hne hf j hj)]
        exact hj
      · intro hf j hj
        exact update_of_ne (hne hf j hj) _ _
    have hback : ∀ j, j ≠ i → update l.aggState i .done j = .done → l.aggState j = .done := by
      intro j hji hj
      rwa [update_of_ne hji] at hj
    refine ⟨hext, ⟨?_, ?_, ?_⟩, fun _ => rfl⟩
    · intro hf j hj
      by_cases hji : j = i
      · subst hji
        refine ⟨agg, hi, ?_⟩
        show Laid _ agg (update l.aggs j out j)
        rw [update_self]
        exact (hlaid hf).mono hext hf
      · obtain ⟨agg', hj1, hj2⟩ := ht.laid hf j (hback j hji hj)
        refine ⟨agg', hj1, ?_⟩
        show Laid _ agg' (update l.aggs i out j)
        rw [update_of_ne hji]
        exact hj2.mono hext hf
    · intro hf sym hs
      exact (ht.folded hf sym hs).mono hext hf
    · intro hf j hj hsize
      by_cases hji : j = i
      · subst hji
        have hself : update l.aggs j out j = out := update_self ..
        show ∃ n, _ = some (update l.aggs j out j).members
        have hsize : (update l.aggs j out j).size ≤ layoutMemberLimit := hsize
        rw [hself] at hsize ⊢
        exact hflat hsize
      · exact ht.keeps hext hf (hback j hji hj) hsize

theorem begin_calls {i : Nat} (ht : Tables l) (hi : l.aggState i = .unseen) :
    Calls l { l with aggState := update l.aggState i .busy } := by
  have hne : ∀ j, l.aggState j ≠ .unseen → j ≠ i := by
    rintro j hj rfl
    exact hj hi
  have hold : ∀ j, l.aggState j ≠ .unseen → update l.aggState i .busy j = l.aggState j :=
    fun j hj => update_of_ne (hne j hj) _ _
  have hext : Extends l { l with aggState := update l.aggState i .busy } := by
    refine ⟨rfl, rfl, id, ?_, fun _ _ _ => rfl⟩
    intro _ j hj
    exact (hold j (by rw [hj]; decide)).trans hj
  have hback : ∀ j, update l.aggState i .busy j = .done → l.aggState j = .done := by
    intro j hj
    by_cases hji : j = i
    · subst hji
      rw [update_self] at hj
      exact absurd hj (by decide)
    · rwa [update_of_ne hji] at hj
  refine ⟨hext, ⟨?_, ?_, ?_⟩, ?_⟩
  · intro hf j hj
    obtain ⟨agg, h1, h2⟩ := ht.laid hf j (hback j hj)
    exact ⟨agg, h1, h2.mono hext hf⟩
  · intro hf sym hs
    exact (ht.folded hf sym hs).mono hext hf
  · intro hf j hj hsize
    exact ht.keeps hext hf (hback j hj) hsize
  · intro _ j hj
    exact (hold j (by rw [hj]; decide)).trans hj

/-- The fields or the elements of the aggregate in work are placed. -/
theorem placed_ok (hrec : RecOk m rec) (hok : aggOk agg = true) (hm : l.m = m)
    (ht : Tables l) (h : (if agg.kind = .array then computeArray rec agg l
      else computeFields rec agg agg.fields l (pure {})) = some (l', p)) :
    Calls l l' ∧ (l'.failed = false → Ends p (Placing l' agg)) := by
  split at h
  · rename_i hk
    exact computeArray_ok hrec hok hk hm ht h
  · rename_i hk
    obtain ⟨hc, hp⟩ := computeFields_ok hrec agg.fields [] l l' (pure {}) p hm ht (aggOk_bits hok)
      (fun _ => ⟨by simp, rfl, ends_pure (placeInv_start l.target agg)⟩) h
    refine ⟨hc, fun hf => ?_⟩
    obtain ⟨hknown, hval, hends⟩ := hp hf
    intro ho
    obtain ⟨hw, hinv⟩ := hends ho
    exact ⟨hw, hinv.placing hok hknown hk hval⟩

theorem compute_ok (hrec : RecOk m rec) (hok : ∀ agg ∈ m.aggs, aggOk agg = true)
    {fuel i : Nat} (hm : l.m = m) (ht : Tables l) (hn : l.aggState i ≠ .done)
    (h : compute fuel rec l i = some l') :
    Calls l l' ∧ (l'.failed = false → l'.aggState i = .done) := by
  unfold compute at h
  split at h
  · exact absurd h (by simp)
  · rename_i agg hi
    have hagg : aggOk agg = true := hok agg (hm ▸ mem_of_getElem? hi)
    split at h
    · obtain rfl := some.inj h
      have hf := fail_fails l (.dependsOnItself agg.name)
      refine ⟨Fails.calls ⟨hf.target, hf.m, hf.failed⟩, fun hno => ?_⟩
      exact absurd (show (l.fail _).failed = false from hno) (by simp)
    · rename_i hb
      have hunseen : l.aggState i = .unseen := by
        cases hs : l.aggState i with
        | unseen => rfl
        | busy => exact absurd hs hb
        | done => exact absurd hs hn
      have hbegin := begin_calls ht hunseen
      dsimp only at h
      split at h
      · exact absurd h (by simp)
      · rename_i l1 p hplaced
        obtain ⟨hc, hp⟩ := placed_ok hrec hagg (hbegin.ext.m.trans hm) hbegin.tables hplaced
        have hbusy : l1.failed = false → l1.aggState i = .busy := by
          intro hf
          exact hc.busy hf i (update_self ..)
        obtain ⟨hext, htables, hstate⟩ := finish_ok hagg
          (show l1.m.aggs[i]? = some agg by rw [hc.ext.m]; exact hi) hc.tables
          hbusy hp h
        have hcalls := hbegin.trans hc
        refine ⟨⟨hcalls.ext.trans hext, htables, ?_⟩, ?_⟩
        · intro hf j hj
          have hji : j ≠ i := by
            rintro rfl
            rw [hunseen] at hj
            exact absurd hj (by decide)
          rw [hstate hf, update_of_ne hji]
          exact hcalls.busy (hext.failed hf) j hj
        · intro hf
          rw [hstate hf, update_self]

/-- A call of `layout_fold` that has a value only where the symbolic value
    has it, and fails otherwise. -/
theorem Calls.fold (hc : Calls l l') (hv : ∀ v, r = some v → l'.failed = false → Folds l' sym v)
    (hn : r = none → l'.failed = true) : Answers l (.fold sym) l' r := by
  refine ⟨hc, ?_, ?_, ?_⟩
  · intro i hq
    exact absurd hq (by simp)
  · intro sym' v hq
    obtain rfl := Query.fold.inj hq
    exact hv v
  · intro sym' hq
    exact hn

theorem keep_ok {l0 : Layouts} {v : Nat} (hc : Calls l0 l)
    (hv : l.failed = false → Folds l sym v) (h : keep l sym v = (l', r)) :
    Answers l0 (.fold sym) l' r := by
  unfold keep at h
  split at h
  · rename_i hf
    obtain ⟨rfl, rfl⟩ := Prod.mk.inj h
    exact hc.fold (fun v hv => absurd hv (by simp)) fun _ => hf
  · obtain ⟨rfl, rfl⟩ := Prod.mk.inj h
    have hext : Extends l { l with
        values := update l.values sym v,
        symState := update l.symState sym .done } :=
      ⟨rfl, rfl, id, fun _ _ hj => hj, fun _ _ _ => rfl⟩
    refine Calls.fold ⟨hc.ext.trans hext, ⟨?_, ?_, fun hf j hj hsize =>
      hc.tables.keeps hext hf hj hsize⟩, hc.busy⟩ ?_ fun hr => absurd hr (by simp)
    · intro hf j hj
      obtain ⟨agg, h1, h2⟩ := hc.tables.laid hf j hj
      exact ⟨agg, h1, h2.mono hext hf⟩
    · intro hf sym' hs
      by_cases heq : sym' = sym
      · subst heq
        show Folds _ sym' (update l.values sym' v sym')
        rw [update_self]
        exact (hv hf).mono hext hf
      · have hs : update l.symState sym .done sym' = .done := hs
        rw [update_of_ne heq] at hs
        show Folds _ sym' (update l.values sym v sym')
        rw [update_of_ne heq]
        exact (hc.tables.folded hf sym' hs).mono hext hf
    · intro v' hv' hf
      obtain rfl := some.inj hv'
      exact (hv hf).mono hext hf

theorem answers_none {l0 : Layouts} {sym' : Nat} (hc : Calls l0 l)
    (h : Answers l (.fold sym') l' none) : Answers l0 (.fold sym) l' none :=
  (hc.trans h.toCalls).fold (fun _ hv => absurd hv (by simp)) fun _ => h.none sym' rfl rfl

/-- The second operand of an operation, which a unary operation has not. -/
theorem second_ok (hrec : RecOk m rec) {l0 : Layouts} {s : IrSym} (hm : l0.m = m) (hc : Calls l0 l)
    (h : (if s.b = irNoAgg then some (l, some 0) else rec l (.fold s.b)) = some (l', r)) :
    Calls l l' ∧ (r = none → l'.failed = true) ∧ ∀ b, r = some b → l'.failed = false →
        (s.b = irNoAgg ∧ b = 0) ∨ (s.b ≠ irNoAgg ∧ Folds l' s.b b) := by
  split at h
  · rename_i hb
    obtain ⟨rfl, rfl⟩ := Prod.mk.inj (some.inj h)
    refine ⟨Calls.refl hc.tables, fun hr => absurd hr (by simp), ?_⟩
    intro b hb' _
    exact Or.inl ⟨hb, (some.inj hb').symm⟩
  · rename_i hb
    have ha := hrec _ _ _ _ (hc.ext.m.trans hm) hc.tables h
    exact ⟨ha.toCalls, ha.none _ rfl, fun b hr hf => Or.inr ⟨hb, ha.value _ _ rfl hr hf⟩⟩

theorem foldOperation_ok (hrec : RecOk m rec) {s : IrSym} (hm : l.m = m)
    (ht : Tables l) (hs : l.m.syms[sym]? = some s) (hk : s.kind = .op)
    (h : foldOperation rec l sym s = some (l', r)) : Answers l (.fold sym) l' r := by
  unfold foldOperation at h
  split at h
  · exact absurd h (by simp)
  · rename_i operand hoperand
    split at h
    · exact absurd h (by simp)
    · rename_i l1 hr
      obtain ⟨rfl, rfl⟩ := Prod.mk.inj (some.inj h)
      exact answers_none (Calls.refl ht) (hrec _ _ _ _ hm ht hr)
    · rename_i l1 a hr
      have ha := hrec _ _ _ _ hm ht hr
      split at h
      · exact absurd h (by simp)
      · rename_i l2 hr2
        obtain ⟨rfl, rfl⟩ := Prod.mk.inj (some.inj h)
        obtain ⟨hc2, hnone, -⟩ := second_ok hrec hm ha.toCalls hr2
        exact (ha.toCalls.trans hc2).fold (fun _ hv => absurd hv (by simp)) hnone
      · rename_i l2 b hr2
        obtain ⟨hc2, -, hb⟩ := second_ok hrec hm ha.toCalls hr2
        have hc := ha.toCalls.trans hc2
        split at h
        · obtain ⟨rfl, rfl⟩ := Prod.mk.inj (some.inj h)
          exact (hc.trans (fail_fails _ _).calls).fold
            (fun _ hv => absurd hv (by simp)) fun _ => Layouts.failed_fail _ _
        · rename_i v hv
          refine keep_ok hc (fun hf => ?_) (some.inj h)
          have hfa : Folds l2 s.a a := (ha.value _ _ rfl rfl (hc2.ext.failed hf)).mono hc2.ext hf
          rw [← hc.ext.m] at hs hoperand
          rcases hb b rfl hf with ⟨hno, rfl⟩ | ⟨hno, hfb⟩
          · exact .unary hs hk hoperand hno hfa hv
          · exact .binary hs hk hoperand hno hfa hfb hv

theorem layoutFold_ok (hrec : RecOk m rec) (hm : l.m = m) (ht : Tables l)
    (h : layoutFold rec l sym = some (l', r)) : Answers l (.fold sym) l' r := by
  unfold layoutFold at h
  split at h
  · exact absurd h (by simp)
  · rename_i s hs
    split at h
    · rename_i hdone
      obtain ⟨rfl, rfl⟩ := Prod.mk.inj (some.inj h)
      refine (Calls.refl ht).fold ?_ fun hr => absurd hr (by simp)
      intro v hv hf
      obtain rfl := some.inj hv
      exact ht.folded hf sym hdone
    · split at h
      · rename_i hk
        exact keep_ok (Calls.refl ht) (fun _ => .int hs hk) (some.inj h)
      · rename_i hk
        split at h
        · exact absurd h (by simp)
        · rename_i l1 hv
          obtain ⟨hc, hknown⟩ := visit_calls hrec hm ht hv
          refine keep_ok hc (fun hf => .sizeOf ?_ hk (hknown hf)) (some.inj h)
          rw [hc.ext.m]
          exact hs
      · rename_i hk
        split at h
        · exact absurd h (by simp)
        · rename_i l1 r1 hr
          have ha := hrec _ _ _ _ hm ht hr
          obtain ⟨v, hv, hkeep⟩ := map_eq_some_iff.mp h
          refine keep_ok ha.toCalls (fun hf => .offsetOf ?_ hk (ha.agg _ rfl hf) hv) hkeep
          rw [ha.ext.m]
          exact hs
      · rename_i hk
        exact foldOperation_ok hrec hm ht hs hk h

end Recursion

/-- **EVERY CALL ANSWERS.**  A call of `layout_agg` or `layout_fold` that ends
    keeps the tables, by induction on the depth of the calls. -/
theorem eval_answers {m : IrModule} (hok : ∀ agg ∈ m.aggs, aggOk agg = true) :
    ∀ fuel, RecOk m (eval fuel) := by
  intro fuel
  induction fuel with
  | zero =>
    intro l q l' r _ _ h
    exact absurd h (by simp [eval])
  | succ fuel ih =>
    intro l q l' r hm ht h
    rw [show eval (fuel + 1) l q = step fuel (eval fuel) l q from rfl] at h
    cases q with
    | fold sym => exact layoutFold_ok ih hm ht h
    | agg i =>
      have hcalls : Calls l l' ∧ (l'.failed = false → l'.aggState i = .done) := by
        unfold step at h
        dsimp only at h
        split at h
        · rename_i hdone
          obtain ⟨rfl, rfl⟩ := Prod.mk.inj (some.inj h)
          exact ⟨Calls.refl ht, fun _ => hdone⟩
        · rename_i hn
          obtain ⟨l1, hl1, heq⟩ := map_eq_some_iff.mp h
          obtain ⟨rfl, -⟩ := Prod.mk.inj heq
          exact compute_ok ih hok hm ht hn hl1
      refine ⟨hcalls.1, ?_, ?_, ?_⟩
      · intro j hj
        obtain rfl := Query.agg.inj hj
        exact hcalls.2
      · intro sym v hq
        exact absurd hq (by simp)
      · intro sym hq
        exact absurd hq (by simp)

/-- The loop of `layout_init` lays out the aggregates it passes. -/
theorem initFrom_ok {m : IrModule} (hok : ∀ agg ∈ m.aggs, aggOk agg = true) (fuel : Nat) :
    ∀ (n i : Nat) (l l' : Layouts), l.m = m → Tables l → initFrom fuel n i l = some l' →
      Calls l l' ∧ (l'.failed = false → ∀ j, i ≤ j → j < i + n → l'.aggState j = .done) := by
  intro n
  induction n with
  | zero =>
    intro i l l' _ ht h
    obtain rfl := some.inj h
    exact ⟨Calls.refl ht, fun _ j h1 h2 => absurd h2 (by omega)⟩
  | succ n ih =>
    intro i l l' hm ht h
    unfold initFrom at h
    split at h
    · rename_i hf
      obtain rfl := some.inj h
      refine ⟨Calls.refl ht, fun hno => ?_⟩
      rw [hf] at hno
      exact absurd hno (by simp)
    · split at h
      · exact absurd h (by simp)
      · rename_i l1 r hr
        have ha := eval_answers hok fuel _ _ _ _ hm ht hr
        obtain ⟨hc, hrest⟩ := ih (i + 1) l1 l' (ha.ext.m.trans hm) ha.tables h
        refine ⟨ha.toCalls.trans hc, fun hf j h1 h2 => ?_⟩
        rcases Nat.eq_or_lt_of_le h1 with rfl | hlt
        · exact hc.ext.done hf _ (ha.agg _ rfl (hc.ext.failed hf))
        · exact hrest hf j hlt (by omega)

/-- `layout_init` ends with the tables of the module and, when it succeeds, with
    every aggregate done. -/
theorem layoutInit_calls {fuel : Nat} {t : Target} {m : IrModule}
    (hok : ∀ agg ∈ m.aggs, aggOk agg = true) (h : layoutInit fuel t m = some l) :
    Calls { target := t, m := m } l ∧
      (l.failed = false → ∀ i, i < m.aggs.length → l.aggState i = .done) := by
  have hstart : Tables { target := t, m := m } :=
    ⟨fun _ i hi => absurd hi (by simp), fun _ s hs => absurd hs (by simp),
      fun _ i hi => absurd hi (by simp)⟩
  obtain ⟨hc, hdone⟩ := initFrom_ok hok fuel _ 0 _ l rfl hstart h
  exact ⟨hc, fun hf i hi => hdone hf i (by omega) (by omega)⟩

/-- Every aggregate of a module that `layout_init` accepts is laid out. -/
theorem layoutInit_laid {fuel : Nat} {t : Target} {m : IrModule}
    (hok : ∀ agg ∈ m.aggs, aggOk agg = true) (h : layoutInit fuel t m = some l)
    (hf : l.failed = false) {i : Nat} (hi : m.aggs[i]? = some agg) :
    Laid l agg (l.aggs i) := by
  obtain ⟨hc, hdone⟩ := layoutInit_calls hok h
  have hlt : i < m.aggs.length := (List.getElem?_eq_some_iff.mp hi).1
  obtain ⟨agg', h1, h2⟩ := hc.tables.laid hf i (hdone hf i hlt)
  rw [hc.ext.m] at h1
  obtain rfl := some.inj (hi.symm.trans h1)
  exact h2

/-! ## The main result -/

/-- The bits that field `j` of aggregate `i` occupies. -/
def bitRange (l : Layouts) (i j : Nat) (f : IrField) : Set Nat :=
  fieldRange f (sizeOf l f.type) ((l.aggs i).offsets.getD j 0) ((l.aggs i).bits.getD j {}).pos

theorem Laid.placed_getElem {out : Layout} (h : Laid l agg out) {j : Nat}
    {f : IrField} (hj : agg.fields[j]? = some f) :
    (placedAt (fieldInfos l agg) out.offsets out.bits)[j]? =
      some ((f, infoOf l f.type), out.offsets.getD j 0, (out.bits.getD j {}).pos) := by
  have hlt : j < agg.fields.length := (List.getElem?_eq_some_iff.mp hj).1
  have ho : j < out.offsets.length := by rw [h.offsets]; exact hlt
  have hb : j < out.bits.length := by rw [h.bits]; exact hlt
  simp [placedAt, fieldInfos, getElem?_zip_eq_some, hj, ho, hb]

/-- **NO TWO FIELDS OVERLAP.**  For each target and every table of aggregates for which
    `layout_init` succeeds: the bits of the fields of a struct are disjoint and lie within its size,
    a field that keeps its alignment has it, the size is a multiple of the alignment, an array has
    the size of its elements, and no sum wrapped. -/
theorem layout_never_overlaps {fuel : Nat} {t : Target} {m : IrModule}
    {l : Layouts} (hok : ∀ agg ∈ m.aggs, aggOk agg = true)
    (h : layoutInit fuel t m = some l) (hf : l.failed = false) {i : Nat}
    {agg : IrAggtype} (hi : m.aggs[i]? = some agg) :
    (agg.kind = .struct → (∀ j k f g, agg.fields[j]? = some f → agg.fields[k]? = some g → j ≠ k →
        Disjoint (bitRange l i j f) (bitRange l i k g)) ∧
      (∀ j f, agg.fields[j]? = some f → bitRange l i j f ⊆ Set.Ico 0 (8 * (l.aggs i).size)) ∧
      (∀ j f, agg.fields[j]? = some f → keepsAlign agg f (infoOf l f.type) →
        alignOf l f.type ∣ (l.aggs i).offsets.getD j 0)) ∧
    (l.aggs i).align ∣ (l.aggs i).size ∧
    (agg.kind = .array → ∀ f ∈ agg.fields, ∃ n, Folds l agg.length n ∧
      (l.aggs i).size = n * sizeOf l f.type) ∧
    (l.aggs i).wrapped = false := by
  have hl := layoutInit_laid hok h hf hi
  refine ⟨fun hk => ⟨?_, ?_, ?_⟩, hl.sizeAlign, ?_, hl.wrapped⟩
  · intro j k f g hj hg hne
    have hpair := pairwise_iff_getElem.mp (hl.fields hk).disjoint
    obtain ⟨hj1, hj2⟩ := List.getElem?_eq_some_iff.mp (hl.placed_getElem hj)
    obtain ⟨hk1, hk2⟩ := List.getElem?_eq_some_iff.mp (hl.placed_getElem hg)
    rcases Nat.lt_or_gt_of_ne hne with hlt | hlt
    · have hd := hpair j k hj1 hk1 hlt
      rw [hj2, hk2] at hd
      exact hd
    · have hd := hpair k j hk1 hj1 hlt
      rw [hj2, hk2] at hd
      exact hd.symm
  · intro j f hj n hn
    have hmem := mem_of_getElem? (hl.placed_getElem hj)
    exact ⟨Nat.zero_le n, (hl.fields hk).below _ hmem hn⟩
  · intro j f hj hkeeps
    have hmem := mem_of_getElem? (hl.placed_getElem hj)
    exact (hl.fields hk).aligned _ hmem hkeeps
  · intro hk f hmem
    obtain ⟨n, hn, -, hsize⟩ := hl.array hk f hmem
    exact ⟨n, hn, hsize⟩

/-- A packed struct of two bitfields that share a unit on Windows, a break, an
    atomic field and an array as long as a `c_long` has bytes. -/
def mixedFields : IrModule where
  syms := [{ kind := .sizeOf, type := .i64, value := 0, of := irScalar .clong,
             field := 0, op := .add, a := irNoAgg, b := irNoAgg }]
  aggs :=
    [{ kind := .array, name := [65],
       fields := [⟨none, irScalar .i16, 0, .none, false⟩], packed := false,
       simd := false, align := 0, length := 0, lengthText := some [110] },
     { kind := .struct, name := [83], fields :=
         [⟨some [97], irScalar .i32, 3, .none, false⟩, ⟨some [98], irScalar .i32, 30, .none, false⟩,
          ⟨some [95], irScalar .i16, 0, .none, false⟩,
          ⟨some [99], irScalar .i8, 0, .none, false⟩,
          ⟨some [100], irScalar .i64, 0, .none, true⟩,
          ⟨some [101], irAggregate 0, 0, .none, false⟩],
       packed := true, simd := false, align := 16, length := 0,
       lengthText := none }]

/-- In `mixedFields` the two bitfields take two units of Windows, apart. -/
theorem layout_mixedFields : ∃ l, layoutInit 4 .windowsX8664 mixedFields = some l ∧
      l.failed = false ∧ (l.aggs 1).size = 32 ∧
      Disjoint (bitRange l 1 0 ⟨some [97], irScalar .i32, 3, .none, false⟩)
        (bitRange l 1 1 ⟨some [98], irScalar .i32, 30, .none, false⟩) := by
  have hsome : ((layoutInit 4 .windowsX8664 mixedFields).map fun l =>
      (l.failed, (l.aggs 1).size)) = some (false, 32) := by
    decide +kernel
  obtain ⟨l, hl, heq⟩ := map_eq_some_iff.mp hsome
  obtain ⟨hf, hsize⟩ := Prod.mk.inj heq
  refine ⟨l, hl, hf, hsize, ?_⟩
  exact ((layout_never_overlaps (by decide) hl hf rfl).1 rfl).1 0 1 _ _ rfl rfl (by decide)

end AnticLayout
