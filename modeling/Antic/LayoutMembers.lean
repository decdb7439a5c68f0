import Mathlib.Data.Finset.Card
import Mathlib.Data.Finset.Lattice.Lemmas
import Mathlib.Data.List.Induction
import Antic.LayoutProofs

/-! # The scalars of an aggregate, and the members that `flatten` keeps

    `scalars` lists the scalar fields of a type, those of nested types included, in
    the order of their declaration, each with its bits.  `flatten` records where
    each starts, once, up to `layoutMemberLimit` (`flatten_kept`).

    Every scalar lies inside its type (`scalars_within`), and a type that has bytes
    has a scalar at its first bit (`scalars_start`). -/

namespace AnticLayout

open AnticIr List Option

/-- A scalar of an aggregate: its type on the target and its bits. -/
structure Scalar where
  type : IrType
  first : Nat
  width : Nat
  deriving DecidableEq, Repr

/-- What `flatten` records of a scalar. -/
def Scalar.start (x : Scalar) : LayoutMember := ⟨x.first / 8, x.type⟩

section Scalars

variable (l : Layouts)

/-- The scalars of field `f` of a struct or union at `offset`, whose own offset and
    first bit are `place`. -/
def fieldScalars (nested : IrVtype → Nat → Option (List Scalar)) (offset : Nat)
    (f : IrField) (place : Nat × LayoutBits) : Option (List Scalar) :=
  if isUnitBreak f then some []
  else if f.bits = 0 then nested f.type (offset + place.1)
  else some [⟨l.target.type f.type.type, 8 * offset + place.2.pos, f.bits⟩]

/-- The scalars of a value of type `v` at byte `offset`.  `none` is a nesting deeper
    than the fuel. -/
def scalars : Nat → IrVtype → Nat → Option (List Scalar)
  | 0, _, _ => none
  | fuel + 1, v, offset =>
    if v.type ≠ .agg then
      some [⟨l.target.type v.type, 8 * offset, 8 * scalarSize l.target v.type⟩]
    else
      match l.m.aggs[v.agg]? with
      | none => none
      | some t =>
        if t.kind = .array then
          match t.fields with
          | [] => none
          | f :: _ =>
            let step := sizeOf l f.type
            if step = 0 then some []
            else
              ((List.range ((l.aggs v.agg).size / step)).mapM fun i =>
                scalars fuel f.type (offset + i * step)).map List.flatten
        else
          ((t.fields.zip ((l.aggs v.agg).offsets.zip (l.aggs v.agg).bits)).mapM
            fun x => fieldScalars l (scalars fuel) offset x.1 x.2).map List.flatten

end Scalars

/-! ## Maps and folds that may fail -/

section Options

variable {α β γ : Type}

variable {g : α → Option β}

theorem mapM_cons_some {x : α} {xs : List α} {ys : List β} (h : (x :: xs).mapM g = some ys) :
    ∃ y ys', g x = some y ∧ xs.mapM g = some ys' ∧ ys = y :: ys' := by
  rw [mapM_cons] at h
  obtain ⟨y, hy, h⟩ := bind_eq_some_iff.mp h
  obtain ⟨ys', hys, h⟩ := bind_eq_some_iff.mp h
  exact ⟨y, ys', hy, hys, (some.inj h).symm⟩

theorem mapM_cons_of_some {x : α} {xs : List α} {y : β} {ys : List β}
    (hx : g x = some y) (hxs : xs.mapM g = some ys) :
    (x :: xs).mapM g = some (y :: ys) := by
  rw [mapM_cons, hx, hxs]
  rfl

theorem mem_of_mapM {y : β} : ∀ (xs : List α) (ys : List β), xs.mapM g = some ys → y ∈ ys →
      ∃ x ∈ xs, g x = some y := by
  intro xs
  induction xs with
  | nil =>
    intro ys h hy
    obtain rfl := some.inj h
    exact absurd hy not_mem_nil
  | cons x xs ih =>
    intro ys h hy
    obtain ⟨z, zs, hz, hzs, rfl⟩ := mapM_cons_some h
    rcases mem_cons.mp hy with rfl | hy
    · exact ⟨x, mem_cons_self, hz⟩
    · obtain ⟨w, hw, hgw⟩ := ih zs hzs hy
      exact ⟨w, mem_cons_of_mem _ hw, hgw⟩

theorem mapM_of_mem {x : α} : ∀ (xs : List α) (ys : List β), xs.mapM g = some ys → x ∈ xs →
      ∃ y ∈ ys, g x = some y := by
  intro xs
  induction xs with
  | nil =>
    intro ys _ hx
    exact absurd hx not_mem_nil
  | cons z xs ih =>
    intro ys h hx
    obtain ⟨y, ys', hy, hys, rfl⟩ := mapM_cons_some h
    rcases mem_cons.mp hx with rfl | hx
    · exact ⟨y, mem_cons_self, hy⟩
    · obtain ⟨w, hw, hgw⟩ := ih ys' hys hx
      exact ⟨w, mem_cons_of_mem _ hw, hgw⟩

/-- A map that has results keeps them where its function has more. -/
theorem mapM_mono {g' : α → Option β} : ∀ (xs : List α) (ys : List β),
      (∀ x ∈ xs, ∀ y, g x = some y → g' x = some y) → xs.mapM g = some ys →
      xs.mapM g' = some ys := by
  intro xs
  induction xs with
  | nil =>
    intro ys _ h
    exact h
  | cons x xs ih =>
    intro ys hmono h
    obtain ⟨y, ys', hy, hys, rfl⟩ := mapM_cons_some h
    exact mapM_cons_of_some (hmono x mem_cons_self y hy)
      (ih ys' (fun z hz => hmono z (mem_cons_of_mem _ hz)) hys)

/-- A fold whose steps each append what a function gives folds over all that the function gives. -/
theorem foldlM_eq_foldl {f : γ → α → Option γ} {g : α → Option (List β)} {h : γ → β → γ} :
    ∀ (xs : List α) (acc acc' : γ), (∀ x ∈ xs, ∀ acc acc', f acc x = some acc' →
        ∃ ys, g x = some ys ∧ acc' = ys.foldl h acc) →
      xs.foldlM f acc = some acc' →
      ∃ yss, xs.mapM g = some yss ∧ acc' = yss.flatten.foldl h acc := by
  intro xs
  induction xs with
  | nil =>
    intro acc acc' _ hfold
    exact ⟨[], rfl, (some.inj hfold).symm⟩
  | cons x xs ih =>
    intro acc acc' hstep hfold
    obtain ⟨mid, hmid, hrest⟩ := bind_eq_some_iff.mp hfold
    obtain ⟨ys, hys, rfl⟩ := hstep x mem_cons_self acc mid hmid
    obtain ⟨yss, hyss, rfl⟩ := ih _ acc' (fun z hz => hstep z (mem_cons_of_mem _ hz)) hrest
    exact ⟨ys :: yss, mapM_cons_of_some hys hyss, by
      rw [flatten_cons, foldl_append]⟩

end Options

/-! ## The tables -/

/-- Every finished aggregate is laid out. -/
def AllLaid (l : Layouts) : Prop := ∀ i agg, l.m.aggs[i]? = some agg → Laid l agg (l.aggs i)

section Shape

variable {l : Layouts}

variable {agg : IrAggtype}

theorem placed_of_field {out : Layout} {x : IrField × Nat × LayoutBits}
    (hx : x ∈ agg.fields.zip (out.offsets.zip out.bits)) :
    x.1 ∈ agg.fields ∧ ((x.1, infoOf l x.1.type), x.2.1, x.2.2.pos) ∈
        placedAt (fieldInfos l agg) out.offsets out.bits := by
  obtain ⟨j, hj⟩ := mem_iff_getElem?.mp hx
  obtain ⟨hf, hplace⟩ := getElem?_zip_eq_some.mp hj
  obtain ⟨ho, hb⟩ := getElem?_zip_eq_some.mp hplace
  refine ⟨mem_of_getElem? hf, mem_of_getElem? (i := j) ?_⟩
  rw [placedAt, getElem?_zip_eq_some, getElem?_zip_eq_some, fieldInfos,
    getElem?_map, hf, getElem?_map, hb]
  exact ⟨rfl, ho, rfl⟩

theorem field_of_placed {out : Layout} {x : Placed}
    (hx : x ∈ placedAt (fieldInfos l agg) out.offsets out.bits) :
    ∃ b : LayoutBits, b.pos = x.2.2 ∧ x.1.2 = infoOf l x.1.1.type ∧
      (x.1.1, x.2.1, b) ∈ agg.fields.zip (out.offsets.zip out.bits) := by
  obtain ⟨j, hj⟩ := mem_iff_getElem?.mp hx
  obtain ⟨hf, hplace⟩ := getElem?_zip_eq_some.mp hj
  obtain ⟨ho, hb⟩ := getElem?_zip_eq_some.mp hplace
  rw [fieldInfos, getElem?_map] at hf
  obtain ⟨f, hfield, hinfo⟩ := map_eq_some_iff.mp hf
  rw [getElem?_map] at hb
  obtain ⟨b, hbits, hpos⟩ := map_eq_some_iff.mp hb
  refine ⟨b, hpos, ?_, mem_of_getElem? (i := j) ?_⟩
  · rw [← hinfo]
  · rw [getElem?_zip_eq_some, getElem?_zip_eq_some]
    exact ⟨by rw [hfield, ← hinfo], ho, hbits⟩

theorem bitfield_scalar (hok : aggOk agg = true) {f : IrField} (hf : f ∈ agg.fields)
    (hbits : f.bits ≠ 0) : f.type.type ≠ .agg := by
  have hfit := (aggOk_bits hok f hf).resolve_left hbits
  intro htype
  rw [irBitfieldFits, htype] at hfit
  exact absurd hfit Bool.false_ne_true

end Shape

/-! ## Where the scalars are -/

section Where

variable {l : Layouts}

variable {v : IrVtype}

theorem scalars_scalar (hv : v.type ≠ .agg) (n offset : Nat) : scalars l (n + 1) v offset =
      some [⟨l.target.type v.type, 8 * offset, 8 * scalarSize l.target v.type⟩] := if_pos hv

theorem scalars_array {t : IrAggtype} {f : IrField} {fs : List IrField}
    (hv : ¬ v.type ≠ .agg) (ht : l.m.aggs[v.agg]? = some t) (hk : t.kind = .array)
    (hfs : t.fields = f :: fs) (n offset : Nat) :
    scalars l (n + 1) v offset =
      if sizeOf l f.type = 0 then some []
      else
        ((List.range ((l.aggs v.agg).size / sizeOf l f.type)).mapM fun i =>
          scalars l n f.type (offset + i * sizeOf l f.type)).map List.flatten := by
  refine (if_neg hv).trans ?_
  rw [ht]
  dsimp only
  rw [if_pos hk, hfs]

theorem scalars_struct {t : IrAggtype} (hv : ¬ v.type ≠ .agg)
    (ht : l.m.aggs[v.agg]? = some t) (hk : ¬ t.kind = .array) (n offset : Nat) :
    scalars l (n + 1) v offset =
      ((t.fields.zip ((l.aggs v.agg).offsets.zip (l.aggs v.agg).bits)).mapM
        fun x => fieldScalars l (scalars l n) offset x.1 x.2).map List.flatten := by
  refine (if_neg hv).trans ?_
  rw [ht]
  dsimp only
  rw [if_neg hk]

theorem scalars_mono (k : Nat) : ∀ (n : Nat) (v : IrVtype) (offset : Nat) (xs : List Scalar),
      scalars l n v offset = some xs → scalars l (n + k) v offset = some xs := by
  intro n
  induction n with
  | zero =>
    intro v offset xs h
    cases h
  | succ n ih =>
    intro v offset xs h
    rw [Nat.add_right_comm]
    by_cases hv : v.type ≠ .agg
    · rw [scalars_scalar hv] at h ⊢
      exact h
    · cases ht : l.m.aggs[v.agg]? with
      | none =>
        have h := (if_neg hv).symm.trans h
        rw [ht] at h
        cases h
      | some t =>
        by_cases hk : t.kind = .array
        · cases hfs : t.fields with
          | nil =>
            have h := (if_neg hv).symm.trans h
            rw [ht] at h
            dsimp only at h
            rw [if_pos hk, hfs] at h
            cases h
          | cons f fs =>
            rw [scalars_array hv ht hk hfs] at h ⊢
            split
            · rename_i hstep
              rwa [if_pos hstep] at h
            · rename_i hstep
              rw [if_neg hstep] at h
              obtain ⟨yss, hyss, rfl⟩ := map_eq_some_iff.mp h
              rw [mapM_mono _ yss (fun i _ ys hys => ih _ _ ys hys) hyss]
              rfl
        · rw [scalars_struct hv ht hk] at h ⊢
          obtain ⟨yss, hyss, rfl⟩ := map_eq_some_iff.mp h
          refine map_eq_some_iff.mpr ⟨yss, mapM_mono _ yss (fun x _ ys hys => ?_) hyss, rfl⟩
          unfold fieldScalars at hys ⊢
          split
          · rename_i hbreak
            rwa [if_pos hbreak] at hys
          · rename_i hbreak
            rw [if_neg hbreak] at hys
            split
            · rename_i hbits
              rw [if_pos hbits] at hys
              exact ih _ _ ys hys
            · rename_i hbits
              rwa [if_neg hbits] at hys

theorem scalars_unique {n k : Nat} {offset : Nat} {xs ys : List Scalar}
    (hxs : scalars l n v offset = some xs) (hys : scalars l k v offset = some ys) :
    xs = ys := by
  have h1 := scalars_mono k n v offset xs hxs
  have h2 := scalars_mono n k v offset ys hys
  rw [Nat.add_comm] at h2
  exact some.inj (h1.symm.trans h2)

/-- The scalars of a value lie within its bytes. -/
theorem scalars_within (hl : AllLaid l) :
    ∀ (n : Nat) (v : IrVtype) (offset : Nat) (xs : List Scalar),
      scalars l n v offset = some xs → ∀ x ∈ xs,
        8 * offset ≤ x.first ∧ x.first + x.width ≤ 8 * (offset + sizeOf l v) ∧
          0 < x.width := by
  intro n
  induction n with
  | zero =>
    intro v offset xs h
    cases h
  | succ n ih =>
    intro v offset xs h x hx
    change ite _ _ _ = _ at h
    split at h
    · rename_i hv
      obtain rfl := some.inj h
      obtain rfl := mem_singleton.mp hx
      have hpos := (scalarSize_pos l.target v.type).1
      rw [show sizeOf l v = scalarSize l.target v.type from if_neg hv]
      dsimp only
      omega
    · rename_i hv
      have hsize : sizeOf l v = (l.aggs v.agg).size := if_pos (not_not.mp hv)
      split at h
      · exact absurd h (by simp)
      · rename_i t ht
        have hlaid := hl _ t ht
        split at h
        · split at h
          · exact absurd h (by simp)
          · dsimp only at h
            split at h
            · obtain rfl := some.inj h
              exact absurd hx not_mem_nil
            · rename_i f fs _ hstep
              obtain ⟨yss, hyss, rfl⟩ := map_eq_some_iff.mp h
              obtain ⟨ys, hys, hx⟩ := mem_flatten.mp hx
              obtain ⟨i, hi, hsub⟩ := mem_of_mapM _ _ hyss hys
              obtain ⟨h1, h2, h3⟩ := ih _ _ ys hsub x hx
              -- Element `i` ends where element `i + 1` starts.
              have hin : (i + 1) * sizeOf l f.type ≤ (l.aggs v.agg).size :=
                Nat.le_trans (Nat.mul_le_mul_right _ (mem_range.mp hi)) (Nat.div_mul_le_self _ _)
              rw [Nat.add_mul, Nat.one_mul] at hin
              omega
        · rename_i hk
          obtain ⟨yss, hyss, rfl⟩ := map_eq_some_iff.mp h
          obtain ⟨ys, hys, hx⟩ := mem_flatten.mp hx
          obtain ⟨fp, hfp, hsub⟩ := mem_of_mapM _ _ hyss hys
          obtain ⟨hf, hplaced⟩ := placed_of_field (l := l) hfp
          have hwithin := hlaid.within hk _ hplaced
          unfold fieldScalars at hsub
          split at hsub
          · obtain rfl := some.inj hsub
            exact absurd hx not_mem_nil
          · rename_i hbreak
            have hbreak : isUnitBreak fp.1 = false := by simpa using hbreak
            split at hsub
            · rename_i hbits
              obtain ⟨h1, h2, h3⟩ := ih _ _ ys hsub x hx
              have hend := hwithin.plain hbreak hbits
              dsimp only [infoOf] at hend
              omega
            · rename_i hbits
              obtain rfl := some.inj hsub
              obtain rfl := mem_singleton.mp hx
              have hend := hwithin.bits hbreak hbits
              dsimp only at hend ⊢
              omega

theorem scalars_start (hl : AllLaid l) :
    ∀ (n : Nat) (v : IrVtype) (offset : Nat) (xs : List Scalar),
      scalars l n v offset = some xs → 0 < sizeOf l v →
      ∃ x ∈ xs, x.first = 8 * offset := by
  intro n
  induction n with
  | zero =>
    intro v offset xs h
    cases h
  | succ n ih =>
    intro v offset xs h hpos
    change ite _ _ _ = _ at h
    split at h
    · obtain rfl := some.inj h
      exact ⟨_, mem_singleton.mpr rfl, rfl⟩
    · rename_i hv
      rw [show sizeOf l v = (l.aggs v.agg).size from if_pos (not_not.mp hv)] at hpos
      split at h
      · exact absurd h (by simp)
      · rename_i t ht
        have hlaid := hl _ t ht
        split at h
        · rename_i hk
          split at h
          · exact absurd h (by simp)
          · rename_i f fs hfs
            obtain ⟨count, -, -, hsize⟩ := hlaid.array hk f (by rw [hfs]; exact mem_cons_self)
            dsimp only at h
            split at h
            · rename_i hstep
              rw [hsize, hstep, Nat.mul_zero] at hpos
              exact absurd hpos (Nat.lt_irrefl _)
            · rename_i hstep
              obtain ⟨yss, hyss, rfl⟩ := map_eq_some_iff.mp h
              -- The first element starts where the array does.
              have hfirst : 0 ∈ List.range ((l.aggs v.agg).size / sizeOf l f.type) := by
                rw [hsize] at hpos ⊢
                rw [mem_range, Nat.mul_div_cancel _ (Nat.pos_of_ne_zero hstep)]
                exact Nat.pos_of_mul_pos_right hpos
              obtain ⟨ys, hys, hsub⟩ := mapM_of_mem _ _ hyss hfirst
              rw [Nat.zero_mul, Nat.add_zero] at hsub
              obtain ⟨x, hx, hat⟩ := ih _ _ ys hsub (Nat.pos_of_ne_zero hstep)
              exact ⟨x, mem_flatten.mpr ⟨ys, hys, hx⟩, hat⟩
        · rename_i hk
          obtain ⟨yss, hyss, rfl⟩ := map_eq_some_iff.mp h
          obtain ⟨placed, hplaced, hstart⟩ := hlaid.first hk hpos
          obtain ⟨b, hb, hinfo, hmem⟩ := field_of_placed hplaced
          obtain ⟨ys, hys, hsub⟩ := mapM_of_mem _ _ hyss hmem
          unfold fieldScalars at hsub
          rw [if_neg (by rw [hstart.kept]; exact Bool.false_ne_true)] at hsub
          split at hsub
          · rename_i hbits
            obtain ⟨hsize, hoffset⟩ := hstart.plain hbits
            rw [hoffset, Nat.add_zero] at hsub
            rw [hinfo] at hsize
            obtain ⟨x, hx, hat⟩ := ih _ _ ys hsub hsize
            exact ⟨x, mem_flatten.mpr ⟨ys, hys, hx⟩, hat⟩
          · rename_i hbits
            obtain rfl := some.inj hsub
            refine ⟨_, mem_flatten.mpr ⟨_, hys, mem_singleton.mpr rfl⟩, ?_⟩
            show 8 * offset + b.pos = 8 * offset
            rw [hb, hstart.bits hbits, Nat.add_zero]

/-- The fields with their offsets, out of the fields with their places. -/
theorem zip_offsets {agg : IrAggtype} {out : Layout} (h : Laid l agg out) :
    agg.fields.zip out.offsets =
      (agg.fields.zip (out.offsets.zip out.bits)).map fun x => (x.1, x.2.1) := by
  have hfst : (out.offsets.zip out.bits).map Prod.fst = out.offsets :=
    map_fst_zip (by rw [h.offsets, h.bits])
  conv_lhs => rw [← hfst, zip_map_right]
  rfl

theorem flatten_field {n : Nat} (hok : ∀ agg ∈ l.m.aggs, aggOk agg = true)
    (ih : ∀ (v : IrVtype) (offset : Nat) (out ms : List LayoutMember),
      offset + sizeOf l v ≤ uint64Max → flatten l n v offset out = some ms →
      ∃ xs, scalars l n v offset = some xs ∧
        ms = xs.foldl (fun out x => addMember out x.start.offset x.start.type) out)
    {t : IrAggtype} (ht : t ∈ l.m.aggs) {out : Layout} (hlaid : Laid l t out)
    (hk : ¬ t.kind = .array) {offset : Nat} (hmax : offset + out.size ≤ uint64Max)
    {x : IrField × Nat × LayoutBits}
    (hx : x ∈ t.fields.zip (out.offsets.zip out.bits)) :
    ∀ acc acc' : List LayoutMember, (if isUnitBreak x.1 then some acc
        else flatten l n x.1.type (wrap64 (offset + x.2.1)) acc) = some acc' →
      ∃ ys, fieldScalars l (scalars l n) offset x.1 x.2 = some ys ∧
        acc' = ys.foldl (fun out x => addMember out x.start.offset x.start.type) acc := by
  intro acc acc' h
  obtain ⟨hf, hplaced⟩ := placed_of_field (l := l) hx
  have hwithin := hlaid.within hk _ hplaced
  unfold fieldScalars
  split at h
  · rename_i hbreak
    rw [if_pos hbreak]
    exact ⟨[], rfl, (some.inj h).symm⟩
  · rename_i hbreak
    rw [if_neg hbreak]
    have hbreak : isUnitBreak x.1 = false := by simpa using hbreak
    have hmax' := hmax
    unfold uint64Max at hmax'
    by_cases hbits : x.1.bits = 0
    · rw [if_pos hbits]
      have hend := hwithin.plain hbreak hbits
      dsimp only [infoOf] at hend
      rw [show wrap64 (offset + x.2.1) = offset + x.2.1 from
        Nat.mod_eq_of_lt (by omega)] at h
      exact ih _ _ acc acc' (by omega) h
    · -- A bitfield starts at the byte of its first bit.
      rw [if_neg hbits]
      have hend := hwithin.bits hbreak hbits
      have hbyte : x.2.1 = x.2.2.pos / 8 := hwithin.byte hbreak hbits
      dsimp only at hend
      have hstart : (8 * offset + x.2.2.pos) / 8 = offset + x.2.1 := by omega
      rw [show wrap64 (offset + x.2.1) = offset + x.2.1 from
        Nat.mod_eq_of_lt (by omega)] at h
      refine ⟨_, rfl, ?_⟩
      cases n with
      | zero => exact absurd h (by simp [flatten])
      | succ n =>
        rw [flatten, if_pos (bitfield_scalar (hok t ht) hf hbits)] at h
        obtain rfl := some.inj h
        rw [foldl_cons, foldl_nil, Scalar.start, hstart]

/-- **`flatten` records the start of every scalar**, in order. -/
theorem flatten_scalars (hok : ∀ agg ∈ l.m.aggs, aggOk agg = true) (hl : AllLaid l) :
    ∀ (n : Nat) (v : IrVtype) (offset : Nat) (out ms : List LayoutMember),
      offset + sizeOf l v ≤ uint64Max → flatten l n v offset out = some ms →
      ∃ xs, scalars l n v offset = some xs ∧
        ms = xs.foldl (fun out x => addMember out x.start.offset x.start.type) out := by
  intro n
  induction n with
  | zero =>
    intro v offset out ms _ h
    exact absurd h (by simp [flatten])
  | succ n ih =>
    intro v offset out ms hmax h
    unfold flatten at h
    split at h
    · rename_i hv
      rw [scalars_scalar hv]
      refine ⟨_, rfl, ?_⟩
      obtain rfl := some.inj h
      rw [foldl_cons, foldl_nil, Scalar.start, Nat.mul_div_cancel_left _ (by omega)]
    · rename_i hv
      rw [show sizeOf l v = (l.aggs v.agg).size from if_pos (not_not.mp hv)] at hmax
      have hwrap : ∀ k, k ≤ (l.aggs v.agg).size → wrap64 (offset + k) = offset + k := by
        intro k hk
        refine Nat.mod_eq_of_lt ?_
        unfold uint64Max at hmax
        omega
      split at h
      · exact absurd h (by simp)
      · rename_i t ht
        have hlaid := hl _ t ht
        split at h
        · rename_i hk
          split at h
          · exact absurd h (by simp)
          · rename_i f fs hfs
            rw [scalars_array hv ht hk hfs]
            dsimp only at h
            split at h
            · rename_i hstep
              rw [if_pos hstep]
              exact ⟨[], rfl, (some.inj h).symm⟩
            · rename_i hstep
              rw [if_neg hstep]
              obtain ⟨yss, hyss, rfl⟩ := foldlM_eq_foldl _ _ _ (fun i hi acc acc' hacc => by
                  have hin : (i + 1) * sizeOf l f.type ≤ (l.aggs v.agg).size :=
                    Nat.le_trans (Nat.mul_le_mul_right _ (mem_range.mp hi))
                      (Nat.div_mul_le_self _ _)
                  rw [Nat.add_mul, Nat.one_mul] at hin
                  rw [hwrap _ (by omega)] at hacc
                  exact ih _ _ acc acc' (by omega) hacc) h
              exact ⟨yss.flatten, by rw [hyss]; rfl, rfl⟩
        · rename_i hk
          rw [scalars_struct hv ht hk]
          rw [zip_offsets hlaid, foldlM_map] at h
          obtain ⟨yss, hyss, rfl⟩ := foldlM_eq_foldl _ _ _
            (fun x hx acc acc' hacc => flatten_field hok ih (mem_of_getElem? ht)
              hlaid hk hmax hx acc acc' hacc) h
          exact ⟨yss.flatten, by rw [hyss]; rfl, rfl⟩

end Where

/-! ## What is kept -/

section Kept

/-- The start of a scalar that is recorded: fewer than `layoutMemberLimit` different
    ones come before it. -/
def Kept (xs : List LayoutMember) (s : LayoutMember) : Prop :=
  ∃ pre post, xs = pre ++ s :: post ∧ s ∉ pre ∧ pre.toFinset.card < layoutMemberLimit

variable {xs : List LayoutMember} {s : LayoutMember}

theorem kept_of_mem (hs : s ∈ xs) (h : xs.toFinset.card < layoutMemberLimit) :
    Kept xs s := by
  obtain ⟨pre, post, rfl, hnot⟩ := eq_append_cons_of_mem hs
  refine ⟨pre, post, rfl, hnot, Nat.lt_of_le_of_lt (Finset.card_le_card ?_) h⟩
  intro x hx
  rw [List.mem_toFinset] at hx ⊢
  exact mem_append_left _ hx

theorem Kept.mem (h : Kept xs s) : s ∈ xs := by
  obtain ⟨pre, post, rfl, -⟩ := h
  exact mem_append_right _ mem_cons_self

theorem kept_concat {a : LayoutMember} : Kept (xs ++ [a]) s ↔
      Kept xs s ∨ (s = a ∧ a ∉ xs ∧ xs.toFinset.card < layoutMemberLimit) := by
  constructor
  · rintro ⟨pre, post, heq, hnot, hcard⟩
    cases post using List.reverseRecOn with
    | nil =>
      obtain ⟨rfl, h⟩ := append_inj' heq rfl
      obtain rfl := singleton_inj.mp h
      exact .inr ⟨rfl, hnot, hcard⟩
    | append_singleton post b _ =>
      rw [← cons_append, ← append_assoc] at heq
      obtain ⟨rfl, -⟩ := append_inj' heq rfl
      exact .inl ⟨pre, post, rfl, hnot, hcard⟩
  · rintro (⟨pre, post, rfl, hnot, hcard⟩ | ⟨rfl, hnot, hcard⟩)
    · exact ⟨pre, post ++ [a], by rw [append_assoc, cons_append], hnot, hcard⟩
    · exact ⟨xs, [], rfl, hnot, hcard⟩

/-- Record a list of scalars. -/
def record (xs : List LayoutMember) : List LayoutMember :=
  xs.foldl (fun out s => addMember out s.offset s.type) []

theorem addMember_eq (out : List LayoutMember) (s : LayoutMember) : addMember out s.offset s.type =
      if s ∈ out then out
      else if out.length < layoutMemberLimit then out ++ [s] else out := by
  have hany : (out.any fun x => decide (x.offset = s.offset ∧ x.type = s.type)) = true ↔
      s ∈ out := by
    rw [List.any_eq_true]
    constructor
    · rintro ⟨x, hx, heq⟩
      obtain ⟨h1, h2⟩ := of_decide_eq_true heq
      cases x
      cases s
      dsimp only at h1 h2
      rwa [h1, h2] at hx
    · intro hs
      exact ⟨s, hs, decide_eq_true ⟨rfl, rfl⟩⟩
  unfold addMember
  by_cases hs : s ∈ out
  · rw [if_pos hs, if_pos (hany.mpr hs)]
  · rw [if_neg hs, if_neg (fun h => hs (hany.mp h))]

/-- **The members are the scalars that are kept**: each once, up to the limit. -/
theorem record_kept (xs : List LayoutMember) :
    (record xs).length = min layoutMemberLimit xs.toFinset.card ∧
      ∀ s, s ∈ record xs ↔ Kept xs s := by
  induction xs using List.reverseRecOn with
  | nil => refine ⟨rfl, fun s => ⟨fun h => absurd h not_mem_nil, fun h => absurd h.mem not_mem_nil⟩⟩
  | append_singleton xs a ih =>
    obtain ⟨hlen, hmem⟩ := ih
    have hrec : record (xs ++ [a]) = addMember (record xs) a.offset a.type := by
      rw [record, foldl_append]
      rfl
    have hunion : (xs ++ [a]).toFinset = insert a xs.toFinset := by
      rw [toFinset_append, toFinset_cons, toFinset_nil,
        insert_empty_eq, Finset.union_comm, Finset.insert_eq]
    rw [hrec, addMember_eq, hunion]
    by_cases ha : a ∈ record xs
    · -- Recorded already.
      have hold : a ∈ xs := ((hmem a).mp ha).mem
      rw [if_pos ha, Finset.insert_eq_of_mem (List.mem_toFinset.mpr hold)]
      refine ⟨hlen, fun s => ?_⟩
      rw [kept_concat, hmem]
      exact ⟨.inl, fun h => h.elim id fun h => absurd hold h.2.1⟩
    · rw [if_neg ha]
      by_cases hroom : (record xs).length < layoutMemberLimit
      · have hcard : xs.toFinset.card < layoutMemberLimit := by omega
        have hnew : a ∉ xs := fun hold => ha ((hmem a).mpr (kept_of_mem hold hcard))
        rw [if_pos hroom, Finset.card_insert_of_notMem (by rwa [List.mem_toFinset]),
          length_append, length_singleton]
        refine ⟨by omega, fun s => ?_⟩
        rw [kept_concat, mem_append, hmem, mem_singleton]
        exact or_congr_right ⟨fun h => ⟨h, hnew, hcard⟩, fun h => h.1⟩
      · have hfull : ¬ xs.toFinset.card < layoutMemberLimit := by omega
        have hgrow := Finset.card_le_card (Finset.subset_insert a xs.toFinset)
        rw [if_neg hroom]
        refine ⟨by omega, fun s => ?_⟩
        rw [kept_concat, hmem]
        exact ⟨.inl, fun h => h.elim id fun h => absurd h.2.2 hfull⟩

/-- The members of an aggregate of a module that the layout accepts: the scalars of
    the aggregate that are kept. -/
theorem members_kept {fuel : Nat} {t : Target} {m : IrModule} {l : Layouts}
    (hok : ∀ agg ∈ m.aggs, aggOk agg = true) (h : layoutInit fuel t m = some l)
    (hf : l.failed = false) {i : Nat} (hi : i < m.aggs.length)
    (hsize : (l.aggs i).size ≤ layoutMemberLimit) :
    AllLaid l ∧ ∃ n xs, scalars l n (irAggregate i) 0 = some xs ∧
      ∀ s, s ∈ (l.aggs i).members ↔ Kept (xs.map Scalar.start) s := by
  obtain ⟨hc, hdone⟩ := layoutInit_calls hok h
  have hm : l.m = m := hc.ext.m
  have hl : AllLaid l := by
    intro j agg hj
    rw [hm] at hj
    exact layoutInit_laid hok h hf hj
  obtain ⟨n, hn⟩ := hc.tables.members hf i (hdone hf i hi) hsize
  have hmax : 0 + sizeOf l (irAggregate i) ≤ uint64Max := by
    show 0 + (l.aggs i).size ≤ uint64Max
    unfold layoutMemberLimit at hsize
    unfold uint64Max
    omega
  obtain ⟨xs, hxs, hms⟩ :=
    flatten_scalars (by rw [hm]; exact hok) hl n (irAggregate i) 0 [] _ hmax hn
  refine ⟨hl, n, xs, hxs, ?_⟩
  intro s
  rw [hms, ← (record_kept _).2 s, record, foldl_map]

end Kept

end AnticLayout
