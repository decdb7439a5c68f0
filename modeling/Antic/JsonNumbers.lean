import Antic.JsonTokens
import Mathlib

/-! # The numbers of the JSON scanner

    `anti_rt_json_number` takes the bytes that may form a number, `anti_rt_json_valid_number`
    accepts exactly the numbers of the grammar, and `magnitude_of` gives the value of one without a
    fraction and an exponent where it is within its limit. -/

namespace AnticJson

open Contracts List Option

-- ── Bytes that stop a loop ────

/-- No byte that `p` holds of comes next. -/
def Ends (p : UInt8 → Bool) (s : Bytes) : Prop := ∀ c t, s = c :: t → p c = false

theorem ends_nil (p : UInt8 → Bool) : Ends p [] := by
  intro c t h
  cases h

variable {p : UInt8 → Bool} {s t : Bytes} {c : UInt8} {limit magnitude : UInt64}

theorem Ends.append (hs : Ends p s) (ht : Ends p t) : Ends p (s ++ t) := by
  cases s with
  | nil => exact ht
  | cons c s =>
    intro d u h
    cases h
    exact hs _ _ rfl

theorem dropWhile_of_ends (h : Ends p s) : s.dropWhile p = s := by
  cases s with
  | nil => rfl
  | cons c s => exact dropWhile_cons_of_neg (by simp [h c s rfl])

theorem dropWhile_append (hs : ∀ c ∈ s, p c = true) (ht : Ends p t) : (s ++ t).dropWhile p = t := by
  rw [dropWhile_append_of_pos hs, dropWhile_of_ends ht]

-- ── The bytes of a number ────

theorem jsonNumber_eq (s : Bytes) : jsonNumber s =
    .ok (0 < ((skipWs s).takeWhile isNumberByte).length, (skipWs s).takeWhile isNumberByte,
      (skipWs s).dropWhile isNumberByte) := by
  have hsplit := takeWhile_append_dropWhile (p := isNumberByte) (l := skipWs s)
  have hlen : ((skipWs s).takeWhile isNumberByte).length
      = (skipWs s).length - ((skipWs s).dropWhile isNumberByte).length := by
    conv => rhs; rw [← hsplit]
    rw [length_append, hsplit, Nat.add_sub_cancel]
  rw [jsonNumber, jsonSpace_eq]
  simp only [bind, Except.bind]
  rw [whileLoop_eq _ (Nat.lt_succ_self _)]
  dsimp only
  rw [← hlen, readMany_eq (by rw [hlen]; exact Nat.sub_le _ _)]
  have htake : (skipWs s).take ((skipWs s).takeWhile isNumberByte).length
      = (skipWs s).takeWhile isNumberByte :=
    (prefix_iff_eq_take.mp (List.takeWhile_prefix _)).symm
  rw [htake]
  rfl

/-- A number is taken whole where no byte of a number comes behind it. -/
theorem jsonNumber_complete {p : Bytes} (hp : ∀ c ∈ p, isNumberByte c = true) (hne : p ≠ [])
    (hws : skipWs (p ++ t) = p ++ t) (ht : Ends isNumberByte t) :
    jsonNumber (p ++ t) = .ok (true, p, t) := by
  have htake : (p ++ t).takeWhile isNumberByte = p := by
    rw [takeWhile_append_of_pos hp]
    cases t with
    | nil => simp
    | cons c t => rw [takeWhile_cons_of_neg (by simp [ht c t rfl]), append_nil]
  rw [jsonNumber_eq, hws, htake, dropWhile_append hp ht]
  simp only [length_pos_iff.mpr hne, decide_true]

-- ── The grammar of a number ────

theorem nextIs_eq (p : UInt8 → Bool) (s : Bytes) : nextIs p s = .ok (s.head?.any p) := by
  cases s with
  | nil => rfl
  | cons c s => rfl

theorem digits_eq (p : Bytes) :
    digits p = .ok ((p.dropWhile isDigit).length < p.length, p.dropWhile isDigit) := by
  rw [digits, whileLoop_eq _ (Nat.lt_succ_self _)]
  rfl

theorem digits_runs (s : Bytes) : Runs (digits s) fun x =>
    x.1 = true → ∃ i, Digits i ∧ s = i ++ x.2 := by
  rw [digits_eq]
  refine Gives.pure ?_
  intro h
  have hsplit := takeWhile_append_dropWhile (p := isDigit) (l := s)
  refine ⟨s.takeWhile isDigit, ⟨?_, fun c hc => mem_takeWhile_imp hc⟩, hsplit.symm⟩
  intro hnil
  rw [hnil, nil_append] at hsplit
  rw [hsplit] at h
  exact absurd (of_decide_eq_true h) (Nat.lt_irrefl _)

theorem digits_complete {i : Bytes} (hi : Digits i) (hs : Ends isDigit s) :
    digits (i ++ s) = .ok (true, s) := by
  have hpos : s.length < (i ++ s).length := by
    rw [length_append]
    exact Nat.lt_add_of_pos_left (length_pos_iff.mpr hi.some)
  rw [digits_eq, dropWhile_append hi.digits hs, decide_eq_true hpos]

theorem head?_any (h : s.head?.any p = true) : ∃ c t, s = c :: t ∧ p c = true := by
  cases s with
  | nil => cases h
  | cons c t => exact ⟨c, t, rfl, h⟩

theorem Ends.head? (h : Ends p s) : s.head?.any p = false := by
  cases s with
  | nil => rfl
  | cons c s => exact h c s rfl

theorem validInt_runs (s : Bytes) : Runs (validInt s) fun x =>
    x.1 = true → ∃ i, IntPart i ∧ s = i ++ x.2 := by
  rw [validInt, nextIs_eq]
  refine Gives.ite ?_ ?_
  · intro h
    obtain ⟨c, t, rfl, hc⟩ := head?_any h
    rw [beq_iff_eq] at hc
    subst hc
    exact Gives.pure fun _ => ⟨[zero], .zero, rfl⟩
  · intro h
    refine Gives.weaken (digits_runs s) ?_
    intro x hx hok
    obtain ⟨i, hi, hs⟩ := hx hok
    refine ⟨i, .digits hi ?_, hs⟩
    intro hzero
    obtain ⟨t, rfl⟩ := head?_eq_some_iff.mp hzero
    rw [hs] at h
    exact h rfl

theorem validInt_complete {i : Bytes} (hi : IntPart i) (hs : Ends isDigit s) :
    validInt (i ++ s) = .ok (true, s) := by
  rw [validInt, nextIs_eq]
  cases hi with
  | zero => rfl
  | digits hd hzero =>
    have hhead : (i ++ s).head?.any (· == zero) = false := by
      cases i with
      | nil => exact absurd rfl hd.some
      | cons c i =>
        have hne : c ≠ zero := fun h => hzero (by rw [h, head?_cons])
        simpa using hne
    simp only [hhead]
    exact digits_complete hd hs

theorem validFrac_runs (s : Bytes) : Runs (validFrac s) fun x =>
    x.1 = true → ∃ f, FracPart f ∧ s = f ++ x.2 := by
  rw [validFrac, nextIs_eq]
  refine Gives.ite ?_ ?_
  · intro h
    obtain ⟨c, t, rfl, hc⟩ := head?_any h
    rw [beq_iff_eq] at hc
    subst hc
    refine Gives.weaken (digits_runs t) ?_
    intro x hx hok
    obtain ⟨i, hi, ht⟩ := hx hok
    exact ⟨point :: i, .yes hi, by rw [ht]; rfl⟩
  · intro
    exact Gives.pure fun _ => ⟨[], .no, rfl⟩

theorem validFrac_complete {f : Bytes} (hf : FracPart f) (hs : Ends isDigit s)
    (hpoint : Ends (· == point) s) : validFrac (f ++ s) = .ok (true, s) := by
  rw [validFrac, nextIs_eq]
  cases hf with
  | no =>
    rw [nil_append, hpoint.head?]
    rfl
  | yes hd => exact digits_complete hd hs

theorem validExp_runs (s : Bytes) : Runs (validExp s) fun x =>
    x.1 = true → ∃ e, ExpPart e ∧ s = e ++ x.2 := by
  rw [validExp, nextIs_eq]
  refine Gives.ite ?_ ?_
  · intro h
    obtain ⟨c, t, rfl, hc⟩ := head?_any h
    rw [past, tail_cons, nextIs_eq]
    refine Gives.ite ?_ ?_
    · intro h
      obtain ⟨g, u, rfl, hg⟩ := head?_any h
      rw [Bool.or_eq_true, beq_iff_eq, beq_iff_eq] at hg
      refine Gives.weaken (digits_runs u) ?_
      intro x hx hok
      obtain ⟨i, hi, hu⟩ := hx hok
      exact ⟨c :: g :: i, .signed hc hg hi, by rw [hu]; rfl⟩
    · intro
      refine Gives.weaken (digits_runs t) ?_
      intro x hx hok
      obtain ⟨i, hi, ht⟩ := hx hok
      exact ⟨c :: i, .unsigned hc hi, by rw [ht]; rfl⟩
  · intro
    exact Gives.pure fun _ => ⟨[], .no, rfl⟩

theorem not_sign (h : isDigit c = true) :
    c ≠ plusSign ∧ c ≠ minusSign ∧ c ≠ point ∧ isExp c = false := by
  refine ⟨?_, ?_, ?_, ?_⟩
  · rintro rfl
    cases h
  · rintro rfl
    cases h
  · rintro rfl
    cases h
  · cases he : isExp c with
    | false => rfl
    | true =>
      rw [isExp, Bool.or_eq_true, beq_iff_eq, beq_iff_eq] at he
      obtain rfl | rfl := he <;> cases h

theorem validExp_complete {e : Bytes} (he : ExpPart e) : validExp e = .ok (true, []) := by
  rw [validExp, nextIs_eq]
  cases he with
  | no => rfl
  | @unsigned c t hc hd =>
    have hsign : t.head?.any (fun c => c == plusSign || c == minusSign) = false := by
      cases t with
      | nil => rfl
      | cons d t =>
        obtain ⟨hplus, hminus, -, -⟩ := not_sign (hd.digits d mem_cons_self)
        simp [hplus, hminus]
    have hdigits := digits_complete hd (ends_nil isDigit)
    rw [append_nil] at hdigits
    rw [past, tail_cons, nextIs_eq, hsign]
    simp only [bind, Except.bind, head?_cons, any_some, hc, if_true]
    exact hdigits
  | @signed c g t hc hg hd =>
    have hsign : (g == plusSign || g == minusSign) = true := by
      rw [Bool.or_eq_true, beq_iff_eq, beq_iff_eq]
      exact hg
    have hdigits := digits_complete hd (ends_nil isDigit)
    rw [append_nil] at hdigits
    rw [past, tail_cons, nextIs_eq]
    simp only [bind, Except.bind, head?_cons, any_some, hc, hsign, if_true]
    exact hdigits

-- ── Valid numbers ────

theorem ends_cons (h : p c = false) (s : Bytes) : Ends p (c :: s) := by
  intro d t hs
  cases hs
  exact h

theorem FracPart.ends {f : Bytes} (h : FracPart f) : Ends isDigit f := by
  cases h with
  | no => exact ends_nil _
  | yes => exact ends_cons rfl _

theorem ExpPart.ends {e : Bytes} (h : ExpPart e) : Ends isDigit e ∧ Ends (· == point) e := by
  have hexp : ∀ {c : UInt8}, isExp c = true → isDigit c = false ∧ (c == point) = false := by
    intro c hc
    rw [isExp, Bool.or_eq_true, beq_iff_eq, beq_iff_eq] at hc
    obtain rfl | rfl := hc <;> exact ⟨rfl, rfl⟩
  cases h with
  | no => exact ⟨ends_nil _, ends_nil _⟩
  | unsigned hc | signed hc =>
    exact ⟨ends_cons (hexp hc).1 _, ends_cons (p := (· == point)) (hexp hc).2 _⟩

/-- The parts of a number behind its sign. -/
def PartsText (t : Bytes) : Prop := ∃ i f e, IntPart i ∧ FracPart f ∧ ExpPart e ∧ t = i ++ (f ++ e)

theorem validParts_runs (s : Bytes) :
    Runs (andThen (andThen (validInt s) validFrac) validExp) fun x =>
      (x.1 && !more x.2) = true → PartsText s := by
  have hno : ∀ t : Bytes, (false && !more t) = true → PartsText s := by
    intro t h
    cases h
  have hint : Runs (andThen (validInt s) validFrac) fun x =>
      x.1 = true → ∃ i f, IntPart i ∧ FracPart f ∧ s = i ++ (f ++ x.2) := by
    refine andThen_runs (validInt_runs s) ?_ (fun t h => by cases h)
    intro t ht
    obtain ⟨i, hi, rfl⟩ := ht rfl
    refine Gives.weaken (validFrac_runs t) ?_
    intro x hx hok
    obtain ⟨f, hf, rfl⟩ := hx hok
    exact ⟨i, f, hi, hf, rfl⟩
  refine andThen_runs hint ?_ hno
  intro t ht
  obtain ⟨i, f, hi, hf, rfl⟩ := ht rfl
  refine Gives.weaken (validExp_runs t) ?_
  rintro ⟨ok, u⟩ hx hend
  rw [Bool.and_eq_true, Bool.not_eq_true', more_eq_false] at hend
  obtain ⟨hok, rfl⟩ := hend
  obtain ⟨e, he, rfl⟩ := hx hok
  exact ⟨i, f, e, hi, hf, he, by rw [append_nil]⟩

theorem validParts_complete (h : PartsText s) :
    andThen (andThen (validInt s) validFrac) validExp = .ok (true, []) := by
  obtain ⟨i, f, e, hi, hf, he, rfl⟩ := h
  obtain ⟨hdigit, hpoint⟩ := he.ends
  rw [validInt_complete hi (hf.ends.append hdigit), andThen_ok,
    validFrac_complete hf hdigit hpoint, andThen_ok, validExp_complete he]

theorem IntPart.head? {i : Bytes} (hi : IntPart i) : ∃ c t, i = c :: t ∧ isDigit c = true := by
  cases hi with
  | zero => exact ⟨AnticJson.zero, [], rfl, rfl⟩
  | digits hd =>
    cases i with
    | nil => exact absurd rfl hd.some
    | cons c t => exact ⟨c, t, rfl, hd.digits c mem_cons_self⟩

/-- What `p` is behind a sign. -/
def unsigned (p : Bytes) : Bytes := if p.head? = some minusSign then p.tail else p

theorem unsigned_digit (hc : isDigit c = true) (t : Bytes) : unsigned (c :: t) = c :: t := by
  rw [unsigned, if_neg]
  rw [head?_cons, some_inj]
  exact (not_sign hc).2.1

theorem numberText_iff {p : Bytes} : NumberText p ↔ PartsText (unsigned p) := by
  constructor
  · rintro ⟨m, i, f, e, hm, hi, hf, he, rfl⟩
    cases hm with
    | no =>
      obtain ⟨c, t, rfl, hc⟩ := hi.head?
      rw [nil_append, cons_append, unsigned_digit hc]
      exact ⟨c :: t, f, e, hi, hf, he, rfl⟩
    | yes => exact ⟨i, f, e, hi, hf, he, rfl⟩
  · rintro ⟨i, f, e, hi, hf, he, hp⟩
    rw [unsigned] at hp
    split at hp
    · rename_i h
      obtain ⟨t, rfl⟩ := head?_eq_some_iff.mp h
      rw [tail_cons] at hp
      exact ⟨[minusSign], i, f, e, .yes, hi, hf, he, by rw [hp]; rfl⟩
    · exact ⟨[], i, f, e, .no, hi, hf, he, hp⟩

theorem unsigned_cons (c : UInt8) (t : Bytes) :
    unsigned (c :: t) = if c == minusSign then past (c :: t) else c :: t := by
  rw [unsigned, head?_cons]
  simp only [some_inj, beq_iff_eq]
  rfl

/-- **`anti_rt_json_valid_number`** accepts exactly the numbers of the grammar. -/
theorem validNumber_runs (p : Bytes) : Runs (validNumber p) fun ok =>
    ok = true ↔ NumberText p := by
  rw [numberText_iff, validNumber]
  cases p with
  | nil =>
    refine Gives.pure ⟨fun h => (by cases h), ?_⟩
    rintro ⟨i, f, e, hi, -, -, hp⟩
    obtain ⟨c, t, rfl, -⟩ := hi.head?
    cases hp
  | cons c t =>
    have hlen : ¬ (c :: t).length ≤ 0 := Nat.not_succ_le_zero _
    rw [if_neg hlen, read_cons]
    simp only [bind, Except.bind]
    rw [← unsigned_cons]
    by_cases hparts : PartsText (unsigned (c :: t))
    · rw [validParts_complete hparts]
      exact Gives.pure ⟨fun _ => hparts, fun _ => rfl⟩
    · refine Gives.bind (validParts_runs _) ?_
      intro x hx
      exact Gives.pure ⟨hx, fun h => absurd h hparts⟩

theorem isNumberByte_digit (h : isDigit c = true) : isNumberByte c = true := by
  rw [isNumberByte, h]
  rfl

theorem isNumberByte_exp (h : isExp c = true) : isNumberByte c = true := by
  rw [isNumberByte, h, Bool.or_true]

theorem NumberText.bytes {p : Bytes} (h : NumberText p) :
    p ≠ [] ∧ ∀ c ∈ p, isNumberByte c = true := by
  obtain ⟨m, i, f, e, hm, hi, hf, he, rfl⟩ := h
  refine ⟨?_, ?_⟩
  · obtain ⟨c, t, rfl, -⟩ := hi.head?
    simp
  · have hdigits : ∀ {t : Bytes}, Digits t → ∀ c ∈ t, isNumberByte c = true := by
      intro t ht c hc
      exact isNumberByte_digit (ht.digits c hc)
    intro c hc
    rw [mem_append, mem_append, mem_append] at hc
    rcases hc with hc | hc | hc | hc
    · cases hm with
      | no => cases hc
      | yes =>
        obtain rfl := mem_singleton.mp hc
        rfl
    · cases hi with
      | zero =>
        obtain rfl := mem_singleton.mp hc
        rfl
      | digits hd => exact hdigits hd c hc
    · cases hf with
      | no => cases hc
      | yes hd =>
        rw [mem_cons] at hc
        rcases hc with rfl | hc
        · rfl
        · exact hdigits hd c hc
    · cases he with
      | no => cases hc
      | unsigned hexp hd =>
        rw [mem_cons] at hc
        rcases hc with rfl | hc
        · exact isNumberByte_exp hexp
        · exact hdigits hd c hc
      | signed hexp hsign hd =>
        rw [mem_cons, mem_cons] at hc
        rcases hc with rfl | rfl | hc
        · exact isNumberByte_exp hexp
        · obtain rfl | rfl := hsign <;> rfl
        · exact hdigits hd c hc

-- ── Values ────

/-- The value of digits behind a value. -/
def valueFrom (v : Nat) (t : Bytes) : Nat := t.foldl (fun v c => v * 10 + (c.toNat - 48)) v

theorem le_valueFrom (v : Nat) (t : Bytes) : v ≤ valueFrom v t := by
  induction t generalizing v with
  | nil => exact Nat.le_refl _
  | cons c t ih =>
    have hstep : v ≤ v * 10 + (c.toNat - 48) := by omega
    exact Nat.le_trans hstep (ih _)

theorem isDigit_iff (c : UInt8) : isDigit c = true ↔ ¬ (c < 48 || 57 < c) = true := by
  rw [isDigit, Bool.and_eq_true, decide_eq_true_eq, decide_eq_true_eq, Bool.or_eq_true,
    decide_eq_true_eq, decide_eq_true_eq, not_or, UInt8.not_lt, UInt8.not_lt]

/-- **The test of the limit is exact**: `(limit - d) / 10` is below the magnitude exactly
    where the next magnitude is beyond the limit. -/
theorem beyond_iff (hlimit : 9 ≤ limit.toNat) (hc : isDigit c = true) :
    (limit - (c - 48).toUInt64) / 10 < magnitude ↔
      limit.toNat < magnitude.toNat * 10 + (c.toNat - 48) := by
  have hd : (c - 48).toUInt64.toNat = c.toNat - 48 ∧ c.toNat - 48 ≤ 9 := by
    rw [isDigit, Bool.and_eq_true, decide_eq_true_eq, decide_eq_true_eq] at hc
    have hle : c.toNat ≤ 57 := UInt8.le_iff_toNat_le.mp hc.2
    refine ⟨?_, by omega⟩
    rw [UInt8.toNat_toUInt64, UInt8.toNat_sub_of_le _ _ hc.1]
    rfl
  have hsub : (limit - (c - 48).toUInt64).toNat = limit.toNat - (c.toNat - 48) := by
    rw [UInt64.toNat_sub_of_le, hd.1]
    rw [UInt64.le_iff_toNat_le, hd.1]
    exact Nat.le_trans hd.2 hlimit
  rw [UInt64.lt_iff_toNat_lt, UInt64.toNat_div, hsub]
  have hten : (10 : UInt64).toNat = 10 := rfl
  rw [hten]
  omega

theorem next_toNat (hc : isDigit c = true)
    (h : magnitude.toNat * 10 + (c.toNat - 48) ≤ limit.toNat) :
    (magnitude * 10 + (c - 48).toUInt64).toNat = magnitude.toNat * 10 + (c.toNat - 48) := by
  have hd : (c - 48).toUInt64.toNat = c.toNat - 48 := by
    rw [isDigit, Bool.and_eq_true, decide_eq_true_eq, decide_eq_true_eq] at hc
    rw [UInt8.toNat_toUInt64, UInt8.toNat_sub_of_le _ _ hc.1]
    rfl
  have hlt := limit.toNat_lt
  have hten : (10 : UInt64).toNat = 10 := rfl
  rw [UInt64.toNat_add, UInt64.toNat_mul, hd, hten]
  omega

theorem magnitudeLoop_eq_some {v : UInt64} (hlimit : 9 ≤ limit.toNat) :
    magnitudeLoop limit magnitude s = some v ↔ (∀ c ∈ s, isDigit c = true) ∧
      (s ≠ [] → valueFrom magnitude.toNat s ≤ limit.toNat) ∧
      v.toNat = valueFrom magnitude.toNat s := by
  induction s generalizing magnitude with
  | nil =>
    rw [magnitudeLoop, some_inj, ← UInt64.toNat_inj]
    constructor
    · intro h
      exact ⟨fun c hc => (by cases hc), fun h => absurd rfl h, h.symm⟩
    · rintro ⟨-, -, h⟩
      exact h.symm
  | cons c s ih =>
    rw [magnitudeLoop]
    split
    · rename_i hc
      constructor
      · intro h
        cases h
      · rintro ⟨hall, -⟩
        exact absurd hc ((isDigit_iff c).mp (hall c mem_cons_self))
    · rename_i hc
      have hdigit := (isDigit_iff c).mpr hc
      dsimp only
      split
      · rename_i hbeyond
        rw [beyond_iff hlimit hdigit] at hbeyond
        constructor
        · intro h
          cases h
        · rintro ⟨-, hle, -⟩
          have hfrom := le_valueFrom (magnitude.toNat * 10 + (c.toNat - 48)) s
          exact absurd (Nat.le_trans hfrom (hle (cons_ne_nil _ _))) (Nat.not_le.mpr hbeyond)
      · rename_i hbeyond
        rw [beyond_iff hlimit hdigit, Nat.not_lt] at hbeyond
        rw [ih, next_toNat hdigit hbeyond, forall_mem_cons]
        constructor
        · rintro ⟨hall, hle, hv⟩
          refine ⟨⟨hdigit, hall⟩, ?_, hv⟩
          intro
          cases s with
          | nil => exact hbeyond
          | cons => exact hle (cons_ne_nil _ _)
        · rintro ⟨⟨-, hall⟩, hle, hv⟩
          exact ⟨hall, fun _ => hle (cons_ne_nil _ _), hv⟩

theorem PartsText.intPart (h : PartsText t) (hall : ∀ c ∈ t, isDigit c = true) :
    IntPart t := by
  obtain ⟨i, f, e, hi, hf, he, rfl⟩ := h
  have hf' : f = [] := by
    cases hf with
    | no => rfl
    | yes =>
      have hpoint := hall point (by simp)
      cases hpoint
  have he' : e = [] := by
    cases he with
    | no => rfl
    | @unsigned c t hexp | @signed c g t hexp =>
      have hdigit := hall c (by simp)
      rw [(not_sign hdigit).2.2.2] at hexp
      cases hexp
  rw [hf', he', append_nil, append_nil]
  exact hi

theorem IntPart.parts (h : IntPart t) : PartsText t := by
  refine ⟨t, [], [], h, .no, .no, ?_⟩
  rw [append_nil, append_nil]

theorem IntPart.all_digits (h : IntPart t) : ∀ c ∈ t, isDigit c = true := by
  intro c hc
  cases h with
  | zero =>
    obtain rfl := mem_singleton.mp hc
    rfl
  | digits hd => exact hd.digits c hc

/-- **`magnitude_of`** gives the digits' value exactly where it is within the limit. -/
theorem magnitudeOf_runs (p : Bytes) (hlimit : 9 ≤ limit.toNat) :
    Runs (magnitudeOf p limit) fun o => ∀ w, (∃ v, o = some v ∧ v.toNat = w) ↔
      IntPart (unsigned p) ∧ digitsValue (unsigned p) = w ∧ w ≤ limit.toNat := by
  rw [magnitudeOf]
  refine Gives.bind (validNumber_runs p) ?_
  intro ok hok
  refine Gives.ite ?_ ?_
  · intro htrue
    have hnumber := hok.mp htrue
    have hparts := numberText_iff.mp hnumber
    cases p with
    | nil => exact absurd rfl hnumber.bytes.1
    | cons c t =>
      rw [read_cons]
      refine Gives.pure ?_
      intro w
      rw [← unsigned_cons]
      simp only [magnitudeLoop_eq_some hlimit]
      constructor
      · rintro ⟨v, ⟨hall, hle, hv⟩, rfl⟩
        have hi := hparts.intPart hall
        obtain ⟨d, u, hd, -⟩ := hi.head?
        have hne : unsigned (c :: t) ≠ [] := by
          rw [hd]
          exact cons_ne_nil d u
        exact ⟨hi, hv.symm, by rw [hv]; exact hle hne⟩
      · rintro ⟨hi, rfl, hle⟩
        have hlt := Nat.lt_of_le_of_lt hle limit.toNat_lt
        have hv := UInt64.toNat_ofNat_of_lt' hlt
        exact ⟨UInt64.ofNat _, ⟨hi.all_digits, fun _ => hle, hv⟩, hv⟩
  · intro hfalse
    refine Gives.pure ?_
    intro w
    constructor
    · rintro ⟨v, hv, -⟩
      cases hv
    · rintro ⟨hi, -⟩
      exact absurd (hok.mpr (numberText_iff.mpr hi.parts)) hfalse

theorem integerText_iff {p : Bytes} {v : Int} : IntegerText p v ↔ IntPart (unsigned p) ∧
    v = if p.head? = some minusSign then -(digitsValue (unsigned p) : Int)
      else (digitsValue (unsigned p) : Int) := by
  constructor
  · rintro ⟨m, i, hm, hi, rfl, hv⟩
    cases hm with
    | no =>
      obtain ⟨c, t, rfl, hc⟩ := hi.head?
      have hne : ([] ++ c :: t).head? ≠ some minusSign := by
        rw [nil_append, head?_cons, some_inj.ne]
        exact (not_sign hc).2.1
      rw [if_neg hne, nil_append, unsigned_digit hc]
      exact ⟨hi, hv⟩
    | yes => exact ⟨hi, hv⟩
  · rintro ⟨hi, hv⟩
    split at hv
    · rename_i h
      obtain ⟨t, rfl⟩ := head?_eq_some_iff.mp h
      exact ⟨[minusSign], t, .yes, hi, rfl, hv⟩
    · rename_i h
      rw [unsigned, if_neg h] at hi hv
      exact ⟨[], p, .no, hi, rfl, hv⟩

/-- A magnitude with its sign. -/
def signed (negative : Bool) (magnitude : Nat) : Int :=
  if negative then -(magnitude : Int) else magnitude

/-- The greatest magnitude of such a sign. -/
def maxMagnitude (negative : Bool) : UInt64 := if negative then int64Max + 1 else int64Max

theorem maxMagnitude_toNat (negative : Bool) :
    (maxMagnitude negative).toNat = if negative then 2 ^ 63 else 2 ^ 63 - 1 := by
  cases negative <;> rfl

theorem jsonInteger_eq (p : Bytes) : jsonInteger p = (do
      let o ← magnitudeOf p (maxMagnitude (p.head? == some minusSign))
      return o.map fun m => signed (p.head? == some minusSign) m.toNat) := by
  rw [jsonInteger, maxMagnitude]
  congr 1
  funext o
  cases o with
  | none => rfl
  | some m =>
    cases p.head? == some minusSign with
    | false => rfl
    | true =>
      by_cases hm : m = int64Max + 1
      · rw [hm]
        rfl
      · have hbeq : (m == int64Max + 1) = false := beq_eq_false_iff_ne.mpr hm
        simp only [hbeq]
        rfl

/-- **`anti_rt_json_integer`** gives the value of every integer from `INT64_MIN` to
    `INT64_MAX`, and refuses every other text. -/
theorem jsonInteger_runs (p : Bytes) : Runs (jsonInteger p) fun o => ∀ v, o = some v ↔
    IntegerText p v ∧ -(2 ^ 63) ≤ v ∧ v < 2 ^ 63 := by
  have hmax := maxMagnitude_toNat (p.head? == some minusSign)
  have hlimit : 9 ≤ (maxMagnitude (p.head? == some minusSign)).toNat := by
    rw [hmax]
    split <;> decide
  rw [jsonInteger_eq]
  refine Gives.bind (magnitudeOf_runs p hlimit) ?_
  intro o ho
  refine Gives.pure ?_
  intro v
  have hbounds : ∀ w : Nat, w ≤ (maxMagnitude (p.head? == some minusSign)).toNat ↔
      -(2 ^ 63) ≤ signed (p.head? == some minusSign) w ∧
        signed (p.head? == some minusSign) w < 2 ^ 63 := by
    intro w
    rw [hmax, signed]
    cases p.head? == some minusSign <;> simp <;> omega
  have hvalue : IntegerText p v ↔ IntPart (unsigned p) ∧
      v = signed (p.head? == some minusSign) (digitsValue (unsigned p)) := by
    rw [integerText_iff, signed]
    simp only [beq_iff_eq]
  rw [hvalue, map_eq_some_iff]
  constructor
  · rintro ⟨m, rfl, rfl⟩
    obtain ⟨hi, hm, hle⟩ := (ho _).mp ⟨m, rfl, rfl⟩
    rw [hm]
    exact ⟨⟨hi, rfl⟩, (hbounds _).mp hle⟩
  · rintro ⟨⟨hi, rfl⟩, hrange⟩
    obtain ⟨m, hm, hw⟩ := (ho _).mpr ⟨hi, rfl, (hbounds _).mpr hrange⟩
    exact ⟨m, hm, by rw [hw]⟩

/-- **`anti_rt_json_unsigned`** gives the value of every integer from 0 to `UINT64_MAX`,
    and refuses every other text. -/
theorem jsonUnsigned_runs (p : Bytes) : Runs (jsonUnsigned p) fun o => ∀ v, o = some v ↔
    IntegerText p v.toNat := by
  rw [jsonUnsigned]
  refine Gives.bind (magnitudeOf_runs p (by decide)) ?_
  intro o ho
  cases o with
  | none =>
    refine Gives.pure ?_
    intro v
    rw [integerText_iff]
    constructor
    · intro h
      cases h
    · rintro ⟨hi, hv⟩
      have hle : digitsValue (unsigned p) ≤ (0xFFFFFFFFFFFFFFFF : UInt64).toNat := by
        have hlt := v.toNat_lt
        have hmax : (0xFFFFFFFFFFFFFFFF : UInt64).toNat = 2 ^ 64 - 1 := rfl
        split at hv <;> omega
      obtain ⟨w, hw, -⟩ := (ho _).mpr ⟨hi, rfl, hle⟩
      cases hw
  | some m =>
    obtain ⟨hi, hm, hle⟩ := (ho _).mp ⟨m, rfl, rfl⟩
    cases p with
    | nil =>
      obtain ⟨c, t, ht, -⟩ := hi.head?
      cases ht
    | cons c t =>
      have hzero : m = 0 ↔ m.toNat = 0 := UInt64.toNat_inj.symm
      simp only [read_cons, bind, Except.bind]
      refine Gives.ite ?_ ?_
      · intro hneg
        rw [Bool.and_eq_true, beq_iff_eq, bne_iff_ne, Ne, hzero] at hneg
        refine Gives.pure ?_
        intro v
        rw [integerText_iff, head?_cons, hneg.1, if_pos rfl]
        constructor
        · intro h
          cases h
        · rintro ⟨-, hv⟩
          rw [hneg.1] at hm
          omega
      · intro hpos
        rw [Bool.and_eq_true, beq_iff_eq, bne_iff_ne, Ne, hzero, not_and, not_not] at hpos
        refine Gives.pure ?_
        intro v
        rw [integerText_iff, head?_cons, some_inj, ← UInt64.toNat_inj, ← hm]
        split
        · rename_i hminus
          have hm0 := hpos (some_inj.mp hminus)
          constructor
          · intro h
            exact ⟨hi, by omega⟩
          · rintro ⟨-, hv⟩
            omega
        · constructor
          · intro h
            exact ⟨hi, by omega⟩
          · rintro ⟨-, hv⟩
            omega

end AnticJson
