import Antic.JsonNumbers
import Antic.JsonStrings

/-! # The values of the JSON scanner

    `anti_rt_json_skip` takes a value of the grammar and nothing else: what it takes is one
    (`skip_runs`), and it takes each (`skip_complete`).  Both go by induction on the turns
    that the loops may take, and no text needs more of them than `turnsOf` gives. -/

namespace AnticJson

open Contracts List

-- ── Texts grow shorter ────

mutual

theorem Value.length {n : Nat} {s t : Bytes} : Value n s t → t.length < s.length
  | .string h => h.length
  | .word h => by
      rw [length_append]
      refine Nat.lt_add_of_pos_left ?_
      rw [words, mem_cons, mem_cons, mem_singleton] at h
      obtain rfl | rfl | rfl := h <;> decide
  | .number h => by
      rw [length_append]
      exact Nat.lt_add_of_pos_left (length_pos_iff.mpr h.bytes.1)
  | .emptyObject h => Nat.lt_succ_of_lt h.length
  | .object h => Nat.lt_succ_of_lt (Nat.lt_of_succ_lt h.length)
  | .emptyArray h => Nat.lt_succ_of_lt h.length
  | .array h => Nat.lt_succ_of_lt (Nat.lt_of_succ_lt h.length)

theorem Members.length {n : Nat} {s t : Bytes} {ms : List Member} :
    Members n s ms t → t.length < s.length
  | .last h₁ h₂ h₃ h₄ h₅ h₆ => by
      have := h₁.length
      have := h₂.length
      have := h₃.length
      have := h₄.length
      have := h₅.length
      have := h₆.length
      simp only [length_cons] at *
      omega
  | .cons h₁ h₂ h₃ h₄ h₅ h₆ h₇ => by
      have := h₁.length
      have := h₂.length
      have := h₃.length
      have := h₄.length
      have := h₅.length
      have := h₆.length
      have := h₇.length
      simp only [length_cons] at *
      omega

theorem Elements.length {n : Nat} {s t : Bytes} : Elements n s t → t.length < s.length
  | .last h₁ h₂ h₃ => Nat.lt_of_le_of_lt h₃.length (Nat.lt_of_lt_of_le h₂.length h₁.length)
  | .cons h₁ h₂ h₃ h₄ => by
      have := h₁.length
      have := h₂.length
      have := h₃.length
      have := h₄.length
      simp only [length_cons] at *
      omega

end

-- ── What is taken is a value ────

variable {s t : Bytes} {n depth fuel : Nat} {c : UInt8}

theorem jsonWord_runs (w : Bytes) (hs : skipWs s = s) :
    Runs (jsonWord w s) fun x => (x.1 = true → s = w ++ x.2) ∧ (x.1 = false → x.2 = s) := by
  rw [jsonWord_eq, hs]
  refine Gives.pure ?_
  split
  · rename_i h
    obtain ⟨t, rfl⟩ := h
    refine ⟨fun _ => ?_, fun h => (by cases h)⟩
    rw [drop_left]
  · exact ⟨fun h => (by cases h), fun _ => rfl⟩

/-- The last branch of `anti_rt_json_skip`: a word or a number. -/
def wordOrNumber (s : Bytes) : Scan :=
  orElse (orElse (orElse (jsonWord [116, 114, 117, 101] s)
    (jsonWord [102, 97, 108, 115, 101])) (jsonWord [110, 117, 108, 108])) fun s => do
      let (ok, number, s) ← jsonNumber s
      if ok then return (← validNumber number, s) else return (false, s)

theorem wordOrNumber_runs (hs : skipWs s = s) (n : Nat) :
    Runs (wordOrNumber s) fun x => x.1 = true → Value n s x.2 := by
  have hnext : ∀ {x : Scan} {w : Bytes}, w ∈ words →
      Runs x (fun x => (x.1 = true → Value n s x.2) ∧ (x.1 = false → x.2 = s)) →
      Runs (orElse x (jsonWord w))
        fun x => (x.1 = true → Value n s x.2) ∧ (x.1 = false → x.2 = s) := by
    intro x w hw hx
    refine orElse_runs hx ?_ ?_
    · intro t ht
      exact ⟨ht.1, fun h => (by cases h)⟩
    · intro t ht
      obtain rfl : t = s := ht.2 rfl
      refine Gives.weaken (jsonWord_runs w hs) ?_
      intro y hy
      refine ⟨fun hok => ?_, hy.2⟩
      rw [hy.1 hok]
      exact .word hw
  have hfirst : Runs (jsonWord [116, 114, 117, 101] s)
      fun x => (x.1 = true → Value n s x.2) ∧ (x.1 = false → x.2 = s) := by
    refine Gives.weaken (jsonWord_runs _ hs) ?_
    intro x hx
    refine ⟨fun hok => ?_, hx.2⟩
    have hword : [116, 114, 117, 101] ∈ words := mem_cons_self
    rw [hx.1 hok]
    exact .word hword
  refine orElse_runs (hnext (by decide) (hnext (by decide) hfirst)) (fun t ht => ht.1) ?_
  intro t ht
  obtain rfl : t = s := ht.2 rfl
  rw [jsonNumber_eq, hs]
  refine Gives.ite ?_ ?_
  · intro
    refine Gives.bind (validNumber_runs _) ?_
    intro ok hok
    refine Gives.pure ?_
    intro htrue
    have hnumber := hok.mp htrue
    have hvalue : Value n (t.takeWhile isNumberByte ++ t.dropWhile isNumberByte)
        (t.dropWhile isNumberByte) := .number hnumber
    rw [takeWhile_append_dropWhile] at hvalue
    exact hvalue
  · intro
    exact Gives.pure fun h => (by cases h)

/-- What `anti_rt_json_skip` takes. -/
def SkipTakes (depth : Nat) (s : Bytes) (x : Bool × Bytes) : Prop :=
  x.1 = true → depth ≤ jsonDepth ∧ ∃ s₁, Ws s s₁ ∧ Value (jsonDepth - depth) s₁ x.2

/-- What the loop over the members of an object takes, with the closing brace. -/
def MembersTake (depth : Nat) (s : Bytes) (x : Bool × Bytes) : Prop :=
  x.1 = true → depth < jsonDepth ∧ ∃ ms, Members (jsonDepth - (depth + 1)) s ms (closeBrace :: x.2)

/-- What the loop over the elements of an array takes, with the closing bracket. -/
def ElementsTake (depth : Nat) (s : Bytes) (x : Bool × Bytes) : Prop :=
  x.1 = true → depth < jsonDepth ∧ Elements (jsonDepth - (depth + 1)) s (closeBracket :: x.2)

theorem Members.ws {u : Bytes} {ms : List Member} (h : Ws s u) (hm : Members n u ms t) :
    Members n s ms t := by
  cases hm with
  | last h₁ h₂ h₃ h₄ h₅ h₆ => exact .last (h.trans h₁) h₂ h₃ h₄ h₅ h₆
  | cons h₁ h₂ h₃ h₄ h₅ h₆ h₇ => exact .cons (h.trans h₁) h₂ h₃ h₄ h₅ h₆ h₇

theorem Elements.ws {u : Bytes} (h : Ws s u) (he : Elements n u t) : Elements n s t := by
  cases he with
  | last h₁ h₂ h₃ => exact .last (h.trans h₁) h₂ h₃
  | cons h₁ h₂ h₃ h₄ => exact .cons (h.trans h₁) h₂ h₃ h₄

/-- The room that an object or an array leaves for what it holds. -/
theorem room_succ (h : depth < jsonDepth) : jsonDepth - depth = jsonDepth - (depth + 1) + 1 := by
  omega

theorem skip_step
    (hm : ∀ depth s, 2 * s.length + 2 ≤ fuel → Runs (membersLoop fuel depth s) (MembersTake depth s))
    (he : ∀ depth s, 2 * s.length + 2 ≤ fuel →
      Runs (elementsLoop fuel depth s) (ElementsTake depth s)) (depth : Nat) (s : Bytes)
    (hs : 2 * s.length + 1 ≤ fuel + 1) :
    Runs (jsonSkip (fuel + 1) depth s) (SkipTakes depth s) := by
  have hno : ∀ t, SkipTakes depth s (false, t) := by
    intro t h
    cases h
  rw [jsonSkip]
  refine Gives.ite (fun _ => Gives.pure (hno s)) ?_
  intro hdepth
  have hdepth' : depth ≤ jsonDepth := Nat.not_lt.mp hdepth
  rw [jsonSpace_eq]
  simp only [bind, Except.bind]
  have hws := skipWs_ws s
  cases hskip : skipWs s with
  | nil => exact Gives.pure (hno [])
  | cons c t =>
    rw [hskip] at hws
    have hlen := hws.length
    rw [length_cons] at hlen
    have hsame : skipWs (c :: t) = c :: t := (skipWs_of_ws hws).symm.trans hskip
    have hmore : ¬ (!more (c :: t)) = true := Bool.false_ne_true
    rw [if_neg hmore, read_cons, past, tail_cons]
    refine Gives.ite ?_ ?_
    · intro hc
      rw [beq_iff_eq] at hc
      subst hc
      refine Gives.weaken (jsonString_runs _) ?_
      intro x hx hok
      obtain ⟨s₁, d, h₁, h₂⟩ := hx hok
      exact ⟨hdepth', s₁, hws.trans h₁, .string h₂⟩
    · intro
      refine Gives.ite ?_ ?_
      · intro hc
        rw [beq_iff_eq] at hc
        subst hc
        refine orElse_runs (jsonTake_runs closeBrace t) ?_ ?_
        · intro u hu _
          exact ⟨hdepth', _, hws, .emptyObject (hu.1 rfl)⟩
        · intro u hu
          have hu' : Ws t u := hu.2 rfl
          have hulen := hu'.length
          refine Gives.weaken (hm depth u (by omega)) ?_
          intro x hx hok
          obtain ⟨hlt, ms, hms⟩ := hx hok
          refine ⟨hdepth', _, hws, ?_⟩
          rw [room_succ hlt]
          exact .object (hms.ws hu')
      · intro
        refine Gives.ite ?_ ?_
        · intro hc
          rw [beq_iff_eq] at hc
          subst hc
          refine orElse_runs (jsonTake_runs closeBracket t) ?_ ?_
          · intro u hu _
            exact ⟨hdepth', _, hws, .emptyArray (hu.1 rfl)⟩
          · intro u hu
            have hu' : Ws t u := hu.2 rfl
            have hulen := hu'.length
            refine Gives.weaken (he depth u (by omega)) ?_
            intro x hx hok
            obtain ⟨hlt, hes⟩ := hx hok
            refine ⟨hdepth', _, hws, ?_⟩
            rw [room_succ hlt]
            exact .array (hes.ws hu')
        · intro
          refine Gives.weaken (wordOrNumber_runs hsame (jsonDepth - depth)) ?_
          intro x hx hok
          exact ⟨hdepth', _, hws, hx hok⟩

theorem members_step
    (hk : ∀ depth s, 2 * s.length + 1 ≤ fuel → Runs (jsonSkip fuel depth s) (SkipTakes depth s))
    (hm : ∀ depth s, 2 * s.length + 2 ≤ fuel → Runs (membersLoop fuel depth s) (MembersTake depth s))
    (depth : Nat) (s : Bytes) (hs : 2 * s.length + 2 ≤ fuel + 1) :
    Runs (membersLoop (fuel + 1) depth s) (MembersTake depth s) := by
  rw [membersLoop]
  have hkey : Runs (andThen (jsonString s) (jsonTake colon)) fun x => x.1 = true →
      ∃ s₁ k s₂, Ws s s₁ ∧ Str s₁ k s₂ ∧ Ws s₂ (colon :: x.2) := by
    refine andThen_runs (jsonString_runs s) ?_ (fun t h => (by cases h))
    intro s₂ h
    obtain ⟨s₁, k, h₁, h₂⟩ := h rfl
    refine Gives.weaken (jsonTake_runs colon s₂) ?_
    intro x hx hok
    exact ⟨s₁, k, s₂, h₁, h₂, hx.1 hok⟩
  have hmember : Runs (andThen (andThen (jsonString s) (jsonTake colon)) (jsonSkip fuel (depth + 1)))
      fun x => x.1 = true → ∃ s₁ k s₂ s₃ s₄, Ws s s₁ ∧ Str s₁ k s₂ ∧ Ws s₂ (colon :: s₃) ∧ Ws s₃ s₄ ∧
        depth < jsonDepth ∧ Value (jsonDepth - (depth + 1)) s₄ x.2 := by
    refine andThen_runs hkey ?_ (fun t h => (by cases h))
    intro s₃ h
    obtain ⟨s₁, k, s₂, h₁, h₂, h₃⟩ := h rfl
    dsimp only at h₃
    have hlen₁ := h₁.length
    have hlen₂ := h₂.length
    have hlen₃ := h₃.length
    rw [length_cons] at hlen₃
    refine Gives.weaken (hk (depth + 1) s₃ (by omega)) ?_
    intro x hx hok
    obtain ⟨hdepth, s₄, h₄, h₅⟩ := hx hok
    exact ⟨s₁, k, s₂, s₃, s₄, h₁, h₂, h₃, h₄, hdepth, h₅⟩
  refine andThen_runs hmember ?_ (fun t h => (by cases h))
  intro s₅ h
  obtain ⟨s₁, k, s₂, s₃, s₄, h₁, h₂, h₃, h₄, hdepth, h₅⟩ := h rfl
  dsimp only at h₅
  have hlen₁ := h₁.length
  have hlen₂ := h₂.length
  have hlen₃ := h₃.length
  have hlen₄ := h₄.length
  have hlen₅ := h₅.length
  refine Gives.bind (jsonTake_runs comma s₅) ?_
  rintro ⟨again, s₆⟩ ⟨hagain, hlast⟩
  cases again with
  | true =>
    have h₆ : Ws s₅ (comma :: s₆) := hagain rfl
    have hlen₆ := h₆.length
    simp only [length_cons] at hlen₃ hlen₆
    refine Gives.weaken (hm depth s₆ (by omega)) ?_
    intro x hx hok
    obtain ⟨-, ms, hms⟩ := hx hok
    exact ⟨hdepth, _, .cons h₁ h₂ h₃ h₄ h₅ h₆ hms⟩
  | false =>
    refine Gives.weaken (jsonTake_runs closeBrace s₆) ?_
    intro x hx hok
    exact ⟨hdepth, _, .last h₁ h₂ h₃ h₄ h₅ ((hlast rfl).trans (hx.1 hok))⟩

theorem elements_step
    (hk : ∀ depth s, 2 * s.length + 1 ≤ fuel → Runs (jsonSkip fuel depth s) (SkipTakes depth s))
    (he : ∀ depth s, 2 * s.length + 2 ≤ fuel →
      Runs (elementsLoop fuel depth s) (ElementsTake depth s)) (depth : Nat) (s : Bytes)
    (hs : 2 * s.length + 2 ≤ fuel + 1) :
    Runs (elementsLoop (fuel + 1) depth s) (ElementsTake depth s) := by
  refine andThen_runs (hk (depth + 1) s (Nat.le_of_succ_le_succ hs)) ?_ (fun t h => (by cases h))
  intro s₂ h
  obtain ⟨hdepth, s₁, h₁, h₂⟩ := h rfl
  dsimp only at h₂
  have hlen₁ := h₁.length
  have hlen₂ := h₂.length
  refine Gives.bind (jsonTake_runs comma s₂) ?_
  rintro ⟨again, s₃⟩ ⟨hagain, hlast⟩
  cases again with
  | true =>
    have h₃ : Ws s₂ (comma :: s₃) := hagain rfl
    have hlen₃ := h₃.length
    rw [length_cons] at hlen₃
    refine Gives.weaken (he depth s₃ (by omega)) ?_
    intro x hx hok
    exact ⟨hdepth, .cons h₁ h₂ h₃ (hx hok).2⟩
  | false =>
    refine Gives.weaken (jsonTake_runs closeBracket s₃) ?_
    intro x hx hok
    exact ⟨hdepth, .last h₁ h₂ ((hlast rfl).trans (hx.1 hok))⟩

/-- **What is taken is of the grammar**, and the turns suffice. -/
theorem scan_runs (fuel : Nat) :
    (∀ depth s, 2 * s.length + 1 ≤ fuel → Runs (jsonSkip fuel depth s) (SkipTakes depth s)) ∧
    (∀ depth s, 2 * s.length + 2 ≤ fuel → Runs (membersLoop fuel depth s) (MembersTake depth s)) ∧
    (∀ depth s, 2 * s.length + 2 ≤ fuel →
      Runs (elementsLoop fuel depth s) (ElementsTake depth s)) := by
  induction fuel with
  | zero =>
    refine ⟨?_, ?_, ?_⟩
    · intro depth s h
      cases h
    · intro depth s h
      cases h
    · intro depth s h
      cases h
  | succ fuel ih =>
    obtain ⟨hk, hm, he⟩ := ih
    exact ⟨skip_step hm he, members_step hk hm, elements_step hk he⟩

theorem skip_runs (depth : Nat) (s : Bytes) (h : 2 * s.length + 1 ≤ fuel) :
    Runs (jsonSkip fuel depth s) (SkipTakes depth s) :=
  (scan_runs fuel).1 depth s h

-- ── Every value is taken ────

theorem jsonWord_of_word {w : Bytes} (hw : w ∈ words) : jsonWord w (w ++ t) = .ok (true, t) := by
  have hskip : skipWs (w ++ t) = w ++ t := by
    rw [words, mem_cons, mem_cons, mem_singleton] at hw
    obtain rfl | rfl | rfl := hw <;> rfl
  rw [jsonWord_eq, hskip, if_pos (prefix_append w t), drop_left]

theorem jsonWord_of_ne {x : UInt8} {w : Bytes} (hc : isWs c = false) (h : x ≠ c) :
    jsonWord (x :: w) (c :: t) = .ok (false, c :: t) := by
  rw [jsonWord_eq, skipWs_cons hc, if_neg]
  intro hpre
  exact h (cons_prefix_cons.mp hpre).1

theorem wordOrNumber_of_word {w : Bytes} (hw : w ∈ words) (t : Bytes) :
    wordOrNumber (w ++ t) = .ok (true, t) := by
  have htake := jsonWord_of_word hw (t := t)
  rw [words, mem_cons, mem_cons, mem_singleton] at hw
  rw [wordOrNumber]
  obtain rfl | rfl | rfl := hw
  · rw [htake, orElse_true, orElse_true, orElse_true]
  · rw [cons_append] at htake
    rw [cons_append, jsonWord_of_ne rfl (by decide), orElse_false, htake, orElse_true, orElse_true]
  · rw [cons_append] at htake
    rw [cons_append, jsonWord_of_ne rfl (by decide), orElse_false,
      jsonWord_of_ne rfl (by decide), orElse_false, htake, orElse_true]

theorem NumberText.head {p : Bytes} (h : NumberText p) :
    ∃ c u, p = c :: u ∧ (isDigit c = true ∨ c = minusSign) := by
  obtain ⟨m, i, f, e, hm, hi, hf, he, rfl⟩ := h
  cases hm with
  | no =>
    obtain ⟨c, t, rfl, hc⟩ := hi.head?
    exact ⟨c, _, rfl, .inl hc⟩
  | yes => exact ⟨minusSign, _, rfl, .inr rfl⟩

/-- The first byte of a number is that of no other value, and no white space. -/
theorem number_first (h : isDigit c = true ∨ c = minusSign) : isWs c = false ∧
    c ≠ quote ∧ c ≠ openBrace ∧ c ≠ openBracket ∧ c ≠ closeBracket ∧ 116 ≠ c ∧ 102 ≠ c ∧
      110 ≠ c := by
  have hrange : 45 ≤ c.toNat ∧ c.toNat ≤ 57 := by
    obtain h | rfl := h
    · rw [isDigit, Bool.and_eq_true, decide_eq_true_eq, decide_eq_true_eq] at h
      have hlow : 48 ≤ c.toNat := UInt8.le_iff_toNat_le.mp h.1
      exact ⟨by omega, UInt8.le_iff_toNat_le.mp h.2⟩
    · decide
  have hne : ∀ b : UInt8, b.toNat < 45 ∨ 57 < b.toNat → c ≠ b := by
    rintro b hb rfl
    omega
  refine ⟨?_, hne _ (by decide), hne _ (by decide), hne _ (by decide), hne _ (by decide),
    (hne _ (by decide)).symm, (hne _ (by decide)).symm, (hne _ (by decide)).symm⟩
  rw [isWs]
  simp only [Bool.or_eq_false_iff, beq_eq_false_iff_ne]
  exact ⟨⟨⟨hne _ (by decide), hne _ (by decide)⟩, hne _ (by decide)⟩, hne _ (by decide)⟩

theorem wordOrNumber_of_number {p : Bytes} (hp : NumberText p) (ht : Ends isNumberByte t) :
    wordOrNumber (p ++ t) = .ok (true, t) := by
  obtain ⟨hne, hall⟩ := hp.bytes
  obtain ⟨c, u, rfl, hc⟩ := hp.head
  obtain ⟨hws, -, -, -, -, htrue, hfalse, hnull⟩ := number_first hc
  have hnumber := jsonNumber_complete hall hne (skipWs_cons hws (u ++ t)) ht
  have hvalid : validNumber (c :: u) = .ok true := by
    have hruns := validNumber_runs (c :: u)
    cases hv : validNumber (c :: u) with
    | ok ok => rw [(hruns.of_ok hv).mpr hp]
    | error e => exact (hruns.of_error hv).elim
  rw [cons_append] at hnumber
  rw [wordOrNumber, cons_append, jsonWord_of_ne hws htrue, orElse_false,
    jsonWord_of_ne hws hfalse, orElse_false, jsonWord_of_ne hws hnull, orElse_false, hnumber]
  simp only [bind, Except.bind, hvalid]
  rfl

theorem Value.head (h : Value n s t) : ∃ c u, s = c :: u ∧ isWs c = false ∧ c ≠ closeBracket := by
  cases h with
  | string h =>
    cases h with
    | intro h => exact ⟨quote, _, rfl, rfl, by decide⟩
  | word h =>
    rw [words, mem_cons, mem_cons, mem_singleton] at h
    obtain rfl | rfl | rfl := h
    · exact ⟨116, _, rfl, rfl, by decide⟩
    · exact ⟨102, _, rfl, rfl, by decide⟩
    · exact ⟨110, _, rfl, rfl, by decide⟩
  | number h =>
    obtain ⟨c, u, rfl, hc⟩ := h.head
    obtain ⟨hws, -, -, -, hne, -⟩ := number_first hc
    exact ⟨c, _, rfl, hws, hne⟩
  | emptyObject => exact ⟨openBrace, _, rfl, rfl, by decide⟩
  | object => exact ⟨openBrace, _, rfl, rfl, by decide⟩
  | emptyArray => exact ⟨openBracket, _, rfl, rfl, by decide⟩
  | array => exact ⟨openBracket, _, rfl, rfl, by decide⟩

/-- White space and a byte that is no white space are what is left of a text behind a value. -/
theorem skipWs_of_cons (hc : isWs c = false) (h : Ws s (c :: t)) : skipWs s = c :: t := by
  rw [skipWs_of_ws h, skipWs_cons hc]

/-- No byte of a number comes where white space comes, or a byte of no number. -/
theorem ends_of_ws (hc : isNumberByte c = false) (h : Ws s (c :: t)) : Ends isNumberByte s := by
  cases h with
  | nil => exact ends_cons hc t
  | cons hws =>
    refine ends_cons ?_ _
    rw [isWs] at hws
    simp only [Bool.or_eq_true, beq_iff_eq] at hws
    rcases hws with ((rfl | rfl) | rfl) | rfl <;> rfl

/-- Every value is taken, with so many turns. -/
def SkipAll (fuel : Nat) : Prop :=
  ∀ {depth n : Nat} {s₀ s t : Bytes}, depth ≤ jsonDepth → n = jsonDepth - depth → Ws s₀ s →
    Value n s t → Ends isNumberByte t → 2 * s₀.length + 1 ≤ fuel →
    jsonSkip fuel depth s₀ = .ok (true, t)

/-- The members of every object are taken, with so many turns. -/
def MembersAll (fuel : Nat) : Prop :=
  ∀ {depth n : Nat} {s t : Bytes} {ms : List Member}, depth < jsonDepth →
    n = jsonDepth - (depth + 1) → Members n s ms (closeBrace :: t) → 2 * s.length + 2 ≤ fuel →
    membersLoop fuel depth s = .ok (true, t)

/-- The elements of every array are taken, with so many turns. -/
def ElementsAll (fuel : Nat) : Prop :=
  ∀ {depth n : Nat} {s t : Bytes}, depth < jsonDepth → n = jsonDepth - (depth + 1) →
    Elements n s (closeBracket :: t) → 2 * s.length + 2 ≤ fuel →
    elementsLoop fuel depth s = .ok (true, t)

theorem Members.skip {ms : List Member} (h : Members n s ms t) :
    Members n (skipWs s) ms t ∧ (skipWs s).head? ≠ some closeBrace := by
  have hkey : ∀ {s₁ k s₂ : Bytes}, Ws s s₁ → Str s₁ k s₂ →
      skipWs s = s₁ ∧ s₁.head? ≠ some closeBrace := by
    intro s₁ k s₂ hws hstr
    cases hstr with
    | intro => exact ⟨skipWs_of_cons rfl hws, by rw [head?_cons]; decide⟩
  cases h with
  | last h₁ h₂ h₃ h₄ h₅ h₆ =>
    obtain ⟨hskip, hhead⟩ := hkey h₁ h₂
    rw [hskip]
    exact ⟨.last .nil h₂ h₃ h₄ h₅ h₆, hhead⟩
  | cons h₁ h₂ h₃ h₄ h₅ h₆ h₇ =>
    obtain ⟨hskip, hhead⟩ := hkey h₁ h₂
    rw [hskip]
    exact ⟨.cons .nil h₂ h₃ h₄ h₅ h₆ h₇, hhead⟩

theorem Elements.skip (h : Elements n s t) :
    Elements n (skipWs s) t ∧ (skipWs s).head? ≠ some closeBracket := by
  have hvalue : ∀ {s₁ s₂ : Bytes}, Ws s s₁ → Value n s₁ s₂ →
      skipWs s = s₁ ∧ s₁.head? ≠ some closeBracket := by
    intro s₁ s₂ hws hval
    obtain ⟨c, u, rfl, hc, hne⟩ := hval.head
    exact ⟨skipWs_of_cons hc hws, fun h => hne (Option.some_inj.mp h)⟩
  cases h with
  | last h₁ h₂ h₃ =>
    obtain ⟨hskip, hhead⟩ := hvalue h₁ h₂
    rw [hskip]
    exact ⟨.last .nil h₂ h₃, hhead⟩
  | cons h₁ h₂ h₃ h₄ =>
    obtain ⟨hskip, hhead⟩ := hvalue h₁ h₂
    rw [hskip]
    exact ⟨.cons .nil h₂ h₃ h₄, hhead⟩

theorem jsonSkip_cons {s₀ : Bytes} (hdepth : depth ≤ jsonDepth) (hc : isWs c = false)
    (hws : Ws s₀ (c :: s)) : jsonSkip (fuel + 1) depth s₀ =
      if c == quote then jsonString (c :: s)
      else if c == openBrace then orElse (jsonTake closeBrace s) (membersLoop fuel depth)
      else if c == openBracket then orElse (jsonTake closeBracket s) (elementsLoop fuel depth)
      else wordOrNumber (c :: s) := by
  rw [jsonSkip, if_neg (Nat.not_lt.mpr hdepth), jsonSpace_eq, skipWs_of_cons hc hws]
  rfl

theorem skip_all (hm : MembersAll fuel) (he : ElementsAll fuel) : SkipAll (fuel + 1) := by
  intro depth n s₀ s t hdepth hn hws h hend hlen
  have hle := hws.length
  cases h with
  | string h =>
    cases h with
    | intro h =>
      rw [jsonSkip_cons hdepth rfl hws]
      exact jsonString_complete .nil (.intro h)
  | @word _ w _ h =>
    have htake := wordOrNumber_of_word h t
    have hfirst : ∃ c u, w = c :: u ∧ isWs c = false ∧ (c == quote) = false ∧
        (c == openBrace) = false ∧ (c == openBracket) = false := by
      rw [words, mem_cons, mem_cons, mem_singleton] at h
      obtain rfl | rfl | rfl := h <;> exact ⟨_, _, rfl, rfl, rfl, rfl, rfl⟩
    obtain ⟨c, u, rfl, hc, hquote, hbrace, hbracket⟩ := hfirst
    rw [jsonSkip_cons hdepth hc hws]
    simp only [hquote, hbrace, hbracket]
    exact htake
  | @number _ p _ h =>
    have htake := wordOrNumber_of_number h hend
    obtain ⟨c, u, rfl, hc⟩ := h.head
    obtain ⟨hnws, hquote, hbrace, hbracket, -⟩ := number_first hc
    rw [jsonSkip_cons hdepth hnws hws]
    simp only [beq_eq_false_iff_ne.mpr hquote, beq_eq_false_iff_ne.mpr hbrace,
      beq_eq_false_iff_ne.mpr hbracket]
    exact htake
  | emptyObject h | emptyArray h =>
    rw [jsonSkip_cons hdepth rfl hws]
    simp only [jsonTake_of_ws rfl h]
    rfl
  | @object n s _ ms h =>
    obtain ⟨hskip, hhead⟩ := h.skip
    have hshort := (skipWs_ws s).length
    rw [length_cons] at hle
    rw [jsonSkip_cons hdepth rfl hws]
    simp only [jsonTake_of_ne hhead]
    exact hm (by omega) (by omega) hskip (by omega)
  | @array n s _ h =>
    obtain ⟨hskip, hhead⟩ := h.skip
    have hshort := (skipWs_ws s).length
    rw [length_cons] at hle
    rw [jsonSkip_cons hdepth rfl hws]
    simp only [jsonTake_of_ne hhead]
    exact he (by omega) (by omega) hskip (by omega)

theorem member_taken {s₁ s₂ s₃ s₄ s₅ k : Bytes} (hk : SkipAll fuel)
    (hdepth : depth < jsonDepth) (hn : n = jsonDepth - (depth + 1)) (h₁ : Ws s s₁)
    (h₂ : Str s₁ k s₂) (h₃ : Ws s₂ (colon :: s₃)) (h₄ : Ws s₃ s₄) (h₅ : Value n s₄ s₅)
    (hend : Ends isNumberByte s₅) (hlen : 2 * s.length + 2 ≤ fuel + 1) :
    andThen (andThen (jsonString s) (jsonTake colon)) (jsonSkip fuel (depth + 1))
      = .ok (true, s₅) := by
  have hlen₁ := h₁.length
  have hlen₂ := h₂.length
  have hlen₃ := h₃.length
  rw [length_cons] at hlen₃
  rw [jsonString_complete h₁ h₂, andThen_ok, jsonTake_of_ws rfl h₃, andThen_ok]
  exact hk hdepth hn h₄ h₅ hend (by omega)

theorem members_all (hk : SkipAll fuel) (hm : MembersAll fuel) : MembersAll (fuel + 1) := by
  intro depth n s t ms hdepth hn h hlen
  rw [membersLoop]
  cases h with
  | last h₁ h₂ h₃ h₄ h₅ h₆ =>
    rw [member_taken hk hdepth hn h₁ h₂ h₃ h₄ h₅ (ends_of_ws rfl h₆) hlen, andThen_ok]
    have hskip := skipWs_of_cons rfl h₆
    have hcomma := jsonTake_of_ne (c := comma) (by rw [hskip, head?_cons]; decide)
    rw [hcomma, hskip]
    exact jsonTake_of_ws (c := closeBrace) rfl .nil
  | cons h₁ h₂ h₃ h₄ h₅ h₆ h₇ =>
    have hlen₁ := h₁.length
    have hlen₂ := h₂.length
    have hlen₃ := h₃.length
    have hlen₄ := h₄.length
    have hlen₅ := h₅.length
    have hlen₆ := h₆.length
    rw [length_cons] at hlen₃ hlen₆
    rw [member_taken hk hdepth hn h₁ h₂ h₃ h₄ h₅ (ends_of_ws rfl h₆) hlen, andThen_ok,
      jsonTake_of_ws rfl h₆]
    exact hm hdepth hn h₇ (by omega)

theorem elements_all (hk : SkipAll fuel) (he : ElementsAll fuel) : ElementsAll (fuel + 1) := by
  intro depth n s t hdepth hn h hlen
  rw [elementsLoop]
  cases h with
  | last h₁ h₂ h₃ =>
    rw [hk hdepth hn h₁ h₂ (ends_of_ws rfl h₃) (Nat.le_of_succ_le_succ hlen), andThen_ok]
    have hskip := skipWs_of_cons rfl h₃
    have hcomma := jsonTake_of_ne (c := comma) (by rw [hskip, head?_cons]; decide)
    rw [hcomma, hskip]
    exact jsonTake_of_ws (c := closeBracket) rfl .nil
  | cons h₁ h₂ h₃ h₄ =>
    have hlen₁ := h₁.length
    have hlen₂ := h₂.length
    have hlen₃ := h₃.length
    rw [length_cons] at hlen₃
    rw [hk hdepth hn h₁ h₂ (ends_of_ws rfl h₃) (Nat.le_of_succ_le_succ hlen), andThen_ok,
      jsonTake_of_ws rfl h₃]
    exact he hdepth hn h₄ (by omega)

/-- **All of the grammar is taken.** -/
theorem scan_all (fuel : Nat) : SkipAll fuel ∧ MembersAll fuel ∧ ElementsAll fuel := by
  induction fuel with
  | zero =>
    refine ⟨?_, ?_, ?_⟩
    · intro depth n s₀ s t _ _ _ _ _ h
      cases h
    · intro depth n s t ms _ _ _ h
      cases h
    · intro depth n s t _ _ _ h
      cases h
  | succ fuel ih =>
    obtain ⟨hk, hm, he⟩ := ih
    exact ⟨skip_all hm he, members_all hk hm, elements_all hk he⟩

theorem skip_complete {s₀ : Bytes} (hdepth : depth ≤ jsonDepth) (hn : n = jsonDepth - depth)
    (hws : Ws s₀ s) (h : Value n s t) (hend : Ends isNumberByte t)
    (hlen : 2 * s₀.length + 1 ≤ fuel) : jsonSkip fuel depth s₀ = .ok (true, t) :=
  (scan_all fuel).1 hdepth hn hws h hend hlen

end AnticJson
