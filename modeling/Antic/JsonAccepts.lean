import Antic.JsonProofs

/-! # What the JSON scanner accepts

    `anti_rt_json_value` accepts exactly the texts of the grammar, and `anti_rt_json_member` gives
    the value of the first member with the key (`scanner_exact`).  The grammar is that of bytes: the
    scanner does not ask whether the bytes of a string are UTF-8. -/

namespace AnticJson

open Contracts List

-- ── Whole texts ────

variable {s name t : Bytes}

theorem ends_of_ws_nil (h : Ws s []) : Ends isNumberByte s := by
  cases h with
  | nil => exact ends_nil _
  | cons hws =>
    refine ends_cons ?_ _
    rw [isWs] at hws
    simp only [Bool.or_eq_true, beq_iff_eq] at hws
    rcases hws with ((rfl | rfl) | rfl) | rfl <;> rfl

/-- **`anti_rt_json_value`** accepts exactly the texts of the grammar. -/
theorem jsonValue_runs (s : Bytes) : Runs (jsonValue s) fun ok =>
    ok = true ↔ JsonText jsonDepth s := by
  rw [jsonValue]
  by_cases htext : JsonText jsonDepth s
  · obtain ⟨s₁, s₂, h₁, hvalue, h₂⟩ := htext
    have hskip : jsonSkip (turnsOf s) 0 s = .ok (true, s₂) :=
      skip_complete (Nat.zero_le _) rfl h₁ hvalue (ends_of_ws_nil h₂) (Nat.le_succ _)
    rw [hskip]
    simp only [bind, Except.bind, jsonSpace_eq, skipWs_of_ws h₂]
    exact Gives.pure ⟨fun _ => ⟨s₁, s₂, h₁, hvalue, h₂⟩, fun _ => rfl⟩
  · refine Gives.bind (skip_runs 0 s (Nat.le_succ _)) ?_
    rintro ⟨ok, t⟩ hskip
    cases ok with
    | false => exact Gives.pure ⟨fun h => (by cases h), fun h => absurd h htext⟩
    | true =>
      obtain ⟨-, s₁, h₁, hvalue⟩ := hskip rfl
      simp only [if_true, jsonSpace_eq, bind, Except.bind]
      refine Gives.pure ⟨?_, fun h => absurd h htext⟩
      intro hmore
      rw [Bool.not_eq_true', more_eq_false] at hmore
      have h₂ := skipWs_ws t
      rw [hmore] at h₂
      exact ⟨s₁, t, h₁, hvalue, h₂⟩

theorem jsonValue_of_text (h : JsonText jsonDepth s) : jsonValue s = .ok true := by
  have hruns := jsonValue_runs s
  cases hv : jsonValue s with
  | ok ok => rw [(hruns.of_ok hv).mpr h]
  | error e => exact (hruns.of_error hv).elim

-- ── Members ────

/-- Where the value of a member starts in a text, and how long it is. -/
def Member.span (t : Bytes) (m : Member) : Nat × Nat :=
  (t.length - m.value.length, m.value.length - m.behind.length)

/-- The first member with such a key. -/
def named (name : Bytes) (ms : List Member) : Option Member := ms.find? fun m => m.key = name

theorem named_cons (name : Bytes) (m : Member) (ms : List Member) :
    named name (m :: ms) = if m.key = name then some m else named name ms := by
  by_cases h : m.key = name <;> simp [h, named]

theorem memberLoop_cons {source s₁ s₂ s₃ s₄ s₅ k : Bytes} {fuel : Nat} (h₁ : Ws s s₁)
    (h₂ : Str s₁ k s₂) (h₃ : Ws s₂ (colon :: s₃)) (h₄ : Ws s₃ s₄)
    (h₅ : Value (jsonDepth - 1) s₄ s₅) (hend : Ends isNumberByte s₅) :
    memberLoop source name (fuel + 1) s =
      if k = name then .ok (some ((⟨k, s₄, s₅⟩ : Member).span source))
      else do
        let (again, s) ← jsonTake comma s₅
        if again then memberLoop source name fuel s else return none := by
  obtain ⟨c, u, hs₄, hc, -⟩ := h₅.head
  have hspace : skipWs s₃ = s₄ := by
    rw [hs₄] at h₄ ⊢
    exact skipWs_of_cons hc h₄
  have hskip : jsonSkip (turnsOf s₄) 1 s₄ = .ok (true, s₅) :=
    skip_complete (by decide) rfl .nil h₅ hend (Nat.le_succ _)
  rw [memberLoop, jsonKey_complete h₁ h₂]
  simp only [bind, Except.bind, Bool.not_true, jsonTake_of_ws (c := colon) rfl h₃, jsonSpace_eq,
    hspace, hskip]
  by_cases hname : k = name
  · simp only [hname]
    rfl
  · simp only [hname, decide_false]
    rfl

variable {ms : List Member}

theorem memberLoop_complete {source : Bytes}
    (h : Members (jsonDepth - 1) s ms (closeBrace :: t)) {fuel : Nat} (hlen : s.length < fuel) :
    memberLoop source name fuel s = .ok ((named name ms).map (Member.span source)) := by
  induction fuel generalizing s ms with
  | zero => cases hlen
  | succ fuel ih =>
    cases h with
    | last h₁ h₂ h₃ h₄ h₅ h₆ =>
      have hskip := skipWs_of_cons rfl h₆
      have hcomma := jsonTake_of_ne (c := comma) (by rw [hskip, head?_cons]; decide)
      rw [memberLoop_cons h₁ h₂ h₃ h₄ h₅ (ends_of_ws rfl h₆), named_cons, hcomma]
      split <;> rfl
    | cons h₁ h₂ h₃ h₄ h₅ h₆ h₇ =>
      have hlen₁ := h₁.length
      have hlen₂ := h₂.length
      have hlen₃ := h₃.length
      have hlen₄ := h₄.length
      have hlen₅ := h₅.length
      have hlen₆ := h₆.length
      rw [length_cons] at hlen₃ hlen₆
      rw [memberLoop_cons h₁ h₂ h₃ h₄ h₅ (ends_of_ws rfl h₆), named_cons, jsonTake_of_ws rfl h₆]
      split
      · rfl
      · exact ih h₇ (by omega)

theorem ObjectText.json {n : Nat} (h : ObjectText n t ms) :
    ∃ s, Ws t (openBrace :: s) ∧ JsonText n (openBrace :: s) := by
  cases h with
  | empty h₁ h₂ h₃ => exact ⟨_, h₁, _, _, .nil, .emptyObject h₂, h₃⟩
  | members h₁ hn h₂ h₃ =>
    subst hn
    exact ⟨_, h₁, _, _, .nil, .object h₂, h₃⟩

/-- **The value of the first member** with the key, and nothing where none has it. -/
theorem jsonMember_of_object (h : ObjectText jsonDepth t ms) : jsonMember (some t) (some name)
      = .ok ((named name ms).map (Member.span t)) := by
  obtain ⟨s, hws, htext⟩ := h.json
  have hspace := skipWs_of_cons rfl hws
  rw [jsonMember, jsonSpace_eq, hspace]
  simp only [bind, Except.bind, more_cons, read_cons, jsonValue_of_text htext,
    jsonTake_of_ws (c := openBrace) rfl hws]
  cases h with
  | empty h₁ h₂ h₃ =>
    have hs := (skipWs_of_cons rfl h₁).symm.trans hspace
    obtain rfl := (cons.inj hs).2
    rw [jsonTake_of_ws rfl h₂]
    rfl
  | members h₁ hn h₂ h₃ =>
    have hs := (skipWs_of_cons rfl h₁).symm.trans hspace
    rw [(cons.inj hs).2] at h₂
    obtain ⟨hskip, hhead⟩ := h₂.skip
    obtain rfl := Nat.succ.inj hn
    have hlen := hws.length
    have hshort := (skipWs_ws s).length
    rw [length_cons] at hlen
    rw [jsonTake_of_ne hhead]
    exact memberLoop_complete hskip (by omega)

/-- A text of the grammar that begins with a brace is an object. -/
theorem objectText_of_json {n : Nat} (h : JsonText n t) (hs : Ws t (openBrace :: s)) :
    ∃ ms, ObjectText n t ms := by
  obtain ⟨s₁, s₂, h₁, hvalue, h₂⟩ := h
  obtain ⟨c, u, hu, hc, -⟩ := hvalue.head
  have hfirst : s₁ = openBrace :: s := by
    rw [hu] at h₁ ⊢
    rw [← skipWs_of_cons hc h₁, skipWs_of_cons rfl hs]
  subst hfirst
  generalize hv : openBrace :: s = v at hvalue
  cases hvalue with
  | string h =>
    cases h with
    | intro => cases hv
  | word h =>
    rw [words, mem_cons, mem_cons, mem_singleton] at h
    obtain rfl | rfl | rfl := h <;> cases hv
  | number h =>
    obtain ⟨d, w, rfl, hd⟩ := h.head
    cases hv
    exact absurd rfl (number_first hd).2.2.1
  | emptyObject h =>
    cases hv
    exact ⟨[], .empty h₁ h h₂⟩
  | object h =>
    cases hv
    exact ⟨_, .members h₁ rfl h h₂⟩
  | emptyArray => cases hv
  | array => cases hv

theorem jsonMember_of_other (h : ¬ ∃ ms, ObjectText jsonDepth t ms) :
    jsonMember (some t) (some name) = .ok none := by
  have hws := skipWs_ws t
  rw [jsonMember, jsonSpace_eq]
  cases hs : skipWs t with
  | nil => rfl
  | cons c s =>
    rw [hs] at hws
    by_cases hc : c = openBrace
    · subst hc
      have hvalue : jsonValue (openBrace :: s) = .ok false := by
        have hruns := jsonValue_runs (openBrace :: s)
        cases hv : jsonValue (openBrace :: s) with
        | error e => exact (hruns.of_error hv).elim
        | ok ok =>
          cases ok with
          | false => rfl
          | true =>
            obtain ⟨s₁, s₂, h₁, hval, h₂⟩ := (hruns.of_ok hv).mp rfl
            exact absurd (objectText_of_json ⟨s₁, s₂, hws.trans h₁, hval, h₂⟩ hws) h
      simp only [bind, Except.bind, hvalue]
      rfl
    · have hne : (c != openBrace) = true := bne_iff_ne.mpr hc
      simp only [bind, Except.bind, read_cons, hne]
      rfl

-- ── Spans ────

theorem Ws.suffix (h : Ws s t) : t <:+ s := by
  induction h with
  | nil => exact suffix_rfl
  | cons _ _ ih => exact ih.trans (suffix_cons _ _)

theorem Str.suffix {d : Bytes} (h : Str s d t) : t <:+ s := by
  cases h with
  | intro h =>
    refine List.IsSuffix.trans ?_ (suffix_cons _ _)
    induction h with
    | close => exact suffix_cons _ _
    | plain _ _ _ _ ih => exact ih.trans (suffix_cons _ _)
    | escape _ _ ih => exact (ih.trans (suffix_cons _ _)).trans (suffix_cons _ _)
    | @unicode h _ _ _ _ _ _ _ ih =>
      exact ((ih.trans (suffix_append h _)).trans (suffix_cons _ _)).trans (suffix_cons _ _)

theorem suffix_of_cons {c : UInt8} (h : c :: t <:+ s) : t <:+ s := (suffix_cons c t).trans h

mutual

theorem Value.suffix {n : Nat} {s t : Bytes} : Value n s t → t <:+ s
  | .string h => h.suffix
  | .word _ => suffix_append _ _
  | .number _ => suffix_append _ _
  | .emptyObject h => (suffix_of_cons h.suffix).trans (suffix_cons _ _)
  | .object h => (suffix_of_cons h.suffix).trans (suffix_cons _ _)
  | .emptyArray h => (suffix_of_cons h.suffix).trans (suffix_cons _ _)
  | .array h => (suffix_of_cons h.suffix).trans (suffix_cons _ _)

theorem Members.suffix {n : Nat} {s t : Bytes} {ms : List Member} : Members n s ms t → t <:+ s
  | .last h₁ h₂ h₃ h₄ h₅ h₆ =>
    (((((h₆.suffix.trans h₅.suffix).trans h₄.suffix).trans (suffix_of_cons h₃.suffix)).trans
      h₂.suffix).trans h₁.suffix)
  | .cons h₁ h₂ h₃ h₄ h₅ h₆ h₇ =>
    ((((((h₇.suffix.trans (suffix_of_cons h₆.suffix)).trans h₅.suffix).trans h₄.suffix).trans
      (suffix_of_cons h₃.suffix)).trans h₂.suffix).trans h₁.suffix)

theorem Elements.suffix {n : Nat} {s t : Bytes} : Elements n s t → t <:+ s
  | .last h₁ h₂ h₃ => (h₃.suffix.trans h₂.suffix).trans h₁.suffix
  | .cons h₁ h₂ h₃ h₄ =>
    ((h₄.suffix.trans (suffix_of_cons h₃.suffix)).trans h₂.suffix).trans h₁.suffix

end

/-- The value of a member lies in the text, and what is behind it lies behind it. -/
theorem Members.spans {n : Nat} {m : Member} (h : Members n s ms t) (hm : m ∈ ms) :
    m.value <:+ s ∧ Value n m.value m.behind := by
  induction ms generalizing s with
  | nil => cases hm
  | cons x ms ih =>
    have hvalue : ∀ {s₁ s₂ s₃ s₄ k : Bytes}, Ws s s₁ → Str s₁ k s₂ → Ws s₂ (colon :: s₃) →
        Ws s₃ s₄ → s₄ <:+ s := by
      intro s₁ s₂ s₃ s₄ k h₁ h₂ h₃ h₄
      exact ((h₄.suffix.trans (suffix_of_cons h₃.suffix)).trans h₂.suffix).trans h₁.suffix
    cases h with
    | last h₁ h₂ h₃ h₄ h₅ h₆ =>
      obtain rfl := mem_singleton.mp hm
      exact ⟨hvalue h₁ h₂ h₃ h₄, h₅⟩
    | cons h₁ h₂ h₃ h₄ h₅ h₆ h₇ =>
      obtain rfl | hm := mem_cons.mp hm
      · exact ⟨hvalue h₁ h₂ h₃ h₄, h₅⟩
      · obtain ⟨hsuffix, hval⟩ := ih h₇ hm
        refine ⟨?_, hval⟩
        exact ((hsuffix.trans (suffix_of_cons h₆.suffix)).trans h₅.suffix).trans
          (hvalue h₁ h₂ h₃ h₄)

theorem ObjectText.spans {n : Nat} {m : Member} (h : ObjectText (n + 1) t ms) (hm : m ∈ ms) :
    (t.drop (m.span t).1).take (m.span t).2 ++ m.behind = m.value ∧
      (m.span t).1 + (m.span t).2 + m.behind.length = t.length ∧ Value n m.value m.behind := by
  cases h with
  | empty => cases hm
  | members h₁ hn h₂ h₃ =>
    obtain rfl := Nat.succ.inj hn
    obtain ⟨hsuffix, hval⟩ := h₂.spans hm
    obtain ⟨a, ha⟩ := hsuffix.trans (suffix_of_cons h₁.suffix)
    obtain ⟨v, hv⟩ := hval.suffix
    have hlen : t.length = a.length + m.value.length := by rw [← ha, length_append]
    have hlen' : m.value.length = v.length + m.behind.length := by rw [← hv, length_append]
    have hstart : (m.span t).1 = a.length := by
      rw [Member.span]
      omega
    have hcount : (m.span t).2 = v.length := by
      rw [Member.span]
      omega
    refine ⟨?_, by omega, hval⟩
    rw [hstart, hcount, ← ha, drop_left, ← hv, take_left]

-- ── The scanner and its grammar ────

/-- Bytes that are characters in UTF-8. -/
def Utf8Text (t : Bytes) : Prop := ∃ text : List Char, t = text.flatMap String.utf8EncodeChar

/-- **The JSON scanner** accepts exactly its grammar, gives the value of the first member
    with a key and the exact values of integers, and reads nothing past the end. -/
theorem scanner_exact : (∀ s, Runs (jsonValue s) fun ok => ok = true ↔ JsonText jsonDepth s) ∧
    (∀ s u, JsonText jsonDepth s → Ws s (openBrace :: u) → ∃ ms, ObjectText jsonDepth s ms) ∧
    (∀ t name ms, ObjectText jsonDepth t ms →
      jsonMember (some t) (some name) = .ok ((named name ms).map (Member.span t)) ∧
      ∀ m ∈ ms, (t.drop (m.span t).1).take (m.span t).2 ++ m.behind = m.value ∧
        (m.span t).1 + (m.span t).2 + m.behind.length = t.length ∧
        Value (jsonDepth - 1) m.value m.behind) ∧
    (∀ t name, (¬ ∃ ms, ObjectText jsonDepth t ms) → jsonMember (some t) (some name) = .ok none) ∧
    (∀ p, Runs (jsonInteger p) fun o => ∀ v, o = some v ↔
      IntegerText p v ∧ -(2 ^ 63) ≤ v ∧ v < 2 ^ 63) ∧
    (∀ p, Runs (jsonUnsigned p) fun o => ∀ v, o = some v ↔ IntegerText p v.toNat) := by
  refine ⟨jsonValue_runs, ?_, ?_, ?_, jsonInteger_runs, jsonUnsigned_runs⟩
  · intro s u h hs
    exact objectText_of_json h hs
  · intro t name ms h
    exact ⟨jsonMember_of_object h, fun m hm => h.spans hm⟩
  · intro t name h
    exact jsonMember_of_other h

theorem utf8_byte_lt {c : Char} {b : UInt8} (h : b ∈ String.utf8EncodeChar c) :
    ∃ n, n < 255 ∧ b = UInt8.ofNat n := by
  rw [String.utf8EncodeChar] at h
  split at h
  · rw [mem_singleton] at h
    exact ⟨_, by omega, h⟩
  · split at h
    · simp only [mem_cons, not_mem_nil, or_false] at h
      obtain h | h := h <;> exact ⟨_, by omega, h⟩
    · split at h
      · simp only [mem_cons, not_mem_nil, or_false] at h
        obtain h | h | h := h <;> exact ⟨_, by omega, h⟩
      · simp only [mem_cons, not_mem_nil, or_false] at h
        obtain h | h | h | h := h <;> exact ⟨_, by omega, h⟩

/-- A string of the byte 255 is accepted, though the byte is in no UTF-8 text. -/
theorem byte_255_accepted : ¬ ∀ t, jsonValue t = .ok true ↔ JsonText jsonDepth t ∧ Utf8Text t := by
  intro h
  obtain ⟨-, text, htext⟩ := (h [quote, 255, quote]).mp (by decide)
  have hmem : (255 : UInt8) ∈ text.flatMap String.utf8EncodeChar := by
    rw [← htext]
    decide
  obtain ⟨c, -, hc⟩ := mem_flatMap.mp hmem
  obtain ⟨n, hn, h255⟩ := utf8_byte_lt hc
  have hto := congrArg UInt8.toNat h255
  rw [UInt8.toNat_ofNat_of_lt' (Nat.lt_succ_of_lt hn)] at hto
  exact absurd hto.symm (Nat.ne_of_lt hn)

end AnticJson
