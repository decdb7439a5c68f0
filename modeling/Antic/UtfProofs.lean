import Mathlib.Tactic.Ring
import Antic.Utf
import Antic.Utf8Table

/-! # The conversions are exact

    A sequence is accepted where its first byte gives its length and the range of its
    second byte, and every byte behind is in its range; these are the rows of the table.

    * `decode_iff` — the decoder accepts the well-formed sequences, with their values.
    * `repair_text`, `repair_eq` — the repair writes well-formed bytes, and keeps them.
    * `nameUnits_nameBytes` — the units of a name come back from its bytes.
    * **`utf_conversions`** — all of it. -/

namespace AnticUtf

open Utf8Table List Option Bool Nat

-- ── Bits ────

theorem and_low (x : Nat) : x &&& 0x3F = x % 64 := and_two_pow_sub_one_eq_mod x 6

theorem push_bits (c x : Nat) : c <<< 6 ||| (x &&& 0x3F) = c * 64 + x % 64 := by
  have hlt : x % 64 < 2 ^ 6 := mod_lt x (by decide)
  rw [and_low, ← shiftLeft_add_eq_or_of_lt hlt, shiftLeft_eq]

/-- The low bits of a first byte, by the length of its sequence. -/
theorem and_first {k : Nat} (hk : k ∈ [2, 3, 4]) (x : Nat) :
    x &&& 0x7F >>> k = x % 2 ^ (7 - k) := by
  have hmask : 0x7F >>> k = 2 ^ (7 - k) - 1 := by
    revert k
    decide
  rw [hmask]
  exact and_two_pow_sub_one_eq_mod x (7 - k)

variable {t s : Bytes} {low high c room : Nat} {a : UInt8}

theorem value_eq (ht : ∀ b ∈ t, Tail b) (c : Nat) :
    t.foldl (fun c b => c <<< 6 ||| (b.toNat &&& 0x3F)) c = value c t := by
  induction t generalizing c with
  | nil => rw [foldl_nil, value, foldl_nil]
  | cons b t ih =>
    have hb := ht b mem_cons_self
    have hlow : b.toNat % 64 = b.toNat - 0x80 := by
      obtain ⟨h1, h2⟩ := hb
      omega
    rw [foldl_cons, push_bits, hlow, ih fun x hx => ht x (mem_cons_of_mem b hx), value,
      value, foldl_cons]

-- ── The rows of the table ────

/-- The bytes from the place `i` of a sequence on are in their ranges. -/
def goodFrom (low high : Nat) : (i : Nat) → Bytes → Bool
  | _, [] => true
  | i, b :: t => within low high i b && goodFrom low high (i + 1) t

/-- The value that the decoder makes of a first byte and the bytes behind it. -/
def decoded (a : UInt8) (t : Bytes) : Nat :=
  t.foldl (fun c b => c <<< 6 ||| (b.toNat &&& 0x3F))
    (if t.length + 1 = 1 then a.toNat else a.toNat &&& 0x7F >>> (t.length + 1))

theorem within_iff {i : Nat} {b : UInt8} : within low high i b = true ↔
    (if i = 1 then low else 0x80) ≤ b.toNat ∧ b.toNat ≤ (if i = 1 then high else 0xBF) := by
  rw [within, and_eq_true, decide_eq_true_eq, decide_eq_true_eq]

theorem decoded_eq (hk : t.length + 1 ∈ [2, 3, 4]) (ht : ∀ b ∈ t, Tail b) :
    decoded a t = value (a.toNat % 2 ^ (7 - (t.length + 1))) t := by
  have hne : ¬ t.length + 1 = 1 := by
    intro h
    rw [h] at hk
    exact absurd hk (by decide)
  rw [decoded, if_neg hne, and_first hk, value_eq ht]

theorem tail_of_range (hlow : 0x80 ≤ low) (hhigh : high ≤ 0xBF) {i : Nat}
    (h : goodFrom low high i t = true) : ∀ b ∈ t, Tail b := by
  induction t generalizing i with
  | nil => exact fun b hb => absurd hb not_mem_nil
  | cons x t ih =>
    rw [goodFrom, and_eq_true, within_iff] at h
    intro b hb
    rcases mem_cons.mp hb with rfl | hb
    · obtain ⟨⟨h1, h2⟩, -⟩ := h
      refine ⟨?_, ?_⟩
      · split at h1 <;> omega
      · split at h2 <;> omega
    · exact ih h.2 b hb

theorem sequenceLength_range (a : Nat) : 0x80 ≤ (sequenceLength a).2.1 ∧
    (sequenceLength a).2.2 ≤ 0xBF ∧ (sequenceLength a).1 ≤ 4 := by
  rw [sequenceLength]
  repeat' split
  all_goals decide

theorem sequenceLength_two {a : Nat} (h1 : 0xC2 ≤ a) (h2 : a ≤ 0xDF) :
    sequenceLength a = (2, 0x80, 0xBF) := by
  rw [sequenceLength, if_neg (by omega), if_pos ⟨h1, h2⟩]

theorem sequenceLength_three {a : Nat} (h1 : 0xE0 ≤ a) (h2 : a ≤ 0xEF) :
    sequenceLength a = (3, if a = 0xE0 then 0xA0 else 0x80, if a = 0xED then 0x9F else 0xBF) := by
  rw [sequenceLength, if_neg (by omega), if_neg (by omega), if_pos ⟨h1, h2⟩]

theorem sequenceLength_four {a : Nat} (h1 : 0xF0 ≤ a) (h2 : a ≤ 0xF4) :
    sequenceLength a = (4, if a = 0xF0 then 0x90 else 0x80, if a = 0xF4 then 0x8F else 0xBF) := by
  rw [sequenceLength, if_neg (by omega), if_neg (by omega), if_neg (by omega), if_pos ⟨h1, h2⟩]

/-- What the decoder asks of a sequence. -/
structure Good (a : UInt8) (t : Bytes) (low high : Nat) : Prop where
  length : sequenceLength a.toNat = (t.length + 1, low, high)
  bytes : goodFrom low high 1 t = true

theorem Good.tail (h : Good a t low high) : ∀ b ∈ t, Tail b := by
  have hrange := sequenceLength_range a.toNat
  rw [h.length] at hrange
  exact tail_of_range hrange.1 hrange.2.1 h.bytes

theorem good_two {b : UInt8} (h1 : 0xC2 ≤ a.toNat) (h2 : a.toNat ≤ 0xDF) (hb : Tail b) :
    ∃ low high, Good a [b] low high ∧ value (a.toNat - 0xC0) [b] = decoded a [b] := by
  have hgood : Good a [b] 0x80 0xBF := by
    refine ⟨sequenceLength_two h1 h2, ?_⟩
    rw [goodFrom, goodFrom, Bool.and_true, within_iff]
    exact hb
  have hfirst : a.toNat - 0xC0 = a.toNat % 2 ^ 5 := by omega
  refine ⟨_, _, hgood, ?_⟩
  rw [decoded_eq (t := [b]) (by decide : 2 ∈ [2, 3, 4]) hgood.tail, hfirst]
  rfl

theorem good_three {b c : UInt8} (h1 : 0xE0 ≤ a.toNat) (h2 : a.toNat ≤ 0xEF)
    (hlow : (if a.toNat = 0xE0 then 0xA0 else 0x80) ≤ b.toNat)
    (hhigh : b.toNat ≤ (if a.toNat = 0xED then 0x9F else 0xBF)) (hc : Tail c) :
    ∃ low high, Good a [b, c] low high ∧ value (a.toNat - 0xE0) [b, c] = decoded a [b, c] := by
  have hgood : Good a [b, c] (if a.toNat = 0xE0 then 0xA0 else 0x80)
      (if a.toNat = 0xED then 0x9F else 0xBF) := by
    refine ⟨sequenceLength_three h1 h2, ?_⟩
    rw [goodFrom, goodFrom, goodFrom, Bool.and_true, and_eq_true, within_iff, within_iff]
    exact ⟨⟨hlow, hhigh⟩, hc⟩
  have hfirst : a.toNat - 0xE0 = a.toNat % 2 ^ 4 := by omega
  refine ⟨_, _, hgood, ?_⟩
  rw [decoded_eq (t := [b, c]) (by decide : 3 ∈ [2, 3, 4]) hgood.tail, hfirst]
  rfl

theorem good_four {b c d : UInt8} (h1 : 0xF0 ≤ a.toNat) (h2 : a.toNat ≤ 0xF4)
    (hlow : (if a.toNat = 0xF0 then 0x90 else 0x80) ≤ b.toNat)
    (hhigh : b.toNat ≤ (if a.toNat = 0xF4 then 0x8F else 0xBF)) (hc : Tail c) (hd : Tail d) :
    ∃ low high, Good a [b, c, d] low high ∧
      value (a.toNat - 0xF0) [b, c, d] = decoded a [b, c, d] := by
  have hgood : Good a [b, c, d] (if a.toNat = 0xF0 then 0x90 else 0x80)
      (if a.toNat = 0xF4 then 0x8F else 0xBF) := by
    refine ⟨sequenceLength_four h1 h2, ?_⟩
    rw [goodFrom, goodFrom, goodFrom, goodFrom, Bool.and_true, and_eq_true, and_eq_true,
      within_iff, within_iff, within_iff]
    exact ⟨⟨hlow, hhigh⟩, hc, hd⟩
  have hfirst : a.toNat - 0xF0 = a.toNat % 2 ^ 3 := by omega
  refine ⟨_, _, hgood, ?_⟩
  rw [decoded_eq (t := [b, c, d]) (by decide : 4 ∈ [2, 3, 4]) hgood.tail, hfirst]
  rfl

/-- **The rows of the table** are what the decoder asks. -/
theorem sequence_iff {p : Bytes} {v : Nat} : Sequence p v ↔
    ∃ a t low high, p = a :: t ∧ Good a t low high ∧ v = decoded a t := by
  constructor
  · intro h
    cases h with
    | @one a ha => refine ⟨a, [], 0x80, 0xBF, rfl, ⟨if_pos (lt_succ_of_le ha), rfl⟩, rfl⟩
    | two h1 h2 hb =>
      obtain ⟨low, high, hgood, hv⟩ := good_two h1 h2 hb
      exact ⟨_, _, low, high, rfl, hgood, hv⟩
    | @e0 a b c ha h1 h2 hc =>
      obtain ⟨low, high, hgood, hv⟩ := good_three (a := a) (b := b) (by omega) (by omega)
        (by rw [if_pos ha]; exact h1) (by rw [if_neg (by omega)]; exact h2) hc
      exact ⟨_, _, low, high, rfl, hgood, hv⟩
    | @e1 a b c h1 h2 hb hc | @ee a b c h1 h2 hb hc =>
      obtain ⟨low, high, hgood, hv⟩ := good_three (a := a) (b := b) (by omega) (by omega)
        (by rw [if_neg (by omega)]; exact hb.1) (by rw [if_neg (by omega)]; exact hb.2) hc
      exact ⟨_, _, low, high, rfl, hgood, hv⟩
    | @ed a b c ha h1 h2 hc =>
      obtain ⟨low, high, hgood, hv⟩ := good_three (a := a) (b := b) (by omega) (by omega)
        (by rw [if_neg (by omega)]; exact h1) (by rw [if_pos ha]; exact h2) hc
      exact ⟨_, _, low, high, rfl, hgood, hv⟩
    | @f0 a b c d ha h1 h2 hc hd =>
      obtain ⟨low, high, hgood, hv⟩ := good_four (a := a) (b := b) (by omega) (by omega)
        (by rw [if_pos ha]; exact h1) (by rw [if_neg (by omega)]; exact h2) hc hd
      exact ⟨_, _, low, high, rfl, hgood, hv⟩
    | @f1 a b c d h1 h2 hb hc hd =>
      obtain ⟨low, high, hgood, hv⟩ := good_four (a := a) (b := b) (by omega) (by omega)
        (by rw [if_neg (by omega)]; exact hb.1) (by rw [if_neg (by omega)]; exact hb.2) hc hd
      exact ⟨_, _, low, high, rfl, hgood, hv⟩
    | @f4 a b c d ha h1 h2 hc hd =>
      obtain ⟨low, high, hgood, hv⟩ := good_four (a := a) (b := b) (by omega) (by omega)
        (by rw [if_neg (by omega)]; exact h1) (by rw [if_pos ha]; exact h2) hc hd
      exact ⟨_, _, low, high, rfl, hgood, hv⟩
  · rintro ⟨a, t, low, high, rfl, hgood, rfl⟩
    have hlength := hgood.length
    have hbytes := hgood.bytes
    by_cases h1 : a.toNat < 0x80
    · rw [sequenceLength, if_pos h1, Prod.mk.injEq] at hlength
      obtain rfl : t = [] := length_eq_zero_iff.mp (by omega)
      exact .one (by omega)
    by_cases h2 : 0xC2 ≤ a.toNat ∧ a.toNat ≤ 0xDF
    · rw [sequenceLength_two h2.1 h2.2, Prod.mk.injEq, Prod.mk.injEq] at hlength
      obtain ⟨hlen, rfl, rfl⟩ := hlength
      obtain ⟨b, rfl⟩ := length_eq_one_iff.mp (succ.inj hlen).symm
      rw [goodFrom, goodFrom, Bool.and_true, within_iff] at hbytes
      obtain ⟨-, -, -, hv⟩ := good_two h2.1 h2.2 hbytes
      rw [← hv]
      exact .two h2.1 h2.2 hbytes
    by_cases h3 : 0xE0 ≤ a.toNat ∧ a.toNat ≤ 0xEF
    · rw [sequenceLength_three h3.1 h3.2, Prod.mk.injEq, Prod.mk.injEq] at hlength
      obtain ⟨hlen, rfl, rfl⟩ := hlength
      obtain ⟨b, c, rfl⟩ := length_eq_two.mp (succ.inj hlen).symm
      rw [goodFrom, goodFrom, goodFrom, Bool.and_true, and_eq_true, within_iff, within_iff,
        if_pos rfl, if_pos rfl] at hbytes
      obtain ⟨⟨hlow, hhigh⟩, hc⟩ := hbytes
      obtain ⟨-, -, -, hv⟩ := good_three h3.1 h3.2 hlow hhigh hc
      rw [← hv]
      by_cases he0 : a.toNat = 0xE0
      · rw [if_pos he0] at hlow
        rw [if_neg (by omega)] at hhigh
        exact .e0 he0 hlow hhigh hc
      · rw [if_neg he0] at hlow
        by_cases hed : a.toNat = 0xED
        · rw [if_pos hed] at hhigh
          exact .ed hed hlow hhigh hc
        · rw [if_neg hed] at hhigh
          by_cases hle : a.toNat ≤ 0xEC
          · exact .e1 (by omega) hle ⟨hlow, hhigh⟩ hc
          · exact .ee (by omega) h3.2 ⟨hlow, hhigh⟩ hc
    by_cases h4 : 0xF0 ≤ a.toNat ∧ a.toNat ≤ 0xF4
    · rw [sequenceLength_four h4.1 h4.2, Prod.mk.injEq, Prod.mk.injEq] at hlength
      obtain ⟨hlen, rfl, rfl⟩ := hlength
      obtain ⟨b, c, d, rfl⟩ := length_eq_three.mp (succ.inj hlen).symm
      rw [goodFrom, goodFrom, goodFrom, goodFrom, Bool.and_true, and_eq_true, and_eq_true,
        within_iff, within_iff, within_iff, if_pos rfl, if_pos rfl] at hbytes
      obtain ⟨⟨hlow, hhigh⟩, hc, hd⟩ := hbytes
      obtain ⟨-, -, -, hv⟩ := good_four h4.1 h4.2 hlow hhigh hc hd
      rw [← hv]
      by_cases hf0 : a.toNat = 0xF0
      · rw [if_pos hf0] at hlow
        rw [if_neg (by omega)] at hhigh
        exact .f0 hf0 hlow hhigh hc hd
      · rw [if_neg hf0] at hlow
        by_cases hf4 : a.toNat = 0xF4
        · rw [if_pos hf4] at hhigh
          exact .f4 hf4 hlow hhigh hc hd
        · rw [if_neg hf4] at hhigh
          exact .f1 (by omega) (by omega) ⟨hlow, hhigh⟩ hc hd
    · rw [sequenceLength, if_neg h1, if_neg h2, if_neg h3, if_neg h4, Prod.mk.injEq] at hlength
      omega

-- ── The decoder ────

/-- The loop of the decoder looks at the bytes behind the first one. -/
theorem decodeFrom_eq (low high : Nat) (t : Bytes) (pre rest : Bytes) (c : Nat) :
    decodeFrom (pre ++ (t ++ rest)) low high t.length pre.length c =
      if goodFrom low high pre.length t = true then
        some (t.foldl (fun c b => c <<< 6 ||| (b.toNat &&& 0x3F)) c)
      else none := by
  induction t generalizing pre c with
  | nil => rw [length_nil, decodeFrom, goodFrom, if_pos rfl, foldl_nil]
  | cons b t ih =>
    have hread : (pre ++ (b :: t ++ rest))[pre.length]? = some b := by
      rw [getElem?_append_right (Nat.le_refl _), Nat.sub_self, cons_append, getElem?_cons_zero]
    have hrest := ih (pre ++ [b]) (c <<< 6 ||| (b.toNat &&& 0x3F))
    rw [append_assoc, singleton_append, length_append, length_singleton] at hrest
    rw [length_cons, decodeFrom, hread, goodFrom]
    dsimp only
    by_cases hb : within low high pre.length b = true
    · rw [if_pos hb, hb, Bool.true_and, cons_append, hrest, foldl_cons]
    · rw [if_neg hb, if_neg]
      rw [and_eq_true]
      exact fun h => hb h.1

/-- The decoder gives the value and the length of a good sequence, and no other length. -/
theorem decode_cons {v k : Nat} (hk : k ≠ 0) : decode (a :: s) = (v, k) ↔
    ∃ t rest low high, s = t ++ rest ∧ Good a t low high ∧ v = decoded a t ∧ k = t.length + 1 := by
  constructor
  · intro h
    obtain ⟨count, low, high, hlength⟩ : ∃ count low high, sequenceLength a.toNat = (count, low, high) :=
      ⟨_, _, _, rfl⟩
    rw [decode, hlength] at h
    dsimp only at h
    by_cases hcount : count = 0 ∨ count > (a :: s).length
    · rw [if_pos hcount, Prod.mk.injEq] at h
      exact absurd h.2.symm hk
    · rw [if_neg hcount] at h
      rw [length_cons] at hcount
      have hlen : (s.take (count - 1)).length + 1 = count := by
        rw [length_take]
        omega
      have hloop := decodeFrom_eq low high (s.take (count - 1)) [a]
        (s.drop (count - 1)) (if count = 1 then a.toNat else a.toNat &&& 0x7F >>> count)
      have hlen' : (s.take (count - 1)).length = count - 1 := by omega
      rw [take_append_drop, singleton_append, length_singleton, hlen'] at hloop
      rw [hloop] at h
      by_cases hgood : goodFrom low high 1 (s.take (count - 1)) = true
      · rw [if_pos hgood] at h
        dsimp only at h
        rw [Prod.mk.injEq] at h
        refine ⟨_, _, low, high, (take_append_drop (count - 1) s).symm, ⟨?_, hgood⟩, ?_, ?_⟩
        · rw [hlen, hlength]
        · rw [← h.1, decoded, hlen]
        · rw [hlen, h.2]
      · rw [if_neg hgood] at h
        dsimp only at h
        rw [Prod.mk.injEq] at h
        exact absurd h.2.symm hk
  · rintro ⟨t, rest, low, high, rfl, hgood, rfl, rfl⟩
    have hloop := decodeFrom_eq low high t [a] rest
      (if t.length + 1 = 1 then a.toNat else a.toNat &&& 0x7F >>> (t.length + 1))
    rw [singleton_append, length_singleton, if_pos hgood.bytes] at hloop
    have hroom : ¬ (t.length + 1 = 0 ∨ t.length + 1 > (a :: (t ++ rest)).length) := by
      rw [length_cons, length_append]
      omega
    rw [decode, hgood.length]
    dsimp only
    rw [if_neg hroom, Nat.add_sub_cancel, hloop]
    rfl

/-- **The decoder** accepts exactly the sequences of the table, and gives their values. -/
theorem decode_iff {v k : Nat} (hk : k ≠ 0) : decode s = (v, k) ↔
    ∃ p rest, s = p ++ rest ∧ Sequence p v ∧ k = p.length := by
  constructor
  · intro h
    cases s with
    | nil =>
      rw [decode, Prod.mk.injEq] at h
      exact absurd h.2.symm hk
    | cons a s =>
      obtain ⟨t, rest, low, high, rfl, hgood, hv, hlen⟩ := (decode_cons hk).mp h
      exact ⟨a :: t, rest, rfl, sequence_iff.mpr ⟨a, t, low, high, rfl, hgood, hv⟩, hlen⟩
  · rintro ⟨p, rest, rfl, hp, rfl⟩
    obtain ⟨a, t, low, high, rfl, hgood, hv⟩ := sequence_iff.mp hp
    exact (decode_cons hk).mpr ⟨t, rest, low, high, rfl, hgood, hv, rfl⟩

theorem decode_zero (h : (decode s).2 = 0) : decode s = (0, 0) := by
  cases s with
  | nil => rfl
  | cons a s =>
    obtain ⟨count, low, high, hlength⟩ : ∃ count low high,
      sequenceLength a.toNat = (count, low, high) := ⟨_, _, _, rfl⟩
    rw [decode, hlength] at h ⊢
    dsimp only at h ⊢
    split
    · rfl
    · next hcount =>
        rw [if_neg hcount] at h
        split
        · rfl
        · next c hloop =>
            rw [hloop] at h
            exact absurd (Or.inl h) hcount

theorem decode_refuses (h : ∀ p v, p <+: s → ¬ Sequence p v) : decode s = (0, 0) := by
  refine decode_zero ?_
  by_contra hk
  obtain ⟨p, rest, rfl, hp, -⟩ := (decode_iff hk).mp rfl
  exact h p _ (prefix_append p rest) hp

-- ── The repair ────

theorem goodBytes_eq (t : Bytes) (pre rest : Bytes) (h : goodFrom low high pre.length t = true) :
    goodBytes (pre ++ (t ++ rest)) low high t.length pre.length = pre.length + t.length := by
  induction t generalizing pre with
  | nil => rfl
  | cons b t ih =>
    have hread : (pre ++ (b :: t ++ rest))[pre.length]? = some b := by
      rw [getElem?_append_right (Nat.le_refl _), Nat.sub_self, cons_append, getElem?_cons_zero]
    rw [goodFrom, and_eq_true] at h
    have hrest := ih (pre ++ [b]) (by rw [length_append]; exact h.2)
    rw [append_assoc, singleton_append, length_append, length_singleton] at hrest
    rw [length_cons, goodBytes, hread]
    dsimp only
    rw [if_pos h.1, cons_append, hrest, Nat.add_assoc, Nat.add_comm 1]

theorem good_of_goodBytes (left : Nat) (pre s : Bytes)
    (h : goodBytes (pre ++ s) low high left pre.length = pre.length + left) :
    ∃ t rest, s = t ++ rest ∧ t.length = left ∧ goodFrom low high pre.length t = true := by
  induction left generalizing pre s with
  | zero => exact ⟨[], s, rfl, rfl, rfl⟩
  | succ left ih =>
    cases s with
    | nil =>
      rw [append_nil, goodBytes, getElem?_eq_none (Nat.le_refl _)] at h
      dsimp only at h
      omega
    | cons b s =>
      have hread : (pre ++ b :: s)[pre.length]? = some b := by
        rw [getElem?_append_right (Nat.le_refl _), Nat.sub_self, getElem?_cons_zero]
      rw [goodBytes, hread] at h
      dsimp only at h
      by_cases hb : within low high pre.length b = true
      · rw [if_pos hb] at h
        obtain ⟨t, rest, rfl, hlen, hgood⟩ := ih (pre ++ [b]) s (by
          rw [append_assoc, singleton_append, length_append, length_singleton, h]
          omega)
        refine ⟨b :: t, rest, rfl, by rw [length_cons, hlen], ?_⟩
        rw [length_append] at hgood
        rw [goodFrom, hb, Bool.true_and]
        exact hgood
      · rw [if_neg hb] at h
        omega

theorem repair_good (h : Good a t low high) (rest : Bytes) :
    repair (a :: (t ++ rest)) = (a :: t) ++ repair rest := by
  have hgood := goodBytes_eq t [a] rest h.bytes
  rw [singleton_append, length_singleton] at hgood
  have hif : t.length + 1 > 0 ∧ 1 + t.length = t.length + 1 := ⟨succ_pos _, Nat.add_comm _ _⟩
  rw [repair, h.length]
  dsimp only
  rw [if_neg (succ_ne_zero _), Nat.add_sub_cancel, hgood, if_pos hif, take_succ_cons,
    take_left, drop_succ_cons, drop_left]

/-- A step of the repair keeps a good sequence, or puts the replacement character. -/
theorem repair_cons (a : UInt8) (s : Bytes) :
    (∃ t rest low high, s = t ++ rest ∧ Good a t low high ∧
      repair (a :: s) = (a :: t) ++ repair rest) ∨
    ∃ k, repair (a :: s) = putScalar 0xFFFD ++ repair (s.drop k) := by
  obtain ⟨count, low, high, hlength⟩ : ∃ count low high, sequenceLength a.toNat = (count, low, high) :=
    ⟨_, _, _, rfl⟩
  by_cases hif : count > 0 ∧ (if count = 0 then 0 else goodBytes (a :: s) low high (count - 1) 1) = count
  · left
    have hgood := hif.2
    rw [if_neg (Nat.ne_of_gt hif.1)] at hgood
    obtain ⟨t, rest, rfl, hlen, hbytes⟩ := good_of_goodBytes (count - 1) [a] s
      (by rw [singleton_append, length_singleton, hgood]; omega)
    have hgood' : Good a t low high := ⟨by rw [hlength, hlen, Nat.sub_add_cancel hif.1], hbytes⟩
    exact ⟨t, rest, low, high, rfl, hgood', repair_good hgood' rest⟩
  · right
    rw [repair, hlength]
    dsimp only
    have hstep : ∀ n : Nat, ∃ k, (if n = 0 then 1 else n) = k + 1 := by
      intro n
      by_cases hn : n = 0
      · exact ⟨0, if_pos hn⟩
      · obtain ⟨k, hk⟩ := exists_eq_succ_of_ne_zero hn
        exact ⟨k, (if_neg hn).trans hk⟩
    obtain ⟨k, hk⟩ := hstep (if count = 0 then 0 else goodBytes (a :: s) low high (count - 1) 1)
    rw [if_neg hif, hk, drop_succ_cons]
    exact ⟨k, rfl⟩

theorem text_replacement (h : Text s) : Text (putScalar 0xFFFD ++ s) :=
  .cons (.ee (by decide) (by decide) ⟨by decide, by decide⟩ ⟨by decide, by decide⟩) h

/-- **The repair writes well-formed bytes**, three for each that it reads at most. -/
theorem repair_text (s : Bytes) : Text (repair s) ∧ (repair s).length ≤ 3 * s.length := by
  induction hn : s.length using Nat.strongRecOn generalizing s with
  | ind n ih =>
    subst hn
    cases s with
    | nil =>
      rw [repair]
      exact ⟨.nil, Nat.zero_le _⟩
    | cons a s =>
      rcases repair_cons a s with ⟨t, rest, low, high, rfl, hgood, hrepair⟩ | ⟨k, hrepair⟩
      · have hsmaller : rest.length < (a :: (t ++ rest)).length := by
          rw [length_cons, length_append]
          omega
        obtain ⟨htext, hlen⟩ := ih _ hsmaller rest rfl
        rw [hrepair]
        refine ⟨.cons (sequence_iff.mpr ⟨a, t, low, high, rfl, hgood, rfl⟩) htext, ?_⟩
        simp only [length_append, length_cons]
        omega
      · have hdrop : (s.drop k).length ≤ s.length := by
          rw [length_drop]
          omega
        obtain ⟨htext, hlen⟩ := ih _ (lt_succ_of_le hdrop) (s.drop k) rfl
        rw [hrepair]
        refine ⟨text_replacement htext, ?_⟩
        have hthree : (putScalar 0xFFFD).length = 3 := rfl
        rw [length_append, length_cons, hthree]
        omega

/-- **Well-formed bytes stay** as they are. -/
theorem repair_eq (h : Text s) : repair s = s := by
  induction h with
  | nil => rw [repair]
  | cons hp _ ih =>
    obtain ⟨a, t, low, high, rfl, hgood, -⟩ := sequence_iff.mp hp
    rw [cons_append, repair_good hgood, ih]
    rfl

-- ── Scalar values ────

theorem tailByte (x : Nat) : (UInt8.ofNat (0x80 ||| (x &&& 0x3F))).toNat = 0x80 + x % 64 := by
  have hlt : x % 64 < 2 ^ 6 := mod_lt x (by decide)
  have hor : 0x80 ||| x % 64 = 0x80 + x % 64 := (two_pow_add_eq_or_of_lt hlt 2).symm
  rw [and_low, hor, UInt8.toNat_ofNat']
  omega

theorem putScalar_two (h1 : 0x80 ≤ c) (h2 : c < 0x800) :
    ∃ a b : UInt8, putScalar c = [a, b] ∧ a.toNat = 0xC0 + c / 64 ∧ b.toNat = 0x80 + c % 64 := by
  have hlt : c / 2 ^ 6 < 2 ^ 6 := by omega
  have hor : 0xC0 ||| c / 2 ^ 6 = 0xC0 + c / 2 ^ 6 := (two_pow_add_eq_or_of_lt hlt 3).symm
  refine ⟨_, _, by rw [putScalar, if_neg (by omega), if_pos h2], ?_, tailByte c⟩
  rw [shiftRight_eq_div_pow, hor, UInt8.toNat_ofNat']
  omega

theorem putScalar_three (h1 : 0x800 ≤ c) (h2 : c < 0x10000) :
    ∃ a b d : UInt8, putScalar c = [a, b, d] ∧ a.toNat = 0xE0 + c / 4096 ∧
      b.toNat = 0x80 + c / 64 % 64 ∧ d.toNat = 0x80 + c % 64 := by
  have hlt : c / 2 ^ 12 < 2 ^ 5 := by omega
  have hor : 0xE0 ||| c / 2 ^ 12 = 0xE0 + c / 2 ^ 12 := (two_pow_add_eq_or_of_lt hlt 7).symm
  refine ⟨_, _, _, by rw [putScalar, if_neg (by omega), if_neg (by omega), if_pos h2], ?_, ?_,
    tailByte c⟩
  · rw [shiftRight_eq_div_pow, hor, UInt8.toNat_ofNat']
    omega
  · rw [tailByte, shiftRight_eq_div_pow]

theorem putScalar_four (h1 : 0x10000 ≤ c) (h2 : c < 0x110000) :
    ∃ a b d e : UInt8, putScalar c = [a, b, d, e] ∧ a.toNat = 0xF0 + c / 262144 ∧
      b.toNat = 0x80 + c / 4096 % 64 ∧ d.toNat = 0x80 + c / 64 % 64 ∧ e.toNat = 0x80 + c % 64 := by
  have hlt : c / 2 ^ 18 < 2 ^ 4 := by omega
  have hor : 0xF0 ||| c / 2 ^ 18 = 0xF0 + c / 2 ^ 18 := (two_pow_add_eq_or_of_lt hlt 15).symm
  refine ⟨_, _, _, _, by rw [putScalar, if_neg (by omega), if_neg (by omega), if_neg (by omega)], ?_,
    ?_, ?_, tailByte c⟩
  · rw [shiftRight_eq_div_pow, hor, UInt8.toNat_ofNat']
    omega
  · rw [tailByte, shiftRight_eq_div_pow]
  · rw [tailByte, shiftRight_eq_div_pow]

/-- **A scalar value** is put as its sequence. -/
theorem putScalar_sequence (hc : c < 0x110000) (hs : ¬ (0xD800 ≤ c ∧ c ≤ 0xDFFF)) :
    Sequence (putScalar c) c := by
  by_cases h1 : c < 0x80
  · have hput : putScalar c = [UInt8.ofNat c] := if_pos h1
    have hbyte : (UInt8.ofNat c).toNat = c := by
      rw [UInt8.toNat_ofNat']
      omega
    have hone := Sequence.one (a := UInt8.ofNat c) (by omega)
    rw [hbyte] at hone
    rw [hput]
    exact hone
  by_cases h2 : c < 0x800
  · obtain ⟨a, b, hput, ha, hb⟩ := putScalar_two (by omega) h2
    have hvalue : value (a.toNat - 0xC0) [b] = c := by
      rw [value, foldl_cons, foldl_nil]
      omega
    have htwo := Sequence.two (a := a) (b := b) (by omega) (by omega) ⟨by omega, by omega⟩
    rw [hvalue] at htwo
    rw [hput]
    exact htwo
  by_cases h3 : c < 0x10000
  · obtain ⟨a, b, d, hput, ha, hb, hd⟩ := putScalar_three (by omega) h3
    have hvalue : value (a.toNat - 0xE0) [b, d] = c := by
      rw [value, foldl_cons, foldl_cons, foldl_nil]
      omega
    have htail : Tail d := ⟨by omega, by omega⟩
    rw [hput, ← hvalue]
    by_cases he0 : a.toNat = 0xE0
    · exact .e0 he0 (by omega) (by omega) htail
    by_cases hed : a.toNat = 0xED
    · exact .ed hed (by omega) (by omega) htail
    by_cases hle : a.toNat ≤ 0xEC
    · exact .e1 (by omega) hle ⟨by omega, by omega⟩ htail
    · exact .ee (by omega) (by omega) ⟨by omega, by omega⟩ htail
  · obtain ⟨a, b, d, e, hput, ha, hb, hd, he⟩ := putScalar_four (by omega) hc
    have hvalue : value (a.toNat - 0xF0) [b, d, e] = c := by
      rw [value, foldl_cons, foldl_cons, foldl_cons, foldl_nil]
      omega
    have htail : Tail d := ⟨by omega, by omega⟩
    have htail' : Tail e := ⟨by omega, by omega⟩
    rw [hput, ← hvalue]
    by_cases hf0 : a.toNat = 0xF0
    · exact .f0 hf0 (by omega) (by omega) htail htail'
    by_cases hf4 : a.toNat = 0xF4
    · exact .f4 hf4 (by omega) (by omega) htail htail'
    · exact .f1 (by omega) (by omega) ⟨by omega, by omega⟩ htail htail'

theorem length_putScalar (c : Nat) :
    (putScalar c).length ≤ 4 ∧ (c < 0x10000 → (putScalar c).length ≤ 3) := by
  rw [putScalar]
  refine ⟨?_, fun h => ?_⟩
  · repeat' split
    all_goals simp
  · repeat' split
    all_goals first | contradiction | simp

-- ── Names ────

theorem loneSurrogate_sequence {p : Bytes} {v : Nat} (h : Sequence p v) (rest : Bytes) :
    loneSurrogate (p ++ rest) = none := by
  have hfirst : ∀ {a : UInt8} {s : Bytes}, a.toNat ≠ 0xED → loneSurrogate (a :: s) = none := by
    intro a s ha
    match s with
    | [] => rfl
    | [_] => rfl
    | b :: c :: s =>
      rw [loneSurrogate, if_neg]
      exact fun h => ha h.1
  cases h with
  | ed ha h1 h2 hc =>
    rw [cons_append, cons_append, cons_append, loneSurrogate, if_neg]
    rintro ⟨-, h3, -⟩
    omega
  | one h1 => exact hfirst (by omega)
  | two h1 h2 _ => exact hfirst (by omega)
  | e0 ha _ _ _ => exact hfirst (by omega)
  | e1 h1 h2 _ _ => exact hfirst (by omega)
  | ee h1 h2 _ _ => exact hfirst (by omega)
  | f0 ha _ _ _ _ => exact hfirst (by omega)
  | f1 h1 h2 _ _ _ => exact hfirst (by omega)
  | f4 ha _ _ _ _ => exact hfirst (by omega)

theorem loneSurrogate_put (h1 : 0xD800 ≤ c) (h2 : c ≤ 0xDFFF) (rest : Bytes) :
    (putScalar c).length = 3 ∧ loneSurrogate (putScalar c ++ rest) = some c := by
  obtain ⟨a, b, d, hput, ha, hb, hd⟩ := putScalar_three (c := c) (by omega) (by omega)
  have hor : 0xD000 ||| (b.toNat &&& 0x3F) <<< 6 = 0xD000 + (b.toNat % 64) * 64 := by
    have hlt : (b.toNat % 64) * 2 ^ 6 < 2 ^ 12 := by omega
    rw [and_low, shiftLeft_eq]
    exact (two_pow_add_eq_or_of_lt hlt 13).symm
  have hor' : (0xD000 + (b.toNat % 64) * 64) ||| (d.toNat &&& 0x3F) =
      0xD000 + (b.toNat % 64) * 64 + d.toNat % 64 := by
    have hlt : d.toNat % 64 < 2 ^ 6 := mod_lt _ (by decide)
    have hmul : 0xD000 + (b.toNat % 64) * 64 = 2 ^ 6 * (832 + b.toNat % 64) := by ring
    rw [and_low, hmul]
    exact (two_pow_add_eq_or_of_lt hlt _).symm
  rw [hput]
  refine ⟨rfl, ?_⟩
  rw [cons_append, cons_append, cons_append, loneSurrogate,
    if_pos ⟨by omega, by omega, by omega, by omega, by omega⟩, hor, hor']
  congr 1
  omega

theorem nameUnits_put (hc : c < 0x110000) (rest : Bytes) :
    nameUnits (putScalar c ++ rest) = (nameUnits rest).map (putUnits c ++ ·) := by
  have hstep : ∀ p : Bytes, p.length ≠ 0 → (loneSurrogate (p ++ rest) = some c ∧ p.length = 3 ∨
        loneSurrogate (p ++ rest) = none ∧ decode (p ++ rest) = (c, p.length)) →
      nameUnits (p ++ rest) = (nameUnits rest).map (putUnits c ++ ·) := by
    intro p hp hread
    obtain ⟨b, s, rfl⟩ := exists_cons_of_ne_nil (ne_nil_of_length_pos (Nat.pos_of_ne_zero hp))
    rw [cons_append] at hread ⊢
    have hdrop : (s ++ rest).drop ((b :: s).length - 1) = rest := drop_left
    rw [nameUnits]
    rcases hread with ⟨hlone, hlen⟩ | ⟨hlone, hdecode⟩
    · rw [hlen] at hdrop
      rw [hlone]
      dsimp only
      rw [if_neg (by decide), hdrop]
      cases nameUnits rest <;> rfl
    · rw [hlone, hdecode]
      dsimp only
      rw [if_neg hp, hdrop]
      cases nameUnits rest <;> rfl
  by_cases hs : 0xD800 ≤ c ∧ c ≤ 0xDFFF
  · obtain ⟨hlen, hlone⟩ := loneSurrogate_put hs.1 hs.2 rest
    exact hstep _ (by rw [hlen]; decide) (Or.inl ⟨hlone, hlen⟩)
  · have hsequence := putScalar_sequence hc hs
    have hpos : (putScalar c).length ≠ 0 := by
      obtain ⟨a, t, -, -, hput, -⟩ := sequence_iff.mp hsequence
      rw [hput]
      exact succ_ne_zero _
    exact hstep _ hpos (Or.inr ⟨loneSurrogate_sequence hsequence rest,
      (decode_iff hpos).mpr ⟨_, rest, rfl, hsequence, rfl⟩⟩)

/-- The two units of a pair, and a unit alone, come back from their values. -/
theorem putUnits_pair {c d : UInt16} (h : isPair c d = true) :
    pairValue c d < 0x110000 ∧ 0x10000 ≤ pairValue c d ∧ putUnits (pairValue c d) = [c, d] := by
  simp only [isPair, and_eq_true, decide_eq_true_eq] at h
  have hvalue : pairValue c d = 0x10000 + (c.toNat - 0xD800) * 2 ^ 10 + (d.toNat - 0xDC00) := by
    unfold pairValue
    simp only [shiftLeft_eq]
  have hhigh : 0xD800 + (pairValue c d - 0x10000) >>> 10 = c.toNat := by
    omega
  have hlow : 0xDC00 + ((pairValue c d - 0x10000) &&& 0x3FF) = d.toNat := by
    have hand := and_two_pow_sub_one_eq_mod (pairValue c d - 0x10000) 10
    have hmask : 2 ^ 10 - 1 = 0x3FF := by decide
    rw [hmask] at hand
    omega
  refine ⟨by omega, by omega, ?_⟩
  rw [putUnits, if_pos (by omega), hhigh, hlow, UInt16.ofNat_toNat, UInt16.ofNat_toNat]

theorem putUnits_unit (c : UInt16) : c.toNat < 0x10000 ∧ putUnits c.toNat = [c] := by
  have hlt := c.toNat_lt
  refine ⟨hlt, ?_⟩
  rw [putUnits, if_neg (Nat.not_le.mpr hlt), UInt16.ofNat_toNat]

theorem putName_some {rest : Nat → Option Bytes} {bytes : Bytes}
    (h : putName room c rest = some bytes) :
    ∃ more, rest (room - (putScalar c).length) = some more ∧ bytes = putScalar c ++ more := by
  rw [putName] at h
  split at h
  · cases h
  · cases hrest : rest (room - (putScalar c).length) with
    | none =>
      rw [hrest] at h
      cases h
    | some more =>
      rw [hrest] at h
      exact ⟨more, rfl, (some.inj h).symm⟩

theorem putName_ne_none {rest : Nat → Option Bytes} (hfits : (putScalar c).length ≤ room)
    (hrest : rest (room - (putScalar c).length) ≠ none) : putName room c rest ≠ none := by
  obtain ⟨more, hmore⟩ := ne_none_iff_exists'.mp hrest
  rw [putName, if_neg (Nat.not_lt.mpr hfits), hmore]
  exact some_ne_none _

/-- **The units of a name** come back from its bytes. -/
theorem nameUnits_nameBytes {u : Units} {bytes : Bytes} (h : nameBytes u room = some bytes) :
    nameUnits bytes = some u := by
  induction hn : u.length using Nat.strongRecOn generalizing u room bytes with
  | ind n ih =>
    subst hn
    match u, h, ih with
    | [], h, _ =>
      rw [nameBytes, some.injEq] at h
      rw [← h, nameUnits]
    | [c], h, _ =>
      obtain ⟨more, hmore, rfl⟩ := putName_some h
      cases hmore
      obtain ⟨hlt, hunits⟩ := putUnits_unit c
      rw [nameUnits_put (Nat.lt_trans hlt (by decide)), nameUnits, hunits]
      rfl
    | c :: d :: u, h, ih =>
      rw [nameBytes] at h
      by_cases hpair : isPair c d = true
      · rw [if_pos hpair] at h
        obtain ⟨more, hmore, hbytes⟩ := putName_some h
        obtain ⟨hlt, -, hunits⟩ := putUnits_pair hpair
        have hrest := ih u.length (by rw [length_cons, length_cons]; omega) hmore rfl
        rw [hbytes, nameUnits_put hlt, hrest, hunits]
        rfl
      · rw [if_neg hpair] at h
        obtain ⟨more, hmore, rfl⟩ := putName_some h
        obtain ⟨hlt, hunits⟩ := putUnits_unit c
        have hrest := ih (d :: u).length (lt_succ_self _) hmore rfl
        rw [nameUnits_put (Nat.lt_trans hlt (by decide)), hrest, hunits]
        rfl

theorem nameBytes_ne_none {u : Units} (h : 3 * u.length ≤ room) : nameBytes u room ≠ none := by
  induction hn : u.length using Nat.strongRecOn generalizing u room with
  | ind n ih =>
    subst hn
    match u, h, ih with
    | [], _, _ => exact some_ne_none _
    | [c], h, _ =>
      rw [length_singleton] at h
      have hlen := (length_putScalar c.toNat).2 c.toNat_lt
      exact putName_ne_none (by omega) (some_ne_none _)
    | c :: d :: u, h, ih =>
      rw [length_cons, length_cons] at h
      rw [nameBytes]
      by_cases hpair : isPair c d = true
      · have hlen := (length_putScalar (pairValue c d)).1
        rw [if_pos hpair]
        refine putName_ne_none (by omega) (ih u.length ?_ (by omega) rfl)
        rw [length_cons, length_cons]
        omega
      · have hlen := (length_putScalar c.toNat).2 c.toNat_lt
        rw [if_neg hpair]
        refine putName_ne_none (by omega) (ih (d :: u).length (lt_succ_self _) ?_ rfl)
        rw [length_cons]
        omega

-- ── UTF-16 ────

theorem unitScalar_scalar (c : UInt16) :
    unitScalar c < 0x10000 ∧ ¬ (0xD800 ≤ unitScalar c ∧ unitScalar c ≤ 0xDFFF) := by
  have hlt := c.toNat_lt
  rw [unitScalar]
  split <;> omega

/-- **Units become well-formed bytes**, three for each at most. -/
theorem utf16ToUtf8_text (u : Units) : Text (utf16ToUtf8 u) ∧ (utf16ToUtf8 u).length ≤ 3 * u.length := by
  induction hn : u.length using Nat.strongRecOn generalizing u with
  | ind n ih =>
    subst hn
    have hone : ∀ c, Sequence (putScalar (unitScalar c)) (unitScalar c) ∧
        (putScalar (unitScalar c)).length ≤ 3 := by
      intro c
      obtain ⟨hlt, hs⟩ := unitScalar_scalar c
      exact ⟨putScalar_sequence (by omega) hs, (length_putScalar _).2 hlt⟩
    match u, ih with
    | [], _ =>
      rw [utf16ToUtf8]
      exact ⟨.nil, Nat.zero_le _⟩
    | [c], _ =>
      have htext := Text.cons (hone c).1 .nil
      rw [append_nil] at htext
      rw [utf16ToUtf8]
      exact ⟨htext, (hone c).2⟩
    | c :: d :: u, ih =>
      rw [utf16ToUtf8]
      by_cases hpair : isPair c d = true
      · obtain ⟨hlt, hge, -⟩ := putUnits_pair hpair
        have hshorter : u.length < (c :: d :: u).length := by
          rw [length_cons, length_cons]
          omega
        obtain ⟨htext, hlen⟩ := ih u.length hshorter u rfl
        have hfour := (length_putScalar (pairValue c d)).1
        rw [if_pos hpair]
        refine ⟨.cons (putScalar_sequence hlt (by omega)) htext, ?_⟩
        rw [length_append, length_cons, length_cons]
        omega
      · obtain ⟨htext, hlen⟩ := ih (d :: u).length (lt_succ_self _) (d :: u) rfl
        have hthree := (hone c).2
        rw [if_neg hpair]
        refine ⟨.cons (hone c).1 htext, ?_⟩
        rw [length_append, length_cons]
        omega

/-- **The conversions are exact**: the decoder accepts the sequences of the table with their
    values, the repair writes well-formed bytes and keeps them, names survive, and units
    become well-formed bytes. -/
theorem utf_conversions : (∀ s p v, p <+: s → Sequence p v → decode s = (v, p.length)) ∧
    (∀ s, (∀ p v, p <+: s → ¬ Sequence p v) → decode s = (0, 0)) ∧
    (∀ s, (repair s).length ≤ 3 * s.length ∧ Text (repair s) ∧ repair (repair s) = repair s ∧
      (Text s → repair s = s)) ∧
    (∀ u room, 3 * u.length ≤ room → nameBytes u room ≠ none) ∧
    (∀ u room bytes, nameBytes u room = some bytes → nameUnits bytes = some u) ∧
    (∀ u u' room room' bytes, nameBytes u room = some bytes → nameBytes u' room' = some bytes →
      u = u') ∧
    ∀ u, (utf16ToUtf8 u).length ≤ 3 * u.length ∧ Text (utf16ToUtf8 u) := by
  refine ⟨?_, fun s h => decode_refuses h, ?_, fun u room h => nameBytes_ne_none h,
    fun u room bytes h => nameUnits_nameBytes h, ?_, fun u => (utf16ToUtf8_text u).symm⟩
  · rintro s p v ⟨rest, rfl⟩ hp
    refine (decode_iff ?_).mpr ⟨p, rest, rfl, hp, rfl⟩
    obtain ⟨a, t, -, -, rfl, -⟩ := sequence_iff.mp hp
    exact succ_ne_zero _
  · intro s
    obtain ⟨htext, hlen⟩ := repair_text s
    exact ⟨hlen, htext, repair_eq htext, repair_eq⟩
  · intro u u' room room' bytes h h'
    have hsame := nameUnits_nameBytes h
    rw [nameUnits_nameBytes h'] at hsame
    exact (some.inj hsame).symm

/-- A sequence of four bytes in front of another byte. -/
theorem utf_conversions_four : decode [0xF0, 0x9F, 0x98, 0x80, 0x41] = (0x1F600, 4) := by
  have hsequence : Sequence [0xF0, 0x9F, 0x98, 0x80] 0x1F600 :=
    .f0 (by decide) (by decide) (by decide) ⟨by decide, by decide⟩ ⟨by decide, by decide⟩
  exact utf_conversions.1 _ _ _ ⟨[0x41], rfl⟩ hsequence

end AnticUtf
