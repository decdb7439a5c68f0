import Antic.InflateReads

/-! # The literals and matches of a block are decoded

    `codes` takes the bits that the format gives for literals and matches, and appends the
    text of them (`codes_reads`). -/

namespace AnticZip

open BitStreams CanonicalCodes Deflate List

section Decodes

variable {c : Entry} {before : List UInt8}

-- ── Text ────

theorem emit_eq {text bytes : List UInt8} (hstart : before.length = c.start)
    (hroom : (text ++ bytes).length ≤ c.limit) {s : Inflate} (hout : s.out = before ++ text) :
    emit c bytes s = .ok () { s with out := s.out ++ bytes } := by
  rw [length_append] at hroom
  have hlen : s.out.length = c.start + text.length := by
    rw [hout, length_append, hstart]
  have hfits : ¬ bytes.length > c.limit - (s.out.length - c.start) := by
    omega
  show (if bytes.length > c.limit - (s.out.length - c.start) then throw Stop.broken
    else set { s with out := s.out ++ bytes } : Decoder Unit) s = _
  rw [if_neg hfits]
  rfl

theorem emit_reads {text bytes : List UInt8} (hstart : before.length = c.start)
    (hroom : (text ++ bytes).length ≤ c.limit) :
    Reads c (emit c bytes) (before ++ text) [] () (before ++ (text ++ bytes)) := by
  intro s rest hs hout
  refine ⟨_, emit_eq hstart hroom hout, ⟨hs.at_le, hs.held, hs.bits, hs.pending⟩, ?_⟩
  show s.out ++ bytes = _
  rw [hout, append_assoc]

theorem length_copyFrom (distance length : Nat) (text : List UInt8) :
    (copyFrom distance length text).length = text.length + length := by
  induction length generalizing text with
  | zero => rfl
  | succ length ih =>
    rw [copyFrom, ih, length_append, length_singleton]
    omega

theorem copyBack_reads {distance : Nat} (hstart : before.length = c.start) (hpos : 1 ≤ distance)
    (length : Nat) {text : List UInt8} (hback : distance ≤ text.length)
    (hroom : text.length + length ≤ c.limit) :
    Reads c (copyBack c distance length) (before ++ text) [] ()
      (before ++ copyFrom distance length text) := by
  induction length generalizing text with
  | zero => exact Reads.pure ()
  | succ length ih =>
    refine Reads.get ?_
    intro s hout
    have hlen : s.out.length = before.length + text.length := by
      rw [hout, length_append]
    have hplace : s.out[s.out.length - distance]?
        = some (text.getD (text.length - distance) 0) := by
      have hindex : text.length - distance < text.length := by omega
      rw [hlen, Nat.add_sub_assoc hback, hout, getElem?_append_right (Nat.le_add_right _ _),
        Nat.add_sub_cancel_left, getD_eq_getElem _ _ hindex, getElem?_eq_getElem hindex]
    rw [if_neg (by omega), hplace]
    have hone : (text ++ [text.getD (text.length - distance) 0]).length ≤ c.limit := by
      rw [length_append, length_singleton]
      omega
    refine (emit_reads hstart hone).bind ?_
    refine ih ?_ ?_
    · rw [length_append, length_singleton]
      omega
    · rw [length_append, length_singleton]
      omega

-- ── Literals and matches ────

theorem base_eq {i : Nat} (hi : i < 29) : entryOf base i = pure (lengthBase i) ∧
    entryOf extra i = pure (lengthExtra i) := by
  have hall : ∀ i, i < 29 → base[i]? = some (lengthBase i) ∧ extra[i]? = some (lengthExtra i) := by
    decide
  rw [entryOf, entryOf, (hall i hi).1, (hall i hi).2]
  exact ⟨rfl, rfl⟩

theorem dbase_eq {i : Nat} (hi : i < 30) : entryOf dbase i = pure (distanceBase i) ∧
    entryOf dextra i = pure (distanceExtra i) := by
  have hall : ∀ i, i < 30 →
      dbase[i]? = some (distanceBase i) ∧ dextra[i]? = some (distanceExtra i) := by
    decide
  rw [entryOf, entryOf, (hall i hi).1, (hall i hi).2]
  exact ⟨rfl, rfl⟩

theorem CodeWord.length {lengths : Nat → Nat} {n i : Nat} {w : List Bool}
    (h : CodeWord lengths n i w) : 1 ≤ w.length := by
  cases h with
  | intro _ hpos =>
    rw [length_highBits]
    exact Nat.pos_of_ne_zero hpos

theorem Tokens.length_le {lengths distances : Nat → Nat} {n m : Nat} {text text' : List UInt8}
    {bits : List Bool} (h : Tokens lengths n distances m text bits text') :
    text.length ≤ text'.length := by
  induction h with
  | stop => exact Nat.le_refl _
  | literal _ _ ih =>
    rw [length_append] at ih
    exact Nat.le_of_add_right_le ih
  | copy _ _ _ _ ih =>
    rw [length_copyFrom] at ih
    exact Nat.le_of_add_right_le ih

/-- **`codes`** decodes the literals and matches of a block. -/
theorem codes_reads {lengths distances : Nat → Nat} {n m : Nat} {h d : Huffman}
    (hh : Table h lengths n) (hlengths : Lengths lengths n) (hd : Table d distances m)
    (hdistances : Lengths distances m) (hstart : before.length = c.start)
    {text text' : List UInt8} {bits : List Bool}
    (htokens : Tokens lengths n distances m text bits text') (hroom : text'.length ≤ c.limit)
    {fuel : Nat} (hfuel : bits.length < fuel) :
    Reads c (codes c h d fuel) (before ++ text) bits () (before ++ text') := by
  induction htokens generalizing fuel with
  | stop hw =>
    cases fuel with
    | zero => cases hfuel
    | succ fuel =>
      refine (decode_reads hh hlengths hw).last ?_
      exact Reads.pure ()
  | @literal text text' b w bits hw htokens ih =>
    cases fuel with
    | zero => cases hfuel
    | succ fuel =>
      have hone := CodeWord.length hw
      rw [length_append] at hfuel
      refine (decode_reads hh hlengths hw).bind ?_
      rw [if_pos b.toNat_lt, UInt8.ofNat_toNat]
      refine Reads.first (emit_reads hstart ?_) ?_
      · exact Nat.le_trans (Tokens.length_le htokens) hroom
      · exact ih hroom (by omega)
  | @copy text text' length distance w w' bits hl hdist hback htokens ih =>
    cases fuel with
    | zero => cases hfuel
    | succ fuel =>
      cases hl with
      | @intro i e w hi he hw =>
      cases hdist with
      | @intro j e' w' hj he' hw' =>
      have hone := CodeWord.length hw
      have htext := Tokens.length_le htokens
      have hpos : 1 ≤ distanceBase j + e' := by
        rw [distanceBase]
        split <;> omega
      rw [length_copyFrom] at htext
      simp only [length_append] at hfuel
      rw [codes, append_assoc, append_assoc]
      refine (decode_reads hh hlengths hw).bind ?_
      have hsymbol : 257 + i - 257 = i := Nat.add_sub_cancel_left ..
      rw [if_neg (by omega), if_neg (by omega), hsymbol, if_neg (Nat.not_le.mpr hi),
        (base_eq hi).1, (base_eq hi).2, pure_bind]
      refine (need_reads _ he).bind ?_
      refine (decode_reads hd hdistances hw').bind ?_
      rw [if_neg (Nat.not_le.mpr hj), (dbase_eq hj).1, (dbase_eq hj).2, pure_bind]
      refine (need_reads _ he').bind ?_
      rw [pure_bind]
      refine Reads.get ?_
      intro s hout
      have hlen : s.out.length = c.start + text.length := by
        rw [hout, length_append, hstart]
      rw [if_neg (by omega)]
      refine Reads.first (copyBack_reads hstart hpos _ hback (Nat.le_trans htext hroom)) ?_
      exact ih hroom (by omega)

end Decodes

end AnticZip
