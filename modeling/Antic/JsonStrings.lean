import Antic.JsonTokens

/-! # The strings of the JSON scanner

    `read_string` reads exactly the strings of the grammar, and gives their decoded bytes
    to its sink one after the other. -/

namespace AnticJson

open Contracts List Option Bool Nat

-- ── Escapes ────

theorem hexValue_lt {c : UInt8} {d : Nat} (h : hexValue c = some d) : d < 16 := by
  have hle : ∀ {a b : UInt8}, (decide (a ≤ c) && decide (c ≤ b)) = true →
      a.toNat ≤ c.toNat ∧ c.toNat ≤ b.toNat := by
    intro a b hab
    rw [and_eq_true, decide_eq_true_eq, decide_eq_true_eq] at hab
    exact ⟨UInt8.le_iff_toNat_le.mp hab.1, UInt8.le_iff_toNat_le.mp hab.2⟩
  rw [hexValue, isDigit] at h
  split at h
  · rename_i hab
    have := hle hab
    cases h
    simp only [UInt8.toNat_ofNat] at this
    omega
  · split at h
    · rename_i hab
      have := hle hab
      cases h
      simp only [UInt8.toNat_ofNat] at this
      omega
    · split at h
      · rename_i hab
        have := hle hab
        cases h
        simp only [UInt8.toNat_ofNat] at this
        omega
      · cases h

theorem hex4_lt {h : Bytes} {v : Nat} (hex : Hex4 h v) : v < 0x10000 := by
  cases hex with
  | intro ha hb hc hd =>
    have := hexValue_lt ha
    have := hexValue_lt hb
    have := hexValue_lt hc
    have := hexValue_lt hd
    omega

theorem char_val {v : Nat} (hv : v < 0x10000) (hs : isSurrogate v = false) :
    (Char.ofNat v).val.toNat = v := by
  have hvalid : v.isValidChar := by
    rw [isSurrogate, and_eq_false_iff, decide_eq_false_iff_not, decide_eq_false_iff_not] at hs
    omega
  rw [Char.ofNat, dif_pos hvalid]
  rfl

/-- **`anti_rt_utf8_encode`** gives the bytes of the character. -/
theorem utf8Encode_eq {v : Nat} (hv : v < 0x10000) (hs : isSurrogate v = false) :
    utf8Encode v = String.utf8EncodeChar (Char.ofNat v) := by
  have hlow : ∀ x, 0x80 ||| (x &&& 0x3F) = x % 64 + 0x80 := by
    intro x
    have hlt : x % 64 < 2 ^ 6 := mod_lt x (by decide)
    rw [and_two_pow_sub_one_eq_mod x 6, Nat.add_comm]
    exact (two_pow_add_eq_or_of_lt hlt 2).symm
  have htwo : v < 0x800 → 0xC0 ||| v / 2 ^ 6 = v / 64 % 0x20 + 0xC0 := by
    intro h
    have hlt : v / 64 < 2 ^ 6 := by omega
    rw [mod_eq_of_lt (by omega), Nat.add_comm]
    exact (two_pow_add_eq_or_of_lt hlt 3).symm
  have hthree : 0xE0 ||| v / 2 ^ 12 = v / 4096 % 0x10 + 0xE0 := by
    have hlt : v / 4096 < 2 ^ 5 := by omega
    rw [mod_eq_of_lt (by omega), Nat.add_comm]
    exact (two_pow_add_eq_or_of_lt hlt 7).symm
  rw [String.utf8EncodeChar, char_val hv hs, utf8Encode]
  simp only [shiftRight_eq_div_pow, hlow]
  have h1 : v ≤ 0x7f ↔ v < 0x80 := Nat.lt_succ_iff.symm
  have h2 : v ≤ 0x7ff ↔ v < 0x800 := Nat.lt_succ_iff.symm
  have h3 : v ≤ 0xffff := Nat.lt_succ_iff.mp hv
  simp only [h1, h2, h3, if_true]
  split
  · rfl
  · split
    · rename_i hlt
      rw [htwo hlt]
    · rw [hthree]

theorem escapeByte_eq_some {c e : UInt8} : escapeByte c = some e ↔ Escape c e := by
  constructor
  · intro h
    rw [escapeByte] at h
    split at h
    · rename_i hc
      rw [or_eq_true, or_eq_true, beq_iff_eq, beq_iff_eq, beq_iff_eq] at hc
      cases h
      rcases hc with (rfl | rfl) | rfl
      · exact .quote
      · exact .backslash
      · exact .slash
    · split at h
      · rename_i hc
        rw [beq_iff_eq] at hc
        cases h
        subst hc
        exact .backspace
      · split at h
        · rename_i hc
          rw [beq_iff_eq] at hc
          cases h
          subst hc
          exact .formFeed
        · split at h
          · rename_i hc
            rw [beq_iff_eq] at hc
            cases h
            subst hc
            exact .lineFeed
          · split at h
            · rename_i hc
              rw [beq_iff_eq] at hc
              cases h
              subst hc
              exact .carriageReturn
            · split at h
              · rename_i hc
                rw [beq_iff_eq] at hc
                cases h
                subst hc
                exact .tab
              · cases h
  · intro h
    cases h <;> rfl

/-- The bytes behind a backslash that stand for other bytes. -/
inductive EscapeText : Bytes → Bytes → Prop where
  | byte {c e : UInt8} : Escape c e → EscapeText [c] [e]
  | unicode {h : Bytes} {code : Nat} : Hex4 h code → isSurrogate code = false →
      EscapeText (117 :: h) (String.utf8EncodeChar (Char.ofNat code))

variable {s d t : Bytes}

theorem EscapeText.chars {e bs : Bytes} (h : EscapeText e bs) (hs : Chars s d t) :
    Chars (backslash :: (e ++ s)) (bs ++ d) t := by
  cases h with
  | byte h => exact .escape h hs
  | unicode hex hsur => exact .unicode hex hsur hs

theorem readEscape_runs (s : Bytes) : Runs (readEscape s) fun x =>
    ∀ bs, x.1 = some bs → ∃ e, s = e ++ x.2 ∧ EscapeText e bs := by
  cases s with
  | nil => exact Gives.pure fun bs h => by cases h
  | cons c s =>
    rw [readEscape, more_cons, read_cons, if_pos rfl]
    refine Gives.ite ?_ ?_
    · intro hc
      rw [beq_iff_eq] at hc
      subst hc
      refine Gives.bind (readHex_runs 4 0 s) ?_
      rintro ⟨o, t⟩ hx
      refine Gives.pure ?_
      intro bs hbs
      cases o with
      | none => cases hbs
      | some v =>
        obtain ⟨h, hlen, hs, hfold⟩ := hx v rfl
        have hex := hex4_of_hexFold hfold hlen
        rw [filter_some] at hbs
        split at hbs
        · rename_i hsur
          cases hbs
          have hsur' : isSurrogate v = false := by
            rw [isSurrogate]
            simpa only [not_eq_true'] using hsur
          refine ⟨117 :: h, by rw [hs]; rfl, ?_⟩
          rw [utf8Encode_eq (hex4_lt hex) hsur']
          exact .unicode hex hsur'
        · cases hbs
    · intro
      refine Gives.pure ?_
      intro bs hbs
      obtain ⟨e, he, rfl⟩ := map_eq_some_iff.mp hbs
      exact ⟨[c], rfl, .byte (escapeByte_eq_some.mp he)⟩

theorem readEscape_complete {e bs : Bytes} (h : EscapeText e bs) (s : Bytes) :
    readEscape (e ++ s) = .ok (some bs, s) := by
  cases h with
  | @byte c e he =>
    have hne : (c == 117) = false := by
      cases he <;> rfl
    rw [singleton_append, readEscape, more_cons, read_cons, if_pos rfl]
    simp only [bind, Except.bind, hne, escapeByte_eq_some.mpr he]
    rfl
  | @unicode h code hex hsur =>
    obtain ⟨hfold, hlen⟩ := hexFold_of_hex4 hex
    have hread := readHex_complete hfold s
    rw [hlen] at hread
    have hkeep : (!(decide (0xD800 ≤ code) && decide (code ≤ 0xDFFF))) = true := by
      rw [isSurrogate] at hsur
      rw [hsur]
      rfl
    rw [cons_append, readEscape, more_cons, read_cons, if_pos rfl]
    simp only [bind, Except.bind]
    rw [past, tail_cons, hread]
    simp only [filter_some, hkeep, if_true, map_some]
    rw [utf8Encode_eq (hex4_lt hex) hsur]
    rfl

-- ── The sink ────

/-- What a sink that keeps no bytes becomes. -/
def Sink.put (k : Sink) (b : UInt8) : Sink :=
  { k with
    same := k.same && !(k.against.any fun a => a[k.length]? != some b)
    length := k.length + 1 }

/-- The sink keeps no bytes, and its room is that of the bytes it compares with. -/
structure Sink.Fits (k : Sink) : Prop where
  out : k.out = none
  room : ∀ a, k.against = some a → a.length = k.room

variable {k : Sink}

theorem Sink.Fits.put (h : k.Fits) (b : UInt8) : (k.put b).Fits := ⟨h.out, h.room⟩

theorem putByte_eq (h : k.Fits) (b : UInt8) : putByte k b = .ok (true, k.put b) := by
  rw [putByte, h.out]
  simp only [bind, Except.bind, map_none]
  rw [if_neg (by simp)]
  cases ha : k.against with
  | none => simp only [pure, Except.pure, Sink.put, ha, any_none, h.out]
  | some a =>
    have hroom := h.room a ha
    dsimp only
    by_cases hlen : k.room ≤ k.length
    · rw [if_pos hlen]
      have hnone : a[k.length]? = none := getElem?_eq_none (by omega)
      simp [pure, Except.pure, Sink.put, ha, h.out, hnone]
    · rw [if_neg hlen]
      have hlt : k.length < a.length := by omega
      have hdrop : a.drop k.length = a[k.length] :: a.drop (k.length + 1) :=
        drop_eq_getElem_cons hlt
      rw [differs, hdrop, read_cons]
      simp [bind, Except.bind, pure, Except.pure, Sink.put, ha, h.out, getElem?_eq_getElem hlt, bne]

theorem putBytes_eq (h : k.Fits) (bs : Bytes) :
    putBytes k bs = .ok (true, bs.foldl Sink.put k) := by
  induction bs generalizing k with
  | nil => rfl
  | cons b bs ih =>
    rw [putBytes, putByte_eq h]
    exact ih (h.put b)

theorem Sink.Fits.foldl (h : k.Fits) (bs : Bytes) : (bs.foldl Sink.put k).Fits := by
  induction bs generalizing k with
  | nil => exact h
  | cons b bs ih => exact ih (h.put b)

-- ── Strings ────

theorem Chars.length (h : Chars s d t) : t.length < s.length := by
  induction h with
  | close => exact lt_succ_self _
  | plain _ _ _ _ ih => exact lt_succ_of_lt ih
  | escape _ _ ih => exact lt_succ_of_lt (lt_succ_of_lt ih)
  | unicode _ _ _ ih =>
    simp only [length_cons, length_append]
    omega

/-- The next character of a string: a byte as it is, or an escape. -/
theorem nextChar_runs {c : UInt8} (hquote : (c == quote) = false) (hcontrol : ¬ c < 0x20) :
    Runs (if c == backslash then readEscape (past (c :: s)) else .ok (some [c], past (c :: s)))
      fun x => ∀ bs, x.1 = some bs → x.2.length ≤ s.length ∧
        ∀ d t, Chars x.2 d t → Chars (c :: s) (bs ++ d) t := by
  refine Gives.ite ?_ ?_
  · intro hc
    rw [beq_iff_eq] at hc
    subst hc
    refine Gives.weaken (readEscape_runs s) ?_
    rintro ⟨o, t⟩ hx bs hbs
    obtain ⟨e, hs, he⟩ := hx bs hbs
    refine ⟨?_, ?_⟩
    · rw [hs, length_append]
      exact Nat.le_add_left _ _
    · intro d u hd
      rw [hs]
      exact he.chars hd
  · intro hc
    refine Gives.pure ?_
    intro bs hbs
    cases hbs
    refine ⟨Nat.le_refl _, ?_⟩
    intro d t hd
    exact .plain (by simpa using hcontrol) (by simpa using hquote) (by simpa using hc) hd

/-- **A string that is read** is one of the grammar. -/
theorem stringLoop_runs (fuel : Nat) (hk : k.Fits) (hs : s.length < fuel) :
    Runs (stringLoop fuel s k) fun x =>
      x.1 = true → ∃ d, Chars s d x.2.1 ∧ x.2.2 = d.foldl Sink.put k := by
  induction fuel generalizing s k with
  | zero => cases hs
  | succ fuel ih =>
    have hfails : ∀ {t : Bytes} {l : Sink}, Runs (Pure.pure (false, t, l) :
        Except Stop (Bool × Bytes × Sink)) fun x =>
        x.1 = true → ∃ d, Chars s d x.2.1 ∧ x.2.2 = d.foldl Sink.put k := by
      intro t l
      exact Gives.pure fun h => by cases h
    cases s with
    | nil => exact hfails
    | cons c s =>
      have hs' := lt_of_succ_lt_succ hs
      rw [stringLoop, more_cons, read_cons, if_pos rfl]
      refine Gives.ite ?_ ?_
      · intro hc
        rw [beq_iff_eq] at hc
        subst hc
        exact Gives.pure fun _ => ⟨[], .close, rfl⟩
      · intro hquote
        refine Gives.ite (fun _ => hfails) ?_
        intro hcontrol
        refine Gives.bind (nextChar_runs (by simpa using hquote) hcontrol) ?_
        rintro ⟨o, t⟩ hx
        cases o with
        | none => exact hfails
        | some bs =>
          obtain ⟨hlen, hchars⟩ := hx bs rfl
          dsimp only
          rw [putBytes_eq hk]
          refine Gives.weaken (ih (hk.foldl bs) (Nat.lt_of_le_of_lt hlen hs')) ?_
          rintro ⟨ok, u, l⟩ hrest hok
          obtain ⟨d, hd, hl⟩ := hrest hok
          exact ⟨bs ++ d, hchars d u hd, by rw [hl, foldl_append]⟩

theorem stringLoop_escape {e bs : Bytes} (he : EscapeText e bs) (hk : k.Fits) (fuel : Nat) :
    stringLoop (fuel + 1) (backslash :: (e ++ s)) k = stringLoop fuel s (bs.foldl Sink.put k) := by
  rw [stringLoop, more_cons, read_cons, if_pos rfl]
  have hread := readEscape_complete he s
  simp only [bind, Except.bind, past, tail_cons]
  rw [if_neg (by decide), if_neg (by decide), if_pos (by decide), hread]
  simp only [putBytes_eq hk, if_true]

/-- **Every string of the grammar is read**, with the bytes it decodes to. -/
theorem stringLoop_complete (h : Chars s d t) {fuel : Nat} (hk : k.Fits) (hs : s.length < fuel) :
    stringLoop fuel s k = .ok (true, t, d.foldl Sink.put k) := by
  induction h generalizing fuel k with
  | close =>
    cases fuel with
    | zero => cases hs
    | succ fuel => rfl
  | @plain c s d t hcontrol hquote hslash _ ih =>
    cases fuel with
    | zero => cases hs
    | succ fuel =>
      rw [stringLoop, more_cons, read_cons, if_pos rfl]
      simp only [bind, Except.bind]
      rw [if_neg (by simpa using hquote), if_neg (by simpa using hcontrol),
        if_neg (by simpa using hslash)]
      simp only [putBytes, putByte_eq hk]
      exact ih (hk.put c) (lt_of_succ_lt_succ hs)
  | @escape c e s d t he _ ih =>
    cases fuel with
    | zero => cases hs
    | succ fuel =>
      have hstep := stringLoop_escape (.byte he) hk fuel (s := s)
      refine hstep.trans (ih (hk.foldl [e]) ?_)
      exact lt_of_succ_lt (lt_of_succ_lt_succ hs)
  | @unicode h s d t code hex hsur _ ih =>
    cases fuel with
    | zero => cases hs
    | succ fuel =>
      have hstep := stringLoop_escape (.unicode hex hsur) hk fuel (s := s)
      refine hstep.trans ((ih (hk.foldl _) ?_).trans ?_)
      · simp only [length_cons, length_append] at hs
        omega
      · rw [foldl_append]

theorem Str.length (h : Str s d t) : t.length < s.length := by
  cases h with
  | intro h => exact lt_succ_of_lt h.length

theorem readString_runs (s : Bytes) (hk : k.Fits) : Runs (readString s k) fun x =>
    x.1 = true → ∃ s₁ d, Ws s s₁ ∧ Str s₁ d x.2.1 ∧ x.2.2 = d.foldl Sink.put k := by
  refine Gives.bind (jsonTake_runs quote s) ?_
  rintro ⟨ok, t⟩ ⟨ht, -⟩
  cases ok with
  | false => exact Gives.pure fun h => by cases h
  | true =>
    refine Gives.weaken (stringLoop_runs (t.length + 1) hk (lt_succ_self _)) ?_
    rintro ⟨ok, u, l⟩ hrest hok
    obtain ⟨d, hd, hl⟩ := hrest hok
    exact ⟨_, d, ht rfl, .intro hd, hl⟩

theorem readString_complete {s₁ : Bytes} (hws : Ws s s₁) (h : Str s₁ d t) (hk : k.Fits) :
    readString s k = .ok (true, t, d.foldl Sink.put k) := by
  cases h with
  | intro h =>
    rw [readString, jsonTake_of_ws rfl hws]
    exact stringLoop_complete h hk (lt_succ_self _)

theorem noSink_fits : noSink.Fits := ⟨rfl, fun a h => by cases h⟩

theorem jsonString_runs (s : Bytes) : Runs (jsonString s) fun x =>
    x.1 = true → ∃ s₁ d, Ws s s₁ ∧ Str s₁ d x.2 := by
  refine Gives.bind (readString_runs s noSink_fits) ?_
  rintro ⟨ok, t, k⟩ h
  refine Gives.pure ?_
  intro hok
  obtain ⟨s₁, d, hws, hstr, -⟩ := h hok
  exact ⟨s₁, d, hws, hstr⟩

theorem jsonString_complete {s₁ : Bytes} (hws : Ws s s₁) (h : Str s₁ d t) :
    jsonString s = .ok (true, t) := by
  rw [jsonString, readString_complete hws h noSink_fits]
  rfl

-- ── Keys ────

theorem foldl_put (name : Bytes) (d : Bytes) {p : Bytes} (hagainst : k.against = some name)
    (hlength : k.length = p.length) (hsame : k.same = true ↔ p <+: name) :
    (d.foldl Sink.put k).length = (p ++ d).length ∧
      ((d.foldl Sink.put k).same = true ↔ p ++ d <+: name) := by
  induction d generalizing k p with
  | nil =>
    rw [append_nil]
    exact ⟨hlength, hsame⟩
  | cons b d ih =>
    have hstep : (k.put b).same = true ↔ p ++ [b] <+: name := by
      rw [Sink.put, hagainst, hlength]
      simp only [any_some, and_eq_true, hsame, not_eq_true', bne_eq_false_iff_eq]
      constructor
      · rintro ⟨⟨rest, rfl⟩, hget⟩
        rw [getElem?_append_right (Nat.le_refl _), Nat.sub_self] at hget
        cases rest with
        | nil => cases hget
        | cons x rest =>
          cases hget
          exact ⟨rest, by simp⟩
      · rintro ⟨rest, rfl⟩
        refine ⟨⟨b :: rest, by simp⟩, ?_⟩
        rw [append_assoc, getElem?_append_right (Nat.le_refl _), Nat.sub_self]
        rfl
    have hrest := ih (k := k.put b) (p := p ++ [b]) hagainst
      (by rw [length_append, ← hlength]; rfl) hstep
    rw [append_assoc, singleton_append] at hrest
    exact hrest

/-- The sink of a key. -/
def keySink (name : Bytes) : Sink := { noSink with against := some name, room := name.length }

theorem keySink_fits (name : Bytes) : (keySink name).Fits := by
  refine ⟨rfl, ?_⟩
  intro a ha
  cases ha
  rfl

/-- **`same`** tells whether the decoded key is the name. -/
theorem keySink_same (name d : Bytes) :
    ((d.foldl Sink.put (keySink name)).same && (d.foldl Sink.put (keySink name)).length == name.length)
      = decide (d = name) := by
  obtain ⟨hlength, hsame⟩ := foldl_put name d (k := keySink name) (p := []) rfl rfl
    ⟨fun _ => nil_prefix, fun _ => rfl⟩
  rw [Bool.eq_iff_iff, and_eq_true, hsame, beq_iff_eq, hlength, decide_eq_true_eq]
  constructor
  · rintro ⟨hpre, hlen⟩
    exact hpre.eq_of_length hlen
  · rintro rfl
    exact ⟨prefix_rfl, rfl⟩

theorem jsonKey_complete {s₁ : Bytes} (hws : Ws s s₁) (h : Str s₁ d t) (name : Bytes) :
    jsonKey s name = .ok (true, decide (d = name), t) := by
  have hread : readString s { noSink with against := some name, room := name.length }
      = .ok (true, t, d.foldl Sink.put (keySink name)) :=
    readString_complete hws h (keySink_fits name)
  rw [jsonKey, hread, ← keySink_same]
  rfl

end AnticJson
