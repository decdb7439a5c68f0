import Antic.FiniteWalk

/-! # A table of open addressing that finds its entries by key

    Every entry stands where a walk from the home of its key reaches it, and no two entries have one
    key (`Keyed`).  Then a walk for a key ends at its entry, or at the empty place where it goes
    (`Keyed.find`), and writing the entry there keeps the table so (`Keyed.put`). -/

namespace FiniteWalk

open Function

variable {E K : Type*}

/-- The entries of a table can be found by their keys. -/
structure Keyed (keyOf : E → K) (home : K → Nat) (size : Nat) (table : Nat → Option E) :
    Prop where
  reached : ∀ p e, p < size → table p = some e → Reached table size (home (keyOf e)) p
  unique : ∀ p q e f, p < size → q < size → table p = some e → table q = some f →
    keyOf e = keyOf f → p = q

/-- The table holds an entry of this key. -/
def HasKey (keyOf : E → K) (size : Nat) (table : Nat → Option E) (k : K) (e : E) : Prop :=
  ∃ p, p < size ∧ table p = some e ∧ keyOf e = k

section Keyed

variable {keyOf keyOf' : E → K} {home : K → Nat} {size : Nat} {table : Nat → Option E}

theorem Keyed.empty (keyOf : E → K) (home : K → Nat) (size : Nat) :
    Keyed keyOf home size fun _ => none := by
  constructor
  · intro p e _ h
    cases h
  · intro p q e f _ _ h
    cases h

theorem Keyed.congr (h : Keyed keyOf home size table)
    (hkey : ∀ p e, p < size → table p = some e → keyOf' e = keyOf e) :
    Keyed keyOf' home size table := by
  constructor
  · intro p e hp he
    rw [hkey p e hp he]
    exact h.reached p e hp he
  · intro p q e f hp hq he hf hk
    rw [hkey p e hp he, hkey q f hq hf] at hk
    exact h.unique p q e f hp hq he hf hk

/-- **The walk for a key** ends at its entry, or at an empty place where no entry of the
    table has the key. -/
theorem Keyed.find (h : Keyed keyOf home size table) {k : K} (hhome : home k < size)
    {q : Nat} (hq : q < size) (hempty : table q = none) {hit : E → Bool}
    (hhit : ∀ p e, p < size → table p = some e → (hit e = true ↔ keyOf e = k)) :
    ∃ p, probe table hit size size (home k) = p ∧ p < size ∧ Reached table size (home k) p ∧
      ((∃ e, table p = some e ∧ keyOf e = k) ∨
        (table p = none ∧ ∀ e, ¬ HasKey keyOf size table k e)) := by
  obtain ⟨d, p, hd, hat⟩ := exists_probeAt hit hhome hq hempty
  have hp : p < size := hat.lt hhome
  refine ⟨p, probe_eq_of_probeAt hhome hd hat, hp, hat.reached hd, ?_⟩
  cases he : table p with
  | some e => exact .inl ⟨e, rfl, (hhit p e hp he).mp (hat.stops e he)⟩
  | none =>
    refine .inr ⟨rfl, ?_⟩
    rintro e ⟨r, hr, hre, hk⟩
    -- a walk would have stopped at the entry
    have hstop : Stops table hit r := by
      intro f hf
      cases hre.symm.trans hf
      exact (hhit r e hr hre).mpr hk
    have hreach : Reached table size (home k) r := hk ▸ h.reached r e hr hre
    obtain ⟨d', -, hat'⟩ := hreach.probeAt hstop fun s f hs hf hhitf =>
      h.unique s r f e hs hr hf hre (((hhit s f hs hf).mp hhitf).trans hk.symm)
    rw [hat.unique hat', hre] at he
    cases he

/-- **Writing an entry** where the walk for its key ends. -/
theorem Keyed.put (h : Keyed keyOf home size table) {e : E} {p : Nat}
    (hreach : Reached table size (home (keyOf e)) p)
    (hat : ∀ q f, q < size → table q = some f → keyOf f = keyOf e → q = p) :
    Keyed keyOf home size (update table p (some e)) := by
  have hmore : ∀ i, table i ≠ none → update table p (some e) i ≠ none := by
    intro i hi
    by_cases hip : i = p
    · subst hip
      simp
    · rwa [update_of_ne hip]
  have hold : ∀ q f, q ≠ p → update table p (some e) q = some f → table q = some f := by
    intro q f hne hf
    rwa [update_of_ne hne] at hf
  have hnew : ∀ f, update table p (some e) p = some f → f = e := by
    intro f hf
    rw [update_self] at hf
    exact (Option.some.inj hf).symm
  constructor
  · intro q f hq hf
    by_cases hqp : q = p
    · subst hqp
      cases hnew f hf
      exact hreach.mono hmore
    · exact (h.reached q f hq (hold q f hqp hf)).mono hmore
  · intro q r f g hq hr hf hg hk
    by_cases hqp : q = p
    · by_cases hrp : r = p
      · exact hqp.trans hrp.symm
      · subst hqp
        cases hnew f hf
        exact (hat r g hr (hold r g hrp hg) hk.symm).symm
    · by_cases hrp : r = p
      · subst hrp
        cases hnew g hg
        exact hat q f hq (hold q f hqp hf) hk
      · exact h.unique q r f g hq hr (hold q f hqp hf) (hold r g hrp hg) hk

end Keyed

end FiniteWalk
