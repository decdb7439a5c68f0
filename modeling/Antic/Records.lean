import Mathlib.Data.List.Basic
import Mathlib.Data.List.Nodup

/-! # Records found by a key

    A list of records that are looked up by a key, changed where the key is there and
    added where it is not (`upsert`).  Entries that are put in one after the other gather
    by their keys (`lookup_gather`). -/

namespace Records

open List

variable {R K A : Type*} [DecidableEq K] {key : R → K} {fresh : K → R} {f : R → R}

/-- The record of a key. -/
def lookup (key : R → K) (k : K) (l : List R) : Option R := l.find? fun r => key r = k

/-- Change the record of a key, or add it. -/
def upsert (key : R → K) (fresh : K → R) (f : R → R) (k : K) : List R → List R
  | [] => [f (fresh k)]
  | r :: l => if key r = k then f r :: l else r :: upsert key fresh f k l

theorem lookup_cons_self {k : K} {r : R} (h : key r = k) (l : List R) :
    lookup key k (r :: l) = some r := by
  rw [lookup, find?_cons_of_pos (by simpa using h)]

theorem lookup_cons_of_ne {k : K} {r : R} (h : key r ≠ k) (l : List R) :
    lookup key k (r :: l) = lookup key k l := by
  rw [lookup, find?_cons_of_neg (by simpa using h), lookup]

theorem lookup_upsert_self {k : K} (hf : ∀ r, key (f r) = key r) (hfresh : key (fresh k) = k)
    (l : List R) :
    lookup key k (upsert key fresh f k l) = some (f ((lookup key k l).getD (fresh k))) := by
  induction l with
  | nil => exact lookup_cons_self ((hf _).trans hfresh) []
  | cons r l ih =>
    rw [upsert]
    by_cases hr : key r = k
    · rw [if_pos hr, lookup_cons_self ((hf r).trans hr), lookup_cons_self hr]
      rfl
    · rw [if_neg hr, lookup_cons_of_ne hr, lookup_cons_of_ne hr, ih]

theorem lookup_upsert_of_ne {k k' : K} (hf : ∀ r, key (f r) = key r) (hfresh : key (fresh k) = k)
    (hne : k' ≠ k) (l : List R) :
    lookup key k' (upsert key fresh f k l) = lookup key k' l := by
  induction l with
  | nil =>
    rw [upsert, lookup_cons_of_ne]
    rw [hf, hfresh]
    exact hne.symm
  | cons r l ih =>
    rw [upsert]
    by_cases hr : key r = k
    · have hne' : key r ≠ k' := hr.trans_ne hne.symm
      rw [if_pos hr, lookup_cons_of_ne ((hf r).trans_ne hne'), lookup_cons_of_ne hne']
    · rw [if_neg hr]
      by_cases hr' : key r = k'
      · rw [lookup_cons_self hr', lookup_cons_self hr']
      · rw [lookup_cons_of_ne hr', lookup_cons_of_ne hr', ih]

variable {l : List R}

theorem upsert_congr {g : R → R} {k : K}
    (h : f ((lookup key k l).getD (fresh k)) = g ((lookup key k l).getD (fresh k))) :
    upsert key fresh f k l = upsert key fresh g k l := by
  induction l with
  | nil =>
    rw [upsert, upsert]
    exact congrArg (fun r => [r]) h
  | cons r l ih =>
    rw [upsert, upsert]
    split
    · rename_i hr
      rw [lookup_cons_self hr] at h
      exact congrArg (fun s => s :: l) h
    · rename_i hr
      rw [lookup_cons_of_ne hr] at h
      rw [ih h]

theorem mem_keys_upsert {k k' : K} (hf : ∀ r, key (f r) = key r) (hfresh : key (fresh k) = k)
    (h : k' ∈ (upsert key fresh f k l).map key) : k' = k ∨ k' ∈ l.map key := by
  induction l with
  | nil =>
    rw [upsert, map_singleton, mem_singleton, hf, hfresh] at h
    exact .inl h
  | cons r l ih =>
    rw [upsert] at h
    split at h
    · rw [map_cons, hf] at h
      exact .inr h
    · rcases mem_cons.mp h with h | h
      · exact .inr (h ▸ mem_cons_self)
      · exact (ih h).imp_right (mem_cons_of_mem _)

theorem nodup_upsert {k : K} (hf : ∀ r, key (f r) = key r) (hfresh : key (fresh k) = k)
    (h : (l.map key).Nodup) : ((upsert key fresh f k l).map key).Nodup := by
  induction l with
  | nil => exact nodup_singleton _
  | cons r l ih =>
    rw [upsert]
    split
    · rwa [map_cons, hf]
    · rename_i hr
      rw [map_cons, nodup_cons] at h ⊢
      refine ⟨?_, ih h.2⟩
      intro hmem
      rcases mem_keys_upsert hf hfresh hmem with hmem | hmem
      · exact hr hmem
      · exact h.1 hmem

theorem mem_iff_lookup (h : (l.map key).Nodup) {r : R} :
    r ∈ l ↔ lookup key (key r) l = some r := by
  induction l with
  | nil => simp [lookup]
  | cons s l ih =>
    rw [map_cons, nodup_cons] at h
    rw [mem_cons]
    by_cases hs : key s = key r
    · rw [lookup_cons_self hs]
      constructor
      · rintro (rfl | hmem)
        · rfl
        · exact absurd (hs ▸ List.mem_map_of_mem hmem) h.1
      · intro heq
        exact .inl (Option.some.inj heq).symm
    · rw [lookup_cons_of_ne hs, ← ih h.2]
      constructor
      · rintro (rfl | hmem)
        · exact absurd rfl hs
        · exact hmem
      · exact .inr

-- ── Entries one after the other ────

/-- Put entries in, one after the other. -/
def gather (key : R → K) (fresh : K → R) (keyOf : A → K) (put : R → A → R) (es : List A)
    (l : List R) : List R :=
  es.foldl (fun l e => upsert key fresh (fun r => put r e) (keyOf e) l) l

variable {keyOf : A → K} {put : R → A → R}

theorem nodup_gather (hput : ∀ r e, key (put r e) = key r) (hfresh : ∀ k, key (fresh k) = k)
    (es : List A) (h : (l.map key).Nodup) :
    ((gather key fresh keyOf put es l).map key).Nodup := by
  induction es generalizing l with
  | nil => exact h
  | cons e es ih => exact ih (nodup_upsert (fun r => hput r e) (hfresh _) h)

/-- **What a list has gathered under a key**: the entries of the key, in their order. -/
theorem lookup_gather (hput : ∀ r e, key (put r e) = key r) (hfresh : ∀ k, key (fresh k) = k)
    (k : K) (es : List A) (l : List R) :
    lookup key k (gather key fresh keyOf put es l) =
      if ∃ e ∈ es, keyOf e = k then
        some ((es.filter fun e => keyOf e = k).foldl put ((lookup key k l).getD (fresh k)))
      else lookup key k l := by
  induction es generalizing l with
  | nil => rw [if_neg (by simp)]; rfl
  | cons e es ih =>
    have hstep := ih (upsert key fresh (fun r => put r e) (keyOf e) l)
    refine hstep.trans ?_
    by_cases he : keyOf e = k
    · subst he
      have hhere : ∃ x ∈ e :: es, keyOf x = keyOf e := ⟨e, mem_cons_self, rfl⟩
      rw [if_pos hhere, lookup_upsert_self (fun r => hput r e) (hfresh _), Option.getD_some,
        filter_cons_of_pos (by simp), foldl_cons]
      split
      · rfl
      · rename_i hnone
        have hnil : (es.filter fun x => keyOf x = keyOf e) = [] := by
          rw [filter_eq_nil_iff]
          intro x hx hkey
          exact hnone ⟨x, hx, by simpa using hkey⟩
        rw [hnil, foldl_nil]
    · rw [lookup_upsert_of_ne (fun r => hput r e) (hfresh _) (Ne.symm he),
        filter_cons_of_neg (by simpa using he)]
      have hiff : (∃ x ∈ e :: es, keyOf x = k) ↔ ∃ x ∈ es, keyOf x = k := by
        simp [he]
      simp only [hiff]

end Records
