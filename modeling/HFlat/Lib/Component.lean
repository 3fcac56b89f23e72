/-
  Component-wise prefixes of separated lists. A list is read as a path whose components
  are cut by a separator `sep`. `Within sep q p` says that `p` is `q`, or `q` followed by a
  tail that starts with the separator: the relation a prefix search over components walks,
  from the whole list down to the part before its first separator.

  `findLastOf` is the position of the last separator, the step of such a search.
-/
import Mathlib.Data.List.Basic

namespace HFlat.Lib

variable {α : Type*}

/-! ## Tails and the component-wise prefix order -/

/-- What may follow a component: nothing, or a tail that starts with the separator. -/
def Tail (sep : α) (r : List α) : Prop := r = [] ∨ ∃ r', r = sep :: r'

/-- `p` lies at or below `q`, component-wise. -/
def Within (sep : α) (q p : List α) : Prop := ∃ r, Tail sep r ∧ p = q ++ r

variable {sep : α} {p q r s : List α}

theorem tail_nil : Tail sep ([] : List α) := Or.inl rfl

theorem tail_cons (r : List α) : Tail sep (sep :: r) := Or.inr ⟨r, rfl⟩

theorem Tail.append (hr : Tail sep r) (hs : Tail sep s) : Tail sep (r ++ s) := by
  rcases hr with rfl | ⟨r', rfl⟩
  · simpa using hs
  · exact tail_cons (r' ++ s)

/-- Cutting a tail at another tail leaves a tail. -/
theorem Tail.of_append (h : Tail sep (r ++ s)) (hr : r ≠ []) : Tail sep r := by
  rcases h with h | ⟨t, h⟩
  · exact absurd (List.append_eq_nil_iff.mp h).1 hr
  · cases r with
    | nil => exact absurd rfl hr
    | cons a r => rw [List.cons_append, List.cons.injEq] at h; rw [h.1]; exact tail_cons r

theorem within_refl (p : List α) : Within sep p p := ⟨[], tail_nil, by simp⟩

theorem within_append (q : List α) (hr : Tail sep r) : Within sep q (q ++ r) := ⟨r, hr, rfl⟩

theorem Within.trans (h1 : Within sep q p) (h2 : Within sep p s) : Within sep q s := by
  obtain ⟨r1, t1, rfl⟩ := h1
  obtain ⟨r2, t2, rfl⟩ := h2
  exact ⟨r1 ++ r2, t1.append t2, by rw [List.append_assoc]⟩

theorem Within.isPrefix (h : Within sep q p) : q <+: p := by
  obtain ⟨r, _, rfl⟩ := h
  exact List.prefix_append q r

theorem Within.length_le (h : Within sep q p) : q.length ≤ p.length := h.isPrefix.length_le

theorem Within.eq_of_length (h : Within sep q p) (hl : p.length ≤ q.length) : q = p :=
  h.isPrefix.eq_of_length (Nat.le_antisymm h.length_le hl)

theorem Within.antisymm (h1 : Within sep q p) (h2 : Within sep p q) : q = p :=
  h1.eq_of_length h2.length_le

theorem Within.append_right (h : Within sep q p) (hr : Tail sep r) : Within sep q (p ++ r) :=
  h.trans (within_append p hr)

/-- The part below `q` of a list within `q`. -/
theorem Within.drop_eq (h : Within sep q p) : q ++ p.drop q.length = p := by
  obtain ⟨r, _, rfl⟩ := h
  simp

theorem Within.tail_drop (h : Within sep q p) : Tail sep (p.drop q.length) := by
  obtain ⟨r, hr, rfl⟩ := h
  simpa using hr

/-- Of two component prefixes of one list the shorter is a component prefix of the longer. -/
theorem Within.of_le (hq : Within sep q p) (hs : Within sep s p) (hl : q.length ≤ s.length) :
    Within sep q s := by
  obtain ⟨r, hr, rfl⟩ := hq
  obtain ⟨t, ht, he⟩ := hs
  obtain ⟨w, rfl⟩ : q <+: s := List.prefix_of_prefix_length_le
    (List.prefix_append q r) ⟨t, he.symm⟩ hl
  by_cases hw : w = []
  · rw [hw, List.append_nil]; exact within_refl q
  · rw [List.append_assoc, List.append_cancel_left_eq] at he
    exact within_append q ((he ▸ hr).of_append hw)

theorem Within.total (hq : Within sep q p) (hs : Within sep s p) :
    Within sep q s ∨ Within sep s q := by
  rcases Nat.le_total q.length s.length with h | h
  · exact Or.inl (hq.of_le hs h)
  · exact Or.inr (hs.of_le hq h)

/-- A component prefix of `q ++ r` that is not within `q` is a component prefix of `q`. -/
theorem Within.of_append_left (h : Within sep s (q ++ r)) (hr : Tail sep r)
    (hn : ¬ Within sep q s) : Within sep s q ∧ s ≠ q := by
  rcases h.total (within_append q hr) with h' | h'
  · exact ⟨h', fun he => hn (he ▸ within_refl s)⟩
  · exact absurd h' hn

instance decTail [DecidableEq α] (sep : α) (r : List α) : Decidable (Tail sep r) :=
  match r with
  | [] => isTrue tail_nil
  | a :: r => decidable_of_iff (a = sep)
      ⟨fun h => h ▸ tail_cons r, fun h => by rcases h with h | ⟨_, h⟩ <;> simp_all⟩

theorem within_iff : Within sep q p ↔ q <+: p ∧ Tail sep (p.drop q.length) := by
  constructor
  · intro h
    exact ⟨h.isPrefix, h.tail_drop⟩
  · rintro ⟨⟨r, rfl⟩, h⟩
    exact ⟨r, by simpa using h, rfl⟩

instance decWithin [DecidableEq α] (sep : α) (q p : List α) : Decidable (Within sep q p) :=
  decidable_of_iff _ within_iff.symm

/-! ## The last separator -/

/-- Position of the last `c` in the list, as `std::string::find_last_of` on one character. -/
def findLastOf [DecidableEq α] (c : α) : List α → Option Nat
  | [] => none
  | a :: l =>
      match findLastOf c l with
      | some i => some (i + 1)
      | none => if a = c then some 0 else none

theorem findLastOf_eq_none [DecidableEq α] {c : α} {l : List α} :
    findLastOf c l = none ↔ c ∉ l := by
  induction l with
  | nil => simp [findLastOf]
  | cons a l ih =>
    unfold findLastOf
    cases h : findLastOf c l with
    | some i => simp_all
    | none =>
      have hl : c ∉ l := ih.mp h
      by_cases ha : a = c
      · simp [ha]
      · simp [ha, hl, Ne.symm ha]

theorem findLastOf_eq_some [DecidableEq α] {c : α} {l : List α} {i : Nat}
    (h : findLastOf c l = some i) :
    l = l.take i ++ c :: l.drop (i + 1) ∧ c ∉ l.drop (i + 1) ∧ i < l.length := by
  induction l generalizing i with
  | nil => simp [findLastOf] at h
  | cons a l ih =>
    unfold findLastOf at h
    cases hl : findLastOf c l with
    | some j =>
      rw [hl] at h
      obtain rfl : j + 1 = i := by simpa using h
      obtain ⟨h1, h2, h3⟩ := ih hl
      refine ⟨?_, by simpa using h2, by simpa using h3⟩
      rw [List.take_succ_cons, List.drop_succ_cons, List.cons_append, ← h1]
    | none =>
      rw [hl] at h
      by_cases ha : a = c
      · obtain rfl : 0 = i := by simpa [ha] using h
        simp [ha, findLastOf_eq_none.mp hl]
      · simp [ha] at h

theorem findLastOf_append [DecidableEq α] {c : α} (l : List α) {r : List α} {i : Nat}
    (h : findLastOf c r = some i) : findLastOf c (l ++ r) = some (l.length + i) := by
  induction l with
  | nil => simpa using h
  | cons a l ih =>
    rw [List.cons_append, findLastOf, ih]
    simp only [List.length_cons, Option.some.injEq]
    omega

/-- The part before the last separator is the longest proper component prefix. -/
theorem within_take_findLastOf [DecidableEq α] {i : Nat} (h : findLastOf sep p = some i) :
    Within sep (p.take i) p :=
  ⟨sep :: p.drop (i + 1), tail_cons _, (findLastOf_eq_some h).1⟩

theorem within_proper_iff [DecidableEq α] {i : Nat} (h : findLastOf sep p = some i) :
    Within sep q (p.take i) ↔ Within sep q p ∧ q ≠ p := by
  obtain ⟨he, hn, hi⟩ := findLastOf_eq_some h
  have hlen : (p.take i).length = i := by simp; omega
  constructor
  · intro hq
    refine ⟨hq.trans (within_take_findLastOf h), ?_⟩
    rintro rfl
    have := hq.length_le
    omega
  · rintro ⟨hq, hne⟩
    rcases hq.total (within_take_findLastOf h) with h' | h'
    · exact h'
    · -- `q` is strictly between the last separator and the end: impossible
      obtain ⟨w, hw, hqw⟩ := h'
      obtain ⟨t, ht, hpt⟩ := hq
      rcases hw with rfl | ⟨w', rfl⟩
      · rw [hqw, List.append_nil]; exact within_refl _
      · exfalso
        rw [hqw, List.append_assoc] at hpt
        have hcut : sep :: p.drop (i + 1) = sep :: w' ++ t := by
          have h2 : p.take i ++ sep :: p.drop (i + 1) = p.take i ++ (sep :: w' ++ t) :=
            he.symm.trans hpt
          exact List.append_cancel_left h2
        rcases ht with rfl | ⟨t', rfl⟩
        · rw [List.append_nil] at hpt
          exact hne (hqw.trans hpt.symm)
        · apply hn
          rw [List.cons_append, List.cons.injEq] at hcut
          rw [hcut.2]
          simp

theorem within_iff_eq_of_none [DecidableEq α] (h : findLastOf sep p = none) :
    Within sep q p ↔ q = p := by
  constructor
  · rintro ⟨r, hr, rfl⟩
    rcases hr with rfl | ⟨r', rfl⟩
    · simp
    · exact absurd (by simp) (findLastOf_eq_none.mp h)
  · rintro rfl
    exact within_refl q

end HFlat.Lib
