/-
  A value that goes along a list of keys: each key that has a value of its own replaces it.

  In a list in ascending order the value at the end is that of the greatest key that has one
  (`carried_eq`), so it depends on the keys only and not on how often a key occurs
  (`carried_congr_mem`). A pass over the list that stores the value under each key it comes to can
  stop and go on from any key, also from the one it has dealt with last (`carried_append_filled`).
-/
import Mathlib.Order.Lattice
import Mathlib.Data.List.Sort
import Mathlib.Data.Option.Basic

namespace HFlat.Lib

variable {K V : Type}

/-- The value after the keys `ks`, from `value` on. -/
def carried (held : K → Option V) : Option V → List K → Option V
  | value, [] => value
  | value, k :: ks => carried held ((held k).or value) ks

@[simp] theorem carried_nil (held : K → Option V) (value : Option V) : carried held value [] = value := rfl

theorem carried_append (held : K → Option V) (value : Option V) (ks ks' : List K) :
    carried held value (ks ++ ks') = carried held (carried held value ks) ks' := by
  induction ks generalizing value with
  | nil => rfl
  | cons k ks ih => exact ih _

theorem carried_congr {held held' : K → Option V} {ks : List K} (h : ∀ k ∈ ks, held k = held' k)
    (value : Option V) : carried held value ks = carried held' value ks := by
  induction ks generalizing value with
  | nil => rfl
  | cons k ks ih =>
    unfold carried
    rw [h k List.mem_cons_self]
    exact ih (fun x hx => h x (List.mem_cons_of_mem _ hx)) _

/-- Keys without a value leave the one that is carried. -/
theorem carried_none {held : K → Option V} {ks : List K} (h : ∀ k ∈ ks, held k = none)
    (value : Option V) : carried held value ks = value := by
  induction ks with
  | nil => rfl
  | cons k ks ih =>
    unfold carried
    rw [h k List.mem_cons_self, Option.none_or]
    exact ih fun x hx => h x (List.mem_cons_of_mem _ hx)

variable [LinearOrder K]

/-- The value at the end of a list in ascending order is that of the greatest key with a value. -/
theorem carried_eq {held : K → Option V} {ks : List K} (hsorted : ks.Pairwise (· ≤ ·)) {x : K}
    (hx : x ∈ ks) (hheld : held x ≠ none) (hmax : ∀ k ∈ ks, held k ≠ none → k ≤ x) (value : Option V) :
    carried held value ks = held x := by
  induction ks generalizing value with
  | nil => cases hx
  | cons k ks ih =>
    obtain ⟨hk, hks⟩ := List.pairwise_cons.mp hsorted
    by_cases hin : x ∈ ks
    · exact ih hks hin (fun y hy => hmax y (List.mem_cons_of_mem _ hy)) _
    · obtain rfl : x = k := (List.mem_cons.mp hx).resolve_right hin
      obtain ⟨r, hr⟩ := Option.ne_none_iff_exists'.mp hheld
      unfold carried
      rw [carried_none fun y hy => ?_, hr, Option.some_or]
      -- a later key with a value would be the greatest one itself
      by_contra hy'
      have hle := hmax y (List.mem_cons_of_mem _ hy) hy'
      exact hin (le_antisymm (hk y hy) hle ▸ hy)

/-- Some key of the list has a value, and one of these is the greatest, or none has. -/
theorem exists_greatest (held : K → Option V) (ks : List K) :
    (∃ x ∈ ks, held x ≠ none ∧ ∀ k ∈ ks, held k ≠ none → k ≤ x) ∨ ∀ k ∈ ks, held k = none := by
  induction ks with
  | nil => exact Or.inr fun k hk => by cases hk
  | cons k ks ih =>
    by_cases hk : held k = none
    · refine ih.imp ?_ fun hnone => List.forall_mem_cons.mpr ⟨hk, hnone⟩
      rintro ⟨x, hx, hheld, hmax⟩
      exact ⟨x, List.mem_cons_of_mem _ hx, hheld, List.forall_mem_cons.mpr ⟨fun h => absurd hk h, hmax⟩⟩
    · left
      rcases ih with ⟨x, hx, hheld, hmax⟩ | hnone
      · rcases le_total k x with hle | hle
        · exact ⟨x, List.mem_cons_of_mem _ hx, hheld, List.forall_mem_cons.mpr ⟨fun _ => hle, hmax⟩⟩
        · exact ⟨k, List.mem_cons_self, hk, List.forall_mem_cons.mpr
            ⟨fun _ => le_rfl, fun y hy h => (hmax y hy h).trans hle⟩⟩
      · exact ⟨k, List.mem_cons_self, hk, List.forall_mem_cons.mpr
          ⟨fun _ => le_rfl, fun y hy h => absurd (hnone y hy) h⟩⟩

/-- Only the keys matter, not how often they occur. -/
theorem carried_congr_mem {held : K → Option V} {ks ks' : List K} (hsorted : ks.Pairwise (· ≤ ·))
    (hsorted' : ks'.Pairwise (· ≤ ·)) (hmem : ∀ k, k ∈ ks ↔ k ∈ ks') (value : Option V) :
    carried held value ks = carried held value ks' := by
  rcases exists_greatest held ks with ⟨x, hx, hheld, hmax⟩ | hnone
  · rw [carried_eq hsorted hx hheld hmax, carried_eq hsorted' ((hmem x).mp hx) hheld fun k hk =>
      hmax k ((hmem k).mpr hk)]
  · rw [carried_none hnone, carried_none fun k hk => hnone k ((hmem k).mpr hk)]

/-- The value that is carried to the greatest key is the one of that key, if it has one. -/
theorem or_carried {held : K → Option V} {ks : List K} (hsorted : ks.Pairwise (· ≤ ·)) {x : K}
    (hx : x ∈ ks) (hmax : ∀ k ∈ ks, k ≤ x) (value : Option V) :
    (held x).or (carried held value ks) = carried held value ks := by
  by_cases hheld : held x = none
  · rw [hheld, Option.none_or]
  · rw [carried_eq hsorted hx hheld fun k hk _ => hmax k hk, Option.or_self]

/-- The value that is carried to `k`. -/
def carriedTo (held : K → Option V) (value : Option V) (ks : List K) (k : K) : Option V :=
  carried held value (ks.filter (· ≤ k))

theorem or_carriedTo {held : K → Option V} {ks : List K} (hsorted : ks.Pairwise (· ≤ ·)) {k : K}
    (hk : k ∈ ks) (value : Option V) :
    (held k).or (carriedTo held value ks k) = carriedTo held value ks k :=
  or_carried (hsorted.filter _) (List.mem_filter.mpr ⟨hk, by simp⟩) (fun x hx => by
    simpa using (List.mem_filter.mp hx).2) value

theorem carriedTo_of_held {held : K → Option V} {ks : List K} (hsorted : ks.Pairwise (· ≤ ·)) {k : K}
    (hk : k ∈ ks) (hheld : held k ≠ none) (value : Option V) : carriedTo held value ks k = held k :=
  carried_eq (hsorted.filter _) (List.mem_filter.mpr ⟨hk, by simp⟩) hheld (fun x hx _ => by
    simpa using (List.mem_filter.mp hx).2) value

theorem carriedTo_of_le {held : K → Option V} {ks : List K} {k : K} (h : ∀ x ∈ ks, x ≤ k)
    (value : Option V) : carriedTo held value ks k = carried held value ks := by
  unfold carriedTo
  rw [List.filter_eq_self.mpr fun x hx => by simpa using h x hx]

theorem carriedTo_congr_mem {held : K → Option V} {ks ks' : List K} (hsorted : ks.Pairwise (· ≤ ·))
    (hsorted' : ks'.Pairwise (· ≤ ·)) (hmem : ∀ k, k ∈ ks ↔ k ∈ ks') (value : Option V) (k : K) :
    carriedTo held value ks k = carriedTo held value ks' k :=
  carried_congr_mem (hsorted.filter _) (hsorted'.filter _) (fun x => by
    simp only [List.mem_filter, hmem]) value

/-- What is held after the pass over `ks`. -/
def filled (held : K → Option V) (value : Option V) (ks : List K) (k : K) : Option V :=
  if k ∈ ks then carriedTo held value ks k else held k

section Append

variable {held : K → Option V} {value : Option V} {ks ks' : List K}

/-- The pass goes on from what it has left: nothing changes if it meets its last key again. -/
theorem carried_append_filled (hsorted : (ks ++ ks').Pairwise (· ≤ ·)) :
    carried (filled held value ks) (carried held value ks) ks' = carried held value (ks ++ ks') := by
  obtain ⟨hks, hks', hle⟩ := List.pairwise_append.mp hsorted
  rw [carried_append]
  clear hsorted
  induction ks' with
  | nil => rfl
  | cons x xs ih =>
    obtain ⟨hx, hxs⟩ := List.pairwise_cons.mp hks'
    by_cases hin : x ∈ ks
    · -- the last key once more
      have hmax : ∀ k ∈ ks, k ≤ x := fun k hk => hle k hk x List.mem_cons_self
      unfold carried
      rw [filled, if_pos hin, carriedTo_of_le hmax, Option.or_self, or_carried hks hin hmax]
      exact ih hxs fun k hk y hy => hle k hk y (List.mem_cons_of_mem _ hy)
    · refine carried_congr (fun y hy => if_neg fun hy' => hin ?_) _
      have hxy : x ≤ y := (List.mem_cons.mp hy).elim (fun h => h.ge) (hx y)
      exact le_antisymm hxy (hle y hy' x List.mem_cons_self) ▸ hy'

/-- Keys of the second part that come up to a key of the first part are that key. -/
theorem eq_of_append_sorted (hsorted : (ks ++ ks').Pairwise (· ≤ ·)) {k x : K} (hk : k ∈ ks) (hx : x ∈ ks')
    (hle : x ≤ k) : x = k :=
  le_antisymm hle ((List.pairwise_append.mp hsorted).2.2 k hk x hx)

/-- The first part decides on its own keys, whether the second has them or not. -/
theorem carriedTo_append_left (hsorted : (ks ++ ks').Pairwise (· ≤ ·)) {k : K} (hk : k ∈ ks) :
    carriedTo held value (ks ++ ks') k = carriedTo held value ks k := by
  refine carried_congr_mem (hsorted.filter _) ((List.pairwise_append.mp hsorted).1.filter _) (fun x => ?_) value
  simp only [List.mem_filter, List.mem_append, decide_eq_true_eq]
  refine ⟨fun h => ⟨h.1.elim id fun hx => ?_, h.2⟩, fun h => ⟨Or.inl h.1, h.2⟩⟩
  exact eq_of_append_sorted hsorted hk hx h.2 ▸ hk

theorem carriedTo_append_right (hsorted : (ks ++ ks').Pairwise (· ≤ ·)) {k : K} (hk : k ∈ ks') :
    carriedTo (filled held value ks) (carried held value ks) ks' k =
      carriedTo held value (ks ++ ks') k := by
  have hle : ∀ x ∈ ks, decide (x ≤ k) = true :=
    fun x hx => decide_eq_true ((List.pairwise_append.mp hsorted).2.2 x hx k hk)
  unfold carriedTo
  rw [List.filter_append, List.filter_eq_self.mpr hle]
  exact carried_append_filled (hsorted.sublist ((List.Sublist.refl ks).append List.filter_sublist))

/-- The pass over both parts leaves what one pass over the first and one over the second leave. -/
theorem filled_append (hsorted : (ks ++ ks').Pairwise (· ≤ ·)) :
    filled (filled held value ks) (carried held value ks) ks' = filled held value (ks ++ ks') := by
  funext k
  by_cases hk' : k ∈ ks'
  · rw [filled, if_pos hk', filled, if_pos (List.mem_append_right _ hk'), carriedTo_append_right hsorted hk']
  · rw [filled, if_neg hk']
    by_cases hk : k ∈ ks
    · rw [filled, if_pos hk, filled, if_pos (List.mem_append_left _ hk), carriedTo_append_left hsorted hk]
    · rw [filled, if_neg hk, filled, if_neg fun h => (List.mem_append.mp h).elim hk hk']

end Append

end HFlat.Lib
