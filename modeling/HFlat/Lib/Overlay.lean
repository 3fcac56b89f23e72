/-
  Writes into a block that grows on demand.

  A write replaces a range of the block; where it reaches past the end, the block is first filled
  up with `zero`. `overlay` applies writes one after the other. Two facts determine the result:
  its length (`length_overlay`) and, at every place, the last write that covers the place
  (`getD_overlay`). From these: writes of disjoint ranges commute (`overlay_comm`), and copying the
  written ranges from one block to another has the effect of the writes (`copyRanges_overlay`).
-/
import Mathlib.Data.List.GetD
import Mathlib.Order.Lattice

namespace HFlat.Lib.Block

variable {α : Type} (zero : α)

/-! ## Blocks -/

/-- Cut off or filled up to length `n`. -/
def resize (n : Nat) (b : List α) : List α := b.take n ++ List.replicate (n - b.length) zero

/-- `s` in place of the `n` elements from `pos` on. -/
def replace (b : List α) (pos n : Nat) (s : List α) : List α := b.take pos ++ s ++ b.drop (pos + n)

theorem length_resize (n : Nat) (b : List α) : (resize zero n b).length = n := by
  simp only [resize, List.length_append, List.length_take, List.length_replicate]
  omega

theorem getD_resize {n : Nat} {b : List α} (i : Nat) (h : b.length ≤ n) :
    (resize zero n b).getD i zero = b.getD i zero := by
  unfold resize
  rw [List.take_of_length_le h]
  by_cases hi : i < b.length
  · rw [List.getD_append _ _ _ _ hi]
  · rw [List.getD_append_right _ _ _ _ (by omega), List.getD_eq_default _ _ (by omega : b.length ≤ i)]
    by_cases hn : i - b.length < n - b.length
    · exact List.getD_replicate _ hn
    · exact List.getD_eq_default _ _ (by rw [List.length_replicate]; omega)

variable {zero}

theorem length_replace {b s : List α} {pos n : Nat} (hs : s.length = n) (hb : pos + n ≤ b.length) :
    (replace b pos n s).length = b.length := by
  simp only [replace, List.length_append, List.length_take, List.length_drop]
  omega

theorem getD_replace {b s : List α} {pos n : Nat} (i : Nat) (hs : s.length = n) (hb : pos ≤ b.length) :
    (replace b pos n s).getD i zero =
      if pos ≤ i ∧ i < pos + n then s.getD (i - pos) zero else b.getD i zero := by
  have htake : (b.take pos).length = pos := by
    rw [List.length_take]
    omega
  have hfirst : (b.take pos ++ s).length = pos + n := by
    rw [List.length_append, htake, hs]
  unfold replace
  by_cases h1 : i < pos
  · rw [if_neg (by omega), List.getD_append _ _ _ _ (by omega), List.getD_append _ _ _ _ (by omega),
      List.getD_eq_getElem?_getD, List.getElem?_take_of_lt h1, ← List.getD_eq_getElem?_getD]
  · by_cases h2 : i < pos + n
    · rw [if_pos ⟨by omega, h2⟩, List.getD_append _ _ _ _ (by omega),
        List.getD_append_right _ _ _ _ (by omega), htake]
    · rw [if_neg (by omega), List.getD_append_right _ _ _ _ (by omega), hfirst,
        List.getD_eq_getElem?_getD, List.getElem?_drop, ← List.getD_eq_getElem?_getD]
      congr 1
      omega

/-- A block is its length and its elements. -/
theorem ext_getD (zero : α) {b b' : List α} (hlen : b.length = b'.length)
    (h : ∀ i, b.getD i zero = b'.getD i zero) : b = b' := by
  refine List.ext_getElem hlen fun i hi hi' => ?_
  have hi'' := h i
  rwa [List.getD_eq_getElem _ _ hi, List.getD_eq_getElem _ _ hi'] at hi''

theorem take_drop_of_getD (zero : α) {b s : List α} {pos : Nat} (hlen : pos + s.length ≤ b.length)
    (h : ∀ i < s.length, b.getD (pos + i) zero = s.getD i zero) : (b.drop pos).take s.length = s := by
  refine List.ext_getElem ?_ fun i hi hs => ?_
  · rw [List.length_take, List.length_drop]
    omega
  · have hb : pos + i < b.length := by omega
    have := h i hs
    rw [List.getD_eq_getElem _ _ hb, List.getD_eq_getElem _ _ hs] at this
    rw [List.getElem_take, List.getElem_drop]
    exact this

/-! ## Writes -/

/-- Bytes written at an offset. -/
structure Update (α : Type) where
  offset : Nat
  bytes : List α
  deriving DecidableEq, Repr

namespace Update

/-- The first place past the write. -/
def stop (u : Update α) : Nat := u.offset + u.bytes.length

/-- Offset and size. -/
def range (u : Update α) : Nat × Nat := (u.offset, u.bytes.length)

/-- The position is among those written. -/
def Covers (u : Update α) (i : Nat) : Prop := u.offset ≤ i ∧ i < u.stop

instance (u : Update α) (i : Nat) : Decidable (u.Covers i) :=
  inferInstanceAs (Decidable (u.offset ≤ i ∧ i < u.stop))

end Update

variable (zero)

/-- The block after an update, as long as it has to be. -/
def write (b : List α) (u : Update α) : List α :=
  replace (resize zero (max u.stop b.length) b) u.offset u.bytes.length u.bytes

theorem length_write (b : List α) (u : Update α) : (write zero b u).length = max b.length u.stop := by
  unfold write
  rw [length_replace rfl, length_resize, max_comm]
  rw [length_resize]
  exact le_max_left _ _

theorem getD_write (b : List α) (u : Update α) (i : Nat) :
    (write zero b u).getD i zero =
      if u.Covers i then u.bytes.getD (i - u.offset) zero else b.getD i zero := by
  have hstop : u.offset + u.bytes.length ≤ (resize zero (max u.stop b.length) b).length := by
    rw [length_resize]
    exact le_max_left _ _
  unfold write
  rw [getD_replace i rfl ((Nat.le_add_right _ _).trans hstop), getD_resize zero i (le_max_right _ _)]
  rfl

/-- The writes one after the other. -/
def overlay (b : List α) (us : List (Update α)) : List α := us.foldl (write zero) b

theorem overlay_append (b : List α) (us vs : List (Update α)) :
    overlay zero b (us ++ vs) = overlay zero (overlay zero b us) vs := List.foldl_append

/-- How far the writes reach. -/
def reach : List (Update α) → Nat
  | [] => 0
  | u :: us => max u.stop (reach us)

/-- The element that the last write covering place `i` leaves there. -/
def latest : List (Update α) → Nat → Option α
  | [], _ => none
  | u :: us, i => (latest us i).or (if u.Covers i then some (u.bytes.getD (i - u.offset) zero) else none)

theorem length_overlay (b : List α) (us : List (Update α)) :
    (overlay zero b us).length = max b.length (reach us) := by
  induction us generalizing b with
  | nil => exact (Nat.max_zero _).symm
  | cons u us ih =>
    show (overlay zero (write zero b u) us).length = max b.length (max u.stop (reach us))
    rw [ih, length_write, max_assoc]

theorem length_le_overlay (b : List α) (us : List (Update α)) : b.length ≤ (overlay zero b us).length := by
  rw [length_overlay]
  exact le_max_left _ _

theorem getD_overlay (b : List α) (us : List (Update α)) (i : Nat) :
    (overlay zero b us).getD i zero = (latest zero us i).getD (b.getD i zero) := by
  induction us generalizing b with
  | nil => rfl
  | cons u us ih =>
    show (overlay zero (write zero b u) us).getD i zero = ((latest zero us i).or _).getD _
    rw [ih, getD_write]
    cases latest zero us i with
    | some x => rfl
    | none =>
      show (if u.Covers i then _ else _) = (if u.Covers i then _ else none : Option α).getD _
      split
      · rfl
      · rfl

theorem reach_append (us vs : List (Update α)) : reach (us ++ vs) = max (reach us) (reach vs) := by
  induction us with
  | nil => exact (Nat.zero_max _).symm
  | cons u us ih =>
    show max u.stop (reach (us ++ vs)) = max (max u.stop (reach us)) (reach vs)
    rw [ih, max_assoc]

theorem latest_append (us vs : List (Update α)) (i : Nat) :
    latest zero (us ++ vs) i = (latest zero vs i).or (latest zero us i) := by
  induction us with
  | nil => exact (Option.or_none).symm
  | cons u us ih =>
    show (latest zero (us ++ vs) i).or _ = (latest zero vs i).or ((latest zero us i).or _)
    rw [ih, Option.or_assoc]

theorem latest_eq_none {us : List (Update α)} {i : Nat} :
    latest zero us i = none ↔ ∀ u ∈ us, ¬ u.Covers i := by
  induction us with
  | nil => simp [latest]
  | cons u us ih =>
    rw [latest, Option.or_eq_none_iff, ih, List.forall_mem_cons, and_comm]
    simp

/-- No place is covered by a write of both. -/
def Apart (us vs : List (Update α)) : Prop :=
  ∀ u ∈ us, ∀ v ∈ vs, ∀ i, u.Covers i → ¬ v.Covers i

/-- Writes of disjoint ranges commute. -/
theorem overlay_comm {us vs : List (Update α)} (h : Apart us vs) (b : List α) :
    overlay zero b (us ++ vs) = overlay zero b (vs ++ us) := by
  refine ext_getD zero ?_ fun i => ?_
  · rw [length_overlay, length_overlay, reach_append, reach_append, max_comm (reach us)]
  · rw [getD_overlay, getD_overlay, latest_append, latest_append]
    by_cases hu : ∀ u ∈ us, ¬ u.Covers i
    · rw [(latest_eq_none zero).mpr hu, Option.or_none, Option.none_or]
    · obtain ⟨u, hmem, hi⟩ : ∃ u ∈ us, u.Covers i := by
        by_contra hc
        exact hu fun u hmem hi => hc ⟨u, hmem, hi⟩
      rw [(latest_eq_none zero).mpr fun v hv => h u hmem v hv i hi, Option.or_none, Option.none_or]

/-- If all other lists of writes are apart from `us`, what `us` has written stays. -/
theorem latest_flatten {us : List (Update α)} {lists : List (List (Update α))} {i : Nat} (hmem : us ∈ lists)
    (h : ∀ vs ∈ lists, vs = us ∨ Apart us vs) (hi : ∃ u ∈ us, u.Covers i) :
    latest zero lists.flatten i = latest zero us i := by
  obtain ⟨u, hu, hcovers⟩ := hi
  obtain ⟨x, hx⟩ : ∃ x, latest zero us i = some x := by
    refine Option.ne_none_iff_exists'.mp fun hnone => ?_
    exact (latest_eq_none zero).mp hnone u hu hcovers
  induction lists with
  | nil => cases hmem
  | cons vs lists ih =>
    have hrest : ∀ vs ∈ lists, vs = us ∨ Apart us vs := fun ws hws => h ws (List.mem_cons_of_mem _ hws)
    rw [List.flatten_cons, latest_append]
    by_cases hlater : us ∈ lists
    · rw [ih hlater hrest, hx]
      rfl
    · have hvs : us = vs := (List.mem_cons.mp hmem).resolve_right hlater
      have hnone : latest zero lists.flatten i = none := by
        refine (latest_eq_none zero).mpr fun v hv => ?_
        obtain ⟨ws, hws, hv⟩ := List.mem_flatten.mp hv
        have hne : ws ≠ us := by
          rintro rfl
          exact hlater hws
        exact (hrest ws hws).resolve_left hne u hu v hv i hcovers
      rw [hnone, Option.none_or, hvs]

/-! ## Copies of the written ranges -/

/-- The range `r` of `d` in place of that of `b`. -/
def copyRange (d b : List α) (r : Nat × Nat) : List α := replace b r.1 r.2 ((d.drop r.1).take r.2)

/-- Several ranges copied from one block to another. -/
def copyRanges (d b : List α) (rs : List (Nat × Nat)) : List α := rs.foldl (copyRange d) b

section Copy

variable {zero} {d b : List α}

theorem length_copied {r : Nat × Nat} (hd : r.1 + r.2 ≤ d.length) : ((d.drop r.1).take r.2).length = r.2 := by
  rw [List.length_take, List.length_drop]
  omega

theorem length_copyRange_eq {r : Nat × Nat} (hd : r.1 ≤ d.length) (hb : r.1 ≤ b.length) :
    (copyRange d b r).length = min (r.1 + r.2) d.length + (b.length - (r.1 + r.2)) := by
  simp only [copyRange, replace, List.length_append, List.length_take, List.length_drop]
  omega

theorem length_copyRange {r : Nat × Nat} (hd : r.1 + r.2 ≤ d.length) (hb : d.length ≤ b.length) :
    (copyRange d b r).length = b.length :=
  length_replace (length_copied hd) (hd.trans hb)

/-- Where the range ends past `d`, everything from the end of `d` on moves. -/
theorem getD_copyRange {r : Nat × Nat} (i : Nat) (hd : r.1 ≤ d.length) (hb : r.1 ≤ b.length)
    (hi : r.1 + r.2 ≤ d.length ∨ i < d.length) :
    (copyRange d b r).getD i zero =
      if r.1 ≤ i ∧ i < r.1 + r.2 then d.getD i zero else b.getD i zero := by
  unfold copyRange
  by_cases hstop : r.1 + r.2 ≤ d.length
  · rw [getD_replace i (length_copied hstop) hb]
    split
    · rename_i hi
      rw [List.getD_eq_getElem?_getD, List.getElem?_take_of_lt (by omega), List.getElem?_drop,
        ← List.getD_eq_getElem?_getD]
      congr 1
      omega
    · rfl
  · replace hi := hi.resolve_left hstop
    have hcopied : (d.drop r.1).length ≤ r.2 := by
      rw [List.length_drop]
      omega
    have htake : (b.take r.1).length = r.1 := by
      rw [List.length_take]
      omega
    unfold replace
    rw [List.take_of_length_le hcopied, List.getD_append _ _ _ _ (by
      rw [List.length_append, htake, List.length_drop]
      omega)]
    by_cases h1 : i < r.1
    · rw [if_neg (by omega), List.getD_append _ _ _ _ (by omega), List.getD_eq_getElem?_getD,
        List.getElem?_take_of_lt h1, ← List.getD_eq_getElem?_getD]
    · rw [if_pos ⟨by omega, by omega⟩, List.getD_append_right _ _ _ _ (by omega), htake,
        List.getD_eq_getElem?_getD, List.getElem?_drop, ← List.getD_eq_getElem?_getD]
      congr 1
      omega

theorem length_copyRanges {rs : List (Nat × Nat)} (hd : ∀ r ∈ rs, r.1 + r.2 ≤ d.length)
    (hb : d.length ≤ b.length) : (copyRanges d b rs).length = b.length := by
  induction rs generalizing b with
  | nil => rfl
  | cons r rs ih =>
    have hr := length_copyRange (hd r List.mem_cons_self) hb
    show (copyRanges d (copyRange d b r) rs).length = b.length
    rw [ih (fun r hr => hd r (List.mem_cons_of_mem _ hr)) (hb.trans hr.ge), hr]

/-- At every place a copy from `d` is either covered by a range or the old element. -/
theorem getD_copyRanges {rs : List (Nat × Nat)} (i : Nat) (hd : ∀ r ∈ rs, r.1 + r.2 ≤ d.length)
    (hb : d.length ≤ b.length) :
    (copyRanges d b rs).getD i zero =
      if ∃ r ∈ rs, r.1 ≤ i ∧ i < r.1 + r.2 then d.getD i zero else b.getD i zero := by
  induction rs generalizing b with
  | nil =>
    rw [if_neg (by rintro ⟨r, hr, -⟩; cases hr)]
    rfl
  | cons r rs ih =>
    have hstop := hd r List.mem_cons_self
    have hr := length_copyRange hstop hb
    show (copyRanges d (copyRange d b r) rs).getD i zero = _
    rw [ih (fun r hr => hd r (List.mem_cons_of_mem _ hr)) (hb.trans hr.ge),
      getD_copyRange i (by omega) (by omega) (Or.inl hstop)]
    by_cases h1 : ∃ r ∈ rs, r.1 ≤ i ∧ i < r.1 + r.2
    · obtain ⟨r', hmem, hi⟩ := h1
      rw [if_pos ⟨r', hmem, hi⟩, if_pos ⟨r', List.mem_cons_of_mem _ hmem, hi⟩]
    · rw [if_neg h1]
      by_cases h2 : r.1 ≤ i ∧ i < r.1 + r.2
      · rw [if_pos h2, if_pos ⟨r, List.mem_cons_self, h2⟩]
      · rw [if_neg h2, if_neg]
        rintro ⟨r', hmem, hi⟩
        obtain rfl | hmem := List.mem_cons.mp hmem
        · exact h2 hi
        · exact h1 ⟨r', hmem, hi⟩

end Copy

theorem stop_le_reach {us : List (Update α)} {u : Update α} (h : u ∈ us) : u.stop ≤ reach us := by
  induction us with
  | nil => cases h
  | cons v us ih =>
    obtain rfl | h := List.mem_cons.mp h
    · exact le_max_left _ _
    · exact (ih h).trans (le_max_right _ _)

/-- The ranges that were written, copied from a block with the writes to a block that is at least
    as long as the one written to, have the effect of the writes. -/
theorem copyRanges_overlay {base fresh : List α} {us : List (Update α)} (hlen : base.length ≤ fresh.length) :
    copyRanges (overlay zero base us)
      (resize zero (max fresh.length (overlay zero base us).length) fresh) (us.map Update.range) =
      overlay zero fresh us := by
  have hd : ∀ r ∈ us.map Update.range, r.1 + r.2 ≤ (overlay zero base us).length := by
    intro r hr
    obtain ⟨u, hu, rfl⟩ := List.mem_map.mp hr
    rw [length_overlay]
    exact (stop_le_reach hu).trans (le_max_right _ _)
  have hb : (overlay zero base us).length ≤
      (resize zero (max fresh.length (overlay zero base us).length) fresh).length := by
    rw [length_resize]
    exact le_max_right _ _
  refine ext_getD zero ?_ fun i => ?_
  · rw [length_copyRanges hd hb, length_resize, length_overlay, length_overlay]
    omega
  · rw [getD_copyRanges i hd hb, getD_resize zero i (le_max_left _ _), getD_overlay, getD_overlay]
    by_cases hi : ∀ u ∈ us, ¬ u.Covers i
    · rw [(latest_eq_none zero).mpr hi, if_neg]
      · rfl
      · rintro ⟨r, hr, hri⟩
        obtain ⟨u, hu, rfl⟩ := List.mem_map.mp hr
        exact hi u hu hri
    · have hex : ∃ r ∈ us.map Update.range, r.1 ≤ i ∧ i < r.1 + r.2 := by
        by_contra hc
        exact hi fun u hu hui => hc ⟨u.range, List.mem_map_of_mem hu, hui⟩
      rw [if_pos hex]
      cases hl : latest zero us i with
      | some x => rfl
      | none => exact absurd ((latest_eq_none zero).mp hl) hi

end HFlat.Lib.Block
