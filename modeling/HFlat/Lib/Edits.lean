/-
  Writes and cuts of a block, in any order.

  A cut sets the length of the block: it drops what lies past the length or fills up with `zero`.
  As for writes alone, the result is determined by its length (`length_edited`) and, at every
  place, by the last edit that has an effect there (`getD_edited`). A cut has an effect at every
  place from its length on.
-/
import HFlat.Lib.Overlay

namespace HFlat.Lib.Block

variable {α : Type} (zero : α)

theorem getD_resize_ite (n : Nat) (b : List α) (i : Nat) :
    (resize zero n b).getD i zero = if n ≤ i then zero else b.getD i zero := by
  split
  · exact List.getD_eq_default _ _ (by rwa [length_resize])
  · unfold resize
    by_cases hb : i < b.length
    · rw [List.getD_append _ _ _ _ (by rw [List.length_take]; omega), List.getD_eq_getElem?_getD,
        List.getElem?_take_of_lt (by omega), ← List.getD_eq_getElem?_getD]
    · rw [List.getD_append_right _ _ _ _ (by rw [List.length_take]; omega),
        List.getD_eq_default b _ (by omega), List.length_take]
      exact List.getD_replicate _ (by omega)

/-- An edit of a block: bytes are written, or it is cut to a length. -/
inductive Edit (α : Type) where
  | write (u : Update α)
  | cut (n : Nat)
  deriving DecidableEq, Repr

namespace Edit

/-- The block after an edit. -/
def apply (b : List α) : Edit α → List α
  | write u => Block.write zero b u
  | cut n => resize zero n b

/-- The length of a block that had length `l`. -/
def length (l : Nat) : Edit α → Nat
  | write u => max l u.stop
  | cut n => n

/-- What the edit leaves at place `i`, if it has an effect there. -/
def effect (i : Nat) : Edit α → Option α
  | write u => if u.Covers i then some (u.bytes.getD (i - u.offset) zero) else none
  | cut n => if n ≤ i then some zero else none

theorem length_apply (b : List α) (e : Edit α) : (e.apply zero b).length = e.length b.length := by
  cases e with
  | write u => exact length_write zero b u
  | cut n => exact length_resize zero n b

theorem effect_write (u : Update α) (i : Nat) :
    (write u).effect zero i = if u.Covers i then some (u.bytes.getD (i - u.offset) zero) else none := rfl

theorem effect_cut (n i : Nat) : (cut n).effect zero i = if n ≤ i then some zero else none := rfl

theorem getD_apply (b : List α) (e : Edit α) (i : Nat) :
    (e.apply zero b).getD i zero = (e.effect zero i).getD (b.getD i zero) := by
  cases e with
  | write u =>
    rw [effect_write, apply, getD_write]
    split
    · rfl
    · rfl
  | cut n =>
    rw [effect_cut, apply, getD_resize_ite]
    split
    · rfl
    · rfl

end Edit

/-- The edits one after the other. -/
def edited (b : List α) (es : List (Edit α)) : List α := es.foldl (Edit.apply zero) b

/-- The length of the block after several edits. -/
def lengthAfter (l : Nat) (es : List (Edit α)) : Nat := es.foldl Edit.length l

/-- What the last edit with an effect at place `i` leaves there. -/
def lastEffect : List (Edit α) → Nat → Option α
  | [], _ => none
  | e :: es, i => (lastEffect es i).or (e.effect zero i)

theorem edited_append (b : List α) (es fs : List (Edit α)) :
    edited zero b (es ++ fs) = edited zero (edited zero b es) fs := List.foldl_append

theorem length_edited (b : List α) (es : List (Edit α)) :
    (edited zero b es).length = lengthAfter b.length es := by
  induction es generalizing b with
  | nil => rfl
  | cons e es ih =>
    show (edited zero (e.apply zero b) es).length = lengthAfter (e.length b.length) es
    rw [ih, Edit.length_apply]

theorem getD_edited (b : List α) (es : List (Edit α)) (i : Nat) :
    (edited zero b es).getD i zero = (lastEffect zero es i).getD (b.getD i zero) := by
  induction es generalizing b with
  | nil => rfl
  | cons e es ih =>
    show (edited zero (e.apply zero b) es).getD i zero = ((lastEffect zero es i).or _).getD _
    rw [ih, Edit.getD_apply]
    cases lastEffect zero es i with
    | some x => rfl
    | none => rfl

theorem lastEffect_append (es fs : List (Edit α)) (i : Nat) :
    lastEffect zero (es ++ fs) i = (lastEffect zero fs i).or (lastEffect zero es i) := by
  induction es with
  | nil => exact (Option.or_none).symm
  | cons e es ih =>
    show (lastEffect zero (es ++ fs) i).or _ = (lastEffect zero fs i).or ((lastEffect zero es i).or _)
    rw [ih, Option.or_assoc]

/-- A cut has an effect wherever it does not leave the block. -/
theorem lastEffect_ne_none_of_cut {es : List (Edit α)} {n i : Nat} (h : .cut n ∈ es) (hi : n ≤ i) :
    lastEffect zero es i ≠ none := by
  intro hnone
  induction es with
  | nil => cases h
  | cons e es ih =>
    obtain ⟨hes, he⟩ := Option.or_eq_none_iff.mp hnone
    obtain rfl | h := List.mem_cons.mp h
    · rw [Edit.effect_cut, if_pos hi] at he
      cases he
    · exact ih h hes

/-- The block gets shorter only by a cut to at most the length it has in the end. -/
theorem le_lengthAfter_or_cut (l : Nat) (es : List (Edit α)) :
    l ≤ lengthAfter l es ∨ ∃ n ≤ lengthAfter l es, .cut n ∈ es := by
  induction es generalizing l with
  | nil => exact Or.inl le_rfl
  | cons e es ih =>
    show l ≤ lengthAfter (e.length l) es ∨ ∃ n ≤ lengthAfter (e.length l) es, .cut n ∈ e :: es
    obtain hle | ⟨n, hn, hmem⟩ := ih (e.length l)
    · cases e with
      | write u => exact Or.inl ((le_max_left _ _).trans hle)
      | cut n => exact Or.inr ⟨n, hle, List.mem_cons_self⟩
    · exact Or.inr ⟨n, hn, List.mem_cons_of_mem _ hmem⟩

theorem lengthAfter_of_cut {es : List (Edit α)} {n : Nat} (h : .cut n ∈ es) (l l' : Nat) :
    lengthAfter l es = lengthAfter l' es := by
  induction es generalizing l l' with
  | nil => cases h
  | cons e es ih =>
    show lengthAfter (e.length l) es = lengthAfter (e.length l') es
    obtain rfl | h := List.mem_cons.mp h
    · rfl
    · exact ih h _ _

theorem lengthAfter_writes {es : List (Edit α)} (h : ∀ n, .cut n ∉ es) (l : Nat) :
    lengthAfter l es = max l (lengthAfter 0 es) := by
  induction es generalizing l with
  | nil => exact (Nat.max_zero l).symm
  | cons e es ih =>
    have hrest : ∀ n, .cut n ∉ es := fun n hn => h n (List.mem_cons_of_mem _ hn)
    cases e with
    | cut n => exact absurd List.mem_cons_self (h n)
    | write u =>
      show lengthAfter (max l u.stop) es = max l (lengthAfter (max 0 u.stop) es)
      rw [ih hrest, ih hrest (max 0 u.stop), Nat.zero_max, max_assoc]

end HFlat.Lib.Block
