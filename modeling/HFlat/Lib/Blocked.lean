/-
  A file in blocks of equal size.

  `Assembles` says that the blocks, one after the other, hold the file: every place within a block has
  the element of the file, `zero` past the end, and no block reaches past the end of the file. A write
  within one block (`Assembles.write`), a cut (`Assembles.cut`) and an extension (`Assembles.extend`)
  of the file show in the blocks as one would expect.
-/
import HFlat.Lib.Edits

namespace HFlat.Lib.Block

variable {α : Type}

/-- The blocks together are the file: byte `i` of block `b` is byte `size * b + i`. -/
structure Assembles (zero : α) (size : Nat) (blocks : Nat → List α) (file : List α) : Prop where
  place : ∀ b i, i < size → (blocks b).getD i zero = file.getD (size * b + i) zero
  short : ∀ b, (blocks b).length ≤ size
  within : ∀ b, blocks b ≠ [] → size * b + (blocks b).length ≤ file.length

section Blocks

variable {zero : α} {size : Nat} {blocks : Nat → List α} {file : List α}

/-- Blocks past the end of the file are empty. -/
theorem Assembles.eq_nil (h : Assembles zero size blocks file) {b : Nat} (hb : file.length ≤ size * b) :
    blocks b = [] := by
  by_contra hne
  have hlen := List.length_pos_iff.mpr hne
  have := h.within b hne
  omega

/-- A write of the file, in the block that it goes to. -/
def inBlock (size : Nat) (u : Update α) : Update α := ⟨u.offset % size, u.bytes⟩

theorem inBlock_covers {u : Update α} (hfit : u.offset % size + u.bytes.length ≤ size)
    {b i : Nat} (hi : i < size) :
    u.Covers (size * b + i) ↔ b = u.offset / size ∧ (inBlock size u).Covers i := by
  have hdiv := Nat.div_add_mod u.offset size
  unfold Update.Covers Update.stop inBlock
  dsimp only
  constructor
  · rintro ⟨hle, hlt⟩
    have hb : b = u.offset / size := by
      rcases lt_trichotomy b (u.offset / size) with hlt' | heq | hgt
      · have := Nat.mul_le_mul_left size (Nat.succ_le_of_lt hlt')
        rw [Nat.mul_succ] at this
        omega
      · exact heq
      · have := Nat.mul_le_mul_left size (Nat.succ_le_of_lt hgt)
        rw [Nat.mul_succ] at this
        omega
    subst hb
    omega
  · rintro ⟨rfl, h⟩
    omega

theorem Assembles.write (h : Assembles zero size blocks file) {u : Update α}
    (hfit : u.offset % size + u.bytes.length ≤ size) :
    Assembles zero size (Function.update blocks (u.offset / size)
      (Block.write zero (blocks (u.offset / size)) (inBlock size u))) (Block.write zero file u) := by
  have hself : Function.update blocks (u.offset / size)
      (Block.write zero (blocks (u.offset / size)) (inBlock size u)) (u.offset / size) = _ :=
    Function.update_self _ _ _
  have hdiv := Nat.div_add_mod u.offset size
  have hstop : (inBlock size u).stop = u.offset % size + u.bytes.length := rfl
  have hstop' : u.stop = u.offset + u.bytes.length := rfl
  refine ⟨fun b i hi => ?_, fun b => ?_, fun b hb => ?_⟩
  · have hcovers := inBlock_covers hfit (b := b) hi
    rw [getD_write]
    by_cases hbu : b = u.offset / size
    · subst hbu
      rw [hself, getD_write, h.place _ _ hi]
      by_cases hc : (inBlock size u).Covers i
      · rw [if_pos hc, if_pos (hcovers.mpr ⟨rfl, hc⟩)]
        have hsub : size * (u.offset / size) + i - u.offset = i - u.offset % size := by omega
        rw [hsub]
        rfl
      · rw [if_neg hc, if_neg fun hu => hc (hcovers.mp hu).2]
    · rw [Function.update_of_ne hbu, if_neg fun hu => hbu (hcovers.mp hu).1]
      exact h.place b i hi
  · by_cases hbu : b = u.offset / size
    · subst hbu
      rw [hself, length_write, hstop]
      exact max_le (h.short _) hfit
    · rw [Function.update_of_ne hbu]
      exact h.short b
  · rw [length_write, hstop']
    by_cases hbu : b = u.offset / size
    · subst hbu
      rw [hself, length_write, hstop]
      by_cases hnil : blocks (u.offset / size) = []
      · rw [hnil, List.length_nil]
        omega
      · have := h.within _ hnil
        omega
    · rw [Function.update_of_ne hbu] at hb ⊢
      exact (h.within b hb).trans (le_max_left _ _)

/-- The blocks of a file that is cut to `n` elements. -/
def cutBlocks (zero : α) (size n : Nat) (blocks : Nat → List α) (b : Nat) : List α :=
  if b < n / size then blocks b else if b = n / size then resize zero (n % size) (blocks b) else []

theorem Assembles.cut (h : Assembles zero size blocks file) (hsize : 0 < size) (n : Nat) :
    Assembles zero size (cutBlocks zero size n blocks) (resize zero n file) := by
  have hdiv := Nat.div_add_mod n size
  have hmod := Nat.mod_lt n hsize
  unfold cutBlocks
  refine ⟨fun b i hi => ?_, fun b => ?_, fun b hb => ?_⟩
  · rw [getD_resize_ite]
    split
    · rename_i hb
      have := Nat.mul_le_mul_left size (Nat.succ_le_of_lt hb)
      rw [Nat.mul_succ] at this
      rw [if_neg (by omega), h.place b i hi]
    · split
      · rename_i hb
        subst hb
        rw [getD_resize_ite, h.place _ i hi]
        exact if_congr (by omega) rfl rfl
      · rename_i hlt hne
        have := Nat.mul_le_mul_left size (Nat.succ_le_of_lt (lt_of_le_of_ne (not_lt.mp hlt) (Ne.symm hne)))
        rw [Nat.mul_succ] at this
        rw [if_pos (by omega)]
        rfl
  · split
    · exact h.short b
    · split
      · rw [length_resize]
        exact hmod.le
      · exact Nat.zero_le _
  · rw [length_resize]
    split at hb
    · rename_i hlt
      rw [if_pos hlt]
      have := Nat.mul_le_mul_left size (Nat.succ_le_of_lt hlt)
      rw [Nat.mul_succ] at this
      have := h.short b
      omega
    · rename_i hlt
      rw [if_neg hlt]
      split at hb
      · rename_i heq
        rw [if_pos heq, length_resize, heq]
        exact hdiv.le
      · exact absurd rfl hb

theorem Assembles.extend (h : Assembles zero size blocks file) {n : Nat} (hn : file.length ≤ n) :
    Assembles zero size blocks (resize zero n file) where
  place b i hi := by
    rw [getD_resize zero _ hn]
    exact h.place b i hi
  short := h.short
  within b hb := by
    rw [length_resize]
    exact (h.within b hb).trans hn

/-- The same place in other blocks that hold the same elements. -/
theorem Assembles.congr {blocks' : Nat → List α} (h : Assembles zero size blocks file)
    (heq : ∀ b, blocks' b = blocks b) : Assembles zero size blocks' file := by
  rwa [funext heq]

end Blocks

end HFlat.Lib.Block
