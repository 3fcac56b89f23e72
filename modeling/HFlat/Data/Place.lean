/-
  Where `do_rw` reads and writes (`fuseops/data.cc`), in machine integers.

  Offsets are 64 bits wide, the block size, block numbers and positions in a block are of type `int`.
  Below 2 GiB none of the conversions changes a value (`place_of_lt`). From there on the product of
  block number and block size may overflow, and further on the block number itself is cut off.
-/
import HFlat.Base

namespace HFlat.Data

/-! ## Conversions -/

/-- To `int`. -/
def toInt (n : Int) : Int := n.bmod 4294967296

/-- To `size_t`. -/
def toSize (n : Int) : Nat := (n % 18446744073709551616).toNat

theorem toInt_eq_iff {n : Int} : toInt n = n ↔ -2147483648 ≤ n ∧ n < 2147483648 := by
  unfold toInt
  rw [Int.bmod_def]
  split <;> omega

theorem toInt_of_lt {n : Nat} (h : n < 2147483648) : toInt n = n :=
  toInt_eq_iff.mpr ⟨by omega, by omega⟩

theorem toSize_of_lt {n : Nat} (h : n < 18446744073709551616) : toSize n = n := by
  unfold toSize
  omega

/-! ## Places -/

/-- The numbers that `do_rw` computes. -/
structure Place where
  blocknum : Int
  inblockstart : Int
  inblocksize : Int
  deriving DecidableEq, Repr

/-- The block number in a data key, where keys are numbered without a sign. -/
def Place.block (place : Place) : Nat := (place.blocknum % 4294967296).toNat

/-- `do_rw` up to the access to the block, `none` where the product of two `int`s overflows. -/
@[irreducible] def place (blocksize size offset : Nat) : Option Place :=
  let blocknum := toInt ((offset : Int).tdiv blocksize)
  let product := blocknum * blocksize
  if toInt product = product then
    let inblockstart := toInt (offset - product)
    let inblocksize := if size > toSize (blocksize - inblockstart) then blocksize - inblockstart else size
    some ⟨blocknum, inblockstart, toInt inblocksize⟩
  else none

/-- A positive `int`. -/
def BlockSize (blocksize : Nat) : Prop := 0 < blocksize ∧ blocksize < 2147483648

instance (blocksize : Nat) : Decidable (BlockSize blocksize) := inferInstanceAs (Decidable (_ ∧ _))

/-- Up to 2 GiB the product does not overflow, and all numbers are exact. -/
theorem place_of_lt {blocksize size offset : Nat} (hb : BlockSize blocksize) (hoffset : offset < 2147483648) :
    place blocksize size offset = some ⟨(offset / blocksize : Nat), (offset % blocksize : Nat),
      (min size (blocksize - offset % blocksize) : Nat)⟩ := by
  have hmod := Nat.mod_lt offset hb.1
  have hdivmod := Nat.div_add_mod offset blocksize
  have hle : offset / blocksize ≤ offset := Nat.div_le_self _ _
  have hb2 := hb.2
  have hdiv : (offset : Int).tdiv blocksize = (offset / blocksize : Nat) := by
    rw [Int.tdiv_eq_ediv_of_nonneg (Int.natCast_nonneg _)]
    rfl
  have hblocknum : toInt (offset / blocksize : Nat) = (offset / blocksize : Nat) :=
    toInt_of_lt (hle.trans_lt hoffset)
  have hcast : ((offset / blocksize : Nat) : Int) * blocksize = (blocksize * (offset / blocksize) : Nat) := by
    rw [Int.natCast_mul, Int.mul_comm]
  have hproduct : toInt (blocksize * (offset / blocksize) : Nat) = (blocksize * (offset / blocksize) : Nat) :=
    toInt_of_lt (by omega)
  have hstart : (offset : Int) - (blocksize * (offset / blocksize) : Nat) = (offset % blocksize : Nat) := by omega
  have hstartInt : toInt (offset % blocksize : Nat) = (offset % blocksize : Nat) := toInt_of_lt (by omega)
  have hroom : (blocksize : Int) - (offset % blocksize : Nat) = (blocksize - offset % blocksize : Nat) := by omega
  have hroomSize : toSize (blocksize - offset % blocksize : Nat) = blocksize - offset % blocksize :=
    toSize_of_lt (by omega)
  have hsize : (if size > blocksize - offset % blocksize then ((blocksize - offset % blocksize : Nat) : Int)
      else (size : Int)) = (min size (blocksize - offset % blocksize) : Nat) := by
    split <;> omega
  have hsizeInt : toInt (min size (blocksize - offset % blocksize) : Nat) =
      (min size (blocksize - offset % blocksize) : Nat) := toInt_of_lt (by omega)
  unfold place
  dsimp only
  rw [hdiv, hblocknum, hcast, if_pos hproduct, hstart, hstartInt, hroom, hroomSize, hsize, hsizeInt]

theorem Place.block_of_lt {blocknum : Nat} {start size : Int} (h : blocknum < 4294967296) :
    (Place.mk blocknum start size).block = blocknum := by
  unfold Place.block
  dsimp only
  omega

end HFlat.Data
