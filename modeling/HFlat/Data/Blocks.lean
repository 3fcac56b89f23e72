/-
  Block numbers and file sizes in machine integers (`do_rw` and `hflat_write` in `fuseops/data.cc`,
  `hflat_fsync` in `fuseops/sync.cc`, the deletion of data keys in `hflat_unlink`).

  Offsets are 64 bits wide, the size and the number of the inode unsigned 32 and 64 bits, and block
  numbers and the arguments of the deletion are of type `int`. Below 2 GiB none of the conversions
  changes a value. From there on `do_rw` multiplies past the range of `int`, and the deletion counts
  down from a negative size. It also counts the bytes and not the blocks, so that of a size that is a
  multiple of the block size the first block is left.
-/
import HFlat.Data.DataInfo
import HFlat.Data.Place

namespace HFlat.Data.Blocks

open HFlat.Lib.Block (resize replace length_resize length_replace)

/-- Bytes in a block. -/
def blocksize : Nat := 1024 * 1024

theorem blocksize_eq : blocksize = 1048576 := rfl

/-! ## Conversions -/

/-- `std::to_string` on an `int`. -/
def intToStr : Int → Str
  | .ofNat n => toStr n
  | .negSucc n => '-' :: toStr (n + 1)

/-- `util::to_int64` with a sign. -/
def intOfStr : Str → Int
  | '-' :: s => - (toInt64 s : Int)
  | s => toInt64 s

theorem separator_not_mem (n : Int) : '_' ∉ intToStr n := by
  cases n with
  | ofNat n => exact not_mem_toStr (by decide)
  | negSucc n =>
    refine List.mem_cons.not.mpr (not_or.mpr ⟨by decide, not_mem_toStr (by decide)⟩)

theorem intToStr_eq {n : Int} {m : Nat} (h : intToStr n = toStr m) : n = m := by
  cases n with
  | ofNat n => exact congrArg Int.ofNat (toStr_inj h)
  | negSucc n =>
    have hmem : '-' ∈ toStr m := by
      rw [← h]
      exact List.mem_cons_self
    exact absurd hmem (not_mem_toStr (by decide))

theorem intOfStr_toStr (n : Nat) : intOfStr (toStr n) = n := by
  have hsign : '-' ∉ toStr n := not_mem_toStr (by decide)
  unfold intOfStr
  split
  · rename_i s hs
    rw [hs] at hsign
    exact absurd List.mem_cons_self hsign
  · rw [toInt64_toStr]

/-- Two parts of a key. -/
theorem key_inj {a b c d : Str} (ha : '_' ∉ a) (hb : '_' ∉ b) (h : a ++ '_' :: c = b ++ '_' :: d) :
    a = b ∧ c = d := by
  induction a generalizing b with
  | nil =>
    cases b with
    | nil => exact ⟨rfl, (List.cons.inj h).2⟩
    | cons x b =>
      have hx : '_' = x := (List.cons.inj h).1
      exact absurd (hx ▸ List.mem_cons_self) hb
  | cons y a ih =>
    cases b with
    | nil =>
      have hy : y = '_' := (List.cons.inj h).1
      exact absurd (hy ▸ List.mem_cons_self) ha
    | cons x b =>
      obtain ⟨hhead, htail⟩ := List.cons.inj h
      obtain ⟨hab, hcd⟩ := ih (fun hm => ha (List.mem_cons_of_mem _ hm))
        (fun hm => hb (List.mem_cons_of_mem _ hm)) htail
      exact ⟨by rw [hhead, hab], hcd⟩

/-- The data key of a block, as `do_rw` names it. -/
def blockKey (inodeNumber : UInt64) (blocknum : Int) : Str :=
  toStr inodeNumber.toNat ++ '_' :: intToStr blocknum

/-! ## Unlink -/

/-- The keys that the thread started by `hflat_unlink` deletes. -/
def datadelete (ino size : Int) : List Str :=
  if 0 < size then
    (intToStr ino ++ '_' :: intToStr (size.tdiv blocksize)) :: datadelete ino (size - blocksize)
  else []
termination_by size.toNat
decreasing_by
  unfold blocksize
  omega

/-- The thread is started with the size and the number of the inode, both converted to `int`. -/
def unlinkDelete (size : UInt32) (inodeNumber : UInt64) : List Str :=
  datadelete (toInt inodeNumber.toNat) (toInt size.toNat)

theorem mem_datadelete {ino size : Int} {key : Str} :
    key ∈ datadelete ino size ↔ ∃ k : Nat, 0 < size - k * blocksize ∧
      key = intToStr ino ++ '_' :: intToStr ((size - k * blocksize).tdiv blocksize) := by
  induction size using datadelete.induct with
  | case1 size hpos ih =>
    rw [datadelete, if_pos hpos, List.mem_cons, ih]
    constructor
    · rintro (rfl | ⟨k, hk, rfl⟩)
      · exact ⟨0, by simpa using hpos, by simp⟩
      · have hshift : size - ((k + 1 : Nat) : Int) * blocksize = size - blocksize - k * blocksize := by
          unfold blocksize
          omega
        exact ⟨k + 1, hshift ▸ hk, by rw [hshift]⟩
    · rintro ⟨k, hk, rfl⟩
      cases k with
      | zero => exact Or.inl (by simp)
      | succ k =>
        have hshift : size - ((k + 1 : Nat) : Int) * blocksize = size - blocksize - k * blocksize := by
          unfold blocksize
          omega
        exact Or.inr ⟨k, hshift ▸ hk, by rw [hshift]⟩
  | case2 size hpos =>
    rw [datadelete, if_neg hpos]
    refine iff_of_false (List.not_mem_nil) ?_
    rintro ⟨k, hk, -⟩
    unfold blocksize at hk
    omega

/-- The blocks that are deleted. -/
theorem blockKey_mem_unlinkDelete {size : UInt32} {inodeNumber : UInt64} {b : Nat} :
    blockKey inodeNumber b ∈ unlinkDelete size inodeNumber ↔
      inodeNumber.toNat < 2147483648 ∧ size.toNat < 2147483648 ∧ b * blocksize ≤ size.toNat ∧
        0 < b + size.toNat % blocksize := by
  have hsize := size.toNat_lt
  have hino := inodeNumber.toNat_lt
  unfold unlinkDelete
  rw [mem_datadelete]
  constructor
  · rintro ⟨k, hk, hkey⟩
    obtain ⟨hi, hb⟩ := key_inj (not_mem_toStr (by decide)) (separator_not_mem _) hkey
    have hi := toInt_eq_iff.mp (intToStr_eq hi.symm)
    have hs : 0 < toInt size.toNat := by
      unfold blocksize at hk
      omega
    have hs : toInt size.toNat = size.toNat := by
      unfold toInt at *
      rw [Int.bmod_def] at *
      split at hs <;> omega
    have hb : b = (toInt size.toNat - k * blocksize).tdiv blocksize := (intToStr_eq hb.symm).symm
    have hbound := toInt_eq_iff.mp hs
    rw [hs] at hk hb
    rw [Int.tdiv_eq_ediv_of_nonneg (by omega)] at hb
    unfold blocksize at *
    omega
  · rintro ⟨hi, hs, hle, hpos⟩
    have hmul : ((size.toNat / blocksize - b : Nat) : Int) * blocksize =
        size.toNat - (b * blocksize + size.toNat % blocksize : Nat) := by
      unfold blocksize at *
      omega
    have hrest : (size.toNat : Int) - ((size.toNat / blocksize - b : Nat) : Int) * blocksize =
        (b * blocksize + size.toNat % blocksize : Nat) := by omega
    rw [toInt_eq_iff.mpr ⟨by omega, by omega⟩, toInt_eq_iff.mpr ⟨by omega, by omega⟩]
    refine ⟨size.toNat / blocksize - b, ?_, ?_⟩
    · rw [hrest]
      unfold blocksize at *
      omega
    · rw [hrest, Int.tdiv_eq_ediv_of_nonneg (Int.natCast_nonneg _)]
      have hdiv : ((b * blocksize + size.toNat % blocksize : Nat) : Int) / blocksize = b := by
        unfold blocksize
        omega
      rw [hdiv]
      rfl

/-- All data blocks of an unlinked file are deleted exactly if it has none, or its size and its inode
    number are below 2^31 and the size is no multiple of the block size. -/
theorem unlink_deletes_blocks_iff (size : UInt32) (inodeNumber : UInt64) :
    (∀ b : Nat, b * blocksize < size.toNat → blockKey inodeNumber b ∈ unlinkDelete size inodeNumber) ↔
      size.toNat = 0 ∨ inodeNumber.toNat < 2147483648 ∧ size.toNat < 2147483648 ∧
        size.toNat % blocksize ≠ 0 := by
  simp only [blockKey_mem_unlinkDelete]
  constructor
  · intro h
    by_cases hsize : size.toNat = 0
    · exact Or.inl hsize
    · obtain ⟨hi, hs, -, hpos⟩ := h 0 (by omega)
      exact Or.inr ⟨hi, hs, by omega⟩
  · rintro (hsize | ⟨hi, hs, hmod⟩) b hb
    · omega
    · exact ⟨hi, hs, by omega, by omega⟩

/-- Of a file of 1 MiB nothing is deleted but block 1, which it does not have; of a file of 2 GiB, or
    with a large inode number, nothing at all. -/
theorem unlink_leaves_blocks :
    ¬ (∀ b : Nat, b * blocksize < (1048576 : UInt32).toNat → blockKey 7 b ∈ unlinkDelete 1048576 7) ∧
    ¬ (∀ b : Nat, b * blocksize < (2147483649 : UInt32).toNat →
      blockKey 7 b ∈ unlinkDelete 2147483649 7) ∧
    ¬ ∀ b : Nat, b * blocksize < (10 : UInt32).toNat →
      blockKey 4294967303 b ∈ unlinkDelete 10 4294967303 := by
  simp only [blockKey_mem_unlinkDelete]
  exact ⟨fun h => absurd (h 0 (by decide)) (by decide), fun h => absurd (h 0 (by decide)) (by decide),
    fun h => absurd (h 0 (by decide)) (by decide)⟩

/-! ## Write and flush -/

/-- `do_rw`, `none` where the product of two `int`s overflows. -/
def doRw (size offset : Nat) : Option Place := place blocksize size offset

/-- The metadata of a file and the block that it has unflushed data of. -/
structure File where
  size : UInt32
  key : Str
  block : DataInfo
  deriving DecidableEq, Repr

/-- The number of the block in a data key. -/
def blocknumOf (key : Str) : Int := toInt (intOfStr ((key.dropWhile (· ≠ '_')).tail))

/-- The size that `hflat_fsync` computes. -/
def newSize (f : File) : Nat :=
  max (toSize (blocksize * blocknumOf f.key + f.block.d.length)) f.size.toNat

/-- `hflat_fsync` that succeeds; `full` for the mode `PosixMode::FULL`. -/
def hflatFsync (full : Bool) (f : File) : File :=
  if f.block.hasUpdates then
    { f with
      size := if f.size.toNat < newSize f ∨ full then UInt32.ofNat (newSize f) else f.size
      block := f.block.forgetUpdates }
  else f

section Write

-- the inode number, and the blocks that the keys lead to
variable (inodeNumber : UInt64) (blocks : Str → DataInfo) (append full : Bool)

/-- `hflat_write` to a file without unflushed data in another block: what it returns and leaves, `none`
    where an `int` overflows or an assertion fails. -/
def hflatWrite (size : UInt32) (buf : Str) (offset : Nat) : Option (Int × File) := do
  let place ← doRw buf.length offset
  let key := blockKey inodeNumber place.blocknum
  let block ← (blocks key).updateData (buf.take (toSize place.inblocksize)) (toSize place.inblockstart)
  let f := ⟨size, key, block⟩
  if place.inblocksize ≤ 0 then return (place.inblocksize, f)
  if append ∨ (offset + toSize place.inblocksize) % blocksize = 0 then
    return (place.inblocksize, hflatFsync full f)
  return (place.inblocksize, f)

/-- The write is refused, or the numbers are exact and the flush stores the right size. -/
def WriteExact (size : UInt32) (buf : Str) (offset : Nat) : Prop :=
  ∃ n f, hflatWrite inodeNumber blocks append full size buf offset = some (n, f) ∧
    (n < 0 ∨ ∃ place, doRw buf.length offset = some place ∧
      (offset : Int) = place.blocknum * blocksize + place.inblockstart ∧
      0 ≤ place.inblockstart ∧ place.inblockstart < blocksize ∧ n = buf.length ∧
      (hflatFsync full f).size.toNat = max size.toNat (offset + buf.length))

end Write

theorem toInt_add_mul (n k : Int) : toInt (n + k * 4294967296) = toInt n :=
  Int.add_mul_bmod_self_right _ _ _

theorem exists_toInt (n : Int) : ∃ k, toInt n = n + k * 4294967296 := by
  unfold toInt
  rw [Int.bmod_def]
  split
  · exact ⟨- (n / 4294967296), by omega⟩
  · exact ⟨- (n / 4294967296) - 1, by omega⟩

/-- For a write within one block: position and size within the block are right, whatever becomes of
    the block number. -/
theorem doRw_eq {size offset : Nat} (hsize : offset % blocksize + size ≤ blocksize) :
    doRw size offset =
      if toInt (toInt (offset / blocksize : Nat) * blocksize) = toInt (offset / blocksize : Nat) * blocksize then
        some ⟨toInt (offset / blocksize : Nat), (offset % blocksize : Nat), size⟩
      else none := by
  have hdiv : (offset : Int).tdiv blocksize = (offset / blocksize : Nat) := by
    rw [Int.tdiv_eq_ediv_of_nonneg (Int.natCast_nonneg _)]
    rfl
  have hstart : toInt (offset - toInt (offset / blocksize : Nat) * blocksize) = (offset % blocksize : Nat) := by
    obtain ⟨k, hk⟩ := exists_toInt (offset / blocksize : Nat)
    have hsplit : (offset : Int) - toInt (offset / blocksize : Nat) * blocksize =
        (offset % blocksize : Nat) + (- k * 1048576) * 4294967296 := by
      rw [hk]
      simp only [blocksize_eq]
      omega
    rw [hsplit, toInt_add_mul]
    simp only [blocksize_eq]
    exact toInt_eq_iff.mpr ⟨by omega, by omega⟩
  have hroom : toSize (blocksize - (offset % blocksize : Nat)) = blocksize - offset % blocksize := by
    unfold toSize
    simp only [blocksize_eq] at *
    omega
  have hfits : ¬ size > blocksize - offset % blocksize :=
    Nat.not_lt.mpr (Nat.le_sub_of_add_le' hsize)
  have hinblocksize : toInt size = size := by
    rw [blocksize_eq] at hsize
    exact toInt_eq_iff.mpr ⟨by omega, by omega⟩
  unfold doRw place
  dsimp only
  rw [hdiv, hstart, hroom, if_neg hfits, hinblocksize]

/-- Up to 2 GiB the product does not overflow, and the block number is right. -/
theorem doRw_of_lt {size offset : Nat} (hoffset : offset < 2147483648)
    (hsize : offset % blocksize + size ≤ blocksize) :
    doRw size offset = some ⟨(offset / blocksize : Nat), (offset % blocksize : Nat), size⟩ := by
  have hblocknum : toInt (offset / blocksize : Nat) = (offset / blocksize : Nat) := by
    simp only [blocksize_eq]
    exact toInt_eq_iff.mpr ⟨by omega, by omega⟩
  have hproduct : toInt (((offset / blocksize : Nat) : Int) * blocksize) =
      ((offset / blocksize : Nat) : Int) * blocksize := by
    simp only [blocksize_eq]
    exact toInt_eq_iff.mpr ⟨by omega, by omega⟩
  rw [doRw_eq hsize, hblocknum, if_pos hproduct]

/-- Exact numbers are those below 2 GiB: a product that does not overflow is at most 2^31 - 2^20. -/
theorem lt_of_exact {blocknum : Int} {offset : Nat}
    (hproduct : toInt (blocknum * blocksize) = blocknum * blocksize)
    (hexact : (offset : Int) = blocknum * blocksize + (offset % blocksize : Nat)) : offset < 2147483648 := by
  have hbound := (toInt_eq_iff.mp hproduct).2
  simp only [blocksize_eq] at *
  omega

/-- The flush of a block below 2 GiB stores the size of the file with this block. -/
theorem hflatFsync_size {inodeNumber : UInt64} {b : Nat} {size : UInt32} {block : DataInfo} (full : Bool)
    (hb : b < 2048) (hlength : block.d.length ≤ blockLimit) (hupdates : block.hasUpdates = true) :
    (hflatFsync full ⟨size, blockKey inodeNumber b, block⟩).size.toNat =
      max (b * blocksize + block.d.length) size.toNat := by
  have hsize := size.toNat_lt
  have hkey : blocknumOf (blockKey inodeNumber b) = b := by
    have htail : ((blockKey inodeNumber b).dropWhile (· ≠ '_')).tail = toStr b := by
      unfold blockKey
      rw [List.dropWhile_append_of_pos]
      · simp [intToStr]
      · intro c hc
        exact decide_eq_true fun he => not_mem_toStr (by decide) (he ▸ hc)
    unfold blocknumOf
    rw [htail, intOfStr_toStr]
    exact toInt_eq_iff.mpr ⟨by omega, by omega⟩
  have hnew : newSize ⟨size, blockKey inodeNumber b, block⟩ = max (b * blocksize + block.d.length) size.toNat := by
    unfold newSize
    dsimp only
    rw [hkey]
    unfold toSize blockLimit at *
    simp only [blocksize_eq]
    omega
  have hfits : max (b * blocksize + block.d.length) size.toNat < 4294967296 := by
    unfold blockLimit at *
    simp only [blocksize_eq]
    omega
  unfold hflatFsync
  rw [if_pos hupdates, hnew]
  dsimp only
  split
  · exact UInt32.toNat_ofNat_of_lt hfits
  · omega

theorem hflatFsync_twice (full : Bool) (f : File) : hflatFsync full (hflatFsync full f) = hflatFsync full f := by
  by_cases hf : f.block.hasUpdates = true
  · have hflushed : (hflatFsync full f).block.hasUpdates = false := by
      unfold hflatFsync
      rw [if_pos hf]
      rfl
    exact if_neg (by rw [hflushed]; decide)
  · have hsame : hflatFsync full f = f := if_neg hf
    rw [hsame, hsame]

section Write

variable (inodeNumber : UInt64) (blocks : Str → DataInfo) (append full : Bool) (size : UInt32)
variable {buf : Str} {offset : Nat}

/-- `updateData` within the largest block. -/
theorem updateData_within {x : DataInfo} (h : offset + buf.length ≤ blockLimit) :
    ∃ x', x.updateData buf offset = some x' ∧ x'.d.length = max (offset + buf.length) x.d.length ∧
      x'.hasUpdates = true := by
  have hlength : (replace (resize nul (max (offset + buf.length) x.d.length) x.d) offset buf.length buf).length =
      max (offset + buf.length) x.d.length := by
    rw [length_replace rfl, length_resize]
    rw [length_resize]
    exact le_max_left _ _
  exact ⟨_, if_pos h, hlength, by simp [DataInfo.hasUpdates]⟩

/-- A write within one block is acknowledged, and a flush stores the block with its bytes. -/
theorem hflatWrite_eq (hbuf : buf ≠ []) (hblock : offset % blocksize + buf.length ≤ blocksize) {blocknum : Int}
    (hplace : doRw buf.length offset = some ⟨blocknum, (offset % blocksize : Nat), buf.length⟩) :
    ∃ f block, hflatWrite inodeNumber blocks append full size buf offset =
        some ((buf.length : Int), f) ∧
      block.d.length = max (offset % blocksize + buf.length) (blocks (blockKey inodeNumber blocknum)).d.length ∧
      block.hasUpdates = true ∧
      hflatFsync full f = hflatFsync full ⟨size, blockKey inodeNumber blocknum, block⟩ := by
  have hlength : 0 < buf.length := List.length_pos_iff.mpr hbuf
  have hstart : toSize (offset % blocksize : Nat) = offset % blocksize := by
    rw [blocksize_eq]
    exact toSize_of_lt (by omega)
  have hsize : toSize buf.length = buf.length := by
    rw [blocksize_eq] at hblock
    exact toSize_of_lt (by omega)
  obtain ⟨block, hupdate, hblocklength, hupdates⟩ :=
    @updateData_within _ _ (blocks (blockKey inodeNumber blocknum)) hblock
  unfold hflatWrite
  rw [hplace, Option.bind_eq_bind, Option.bind_some]
  dsimp only
  rw [hstart, hsize, List.take_length, hupdate, Option.bind_eq_bind, Option.bind_some, if_neg (by omega)]
  by_cases hflush : append ∨ (offset + buf.length) % blocksize = 0
  · rw [if_pos hflush]
    exact ⟨_, block, rfl, hblocklength, hupdates, hflatFsync_twice full _⟩
  · rw [if_neg hflush]
    exact ⟨_, block, rfl, hblocklength, hupdates, rfl⟩

/-- For a write within one block the numbers and the stored size are right exactly if the offset is
    below 2 GiB and the block that the write goes to does not reach past the file. -/
theorem write_exact_iff (hbuf : buf ≠ []) (hblock : offset % blocksize + buf.length ≤ blocksize)
    (hblocks : ∀ key, (blocks key).d.length ≤ blockLimit) :
    WriteExact inodeNumber blocks append full size buf offset ↔
      offset < 2147483648 ∧
        offset / blocksize * blocksize + (blocks (blockKey inodeNumber (offset / blocksize : Nat))).d.length ≤
          max size.toNat (offset + buf.length) := by
  have hstored : ∀ {f : File} {block : DataInfo}, offset < 2147483648 →
      block.d.length = max (offset % blocksize + buf.length)
        (blocks (blockKey inodeNumber (offset / blocksize : Nat))).d.length →
      block.hasUpdates = true →
      hflatFsync full f = hflatFsync full ⟨size, blockKey inodeNumber (offset / blocksize : Nat), block⟩ →
      (hflatFsync full f).size.toNat =
        max (offset / blocksize * blocksize + max (offset % blocksize + buf.length)
          (blocks (blockKey inodeNumber (offset / blocksize : Nat))).d.length) size.toNat := by
    intro f block hoffset hlength hupdates hf
    have hle := hblocks (blockKey inodeNumber (offset / blocksize : Nat))
    have hlimit : block.d.length ≤ blockLimit := by
      rw [hlength]
      exact max_le hblock hle
    have hb : offset / blocksize < 2048 := by
      rw [blocksize_eq]
      omega
    rw [hf, hflatFsync_size full hb hlimit hupdates, hlength]
  constructor
  · rintro ⟨n, f, hwrite, h⟩
    by_cases hproduct : toInt (toInt (offset / blocksize : Nat) * blocksize) =
        toInt (offset / blocksize : Nat) * blocksize
    · have hplace := (doRw_eq hblock).trans (if_pos hproduct)
      obtain ⟨f', block, hwrite', hlength, hupdates, hf⟩ := hflatWrite_eq inodeNumber blocks
        append full size hbuf hblock hplace
      rw [hwrite'] at hwrite
      cases hwrite
      obtain hneg | ⟨place, hplace', hexact, -, -, -, hsize⟩ := h
      · omega
      · rw [hplace] at hplace'
        have hplace' := Option.some.inj hplace'
        subst hplace'
        dsimp only at hexact
        have hoffset := lt_of_exact hproduct hexact
        have hblocknum : toInt (offset / blocksize : Nat) = (offset / blocksize : Nat) := by
          simp only [blocksize_eq]
          exact toInt_eq_iff.mpr ⟨by omega, by omega⟩
        rw [hblocknum] at hlength hf
        refine ⟨hoffset, ?_⟩
        rw [← hsize, hstored hoffset hlength hupdates hf]
        exact (Nat.add_le_add_left (le_max_right _ _) _).trans (le_max_left _ _)
    · have hnone := (doRw_eq hblock).trans (if_neg hproduct)
      unfold hflatWrite at hwrite
      rw [hnone] at hwrite
      cases hwrite
  · rintro ⟨hoffset, hreach⟩
    have hplace := doRw_of_lt hoffset hblock
    obtain ⟨f, block, hwrite, hlength, hupdates, hf⟩ := hflatWrite_eq inodeNumber blocks append
      full size hbuf hblock hplace
    refine ⟨_, f, hwrite, Or.inr ⟨_, hplace, ?_, ?_, ?_, rfl, ?_⟩⟩
    · simp only [blocksize_eq]
      omega
    · exact Int.natCast_nonneg _
    · simp only [blocksize_eq]
      omega
    · rw [hstored hoffset hlength hupdates hf]
      simp only [blocksize_eq] at *
      omega

end Write

/-- The last bytes of a block, written to an empty file. -/
theorem write_exact_iff_append :
    WriteExact 7 (fun _ => ⟨[], [], []⟩) true false 0 (lit "abc") 1048573 ∧
      (hflatWrite 7 (fun _ => ⟨[], [], []⟩) false false 0 (lit "abc") 5).map (fun x => (x.1, x.2.size)) =
        some (3, 0) := by
  refine ⟨(write_exact_iff 7 (fun _ => ⟨[], [], []⟩) true false 0 (by decide) (by decide)
    fun _ => Nat.zero_le _).mpr ⟨by decide, by decide⟩, by decide +kernel⟩

/-- At 2 GiB the product overflows, and at 2^52 the block number is 0 again and the size is that of a
    small file. Neither write is refused. -/
theorem write_not_exact :
    doRw 1 2147483648 = none ∧
    ¬ WriteExact 7 (fun _ => ⟨[], [], []⟩) false false 0 (lit "a") 2147483648 ∧
    (hflatWrite 7 (fun _ => ⟨[], [], []⟩) false false 0 (lit "a") 4503599627370496).map
      (fun x => (x.1, (hflatFsync false x.2).size)) = some (1, 1) ∧
    ¬ WriteExact 7 (fun _ => ⟨[], [], []⟩) false false 0 (lit "a") 4503599627370496 := by
  have hoverflow : doRw 1 2147483648 = none := by decide +kernel
  have hplace : doRw 1 4503599627370496 = some ⟨0, 0, 1⟩ := by decide +kernel
  have hwrite : (hflatWrite 7 (fun _ => ⟨[], [], []⟩) false false 0 (lit "a") 4503599627370496).map
      (fun x => (x.1, (hflatFsync false x.2).size)) = some (1, 1) := by decide +kernel
  refine ⟨hoverflow, ?_, hwrite, ?_⟩
  · rintro ⟨n, f, hnone, -⟩
    have hfails : hflatWrite 7 (fun _ => ⟨[], [], []⟩) false false 0 (lit "a") 2147483648 = none := by
      decide +kernel
    rw [hfails] at hnone
    cases hnone
  · rintro ⟨n, f, hsome, h⟩
    rw [hsome] at hwrite
    have hn : n = 1 := congrArg Prod.fst (Option.some.inj hwrite)
    obtain hneg | ⟨place, hplace', hexact, -⟩ := h
    · omega
    · have hlength : (lit "a").length = 1 := by decide
      rw [hlength, hplace] at hplace'
      have hplace' := Option.some.inj hplace'
      subst hplace'
      exact absurd hexact (by decide)

end HFlat.Data.Blocks
