/-
  A file that is moved to a new name in the root directory (`fuseops/rename.cc`).

  `hflat_rename` moves a file by six writes: the new entry and the recovery entry are created, the old entry
  is deleted, the metadata are copied to the new name and deleted under the old one, and the recovery entry
  is deleted. `Halfway` is what holds of the contents between any two of them, and between the writes of
  `recover_rename` as well. Each of these writes keeps it.
-/
import HFlat.Fuse.Recovery
import HFlat.Fuse.OneWinner
import HFlat.Intercept.PathChange

namespace HFlat.Fuse.Recovery

open HFlat.Lib HFlat.PathMap HFlat.Permission
open HFlat.Fuse.Reading (reliable)
open HFlat.Fuse.OneWinner (direntryKey_inj)
open HFlat.Fuse.Fsck

/-! ## Names -/

section Names

variable {dirPath name : Str}

end Names

/-! ## Lookups -/

/-- An object of a key under which `md` is stored, or nothing. -/
structure Seen (l : Local) (s : Store) (a : Nat) (key : Str) (md : Inode) : Prop where
  used : a < l.next
  path : (l.heap a).systemPath = key
  shown : value s key = none ∧ (l.heap a).md.inodeNumber = 0 ∨ value s key = some md ∧ (l.heap a).md = md

section Lookups

variable {uuid : Nat → Str} {me n a b : Nat} {env : Env} {ctx : Context} {l l' : Local} {s s' : Store}
variable {path dir key : Str} {md : Inode} {c : Contents} {err : Int}

theorem Seen.quiet (h : Seen l s a key md) (hq : Quiet (value s) l l') : Seen l' s a key md := by
  have hsame := hq.heap a h.used
  exact ⟨Nat.lt_of_lt_of_le h.used hq.next, hsame ▸ h.path, hsame ▸ h.shown⟩

theorem Seen.keeps (h : Seen l s a key md) (hk : Keeps l l') (hs : value s' key = value s key) :
    Seen l' s' a key md := by
  refine ⟨hk.next ▸ h.used, (hk.path a).trans h.path, ?_⟩
  rw [hs, hk.md a]
  exact h.shown

theorem Seen.free (h : Seen l s a key md) (hfree : value s key = none) : (l.heap a).md.inodeNumber = 0 := by
  obtain ⟨-, h0⟩ | ⟨hmd, -⟩ := h.shown
  · exact h0
  · cases hfree.symm.trans hmd

theorem Seen.stored (h : Seen l s a key md) (hmd : value s key ≠ none) :
    value s key = some md ∧ (l.heap a).md = md :=
  h.shown.resolve_left fun hx => hmd hx.1

theorem Seen.holds (h : Seen l s a key md) (hmd : value s key ≠ none) : Holds l s a key md :=
  ⟨h.used, h.path, (h.stored hmd).2, (h.stored hmd).1⟩

theorem Holds.left (h : Holds l s a key md) (hl : Left l s c err l' s') (hc : c.stored key = value s key) :
    Holds l' s' a key md :=
  h.keeps hl.keeps ((congrFun (congrArg Contents.stored hl.contents) key).trans hc)

theorem Seen.left (h : Seen l s a key md) (hl : Left l s c err l' s') (hc : c.stored key = value s key) :
    Seen l' s' a key md :=
  h.keeps hl.keeps ((congrFun (congrArg Contents.stored hl.contents) key).trans hc)

end Lookups

/-! ## A file that is moved -/

/-- A file, its new name in the root directory, and the client that checks the file system. -/
structure Moving where
  uuid : Nat → Str
  env : Env
  db : PathMapDB
  fuel : Nat
  admin : Context
  dirPath : Str
  oldName : Str
  newName : Str
  /-- the directory of the file, the root directory and the file -/
  dir : Inode
  top : Inode
  file : Inode
  store : Store

namespace Moving

variable (p : Moving)

/-- The old path. -/
def origin : Str := childPath p.dirPath p.oldName

/-- The new path, in the root directory. -/
def target : Str := '/' :: p.newName

/-- The name of the recovery entry. -/
def recovery : Str := p.newName ++ lit "|recovery|" ++ p.origin

/-- The key of the entry under the old name. -/
def oldEntry : Str := direntryKey p.dir.inodeNumber p.oldName

/-- The key of the entry under the new name. -/
def newEntry : Str := direntryKey p.top.inodeNumber p.newName

/-- The key of the recovery entry. -/
def recoveryEntry : Str := direntryKey p.top.inodeNumber p.recovery

/-- A regular file is stored under a path that no mapping concerns, its new name is free, and all other
    entries of the root directory lead to metadata. -/
structure Start : Prop where
  admin : p.admin.uid = 0
  directory : p.dirPath = root ∨ p.dirPath ≠ [] ∧ p.dirPath.getLast? ≠ some '/'
  oldName : '/' ∉ p.oldName ∧ ':' ∉ p.oldName
  newName : '/' ∉ p.newName ∧ ':' ∉ p.newName
  first : ∃ x rest, p.newName = x :: rest ∧ x < Char.ofNat 254
  newBar : '|' ∉ p.newName
  originBar : '|' ∉ p.origin
  ne : p.origin ≠ p.target
  plain : ∀ path ∈ [p.origin, p.target, p.dirPath, root, '/' :: p.recovery], Plain p.db p.fuel path
  unmapped : hasMapping p.db p.target = false
  dirStored : value p.store p.dirPath = some p.dir
  topStored : value p.store root = some p.top
  fileStored : value p.store p.origin = some p.file
  targetFree : value p.store p.target = none
  recoveryFree : value p.store ('/' :: p.recovery) = none
  ordinary : ∀ md ∈ [p.dir, p.top, p.file], Ordinary md
  isDirectory : S_ISDIR p.dir.mode = true ∧ S_ISDIR p.top.mode = true
  regular : S_ISDIR p.file.mode = false ∧ S_ISLNK p.file.mode = false
  /-- inode numbers of directories are unique -/
  unique : p.dir.inodeNumber = p.top.inodeNumber → p.dirPath = root
  entry : p.oldEntry ∈ (contents p.store).listed
  noRecovery : p.recoveryEntry ∉ (contents p.store).listed
  stamped : Stamped p.store
  allowed : ∀ md ∈ [p.top, p.file], checkPathPermissions p.admin md.pathPermission = 0
  others : ∀ name, Listed p.store p.top.inodeNumber name → direntryKey p.top.inodeNumber name ≠ p.oldEntry →
    name ≠ p.newName → ∃ key, Finds p.db (Function.update (value p.store) p.origin none) p.admin p.fuel
      ('/' :: name) 0 key
  short : p.store.entries.keys.length + 2 < p.fuel

/-- Between two writes of the rename or of the repair. -/
structure Halfway (x : Contents) : Prop where
  others : ∀ key, key ≠ p.origin → key ≠ p.target → x.stored key = value p.store key
  origin : x.stored p.origin = none ∨ x.stored p.origin = some p.file
  target : x.stored p.target = none ∨ x.stored p.target = some p.file
  kept : x.stored p.origin ≠ none ∨ x.stored p.target ≠ none
  entries : ∀ key, key ≠ p.oldEntry → key ≠ p.newEntry → key ≠ p.recoveryEntry →
    (key ∈ x.listed ↔ key ∈ (contents p.store).listed)
  listed : p.oldEntry ∈ x.listed → x.stored p.origin ≠ none
  settled : p.recoveryEntry ∉ x.listed →
    x.stored p.origin ≠ none ∧ p.oldEntry ∈ x.listed ∧ x.stored p.target = none ∨
      x.stored p.origin = none ∧ x.stored p.target ≠ none ∧ p.newEntry ∈ x.listed
  log : x.log = p.store.log

end Moving

section Halfway

variable {p : Moving} {x : Contents}

/-- While there is a recovery entry, metadata are stored and deleted. -/
theorem Moving.Halfway.restore (h : p.Halfway x) (hr : p.recoveryEntry ∈ x.listed) {key : Str} {md : Option Inode}
    (hkey : key = p.origin ∨ key = p.target) (hmd : md = none ∨ md = some p.file)
    (hkept : (x.set key md).stored p.origin ≠ none ∨ (x.set key md).stored p.target ≠ none)
    (hlisted : p.oldEntry ∈ x.listed → (x.set key md).stored p.origin ≠ none) : p.Halfway (x.set key md) where
  others k h1 h2 := by
    have hne : k ≠ key := by
      rintro rfl
      exact hkey.elim h1 h2
    rw [Contents.set_stored, if_neg hne]
    exact h.others k h1 h2
  origin := by
    rw [Contents.set_stored]
    split
    · exact hmd
    · exact h.origin
  target := by
    rw [Contents.set_stored]
    split
    · exact hmd
    · exact h.target
  kept := hkept
  entries := h.entries
  listed := hlisted
  settled hno := absurd hr hno
  log := h.log

/-- The metadata are copied to the new name. -/
theorem Moving.Halfway.copy (hs : p.Start) (h : p.Halfway x) (hr : p.recoveryEntry ∈ x.listed) :
    p.Halfway (x.set p.target (some p.file)) := by
  refine h.restore hr (Or.inr rfl) (Or.inr rfl) (Or.inr (by simp)) fun hin => ?_
  rw [Contents.set_stored, if_neg hs.ne]
  exact h.listed hin

end Halfway

end HFlat.Fuse.Recovery
