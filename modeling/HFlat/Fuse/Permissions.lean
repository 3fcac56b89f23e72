/-
  `chmod` and `chown` (`fuseops/permission.cc`) on a store that any number of clients share.

  A permission change is stored twice: first mode, user and group with `put_metadata`, and, if the
  restrictions for children have changed, a second time with `put_metadata_forced` after the change
  was noted in the database. Between the two the new restrictions are in memory only.
-/
import HFlat.Fuse.Operations

namespace HFlat.Fuse

open HFlat.Lib HFlat.PathMap HFlat.Permission
open HFlat.Replication (KineticRecord StatusCode)

section Operations

variable (me : Nat) (env : Env) (ctx : Context)

/-- `put_metadata_forced` with the update that is applied before every attempt. -/
def putMetadataForcedWith (update : Inode → Inode) (mdi : Nat) : Nat → Client Int
  | 0 => exit
  | fuel + 1 => do
      setMD mdi update
      let err ← putMetadata me .update mdi
      if err ≠ -EAGAIN then return err
      let err ← getMetadata me mdi
      if err ≠ 0 then return err
      putMetadataForcedWith update mdi fuel

/-- `permission_lookup`. Arguments that are `-1` in the source are `none` here. -/
def permissionLookup (fuel : Nat) (userPath : Str) (gid : Option Nat) : Client (Int × Option Nat) := do
  let (err, mdi) ← lookup me env ctx fuel userPath none
  if err ≠ 0 then return (err, mdi)
  if ctx.uid = 0 then return (0, mdi)
  let p ← deref mdi
  if ctx.uid ≠ (← getMdi p).md.uid then return (-EPERM, mdi)
  if gid ≠ none ∧ gid ≠ some ctx.gid then return (-EPERM, mdi)
  return (0, mdi)

/-- `computePathPermissionChildren`: the metadata, and whether it has changed. -/
def Inode.computePathPermissionChildren (md : Inode) : Inode × Bool :=
  let result := Permission.computePathPermissionChildren env md.toMetadata
  ({ md with toMetadata := result.1 }, result.2)

/-- `changeMetadata` on all the metadata of an object. -/
def Inode.changeMetadata (md : Inode) (mode uid gid : Option Nat) : Inode :=
  { md with toMetadata := Permission.changeMetadata md.toMetadata mode uid gid }

/-- The second write of `do_permission_change`, once the database knows of the change. -/
def storeRestrictions (fuel mdi : Nat) : Client Int := do
  let version := (← get).pmap.snapshotVersion
  let err ← putMetadataForcedWith me (fun md => { md with pathPermissionVerified := version }) mdi fuel
  if err ≠ 0 ∧ err ≠ -ENOENT then exit
  return 0

/-- The end of `do_permission_change`: note in the database if path permissions changed. -/
def notePermissionChange (fuel : Nat) (userPath : Str) (mdi : Nat) : Client Int := do
  let md := (← getMdi mdi).md
  if S_ISDIR md.mode then
    let (md, changed) := Inode.computePathPermissionChildren env md
    setMD mdi fun _ => md
    if changed then
      require (databaseOperation ⟨.NONE, userPath, []⟩ fuel)
      storeRestrictions me fuel mdi
    else return 0
  else return 0

/-- `do_permission_change`, with a bound on the number of retries. -/
def doPermissionChange (userPath : Str) : Nat → Option Nat → Option Nat → Option Nat → Client Int
  | 0, _, _, _ => exit
  | fuel + 1, mode, uid, gid => do
      let (err, mdi) ← permissionLookup me env ctx (fuel + 1) userPath gid
      if err ≠ 0 then return err
      let mdi ← deref mdi
      let md := (← getMdi mdi).md
      -- assert(mode == (mode_t)-1)
      if ctx.uid ≠ 0 ∧ (uid ≠ none ∨ gid ≠ none) ∧ mode ≠ none then exit
      let mode := changedMode ctx md.toMetadata mode uid gid
      setMD mdi fun md => md.changeMetadata mode uid gid
      let err ← putMetadata me .update mdi
      if err = -EAGAIN then doPermissionChange userPath fuel mode uid gid
      else if err ≠ 0 then return err
      else notePermissionChange me env (fuel + 1) userPath mdi

/-- `hflat_chmod`. -/
def hflatChmod (fuel : Nat) (userPath : Str) (mode : Nat) : Client Int :=
  doPermissionChange me env ctx userPath fuel (some mode) none none

/-- `hflat_chown`. -/
def hflatChown (fuel : Nat) (userPath : Str) (uid gid : Option Nat) : Client Int :=
  doPermissionChange me env ctx userPath fuel none uid gid

/-! ## Sessions with permission changes -/

/-- The calls of a run: permission changes, lookups and the other operations. -/
inductive Action where
  | chmod (ctx : Context) (userPath : Str) (mode : Nat)
  | chown (ctx : Context) (userPath : Str) (uid gid : Option Nat)
  | lookup (ctx : Context) (userPath : Str)
  | other (op : Operation)

/-- The handler that `fuse` calls; a lookup returns its error number. -/
def Action.run (fuel : Nat) : Action → Client Int
  | .chmod ctx userPath mode => hflatChmod me env ctx fuel userPath mode
  | .chown ctx userPath uid gid => hflatChown me env ctx fuel userPath uid gid
  | .lookup ctx userPath => do return (← Fuse.lookup me env ctx fuel userPath none).1
  | .other op => op.run me env fuel

/-- One action after the other: what they return. -/
def actions (fuel : Nat) : List Action → Client (List Int)
  | [] => return []
  | a :: as => do
      let err ← a.run me env fuel
      return err :: (← actions fuel as)

end Operations

/-- Every client is about to start. -/
def actors {S : Type} (env : Env) (fuel : Nat) (todo : Nat → List Action) (pmap : Nat → PathMapDB) (s : S) :
    Config Req Res S Nat (List Int × Local) :=
  ⟨s, fun i => (actions i env fuel (todo i)).run (Local.mounted (pmap i))⟩

end HFlat.Fuse
