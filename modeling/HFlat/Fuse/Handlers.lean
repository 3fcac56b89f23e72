/-
  The functions that several models of clients embed, written once.

  The models differ in what they keep of the metadata, in the requests that a client makes and in
  what they note with a request. `KeyCalls`, `Calls`, `PermissionCalls`, `CreationCalls`, `FlushCalls`
  and `WriteCalls` are what the functions of `kinetic_helper.cc`, `lookup.cc`, `permission.cc`,
  `file.cc`, `sync.cc` and `data.cc` call; over any such calls each function here is the one of the
  source. `Fuse.HandlerModels` shows that the functions of the models are these, over the calls of
  each model.
-/
import HFlat.Permission.Model

namespace HFlat.Fuse.Handlers

open HFlat.Lib HFlat.PathMap HFlat.Permission
open HFlat.Replication (KineticRecord StatusCode)

/-! ## What the functions call -/

/-- The fields of `MetadataInfo` that the functions read. -/
structure Object (Md : Type) where
  systemPath : Str
  keyVersion : Str
  md : Md

/-- What the functions on one metadata key call, in a model with metadata `Md`. `Why` is what the model
    notes with a `Put`. -/
structure KeyCalls (M : Type → Type) (Md Why : Type) where
  object : Nat → M (Object Md)
  setVersion : Nat → Str → M Unit
  setRecord : Nat → KineticRecord Md → M Unit
  get : Nat → Str → M (Except StatusCode (KineticRecord Md))
  put : Why → Nat → (key expected : Str) → Md → M (StatusCode × Str)
  cacheInvalidate : Str → M Unit

/-- What `lookup` calls. `Extra` is what a lookup gets besides the path. -/
structure Calls (M : Type → Type) (Md Why Extra : Type) extends KeyCalls M Md Why where
  /-- a failed assertion, or a null pointer -/
  fail : {α : Type} → M α
  setMD : Nat → (Md → Md) → M Unit
  newObject : Str → M Nat
  cacheGet : Extra → Str → M (Option Nat)
  cacheBlock : Str → M Unit
  cacheAdd : Str → Nat → M Unit
  toSystemPath : (fuel : Nat) → (userPath : Str) → M (Str × Int)
  databaseUpdate : M Int
  /-- the part of the metadata that decides who may reach the object -/
  base : Md → Metadata
  inherit : Md → Md → Md
  /-- the metadata of a link to an inode -/
  forward : Nat → Md → Md
  /-- the note for a `Put` of path permissions that come from these metadata -/
  inheriting : Md → Why
  /-- for a lookup of the parent while the object of a key is locked -/
  above : Extra → Str → Extra
  /-- for a lookup after the pointer has been set -/
  found : Extra → Nat → Extra
  /-- what the pointer points to if the lookup ends before it has been set -/
  pointer : Extra → Option Nat

/-- What the operations that change permissions call besides. -/
structure PermissionCalls (M : Type → Type) (Md Why Extra : Type) extends Calls M Md Why Extra where
  /-- a failed assertion about the arguments -/
  badArguments : {α : Type} → M α
  lookup : (fuel : Nat) → (userPath : Str) → M (Int × Option Nat)
  /-- the first and the second `Put` of a permission change -/
  changing : Why
  restricting : Why
  /-- new mode, user and group, and time stamps -/
  change : (mdi : Nat) → (mode uid gid : Option Nat) → M Unit
  computeChildren : Md → Md × Bool
  verify : Nat → Md → Md
  /-- an entry of type `NONE` -/
  databaseOperation : (fuel : Nat) → (userPath : Str) → M Int
  snapshotVersion : M Nat

/-- What the operations that create an object call besides. -/
structure CreationCalls (M : Type → Type) (Md Why Extra : Type) extends Calls M Md Why Extra where
  lookup : (fuel : Nat) → (userPath : Str) → M (Int × Option Nat)
  lookupParent : (fuel : Nat) → (userPath : Str) → M (Int × Option Nat)
  creating : Why
  createDirectoryEntry : (mdiParent : Nat) → (filename : Str) → (fuel : Nat) → M Int
  initializeMetadata : (mdi mdiParent mode : Nat) → M Unit

/-! ## `kinetic_helper.cc` -/

section Key

variable {M : Type → Type} [Monad M] {Md Why : Type} (c : KeyCalls M Md Why)

/-- `get_metadata` -/
def getMetadata (mdi : Nat) : M Int := do
  let x ← c.object mdi
  match ← c.get mdi x.systemPath with
  | .ok record =>
      c.setRecord mdi record
      return 0
  | .error .REMOTE_NOT_FOUND => return -ENOENT
  | .error _ => return - EIO

/-- `put_metadata` -/
def putMetadata (why : Why) (mdi : Nat) : M Int := do
  let x ← c.object mdi
  let (status, newVersion) ← c.put why mdi x.systemPath x.keyVersion x.md
  match status with
  | .OK =>
      c.setVersion mdi newVersion
      return 0
  | status =>
      c.cacheInvalidate x.systemPath
      if status = .REMOTE_VERSION_MISMATCH then return -EAGAIN
      if status = .REMOTE_NOT_FOUND then return -ENOENT
      return - EIO

/-- `create_metadata` -/
def createMetadata (why : Why) (mdi : Nat) : M Int := do
  let x ← c.object mdi
  let (status, newVersion) ← c.put why mdi x.systemPath [] x.md
  match status with
  | .OK =>
      c.setVersion mdi newVersion
      return 0
  | .REMOTE_VERSION_MISMATCH => return -EEXIST
  | _ => return - EIO

end Key

/-! ## `lookup.cc` -/

section Lookup

variable {M : Type → Type} [Monad M] {Md Why Extra : Type} (c : Calls M Md Why Extra) (ctx : Context)

/-- The object that a pointer points to. -/
def deref (mdi : Option Nat) : M Nat :=
  match mdi with
  | some mdi => return mdi
  | none => c.fail

/-- The end of `lookup`: the path permissions of the object. -/
def finalCheck (mdi : Nat) : M (Int × Option Nat) := do
  return (checkPathPermissions ctx (c.base (← c.object mdi).md).pathPermission, some mdi)

/-- `lookup_parent`, given the lookup. -/
def lookupParentWith (lookup : Extra → Str → M (Int × Option Nat)) (extra : Extra) (userPath : Str) :
    M (Int × Option Nat) :=
  match cutParent userPath with
  | none => return (-EINVAL, none)
  | some path => do
      let (err, mdiParent) ← lookup extra path
      if err ≠ 0 then return (err, mdiParent)
      let parent ← deref c mdiParent
      let md := c.base (← c.object parent).md
      if ¬ S_ISDIR md.mode then return (-ENOTDIR, mdiParent)
      return (checkPathPermissions ctx md.pathPermissionChildren, mdiParent)

/-- The path permissions come from the metadata of the parent. `again` starts the lookup anew. -/
def inheritFrom (again : M (Int × Option Nat)) (mdi : Nat) (mdParent : Md) : M (Int × Option Nat) := do
  c.setMD mdi fun md => c.inherit md mdParent
  let err ← putMetadata c.toKeyCalls (c.inheriting mdParent) mdi
  if err = -EAGAIN then again
  else if err ≠ 0 then return (err, some mdi)
  else finalCheck c ctx mdi

/-- Path permissions that are older than a change above the path are taken from the parent again. -/
def checkStale (lookup : Extra → Str → M (Int × Option Nat)) (extra : Extra) (userPath key : Str)
    (pathPermissionTimeStamp : Int) (mdi : Nat) : M (Int × Option Nat) := do
  if ((c.base (← c.object mdi).md).pathPermissionVerified : Int) < pathPermissionTimeStamp then
    let (err, mdiParent) ← lookupParentWith c ctx lookup (c.above extra key) userPath
    if err ≠ 0 ∧ err ≠ -EACCES then return (err, some mdi)
    let parent ← deref c mdiParent
    let mdParent := (← c.object parent).md
    inheritFrom c ctx (lookup (c.found extra mdi) userPath) mdi mdParent
  else finalCheck c ctx mdi

/-- `lookup` once the object is there, from the cache or from the drives. -/
def lookupFound (lookup : Extra → Str → M (Int × Option Nat)) (extra : Extra) (userPath key : Str)
    (pathPermissionTimeStamp : Int) (mdi : Nat) (cached : Bool) : M (Int × Option Nat) := do
  let md := c.base (← c.object mdi).md
  if md.inodeNumber = 0 then return (-ENOENT, some mdi)
  match md.type with
  | .HARDLINK_S =>
      if ¬ cached then
        let mdiSource ← c.newObject key
        c.setMD mdiSource (c.forward md.inodeNumber)
        c.cacheAdd key mdiSource
      lookup (c.found extra mdi) (lit "hardlink_" ++ toStr md.inodeNumber)
  | .FORCE_UPDATE =>
      let err ← c.databaseUpdate
      c.cacheInvalidate key
      if err ≠ 0 then return (err, some mdi)
      lookup (c.found extra mdi) userPath
  | _ =>
      if ¬ cached then c.cacheAdd key mdi
      checkStale c ctx lookup extra userPath key pathPermissionTimeStamp mdi

/-- `lookup` of a key that the cache does not have. -/
def lookupStored (lookup : Extra → Str → M (Int × Option Nat)) (extra : Extra) (userPath key : Str)
    (pathPermissionTimeStamp : Int) : M (Int × Option Nat) := do
  c.cacheBlock key
  let mdi ← c.newObject key
  let err ← getMetadata c.toKeyCalls mdi
  if err = -ENOENT then
    c.cacheAdd key mdi
    lookupFound c ctx lookup extra userPath key pathPermissionTimeStamp mdi false
  else if err ≠ 0 then
    c.cacheInvalidate key
    return (err, some mdi)
  else lookupFound c ctx lookup extra userPath key pathPermissionTimeStamp mdi false

/-- `lookup`, with a bound on the number of lookups that follow each other. -/
def lookup : Nat → Extra → Str → M (Int × Option Nat)
  | 0, _, _ => c.fail
  | fuel + 1, extra, userPath => do
      let (key, pathPermissionTimeStamp) ← c.toSystemPath (fuel + 1) userPath
      if pathPermissionTimeStamp < 0 then return (pathPermissionTimeStamp, c.pointer extra)
      match ← c.cacheGet extra key with
      | some mdi => lookupFound c ctx (lookup fuel) extra userPath key pathPermissionTimeStamp mdi true
      | none => lookupStored c ctx (lookup fuel) extra userPath key pathPermissionTimeStamp

/-- `lookup_parent` -/
def lookupParent (fuel : Nat) (extra : Extra) (userPath : Str) : M (Int × Option Nat) :=
  lookupParentWith c ctx (lookup c ctx fuel) extra userPath

end Lookup

/-! ## `fuseops/file.cc` and `fuseops/permission.cc` -/

section Permissions

variable {M : Type → Type} [Monad M] {Md Why Extra : Type} (c : PermissionCalls M Md Why Extra)

/-- `put_metadata_forced` -/
def putMetadataForced (why : Why) (update : M Unit) (mdi : Nat) : Nat → M Int
  | 0 => c.fail
  | fuel + 1 => do
      update
      let err ← putMetadata c.toKeyCalls why mdi
      if err ≠ -EAGAIN then return err
      let err ← getMetadata c.toKeyCalls mdi
      if err ≠ 0 then return err
      putMetadataForced why update mdi fuel

variable (ctx : Context)

/-- `permission_lookup` -/
def permissionLookup (fuel : Nat) (userPath : Str) (gid : Option Nat) : M (Int × Option Nat) := do
  let (err, mdi) ← c.lookup fuel userPath
  if err ≠ 0 then return (err, mdi)
  if ctx.uid = 0 then return (0, mdi)
  let p ← deref c.toCalls mdi
  if ctx.uid ≠ (c.base (← c.object p).md).uid then return (-EPERM, mdi)
  if gid ≠ none ∧ gid ≠ some ctx.gid then return (-EPERM, mdi)
  return (0, mdi)

/-- The second write of `do_permission_change`, once the database knows of the change. -/
def storeRestrictions (fuel mdi : Nat) : M Int := do
  let version ← c.snapshotVersion
  let err ← putMetadataForced c c.restricting (c.setMD mdi (c.verify version)) mdi fuel
  if err ≠ 0 ∧ err ≠ -ENOENT then c.fail
  return 0

/-- The end of `do_permission_change`: note in the database if path permissions changed. -/
def notePermissionChange (fuel : Nat) (userPath : Str) (mdi : Nat) : M Int := do
  let md := (← c.object mdi).md
  if S_ISDIR (c.base md).mode then
    let (md, changed) := c.computeChildren md
    c.setMD mdi fun _ => md
    if changed then
      let err ← c.databaseOperation fuel userPath
      if err ≠ 0 then c.fail
      storeRestrictions c fuel mdi
    else return 0
  else return 0

/-- `do_permission_change`, with a bound on the number of retries. -/
def doPermissionChange (userPath : Str) : Nat → Option Nat → Option Nat → Option Nat → M Int
  | 0, _, _, _ => c.fail
  | fuel + 1, mode, uid, gid => do
      let (err, mdi) ← permissionLookup c ctx (fuel + 1) userPath gid
      if err ≠ 0 then return err
      let mdi ← deref c.toCalls mdi
      let md := c.base (← c.object mdi).md
      if ctx.uid ≠ 0 ∧ (uid ≠ none ∨ gid ≠ none) ∧ mode ≠ none then c.badArguments
      let mode := changedMode ctx md mode uid gid
      c.change mdi mode uid gid
      let err ← putMetadata c.toKeyCalls c.changing mdi
      if err = -EAGAIN then doPermissionChange userPath fuel mode uid gid
      else if err ≠ 0 then return err
      else notePermissionChange c (fuel + 1) userPath mdi

end Permissions

section Creation

variable {M : Type → Type} [Monad M] {Md Why Extra : Type} (c : CreationCalls M Md Why Extra) (ctx : Context)

/-- `hflat_create` once the path and its parent are looked up. -/
def createIn (fuel : Nat) (userPath : Str) (mode mdi mdiDir : Nat) : M Int := do
  let err := checkAccess ctx (c.base (← c.object mdiDir).md) W_OK
  if err ≠ 0 then return err
  let err ← c.createDirectoryEntry mdiDir (pathToFilename userPath) fuel
  if err ≠ 0 then return err
  c.initializeMetadata mdi mdiDir mode
  let err ← createMetadata c.toKeyCalls c.creating mdi
  if err ≠ 0 then c.fail
  return 0

/-- `hflat_create` -/
def hflatCreate (fuel : Nat) (userPath : Str) (mode : Nat) : M Int := do
  let (err, mdi) ← c.lookup fuel userPath
  if err = 0 then return -EEXIST
  if err ≠ -ENOENT then return err
  let (err, mdiDir) ← c.lookupParent fuel userPath
  if err = -ENOENT ∧ ':' ∈ userPath then return -ENOTDIR
  if err ≠ 0 then return err
  let mdi ← deref c.toCalls mdi
  let mdiDir ← deref c.toCalls mdiDir
  createIn c ctx fuel userPath mode mdi mdiDir

end Creation

/-! ## `fuseops/sync.cc` and `fuseops/data.cc` -/

/-- What `hflat_fsync` calls. `Block` is what a model keeps of a data block. -/
structure FlushCalls (M : Type → Type) (Md Why Block : Type) extends KeyCalls M Md Why where
  /-- a failed assertion, or a null pointer -/
  fail : {α : Type} → M α
  lookup : (fuel : Nat) → M (Int × Option Nat)
  dirtyData : (mdi : Nat) → M (Option Nat)
  block : (di : Nat) → M Block
  hasUpdates : Block → Bool
  size : Md → Nat
  newSize : Block → Md → Nat
  /-- the new size, and time stamps -/
  grow : (mdi newsize : Nat) → M Unit
  flushing : Block → (newsize : Nat) → Why
  dataInvalidate : Block → M Unit
  /-- `serialized` if the metadata key was stored for it -/
  putData : (serialized : Bool) → (di fuel : Nat) → M Int

/-- What `hflat_write` calls. `Size` is what a model keeps of the number of bytes that `do_rw` returns. -/
structure WriteCalls (M : Type → Type) (Size Dirty : Type) where
  /-- a failed assertion, or a null pointer -/
  fail : {α : Type} → M α
  lookup : (fuel : Nat) → M (Int × Option Nat)
  doRw : (buf : Str) → (offset mdi : Nat) → M (Size × Dirty)
  /-- the number of bytes as it is returned -/
  count : Size → Int
  /-- the number of bytes as a `size_t` -/
  sizeT : Size → Nat
  endsBlock : (offset : Nat) → Size → Bool
  setDirtyData : (mdi : Nat) → Dirty → M Bool
  fsync : (append : Bool) → (fuel : Nat) → M Int

section Data

variable {M : Type → Type} [Monad M]

/-- `hflat_fsync` of an object with unflushed data: size first, then the block. -/
def flush {Md Why Block : Type} (c : FlushCalls M Md Why Block) (posixFull append : Bool) (mdi di : Nat)
    (x : Block) (retry : M Int) (fuel : Nat) : M Int := do
  let md := (← c.object mdi).md
  let newsize := c.newSize x md
  if c.size md < newsize ∨ posixFull then
    c.grow mdi newsize
    let err ← putMetadata c.toKeyCalls (c.flushing x newsize) mdi
    if err ≠ 0 ∧ append then
      c.dataInvalidate x
      return err
    if err = -EAGAIN then retry
    else c.putData true di fuel
  else c.putData false di fuel

/-- `hflat_fsync`; `append` if it is called with `O_APPEND`. -/
def hflatFsync {Md Why Block : Type} (c : FlushCalls M Md Why Block) (posixFull append : Bool) : Nat → M Int
  | 0 => c.fail
  | fuel + 1 => do
      let (err, mdi) ← c.lookup (fuel + 1)
      if err ≠ 0 then return err
      match mdi with
      | none => c.fail
      | some mdi =>
          match ← c.dirtyData mdi with
          | none => return 0
          | some di =>
              let x ← c.block di
              if ¬ c.hasUpdates x then return 0
              flush c posixFull append mdi di x (hflatFsync c posixFull append fuel) (fuel + 1)

/-- The end of `hflat_write`: what was written is flushed at once or aggregated. -/
def finishWrite {Size Dirty : Type} (c : WriteCalls M Size Dirty) (append : Bool) (offset : Nat) (size : Size)
    (retry : M Int) (fuel : Nat) : M Int := do
  if append ∨ c.endsBlock offset size then
    let err ← c.fsync append fuel
    if err = -EAGAIN then retry
    else if err ≠ 0 then return err
    else return c.count size
  else return c.count size

/-- `hflat_write`; `append` if it is called with `O_APPEND`. -/
def hflatWrite {Size Dirty : Type} (c : WriteCalls M Size Dirty) (append : Bool) (offset : Nat) :
    Nat → Str → M Int
  | 0, _ => c.fail
  | fuel + 1, buf => do
      let (err, mdi) ← c.lookup (fuel + 1)
      if err ≠ 0 then return err
      match mdi with
      | none => c.fail
      | some mdi =>
          let (size, di) ← c.doRw buf offset mdi
          if c.count size = 0 then return 0
          let retry := hflatWrite c append offset fuel (buf.take (c.sizeT size))
          if ← c.setDirtyData mdi di then
            finishWrite c append offset size retry (fuel + 1)
          else
            -- the object has another block with unflushed data
            let err ← c.fsync append (fuel + 1)
            if err ≠ 0 then return err
            let _ ← c.setDirtyData mdi di
            finishWrite c append offset size retry (fuel + 1)

end Data

end HFlat.Fuse.Handlers
