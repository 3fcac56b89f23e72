/-
  `hflat_setxattr`, `hflat_removexattr` and `hflat_utimens` (`fuseops/xattr.cc`, `fuseops/attr.cc`)
  for any number of clients, with `lookup` and `put_metadata` below them and all fields of the
  metadata.

  Every client has its own heap of `MetadataInfo` objects and its lookup cache. An operation changes
  the object that the cache holds and then stores it, if the store still has the version of the
  object. If not, the object is dropped from the cache and the operation starts again. What the
  path map says is left open: `toSystemPath` may answer with any key and time stamp. Every access to
  the store may get lost.

  A lookup that finds the path permissions of an object out of date takes them from the parent
  directory and stores the object itself, so a `Put` has one of two causes (`Cause`).
-/
import HFlat.Lib.Protocol
import HFlat.Fuse.Operations

namespace HFlat.Fuse.Attributes

open HFlat.Lib HFlat.Permission
open HFlat.Replication (KineticRecord StatusCode versionOf putSame)

/-! ## Metadata and its changes -/

/-- All fields of the message `Metadata`. -/
structure FileMetadata extends Inode where
  atime : Nat
  mtime : Nat
  ctime : Nat
  blocks : Nat
  deriving DecidableEq, Repr

/-- A message with no field set. -/
def FileMetadata.empty : FileMetadata := ⟨Inode.empty, 0, 0, 0, 0⟩

/-- An operation on the metadata of a file. -/
inductive Op where
  | setxattr (name value : Str) (flags : Nat)
  | removexattr (name : Str)
  | utimens (atime mtime : Int)
  deriving DecidableEq, Repr

/-- Seconds as the message stores them, in 32 bits. -/
def seconds (t : Int) : Nat := (t % 4294967296).toNat

/-- The first attribute of that name is deleted. -/
def deleteFirst (name : Str) (xattr : List (Str × Str)) : Except Int (List (Str × Str)) :=
  if xattr.any (·.1 = name) then .ok (xattr.eraseP (·.1 = name)) else .error (-ENOATTR)

/-- What an operation does to the metadata it finds. -/
def Op.apply (md : FileMetadata) : Op → Except Int FileMetadata
  | .setxattr name value flags =>
      (Fuse.setxattr name value flags md.xattr).map fun xattr => { md with xattr := xattr }
  | .removexattr name => (deleteFirst name md.xattr).map fun xattr => { md with xattr := xattr }
  | .utimens atime mtime => .ok { md with atime := seconds atime, mtime := seconds mtime }

/-- What a `Put` is for: an operation, or step 4 of `lookup` with the metadata of the parent. -/
inductive Cause where
  | op (op : Op)
  | inherit (parent : FileMetadata)
  deriving DecidableEq, Repr

/-- `inherit_path_permissions`. -/
def inheritPathPermissions (env : Env) (md parent : FileMetadata) : FileMetadata :=
  { md with toMetadata := Permission.inheritPathPermissions env md.toMetadata parent.toMetadata }

/-- The metadata after a change, or the error of the operation. -/
def Cause.apply (env : Env) (md : FileMetadata) : Cause → Except Int FileMetadata
  | .op o => o.apply md
  | .inherit parent => .ok (inheritPathPermissions env md parent)

/-! ## The store -/

/-- One access to the drives, or to what the client does not control. -/
inductive Req where
  /-- `toSystemPath`: system path and time stamp -/
  | systemPath (userPath : Str)
  | expired (key : Str)
  | get (key : Str)
  | put (key expected : Str) (md : FileMetadata) (why : Cause)
  | databaseUpdate
  | selfCheck

/-- What the service answers to a request. -/
abbrev Res : Req → Type
  | .systemPath _ => Str × Int
  | .expired _ => Bool
  | .get _ => Except StatusCode (KineticRecord FileMetadata)
  | .put _ _ _ _ => StatusCode × Str
  | .databaseUpdate => Int
  | .selfCheck => Int

/-- What the clients do not control. -/
inductive Choice where
  | done
  | unreachable
  | lost
  | systemPath (key : Str) (pathPermissionTimeStamp : Int)
  | expired (b : Bool)
  | err (err : Int)
  deriving DecidableEq, Repr

/-- The metadata on the drives, and the changes made so far. -/
structure State where
  record : Str → Option (KineticRecord FileMetadata)
  /-- number of versions generated so far -/
  uuids : Nat
  /-- the changes whose `Put` has taken effect, with the key, the earliest first -/
  done : List (Str × Cause)

section Serve

variable (uuid : Nat → Str)

/-- `Put` with `REQUIRE_SAME_VERSION` under a new version. -/
def State.put (s : State) (key expected : Str) (md : FileMetadata) (why : Cause) : StatusCode × State :=
  let result := putSame (s.record key) expected ⟨md, uuid s.uuids⟩
  (result.1,
    { record := Function.update s.record key result.2
      uuids := s.uuids + 1
      done := if result.1 = .OK then s.done ++ [(key, why)] else s.done })

/-- `Get`: the record, or `REMOTE_NOT_FOUND`. -/
def State.get (s : State) (key : Str) : Except StatusCode (KineticRecord FileMetadata) :=
  match s.record key with
  | some r => .ok r
  | none => .error .REMOTE_NOT_FOUND

/-- One access of a client. A choice that does not fit the request is no step. -/
def serve (s : State) : (r : Req) → Choice → Option (Res r × State)
  | .systemPath _, .systemPath key pathPermissionTimeStamp => some ((key, pathPermissionTimeStamp), s)
  | .expired _, .expired b => some (b, s)
  | .get key, .done => some (s.get key, s)
  | .get _, .unreachable => some (.error .REMOTE_REMOTE_CONNECTION_ERROR, s)
  | .put key expected md why, .done =>
      let (status, s') := s.put uuid key expected md why
      some ((status, uuid s.uuids), s')
  | .put _ _ _ _, .unreachable =>
      some ((.REMOTE_REMOTE_CONNECTION_ERROR, uuid s.uuids), { s with uuids := s.uuids + 1 })
  | .put key expected md why, .lost =>
      some ((.REMOTE_REMOTE_CONNECTION_ERROR, uuid s.uuids), (s.put uuid key expected md why).2)
  | .databaseUpdate, .err err => some (err, s)
  | .selfCheck, .err err => some (err, s)
  | _, _ => none

/-- The service that all clients access. -/
def service : Service Req Res Choice State := ⟨serve uuid⟩

end Serve

/-! ## Clients -/

/-- An object of the lookup cache: key, version and metadata. -/
structure MetadataInfo where
  systemPath : Str
  keyVersion : Str
  md : FileMetadata
  deriving DecidableEq, Repr

/-- The memory of a client: its objects and the lookup cache. -/
structure Local where
  heap : Nat → MetadataInfo
  /-- first free address of the heap -/
  next : Nat
  lookupCache : Str → Option Nat

/-- Computations of one client: its memory, and requests to the service. -/
abbrev Client := StateT Local (Prog Req Res)

/-- One request. -/
def perform (r : Req) : Client (Res r) := StateT.lift (Prog.perform r)

/-- The process ends. -/
def exit {α : Type} : Client α := StateT.lift Prog.stop

/-- The memory with another object at an address. -/
def Local.setObject (l : Local) (mdi : Nat) (x : MetadataInfo) : Local :=
  { l with heap := Function.update l.heap mdi x }

/-- `new MetadataInfo(key)` at address `next`. -/
def Local.alloc (l : Local) (key : Str) : Local :=
  { l with heap := Function.update l.heap l.next ⟨key, lit "0", FileMetadata.empty⟩, next := l.next + 1 }

/-- The memory with another entry of the cache. -/
def Local.setCache (l : Local) (key : Str) (entry : Option Nat) : Local :=
  { l with lookupCache := Function.update l.lookupCache key entry }

/-- The object at an address. -/
def getMdi (mdi : Nat) : Client MetadataInfo := do return (← get).heap mdi

/-- Changes the object at an address. -/
def setMdi (mdi : Nat) (f : MetadataInfo → MetadataInfo) : Client Unit :=
  modify fun l => l.setObject mdi (f (l.heap mdi))

/-- `std::make_shared<MetadataInfo>` for a key: the first free address. -/
def newMetadataInfo (key : Str) : Client Nat := do
  let mdi := (← get).next
  modify fun l => l.alloc key
  return mdi

/-- A pointer that the code dereferences. -/
def deref (mdi : Option Nat) : Client Nat :=
  match mdi with
  | some mdi => return mdi
  | none => exit

/-- `lookup_cache.invalidate`. -/
def cacheInvalidate (key : Str) : Client Unit := modify fun l => l.setCache key none

/-- `lookup_cache.get`. An entry that has expired or was evicted is removed here. -/
def cacheGet (key : Str) : Client (Option Nat) := do
  match (← get).lookupCache key with
  | none => return none
  | some mdi =>
      let expired ← perform (.expired key)
      if expired then
        cacheInvalidate key
        return none
      return some mdi

/-- `REQ_TRUE(lookup_cache.add(key, mdi))`. -/
def cacheAdd (key : Str) (mdi : Nat) : Client Unit := do
  match (← get).lookupCache key with
  | some _ => exit
  | none => modify fun l => l.setCache key (some mdi)

/-! ### Metadata keys (`kinetic_helper.cc`) -/

/-- `get_metadata`: reads the record of the object's key into the object. -/
def getMetadata (mdi : Nat) : Client Int := do
  let x ← getMdi mdi
  let record ← perform (.get x.systemPath)
  match record with
  | .ok record =>
      setMdi mdi fun x => { x with md := record.value, keyVersion := record.version }
      return 0
  | .error .REMOTE_NOT_FOUND => return -ENOENT
  | .error _ => return - EIO

/-- `put_metadata`: stores the object, if the key still has the version of the object. `why` is noted
    with the `Put`. -/
def putMetadata (mdi : Nat) (why : Cause) : Client Int := do
  let x ← getMdi mdi
  let (status, newVersion) ← perform (.put x.systemPath x.keyVersion x.md why)
  match status with
  | .OK =>
      setMdi mdi fun x => { x with keyVersion := newVersion }
      return 0
  | status =>
      cacheInvalidate x.systemPath
      if status = .REMOTE_VERSION_MISMATCH then return -EAGAIN
      if status = .REMOTE_NOT_FOUND then return -ENOENT
      return - EIO

/-! ### Lookup (`lookup.cc`) -/

section Lookup

-- of `Env` only the removal of duplicate path permissions is used
variable (env : Env) (ctx : Context)

/-- `lookup_parent`, given `lookup`. An error comes with the object if it was found. -/
def lookupParentWith (lookup : Str → Option Nat → Client (Int × Option Nat)) (userPath : Str) :
    Client (Int × Option Nat) :=
  match cutParent userPath with
  | none => return (-EINVAL, none)
  | some path => do
      let (err, mdiParent) ← lookup path none
      if err ≠ 0 then return (err, mdiParent)
      let parent ← deref mdiParent
      let md := (← getMdi parent).md
      if ¬ S_ISDIR md.mode then return (-ENOTDIR, mdiParent)
      return (checkPathPermissions ctx md.pathPermissionChildren, mdiParent)

/-- The final check of `lookup`. -/
def finalCheck (mdi : Nat) : Client (Int × Option Nat) := do
  return (checkPathPermissions ctx (← getMdi mdi).md.pathPermission, some mdi)

/-- The end of step 4 of `lookup` for stale path permissions. -/
def inheritFromParent (lookup : Str → Option Nat → Client (Int × Option Nat)) (userPath : Str)
    (mdi parent : Nat) : Client (Int × Option Nat) := do
  let mdParent := (← getMdi parent).md
  setMdi mdi fun x => { x with md := inheritPathPermissions env x.md mdParent }
  let err ← putMetadata mdi (.inherit mdParent)
  if err = -EAGAIN then lookup userPath (some mdi)
  else if err ≠ 0 then return (err, some mdi)
  else finalCheck ctx mdi

/-- Step 4 of `lookup`: check path permissions, update them in case of staleness. -/
def checkStale (lookup : Str → Option Nat → Client (Int × Option Nat)) (userPath : Str)
    (pathPermissionTimeStamp : Int) (mdi : Nat) : Client (Int × Option Nat) := do
  if ((← getMdi mdi).md.pathPermissionVerified : Int) < pathPermissionTimeStamp then
    let (err, mdiParent) ← lookupParentWith ctx lookup userPath
    if err ≠ 0 ∧ err ≠ -EACCES then return (err, some mdi)
    let parent ← deref mdiParent
    inheritFromParent env ctx lookup userPath mdi parent
  else finalCheck ctx mdi

/-- Steps 3 and 4 of `lookup`: special inode types, then permissions. -/
def lookupFound (lookup : Str → Option Nat → Client (Int × Option Nat)) (userPath key : Str)
    (pathPermissionTimeStamp : Int) (mdi : Nat) (cached : Bool) : Client (Int × Option Nat) := do
  let md := (← getMdi mdi).md
  if md.inodeNumber = 0 then return (-ENOENT, some mdi)
  match md.type with
  | .HARDLINK_S =>
      if ¬ cached then
        let mdiSource ← newMetadataInfo key
        setMdi mdiSource fun x =>
          { x with md := { x.md with type := .HARDLINK_S, inodeNumber := md.inodeNumber } }
        cacheAdd key mdiSource
      lookup (hardlinkKey md.inodeNumber) (some mdi)
  | .FORCE_UPDATE =>
      let err ← perform .databaseUpdate
      cacheInvalidate key
      if err ≠ 0 then return (err, some mdi)
      lookup userPath (some mdi)
  | _ =>
      if ¬ cached then cacheAdd key mdi
      checkStale env ctx lookup userPath pathPermissionTimeStamp mdi

/-- `lookup` for a key that is not in the cache. -/
def lookupStored (lookup : Str → Option Nat → Client (Int × Option Nat)) (userPath key : Str)
    (pathPermissionTimeStamp : Int) : Client (Int × Option Nat) := do
  let mdi ← newMetadataInfo key
  let err ← getMetadata mdi
  if err = -ENOENT then
    cacheAdd key mdi
    lookupFound env ctx lookup userPath key pathPermissionTimeStamp mdi false
  else if err ≠ 0 then
    cacheInvalidate key
    return (err, some mdi)
  else lookupFound env ctx lookup userPath key pathPermissionTimeStamp mdi false

/-- `lookup`, with the depth of its recursion as fuel: error code and object. If the path cannot be
    resolved, the caller's pointer stays what it was. -/
def lookup : Nat → Str → Option Nat → Client (Int × Option Nat)
  | 0, _, _ => exit
  | fuel + 1, userPath, pointer => do
      let (key, pathPermissionTimeStamp) ← perform (.systemPath userPath)
      if pathPermissionTimeStamp < 0 then return (pathPermissionTimeStamp, pointer)
      match ← cacheGet key with
      | some mdi => lookupFound env ctx (lookup fuel) userPath key pathPermissionTimeStamp mdi true
      | none => lookupStored env ctx (lookup fuel) userPath key pathPermissionTimeStamp

/-! ### Operations -/

/-- An operation on the object that was found: change it in place, store it, and start again if
    another client has stored the key meanwhile. -/
def change (op : Op) (mdi : Nat) (again : Client Int) : Client Int := do
  match op.apply (← getMdi mdi).md with
  | .error err => return err
  | .ok md =>
      setMdi mdi fun x => { x with md := md }
      let err ← putMetadata mdi (.op op)
      if err = -EAGAIN then again else return err

/-- `hflat_setxattr`. The name `fsck` starts `fsck_directory`, which asserts that the object is a
    directory. What it does with a directory is left out. The name `nsck` starts `selfCheck`. -/
def hflatSetxattr (userPath name value : Str) (flags : Nat) : Nat → Client Int
  | 0 => exit
  | fuel + 1 => do
      let (err, mdi) ← lookup env ctx (fuel + 1) userPath none
      if err ≠ 0 then return err
      let mdi ← deref mdi
      if name = lit "fsck" then exit
      else if name = lit "nsck" then perform .selfCheck
      else change (.setxattr name value flags) mdi (hflatSetxattr userPath name value flags fuel)

/-- `hflat_removexattr`, again if another client has stored the key. -/
def hflatRemovexattr (userPath name : Str) : Nat → Client Int
  | 0 => exit
  | fuel + 1 => do
      let (err, mdi) ← lookup env ctx (fuel + 1) userPath none
      if err ≠ 0 then return err
      let mdi ← deref mdi
      change (.removexattr name) mdi (hflatRemovexattr userPath name fuel)

/-- `hflat_utimens`, again if another client has stored the key. -/
def hflatUtimens (userPath : Str) (atime mtime : Int) : Nat → Client Int
  | 0 => exit
  | fuel + 1 => do
      let (err, mdi) ← lookup env ctx (fuel + 1) userPath none
      if err ≠ 0 then return err
      let mdi ← deref mdi
      change (.utimens atime mtime) mdi (hflatUtimens userPath atime mtime fuel)

/-- The handler that `fuse` calls. -/
def runOp (fuel : Nat) (userPath : Str) : Op → Client Int
  | .setxattr name value flags => hflatSetxattr env ctx userPath name value flags fuel
  | .removexattr name => hflatRemovexattr env ctx userPath name fuel
  | .utimens atime mtime => hflatUtimens env ctx userPath atime mtime fuel

/-- Operations of one client, one after the other. -/
def session (fuel : Nat) : List (Str × Op) → Client Unit
  | [] => pure ()
  | (userPath, op) :: ops => do
      let _ ← runOp env ctx fuel userPath op
      session fuel ops

end Lookup

end HFlat.Fuse.Attributes
