/-
  Any number of clients on one store: lookups, metadata keys and directory entries
  (`lookup.cc`, `kinetic_helper.cc`, `fuseops/directory.cc`), and the operations `create`,
  `unlink`, `link`, `rename` and `setxattr` (`fuseops/*.cc`), as programs over store accesses.

  Every store access is one step. A client keeps its own heap of `MetadataInfo` objects, its
  lookup cache and its snapshot of the path map. A cache entry may have expired whenever it is
  looked up. `generate_uuid` is part of the `Put` that uses the new version. A failed `assert`, a
  `REQ_0` or `REQ_TRUE` that ends the process and a null pointer end the client, and so does waiting
  for a key of the lookup cache: a client has one thread, so nobody wakes it up. Time stamps, data
  blocks and the serialized snapshot of the database are left out.
-/
import HFlat.Lib.Sequential
import HFlat.Permission.Model
import HFlat.Replication.Namespace

namespace HFlat.Fuse

open HFlat.Lib HFlat.PathMap HFlat.Permission
open HFlat.Replication (KineticRecord StatusCode versionOf putSame deleteSame)

/-! ## The store -/

/-- The metadata of an inode. -/
structure Inode extends Metadata where
  linkCount : Nat
  size : Nat
  xattr : List (Str × Str)
  deriving DecidableEq, Repr

/-- A message with no field set. -/
def Inode.empty : Inode := ⟨Metadata.empty, 1, 0, []⟩

/-- `link_count` is an unsigned number of 32 bits. -/
def decrement (n : Nat) : Nat := (n + (2 ^ 32 - 1)) % 2 ^ 32

/-- What a write of a metadata key is for. -/
inductive Purpose where
  /-- `put_metadata` -/
  | update
  /-- `create_metadata` -/
  | create
  /-- `delete_metadata` -/
  | delete
  /-- `rename_regular`: the metadata of object `mdifrom` is stored under the new name, then the old
      name is removed; `replaced` if the object of the new name is that of a file that existed -/
  | copy (mdifrom : Nat) (replaced : Bool)
  | remove (mdifrom : Nat)
  /-- `toHardlinkT`: the name becomes a link, then the target is stored -/
  | convert
  | target
  /-- `hflat_hardlink`: one more link, then the new name -/
  | addLink
  | newLink
  /-- `unlink_hardlink`: the name is reserved, the link is dropped, the name is deleted -/
  | reserve
  | dropLink
  | restore
  | deleteLink
  /-- `recover_rename` -/
  | recover
  deriving DecidableEq, Repr

/-- Store accesses; `me` is the client and `mdi` the object it reads into or writes. -/
inductive Req where
  | get (me mdi : Nat) (key : Str)
  /-- `Put` with `REQUIRE_SAME_VERSION` and a version that has just been generated -/
  | put (me mdi : Nat) (why : Purpose) (key expected : Str) (md : Inode)
  /-- `Put` of a key that must not exist, with a given version -/
  | putVersion (me : Nat) (why : Purpose) (key : Str) (record : KineticRecord Inode)
  /-- `Delete`, with `IGNORE_VERSION` if no version is expected -/
  | delete (me : Nat) (why : Purpose) (key : Str) (expected : Option Str)
  | createEntry (key : Str)
  | deleteEntry (key : Str)
  | entryRange (start stop : Str) (max : Nat)
  | inodeNumber
  | expired (key : Str)
  | databaseUpdate (version : Nat)
  | append (version : Nat) (entry : DbEntry)

/-- What the service answers to a request. -/
def Res : Req → Type
  | .get _ _ _ => Except StatusCode (KineticRecord Inode)
  | .put _ _ _ _ _ _ => StatusCode × Str
  | .putVersion _ _ _ _ => StatusCode
  | .delete _ _ _ _ => StatusCode
  | .createEntry _ => StatusCode
  | .deleteEntry _ => StatusCode
  | .entryRange _ _ _ => List Str
  | .inodeNumber => Nat
  | .expired _ => Bool
  | .databaseUpdate _ => Except Int (List DbEntry)
  | .append _ _ => StatusCode

/-- What the clients do not control: whether an access is carried out and answered, whether a
    cache entry has expired, the next inode number, and how much of the log is visible. -/
inductive Choice where
  | done
  | unreachable
  | lost
  | expired (b : Bool)
  | number (n : Nat)
  deriving DecidableEq, Repr

/-- The metadata and the directory entries on the drives, and the log of path mappings. -/
structure Store where
  metadata : Str → Option (KineticRecord Inode)
  /-- directory entries -/
  entries : Replication.Records
  log : List DbEntry
  /-- number of versions generated so far -/
  uuids : Nat

/-- The record of a metadata key becomes `r`. -/
def Store.set (s : Store) (key : Str) (r : Option (KineticRecord Inode)) : Store :=
  { s with metadata := Function.update s.metadata key r }

section Serve

-- the versions that `generate_uuid` returns
variable (uuid : Nat → Str)

/-- `Put` of `md` under a new version. -/
def Store.put (s : Store) (key expected : Str) (md : Inode) : StatusCode × Store :=
  let result := putSame (s.metadata key) expected ⟨md, uuid s.uuids⟩
  (result.1, { s.set key result.2 with uuids := s.uuids + 1 })

/-- A new key with a given version. -/
def Store.putVersion (s : Store) (key : Str) (record : KineticRecord Inode) : StatusCode × Store :=
  let result := putSame (s.metadata key) [] record
  (result.1, s.set key result.2)

/-- `Delete` of a metadata key, with `IGNORE_VERSION` if no version is expected. -/
def Store.delete (s : Store) (key : Str) (expected : Option Str) : StatusCode × Store :=
  let result := match expected with
    | some version => deleteSame (s.metadata key) version
    | none => if s.metadata key = none then (.REMOTE_NOT_FOUND, none) else (.OK, none)
  (result.1, s.set key result.2)

/-- A directory entry is a key without value, with version `"1"`; it must not exist. -/
def Store.createEntry (s : Store) (key : Str) : StatusCode × Store :=
  let result := putSame (s.entries.find key) [] ⟨[], lit "1"⟩
  (result.1, { s with entries := s.entries.set key result.2 })

/-- `Delete` of a directory entry with version `"1"`. -/
def Store.deleteEntry (s : Store) (key : Str) : StatusCode × Store :=
  let result := deleteSame (s.entries.find key) (lit "1")
  (result.1, { s with entries := s.entries.set key result.2 })

/-- `put_db_entry`: the log can only be extended by the next entry. -/
def Store.append (s : Store) (version : Nat) (entry : DbEntry) : StatusCode × Store :=
  if version = s.log.length + 1 then (.OK, { s with log := s.log ++ [entry] })
  else (.REMOTE_VERSION_MISMATCH, s)

/-- An access that may fail: what it answers and leaves. -/
def answer (s : Store) (result : StatusCode × Store) : Choice → Option (StatusCode × Store)
  | .done => some result
  | .unreachable => some (.REMOTE_REMOTE_CONNECTION_ERROR, s)
  | .lost => some (.REMOTE_REMOTE_CONNECTION_ERROR, result.2)
  | _ => none

/-- `Get` of a metadata key; a drive that is not reached is an error. -/
def Store.get (s : Store) (key : Str) : Choice → Option (Except StatusCode (KineticRecord Inode))
  | .done =>
      match s.metadata key with
      | some r => some (.ok r)
      | none => some (.error .REMOTE_NOT_FOUND)
  | .unreachable => some (.error .REMOTE_REMOTE_CONNECTION_ERROR)
  | _ => none

/-- `GetKeyRange` over the directory entries; a drive that is not reached gives no key. -/
def Store.entryRange (s : Store) (start stop : Str) (max : Nat) : Choice → Option (List Str)
  | .done => some (s.entries.openRange start stop max)
  | .unreachable => some []
  | _ => none

/-- `database_update`: some of the entries that the client does not have yet. -/
def Store.databaseUpdate (s : Store) (version : Nat) : Choice → Option (Except Int (List DbEntry))
  | .number n =>
      if s.log.length < version then none
      else if version = s.log.length then some (.error (-EALREADY))
      else if n = 0 then none
      else some (.ok ((s.log.drop version).take n))
  | .unreachable => some (.error (- EIO))
  | _ => none

/-- The number that the token has next, never 0. -/
def nextInodeNumber : Choice → Option Nat
  | .number n => if n = 0 then none else some n
  | _ => none

/-- Whether an entry of the cache has expired. -/
def hasExpired : Choice → Option Bool
  | .expired b => some b
  | _ => none

/-- One access of a client. A choice that does not fit the request is no step. -/
def serve (s : Store) : (r : Req) → Choice → Option (Res r × Store)
  | .get _ _ key, choice => (s.get key choice).map fun x => (x, s)
  | .put _ _ _ key expected md, choice =>
      (answer { s with uuids := s.uuids + 1 } (s.put uuid key expected md) choice).map
        fun result => ((result.1, uuid s.uuids), result.2)
  | .putVersion _ _ key record, choice => answer s (s.putVersion key record) choice
  | .delete _ _ key expected, choice => answer s (s.delete key expected) choice
  | .createEntry key, choice => answer s (s.createEntry key) choice
  | .deleteEntry key, choice => answer s (s.deleteEntry key) choice
  | .entryRange start stop max, choice => (s.entryRange start stop max choice).map fun x => (x, s)
  | .inodeNumber, choice => (nextInodeNumber choice).map fun x => (x, s)
  | .expired _, choice => (hasExpired choice).map fun x => (x, s)
  | .databaseUpdate version, choice => (s.databaseUpdate version choice).map fun x => (x, s)
  | .append version entry, choice => answer s (s.append version entry) choice

/-- The service that all clients access. -/
def store : Service Req Res Choice Store := ⟨serve uuid⟩

end Serve

/-! ## Clients -/

/-- An object of the lookup cache: key, version and metadata. -/
structure MetadataInfo where
  systemPath : Str
  keyVersion : Str
  md : Inode
  deriving DecidableEq, Repr

/-- The memory of a client. -/
structure Local where
  heap : Nat → MetadataInfo
  /-- first free address of the heap -/
  next : Nat
  lookupCache : Str → Option Nat
  /-- `blocked_keys` of the lookup cache -/
  blocked : Str → Bool
  pmap : PathMapDB

/-- Computations of one client: its memory, and requests to the service. -/
abbrev Client := StateT Local (Prog Req Res)

/-- One request. -/
def perform (r : Req) : Client (Res r) := StateT.lift (Prog.perform r)

/-- The process ends. -/
def exit {α : Type} : Client α := StateT.lift Prog.stop

/-- `unblocked.wait`, without another thread that could call `notify_all`. -/
def wait {α : Type} : Client α := StateT.lift Prog.stop

/-- The memory with another object at an address. -/
def Local.setObject (l : Local) (mdi : Nat) (x : MetadataInfo) : Local :=
  { l with heap := Function.update l.heap mdi x }

/-- `new MetadataInfo(key)` at address `next`. -/
def Local.alloc (l : Local) (key : Str) : Local :=
  { l with heap := Function.update l.heap l.next ⟨key, lit "0", Inode.empty⟩, next := l.next + 1 }

/-- The cache entry of `key` becomes `entry`, and who waits for the key is woken up. -/
def Local.setCache (l : Local) (key : Str) (entry : Option Nat) : Local :=
  { l with
    lookupCache := Function.update l.lookupCache key entry
    blocked := Function.update l.blocked key false }

/-- The memory with a key blocked. -/
def Local.block (l : Local) (key : Str) : Local :=
  { l with blocked := Function.update l.blocked key true }

/-- The object at an address. -/
def getMdi (mdi : Nat) : Client MetadataInfo := do return (← get).heap mdi

/-- Changes the object at an address. -/
def setMdi (mdi : Nat) (f : MetadataInfo → MetadataInfo) : Client Unit :=
  modify fun l => l.setObject mdi (f (l.heap mdi))

/-- Changes the metadata of the object at an address. -/
def setMD (mdi : Nat) (f : Inode → Inode) : Client Unit :=
  setMdi mdi fun x => { x with md := f x.md }

/-- `std::make_shared<MetadataInfo>` for a key: the first free address. -/
def newMetadataInfo (key : Str) : Client Nat := do
  let mdi := (← get).next
  modify fun l => l.alloc key
  return mdi

/-! ### Lookup cache (`lru_cache.h`) -/

/-- `lookup_cache.invalidate`. -/
def cacheInvalidate (key : Str) : Client Unit := modify fun l => l.setCache key none

/-- `block` -/
def cacheBlock (key : Str) : Client Unit := modify fun l => l.block key

/-- `get`. An entry that has expired or was evicted is removed here. -/
def cacheGet (key : Str) : Client (Option Nat) := do
  let l ← get
  if l.blocked key then wait
  else match l.lookupCache key with
    | none => return none
    | some mdi =>
        let expired : Bool ← perform (.expired key)
        if expired then
          cacheInvalidate key
          return none
        return some mdi

/-- `REQ_TRUE(lookup_cache.add(key, mdi))`. -/
def cacheAdd (key : Str) (mdi : Nat) : Client Unit := do
  match (← get).lookupCache key with
  | some _ => exit
  | none => modify fun l => l.setCache key (some mdi)

/-! ### Metadata keys (`kinetic_helper.cc`) -/

section Client

-- the client, and of `Env` the removal of duplicate path permissions and `PosixMode`
variable (me : Nat) (env : Env)

/-- `get_metadata`: reads the record of the object's key into the object. -/
def getMetadata (mdi : Nat) : Client Int := do
  let x ← getMdi mdi
  let record : Except StatusCode (KineticRecord Inode) ← perform (.get me mdi x.systemPath)
  match record with
  | .ok record =>
      setMdi mdi fun x => { x with md := record.value, keyVersion := record.version }
      return 0
  | .error .REMOTE_NOT_FOUND => return -ENOENT
  | .error _ => return - EIO

/-- `put_metadata`: stores the object, if the key still has the version of the object. -/
def putMetadata (why : Purpose) (mdi : Nat) : Client Int := do
  let x ← getMdi mdi
  let (status, newVersion) : StatusCode × Str ← perform (.put me mdi why x.systemPath x.keyVersion x.md)
  match status with
  | .OK =>
      setMdi mdi fun x => { x with keyVersion := newVersion }
      return 0
  | status =>
      cacheInvalidate x.systemPath
      if status = .REMOTE_VERSION_MISMATCH then return -EAGAIN
      if status = .REMOTE_NOT_FOUND then return -ENOENT
      return - EIO

/-- `put_metadata_forced`, with a bound on the number of retries. The update is one of time stamps
    in all uses here. -/
def putMetadataForced (mdi : Nat) : Nat → Client Int
  | 0 => exit
  | fuel + 1 => do
      let err ← putMetadata me .update mdi
      if err ≠ -EAGAIN then return err
      let err ← getMetadata me mdi
      if err ≠ 0 then return err
      putMetadataForced mdi fuel

/-- `create_metadata`: stores the object under a key that must not exist. -/
def createMetadata (why : Purpose) (mdi : Nat) : Client Int := do
  let x ← getMdi mdi
  let (status, newVersion) : StatusCode × Str ← perform (.put me mdi why x.systemPath [] x.md)
  match status with
  | .OK =>
      setMdi mdi fun x => { x with keyVersion := newVersion }
      return 0
  | .REMOTE_VERSION_MISMATCH => return -EEXIST
  | _ => return - EIO

/-- `delete_metadata`: the key leaves the cache before it is deleted. -/
def deleteMetadata (why : Purpose) (mdi : Nat) : Client Int := do
  let x ← getMdi mdi
  cacheInvalidate x.systemPath
  let status : StatusCode ← perform (.delete me why x.systemPath (some x.keyVersion))
  match status with
  | .OK => return 0
  | .REMOTE_VERSION_MISMATCH => return -EAGAIN
  | .REMOTE_NOT_FOUND => return -ENOENT
  | _ => return - EIO

/-! ### Database (`util.cc`) -/

/-- `util::database_update`: the entries after the version of the snapshot go into the snapshot. -/
def databaseUpdate : Client Int := do
  let db := (← get).pmap
  let entries : Except Int (List DbEntry) ← perform (.databaseUpdate db.snapshotVersion)
  match entries with
  | .error err => return err
  | .ok entries =>
      match updateSnapshot db entries db.snapshotVersion (db.snapshotVersion + entries.length) with
      | none => exit
      | some db =>
          modify fun l => { l with pmap := db }
          return 0

/-- `database_operation`, with a bound on the number of retries. -/
def databaseOperation (entry : DbEntry) : Nat → Client Int
  | 0 => exit
  | fuel + 1 => do
      let db := (← get).pmap
      let status : StatusCode ← perform (.append (db.snapshotVersion + 1) entry)
      match status with
      | .OK =>
          match updateSnapshot db [entry] db.snapshotVersion (db.snapshotVersion + 1) with
          | none => exit
          | some db =>
              modify fun l => { l with pmap := db }
              return 0
      | .REMOTE_VERSION_MISMATCH =>
          let err ← databaseUpdate
          if err ≠ 0 then return err
          databaseOperation entry fuel
      | _ => return - EIO

/-! ## Lookup (`lookup.cc`) -/

section Lookup

variable (ctx : Context)

/-- The object found for a user path, past lookup cache and checks: error code and object. -/
def getMetadataUserpath (fuel : Nat) (userPath : Str) : Client (Int × Option Nat) := do
  match toSystemPath (← get).pmap fuel userPath .LOOKUP with
  | none => exit
  | some (key, pathPermissionTimeStamp) =>
      if pathPermissionTimeStamp < 0 then return (pathPermissionTimeStamp, none)
      let mdi ← newMetadataInfo key
      let err ← getMetadata me mdi
      return (err, some mdi)

/-- `lookup_parent`, given `lookup`. An error comes with the object if it was found. -/
def lookupParentWith (lookup : Str → Option Nat → Client (Int × Option Nat)) (userPath : Str) :
    Client (Int × Option Nat) :=
  match cutParent userPath with
  | none => return (-EINVAL, none)
  | some path => do
      let (err, mdiParent) ← lookup path none
      if err ≠ 0 then return (err, mdiParent)
      match mdiParent with
      | none => exit
      | some parent =>
          let md := (← getMdi parent).md
          if ¬ S_ISDIR md.mode then return (-ENOTDIR, mdiParent)
          return (checkPathPermissions ctx md.pathPermissionChildren, mdiParent)

/-- The final check of `lookup`. -/
def finalCheck (mdi : Nat) : Client (Int × Option Nat) := do
  return (checkPathPermissions ctx (← getMdi mdi).md.pathPermission, some mdi)

/-- `inherit_path_permissions`. -/
def inheritPathPermissions (md parent : Inode) : Inode :=
  { md with toMetadata := Permission.inheritPathPermissions env md.toMetadata parent.toMetadata }

/-- The end of step 4 of `lookup` for stale path permissions. -/
def inheritFromParent (lookup : Str → Option Nat → Client (Int × Option Nat)) (userPath : Str)
    (mdi parent : Nat) : Client (Int × Option Nat) := do
  let mdParent := (← getMdi parent).md
  setMD mdi fun md => inheritPathPermissions env md mdParent
  let err ← putMetadata me .update mdi
  if err = -EAGAIN then lookup userPath (some mdi)
  else if err ≠ 0 then return (err, some mdi)
  else finalCheck ctx mdi

/-- Step 4 of `lookup`: check path permissions, update them in case of staleness. -/
def checkStale (lookup : Str → Option Nat → Client (Int × Option Nat)) (userPath : Str)
    (pathPermissionTimeStamp : Int) (mdi : Nat) : Client (Int × Option Nat) := do
  if ((← getMdi mdi).md.pathPermissionVerified : Int) < pathPermissionTimeStamp then
    let (err, mdiParent) ← lookupParentWith ctx lookup userPath
    if err ≠ 0 ∧ err ≠ -EACCES then return (err, some mdi)
    match mdiParent with
    | none => exit
    | some parent => inheritFromParent me env ctx lookup userPath mdi parent
  else finalCheck ctx mdi

/-- The key of a hard link target. -/
def hardlinkKey (inode : Nat) : Str := lit "hardlink_" ++ toStr inode

/-- Steps 3 and 4 of `lookup`: special inode types, then permissions. -/
def lookupFound (lookup : Str → Option Nat → Client (Int × Option Nat)) (userPath key : Str)
    (pathPermissionTimeStamp : Int) (mdi : Nat) (cached : Bool) : Client (Int × Option Nat) := do
  let md := (← getMdi mdi).md
  -- without an `add` the key stays blocked
  if md.inodeNumber = 0 then return (-ENOENT, some mdi)
  match md.type with
  | .HARDLINK_S =>
      if ¬ cached then
        let mdiSource ← newMetadataInfo key
        setMD mdiSource fun x => { x with type := .HARDLINK_S, inodeNumber := md.inodeNumber }
        cacheAdd key mdiSource
      lookup (hardlinkKey md.inodeNumber) (some mdi)
  | .FORCE_UPDATE =>
      let err ← databaseUpdate
      cacheInvalidate key
      if err ≠ 0 then return (err, some mdi)
      lookup userPath (some mdi)
  | _ =>
      if ¬ cached then cacheAdd key mdi
      checkStale me env ctx lookup userPath pathPermissionTimeStamp mdi

/-- `lookup` for a key that is not in the cache: error code and object. -/
def lookupStored (lookup : Str → Option Nat → Client (Int × Option Nat)) (userPath key : Str)
    (pathPermissionTimeStamp : Int) : Client (Int × Option Nat) := do
  cacheBlock key
  let mdi ← newMetadataInfo key
  let err ← getMetadata me mdi
  if err = -ENOENT then
    cacheAdd key mdi
    lookupFound me env ctx lookup userPath key pathPermissionTimeStamp mdi false
  else if err ≠ 0 then
    cacheInvalidate key
    return (err, some mdi)
  else lookupFound me env ctx lookup userPath key pathPermissionTimeStamp mdi false

/-- `lookup`, with the depth of its recursion as fuel: error code and object. If the path cannot be
    resolved, the caller's pointer stays what it was. -/
def lookup : Nat → Str → Option Nat → Client (Int × Option Nat)
  | 0, _, _ => exit
  | fuel + 1, userPath, pointer => do
      match toSystemPath (← get).pmap (fuel + 1) userPath .LOOKUP with
      | none => exit
      | some (key, pathPermissionTimeStamp) =>
          if pathPermissionTimeStamp < 0 then return (pathPermissionTimeStamp, pointer)
          match ← cacheGet key with
          | some mdi => lookupFound me env ctx (lookup fuel) userPath key pathPermissionTimeStamp mdi true
          | none => lookupStored me env ctx (lookup fuel) userPath key pathPermissionTimeStamp

/-- `lookup_parent`. -/
def lookupParent (fuel : Nat) (userPath : Str) : Client (Int × Option Nat) :=
  lookupParentWith ctx (lookup me env ctx fuel) userPath

end Lookup

/-! ## Directory entries (`fuseops/directory.cc`) -/

/-- The key of a directory entry: the inode number of the directory, `|` and the name. -/
def direntryKey (inode : Nat) (filename : Str) : Str := toStr inode ++ ['|'] ++ filename

/-- The parent's time stamps after a change of its entries; an error is only reported. -/
def touchDirectory (mdiParent fuel : Nat) : Client Int := do
  if env.posixFull then
    let _ ← putMetadataForced me mdiParent fuel
    return 0
  return 0

/-- `create_directory_entry`. -/
def createDirectoryEntry (mdiParent : Nat) (filename : Str) (fuel : Nat) : Client Int := do
  let parent ← getMdi mdiParent
  let status : StatusCode ← perform (.createEntry (direntryKey parent.md.inodeNumber filename))
  match status with
  | .OK => touchDirectory me env mdiParent fuel
  | .REMOTE_VERSION_MISMATCH => return -EEXIST
  | _ => return - EIO

/-- `delete_directory_entry`. -/
def deleteDirectoryEntry (mdiParent : Nat) (filename : Str) (fuel : Nat) : Client Int := do
  let parent ← getMdi mdiParent
  let status : StatusCode ← perform (.deleteEntry (direntryKey parent.md.inodeNumber filename))
  match status with
  | .OK => touchDirectory me env mdiParent fuel
  | _ => return - EIO

end Client

end HFlat.Fuse
