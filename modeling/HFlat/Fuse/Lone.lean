/-
  A client of one thread that is the only writer: `create`, `unlink`, `write`, `fsync`, `truncate`,
  `getattr`, `chmod`, `chown`, `utimens`, `setxattr` and `removexattr` (`fuseops/*.cc`), with both
  caches and all fields of the metadata.

  A cache entry without unflushed data may have expired, or may have been evicted, whenever it is
  looked up. Every access to the store is carried out and answered. `generate_uuid` is part of the
  `Put` that uses the new version. The serialized snapshot of the database, the deletion of data
  blocks in the background and what `fsck_directory` does are left out.

  `held` is not in the source. It lists the system paths of the objects that an operation has looked
  up and is going to store while it makes further lookups.
-/
import HFlat.Fuse.Attributes
import HFlat.Data.DataInfo
import HFlat.Data.Place

namespace HFlat.Fuse.Lone

open HFlat.Lib HFlat.PathMap HFlat.Permission
open HFlat.Data (DataInfo Place place)
open HFlat.Fuse.Attributes (FileMetadata seconds)
open HFlat.Replication (KineticRecord StatusCode versionOf putSame deleteSame)

/-- Host is down. -/
def EHOSTDOWN : Int := 112

/-- Greatest number of 32 bits. -/
def UINT32_MAX : Nat := 4294967295

/-! ## The store -/

/-- Inode number and block number of a data key. -/
abbrev DataKey := Nat × Nat

/-- One access to the drives, or to what the client does not control. -/
inductive Req where
  | get (key : Str)
  /-- `Put` with `REQUIRE_SAME_VERSION` and a version that has just been generated -/
  | put (key expected : Str) (md : FileMetadata)
  /-- `Delete` with `REQUIRE_SAME_VERSION` -/
  | delete (key expected : Str) (held : Bool)
  | getData (key : DataKey)
  | putData (key : DataKey) (expected d : Str)
  | deleteData (key : DataKey)
  | createEntry (key : Str)
  | deleteEntry (key : Str)
  | databaseUpdate (version : Nat)
  | append (version : Nat) (entry : DbEntry)
  | inodeNumber
  | time
  | selfCheck
  | expired (key : Str) (held : Bool)
  | dataExpired (key : DataKey)

/-- What the service answers to a request. -/
abbrev Res : Req → Type
  | .get _ => Except StatusCode (KineticRecord FileMetadata)
  | .put _ _ _ => StatusCode × Str
  | .delete _ _ _ => StatusCode
  | .getData _ => Except StatusCode (KineticRecord Str)
  | .putData _ _ _ => StatusCode × Str
  | .deleteData _ => StatusCode
  | .createEntry _ => StatusCode
  | .deleteEntry _ => StatusCode
  | .databaseUpdate _ => Except Int (List DbEntry)
  | .append _ _ => StatusCode
  | .inodeNumber => Nat
  | .time => Nat
  | .selfCheck => Bool
  | .expired _ _ => Bool
  | .dataExpired _ => Bool

/-- What the client does not control: clock and inode numbers, whether a cache entry has expired,
    and whether the self check succeeds. -/
inductive Choice where
  | done
  | number (n : Nat)
  | yes
  | no
  deriving DecidableEq, Repr

/-- What the drives hold: metadata, data blocks, directory entries and the log of path mappings. -/
structure Store where
  record : Str → Option (KineticRecord FileMetadata)
  block : DataKey → Option (KineticRecord Str)
  /-- directory entries -/
  entry : Str → Bool
  log : List DbEntry
  /-- number of versions generated so far -/
  uuids : Nat
  /-- number of metadata `Put`s that were refused because of the version -/
  refused : Nat

/-- `Get`: the record, or `REMOTE_NOT_FOUND`. -/
def lookupRecord {V : Type} : Option (KineticRecord V) → Except StatusCode (KineticRecord V)
  | some r => .ok r
  | none => .error .REMOTE_NOT_FOUND

section Serve

-- the versions that `generate_uuid` returns
variable (uuid : Nat → Str)

/-- `Put` of a metadata key with the next generated version; refusals are counted. -/
def Store.put (s : Store) (key expected : Str) (md : FileMetadata) : StatusCode × Store :=
  let result := putSame (s.record key) expected ⟨md, uuid s.uuids⟩
  (result.1,
    { s with
      record := Function.update s.record key result.2
      uuids := s.uuids + 1
      refused := if result.1 = .OK then s.refused else s.refused + 1 })

/-- `Delete` of a metadata key. -/
def Store.delete (s : Store) (key expected : Str) : StatusCode × Store :=
  let result := deleteSame (s.record key) expected
  (result.1, { s with record := Function.update s.record key result.2 })

/-- `Put` of a block with the next generated version. -/
def Store.putData (s : Store) (key : DataKey) (expected d : Str) : StatusCode × Store :=
  let result := putSame (s.block key) expected ⟨d, uuid s.uuids⟩
  (result.1, { s with block := Function.update s.block key result.2, uuids := s.uuids + 1 })

/-- `Delete` with `IGNORE_VERSION`. -/
def Store.deleteData (s : Store) (key : DataKey) : StatusCode × Store :=
  (if s.block key = none then .REMOTE_NOT_FOUND else .OK,
    { s with block := Function.update s.block key none })

/-- A directory entry is a key without value; it must not exist. -/
def Store.createEntry (s : Store) (key : Str) : StatusCode × Store :=
  if s.entry key then (.REMOTE_VERSION_MISMATCH, s)
  else (.OK, { s with entry := Function.update s.entry key true })

/-- `Delete` of a directory entry. -/
def Store.deleteEntry (s : Store) (key : Str) : StatusCode × Store :=
  if s.entry key then (.OK, { s with entry := Function.update s.entry key false })
  else (.REMOTE_NOT_FOUND, s)

/-- `database_update`: the entries that the client does not have yet. -/
def Store.databaseUpdate (s : Store) (version : Nat) : Option (Except Int (List DbEntry)) :=
  if s.log.length < version then none
  else if version = s.log.length then some (.error (-EALREADY))
  else some (.ok (s.log.drop version))

/-- `put_db_entry`: the log can only be extended by the next entry. -/
def Store.append (s : Store) (version : Nat) (entry : DbEntry) : StatusCode × Store :=
  if version = s.log.length + 1 then (.OK, { s with log := s.log ++ [entry] })
  else (.REMOTE_VERSION_MISMATCH, s)

/-- One access of the client. A choice that does not fit the request is no step. -/
def serve (s : Store) : (r : Req) → Choice → Option (Res r × Store)
  | .get key, .done => some (lookupRecord (s.record key), s)
  | .put key expected md, .done =>
      let (status, s') := s.put uuid key expected md
      some ((status, uuid s.uuids), s')
  | .delete key expected _, .done => some (s.delete key expected)
  | .getData key, .done => some (lookupRecord (s.block key), s)
  | .putData key expected d, .done =>
      let (status, s') := s.putData uuid key expected d
      some ((status, uuid s.uuids), s')
  | .deleteData key, .done => some (s.deleteData key)
  | .createEntry key, .done => some (s.createEntry key)
  | .deleteEntry key, .done => some (s.deleteEntry key)
  | .databaseUpdate version, .done => (s.databaseUpdate version).map fun x => (x, s)
  | .append version entry, .done => some (s.append version entry)
  | .inodeNumber, .number n => some (n, s)
  | .time, .number n => some (n, s)
  | .selfCheck, .yes => some (true, s)
  | .selfCheck, .no => some (false, s)
  | .expired _ _, .yes => some (true, s)
  | .expired _ _, .no => some (false, s)
  | .dataExpired _, .yes => some (true, s)
  | .dataExpired _, .no => some (false, s)
  | _, _ => none

/-- The drives of the client. -/
def service : Service Req Res Choice Store := ⟨serve uuid⟩

end Serve

/-! ## The client -/

/-- `MetadataInfo`: key, version, metadata and the dirty block. -/
structure MetadataInfo where
  systemPath : Str
  keyVersion : Str
  md : FileMetadata
  /-- the block that was written last -/
  dirtyData : Option Nat
  deriving DecidableEq, Repr

/-- `DataInfo` with the key of its block. -/
structure BlockInfo extends DataInfo where
  key : DataKey
  deriving DecidableEq, Repr

/-- The memory of the client: its objects, its blocks, the two caches and the snapshot of path mappings. -/
structure Local where
  heap : Nat → MetadataInfo
  /-- first free address of the heap -/
  next : Nat
  lookupCache : Str → Option Nat
  data : Nat → BlockInfo
  nextData : Nat
  dataCache : DataKey → Option Nat
  pmap : PathMapDB

/-- A client that has just started, with the path map that it has read. -/
def Local.mounted (pmap : PathMapDB) : Local where
  heap _ := ⟨[], [], FileMetadata.empty, none⟩
  next := 0
  lookupCache _ := none
  data _ := ⟨⟨[], [], []⟩, (0, 0)⟩
  nextData := 0
  dataCache _ := none
  pmap := pmap

/-- Computations of the client: its memory, and requests to the service. -/
abbrev Client := StateT Local (Prog Req Res)

/-- One request. -/
def perform (r : Req) : Client (Res r) := StateT.lift (Prog.perform r)

/-- The process ends. -/
def exit {α : Type} : Client α := StateT.lift Prog.stop

/-- `REQ_0`. -/
def require (m : Client Int) : Client Unit := do
  let err ← m
  if err ≠ 0 then exit

/-- A pointer that the code dereferences. -/
def deref (mdi : Option Nat) : Client Nat :=
  match mdi with
  | some mdi => return mdi
  | none => exit

/-- The memory with another object at an address. -/
def Local.setObject (l : Local) (mdi : Nat) (x : MetadataInfo) : Local :=
  { l with heap := Function.update l.heap mdi x }

/-- `new MetadataInfo(key)` at address `next`. -/
def Local.alloc (l : Local) (key : Str) : Local :=
  { l with
    heap := Function.update l.heap l.next ⟨key, lit "0", FileMetadata.empty, none⟩
    next := l.next + 1 }

/-- The memory with another entry of `lookup_cache`. -/
def Local.setCache (l : Local) (key : Str) (entry : Option Nat) : Local :=
  { l with lookupCache := Function.update l.lookupCache key entry }

/-- The memory with another block at an address. -/
def Local.setBlock (l : Local) (di : Nat) (x : BlockInfo) : Local :=
  { l with data := Function.update l.data di x }

/-- `new DataInfo` at address `nextData`. -/
def Local.allocBlock (l : Local) (x : BlockInfo) : Local :=
  { l with data := Function.update l.data l.nextData x, nextData := l.nextData + 1 }

/-- The memory with another entry of `data_cache`. -/
def Local.setDataCache (l : Local) (key : DataKey) (entry : Option Nat) : Local :=
  { l with dataCache := Function.update l.dataCache key entry }

/-- The object has unflushed data. -/
def Local.dirty (l : Local) (mdi : Nat) : Bool :=
  match (l.heap mdi).dirtyData with
  | some di => (l.data di).hasUpdates
  | none => false

/-- The object at an address. -/
def getMdi (mdi : Nat) : Client MetadataInfo := do return (← get).heap mdi

/-- Changes the object at an address. -/
def setMdi (mdi : Nat) (f : MetadataInfo → MetadataInfo) : Client Unit :=
  modify fun l => l.setObject mdi (f (l.heap mdi))

/-- Changes the metadata of the object at an address. -/
def setMD (mdi : Nat) (f : FileMetadata → FileMetadata) : Client Unit :=
  setMdi mdi fun x => { x with md := f x.md }

/-- `std::make_shared<MetadataInfo>` for a key: the first free address. -/
def newMetadataInfo (key : Str) : Client Nat := do
  let mdi := (← get).next
  modify fun l => l.alloc key
  return mdi

/-- The block at an address. -/
def getDi (di : Nat) : Client BlockInfo := do return (← get).data di

/-- Replaces the block at an address. -/
def setDi (di : Nat) (x : BlockInfo) : Client Unit := modify fun l => l.setBlock di x

/-- `std::make_shared<DataInfo>`: the first free address. -/
def newDataInfo (x : BlockInfo) : Client Nat := do
  let di := (← get).nextData
  modify fun l => l.allocBlock x
  return di

/-- `updateACMtime`. -/
def updateACMtime (mdi : Nat) : Client Unit := do
  let now : Nat ← perform .time
  setMD mdi fun md => { md with atime := seconds now, mtime := seconds now, ctime := seconds now }

/-- `updateACtime`. -/
def updateACtime (mdi : Nat) : Client Unit := do
  let now : Nat ← perform .time
  setMD mdi fun md => { md with atime := seconds now, ctime := seconds now }

/-! ### Caches (`lru_cache.h`) -/

/-- `lookup_cache.invalidate`. -/
def cacheInvalidate (key : Str) : Client Unit := modify fun l => l.setCache key none

/-- `lookup_cache.get`. An entry that has expired or was evicted is removed here. -/
def cacheGet (held : List Str) (key : Str) : Client (Option Nat) := do
  match (← get).lookupCache key with
  | none => return none
  | some mdi =>
      if (← get).dirty mdi then return some mdi
      let expired : Bool ← perform (.expired key (decide (key ∈ held)))
      if expired then
        cacheInvalidate key
        return none
      return some mdi

/-- `REQ_TRUE(lookup_cache.add(key, mdi))`. -/
def cacheAdd (key : Str) (mdi : Nat) : Client Unit := do
  match (← get).lookupCache key with
  | some _ => exit
  | none => modify fun l => l.setCache key (some mdi)

/-- `data_cache.invalidate`. -/
def dataInvalidate (key : DataKey) : Client Unit := modify fun l => l.setDataCache key none

/-- `data_cache.get`; a dirty block does not expire. -/
def dataCacheGet (key : DataKey) : Client (Option Nat) := do
  match (← get).dataCache key with
  | none => return none
  | some di =>
      if (← getDi di).hasUpdates then return some di
      let expired : Bool ← perform (.dataExpired key)
      if expired then
        dataInvalidate key
        return none
      return some di

/-- `data_cache.add`; the block is not in the cache. -/
def dataAdd (key : DataKey) (di : Nat) : Client Unit := do
  match (← get).dataCache key with
  | some _ => exit
  | none => modify fun l => l.setDataCache key (some di)

/-! ### Keys (`kinetic_helper.cc`) -/

/-- `get_metadata`: reads the record of the object's key into the object. -/
def getMetadata (mdi : Nat) : Client Int := do
  let x ← getMdi mdi
  let record : Except StatusCode (KineticRecord FileMetadata) ← perform (.get x.systemPath)
  match record with
  | .ok record =>
      setMdi mdi fun x => { x with md := record.value, keyVersion := record.version }
      return 0
  | .error .REMOTE_NOT_FOUND => return -ENOENT
  | .error _ => return - EIO

/-- `put_metadata`: stores the object, if the key still has the version of the object. -/
def putMetadata (mdi : Nat) : Client Int := do
  let x ← getMdi mdi
  let (status, newVersion) : StatusCode × Str ← perform (.put x.systemPath x.keyVersion x.md)
  match status with
  | .OK =>
      setMdi mdi fun x => { x with keyVersion := newVersion }
      return 0
  | status =>
      cacheInvalidate x.systemPath
      if status = .REMOTE_VERSION_MISMATCH then return -EAGAIN
      if status = .REMOTE_NOT_FOUND then return -ENOENT
      return - EIO

/-- `put_metadata_forced`, with a bound on the number of retries. -/
def putMetadataForced (mdi : Nat) (update : Client Unit) : Nat → Client Int
  | 0 => exit
  | fuel + 1 => do
      update
      let err ← putMetadata mdi
      if err ≠ -EAGAIN then return err
      let err ← getMetadata mdi
      if err ≠ 0 then return err
      putMetadataForced mdi update fuel

/-- `create_metadata`: stores the object under a key that must not exist. -/
def createMetadata (mdi : Nat) : Client Int := do
  let x ← getMdi mdi
  let (status, newVersion) : StatusCode × Str ← perform (.put x.systemPath [] x.md)
  match status with
  | .OK =>
      setMdi mdi fun x => { x with keyVersion := newVersion }
      return 0
  | .REMOTE_VERSION_MISMATCH => return -EEXIST
  | _ => return - EIO

/-- `delete_metadata`: the key leaves the cache before it is deleted. `held` are the keys of objects
    that the operation has locked. -/
def deleteMetadata (held : List Str) (mdi : Nat) : Client Int := do
  let x ← getMdi mdi
  cacheInvalidate x.systemPath
  let status : StatusCode ←
    perform (.delete x.systemPath x.keyVersion (decide (x.systemPath ∈ held)))
  match status with
  | .OK => return 0
  | .REMOTE_VERSION_MISMATCH => return -EAGAIN
  | .REMOTE_NOT_FOUND => return -ENOENT
  | _ => return - EIO

/-- `get_data`; a block that is not stored is empty. -/
def getData (key : DataKey) : Client BlockInfo := do
  let record : Except StatusCode (KineticRecord Str) ← perform (.getData key)
  match record with
  | .ok record => return ⟨⟨record.version, record.value, []⟩, key⟩
  | .error _ => return ⟨⟨[], [], []⟩, key⟩

/-- `put_data`, with a bound on the number of retries. -/
def putData (di : Nat) : Nat → Client Int
  | 0 => exit
  | fuel + 1 => do
      let x ← getDi di
      let (status, newVersion) : StatusCode × Str ← perform (.putData x.key x.keyVersion x.d)
      match status with
      | .OK =>
          setDi di ⟨{ x.toDataInfo.forgetUpdates with keyVersion := newVersion }, x.key⟩
          return 0
      | .REMOTE_VERSION_MISMATCH =>
          let record : Except StatusCode (KineticRecord Str) ← perform (.getData x.key)
          match record with
          | .error _ => return - EIO
          | .ok record =>
              match x.toDataInfo.mergeDataChanges record.value with
              | none => exit
              | some merged =>
                  setDi di ⟨{ merged with keyVersion := record.version }, x.key⟩
                  putData di fuel
      | _ => return - EIO

/-- `delete_data`; its return code is ignored. -/
def deleteData (key : DataKey) : Client Unit := do
  let _ ← perform (.deleteData key)
  dataInvalidate key

/-! ### Database (`util.cc`) -/

/-- `util::database_update`: the entries after the version of the snapshot go into the snapshot. -/
def databaseUpdate : Client Int := do
  let db := (← get).pmap
  let entries : Except Int (List DbEntry) ← perform (.databaseUpdate db.snapshotVersion)
  match entries with
  | .error err => return err
  | .ok entries =>
      match updateSnapshot db entries db.snapshotVersion (db.snapshotVersion + entries.length) with
      | none => exit
      | some db =>
          modify fun l => { l with pmap := db }
          return 0

/-- `database_operation`, with a bound on the number of retries. -/
def databaseOperation (entry : DbEntry) : Nat → Client Int
  | 0 => exit
  | fuel + 1 => do
      let db := (← get).pmap
      let status : StatusCode ← perform (.append (db.snapshotVersion + 1) entry)
      match status with
      | .OK =>
          match updateSnapshot db [entry] db.snapshotVersion (db.snapshotVersion + 1) with
          | none => exit
          | some db =>
              modify fun l => { l with pmap := db }
              return 0
      | .REMOTE_VERSION_MISMATCH =>
          let err ← databaseUpdate
          if err ≠ 0 then return err
          databaseOperation entry fuel
      | _ => return - EIO

section Operations

variable (env : Env) (ctx : Context) (blocksize : Nat)

/-! ### Lookup (`lookup.cc`) -/

/-- `lookup` with the held system paths, a user path and the caller's pointer. -/
abbrev Lookup := List Str → Str → Option Nat → Client (Int × Option Nat)

/-- The object found for a user path, past lookup cache and checks: error code and object. -/
def getMetadataUserpath (fuel : Nat) (userPath : Str) : Client (Int × Option Nat) := do
  match toSystemPath (← get).pmap fuel userPath .LOOKUP with
  | none => exit
  | some (key, pathPermissionTimeStamp) =>
      if pathPermissionTimeStamp < 0 then return (pathPermissionTimeStamp, none)
      let mdi ← newMetadataInfo key
      let err ← getMetadata mdi
      return (err, some mdi)

/-- `lookup_parent`, given `lookup`. An error comes with the object if it was found. -/
def lookupParentWith (lookup : Lookup) (held : List Str) (userPath : Str) :
    Client (Int × Option Nat) :=
  match cutParent userPath with
  | none => return (-EINVAL, none)
  | some path => do
      let (err, mdiParent) ← lookup held path none
      if err ≠ 0 then return (err, mdiParent)
      let parent ← deref mdiParent
      let md := (← getMdi parent).md
      if ¬ S_ISDIR md.mode then return (-ENOTDIR, mdiParent)
      return (checkPathPermissions ctx md.pathPermissionChildren, mdiParent)

/-- The final check of `lookup`. -/
def finalCheck (mdi : Nat) : Client (Int × Option Nat) := do
  return (checkPathPermissions ctx (← getMdi mdi).md.pathPermission, some mdi)

/-- The end of step 4 of `lookup` for stale path permissions. -/
def inheritFromParent (lookup : Lookup) (held : List Str) (userPath : Str) (mdi parent : Nat) :
    Client (Int × Option Nat) := do
  let mdParent := (← getMdi parent).md
  setMD mdi fun md => Attributes.inheritPathPermissions env md mdParent
  let err ← putMetadata mdi
  if err = -EAGAIN then lookup held userPath (some mdi)
  else if err ≠ 0 then return (err, some mdi)
  else finalCheck ctx mdi

/-- Step 4 of `lookup`: check path permissions, update them in case of staleness. -/
def checkStale (lookup : Lookup) (held : List Str) (userPath key : Str)
    (pathPermissionTimeStamp : Int) (mdi : Nat) : Client (Int × Option Nat) := do
  if ((← getMdi mdi).md.pathPermissionVerified : Int) < pathPermissionTimeStamp then
    let (err, mdiParent) ← lookupParentWith ctx lookup (key :: held) userPath
    if err ≠ 0 ∧ err ≠ -EACCES then return (err, some mdi)
    let parent ← deref mdiParent
    inheritFromParent env ctx lookup held userPath mdi parent
  else finalCheck ctx mdi

/-- Steps 3 and 4 of `lookup`: special inode types, then permissions. -/
def lookupFound (lookup : Lookup) (held : List Str) (userPath key : Str)
    (pathPermissionTimeStamp : Int) (mdi : Nat) (cached : Bool) : Client (Int × Option Nat) := do
  let md := (← getMdi mdi).md
  if md.inodeNumber = 0 then return (-ENOENT, some mdi)
  match md.type with
  | .HARDLINK_S =>
      if ¬ cached then
        let mdiSource ← newMetadataInfo key
        setMD mdiSource fun x => { x with type := .HARDLINK_S, inodeNumber := md.inodeNumber }
        cacheAdd key mdiSource
      lookup held (hardlinkKey md.inodeNumber) (some mdi)
  | .FORCE_UPDATE =>
      let err ← databaseUpdate
      cacheInvalidate key
      if err ≠ 0 then return (err, some mdi)
      lookup held userPath (some mdi)
  | _ =>
      if ¬ cached then cacheAdd key mdi
      checkStale env ctx lookup held userPath key pathPermissionTimeStamp mdi

/-- `lookup` for a key that is not in the cache. -/
def lookupStored (lookup : Lookup) (held : List Str) (userPath key : Str)
    (pathPermissionTimeStamp : Int) : Client (Int × Option Nat) := do
  let mdi ← newMetadataInfo key
  let err ← getMetadata mdi
  if err = -ENOENT then
    cacheAdd key mdi
    lookupFound env ctx lookup held userPath key pathPermissionTimeStamp mdi false
  else if err ≠ 0 then
    cacheInvalidate key
    return (err, some mdi)
  else lookupFound env ctx lookup held userPath key pathPermissionTimeStamp mdi false

/-- `lookup`, with the depth of its recursion as fuel: error code and object. If the path cannot be
    resolved, the caller's pointer stays what it was. -/
def lookup : Nat → Lookup
  | 0, _, _, _ => exit
  | fuel + 1, held, userPath, pointer => do
      match toSystemPath (← get).pmap (fuel + 1) userPath .LOOKUP with
      | none => exit
      | some (key, pathPermissionTimeStamp) =>
          if pathPermissionTimeStamp < 0 then return (pathPermissionTimeStamp, pointer)
          match ← cacheGet held key with
          | some mdi =>
              lookupFound env ctx (lookup fuel) held userPath key pathPermissionTimeStamp mdi true
          | none => lookupStored env ctx (lookup fuel) held userPath key pathPermissionTimeStamp

/-- `lookup_parent`. -/
def lookupParent (fuel : Nat) (held : List Str) (userPath : Str) : Client (Int × Option Nat) :=
  lookupParentWith ctx (lookup env ctx fuel) held userPath

/-! ### Directory entries (`fuseops/directory.cc`) -/

/-- The parent's time stamps after a change of its entries; an error is only reported. -/
def touchDirectory (mdiParent fuel : Nat) : Client Int := do
  if env.posixFull then
    let _ ← putMetadataForced mdiParent (updateACMtime mdiParent) fuel
    return 0
  return 0

/-- `create_directory_entry`. -/
def createDirectoryEntry (mdiParent : Nat) (filename : Str) (fuel : Nat) : Client Int := do
  let parent ← getMdi mdiParent
  let status : StatusCode ← perform (.createEntry (direntryKey parent.md.inodeNumber filename))
  match status with
  | .OK => touchDirectory env mdiParent fuel
  | .REMOTE_VERSION_MISMATCH => return -EEXIST
  | _ => return - EIO

/-- `delete_directory_entry`. -/
def deleteDirectoryEntry (mdiParent : Nat) (filename : Str) (fuel : Nat) : Client Int := do
  let parent ← getMdi mdiParent
  let status : StatusCode ← perform (.deleteEntry (direntryKey parent.md.inodeNumber filename))
  match status with
  | .OK => touchDirectory env mdiParent fuel
  | _ => return - EIO

/-! ### Create (`fuseops/file.cc`) -/

/-- `initialize_metadata`. -/
def initializeMetadata (mdi mdiParent mode : Nat) : Client Unit := do
  updateACMtime mdi
  let inode : Nat ← perform .inodeNumber
  let parent := (← getMdi mdiParent).md
  setMD mdi fun md => Attributes.inheritPathPermissions env
    { md with type := .POSIX, gid := ctx.gid, uid := ctx.uid, mode := mode, inodeNumber := inode }
    parent

/-- `hflat_create` after the parent was found. -/
def createIn (fuel : Nat) (userPath : Str) (mode mdi mdiDir : Nat) : Client Int := do
  let dir ← getMdi mdiDir
  let err := checkAccess ctx dir.md.toMetadata W_OK
  if err ≠ 0 then return err
  let err ← createDirectoryEntry env mdiDir (pathToFilename userPath) fuel
  if err ≠ 0 then return err
  initializeMetadata env ctx mdi mdiDir mode
  require (createMetadata mdi)
  return 0

/-- `hflat_create`: metadata first, then the directory entry. -/
def hflatCreate (fuel : Nat) (userPath : Str) (mode : Nat) : Client Int := do
  let (err, mdi) ← lookup env ctx fuel [] userPath none
  if err = 0 then return -EEXIST
  if err ≠ -ENOENT then return err
  let (err, mdiDir) ← lookupParent env ctx fuel [] userPath
  if err = -ENOENT ∧ ':' ∈ userPath then return -ENOTDIR
  if err ≠ 0 then return err
  createIn env ctx fuel userPath mode (← deref mdi) (← deref mdiDir)

/-! ### Flush (`fuseops/sync.cc`) -/

/-- Size of the file with this block. -/
def newSize (x : BlockInfo) (md : FileMetadata) : Nat := max (blocksize * x.key.2 + x.d.length) md.size

/-- `hflat_fsync` of an object with unflushed data: size first, then the block. -/
def flush (append : Bool) (mdi di : Nat) (retry : Client Int) (fuel : Nat) : Client Int := do
  let x ← getDi di
  let md := (← getMdi mdi).md
  let newsize := newSize blocksize x md
  if md.size < newsize ∨ env.posixFull then
    setMD mdi fun md => { md with
      size := newsize % (UINT32_MAX + 1)
      blocks := (newsize / blocksize + 1) % (UINT32_MAX + 1) }
    updateACMtime mdi
    let err ← putMetadata mdi
    if err ≠ 0 ∧ append then
      dataInvalidate x.key
      return err
    if err = -EAGAIN then retry
    -- any other error is only reported
    else putData di fuel
  else putData di fuel

/-- `hflat_fsync`; `append` if it is called with `O_APPEND`. -/
def hflatFsync (held : List Str) (append : Bool) (userPath : Str) : Nat → Client Int
  | 0 => exit
  | fuel + 1 => do
      let (err, mdi) ← lookup env ctx (fuel + 1) held userPath none
      if err ≠ 0 then return err
      let mdi ← deref mdi
      match (← getMdi mdi).dirtyData with
      | none => return 0
      | some di =>
          if ¬ (← getDi di).hasUpdates then return 0
          flush env blocksize append mdi di (hflatFsync held append userPath fuel) (fuel + 1)

/-! ### Data and attributes (`fuseops/data.cc`, `fuseops/attr.cc`) -/

/-- The block under a key, from the cache or, if it is not there, as `load` yields it. -/
def cachedBlock (key : DataKey) (load : Client BlockInfo) : Client Nat := do
  match ← dataCacheGet key with
  | some di => return di
  | none =>
      let di ← newDataInfo (← load)
      dataAdd key di
      return di

/-- The block that a write goes to. It is not fetched if the file grows. -/
def writeBlock (key : DataKey) (stop : Nat) (md : FileMetadata) : Client Nat :=
  cachedBlock key (if stop > md.size then return ⟨⟨[], [], []⟩, key⟩ else getData key)

/-- `do_rw` for a write to a place: number of bytes, and the block. -/
def doRwAt (buf : Str) (stop mdi : Nat) : Option Place → Client (Nat × Nat)
  -- an `int` overflows
  | none => exit
  | some place => do
      let md := (← getMdi mdi).md
      let di ← writeBlock (md.inodeNumber, place.block) stop md
      let inblockstart := place.inblockstart.toNat
      let inblocksize := place.inblocksize.toNat
      let x ← getDi di
      match x.toDataInfo.updateData (buf.take inblocksize) inblockstart with
      | none => exit
      | some info =>
          setDi di ⟨info, x.key⟩
          return (inblocksize, di)

/-- `do_rw` for a write. -/
def doRw (buf : Str) (offset mdi : Nat) : Client (Nat × Nat) :=
  doRwAt buf (offset + buf.length) mdi (place blocksize buf.length offset)

/-- `setDirtyData`. -/
def setDirtyData (mdi di : Nat) : Client Bool := do
  if (← getMdi mdi).dirtyData = some di then return true
  if (← get).dirty mdi then return false
  setMdi mdi fun x => { x with dirtyData := some di }
  return true

/-- The end of `hflat_write`: what was written is flushed at once or aggregated. -/
def finishWrite (append : Bool) (userPath : Str) (offset size : Nat) (retry : Client Int)
    (fuel : Nat) : Client Int := do
  if append ∨ (offset + size) % blocksize = 0 then
    let err ← hflatFsync env ctx blocksize [] append userPath fuel
    if err = -EAGAIN then retry
    else if err ≠ 0 then return err
    else return size
  else return size

/-- `hflat_write`; `append` if it is called with `O_APPEND`. -/
def hflatWrite (append : Bool) (userPath : Str) (offset : Nat) : Nat → Str → Client Int
  | 0, _ => exit
  | fuel + 1, buf => do
      let (err, mdi) ← lookup env ctx (fuel + 1) [] userPath none
      if err ≠ 0 then return err
      let mdi ← deref mdi
      let (size, di) ← doRw blocksize buf offset mdi
      if size = 0 then return 0
      let retry := hflatWrite append userPath offset fuel (buf.take size)
      if ← setDirtyData mdi di then
        finishWrite env ctx blocksize append userPath offset size retry (fuel + 1)
      else
        -- the object has another block with unflushed data
        let err ← hflatFsync env ctx blocksize [] append userPath (fuel + 1)
        if err ≠ 0 then return err
        let _ ← setDirtyData mdi di
        finishWrite env ctx blocksize append userPath offset size retry (fuel + 1)

/-- `hflat_getattr`: error code, or the attributes. -/
def hflatGetattr (fuel : Nat) (userPath : Str) : Client (Except Int FileMetadata) := do
  let (err, mdi) ← lookup env ctx fuel [] userPath none
  if err ≠ 0 then return .error err
  let mdi ← deref mdi
  if (← get).dirty mdi then
    let _ ← hflatFsync env ctx blocksize [] false userPath fuel
  return .ok (← getMdi mdi).md

/-- Cuts the last block that stays. -/
def truncateBlock (key : DataKey) (offset fuel : Nat) : Client Unit := do
  let di ← cachedBlock key (getData key)
  let x ← getDi di
  match x.toDataInfo.truncate offset with
  | none => exit
  | some info =>
      setDi di ⟨info, x.key⟩
      let _ ← putData di fuel

/-- Deletes the blocks `blocknums` of an inode. -/
def deleteBlocks (inode : Nat) : List Nat → Client Unit
  | [] => return ()
  | i :: blocknums => do
      match ← dataCacheGet (inode, i) with
      | some _ => dataInvalidate (inode, i)
      | none => pure ()
      deleteData (inode, i)
      deleteBlocks inode blocknums

/-- `hflat_truncate` after the flush. With a block size of at least 3 all block numbers are ints. -/
def truncateTo (offset mdi : Nat) (retry : Client Int) (fuel : Nat) : Client Int := do
  let x ← getMdi mdi
  if checkAccess ctx x.md.toMetadata W_OK ≠ 0 then return -EACCES
  if offset > UINT32_MAX then return -EFBIG
  setMD mdi fun md => { md with size := offset }
  updateACMtime mdi
  let err ← putMetadata mdi
  if err = -EAGAIN then retry
  else if err ≠ 0 then return err
  else
    if offset < x.md.size then
      truncateBlock (x.md.inodeNumber, offset / blocksize) (offset % blocksize) fuel
    let first := offset / blocksize + 1
    deleteBlocks x.md.inodeNumber (List.range' first (x.md.size / blocksize + 1 - first))
    return 0

/-- The truncation passes its checks. -/
def mayTruncate (offset : Nat) (md : FileMetadata) : Bool :=
  checkAccess ctx md.toMetadata W_OK = 0 ∧ offset ≤ UINT32_MAX

/-- `hflat_truncate`. -/
def hflatTruncate (userPath : Str) (offset : Nat) : Nat → Client Int
  | 0 => exit
  | fuel + 1 => do
      let (err, mdi) ← lookup env ctx (fuel + 1) [] userPath none
      if err ≠ 0 then return err
      let mdi ← deref mdi
      let x ← getMdi mdi
      let held := if mayTruncate ctx offset x.md then [x.systemPath] else []
      let err ← hflatFsync env ctx blocksize held false userPath (fuel + 1)
      if err ≠ 0 then return err
      truncateTo ctx blocksize offset mdi (hflatTruncate userPath offset fuel) (fuel + 1)

/-! ### Changes of the metadata (`fuseops/attr.cc`, `fuseops/xattr.cc`) -/

/-- An operation that changes an object in place and stores it. -/
def change (op : Attributes.Op) (mdi : Nat) (again : Client Int) : Client Int := do
  match op.apply (← getMdi mdi).md with
  | .error err => return err
  | .ok md =>
      setMD mdi fun _ => md
      let err ← putMetadata mdi
      if err = -EAGAIN then again else return err

/-- `hflat_setxattr`. The name `fsck` starts `fsck_directory`, the name `nsck` starts `selfCheck`. -/
def hflatSetxattr (userPath name value : Str) (flags : Nat) : Nat → Client Int
  | 0 => exit
  | fuel + 1 => do
      let (err, mdi) ← lookup env ctx (fuel + 1) [] userPath none
      if err ≠ 0 then return err
      let mdi ← deref mdi
      if name = lit "fsck" then exit
      else if name = lit "nsck" then
        let ok : Bool ← perform .selfCheck
        return if ok then 0 else -EHOSTDOWN
      else change (.setxattr name value flags) mdi (hflatSetxattr userPath name value flags fuel)

/-- `hflat_removexattr`, again if another client has stored the key. -/
def hflatRemovexattr (userPath name : Str) : Nat → Client Int
  | 0 => exit
  | fuel + 1 => do
      let (err, mdi) ← lookup env ctx (fuel + 1) [] userPath none
      if err ≠ 0 then return err
      let mdi ← deref mdi
      change (.removexattr name) mdi (hflatRemovexattr userPath name fuel)

/-- `hflat_utimens`, again if another client has stored the key. -/
def hflatUtimens (userPath : Str) (atime mtime : Int) : Nat → Client Int
  | 0 => exit
  | fuel + 1 => do
      let (err, mdi) ← lookup env ctx (fuel + 1) [] userPath none
      if err ≠ 0 then return err
      let mdi ← deref mdi
      change (.utimens atime mtime) mdi (hflatUtimens userPath atime mtime fuel)

/-! ### Permissions (`fuseops/permission.cc`) -/

/-- `permission_lookup`. Arguments that are `-1` in the source are `none` here. -/
def permissionLookup (fuel : Nat) (userPath : Str) (gid : Option Nat) : Client (Int × Option Nat) := do
  let (err, mdi) ← lookup env ctx fuel [] userPath none
  if err ≠ 0 then return (err, mdi)
  if ctx.uid = 0 then return (0, mdi)
  let p ← deref mdi
  if ctx.uid ≠ (← getMdi p).md.uid then return (-EPERM, mdi)
  if gid ≠ none ∧ gid ≠ some ctx.gid then return (-EPERM, mdi)
  return (0, mdi)

/-- The second write of `do_permission_change`, once the database knows of the change. -/
def storeRestrictions (fuel mdi : Nat) : Client Int := do
  let version := (← get).pmap.snapshotVersion
  let err ← putMetadataForced mdi
    (setMD mdi fun md => { md with pathPermissionVerified := version }) fuel
  if err ≠ 0 ∧ err ≠ -ENOENT then exit
  return 0

/-- The end of `do_permission_change`: note in the database if path permissions changed. -/
def notePermissionChange (fuel : Nat) (userPath : Str) (mdi : Nat) : Client Int := do
  let md := (← getMdi mdi).md
  if S_ISDIR md.mode then
    let (inner, changed) := computePathPermissionChildren env md.toMetadata
    setMD mdi fun md => { md with toMetadata := inner }
    if changed then
      require (databaseOperation ⟨.NONE, userPath, []⟩ fuel)
      storeRestrictions fuel mdi
    else return 0
  else return 0

/-- `do_permission_change`, with a bound on the number of retries. -/
def doPermissionChange (userPath : Str) : Nat → Option Nat → Option Nat → Option Nat → Client Int
  | 0, _, _, _ => exit
  | fuel + 1, mode, uid, gid => do
      let (err, mdi) ← permissionLookup env ctx (fuel + 1) userPath gid
      if err ≠ 0 then return err
      let mdi ← deref mdi
      let md := (← getMdi mdi).md
      -- assert(mode == (mode_t)-1)
      if ctx.uid ≠ 0 ∧ (uid ≠ none ∨ gid ≠ none) ∧ mode ≠ none then exit
      let mode := changedMode ctx md.toMetadata mode uid gid
      setMD mdi fun md => { md with toMetadata := changeMetadata md.toMetadata mode uid gid }
      updateACtime mdi
      let err ← putMetadata mdi
      if err = -EAGAIN then doPermissionChange userPath fuel mode uid gid
      else if err ≠ 0 then return err
      else notePermissionChange env (fuel + 1) userPath mdi

/-- `hflat_chmod`. -/
def hflatChmod (fuel : Nat) (userPath : Str) (mode : Nat) : Client Int :=
  doPermissionChange env ctx userPath fuel (some mode) none none

/-- `hflat_chown`. -/
def hflatChown (fuel : Nat) (userPath : Str) (uid gid : Option Nat) : Client Int :=
  doPermissionChange env ctx userPath fuel none uid gid

/-! ### Unlink (`fuseops/file.cc`) -/

/-- `unlink_force_update`. -/
def unlinkForceUpdate (fuel : Nat) (userPath : Str) : Client Int := do
  let (err, mdiFu) ← getMetadataUserpath fuel userPath
  if err = -ENOENT then return 0
  if err ≠ 0 then return err
  let mdiFu ← deref mdiFu
  if (← getMdi mdiFu).md.type ≠ .FORCE_UPDATE then exit
  deleteMetadata [] mdiFu

/-- The sticky bit is set on the directory and the caller owns neither it nor the file. -/
def sticky (dir md : FileMetadata) : Bool :=
  ctx.uid ≠ 0 ∧ dir.mode &&& S_ISVTX ≠ 0 ∧ ctx.uid ≠ dir.uid ∧ ctx.uid ≠ md.uid

/-- `unlink_lookup`: error code, object and directory. -/
def unlinkLookup (fuel : Nat) (userPath : Str) : Client (Int × Nat × Nat) := do
  let (err, mdi) ← lookup env ctx fuel [] userPath none
  if err ≠ 0 then return (err, 0, 0)
  let mdi ← deref mdi
  let x ← getMdi mdi
  let held := if x.md.type = .HARDLINK_T then [x.systemPath] else []
  let (err, mdiDir) ← lookupParent env ctx fuel held userPath
  if err ≠ 0 then return (err, mdi, 0)
  let mdiDir ← deref mdiDir
  let dir := (← getMdi mdiDir).md
  if checkAccess ctx dir.toMetadata (W_OK ||| X_OK) ≠ 0 then return (-EACCES, mdi, mdiDir)
  if sticky ctx dir (← getMdi mdi).md then return (-EACCES, mdi, mdiDir)
  return (0, mdi, mdiDir)

/-- The end of `unlink_hardlink`: without the link of the target, the name becomes usable again. -/
def finishUnlink (mdiS : Nat) (err : Int) : Client Int := do
  if err ≠ 0 then
    setMD mdiS fun md => { md with linkCount := 1 }
    require (putMetadata mdiS)
    return err
  require (deleteMetadata [] mdiS)
  return 0

/-- `unlink_hardlink`. -/
def unlinkHardlink (fuel : Nat) (held : List Str) (userPath : Str) (mdiT : Nat) : Client Int := do
  let (err, mdiS) ← getMetadataUserpath fuel userPath
  if err ≠ 0 then return err
  let mdiS ← deref mdiS
  let source ← getMdi mdiS
  if source.md.type ≠ .HARDLINK_S then exit
  if source.md.linkCount = 0 then return -EINVAL
  setMD mdiS fun md => { md with linkCount := 0 }
  let err ← putMetadata mdiS
  if err ≠ 0 then return err
  setMD mdiT fun md => { md with linkCount := decrement md.linkCount }
  if (← getMdi mdiT).md.linkCount = 0 then
    let err ← deleteMetadata held mdiT
    finishUnlink mdiS err
  else
    updateACtime mdiT
    let err ← putMetadata mdiT
    finishUnlink mdiS err

/-- `hflat_unlink` after the metadata is gone; `unlink` is used for the name of a mapping that is
    no longer used. -/
def unlinkNames (unlink : Str → Client Int) (fuel : Nat) (userPath : Str) (mdi mdiDir : Nat)
    (directory : Bool) : Client Int := do
  if hasMapping (← get).pmap userPath then
    require (databaseOperation ⟨.REMOVED, userPath, []⟩ fuel)
  if directory then require (unlinkForceUpdate fuel userPath)
  require (deleteDirectoryEntry env mdiDir (pathToFilename userPath) fuel)
  let reuse := (← getMdi mdi).systemPath
  if hasMapping (← get).pmap reuse then
    let err ← hflatCreate env ctx fuel reuse S_IFREG
    if err = 0 then
      let _ ← unlink reuse
      return 0
    return 0
  return 0

/-- `hflat_unlink`: the metadata, the block that the loop reaches, and the directory entry. -/
def hflatUnlink : Nat → Str → Client Int
  | 0, _ => exit
  | fuel + 1, userPath => do
      let (err, mdi, mdiDir) ← unlinkLookup env ctx (fuel + 1) userPath
      if err ≠ 0 then return err
      let md := (← getMdi mdi).md
      -- the directory is stored again for its time stamps
      let dir ← getMdi mdiDir
      let held := if env.posixFull then [dir.systemPath] else []
      let err ← if md.type = .HARDLINK_T then unlinkHardlink (fuel + 1) held userPath mdi
        else deleteMetadata held mdi
      if err = -EAGAIN then hflatUnlink fuel userPath
      else if err ≠ 0 then return err
      else unlinkNames env ctx (hflatUnlink fuel) (fuel + 1) userPath mdi mdiDir (S_ISDIR md.mode)

end Operations

/-! ## Sessions -/

/-- The operations of a session. -/
inductive Op where
  | create (userPath : Str) (mode : Nat)
  | write (append : Bool) (userPath buf : Str) (offset : Nat)
  | fsync (append : Bool) (userPath : Str)
  | getattr (userPath : Str)
  | truncate (userPath : Str) (offset : Nat)
  | chmod (userPath : Str) (mode : Nat)
  | chown (userPath : Str) (uid gid : Option Nat)
  | utimens (userPath : Str) (atime mtime : Int)
  | setxattr (userPath name value : Str) (flags : Nat)
  | removexattr (userPath name : Str)
  | unlink (userPath : Str)
  deriving DecidableEq, Repr

section Sessions

variable (env : Env) (blocksize : Nat)

/-- An operation of a caller, with a bound on the depth of its recursion. -/
def runOp (fuel : Nat) (ctx : Context) : Op → Client Unit
  | .create userPath mode => do let _ ← hflatCreate env ctx fuel userPath mode
  | .write append userPath buf offset => do
      let _ ← hflatWrite env ctx blocksize append userPath offset fuel buf
  | .fsync append userPath => do let _ ← hflatFsync env ctx blocksize [] append userPath fuel
  | .getattr userPath => do let _ ← hflatGetattr env ctx blocksize fuel userPath
  | .truncate userPath offset => do let _ ← hflatTruncate env ctx blocksize userPath offset fuel
  | .chmod userPath mode => do let _ ← hflatChmod env ctx fuel userPath mode
  | .chown userPath uid gid => do let _ ← hflatChown env ctx fuel userPath uid gid
  | .utimens userPath atime mtime => do let _ ← hflatUtimens env ctx userPath atime mtime fuel
  | .setxattr userPath name value flags => do
      let _ ← hflatSetxattr env ctx userPath name value flags fuel
  | .removexattr userPath name => do let _ ← hflatRemovexattr env ctx userPath name fuel
  | .unlink userPath => do let _ ← hflatUnlink env ctx fuel userPath

/-- Operations one after the other. -/
def session (fuel : Nat) : List (Context × Op) → Client Unit
  | [] => return ()
  | (ctx, op) :: ops => do
      runOp env blocksize fuel ctx op
      session fuel ops

end Sessions

end HFlat.Fuse.Lone
