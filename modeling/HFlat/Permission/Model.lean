/-
  Path permissions: metadata keys, the lookup cache, `lookup` and `lookup_parent` (`lookup.cc`),
  the inheritance of path permissions (`fuseops/file.cc`, `metadata_info.cc`) and the operations
  that create objects and change their permissions (`fuseops/file.cc`, `fuseops/permission.cc`),
  for one client.

  A `std::shared_ptr<MetadataInfo>` is an address of the client's heap, so that the cache and the
  operations share objects as they do in the source. What the client does not control is given by
  `Env`. A failed `assert`, a `REQ_0` or `REQ_TRUE` that ends the process and a null pointer end
  the run (`none`). Time stamps, sizes and attributes of the metadata that no path permission
  depends on are left out.
-/
import HFlat.Lib.Total
import HFlat.PathMap.Namespace
import HFlat.Replication.Drive

namespace HFlat.Permission

open HFlat.Lib HFlat.PathMap HFlat.Replication

/-! ## Metadata (`metadata.proto`) -/

/-- `hflat::Metadata_InodeType`. A `HARDLINK_S` stands for a link, a `HARDLINK_T` holds the metadata of
    all links of a file. -/
inductive InodeType where
  | POSIX | HARDLINK_T | HARDLINK_S | FORCE_UPDATE
  deriving DecidableEq, Repr

/-- `hflat::Metadata_ReachabilityType`: who passes an entry. -/
inductive ReachabilityType where
  | UID | GID | UID_OR_GID | NOT_UID | NOT_GID | GID_REQ_UID
  deriving DecidableEq, Repr

/-- `hflat::Metadata_ReachabilityEntry`: a type with the user and the group that it is about. -/
structure ReachabilityEntry where
  type : ReachabilityType
  gid : Nat
  uid : Nat
  deriving DecidableEq, Repr

/-- The fields of `hflat::Metadata` that decide who may reach an object. -/
structure Metadata where
  type : InodeType
  uid : Nat
  gid : Nat
  mode : Nat
  inodeNumber : Nat
  pathPermissionVerified : Nat
  pathPermission : List ReachabilityEntry
  pathPermissionChildren : List ReachabilityEntry
  deriving DecidableEq, Repr

/-- A message with no field set. -/
def Metadata.empty : Metadata := ⟨.POSIX, 0, 0, 0, 0, 0, [], []⟩

/-- The bits of a mode that hold the file type. -/
def S_IFMT : Nat := 0o170000

/-- The file type of directories. -/
def S_IFDIR : Nat := 0o040000

/-- The file type of regular files. -/
def S_IFREG : Nat := 0o100000

/-- The set-user-ID bit. -/
def S_ISUID : Nat := 0o4000

/-- The set-group-ID bit. -/
def S_ISGID : Nat := 0o2000

/-- Execute permission of the owner. -/
def S_IXUSR : Nat := 0o100

/-- Execute permission of the group. -/
def S_IXGRP : Nat := 0o010

/-- Execute permission of others. -/
def S_IXOTH : Nat := 0o001

/-- `access` for writing. -/
def W_OK : Nat := 2

/-- The file type of a mode. -/
def fileType (mode : Nat) : Nat := mode &&& S_IFMT

/-- The mode is that of a directory. -/
def S_ISDIR (mode : Nat) : Bool := fileType mode = S_IFDIR

/-- The mode is that of a regular file. -/
def S_ISREG (mode : Nat) : Bool := fileType mode = S_IFREG

/-! ## Path permissions -/

/-- The caller of an operation (`fuse_get_context`). -/
structure Context where
  uid : Nat
  gid : Nat
  deriving DecidableEq, Repr

/-- The caller meets one reachability entry. -/
def passes (ctx : Context) (e : ReachabilityEntry) : Bool :=
  match e.type with
  | .UID => ctx.uid = e.uid
  | .GID => ctx.gid = e.gid
  | .UID_OR_GID => ctx.uid = e.uid ∨ ctx.gid = e.gid
  | .NOT_GID => ctx.gid ≠ e.gid
  | .NOT_UID => ctx.uid ≠ e.uid
  | .GID_REQ_UID => ctx.gid ≠ e.gid ∨ ctx.uid = e.uid

/-- `check_path_permissions`: the caller has to pass every entry. -/
def checkPathPermissions (ctx : Context) : List ReachabilityEntry → Int
  | [] => 0
  | e :: es => if passes ctx e then checkPathPermissions ctx es else -EACCES

/-- The entries that `computePathPermissionChildren` derives from mode, user and group, before it
    removes duplicates. -/
def derivedEntries (md : Metadata) : List ReachabilityEntry :=
  let user := md.mode &&& S_IXUSR ≠ 0
  let group := md.mode &&& S_IXGRP ≠ 0
  let other := md.mode &&& S_IXOTH ≠ 0
  let entry (type : ReachabilityType) : ReachabilityEntry := ⟨type, md.gid, md.uid⟩
  (if ¬ other then
      (if user ∧ group then [entry .UID_OR_GID] else []) ++
      (if user ∧ ¬ group then [entry .UID] else []) ++
      (if ¬ user ∧ group then [entry .GID] else [])
    else []) ++
  (if ¬ user then [entry .NOT_UID] else []) ++
  (if ¬ group then
      (if ¬ user then [entry .NOT_GID] else []) ++
      (if user ∧ other then [entry .GID_REQ_UID] else [])
    else [])

/-- The loop over `v` for one entry `p` of `path_permission`, `none` if the iterator passes the
    end. -/
def scan (p : ReachabilityEntry) : List ReachabilityEntry → Option (List ReachabilityEntry)
  | [] => some []
  | [e] => if p = e then none else some [e]
  | e :: e' :: es =>
      -- after `erase` the iterator is at `e'`, and is incremented
      if p = e then (scan p es).map (e' :: ·) else (scan p (e' :: es)).map (e :: ·)

/-- The loop over `v`, for one entry of `path_permission` after the other. -/
def removeDuplicates (pathPermission v : List ReachabilityEntry) : Option (List ReachabilityEntry) :=
  pathPermission.foldlM (fun v p => scan p v) v

/-- The entries that the loop leaves, as long as its iterator stays in range. -/
def withoutDuplicates (pathPermission v : List ReachabilityEntry) : List ReachabilityEntry :=
  (removeDuplicates pathPermission v).getD v

/-- What the client does not control. -/
structure Env where
  /-- the `n`-th generated version -/
  uuid : Nat → Str
  /-- the cache entries that have expired or been evicted at the `n`-th access -/
  drops : Nat → Str → Bool
  /-- the loop that removes, from the second list, duplicates of entries of the first one: the
      code has `withoutDuplicates`, and nothing is said of what it leaves past the end -/
  removeDuplicates : List ReachabilityEntry → List ReachabilityEntry → List ReachabilityEntry
  /-- directory time stamps are kept (`PosixMode::FULL`) -/
  posixFull : Bool

/-- `computePathPermissionChildren`: the metadata, and whether it has changed. -/
def computePathPermissionChildren (env : Env) (md : Metadata) : Metadata × Bool :=
  let v := env.removeDuplicates md.pathPermission (derivedEntries md)
  if md.pathPermissionChildren.length ≠ v.length ∨ ∃ e ∈ v, e ∉ md.pathPermissionChildren then
    ({ md with pathPermissionChildren := v }, true)
  else (md, false)

/-- The path permissions of the directory, and those precomputed for its children. -/
def copyPathPermissions (md parent : Metadata) : Metadata :=
  { md with
    pathPermission := parent.pathPermission ++ parent.pathPermissionChildren
    pathPermissionVerified := parent.pathPermissionVerified }

/-- `inherit_path_permissions`. -/
def inheritPathPermissions (env : Env) (md parent : Metadata) : Metadata :=
  let md := copyPathPermissions md parent
  if S_ISDIR md.mode then (computePathPermissionChildren env md).1 else md

/-! ## The client -/

/-- The fields of `MetadataInfo`: the key, the version read or stored last, and the metadata. -/
structure MetadataInfo where
  systemPath : Str
  keyVersion : Str
  md : Metadata
  deriving DecidableEq, Repr

/-- The drives, the snapshot of path mappings and the memory of the client. -/
structure FS where
  /-- metadata keys -/
  store : Str → Option (KineticRecord Metadata)
  /-- keys of directory entries -/
  direntries : Str → Bool
  heap : Nat → MetadataInfo
  /-- first free address of the heap -/
  next : Nat
  lookupCache : Str → Option Nat
  pmap : PathMapDB
  inumBase : Nat
  inumCounter : Nat
  /-- version of the key `inode_generation` -/
  inumToken : Nat
  /-- number of versions generated so far -/
  uuids : Nat
  /-- number of cache accesses so far -/
  clock : Nat

/-- Computations of the client. A failed assertion ends them. -/
abbrev M := StateT FS Option

/-- The object at address `mdi` becomes `x`. -/
def FS.setObject (fs : FS) (mdi : Nat) (x : MetadataInfo) : FS :=
  { fs with heap := Function.update fs.heap mdi x }

/-- `new MetadataInfo(key)` at address `next`. -/
def FS.alloc (fs : FS) (key : Str) : FS :=
  { fs with heap := Function.update fs.heap fs.next ⟨key, ['0'], Metadata.empty⟩, next := fs.next + 1 }

/-- The cache entry of `key` becomes `entry`. -/
def FS.setCache (fs : FS) (key : Str) (entry : Option Nat) : FS :=
  { fs with lookupCache := Function.update fs.lookupCache key entry }

/-- Some cache entries have expired or are evicted. -/
def FS.dropped (fs : FS) (env : Env) : FS :=
  { fs with
    lookupCache := fun k => if env.drops fs.clock k then none else fs.lookupCache k
    clock := fs.clock + 1 }

/-- The run ends. -/
def fail {α : Type} : M α := StateT.lift none

/-- The object at an address. -/
def getMdi (mdi : Nat) : M MetadataInfo := do return (← get).heap mdi

/-- Changes the object at an address. -/
def setMdi (mdi : Nat) (f : MetadataInfo → MetadataInfo) : M Unit :=
  modify fun fs => fs.setObject mdi (f (fs.heap mdi))

/-- Changes the metadata of the object at an address. -/
def setMD (mdi : Nat) (f : Metadata → Metadata) : M Unit :=
  setMdi mdi fun x => { x with md := f x.md }

/-- `std::make_shared<MetadataInfo>` for a key: the first free address. -/
def newMetadataInfo (key : Str) : M Nat := do
  let mdi := (← get).next
  modify fun fs => fs.alloc key
  return mdi

/-- `util::generate_uuid`. -/
def generateUuid (env : Env) : M Str := do
  let n := (← get).uuids
  modify fun fs => { fs with uuids := n + 1 }
  return env.uuid n

/-- `grab_inode_generation_token` and `generate_inode_number`. No other client takes a token. -/
def generateInodeNumber : M Nat := do
  modify fun fs =>
    if fs.inumCounter + 1 = 65535 then
      { fs with inumBase := fs.inumToken, inumToken := fs.inumToken + 65535, inumCounter := 0 }
    else { fs with inumCounter := fs.inumCounter + 1 }
  return (← get).inumBase + (← get).inumCounter

/-! ### Lookup cache (`lru_cache.h`) -/

/-- `lookup_cache.get`; entries may have expired before. -/
def cacheGet (env : Env) (key : Str) : M (Option Nat) := do
  modify fun fs => fs.dropped env
  return (← get).lookupCache key

/-- `REQ_TRUE(lookup_cache.add(key, mdi))`. -/
def cacheAdd (env : Env) (key : Str) (mdi : Nat) : M Unit := do
  modify fun fs => fs.dropped env
  match (← get).lookupCache key with
  | some _ => fail
  | none => modify fun fs => fs.setCache key (some mdi)

/-- `lookup_cache.invalidate`. -/
def cacheInvalidate (key : Str) : M Unit := modify fun fs => fs.setCache key none

/-! ### Metadata keys (`kinetic_helper.cc`) -/

/-- `get_metadata`: reads the record of the object's key into the object. -/
def getMetadata (mdi : Nat) : M Int := do
  match (← get).store (← getMdi mdi).systemPath with
  | none => return -ENOENT
  | some record =>
      setMdi mdi fun x => { x with md := record.value, keyVersion := record.version }
      return 0

/-- `put_metadata`: stores the object, if the key still has the version of the object. -/
def putMetadata (env : Env) (mdi : Nat) : M Int := do
  let newVersion ← generateUuid env
  let x ← getMdi mdi
  match putSame ((← get).store x.systemPath) x.keyVersion ⟨x.md, newVersion⟩ with
  | (.OK, record) =>
      modify fun fs => { fs with store := Function.update fs.store x.systemPath record }
      setMdi mdi fun x => { x with keyVersion := newVersion }
      return 0
  | _ =>
      cacheInvalidate x.systemPath
      return -EAGAIN

/-- `put_metadata_forced`, with a bound on the number of retries. -/
def putMetadataForced (env : Env) (mdi : Nat) (update : Metadata → Metadata) : Nat → M Int
  | 0 => fail
  | fuel + 1 => do
      setMD mdi update
      let err ← putMetadata env mdi
      if err ≠ -EAGAIN then return err
      let err ← getMetadata mdi
      if err ≠ 0 then return err
      putMetadataForced env mdi update fuel

/-- `create_metadata`: stores the object under a key that must not exist. -/
def createMetadata (env : Env) (mdi : Nat) : M Int := do
  let newVersion ← generateUuid env
  let x ← getMdi mdi
  match putSame ((← get).store x.systemPath) [] ⟨x.md, newVersion⟩ with
  | (.OK, record) =>
      modify fun fs => { fs with store := Function.update fs.store x.systemPath record }
      setMdi mdi fun x => { x with keyVersion := newVersion }
      return 0
  | _ => return -EEXIST

/-! ### Database -/

/-- `database_update`. The client has appended every entry of the log itself, so its snapshot is
    the newest. -/
def databaseUpdate : M Int := return -EALREADY

/-- `database_operation`. No other client appends to the log, so the first attempt succeeds. -/
def databaseOperation (entry : DbEntry) : M Int := do
  match applyEntry (← get).pmap entry with
  | none => fail
  | some db =>
      modify fun fs => { fs with pmap := db }
      return 0

/-! ## Lookup (`lookup.cc`) -/

/-- `find_last_of("/:")`. -/
def findLastSeparator : Str → Option Nat
  | [] => none
  | c :: r =>
      match findLastSeparator r with
      | some i => some (i + 1)
      | none => if c = '/' ∨ c = ':' then some 0 else none

/-- The path that `lookup_parent` looks up. -/
def cutParent (userPath : Str) : Option Str :=
  match findLastSeparator userPath with
  | none => none
  | some 0 => some (userPath.take 1)
  | some pos => some (userPath.take pos)

section Lookup

variable (env : Env) (ctx : Context)

/-- `lookup_parent`, given `lookup`. An error comes with the object if it was found. -/
def lookupParentWith (lookup : Str → M (Int × Option Nat)) (userPath : Str) :
    M (Int × Option Nat) :=
  match cutParent userPath with
  | none => return (-EINVAL, none)
  | some path => do
      let (err, mdiParent) ← lookup path
      if err ≠ 0 then return (err, mdiParent)
      match mdiParent with
      | none => fail
      | some parent =>
          let md := (← getMdi parent).md
          if ¬ S_ISDIR md.mode then return (-ENOTDIR, mdiParent)
          return (checkPathPermissions ctx md.pathPermissionChildren, mdiParent)

/-- The final check of `lookup`. -/
def finalCheck (mdi : Nat) : M (Int × Option Nat) := do
  return (checkPathPermissions ctx (← getMdi mdi).md.pathPermission, some mdi)

/-- The end of step 4 of `lookup` for stale path permissions. -/
def inheritFromParent (lookup : Str → M (Int × Option Nat)) (userPath : Str) (mdi parent : Nat) :
    M (Int × Option Nat) := do
  let mdParent := (← getMdi parent).md
  setMD mdi fun md => inheritPathPermissions env md mdParent
  let err ← putMetadata env mdi
  if err = -EAGAIN then lookup userPath
  else if err ≠ 0 then return (err, some mdi)
  else finalCheck ctx mdi

/-- Step 4 of `lookup`: check path permissions, update them in case of staleness. -/
def checkStale (lookup : Str → M (Int × Option Nat)) (userPath : Str)
    (pathPermissionTimeStamp : Int) (mdi : Nat) : M (Int × Option Nat) := do
  if ((← getMdi mdi).md.pathPermissionVerified : Int) < pathPermissionTimeStamp then
    let (err, mdiParent) ← lookupParentWith ctx lookup userPath
    if err ≠ 0 ∧ err ≠ -EACCES then return (err, some mdi)
    match mdiParent with
    | none => fail
    | some parent => inheritFromParent env ctx lookup userPath mdi parent
  else finalCheck ctx mdi

/-- Steps 3 and 4 of `lookup`: special inode types, then permissions. -/
def lookupFound (lookup : Str → M (Int × Option Nat)) (userPath key : Str)
    (pathPermissionTimeStamp : Int) (mdi : Nat) (cached : Bool) : M (Int × Option Nat) := do
  let md := (← getMdi mdi).md
  if md.inodeNumber = 0 then return (-ENOENT, some mdi)
  match md.type with
  | .HARDLINK_S =>
      if ¬ cached then
        let mdiSource ← newMetadataInfo key
        setMD mdiSource fun x => { x with type := .HARDLINK_S, inodeNumber := md.inodeNumber }
        cacheAdd env key mdiSource
      lookup (lit "hardlink_" ++ toStr md.inodeNumber)
  | .FORCE_UPDATE =>
      let err ← databaseUpdate
      cacheInvalidate key
      if err ≠ 0 then return (err, some mdi)
      lookup userPath
  | _ =>
      if ¬ cached then cacheAdd env key mdi
      checkStale env ctx lookup userPath pathPermissionTimeStamp mdi

/-- `lookup`, with the depth of its recursion as fuel: error code and object. -/
def lookup : Nat → Str → M (Int × Option Nat)
  | 0, _ => fail
  | fuel + 1, userPath => do
      match toSystemPath (← get).pmap (fuel + 1) userPath .LOOKUP with
      | none => fail
      | some (key, pathPermissionTimeStamp) =>
          if pathPermissionTimeStamp < 0 then return (pathPermissionTimeStamp, none)
          match ← cacheGet env key with
          | some mdi => lookupFound env ctx (lookup fuel) userPath key pathPermissionTimeStamp mdi true
          | none =>
              let mdi ← newMetadataInfo key
              let err ← getMetadata mdi
              if err = -ENOENT then
                cacheAdd env key mdi
                lookupFound env ctx (lookup fuel) userPath key pathPermissionTimeStamp mdi false
              else if err ≠ 0 then
                cacheInvalidate key
                return (err, some mdi)
              else
                lookupFound env ctx (lookup fuel) userPath key pathPermissionTimeStamp mdi false

/-- `lookup_parent`. -/
def lookupParent (fuel : Nat) (userPath : Str) : M (Int × Option Nat) :=
  lookupParentWith ctx (lookup env ctx fuel) userPath

end Lookup

/-! ## Operations (`fuseops/file.cc`, `fuseops/directory.cc`, `fuseops/permission.cc`) -/

section Operations

variable (env : Env) (ctx : Context)

/-- `check_access`: the class of the caller against the bits of the mode. -/
def checkAccess (md : Metadata) (mode : Nat) : Int :=
  if ctx.uid = 0 then 0
  else if mode = 0 then 0
  else if md.uid = ctx.uid then
    if mode &&& (md.mode >>> 6) = mode then 0 else -EACCES
  else if md.gid = ctx.gid then
    if mode &&& (md.mode >>> 3) = mode then 0 else -EACCES
  else if mode &&& md.mode = mode then 0
  else -EACCES

/-- `path_to_filename`. -/
def pathToFilename (path : Str) : Str :=
  match findLastSeparator path with
  | none => path
  | some pos => path.drop (pos + 1)

/-- `create_directory_entry`. -/
def createDirectoryEntry (mdiParent : Nat) (filename : Str) (fuel : Nat) : M Int := do
  let key := toStr (← getMdi mdiParent).md.inodeNumber ++ ['|'] ++ filename
  if (← get).direntries key then return -EEXIST
  modify fun fs => { fs with direntries := Function.update fs.direntries key true }
  if env.posixFull then
    -- only the time stamps of the directory change; an error is only reported
    let _ ← putMetadataForced env mdiParent id fuel
    return 0
  return 0

/-- `initialize_metadata`. -/
def initializeMetadata (mdi mdiParent : Nat) (mode : Nat) : M Unit := do
  let inode ← generateInodeNumber
  let parent := (← getMdi mdiParent).md
  setMD mdi fun md => inheritPathPermissions env
    { md with type := .POSIX, gid := ctx.gid, uid := ctx.uid, mode := mode, inodeNumber := inode }
    parent

/-- `hflat_create`: metadata first, then the directory entry. -/
def hflatCreate (fuel : Nat) (userPath : Str) (mode : Nat) : M Int := do
  let (err, mdi) ← lookup env ctx fuel userPath
  if err = 0 then return -EEXIST
  if err ≠ -ENOENT then return err
  let (err, mdiDir) ← lookupParent env ctx fuel userPath
  if err = -ENOENT ∧ ':' ∈ userPath then return -ENOTDIR
  if err ≠ 0 then return err
  match mdi, mdiDir with
  | some mdi, some mdiDir =>
      let err := checkAccess ctx (← getMdi mdiDir).md W_OK
      if err ≠ 0 then return err
      let err ← createDirectoryEntry env mdiDir (pathToFilename userPath) fuel
      if err ≠ 0 then return err
      initializeMetadata env ctx mdi mdiDir mode
      let err ← createMetadata env mdi
      if err ≠ 0 then fail
      return 0
  | _, _ => fail

/-- `hflat_mkdir`. -/
def hflatMkdir (fuel : Nat) (userPath : Str) (mode : Nat) : M Int :=
  hflatCreate env ctx fuel userPath (mode ||| S_IFDIR)

/-- `permission_lookup`. Arguments that are `-1` in the source are `none` here. -/
def permissionLookup (fuel : Nat) (userPath : Str) (gid : Option Nat) : M (Int × Option Nat) := do
  let (err, mdi) ← lookup env ctx fuel userPath
  if err ≠ 0 then return (err, mdi)
  if ctx.uid = 0 then return (0, mdi)
  match mdi with
  | none => fail
  | some p =>
      if ctx.uid ≠ (← getMdi p).md.uid then return (-EPERM, mdi)
      if gid ≠ none ∧ gid ≠ some ctx.gid then return (-EPERM, mdi)
      return (0, mdi)

/-- The mode that `do_permission_change` sets; `none` for no change. -/
def changedMode (md : Metadata) (mode uid gid : Option Nat) : Option Nat :=
  let mode := mode.map fun m =>
    if ctx.uid ≠ 0 ∧ ctx.gid ≠ md.gid ∧ S_ISREG m then m &&& (S_ISGID ^^^ (2 ^ 32 - 1)) else m
  if ctx.uid ≠ 0 ∧ (uid ≠ none ∨ gid ≠ none) then
    some (md.mode &&& (S_ISUID ^^^ (2 ^ 32 - 1)) &&& (S_ISGID ^^^ (2 ^ 32 - 1)))
  else mode

/-- What `do_permission_change` writes into the metadata; `none` leaves a field as it is. -/
def changeMetadata (md : Metadata) (mode uid gid : Option Nat) : Metadata :=
  { md with uid := uid.getD md.uid, gid := gid.getD md.gid, mode := mode.getD md.mode }

/-- The end of `do_permission_change`: note in the database if path permissions changed. -/
def notePermissionChange (fuel : Nat) (userPath : Str) (mdi : Nat) : M Int := do
  let md := (← getMdi mdi).md
  if S_ISDIR md.mode then
    let (md, changed) := computePathPermissionChildren env md
    setMD mdi fun _ => md
    if changed then
      let err ← databaseOperation ⟨.NONE, userPath, []⟩
      if err ≠ 0 then fail
      let version := (← get).pmap.snapshotVersion
      let err ← putMetadataForced env mdi (fun md => { md with pathPermissionVerified := version }) fuel
      if err ≠ 0 ∧ err ≠ -ENOENT then fail
      return 0
    return 0
  return 0

/-- `do_permission_change`, with a bound on the number of retries. -/
def doPermissionChange (userPath : Str) : Nat → Option Nat → Option Nat → Option Nat → M Int
  | 0, _, _, _ => fail
  | fuel + 1, mode, uid, gid => do
      let (err, mdi) ← permissionLookup env ctx (fuel + 1) userPath gid
      if err ≠ 0 then return err
      match mdi with
      | none => fail
      | some mdi =>
          let md := (← getMdi mdi).md
          -- assert(mode == (mode_t)-1)
          if ctx.uid ≠ 0 ∧ (uid ≠ none ∨ gid ≠ none) ∧ mode ≠ none then fail
          let mode := changedMode ctx md mode uid gid
          setMD mdi fun md => changeMetadata md mode uid gid
          let err ← putMetadata env mdi
          if err = -EAGAIN then doPermissionChange userPath fuel mode uid gid
          else if err ≠ 0 then return err
          else notePermissionChange env (fuel + 1) userPath mdi

/-- `hflat_chmod`. -/
def hflatChmod (fuel : Nat) (userPath : Str) (mode : Nat) : M Int :=
  doPermissionChange env ctx userPath fuel (some mode) none none

/-- `hflat_chown`. -/
def hflatChown (fuel : Nat) (userPath : Str) (uid gid : Option Nat) : M Int :=
  doPermissionChange env ctx userPath fuel none uid gid

end Operations

/-! ## Runs -/

/-- The operations of a run, with the caller and the path. -/
inductive Op where
  | mkdir (ctx : Context) (userPath : Str) (mode : Nat)
  | create (ctx : Context) (userPath : Str) (mode : Nat)
  | chmod (ctx : Context) (userPath : Str) (mode : Nat)
  | chown (ctx : Context) (userPath : Str) (uid gid : Option Nat)
  | lookup (ctx : Context) (userPath : Str)

/-- The path that an operation is called with. -/
def Op.userPath : Op → Str
  | mkdir _ u _ => u
  | create _ u _ => u
  | chmod _ u _ => u
  | chown _ u _ _ => u
  | lookup _ u => u

/-- One operation; lookups and retries may nest as deep as the path is long. -/
def Op.run (env : Env) (op : Op) : M Int :=
  let fuel := op.userPath.length + 2
  match op with
  | .mkdir ctx u mode => hflatMkdir env ctx fuel u mode
  | .create ctx u mode => hflatCreate env ctx fuel u mode
  | .chmod ctx u mode => hflatChmod env ctx fuel u mode
  | .chown ctx u uid gid => hflatChown env ctx fuel u uid gid
  | .lookup ctx u => do return (← HFlat.Permission.lookup env ctx fuel u).1

/-- A new file system, as `hflat_init` leaves it for user `ctx`. -/
def FS.init (env : Env) (ctx : Context) : FS where
  store := fun k =>
    if k = root then some ⟨⟨.POSIX, ctx.uid, ctx.gid, S_IFDIR ||| 0o777, 1, 0, [], []⟩, env.uuid 0⟩ else none
  direntries := fun _ => false
  heap := fun _ => ⟨[], [], Metadata.empty⟩
  next := 0
  lookupCache := fun _ => none
  pmap := PathMapDB.empty
  inumBase := 0
  inumCounter := 1
  inumToken := 65535
  uuids := 1
  clock := 0

end HFlat.Permission
