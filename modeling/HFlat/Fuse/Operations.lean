/-
  The operations of a client on names: `create`, `unlink`, `rmdir`, `link`, `rename` and updates of
  metadata (`fuseops/*.cc`), and what a client does one after the other (`session`).

  Retries and lookups are bounded by `fuel`. The deletion of data blocks in the background is left
  out.
-/
import HFlat.Fuse.Model

namespace HFlat.Fuse

open HFlat.Lib HFlat.PathMap HFlat.Permission
open HFlat.Replication (KineticRecord StatusCode)

/-- The file type of symbolic links. -/
def S_IFLNK : Nat := 0o120000

/-- The sticky bit. -/
def S_ISVTX : Nat := 0o1000

/-- `access` for search. -/
def X_OK : Nat := 1

/-- Directory not empty. -/
def ENOTEMPTY : Int := 39

/-- The mode is that of a symbolic link. -/
def S_ISLNK (mode : Nat) : Bool := fileType mode = S_IFLNK

section Operations

variable (me : Nat) (env : Env) (ctx : Context)

/-- `REQ_0`. -/
def require (m : Client Int) : Client Unit := do
  let err ← m
  if err ≠ 0 then exit

/-- A pointer that the code dereferences. -/
def deref (mdi : Option Nat) : Client Nat :=
  match mdi with
  | some mdi => return mdi
  | none => exit

/-- The sticky bit is set on the directory and the caller owns neither it nor the file. -/
def sticky (dir md : Inode) : Bool :=
  ctx.uid ≠ 0 ∧ dir.mode &&& S_ISVTX ≠ 0 ∧ ctx.uid ≠ dir.uid ∧ ctx.uid ≠ md.uid

/-- `REQ_0(database_operation(entry))` for an entry that removes a mapping. -/
def removeMapping (userPath : Str) (fuel : Nat) : Client Unit :=
  require (databaseOperation ⟨.REMOVED, userPath, []⟩ fuel)

/-! ## Create (`fuseops/file.cc`) -/

/-- `initialize_metadata`: an inode number, the caller as the owner, and the path permissions of the
    directory. -/
def initializeMetadata (mdi mdiParent mode : Nat) : Client Unit := do
  let inode : Nat ← perform .inodeNumber
  let parent := (← getMdi mdiParent).md
  setMD mdi fun md => inheritPathPermissions env
    { md with type := .POSIX, gid := ctx.gid, uid := ctx.uid, mode := mode, inodeNumber := inode }
    parent

/-- `hflat_create` after the parent was found. -/
def createIn (fuel : Nat) (userPath : Str) (mode mdi mdiDir : Nat) : Client Int := do
  let dir ← getMdi mdiDir
  let err := checkAccess ctx dir.md.toMetadata W_OK
  if err ≠ 0 then return err
  let err ← createDirectoryEntry me env mdiDir (pathToFilename userPath) fuel
  if err ≠ 0 then return err
  initializeMetadata env ctx mdi mdiDir mode
  require (createMetadata me .create mdi)
  return 0

/-- `hflat_create`: metadata first, then the directory entry. -/
def hflatCreate (fuel : Nat) (userPath : Str) (mode : Nat) : Client Int := do
  let (err, mdi) ← lookup me env ctx fuel userPath none
  if err = 0 then return -EEXIST
  if err ≠ -ENOENT then return err
  let (err, mdiDir) ← lookupParent me env ctx fuel userPath
  if err = -ENOENT ∧ ':' ∈ userPath then return -ENOTDIR
  if err ≠ 0 then return err
  createIn me env ctx fuel userPath mode (← deref mdi) (← deref mdiDir)

/-! ## Updates of metadata -/

/-- A change of metadata that the file system makes in place: it may be refused, and it leaves
    type and inode number as they are. -/
structure Change where
  apply : Inode → Except Int Inode
  keeps : ∀ md md', apply md = .ok md' → md'.type = md.type ∧ md'.inodeNumber = md.inodeNumber

/-- The operations that look up a path, change the metadata and store it with `put_metadata`, and
    start again if another client has stored the key meanwhile. -/
def hflatUpdate (userPath : Str) (change : Change) : Nat → Client Int
  | 0 => exit
  | fuel + 1 => do
      let (err, mdi) ← lookup me env ctx (fuel + 1) userPath none
      if err ≠ 0 then return err
      let mdi ← deref mdi
      match change.apply (← getMdi mdi).md with
      | .error err => return err
      | .ok md =>
          setMD mdi fun _ => md
          let err ← putMetadata me .update mdi
          if err = -EAGAIN then hflatUpdate userPath change fuel
          else return err

/-- `hflat_utimens`; time stamps are not part of the metadata here. -/
def Change.utimens : Change where
  apply md := .ok md
  keeps := by
    intro md md' h
    cases h
    exact ⟨rfl, rfl⟩

/-- `setxattr` must create the attribute. -/
def XATTR_CREATE : Nat := 1

/-- `setxattr` must find the attribute. -/
def XATTR_REPLACE : Nat := 2

/-- Attribute not found. -/
def ENOATTR : Int := 61

/-- The first attribute of that name gets the value. -/
def setFirst (name value : Str) : List (Str × Str) → List (Str × Str)
  | [] => []
  | a :: xattr => if a.1 = name then (name, value) :: xattr else a :: setFirst name value xattr

/-- `hflat_setxattr` on the attributes of an inode. -/
def setxattr (name value : Str) (flags : Nat) (xattr : List (Str × Str)) :
    Except Int (List (Str × Str)) :=
  let found := xattr.any (·.1 = name)
  if found ∧ flags &&& XATTR_CREATE ≠ 0 then .error (-EEXIST)
  else if ¬ found ∧ flags &&& XATTR_REPLACE ≠ 0 then .error (-ENOATTR)
  else if found then .ok (setFirst name value xattr)
  else .ok (xattr ++ [(name, value)])

/-- `hflat_setxattr` as a change of the metadata. -/
def Change.setxattr (name value : Str) (flags : Nat) : Change where
  apply md := (Fuse.setxattr name value flags md.xattr).map fun xattr => { md with xattr := xattr }
  keeps := by
    intro md md' h
    cases hx : Fuse.setxattr name value flags md.xattr with
    | error err =>
      rw [hx] at h
      cases h
    | ok xattr =>
      rw [hx] at h
      cases h
      exact ⟨rfl, rfl⟩

/-! ## Unlink (`fuseops/file.cc`, `fuseops/directory.cc`) -/

/-- `unlink_force_update`. -/
def unlinkForceUpdate (fuel : Nat) (userPath : Str) : Client Int := do
  let (err, mdiFu) ← getMetadataUserpath me fuel userPath
  if err = -ENOENT then return 0
  if err ≠ 0 then return err
  let mdiFu ← deref mdiFu
  if (← getMdi mdiFu).md.type ≠ .FORCE_UPDATE then exit
  deleteMetadata me .delete mdiFu

/-- `unlink_lookup`: error code, object and directory. -/
def unlinkLookup (fuel : Nat) (userPath : Str) : Client (Int × Nat × Nat) := do
  let (err, mdi) ← lookup me env ctx fuel userPath none
  if err ≠ 0 then return (err, 0, 0)
  let mdi ← deref mdi
  let (err, mdiDir) ← lookupParent me env ctx fuel userPath
  if err ≠ 0 then return (err, mdi, 0)
  let mdiDir ← deref mdiDir
  let dir ← getMdi mdiDir
  if checkAccess ctx dir.md.toMetadata (W_OK ||| X_OK) ≠ 0 then return (-EACCES, mdi, mdiDir)
  let x ← getMdi mdi
  if sticky ctx dir.md x.md then return (-EACCES, mdi, mdiDir)
  return (0, mdi, mdiDir)

/-- The end of `unlink_hardlink`: without the link of the target, the name becomes usable again. -/
def finishUnlink (mdiS : Nat) (err : Int) : Client Int := do
  if err ≠ 0 then
    setMD mdiS fun md => { md with linkCount := 1 }
    require (putMetadata me .restore mdiS)
    return err
  require (deleteMetadata me .deleteLink mdiS)
  return 0

/-- `unlink_hardlink`. -/
def unlinkHardlink (fuel : Nat) (userPath : Str) (mdiT : Nat) : Client Int := do
  let (err, mdiS) ← getMetadataUserpath me fuel userPath
  if err ≠ 0 then return err
  let mdiS ← deref mdiS
  let source ← getMdi mdiS
  if source.md.type ≠ .HARDLINK_S then exit
  if source.md.linkCount = 0 then return -EINVAL
  setMD mdiS fun md => { md with linkCount := 0 }
  let err ← putMetadata me .reserve mdiS
  if err ≠ 0 then return err
  setMD mdiT fun md => { md with linkCount := decrement md.linkCount }
  if (← getMdi mdiT).md.linkCount = 0 then
    let err ← deleteMetadata me .dropLink mdiT
    finishUnlink me mdiS err
  else
    let err ← putMetadata me .dropLink mdiT
    finishUnlink me mdiS err

/-- `hflat_unlink` after the metadata is gone; `unlink` is used for the name of a mapping that is
    no longer used. -/
def unlinkNames (unlink : Str → Client Int) (fuel : Nat) (userPath : Str) (mdi mdiDir : Nat)
    (directory : Bool) : Client Int := do
  if hasMapping (← get).pmap userPath then removeMapping userPath fuel
  if directory then require (unlinkForceUpdate me fuel userPath)
  require (deleteDirectoryEntry me env mdiDir (pathToFilename userPath) fuel)
  let reuse := (← getMdi mdi).systemPath
  if hasMapping (← get).pmap reuse then
    let err ← hflatCreate me env ctx fuel reuse S_IFREG
    if err = 0 then
      let _ ← unlink reuse
      return 0
    return 0
  return 0

/-- `hflat_unlink`: the metadata of the path, the directory entry, and for a hard link the metadata of
    the file. -/
def hflatUnlink : Nat → Str → Client Int
  | 0, _ => exit
  | fuel + 1, userPath => do
      let (err, mdi, mdiDir) ← unlinkLookup me env ctx (fuel + 1) userPath
      if err ≠ 0 then return err
      let md := (← getMdi mdi).md
      let err ← if md.type = .HARDLINK_T then unlinkHardlink me (fuel + 1) userPath mdi
        else deleteMetadata me .delete mdi
      if err = -EAGAIN then hflatUnlink fuel userPath
      else if err ≠ 0 then return err
      else unlinkNames me env ctx (hflatUnlink fuel) (fuel + 1) userPath mdi mdiDir (S_ISDIR md.mode)

/-- `hflat_rmdir`: refused while the range of the directory has a key. -/
def hflatRmdir (fuel : Nat) (userPath : Str) : Client Int := do
  let (err, mdi) ← lookup me env ctx fuel userPath none
  if err ≠ 0 then return err
  let mdi ← deref mdi
  let start := direntryKey (← getMdi mdi).md.inodeNumber []
  let keys : List Str ← perform (.entryRange start (start ++ [Char.ofNat 255]) 1)
  if keys ≠ [] then return -ENOTEMPTY
  let _ ← databaseUpdate
  hflatUnlink me env ctx fuel userPath

/-! ## Hard links (`fuseops/link.cc`) -/

/-- The forwarding to the target of a hard link. -/
def hardlinkS (md : Inode) (inode : Nat) : Inode :=
  { md with type := .HARDLINK_S, inodeNumber := inode, linkCount := 1 }

/-- The first link to a regular file: its metadata moves to the key of the inode, and its path gets a
    `HARDLINK_S`. -/
def toHardlinkT (mdiTarget : Nat) : Client Int := do
  let x ← getMdi mdiTarget
  if x.md.type ≠ .POSIX then exit
  let mdiSource ← newMetadataInfo x.systemPath
  setMdi mdiSource fun source =>
    { source with keyVersion := x.keyVersion, md := hardlinkS source.md x.md.inodeNumber }
  setMdi mdiTarget fun x =>
    { x with systemPath := hardlinkKey x.md.inodeNumber, md := { x.md with type := .HARDLINK_T } }
  let err ← putMetadata me .convert mdiSource
  if err ≠ 0 then return err
  require (createMetadata me .target mdiTarget)
  return 0

/-- A step of `hflat_hardlink` has failed after the directory entry was created. -/
def hardlinkFailed (retry : Client Int) (mdiDir : Nat) (origin : Str) (err : Int) (fuel : Nat) :
    Client Int := do
  require (deleteDirectoryEntry me env mdiDir (pathToFilename origin) fuel)
  if err = -EAGAIN then retry
  else return err

/-- One more link of the target, then the new name. -/
def addLink (retry : Client Int) (mdiTarget mdiOrigin mdiDir : Nat) (origin : Str) (fuel : Nat) :
    Client Int := do
  setMD mdiTarget fun md => { md with linkCount := (md.linkCount + 1) % 2 ^ 32 }
  let err ← putMetadata me .addLink mdiTarget
  if err ≠ 0 then hardlinkFailed me env retry mdiDir origin err fuel
  else
    let inode := (← getMdi mdiTarget).md.inodeNumber
    setMD mdiOrigin fun md => hardlinkS md inode
    require (createMetadata me .newLink mdiOrigin)
    return 0

/-- `hflat_hardlink` after the lookups. -/
def linkTo (retry : Client Int) (mdiTarget mdiOrigin mdiDir : Nat) (origin : Str) (fuel : Nat) :
    Client Int := do
  if S_ISDIR (← getMdi mdiTarget).md.mode then exit
  cacheInvalidate (← getMdi mdiOrigin).systemPath
  cacheInvalidate (← getMdi mdiTarget).systemPath
  let err ← createDirectoryEntry me env mdiDir (pathToFilename origin) fuel
  if err ≠ 0 then return err
  if (← getMdi mdiTarget).md.type ≠ .HARDLINK_T then
    let err ← toHardlinkT me mdiTarget
    if err ≠ 0 then hardlinkFailed me env retry mdiDir origin err fuel
    else addLink me env retry mdiTarget mdiOrigin mdiDir origin fuel
  else addLink me env retry mdiTarget mdiOrigin mdiDir origin fuel

/-- `hflat_hardlink`. -/
def hflatHardlink (target origin : Str) : Nat → Client Int
  | 0 => exit
  | fuel + 1 => do
      let (err, mdiTarget) ← lookup me env ctx (fuel + 1) target none
      if err ≠ 0 then return err
      let (err, mdiOriginDir) ← lookupParent me env ctx (fuel + 1) origin
      if err ≠ 0 then return err
      let (err, mdiTargetDir) ← lookupParent me env ctx (fuel + 1) target
      if err ≠ 0 then return err
      let mdiOriginDir ← deref mdiOriginDir
      let err := checkAccess ctx (← getMdi mdiOriginDir).md.toMetadata W_OK
      if err ≠ 0 then return err
      let err := checkAccess ctx (← getMdi (← deref mdiTargetDir)).md.toMetadata W_OK
      if err ≠ 0 then return err
      let (err, mdiOrigin) ← lookup me env ctx (fuel + 1) origin none
      if err = 0 then return -EEXIST
      if err ≠ -ENOENT then return err
      linkTo me env (hflatHardlink target origin fuel) (← deref mdiTarget) (← deref mdiOrigin)
        mdiOriginDir origin (fuel + 1)

/-! ## Rename (`fuseops/rename.cc`) -/

/-- The objects that `rename_lookup` finds. -/
structure Renaming where
  dirFrom : Nat
  dirTo : Nat
  mdiFrom : Nat
  mdiTo : Nat

/-- The checks of `rename_lookup` once everything was looked up. -/
def renameAllowed (dirFrom dirTo mdTo : Inode) : Int :=
  if sticky ctx dirTo mdTo then -EACCES
  else if checkAccess ctx dirTo.toMetadata W_OK ≠ 0 then checkAccess ctx dirTo.toMetadata W_OK
  else checkAccess ctx dirFrom.toMetadata W_OK

/-- `rename_lookup`. -/
def renameLookup (fuel : Nat) (pathFrom pathTo : Str) : Client (Except Int Renaming) := do
  if pathFrom.isPrefixOf pathTo then return .error (-EINVAL)
  let (err, dirFrom) ← lookupParent me env ctx fuel pathFrom
  if err ≠ 0 then return .error err
  let (err, dirTo) ← lookupParent me env ctx fuel pathTo
  if err ≠ 0 then return .error err
  let (err, mdiFrom) ← lookup me env ctx fuel pathFrom none
  if err ≠ 0 then return .error err
  let dirFrom ← deref dirFrom
  let dirTo ← deref dirTo
  let mdiFrom ← deref mdiFrom
  if sticky ctx (← getMdi dirFrom).md (← getMdi mdiFrom).md then return .error (-EACCES)
  let (err, mdiTo) ← lookup me env ctx fuel pathTo none
  if err ≠ 0 ∧ err ≠ -ENOENT then return .error err
  let mdiTo ← deref mdiTo
  let err := renameAllowed ctx (← getMdi dirFrom).md (← getMdi dirTo).md (← getMdi mdiTo).md
  if err ≠ 0 then return .error err
  return .ok ⟨dirFrom, dirTo, mdiFrom, mdiTo⟩

/-- `rename_regular`. -/
def renameRegular (mdiTo mdiFrom : Nat) : Client Int := do
  let source ← getMdi mdiFrom
  let dest ← getMdi mdiTo
  let why := Purpose.copy mdiFrom (dest.md.inodeNumber ≠ 0)
  let status : StatusCode ← perform (.putVersion me why dest.systemPath ⟨source.md, dest.keyVersion⟩)
  if status ≠ .OK then return - EIO
  let status : StatusCode ← perform (.delete me (.remove mdiFrom) source.systemPath none)
  if status ≠ .OK then return - EIO
  return 0

/-- `hflat_readlink` with a buffer of `PATH_MAX` bytes. -/
def hflatReadlink (fuel : Nat) (userPath : Str) : Client Str := do
  match toSystemPath (← get).pmap fuel userPath .READLINK with
  | none => exit
  | some (destination, _) => return destination.take (PATH_MAX - 1)

/-- `rename_softlink`. -/
def renameSoftlink (fuel : Nat) (pathFrom pathTo : Str) (mdiTo mdiFrom : Nat) :
    Client Int := do
  let buffer ← hflatReadlink fuel pathFrom
  removeMapping pathFrom fuel
  require (databaseOperation ⟨.SYMLINK, pathTo, buffer⟩ fuel)
  renameRegular me mdiTo mdiFrom

/-- `rename_hardlink`. -/
def renameHardlink (fuel : Nat) (pathFrom : Str) (mdiTo : Nat) : Client Int := do
  let (err, mdiFrom) ← getMetadataUserpath me fuel pathFrom
  if err ≠ 0 then exit
  let mdiFrom ← deref mdiFrom
  if (← getMdi mdiFrom).md.type ≠ .HARDLINK_S then exit
  require (renameRegular me mdiTo mdiFrom)
  cacheInvalidate (← getMdi mdiFrom).systemPath
  return 0

/-- `rename_directory`. -/
def renameDirectory (fuel : Nat) (pathFrom pathTo : Str) (r : Renaming) : Client Int := do
  require (databaseOperation ⟨.MOVE, pathFrom, pathTo⟩ fuel)
  let dir := (← getMdi r.dirFrom).systemPath
  let fuDir := if dir.length > 1 then dir ++ ['/'] else ['/']
  let mdiFu ← newMetadataInfo (fuDir ++ pathToFilename pathFrom)
  let err ← getMetadata me mdiFu
  if err = 0 ∧ (← getMdi mdiFu).md.type = .FORCE_UPDATE then
    require (deleteMetadata me .delete mdiFu)
  let inode : Nat ← perform .inodeNumber
  setMD r.mdiTo fun md => { md with type := .FORCE_UPDATE, inodeNumber := inode }
  require (createMetadata me .create r.mdiTo)
  if env.posixFull then require (putMetadataForced me r.mdiFrom fuel)
  return 0

/-- The part of `hflat_rename` that depends on the type. -/
def renameObject (fuel : Nat) (pathFrom pathTo : Str) (r : Renaming) : Client Unit := do
  let md := (← getMdi r.mdiFrom).md
  let directory := S_ISDIR md.mode
  let softlink := S_ISLNK md.mode
  let hardlink : Bool := md.type = .HARDLINK_T
  if directory then require (renameDirectory me env fuel pathFrom pathTo r)
  if softlink then require (renameSoftlink me fuel pathFrom pathTo r.mdiTo r.mdiFrom)
  if hardlink then require (renameHardlink me fuel pathFrom r.mdiTo)
  if ¬ directory ∧ ¬ hardlink ∧ ¬ softlink then require (renameRegular me r.mdiTo r.mdiFrom)

/-- The directory entry that tells of a rename in progress. -/
def recoveryEntry (pathFrom pathTo : Str) : Str :=
  pathToFilename pathTo ++ lit "|recovery|" ++ pathFrom

/-- `hflat_rename` with the target out of the way. -/
def renameEntries (fuel : Nat) (pathFrom pathTo : Str) (r : Renaming) : Client Int := do
  let err ← createDirectoryEntry me env r.dirTo (pathToFilename pathTo) fuel
  if err ≠ 0 then return err
  require (createDirectoryEntry me env r.dirTo (recoveryEntry pathFrom pathTo) fuel)
  let err ← deleteDirectoryEntry me env r.dirFrom (pathToFilename pathFrom) fuel
  if err ≠ 0 then
    require (deleteDirectoryEntry me env r.dirTo (pathToFilename pathTo) fuel)
    require (deleteDirectoryEntry me env r.dirTo (recoveryEntry pathFrom pathTo) fuel)
    return err
  renameObject me env fuel pathFrom pathTo r
  require (deleteDirectoryEntry me env r.dirTo (recoveryEntry pathFrom pathTo) fuel)
  cacheInvalidate (← getMdi r.mdiTo).systemPath
  cacheInvalidate (← getMdi r.mdiFrom).systemPath
  return 0

/-- The object of the target after it was unlinked: the path may lead to another key then. -/
def targetAfterUnlink (fuel : Nat) (pathTo : Str) (mdiTo : Nat) : Client Nat := do
  if (← getMdi mdiTo).md.type = .HARDLINK_T then
    let (_, mdiTo) ← lookup me env ctx fuel pathTo (some mdiTo)
    deref mdiTo
  else return mdiTo

/-- `hflat_rename`: what the target names is removed, then directories get a mapping and the other
    objects are copied. -/
def hflatRename (fuel : Nat) (pathFrom pathTo : Str) : Client Int := do
  match ← renameLookup me env ctx fuel pathFrom pathTo with
  | .error err => return err
  | .ok r =>
      let md := (← getMdi r.mdiTo).md
      if md.inodeNumber ≠ 0 then
        let err ← if S_ISDIR md.mode then hflatRmdir me env ctx fuel pathTo
          else hflatUnlink me env ctx fuel pathTo
        if err ≠ 0 then return err
        let mdiTo ← targetAfterUnlink me env ctx fuel pathTo r.mdiTo
        renameEntries me env fuel pathFrom pathTo { r with mdiTo := mdiTo }
      else renameEntries me env fuel pathFrom pathTo r

/-! ## Sessions -/

/-- The operations of a session, with the caller. -/
inductive Operation where
  | create (ctx : Context) (userPath : Str) (mode : Nat)
  | update (ctx : Context) (userPath : Str) (change : Change)
  | unlink (ctx : Context) (userPath : Str)
  | rmdir (ctx : Context) (userPath : Str)
  | link (ctx : Context) (target origin : Str)
  | rename (ctx : Context) (pathFrom pathTo : Str)

/-- The operation makes a hard link. -/
def Operation.links : Operation → Bool
  | .link _ _ _ => true
  | _ => false

/-- The handler that `fuse` calls. -/
def Operation.run (fuel : Nat) : Operation → Client Int
  | .create ctx userPath mode => hflatCreate me env ctx fuel userPath mode
  | .update ctx userPath change => hflatUpdate me env ctx userPath change fuel
  | .unlink ctx userPath => hflatUnlink me env ctx fuel userPath
  | .rmdir ctx userPath => hflatRmdir me env ctx fuel userPath
  | .link ctx target origin => hflatHardlink me env ctx target origin fuel
  | .rename ctx pathFrom pathTo => hflatRename me env ctx fuel pathFrom pathTo

/-- One operation after the other. -/
def session (fuel : Nat) : List Operation → Client Unit
  | [] => return ()
  | op :: ops => do
      let _ ← op.run me env fuel
      session fuel ops

end Operations

/-- A client that has just mounted the file system. -/
def Local.mounted (pmap : PathMapDB) : Local :=
  ⟨fun _ => ⟨[], [], Inode.empty⟩, 0, fun _ => none, fun _ => false, pmap⟩

/-- Every client is about to start its session. -/
def sessions {S : Type} (env : Env) (fuel : Nat) (ops : Nat → List Operation) (pmap : Nat → PathMapDB)
    (s : S) : Config Req Res S Nat (Unit × Local) :=
  ⟨s, fun i => (session i env fuel (ops i)).run (Local.mounted (pmap i))⟩

/-! ## Small file systems -/

/-- Versions `"1"`, `"2"`, ... -/
def counter (n : Nat) : Str := toStr (n + 1)

/-- The metadata of a root directory that everybody may change. -/
def rootDirectory : Inode := { Inode.empty with mode := S_IFDIR ||| 0o777, inodeNumber := 1 }

/-- The metadata of a file with an inode number. -/
def regularFile (inode : Nat) : Inode :=
  { Inode.empty with mode := S_IFREG ||| 0o644, inodeNumber := inode }

/-- A file system with an empty root directory. -/
def Store.mkfs (uuid : Nat → Str) : Store :=
  ⟨fun key => if key = root then some ⟨rootDirectory, uuid 0⟩ else none, .empty, [], 1⟩

/-- One more file in the root directory. -/
def Store.addFile (s : Store) (uuid : Nat → Str) (name : Str) (md : Inode) : Store :=
  { s.set ('/' :: name) (some ⟨md, uuid s.uuids⟩) with
    entries := s.entries.set (direntryKey 1 name) (some ⟨[], lit "1"⟩), uuids := s.uuids + 1 }

/-- The caller that no check refuses. -/
def superuser : Context := ⟨0, 0⟩

/-- One client has something to do. -/
def onlyFirst (ops : List Operation) (i : Nat) : List Operation := if i = 0 then ops else []

theorem onlyFirst_links {ops : List Operation} (hops : ∀ op ∈ ops, op.links = false) :
    ∀ i, ∀ op ∈ onlyFirst ops i, op.links = false := by
  intro i op hop
  unfold onlyFirst at hop
  split at hop
  · exact hops op hop
  · cases hop

/-- Time stamps of directories are not kept, and no path permission is a duplicate. -/
def relaxed : Env := ⟨counter, fun _ _ => false, withoutDuplicates, false⟩

/-- Time stamps of directories are kept, and every duplicate path permission is removed. -/
def posix : Env := ⟨counter, fun _ _ => false, withoutDuplicates, true⟩

/-- The metadata of a directory that everybody may change. -/
def openDirectory (inode : Nat) : Inode := { Inode.empty with mode := S_IFDIR ||| 0o777, inodeNumber := inode }

/-- A file system with a directory `/d`. -/
def withDirectory : Store := (Store.mkfs counter).addFile counter (lit "d") (openDirectory 2)

end HFlat.Fuse
