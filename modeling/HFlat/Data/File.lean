/-
  One file: its metadata key, its data keys, and clients that write to it (`fuseops/data.cc`,
  `fuseops/sync.cc`).

  A client keeps objects for the metadata key and for data blocks, and finds them through the two
  caches. An object with unflushed writes neither expires nor is evicted. The path of the file leads
  to its metadata key throughout. The path permission time stamp of the path and the answer of
  `lookup_parent` may be any.
  Data keys are named by their block number, as an unsigned number. `generate_uuid` is part of the `Put`
  that uses the new version, and the versions of each key are numbered on their own.
-/
import HFlat.Data.Place
import HFlat.Data.Writers
import HFlat.Fuse.Model

namespace HFlat.Data.File

open HFlat.Lib HFlat.Lib.Block HFlat.Permission
open HFlat.Fuse (Inode)
open HFlat.Replication (KineticRecord StatusCode versionOf putSame)

/-! ## The keys of the file -/

/-- What a `Put` of the metadata key is for. -/
inductive Purpose where
  /-- `lookup` stores inherited path permissions; `dirty` if the object has unflushed writes -/
  | inherit (dirty : Bool)
  /-- `hflat_fsync` is about to store the block with the writes `calls` -/
  | flush (block : Nat) (calls : List (Update Char)) (newsize : Nat)

/-- One access to the drives, or to what the client does not control. -/
inductive Req where
  | get
  | put (why : Purpose) (expected : Str) (md : Inode)
  /-- the path permission time stamp of the path -/
  | stamp
  /-- `lookup_parent` -/
  | parent
  | expired
  | dataExpired (block : Nat)
  /-- access to a data key; `serialized` if the metadata key was stored for it -/
  | data (block : Nat) (serialized : Bool) (r : Data.Req)

/-- What the service answers to a request. -/
def Res : Req → Type
  | .get => Except StatusCode (KineticRecord Inode)
  | .put _ _ _ => StatusCode × Str
  | .stamp => Int
  | .parent => Except Int Inode
  | .expired => Bool
  | .dataExpired _ => Bool
  | .data _ _ r => Data.Res r

/-- What is not decided here: whether an access is carried out and answered, whether a cache entry
    has expired, the time stamp of the path, and what the lookup of the parent finds. -/
inductive Choice where
  | access (choice : Data.Choice)
  | expired (b : Bool)
  | stamp (n : Int)
  | parent (x : Except Int Inode)

/-- The metadata record of the file and its data blocks. -/
structure Store where
  record : Option (KineticRecord Inode)
  /-- number of versions of the metadata key generated so far -/
  uuids : Nat
  blocks : Nat → Data.State

section Serve

-- the versions that `generate_uuid` returns, for the metadata key and for each data key
variable (uuid : Nat → Str) (dataUuid : Nat → Nat → Str)

/-- `Put` of `md` under a new version. -/
def Store.put (s : Store) (expected : Str) (md : Inode) : StatusCode × Store :=
  let result := putSame s.record expected ⟨md, uuid s.uuids⟩
  (result.1, { s with record := result.2, uuids := s.uuids + 1 })

/-- One access of the client. A choice that does not fit the request is no step. -/
def serve (s : Store) : (r : Req) → Choice → Option (Res r × Store)
  | .get, .access .done =>
      match s.record with
      | some r => some (.ok r, s)
      | none => some (.error .REMOTE_NOT_FOUND, s)
  | .get, .access .unreachable => some (.error .REMOTE_REMOTE_CONNECTION_ERROR, s)
  | .put _ expected md, .access .done =>
      some (((s.put uuid expected md).1, uuid s.uuids), (s.put uuid expected md).2)
  | .put _ _ _, .access .unreachable =>
      some ((.REMOTE_REMOTE_CONNECTION_ERROR, uuid s.uuids), { s with uuids := s.uuids + 1 })
  | .put _ expected md, .access .lost =>
      some ((.REMOTE_REMOTE_CONNECTION_ERROR, uuid s.uuids), (s.put uuid expected md).2)
  | .stamp, .stamp n => some (n, s)
  | .parent, .parent (.ok md) => some (.ok md, s)
  | .parent, .parent (.error err) => if err < 0 ∧ err ≠ -EACCES then some (.error err, s) else none
  | .expired, .expired b => some (b, s)
  | .dataExpired _, .expired b => some (b, s)
  | .data block _ r, .access choice =>
      (Data.serve (dataUuid block) (s.blocks block) r choice).map fun x =>
        (x.1, { s with blocks := Function.update s.blocks block x.2 })
  | _, _ => none

/-- The drives of the client. -/
def service : Service Req Res Choice Store := ⟨serve uuid dataUuid⟩

end Serve

/-! ## Clients -/

/-- `MetadataInfo` of the file: version, metadata and the dirty block. -/
structure MetadataInfo where
  keyVersion : Str
  md : Inode
  dirtyData : Option Nat

/-- The object of a data block, with the writes since its last flush. -/
structure BlockInfo where
  key : Nat
  info : DataInfo
  calls : List (Update Char)

/-- The memory of a client. -/
structure Local where
  heap : Nat → MetadataInfo
  next : Nat
  lookupCache : Option Nat
  data : Nat → BlockInfo
  nextData : Nat
  dataCache : Nat → Option Nat

/-- Computations of the client: its memory, and requests to the service. -/
abbrev Client := StateT Local (Prog Req Res)

/-- One request. -/
def perform (r : Req) : Client (Res r) := StateT.lift (Prog.perform r)

/-- A failed assertion. -/
def exit {α : Type} : Client α := StateT.lift Prog.stop

/-- The memory with another object at an address. -/
def Local.setObject (l : Local) (mdi : Nat) (x : MetadataInfo) : Local :=
  { l with heap := Function.update l.heap mdi x }

/-- The memory with another block at an address. -/
def Local.setBlock (l : Local) (di : Nat) (x : BlockInfo) : Local :=
  { l with data := Function.update l.data di x }

/-- The object has unflushed writes. -/
def Local.dirty (l : Local) (mdi : Nat) : Bool :=
  match (l.heap mdi).dirtyData with
  | some di => (l.data di).info.hasUpdates
  | none => false

/-- The object at an address. -/
def getMdi (mdi : Nat) : Client MetadataInfo := do return (← get).heap mdi

/-- Changes the object at an address. -/
def setMdi (mdi : Nat) (f : MetadataInfo → MetadataInfo) : Client Unit :=
  modify fun l => l.setObject mdi (f (l.heap mdi))

/-- The block at an address. -/
def getDi (di : Nat) : Client BlockInfo := do return (← get).data di

/-- Changes the block at an address. -/
def setDi (di : Nat) (f : BlockInfo → BlockInfo) : Client Unit :=
  modify fun l => l.setBlock di (f (l.data di))

/-- `new MetadataInfo`. -/
def newMetadataInfo : Client Nat := do
  let mdi := (← get).next
  modify fun l => { l.setObject mdi ⟨lit "0", Inode.empty, none⟩ with next := mdi + 1 }
  return mdi

/-- `new DataInfo`. -/
def newDataInfo (block : Nat) (x : DataInfo) : Client Nat := do
  let di := (← get).nextData
  modify fun l => { l.setBlock di ⟨block, x, []⟩ with nextData := di + 1 }
  return di

/-! ### Caches (`lru_cache.h`) -/

/-- `lookup_cache.invalidate`. -/
def cacheInvalidate : Client Unit := modify fun l => { l with lookupCache := none }

/-- `lookup_cache.get`; an object with dirty data does not expire. -/
def cacheGet : Client (Option Nat) := do
  match (← get).lookupCache with
  | none => return none
  | some mdi =>
      if (← get).dirty mdi then return some mdi
      let expired : Bool ← perform .expired
      if expired then
        cacheInvalidate
        return none
      return some mdi

/-- `REQ_TRUE(lookup_cache.add(key, mdi))`. -/
def cacheAdd (mdi : Nat) : Client Unit := do
  match (← get).lookupCache with
  | some _ => exit
  | none => modify fun l => { l with lookupCache := some mdi }

/-- `data_cache.invalidate`. -/
def dataInvalidate (block : Nat) : Client Unit :=
  modify fun l => { l with dataCache := Function.update l.dataCache block none }

/-- `data_cache.get`; a dirty block does not expire. -/
def dataCacheGet (block : Nat) : Client (Option Nat) := do
  match (← get).dataCache block with
  | none => return none
  | some di =>
      if (← getDi di).info.hasUpdates then return some di
      let expired : Bool ← perform (.dataExpired block)
      if expired then
        dataInvalidate block
        return none
      return some di

/-- `data_cache.add`; the block is not in the cache. -/
def dataAdd (block di : Nat) : Client Unit := do
  match (← get).dataCache block with
  | some _ => exit
  | none => modify fun l => { l with dataCache := Function.update l.dataCache block (some di) }

/-! ### Keys (`kinetic_helper.cc`) -/

/-- `get_metadata`: reads the record into the object. -/
def getMetadata (mdi : Nat) : Client Int := do
  let record : Except StatusCode (KineticRecord Inode) ← perform .get
  match record with
  | .ok record =>
      setMdi mdi fun x => { x with md := record.value, keyVersion := record.version }
      return 0
  | .error .REMOTE_NOT_FOUND => return -ENOENT
  | .error _ => return - EIO

/-- `put_metadata`: stores the object, if the key still has the version of the object. -/
def putMetadata (why : Purpose) (mdi : Nat) : Client Int := do
  let x ← getMdi mdi
  let (status, newVersion) : StatusCode × Str ← perform (.put why x.keyVersion x.md)
  match status with
  | .OK =>
      setMdi mdi fun x => { x with keyVersion := newVersion }
      return 0
  | status =>
      cacheInvalidate
      if status = .REMOTE_VERSION_MISMATCH then return -EAGAIN
      if status = .REMOTE_NOT_FOUND then return -ENOENT
      return - EIO

/-- Accesses to one data key among all requests. -/
def onBlock {α : Type} (block : Nat) (serialized : Bool) : Data.Client α → Prog Req Res α
  | .ret a => .ret a
  | .call r k => .call (.data block serialized r) fun x => onBlock block serialized (k x)
  | .stop => .stop

/-- `get_data`, as the steps of `Data.getData` on the block. -/
def getData (block : Nat) : Client (Except Int DataInfo) :=
  StateT.lift (onBlock block false Data.getData)

/-- `put_data`, as the steps of `Data.putData` on the block. The calls are forgotten once they are
    stored. -/
def putData (serialized : Bool) (di fuel : Nat) : Client Int := do
  let x ← getDi di
  let (err, info) ← StateT.lift (onBlock x.key serialized (Data.putData x.calls fuel x.info))
  setDi di fun x => { x with info := info, calls := if err = 0 then [] else x.calls }
  return err

section Client

variable (env : Env) (ctx : Context) (blocksize : Nat)

/-! ### Lookup (`lookup.cc`) -/

/-- Step 4 of `lookup`. -/
def checkStale (lookup : Client (Int × Option Nat)) (mdi : Nat) : Client (Int × Option Nat) := do
  let stamp : Int ← perform .stamp
  if ((← getMdi mdi).md.pathPermissionVerified : Int) < stamp then
    let parent : Except Int Inode ← perform .parent
    match parent with
    | .error err => return (err, some mdi)
    | .ok parent =>
        let dirty := (← get).dirty mdi
        setMdi mdi fun x => { x with md := Fuse.inheritPathPermissions env x.md parent }
        let err ← putMetadata (.inherit dirty) mdi
        if err = -EAGAIN then lookup
        else if err ≠ 0 then return (err, some mdi)
        else return (checkPathPermissions ctx (← getMdi mdi).md.pathPermission, some mdi)
  else return (checkPathPermissions ctx (← getMdi mdi).md.pathPermission, some mdi)

/-- `lookup` of the path of the file. -/
def lookup : Nat → Client (Int × Option Nat)
  | 0 => exit
  | fuel + 1 => do
      match ← cacheGet with
      | some mdi =>
          if (← getMdi mdi).md.inodeNumber = 0 then return (-ENOENT, some mdi)
          checkStale env ctx (lookup fuel) mdi
      | none =>
          let mdi ← newMetadataInfo
          let err ← getMetadata mdi
          if err = -ENOENT then
            cacheAdd mdi
            return (-ENOENT, some mdi)
          if err ≠ 0 then
            cacheInvalidate
            return (err, some mdi)
          if (← getMdi mdi).md.inodeNumber = 0 then return (-ENOENT, some mdi)
          cacheAdd mdi
          checkStale env ctx (lookup fuel) mdi

/-! ### Flush (`sync.cc`) -/

/-- The block number in the key of the dirty block, and the size of the file with this block. -/
def newSize (x : BlockInfo) (md : Inode) : Nat := max (blocksize * x.key + x.info.d.length) md.size

/-- `hflat_fsync`; `append` if it is called with `O_APPEND`. The size is an unsigned number of 32
    bits. -/
def hflatFsync (append : Bool) : Nat → Client Int
  | 0 => exit
  | fuel + 1 => do
      let (err, mdi) ← lookup env ctx (fuel + 1)
      if err ≠ 0 then return err
      match mdi with
      | none => exit
      | some mdi =>
          match (← getMdi mdi).dirtyData with
          | none => return 0
          | some di =>
              let x ← getDi di
              if ¬ x.info.hasUpdates then return 0
              let md := (← getMdi mdi).md
              let newsize := newSize blocksize x md
              if md.size < newsize ∨ env.posixFull then
                setMdi mdi fun x => { x with md := { x.md with size := newsize % 2 ^ 32 } }
                let err ← putMetadata (.flush x.key x.calls newsize) mdi
                if err ≠ 0 ∧ append then
                  dataInvalidate x.key
                  return err
                if err = -EAGAIN then hflatFsync append fuel
                else putData true di fuel
              else putData false di fuel

/-! ### Write (`data.cc`) -/

/-- The block that a write goes to, from the cache or the store: error code and object. A block that
    the write makes grow past the known size is not fetched. -/
def writeBlock (block stop : Nat) (md : Inode) : Client (Except Int Nat) := do
  match ← dataCacheGet block with
  | some di => return .ok di
  | none =>
      if stop > md.size then
        let di ← newDataInfo block ⟨[], [], []⟩
        dataAdd block di
        return .ok di
      else
        match ← getData block with
        | .error err =>
            dataInvalidate block
            return .error err
        | .ok x =>
            let di ← newDataInfo block x
            dataAdd block di
            return .ok di

/-- `do_rw` for a write to a place: number of bytes or error code, and the block. -/
def doRwAt (buf : Str) (stop mdi : Nat) : Option Place → Client (Int × Option Nat)
  -- an `int` overflows
  | none => exit
  | some place => do
      match ← writeBlock place.block stop (← getMdi mdi).md with
      | .error err => return (err, none)
      | .ok di =>
          let inblockstart := place.inblockstart.toNat
          let bytes := buf.take place.inblocksize.toNat
          let x ← getDi di
          match x.info.updateData bytes inblockstart with
          | none => exit
          | some info =>
              setDi di fun x => { x with info := info, calls := x.calls ++ [⟨inblockstart, bytes⟩] }
              return (place.inblocksize, some di)

/-- `do_rw` for a write. -/
def doRw (buf : Str) (offset mdi : Nat) : Client (Int × Option Nat) :=
  doRwAt buf (offset + buf.length) mdi (place blocksize buf.length offset)

/-- `setDirtyData`. -/
def setDirtyData (mdi : Nat) (di : Option Nat) : Client Bool := do
  if (← getMdi mdi).dirtyData = di then return true
  if (← get).dirty mdi then return false
  setMdi mdi fun x => { x with dirtyData := di }
  return true

/-- The number of bytes that `do_rw` returns, stored in a `size_t`. -/
def sizeT (n : Int) : Nat := (n % 2 ^ 64).toNat

/-- The end of `hflat_write`: what was written is flushed at once or aggregated. -/
def finishWrite (append : Bool) (offset : Nat) (size : Int) (retry : Client Int) (fuel : Nat) : Client Int := do
  if append ∨ (offset + sizeT size) % 2 ^ 64 % blocksize = 0 then
    let err ← hflatFsync env ctx blocksize append fuel
    if err = -EAGAIN then retry
    else if err ≠ 0 then return err
    else return size
  else return size

/-- `hflat_write`; `append` if it is called with `O_APPEND`. -/
def hflatWrite (append : Bool) : Nat → Str → Nat → Client Int
  | 0, _, _ => exit
  | fuel + 1, buf, offset => do
      let (err, mdi) ← lookup env ctx (fuel + 1)
      if err ≠ 0 then return err
      match mdi with
      | none => exit
      | some mdi =>
          let (size, di) ← doRw blocksize buf offset mdi
          if size = 0 then return 0
          let retry := hflatWrite append fuel (buf.take (sizeT size)) offset
          if ← setDirtyData mdi di then
            finishWrite env ctx blocksize append offset size retry (fuel + 1)
          else
            -- the object has another dirty block
            let err ← hflatFsync env ctx blocksize append (fuel + 1)
            if err ≠ 0 then return err
            let _ ← setDirtyData mdi di
            finishWrite env ctx blocksize append offset size retry (fuel + 1)

end Client

end HFlat.Data.File
