/-
  The functions of each model of a client are those of `Fuse.Handlers`, over the calls of the model.

  One namespace for each model: `handlerKeys` and the instances after it say what the model does
  where the functions differ, and the equations that nothing else does. `Permission` is the model of
  one client with a cache of any capacity, `Fuse` that of several clients, `Attributes` that of
  several clients and file metadata with time stamps, `Attributes.Chown` its permission changes,
  `Lone` that of one client with all operations, and `Data.File` that of the writers of one file.
-/
import HFlat.Fuse.Handlers
import HFlat.Fuse.Operations
import HFlat.Fuse.Permissions
import HFlat.Fuse.Lone
import HFlat.Fuse.Chown
import HFlat.Data.File

namespace HFlat.Fuse

open HFlat.Lib HFlat.PathMap HFlat.Permission
open HFlat.Replication (KineticRecord StatusCode putSame versionOf)

/-- Computations of a client can be regrouped. -/
theorem client_bind_assoc {L α β γ : Type} {Req : Type} {Res : Req → Type}
    (m : StateT L (Prog Req Res) α) (f : α → StateT L (Prog Req Res) β)
    (g : β → StateT L (Prog Req Res) γ) : m >>= f >>= g = m >>= fun a => f a >>= g :=
  funext fun _ => Prog.bind_bind _ _ _

/-! ## Several clients -/

section Model

variable (me : Nat) (env : Env) (ctx : Context)

/-- What the functions on metadata keys call. -/
def handlerKeys : Handlers.KeyCalls Client Inode Purpose where
  object mdi := do
    let x ← getMdi mdi
    return ⟨x.systemPath, x.keyVersion, x.md⟩
  setVersion mdi version := setMdi mdi fun x => { x with keyVersion := version }
  setRecord mdi record := setMdi mdi fun x => { x with md := record.value, keyVersion := record.version }
  get mdi key := perform (.get me mdi key)
  put why mdi key expected md := perform (.put me mdi why key expected md)
  cacheInvalidate := cacheInvalidate

/-- What `lookup` calls. -/
def handlerCalls : Handlers.Calls Client Inode Purpose (Option Nat) where
  toKeyCalls := handlerKeys me
  fail := exit
  setMD := setMD
  newObject := newMetadataInfo
  cacheGet _ key := cacheGet key
  cacheBlock := cacheBlock
  cacheAdd := cacheAdd
  toSystemPath fuel userPath := do
    (toSystemPath (← get).pmap fuel userPath .LOOKUP).elim exit pure
  databaseUpdate := databaseUpdate
  base md := md.toMetadata
  inherit := inheritPathPermissions env
  forward inode md := { md with type := .HARDLINK_S, inodeNumber := inode }
  inheriting _ := .update
  above _ _ := none
  found _ mdi := some mdi
  pointer extra := extra

theorem object_bind {α : Type} (mdi : Nat) (f : Handlers.Object Inode → Client α) :
    (handlerCalls me env).object mdi >>= f = getMdi mdi >>= fun x => f ⟨x.systemPath, x.keyVersion, x.md⟩ := rfl

theorem toSystemPath_bind {α : Type} (fuel : Nat) (userPath : Str) (f : Str × Int → Client α) :
    (handlerCalls me env).toSystemPath fuel userPath >>= f =
      get >>= fun l => (toSystemPath l.pmap fuel userPath .LOOKUP).elim exit f := by
  funext l
  show ((((toSystemPath l.pmap fuel userPath .LOOKUP).elim exit pure : Client (Str × Int)) >>= f) l) =
    ((toSystemPath l.pmap fuel userPath .LOOKUP).elim exit f : Client α) l
  cases toSystemPath l.pmap fuel userPath .LOOKUP <;> rfl

theorem base_eq (md : Inode) : (handlerCalls me env).base md = md.toMetadata := rfl

/-- `get_metadata` of this model is the shared one. -/
theorem getMetadata_shared (mdi : Nat) : getMetadata me mdi = Handlers.getMetadata (handlerKeys me) mdi := by
  refine bind_congr fun x => bind_congr fun result => ?_
  rcases result with e | record
  · cases e <;> rfl
  · rfl

/-- `put_metadata` of this model is the shared one. -/
theorem putMetadata_shared (why : Purpose) (mdi : Nat) :
    putMetadata me why mdi = Handlers.putMetadata (handlerKeys me) why mdi := rfl

theorem finalCheck_shared (mdi : Nat) :
    finalCheck ctx mdi = Handlers.finalCheck (handlerCalls me env) ctx mdi := rfl

variable (look : Str → Option Nat → Client (Int × Option Nat)) (userPath key : Str)

theorem lookupParentWith_shared : lookupParentWith ctx look userPath =
    Handlers.lookupParentWith (handlerCalls me env) ctx (fun extra path => look path extra) none userPath := by
  unfold lookupParentWith Handlers.lookupParentWith
  cases cutParent userPath with
  | none => rfl
  | some path =>
    refine bind_congr fun ⟨err, mdiParent⟩ => ?_
    cases mdiParent <;> rfl

variable (pathPermissionTimeStamp : Int) (mdi : Nat) (extra : Option Nat)

theorem checkStale_shared : checkStale me env ctx look userPath pathPermissionTimeStamp mdi =
    Handlers.checkStale (handlerCalls me env) ctx (fun extra path => look path extra) extra userPath key
      pathPermissionTimeStamp mdi := by
  unfold checkStale Handlers.checkStale
  rw [object_bind, lookupParentWith_shared me env]
  refine bind_congr fun x => ite_congr rfl (fun _ => bind_congr fun ⟨err, mdiParent⟩ => ?_) fun _ => rfl
  cases mdiParent <;> rfl

theorem lookupFound_shared (cached : Bool) :
    lookupFound me env ctx look userPath key pathPermissionTimeStamp mdi cached =
      Handlers.lookupFound (handlerCalls me env) ctx (fun extra path => look path extra) extra userPath key
        pathPermissionTimeStamp mdi cached := by
  unfold lookupFound Handlers.lookupFound
  rw [object_bind, checkStale_shared me env ctx look userPath key pathPermissionTimeStamp mdi extra]
  refine bind_congr fun x => ite_congr rfl (fun _ => rfl) fun _ => ?_
  simp only [base_eq]
  cases x.md.type <;> cases cached <;> rfl

theorem lookupStored_shared : lookupStored me env ctx look userPath key pathPermissionTimeStamp =
    Handlers.lookupStored (handlerCalls me env) ctx (fun extra path => look path extra) extra userPath key
      pathPermissionTimeStamp := by
  unfold lookupStored Handlers.lookupStored
  simp only [getMetadata_shared me, lookupFound_shared me env ctx look userPath key pathPermissionTimeStamp _ extra]
  rfl

/-- `lookup` of this model is the shared one. -/
theorem lookup_shared (fuel : Nat) : lookup me env ctx fuel userPath extra =
    Handlers.lookup (handlerCalls me env) ctx fuel extra userPath := by
  induction fuel generalizing userPath extra with
  | zero => rfl
  | succ fuel ih =>
    have hlook : lookup me env ctx fuel =
        fun path extra => Handlers.lookup (handlerCalls me env) ctx fuel extra path :=
      funext fun path => funext fun extra => ih path extra
    unfold lookup Handlers.lookup
    rw [hlook, toSystemPath_bind]
    refine bind_congr (m := Client) fun l => ?_
    cases toSystemPath l.pmap (fuel + 1) userPath .LOOKUP with
    | none => rfl
    | some result =>
      refine ite_congr rfl (fun _ => rfl) fun _ => bind_congr fun cached => ?_
      cases cached with
      | none => exact lookupStored_shared me env ctx _ userPath _ _ extra
      | some mdi => exact lookupFound_shared me env ctx _ userPath _ _ mdi extra true

/-- What the permission operations call. -/
def handlerPermissions : Handlers.PermissionCalls Client Inode Purpose (Option Nat) where
  toCalls := handlerCalls me env
  badArguments := exit
  lookup fuel userPath := lookup me env ctx fuel userPath none
  changing := .update
  restricting := .update
  change mdi mode uid gid := setMD mdi fun md => md.changeMetadata mode uid gid
  computeChildren := Inode.computePathPermissionChildren env
  verify version md := { md with pathPermissionVerified := version }
  databaseOperation fuel userPath := databaseOperation ⟨.NONE, userPath, []⟩ fuel
  snapshotVersion := do return (← get).pmap.snapshotVersion

/-- `put_metadata_forced` of this model is the shared one. -/
theorem putMetadataForced_shared (version : Nat) (fuel : Nat) :
    putMetadataForcedWith me (fun md => { md with pathPermissionVerified := version }) mdi fuel =
      Handlers.putMetadataForced (handlerPermissions me env ctx) .update
        (setMD mdi fun md => { md with pathPermissionVerified := version }) mdi fuel := by
  induction fuel with
  | zero => rfl
  | succ fuel ih =>
    unfold putMetadataForcedWith
    rw [ih, getMetadata_shared me]
    rfl

/-- `permission_lookup` of this model is the shared one. -/
theorem permissionLookup_shared (fuel : Nat) (gid : Option Nat) : permissionLookup me env ctx fuel userPath gid =
    Handlers.permissionLookup (handlerPermissions me env ctx) ctx fuel userPath gid := rfl

theorem storeRestrictions_shared (fuel : Nat) : storeRestrictions me fuel mdi =
    Handlers.storeRestrictions (handlerPermissions me env ctx) fuel mdi := by
  unfold storeRestrictions
  simp only [putMetadataForced_shared me env ctx]
  rfl

theorem notePermissionChange_shared (fuel : Nat) : notePermissionChange me env fuel userPath mdi =
    Handlers.notePermissionChange (handlerPermissions me env ctx) fuel userPath mdi := by
  unfold notePermissionChange Handlers.notePermissionChange
  rw [show (handlerPermissions me env ctx).toCalls = handlerCalls me env from rfl, object_bind,
    storeRestrictions_shared me env ctx]
  refine bind_congr fun x => ite_congr rfl (fun _ => bind_congr fun _ => ite_congr rfl (fun _ => ?_)
    fun _ => rfl) fun _ => rfl
  refine (client_bind_assoc _ _ _).trans (bind_congr fun err => ?_)
  split <;> rfl

/-- `do_permission_change` of this model is the shared one. -/
theorem doPermissionChange_shared (fuel : Nat) (mode uid gid : Option Nat) :
    doPermissionChange me env ctx userPath fuel mode uid gid =
      Handlers.doPermissionChange (handlerPermissions me env ctx) ctx userPath fuel mode uid gid := by
  induction fuel generalizing mode uid gid with
  | zero => rfl
  | succ fuel ih =>
    unfold doPermissionChange
    simp only [ih, notePermissionChange_shared me env ctx]
    rfl

/-- `lookup_parent` of this model is the shared one. -/
theorem lookupParent_shared (fuel : Nat) : lookupParent me env ctx fuel userPath =
    Handlers.lookupParent (handlerCalls me env) ctx fuel none userPath := by
  unfold lookupParent Handlers.lookupParent
  rw [lookupParentWith_shared me env]
  exact congrArg (fun look => Handlers.lookupParentWith (handlerCalls me env) ctx look none userPath)
    (funext fun extra => funext fun path => lookup_shared me env ctx path extra fuel)

/-- `create_metadata` of this model is the shared one. -/
theorem createMetadata_shared (why : Purpose) (mdi : Nat) :
    createMetadata me why mdi = Handlers.createMetadata (handlerKeys me) why mdi := rfl

/-- What `hflat_create` calls. -/
def handlerCreation : Handlers.CreationCalls Client Inode Purpose (Option Nat) where
  toCalls := handlerCalls me env
  lookup fuel userPath := lookup me env ctx fuel userPath none
  lookupParent fuel userPath := lookupParent me env ctx fuel userPath
  creating := .create
  createDirectoryEntry := createDirectoryEntry me env
  initializeMetadata := initializeMetadata env ctx

theorem createIn_shared (fuel mode mdiDir : Nat) : createIn me env ctx fuel userPath mode mdi mdiDir =
    Handlers.createIn (handlerCreation me env ctx) ctx fuel userPath mode mdi mdiDir := by
  unfold createIn Handlers.createIn
  rw [show (handlerCreation me env ctx).toCalls = handlerCalls me env from rfl, object_bind]
  refine bind_congr fun dir => ite_congr rfl (fun _ => rfl) fun _ => bind_congr fun err => ite_congr rfl
    (fun _ => rfl) fun _ => bind_congr fun _ => ?_
  refine (client_bind_assoc _ _ _).trans (bind_congr fun err => ?_)
  split <;> rfl

/-- `hflat_create` of this model is the shared one. -/
theorem hflatCreate_shared (fuel mode : Nat) : hflatCreate me env ctx fuel userPath mode =
    Handlers.hflatCreate (handlerCreation me env ctx) ctx fuel userPath mode := by
  unfold hflatCreate
  simp only [createIn_shared me env ctx]
  rfl

end Model

/-! ## Several clients, time stamps -/

namespace Attributes

section

variable (env : Env) (ctx : Context)

/-- What the functions on metadata keys call. -/
def handlerKeys : Handlers.KeyCalls Client FileMetadata Cause where
  object mdi := do
    let x ← getMdi mdi
    return ⟨x.systemPath, x.keyVersion, x.md⟩
  setVersion mdi version := setMdi mdi fun x => { x with keyVersion := version }
  setRecord mdi record := setMdi mdi fun x => { x with md := record.value, keyVersion := record.version }
  get _ key := perform (.get key)
  put why _ key expected md := perform (.put key expected md why)
  cacheInvalidate := cacheInvalidate

/-- What `lookup` calls. -/
def handlerCalls : Handlers.Calls Client FileMetadata Cause (Option Nat) where
  toKeyCalls := handlerKeys
  fail := exit
  setMD mdi f := setMdi mdi fun x => { x with md := f x.md }
  newObject := newMetadataInfo
  cacheGet _ key := cacheGet key
  cacheBlock _ := pure ()
  cacheAdd := cacheAdd
  toSystemPath _ userPath := perform (.systemPath userPath)
  databaseUpdate := perform .databaseUpdate
  base md := md.toMetadata
  inherit := inheritPathPermissions env
  forward inode md := { md with type := .HARDLINK_S, inodeNumber := inode }
  inheriting := .inherit
  above _ _ := none
  found _ mdi := some mdi
  pointer extra := extra

theorem object_bind {α : Type} (mdi : Nat) (f : Handlers.Object FileMetadata → Client α) :
    (handlerCalls env).object mdi >>= f = getMdi mdi >>= fun x => f ⟨x.systemPath, x.keyVersion, x.md⟩ := rfl

theorem base_eq (md : FileMetadata) : (handlerCalls env).base md = md.toMetadata := rfl

/-- `get_metadata` of this model is the shared one. -/
theorem getMetadata_shared (mdi : Nat) : getMetadata mdi = Handlers.getMetadata handlerKeys mdi := by
  refine bind_congr fun x => bind_congr fun result => ?_
  rcases result with e | record
  · cases e <;> rfl
  · rfl

/-- `put_metadata` of this model is the shared one. -/
theorem putMetadata_shared (why : Cause) (mdi : Nat) :
    putMetadata mdi why = Handlers.putMetadata handlerKeys why mdi := rfl

variable (look : Str → Option Nat → Client (Int × Option Nat)) (userPath key : Str)

theorem lookupParentWith_shared : lookupParentWith ctx look userPath =
    Handlers.lookupParentWith (handlerCalls env) ctx (fun extra path => look path extra) none userPath := by
  unfold lookupParentWith Handlers.lookupParentWith
  cases cutParent userPath <;> rfl

variable (pathPermissionTimeStamp : Int) (mdi : Nat) (extra : Option Nat)

theorem checkStale_shared : checkStale env ctx look userPath pathPermissionTimeStamp mdi =
    Handlers.checkStale (handlerCalls env) ctx (fun extra path => look path extra) extra userPath key
      pathPermissionTimeStamp mdi := by
  unfold checkStale 
  rw [lookupParentWith_shared env]
  rfl

theorem lookupFound_shared (cached : Bool) :
    lookupFound env ctx look userPath key pathPermissionTimeStamp mdi cached =
      Handlers.lookupFound (handlerCalls env) ctx (fun extra path => look path extra) extra userPath key
        pathPermissionTimeStamp mdi cached := by
  unfold lookupFound Handlers.lookupFound
  rw [object_bind, checkStale_shared env ctx look userPath key pathPermissionTimeStamp mdi extra]
  refine bind_congr fun x => ite_congr rfl (fun _ => rfl) fun _ => ?_
  simp only [base_eq]
  cases x.md.type <;> cases cached <;> rfl

theorem lookupStored_shared : lookupStored env ctx look userPath key pathPermissionTimeStamp =
    Handlers.lookupStored (handlerCalls env) ctx (fun extra path => look path extra) extra userPath key
      pathPermissionTimeStamp := by
  unfold lookupStored
  simp only [getMetadata_shared, lookupFound_shared env ctx look userPath key pathPermissionTimeStamp _ extra]
  rfl

/-- `lookup` of this model is the shared one. -/
theorem lookup_shared (fuel : Nat) : lookup env ctx fuel userPath extra =
    Handlers.lookup (handlerCalls env) ctx fuel extra userPath := by
  induction fuel generalizing userPath extra with
  | zero => rfl
  | succ fuel ih =>
    have hlook : lookup env ctx fuel = fun path extra => Handlers.lookup (handlerCalls env) ctx fuel extra path :=
      funext fun path => funext fun extra => ih path extra
    unfold lookup
    rw [hlook]
    refine bind_congr fun result => ite_congr rfl (fun _ => rfl) fun _ => bind_congr fun cached => ?_
    cases cached with
    | none => exact lookupStored_shared env ctx _ userPath _ _ extra
    | some mdi => exact lookupFound_shared env ctx _ userPath _ _ mdi extra true

end

namespace Chown

section

variable (env : Env) (ctx : Context)

/-- What the functions on metadata keys call. -/
def handlerKeys : Handlers.KeyCalls Client FileMetadata Why where
  object mdi := do
    let x ← among (getMdi mdi)
    return ⟨x.systemPath, x.keyVersion, x.md⟩
  setVersion mdi version := among (setMdi mdi fun x => { x with keyVersion := version })
  setRecord mdi record :=
    among (setMdi mdi fun x => { x with md := record.value, keyVersion := record.version })
  get _ key := among (perform (.get key))
  put why _ key expected md := ask (.put key expected md why)
  cacheInvalidate key := among (cacheInvalidate key)

/-- What `lookup` calls. -/
def handlerCalls : Handlers.Calls Client FileMetadata Why (Option Nat) where
  toKeyCalls := handlerKeys
  fail := stop
  setMD mdi f := among (setMdi mdi fun x => { x with md := f x.md })
  newObject key := among (newMetadataInfo key)
  cacheGet _ key := among (cacheGet key)
  cacheBlock _ := pure ()
  cacheAdd key mdi := among (cacheAdd key mdi)
  toSystemPath _ userPath := among (perform (.systemPath userPath))
  databaseUpdate := among (perform .databaseUpdate)
  base md := md.toMetadata
  inherit := inheritPathPermissions env
  forward inode md := { md with type := .HARDLINK_S, inodeNumber := inode }
  inheriting _ := .restrictions
  above _ _ := none
  found _ mdi := some mdi
  pointer extra := extra

/-- What the permission operations call. -/
def handlerPermissions : Handlers.PermissionCalls Client FileMetadata Why (Option Nat) where
  toCalls := handlerCalls env
  badArguments := do
    ask .assertionFailed
    stop
  lookup fuel userPath := among (lookup env ctx fuel userPath none)
  changing := .change
  restricting := .restrictions
  change mdi mode uid gid := do
    let now : Int ← ask .now
    among (setMdi mdi fun x => { x with md := updateACtime (changeMetadata x.md mode uid gid) now })
  computeChildren md :=
    let result := computePathPermissionChildren env md.toMetadata
    ({ md with toMetadata := result.1 }, result.2)
  verify version md := { md with pathPermissionVerified := version }
  databaseOperation _ userPath := ask (.databaseOperation userPath)
  snapshotVersion := ask .snapshotVersion

/-- `get_metadata` of this model is the shared one. -/
theorem getMetadata_shared (mdi : Nat) : among (getMetadata mdi) = Handlers.getMetadata handlerKeys mdi := by
  funext l
  refine congrArg (Prog.call _) (funext fun result => ?_)
  rcases result with e | record
  · cases e <;> rfl
  · rfl

/-- `put_metadata` of this model is the shared one. -/
theorem putMetadata_shared (why : Why) (mdi : Nat) :
    putMetadata mdi why = Handlers.putMetadata handlerKeys why mdi := rfl

variable (userPath : Str) (mdi : Nat)

/-- `put_metadata_forced` of this model is the shared one. -/
theorem putMetadataForced_shared (version fuel : Nat) : putMetadataForced version mdi fuel =
    Handlers.putMetadataForced (handlerPermissions env ctx) .restrictions
      (among (setMdi mdi fun x => { x with md := { x.md with pathPermissionVerified := version } })) mdi fuel := by
  induction fuel with
  | zero => rfl
  | succ fuel ih =>
    unfold putMetadataForced
    rw [ih, getMetadata_shared]
    rfl

/-- `permission_lookup` of this model is the shared one. -/
theorem permissionLookup_shared (fuel : Nat) (gid : Option Nat) : permissionLookup env ctx fuel userPath gid =
    Handlers.permissionLookup (handlerPermissions env ctx) ctx fuel userPath gid := by
  refine bind_congr fun ⟨err, mdi⟩ => ?_
  cases mdi <;> rfl

theorem storeRestrictions_shared (fuel : Nat) : storeRestrictions fuel mdi =
    Handlers.storeRestrictions (handlerPermissions env ctx) fuel mdi := by
  unfold storeRestrictions
  simp only [putMetadataForced_shared env ctx]
  rfl

theorem notePermissionChange_shared (fuel : Nat) : notePermissionChange env fuel userPath mdi =
    Handlers.notePermissionChange (handlerPermissions env ctx) fuel userPath mdi := by
  unfold notePermissionChange Handlers.notePermissionChange
  rw [storeRestrictions_shared env ctx]
  funext l
  show (if S_ISDIR (l.heap mdi).md.mode then _ else _ : Client Int) l =
    (if S_ISDIR (l.heap mdi).md.mode then _ else _ : Client Int) l
  split
  · rfl
  · rfl

/-- `do_permission_change` of this model is the shared one. -/
theorem doPermissionChange_shared (fuel : Nat) (mode uid gid : Option Nat) :
    doPermissionChange env ctx userPath fuel mode uid gid =
      Handlers.doPermissionChange (handlerPermissions env ctx) ctx userPath fuel mode uid gid := by
  induction fuel generalizing mode uid gid with
  | zero => rfl
  | succ fuel ih =>
    unfold doPermissionChange Handlers.doPermissionChange
    simp only [ih, notePermissionChange_shared env ctx, permissionLookup_shared]
    refine bind_congr fun ⟨err, mdi⟩ => ite_congr rfl (fun _ => rfl) fun _ => ?_
    cases mdi with
    | none => rfl
    | some mdi =>
      funext l
      by_cases h : ctx.uid ≠ 0 ∧ (uid ≠ none ∨ gid ≠ none) ∧ mode ≠ none
      · simp only [if_pos h]
        rfl
      · simp only [if_neg h]
        rfl

end

end Chown

end Attributes

/-! ## One client, all operations -/

namespace Lone

open HFlat.Fuse.Attributes (FileMetadata)

section

variable (env : Env) (ctx : Context)

/-- What the functions on metadata keys call. -/
def handlerKeys : Handlers.KeyCalls Client FileMetadata Unit where
  object mdi := do
    let x ← getMdi mdi
    return ⟨x.systemPath, x.keyVersion, x.md⟩
  setVersion mdi version := setMdi mdi fun x => { x with keyVersion := version }
  setRecord mdi record := setMdi mdi fun x => { x with md := record.value, keyVersion := record.version }
  get _ key := perform (.get key)
  put _ _ key expected md := perform (.put key expected md)
  cacheInvalidate := cacheInvalidate

/-- What `lookup` calls. -/
def handlerCalls : Handlers.Calls Client FileMetadata Unit (List Str × Option Nat) where
  toKeyCalls := handlerKeys
  fail := exit
  setMD := setMD
  newObject := newMetadataInfo
  cacheGet extra key := cacheGet extra.1 key
  cacheBlock _ := pure ()
  cacheAdd := cacheAdd
  toSystemPath fuel userPath := do
    (toSystemPath (← get).pmap fuel userPath .LOOKUP).elim exit pure
  databaseUpdate := databaseUpdate
  base md := md.toMetadata
  inherit := Attributes.inheritPathPermissions env
  forward inode md := { md with type := .HARDLINK_S, inodeNumber := inode }
  inheriting _ := ()
  above extra key := (key :: extra.1, none)
  found extra mdi := (extra.1, some mdi)
  pointer extra := extra.2

theorem object_bind {α : Type} (mdi : Nat) (f : Handlers.Object FileMetadata → Client α) :
    (handlerCalls env).object mdi >>= f = getMdi mdi >>= fun x => f ⟨x.systemPath, x.keyVersion, x.md⟩ := rfl

theorem base_eq (md : FileMetadata) : (handlerCalls env).base md = md.toMetadata := rfl

theorem toSystemPath_bind {α : Type} (fuel : Nat) (userPath : Str) (f : Str × Int → Client α) :
    (handlerCalls env).toSystemPath fuel userPath >>= f =
      get >>= fun l => (toSystemPath l.pmap fuel userPath .LOOKUP).elim exit f := by
  funext l
  show ((((toSystemPath l.pmap fuel userPath .LOOKUP).elim exit pure : Client (Str × Int)) >>= f) l) =
    ((toSystemPath l.pmap fuel userPath .LOOKUP).elim exit f : Client α) l
  cases toSystemPath l.pmap fuel userPath .LOOKUP <;> rfl

/-- `get_metadata` of this model is the shared one. -/
theorem getMetadata_shared (mdi : Nat) : getMetadata mdi = Handlers.getMetadata handlerKeys mdi := by
  refine bind_congr fun x => bind_congr fun result => ?_
  rcases result with e | record
  · cases e <;> rfl
  · rfl

/-- `put_metadata` of this model is the shared one. -/
theorem putMetadata_shared (mdi : Nat) : putMetadata mdi = Handlers.putMetadata handlerKeys () mdi := rfl

variable (look : Lookup) (userPath key : Str) (extra : List Str × Option Nat)

theorem lookupParentWith_shared : lookupParentWith ctx look extra.1 userPath =
    Handlers.lookupParentWith (handlerCalls env) ctx (fun extra path => look extra.1 path extra.2) (extra.1, none)
      userPath := by
  unfold lookupParentWith Handlers.lookupParentWith
  cases cutParent userPath <;> rfl

variable (pathPermissionTimeStamp : Int) (mdi : Nat)

theorem checkStale_shared : checkStale env ctx look extra.1 userPath key pathPermissionTimeStamp mdi =
    Handlers.checkStale (handlerCalls env) ctx (fun extra path => look extra.1 path extra.2) extra userPath key
      pathPermissionTimeStamp mdi := by
  unfold checkStale
  rw [lookupParentWith_shared env ctx look userPath (key :: extra.1, none)]
  rfl

theorem lookupFound_shared (cached : Bool) :
    lookupFound env ctx look extra.1 userPath key pathPermissionTimeStamp mdi cached =
      Handlers.lookupFound (handlerCalls env) ctx (fun extra path => look extra.1 path extra.2) extra userPath key
        pathPermissionTimeStamp mdi cached := by
  unfold lookupFound Handlers.lookupFound
  rw [object_bind, checkStale_shared env ctx look userPath key extra pathPermissionTimeStamp mdi]
  refine bind_congr fun x => ite_congr rfl (fun _ => rfl) fun _ => ?_
  simp only [base_eq]
  cases x.md.type <;> cases cached <;> rfl

theorem lookupStored_shared : lookupStored env ctx look extra.1 userPath key pathPermissionTimeStamp =
    Handlers.lookupStored (handlerCalls env) ctx (fun extra path => look extra.1 path extra.2) extra userPath key
      pathPermissionTimeStamp := by
  unfold lookupStored
  simp only [getMetadata_shared, lookupFound_shared env ctx look userPath key extra pathPermissionTimeStamp]
  rfl

/-- `lookup` of this model is the shared one. -/
theorem lookup_shared (fuel : Nat) : lookup env ctx fuel extra.1 userPath extra.2 =
    Handlers.lookup (handlerCalls env) ctx fuel extra userPath := by
  induction fuel generalizing userPath extra with
  | zero => rfl
  | succ fuel ih =>
    have hlook : (fun (extra : List Str × Option Nat) path => lookup env ctx fuel extra.1 path extra.2) =
        Handlers.lookup (handlerCalls env) ctx fuel :=
      funext fun extra => funext fun path => ih path extra
    unfold lookup Handlers.lookup
    rw [← hlook, toSystemPath_bind]
    refine bind_congr (m := Client) fun l => ?_
    cases toSystemPath l.pmap (fuel + 1) userPath .LOOKUP with
    | none => rfl
    | some result =>
      refine ite_congr rfl (fun _ => rfl) fun _ => bind_congr fun cached => ?_
      cases cached with
      | none => exact lookupStored_shared env ctx _ userPath _ extra _
      | some mdi => exact lookupFound_shared env ctx _ userPath _ extra _ mdi true

/-- What the permission operations call. -/
def handlerPermissions : Handlers.PermissionCalls Client FileMetadata Unit (List Str × Option Nat) where
  toCalls := handlerCalls env
  badArguments := exit
  lookup fuel userPath := lookup env ctx fuel [] userPath none
  changing := ()
  restricting := ()
  change mdi mode uid gid := do
    setMD mdi fun md => { md with toMetadata := changeMetadata md.toMetadata mode uid gid }
    updateACtime mdi
  computeChildren md :=
    let result := computePathPermissionChildren env md.toMetadata
    ({ md with toMetadata := result.1 }, result.2)
  verify version md := { md with pathPermissionVerified := version }
  databaseOperation fuel userPath := databaseOperation ⟨.NONE, userPath, []⟩ fuel
  snapshotVersion := do return (← get).pmap.snapshotVersion

/-- `put_metadata_forced` of this model is the shared one. -/
theorem putMetadataForced_shared (update : Client Unit) (fuel : Nat) : putMetadataForced mdi update fuel =
    Handlers.putMetadataForced (handlerPermissions env ctx) () update mdi fuel := by
  induction fuel with
  | zero => rfl
  | succ fuel ih =>
    unfold putMetadataForced
    rw [ih, getMetadata_shared]
    rfl

/-- `permission_lookup` of this model is the shared one. -/
theorem permissionLookup_shared (fuel : Nat) (gid : Option Nat) : permissionLookup env ctx fuel userPath gid =
    Handlers.permissionLookup (handlerPermissions env ctx) ctx fuel userPath gid := rfl

theorem storeRestrictions_shared (fuel : Nat) : storeRestrictions fuel mdi =
    Handlers.storeRestrictions (handlerPermissions env ctx) fuel mdi := by
  unfold storeRestrictions
  simp only [putMetadataForced_shared env ctx]
  rfl

theorem notePermissionChange_shared (fuel : Nat) : notePermissionChange env fuel userPath mdi =
    Handlers.notePermissionChange (handlerPermissions env ctx) fuel userPath mdi := by
  unfold notePermissionChange Handlers.notePermissionChange
  rw [storeRestrictions_shared env ctx]
  funext l
  show (if S_ISDIR (l.heap mdi).md.mode then _ else _ : Client Int) l =
    (if S_ISDIR (l.heap mdi).md.mode then _ else _ : Client Int) l
  split
  · refine congrFun (a := l.setObject mdi _) (ite_congr rfl (fun _ => ?_) fun _ => rfl)
    refine (client_bind_assoc _ _ _).trans (bind_congr fun err => ?_)
    split <;> rfl
  · rfl

/-- `do_permission_change` of this model is the shared one. -/
theorem doPermissionChange_shared (fuel : Nat) (mode uid gid : Option Nat) :
    doPermissionChange env ctx userPath fuel mode uid gid =
      Handlers.doPermissionChange (handlerPermissions env ctx) ctx userPath fuel mode uid gid := by
  induction fuel generalizing mode uid gid with
  | zero => rfl
  | succ fuel ih =>
    unfold doPermissionChange
    simp only [ih, notePermissionChange_shared env ctx]
    rfl

/-- `lookup_parent` of this model is the shared one. -/
theorem lookupParent_shared (fuel : Nat) : lookupParent env ctx fuel [] userPath =
    Handlers.lookupParent (handlerCalls env) ctx fuel ([], none) userPath := by
  unfold lookupParent Handlers.lookupParent
  rw [lookupParentWith_shared env ctx _ userPath ([], none)]
  exact congrArg (fun look => Handlers.lookupParentWith (handlerCalls env) ctx look ([], none) userPath)
    (funext fun extra => funext fun path => lookup_shared env ctx path extra fuel)

/-- `create_metadata` of this model is the shared one. -/
theorem createMetadata_shared (mdi : Nat) :
    createMetadata mdi = Handlers.createMetadata handlerKeys () mdi := rfl

/-- What `hflat_create` calls. -/
def handlerCreation : Handlers.CreationCalls Client FileMetadata Unit (List Str × Option Nat) where
  toCalls := handlerCalls env
  lookup fuel userPath := lookup env ctx fuel [] userPath none
  lookupParent fuel userPath := lookupParent env ctx fuel [] userPath
  creating := ()
  createDirectoryEntry := createDirectoryEntry env
  initializeMetadata := initializeMetadata env ctx

theorem createIn_shared (fuel mode mdiDir : Nat) : createIn env ctx fuel userPath mode mdi mdiDir =
    Handlers.createIn (handlerCreation env ctx) ctx fuel userPath mode mdi mdiDir := by
  unfold createIn Handlers.createIn
  rw [show (handlerCreation env ctx).toCalls = handlerCalls env from rfl, object_bind]
  refine bind_congr fun dir => ite_congr rfl (fun _ => rfl) fun _ => bind_congr fun err => ite_congr rfl
    (fun _ => rfl) fun _ => bind_congr fun _ => ?_
  refine (client_bind_assoc _ _ _).trans (bind_congr fun err => ?_)
  split <;> rfl

/-- `hflat_create` of this model is the shared one. -/
theorem hflatCreate_shared (fuel mode : Nat) : hflatCreate env ctx fuel userPath mode =
    Handlers.hflatCreate (handlerCreation env ctx) ctx fuel userPath mode := by
  unfold hflatCreate
  simp only [createIn_shared env ctx]
  rfl

end

section

variable (env : Env) (ctx : Context) (blocksize : Nat) (held : List Str) (userPath : Str)

/-- What `hflat_fsync` calls. -/
def handlerFlush : Handlers.FlushCalls Client FileMetadata Unit BlockInfo where
  toKeyCalls := handlerKeys
  fail := exit
  lookup fuel := lookup env ctx fuel held userPath none
  dirtyData mdi := do return (← getMdi mdi).dirtyData
  block := getDi
  hasUpdates x := x.hasUpdates
  size md := md.size
  newSize := newSize blocksize
  grow mdi newsize := do
    setMD mdi fun md => { md with
      size := newsize % (UINT32_MAX + 1)
      blocks := (newsize / blocksize + 1) % (UINT32_MAX + 1) }
    updateACMtime mdi
  flushing _ _ := ()
  dataInvalidate x := dataInvalidate x.key
  putData _ := putData

theorem dirtyData_bind {α : Type} (mdi : Nat) (f : Option Nat → Client α) :
    (handlerFlush env ctx blocksize held userPath).dirtyData mdi >>= f = getMdi mdi >>= fun x => f x.dirtyData :=
  rfl

theorem flushObject_bind {α : Type} (mdi : Nat) (f : Handlers.Object FileMetadata → Client α) :
    (handlerFlush env ctx blocksize held userPath).object mdi >>= f =
      getMdi mdi >>= fun x => f ⟨x.systemPath, x.keyVersion, x.md⟩ := rfl

theorem flush_shared (append : Bool) (mdi di : Nat) (retry : Client Int) (fuel : Nat) :
    flush env blocksize append mdi di retry fuel = getDi di >>= fun x =>
      Handlers.flush (handlerFlush env ctx blocksize held userPath) env.posixFull append mdi di x retry fuel := by
  unfold flush Handlers.flush
  simp only [flushObject_bind]
  refine bind_congr fun x => bind_congr fun y => ite_congr rfl (fun _ => ?_) fun _ => rfl
  exact (client_bind_assoc _ _ _).symm

/-- A block that is read again is the same. -/
theorem getDi_twice {p : BlockInfo → Prop} [DecidablePred p] (di : Nat) (m : Client Int)
    (f : BlockInfo → Client Int) :
    (do if p (← getDi di) then m else getDi di >>= f) = (do let x ← getDi di; if p x then m else f x) := by
  funext l
  show (if p (l.data di) then m else getDi di >>= f : Client Int) l =
    (if p (l.data di) then m else f (l.data di) : Client Int) l
  split <;> rfl

theorem deref_some_bind {α : Type} (mdi : Nat) (f : Nat → Client α) : deref (some mdi) >>= f = f mdi := rfl

/-- `hflat_fsync` of this model is the shared one. -/
theorem hflatFsync_shared (append : Bool) (fuel : Nat) : hflatFsync env ctx blocksize held append userPath fuel =
    Handlers.hflatFsync (handlerFlush env ctx blocksize held userPath) env.posixFull append fuel := by
  induction fuel with
  | zero => rfl
  | succ fuel ih =>
    unfold hflatFsync Handlers.hflatFsync
    rw [ih]
    refine bind_congr fun ⟨err, mdi⟩ => ite_congr rfl (fun _ => rfl) fun _ => ?_
    cases mdi with
    | none => rfl
    | some mdi =>
      rw [deref_some_bind]
      simp only [dirtyData_bind]
      refine bind_congr fun x => ?_
      cases x.dirtyData with
      | none => rfl
      | some di =>
        simp only [flush_shared env ctx blocksize held userPath]
        exact getDi_twice di _ _

/-- What `hflat_write` calls. -/
def handlerWrite : Handlers.WriteCalls Client Nat Nat where
  fail := exit
  lookup fuel := lookup env ctx fuel [] userPath none
  doRw := doRw blocksize
  count size := size
  sizeT size := size
  endsBlock offset size := (offset + size) % blocksize = 0
  setDirtyData := setDirtyData
  fsync append fuel := hflatFsync env ctx blocksize [] append userPath fuel

theorem finishWrite_shared (append : Bool) (offset size : Nat) (retry : Client Int) (fuel : Nat) :
    finishWrite env ctx blocksize append userPath offset size retry fuel =
      Handlers.finishWrite (handlerWrite env ctx blocksize userPath) append offset size retry fuel := by
  refine ite_congr ?_ (fun _ => rfl) fun _ => rfl
  simp [handlerWrite]

/-- `hflat_write` of this model is the shared one. -/
theorem hflatWrite_shared (append : Bool) (fuel : Nat) (buf : Str) (offset : Nat) :
    hflatWrite env ctx blocksize append userPath offset fuel buf =
      Handlers.hflatWrite (handlerWrite env ctx blocksize userPath) append offset fuel buf := by
  induction fuel generalizing buf with
  | zero => rfl
  | succ fuel ih =>
    unfold hflatWrite Handlers.hflatWrite
    simp only [ih, finishWrite_shared]
    refine bind_congr fun ⟨err, mdi⟩ => ite_congr rfl (fun _ => rfl) fun _ => ?_
    cases mdi with
    | none => rfl
    | some mdi =>
      rw [deref_some_bind]
      refine bind_congr fun ⟨size, di⟩ => ?_
      exact ite_congr (propext Int.natCast_eq_zero.symm) (fun _ => rfl) fun _ => rfl

end

end Lone

end HFlat.Fuse

namespace HFlat.Permission

open HFlat.Lib HFlat.PathMap
open HFlat.Replication (KineticRecord StatusCode putSame versionOf)

section

variable (env : Env) (ctx : Context)

/-- What the functions on metadata keys call. -/
def handlerKeys : Fuse.Handlers.KeyCalls M Metadata Unit where
  object mdi := do
    let x ← getMdi mdi
    return ⟨x.systemPath, x.keyVersion, x.md⟩
  setVersion mdi version := setMdi mdi fun x => { x with keyVersion := version }
  setRecord mdi record := setMdi mdi fun x => { x with md := record.value, keyVersion := record.version }
  get _ key := do
    return ((← get).store key).elim (.error .REMOTE_NOT_FOUND) .ok
  put _ _ key expected md := do
    let newVersion ← generateUuid env
    let (status, record) := putSame ((← get).store key) expected ⟨md, newVersion⟩
    modify fun fs => { fs with store := Function.update fs.store key record }
    return (status, newVersion)
  cacheInvalidate := cacheInvalidate

/-- What `lookup` calls. -/
def handlerCalls : Fuse.Handlers.Calls M Metadata Unit Unit where
  toKeyCalls := handlerKeys env
  fail := fail
  setMD := setMD
  newObject := newMetadataInfo
  cacheGet _ := cacheGet env
  cacheBlock _ := pure ()
  cacheAdd := cacheAdd env
  toSystemPath fuel userPath := do
    (toSystemPath (← get).pmap fuel userPath .LOOKUP).elim fail pure
  databaseUpdate := databaseUpdate
  base md := md
  inherit := inheritPathPermissions env
  forward inode md := { md with type := .HARDLINK_S, inodeNumber := inode }
  inheriting _ := ()
  above _ _ := ()
  found _ _ := ()
  pointer _ := none

theorem object_bind {α : Type} (mdi : Nat) (f : Fuse.Handlers.Object Metadata → M α) :
    (handlerCalls env).object mdi >>= f = getMdi mdi >>= fun x => f ⟨x.systemPath, x.keyVersion, x.md⟩ := rfl

theorem base_eq (md : Metadata) : (handlerCalls env).base md = md := rfl

theorem toSystemPath_bind {α : Type} (fuel : Nat) (userPath : Str) (f : Str × Int → M α) :
    (handlerCalls env).toSystemPath fuel userPath >>= f =
      get >>= fun l => (toSystemPath l.pmap fuel userPath .LOOKUP).elim fail f := by
  funext l
  show ((((toSystemPath l.pmap fuel userPath .LOOKUP).elim fail pure : M (Str × Int)) >>= f) l) =
    ((toSystemPath l.pmap fuel userPath .LOOKUP).elim fail f : M α) l
  cases toSystemPath l.pmap fuel userPath .LOOKUP <;> rfl

/-- `get_metadata` of this model is the shared one. -/
theorem getMetadata_shared (mdi : Nat) : getMetadata mdi = Fuse.Handlers.getMetadata (handlerKeys env) mdi := by
  unfold getMetadata Fuse.Handlers.getMetadata
  funext fs
  simp only [handlerKeys, getMdi, bind_assoc, pure_bind]
  simp only [bind, StateT.bind, get, getThe, MonadStateOf.get, StateT.get, pure, Option.bind_some]
  cases fs.store (fs.heap mdi).systemPath <;> rfl

/-- `put_metadata` of this model is the shared one. -/
theorem putMetadata_shared (mdi : Nat) :
    putMetadata env mdi = Fuse.Handlers.putMetadata (handlerKeys env) () mdi := by
  refine StateT.ext fun fs => ?_
  by_cases h : versionOf (fs.store (fs.heap mdi).systemPath) = (fs.heap mdi).keyVersion
  · simp [putMetadata, Fuse.Handlers.putMetadata, handlerKeys, getMdi, setMdi, generateUuid, putSame, if_pos h]
  · simp [putMetadata, Fuse.Handlers.putMetadata, handlerKeys, getMdi, setMdi, generateUuid, putSame, if_neg h]

/-- `create_metadata` of this model is the shared one. -/
theorem createMetadata_shared (mdi : Nat) :
    createMetadata env mdi = Fuse.Handlers.createMetadata (handlerKeys env) () mdi := by
  refine StateT.ext fun fs => ?_
  by_cases h : versionOf (fs.store (fs.heap mdi).systemPath) = []
  · simp [createMetadata, Fuse.Handlers.createMetadata, handlerKeys, getMdi, setMdi, generateUuid, putSame,
      if_pos h]
  · simp [createMetadata, Fuse.Handlers.createMetadata, handlerKeys, getMdi, setMdi, generateUuid, putSame,
      if_neg h]

variable (look : Str → M (Int × Option Nat)) (userPath key : Str)

theorem lookupParentWith_shared : lookupParentWith ctx look userPath =
    Fuse.Handlers.lookupParentWith (handlerCalls env) ctx (fun _ path => look path) () userPath := by
  unfold lookupParentWith Fuse.Handlers.lookupParentWith
  cases cutParent userPath with
  | none => rfl
  | some path =>
    refine bind_congr fun ⟨err, mdiParent⟩ => ?_
    cases mdiParent <;> rfl

variable (pathPermissionTimeStamp : Int) (mdi : Nat)

theorem inheritFromParent_shared (parent : Nat) : inheritFromParent env ctx look userPath mdi parent = (do
    Fuse.Handlers.inheritFrom (handlerCalls env) ctx (look userPath) mdi (← getMdi parent).md) := by
  unfold inheritFromParent
  rw [putMetadata_shared env]
  rfl

theorem checkStale_shared : checkStale env ctx look userPath pathPermissionTimeStamp mdi =
    Fuse.Handlers.checkStale (handlerCalls env) ctx (fun _ path => look path) () userPath key
      pathPermissionTimeStamp mdi := by
  unfold checkStale Fuse.Handlers.checkStale
  rw [object_bind, lookupParentWith_shared env]
  refine bind_congr fun x => ite_congr rfl (fun _ => bind_congr fun ⟨err, mdiParent⟩ => ?_) fun _ => rfl
  cases mdiParent with
  | none => rfl
  | some parent => 
    simp only [inheritFromParent_shared]
    rfl

theorem lookupFound_shared (cached : Bool) :
    lookupFound env ctx look userPath key pathPermissionTimeStamp mdi cached =
      Fuse.Handlers.lookupFound (handlerCalls env) ctx (fun _ path => look path) () userPath key
        pathPermissionTimeStamp mdi cached := by
  unfold lookupFound Fuse.Handlers.lookupFound
  rw [object_bind, checkStale_shared env ctx look userPath key pathPermissionTimeStamp mdi]
  refine bind_congr fun x => ite_congr rfl (fun _ => rfl) fun _ => ?_
  simp only [base_eq]
  cases x.md.type <;> cases cached <;> rfl

/-- `lookup` of this model is the shared one. -/
theorem lookup_shared (fuel : Nat) : lookup env ctx fuel userPath =
    Fuse.Handlers.lookup (handlerCalls env) ctx fuel () userPath := by
  induction fuel generalizing userPath with
  | zero => rfl
  | succ fuel ih =>
    have hlook : (fun (_ : Unit) path => lookup env ctx fuel path) =
        Fuse.Handlers.lookup (handlerCalls env) ctx fuel :=
      funext fun _ => funext fun path => ih path
    unfold lookup Fuse.Handlers.lookup
    rw [← hlook, toSystemPath_bind]
    refine bind_congr (m := M) fun l => ?_
    cases toSystemPath l.pmap (fuel + 1) userPath .LOOKUP with
    | none => rfl
    | some result =>
      refine ite_congr rfl (fun _ => rfl) fun _ => bind_congr fun cached => ?_
      cases cached with
      | none => 
        simp only [getMetadata_shared env, lookupFound_shared env ctx]
        rfl
      | some mdi => exact lookupFound_shared env ctx _ userPath _ _ mdi true

/-- What the permission operations call. -/
def handlerPermissions : Fuse.Handlers.PermissionCalls M Metadata Unit Unit where
  toCalls := handlerCalls env
  badArguments := fail
  lookup fuel userPath := lookup env ctx fuel userPath
  changing := ()
  restricting := ()
  change mdi mode uid gid := setMD mdi fun md => changeMetadata md mode uid gid
  computeChildren := computePathPermissionChildren env
  verify version md := { md with pathPermissionVerified := version }
  databaseOperation _ userPath := databaseOperation ⟨.NONE, userPath, []⟩
  snapshotVersion := do return (← get).pmap.snapshotVersion

/-- `put_metadata_forced` of this model is the shared one. -/
theorem putMetadataForced_shared (update : Metadata → Metadata) (fuel : Nat) :
    putMetadataForced env mdi update fuel =
      Fuse.Handlers.putMetadataForced (handlerPermissions env ctx) () (setMD mdi update) mdi fuel := by
  induction fuel with
  | zero => rfl
  | succ fuel ih =>
    unfold putMetadataForced
    rw [ih, getMetadata_shared env, putMetadata_shared env]
    rfl

/-- `permission_lookup` of this model is the shared one. -/
theorem permissionLookup_shared (fuel : Nat) (gid : Option Nat) : permissionLookup env ctx fuel userPath gid =
    Fuse.Handlers.permissionLookup (handlerPermissions env ctx) ctx fuel userPath gid := by
  refine bind_congr fun ⟨err, mdi⟩ => ?_
  cases mdi <;> rfl

theorem notePermissionChange_shared (fuel : Nat) : notePermissionChange env fuel userPath mdi =
    Fuse.Handlers.notePermissionChange (handlerPermissions env ctx) fuel userPath mdi := by
  unfold notePermissionChange
  simp only [putMetadataForced_shared env ctx]
  rfl

/-- `do_permission_change` of this model is the shared one. -/
theorem doPermissionChange_shared (fuel : Nat) (mode uid gid : Option Nat) :
    doPermissionChange env ctx userPath fuel mode uid gid =
      Fuse.Handlers.doPermissionChange (handlerPermissions env ctx) ctx userPath fuel mode uid gid := by
  induction fuel generalizing mode uid gid with
  | zero => rfl
  | succ fuel ih =>
    unfold doPermissionChange Fuse.Handlers.doPermissionChange
    simp only [ih, notePermissionChange_shared env ctx, permissionLookup_shared, putMetadata_shared env]
    refine bind_congr fun ⟨err, mdi⟩ => ite_congr rfl (fun _ => rfl) fun _ => ?_
    cases mdi <;> rfl
/-- `lookup_parent` of this model is the shared one. -/
theorem lookupParent_shared (fuel : Nat) : lookupParent env ctx fuel userPath =
    Fuse.Handlers.lookupParent (handlerCalls env) ctx fuel () userPath := by
  unfold lookupParent Fuse.Handlers.lookupParent
  rw [lookupParentWith_shared env, funext fun path => lookup_shared env ctx path fuel]

/-- What `hflat_create` calls. -/
def handlerCreation : Fuse.Handlers.CreationCalls M Metadata Unit Unit where
  toCalls := handlerCalls env
  lookup fuel userPath := lookup env ctx fuel userPath
  lookupParent fuel userPath := lookupParent env ctx fuel userPath
  creating := ()
  createDirectoryEntry := createDirectoryEntry env
  initializeMetadata := initializeMetadata env ctx

/-- `hflat_create` of this model is the shared one. -/
theorem hflatCreate_shared (fuel mode : Nat) : hflatCreate env ctx fuel userPath mode =
    Fuse.Handlers.hflatCreate (handlerCreation env ctx) ctx fuel userPath mode := by
  unfold hflatCreate
  simp only [createMetadata_shared env]
  refine bind_congr fun ⟨err, mdi⟩ => ite_congr rfl (fun _ => rfl) fun _ =>
    ite_congr rfl (fun _ => rfl) fun _ => ?_
  refine bind_congr fun ⟨err, mdiDir⟩ => ite_congr rfl (fun _ => rfl) fun _ =>
    ite_congr rfl (fun _ => rfl) fun _ => ?_
  cases mdi with
  | none => rfl
  | some mdi => cases mdiDir <;> rfl

end

end HFlat.Permission

namespace HFlat.Data.File

open HFlat.Lib HFlat.Permission
open HFlat.Replication (KineticRecord StatusCode)
open HFlat.Fuse (Inode)

/-- What the functions on the metadata key of the file call. -/
def handlerKeys : Fuse.Handlers.KeyCalls Client Inode Purpose where
  object mdi := do
    let x ← getMdi mdi
    return ⟨[], x.keyVersion, x.md⟩
  setVersion mdi version := setMdi mdi fun x => { x with keyVersion := version }
  setRecord mdi record := setMdi mdi fun x => { x with md := record.value, keyVersion := record.version }
  get _ _ := perform .get
  put why _ _ expected md := perform (.put why expected md)
  cacheInvalidate _ := cacheInvalidate

/-- `get_metadata` of this model is the shared one. -/
theorem getMetadata_shared (mdi : Nat) : getMetadata mdi = Fuse.Handlers.getMetadata handlerKeys mdi := by
  funext l
  refine congrArg (Prog.call _) (funext fun result => ?_)
  rcases result with e | record
  · cases e <;> rfl
  · rfl

/-- `put_metadata` of this model is the shared one. -/
theorem putMetadata_shared (why : Purpose) (mdi : Nat) :
    putMetadata why mdi = Fuse.Handlers.putMetadata handlerKeys why mdi := rfl

section

variable (env : Env) (ctx : Context) (blocksize : Nat)

/-- What `hflat_fsync` calls. -/
def handlerFlush : Fuse.Handlers.FlushCalls Client Inode Purpose BlockInfo where
  toKeyCalls := handlerKeys
  fail := exit
  lookup fuel := lookup env ctx fuel
  dirtyData mdi := do return (← getMdi mdi).dirtyData
  block := getDi
  hasUpdates x := x.info.hasUpdates
  size md := md.size
  newSize := newSize blocksize
  grow mdi newsize := setMdi mdi fun x => { x with md := { x.md with size := newsize % 2 ^ 32 } }
  flushing x newsize := .flush x.key x.calls newsize
  dataInvalidate x := dataInvalidate x.key
  putData serialized di fuel := putData serialized di (fuel - 1)

theorem dirtyData_bind {α : Type} (mdi : Nat) (f : Option Nat → Client α) :
    (handlerFlush env ctx blocksize).dirtyData mdi >>= f = getMdi mdi >>= fun x => f x.dirtyData := rfl

/-- `hflat_fsync` of this model is the shared one. -/
theorem hflatFsync_shared (append : Bool) (fuel : Nat) : hflatFsync env ctx blocksize append fuel =
    Fuse.Handlers.hflatFsync (handlerFlush env ctx blocksize) env.posixFull append fuel := by
  induction fuel with
  | zero => rfl
  | succ fuel ih =>
    unfold hflatFsync Fuse.Handlers.hflatFsync
    rw [ih]
    refine bind_congr fun ⟨err, mdi⟩ => ite_congr rfl (fun _ => rfl) fun _ => ?_
    cases mdi with
    | none => rfl
    | some mdi =>
      simp only [dirtyData_bind]
      refine bind_congr fun x => ?_
      cases x.dirtyData with
      | none => rfl
      | some di =>
        rfl

/-- What `hflat_write` calls. -/
def handlerWrite : Fuse.Handlers.WriteCalls Client Int (Option Nat) where
  fail := exit
  lookup fuel := lookup env ctx fuel
  doRw := doRw blocksize
  count size := size
  sizeT := sizeT
  endsBlock offset size := (offset + sizeT size) % 2 ^ 64 % blocksize = 0
  setDirtyData := setDirtyData
  fsync := hflatFsync env ctx blocksize

theorem finishWrite_shared (append : Bool) (offset : Nat) (size : Int) (retry : Client Int) (fuel : Nat) :
    finishWrite env ctx blocksize append offset size retry fuel =
      Fuse.Handlers.finishWrite (handlerWrite env ctx blocksize) append offset size retry fuel := by
  refine ite_congr ?_ (fun _ => rfl) fun _ => rfl
  simp [handlerWrite]

/-- `hflat_write` of this model is the shared one. -/
theorem hflatWrite_shared (append : Bool) (fuel : Nat) (buf : Str) (offset : Nat) :
    hflatWrite env ctx blocksize append fuel buf offset =
      Fuse.Handlers.hflatWrite (handlerWrite env ctx blocksize) append offset fuel buf := by
  induction fuel generalizing buf with
  | zero => rfl
  | succ fuel ih =>
    unfold hflatWrite Fuse.Handlers.hflatWrite
    simp only [ih, finishWrite_shared]
    rfl

end

end HFlat.Data.File
