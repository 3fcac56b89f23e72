/-
  `hflat_chown` (`fuseops/permission.cc`) of a caller who is not the superuser, with all fields of the
  metadata and any other clients.

  `do_permission_change` asserts that no mode is given, and then overwrites its parameter with the mode
  that the file shall have. If another client has stored the metadata since the lookup, it calls itself
  with that mode, and the assertion fails. Without such a collision what is stored is the metadata of the
  version that is replaced, with the changes that were asked for (`chown_faithful`).

  The requests of `lookup` (`Attributes.lean`) are joined by those of the permission change. The other
  clients are any programs that read and store metadata.
-/
import HFlat.Fuse.Serial

namespace HFlat.Fuse.Attributes.Chown

open HFlat.Lib HFlat.Permission
open HFlat.Replication (KineticRecord StatusCode versionOf putSame)

/-! ## Requests of a permission change -/

/-- What a `Put` is for: the change itself (`put_metadata`), or the restrictions that a directory has for
    its children (`put_metadata_forced`). -/
inductive Why where
  | change
  | restrictions
  deriving DecidableEq, Repr

/-- The accesses of a permission change besides those of `Attributes`. -/
inductive Change where
  | put (key expected : Str) (md : FileMetadata) (why : Why)
  /-- `std::time` -/
  | now
  /-- an entry of type `NONE` -/
  | databaseOperation (origin : Str)
  | snapshotVersion
  /-- `assert(mode == (mode_t)-1)` fails -/
  | assertionFailed

/-- What the service answers to them. -/
abbrev ChangeRes : Change → Type
  | .put _ _ _ _ => StatusCode × Str
  | .now => Int
  | .databaseOperation _ => Int
  | .snapshotVersion => Nat
  | .assertionFailed => Unit

/-- A choice for an access of `Attributes`, or a number for the clock and the version of the snapshot. -/
inductive Choice where
  | store (choice : Attributes.Choice)
  | number (n : Int)
  deriving DecidableEq, Repr

/-- A `Put` of the permission change that has taken effect. -/
structure Write where
  key : Str
  old : Option FileMetadata
  new : FileMetadata
  why : Why
  deriving DecidableEq, Repr

/-- The state of `Attributes`, what the client has stored, and whether an assertion has failed. -/
structure State where
  store : Attributes.State
  writes : List Write
  failed : Bool

section Serve

variable (uuid : Nat → Str)

/-- `Put` with `REQUIRE_SAME_VERSION` under a new version. -/
def State.put (s : State) (key expected : Str) (md : FileMetadata) (why : Why) : StatusCode × State :=
  let result := putSame (s.store.record key) expected ⟨md, uuid s.store.uuids⟩
  (result.1,
    { s with
      store := { s.store with
        record := Function.update s.store.record key result.2, uuids := s.store.uuids + 1 }
      writes := if result.1 = .OK then
          s.writes ++ [⟨key, (s.store.record key).map KineticRecord.value, md, why⟩] else s.writes })

/-- A version has been generated. -/
def State.tick (s : State) : State := { s with store := { s.store with uuids := s.store.uuids + 1 } }

/-- One access of a client. -/
def serve (s : State) : (r : Req ⊕ Change) → Choice → Option (SumRes Res ChangeRes r × State)
  | .inl r, .store choice =>
      match Attributes.serve uuid s.store r choice with
      | some (x, store) => some (x, { s with store := store })
      | none => none
  | .inr (.put key expected md why), .store .done =>
      let (status, s') := s.put uuid key expected md why
      some ((status, uuid s.store.uuids), s')
  | .inr (.put _ _ _ _), .store .unreachable =>
      some ((.REMOTE_REMOTE_CONNECTION_ERROR, uuid s.store.uuids), s.tick)
  | .inr (.put key expected md why), .store .lost =>
      some ((.REMOTE_REMOTE_CONNECTION_ERROR, uuid s.store.uuids), (s.put uuid key expected md why).2)
  | .inr .now, .number t => some (t, s)
  | .inr (.databaseOperation _), .number err => some (err, s)
  | .inr .snapshotVersion, .number version => some (version.toNat, s)
  | .inr .assertionFailed, _ => some ((), { s with failed := true })
  | _, _ => none

/-- The service that all clients access. -/
def service : Service (Req ⊕ Change) (SumRes Res ChangeRes) Choice State := ⟨serve uuid⟩

end Serve

/-! ## The client -/

/-- Computations of the client that changes permissions. -/
abbrev Client := StateT Local (Prog (Req ⊕ Change) (SumRes Res ChangeRes))

/-- A program for metadata keys among the further requests. -/
def among {α : Type} (m : Attributes.Client α) : Client α := embedded m

/-- One request for a change. -/
def ask (r : Change) : Client (ChangeRes r) := StateT.lift (Prog.perform (Sum.inr r : Req ⊕ Change))

/-- The process ends. -/
def stop {α : Type} : Client α := StateT.lift Prog.stop

/-- `updateACtime`. -/
def updateACtime (md : FileMetadata) (now : Int) : FileMetadata :=
  { md with atime := seconds now, ctime := seconds now }

/-- `changeMetadata` on all the metadata of a file. -/
def changeMetadata (md : FileMetadata) (mode uid gid : Option Nat) : FileMetadata :=
  { md with toMetadata := Permission.changeMetadata md.toMetadata mode uid gid }

/-- `put_metadata` -/
def putMetadata (mdi : Nat) (why : Why) : Client Int := do
  let x ← among (getMdi mdi)
  let (status, newVersion) ← ask (.put x.systemPath x.keyVersion x.md why)
  match status with
  | .OK =>
      among (setMdi mdi fun x => { x with keyVersion := newVersion })
      return 0
  | status =>
      among (cacheInvalidate x.systemPath)
      if status = .REMOTE_VERSION_MISMATCH then return -EAGAIN
      if status = .REMOTE_NOT_FOUND then return -ENOENT
      return - EIO

/-- `put_metadata_forced`, where the update is to set `path_permission_verified`. -/
def putMetadataForced (version mdi : Nat) : Nat → Client Int
  | 0 => stop
  | fuel + 1 => do
      among (setMdi mdi fun x => { x with md := { x.md with pathPermissionVerified := version } })
      let err ← putMetadata mdi .restrictions
      if err ≠ -EAGAIN then return err
      let err ← among (getMetadata mdi)
      if err ≠ 0 then return err
      putMetadataForced version mdi fuel

section Operations

variable (env : Env) (ctx : Context)

/-- `permission_lookup`. Arguments that are `-1` in the source are `none` here. -/
def permissionLookup (fuel : Nat) (userPath : Str) (gid : Option Nat) : Client (Int × Option Nat) := do
  let (err, mdi) ← among (lookup env ctx fuel userPath none)
  if err ≠ 0 then return (err, mdi)
  if ctx.uid = 0 then return (0, mdi)
  let p ← among (deref mdi)
  if ctx.uid ≠ (← among (getMdi p)).md.uid then return (-EPERM, mdi)
  if gid ≠ none ∧ gid ≠ some ctx.gid then return (-EPERM, mdi)
  return (0, mdi)

/-- The second write of `do_permission_change`, once the database knows of the change. -/
def storeRestrictions (fuel mdi : Nat) : Client Int := do
  let version ← ask .snapshotVersion
  let err ← putMetadataForced version mdi fuel
  if err ≠ 0 ∧ err ≠ -ENOENT then stop
  return 0

/-- The end of `do_permission_change`: note in the database if path permissions changed. -/
def notePermissionChange (fuel : Nat) (userPath : Str) (mdi : Nat) : Client Int := do
  let md := (← among (getMdi mdi)).md
  if S_ISDIR md.mode then
    let result := computePathPermissionChildren env md.toMetadata
    among (setMdi mdi fun x => { x with md := { x.md with toMetadata := result.1 } })
    if result.2 then
      let err ← ask (.databaseOperation userPath)
      if err ≠ 0 then stop
      storeRestrictions fuel mdi
    else return 0
  else return 0

/-- `do_permission_change`, with a bound on the number of retries. -/
def doPermissionChange (userPath : Str) : Nat → Option Nat → Option Nat → Option Nat → Client Int
  | 0, _, _, _ => stop
  | fuel + 1, mode, uid, gid => do
      let (err, mdi) ← permissionLookup env ctx (fuel + 1) userPath gid
      if err ≠ 0 then return err
      let mdi ← among (deref mdi)
      let md := (← among (getMdi mdi)).md
      if ctx.uid ≠ 0 ∧ (uid ≠ none ∨ gid ≠ none) ∧ mode ≠ none then
        ask .assertionFailed
        stop
      let mode := changedMode ctx md.toMetadata mode uid gid
      let now : Int ← ask .now
      among (setMdi mdi fun x => { x with md := updateACtime (changeMetadata x.md mode uid gid) now })
      let err ← putMetadata mdi .change
      if err = -EAGAIN then doPermissionChange userPath fuel mode uid gid
      else if err ≠ 0 then return err
      else notePermissionChange env (fuel + 1) userPath mdi

/-- `hflat_chown`. -/
def hflatChown (fuel : Nat) (userPath : Str) (uid gid : Option Nat) : Client Int :=
  doPermissionChange env ctx userPath fuel none uid gid

end Operations

/-- One client changes owner or group, the others run any programs. -/
def start {ι : Type} (env : Env) (ctx : Context) (fuel : Nat) (userPath : Str) (uid gid : Option Nat)
    (s : Attributes.State) (l : Local) (others : ι → Prog Req Res (Int × Local)) :
    Config (Req ⊕ Change) (SumRes Res ChangeRes) State (Option ι) (Int × Local) :=
  ⟨⟨s, [], false⟩, fun
    | none => (hflatChown env ctx fuel userPath uid gid).run l
    | some i => (others i).embed⟩

/-! ## What the writes are to be -/

/-- Mode without the set-uid and set-gid bits, user and group as requested, access and change time new. -/
def Changed (uid gid : Option Nat) (old new : FileMetadata) : Prop :=
  new = { old with
    mode := old.mode &&& 0o37777771777, uid := uid.getD old.uid, gid := gid.getD old.gid
    atime := new.atime, ctime := new.ctime }

/-- Only path permissions change. -/
def Restricted (old new : FileMetadata) : Prop :=
  new = { old with
    pathPermissionChildren := new.pathPermissionChildren
    pathPermissionVerified := new.pathPermissionVerified }

/-- How the metadata before and after a `Put` are related. -/
def Why.Meant (uid gid : Option Nat) : Why → FileMetadata → FileMetadata → Prop
  | .change => Changed uid gid
  | .restrictions => Restricted

/-- What is written is made of the version that it replaces. -/
def Write.Faithful (uid gid : Option Nat) (w : Write) : Prop :=
  ∃ old, w.old = some old ∧ w.why.Meant uid gid old w.new

/-- The change is not refused because another client has stored the metadata since the lookup. -/
def accepted (s : State) : Req ⊕ Change → Choice → Bool
  | .inr (.put key expected _ .change), .store .done => versionOf (s.store.record key) = expected
  | _, _ => true

section Changes

variable {ctx : Context} {uid gid : Option Nat} {md old new : FileMetadata}

theorem changedMode_given (hroot : ctx.uid ≠ 0) (hgiven : uid ≠ none ∨ gid ≠ none) (md : Metadata) :
    changedMode ctx md none uid gid = some (md.mode &&& 0o37777771777) := by
  have hbits : (S_ISUID ^^^ (2 ^ 32 - 1)) &&& (S_ISGID ^^^ (2 ^ 32 - 1)) = 0o37777771777 := by decide
  unfold changedMode
  rw [if_pos ⟨hroot, hgiven⟩, Nat.and_assoc, hbits]

theorem changed_changeMetadata (hroot : ctx.uid ≠ 0) (hgiven : uid ≠ none ∨ gid ≠ none) (now : Int) :
    Changed uid gid md (updateACtime (changeMetadata md (changedMode ctx md.toMetadata none uid gid) uid gid)
      now) := by
  rw [changedMode_given hroot hgiven]
  rfl

theorem restricted_refl (md : FileMetadata) : Restricted md md := rfl

theorem Restricted.verified (h : Restricted old new) (version : Nat) :
    Restricted old { new with pathPermissionVerified := version } := by
  unfold Restricted at h ⊢
  rw [h]

theorem Restricted.children (h : Restricted old new) (env : Env) :
    Restricted old { new with toMetadata := (computePathPermissionChildren env new.toMetadata).1 } := by
  obtain ⟨v, hv⟩ := computePathPermissionChildren_only env new.toMetadata
  unfold Restricted at h ⊢
  rw [hv, h]

end Changes

/-! ## The client follows its protocol -/

/-- What the client knows, and whether it has stored the change. -/
def protocol (env : Env) (uid gid : Option Nat) :
    Protocol (Req ⊕ Change) (SumRes Res ChangeRes) (Knowledge × Bool) where
  allowed t
    | .inl r => (Attributes.protocol env).allowed t.1 r
    | .inr (.put key expected md why) => t.1.outdated key expected ∨
        ∃ md0, t.1.known key expected md0 ∧ why.Meant uid gid md0 md
    | .inr .assertionFailed => False
    | .inr _ => True
  answers t
    | .inl r, x => (Attributes.protocol env).answers t.1 r x
    | .inr (.put _ _ _ .change), (status, _) => status ≠ .REMOTE_VERSION_MISMATCH
    | .inr _, _ => True
  next t
    | .inl r, x => ((Attributes.protocol env).next t.1 r x, t.2)
    | .inr (.put key _ md why), (.OK, version) => (t.1.add key version md, t.2 || why = .change)
    | .inr (.put key expected _ _), (.REMOTE_VERSION_MISMATCH, _) => (t.1.replace key expected, t.2)
    | .inr _, _ => t

theorem protocol_extends (env : Env) (uid gid : Option Nat) :
    (protocol env uid gid).Extends (Attributes.protocol env) :=
  ⟨fun _ _ _ h => h, fun _ _ _ _ h => h, fun _ _ _ _ => rfl⟩

section Programs

variable {env : Env} {ctx : Context} {uid gid : Option Nat} {l : Local} {k : Knowledge} {b : Bool} {mdi : Nat}
variable {α : Type}

section Bind

variable {β : Type} {Q : β → Local → Knowledge × Bool → Prop} {t : Knowledge × Bool}

theorem among_getMdi_bind {f : MetadataInfo → Client β}
    (h : Conforms (protocol env uid gid) (f (l.heap mdi)) Q l t) :
    Conforms (protocol env uid gid) (among (getMdi mdi) >>= f) Q l t := h

theorem among_setMdi_bind {g : MetadataInfo → MetadataInfo} {f : Unit → Client β}
    (h : Conforms (protocol env uid gid) (f ()) Q (l.setObject mdi (g (l.heap mdi))) t) :
    Conforms (protocol env uid gid) (among (setMdi mdi g) >>= f) Q l t := h

theorem among_cacheInvalidate_bind {key : Str} {f : Unit → Client β}
    (h : Conforms (protocol env uid gid) (f ()) Q (l.setCache key none) t) :
    Conforms (protocol env uid gid) (among (cacheInvalidate key) >>= f) Q l t := h

theorem among_deref_bind {r : Option Nat} {f : Nat → Client β}
    (h : ∀ mdi, r = some mdi → Conforms (protocol env uid gid) (f mdi) Q l t) :
    Conforms (protocol env uid gid) (among (deref r) >>= f) Q l t := by
  cases r with
  | none => exact Conforms.bind Conforms.stop
  | some mdi => exact h mdi rfl

/-- A request that teaches the client nothing. -/
theorem ask_bind {r : Change} {f : ChangeRes r → Client β} (ha : (protocol env uid gid).allowed t (.inr r))
    (hn : ∀ x : ChangeRes r, (protocol env uid gid).next t (.inr r) x = t)
    (h : ∀ x, Conforms (protocol env uid gid) (f x) Q l t) :
    Conforms (protocol env uid gid) (ask r >>= f) Q l t := by
  refine (Conforms.call (l := l) (Q := fun _ l' t' => l' = l ∧ t' = t) ha fun x _ => ⟨rfl, hn x⟩).then ?_
  rintro x l' t' ⟨rfl, rfl⟩
  exact h x

end Bind

/-- The object may be stored: nothing but path permissions differs from what is known, or no `Put` can
    succeed. -/
def Storable (k : Knowledge) (x : MetadataInfo) : Prop :=
  k.outdated x.systemPath x.keyVersion ∨
    ∃ md0, k.known x.systemPath x.keyVersion md0 ∧ Restricted md0 x.md

/-- `put_metadata`: the object is as stored, or the error says what happened. -/
theorem putMetadata_conforms {why : Why}
    (ha : (protocol env uid gid).allowed (k, b) (.inr (.put (l.heap mdi).systemPath (l.heap mdi).keyVersion
      (l.heap mdi).md why))) :
    Conforms (protocol env uid gid) (putMetadata mdi why) (fun err l' t' =>
      (err = 0 → Storable t'.1 (l'.heap mdi) ∧ t'.2 = (b || why = .change)) ∧ (err ≠ 0 → t'.2 = b) ∧
      (why = .change → err ≠ -EAGAIN)) l (k, b) := by
  refine among_getMdi_bind ?_
  refine (Conforms.call (l := l) (Q := fun x l' t' => l' = l ∧
    (protocol env uid gid).answers (k, b) (.inr (.put (l.heap mdi).systemPath (l.heap mdi).keyVersion
      (l.heap mdi).md why)) x ∧
    t' = (protocol env uid gid).next (k, b) (.inr (.put (l.heap mdi).systemPath (l.heap mdi).keyVersion
      (l.heap mdi).md why)) x) ha fun x hx => ⟨rfl, hx, rfl⟩).then ?_
  rintro ⟨status, version⟩ l1 t1 ⟨rfl, hx, rfl⟩
  cases status with
  | OK =>
    refine among_setMdi_bind (Conforms.pure ⟨fun _ => ⟨?_, rfl⟩, fun h => absurd rfl h, fun _ => by decide⟩)
    rw [show (l1.setObject mdi _).heap mdi = _ from Function.update_self _ _ _]
    exact Or.inr ⟨_, Or.inr ⟨rfl, rfl, rfl⟩, restricted_refl _⟩
  | REMOTE_VERSION_MISMATCH =>
    refine among_cacheInvalidate_bind (Conforms.pure ⟨fun h => absurd h (by decide), fun _ => rfl, ?_⟩)
    rintro rfl
    exact absurd rfl hx
  | _ =>
    exact among_cacheInvalidate_bind (Conforms.pure ⟨fun h => absurd h (by decide), fun _ => rfl,
      fun _ => by decide⟩)

/-- What the store says of the object is known. -/
theorem getMetadata_known (l : Local) (k : Knowledge) (mdi : Nat) :
    Conforms (Attributes.protocol env) (getMetadata mdi) (fun err l' k' => err = 0 →
      k'.known (l'.heap mdi).systemPath (l'.heap mdi).keyVersion (l'.heap mdi).md) l k := by
  refine getMdi_bind ?_
  refine (Conforms.call (l := l) (Q := fun x l' k' => l' = l ∧
    k' = (Attributes.protocol env).next k (.get (l.heap mdi).systemPath) x) trivial
    fun x _ => ⟨rfl, rfl⟩).then ?_
  rintro record l' k' ⟨rfl, rfl⟩
  cases record with
  | ok record =>
    refine setMdi_bind (Conforms.pure fun _ => ?_)
    rw [show (l'.setObject mdi _).heap mdi = _ from Function.update_self _ _ _]
    exact Or.inr ⟨rfl, rfl, rfl⟩
  | error status =>
    cases status with
    | _ => exact Conforms.pure fun h => absurd h (by decide)

/-- Whether the change has been stored does not depend on the restrictions. -/
abbrev Same (b : Bool) : Int → Local → Knowledge × Bool → Prop := fun _ _ t => t.2 = b

theorem putMetadataForced_conforms (version : Nat) (fuel : Nat) (h : Storable k (l.heap mdi)) :
    Conforms (protocol env uid gid) (putMetadataForced version mdi fuel) (Same b) l (k, b) := by
  induction fuel generalizing l k with
  | zero => exact Conforms.stop
  | succ fuel ih =>
    refine among_setMdi_bind ?_
    have hself : ∀ x, (l.setObject mdi x).heap mdi = x := fun x => Function.update_self _ _ _
    refine (putMetadata_conforms (b := b) ?_).then fun err l1 t1 h1 => ?_
    · rw [hself]
      exact h.imp_right fun ⟨md0, hknown, hmd⟩ => ⟨md0, hknown, hmd.verified version⟩
    have hsame : t1.2 = b := by
      by_cases herr : err = 0
      · rw [(h1.1 herr).2]
        simp
      · exact h1.2.1 herr
    refine Conforms.ite (fun _ => Conforms.pure hsame) fun _ => ?_
    have hget : Conforms (protocol env uid gid) (among (getMetadata mdi)) _ l1 (t1.1, t1.2) :=
      Conforms.embed (protocol_extends env uid gid) t1.2 (getMetadata_known l1 t1.1 mdi)
    refine hget.then fun err l2 t2 h2 => ?_
    obtain ⟨hknown, hsame2⟩ := h2
    have hsame2 : t2.2 = b := hsame2.trans hsame
    refine Conforms.ite (fun _ => Conforms.pure hsame2) fun herr => ?_
    have hstorable : Storable t2.1 (l2.heap mdi) :=
      Or.inr ⟨_, hknown (not_not.mp herr), restricted_refl _⟩
    have hrest := ih hstorable
    rwa [← hsame2] at hrest ⊢

theorem notePermissionChange_conforms (fuel : Nat) (userPath : Str) (h : Storable k (l.heap mdi)) :
    Conforms (protocol env uid gid) (notePermissionChange env fuel userPath mdi) (Same b) l (k, b) := by
  refine among_getMdi_bind (Conforms.ite (fun _ => ?_) fun _ => Conforms.pure rfl)
  refine among_setMdi_bind (Conforms.ite (fun _ => ?_) fun _ => Conforms.pure rfl)
  refine ask_bind trivial (fun _ => rfl) fun err => Conforms.ite (fun _ => Conforms.stop) fun _ => ?_
  refine ask_bind trivial (fun _ => rfl) fun version => ?_
  refine (putMetadataForced_conforms version fuel ?_).then fun err l1 t1 h1 => ?_
  · rw [show (l.setObject mdi _).heap mdi = _ from Function.update_self _ _ _]
    exact h.imp_right fun ⟨md0, hknown, hmd⟩ => ⟨md0, hknown, hmd.children env⟩
  · exact Conforms.ite (fun _ => Conforms.stop) fun _ => Conforms.pure h1

/-- The object that a permission change may change. -/
theorem permissionLookup_conforms (fuel : Nat) (userPath : Str) (h : CacheInv l k none) :
    Conforms (protocol env uid gid) (permissionLookup env ctx fuel userPath gid) (fun r l' t' =>
      t'.2 = b ∧ (r.1 = 0 → ∀ mdi, r.2 = some mdi → Ready l' t'.1 mdi)) l (k, b) := by
  have hlookup : Conforms (protocol env uid gid) (among (lookup env ctx fuel userPath none)) _ l (k, b) :=
    Conforms.embed (protocol_extends env uid gid) b (lookup_conforms fuel userPath none l k h)
  refine hlookup.then fun r l1 t1 h1 => ?_
  obtain ⟨hlooked, hsame⟩ := h1
  refine Conforms.ite (fun herr => Conforms.pure ⟨hsame, fun h0 => absurd h0 herr⟩) fun herr => ?_
  have hfound : ∀ err : Int, t1.2 = b ∧ (err = 0 → ∀ mdi, r.2 = some mdi → Ready l1 t1.1 mdi) :=
    fun err => ⟨hsame, fun _ mdi hmdi => hlooked.ready (not_not.mp herr) mdi hmdi⟩
  refine Conforms.ite (fun _ => Conforms.pure (hfound 0)) fun _ => among_deref_bind fun p _ => ?_
  refine among_getMdi_bind (Conforms.ite (fun _ => Conforms.pure (hfound _)) fun _ => ?_)
  exact Conforms.ite (fun _ => Conforms.pure (hfound _)) fun _ => Conforms.pure (hfound _)

/-- With answers as promised the change is stored at the first attempt, or an error is returned. -/
theorem hflatChown_conforms (hroot : ctx.uid ≠ 0) (hgiven : uid ≠ none ∨ gid ≠ none) (fuel : Nat)
    (userPath : Str) (h : CacheInv l k none) :
    Conforms (protocol env uid gid) (hflatChown env ctx fuel userPath uid gid)
      (fun err _ t => err = 0 → t.2 = true) l (k, false) := by
  unfold hflatChown
  cases fuel with
  | zero => exact Conforms.stop
  | succ fuel =>
    refine (permissionLookup_conforms (fuel + 1) userPath h).then ?_
    rintro ⟨err, r⟩ l1 ⟨k1, b1⟩ ⟨rfl, hready⟩
    refine Conforms.ite (fun herr => Conforms.pure fun h0 => absurd h0 herr) fun herr => ?_
    refine among_deref_bind fun mdi hmdi => among_getMdi_bind ?_
    refine Conforms.ite (fun hmode => absurd rfl hmode.2.2) fun _ => ?_
    refine ask_bind trivial (fun _ => rfl) fun now => among_setMdi_bind ?_
    refine (putMetadata_conforms ?_).then fun err l2 t2 h2 => ?_
    · rw [show (l1.setObject mdi _).heap mdi = _ from Function.update_self _ _ _]
      refine (hready (not_not.mp herr) mdi hmdi).2.symm.imp_right fun hknown => ?_
      exact ⟨_, hknown, changed_changeMetadata hroot hgiven now⟩
    refine Conforms.ite (fun hagain => absurd hagain (h2.2.2 rfl)) fun _ => ?_
    refine Conforms.ite (fun herr => Conforms.pure fun h0 => absurd h0 herr) fun herr => ?_
    obtain ⟨hstorable, hchanged⟩ := h2.1 (not_not.mp herr)
    have hnote := @notePermissionChange_conforms env uid gid l2 t2.1 t2.2 mdi (fuel + 1) userPath hstorable
    exact hnote.mono fun _ _ t ht _ => (ht.trans hchanged).trans (by simp)

end Programs

/-! ## The store -/

section Store

variable {uuid : Nat → Str} {uid gid : Option Nat} {s s' : State} {k : Knowledge} {b : Bool}

/-- What the client knows is true, no assertion has failed, and what it has written is faithful. -/
structure Inv (uuid : Nat → Str) (uid gid : Option Nat) (s : State) (t : Knowledge × Bool) : Prop where
  valid : Valid uuid s.store t.1
  usedRecord : ∀ {key r}, s.store.record key = some r → Used uuid s.store.uuids r.version
  failed : s.failed = false
  faithful : ∀ w ∈ s.writes, w.Faithful uid gid
  changed : t.2 = true → ∃ w ∈ s.writes, w.why = .change

theorem used_update (huuid : Function.Injective uuid) (hne : ∀ n, uuid n ≠ []) {s : Attributes.State}
    (h : ∀ {key r}, s.record key = some r → Used uuid s.uuids r.version) {key key' : Str}
    {md : FileMetadata} {r : KineticRecord FileMetadata}
    (hr : Function.update s.record key (some ⟨md, uuid s.uuids⟩) key' = some r) :
    Used uuid (s.uuids + 1) r.version := by
  by_cases he : key' = key
  · rw [he, Function.update_self] at hr
    cases hr
    exact Used.new huuid hne s.uuids
  · rw [Function.update_of_ne he] at hr
    exact (h hr).succ

/-- Whatever another client requests, what is known stays true. -/
theorem valid_serve (huuid : Function.Injective uuid) (hne : ∀ n, uuid n ≠ []) {s s' : Attributes.State}
    {r : Req} {choice : Attributes.Choice} {x : Res r} (hs : Attributes.serve uuid s r choice = some (x, s'))
    (hv : Valid uuid s k) (hu : ∀ {key r}, s.record key = some r → Used uuid s.uuids r.version) :
    Valid uuid s' k ∧ ∀ {key r}, s'.record key = some r → Used uuid s'.uuids r.version := by
  have htick : Valid uuid { s with uuids := s.uuids + 1 } k ∧
      ∀ {key r}, s.record key = some r → Used uuid (s.uuids + 1) r.version :=
    ⟨hv.tick, fun hr => (hu hr).succ⟩
  have hput : ∀ key expected md why, Valid uuid (s.put uuid key expected md why).2 k ∧
      ∀ {key' r}, (s.put uuid key expected md why).2.record key' = some r →
        Used uuid (s.put uuid key expected md why).2.uuids r.version := by
    intro key expected md why
    rcases put_cases uuid s key expected md why with ⟨-, he⟩ | ⟨-, he⟩
    · rw [he]
      exact ⟨hv.store md _, fun hr => used_update huuid hne hu hr⟩
    · rw [he]
      exact htick
  cases r with
  | put key expected md why =>
    cases choice with
    | done =>
      obtain rfl : (s.put uuid key expected md why).2 = s' := congrArg Prod.snd (Option.some.inj hs)
      exact hput key expected md why
    | unreachable =>
      cases hs
      exact htick
    | lost =>
      cases hs
      exact hput key expected md why
    | systemPath _ _ | expired _ | err _ => cases hs
  | systemPath _ | expired _ | get _ | databaseUpdate | selfCheck =>
    cases choice <;> cases hs <;> exact ⟨hv, hu⟩

/-- What a `Put` of the permission change does. -/
theorem State.put_cases (uuid : Nat → Str) (s : State) (key expected : Str) (md : FileMetadata) (why : Why) :
    (versionOf (s.store.record key) = expected ∧ s.put uuid key expected md why = (.OK,
      { s with
        store := ⟨Function.update s.store.record key (some ⟨md, uuid s.store.uuids⟩), s.store.uuids + 1,
          s.store.done⟩
        writes := s.writes ++ [⟨key, (s.store.record key).map KineticRecord.value, md, why⟩] })) ∨
    (versionOf (s.store.record key) ≠ expected ∧
      s.put uuid key expected md why = (.REMOTE_VERSION_MISMATCH, s.tick)) := by
  by_cases hv : versionOf (s.store.record key) = expected
  · exact Or.inl ⟨hv, by simp [State.put, putSame, hv]⟩
  · exact Or.inr ⟨hv, by simp [State.put, State.tick, putSame, hv]⟩

theorem Inv.tick (h : Inv uuid uid gid s (k, b)) : Inv uuid uid gid s.tick (k, b) where
  valid := h.valid.tick
  usedRecord hr := (h.usedRecord hr).succ
  failed := h.failed
  faithful := h.faithful
  changed := h.changed

/-- A `Put` that the protocol allows and that takes effect. -/
theorem Inv.put (huuid : Function.Injective uuid) (hne : ∀ n, uuid n ≠ []) {env : Env}
    (h : Inv uuid uid gid s (k, b)) {key expected : Str} {md : FileMetadata} {why : Why}
    (ha : (protocol env uid gid).allowed (k, b) (.inr (.put key expected md why)))
    (hv : versionOf (s.store.record key) = expected) :
    Inv uuid uid gid (s.put uuid key expected md why).2 (k, b) ∧
      (∃ w ∈ (s.put uuid key expected md why).2.writes, w.why = why) ∧
      (s.put uuid key expected md why).2.store.record key = some ⟨md, uuid s.store.uuids⟩ ∧
      Used uuid (s.put uuid key expected md why).2.store.uuids (uuid s.store.uuids) := by
  rcases State.put_cases uuid s key expected md why with ⟨-, hput⟩ | ⟨hv', -⟩
  · rw [hput]
    have hwrite : Write.Faithful uid gid ⟨key, (s.store.record key).map KineticRecord.value, md, why⟩ := by
      rcases ha with ha | ⟨md0, hknown, hmd⟩
      · exact absurd hv (h.valid.replaced ha)
      · cases hr : s.store.record key with
        | none =>
          rw [hr] at hv
          exact absurd hv.symm (h.valid.usedKnown hknown).1
        | some r =>
          -- the version is that of a record, so the record has the metadata that the client knows
          rw [hr] at hv
          refine ⟨md0, ?_, hmd⟩
          rw [Option.map_some, h.valid.determines hknown hr hv]
    refine ⟨⟨h.valid.store md _, fun hr => used_update huuid hne h.usedRecord hr, h.failed, ?_, fun hb => ?_⟩,
      ⟨_, List.mem_append_right _ (List.mem_singleton_self _), rfl⟩, Function.update_self _ _ _,
      Used.new huuid hne _⟩
    · intro w hw
      rcases List.mem_append.mp hw with hw | hw
      · exact h.faithful w hw
      · rw [List.mem_singleton.mp hw]
        exact hwrite
    · obtain ⟨w, hw, hwhy⟩ := h.changed hb
      exact ⟨w, List.mem_append_left _ hw, hwhy⟩
  · exact absurd hv hv'

/-- A step of the client itself. -/
theorem own_sound (huuid : Function.Injective uuid) (hne : ∀ n, uuid n ≠ []) {env : Env} {t : Knowledge × Bool}
    {r : Req ⊕ Change} {choice : Choice} {x : SumRes Res ChangeRes r} (h : Inv uuid uid gid s t)
    (ha : (protocol env uid gid).allowed t r) (hok : accepted s r choice = true)
    (hs : (service uuid).serve s r choice = some (x, s')) :
    (protocol env uid gid).answers t r x ∧ Inv uuid uid gid s' ((protocol env uid gid).next t r x) := by
  obtain ⟨k, b⟩ := t
  cases r with
  | inl r =>
    cases choice with
    | number n => cases hs
    | store choice =>
      simp only [service, serve] at hs
      split at hs
      · rename_i y store hy
        cases hs
        have hempty : StoreInv env uuid (fun _ => none) s.store fun _ : Unit => k :=
          ⟨fun _ => h.valid, h.usedRecord, fun h => by cases h⟩
        obtain ⟨-, hstep⟩ := serial_sound huuid hne s.store _ () r choice _ store hempty ha hy
        have hvalid := hstep.valid ()
        rw [Function.update_self] at hvalid
        exact ⟨trivial, hvalid, hstep.usedRecord, h.failed, h.faithful, h.changed⟩
      · cases hs
  | inr r =>
    cases r with
    | put key expected md why =>
      have hstored := fun hv => h.put huuid hne ha hv
      cases choice with
      | number n => cases hs
      | store choice =>
        cases choice with
        | done =>
          have hs : some (((s.put uuid key expected md why).1, uuid s.store.uuids),
            (s.put uuid key expected md why).2) = some (x, s') := hs
          rcases State.put_cases uuid s key expected md why with ⟨hv, hput⟩ | ⟨hv, hput⟩
          · obtain ⟨hinv, hwrite, hrecord, hused⟩ := hstored hv
            rw [hput] at hs hinv hwrite hrecord hused
            cases hs
            refine ⟨?_, hinv.valid.add hrecord hused, hinv.usedRecord, hinv.failed, hinv.faithful, fun hb => ?_⟩
            · cases why with
              | change => exact StatusCode.noConfusion
              | restrictions => trivial
            · rcases (Bool.or_eq_true _ _).mp hb with hb | hb
              · exact hinv.changed hb
              · obtain ⟨w, hw, hwhy⟩ := hwrite
                exact ⟨w, hw, hwhy.trans (of_decide_eq_true hb)⟩
          · rw [hput] at hs
            cases hs
            cases why with
            | change => exact absurd (of_decide_eq_true hok) hv
            | restrictions =>
              refine ⟨trivial, h.tick.valid.replace ?_ hv, h.tick.usedRecord, h.failed, h.faithful, h.changed⟩
              rcases ha with ha | ⟨md0, hknown, -⟩
              · exact (h.valid.usedOutdated ha).succ
              · exact (h.valid.usedKnown hknown).succ
        | unreachable =>
          cases hs
          cases why with
          | change => exact ⟨StatusCode.noConfusion, h.tick⟩
          | restrictions => exact ⟨trivial, h.tick⟩
        | lost =>
          cases hs
          have hlost : Inv uuid uid gid (s.put uuid key expected md why).2 (k, b) := by
            by_cases hv : versionOf (s.store.record key) = expected
            · exact (hstored hv).1
            · rcases State.put_cases uuid s key expected md why with ⟨hv', -⟩ | ⟨-, hput⟩
              · exact absurd hv' hv
              · rw [hput]
                exact h.tick
          cases why with
          | change => exact ⟨StatusCode.noConfusion, hlost⟩
          | restrictions => exact ⟨trivial, hlost⟩
        | systemPath _ _ | expired _ | err _ => cases hs
    | assertionFailed => exact ha.elim
    | now | databaseOperation _ | snapshotVersion =>
      cases choice with
      | store choice => cases hs
      | number n =>
        cases hs
        exact ⟨trivial, h⟩

end Store

/-! ## Runs -/

section Runs

variable {ι : Type} [DecidableEq ι]

/-- The other clients request what they like, but no permission change of this client. -/
def free : Protocol (Req ⊕ Change) (SumRes Res ChangeRes) (Knowledge × Bool) :=
  ⟨fun _ r => ∃ q, r = .inl q, fun _ _ _ => True, fun t _ _ => t⟩

/-- The protocol of each client: the one that changes permissions, and the others, which do what they
    like. -/
def roles (env : Env) (uid gid : Option Nat) :
    Option ι → Protocol (Req ⊕ Change) (SumRes Res ChangeRes) (Knowledge × Bool)
  | none => protocol env uid gid
  | some _ => free

theorem chown_sound {uuid : Nat → Str} (huuid : Function.Injective uuid) (hne : ∀ n, uuid n ≠ []) {env : Env}
    {uid gid : Option Nat} : Sound ((service uuid).restrict accepted) (roles (ι := ι) env uid gid)
      (fun s t => Inv uuid uid gid s (t none)) := by
  intro s t i r choice x s' h ha hs
  obtain ⟨hok, hs⟩ := serve_restrict hs
  cases i with
  | none =>
    refine (own_sound huuid hne h ha hok hs).imp_right fun hinv => ?_
    dsimp only
    rwa [Function.update_self]
  | some i =>
    obtain ⟨q, rfl⟩ := ha
    refine ⟨trivial, ?_⟩
    dsimp only
    rw [Function.update_of_ne (Option.some_ne_none i).symm]
    cases choice with
    | number n => cases hs
    | store choice =>
      simp only [service, serve] at hs
      split at hs
      · rename_i y store hy
        cases hs
        obtain ⟨hvalid, hused⟩ := valid_serve huuid hne hy h.valid h.usedRecord
        exact ⟨hvalid, hused, h.failed, h.faithful, h.changed⟩
      · cases hs

/-- In every run in which the change is not refused, no assertion fails, every write of the client is made
    of the version that it replaces, and if the call returns 0 the change has been written. -/
theorem chown_faithful {env : Env} {uuid : Nat → Str} (huuid : Function.Injective uuid)
    (hne : ∀ n, uuid n ≠ []) {ctx : Context} (hroot : ctx.uid ≠ 0) {uid gid : Option Nat}
    (hgiven : uid ≠ none ∨ gid ≠ none) {fuel : Nat} {userPath : Str} {s : Attributes.State} {l : Local}
    {others : ι → Prog Req Res (Int × Local)}
    (hversions : ∀ key r, s.record key = some r → Used uuid s.uuids r.version) (hcache : StaleCache uuid s l)
    {schedule : List (Option ι × Choice)}
    {c : Config (Req ⊕ Change) (SumRes Res ChangeRes) State (Option ι) (Int × Local)}
    (hrun : runFrom ((service uuid).restrict accepted) (start env ctx fuel userPath uid gid s l others)
      schedule = some c) :
    c.shared.failed = false ∧ (∀ w ∈ c.shared.writes, w.Faithful uid gid) ∧
      ∀ l', c.prog none = .ret (0, l') → ∃ w ∈ c.shared.writes, w.why = .change := by
  have hinv : Inv uuid uid gid ⟨s, [], false⟩ (Knowledge.ofStore uuid s, false) :=
    { valid := ⟨fun hk => hk.1, fun hk hr hv => hk.2 _ hr hv, fun hk => hk.elim, fun hk => hk.elim⟩
      usedRecord := fun hr => hversions _ _ hr
      failed := rfl
      faithful := fun w hw => absurd hw List.not_mem_nil
      changed := fun h => absurd h Bool.false_ne_true }
  have hprog : ∀ i, ((start env ctx fuel userPath uid gid s l others).prog i).Conforms (roles env uid gid i)
      (fun x t => i = none → x.1 = 0 → t.2 = true) (Knowledge.ofStore uuid s, false) := by
    intro i
    cases i with
    | none => exact Prog.Conforms.mono (hflatChown_conforms hroot hgiven fuel userPath hcache) fun x t h _ => h
    | some i =>
      refine ((Prog.Only.embed (others i)).conforms (fun _ _ h => h) _).mono fun x t _ h => ?_
      exact absurd h (Option.some_ne_none i)
  obtain ⟨t, hinv, hfinal⟩ := runFrom_conforms (chown_sound huuid hne) hinv hprog hrun
  refine ⟨hinv.failed, hinv.faithful, fun l' hret => hinv.changed ?_⟩
  have hnone := hfinal none
  rw [hret] at hnone
  exact hnone rfl rfl

/-! ### The owner of a file gives it to the group -/

/-- The owner of the file. -/
def owner : Context := ⟨7, 7⟩

/-- A file with set-uid and set-gid bits. -/
def ownFile : FileMetadata := { FileMetadata.empty with mode := S_IFREG ||| 0o6755, inodeNumber := 2, uid := 7 }

/-- A file system with one file of `owner`. -/
def withOwnFile : Attributes.State where
  record key := if key = lit "/f" then some ⟨ownFile, lit "a"⟩ else none
  uuids := 0
  done := []

/-- Another client sets the times of the file. -/
def chownAndUtimens : Config (Req ⊕ Change) (SumRes Res ChangeRes) State (Option Unit) (Int × Local) :=
  start relaxed owner 4 (lit "/f") none (some 7) withOwnFile newLocal
    fun _ => (hflatUtimens relaxed superuser (lit "/f") 7 8 4).run newLocal

/-- The other client is done before the permission change has looked up the file. -/
def apart : List (Option Unit × Choice) :=
  [(some (), .store (.systemPath (lit "/f") 0)), (some (), .store .done), (some (), .store .done),
    (none, .store (.systemPath (lit "/f") 0)), (none, .store .done), (none, .number 9), (none, .store .done)]

theorem versions_used_file : ∀ key r, withOwnFile.record key = some r →
    Used versions withOwnFile.uuids r.version := by
  intro key r hr
  unfold withOwnFile at hr
  dsimp only at hr
  split at hr
  · cases hr
    exact ⟨by decide, fun n _ he => absurd (List.cons.inj he).1 (by decide)⟩
  · cases hr

theorem chown_faithful_apart : ∃ c,
    runFrom ((service versions).restrict accepted) chownAndUtimens apart = some c ∧
    c.shared.failed = false ∧ (∀ w ∈ c.shared.writes, w.Faithful none (some 7)) ∧
    ∃ w ∈ c.shared.writes, w.why = .change := by
  have hc : (runFrom ((service versions).restrict accepted) chownAndUtimens apart).any fun c =>
      (c.prog none).result.any fun r => r.1 = 0 := by decide +kernel
  obtain ⟨c, hc, hret⟩ := (Option.any_eq_true _ _).mp hc
  obtain ⟨hfailed, hfaithful, hchanged⟩ := chown_faithful (fun n m h => toStr_inj (List.cons.inj h).2)
    (fun n => List.cons_ne_nil _ _) (by decide) (Or.inr (Option.some_ne_none 7)) versions_used_file
    (fun _ _ h => by cases h) hc
  refine ⟨c, hc, hfailed, hfaithful, ?_⟩
  obtain ⟨⟨err, l'⟩, hprog, herr⟩ := (Option.any_eq_true _ _).mp hret
  obtain rfl : err = 0 := of_decide_eq_true herr
  exact hchanged l' (Prog.result_eq_some.mp hprog)

/-- The other client is done between the lookup of the permission change and its `Put`. -/
def between : List (Option Unit × Choice) :=
  [(none, .store (.systemPath (lit "/f") 0)), (none, .store .done), (none, .number 9),
    (some (), .store (.systemPath (lit "/f") 0)), (some (), .store .done), (some (), .store .done),
    (none, .store .done), (none, .store (.systemPath (lit "/f") 0)), (none, .store .done), (none, .store .done)]

/-- The second attempt is called with a mode. -/
theorem chown_retry_fails : ¬ ∀ (env : Env) (uuid : Nat → Str), Function.Injective uuid → (∀ n, uuid n ≠ []) →
    ∀ (ctx : Context), ctx.uid ≠ 0 → ∀ (uid gid : Option Nat), uid ≠ none ∨ gid ≠ none →
    ∀ (fuel : Nat) (userPath : Str) (s : Attributes.State) (l : Local)
      (others : Unit → Prog Req Res (Int × Local)),
    (∀ key r, s.record key = some r → Used uuid s.uuids r.version) → StaleCache uuid s l →
    ∀ schedule c, runFrom (service uuid) (start env ctx fuel userPath uid gid s l others) schedule = some c →
    c.shared.failed = false := by
  intro h
  have hc : (runFrom (service versions) chownAndUtimens between).any fun c => c.shared.failed := by
    decide +kernel
  obtain ⟨c, hc, hfailed⟩ := (Option.any_eq_true _ _).mp hc
  have hfalse := h relaxed versions (fun n m h => toStr_inj (List.cons.inj h).2) (fun n => List.cons_ne_nil _ _)
    owner (by decide) none (some 7) (Or.inr (Option.some_ne_none 7)) 4 (lit "/f") withOwnFile newLocal _
    versions_used_file (fun _ _ h => by cases h) between c hc
  exact Bool.false_ne_true (hfalse.symm.trans hfailed)

end Runs

end HFlat.Fuse.Attributes.Chown
