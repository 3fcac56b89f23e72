/-
  The operations of a lone client keep its metadata cache coherent, if none of them loses the cache
  entry of an object that it is still going to store.

  An operation looks its objects up, which leaves them in the cache (`Cached`), and may then change
  and store them (`Pending`). Where it makes another lookup in between, the object is held. Data
  blocks, directory entries and the database do not show in the view (`Stutters`).
-/
import HFlat.Fuse.Coherence

namespace HFlat.Fuse.Lone

open HFlat.Lib HFlat.PathMap HFlat.Permission
open HFlat.Fuse.Attributes (FileMetadata)
open HFlat.Replication (KineticRecord)

/-- The program keeps the cache coherent. -/
def Tidy {α : Type} (uuid : Nat → Str) (m : Client α) : Prop :=
  ∀ v, Coherent none v → Shows (careful uuid) view m (fun _ => Coherent none) v

section Objects

variable {uuid : Nat → Str} {v v' : View} {α β : Type} {mdi a : Nat} {x : MetadataInfo} {key new : Str}
variable {held : List Str}

theorem pinned_nil (v : View) : Pinned [] v := fun _ h => absurd h List.not_mem_nil

/-- Objects stay in the cache if only contents and versions change. -/
theorem Cached.steady (h : Cached a v) (hc : Coherent none v)
    (hw : Within [(v.heap a).systemPath] v v') : Cached a v' :=
  h.within hc hw (List.mem_singleton.mpr rfl)

/-- Neither contents nor version of the object change. -/
theorem Coherent.same (h : Coherent none v) (hpath : x.systemPath = (v.heap mdi).systemPath)
    (hmd : x.md = (v.heap mdi).md) (hversion : x.keyVersion = (v.heap mdi).keyVersion) :
    Coherent none (v.setObject mdi x) := by
  refine (h.setObject (Or.inl rfl) hpath).restore fun key hkey hn => ?_
  rw [setObject_heap_self] at hn ⊢
  rw [hmd, hversion]
  refine h.stored hkey (by simp) ?_
  unfold Normal at hn ⊢
  rw [← hmd]
  exact hn

/-- Keys whose records are of other types than the object have other names. -/
theorem Cached.apart (h : Cached mdi v) (hc : Coherent none v) {r : KineticRecord FileMetadata}
    (hr : v.record key = some r) (ht : r.value.type ≠ (v.heap mdi).md.type) :
    (v.heap mdi).systemPath ≠ key := by
  rintro rfl
  have hs := hc.stored h.1 (by simp) h.2.1
  obtain rfl := Option.some.inj (hr.symm.trans hs)
  exact ht rfl

/-- With a change before that keeps what lookups and flushes keep. -/
theorem Within.after_setObject (h : Within held (v.setObject mdi x) v')
    (hx : identity x = identity (v.heap mdi)) : Within held v v' :=
  (Within.setObject held hx).trans h

theorem getMdi_stutters (mdi : Nat) : Stutters (careful uuid) view (getMdi mdi) :=
  Stutters.get_bind fun _ => Stutters.pure _

theorem getDi_stutters (di : Nat) : Stutters (careful uuid) view (getDi di) :=
  Stutters.get_bind fun _ => Stutters.pure _

theorem setDi_stutters (di : Nat) (x : BlockInfo) : Stutters (careful uuid) view (setDi di x) :=
  Stutters.modify fun _ _ => rfl

theorem newDataInfo_stutters (x : BlockInfo) : Stutters (careful uuid) view (newDataInfo x) :=
  Stutters.get_bind fun _ => Stutters.bind (Stutters.modify fun _ _ => rfl) fun _ => Stutters.pure _

theorem dataInvalidate_stutters (key : DataKey) : Stutters (careful uuid) view (dataInvalidate key) :=
  Stutters.modify fun _ _ => rfl

theorem dataCacheGet_stutters (key : DataKey) : Stutters (careful uuid) view (dataCacheGet key) := by
  refine Stutters.get_bind fun l => ?_
  split
  · exact Stutters.pure none
  · rename_i di _
    refine (getDi_stutters di).bind fun x => Stutters.ite (Stutters.pure _) ?_
    refine (perform_stutters (r := .dataExpired key) trivial).bind fun expired => ?_
    exact Stutters.ite ((dataInvalidate_stutters key).bind fun _ => Stutters.pure none) (Stutters.pure _)

theorem dataAdd_stutters (key : DataKey) (di : Nat) : Stutters (careful uuid) view (dataAdd key di) := by
  refine Stutters.get_bind fun l => ?_
  split
  · exact exit_stutters
  · exact Stutters.modify fun _ _ => rfl

theorem getData_stutters (key : DataKey) : Stutters (careful uuid) view (getData key) := by
  refine (perform_stutters (r := .getData key) trivial).bind fun record => ?_
  split
  · exact Stutters.pure _
  · exact Stutters.pure _

theorem putData_stutters (di fuel : Nat) : Stutters (careful uuid) view (putData di fuel) := by
  induction fuel with
  | zero => exact exit_stutters
  | succ fuel ih =>
    refine (getDi_stutters di).bind fun x => ?_
    refine (perform_stutters (r := .putData x.key x.keyVersion x.d) trivial).bind fun ⟨status, new⟩ => ?_
    cases status with
    | OK => exact (setDi_stutters _ _).bind fun _ => Stutters.pure 0
    | REMOTE_VERSION_MISMATCH =>
      refine (perform_stutters (r := .getData x.key) trivial).bind fun record => ?_
      split
      · exact Stutters.pure _
      · split
        · exact exit_stutters
        · exact (setDi_stutters _ _).bind fun _ => ih
    | _ => exact Stutters.pure _

theorem deleteData_stutters (key : DataKey) : Stutters (careful uuid) view (deleteData key) :=
  (perform_stutters (r := .deleteData key) trivial).bind fun _ => dataInvalidate_stutters key

theorem cachedBlock_stutters {load : Client BlockInfo} (hload : Stutters (careful uuid) view load)
    (key : DataKey) : Stutters (careful uuid) view (cachedBlock key load) := by
  refine (dataCacheGet_stutters key).bind fun di => ?_
  cases di with
  | some di => exact Stutters.pure di
  | none =>
    refine hload.bind fun x => (newDataInfo_stutters x).bind fun di => ?_
    exact (dataAdd_stutters key di).bind fun _ => Stutters.pure di

theorem doRw_stutters (blocksize : Nat) (buf : Str) (offset mdi : Nat) :
    Stutters (careful uuid) view (doRw blocksize buf offset mdi) := by
  unfold doRw
  cases Data.place blocksize buf.length offset with
  | none => exact exit_stutters
  | some place =>
    refine (getMdi_stutters mdi).bind fun x => ?_
    have hload : ∀ key : DataKey, Stutters (careful uuid) view
        (if offset + buf.length > x.md.size then return ⟨⟨[], [], []⟩, key⟩ else getData key) :=
      fun key => Stutters.ite (Stutters.pure _) (getData_stutters key)
    refine (cachedBlock_stutters (hload _) _).bind fun di => (getDi_stutters di).bind fun block => ?_
    split
    · exact exit_stutters
    · exact (setDi_stutters _ _).bind fun _ => Stutters.pure _

theorem truncateBlock_stutters (key : DataKey) (offset fuel : Nat) :
    Stutters (careful uuid) view (truncateBlock key offset fuel) := by
  refine (cachedBlock_stutters (getData_stutters key) key).bind fun di => (getDi_stutters di).bind fun x => ?_
  split
  · exact exit_stutters
  · exact (setDi_stutters _ _).bind fun _ => (putData_stutters di fuel).bind fun _ => Stutters.pure ()

theorem deleteBlocks_stutters (inode : Nat) (blocknums : List Nat) :
    Stutters (careful uuid) view (deleteBlocks inode blocknums) := by
  induction blocknums with
  | nil => exact Stutters.pure ()
  | cons i blocknums ih =>
    refine (dataCacheGet_stutters (inode, i)).bind fun di => ?_
    have hrest : Stutters (careful uuid) view (do deleteData (inode, i); deleteBlocks inode blocknums) :=
      (deleteData_stutters (inode, i)).bind fun _ => ih
    cases di with
    | none => exact hrest
    | some di => exact (dataInvalidate_stutters _).bind fun _ => hrest

/-- `get_metadata_userpath` reads the record of a key into a new object. -/
structure Fetched (v : View) (r : Int × Option Nat) (v' : View) : Prop where
  coherent : Coherent none v'
  within : ∀ held, Within held v v'
  found : r.1 = 0 → ∀ a, r.2 = some a → (∀ key, v'.lookupCache key ≠ some a) ∧
    v'.record (v'.heap a).systemPath = some ⟨(v'.heap a).md, (v'.heap a).keyVersion⟩

theorem getMetadataUserpath_shows (h : Coherent none v) (fuel : Nat) (path : Str) :
    Shows (careful uuid) view (getMetadataUserpath fuel path) (Fetched v) v := by
  refine Shows.get_bind fun l _ _ => ?_
  split
  · exact exit_shows
  · rename_i key timeStamp _
    have hnone : ∀ err : Int, Fetched v (err, none) v := fun err =>
      ⟨h, fun held => Within.refl held v, fun _ _ ha => nomatch ha⟩
    refine Shows.ite (fun _ => Shows.pure (hnone _)) fun _ => newMetadataInfo_bind ?_
    have hfresh : ∀ k, (v.alloc key).lookupCache k ≠ some v.next :=
      fun k hk => absurd (h.used hk) (lt_irrefl _)
    have hself : (v.alloc key).heap v.next = ⟨key, lit "0", FileMetadata.empty, none⟩ :=
      Function.update_self _ _ _
    refine (getMetadata_shows (v.alloc key) v.next).then ?_
    rintro err v1 (⟨r, hr, rfl, rfl⟩ | ⟨hr, rfl, rfl⟩)
    · refine Shows.pure ⟨(h.alloc key).setUncached hfresh _, fun held => ?_, ?_⟩
      · rw [hself]
        exact Within.read held v key r.version r.value
      · intro _ a ha
        obtain rfl := Option.some.inj ha
        refine ⟨hfresh, ?_⟩
        rw [setObject_heap_self]
        exact hr
    · have hne : ¬ (-ENOENT : Int) = 0 := by decide
      exact Shows.pure ⟨h.alloc key, fun held => Within.alloc held v key, fun h0 => absurd h0 hne⟩

end Objects

/-! ## Storing objects -/

section Store

variable {uuid : Nat → Str} {env : Env} {ctx : Context} {v v' : View} {β : Type} {mdi a : Nat}
variable {held : List Str}

theorem setMD_shows {g : FileMetadata → FileMetadata} {Q : Unit → View → Prop}
    (h : Q () (v.setObject mdi { v.heap mdi with md := g (v.heap mdi).md })) :
    Shows (careful uuid) view (setMD mdi g) Q v := by
  refine Shows.modify (fun l s hv => ?_) h
  subst hv
  rfl

theorem Pending.setMD (h : Pending mdi v) (md : FileMetadata) :
    Pending mdi (v.setObject mdi { v.heap mdi with md := md }) :=
  h.setObject rfl rfl

theorem updateACMtime_pending (h : Pending mdi v) :
    Shows (careful uuid) view (updateACMtime mdi) (fun _ => Pending mdi) v := by
  refine updateACMtime_shows.mono ?_
  rintro _ v' ⟨x, hx, hversion, rfl⟩
  exact h.change hx hversion

theorem initializeMetadata_shows (h : Coherent none v) (parent mode : Nat) :
    Shows (careful uuid) view (initializeMetadata env ctx mdi parent mode)
      (fun _ => Coherent (some mdi)) v := by
  refine updateACMtime_shows.then ?_
  rintro _ v1 ⟨x, hx, -, rfl⟩
  have h1 : Coherent (some mdi) (v.setObject mdi x) := h.setObject (Or.inl rfl) (congrArg Prod.fst hx)
  refine (perform_stutters (r := .inodeNumber) trivial).then fun inode => getMdi_bind (setMD_shows ?_)
  exact h1.setObject (Or.inr rfl) rfl

theorem Cached.setMD (h : Cached mdi v) {md : FileMetadata}
    (hinode : md.inodeNumber = (v.heap mdi).md.inodeNumber) (htype : md.type = (v.heap mdi).md.type) :
    Cached mdi (v.setObject mdi { v.heap mdi with md := md }) := by
  unfold Cached Found Normal
  rw [setObject_heap_self]
  dsimp only
  rw [hinode, htype]
  exact h

/-- Lookups and flushes do not change what the checks of a truncation look at. -/
theorem mayTruncate_congr {x y : MetadataInfo} (h : identity x = identity y) (ctx : Context)
    (offset : Nat) : mayTruncate ctx offset x.md = mayTruncate ctx offset y.md := by
  unfold identity at h
  simp only [Prod.mk.injEq] at h
  obtain ⟨-, -, -, hmode, huid, hgid⟩ := h
  unfold mayTruncate checkAccess
  rw [hmode, huid, hgid]

section Put

variable (hne : ∀ n, uuid n ≠ [])

include hne

/-- An object that is stored right away, followed by `f`. -/
theorem putMetadata_bind (h : Pending mdi v) {f : Int → Client β} {Q : β → View → Prop}
    (hf : ∀ new, Coherent none (v.stored mdi new) → Shows (careful uuid) view (f 0) Q (v.stored mdi new)) :
    Shows (careful uuid) view (putMetadata mdi >>= f) Q v := by
  refine (putMetadata_shows hne h).then ?_
  rintro err v' ⟨rfl, new, hnew, rfl⟩
  exact hf new (h.coherent.store h.alone hnew)

theorem touchDirectory_shows (h : Coherent none v) (hc : env.posixFull = true → Cached mdi v)
    (fuel : Nat) :
    Shows (careful uuid) view (touchDirectory env mdi fuel) (fun _ => Coherent none) v := by
  refine Shows.ite (fun hfull => ?_) fun _ => Shows.pure h
  have hpending := (hc hfull).pending h
  refine (putMetadataForced_shows hne hpending (fun _ => updateACMtime_pending) fuel).then ?_
  rintro err v' ⟨-, hv'⟩
  exact Shows.pure hv'

theorem createDirectoryEntry_shows (h : Coherent none v) (hc : env.posixFull = true → Cached mdi v)
    (filename : Str) (fuel : Nat) :
    Shows (careful uuid) view (createDirectoryEntry env mdi filename fuel)
      (fun _ => Coherent none) v := by
  refine getMdi_bind ((perform_stutters (r := .createEntry _) trivial).then fun status => ?_)
  cases status with
  | OK => exact touchDirectory_shows hne h hc fuel
  | _ => exact Shows.pure h

theorem deleteDirectoryEntry_shows (h : Coherent none v) (hc : env.posixFull = true → Cached mdi v)
    (filename : Str) (fuel : Nat) :
    Shows (careful uuid) view (deleteDirectoryEntry env mdi filename fuel)
      (fun _ => Coherent none) v := by
  refine getMdi_bind ((perform_stutters (r := .deleteEntry _) trivial).then fun status => ?_)
  cases status with
  | OK => exact touchDirectory_shows hne h hc fuel
  | _ => exact Shows.pure h

/-! ### Create -/

theorem createIn_shows (h : Coherent none v) {dir : Nat} (hc : env.posixFull = true → Cached dir v)
    (fuel : Nat) (path : Str) (mode : Nat) :
    Shows (careful uuid) view (createIn env ctx fuel path mode mdi dir) (fun _ => Coherent none) v := by
  refine getMdi_bind (Shows.ite (fun _ => Shows.pure h) fun _ => ?_)
  refine (createDirectoryEntry_shows hne h hc _ fuel).then fun err v1 h1 => ?_
  refine Shows.ite (fun _ => Shows.pure h1) fun _ => ?_
  refine (initializeMetadata_shows h1 dir mode).then fun _ v2 h2 => ?_
  exact require_then (createMetadata_shows hne h2) fun v3 h3 => Shows.pure (h3 rfl)

theorem lookup_nil (h : Coherent none v) (env : Env) (ctx : Context) (fuel : Nat) (path : Str)
    (pointer : Option Nat) :
    Shows (careful uuid) view (lookup env ctx fuel [] path pointer) (Looked [] v) v :=
  lookup_shows hne env ctx fuel [] path pointer v h (pinned_nil v)

theorem lookupParent_shows (h : Coherent none v) (hp : Pinned held v) (env : Env) (ctx : Context)
    (fuel : Nat) (path : Str) :
    Shows (careful uuid) view (lookupParent env ctx fuel held path) (Looked held v) v :=
  lookupParentWith_shows (lookup_shows hne env ctx fuel) h hp path

theorem hflatCreate_tidy (env : Env) (ctx : Context) (fuel : Nat) (path : Str) (mode : Nat) :
    Tidy uuid (hflatCreate env ctx fuel path mode) := by
  intro v h
  refine (lookup_nil hne h env ctx fuel path none).then ?_
  rintro ⟨err, mdi⟩ v1 h1
  refine Shows.ite (fun _ => Shows.pure h1.coherent) fun _ => ?_
  refine Shows.ite (fun _ => Shows.pure h1.coherent) fun _ => ?_
  refine (lookupParent_shows hne h1.coherent (pinned_nil v1) env ctx fuel path).then ?_
  rintro ⟨err, mdiDir⟩ v2 h2
  refine Shows.ite (fun _ => Shows.pure h2.coherent) fun _ => ?_
  refine Shows.ite (fun _ => Shows.pure h2.coherent) fun herr => ?_
  refine deref_bind fun mdi _ => deref_bind fun dir hdir => ?_
  obtain ⟨a, ha, hc⟩ := h2.found (Or.inl (not_not.mp herr))
  obtain rfl := Option.some.inj (hdir.symm.trans ha)
  exact createIn_shows hne h2.coherent (fun _ => hc) fuel path mode

/-! ### Flush and write -/

/-- What a flush ensures. -/
structure Flushed (held : List Str) (v v' : View) : Prop where
  coherent : Coherent none v'
  within : Within held v v'

theorem flush_shows (h : Coherent none v) (hc : Cached mdi v) (held : List Str) (env : Env) (blocksize : Nat)
    (append : Bool) (di : Nat) (retry : Client Int) (fuel : Nat) :
    Shows (careful uuid) view (flush env blocksize append mdi di retry fuel)
      (fun _ => Flushed held v) v := by
  refine (getDi_stutters di).then fun x => getMdi_bind (Shows.ite (fun _ => ?_) fun _ => ?_)
  · refine setMD_bind (updateACMtime_shows.then ?_)
    rintro _ v1 ⟨y, hy, hversion, rfl⟩
    have hpending := ((hc.pending h).setMD _).change hy hversion
    refine putMetadata_bind hne hpending fun new hstored => ?_
    refine Shows.ite (fun he => absurd rfl he.1) fun _ => ?_
    refine Shows.ite (fun he => absurd he (by decide)) fun _ => ?_
    have hw := ((Within.setObject held hy).trans (Within.stored held _ mdi new)).after_setObject rfl
    exact (putData_stutters di fuel).shows fun _ => ⟨hstored, hw⟩
  · exact (putData_stutters di fuel).shows fun _ => ⟨h, Within.refl held v⟩

theorem hflatFsync_shows (h : Coherent none v) (hp : Pinned held v) (env : Env) (ctx : Context)
    (blocksize : Nat) (append : Bool) (path : Str) (fuel : Nat) :
    Shows (careful uuid) view (hflatFsync env ctx blocksize held append path fuel)
      (fun _ => Flushed held v) v := by
  cases fuel with
  | zero => exact exit_shows
  | succ fuel =>
    refine (lookup_shows hne env ctx (fuel + 1) held path none v h hp).then ?_
    rintro ⟨err, mdi⟩ v1 h1
    have hsame : Flushed held v v1 := ⟨h1.coherent, h1.within⟩
    refine Shows.ite (fun _ => Shows.pure hsame) fun herr => deref_bind fun a ha => getMdi_bind ?_
    split
    · exact Shows.pure hsame
    · rename_i di _
      obtain ⟨b, hb, hc⟩ := h1.found (Or.inl (not_not.mp herr))
      obtain rfl := Option.some.inj (ha.symm.trans hb)
      refine (getDi_stutters di).then fun x => Shows.ite (fun _ => Shows.pure hsame) fun _ => ?_
      have hflush := flush_shows hne h1.coherent hc held env blocksize append di
        (hflatFsync env ctx blocksize held append path fuel) (fuel + 1)
      exact hflush.mono fun _ _ h2 => ⟨h2.coherent, h1.within.trans h2.within⟩

theorem hflatFsync_tidy (env : Env) (ctx : Context) (blocksize : Nat) (append : Bool) (path : Str)
    (fuel : Nat) : Tidy uuid (hflatFsync env ctx blocksize [] append path fuel) :=
  fun v h => (hflatFsync_shows hne h (pinned_nil v) env ctx blocksize append path fuel).mono
    fun _ _ h' => h'.coherent

omit hne in
theorem setDirtyData_tidy (mdi di : Nat) : Tidy uuid (setDirtyData mdi di) := by
  intro v h
  refine getMdi_bind (Shows.ite (fun _ => Shows.pure h) fun _ => Shows.get_bind fun l _ _ => ?_)
  exact Shows.ite (fun _ => Shows.pure h) fun _ => setMdi_bind (Shows.pure (h.same rfl rfl rfl))

theorem finishWrite_tidy (env : Env) (ctx : Context) (blocksize : Nat) (append : Bool) (path : Str)
    (offset size : Nat) {retry : Client Int} (hretry : Tidy uuid retry) (fuel : Nat) :
    Tidy uuid (finishWrite env ctx blocksize append path offset size retry fuel) := by
  intro v h
  refine Shows.ite (fun _ => ?_) fun _ => Shows.pure h
  refine (hflatFsync_tidy hne env ctx blocksize append path fuel v h).then fun err v1 h1 => ?_
  refine Shows.ite (fun _ => hretry v1 h1) fun _ => ?_
  exact Shows.ite (fun _ => Shows.pure h1) fun _ => Shows.pure h1

/-- The rest of the buffer is written again if a flush finds that the object has changed. -/
theorem hflatWrite_tidy (env : Env) (ctx : Context) (blocksize : Nat) (append : Bool) (path : Str)
    (offset fuel : Nat) (buf : Str) :
    Tidy uuid (hflatWrite env ctx blocksize append path offset fuel buf) := by
  induction fuel generalizing buf with
  | zero => exact fun _ _ => exit_shows
  | succ fuel ih =>
    intro v h
    refine (lookup_nil hne h env ctx (fuel + 1) path none).then ?_
    rintro ⟨err, mdi⟩ v1 h1
    refine Shows.ite (fun _ => Shows.pure h1.coherent) fun _ => deref_bind fun a _ => ?_
    refine (doRw_stutters blocksize buf offset a).then fun ⟨size, di⟩ => ?_
    refine Shows.ite (fun _ => Shows.pure h1.coherent) fun _ => ?_
    have hfinish := finishWrite_tidy hne env ctx blocksize append path offset size
      (ih (buf.take size)) (fuel + 1)
    refine (setDirtyData_tidy a di v1 h1.coherent).then fun done v2 h2 => ?_
    refine Shows.ite (fun _ => hfinish v2 h2) fun _ => ?_
    refine (hflatFsync_tidy hne env ctx blocksize append path (fuel + 1) v2 h2).then fun err v3 h3 => ?_
    refine Shows.ite (fun _ => Shows.pure h3) fun _ => ?_
    exact (setDirtyData_tidy a di v3 h3).then fun _ v4 h4 => hfinish v4 h4

theorem hflatGetattr_tidy (env : Env) (ctx : Context) (blocksize fuel : Nat) (path : Str) :
    Tidy uuid (hflatGetattr env ctx blocksize fuel path) := by
  intro v h
  refine (lookup_nil hne h env ctx fuel path none).then ?_
  rintro ⟨err, mdi⟩ v1 h1
  refine Shows.ite (fun _ => Shows.pure h1.coherent) fun _ => deref_bind fun a _ => ?_
  have hread : ∀ v', Coherent none v' → Shows (careful uuid) view
      (do return .ok (← getMdi a).md : Client (Except Int FileMetadata)) (fun _ => Coherent none) v' :=
    fun v' h' => getMdi_bind (Shows.pure h')
  refine Shows.get_bind fun l _ _ => Shows.ite (fun _ => ?_) fun _ => hread v1 h1.coherent
  exact (hflatFsync_tidy hne env ctx blocksize false path fuel v1 h1.coherent).then fun _ => hread

/-! ### Truncate -/

/-- The object is stored, unless the truncation is refused. -/
theorem truncateTo_tidy (h : Coherent none v) {offset : Nat}
    (hc : mayTruncate ctx offset (v.heap mdi).md = true → Cached mdi v) (blocksize : Nat)
    (retry : Client Int) (fuel : Nat) :
    Shows (careful uuid) view (truncateTo ctx blocksize offset mdi retry fuel)
      (fun _ => Coherent none) v := by
  refine getMdi_bind (Shows.ite (fun _ => Shows.pure h) fun hacces => ?_)
  refine Shows.ite (fun _ => Shows.pure h) fun hsize => setMD_bind ?_
  have hmay : mayTruncate ctx offset (v.heap mdi).md = true :=
    decide_eq_true ⟨not_not.mp hacces, not_lt.mp hsize⟩
  refine (updateACMtime_pending (((hc hmay).pending h).setMD _)).then fun _ v1 h1 => ?_
  refine putMetadata_bind hne h1 fun new h2 => ?_
  refine Shows.ite (fun he => absurd he (by decide)) fun _ => ?_
  refine Shows.ite (fun he => absurd rfl he) fun _ => ?_
  have hblocks : ∀ blocknums, Shows (careful uuid) view (do
      deleteBlocks (v.heap mdi).md.inodeNumber blocknums
      return 0 : Client Int) (fun _ => Coherent none) (v1.stored mdi new) :=
    fun blocknums => (deleteBlocks_stutters _ blocknums).then fun _ => Shows.pure h2
  refine Shows.ite (fun _ => ?_) fun _ => hblocks _
  exact (truncateBlock_stutters _ _ fuel).then fun _ => hblocks _

theorem hflatTruncate_tidy (env : Env) (ctx : Context) (blocksize : Nat) (path : Str) (offset fuel : Nat) :
    Tidy uuid (hflatTruncate env ctx blocksize path offset fuel) := by
  cases fuel with
  | zero => exact fun _ _ => exit_shows
  | succ fuel =>
    intro v h
    refine (lookup_nil hne h env ctx (fuel + 1) path none).then ?_
    rintro ⟨err, mdi⟩ v1 h1
    refine Shows.ite (fun _ => Shows.pure h1.coherent) fun herr => deref_bind fun a ha => getMdi_bind ?_
    obtain ⟨b, hb, hc⟩ := h1.found (Or.inl (not_not.mp herr))
    obtain rfl := Option.some.inj (ha.symm.trans hb)
    have hp : Pinned (if mayTruncate ctx offset (v1.heap a).md then [(v1.heap a).systemPath] else []) v1 := by
      intro key hkey
      split at hkey
      · rw [List.mem_singleton.mp hkey]
        exact ⟨a, hc⟩
      · cases hkey
    refine (hflatFsync_shows hne h1.coherent hp env ctx blocksize false path (fuel + 1)).then ?_
    intro err v2 h2
    refine Shows.ite (fun _ => Shows.pure h2.coherent) fun _ => ?_
    refine truncateTo_tidy hne h2.coherent (fun hmay => ?_) blocksize _ (fuel + 1)
    have hid := h2.within.same a (h1.coherent.used hc.1)
    rw [mayTruncate_congr hid] at hmay
    refine hc.within h1.coherent h2.within ?_
    rw [if_pos hmay]
    exact List.mem_singleton_self _

/-! ### Changes of the metadata -/

theorem change_shows (h : Coherent none v) (hc : Cached mdi v) (op : Attributes.Op) (again : Client Int) :
    Shows (careful uuid) view (change op mdi again) (fun _ => Coherent none) v := by
  refine getMdi_bind ?_
  split
  · exact Shows.pure h
  · refine setMD_bind (putMetadata_bind hne ((hc.pending h).setMD _) fun new hstored => ?_)
    exact Shows.ite (fun he => absurd he (by decide)) fun _ => Shows.pure hstored

/-- A lookup and an operation on the object that it finds. -/
theorem found_tidy {env : Env} {ctx : Context} {path : Str} {fuel : Nat} {m : Nat → Client Int}
    (hm : ∀ a v, Coherent none v → Cached a v →
      Shows (careful uuid) view (m a) (fun _ => Coherent none) v) :
    Tidy uuid (do
      let (err, mdi) ← lookup env ctx fuel [] path none
      if err ≠ 0 then return err
      let mdi ← deref mdi
      m mdi) := by
  intro v h
  refine (lookup_nil hne h env ctx fuel path none).then ?_
  rintro ⟨err, mdi⟩ v1 h1
  refine Shows.ite (fun _ => Shows.pure h1.coherent) fun herr => deref_bind fun a ha => ?_
  obtain ⟨b, hb, hc⟩ := h1.found (Or.inl (not_not.mp herr))
  obtain rfl := Option.some.inj (ha.symm.trans hb)
  exact hm a v1 h1.coherent hc

theorem hflatSetxattr_tidy (env : Env) (ctx : Context) (path name value : Str) (flags fuel : Nat) :
    Tidy uuid (hflatSetxattr env ctx path name value flags fuel) := by
  cases fuel with
  | zero => exact fun _ _ => exit_shows
  | succ fuel =>
    refine found_tidy hne fun a v h hc => Shows.ite (fun _ => exit_shows) fun _ => ?_
    refine Shows.ite (fun _ => ?_) fun _ => change_shows hne h hc _ _
    exact (perform_stutters (r := .selfCheck) trivial).then fun _ => Shows.pure h

theorem hflatRemovexattr_tidy (env : Env) (ctx : Context) (path name : Str) (fuel : Nat) :
    Tidy uuid (hflatRemovexattr env ctx path name fuel) := by
  cases fuel with
  | zero => exact fun _ _ => exit_shows
  | succ fuel => exact found_tidy hne fun a v h hc => change_shows hne h hc _ _

theorem hflatUtimens_tidy (env : Env) (ctx : Context) (path : Str) (atime mtime : Int) (fuel : Nat) :
    Tidy uuid (hflatUtimens env ctx path atime mtime fuel) := by
  cases fuel with
  | zero => exact fun _ _ => exit_shows
  | succ fuel => exact found_tidy hne fun a v h hc => change_shows hne h hc _ _

/-! ### Permissions -/

theorem permissionLookup_shows (h : Coherent none v) (env : Env) (ctx : Context) (fuel : Nat)
    (path : Str) (gid : Option Nat) :
    Shows (careful uuid) view (permissionLookup env ctx fuel path gid) (Looked [] v) v := by
  refine (lookup_nil hne h env ctx fuel path none).then ?_
  rintro ⟨err, mdi⟩ v1 h1
  have hrefused : Looked [] v (-EPERM, mdi) v1 :=
    Looked.error h1.coherent h1.within (by decide) (by decide) mdi
  refine Shows.ite (fun _ => Shows.pure h1) fun herr => ?_
  have hfound : Looked [] v (0, mdi) v1 :=
    ⟨h1.coherent, h1.within, fun _ => h1.found (Or.inl (not_not.mp herr))⟩
  refine Shows.ite (fun _ => Shows.pure hfound) fun _ => deref_bind fun a _ => getMdi_bind ?_
  refine Shows.ite (fun _ => Shows.pure hrefused) fun _ => ?_
  exact Shows.ite (fun _ => Shows.pure hrefused) fun _ => Shows.pure hfound

theorem storeRestrictions_shows (h : Pending mdi v) (fuel : Nat) :
    Shows (careful uuid) view (storeRestrictions fuel mdi) (fun _ => Coherent none) v := by
  refine Shows.get_bind fun l _ _ => ?_
  refine (putMetadataForced_shows hne h (fun v hv => setMD_shows (hv.setMD _)) fuel).then ?_
  rintro err v1 ⟨-, h1⟩
  exact Shows.ite (fun _ => exit_shows) fun _ => Shows.pure h1

/-- Nothing is stored if the permissions for children are what they were. -/
theorem notePermissionChange_shows (h : Coherent none v) (hc : Cached mdi v) (env : Env) (fuel : Nat)
    (path : Str) :
    Shows (careful uuid) view (notePermissionChange env fuel path mdi) (fun _ => Coherent none) v := by
  refine getMdi_bind (Shows.ite (fun _ => setMD_bind ?_) fun _ => Shows.pure h)
  have hpending := (hc.pending h).setMD { (v.heap mdi).md with
    toMetadata := (computePathPermissionChildren env (v.heap mdi).md.toMetadata).1 }
  refine Shows.ite (fun _ => ?_) fun hsame => Shows.pure ?_
  · refine require_then (databaseOperation_stutters _ fuel _) ?_
    rintro v1 rfl
    exact storeRestrictions_shows hne hpending fuel
  · have hinner := compute_unchanged (eq_false_of_ne_true hsame)
    exact h.same rfl (congrArg (fun inner => { (v.heap mdi).md with toMetadata := inner }) hinner) rfl

theorem doPermissionChange_tidy (env : Env) (ctx : Context) (path : Str) (fuel : Nat)
    (mode uid gid : Option Nat) :
    Tidy uuid (doPermissionChange env ctx path fuel mode uid gid) := by
  cases fuel with
  | zero => exact fun _ _ => exit_shows
  | succ fuel =>
    intro v h
    refine (permissionLookup_shows hne h env ctx (fuel + 1) path gid).then ?_
    rintro ⟨err, mdi⟩ v1 h1
    refine Shows.ite (fun _ => Shows.pure h1.coherent) fun herr => deref_bind fun a ha => getMdi_bind ?_
    obtain ⟨b, hb, hc⟩ := h1.found (Or.inl (not_not.mp herr))
    obtain rfl := Option.some.inj (ha.symm.trans hb)
    refine Shows.ite (fun _ => exit_shows) fun _ => setMD_bind (updateACtime_shows.then ?_)
    rintro _ v2 ⟨x, hx, hversion, rfl⟩
    have hpending := ((hc.pending h1.coherent).setMD _).change hx hversion
    refine putMetadata_bind hne hpending fun new hstored => ?_
    refine Shows.ite (fun he => absurd he (by decide)) fun _ => ?_
    refine Shows.ite (fun he => absurd rfl he) fun _ => ?_
    refine notePermissionChange_shows hne hstored (Cached.stored (Cached.setObject ?_ hx) new) env
      (fuel + 1) path
    exact hc.setMD rfl rfl

end Put

/-! ### Unlink -/

@[simp] theorem stored_path (v : View) (mdi : Nat) (new : Str) (a : Nat) :
    ((v.stored mdi new).heap a).systemPath = (v.heap a).systemPath := by
  have hpath : ({ v.heap mdi with keyVersion := new } : MetadataInfo).systemPath =
      (v.heap mdi).systemPath := rfl
  exact setObject_path v hpath a

@[simp] theorem setMD_path (v : View) (mdi : Nat) (md : FileMetadata) (a : Nat) :
    ((v.setObject mdi { v.heap mdi with md := md }).heap a).systemPath = (v.heap a).systemPath := by
  have hpath : ({ v.heap mdi with md := md } : MetadataInfo).systemPath = (v.heap mdi).systemPath := rfl
  exact setObject_path v hpath a

theorem identity_linkCount (x : MetadataInfo) (n : Nat) :
    identity { x with md := { x.md with linkCount := n } } = identity x := rfl

theorem Within.path (h : Within held v v') (ha : a < v.next) :
    (v'.heap a).systemPath = (v.heap a).systemPath := congrArg Prod.fst (h.same a ha)

/-- What taking away a name and its object does to the directory: it stays cached if it is held. -/
structure Removed (held : List Str) (dir : Nat) (v v' : View) : Prop where
  coherent : Coherent none v'
  dir : (v.heap dir).systemPath ∈ held → Cached dir v'

theorem deleteMetadata_removed (h : Coherent none v) {dir : Nat} (hdir : Cached dir v) (held : List Str)
    (mdi : Nat) :
    Shows (careful uuid) view (deleteMetadata held mdi) (fun _ => Removed held dir v) v := by
  refine (deleteMetadata_shows v held mdi).mono ?_
  rintro err v' ⟨hheld, rfl, -⟩
  refine ⟨(h.exempt _).deleted _, fun hmem => hdir.deleted (fun he => hheld ?_) _⟩
  rw [← he]
  exact hmem

/-- The source of a hard link is not cached under its key. -/
theorem Fetched.pending {r : Int × Option Nat} (h : Fetched v r v') (h0 : r.1 = 0) (ha : r.2 = some a)
    (ht : (v'.heap a).md.type = .HARDLINK_S) : Pending a v' where
  coherent := h.coherent.exempt _
  current := ⟨_, (h.found h0 a ha).2, rfl⟩
  alone b hb hne hn := by
    have hs := h.coherent.stored hb (by simp) hn
    have hmd : (v'.heap a).md = (v'.heap b).md :=
      congrArg KineticRecord.value (Option.some.inj ((h.found h0 a ha).2.symm.trans hs))
    exact hn.2 (hmd ▸ ht)

/-- A step that is only taken under a condition and has to succeed, followed by `f`. -/
theorem require_if {c : Prop} [Decidable c] {m : Client Int} {f : Unit → Client β} {P : View → Prop}
    {Q : β → View → Prop} (h : P v) (hm : c → Shows (careful uuid) view m (fun _ => P) v)
    (hf : ∀ v', P v' → Shows (careful uuid) view (f ()) Q v') :
    Shows (careful uuid) view (if c then require m >>= f else f ()) Q v :=
  Shows.ite (fun hc => require_then (hm hc) hf) fun _ => hf v h

theorem unlinkForceUpdate_shows (h : Coherent none v) (fuel : Nat) (path : Str) :
    Shows (careful uuid) view (unlinkForceUpdate fuel path)
      (fun _ v' => Coherent none v' ∧ ∀ dir, Cached dir v → Cached dir v') v := by
  refine (getMetadataUserpath_shows h fuel path).then ?_
  rintro ⟨err, mdiFu⟩ v1 h1
  have hkept : Coherent none v1 ∧ ∀ dir, Cached dir v → Cached dir v1 :=
    ⟨h1.coherent, fun dir hc => hc.steady h (h1.within _)⟩
  refine Shows.ite (fun _ => Shows.pure ⟨h1.coherent, hkept.2⟩) fun _ => ?_
  refine Shows.ite (fun _ => Shows.pure hkept) fun herr => deref_bind fun a ha => getMdi_bind ?_
  refine Shows.ite (fun _ => exit_shows) fun htype => ?_
  obtain ⟨-, hrecord⟩ := h1.found (not_not.mp herr) a ha
  refine (deleteMetadata_shows v1 [] a).mono ?_
  rintro _ v2 ⟨-, rfl, -⟩
  refine ⟨(h1.coherent.exempt _).deleted _, fun dir hc => ?_⟩
  have hc1 := hkept.2 dir hc
  refine hc1.deleted (hc1.apart h1.coherent hrecord ?_) _
  rw [not_not.mp htype]
  exact fun he => hc1.2.2 he.symm

theorem finishUnlink_shows (h : Coherent none v) {dir : Nat}
    (hdir : (v'.heap dir).systemPath ∈ held →
      Cached dir v ∧ (v.heap dir).systemPath ≠ (v.heap mdi).systemPath) :
    Shows (careful uuid) view (finishUnlink mdi 0) (fun _ => Removed held dir v') v := by
  refine Shows.ite (fun he => absurd rfl he) fun _ => require_then (deleteMetadata_shows v [] mdi) ?_
  rintro v1 ⟨-, rfl, -⟩
  exact Shows.pure ⟨(h.exempt _).deleted _, fun hmem => (hdir hmem).1.deleted (hdir hmem).2 _⟩

section Put

variable (hne : ∀ n, uuid n ≠ [])

include hne

/-- The target loses a link, then the name goes. -/
theorem unlinkTarget_shows (h : Coherent none v) (hc : Cached mdi v) {dir mdiS : Nat} (hdir : Cached dir v)
    (hpath : (v.heap dir).systemPath ≠ (v.heap mdiS).systemPath) (held : List Str) :
    Shows (careful uuid) view (do
      setMD mdi fun md => { md with linkCount := decrement md.linkCount }
      if (← getMdi mdi).md.linkCount = 0 then
        let err ← deleteMetadata held mdi
        finishUnlink mdiS err
      else
        updateACtime mdi
        let err ← putMetadata mdi
        finishUnlink mdiS err) (fun _ => Removed held dir v) v := by
  have hpending := (hc.pending h).setMD { (v.heap mdi).md with
    linkCount := decrement (v.heap mdi).md.linkCount }
  have hw : ∀ held, Within held v (v.setObject mdi { v.heap mdi with md := { (v.heap mdi).md with
      linkCount := decrement (v.heap mdi).md.linkCount } }) :=
    fun held => Within.setObject held (identity_linkCount _ _)
  refine setMD_bind (getMdi_bind (Shows.ite (fun _ => ?_) fun _ => ?_))
  · refine (deleteMetadata_shows _ held mdi).then ?_
    rintro err v2 ⟨hheld, rfl, hok⟩
    obtain rfl := hok hpending.current
    rw [setMD_path] at hheld
    refine finishUnlink_shows (hpending.coherent.deleted _) fun hmem => ?_
    refine ⟨(hdir.steady h (hw _)).deleted ?_ _, ?_⟩
    · rw [setMD_path, setMD_path]
      exact fun he => hheld (he ▸ hmem)
    · show ((v.setObject mdi _).heap dir).systemPath ≠ ((v.setObject mdi _).heap mdiS).systemPath
      rw [setMD_path, setMD_path]
      exact hpath
  · refine updateACtime_shows.then ?_
    rintro _ v2 ⟨x, hx, hversion, rfl⟩
    refine putMetadata_bind hne (hpending.change hx hversion) fun new h3 => ?_
    refine finishUnlink_shows h3 fun _ => ⟨hdir.steady h ?_, ?_⟩
    · exact (hw _).trans ((Within.setObject _ hx).trans (Within.stored _ _ mdi new))
    · have hxpath := congrArg Prod.fst hx
      rw [stored_path, stored_path, setObject_path _ hxpath, setObject_path _ hxpath, setMD_path, setMD_path]
      exact hpath

theorem unlinkHardlink_shows (h : Coherent none v) (hc : Cached mdi v) {dir : Nat} (hdir : Cached dir v)
    (fuel : Nat) (held : List Str) (path : Str) :
    Shows (careful uuid) view (unlinkHardlink fuel held path mdi) (fun _ => Removed held dir v) v := by
  refine (getMetadataUserpath_shows h fuel path).then ?_
  rintro ⟨err, mdiS⟩ v1 h1
  have hkept : Removed held dir v v1 := ⟨h1.coherent, fun _ => hdir.steady h (h1.within _)⟩
  refine Shows.ite (fun _ => Shows.pure hkept) fun herr => deref_bind fun s hs => getMdi_bind ?_
  refine Shows.ite (fun _ => exit_shows) fun htype => Shows.ite (fun _ => Shows.pure hkept) fun _ => ?_
  have hpending := h1.pending (not_not.mp herr) hs (not_not.mp htype)
  -- the name is of another type than the directory
  have hpath : (v1.heap dir).systemPath ≠ (v1.heap s).systemPath := by
    have hdir1 := hdir.steady h (h1.within _)
    refine hdir1.apart h1.coherent (h1.found (not_not.mp herr) s hs).2 ?_
    rw [not_not.mp htype]
    exact fun he => hdir1.2.1.2 he.symm
  refine setMD_bind (putMetadata_bind hne (hpending.setMD _) fun new h2 => ?_)
  refine Shows.ite (fun he => absurd rfl he) fun _ => ?_
  have hw : ∀ held, Within held v ((v1.setObject s { v1.heap s with md := { (v1.heap s).md with
      linkCount := 0 } }).stored s new) :=
    fun held => (h1.within held).trans ((Within.stored held _ s new).after_setObject rfl)
  refine (unlinkTarget_shows hne h2 (hc.steady h (hw _)) (hdir.steady h (hw _)) ?_ held).mono ?_
  · rw [stored_path, stored_path, setMD_path, setMD_path]
    exact hpath
  · refine fun _ v3 h3 => ⟨h3.coherent, fun hmem => h3.dir ?_⟩
    rw [(hw held).path (h.used hdir.1)]
    exact hmem

/-- What `unlink_lookup` finds: the directory, and the object if it has more names. -/
structure Unlinkable (r : Int × Nat × Nat) (v : View) : Prop where
  coherent : Coherent none v
  dir : r.1 = 0 → Cached r.2.2 v
  target : r.1 = 0 → (v.heap r.2.1).md.type = .HARDLINK_T → Cached r.2.1 v

omit hne in
theorem Unlinkable.error (h : Coherent none v) {err : Int} (h0 : err ≠ 0) (r : Nat × Nat) :
    Unlinkable (err, r) v :=
  ⟨h, fun he => absurd he h0, fun he => absurd he h0⟩

theorem unlinkLookup_shows (h : Coherent none v) (env : Env) (ctx : Context) (fuel : Nat) (path : Str) :
    Shows (careful uuid) view (unlinkLookup env ctx fuel path) Unlinkable v := by
  refine (lookup_nil hne h env ctx fuel path none).then ?_
  rintro ⟨err, mdi⟩ v1 h1
  refine Shows.ite (fun h0 => Shows.pure (Unlinkable.error h1.coherent h0 _)) fun herr => ?_
  refine deref_bind fun a ha => getMdi_bind ?_
  obtain ⟨b, hb, hc⟩ := h1.found (Or.inl (not_not.mp herr))
  obtain rfl := Option.some.inj (ha.symm.trans hb)
  have hp : Pinned (if (v1.heap a).md.type = .HARDLINK_T then [(v1.heap a).systemPath] else []) v1 := by
    intro key hkey
    split at hkey
    · rw [List.mem_singleton.mp hkey]
      exact ⟨a, hc⟩
    · cases hkey
  refine (lookupParent_shows hne h1.coherent hp env ctx fuel path).then ?_
  rintro ⟨err, mdiDir⟩ v2 h2
  refine Shows.ite (fun h0 => Shows.pure (Unlinkable.error h2.coherent h0 _)) fun herr => ?_
  refine deref_bind fun dir hdir => getMdi_bind ?_
  obtain ⟨b, hb, hcdir⟩ := h2.found (Or.inl (not_not.mp herr))
  obtain rfl := Option.some.inj (hdir.symm.trans hb)
  have hrefused : Unlinkable (-EACCES, a, dir) v2 := Unlinkable.error h2.coherent (by decide) _
  refine Shows.ite (fun _ => Shows.pure hrefused) fun _ => getMdi_bind ?_
  refine Shows.ite (fun _ => Shows.pure hrefused) fun _ => Shows.pure ⟨h2.coherent, fun _ => hcdir, ?_⟩
  intro _ htype
  refine hc.within h1.coherent h2.within ?_
  have hid := h2.within.same a (h1.coherent.used hc.1)
  have hsame : (v2.heap a).md.type = (v1.heap a).md.type := congrArg (fun i => i.2.1) hid
  rw [if_pos (hsame ▸ htype)]
  exact List.mem_singleton_self _

theorem unlinkNames_shows (h : Coherent none v) {dir : Nat} (hdir : env.posixFull = true → Cached dir v)
    {unlink : Str → Client Int} (hunlink : ∀ path, Tidy uuid (unlink path)) (fuel : Nat) (path : Str)
    (directory : Bool) :
    Shows (careful uuid) view (unlinkNames env ctx unlink fuel path mdi dir directory)
      (fun _ => Coherent none) v := by
  refine Shows.get_bind fun l _ _ => ?_
  -- the path mapping and the force update, if there are any
  refine require_if (P := fun v' => Coherent none v' ∧ (env.posixFull = true → Cached dir v')) ⟨h, hdir⟩
    (fun _ => (databaseOperation_stutters _ fuel).shows fun _ => ⟨h, hdir⟩) fun v1 h1 => ?_
  refine require_if (P := fun v' => Coherent none v' ∧ (env.posixFull = true → Cached dir v')) h1
    (fun _ => ?_) fun v2 h2 => ?_
  · refine (unlinkForceUpdate_shows h1.1 fuel path).mono fun _ v2 h2 => ?_
    exact ⟨h2.1, fun hfull => h2.2 dir (h1.2 hfull)⟩
  refine require_then (deleteDirectoryEntry_shows hne h2.1 h2.2 _ fuel) fun v3 h3 => getMdi_bind ?_
  refine Shows.get_bind fun l _ _ => Shows.ite (fun _ => ?_) fun _ => Shows.pure h3
  refine (hflatCreate_tidy hne env ctx fuel _ S_IFREG v3 h3).then fun err v4 h4 => ?_
  refine Shows.ite (fun _ => ?_) fun _ => Shows.pure h4
  exact (hunlink _ v4 h4).then fun _ v5 h5 => Shows.pure h5

theorem hflatUnlink_tidy (env : Env) (ctx : Context) (fuel : Nat) (path : Str) :
    Tidy uuid (hflatUnlink env ctx fuel path) := by
  induction fuel generalizing path with
  | zero => exact fun _ _ => exit_shows
  | succ fuel ih =>
    intro v h
    refine (unlinkLookup_shows hne h env ctx (fuel + 1) path).then ?_
    rintro ⟨err, mdi, dir⟩ v1 h1
    refine Shows.ite (fun _ => Shows.pure h1.coherent) fun herr => getMdi_bind (getMdi_bind ?_)
    have hcdir : Cached dir v1 := h1.dir (not_not.mp herr)
    have hrest : ∀ err v2, Removed (if env.posixFull then [(v1.heap dir).systemPath] else []) dir v1 v2 →
        Shows (careful uuid) view
          (if err = -EAGAIN then hflatUnlink env ctx fuel path
          else if err ≠ 0 then return err
          else unlinkNames env ctx (hflatUnlink env ctx fuel) (fuel + 1) path mdi dir
            (S_ISDIR (v1.heap mdi).md.mode)) (fun _ => Coherent none) v2 := by
      intro err v2 h2
      refine Shows.ite (fun _ => ih path v2 h2.coherent) fun _ => ?_
      refine Shows.ite (fun _ => Shows.pure h2.coherent) fun _ => ?_
      refine unlinkNames_shows hne h2.coherent (fun hfull => h2.dir ?_) ih (fuel + 1) path _
      rw [if_pos hfull]
      exact List.mem_singleton_self _
    refine Shows.ite (fun htype => ?_) fun _ => ?_
    · have htarget := h1.target (not_not.mp herr) htype
      exact (unlinkHardlink_shows hne h1.coherent htarget hcdir (fuel + 1) _ path).then hrest
    · exact (deleteMetadata_removed h1.coherent hcdir _ mdi).then hrest

end Put

end Store

/-! ## Sessions -/

section Sessions

variable {uuid : Nat → Str} (env : Env) (blocksize : Nat)

theorem runOp_tidy (hne : ∀ n, uuid n ≠ []) (fuel : Nat) (ctx : Context) (op : Op) :
    Tidy uuid (runOp env blocksize fuel ctx op) := by
  intro v h
  have hend : ∀ {α : Type} {m : Client α}, Tidy uuid m →
      Shows (careful uuid) view (do let _ ← m) (fun _ => Coherent none) v :=
    fun hm => (hm v h).then fun _ v' h' => Shows.pure h'
  cases op with
  | create path mode => exact hend (hflatCreate_tidy hne env ctx fuel path mode)
  | write append path buf offset =>
    exact hend (hflatWrite_tidy hne env ctx blocksize append path offset fuel buf)
  | fsync append path => exact hend (hflatFsync_tidy hne env ctx blocksize append path fuel)
  | getattr path => exact hend (hflatGetattr_tidy hne env ctx blocksize fuel path)
  | truncate path offset => exact hend (hflatTruncate_tidy hne env ctx blocksize path offset fuel)
  | chmod path mode => exact hend (doPermissionChange_tidy hne env ctx path fuel (some mode) none none)
  | chown path uid gid => exact hend (doPermissionChange_tidy hne env ctx path fuel none uid gid)
  | utimens path atime mtime => exact hend (hflatUtimens_tidy hne env ctx path atime mtime fuel)
  | setxattr path name value flags =>
    exact hend (hflatSetxattr_tidy hne env ctx path name value flags fuel)
  | removexattr path name => exact hend (hflatRemovexattr_tidy hne env ctx path name fuel)
  | unlink path => exact hend (hflatUnlink_tidy hne env ctx fuel path)

theorem session_tidy (hne : ∀ n, uuid n ≠ []) (fuel : Nat) (ops : List (Context × Op)) :
    Tidy uuid (session env blocksize fuel ops) := by
  induction ops with
  | nil => exact fun _ h => Shows.pure h
  | cons op ops ih =>
    obtain ⟨ctx, op⟩ := op
    exact fun v h => (runOp_tidy env blocksize hne fuel ctx op v h).then fun _ v' h' => ih v' h'

end Sessions

/-- Cached objects without unflushed data, except for those without an inode number and the names of
    hard links, have the contents and the version of their keys. -/
def UpToDate (l : Local) (s : Store) : Prop :=
  ∀ key a, l.lookupCache key = some a → l.dirty a = false → Normal (l.heap a) →
    s.record key = some ⟨(l.heap a).md, (l.heap a).keyVersion⟩

theorem coherent_mounted {s : Store} (hversions : ∀ key r, s.record key = some r → r.version ≠ [])
    (hrefused : s.refused = 0) (pmap : PathMapDB) : Coherent none (view (Local.mounted pmap) s) where
  path h := nomatch h
  used h := nomatch h
  stored h := nomatch h
  versions hr := hversions _ _ hr
  refused := hrefused

/-- In a session of a client that has just started and that loses no cache entry of an object it is
    going to store, no `Put` is refused, and the cache is up to date after every operation. -/
theorem cache_coherent {uuid : Nat → Str} (hne : ∀ n, uuid n ≠ []) (env : Env) (blocksize fuel : Nat)
    (ops : List (Context × Op)) (pmap : PathMapDB) {s s' : Store} {l : Local}
    (hversions : ∀ key r, s.record key = some r → r.version ≠ []) (hrefused : s.refused = 0)
    (hrun : Returns (careful uuid) ((session env blocksize fuel ops).run (Local.mounted pmap)) s ((), l) s') :
    UpToDate l s' ∧ s'.refused = 0 := by
  have hstart := coherent_mounted hversions hrefused pmap
  have hend : Coherent none (view l s') :=
    session_tidy env blocksize hne fuel ops _ hstart _ _ rfl _ _ _ hrun
  exact ⟨fun key a ha _ hn => hend.stored ha (by simp) hn, hend.refused⟩

/-- Versions that are all different. -/
def numbered (n : Nat) : Str := 'v' :: toStr n

/-- No path permissions, and no time stamps of directories. -/
def plainEnv : Env := ⟨fun _ => [], fun _ _ => false, withoutDuplicates, false⟩

/-- An empty file `/f`. -/
def withFile : Store where
  record key := if key = lit "/f" then
      some ⟨{ FileMetadata.empty with mode := S_IFREG ||| 0o644, inodeNumber := 2 }, lit "a"⟩
    else none
  block _ := none
  entry _ := false
  log := []
  uuids := 0
  refused := 0

theorem withFile_versions (key : Str) (r : KineticRecord FileMetadata) (h : withFile.record key = some r) :
    r.version ≠ [] := by
  unfold withFile at h
  dsimp only at h
  split at h
  · cases h
    exact List.cons_ne_nil _ _
  · cases h

/-- `truncate` and `utimens` by the superuser. -/
def truncateAndUtimens : List (Context × Op) :=
  [(⟨0, 0⟩, .truncate (lit "/f") 5), (⟨0, 0⟩, .utimens (lit "/f") 1 2)]

/-- No entry expires. -/
theorem cache_coherent_truncate : ∃ l s', Returns (careful numbered)
      ((session plainEnv 1024 5 truncateAndUtimens).run (Local.mounted PathMapDB.empty)) withFile ((), l) s' ∧
    UpToDate l s' ∧ s'.refused = 0 := by
  have hexec : (((session plainEnv 1024 5 truncateAndUtimens).run (Local.mounted PathMapDB.empty)).exec
      (careful numbered) withFile
      [.done, .no, .number 7, .done, .no, .done]).isSome = true := by decide +kernel
  obtain ⟨⟨⟨_, l⟩, s'⟩, hexec⟩ := Option.isSome_iff_exists.mp hexec
  have hrun := returns_of_exec hexec
  exact ⟨l, s', hrun, cache_coherent (fun n => List.cons_ne_nil _ _) plainEnv 1024 5 truncateAndUtimens
    PathMapDB.empty withFile_versions rfl hrun⟩

/-- The entry of `/f` expires while `hflat_truncate` flushes: what the cache has afterwards is the object
    of the second lookup, with the contents from before. -/
theorem cache_not_coherent : ¬ ∀ (uuid : Nat → Str) (env : Env) (blocksize fuel : Nat)
    (ops : List (Context × Op)) (pmap : PathMapDB) (s s' : Store) (l : Local), (∀ n, uuid n ≠ []) →
    (∀ key r, s.record key = some r → r.version ≠ []) → s.refused = 0 →
    Returns (service uuid) ((session env blocksize fuel ops).run (Local.mounted pmap)) s ((), l) s' →
    UpToDate l s' := by
  intro h
  have hexec : (((session plainEnv 1024 5 [(⟨0, 0⟩, .truncate (lit "/f") 5)]).run
      (Local.mounted PathMapDB.empty)).exec (service numbered) withFile
      [.done, .yes, .done, .number 7, .done]).any (fun r =>
        r.1.2.lookupCache (lit "/f") = some 1 ∧ r.1.2.dirty 1 = false ∧ (r.1.2.heap 1).md.inodeNumber ≠ 0 ∧
          (r.1.2.heap 1).md.type ≠ .HARDLINK_S ∧
          (r.2.record (lit "/f")).map (·.value.size) ≠ some (r.1.2.heap 1).md.size) = true := by
    decide +kernel
  obtain ⟨⟨⟨_, l⟩, s'⟩, hexec, hr⟩ := (Option.any_eq_true _ _).mp hexec
  obtain ⟨hcache, hclean, hinode, htype, hsize⟩ := of_decide_eq_true hr
  have hrecord := h numbered plainEnv 1024 5 [(⟨0, 0⟩, .truncate (lit "/f") 5)] PathMapDB.empty withFile s' l
    (fun n => List.cons_ne_nil _ _) withFile_versions rfl (returns_of_exec hexec) _ _ hcache hclean
    ⟨hinode, htype⟩
  rw [hrecord] at hsize
  exact hsize rfl

end HFlat.Fuse.Lone
