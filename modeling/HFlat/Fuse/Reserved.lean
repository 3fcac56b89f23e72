/-
  Any number of clients create and remove names in directories that stay.

  The directory entry of a name is what `hflat_create` and `hflat_unlink` synchronize on: it is created
  before the metadata and deleted after them, so a client that has created the entry, or has deleted the
  metadata, has the name to itself until it stores the metadata or deletes the entry. A client follows the
  protocol whose state is the name that it holds in this way (`protocol`).

  The names are neither linked, nor renamed, nor mapped.
-/
import HFlat.Lib.Reservation
import HFlat.Fuse.OneWinner

namespace HFlat.Fuse.Reserved

open HFlat.Lib HFlat.PathMap HFlat.Permission
open HFlat.Replication (KineticRecord StatusCode versionOf putSame deleteSame)
open OneWinner (Name)

/-! ## Names -/

/-- The names of some directories, and the store at the start. -/
structure Folders where
  names : Set Name
  store : Store

/-- Metadata that may be stored under a key: an inode and no link, and directories stay what they are. -/
structure Folders.Fits (p : Folders) (key : Str) (md : Inode) : Prop where
  type : md.type = .POSIX
  number : md.inodeNumber ≠ 0
  directory : ∀ n ∈ p.names, key = n.dirKey → md.inodeNumber = n.dirInode

/-- Different names have different keys and entries, directories are none of the names, and metadata under
    a name have their entry. -/
structure Folders.Start (p : Folders) : Prop where
  valid : ∀ n ∈ p.names, n.Valid p.store
  key : Set.InjOn Name.key p.names
  entry : Set.InjOn Name.entry p.names
  directory : ∀ n ∈ p.names, ∀ m ∈ p.names, n.key ≠ m.dirKey
  key_ne : ∀ n ∈ p.names, n.key ≠ []
  stored : ∀ {key record}, p.store.metadata key = some record → p.Fits key record.value ∧ record.version ≠ []
  entries : ∀ {key record}, p.store.entries.find key = some record → record.version = lit "1"
  listed : ∀ n ∈ p.names, p.store.metadata n.key ≠ none → p.store.entries.find n.entry ≠ none

/-- The paths of the names lead to their keys, also after more of the log was read, and no path or key of a
    name is mapped. -/
structure Folders.Sees (p : Folders) (db0 : PathMapDB) : Prop where
  led : ∀ n ∈ p.names, n.LedBy p.store.log db0
  unmapped : ∀ n ∈ p.names, ∀ db, Rmdir.Refreshed p.store.log db0 db →
    hasMapping db n.path = false ∧ hasMapping db n.key = false

theorem Folders.Fits.of_core {p : Folders} {key : Str} {md md' : Inode} (h : p.Fits key md)
    (hc : md'.core = md.core) : p.Fits key md' :=
  ⟨(type_of_core hc).trans h.type, inode_of_core hc ▸ h.number,
    fun n hn hk => (inode_of_core hc).trans (h.directory n hn hk)⟩

/-! ## What a client requests -/

open Classical in
/-- The name with the given key, or with the given entry. -/
noncomputable def Folders.named (p : Folders) (f : Name → Str) (key : Str) : Option Name :=
  if h : ∃ n ∈ p.names, f n = key then some h.choose else none

theorem named_eq {p : Folders} {f : Name → Str} (hf : Set.InjOn f p.names) {n : Name} (hn : n ∈ p.names) :
    p.named f (f n) = some n := by
  have h : ∃ m ∈ p.names, f m = f n := ⟨n, hn, rfl⟩
  unfold Folders.named
  rw [dif_pos h]
  exact congrArg some (hf h.choose_spec.1 hn h.choose_spec.2)

section Protocol

variable (p : Folders)

/-- Metadata are created under the name that is held, and deleted by a client that holds none. -/
def Allowed (held : Option Name) : Req → Prop
  | .put _ _ _ key expected md => p.Fits key md ∧ (expected = [] → ∃ n, held = some n ∧ key = n.key)
  | .delete _ _ key _ => held = none ∧ ∃ n ∈ p.names, key = n.key
  | .createEntry key => held = none ∧ ∃ n ∈ p.names, key = n.entry
  | .deleteEntry key => ∃ n, held = some n ∧ key = n.entry
  | .putVersion _ _ _ _ => False
  | .append _ _ => False
  | _ => True

/-- What a client may rely on in an answer. -/
def Answered (_ : Option Name) : (r : Req) → Res r → Prop
  | .get _ _ key, x => ∀ record : KineticRecord Inode, x = .ok record →
      p.Fits key record.value ∧ record.version ≠ []
  | .put _ _ _ _ _ _, (_, version) => version ≠ []
  | .inodeNumber, inode => inode ≠ (0 : Nat)
  | .databaseUpdate version, x => ∀ entries : List DbEntry, x = .ok entries →
      ∃ n, entries = (p.store.log.drop version).take n
  | _, _ => True

/-- The name that a client holds after a request that takes one. -/
def taken (held n : Option Name) (status : StatusCode) : Option Name := if status = .OK then n else held

/-- The name that the client holds after an access. -/
noncomputable def next (held : Option Name) : (r : Req) → Res r → Option Name
  | .put _ _ _ _ expected _, _ => if expected = [] then none else held
  | .delete _ _ key _, status => taken held (p.named Name.key key) status
  | .createEntry key, status => taken held (p.named Name.entry key) status
  | .deleteEntry _, _ => none
  | _, _ => held

/-- A client holds the name that it has reserved or vacated. -/
noncomputable def protocol : Protocol Req Res (Option Name) := ⟨Allowed p, Answered p, next p⟩

end Protocol

/-! ## What a client remembers -/

/-- An object of a client: read from the store, or new. -/
structure Folders.Ok (p : Folders) (x : MetadataInfo) : Prop where
  version : x.keyVersion = [] → x.systemPath = [] ∧ x.md.inodeNumber = 0
  type : x.md.type = .POSIX
  directory : x.md.inodeNumber ≠ 0 → ∀ n ∈ p.names, x.systemPath = n.dirKey → x.md.inodeNumber = n.dirInode

theorem Folders.Ok.fits {p : Folders} {x : MetadataInfo} (h : p.Ok x) (hn : x.md.inodeNumber ≠ 0) :
    p.Fits x.systemPath x.md := ⟨h.type, hn, h.directory hn⟩

theorem Folders.Fits.ok {p : Folders} {key version : Str} {md : Inode} (h : p.Fits key md)
    (hv : version ≠ []) : p.Ok ⟨key, version, md⟩ := ⟨fun hn => absurd hn hv, h.type, fun _ => h.directory⟩

section Discipline

variable {p : Folders} {db0 : PathMapDB} (hsee : p.Sees db0) (me : Nat) (env : Env) (held : Option Name)

/-- Lookups of a client, whatever it holds. -/
noncomputable def discipline : Discipline (protocol p) me env where
  Idle t := t = held
  Snapshot db := Rmdir.Refreshed p.store.log db0 db
  Ok x _ := p.Ok x
  Leads path key := ∀ n ∈ p.names, (path = n.path → key = n.key) ∧ (path = n.dirPath → key = n.dirKey)
  fresh _ := ⟨fun hn => absurd hn OneWinner.version_zero, rfl, fun hn => absurd rfl hn⟩
  source := by
    intro x t _ hx ht _
    rw [hx.type] at ht
    cases ht
  expired _ := ⟨trivial, fun _ => rfl⟩
  refresh _ := ⟨trivial, fun _ => rfl⟩
  update := by
    intro t db db' entries _ hdb hx hu
    obtain ⟨n, rfl⟩ := hx entries rfl
    exact hdb.update hu
  get_allowed _ := trivial
  get := by
    intro t a key x hidle hx
    exact ⟨hidle, fun _ hy => hy, fun record hrecord => (hx record hrecord).1.ok (hx record hrecord).2⟩
  put_allowed := by
    intro t a x parent _ hx _ hn
    exact ⟨(hx.fits hn).of_core (core_inherit env _ _), fun hv => absurd (hx.version hv).2 hn⟩
  put := by
    intro t a x parent status version hidle hx _ hn hanswer
    have hold : x.keyVersion ≠ [] := fun hv => hn (hx.version hv).2
    refine ⟨?_, fun _ hy => hy, ((hx.fits hn).of_core (core_inherit env _ _)).ok ?_⟩
    · show (if x.keyVersion = [] then none else t) = held
      rw [if_neg hold]
      exact hidle
    · split
      · exact hanswer
      · exact hold
  resolve := by
    intro db fuel path key stamp hdb hpath hstamp n hn
    have hled := hsee.led n hn db hdb key stamp (Int.not_lt.mp hstamp)
    exact ⟨fun he => hled.1 (he ▸ ⟨fuel, hpath⟩), fun he => hled.2 (he ▸ ⟨fuel, hpath⟩)⟩
  link := by
    intro t x path key hx ht
    rw [hx.type] at ht
    cases ht

end Discipline

section Programs

open Memory (Sane InUse)

variable {p : Folders} {db0 : PathMapDB} {hsee : p.Sees db0} {me : Nat} {env : Env} {ctx : Context}
variable {held : Option Name} {l : Local} {a : Nat} {key : Str} {n : Name}

theorem sane_held (h : Sane (discipline hsee me env held) ∅ l held) (held' : Option Name) :
    Sane (discipline hsee me env held') ∅ l held' := ⟨rfl, h.snapshot, h.ok, h.cache, h.used⟩

/-- An object that may be stored under its key. -/
structure Stands (p : Folders) (l : Local) (a : Nat) (key : Str) : Prop where
  path : (l.heap a).systemPath = key
  version : (l.heap a).keyVersion ≠ []
  fits : p.Fits key (l.heap a).md

theorem Stands.of_sane (h : Sane (discipline hsee me env held) ∅ l held) (hpath : (l.heap a).systemPath = key)
    (hn : (l.heap a).md.inodeNumber ≠ 0) : Stands p l a key := by
  have hok := h.ok a (Set.notMem_empty a)
  exact ⟨hpath, fun hv => hn (hok.version hv).2, hpath ▸ hok.fits hn⟩

/-- All other objects stay as they are. -/
structure Elsewhere (a : Nat) (l l' : Local) : Prop where
  next : l'.next = l.next
  heap : ∀ b, b ≠ a → l'.heap b = l.heap b

theorem Elsewhere.refl (a : Nat) (l : Local) : Elsewhere a l l := ⟨rfl, fun _ _ => rfl⟩

theorem Elsewhere.trans {l' l'' : Local} (h : Elsewhere a l l') (h' : Elsewhere a l' l'') : Elsewhere a l l'' :=
  ⟨h'.next.trans h.next, fun b hb => (h'.heap b hb).trans (h.heap b hb)⟩

theorem Elsewhere.setObject (x : MetadataInfo) : Elsewhere a l (l.setObject a x) :=
  ⟨rfl, fun b hb => by rw [Local.setObject_heap, if_neg hb]⟩

theorem Elsewhere.setCache (a : Nat) (l : Local) (key : Str) (entry : Option Nat) :
    Elsewhere a l (l.setCache key entry) := ⟨rfl, fun _ _ => rfl⟩

/-! ### Metadata -/

/-- What an access to the metadata of an object leaves. -/
structure Kept (hsee : p.Sees db0) (me : Nat) (env : Env) (held : Option Name) (a : Nat) (key : Str) (l l' : Local)
    (t : Option Name) : Prop where
  sane : Sane (discipline hsee me env held) ∅ l' t
  stands : Stands p l' a key
  elsewhere : Elsewhere a l l'

theorem Kept.trans {l' l'' : Local} {t t' : Option Name} (h : Kept hsee me env held a key l l' t)
    (h' : Kept hsee me env held a key l' l'' t') : Kept hsee me env held a key l l'' t' :=
  ⟨h'.sane, h'.stands, h.elsewhere.trans h'.elsewhere⟩

theorem Kept.setObject (h : Sane (discipline hsee me env held) ∅ l held) (ha : Stands p l a key) {version : Str}
    {md : Inode} (hv : version ≠ []) (hmd : p.Fits key md) :
    Kept hsee me env held a key l (l.setObject a ⟨(l.heap a).systemPath, version, md⟩) held := by
  refine ⟨h.setObject (fun _ => ?_) (Or.inl rfl), ?_, Elsewhere.setObject _⟩
  · rw [ha.path]
    exact hmd.ok hv
  · have hself : (l.setObject a ⟨(l.heap a).systemPath, version, md⟩).heap a =
        ⟨(l.heap a).systemPath, version, md⟩ := by rw [Local.setObject_heap, if_pos rfl]
    exact ⟨by rw [hself]; exact ha.path, by rw [hself]; exact hv, by rw [hself]; exact hmd⟩

theorem putMetadata_kept (h : Sane (discipline hsee me env held) ∅ l held) (ha : Stands p l a key)
    (why : Purpose) : Conforms (protocol p) (putMetadata me why a)
      (fun _ l' t => Kept hsee me env held a key l l' t) l held := by
  refine conforms_getMdi_bind ?_
  have hput : Conforms (protocol p) (perform (.put me a why (l.heap a).systemPath (l.heap a).keyVersion
      (l.heap a).md)) (fun x l' t => l' = l ∧ t = held ∧ x.2 ≠ []) l held := by
    refine Conforms.call ⟨ha.path ▸ ha.fits, fun hv => absurd hv ha.version⟩ fun x hx => ⟨rfl, ?_, hx⟩
    exact if_neg ha.version
  refine hput.then ?_
  rintro ⟨status, version⟩ l' t ⟨rfl, rfl, hversion⟩
  cases status with
  | OK => exact conforms_setMdi_bind (Conforms.pure (Kept.setObject h ha hversion ha.fits))
  | _ =>
    exact conforms_cacheInvalidate_bind (Conforms.pure
      ⟨h.invalidate _, ⟨ha.path, ha.version, ha.fits⟩, Elsewhere.setCache _ _ _ _⟩)

theorem getMetadata_kept (h : Sane (discipline hsee me env held) ∅ l held) (ha : Stands p l a key) :
    Conforms (protocol p) (getMetadata me a) (fun _ l' t => Kept hsee me env held a key l l' t) l held := by
  refine conforms_getMdi_bind ?_
  have hget : Conforms (protocol p) (perform (.get me a (l.heap a).systemPath)) (fun x l' t =>
      l' = l ∧ t = held ∧ ∀ record, x = .ok record →
        p.Fits (l.heap a).systemPath record.value ∧ record.version ≠ []) l held :=
    Conforms.call trivial fun x hx => ⟨rfl, rfl, hx⟩
  refine hget.then ?_
  rintro x l' t ⟨rfl, rfl, hx⟩
  cases x with
  | ok record =>
    obtain ⟨hfits, hversion⟩ := hx record rfl
    exact conforms_setMdi_bind (Conforms.pure (Kept.setObject h ha hversion (ha.path ▸ hfits)))
  | error code => cases code <;> exact Conforms.pure ⟨h, ha, Elsewhere.refl _ _⟩

theorem putMetadataForced_kept (h : Sane (discipline hsee me env held) ∅ l held) (ha : Stands p l a key)
    (fuel : Nat) : Conforms (protocol p) (putMetadataForced me a fuel)
      (fun _ l' t => Kept hsee me env held a key l l' t) l held := by
  induction fuel generalizing l with
  | zero => exact conforms_exit
  | succ fuel ih =>
    refine (putMetadata_kept h ha .update).then ?_
    intro err l1 t1 h1
    obtain rfl : t1 = held := h1.sane.idle
    refine Conforms.ite (fun _ => Conforms.pure h1) fun _ => ?_
    refine (getMetadata_kept h1.sane h1.stands).then ?_
    intro err l2 t2 h2
    obtain rfl : t2 = t1 := h2.sane.idle
    refine Conforms.ite (fun _ => Conforms.pure (h1.trans h2)) fun _ => ?_
    exact (ih h2.sane h2.stands).mono fun _ _ _ h3 => (h1.trans h2).trans h3

theorem touchDirectory_kept (h : Sane (discipline hsee me env held) ∅ l held) (ha : Stands p l a key)
    (fuel : Nat) : Conforms (protocol p) (touchDirectory me env a fuel)
      (fun err l' t => err = 0 ∧ Kept hsee me env held a key l l' t) l held := by
  refine Conforms.ite (fun _ => ?_) fun _ => Conforms.pure ⟨rfl, h, ha, Elsewhere.refl _ _⟩
  exact (putMetadataForced_kept h ha fuel).then fun _ _ _ h' => Conforms.pure ⟨rfl, h'⟩

/-! ### Entries -/

/-- The entry is created: the name is held, or an error is returned. -/
theorem createDirectoryEntry_reserves (hs : p.Start) (hn : n ∈ p.names)
    (h : Sane (discipline hsee me env none) ∅ l none) (ha : Stands p l a n.dirKey) (fuel : Nat) :
    Conforms (protocol p) (createDirectoryEntry me env a (pathToFilename n.path) fuel) (fun err l' t =>
      Elsewhere a l l' ∧ (err = 0 ∧ Sane (discipline hsee me env (some n)) ∅ l' t ∨
        err ≠ 0 ∧ Sane (discipline hsee me env none) ∅ l' t)) l none := by
  refine conforms_getMdi_bind ?_
  rw [ha.fits.directory n hn rfl]
  have hcreate : Conforms (protocol p) (perform (.createEntry n.entry)) (fun x l' t =>
      l' = l ∧ t = taken none (some n) x) l none := by
    refine Conforms.call ⟨rfl, n, hn, rfl⟩ fun x _ => ⟨rfl, ?_⟩
    show taken none (p.named Name.entry n.entry) x = _
    rw [named_eq hs.entry hn]
  refine hcreate.then ?_
  rintro (status : StatusCode) l' t ⟨rfl, rfl⟩
  cases status with
  | OK =>
    refine (touchDirectory_kept (sane_held h (some n)) ha fuel).mono ?_
    rintro err l'' t' ⟨rfl, h'⟩
    exact ⟨h'.elsewhere, Or.inl ⟨rfl, h'.sane⟩⟩
  | _ => exact Conforms.pure ⟨Elsewhere.refl _ _, Or.inr ⟨by decide, h⟩⟩

/-- The entry is deleted by the client that holds the name. -/
theorem deleteDirectoryEntry_releases (hn : n ∈ p.names)
    (h : Sane (discipline hsee me env (some n)) ∅ l (some n)) (ha : Stands p l a n.dirKey) (fuel : Nat) :
    Conforms (protocol p) (deleteDirectoryEntry me env a (pathToFilename n.path) fuel) (fun _ l' t =>
      Elsewhere a l l' ∧ Sane (discipline hsee me env none) ∅ l' t) l (some n) := by
  refine conforms_getMdi_bind ?_
  rw [ha.fits.directory n hn rfl]
  have hdelete : Conforms (protocol p) (perform (.deleteEntry n.entry)) (fun _ l' t => l' = l ∧ t = none) l
      (some n) := Conforms.call ⟨n, rfl, rfl⟩ fun x _ => ⟨rfl, rfl⟩
  refine hdelete.then ?_
  rintro (status : StatusCode) l' t ⟨rfl, rfl⟩
  cases status with
  | OK =>
    refine (touchDirectory_kept (sane_held h none) ha fuel).mono ?_
    rintro err l'' t' ⟨-, h'⟩
    exact ⟨h'.elsewhere, h'.sane⟩
  | _ => exact Conforms.pure ⟨Elsewhere.refl _ _, sane_held h none⟩

/-! ### Create -/

/-- The directory of a name. -/
theorem stands_parent {l1 : Local} (hs : p.Start) (hn : n ∈ p.names) {mdiDir : Option Nat} {err : Int}
    (h : Memory.FoundParent (discipline hsee me env held) ∅ n.path l1 (err, mdiDir) l held)
    (herr : err = 0) : ∃ a, mdiDir = some a ∧ a < l.next ∧ Stands p l a n.dirKey := by
  obtain ⟨parent, a, hparent, ha, hc, -⟩ := h.found herr
  obtain rfl : n.dirPath = parent := Option.some.inj ((hs.valid n hn).parent.symm.trans hparent)
  exact ⟨a, ha, hc.inUse.2, Stands.of_sane h.sane ((hc.leads n hn).2 rfl) hc.inode⟩

/-- An object of the name gets its metadata. -/
theorem initializeMetadata_stands (hs : p.Start) (hn : n ∈ p.names)
    (h : Sane (discipline hsee me env held) ∅ l held) (hpath : (l.heap a).systemPath = n.key) (mdiDir mode : Nat) :
    Conforms (protocol p) (initializeMetadata env ctx a mdiDir mode) (fun _ l' t =>
      Sane (discipline hsee me env held) ∅ l' t ∧ Stands p l' a n.key) l held := by
  have hinode : Conforms (protocol p) (perform .inodeNumber) (fun inode l' t =>
      l' = l ∧ t = held ∧ inode ≠ (0 : Nat)) l held := Conforms.call trivial fun _ hx => ⟨rfl, rfl, hx⟩
  refine hinode.then ?_
  rintro (inode : Nat) l' t ⟨rfl, rfl, hnumber⟩
  have hversion : (l'.heap a).keyVersion ≠ [] := by
    intro hv
    have hnil := ((h.ok a (Set.notMem_empty a)).version hv).1
    rw [hpath] at hnil
    exact hs.key_ne n hn hnil
  have hfits : p.Fits n.key (inheritPathPermissions env { (l'.heap a).md with
      type := .POSIX, gid := ctx.gid, uid := ctx.uid, mode := mode, inodeNumber := inode }
      (l'.heap mdiDir).md) := by
    refine ⟨?_, ?_, fun m hm hk => absurd hk (hs.directory n hn m hm)⟩
    · rw [type_of_core (core_inherit env _ _)]
    · rw [inode_of_core (core_inherit env _ _)]
      exact hnumber
  have hok := hfits.ok hversion
  rw [← hpath] at hok
  refine conforms_getMdi_bind (Conforms.modify ⟨h.setObject (fun _ => hok) (Or.inl rfl), ?_, ?_, ?_⟩)
  · rw [Local.setObject_heap, if_pos rfl]
    exact hpath
  · rw [Local.setObject_heap, if_pos rfl]
    exact hversion
  · rw [Local.setObject_heap, if_pos rfl]
    exact hfits

/-- The metadata are created under the name that the client holds. -/
theorem createMetadata_uses (h : Sane (discipline hsee me env (some n)) ∅ l (some n)) (ha : Stands p l a n.key) :
    Conforms (protocol p) (createMetadata me .create a)
      (fun _ l' t => Sane (discipline hsee me env none) ∅ l' t) l (some n) := by
  refine conforms_getMdi_bind ?_
  have hput : Conforms (protocol p) (perform (.put me a .create (l.heap a).systemPath [] (l.heap a).md))
      (fun x l' t => l' = l ∧ t = none ∧ x.2 ≠ []) l (some n) :=
    Conforms.call ⟨ha.path ▸ ha.fits, fun _ => ⟨n, rfl, ha.path⟩⟩ fun x hx => ⟨rfl, rfl, hx⟩
  refine hput.then ?_
  rintro ⟨status, version⟩ l' t ⟨rfl, rfl, hversion⟩
  have h' := sane_held h none
  cases status with
  | OK => exact conforms_setMdi_bind (Conforms.pure (Kept.setObject h' ha hversion ha.fits).sane)
  | _ => exact Conforms.pure h'

/-- The client holds nothing before and after. -/
def Idle (hsee : p.Sees db0) (me : Nat) (env : Env) {α : Type} (m : Client α) : Prop :=
  Maintains (protocol p) (Sane (discipline hsee me env none) ∅) (fun _ => True) m

theorem idle_pure {α : Type} (h : Sane (discipline hsee me env none) ∅ l none) (x : α) :
    Conforms (protocol p) (pure x : Client α) (fun _ l' t => True ∧ Sane (discipline hsee me env none) ∅ l' t)
      l none := Conforms.pure ⟨trivial, h⟩

theorem createIn_idle (hs : p.Start) (hn : n ∈ p.names) (h : Sane (discipline hsee me env none) ∅ l none)
    {mdi : Nat} (hmdi : (l.heap mdi).systemPath = n.key) (ha : Stands p l a n.dirKey) (fuel mode : Nat) :
    Conforms (protocol p) (createIn me env ctx fuel n.path mode mdi a)
      (fun _ l' t => True ∧ Sane (discipline hsee me env none) ∅ l' t) l none := by
  refine conforms_getMdi_bind (Conforms.ite (fun _ => idle_pure h _) fun _ => ?_)
  refine (createDirectoryEntry_reserves hs hn h ha fuel).then ?_
  rintro err l1 t1 ⟨helse, ⟨herr, h1⟩ | ⟨herr, h1⟩⟩
  · obtain rfl : t1 = some n := h1.idle
    refine Conforms.ite (fun hne => absurd herr hne) fun _ => ?_
    have hne : mdi ≠ a := by
      rintro rfl
      exact hs.directory n hn n hn (hmdi.symm.trans ha.path)
    have hmdi1 : (l1.heap mdi).systemPath = n.key := by
      rw [helse.heap mdi hne]
      exact hmdi
    refine (initializeMetadata_stands hs hn h1 hmdi1 a mode).then ?_
    rintro _ l2 t2 ⟨h2, hstands⟩
    obtain rfl : t2 = some n := h2.idle
    have hrequire : Conforms (protocol p) (require (createMetadata me .create mdi))
        (fun _ l' t => Sane (discipline hsee me env none) ∅ l' t) l2 (some n) :=
      (createMetadata_uses h2 hstands).then fun _ _ _ h3 =>
        Conforms.ite (fun _ => conforms_exit) fun _ => Conforms.pure h3
    refine hrequire.then fun _ l3 t3 h3 => ?_
    obtain rfl : t3 = none := h3.idle
    exact idle_pure h3 _
  · obtain rfl : t1 = none := h1.idle
    exact Conforms.ite (fun _ => idle_pure h1 _) fun h0 => absurd herr h0

theorem hflatCreate_idle (hs : p.Start) (hn : n ∈ p.names) (fuel mode : Nat) :
    Idle hsee me env (hflatCreate me env ctx fuel n.path mode) := by
  intro l t h
  obtain rfl : t = none := h.idle
  refine (Memory.lookup_keyed h ctx fuel n.path).then ?_
  rintro ⟨err, mdi⟩ l1 t1 ⟨h1, hkey⟩
  obtain rfl : t1 = none := h1.sane.idle
  refine Conforms.ite (fun _ => idle_pure h1.sane _) fun _ => Conforms.ite (fun _ => idle_pure h1.sane _) fun _ => ?_
  refine (Memory.lookupParent_found h1.sane ctx fuel n.path).then ?_
  rintro ⟨err, mdiDir⟩ l2 t2 h2
  obtain rfl : t2 = none := h2.sane.idle
  refine Conforms.ite (fun _ => idle_pure h2.sane _) fun _ =>
    Conforms.ite (fun _ => idle_pure h2.sane _) fun herr => ?_
  obtain ⟨a, rfl, -, ha⟩ := stands_parent hs hn h2 (not_not.mp herr)
  cases mdi with
  | none => exact conforms_exit
  | some mdi =>
    refine conforms_deref_bind (conforms_deref_bind (createIn_idle hs hn h2.sane ?_ ha fuel mode))
    rw [(h2.ext.same mdi (h1.inUse mdi rfl).2).1]
    exact ((hkey mdi rfl) n hn).1 rfl

/-! ### Updates -/

theorem hflatUpdate_idle (path : Str) (change : Change) (fuel : Nat) :
    Idle hsee me env (hflatUpdate me env ctx path change fuel) := by
  induction fuel with
  | zero => exact fun _ _ _ => conforms_exit
  | succ fuel ih =>
    intro l t h
    obtain rfl : t = none := h.idle
    refine (Memory.lookup_found h ctx (fuel + 1) path).then ?_
    rintro ⟨err, mdi⟩ l1 t1 h1
    obtain rfl : t1 = none := h1.sane.idle
    refine Conforms.ite (fun _ => idle_pure h1.sane _) fun herr => ?_
    obtain ⟨a, rfl, -, hinode, -, -⟩ := h1.found (not_not.mp herr)
    refine conforms_deref_bind (conforms_getMdi_bind ?_)
    cases hmd : change.apply (l1.heap a).md with
    | error err => exact idle_pure h1.sane _
    | ok md =>
      obtain ⟨htype, hnumber⟩ := change.keeps _ _ hmd
      have hstands : Stands p l1 a (l1.heap a).systemPath := Stands.of_sane h1.sane rfl hinode
      have hfits : p.Fits (l1.heap a).systemPath md :=
        ⟨htype.trans hstands.fits.type, hnumber ▸ hstands.fits.number,
          fun m hm hk => hnumber.trans (hstands.fits.directory m hm hk)⟩
      have hkept := Kept.setObject h1.sane hstands hstands.version hfits
      refine conforms_setMdi_bind ((putMetadata_kept hkept.sane hkept.stands .update).then ?_)
      intro err l2 t2 h2
      obtain rfl : t2 = none := h2.sane.idle
      exact Conforms.ite (fun _ => ih l2 none h2.sane) fun _ => idle_pure h2.sane _

/-! ### Unlink -/

/-- What `unlink_lookup` finds. -/
theorem unlinkLookup_stands (hs : p.Start) (hn : n ∈ p.names) (h : Sane (discipline hsee me env none) ∅ l none)
    (fuel : Nat) : Conforms (protocol p) (unlinkLookup me env ctx fuel n.path) (fun r l' t =>
      Sane (discipline hsee me env none) ∅ l' t ∧
        (r.1 = 0 → Stands p l' r.2.1 n.key ∧ Stands p l' r.2.2 n.dirKey ∧
          (r.2.1 < l'.next ∧ r.2.2 < l'.next))) l none := by
  refine (Memory.lookup_found h ctx fuel n.path).then ?_
  rintro ⟨err, mdi⟩ l1 t1 h1
  obtain rfl : t1 = none := h1.sane.idle
  refine Conforms.ite (fun herr => Conforms.pure ⟨h1.sane, fun h0 => absurd h0 herr⟩) fun herr => ?_
  obtain ⟨mdi, rfl, hleads, hinode, -, -⟩ := h1.found (not_not.mp herr)
  refine conforms_deref_bind ((Memory.lookupParent_found h1.sane ctx fuel n.path).then ?_)
  rintro ⟨err, mdiDir⟩ l2 t2 h2
  obtain rfl : t2 = none := h2.sane.idle
  refine Conforms.ite (fun herr => Conforms.pure ⟨h2.sane, fun h0 => absurd h0 herr⟩) fun herr => ?_
  obtain ⟨a, rfl, hlta, ha⟩ := stands_parent hs hn h2 (not_not.mp herr)
  have hlt := (h1.inUse mdi rfl).2
  have hmdi : Stands p l2 mdi n.key := by
    refine Stands.of_sane h2.sane ?_ ?_
    · rw [(h2.ext.same mdi hlt).1]
      exact (hleads n hn).1 rfl
    · rw [h2.ext.inode hlt]
      exact hinode
  have hacces : -EACCES ≠ 0 := by decide
  refine conforms_deref_bind (conforms_getMdi_bind (Conforms.ite (fun _ => ?_) fun _ => ?_))
  · exact Conforms.pure ⟨h2.sane, fun h0 => absurd h0 hacces⟩
  refine conforms_getMdi_bind (Conforms.ite (fun _ => ?_) fun _ => ?_)
  · exact Conforms.pure ⟨h2.sane, fun h0 => absurd h0 hacces⟩
  · exact Conforms.pure ⟨h2.sane, fun _ => ⟨hmdi, ha, hlt.trans_le h2.ext.next_le, hlta⟩⟩

/-- The metadata are deleted and the name is held, or an error is returned. -/
theorem deleteMetadata_vacates (hs : p.Start) (hn : n ∈ p.names)
    (h : Sane (discipline hsee me env none) ∅ l none) (ha : Stands p l a n.key) :
    Conforms (protocol p) (deleteMetadata me .delete a) (fun err l' t => l'.heap = l.heap ∧ l'.next = l.next ∧
      (err = 0 ∧ Sane (discipline hsee me env (some n)) ∅ l' t ∨
        err ≠ 0 ∧ Sane (discipline hsee me env none) ∅ l' t)) l none := by
  refine conforms_getMdi_bind (conforms_cacheInvalidate_bind ?_)
  rw [ha.path]
  have hdelete : Conforms (protocol p) (perform (.delete me .delete n.key (some (l.heap a).keyVersion)))
      (fun x l' t => l' = l.setCache n.key none ∧ t = taken none (some n) x) (l.setCache n.key none) none := by
    refine Conforms.call ⟨rfl, n, hn, rfl⟩ fun x _ => ⟨rfl, ?_⟩
    show taken none (p.named Name.key n.key) x = _
    rw [named_eq hs.key hn]
  refine hdelete.then ?_
  rintro (status : StatusCode) l' t ⟨rfl, rfl⟩
  have h' := h.invalidate n.key
  cases status with
  | OK => exact Conforms.pure ⟨rfl, rfl, Or.inl ⟨rfl, sane_held h' (some n)⟩⟩
  | _ => exact Conforms.pure ⟨rfl, rfl, Or.inr ⟨by decide, h'⟩⟩

/-- There is no `FORCE_UPDATE` inode to be removed. -/
theorem unlinkForceUpdate_kept (h : Sane (discipline hsee me env held) ∅ l held) (fuel : Nat) (path : Str) :
    Conforms (protocol p) (unlinkForceUpdate me fuel path) (fun _ l' t =>
      Sane (discipline hsee me env held) ∅ l' t ∧ ∀ b < l.next, l'.heap b = l.heap b) l held := by
  have hget : Conforms (protocol p) (getMetadataUserpath me fuel path) (fun _ l' t =>
      Sane (discipline hsee me env held) ∅ l' t ∧ ∀ b < l.next, l'.heap b = l.heap b) l held := by
    refine Conforms.get_bind ?_
    split
    · exact conforms_exit
    refine Conforms.ite (fun _ => Conforms.pure ⟨h, fun _ _ => rfl⟩) fun _ => ?_
    refine conforms_newMetadataInfo_bind ((Memory.getMetadata_sane (h.alloc _) l.next).then ?_)
    rintro err l' t ⟨h', -, -, hother, -⟩
    refine Conforms.pure ⟨h', fun b hb => ?_⟩
    rw [hother b (ne_of_lt hb), Local.alloc_heap, if_neg (ne_of_lt hb)]
  refine hget.then ?_
  rintro ⟨err, mdiFu⟩ l1 t1 ⟨h1, hheap⟩
  obtain rfl : t1 = held := h1.idle
  refine Conforms.ite (fun _ => Conforms.pure ⟨h1, hheap⟩) fun _ => ?_
  refine Conforms.ite (fun _ => Conforms.pure ⟨h1, hheap⟩) fun _ => ?_
  cases mdiFu with
  | none => exact conforms_exit
  | some mdiFu =>
    refine conforms_deref_bind (conforms_getMdi_bind (Conforms.ite (fun _ => conforms_exit) fun htype => ?_))
    have hposix := (h1.ok mdiFu (Set.notMem_empty mdiFu)).type
    rw [not_not.mp htype] at hposix
    cases hposix

theorem Stands.of_heap {l' : Local} (h : Stands p l a key) (hheap : l'.heap a = l.heap a) :
    Stands p l' a key :=
  ⟨by rw [hheap]; exact h.path, by rw [hheap]; exact h.version, by rw [hheap]; exact h.fits⟩

/-- The entry is deleted; neither the name nor its key is mapped. -/
theorem unlinkNames_idle (hs : p.Start) (hn : n ∈ p.names) (h : Sane (discipline hsee me env (some n)) ∅ l (some n))
    {mdi : Nat} (hmdi : Stands p l mdi n.key) (ha : Stands p l a n.dirKey) (hlt : mdi < l.next ∧ a < l.next)
    (unlink : Str → Client Int) (fuel : Nat) (directory : Bool) :
    Conforms (protocol p) (unlinkNames me env ctx unlink fuel n.path mdi a directory)
      (fun _ l' t => True ∧ Sane (discipline hsee me env none) ∅ l' t) l (some n) := by
  have hne : mdi ≠ a := by
    rintro rfl
    exact hs.directory n hn n hn (hmdi.path.symm.trans ha.path)
  -- the rest, once the `FORCE_UPDATE` inode has been looked for
  have hrest : ∀ l1 : Local, Sane (discipline hsee me env (some n)) ∅ l1 (some n) → Stands p l1 mdi n.key →
      Stands p l1 a n.dirKey → Conforms (protocol p) (do
        require (deleteDirectoryEntry me env a (pathToFilename n.path) fuel)
        let reuse := (← getMdi mdi).systemPath
        if hasMapping (← get).pmap reuse then
          let err ← hflatCreate me env ctx fuel reuse S_IFREG
          if err = 0 then
            let _ ← unlink reuse
            return 0
          return 0
        return 0 : Client Int) (fun _ l' t => True ∧ Sane (discipline hsee me env none) ∅ l' t) l1 (some n) := by
    intro l1 h1 hmdi ha
    have hrequire : Conforms (protocol p) (require (deleteDirectoryEntry me env a (pathToFilename n.path) fuel))
        (fun _ l' t => Elsewhere a l1 l' ∧ Sane (discipline hsee me env none) ∅ l' t) l1 (some n) :=
      (deleteDirectoryEntry_releases hn h1 ha fuel).then fun _ _ _ h2 =>
        Conforms.ite (fun _ => conforms_exit) fun _ => Conforms.pure h2
    refine hrequire.then ?_
    rintro _ l2 t2 ⟨helse, h2⟩
    obtain rfl : t2 = none := h2.idle
    refine conforms_getMdi_bind (Conforms.get_bind (Conforms.ite (fun hmap => ?_) fun _ => idle_pure h2 _))
    rw [helse.heap mdi hne, hmdi.path, (hsee.unmapped n hn _ h2.snapshot).2] at hmap
    cases hmap
  refine Conforms.get_bind (Conforms.ite (fun hmap => ?_) fun _ => ?_)
  · rw [(hsee.unmapped n hn _ h.snapshot).1] at hmap
    cases hmap
  refine Conforms.ite (fun _ => ?_) fun _ => hrest l h hmdi ha
  have hrequire : Conforms (protocol p) (require (unlinkForceUpdate me fuel n.path)) (fun _ l' t =>
      Sane (discipline hsee me env (some n)) ∅ l' t ∧ ∀ b < l.next, l'.heap b = l.heap b) l (some n) :=
    (unlinkForceUpdate_kept h fuel n.path).then fun _ _ _ h2 =>
      Conforms.ite (fun _ => conforms_exit) fun _ => Conforms.pure h2
  refine hrequire.then ?_
  rintro _ l1 t1 ⟨h1, hheap⟩
  obtain rfl : t1 = some n := h1.idle
  exact hrest l1 h1 (hmdi.of_heap (hheap _ hlt.1)) (ha.of_heap (hheap _ hlt.2))

theorem hflatUnlink_idle (hs : p.Start) (hn : n ∈ p.names) (fuel : Nat) :
    Idle hsee me env (hflatUnlink me env ctx fuel n.path) := by
  induction fuel with
  | zero => exact fun _ _ _ => conforms_exit
  | succ fuel ih =>
    intro l t h
    obtain rfl : t = none := h.idle
    refine (unlinkLookup_stands hs hn h (fuel + 1)).then ?_
    rintro ⟨err, mdi, a⟩ l1 t1 ⟨h1, hfound⟩
    obtain rfl : t1 = none := h1.idle
    refine Conforms.ite (fun _ => idle_pure h1 _) fun herr => ?_
    obtain ⟨hmdi, ha, hlt⟩ := hfound (not_not.mp herr)
    refine conforms_getMdi_bind ?_
    have htype : (l1.heap mdi).md.type ≠ .HARDLINK_T := by
      rw [hmdi.fits.type]
      decide
    rw [if_neg htype]
    refine (deleteMetadata_vacates hs hn h1 hmdi).then ?_
    rintro err l2 t2 ⟨hheap, hnext, ⟨herr, h2⟩ | ⟨herr, h2⟩⟩
    · obtain rfl : t2 = some n := h2.idle
      have hagain : err ≠ -EAGAIN := by
        rw [herr]
        decide
      refine Conforms.ite (fun h0 => absurd h0 hagain) fun _ => ?_
      rw [if_neg (not_not.mpr herr)]
      refine unlinkNames_idle hs hn h2 (hmdi.of_heap (congrFun hheap _)) (ha.of_heap (congrFun hheap _)) ?_ _ _ _
      rw [hnext]
      exact hlt
    · obtain rfl : t2 = none := h2.idle
      refine Conforms.ite (fun _ => ih l2 none h2) fun _ => ?_
      rw [if_pos herr]
      exact idle_pure h2 _

theorem hflatRmdir_idle (hs : p.Start) (hn : n ∈ p.names) (fuel : Nat) :
    Idle hsee me env (hflatRmdir me env ctx fuel n.path) := by
  intro l t h
  obtain rfl : t = none := h.idle
  refine (Memory.lookup_found h ctx fuel n.path).then ?_
  rintro ⟨err, mdi⟩ l1 t1 h1
  obtain rfl : t1 = none := h1.sane.idle
  refine Conforms.ite (fun _ => idle_pure h1.sane _) fun _ => ?_
  cases mdi with
  | none => exact conforms_exit
  | some mdi =>
    refine conforms_deref_bind (conforms_getMdi_bind ?_)
    have hrange : ∀ start stop : Str, Conforms (protocol p) (perform (.entryRange start stop 1))
        (fun _ l' t => l' = l1 ∧ t = none) l1 none := fun _ _ => Conforms.call trivial fun _ _ => ⟨rfl, rfl⟩
    refine (hrange _ _).then ?_
    rintro (keys : List Str) l2 t2 ⟨rfl, rfl⟩
    refine Conforms.ite (fun _ => idle_pure h1.sane _) fun _ => ?_
    refine (Memory.databaseUpdate_sane h1.sane).then ?_
    rintro _ l3 t3 ⟨h3, -, -⟩
    exact hflatUnlink_idle hs hn fuel l3 t3 h3

/-! ### Sessions -/

/-- Names are created and removed; anything may be updated. -/
def On (names : Set Name) : Operation → Prop
  | .create _ path _ => ∃ n ∈ names, path = n.path
  | .unlink _ path => ∃ n ∈ names, path = n.path
  | .rmdir _ path => ∃ n ∈ names, path = n.path
  | .update _ _ _ => True
  | .link _ _ _ => False
  | .rename _ _ _ => False

theorem operation_idle (hs : p.Start) {op : Operation} (hop : On p.names op) (fuel : Nat) :
    Idle hsee me env (op.run me env fuel) := by
  cases op with
  | create ctx path mode =>
    obtain ⟨n, hn, rfl⟩ := hop
    exact hflatCreate_idle hs hn fuel mode
  | update ctx path change => exact hflatUpdate_idle path change fuel
  | unlink ctx path =>
    obtain ⟨n, hn, rfl⟩ := hop
    exact hflatUnlink_idle hs hn fuel
  | rmdir ctx path =>
    obtain ⟨n, hn, rfl⟩ := hop
    exact hflatRmdir_idle hs hn fuel
  | link ctx target origin => exact hop.elim
  | rename ctx pathFrom pathTo => exact hop.elim

theorem session_idle (hs : p.Start) {ops : List Operation} (hops : ∀ op ∈ ops, On p.names op) (fuel : Nat) :
    Idle hsee me env (session me env fuel ops) := by
  induction ops with
  | nil => exact Maintains.pure trivial
  | cons op ops ih =>
    exact Maintains.bind (operation_idle hs (hops op List.mem_cons_self) fuel) fun _ _ =>
      ih fun op hop => hops op (List.mem_cons_of_mem _ hop)

end Programs

end HFlat.Fuse.Reserved
