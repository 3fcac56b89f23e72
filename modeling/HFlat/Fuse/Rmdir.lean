/-
  A directory is removed on one client while a file is created in it on another.

  `hflat_rmdir` reads the range of the directory's entries and deletes the directory's record
  later; nothing keeps an entry from being created in between, and a delete that is refused for
  its version is repeated by `hflat_unlink` without another look at the entries. `Orderly` is the
  condition under which no entry is lost: the record is only deleted while the directory is empty,
  and no entry is created afterwards.

  As long as the record is there both clients follow a protocol by which every record of the
  directory's key keeps its inode number, so the entry of the file is one of the directory
  (`Early`). Once it is gone, all that matters is that the file has no entry yet and cannot get
  one any more (`Late`).
-/
import HFlat.Fuse.Memory
import HFlat.Fuse.Versions

namespace HFlat.Fuse.Rmdir

open HFlat.Lib HFlat.PathMap HFlat.Permission
open HFlat.Replication (KineticRecord StatusCode versionOf putSame)

/-! ## The two clients -/

/-- The two clients. -/
inductive Party where
  | remover | creator
  deriving DecidableEq, Repr

/-- The number of a client. -/
def Party.me : Party → Nat
  | .remover => 0
  | .creator => 1

/-- The store, and whether the directory's record has been removed. -/
abbrev Observed := Store × Bool

/-- The record of `key` has been removed. -/
def note (key : Str) (removed : Bool) (s : Store) (_ : Req) (s' : Store) : Bool :=
  removed || ((s.metadata key).isSome && (s'.metadata key).isNone)

/-- The service, noting whether the directory has been removed. -/
def observed (uuid : Nat → Str) (key : Str) : Service Req Res Choice Observed :=
  (store uuid).observe fun removed s r _ s' => note key removed s r s'

/-- `hflat_rmdir` of the directory `dir` and `hflat_create` of a file `path` in it. -/
def clients {S : Type} (env : Env) (ctx : Party → Context) (fuel : Nat) (dir path : Str) (mode : Nat)
    (l : Party → Local) (s : S) : Config Req Res S Party (Int × Local) :=
  ⟨s, fun i =>
    match i with
    | .remover => (hflatRmdir i.me env (ctx .remover) fuel dir).run (l .remover)
    | .creator => (hflatCreate i.me env (ctx .creator) fuel path mode).run (l .creator)⟩

/-- The key is that of an entry of the directory. -/
def IsEntry (inode : Nat) (key : Str) : Prop := direntryKey inode [] <+: key

instance (inode : Nat) (key : Str) : Decidable (IsEntry inode key) :=
  inferInstanceAs (Decidable (_ <+: _))

theorem isEntry_direntryKey (inode : Nat) (name : Str) : IsEntry inode (direntryKey inode name) :=
  ⟨name, by simp [direntryKey]⟩

/-- The directory has no entries. -/
def Empty (s : Store) (inode : Nat) : Prop := ∀ key ∈ s.entries.keys, ¬ IsEntry inode key

instance (s : Store) (inode : Nat) : Decidable (Empty s inode) := List.decidableBAll _ _

theorem Empty.find {s : Store} {inode : Nat} (h : Empty s inode) {key : Str} (hkey : IsEntry inode key) :
    s.entries.find key = none := by
  by_contra hne
  exact h key ((s.entries.mem_keys key).mpr hne) hkey

theorem empty_of_find {s : Store} {inode : Nat} (h : ∀ key, IsEntry inode key → s.entries.find key = none) :
    Empty s inode := by
  intro key hmem hkey
  exact (s.entries.mem_keys key).mp hmem (h key hkey)

/-- The directory's record is deleted while the directory is empty, and once it is gone the file gets no
    entry and the directory gets none. -/
def orderly (key : Str) (inode : Nat) (s : Observed) (i : Party) : Req → Bool
  | .delete _ _ k expected => k = key → (s.1.delete k expected).1 = .OK → Empty s.1 inode
  | .createEntry k => s.2 = true → i = .remover ∧ ¬ IsEntry inode k
  | _ => true

/-- The next request of the client is orderly. -/
def Orderly (key : Str) (inode : Nat) (c : Config Req Res Observed Party (Int × Local)) (i : Party) : Prop :=
  ∀ r ∈ (c.prog i).request, orderly key inode c.shared i r = true

instance (key : Str) (inode : Nat) (c : Config Req Res Observed Party (Int × Local)) (i : Party) :
    Decidable (Orderly key inode c i) :=
  inferInstanceAs (Decidable (∀ r ∈ (c.prog i).request, orderly key inode c.shared i r = true))

/-! ## While the directory is there -/

/-- `db` is what a client has that starts with `db0` and reads some of the log now and then. -/
inductive Refreshed (log : List DbEntry) (db0 : PathMapDB) : PathMapDB → Prop
  | start : Refreshed log db0 db0
  | update {db db' : PathMapDB} {n : Nat} (h : Refreshed log db0 db)
      (hu : updateSnapshot db ((log.drop db.snapshotVersion).take n) db.snapshotVersion
        (db.snapshotVersion + ((log.drop db.snapshotVersion).take n).length) = some db') :
      Refreshed log db0 db'

/-- The directory `dir`: the key that its path leads to, its metadata at first, and the database. -/
structure Place where
  dir : Str
  key : Str
  md : Inode
  log : List DbEntry

/-- Whatever of the log a client with snapshot `db0` has read, the path leads to the key. -/
def Place.LedBy (p : Place) (db0 : PathMapDB) : Prop :=
  ∀ db, Refreshed p.log db0 db → ∀ key stamp, ToSystemPath db p.dir .LOOKUP (key, stamp) → 0 ≤ stamp →
    key = p.key

section Protocol

variable (p : Place) (entry : Str) (i : Party)

/-- Before it has removed the directory, a client writes no other inode under the directory's key, and the
    only entry written is that of the file. -/
def Allowed (removed : Bool) : Req → Prop
  | .put _ _ _ key expected md => removed = true ∨ (key = p.key → expected = [] ∨ md.core = p.md.core)
  | .delete _ _ key _ => removed = true ∨ (i = .remover ∧ key = p.key)
  | .createEntry key => removed = true ∨ (i = .creator ∧ key = entry)
  | .putVersion _ _ _ _ => removed = true
  | .deleteEntry _ => removed = true
  | .append _ _ => removed = true
  | _ => True

/-- What a client may rely on in an answer. -/
def Answered (_ : Bool) : (r : Req) → Res r → Prop
  | .get _ _ key, x => key = p.key → ∀ record : KineticRecord Inode, x = .ok record →
      record.value.core = p.md.core
  | .databaseUpdate version, x => ∀ entries : List DbEntry, x = .ok entries →
      ∃ n, entries = (p.log.drop version).take n
  | _, _ => True

/-- The request has taken effect. -/
def carriedOut (status : StatusCode) : Bool := status = .OK

/-- Whether the client has removed the directory, after an answer. -/
def next (removed : Bool) : (r : Req) → Res r → Bool
  | .delete _ _ _ _, x => removed || carriedOut x
  | _, _ => removed

/-- The accesses of a client that looks up the directory. -/
def protocol : Protocol Req Res Bool := ⟨Allowed p entry i, Answered p, next⟩

end Protocol

variable {p : Place} {entry : Str} {i : Party} {env : Env} {ctx : Context}

theorem free {α : Type} {Q : α → Local → Bool → Prop} {l : Local} (hQ : ∀ a l, Q a l true) (m : Client α) :
    Conforms (protocol p entry i) m Q l true := by
  refine Prog.Conforms.free (fun r => ?_) (fun r x => ?_) (fun a => hQ a.1 a.2) (m.run l)
  · cases r <;> first
      | exact trivial
      | exact Or.inl rfl
      | exact rfl
  · cases r <;> rfl

/-- An object of the directory's key is the directory or has not been read. -/
def Ok (p : Place) (x : MetadataInfo) : Prop :=
  x.systemPath = p.key → x.md.inodeNumber ≠ 0 → x.md.core = p.md.core

/-- Lookups while the directory is there. -/
def discipline (hp : p.md.type = .POSIX) (entry : Str) (i : Party) (env : Env) {db0 : PathMapDB}
    (hled : p.LedBy db0) : Discipline (protocol p entry i) i.me env where
  Idle removed := removed = false
  Snapshot db := Refreshed p.log db0 db
  Ok x _ := Ok p x
  Leads path key := path = p.dir → key = p.key
  fresh _ _ hn := absurd rfl hn
  source := by
    intro x t _ hx ht hn hkey _
    have hcore := hx hkey hn
    rw [type_of_core hcore, hp] at ht
    cases ht
  expired _ := ⟨trivial, fun _ => rfl⟩
  refresh _ := ⟨trivial, fun _ => rfl⟩
  update := by
    intro t db db' entries _ hdb hx hu
    obtain ⟨n, rfl⟩ := hx entries rfl
    exact hdb.update hu
  get_allowed _ := trivial
  get := by
    intro t a key x hidle hx
    refine ⟨hidle, fun _ hy => hy, fun record hrecord hkey _ => ?_⟩
    exact hx hkey record hrecord
  put_allowed := by
    intro t a x parent _ hx _ hn
    refine Or.inr fun hkey => Or.inr ?_
    rw [core_inherit]
    exact hx hkey hn
  put := by
    intro t a x parent status version hidle hx _ hn _
    refine ⟨hidle, fun _ hy => hy, fun hkey _ => ?_⟩
    rw [core_inherit]
    exact hx hkey hn
  resolve := by
    intro db fuel path key stamp hdb hpath hstamp hdir
    subst hdir
    exact hled db hdb key stamp ⟨fuel, hpath⟩ (by omega)
  link := by
    intro t x path key hx ht hn hpath _ hdir
    have hcore := hx (hpath hdir) hn
    rw [type_of_core hcore, hp] at ht
    cases ht

section Programs

variable {hp : p.md.type = .POSIX} {db0 : PathMapDB} {hled : p.LedBy db0} {l : Local}

open Memory (Sane InUse)

/-- The directory's object. -/
structure Directory (p : Place) (l : Local) (mdi : Nat) : Prop where
  key : (l.heap mdi).systemPath = p.key
  core : (l.heap mdi).md.core = p.md.core

theorem Directory.of_found (h : Sane (discipline hp entry i env hled) ∅ l false) {a : Nat}
    (hleads : (l.heap a).systemPath = p.key) (hn : (l.heap a).md.inodeNumber ≠ 0) : Directory p l a :=
  ⟨hleads, h.ok a (Set.notMem_empty a) hleads hn⟩

theorem Directory.mono {l' : Local} {a : Nat} (h : Directory p l a) (ha : a < l.next) (he : Extends l l') :
    Directory p l' a := by
  obtain ⟨hpath, hcore⟩ := he.same a ha
  exact ⟨hpath.trans h.key, hcore.trans h.core⟩

/-! ### Removing the directory -/

/-- The record is removed, or something is wrong and memory stays as it was. -/
theorem deleteMetadata_removes (h : Sane (discipline hp entry .remover env hled) ∅ l false) {a : Nat}
    (ha : Directory p l a) :
    Conforms (protocol p entry .remover) (deleteMetadata Party.remover.me .delete a) (fun err l' t' =>
      t' = true ∨ (err ≠ 0 ∧ t' = false ∧ Sane (discipline hp entry .remover env hled) ∅ l' false)) l false := by
  refine conforms_getMdi_bind (conforms_cacheInvalidate_bind ?_)
  have h' := h.invalidate (l.heap a).systemPath
  refine (Conforms.call (Q := fun x l' t' => l' = l.setCache (l.heap a).systemPath none ∧ t' = carriedOut x)
    (Or.inr ⟨rfl, ha.key⟩) fun x _ => ⟨rfl, rfl⟩).then ?_
  rintro (status : StatusCode) l' t' ⟨rfl, rfl⟩
  cases status
  case OK => exact free (fun _ _ => Or.inl rfl) _
  all_goals exact Conforms.pure (Or.inr ⟨by decide, rfl, h'⟩)

/-- The object that `unlink_lookup` finds is the directory's. -/
theorem unlinkLookup_finds (h : Sane (discipline hp entry i env hled) ∅ l false) (fuel : Nat) :
    Conforms (protocol p entry i) (unlinkLookup i.me env ctx fuel p.dir) (fun r l' t' =>
      t' = false ∧ Sane (discipline hp entry i env hled) ∅ l' false ∧ (r.1 = 0 → Directory p l' r.2.1)) l
      false := by
  refine (Memory.lookup_found h ctx fuel p.dir).then ?_
  rintro ⟨err, mdi⟩ l1 t1 hf
  obtain rfl : t1 = false := hf.sane.idle
  refine Conforms.ite (fun herr => ?_) fun herr => ?_
  · exact Conforms.pure ⟨rfl, hf.sane, fun h0 => absurd h0 herr⟩
  obtain ⟨a, ha, hleads, hn, -, -⟩ := hf.found (not_not.mp herr)
  cases ha
  have hd : Directory p l1 a := Directory.of_found hf.sane (hleads rfl) hn
  refine conforms_deref_bind ((Memory.lookupParent_found hf.sane ctx fuel p.dir).then ?_)
  rintro ⟨err, mdiDir⟩ l2 t2 hg
  obtain rfl : t2 = false := hg.sane.idle
  have hd2 : Directory p l2 a := hd.mono (hf.inUse a rfl).2 hg.ext
  refine Conforms.ite (fun herr => ?_) fun _ => ?_
  · exact Conforms.pure ⟨rfl, hg.sane, fun h0 => absurd h0 herr⟩
  cases mdiDir with
  | none => exact conforms_exit
  | some dir =>
    have hacces : -EACCES ≠ 0 := by decide
    refine conforms_deref_bind (conforms_getMdi_bind (Conforms.ite (fun _ => ?_) fun _ => ?_))
    · exact Conforms.pure ⟨rfl, hg.sane, fun h0 => absurd h0 hacces⟩
    refine conforms_getMdi_bind (Conforms.ite (fun _ => ?_) fun _ => ?_)
    · exact Conforms.pure ⟨rfl, hg.sane, fun h0 => absurd h0 hacces⟩
    · exact Conforms.pure ⟨rfl, hg.sane, fun _ => hd2⟩

/-- What `hflat_unlink` and `hflat_rmdir` return: 0 only if the record was removed. -/
abbrev Removes {α : Type} (err : Int) (_ : α) (removed : Bool) : Prop := err = 0 → removed = true

theorem hflatUnlink_removes (fuel : Nat) (h : Sane (discipline hp entry .remover env hled) ∅ l false) :
    Conforms (protocol p entry .remover) (hflatUnlink Party.remover.me env ctx fuel p.dir) Removes l false := by
  induction fuel generalizing l with
  | zero => exact conforms_exit
  | succ fuel ih =>
    refine (unlinkLookup_finds h (fuel + 1)).then ?_
    rintro ⟨err, mdi, mdiDir⟩ l1 t1 ⟨rfl, h1, hfound⟩
    refine Conforms.ite (fun herr => ?_) fun herr => ?_
    · exact Conforms.pure fun h0 => absurd h0 herr
    have hd := hfound (not_not.mp herr)
    refine conforms_getMdi_bind ?_
    have htype : (l1.heap mdi).md.type ≠ .HARDLINK_T := by
      rw [type_of_core hd.core, hp]
      decide
    rw [if_neg htype]
    refine (deleteMetadata_removes h1 hd).then ?_
    rintro err l2 t2 (rfl | ⟨herr, rfl, h2⟩)
    · exact free (fun _ _ _ => rfl) _
    refine Conforms.ite (fun _ => ih h2) fun _ => ?_
    rw [if_pos herr]
    exact Conforms.pure fun h0 => absurd h0 herr

theorem hflatRmdir_removes (fuel : Nat) (h : Sane (discipline hp entry .remover env hled) ∅ l false) :
    Conforms (protocol p entry .remover) (hflatRmdir Party.remover.me env ctx fuel p.dir) Removes l false := by
  refine (Memory.lookup_found h ctx fuel p.dir).then ?_
  rintro ⟨err, mdi⟩ l1 t1 hf
  obtain rfl : t1 = false := hf.sane.idle
  refine Conforms.ite (fun herr => ?_) fun _ => ?_
  · exact Conforms.pure fun h0 => absurd h0 herr
  cases mdi with
  | none => exact conforms_exit
  | some mdi =>
    refine conforms_deref_bind (conforms_getMdi_bind ?_)
    refine (Conforms.call (Q := fun _ l' t' => l' = l1 ∧ t' = false) trivial fun x _ => ⟨rfl, rfl⟩).then ?_
    rintro (keys : List Str) l2 t2 ⟨rfl, rfl⟩
    refine Conforms.ite (fun _ => ?_) fun _ => ?_
    · have hne : -ENOTEMPTY ≠ 0 := by decide
      exact Conforms.pure fun h0 => absurd h0 hne
    refine (Memory.databaseUpdate_sane hf.sane).then ?_
    rintro _ l3 t3 ⟨h3, -, -⟩
    obtain rfl : t3 = false := h3.idle
    exact hflatUnlink_removes fuel h3

/-! ### Creating the file -/

theorem putMetadata_directory {a : Nat} (ha : Directory p l a) :
    Conforms (protocol p entry i) (putMetadata i.me .update a)
      (fun _ l' t' => t' = false ∧ Directory p l' a) l false := by
  refine conforms_getMdi_bind ?_
  refine (Conforms.call (Q := fun _ l' t' => l' = l ∧ t' = false) (Or.inr fun _ => Or.inr ha.core)
    fun x _ => ⟨rfl, rfl⟩).then ?_
  rintro (⟨status, version⟩ : StatusCode × Str) l' t' ⟨rfl, rfl⟩
  cases status
  case OK =>
    refine conforms_setMdi_bind (Conforms.pure ⟨rfl, ?_⟩)
    exact ⟨by simpa using ha.key, by simpa using ha.core⟩
  all_goals exact conforms_cacheInvalidate_bind (Conforms.pure ⟨rfl, ha.key, ha.core⟩)

theorem getMetadata_directory {a : Nat} (ha : Directory p l a) :
    Conforms (protocol p entry i) (getMetadata i.me a)
      (fun _ l' t' => t' = false ∧ Directory p l' a) l false := by
  refine conforms_getMdi_bind ?_
  have hget : Conforms (protocol p entry i) (perform (.get i.me a (l.heap a).systemPath)) (fun x l' t' =>
      l' = l ∧ t' = false ∧ ∀ record, x = .ok record → record.value.core = p.md.core) l false :=
    Conforms.call trivial fun x hx => ⟨rfl, rfl, hx ha.key⟩
  refine hget.then ?_
  rintro (x : Except StatusCode (KineticRecord Inode)) l' t' ⟨rfl, rfl, hx⟩
  cases x with
  | ok record =>
    refine conforms_setMdi_bind (Conforms.pure ⟨rfl, ?_⟩)
    exact ⟨by simpa using ha.key, by simpa using hx record rfl⟩
  | error code => cases code <;> exact Conforms.pure ⟨rfl, ha⟩

theorem putMetadataForced_directory (fuel : Nat) {a : Nat} (ha : Directory p l a) :
    Conforms (protocol p entry i) (putMetadataForced i.me a fuel) (fun _ _ t' => t' = false) l false := by
  induction fuel generalizing l with
  | zero => exact conforms_exit
  | succ fuel ih =>
    refine (putMetadata_directory ha).then ?_
    rintro err l1 t1 ⟨rfl, h1⟩
    refine Conforms.ite (fun _ => Conforms.pure rfl) fun _ => (getMetadata_directory h1).then ?_
    rintro err l2 t2 ⟨rfl, h2⟩
    exact Conforms.ite (fun _ => Conforms.pure rfl) fun _ => ih h2

theorem createDirectoryEntry_directory (fuel : Nat) {a : Nat} (ha : Directory p l a) {name : Str}
    (hentry : entry = direntryKey p.md.inodeNumber name) :
    Conforms (protocol p entry .creator) (createDirectoryEntry Party.creator.me env a name fuel)
      (fun _ _ t' => t' = false) l false := by
  refine conforms_getMdi_bind ?_
  have hkey : direntryKey (l.heap a).md.inodeNumber name = entry := by
    rw [inode_of_core ha.core, hentry]
  refine (Conforms.call (Q := fun _ l' t' => l' = l ∧ t' = false) (Or.inr ⟨rfl, hkey⟩)
    fun x _ => ⟨rfl, rfl⟩).then ?_
  rintro (status : StatusCode) l' t' ⟨rfl, rfl⟩
  cases status
  case OK =>
    refine Conforms.ite (fun _ => ?_) fun _ => Conforms.pure rfl
    refine (putMetadataForced_directory fuel ha).then ?_
    rintro _ l1 t1 rfl
    exact Conforms.pure rfl
  all_goals exact Conforms.pure rfl

/-- The record of the file is not stored in place of the directory's: its key must not exist. -/
theorem createMetadata_follows (a : Nat) : Conforms (protocol p entry i) (createMetadata i.me .create a)
    (fun _ _ _ => True) l false := by
  refine conforms_getMdi_bind ?_
  refine (Conforms.call (Q := fun _ _ _ => True) (Or.inr fun _ => Or.inl rfl) fun x _ => trivial).then ?_
  rintro (⟨status, version⟩ : StatusCode × Str) l' t' -
  cases status <;> exact trivial

theorem createIn_follows (fuel : Nat) {path : Str} (mode mdi : Nat) {a : Nat} (ha : Directory p l a)
    (hentry : entry = direntryKey p.md.inodeNumber (pathToFilename path)) :
    Conforms (protocol p entry .creator) (createIn Party.creator.me env ctx fuel path mode mdi a)
      (fun _ _ _ => True) l false := by
  refine conforms_getMdi_bind (Conforms.ite (fun _ => Conforms.pure trivial) fun _ => ?_)
  refine (createDirectoryEntry_directory fuel ha hentry).then ?_
  rintro err l1 t1 rfl
  refine Conforms.ite (fun _ => Conforms.pure trivial) fun _ => ?_
  have hinit : Conforms (protocol p entry .creator) (initializeMetadata env ctx mdi a mode)
      (fun _ _ t' => t' = false) l1 false :=
    (Conforms.call (Q := fun _ _ t' => t' = false) trivial fun x _ => rfl).then fun _ _ _ ht =>
      conforms_getMdi_bind ht
  refine hinit.then ?_
  rintro _ l2 t2 rfl
  have hrequire : Conforms (protocol p entry .creator) (require (createMetadata Party.creator.me .create mdi))
      (fun _ _ _ => True) l2 false :=
    (createMetadata_follows mdi).then fun err _ _ _ =>
      Conforms.ite (fun _ => conforms_exit) fun _ => Conforms.pure trivial
  exact hrequire.then fun _ _ _ _ => Conforms.pure trivial

theorem hflatCreate_follows (fuel : Nat) {path : Str} (mode : Nat) (hcut : cutParent path = some p.dir)
    (hentry : entry = direntryKey p.md.inodeNumber (pathToFilename path))
    (h : Sane (discipline hp entry .creator env hled) ∅ l false) :
    Conforms (protocol p entry .creator) (hflatCreate Party.creator.me env ctx fuel path mode)
      (fun _ _ _ => True) l false := by
  refine (Memory.lookup_found h ctx fuel path).then ?_
  rintro ⟨err, mdi⟩ l1 t1 hf
  obtain rfl : t1 = false := hf.sane.idle
  refine Conforms.ite (fun _ => Conforms.pure trivial) fun _ => ?_
  refine Conforms.ite (fun _ => Conforms.pure trivial) fun _ => ?_
  refine (Memory.lookupParent_found hf.sane ctx fuel path).then ?_
  rintro ⟨err, mdiDir⟩ l2 t2 hg
  obtain rfl : t2 = false := hg.sane.idle
  refine Conforms.ite (fun _ => Conforms.pure trivial) fun _ => ?_
  refine Conforms.ite (fun _ => Conforms.pure trivial) fun herr => ?_
  obtain ⟨parent, a, hparent, ha, hcand, -⟩ := hg.found (not_not.mp herr)
  obtain rfl : p.dir = parent := Option.some.inj (hcut.symm.trans hparent)
  cases ha
  cases mdi with
  | none => exact conforms_exit
  | some mdi =>
    refine conforms_deref_bind (conforms_deref_bind ?_)
    exact createIn_follows fuel mode mdi (Directory.of_found hg.sane (hcand.leads rfl) hcand.inode) hentry

end Programs

/-! ## Whatever the store answers -/

/-- The client has created an entry. -/
def entered (b : Bool) : (r : Req) → Res r → Bool
  | .createEntry _, x => b || carriedOut x
  | _, _ => b

/-- Whether the client has created the entry, after an answer; everything is allowed. -/
def entries : Protocol Req Res Bool := ⟨fun _ _ => True, fun _ _ _ => True, entered⟩

theorem entries_free {α : Type} {Q : α → Local → Bool → Prop} {l : Local} (hQ : ∀ a l, Q a l true) (m : Client α) :
    Conforms entries m Q l true := by
  refine Prog.Conforms.free (A := entries) (fun _ => trivial) (fun r x => ?_) (fun a => hQ a.1 a.2) (m.run l)
  cases r <;> rfl

/-- Whatever a program does. -/
theorem entries_any {α : Type} {l : Local} {t : Bool} (m : Client α) :
    Conforms entries m (fun _ _ _ => True) l t := by
  show (m.run l).Conforms entries _ t
  generalize m.run l = prog
  induction prog generalizing t with
  | ret a => trivial
  | stop => trivial
  | call r k ih => exact ⟨True.intro, fun x _ => ih x⟩

/-- `hflat_create` returns 0 only if it has created an entry. -/
abbrev Enters {α : Type} (err : Int) (_ : α) (entered : Bool) : Prop := err = 0 → entered = true

theorem createDirectoryEntry_enters {me : Nat} {l : Local} {t : Bool} (a : Nat) (name : Str) (fuel : Nat) :
    Conforms entries (createDirectoryEntry me env a name fuel) Enters l t := by
  refine conforms_getMdi_bind ?_
  refine (Conforms.call (Q := fun x _ t' => carriedOut x = true → t' = true) trivial fun x _ hx => ?_).then ?_
  · show (t || carriedOut x) = true
    rw [hx, Bool.or_true]
  rintro (status : StatusCode) l' t' ht
  cases status
  case OK =>
    obtain rfl : t' = true := ht rfl
    exact entries_free (fun _ _ _ => rfl) _
  all_goals exact Conforms.pure fun h0 => absurd h0 (by decide)

theorem hflatCreate_enters {me : Nat} {l : Local} {t : Bool} (fuel : Nat) (path : Str) (mode : Nat) :
    Conforms entries (hflatCreate me env ctx fuel path mode) Enters l t := by
  refine (entries_any (lookup me env ctx fuel path none)).then ?_
  rintro ⟨err, mdi⟩ l1 t1 -
  refine Conforms.ite (fun _ => Conforms.pure fun h0 => absurd h0 (by decide)) fun hne => ?_
  refine Conforms.ite (fun _ => Conforms.pure fun h0 => absurd h0 hne) fun _ => ?_
  refine (entries_any (lookupParent me env ctx fuel path)).then ?_
  rintro ⟨err, mdiDir⟩ l2 t2 -
  refine Conforms.ite (fun _ => Conforms.pure fun h0 => absurd h0 (by decide)) fun _ => ?_
  refine Conforms.ite (fun hne => Conforms.pure fun h0 => absurd h0 hne) fun _ => ?_
  refine (entries_any (deref mdi)).then fun mdi l3 t3 _ => (entries_any (deref mdiDir)).then fun mdiDir l4 t4 _ => ?_
  refine conforms_getMdi_bind (Conforms.ite (fun hne => Conforms.pure fun h0 => absurd h0 hne) fun _ => ?_)
  refine (createDirectoryEntry_enters mdiDir _ fuel).then fun err l5 t5 henters => ?_
  refine Conforms.ite (fun hne => Conforms.pure fun h0 => absurd h0 hne) fun herr => ?_
  obtain rfl : t5 = true := henters (not_not.mp herr)
  exact entries_free (fun _ _ _ => rfl) _

/-! ## Runs -/

section Runs

variable {uuid : Nat → Str} {s s' : Store} {r : Req} {choice : Choice}

/-- The directory's record is stored, and the database has not changed. -/
structure There (p : Place) (s : Store) : Prop where
  stored : ∃ record, s.metadata p.key = some record ∧ record.value.core = p.md.core ∧ record.version ≠ []
  log : s.log = p.log

theorem There.answered (h : There p s) {x : Res r} (hserve : serve uuid s r choice = some (x, s')) :
    Answered p false r x := by
  cases r with
  | get me mdi key =>
    intro hkey record hx
    obtain ⟨-, hget, -⟩ := serve_get (x := x) hserve
    obtain ⟨record', hm, hcore, -⟩ := h.stored
    have he := hget record hx
    rw [hkey, hm] at he
    cases he
    exact hcore
  | databaseUpdate version =>
    intro entries hx
    rw [← h.log]
    rw [hx] at hserve
    exact serve_databaseUpdate hserve
  | _ => trivial

/-- Nothing but its deletion makes the record go away. -/
theorem There.step (huuid : ∀ n, uuid n ≠ []) (h : There p s) (hallowed : Allowed p entry i false r) {x : Res r}
    (hserve : serve uuid s r choice = some (x, s')) :
    (There p s' ∧ next false r x = false) ∨ (s'.metadata p.key = none ∧ s'.entries = s.entries ∧
      ∃ me why expected, r = .delete me why p.key expected ∧ (s.delete p.key expected).1 = .OK) := by
  obtain ⟨record, hm, hcore, hv⟩ := h.stored
  have hsame : s'.metadata p.key = s.metadata p.key → s'.log = s.log → There p s' := fun he hl =>
    ⟨⟨record, he.trans hm, hcore, hv⟩, hl.trans h.log⟩
  cases r with
  | get me mdi key =>
    obtain ⟨rfl, -⟩ := serve_get (x := x) hserve
    exact Or.inl ⟨h, rfl⟩
  | put me mdi why key expected md =>
    refine Or.inl ⟨?_, rfl⟩
    obtain ⟨status, version⟩ : StatusCode × Str := x
    have hother : ∀ {t : Store}, key ≠ p.key → t.log = s.log →
        t.metadata p.key = (s.set key (some ⟨md, version⟩)).metadata p.key → There p t := by
      intro t hk hl ht
      rw [Store.set_metadata, if_neg (Ne.symm hk)] at ht
      exact ⟨⟨record, ht.trans hm, hcore, hv⟩, hl.trans h.log⟩
    obtain ⟨rfl, ⟨hexpected, -, rfl⟩ | ⟨-, -, rfl⟩⟩ := serve_put hserve
    · by_cases hk : key = p.key
      · have hmd : md.core = p.md.core := by
          rcases hallowed with hfalse | hall
          · cases hfalse
          · rcases hall hk with hempty | hmd
            · rw [hk, hm, hempty] at hexpected
              exact absurd hexpected hv
            · exact hmd
        refine ⟨⟨⟨md, uuid s.uuids⟩, ?_, hmd, huuid _⟩, h.log⟩
        exact (Store.set_metadata s key p.key _).trans (if_pos hk.symm)
      · exact hother hk rfl rfl
    · exact hsame rfl rfl
  | delete me why key expected =>
    obtain ⟨status, hx⟩ : ∃ status : StatusCode, status = x := ⟨x, rfl⟩
    subst hx
    obtain ⟨-, rfl⟩ : i = .remover ∧ key = p.key := by
      rcases hallowed with hfalse | hall
      · cases hfalse
      · exact hall
    rcases serve_delete hserve with ⟨⟨r', hr', hexpected⟩, -, rfl⟩ | ⟨hstatus, rfl⟩
    · refine Or.inr ⟨by simp, rfl, me, why, expected, rfl, ?_⟩
      cases expected with
      | none => simp [Store.delete, hr']
      | some version => simp [Store.delete, hr', Replication.deleteSame, hexpected version rfl]
    · refine Or.inl ⟨h, ?_⟩
      show (false || carriedOut status) = false
      simp [carriedOut, hstatus]
  | createEntry key =>
    obtain ⟨hmeta, hlog, -⟩ := serve_createEntry hserve
    exact Or.inl ⟨hsame (congrFun hmeta _) hlog, rfl⟩
  | putVersion me why key record => cases hallowed
  | deleteEntry key => cases hallowed
  | append version entry => cases hallowed
  | _ =>
    refine Or.inl ⟨?_, rfl⟩
    exact hsame (congrFun (serve_quiet rfl hserve).1 _) (serve_unnamed rfl hserve).2

/-- The two clients and the drives. -/
abbrev Clients := Config Req Res Observed Party (Int × Local)

/-- The directory is there: both clients follow the protocol, and if the file has an entry it is one of the
    directory. -/
structure Early (p : Place) (entry : Str) (c : Clients) : Prop where
  flag : c.shared.2 = false
  there : There p c.shared.1
  remover : (c.prog .remover).Conforms (protocol p entry .remover) (fun x t => Removes x.1 x.2 t) false
  creator : (c.prog .creator).Conforms (protocol p entry .creator) (fun _ _ => True) false
  enters : ∃ b, (c.prog .creator).Conforms entries (fun x t => Enters x.1 x.2 t) b ∧
    (b = true → c.shared.1.entries.find entry ≠ none)

/-- The directory is gone without an entry, and the file has none either. -/
structure Late (p : Place) (c : Clients) : Prop where
  flag : c.shared.2 = true
  empty : Empty c.shared.1 p.md.inodeNumber
  creator : (c.prog .creator).Conforms entries (fun x t => Enters x.1 x.2 t) false

theorem note_there (h' : There p s') : note p.key false s r s' = false := by
  obtain ⟨record, hm, -⟩ := h'.stored
  simp [note, hm]

theorem note_gone (h : There p s) (h' : s'.metadata p.key = none) : note p.key false s r s' = true := by
  obtain ⟨record, hm, -⟩ := h.stored
  simp [note, hm, h']

/-- A step of the creator, as far as its entry is concerned. -/
theorem entered_step {b : Bool} {x : Res r} (hallowed : Allowed p entry .creator false r)
    (hserve : serve uuid s r choice = some (x, s')) (hb : b = true → s.entries.find entry ≠ none) :
    entered b r x = true → s'.entries.find entry ≠ none := by
  intro hx
  by_cases hn : r.names = false
  · rw [(serve_unnamed hn hserve).1]
    apply hb
    cases r <;> first
      | exact hx
      | cases hn
  · cases r with
    | createEntry key =>
      obtain ⟨-, rfl⟩ : Party.creator = .creator ∧ key = entry := hallowed.resolve_left Bool.false_ne_true
      obtain ⟨status, hstatus⟩ : ∃ status : StatusCode, status = x := ⟨x, rfl⟩
      subst hstatus
      obtain ⟨-, -, -, hfind⟩ := serve_createEntry hserve
      refine hfind ?_
      rcases Bool.or_eq_true_iff.mp hx with hb' | hs
      · exact Or.inr (hb hb')
      · exact Or.inl (of_decide_eq_true hs)
    | deleteEntry key => cases hallowed
    | append version e => cases hallowed
    | _ => exact absurd rfl hn

/-- A step of the remover leaves the entry of the file alone. -/
theorem remover_step {x : Res r} (hallowed : Allowed p entry .remover false r)
    (hserve : serve uuid s r choice = some (x, s')) : s'.entries = s.entries := by
  cases r with
  | createEntry key => exact absurd (hallowed.resolve_left Bool.false_ne_true).1 (by decide)
  | deleteEntry key => cases hallowed
  | append version e => cases hallowed
  | _ => exact (serve_unnamed rfl hserve).1

theorem Early.step (huuid : ∀ n, uuid n ≠ []) (hentry : IsEntry p.md.inodeNumber entry) {c c' : Clients}
    (h : Early p entry c) (horderly : Orderly p.key p.md.inodeNumber c i)
    (hstep : c.step (observed uuid p.key) i choice = some c') : Early p entry c' ∨ Late p c' := by
  obtain ⟨r, k, x, ⟨s', flag⟩, hprog, hserve, rfl⟩ := Config.step_eq_some hstep
  obtain ⟨hserve, hflag⟩ := serve_observe hserve
  change serve uuid c.shared.1 r choice = some (x, s') at hserve
  change flag = note p.key c.shared.2 c.shared.1 r s' at hflag
  rw [h.flag] at hflag
  obtain ⟨b, hweak, hb⟩ := h.enters
  have hok : orderly p.key p.md.inodeNumber c.shared i r = true := horderly r (by rw [hprog]; rfl)
  have hgone : s'.metadata p.key = none → s'.entries = c.shared.1.entries →
      (∃ me why expected, r = .delete me why p.key expected ∧ (c.shared.1.delete p.key expected).1 = .OK) →
      flag = true ∧ Empty s' p.md.inodeNumber ∧ b = false := by
    rintro hnone he ⟨me, why, expected, rfl, hdelete⟩
    have hempty := of_decide_eq_true hok rfl hdelete
    refine ⟨hflag.trans (note_gone h.there hnone), ?_, ?_⟩
    · unfold Empty
      rw [he]
      exact hempty
    · cases b with
      | false => rfl
      | true => exact absurd (hempty.find hentry) (hb rfl)
  cases i with
  | remover =>
    have hstrong := h.remover
    rw [hprog] at hstrong
    have hentries := remover_step hstrong.1 hserve
    have hcreator : Function.update c.prog .remover (k x) .creator = c.prog .creator := rfl
    rcases h.there.step huuid hstrong.1 hserve with ⟨hthere, hnext⟩ | ⟨hnone, he, hdelete⟩
    · refine Or.inl ⟨hflag.trans (note_there hthere), hthere, ?_, h.creator, b, hweak, fun hb' => ?_⟩
      · have hk := hstrong.2 x (h.there.answered hserve)
        rw [show (protocol p entry .remover).next false r x = false from hnext] at hk
        exact hk
      · show s'.entries.find entry ≠ none
        rw [hentries]
        exact hb hb'
    · obtain ⟨hf, hempty, rfl⟩ := hgone hnone he hdelete
      exact Or.inr ⟨hf, hempty, hweak⟩
  | creator =>
    have hstrong := h.creator
    rw [hprog] at hstrong hweak
    rcases h.there.step huuid hstrong.1 hserve with ⟨hthere, hnext⟩ | ⟨-, -, me, why, expected, rfl, -⟩
    · refine Or.inl ⟨hflag.trans (note_there hthere), hthere, h.remover, ?_, entered b r x,
        hweak.2 x trivial, entered_step hstrong.1 hserve hb⟩
      have hk := hstrong.2 x (h.there.answered hserve)
      rw [show (protocol p entry .creator).next false r x = false from hnext] at hk
      exact hk
    · exact absurd (hstrong.1.resolve_left Bool.false_ne_true).1 (by decide)

theorem Late.step {c c' : Clients} (h : Late p c) (horderly : Orderly p.key p.md.inodeNumber c i)
    (hstep : c.step (observed uuid p.key) i choice = some c') : Late p c' := by
  obtain ⟨r, k, x, ⟨s', flag⟩, hprog, hserve, rfl⟩ := Config.step_eq_some hstep
  obtain ⟨hserve, hflag⟩ := serve_observe hserve
  change serve uuid c.shared.1 r choice = some (x, s') at hserve
  change flag = note p.key c.shared.2 c.shared.1 r s' at hflag
  have hok : orderly p.key p.md.inodeNumber c.shared i r = true := horderly r (by rw [hprog]; rfl)
  refine ⟨by show flag = true; simp [hflag, note, h.flag], ?_, ?_⟩
  · refine empty_of_find fun key hkey => serve_absent hserve (h.empty.find hkey) ?_
    rintro rfl
    exact (of_decide_eq_true hok h.flag).2 hkey
  · cases i with
    | remover => exact h.creator
    | creator =>
      have hweak := h.creator
      rw [hprog] at hweak
      have hk := hweak.2 x trivial
      have hsame : entered false r x = false := by
        cases r with
        | createEntry key => exact absurd (of_decide_eq_true hok h.flag).1 (by decide)
        | _ => rfl
      rw [show entries.next false r x = false from hsame] at hk
      exact hk

/-- The directory and what the clients know of it at first: its path leads to its key, also for a client that
    reads more of the database, and objects of its key are current. -/
structure Start (p : Place) (path : Str) (s : Store) (l : Party → Local) : Prop where
  parent : cutParent path = some p.dir
  posix : p.md.type = .POSIX
  directory : S_ISDIR p.md.mode = true
  stored : ∃ version, s.metadata p.key = some ⟨p.md, version⟩ ∧ version ≠ []
  log : s.log = p.log
  led : ∀ i, p.LedBy (l i).pmap
  cached : ∀ i key a, (l i).lookupCache key = some a → a < (l i).next ∧ ((l i).heap a).systemPath = key
  current : ∀ i a, Ok p ((l i).heap a)

theorem Start.sane {path : Str} {l : Party → Local} (h : Start p path s l) (entry : Str) (i : Party) (env : Env) :
    Memory.Sane (discipline h.posix entry i env (h.led i)) ∅ (l i) false := by
  refine ⟨rfl, Refreshed.start, fun a _ => h.current i a, fun key a ha => ?_, fun a ha => ?_⟩
  · obtain ⟨hlt, hpath⟩ := h.cached i key a ha
    exact ⟨Set.notMem_empty a, hlt, hpath⟩
  · exact absurd ha (Set.notMem_empty a)

theorem Start.early {path : Str} {l : Party → Local} (h : Start p path s l) (env : Env) (ctx : Party → Context)
    (fuel mode : Nat) : Early p (direntryKey p.md.inodeNumber (pathToFilename path))
      (clients env ctx fuel p.dir path mode l (s, false)) := by
  obtain ⟨version, hm, hv⟩ := h.stored
  refine ⟨rfl, ⟨⟨_, hm, rfl, hv⟩, h.log⟩, ?_, ?_, false, ?_, fun hb => absurd hb (by decide)⟩
  · exact hflatRmdir_removes fuel (h.sane _ .remover env)
  · exact hflatCreate_follows fuel mode h.parent rfl (h.sane _ .creator env)
  · exact hflatCreate_enters fuel path mode

/-- What a client has returned. -/
def returned (c : Clients) (i : Party) : Option Int := (c.prog i).result.map Prod.fst

theorem returned_eq {c : Clients} {err : Int} (h : returned c i = some err) :
    ∃ l, c.prog i = .ret (err, l) := by
  obtain ⟨⟨err', l⟩, hr, rfl⟩ := Option.map_eq_some_iff.mp h
  exact ⟨l, Prog.result_eq_some.mp hr⟩

/-- If the directory's record is deleted while the directory is empty and no entry is created afterwards, not
    both clients return 0, and a directory that was removed has no entries. -/
theorem rmdir_loses_no_entry {path : Str} {l : Party → Local} (huuid : ∀ n, uuid n ≠ [])
    (hstart : Start p path s l) (env : Env) (ctx : Party → Context) (fuel mode : Nat)
    {schedule : List (Party × Choice)} {c : Clients}
    (horderly : Along (observed uuid p.key) (Orderly p.key p.md.inodeNumber)
      (clients env ctx fuel p.dir path mode l (s, false)) schedule)
    (hrun : runFrom (observed uuid p.key) (clients env ctx fuel p.dir path mode l (s, false)) schedule = some c) :
    ¬ (returned c .remover = some 0 ∧ returned c .creator = some 0) ∧
      (returned c .remover = some 0 → Empty c.shared.1 p.md.inodeNumber) := by
  have hcases : Early p (direntryKey p.md.inodeNumber (pathToFilename path)) c ∨ Late p c := by
    refine Along.keeps (F := fun c => Early p (direntryKey p.md.inodeNumber (pathToFilename path)) c ∨ Late p c)
      horderly ?_ (Or.inl (hstart.early env ctx fuel mode)) hrun
    rintro c i choice c' ho (hc | hc) hstep
    · exact hc.step huuid (isEntry_direntryKey _ _) ho hstep
    · exact Or.inr (hc.step ho hstep)
  rcases hcases with hc | hc
  · have hremover : returned c .remover ≠ some 0 := by
      intro h0
      obtain ⟨l', hr⟩ := returned_eq h0
      have hconforms := hc.remover
      rw [hr] at hconforms
      exact Bool.false_ne_true (hconforms rfl)
    exact ⟨fun h => hremover h.1, fun h => absurd h hremover⟩
  · refine ⟨fun h => ?_, fun _ => hc.empty⟩
    obtain ⟨l', hr⟩ := returned_eq h.2
    have hconforms := hc.creator
    rw [hr] at hconforms
    exact Bool.false_ne_true (hconforms rfl)

end Runs

/-! ## A directory that is removed while a file is created in it -/

/-- The directory `/d`, which both clients know under this name. -/
def placeD : Place := ⟨lit "/d", lit "/d", openDirectory 2, []⟩

theorem refreshed_empty {db : PathMapDB} (h : Refreshed [] PathMapDB.empty db) : db = PathMapDB.empty := by
  induction h with
  | start => rfl
  | update h hu ih =>
    subst ih
    simpa [updateSnapshot] using hu.symm

theorem placeD_led : placeD.LedBy PathMapDB.empty := by
  intro db hdb key stamp hpath _
  obtain rfl := refreshed_empty hdb
  have hd : ToSystemPath PathMapDB.empty (lit "/d") .LOOKUP (lit "/d", 0) := ⟨1, by decide +kernel⟩
  exact congrArg Prod.fst (hpath.det hd)

theorem placeD_start : Start placeD (lit "/d/f") withDirectory fun _ => Local.mounted PathMapDB.empty where
  parent := by decide +kernel
  posix := rfl
  directory := by decide
  stored := ⟨counter 1, by decide +kernel, by decide⟩
  log := rfl
  led _ := placeD_led
  cached _ _ _ ha := by cases ha
  current _ _ hkey := by cases hkey

/-- `rmdir /d` and `create /d/f`. -/
def rmdirCreate : Clients :=
  clients posix (fun _ => superuser) 5 (lit "/d") (lit "/d/f") (S_IFREG ||| 0o644)
    (fun _ => Local.mounted PathMapDB.empty) (withDirectory, false)

/-- The directory is removed before the creator looks it up. -/
def removedFirst : List (Party × Choice) :=
  [(.creator, .done), (.remover, .done), (.remover, .done), (.remover, .number 1), (.remover, .expired false),
    (.remover, .done), (.remover, .done), (.remover, .done), (.remover, .done), (.remover, .done),
    (.creator, .done)]

theorem rmdir_loses_no_entry_removed_first : ∃ c, runFrom (observed counter (lit "/d")) rmdirCreate removedFirst =
    some c ∧ returned c .remover = some 0 ∧ returned c .creator ≠ some 0 ∧ Empty c.shared.1 2 := by
  have hrun : ((runFrom (observed counter (lit "/d")) rmdirCreate removedFirst).any fun c =>
      returned c .remover = some 0) = true := by decide +kernel
  have horderly : Along (observed counter (lit "/d")) (Orderly (lit "/d") 2) rmdirCreate removedFirst := by
    decide +kernel
  obtain ⟨c, hc, hreturned⟩ := (Option.any_eq_true _ _).mp hrun
  have h0 := of_decide_eq_true hreturned
  obtain ⟨hboth, hempty⟩ := rmdir_loses_no_entry (p := placeD) (fun n => Versions.counter_unique.ne_empty n)
    placeD_start posix (fun _ => superuser) 5 (S_IFREG ||| 0o644) horderly hc
  exact ⟨c, hc, h0, fun h1 => hboth ⟨h0, h1⟩, hempty h0⟩

/-- The creator is served between the range of entries and the `Delete`. That is refused because the
    directory's time stamps have changed, and repeated. -/
def createdBetween : List (Party × Choice) :=
  [(.remover, .done), (.remover, .done), (.creator, .done), (.creator, .done), (.creator, .done),
    (.creator, .done), (.creator, .number 7), (.creator, .done), (.remover, .number 1),
    (.remover, .expired false), (.remover, .done), (.remover, .done), (.remover, .done),
    (.remover, .expired false), (.remover, .done), (.remover, .done), (.remover, .done), (.remover, .done)]

theorem rmdir_loses_entry_created_between : ¬ ∀ (uuid : Nat → Str) (p : Place) (path : Str) (s : Store)
    (l : Party → Local) (env : Env) (ctx : Party → Context) (fuel mode : Nat) (schedule : List (Party × Choice))
    (c : Clients), (∀ n, uuid n ≠ []) → Start p path s l → Empty s p.md.inodeNumber → env.posixFull = true →
    (∀ e ∈ schedule, e.2 ≠ .unreachable ∧ e.2 ≠ .lost) →
    runFrom (observed uuid p.key) (clients env ctx fuel p.dir path mode l (s, false)) schedule = some c →
    ¬ (returned c .remover = some 0 ∧ returned c .creator = some 0) ∧
      (returned c .remover = some 0 → returned c .creator ≠ none → Empty c.shared.1 p.md.inodeNumber) := by
  intro h
  have hrun : ((runFrom (observed counter (lit "/d")) rmdirCreate createdBetween).any fun c =>
      returned c .remover = some 0 ∧ returned c .creator = some 0) = true := by decide +kernel
  obtain ⟨c, hc, hreturned⟩ := (Option.any_eq_true _ _).mp hrun
  have hempty : Empty withDirectory 2 := by decide +kernel
  exact (h counter placeD (lit "/d/f") withDirectory _ posix (fun _ => superuser) 5 (S_IFREG ||| 0o644)
    createdBetween c (fun n => Versions.counter_unique.ne_empty n) placeD_start hempty rfl (by decide) hc).1
    (of_decide_eq_true hreturned)

end HFlat.Fuse.Rmdir
