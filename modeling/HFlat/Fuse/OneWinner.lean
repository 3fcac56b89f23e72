/-
  Any number of clients rename the same regular file at the same time, each to a name of its own.

  Every client creates the entry of its target and a recovery entry, and then deletes the entry of the
  source. Only one of these deletions succeeds. That client copies the metadata to the key of its target
  and removes those of the source; every other one deletes its own two entries again.

  `Phase` is how far a client has come, as its own accesses tell. The entries and metadata keys that a
  client writes are its own until it has won, so what they are at any moment depends on its phase alone
  (`ContestInv`). The lookups at the start, and the time stamps of directories, only write path
  permissions and versions (`Stands`).
-/
import HFlat.Fuse.Rmdir

namespace HFlat.Fuse.OneWinner

open HFlat.Lib HFlat.PathMap HFlat.Permission
open HFlat.Replication (KineticRecord StatusCode versionOf putSame deleteSame)

/-! ## The contest -/

/-- A name: its path and that of its directory, the keys that they lead to, and the inode number of the
    directory. -/
structure Name where
  path : Str
  dirPath : Str
  key : Str
  dirKey : Str
  dirInode : Nat
  deriving DecidableEq

/-- The key of the directory entry. -/
def Name.entry (n : Name) : Str := direntryKey n.dirInode (pathToFilename n.path)

/-- A file, its name, a name for every client, and the store at the start. -/
structure Contest (ι : Type) where
  source : Name
  target : ι → Name
  file : Inode
  store : Store

/-- The key of the recovery entry of a client. -/
def Contest.recovery {ι : Type} (p : Contest ι) (i : ι) : Str :=
  direntryKey (p.target i).dirInode (recoveryEntry p.source.path (p.target i).path)

/-- The same inode. All that matters of a link is where it leads. -/
structure Matches (inode md : Inode) : Prop where
  type : md.type = inode.type
  inodeNumber : md.inodeNumber = inode.inodeNumber
  core : inode.type ≠ .HARDLINK_S → md.core = inode.core

/-- The metadata are those of the key: what was stored at first, or the file under a new name. -/
def Contest.Stands {ι : Type} (p : Contest ι) (key : Str) (md : Inode) : Prop :=
  (∃ record, p.store.metadata key = some record ∧ Matches record.value md) ∨
    ∃ i, (p.target i).key = key ∧ Matches p.file md

/-- A name whose directory exists. -/
structure Name.Valid (n : Name) (s : Store) : Prop where
  parent : cutParent n.path = some n.dirPath
  directory : ∃ record, s.metadata n.dirKey = some record ∧ record.value.inodeNumber = n.dirInode ∧
    record.value.type = .POSIX ∧ S_ISDIR record.value.mode = true

/-- The paths of a name lead to its keys, also after more of the log was read. -/
def Name.LedBy (n : Name) (log : List DbEntry) (db0 : PathMapDB) : Prop :=
  ∀ db, Rmdir.Refreshed log db0 db → ∀ key stamp, 0 ≤ stamp →
    (ToSystemPath db n.path .LOOKUP (key, stamp) → key = n.key) ∧
    (ToSystemPath db n.dirPath .LOOKUP (key, stamp) → key = n.dirKey)

/-- The file exists, the targets do not, and no two of them are the same. -/
structure Contest.Start {ι : Type} (p : Contest ι) : Prop where
  source : p.source.Valid p.store
  absolute : '/' ∈ p.source.path
  stored : ∃ version, p.store.metadata p.source.key = some ⟨p.file, version⟩
  entry : p.store.entries.find p.source.entry ≠ none
  regular : p.file.type = .POSIX ∧ S_ISREG p.file.mode = true ∧ p.file.inodeNumber ≠ 0
  /-- no other key has the inode of the file -/
  unique : ∀ key record, p.store.metadata key = some record →
    record.value.inodeNumber = p.file.inodeNumber → key = p.source.key
  versions : ∀ key record, p.store.metadata key = some record → record.version ≠ []
  target : ∀ i, (p.target i).Valid p.store
  absent : ∀ i, p.store.metadata (p.target i).key = none ∧
    p.store.entries.find (p.target i).entry = none ∧ p.store.entries.find (p.recovery i) = none
  distinct : ∀ i j, i ≠ j → (p.target i).entry ≠ (p.target j).entry ∧ (p.target i).key ≠ (p.target j).key

/-- An object of a client: not found, or read from the store at some time. -/
structure Contest.Ok {ι : Type} (p : Contest ι) (i : ι) (x : MetadataInfo) : Prop where
  found : x.md.inodeNumber ≠ 0 →
    x.keyVersion ≠ [] ∧ p.Stands x.systemPath x.md ∧ x.systemPath ≠ (p.target i).key
  target : x.systemPath = (p.target i).key → x.keyVersion ≠ []

/-- What a client may remember: snapshots of the path map that lead to the same keys, and objects whose
    path permissions and versions may be out of date. -/
structure Contest.Sees {ι : Type} (p : Contest ι) (i : ι) (l : Local) : Prop where
  source : p.source.LedBy p.store.log l.pmap
  target : (p.target i).LedBy p.store.log l.pmap
  cached : ∀ key a, l.lookupCache key = some a → a < l.next ∧ (l.heap a).systemPath = key
  current : ∀ a, p.Ok i (l.heap a)

/-- No access fails. -/
def carriedOut (_ : Store) (_ : Req) (choice : Choice) : Bool :=
  decide (choice ≠ .unreachable ∧ choice ≠ .lost)

/-- The service without I/O errors. -/
def undisturbed (uuid : Nat → Str) : Service Req Res Choice Store := (store uuid).restrict carriedOut

/-- Every client renames the file. -/
def clients {ι : Type} (p : Contest ι) (env : Env) (me : ι → Nat) (ctx : ι → Context) (fuel : ι → Nat)
    (l : ι → Local) : Config Req Res Store ι (Int × Local) :=
  ⟨p.store, fun i => (hflatRename (me i) env (ctx i) (fuel i) p.source.path (p.target i).path).run (l i)⟩

/-! ## What a client requests -/

/-- How far a client is with its rename. -/
inductive Phase where
  | idle
  /-- the entry of the target, then the recovery entry was created -/
  | entered
  | announced
  /-- the entry of the source was deleted, the file was copied, then removed -/
  | won
  | copied
  | moved
  | finished
  /-- the entry of the source was gone; the entry of the target was deleted again -/
  | lost
  | withdrawn
  deriving DecidableEq

section Protocol

variable {ι : Type} (p : Contest ι) (i : ι)

/-- What a client may request in a phase. -/
def Allowed (phase : Phase) : Req → Prop
  | .get _ _ _ => True
  | .expired _ => True
  | .databaseUpdate _ => True
  | .put _ _ _ key expected md => expected ≠ [] ∧ p.Stands key md
  | .createEntry key => (phase = .idle ∧ key = (p.target i).entry) ∨ (phase = .entered ∧ key = p.recovery i)
  | .deleteEntry key => (phase = .announced ∧ key = p.source.entry) ∨
      (phase = .lost ∧ key = (p.target i).entry) ∨
      ((phase = .withdrawn ∨ phase = .moved) ∧ key = p.recovery i)
  | .putVersion _ _ key record => phase = .won ∧ key = (p.target i).key ∧ Matches p.file record.value ∧
      record.version ≠ []
  | .delete _ _ key _ => phase = .copied ∧ key = p.source.key
  | _ => False

/-- What a client may rely on in an answer. -/
def Answered (phase : Phase) : (r : Req) → Res r → Prop
  | .get _ _ key, x => (∀ record : KineticRecord Inode, x = .ok record →
      p.Stands key record.value ∧ record.version ≠ []) ∧
      (phase = .idle → key = (p.target i).key → x = .error .REMOTE_NOT_FOUND)
  | .put _ _ _ _ _ _, (_, version) => version ≠ []
  | .databaseUpdate version, x => ∀ entries : List DbEntry, x = .ok entries →
      ∃ n, entries = (p.store.log.drop version).take n
  | _, _ => True

/-- The phase after an access. -/
def advance (phase : Phase) (status : StatusCode) : Phase :=
  match phase with
  | .idle => if status = .OK then .entered else .idle
  | .entered => if status = .OK then .announced else .entered
  | .announced => if status = .OK then .won else .lost
  | .won => if status = .OK then .copied else .won
  | .copied => if status = .OK then .moved else .copied
  | .moved => if status = .OK then .finished else .moved
  | .finished => .finished
  | .lost => if status = .OK then .withdrawn else .lost
  | .withdrawn => if status = .OK then .idle else .withdrawn

/-- The phase after an answer. -/
def next (phase : Phase) : (r : Req) → Res r → Phase
  | .createEntry _, x => advance phase x
  | .deleteEntry _, x => advance phase x
  | .putVersion _ _ _ _, x => advance phase x
  | .delete _ _ _ _, x => advance phase x
  | _, _ => phase

/-- The accesses of a rename, in their order. -/
def protocol : Protocol Req Res Phase := ⟨Allowed p i, Answered p i, next⟩

end Protocol

section Facts

variable {ι : Type} {p : Contest ι} {i j : ι} {md : Inode} {key : Str}

/-- At a key that was there at the start stands what it held. -/
theorem Contest.Start.stands (hs : p.Start) {record : KineticRecord Inode}
    (hr : p.store.metadata key = some record) (h : p.Stands key md) : Matches record.value md := by
  rcases h with ⟨record', hr', h⟩ | ⟨j, rfl, -⟩
  · rw [hr] at hr'
    cases hr'
    exact h
  · rw [(hs.absent j).1] at hr
    cases hr

theorem Contest.Start.stands_source (hs : p.Start) (h : p.Stands p.source.key md) : Matches p.file md := by
  obtain ⟨version, hr⟩ := hs.stored
  exact hs.stands hr h

/-- A directory stays what it is. -/
theorem Contest.Start.stands_dir (hs : p.Start) {n : Name} (hn : n.Valid p.store)
    (h : p.Stands n.dirKey md) : md.inodeNumber = n.dirInode ∧ md.type = .POSIX := by
  obtain ⟨record, hr, hinode, htype, -⟩ := hn.directory
  have hm := hs.stands hr h
  exact ⟨hm.inodeNumber.trans hinode, hm.type.trans htype⟩

theorem Matches.of_core {inode md md' : Inode} (h : Matches inode md) (hc : md'.core = md.core) :
    Matches inode md' :=
  ⟨(type_of_core hc).trans h.type, (inode_of_core hc).trans h.inodeNumber, fun ht => hc.trans (h.core ht)⟩

theorem Contest.Stands.of_core (h : p.Stands key md) {md' : Inode} (hc : md'.core = md.core) :
    p.Stands key md' := by
  rcases h with ⟨record, hr, h⟩ | ⟨j, hj, h⟩
  · exact Or.inl ⟨record, hr, h.of_core hc⟩
  · exact Or.inr ⟨j, hj, h.of_core hc⟩

/-- A link that stands for another one. -/
theorem Contest.Stands.link (h : p.Stands key md) (ht : md.type = .HARDLINK_S) :
    p.Stands key { Inode.empty with type := .HARDLINK_S, inodeNumber := md.inodeNumber } := by
  have hm : ∀ {inode : Inode}, Matches inode md →
      Matches inode { Inode.empty with type := .HARDLINK_S, inodeNumber := md.inodeNumber } :=
    fun h => ⟨ht.symm.trans h.type, h.inodeNumber, fun hne => absurd (h.type.symm.trans ht) hne⟩
  rcases h with ⟨record, hr, h⟩ | ⟨j, hj, h⟩
  · exact Or.inl ⟨record, hr, hm h⟩
  · exact Or.inr ⟨j, hj, hm h⟩

end Facts

/-! ## Lookups -/

section Lookups

variable {ι : Type} {p : Contest ι} {i : ι} {me : Nat} {env : Env} {ctx : Context} {l : Local}

/-- The key of a path of the contest. -/
structure Leads (p : Contest ι) (i : ι) (path key : Str) : Prop where
  source : path = p.source.path → key = p.source.key
  sourceDir : path = p.source.dirPath → key = p.source.dirKey
  target : path = (p.target i).path → key = (p.target i).key
  targetDir : path = (p.target i).dirPath → key = (p.target i).dirKey

theorem version_zero : lit "0" ≠ [] := by decide

/-- What a lookup keeps while a client conforms to `protocol`. -/
def discipline (hs : p.Start) (me : Nat) (env : Env) (hl : p.Sees i l) :
    Discipline (protocol p i) me env where
  Idle phase := phase = .idle
  Snapshot db := Rmdir.Refreshed p.store.log l.pmap db
  Ok x _ := p.Ok i x
  Leads path key := Leads p i path key
  fresh _ := ⟨fun hn => absurd rfl hn, fun _ => version_zero⟩
  source _ hx ht hn := ⟨fun _ => ⟨version_zero, (hx.found hn).2.1.link ht, (hx.found hn).2.2⟩,
    fun _ => version_zero⟩
  expired _ := ⟨trivial, fun _ => rfl⟩
  refresh _ := ⟨trivial, fun _ => rfl⟩
  update := by
    intro t db db' entries _ hdb hx hu
    obtain ⟨n, rfl⟩ := hx entries rfl
    exact hdb.update hu
  get_allowed _ := trivial
  get := by
    intro t a key x hidle hx
    refine ⟨hidle, fun _ hy => hy, fun record hrecord => ?_⟩
    obtain ⟨hstands, hversion⟩ := hx.1 record hrecord
    refine ⟨fun _ => ⟨hversion, hstands, fun hkey => ?_⟩, fun _ => hversion⟩
    rw [hx.2 hidle hkey] at hrecord
    cases hrecord
  put_allowed := by
    intro t a x parent _ hx _ hn
    exact ⟨(hx.found hn).1, (hx.found hn).2.1.of_core (core_inherit env _ _)⟩
  put := by
    intro t a x parent status version hidle hx _ hn hanswer
    obtain ⟨hold, hstands, hne⟩ := hx.found hn
    have hversion : (if status = .OK then version else x.keyVersion) ≠ [] := by
      split
      · exact hanswer
      · exact hold
    exact ⟨hidle, fun _ hy => hy, fun _ => ⟨hversion, hstands.of_core (core_inherit env _ _), hne⟩,
      fun _ => hversion⟩
  resolve := by
    intro db fuel path key stamp hdb hpath hstamp
    have hstamp : 0 ≤ stamp := Int.not_lt.mp hstamp
    refine ⟨fun he => ?_, fun he => ?_, fun he => ?_, fun he => ?_⟩
    · exact (hl.source db hdb key stamp hstamp).1 (he ▸ ⟨fuel, hpath⟩)
    · exact (hl.source db hdb key stamp hstamp).2 (he ▸ ⟨fuel, hpath⟩)
    · exact (hl.target db hdb key stamp hstamp).1 (he ▸ ⟨fuel, hpath⟩)
    · exact (hl.target db hdb key stamp hstamp).2 (he ▸ ⟨fuel, hpath⟩)
  link := by
    intro t x path key hx ht hn hpath _
    obtain ⟨-, hstands, hne⟩ := hx.found hn
    have hposix : ∀ {k : Str}, x.systemPath = k → (p.Stands k x.md → x.md.type = .POSIX) → key = k := by
      intro k hk hp
      have htype := hp (hk ▸ hstands)
      rw [ht] at htype
      cases htype
    refine ⟨fun he => hposix (hpath.source he) fun h => ?_, fun he => hposix (hpath.sourceDir he) fun h => ?_,
      fun he => absurd (hpath.target he) hne, fun he => hposix (hpath.targetDir he) fun h => ?_⟩
    · exact (hs.stands_source h).type.trans hs.regular.1
    · exact (hs.stands_dir hs.source h).2
    · exact (hs.stands_dir (hs.target i) h).2

open Memory (Sane InUse)

/-- The key of the target does not exist as long as the client is idle. -/
theorem getMetadata_absent {l' : Local} {a : Nat} (ha : (l'.heap a).systemPath = (p.target i).key) :
    Conforms (protocol p i) (getMetadata me a)
      (fun err l'' t => err = -ENOENT ∧ l'' = l' ∧ t = .idle) l' .idle := by
  refine conforms_getMdi_bind ?_
  have hget : Conforms (protocol p i) (perform (.get me a (l'.heap a).systemPath)) (fun x l'' t =>
      l'' = l' ∧ t = .idle ∧ x = .error .REMOTE_NOT_FOUND) l' .idle :=
    Conforms.call trivial fun x hx => ⟨rfl, rfl, hx.2 rfl ha⟩
  refine hget.then ?_
  rintro x l'' t ⟨rfl, rfl, rfl⟩
  exact Conforms.pure ⟨rfl, rfl, rfl⟩

/-- What a lookup of the target leaves and returns: an object without an inode. -/
structure FoundTarget (hs : p.Start) (hl : p.Sees i l) (me : Nat) (env : Env) (l1 : Local)
    (r : Int × Option Nat) (l2 : Local) (t : Phase) : Prop where
  sane : Sane (discipline hs me env hl) ∅ l2 t
  ext : Extends l1 l2
  failed : r.1 ≠ 0
  absent : ∀ a, r.2 = some a → (l2.heap a).systemPath = (p.target i).key ∧ (l2.heap a).md.inodeNumber = 0

theorem lookupFound_target {hs : p.Start} {hl : p.Sees i l} {l1 l2 : Local} {mdi : Nat}
    (h : Sane (discipline hs me env hl) ∅ l2 .idle) (he : Extends l1 l2)
    (hpath : (l2.heap mdi).systemPath = (p.target i).key) (hn : (l2.heap mdi).md.inodeNumber = 0)
    {lookup : Str → Option Nat → Client (Int × Option Nat)} {path key : Str} {stamp : Int} {cached : Bool} :
    Conforms (protocol p i) (lookupFound me env ctx lookup path key stamp mdi cached)
      (FoundTarget hs hl me env l1) l2 .idle := by
  refine conforms_getMdi_bind ?_
  rw [if_pos hn]
  have hne : -ENOENT ≠ 0 := by decide
  refine Conforms.pure ⟨h, he, hne, fun a ha => ?_⟩
  cases ha
  exact ⟨hpath, hn⟩

/-- The target is not found. -/
theorem lookup_target {hs : p.Start} {hl : p.Sees i l} {l1 : Local}
    (h : Sane (discipline hs me env hl) ∅ l1 .idle) (fuel : Nat) :
    Conforms (protocol p i) (lookup me env ctx fuel (p.target i).path none)
      (FoundTarget hs hl me env l1) l1 .idle := by
  cases fuel with
  | zero => exact conforms_exit
  | succ fuel =>
    refine Conforms.get_bind ?_
    split
    · exact conforms_exit
    rename_i key stamp hkey
    refine Conforms.ite (fun hneg => ?_) fun hpos => ?_
    · exact Conforms.pure ⟨h, Memory.extends_refl l1, ne_of_lt hneg, fun a ha => by cases ha⟩
    obtain rfl : key = (p.target i).key := ((discipline hs me env hl).resolve h.snapshot hkey hpos).target rfl
    refine (Memory.cacheGet_sane h (p.target i).key).then ?_
    rintro found l2 t2 ⟨h2, hnext, hheap, hfound⟩
    obtain rfl : t2 = .idle := h2.idle
    have he : Extends l1 l2 := Memory.extends_heap (Memory.extends_refl l1) hnext hheap
    cases found with
    | some mdi =>
      obtain ⟨hlive, hlt, hpath⟩ := hfound mdi rfl
      refine lookupFound_target h2 he hpath ?_
      by_contra hn
      exact ((h2.ok mdi hlive).found hn).2.2 hpath
    | none =>
      rw [lookupStored_eq]
      refine conforms_newMetadataInfo_bind ?_
      have h3 := h2.alloc (p.target i).key
      have he3 : Extends l1 (l2.alloc (p.target i).key) :=
        Memory.extends_trans he (Memory.extends_alloc l2 (p.target i).key)
      have hnew : (l2.alloc (p.target i).key).heap l2.next = ⟨(p.target i).key, lit "0", Inode.empty⟩ := by
        simp
      have hpath : ((l2.alloc (p.target i).key).heap l2.next).systemPath = (p.target i).key := by rw [hnew]
      refine (getMetadata_absent hpath).then ?_
      rintro err l4 t4 ⟨rfl, rfl, rfl⟩
      rw [if_pos rfl]
      refine (Memory.cacheAdd_sane h3 ⟨Set.notMem_empty _, Nat.lt_succ_self _⟩ hpath).then ?_
      rintro _ l5 t5 ⟨h5, hnext5, hheap5⟩
      obtain rfl : t5 = .idle := h5.idle
      refine lookupFound_target h5 (Memory.extends_heap he3 hnext5 hheap5) ?_ ?_
      · rw [hheap5]
        exact hpath
      · rw [hheap5, hnew]
        rfl

end Lookups

/-! ## Renames follow the protocol -/

/-- An object that stands for a key. -/
structure Held {ι : Type} (p : Contest ι) (l : Local) (a : Nat) (key : Str) : Prop where
  path : (l.heap a).systemPath = key
  version : (l.heap a).keyVersion ≠ []
  stands : p.Stands key (l.heap a).md

/-- An object of a key. -/
structure Named (l : Local) (a : Nat) (key : Str) : Prop where
  path : (l.heap a).systemPath = key
  version : (l.heap a).keyVersion ≠ []

/-- Objects stay what they are. -/
structure Keeps {ι : Type} (p : Contest ι) (l l' : Local) : Prop where
  held : ∀ {a key}, Held p l a key → Held p l' a key
  named : ∀ {a key}, Named l a key → Named l' a key

section Programs

open Memory (Sane)

variable {ι : Type} {p : Contest ι} {i : ι} {me : Nat} {env : Env} {ctx : Context} {l : Local} {t : Phase}
variable {a : Nat} {key : Str}

theorem Keeps.refl (l : Local) : Keeps p l l := ⟨id, id⟩

theorem Keeps.trans {l' l'' : Local} (h : Keeps p l l') (h' : Keeps p l' l'') : Keeps p l l'' :=
  ⟨fun ha => h'.held (h.held ha), fun ha => h'.named (h.named ha)⟩

theorem Keeps.setCache (key : Str) (entry : Option Nat) : Keeps p l (l.setCache key entry) :=
  ⟨fun h => ⟨h.path, h.version, h.stands⟩, fun h => ⟨h.path, h.version⟩⟩

theorem Keeps.setObject {x : MetadataInfo} (hpath : x.systemPath = (l.heap a).systemPath)
    (hversion : x.keyVersion ≠ []) (hstands : p.Stands x.systemPath x.md) : Keeps p l (l.setObject a x) := by
  have hself : ∀ b, (l.setObject a x).heap b = if b = a then x else l.heap b :=
    fun b => Local.setObject_heap _ _ _ _
  constructor
  · intro b key h
    by_cases hb : b = a
    · subst hb
      have hkey : x.systemPath = key := hpath.trans h.path
      exact ⟨by simpa using hkey, by simpa using hversion, by rw [hself, if_pos rfl, ← hkey]; exact hstands⟩
    · exact ⟨by simpa [hb] using h.path, by simpa [hb] using h.version, by
        rw [hself, if_neg hb]; exact h.stands⟩
  · intro b key h
    by_cases hb : b = a
    · subst hb
      exact ⟨by simpa using hpath.trans h.path, by simpa using hversion⟩
    · exact ⟨by simpa [hb] using h.path, by simpa [hb] using h.version⟩

/-- The phase and the objects stay what they are. -/
abbrev Unchanged {α : Type} (p : Contest ι) (l : Local) (t : Phase) (_ : α) (l' : Local) (t' : Phase) : Prop :=
  t' = t ∧ Keeps p l l'

theorem putMetadata_unchanged (ha : Held p l a key) :
    Conforms (protocol p i) (putMetadata me .update a) (Unchanged p l t) l t := by
  refine conforms_getMdi_bind ?_
  have hstands : p.Stands (l.heap a).systemPath (l.heap a).md := by
    rw [ha.path]
    exact ha.stands
  have hput : Conforms (protocol p i) (perform (.put me a .update (l.heap a).systemPath (l.heap a).keyVersion
      (l.heap a).md)) (fun x l' t' => l' = l ∧ t' = t ∧ x.2 ≠ []) l t :=
    Conforms.call ⟨ha.version, hstands⟩ fun x hx => ⟨rfl, rfl, hx⟩
  refine hput.then ?_
  rintro ⟨status, version⟩ l' t' ⟨rfl, rfl, hversion⟩
  cases status with
  | OK => exact conforms_setMdi_bind (Conforms.pure ⟨rfl, Keeps.setObject rfl hversion hstands⟩)
  | _ => exact conforms_cacheInvalidate_bind (Conforms.pure ⟨rfl, Keeps.setCache _ _⟩)

theorem getMetadata_unchanged (ha : Held p l a key) :
    Conforms (protocol p i) (getMetadata me a) (Unchanged p l t) l t := by
  refine conforms_getMdi_bind ?_
  have hget : Conforms (protocol p i) (perform (.get me a (l.heap a).systemPath)) (fun x l' t' =>
      l' = l ∧ t' = t ∧ ∀ record, x = .ok record →
        p.Stands (l.heap a).systemPath record.value ∧ record.version ≠ []) l t :=
    Conforms.call trivial fun x hx => ⟨rfl, rfl, hx.1⟩
  refine hget.then ?_
  rintro x l' t' ⟨rfl, rfl, hx⟩
  cases x with
  | ok record =>
    obtain ⟨hstands, hversion⟩ := hx record rfl
    exact conforms_setMdi_bind (Conforms.pure ⟨rfl, Keeps.setObject rfl hversion hstands⟩)
  | error code => cases code <;> exact Conforms.pure ⟨rfl, Keeps.refl _⟩

theorem putMetadataForced_unchanged (ha : Held p l a key) (fuel : Nat) :
    Conforms (protocol p i) (putMetadataForced me a fuel) (Unchanged p l t) l t := by
  induction fuel generalizing l with
  | zero => exact conforms_exit
  | succ fuel ih =>
    refine (putMetadata_unchanged ha).then ?_
    rintro err l1 t1 ⟨rfl, h1⟩
    refine Conforms.ite (fun _ => Conforms.pure ⟨rfl, h1⟩) fun _ => ?_
    refine (getMetadata_unchanged (h1.held ha)).then ?_
    rintro err l2 t2 ⟨rfl, h2⟩
    refine Conforms.ite (fun _ => Conforms.pure ⟨rfl, h1.trans h2⟩) fun _ => ?_
    refine (ih (h2.held (h1.held ha))).mono ?_
    rintro err l3 t3 ⟨rfl, h3⟩
    exact ⟨rfl, (h1.trans h2).trans h3⟩

theorem touchDirectory_unchanged (ha : Held p l a key) (fuel : Nat) :
    Conforms (protocol p i) (touchDirectory me env a fuel)
      (fun err l' t' => err = 0 ∧ Unchanged p l t err l' t') l t := by
  refine Conforms.ite (fun _ => ?_) fun _ => Conforms.pure ⟨rfl, rfl, Keeps.refl l⟩
  exact (putMetadataForced_unchanged ha fuel).then fun _ _ _ h => Conforms.pure ⟨rfl, h⟩

/-- After an access to a directory entry: the phase has advanced with 0, or as for a failed access. -/
structure Stepped {ι : Type} (p : Contest ι) (l : Local) (t : Phase) (err : Int) (l' : Local) (t' : Phase) :
    Prop where
  phase : (err = 0 ∧ t' = advance t .OK) ∨ (err ≠ 0 ∧ ∃ status, status ≠ .OK ∧ t' = advance t status)
  keeps : Keeps p l l'

theorem createDirectoryEntry_stepped (hs : p.Start) {n : Name} (hn : n.Valid p.store)
    (ha : Held p l a n.dirKey) {filename : Str}
    (hallowed : Allowed p i t (.createEntry (direntryKey n.dirInode filename))) (fuel : Nat) :
    Conforms (protocol p i) (createDirectoryEntry me env a filename fuel) (Stepped p l t) l t := by
  refine conforms_getMdi_bind ?_
  rw [(hs.stands_dir hn ha.stands).1]
  have hcreate : Conforms (protocol p i) (perform (.createEntry (direntryKey n.dirInode filename)))
      (fun x l' t' => l' = l ∧ t' = advance t x) l t := Conforms.call hallowed fun x _ => ⟨rfl, rfl⟩
  refine hcreate.then ?_
  rintro (status : StatusCode) l' t' ⟨rfl, rfl⟩
  cases status with
  | OK =>
    refine (touchDirectory_unchanged ha fuel).mono ?_
    rintro err l'' t'' ⟨rfl, rfl, hk⟩
    exact ⟨Or.inl ⟨rfl, rfl⟩, hk⟩
  | _ => exact Conforms.pure ⟨Or.inr ⟨by decide, _, by decide, rfl⟩, Keeps.refl _⟩

theorem deleteDirectoryEntry_stepped (hs : p.Start) {n : Name} (hn : n.Valid p.store)
    (ha : Held p l a n.dirKey) {filename : Str}
    (hallowed : Allowed p i t (.deleteEntry (direntryKey n.dirInode filename))) (fuel : Nat) :
    Conforms (protocol p i) (deleteDirectoryEntry me env a filename fuel) (Stepped p l t) l t := by
  refine conforms_getMdi_bind ?_
  rw [(hs.stands_dir hn ha.stands).1]
  have hdelete : Conforms (protocol p i) (perform (.deleteEntry (direntryKey n.dirInode filename)))
      (fun x l' t' => l' = l ∧ t' = advance t x) l t := Conforms.call hallowed fun x _ => ⟨rfl, rfl⟩
  refine hdelete.then ?_
  rintro (status : StatusCode) l' t' ⟨rfl, rfl⟩
  cases status with
  | OK =>
    refine (touchDirectory_unchanged ha fuel).mono ?_
    rintro err l'' t'' ⟨rfl, rfl, hk⟩
    exact ⟨Or.inl ⟨rfl, rfl⟩, hk⟩
  | _ => exact Conforms.pure ⟨Or.inr ⟨by decide, _, by decide, rfl⟩, Keeps.refl _⟩

/-- `REQ_0`: the access has succeeded. -/
theorem require_stepped {m : Client Int} (h : Conforms (protocol p i) m (Stepped p l t) l t) :
    Conforms (protocol p i) (require m) (fun _ l' t' => t' = advance t .OK ∧ Keeps p l l') l t := by
  refine h.then fun err l' t' h' => Conforms.ite (fun _ => conforms_exit) fun herr => ?_
  rcases h'.phase with ⟨-, hphase⟩ | ⟨hne, -⟩
  · exact Conforms.pure ⟨hphase, h'.keeps⟩
  · exact absurd hne herr

/-! ### The rename itself -/

/-- The objects that `rename_lookup` has found. -/
structure Ready {ι : Type} (p : Contest ι) (i : ι) (r : Renaming) (l : Local) : Prop where
  dirFrom : Held p l r.dirFrom p.source.dirKey
  dirTo : Held p l r.dirTo (p.target i).dirKey
  mdiFrom : Held p l r.mdiFrom p.source.key
  mdiTo : Named l r.mdiTo (p.target i).key

variable {r : Renaming}

theorem Ready.mono {l' : Local} (h : Ready p i r l) (hk : Keeps p l l') : Ready p i r l' :=
  ⟨hk.held h.dirFrom, hk.held h.dirTo, hk.held h.mdiFrom, hk.named h.mdiTo⟩

/-- The metadata are copied, then those of the source are removed. -/
theorem renameRegular_moves (hs : p.Start) (h : Ready p i r l) :
    Conforms (protocol p i) (renameRegular me r.mdiTo r.mdiFrom)
      (fun err l' t' => err = 0 → l' = l ∧ t' = .moved) l .won := by
  have hne : - EIO ≠ 0 := by decide
  refine conforms_getMdi_bind (conforms_getMdi_bind ?_)
  have hput : Conforms (protocol p i) (perform (.putVersion me (.copy r.mdiFrom
      ((l.heap r.mdiTo).md.inodeNumber ≠ 0)) (l.heap r.mdiTo).systemPath
      ⟨(l.heap r.mdiFrom).md, (l.heap r.mdiTo).keyVersion⟩))
      (fun x l' t' => l' = l ∧ t' = advance .won x) l .won :=
    Conforms.call ⟨rfl, h.mdiTo.path, hs.stands_source h.mdiFrom.stands, h.mdiTo.version⟩ fun x _ => ⟨rfl, rfl⟩
  refine hput.then ?_
  rintro (status : StatusCode) l1 t1 ⟨rfl, rfl⟩
  refine Conforms.ite (fun _ => Conforms.pure fun h0 => absurd h0 hne) fun hok => ?_
  obtain rfl : status = .OK := not_not.mp hok
  have hdelete : Conforms (protocol p i) (perform (.delete me (.remove r.mdiFrom) (l1.heap r.mdiFrom).systemPath
      none)) (fun x l' t' => l' = l1 ∧ t' = advance .copied x) l1 .copied :=
    Conforms.call ⟨rfl, h.mdiFrom.path⟩ fun x _ => ⟨rfl, rfl⟩
  refine hdelete.then ?_
  rintro (status : StatusCode) l2 t2 ⟨rfl, rfl⟩
  refine Conforms.ite (fun _ => Conforms.pure fun h0 => absurd h0 hne) fun hok => ?_
  obtain rfl : status = .OK := not_not.mp hok
  exact Conforms.pure fun _ => ⟨rfl, rfl⟩

/-- The file is neither a directory nor a symbolic link nor a hard link. -/
theorem renameObject_moves (hs : p.Start) (h : Ready p i r l) (fuel : Nat) (pathFrom pathTo : Str) :
    Conforms (protocol p i) (renameObject me env fuel pathFrom pathTo r)
      (fun _ l' t' => l' = l ∧ t' = .moved) l .won := by
  have hm := hs.stands_source h.mdiFrom.stands
  obtain ⟨htype, hmode, -⟩ := hs.regular
  have hcore : (l.heap r.mdiFrom).md.core = p.file.core := hm.core (by rw [htype]; decide)
  have hmode : fileType (l.heap r.mdiFrom).md.mode = S_IFREG := by
    have he := congrArg (fun x : Inode => x.mode) hcore
    rw [show (l.heap r.mdiFrom).md.mode = p.file.mode from he]
    simpa [S_ISREG] using hmode
  have hdir : ¬ S_ISDIR (l.heap r.mdiFrom).md.mode = true := by
    rw [S_ISDIR, hmode]
    decide
  have hsoft : ¬ S_ISLNK (l.heap r.mdiFrom).md.mode = true := by
    rw [S_ISLNK, hmode]
    decide
  have hlink : ¬ (decide ((l.heap r.mdiFrom).md.type = .HARDLINK_T)) = true := by
    rw [hm.type, htype]
    decide
  refine conforms_getMdi_bind ?_
  refine Conforms.ite (fun hd => absurd hd hdir) fun _ => Conforms.ite (fun hd => absurd hd hsoft) fun _ =>
    Conforms.ite (fun hd => absurd hd hlink) fun _ => Conforms.ite (fun _ => ?_) fun hall =>
    absurd ⟨hdir, hlink, hsoft⟩ hall
  exact (renameRegular_moves hs h).then fun err l' t' h' =>
    Conforms.ite (fun _ => conforms_exit) fun herr => Conforms.pure (h' (not_not.mp herr))

/-- What a rename returns: 0 only to the client that has moved the file; otherwise the client has cleared up. -/
def Returned (err : Int) (t : Phase) : Prop := (err = 0 ∧ t = .finished) ∨ (err ≠ 0 ∧ t = .idle)

theorem renameEntries_returns (hs : p.Start) (h : Ready p i r l) (fuel : Nat) :
    Conforms (protocol p i) (renameEntries me env fuel p.source.path (p.target i).path r)
      (fun err _ t' => Returned err t') l .idle := by
  refine (createDirectoryEntry_stepped hs (hs.target i) h.dirTo (Or.inl ⟨rfl, rfl⟩) fuel).then ?_
  intro err l1 t1 h1
  refine Conforms.ite (fun herr => ?_) fun herr => ?_
  · rcases h1.phase with ⟨h0, -⟩ | ⟨-, status, hstatus, rfl⟩
    · exact absurd h0 herr
    · exact Conforms.pure (Or.inr ⟨herr, if_neg hstatus⟩)
  obtain rfl : t1 = .entered := by
    rcases h1.phase with ⟨-, rfl⟩ | ⟨hne, -⟩
    · rfl
    · exact absurd hne herr
  have hr1 := h.mono h1.keeps
  refine (require_stepped (createDirectoryEntry_stepped hs (hs.target i) hr1.dirTo
    (Or.inr ⟨rfl, rfl⟩) fuel)).then ?_
  rintro _ l2 t2 ⟨rfl, h2⟩
  have hr2 := hr1.mono h2
  refine (deleteDirectoryEntry_stepped hs hs.source hr2.dirFrom (Or.inl ⟨rfl, rfl⟩) fuel).then ?_
  intro err l3 t3 h3
  have hr3 := hr2.mono h3.keeps
  refine Conforms.ite (fun herr => ?_) fun herr => ?_
  · obtain rfl : t3 = .lost := by
      rcases h3.phase with ⟨h0, -⟩ | ⟨-, status, hstatus, rfl⟩
      · exact absurd h0 herr
      · exact if_neg hstatus
    refine (require_stepped (deleteDirectoryEntry_stepped hs (hs.target i) hr3.dirTo
      (Or.inr (Or.inl ⟨rfl, rfl⟩)) fuel)).then ?_
    rintro _ l4 t4 ⟨rfl, h4⟩
    refine (require_stepped (deleteDirectoryEntry_stepped hs (hs.target i) (hr3.mono h4).dirTo
      (Or.inr (Or.inr ⟨Or.inl rfl, rfl⟩)) fuel)).then ?_
    rintro _ l5 t5 ⟨rfl, -⟩
    exact Conforms.pure (Or.inr ⟨herr, rfl⟩)
  · obtain rfl : t3 = .won := by
      rcases h3.phase with ⟨-, rfl⟩ | ⟨hne, -⟩
      · rfl
      · exact absurd hne herr
    refine (renameObject_moves hs hr3 fuel _ _).then ?_
    rintro _ l4 t4 ⟨rfl, rfl⟩
    refine (require_stepped (deleteDirectoryEntry_stepped hs (hs.target i) hr3.dirTo
      (Or.inr (Or.inr ⟨Or.inr rfl, rfl⟩)) fuel)).then ?_
    rintro _ l5 t5 ⟨rfl, -⟩
    refine conforms_getMdi_bind (conforms_cacheInvalidate_bind (conforms_getMdi_bind
      (conforms_cacheInvalidate_bind (Conforms.pure (Or.inl ⟨rfl, rfl⟩)))))

/-! ### The lookups at the start -/

section Lookup

variable {hs : p.Start} {l0 : Local} {hl : p.Sees i l0}

theorem held_of_sane (h : Sane (discipline hs me env hl) ∅ l t) (hpath : (l.heap a).systemPath = key)
    (hn : (l.heap a).md.inodeNumber ≠ 0) : Held p l a key := by
  obtain ⟨hversion, hstands, -⟩ := (h.ok a (Set.notMem_empty a)).found hn
  exact ⟨hpath, hversion, hpath ▸ hstands⟩

/-- Objects that are found stay found. -/
theorem Held.extends {l' : Local} (h : Sane (discipline hs me env hl) ∅ l' t) (he : Extends l l')
    (ha : a < l.next) (hpath : (l.heap a).systemPath = key) (hn : (l.heap a).md.inodeNumber ≠ 0) :
    Held p l' a key := by
  refine held_of_sane h ((he.same a ha).1.trans hpath) ?_
  rw [he.inode ha]
  exact hn

theorem renameLookup_ready (h : Sane (discipline hs me env hl) ∅ l .idle) (fuel : Nat) :
    Conforms (protocol p i) (renameLookup me env ctx fuel p.source.path (p.target i).path) (fun r l' t' =>
      t' = .idle ∧ (∀ err, r = .error err → err ≠ 0) ∧
        ∀ x, r = .ok x → Ready p i x l' ∧ (l'.heap x.mdiTo).md.inodeNumber = 0) l .idle := by
  have herror : ∀ {err : Int} {l' : Local}, err ≠ 0 → Conforms (protocol p i)
      (pure (.error err) : Client (Except Int Renaming)) (fun r l' t' =>
      t' = .idle ∧ (∀ err, r = .error err → err ≠ 0) ∧
        ∀ x, r = .ok x → Ready p i x l' ∧ (l'.heap x.mdiTo).md.inodeNumber = 0) l' .idle :=
    fun herr => Conforms.pure ⟨rfl, fun _ hx => (by cases hx; exact herr), fun _ hx => (by cases hx)⟩
  have hinval : -EINVAL ≠ 0 := by decide
  have haccess : -EACCES ≠ 0 := by decide
  refine Conforms.ite (fun _ => herror hinval) fun _ => ?_
  refine (Memory.lookupParent_found h ctx fuel p.source.path).then ?_
  rintro ⟨err, dirFrom⟩ l1 t1 h1
  obtain rfl : t1 = .idle := h1.sane.idle
  refine Conforms.ite (fun herr => herror herr) fun herr1 => ?_
  obtain ⟨parent, a1, hparent, ha1, hc1, -⟩ := h1.found (not_not.mp herr1)
  obtain rfl : p.source.dirPath = parent := Option.some.inj (hs.source.parent.symm.trans hparent)
  cases ha1
  refine (Memory.lookupParent_found h1.sane ctx fuel (p.target i).path).then ?_
  rintro ⟨err, dirTo⟩ l2 t2 h2
  obtain rfl : t2 = .idle := h2.sane.idle
  refine Conforms.ite (fun herr => herror herr) fun herr2 => ?_
  obtain ⟨parent, a2, hparent, ha2, hc2, -⟩ := h2.found (not_not.mp herr2)
  obtain rfl : (p.target i).dirPath = parent := Option.some.inj ((hs.target i).parent.symm.trans hparent)
  cases ha2
  refine (Memory.lookup_found h2.sane ctx fuel p.source.path).then ?_
  rintro ⟨err, mdiFrom⟩ l3 t3 h3
  obtain rfl : t3 = .idle := h3.sane.idle
  refine Conforms.ite (fun herr => herror herr) fun herr3 => ?_
  obtain ⟨a3, ha3, hleads3, hn3, -, -⟩ := h3.found (not_not.mp herr3)
  cases ha3
  refine conforms_deref_bind (conforms_deref_bind (conforms_deref_bind ?_))
  refine conforms_getMdi_bind (conforms_getMdi_bind (Conforms.ite (fun _ => herror haccess) fun _ => ?_))
  refine (lookup_target h3.sane fuel).then ?_
  rintro ⟨err, mdiTo⟩ l4 t4 h4
  obtain rfl : t4 = .idle := h4.sane.idle
  refine Conforms.ite (fun herr => herror herr.1) fun _ => ?_
  cases mdiTo with
  | none => exact conforms_exit
  | some a4 =>
    obtain ⟨hpath4, hn4⟩ := h4.absent a4 rfl
    refine conforms_deref_bind (conforms_getMdi_bind (conforms_getMdi_bind (conforms_getMdi_bind ?_)))
    refine Conforms.ite (fun herr => herror herr) fun _ =>
      Conforms.pure ⟨rfl, fun _ hx => (by cases hx), fun x hx => ?_⟩
    cases hx
    have he34 : Extends l3 l4 := h4.ext
    have he24 : Extends l2 l4 := Memory.extends_trans h3.ext he34
    have he14 : Extends l1 l4 := Memory.extends_trans h2.ext he24
    refine ⟨⟨?_, ?_, ?_, hpath4, ?_⟩, hn4⟩
    · exact Held.extends h4.sane he14 hc1.inUse.2 (hc1.leads.sourceDir rfl) hc1.inode
    · exact Held.extends h4.sane he24 hc2.inUse.2 (hc2.leads.targetDir rfl) hc2.inode
    · exact Held.extends h4.sane he34 (h3.inUse a3 rfl).2 (hleads3.source rfl) hn3
    · exact (h4.sane.ok a4 (Set.notMem_empty a4)).target hpath4

theorem hflatRename_returns (h : Sane (discipline hs me env hl) ∅ l .idle) (fuel : Nat) :
    Conforms (protocol p i) (hflatRename me env ctx fuel p.source.path (p.target i).path)
      (fun err _ t' => Returned err t') l .idle := by
  refine (renameLookup_ready h fuel).then ?_
  rintro (err | r) l1 t1 ⟨rfl, herror, hready⟩
  · exact Conforms.pure (Or.inr ⟨herror err rfl, rfl⟩)
  obtain ⟨hr, habsent⟩ := hready r rfl
  refine conforms_getMdi_bind ?_
  have hnot : ¬ (l1.heap r.mdiTo).md.inodeNumber ≠ 0 := not_not.mpr habsent
  rw [if_neg hnot]
  exact renameEntries_returns hs hr fuel

end Lookup

end Programs

/-! ## The store -/

namespace Phase

/-- The client has deleted the entry of the source. -/
def winner : Phase → Bool
  | .won | .copied | .moved | .finished => true
  | _ => false

/-- The entry of the target exists. -/
def entered? : Phase → Bool
  | .idle | .withdrawn => false
  | _ => true

/-- The recovery entry exists. -/
def announced? : Phase → Bool
  | .idle | .entered | .finished => false
  | _ => true

/-- The metadata are stored under the target's key. -/
def copied? : Phase → Bool
  | .copied | .moved | .finished => true
  | _ => false

/-- Those of the source are removed. -/
def moved? : Phase → Bool
  | .moved | .finished => true
  | _ => false

end Phase

/-- What the store holds while the clients are in the phases `t`. -/
structure ContestInv {ι : Type} (p : Contest ι) (s : Store) (t : ι → Phase) : Prop where
  stands : ∀ {key record}, s.metadata key = some record → p.Stands key record.value ∧ record.version ≠ []
  log : s.log = p.store.log
  one : ∀ {i j}, (t i).winner = true → (t j).winner = true → i = j
  sourceEntry : (s.entries.find p.source.entry).isSome = true ↔ ∀ i, (t i).winner = false
  sourceKey : (s.metadata p.source.key).isSome = true ↔ ∀ i, (t i).moved? = false
  targetEntry : ∀ i, (s.entries.find (p.target i).entry).isSome = (t i).entered?
  recoveryEntry : ∀ i, (s.entries.find (p.recovery i)).isSome = (t i).announced?
  targetKey : ∀ i, (s.metadata (p.target i).key).isSome = (t i).copied?

section Keys

variable {ι : Type} {p : Contest ι} {i j : ι}

theorem not_mem_of_findLastSeparator_none {path : Str} (h : findLastSeparator path = none) : '/' ∉ path := by
  induction path with
  | nil => exact List.not_mem_nil
  | cons c path ih =>
    unfold findLastSeparator at h
    cases hr : findLastSeparator path with
    | some pos =>
      rw [hr] at h
      cases h
    | none =>
      rw [hr] at h
      dsimp only at h
      split at h
      · cases h
      · rename_i hc
        rw [List.mem_cons, not_or]
        exact ⟨fun he => hc (Or.inl he.symm), ih hr⟩

theorem not_mem_drop_of_findLastSeparator {path : Str} {pos : Nat} (h : findLastSeparator path = some pos) :
    '/' ∉ path.drop (pos + 1) := by
  induction path generalizing pos with
  | nil => cases h
  | cons c path ih =>
    unfold findLastSeparator at h
    cases hr : findLastSeparator path with
    | some pos' =>
      rw [hr] at h
      cases h
      exact ih hr
    | none =>
      rw [hr] at h
      dsimp only at h
      split at h
      · cases h
        exact not_mem_of_findLastSeparator_none hr
      · cases h

/-- A file name has no slash. -/
theorem slash_not_mem_filename (path : Str) : '/' ∉ pathToFilename path := by
  unfold pathToFilename
  split
  · rename_i h
    exact not_mem_of_findLastSeparator_none h
  · rename_i pos h
    exact not_mem_drop_of_findLastSeparator h

/-- Directory and file name are determined by the key. -/
theorem direntryKey_inj {a b : Nat} {n m : Str} (h : direntryKey a n = direntryKey b m) : a = b ∧ n = m := by
  have hidx : ∀ (a : Nat) (n : Str), (direntryKey a n).idxOf '|' = (toStr a).length := by
    intro a n
    unfold direntryKey
    rw [List.append_assoc, List.idxOf_append_of_notMem (not_mem_toStr (by decide))]
    simp
  have hlength : (toStr a ++ ['|']).length = (toStr b ++ ['|']).length := by
    rw [List.length_append, List.length_append, ← hidx a n, h, hidx b m]
  obtain ⟨hinode, hname⟩ := List.append_inj h hlength
  exact ⟨toStr_inj (List.append_cancel_right hinode), hname⟩

variable (hs : p.Start)

include hs

/-- A recovery entry is not the entry of a target: it has the slash of the source path. -/
theorem recovery_ne_target (i j : ι) : p.recovery i ≠ (p.target j).entry := by
  intro h
  obtain ⟨-, hname⟩ := direntryKey_inj h
  apply slash_not_mem_filename (p.target j).path
  rw [← hname]
  exact List.mem_append_right _ hs.absolute

theorem recovery_inj (h : p.recovery i = p.recovery j) : i = j := by
  obtain ⟨hinode, hname⟩ := direntryKey_inj h
  by_contra hne
  apply (hs.distinct i j hne).1
  have hfile : pathToFilename (p.target i).path = pathToFilename (p.target j).path :=
    List.append_cancel_right (List.append_cancel_right hname)
  unfold Name.entry
  rw [hinode, hfile]

theorem target_inj (h : (p.target i).entry = (p.target j).entry) : i = j := by
  by_contra hne
  exact (hs.distinct i j hne).1 h

theorem targetKey_inj (h : (p.target i).key = (p.target j).key) : i = j := by
  by_contra hne
  exact (hs.distinct i j hne).2 h

theorem target_ne_source (i : ι) : (p.target i).entry ≠ p.source.entry := by
  intro h
  apply hs.entry
  rw [← h]
  exact (hs.absent i).2.1

theorem recovery_ne_source (i : ι) : p.recovery i ≠ p.source.entry := by
  intro h
  apply hs.entry
  rw [← h]
  exact (hs.absent i).2.2

theorem targetKey_ne_source (i : ι) : (p.target i).key ≠ p.source.key := by
  intro h
  obtain ⟨version, hr⟩ := hs.stored
  rw [← h, (hs.absent i).1] at hr
  cases hr

end Keys

section Steps

variable {ι : Type} {p : Contest ι} {s s' : Store} {t : ι → Phase} {i : ι} {uuid : Nat → Str}

theorem ContestInv.start (hs : p.Start) : ContestInv p p.store fun _ : ι => .idle where
  stands hr := ⟨Or.inl ⟨_, hr, rfl, rfl, fun _ => rfl⟩, hs.versions _ _ hr⟩
  log := rfl
  one h := by cases h
  sourceEntry := ⟨fun _ _ => rfl, fun _ => Option.isSome_iff_ne_none.mpr hs.entry⟩
  sourceKey := by
    obtain ⟨version, hr⟩ := hs.stored
    rw [hr]
    exact ⟨fun _ _ => rfl, fun _ => rfl⟩
  targetEntry i := by
    rw [(hs.absent i).2.1]
    rfl
  recoveryEntry i := by
    rw [(hs.absent i).2.2]
    rfl
  targetKey i := by
    rw [(hs.absent i).1]
    rfl

/-- A record is replaced by one that stands for the same. -/
theorem ContestInv.replace (h : ContestInv p s t) {key : Str} {record : KineticRecord Inode} {n : Nat}
    (hold : (s.metadata key).isSome = true) (hnew : p.Stands key record.value ∧ record.version ≠ []) :
    ContestInv p { s.set key (some record) with uuids := n } t := by
  have hsome : ∀ k, ((s.set key (some record)).metadata k).isSome = (s.metadata k).isSome := by
    intro k
    rw [Store.set_metadata]
    split
    · rename_i hk
      rw [hk, hold]
      rfl
    · rfl
  refine ⟨?_, h.log, h.one, h.sourceEntry, ?_, h.targetEntry, h.recoveryEntry, fun i => ?_⟩
  · intro k r hr
    rw [show ({ s.set key (some record) with uuids := n } : Store).metadata k = _ from
      Store.set_metadata s key k (some record)] at hr
    split at hr
    · rename_i hk
      cases hr
      rw [hk]
      exact hnew
    · exact h.stands hr
  · exact (show _ = true ↔ _ from by rw [hsome p.source.key]; exact h.sourceKey)
  · exact (hsome (p.target i).key).trans (h.targetKey i)

variable [DecidableEq ι]

/-- What holds of all phases, and of the new one. -/
theorem forall_update {P : Phase → Prop} {phase : Phase} (ht : P phase ↔ P (t i)) :
    (∀ j, P (Function.update t i phase j)) ↔ ∀ j, P (t j) := by
  rw [Function.forall_update_iff]
  constructor
  · rintro ⟨hi, hother⟩ j
    by_cases hj : j = i
    · rw [hj]
      exact ht.mp hi
    · exact hother j hj
  · exact fun h => ⟨ht.mpr (h i), fun j _ => h j⟩

theorem winner_update {phase : Phase} (hw : phase.winner = (t i).winner) (j : ι) :
    (Function.update t i phase j).winner = (t j).winner := by
  by_cases hj : j = i
  · subst hj
    rw [Function.update_self, hw]
  · rw [Function.update_of_ne hj]

theorem flags_update {f : Phase → Bool} {b : ι → Bool} {phase : Phase} (hi : b i = f phase)
    (hother : ∀ j, j ≠ i → b j = f (t j)) (j : ι) : b j = f (Function.update t i phase j) := by
  by_cases hj : j = i
  · subst hj
    rw [Function.update_self, hi]
  · rw [Function.update_of_ne hj, hother j hj]

/-- A client creates or deletes its own entries. -/
theorem ContestInv.own (hs : p.Start) (h : ContestInv p s t) {phase : Phase}
    (hmeta : s'.metadata = s.metadata) (hlog : s'.log = s.log)
    (hsame : ∀ k, k ≠ (p.target i).entry → k ≠ p.recovery i →
      (s'.entries.find k).isSome = (s.entries.find k).isSome)
    (hw : phase.winner = (t i).winner) (hc : phase.copied? = (t i).copied?) (hm : phase.moved? = (t i).moved?)
    (htarget : (s'.entries.find (p.target i).entry).isSome = phase.entered?)
    (hrecovery : (s'.entries.find (p.recovery i)).isSome = phase.announced?) :
    ContestInv p s' (Function.update t i phase) where
  stands := by
    rw [hmeta]
    exact h.stands
  log := hlog.trans h.log
  one := by
    intro j k hj hk
    rw [winner_update hw] at hj hk
    exact h.one hj hk
  sourceEntry := by
    rw [hsame _ (target_ne_source hs i).symm (recovery_ne_source hs i).symm,
      forall_update (P := fun phase => phase.winner = false) (by rw [hw])]
    exact h.sourceEntry
  sourceKey := by
    rw [hmeta, forall_update (P := fun phase => phase.moved? = false) (by rw [hm])]
    exact h.sourceKey
  targetEntry := by
    refine flags_update htarget fun j hj => ?_
    rw [hsame _ (fun he => hj (target_inj hs he)) (recovery_ne_target hs i j).symm]
    exact h.targetEntry j
  recoveryEntry := by
    refine flags_update hrecovery fun j hj => ?_
    rw [hsame _ (recovery_ne_target hs j i) fun he => hj (recovery_inj hs he)]
    exact h.recoveryEntry j
  targetKey := by
    rw [hmeta]
    exact flags_update ((h.targetKey i).trans hc.symm) fun j _ => h.targetKey j

/-- A client creates or deletes the entry of its target. -/
theorem ContestInv.ownTarget (hs : p.Start) (h : ContestInv p s t) {phase : Phase} {present : Bool}
    (hmeta : s'.metadata = s.metadata) (hlog : s'.log = s.log)
    (hsome : ∀ k, (s'.entries.find k).isSome =
      if k = (p.target i).entry then present else (s.entries.find k).isSome)
    (hflags : phase.winner = (t i).winner ∧ phase.copied? = (t i).copied? ∧ phase.moved? = (t i).moved? ∧
      phase.announced? = (t i).announced?) (hpresent : phase.entered? = present) :
    ContestInv p s' (Function.update t i phase) := by
  obtain ⟨hw, hc, hm, hannounced⟩ := hflags
  refine h.own hs hmeta hlog (fun k hk _ => ?_) hw hc hm ?_ ?_
  · rw [hsome, if_neg hk]
  · rw [hsome, if_pos rfl, hpresent]
  · rw [hsome, if_neg (recovery_ne_target hs i i), h.recoveryEntry i, hannounced]

/-- A client creates or deletes its recovery entry. -/
theorem ContestInv.ownRecovery (hs : p.Start) (h : ContestInv p s t) {phase : Phase} {present : Bool}
    (hmeta : s'.metadata = s.metadata) (hlog : s'.log = s.log)
    (hsome : ∀ k, (s'.entries.find k).isSome = if k = p.recovery i then present else (s.entries.find k).isSome)
    (hflags : phase.winner = (t i).winner ∧ phase.copied? = (t i).copied? ∧ phase.moved? = (t i).moved? ∧
      phase.entered? = (t i).entered?) (hpresent : phase.announced? = present) :
    ContestInv p s' (Function.update t i phase) := by
  obtain ⟨hw, hc, hm, hentered⟩ := hflags
  refine h.own hs hmeta hlog (fun k _ hk => ?_) hw hc hm ?_ ?_
  · rw [hsome, if_neg hk]
  · rw [hsome, if_neg (recovery_ne_target hs i i).symm, h.targetEntry i, hentered]
  · rw [hsome, if_pos rfl, hpresent]

/-- A client deletes the entry of the source: it is the only one. -/
theorem ContestInv.win (hs : p.Start) (h : ContestInv p s t) (hi : t i = .announced)
    (hmeta : s'.metadata = s.metadata) (hlog : s'.log = s.log)
    (hfound : (s.entries.find p.source.entry).isSome = true)
    (hgone : (s'.entries.find p.source.entry).isSome = false)
    (hsame : ∀ k, k ≠ p.source.entry → (s'.entries.find k).isSome = (s.entries.find k).isSome) :
    ContestInv p s' (Function.update t i .won) where
  stands := by
    rw [hmeta]
    exact h.stands
  log := hlog.trans h.log
  one := by
    have hnone := h.sourceEntry.mp hfound
    have hwins : ∀ j, (Function.update t i .won j).winner = true → j = i := by
      intro j hj
      by_contra hne
      rw [Function.update_of_ne hne, hnone j] at hj
      cases hj
    intro j k hj hk
    rw [hwins j hj, hwins k hk]
  sourceEntry := by
    rw [hgone]
    refine ⟨fun hf => (by cases hf), fun hall => ?_⟩
    have hi := hall i
    rw [Function.update_self] at hi
    cases hi
  sourceKey := by
    rw [hmeta, forall_update (P := fun phase => phase.moved? = false) (by rw [hi]; exact Iff.rfl)]
    exact h.sourceKey
  targetEntry := by
    refine flags_update ?_ fun j _ => ?_
    · rw [hsame _ (target_ne_source hs i), h.targetEntry i, hi]
      rfl
    · rw [hsame _ (target_ne_source hs j)]
      exact h.targetEntry j
  recoveryEntry := by
    refine flags_update ?_ fun j _ => ?_
    · rw [hsame _ (recovery_ne_source hs i), h.recoveryEntry i, hi]
      rfl
    · rw [hsame _ (recovery_ne_source hs j)]
      exact h.recoveryEntry j
  targetKey := by
    rw [hmeta]
    refine flags_update ?_ fun j _ => h.targetKey j
    rw [h.targetKey i, hi]
    rfl

/-- The winner stores the file under its new name. -/
theorem ContestInv.copy (hs : p.Start) (h : ContestInv p s t) (hi : t i = .won)
    {record : KineticRecord Inode} (hfile : Matches p.file record.value) (hversion : record.version ≠ []) :
    ContestInv p (s.set (p.target i).key (some record)) (Function.update t i .copied) where
  stands := by
    intro k r hr
    rw [Store.set_metadata] at hr
    split at hr
    · rename_i hk
      cases hr
      exact ⟨Or.inr ⟨i, hk.symm, hfile⟩, hversion⟩
    · exact h.stands hr
  log := h.log
  one := by
    intro j k hj hk
    have hw : Phase.copied.winner = (t i).winner := by rw [hi]; rfl
    rw [winner_update hw] at hj hk
    exact h.one hj hk
  sourceEntry := by
    rw [forall_update (P := fun phase => phase.winner = false) (by rw [hi]; exact Iff.rfl)]
    exact h.sourceEntry
  sourceKey := by
    rw [Store.set_metadata, if_neg (targetKey_ne_source hs i).symm,
      forall_update (P := fun phase => phase.moved? = false) (by rw [hi]; exact Iff.rfl)]
    exact h.sourceKey
  targetEntry := by
    exact flags_update ((h.targetEntry i).trans (by rw [hi]; rfl)) fun j _ => h.targetEntry j
  recoveryEntry := by
    exact flags_update ((h.recoveryEntry i).trans (by rw [hi]; rfl)) fun j _ => h.recoveryEntry j
  targetKey := by
    refine flags_update ?_ fun j hj => ?_
    · rw [Store.set_metadata, if_pos rfl]
      rfl
    · rw [Store.set_metadata, if_neg fun he => hj (targetKey_inj hs he)]
      exact h.targetKey j

/-- The winner removes the metadata of the source. -/
theorem ContestInv.move (hs : p.Start) (h : ContestInv p s t) (hi : t i = .copied) :
    ContestInv p (s.set p.source.key none) (Function.update t i .moved) where
  stands := by
    intro k r hr
    rw [Store.set_metadata] at hr
    split at hr
    · cases hr
    · exact h.stands hr
  log := h.log
  one := by
    intro j k hj hk
    have hw : Phase.moved.winner = (t i).winner := by rw [hi]; rfl
    rw [winner_update hw] at hj hk
    exact h.one hj hk
  sourceEntry := by
    rw [forall_update (P := fun phase => phase.winner = false) (by rw [hi]; exact Iff.rfl)]
    exact h.sourceEntry
  sourceKey := by
    rw [Store.set_metadata, if_pos rfl]
    refine ⟨fun hf => (by cases hf), fun hall => ?_⟩
    have hi := hall i
    rw [Function.update_self] at hi
    cases hi
  targetEntry := by
    exact flags_update ((h.targetEntry i).trans (by rw [hi]; rfl)) fun j _ => h.targetEntry j
  recoveryEntry := by
    exact flags_update ((h.recoveryEntry i).trans (by rw [hi]; rfl)) fun j _ => h.recoveryEntry j
  targetKey := by
    refine flags_update ?_ fun j _ => ?_
    · rw [Store.set_metadata, if_neg (targetKey_ne_source hs i), h.targetKey i, hi]
      rfl
    · rw [Store.set_metadata, if_neg (targetKey_ne_source hs j)]
      exact h.targetKey j

/-- An access that has failed: only a client that has not won goes on. -/
theorem ContestInv.failed (hs : p.Start) (h : ContestInv p s t) (i : ι) {status : StatusCode}
    (hstatus : status ≠ .OK) (hmeta : s'.metadata = s.metadata) (hlog : s'.log = s.log)
    (hsame : ∀ k, (s'.entries.find k).isSome = (s.entries.find k).isSome) :
    ContestInv p s' (Function.update t i (advance (t i) status)) := by
  have hflags : ∀ phase : Phase, (advance phase status).winner = phase.winner ∧
      (advance phase status).copied? = phase.copied? ∧ (advance phase status).moved? = phase.moved? ∧
      (advance phase status).entered? = phase.entered? ∧
      (advance phase status).announced? = phase.announced? := by
    intro phase
    cases phase <;> simp [advance, hstatus, Phase.winner, Phase.copied?, Phase.moved?, Phase.entered?,
      Phase.announced?]
  obtain ⟨hw, hc, hm, htarget, hrecovery⟩ := hflags (t i)
  refine h.own hs hmeta hlog (fun k _ _ => hsame k) hw hc hm ?_ ?_
  · rw [hsame, h.targetEntry i, htarget]
  · rw [hsame, h.recoveryEntry i, hrecovery]

/-- An access that is carried out is answered. -/
theorem answer_carriedOut {result x : StatusCode × Store} {choice : Choice} {r : Req}
    (hc : carriedOut s r choice = true) (h : answer s' result choice = some x) : x = result := by
  have hc := of_decide_eq_true hc
  cases choice with
  | done => exact (Option.some.inj h).symm
  | unreachable => exact absurd rfl hc.1
  | lost => exact absurd rfl hc.2
  | expired b => cases h
  | number n => cases h

theorem get_carriedOut {me mdi : Nat} {key : Str} {choice : Choice} {r : Req}
    {x : Except StatusCode (KineticRecord Inode)} (hc : carriedOut s r choice = true)
    (h : serve uuid s (.get me mdi key) choice = some (x, s')) (hm : s.metadata key = none) :
    x = .error .REMOTE_NOT_FOUND := by
  have hx : (s.get key choice).map (fun x => (x, s)) = some (x, s') := h
  obtain ⟨x', hget, he⟩ := Option.map_eq_some_iff.mp hx
  cases he
  have hc := of_decide_eq_true hc
  cases choice with
  | done =>
    simp only [Store.get, hm] at hget
    exact (Option.some.inj hget).symm
  | unreachable => exact absurd rfl hc.1
  | lost => exact absurd rfl hc.2
  | expired b => cases hget
  | number n => cases hget

/-- Which entries exist after one was created. -/
theorem createEntry_isSome (s : Store) (key k : Str) :
    ((s.createEntry key).2.entries.find k).isSome =
      if k = key ∧ (s.createEntry key).1 = .OK then true else (s.entries.find k).isSome := by
  show ((s.entries.set key (putSame (s.entries.find key) [] ⟨[], lit "1"⟩).2).find k).isSome =
    if k = key ∧ (putSame (s.entries.find key) [] ⟨[], lit "1"⟩).1 = .OK then true
    else (s.entries.find k).isSome
  rw [Replication.Records.find_set]
  by_cases hk : k = key
  · subst hk
    rw [if_pos rfl]
    unfold putSame
    split <;> simp
  · rw [if_neg hk, if_neg fun hand => hk hand.1]

/-- Which entries exist after one was deleted. -/
theorem deleteEntry_isSome (s : Store) (key k : Str) :
    ((s.deleteEntry key).2.entries.find k).isSome =
      if k = key ∧ (s.deleteEntry key).1 = .OK then false else (s.entries.find k).isSome := by
  show ((s.entries.set key (deleteSame (s.entries.find key) (lit "1")).2).find k).isSome =
    if k = key ∧ (deleteSame (s.entries.find key) (lit "1")).1 = .OK then false
    else (s.entries.find k).isSome
  rw [Replication.Records.find_set]
  by_cases hk : k = key
  · subst hk
    rw [if_pos rfl]
    unfold deleteSame
    cases s.entries.find k with
    | none => simp
    | some r =>
      dsimp only
      split <;> simp
  · rw [if_neg hk, if_neg fun hand => hk hand.1]

/-- An entry that was deleted was there. -/
theorem deleteEntry_found {key : Str} (h : (s.deleteEntry key).1 = .OK) :
    (s.entries.find key).isSome = true := by
  have hd : (deleteSame (s.entries.find key) (lit "1")).1 = .OK := h
  unfold deleteSame at hd
  cases hf : s.entries.find key with
  | none =>
    rw [hf] at hd
    cases hd
  | some r => rfl

theorem ContestInv.createEntry (hs : p.Start) (h : ContestInv p s t) {key : Str}
    (hallowed : Allowed p i (t i) (.createEntry key)) :
    ContestInv p (s.createEntry key).2 (Function.update t i (advance (t i) (s.createEntry key).1)) := by
  have hsome := createEntry_isSome s key
  by_cases hok : (s.createEntry key).1 = .OK
  · have hsome : ∀ k, ((s.createEntry key).2.entries.find k).isSome =
        if k = key then true else (s.entries.find k).isSome := by
      intro k
      rw [hsome k, hok]
      simp
    rw [hok]
    rcases hallowed with ⟨hi, rfl⟩ | ⟨hi, rfl⟩
    · rw [hi]
      refine h.ownTarget hs rfl rfl hsome ?_ rfl
      rw [hi]
      exact ⟨rfl, rfl, rfl, rfl⟩
    · rw [hi]
      refine h.ownRecovery hs rfl rfl hsome ?_ rfl
      rw [hi]
      exact ⟨rfl, rfl, rfl, rfl⟩
  · refine h.failed hs i hok rfl rfl fun k => ?_
    rw [hsome, if_neg fun hand => hok hand.2]

theorem ContestInv.deleteEntry (hs : p.Start) (h : ContestInv p s t) {key : Str}
    (hallowed : Allowed p i (t i) (.deleteEntry key)) :
    ContestInv p (s.deleteEntry key).2 (Function.update t i (advance (t i) (s.deleteEntry key).1)) := by
  have hsome := deleteEntry_isSome s key
  by_cases hok : (s.deleteEntry key).1 = .OK
  · have hsome : ∀ k, ((s.deleteEntry key).2.entries.find k).isSome =
        if k = key then false else (s.entries.find k).isSome := by
      intro k
      rw [hsome k, hok]
      simp
    have hfound := deleteEntry_found hok
    rw [hok]
    rcases hallowed with ⟨hi, rfl⟩ | ⟨hi, rfl⟩ | ⟨hi, rfl⟩
    · rw [hi]
      refine h.win hs hi rfl rfl hfound ?_ fun k hk => ?_
      · rw [hsome, if_pos rfl]
      · rw [hsome, if_neg hk]
    · rw [hi]
      refine h.ownTarget hs rfl rfl hsome ?_ rfl
      rw [hi]
      exact ⟨rfl, rfl, rfl, rfl⟩
    · have hown : ∀ phase, phase = .withdrawn ∨ phase = .moved → t i = phase →
          ContestInv p (s.deleteEntry (p.recovery i)).2 (Function.update t i (advance phase .OK)) := by
        intro phase hphase hi
        refine h.ownRecovery hs rfl rfl hsome ?_ ?_
        · rw [hi]
          rcases hphase with rfl | rfl <;> exact ⟨rfl, rfl, rfl, rfl⟩
        · rcases hphase with rfl | rfl <;> rfl
      exact hown (t i) hi rfl
  · refine h.failed hs i hok rfl rfl fun k => ?_
    rw [hsome, if_neg fun hand => hok hand.2]

theorem ContestInv.putVersion (hs : p.Start) (h : ContestInv p s t) (me : Nat) (why : Purpose) {key : Str}
    {record : KineticRecord Inode} (hallowed : Allowed p i (t i) (.putVersion me why key record)) :
    ContestInv p (s.putVersion key record).2
      (Function.update t i (advance (t i) (s.putVersion key record).1)) := by
  obtain ⟨hi, rfl, hfile, hversion⟩ := hallowed
  have hnone : s.metadata (p.target i).key = none := by
    have hk := h.targetKey i
    rw [hi] at hk
    exact Option.not_isSome_iff_eq_none.mp (by rw [hk]; decide)
  have hput : s.putVersion (p.target i).key record = (.OK, s.set (p.target i).key (some record)) := by
    simp [Store.putVersion, putSame, versionOf, hnone]
  rw [hput, hi]
  exact h.copy hs hi hfile hversion

theorem ContestInv.delete (hs : p.Start) (h : ContestInv p s t) (me : Nat) (why : Purpose) {key : Str}
    {expected : Option Str} (hallowed : Allowed p i (t i) (.delete me why key expected)) :
    ContestInv p (s.delete key expected).2 (Function.update t i (advance (t i) (s.delete key expected).1)) := by
  obtain ⟨hi, rfl⟩ := hallowed
  have hcases : (s.delete p.source.key expected = (.OK, s.set p.source.key none)) ∨
      ((s.delete p.source.key expected).1 ≠ .OK ∧ (s.delete p.source.key expected).2 = s) := by
    cases hm : s.metadata p.source.key with
    | none =>
      have hsame : s.set p.source.key none = s := by rw [← hm, Store.set_self]
      cases expected <;> exact Or.inr (by simp [Store.delete, deleteSame, hm, hsame])
    | some r =>
      have hsame : s.set p.source.key (some r) = s := by rw [← hm, Store.set_self]
      cases expected with
      | none => exact Or.inl (by simp [Store.delete, hm])
      | some version =>
        by_cases hv : r.version = version
        · exact Or.inl (by simp [Store.delete, deleteSame, hm, hv])
        · exact Or.inr (by simp [Store.delete, deleteSame, hm, hv, hsame])
  rcases hcases with hd | ⟨hstatus, hd⟩
  · rw [hd, hi]
    exact h.move hs hi
  · rw [hd]
    exact h.failed hs i hstatus rfl rfl fun _ => rfl

/-- Every step that the protocol allows keeps the invariant. -/
theorem contest_sound (hs : p.Start) (huuid : ∀ n, uuid n ≠ []) :
    Sound (undisturbed uuid) (fun i => protocol p i) (ContestInv p) := by
  intro s t i r choice x s' h hallowed hserve
  obtain ⟨hc, hserve⟩ := serve_restrict hserve
  change serve uuid s r choice = some (x, s') at hserve
  have hsame : s' = s → next (t i) r x = t i →
      ContestInv p s' (Function.update t i (next (t i) r x)) := by
    rintro rfl hn
    rw [hn, Function.update_eq_self]
    exact h
  cases r with
  | get me mdi key =>
    obtain ⟨hs', hget, -⟩ := serve_get (x := x) hserve
    refine ⟨⟨fun record hx => h.stands (hget record hx), fun hi hkey => ?_⟩, hsame hs' rfl⟩
    refine get_carriedOut hc hserve ?_
    have hk := h.targetKey i
    rw [hi, ← hkey] at hk
    exact Option.not_isSome_iff_eq_none.mp (by rw [hk]; decide)
  | put me mdi why key expected md =>
    obtain ⟨status, version⟩ : StatusCode × Str := x
    obtain ⟨rfl, hcases⟩ := serve_put hserve
    refine ⟨huuid s.uuids, ?_⟩
    show ContestInv p s' (Function.update t i (t i))
    rw [Function.update_eq_self]
    rcases hcases with ⟨hexpected, -, rfl⟩ | ⟨-, -, rfl⟩
    · refine h.replace ?_ ⟨hallowed.2, huuid s.uuids⟩
      cases hm : s.metadata key with
      | none =>
        rw [hm] at hexpected
        exact absurd hexpected.symm hallowed.1
      | some r => rfl
    · exact ⟨h.stands, h.log, h.one, h.sourceEntry, h.sourceKey, h.targetEntry, h.recoveryEntry, h.targetKey⟩
  | databaseUpdate version =>
    refine ⟨fun entries hx => ?_, ?_⟩
    · rw [← h.log]
      rw [hx] at hserve
      exact serve_databaseUpdate hserve
    · obtain ⟨_, -, he⟩ := Option.map_eq_some_iff.mp hserve
      cases he
      exact hsame rfl rfl
  | expired key =>
    obtain ⟨_, -, he⟩ := Option.map_eq_some_iff.mp hserve
    cases he
    exact ⟨trivial, hsame rfl rfl⟩
  | createEntry key =>
    have he := answer_carriedOut (x := (x, s')) hc hserve
    refine ⟨trivial, ?_⟩
    cases he
    exact h.createEntry hs hallowed
  | deleteEntry key =>
    have he := answer_carriedOut (x := (x, s')) hc hserve
    refine ⟨trivial, ?_⟩
    cases he
    exact h.deleteEntry hs hallowed
  | putVersion me why key record =>
    have he := answer_carriedOut (x := (x, s')) hc hserve
    refine ⟨trivial, ?_⟩
    cases he
    exact h.putVersion hs me why hallowed
  | delete me why key expected =>
    have he := answer_carriedOut (x := (x, s')) hc hserve
    refine ⟨trivial, ?_⟩
    cases he
    exact h.delete hs me why hallowed
  | entryRange start stop max => cases hallowed
  | inodeNumber => cases hallowed
  | append version entry => cases hallowed

end Steps

/-! ## Runs -/

section Runs

variable {ι : Type}

/-- The source, or the target of a client. -/
def Contest.IsName (p : Contest ι) (n : Name) : Prop := n = p.source ∨ ∃ i, n = p.target i

/-- The file can be reached under the name: the name has a directory entry, and its key the inode. -/
def Contest.Reachable (p : Contest ι) (s : Store) (n : Name) : Prop :=
  s.entries.find n.entry ≠ none ∧ ∃ record, s.metadata n.key = some record ∧
    record.value.inodeNumber = p.file.inodeNumber

/-- What a client has returned. -/
def returned (c : Config Req Res Store ι (Int × Local)) (i : ι) : Option Int :=
  (c.prog i).result.map Prod.fst

variable {p : Contest ι} {s : Store} {t : ι → Phase} {i : ι}

/-- A key that holds the inode of the file is that of the source or of a target. -/
theorem ContestInv.key_of_inode (hs : p.Start) (h : ContestInv p s t) {key : Str} {record : KineticRecord Inode}
    (hr : s.metadata key = some record) (hinode : record.value.inodeNumber = p.file.inodeNumber) :
    key = p.source.key ∨ ∃ i, (p.target i).key = key := by
  rcases (h.stands hr).1 with ⟨record', hr', hm⟩ | ⟨i, hi, -⟩
  · exact Or.inl (hs.unique key record' hr' (hm.inodeNumber.symm.trans hinode))
  · exact Or.inr ⟨i, hi⟩

/-- A key of the contest that is stored holds the file. -/
theorem ContestInv.file_of_isSome (hs : p.Start) (h : ContestInv p s t) {n : Name} (hn : p.IsName n)
    (hsome : (s.metadata n.key).isSome = true) :
    ∃ record, s.metadata n.key = some record ∧ record.value.inodeNumber = p.file.inodeNumber := by
  obtain ⟨record, hr⟩ := Option.isSome_iff_exists.mp hsome
  refine ⟨record, hr, ?_⟩
  rcases hn with rfl | ⟨i, rfl⟩
  · exact (hs.stands_source (h.stands hr).1).inodeNumber
  · rcases (h.stands hr).1 with ⟨record', hr', -⟩ | ⟨j, hj, hm⟩
    · rw [(hs.absent i).1] at hr'
      cases hr'
    · exact hm.inodeNumber

/-- A client that has returned is idle or has finished. -/
theorem phase_of_returned {c : Config Req Res Store ι (Int × Local)} {phase : Phase}
    (hprog : (c.prog i).Conforms (protocol p i) (fun x t => Returned x.1 t) phase) {err : Int}
    (h : returned c i = some err) : Returned err phase := by
  obtain ⟨⟨err', l⟩, hr, rfl⟩ := Option.map_eq_some_iff.mp h
  rw [Prog.result_eq_some.mp hr] at hprog
  exact hprog

/-- Once every client is idle or has finished, the file has one name. -/
theorem ContestInv.settled (hs : p.Start) (h : ContestInv p s t) (ht : ∀ i, t i = .idle ∨ t i = .finished) :
    ∃ n, p.IsName n ∧ p.Reachable s n ∧ (∀ m, p.IsName m → p.Reachable s m → m = n) ∧
      ∀ key record, s.metadata key = some record → record.value.inodeNumber = p.file.inodeNumber →
        key = n.key := by
  by_cases hwin : ∃ i, t i = .finished
  · obtain ⟨i, hi⟩ := hwin
    have hname : p.IsName (p.target i) := Or.inr ⟨i, rfl⟩
    have honly : ∀ j, (t j).winner = true → j = i := fun j hj => h.one hj (by rw [hi]; rfl)
    have hfinished : ∀ j, (t j).entered? = true ∨ (t j).copied? = true → j = i := by
      intro j hj
      apply honly
      rcases ht j with hj' | hj' <;> rw [hj'] at hj ⊢
      · simp [Phase.entered?, Phase.copied?] at hj
      · rfl
    refine ⟨p.target i, hname, ⟨?_, h.file_of_isSome hs hname ?_⟩, ?_, ?_⟩
    · rw [← Option.isSome_iff_ne_none, h.targetEntry i, hi]
      rfl
    · rw [h.targetKey i, hi]
      rfl
    · rintro m (rfl | ⟨j, rfl⟩) ⟨hentry, -⟩
      · have hnone := h.sourceEntry.mp (Option.isSome_iff_ne_none.mpr hentry) i
        rw [hi] at hnone
        cases hnone
      · rw [← Option.isSome_iff_ne_none, h.targetEntry j] at hentry
        rw [hfinished j (Or.inl hentry)]
    · intro key record hr hinode
      rcases h.key_of_inode hs hr hinode with rfl | ⟨j, rfl⟩
      · have hnone := h.sourceKey.mp (by rw [hr]; rfl) i
        rw [hi] at hnone
        cases hnone
      · have hj := h.targetKey j
        rw [hr] at hj
        rw [hfinished j (Or.inr hj.symm)]
  · have hidle : ∀ i, t i = .idle := fun i => (ht i).resolve_right fun hi => hwin ⟨i, hi⟩
    have hname : p.IsName p.source := Or.inl rfl
    refine ⟨p.source, hname, ⟨?_, h.file_of_isSome hs hname ?_⟩, ?_, ?_⟩
    · exact Option.isSome_iff_ne_none.mp (h.sourceEntry.mpr fun i => by rw [hidle i]; rfl)
    · exact h.sourceKey.mpr fun i => by rw [hidle i]; rfl
    · rintro m (rfl | ⟨j, rfl⟩) ⟨hentry, -⟩
      · rfl
      · rw [← Option.isSome_iff_ne_none, h.targetEntry j, hidle j] at hentry
        cases hentry
    · intro key record hr hinode
      rcases h.key_of_inode hs hr hinode with rfl | ⟨j, rfl⟩
      · rfl
      · have hj := h.targetKey j
        rw [hr, hidle j] at hj
        cases hj

variable [DecidableEq ι]

/-- At most one of the clients returns 0; one that returns an error has left no entry; and once all have
    returned, the file has exactly one name. -/
theorem rename_one_winner {uuid : Nat → Str} (huuid : ∀ n, uuid n ≠ []) (hs : p.Start) {env : Env}
    {me : ι → Nat} {ctx : ι → Context} {fuel : ι → Nat} {l : ι → Local} (hl : ∀ i, p.Sees i (l i))
    {schedule : List (ι × Choice)} {c : Config Req Res Store ι (Int × Local)}
    (hrun : runFrom (undisturbed uuid) (clients p env me ctx fuel l) schedule = some c) :
    (∀ i j, returned c i = some 0 → returned c j = some 0 → i = j) ∧
      (∀ i err, returned c i = some err → err ≠ 0 →
        c.shared.entries.find (p.target i).entry = none ∧ c.shared.entries.find (p.recovery i) = none) ∧
      ((∀ i, (returned c i).isSome = true) → ∃ n, p.IsName n ∧ p.Reachable c.shared n ∧
        (∀ m, p.IsName m → p.Reachable c.shared m → m = n) ∧
        ∀ key record, c.shared.metadata key = some record →
          record.value.inodeNumber = p.file.inodeNumber → key = n.key) := by
  have hsane : ∀ i, Memory.Sane (discipline hs (me i) env (hl i)) ∅ (l i) .idle := by
    intro i
    refine ⟨rfl, Rmdir.Refreshed.start, fun a _ => (hl i).current a, fun key a ha => ?_, fun a ha =>
      absurd ha (Set.notMem_empty a)⟩
    obtain ⟨hlt, hpath⟩ := (hl i).cached key a ha
    exact ⟨Set.notMem_empty a, hlt, hpath⟩
  have hprog : ∀ i, ((clients p env me ctx fuel l).prog i).Conforms (protocol p i)
      (fun x t => Returned x.1 t) .idle := fun i => hflatRename_returns (hsane i) (fuel i)
  obtain ⟨t, h, hfinal⟩ := runFrom_conforms (contest_sound hs huuid) (ContestInv.start hs) hprog hrun
  have hphase : ∀ {i err}, returned c i = some err → Returned err (t i) :=
    fun {i _} hr => phase_of_returned (hfinal i) hr
  refine ⟨fun i j hi hj => ?_, fun i err hi herr => ?_, fun hall => h.settled hs fun i => ?_⟩
  · have hwins : ∀ {i}, returned c i = some 0 → (t i).winner = true := by
      intro i hi
      rcases hphase hi with ⟨-, ht⟩ | ⟨hne, -⟩
      · rw [ht]
        rfl
      · exact absurd rfl hne
    exact h.one (hwins hi) (hwins hj)
  · have ht : t i = .idle := by
      rcases hphase hi with ⟨h0, -⟩ | ⟨-, ht⟩
      · exact absurd h0 herr
      · exact ht
    constructor
    · have hentry := h.targetEntry i
      rw [ht] at hentry
      exact Option.not_isSome_iff_eq_none.mp (by rw [hentry]; decide)
    · have hentry := h.recoveryEntry i
      rw [ht] at hentry
      exact Option.not_isSome_iff_eq_none.mp (by rw [hentry]; decide)
  · obtain ⟨err, herr⟩ := Option.isSome_iff_exists.mp (hall i)
    rcases hphase herr with ⟨-, ht⟩ | ⟨-, ht⟩
    · exact Or.inr ht
    · exact Or.inl ht

end Runs

/-! ## Two clients rename `/f` -/

/-- A name in the root directory. -/
def inRoot (name : Str) : Name := ⟨'/' :: name, lit "/", '/' :: name, lit "/", 1⟩

/-- A file system with the file `/f`. -/
def withFile : Store := (Store.mkfs counter).addFile counter (lit "f") (regularFile 2)

/-- Two clients rename `/f`, one to `/a` and one to `/b`. -/
def twoTargets : Contest Bool :=
  ⟨inRoot (lit "f"), fun i => if i then inRoot (lit "a") else inRoot (lit "b"), regularFile 2, withFile⟩

theorem withFile_metadata {key : Str} {record : KineticRecord Inode}
    (h : withFile.metadata key = some record) :
    (key = lit "/f" ∧ record = ⟨regularFile 2, counter 1⟩) ∨
      (key = lit "/" ∧ record = ⟨rootDirectory, counter 0⟩) := by
  have hm : withFile.metadata key = if key = lit "/f" then some ⟨regularFile 2, counter 1⟩
      else if key = lit "/" then some ⟨rootDirectory, counter 0⟩ else none := Store.set_metadata _ _ _ _
  rw [hm] at h
  split at h
  · rename_i hk
    cases h
    exact Or.inl ⟨hk, rfl⟩
  split at h
  · rename_i hk
    cases h
    exact Or.inr ⟨hk, rfl⟩
  · cases h

theorem inRoot_valid (name : Str) (h : cutParent ('/' :: name) = some (lit "/")) :
    (inRoot name).Valid withFile := by
  have hroot : withFile.metadata (lit "/") = some ⟨rootDirectory, counter 0⟩ := by decide +kernel
  exact ⟨h, _, hroot, rfl, rfl, by decide⟩

theorem inRoot_led {name : Str} (h : ToSystemPath PathMapDB.empty ('/' :: name) .LOOKUP ('/' :: name, 0)) :
    (inRoot name).LedBy [] PathMapDB.empty := by
  intro db hdb key stamp _
  obtain rfl := Rmdir.refreshed_empty hdb
  have hroot : ToSystemPath PathMapDB.empty (lit "/") .LOOKUP (lit "/", 0) := ⟨1, by decide +kernel⟩
  exact ⟨fun hpath => congrArg Prod.fst (hpath.det h), fun hpath => congrArg Prod.fst (hpath.det hroot)⟩

theorem twoTargets_start : twoTargets.Start where
  source := inRoot_valid (lit "f") (by decide +kernel)
  absolute := List.mem_cons_self
  stored := ⟨counter 1, by decide +kernel⟩
  entry := by decide +kernel
  regular := by decide
  unique := by
    intro key record hr hinode
    rcases withFile_metadata hr with ⟨rfl, -⟩ | ⟨-, rfl⟩
    · rfl
    · exact absurd hinode (by decide)
  versions := by
    intro key record hr
    rcases withFile_metadata hr with ⟨-, rfl⟩ | ⟨-, rfl⟩
    · exact Versions.counter_unique.ne_empty 1
    · exact Versions.counter_unique.ne_empty 0
  target i := by
    cases i
    · exact inRoot_valid (lit "b") (by decide +kernel)
    · exact inRoot_valid (lit "a") (by decide +kernel)
  absent i := by
    cases i <;> decide +kernel
  distinct i j hne := by
    cases i <;> cases j <;> first
      | exact absurd rfl hne
      | decide +kernel

theorem twoTargets_sees (i : Bool) : twoTargets.Sees i (Local.mounted PathMapDB.empty) where
  source := inRoot_led ⟨1, by decide +kernel⟩
  target := by
    cases i
    · exact inRoot_led ⟨1, by decide +kernel⟩
    · exact inRoot_led ⟨1, by decide +kernel⟩
  cached _ _ ha := by cases ha
  current a := ⟨fun hn => absurd rfl hn, fun hpath => by cases i <;> cases hpath⟩

/-- `rename /f /a` and `rename /f /b`. -/
def bothRename : Config Req Res Store Bool (Int × Local) :=
  clients twoTargets relaxed (fun i => if i then 1 else 0) (fun _ => superuser) (fun _ => 5)
    fun _ => Local.mounted PathMapDB.empty

/-- The clients take turns; the first one to delete the entry of `/f` wins. -/
def inTurns : List (Bool × Choice) :=
  [(false, .done), (true, .done), (false, .expired false), (true, .expired false), (false, .done),
    (true, .done),
    (false, .done), (true, .done), (false, .done), (true, .done), (false, .done), (true, .done),
    (false, .done), (true, .done), (false, .done), (true, .done), (false, .done), (true, .done),
    (false, .done)]

theorem rename_one_winner_in_turns : ∃ c, runFrom (undisturbed counter) bothRename inTurns = some c ∧
    returned c false = some 0 ∧ returned c true = some (- EIO) ∧
    c.shared.entries.find (twoTargets.target true).entry = none ∧
    c.shared.entries.find (twoTargets.recovery true) = none ∧
    ∃ n, twoTargets.IsName n ∧ twoTargets.Reachable c.shared n ∧
      ∀ m, twoTargets.IsName m → twoTargets.Reachable c.shared m → m = n := by
  have hrun : ((runFrom (undisturbed counter) bothRename inTurns).any fun c =>
      returned c false = some 0 ∧ returned c true = some (- EIO)) = true := by decide +kernel
  obtain ⟨c, hc, hreturned⟩ := (Option.any_eq_true _ _).mp hrun
  obtain ⟨hfalse, htrue⟩ := of_decide_eq_true hreturned
  obtain ⟨-, hlost, hname⟩ := rename_one_winner Versions.counter_unique.ne_empty twoTargets_start
    twoTargets_sees hc
  obtain ⟨hentry, hrecovery⟩ := hlost true (- EIO) htrue (by decide)
  obtain ⟨n, hn, hreachable, honly, -⟩ := hname fun i => by
    cases i
    · rw [hfalse]
      rfl
    · rw [htrue]
      rfl
  exact ⟨c, hc, hfalse, htrue, hentry, hrecovery, n, hn, hreachable, honly⟩

end HFlat.Fuse.OneWinner
