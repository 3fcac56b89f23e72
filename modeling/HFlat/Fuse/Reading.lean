/-
  Lookups that only read.

  A path is settled (`Settled`) if it leads, past no blocked key, to an object that the caller may use and
  whose path permissions are up to date. A lookup of a settled path finds its object and stores nothing
  (`Settled.lookup`). Of any lookup, on a client whose cache holds what the store has, `lookup_reads` says
  that it leaves everything as it is, and then it finds only what is settled, or that it changes
  something for good (`Altered`).
-/
import HFlat.Fuse.Steady
import HFlat.Fuse.Termination

namespace HFlat.Fuse.Reading

open HFlat.Lib HFlat.PathMap HFlat.Permission
open HFlat.Replication (KineticRecord StatusCode versionOf putSame)
open HFlat.Fuse.Termination (ends_getMdi_bind ends_setMdi_bind ends_newMetadataInfo_bind)

/-! ## Settled paths -/

/-- Every access is carried out and answered. -/
def answers (_ : Store) (_ : Req) (choice : Choice) : Bool := choice ≠ .unreachable ∧ choice ≠ .lost

/-- The service without I/O errors. -/
def reliable (uuid : Nat → Str) : Service Req Res Choice Store := (store uuid).restrict answers

/-- A lookup of the path finds an object that the caller may use and whose path permissions are up to
    date, and no key on the way is blocked. -/
inductive Settled (l : Local) (s : Store) (ctx : Context) : Str → Prop
  | found {path key : Str} {stamp : Int} {r : KineticRecord Inode}
      (hpath : ToSystemPath l.pmap path .LOOKUP (key, stamp)) (hstamp : 0 ≤ stamp)
      (hblocked : l.blocked key = false) (hr : s.metadata key = some r) (hinode : r.value.inodeNumber ≠ 0)
      (htype : r.value.type = .POSIX ∨ r.value.type = .HARDLINK_T)
      (hverified : stamp ≤ r.value.pathPermissionVerified)
      (hallowed : checkPathPermissions ctx r.value.pathPermission = 0) : Settled l s ctx path
  | link {path key : Str} {stamp : Int} {r : KineticRecord Inode}
      (hpath : ToSystemPath l.pmap path .LOOKUP (key, stamp)) (hstamp : 0 ≤ stamp)
      (hblocked : l.blocked key = false) (hr : s.metadata key = some r) (hinode : r.value.inodeNumber ≠ 0)
      (htype : r.value.type = .HARDLINK_S)
      (htarget : Settled l s ctx (hardlinkKey r.value.inodeNumber)) : Settled l s ctx path

/-- A client that has blocked no less finds no less settled. -/
theorem Settled.mono {l l' : Local} {s : Store} {ctx : Context} {path : Str} (h : Settled l' s ctx path)
    (hp : l'.pmap = l.pmap) (hb : ∀ key, l.blocked key = true → l'.blocked key = true) : Settled l s ctx path := by
  have hfree : ∀ key, l'.blocked key = false → l.blocked key = false := fun key hk =>
    Bool.eq_false_iff.mpr fun hx => Bool.eq_false_iff.mp hk (hb key hx)
  induction h with
  | found hpath hstamp hblocked hr hinode htype hverified hallowed =>
    exact .found (hp ▸ hpath) hstamp (hfree _ hblocked) hr hinode htype hverified hallowed
  | link hpath hstamp hblocked hr hinode htype _ ih =>
    exact .link (hp ▸ hpath) hstamp (hfree _ hblocked) hr hinode htype ih

/-- The object is what the store has for its key. A link is cached without its version. -/
def Mirrors (s : Store) (x : MetadataInfo) : Prop :=
  match s.metadata x.systemPath with
  | none => x.md.inodeNumber = 0
  | some r => (x.md = r.value ∧ x.keyVersion = r.version) ∨
      (r.value.type = .HARDLINK_S ∧ x.md.type = .HARDLINK_S ∧ x.md.inodeNumber = r.value.inodeNumber)

/-- The cache holds what the store has. -/
def InStep (l : Local) (s : Store) : Prop :=
  ∀ key a, l.lookupCache key = some a → a < l.next ∧ (l.heap a).systemPath = key ∧ Mirrors s (l.heap a)

/-- No object, mapping or record has changed; the cache may hold more of the store, or less, and no
    blocked key is released. -/
structure Calm (l : Local) (s : Store) (l' : Local) (s' : Store) : Prop where
  store : s' = s
  pmap : l'.pmap = l.pmap
  next : l.next ≤ l'.next
  heap : ∀ a < l.next, l'.heap a = l.heap a
  step : InStep l' s'
  blocked : ∀ key, l.blocked key = true → l'.blocked key = true

section Steps

variable {l l1 l2 : Local} {s s1 s2 : Store} {key : Str} {a : Nat}

theorem calm_refl (h : InStep l s) : Calm l s l s := ⟨rfl, rfl, Nat.le_refl _, fun _ _ => rfl, h, fun _ => id⟩

theorem Calm.trans (h : Calm l s l1 s1) (h' : Calm l1 s1 l2 s2) : Calm l s l2 s2 where
  store := h'.store.trans h.store
  pmap := h'.pmap.trans h.pmap
  next := h.next.trans h'.next
  heap a ha := (h'.heap a (Nat.lt_of_lt_of_le ha h.next)).trans (h.heap a ha)
  step := h'.step
  blocked key hk := h'.blocked key (h.blocked key hk)

/-- Who sets a key that is not blocked releases none. -/
theorem setCache_blocked (hb : l.blocked key = false) (entry : Option Nat) :
    (l.setCache key entry).blocked = l.blocked :=
  Function.update_eq_self_iff.mpr hb.symm

/-- A key that is blocked stays so if another one is blocked. -/
theorem block_blocked {k : Str} (hk : l.blocked k = true) : (l.block key).blocked k = true := by
  show Function.update l.blocked key true k = true
  rw [Function.update_apply]
  split
  · rfl
  · exact hk

/-- The cache forgets a key, or takes in an object that is what the store has. -/
theorem InStep.setCache (h : InStep l s) (hb : l.blocked key = false) {entry : Option Nat}
    (he : ∀ a, entry = some a → a < l.next ∧ (l.heap a).systemPath = key ∧ Mirrors s (l.heap a)) :
    Calm l s (l.setCache key entry) s := by
  refine ⟨rfl, rfl, Nat.le_refl _, fun _ _ => rfl, fun k a hk => ?_, fun k hk => ?_⟩
  swap
  · rwa [setCache_blocked hb]
  rw [Local.setCache_lookupCache] at hk
  split at hk
  · rename_i hkey
    subst hkey
    exact he a hk
  · exact h k a hk

theorem InStep.invalidate (h : InStep l s) (hb : l.blocked key = false) : Calm l s (l.setCache key none) s :=
  h.setCache hb fun _ he => by cases he

/-- A new object. -/
theorem InStep.alloc (h : InStep l s) (key : Str) (x : MetadataInfo) :
    Calm l s ((l.alloc key).setObject l.next x) s := by
  have hold : ∀ a < l.next, ((l.alloc key).setObject l.next x).heap a = l.heap a := by
    intro a ha
    rw [Local.setObject_heap, if_neg (by omega), Local.alloc_heap, if_neg (by omega)]
  refine ⟨rfl, rfl, Nat.le_succ _, hold, fun k a hk => ?_, fun _ => id⟩
  obtain ⟨ha, hkey, hm⟩ := h k a hk
  rw [hold a ha]
  exact ⟨Nat.lt_succ_of_lt ha, hkey, hm⟩

end Steps

/-! ## Requests -/

section Rules

variable {sv : Service Req Res Choice Store} {β : Type} {l : Local} {s : Store}
variable {Q : β → Local → Store → Prop}

theorem post_getMdi_bind {mdi : Nat} {f : MetadataInfo → Client β} (h : Post sv (f (l.heap mdi)) Q l s) :
    Post sv (getMdi mdi >>= f) Q l s := h

theorem post_setMdi_bind {mdi : Nat} {g : MetadataInfo → MetadataInfo} {f : Unit → Client β}
    (h : Post sv (f ()) Q (l.setObject mdi (g (l.heap mdi))) s) : Post sv (setMdi mdi g >>= f) Q l s := h

theorem post_newMetadataInfo_bind {key : Str} {f : Nat → Client β} (h : Post sv (f l.next) Q (l.alloc key) s) :
    Post sv (newMetadataInfo key >>= f) Q l s := h

theorem post_cacheInvalidate_bind {key : Str} {f : Unit → Client β}
    (h : Post sv (f ()) Q (l.setCache key none) s) : Post sv (cacheInvalidate key >>= f) Q l s := h

end Rules

section Requests

variable {uuid : Nat → Str} {me : Nat} {l : Local} {s : Store} {key : Str} {a : Nat}

theorem reliable_serve {s s' : Store} {r : Req} {choice : Choice} {x : Res r}
    (h : (reliable uuid).serve s r choice = some (x, s')) :
    (choice ≠ .unreachable ∧ choice ≠ .lost) ∧ serve uuid s r choice = some (x, s') := by
  obtain ⟨hok, hserve⟩ := serve_restrict h
  exact ⟨of_decide_eq_true hok, hserve⟩

/-- What `get` of the lookup cache leaves and returns. -/
def Looked (l : Local) (s : Store) (key : Str) (entry : Option Nat) (l' : Local) (s' : Store) : Prop :=
  Calm l s l' s' ∧ l'.blocked = l.blocked ∧ l.blocked key = false ∧
    match entry with
    | some a => l' = l ∧ l.lookupCache key = some a
    | none => l'.lookupCache key = none

theorem cacheGet_calm (h : InStep l s) (hblocked : l.blocked key = false) :
    Completes (reliable uuid) (cacheGet key) (Looked l s key) l s := by
  refine Completes.get_bind ?_
  rw [if_neg (Bool.eq_false_iff.mp hblocked)]
  cases hc : l.lookupCache key with
  | none => exact Completes.pure ⟨calm_refl h, rfl, hblocked, hc⟩
  | some a =>
    refine Completes.then (Q := fun (_ : Bool) l' s' => l' = l ∧ s' = s) ?_ ?_
    · refine Completes.call ⟨.expired false, false, s, rfl⟩ ?_
      intro choice x s' hserve
      obtain ⟨-, hserve⟩ := reliable_serve hserve
      obtain ⟨_, -, he⟩ := Option.map_eq_some_iff.mp hserve
      cases he
      exact ⟨rfl, rfl⟩
    · rintro (expired : Bool) l' s' ⟨rfl, rfl⟩
      refine Completes.ite (fun _ => ?_) fun _ => Completes.pure ⟨calm_refl h, rfl, hblocked, rfl, hc⟩
      refine Completes.modify_bind (Completes.pure ⟨h.invalidate hblocked, setCache_blocked hblocked none,
        hblocked, ?_⟩)
      simp

/-- Of a `get` that waits nothing is asked. -/
theorem cacheGet_reads (h : InStep l s) (key : Str) :
    Post (reliable uuid) (cacheGet key) (Looked l s key) l s := by
  cases hb : l.blocked key with
  | true =>
    refine Post.get_bind ?_
    rw [if_pos hb]
    exact Post.stop
  | false => exact (cacheGet_calm h hb).post

theorem cacheAdd_calm (hk : l.lookupCache key = none) :
    Completes (reliable uuid) (cacheAdd key a) (fun _ l' s' => l' = l.setCache key (some a) ∧ s' = s) l s := by
  refine Completes.get_bind ?_
  rw [hk]
  exact Completes.modify ⟨rfl, rfl⟩

/-- What `get_metadata` reads into an object. -/
def Reads (s : Store) (key : Str) (err : Int) (x : MetadataInfo) : Prop :=
  x.systemPath = key ∧
    match s.metadata key with
    | none => err = -ENOENT ∧ x.md.inodeNumber = 0
    | some r => err = 0 ∧ x.md = r.value ∧ x.keyVersion = r.version

theorem Reads.mirrors {err : Int} {x : MetadataInfo} (h : Reads s key err x) : Mirrors s x := by
  obtain ⟨rfl, h⟩ := h
  unfold Mirrors
  split
  · rename_i hm
    rw [hm] at h
    exact h.2
  · rename_i r hm
    rw [hm] at h
    exact Or.inl h.2

/-- Reading a key into a new object. -/
theorem load_calm (h : InStep l s) (key : Str) :
    Completes (reliable uuid) (getMetadata me l.next) (fun err l' s' => Calm l s l' s' ∧ l.next < l'.next ∧
      l'.lookupCache = l.lookupCache ∧ l'.blocked = l.blocked ∧ Reads s key err (l'.heap l.next))
        (l.alloc key) s := by
  have hself : (l.alloc key).heap l.next = ⟨key, lit "0", Inode.empty⟩ := by simp
  have halloc : Calm l s (l.alloc key) s := by
    have hc := h.alloc key ((l.alloc key).heap l.next)
    have he : (l.alloc key).setObject l.next ((l.alloc key).heap l.next) = l.alloc key := by
      unfold Local.setObject
      rw [Function.update_eq_self]
    rwa [he] at hc
  refine ends_getMdi_bind ?_
  rw [hself]
  refine Completes.then (Q := fun x l' s' => l' = l.alloc key ∧ s' = s ∧
    x = (s.metadata key).elim (Except.error .REMOTE_NOT_FOUND) Except.ok) ?_ ?_
  · refine Completes.call ⟨.done, ?_⟩ ?_
    · cases hm : s.metadata key with
      | none => exact ⟨_, s, by simp [reliable, Service.restrict, answers, store, serve, Store.get, hm]; rfl⟩
      | some r => exact ⟨_, s, by simp [reliable, Service.restrict, answers, store, serve, Store.get, hm]; rfl⟩
    · intro choice x s' hserve
      obtain ⟨hc, hserve⟩ := reliable_serve hserve
      obtain ⟨rfl, -, -⟩ := serve_get hserve
      obtain ⟨y, hy, he⟩ := Option.map_eq_some_iff.mp hserve
      cases he
      refine ⟨rfl, rfl, ?_⟩
      cases choice with
      | done =>
        cases hm : s'.metadata key with
        | none =>
          simp only [Store.get, hm] at hy
          exact (Option.some.inj hy).symm
        | some r =>
          simp only [Store.get, hm] at hy
          exact (Option.some.inj hy).symm
      | unreachable => exact absurd rfl hc.1
      | lost => cases hy
      | expired b => cases hy
      | number n => cases hy
  · rintro (record : Except StatusCode (KineticRecord Inode)) l' s' ⟨rfl, rfl, rfl⟩
    unfold Reads
    cases hm : s'.metadata key with
    | none =>
      refine Completes.pure ⟨halloc, Nat.lt_succ_self _, rfl, rfl, ?_⟩
      rw [hself]
      exact ⟨rfl, rfl, rfl⟩
    | some r =>
      refine ends_setMdi_bind (Completes.pure ⟨h.alloc key _, Nat.lt_succ_self _, rfl, rfl, ?_⟩)
      simp

end Requests

/-! ## Changes that stay -/

/-- Later than `db0` and `s0`, with no new directory entry. -/
structure Later (db0 : PathMapDB) (s0 : Store) (db : PathMapDB) (s : Store) : Prop where
  version : db0.snapshotVersion ≤ db.snapshotVersion
  log : s0.log.length ≤ s.log.length
  uuids : s0.uuids ≤ s.uuids
  entries : ∀ key, s0.entries.find key = none → s.entries.find key = none

/-- A newer snapshot, a longer log, an entry that is gone, or a record with a new version. -/
def Changed (uuid : Nat → Str) (db0 : PathMapDB) (s0 : Store) (db : PathMapDB) (s : Store) : Prop :=
  db0.snapshotVersion < db.snapshotVersion ∨ s0.log.length < s.log.length ∨
    (∃ key, s0.entries.find key ≠ none ∧ s.entries.find key = none) ∨
    ∃ key r i, s.metadata key = some r ∧ s0.uuids ≤ i ∧ r.version = uuid i

/-- Something has changed, and the requests that follow do not take it back. -/
def Altered (uuid : Nat → Str) (db0 : PathMapDB) (s0 : Store) (db : PathMapDB) (s : Store) : Prop :=
  Later db0 s0 db s ∧ Changed uuid db0 s0 db s

/-- Requests that store metadata and remove entries, and create nothing. -/
def Mends (r : Req) : Prop :=
  r.ofLookup = true ∨ (∃ key, r = .deleteEntry key) ∨ (∃ version entry, r = .append version entry) ∨
    ∃ start stop max, r = .entryRange start stop max

section Changes

variable {uuid : Nat → Str} {db0 db db' : PathMapDB} {s0 s s' : Store} {r : Req} {choice : Choice} {x : Res r}

theorem later_refl (db : PathMapDB) (s : Store) : Later db s db s :=
  ⟨Nat.le_refl _, Nat.le_refl _, Nat.le_refl _, fun _ h => h⟩

theorem updateSnapshot_version {entries : List DbEntry} {version : Nat}
    (h : updateSnapshot db entries db.snapshotVersion version = some db') :
    db.snapshotVersion ≤ db'.snapshotVersion ∧ version ≤ db'.snapshotVersion := by
  unfold updateSnapshot at h
  split at h
  · cases h
  · split at h
    · rename_i hle
      cases h
      exact ⟨Nat.le_refl _, hle⟩
    · rename_i hle
      split at h
      · cases h
      · cases h
        exact ⟨Nat.le_of_not_le hle, Nat.le_refl _⟩

theorem Later.update (h : Later db0 s0 db s) {entries : List DbEntry} {version : Nat}
    (hdb : updateSnapshot db entries db.snapshotVersion version = some db') : Later db0 s0 db' s :=
  { h with version := h.version.trans (updateSnapshot_version hdb).1 }

theorem Altered.update (h : Altered uuid db0 s0 db s) {entries : List DbEntry} {version : Nat}
    (hdb : updateSnapshot db entries db.snapshotVersion version = some db') : Altered uuid db0 s0 db' s :=
  ⟨h.1.update hdb, h.2.imp_left fun hv => Nat.lt_of_lt_of_le hv (updateSnapshot_version hdb).1⟩

/-- What such a request does to the store. -/
structure Drift (uuid : Nat → Str) (s s' : Store) : Prop where
  log : s.log.length ≤ s'.log.length
  uuids : s.uuids ≤ s'.uuids
  entries : ∀ key, s.entries.find key = none → s'.entries.find key = none
  metadata : ∀ key r, s.metadata key = some r → s'.metadata key = some r ∨
    ∃ r', s'.metadata key = some r' ∧ r'.version = uuid s.uuids

theorem drift_refl (s : Store) : Drift uuid s s :=
  ⟨Nat.le_refl _, Nat.le_refl _, fun _ h => h, fun _ _ h => Or.inl h⟩

theorem Later.drift (h : Later db0 s0 db s) (hd : Drift uuid s s') : Later db0 s0 db s' :=
  ⟨h.version, h.log.trans hd.log, h.uuids.trans hd.uuids, fun key hk => hd.entries key (h.entries key hk)⟩

theorem Altered.drift (h : Altered uuid db0 s0 db s) (hd : Drift uuid s s') : Altered uuid db0 s0 db s' := by
  refine ⟨h.1.drift hd, ?_⟩
  rcases h.2 with hv | hlog | ⟨key, hkey, hgone⟩ | ⟨key, r, i, hr, hi, hversion⟩
  · exact Or.inl hv
  · exact Or.inr (Or.inl (Nat.lt_of_lt_of_le hlog hd.log))
  · exact Or.inr (Or.inr (Or.inl ⟨key, hkey, hd.entries key hgone⟩))
  · refine Or.inr (Or.inr (Or.inr ?_))
    rcases hd.metadata key r hr with hr' | ⟨r', hr', hversion'⟩
    · exact ⟨key, r, i, hr', hi, hversion⟩
    · exact ⟨key, r', s.uuids, hr', h.1.uuids, hversion'⟩

theorem serve_append_drift {version : Nat} {entry : DbEntry} {status : StatusCode}
    (h : serve uuid s (.append version entry) choice = some (status, s')) :
    Drift uuid s s' := by
  have hr : answer s (s.append version entry) choice = some (status, s') := h
  have hdone : Drift uuid s (s.append version entry).2 := by
    unfold Store.append
    split
    · exact ⟨by simp, Nat.le_refl _, fun _ h => h, fun _ _ h => Or.inl h⟩
    · exact drift_refl s
  rcases answer_eq hr with he | he | he
  · obtain rfl : s' = (s.append version entry).2 := congrArg Prod.snd he
    exact hdone
  · cases he
    exact drift_refl s
  · obtain rfl : s' = (s.append version entry).2 := congrArg Prod.snd he
    exact hdone

theorem serve_deleteEntry_drift {key : Str} {status : StatusCode}
    (h : serve uuid s (.deleteEntry key) choice = some (status, s')) : Drift uuid s s' := by
  have hr : answer s (s.deleteEntry key) choice = some (status, s') := h
  have hrest : s'.log = s.log ∧ s'.uuids = s.uuids ∧ s'.metadata = s.metadata := by
    rcases answer_eq hr with he | he | he <;> cases he <;> exact ⟨rfl, rfl, rfl⟩
  refine ⟨hrest.1.symm ▸ Nat.le_refl _, hrest.2.1.symm ▸ Nat.le_refl _, fun k hk => serve_deleteEntry h hk,
    fun k r hk => Or.inl ?_⟩
  rw [hrest.2.2]
  exact hk

/-- No such request takes a change back. -/
theorem serve_drift (hr : Mends r) (h : serve uuid s r choice = some (x, s')) : Drift uuid s s' := by
  have hsame : ∀ {α : Type} {o : Option α} {x : α}, o.map (fun x => (x, s)) = some (x, s') → Drift uuid s s' := by
    intro α o x ho
    obtain ⟨_, -, he⟩ := Option.map_eq_some_iff.mp ho
    cases he
    exact drift_refl s
  rcases hr with hr | ⟨key, rfl⟩ | ⟨version, entry, rfl⟩ | ⟨start, stop, max, rfl⟩
  · cases r with
    | get me mdi key => exact hsame h
    | expired key => exact hsame h
    | databaseUpdate version => exact hsame h
    | put me mdi why key expected md =>
      obtain ⟨status, version⟩ : StatusCode × Str := x
      obtain ⟨rfl, ⟨-, -, rfl⟩ | ⟨-, -, rfl⟩⟩ := serve_put h
      · refine ⟨Nat.le_refl _, Nat.le_succ _, fun _ hk => hk, fun k r hk => ?_⟩
        by_cases hkey : k = key
        · exact Or.inr ⟨⟨md, uuid s.uuids⟩, by simp [hkey], rfl⟩
        · exact Or.inl (by simpa [hkey] using hk)
      · exact ⟨Nat.le_refl _, Nat.le_succ _, fun _ hk => hk, fun _ _ hk => Or.inl hk⟩
    | putVersion me why key record => cases hr
    | delete me why key expected => cases hr
    | createEntry key => cases hr
    | deleteEntry key => cases hr
    | entryRange start stop max => cases hr
    | inodeNumber => cases hr
    | append version entry => cases hr
  · exact serve_deleteEntry_drift h
  · exact serve_append_drift h
  · exact hsame h

theorem steady_later : Steady (reliable uuid) (Later db0 s0) where
  serve hr h hserve := h.drift (serve_drift (Or.inl hr) (reliable_serve hserve).2)
  update h hdb := h.update hdb

theorem steady_altered : Steady (reliable uuid) (Altered uuid db0 s0) where
  serve hr h hserve := h.drift (serve_drift (Or.inl hr) (reliable_serve hserve).2)
  update h hdb := h.update hdb

end Changes

/-! ## Lookups -/

/-- What a lookup leaves and says. -/
def Outcome (uuid : Nat → Str) (ctx : Context) (path : Str) (l : Local) (s : Store) (r : Int × Option Nat)
    (l' : Local) (s' : Store) : Prop :=
  (Calm l s l' s' ∧ (r.1 = 0 → Settled l s ctx path)) ∨ Altered uuid l.pmap s l'.pmap s'

/-- The lookups that a lookup makes. -/
structure Calls (uuid : Nat → Str) (ctx : Context) (db : PathMapDB) (s : Store)
    (call : Str → Option Nat → Client (Int × Option Nat)) : Prop where
  reads : ∀ l path pointer, l.pmap = db → InStep l s →
    Post (reliable uuid) (call path pointer) (Outcome uuid ctx path l s) l s
  keeps : ∀ path pointer, Preserves (reliable uuid) (Held (Altered uuid db s)) (call path pointer)

section Lookup

variable {uuid : Nat → Str} {me : Nat} {env : Env} {ctx : Context} {l : Local} {s : Store} {a : Nat}
variable {path key : Str} {stamp : Int} {call : Str → Option Nat → Client (Int × Option Nat)}
variable {r : KineticRecord Inode}

theorem Altered.outcome {x : Int × Option Nat} {l' : Local} {s' : Store}
    (h : Altered uuid l.pmap s l'.pmap s') : Outcome uuid ctx path l s x l' s' := Or.inr h

theorem Calm.failed {err : Int} {l' : Local} {s' : Store} (h : Calm l s l' s') (herr : err ≠ 0)
    (entry : Option Nat) : Outcome uuid ctx path l s (err, entry) l' s' :=
  Or.inl ⟨h, fun h0 => absurd h0 herr⟩

/-- A lookup after calm steps. -/
theorem Outcome.after {x : Int × Option Nat} {l1 l' : Local} {s1 s' : Store} (h : Calm l s l1 s1)
    (h' : Outcome uuid ctx path l1 s1 x l' s') : Outcome uuid ctx path l s x l' s' := by
  obtain rfl := h.store
  have hp := h.pmap
  rcases h' with ⟨hc, hx⟩ | ha
  · exact Or.inl ⟨h.trans hc, fun h0 => (hx h0).mono hp h.blocked⟩
  · refine Or.inr ?_
    rw [← hp]
    exact ha

/-- A `Put` of the version that is stored. -/
theorem reliable_put {s' : Store} {why : Purpose} {expected version : Str} {md : Inode} {status : StatusCode}
    {choice : Choice} (hv : versionOf (s.metadata key) = expected)
    (h : (reliable uuid).serve s (.put me a why key expected md) choice = some ((status, version), s')) :
    status = .OK ∧ s' = { s.set key (some ⟨md, uuid s.uuids⟩) with uuids := s.uuids + 1 } := by
  obtain ⟨hc, hserve⟩ := reliable_serve h
  have hput : s.put uuid key expected md =
      (.OK, { s.set key (some ⟨md, uuid s.uuids⟩) with uuids := s.uuids + 1 }) := by
    simp [Store.put, putSame, hv]
  obtain ⟨result, hr, he⟩ := Option.map_eq_some_iff.mp hserve
  cases he
  rw [hput] at hr
  cases choice with
  | done =>
    cases hr
    exact ⟨rfl, rfl⟩
  | unreachable => exact absurd rfl hc.1
  | lost => exact absurd rfl hc.2
  | expired b => cases hr
  | number n => cases hr

theorem altered_put (s : Store) (db : PathMapDB) (key : Str) (md : Inode) :
    Altered uuid db s db { s.set key (some ⟨md, uuid s.uuids⟩) with uuids := s.uuids + 1 } := by
  refine ⟨⟨Nat.le_refl _, Nat.le_refl _, Nat.le_succ _, fun _ h => h⟩, Or.inr (Or.inr (Or.inr ?_))⟩
  exact ⟨key, ⟨md, uuid s.uuids⟩, s.uuids, by simp, Nat.le_refl _, rfl⟩

theorem putMetadata_alters (hv : versionOf (s.metadata (l.heap a).systemPath) = (l.heap a).keyVersion) :
    Post (reliable uuid) (putMetadata me .update a) (fun _ l' s' => Altered uuid l.pmap s l'.pmap s') l s := by
  refine post_getMdi_bind (Post.bind (Post.call ?_))
  rintro choice ⟨status, version⟩ s' hserve
  obtain ⟨rfl, rfl⟩ := reliable_put hv hserve
  exact post_setMdi_bind (Post.pure (altered_put s _ _ _))

/-- An object with new path permissions is stored. -/
theorem inheritFromParent_alters (hcall : Calls uuid ctx l.pmap s call) (hr : s.metadata key = some r)
    (hkey : (l.heap a).systemPath = key) (hversion : (l.heap a).keyVersion = r.version) (parent : Nat) :
    Post (reliable uuid) (inheritFromParent me env ctx call path a parent)
      (fun _ l' s' => Altered uuid l.pmap s l'.pmap s') l s := by
  refine post_getMdi_bind (post_setMdi_bind ?_)
  refine (putMetadata_alters ?_).then fun err l1 s1 h1 => ?_
  · rw [Local.setObject_heap, if_pos rfl]
    show versionOf (s.metadata (l.heap a).systemPath) = (l.heap a).keyVersion
    rw [hkey, hr, hversion]
    rfl
  · refine Post.ite (fun _ => hcall.keeps _ _ l1 s1 h1) fun _ => ?_
    exact Post.ite (fun _ => Post.pure h1) fun _ => post_getMdi_bind (Post.pure h1)

theorem lookupParentWith_reads (hcall : Calls uuid ctx l.pmap s call) (h : InStep l s) (path : Str) :
    Post (reliable uuid) (lookupParentWith ctx call path)
      (fun _ l' s' => Calm l s l' s' ∨ Altered uuid l.pmap s l'.pmap s') l s := by
  unfold lookupParentWith
  split
  · exact Post.pure (Or.inl (calm_refl h))
  · refine (hcall.reads l _ none rfl h).then ?_
    rintro ⟨err, parent⟩ l1 s1 hout
    have h1 : Calm l s l1 s1 ∨ Altered uuid l.pmap s l1.pmap s1 := hout.imp_left And.left
    refine Post.ite (fun _ => Post.pure h1) fun _ => ?_
    cases parent with
    | none => exact Post.stop
    | some parent => exact post_getMdi_bind (Post.ite (fun _ => Post.pure h1) fun _ => Post.pure h1)

theorem checkStale_reads (hcall : Calls uuid ctx l.pmap s call) (h : InStep l s)
    (hpath : ToSystemPath l.pmap path .LOOKUP (key, stamp)) (hstamp : 0 ≤ stamp) (hb : l.blocked key = false)
    (hr : s.metadata key = some r) (ha : a < l.next) (hkey : (l.heap a).systemPath = key)
    (hmd : (l.heap a).md = r.value) (hversion : (l.heap a).keyVersion = r.version)
    (hinode : r.value.inodeNumber ≠ 0) (htype : r.value.type = .POSIX ∨ r.value.type = .HARDLINK_T) :
    Post (reliable uuid) (checkStale me env ctx call path stamp a) (Outcome uuid ctx path l s) l s := by
  refine post_getMdi_bind (Post.ite (fun _ => ?_) fun hfresh => ?_)
  · refine (lookupParentWith_reads hcall h path).then ?_
    rintro ⟨err, parent⟩ l1 s1 h1
    refine Post.ite (fun herr => Post.pure (h1.elim (fun hc => hc.failed herr.1 _) Or.inr)) fun _ => ?_
    cases parent with
    | none => exact Post.stop
    | some parent =>
      rcases h1 with hc | halt
      · obtain rfl := hc.store
        refine (inheritFromParent_alters (hc.pmap ▸ hcall) hr ?_ ?_ parent).mono ?_
        · rw [hc.heap a ha]
          exact hkey
        · rw [hc.heap a ha]
          exact hversion
        · intro x l2 s2 h2
          rw [hc.pmap] at h2
          exact h2.outcome
      · exact (steady_altered.inheritFromParent hcall.keeps path a parent l1 s1 halt).mono
          fun x l2 s2 h2 => Altered.outcome h2
  · refine post_getMdi_bind (Post.pure (Or.inl ⟨calm_refl h, fun hallowed => ?_⟩))
    rw [hmd] at hfresh hallowed
    exact .found hpath hstamp hb hr hinode htype (Int.not_lt.mp hfresh) hallowed

/-- A link in the cache. -/
theorem InStep.addLink (h : InStep l s) (hb : l.blocked key = false) (hr : s.metadata key = some r)
    (htype : r.value.type = .HARDLINK_S) : Calm l s (((l.alloc key).setObject l.next
      ⟨key, lit "0", { Inode.empty with type := .HARDLINK_S, inodeNumber := r.value.inodeNumber }⟩).setCache key
        (some l.next)) s := by
  have hc := h.alloc key
    ⟨key, lit "0", { Inode.empty with type := .HARDLINK_S, inodeNumber := r.value.inodeNumber }⟩
  refine hc.trans (hc.step.setCache hb ?_)
  rintro a ⟨⟩
  rw [Local.setObject_heap, if_pos rfl]
  refine ⟨Nat.lt_succ_self _, rfl, ?_⟩
  unfold Mirrors
  rw [hr]
  exact Or.inr ⟨htype, rfl, rfl⟩

/-- `database_update` fails, or takes over an entry of the log. -/
theorem databaseUpdate_reads (l : Local) (s : Store) : Post (reliable uuid) databaseUpdate
    (fun err l' s' => (err ≠ 0 ∧ l' = l ∧ s' = s) ∨ Altered uuid l.pmap s l'.pmap s') l s := by
  refine Post.get_bind (Post.bind (Post.call ?_))
  intro choice (entries : Except Int (List DbEntry)) s' hserve
  obtain ⟨-, hserve⟩ := reliable_serve hserve
  obtain ⟨y, hy, he⟩ := Option.map_eq_some_iff.mp hserve
  cases he
  cases entries with
  | error err =>
    refine Post.pure (Or.inl ⟨?_, rfl, rfl⟩)
    cases choice with
    | number n =>
      simp only [Store.databaseUpdate] at hy
      split_ifs at hy
      · cases hy
        decide
      · cases hy
    | unreachable =>
      cases hy
      decide
    | done => cases hy
    | lost => cases hy
    | expired b => cases hy
  | ok entries =>
    have hpos : 0 < entries.length := by
      cases choice with
      | number n =>
        simp only [Store.databaseUpdate] at hy
        split_ifs at hy
        · cases hy
        · cases hy
          rw [List.length_take, List.length_drop]
          omega
      | unreachable => cases hy
      | done => cases hy
      | lost => cases hy
      | expired b => cases hy
    dsimp only
    split
    · exact Post.stop
    · rename_i db hdb
      have hv := updateSnapshot_version hdb
      refine Post.modify_bind (Post.pure (Or.inr ⟨(later_refl _ _).update hdb, Or.inl ?_⟩))
      show l.pmap.snapshotVersion < db.snapshotVersion
      omega

theorem lookupFound_reads (hcall : Calls uuid ctx l.pmap s call) (h : InStep l s)
    (hpath : ToSystemPath l.pmap path .LOOKUP (key, stamp)) (hstamp : 0 ≤ stamp) (hb : l.blocked key = false)
    (ha : a < l.next) (hkey : (l.heap a).systemPath = key) (hm : Mirrors s (l.heap a)) {cached : Bool}
    (hc : cached = false → l.lookupCache key = none) :
    Post (reliable uuid) (lookupFound me env ctx call path key stamp a cached) (Outcome uuid ctx path l s) l s := by
  refine post_getMdi_bind (Post.ite (fun _ => Post.pure ((calm_refl h).failed (by decide) _)) fun hinode => ?_)
  unfold Mirrors at hm
  rw [hkey] at hm
  cases hr : s.metadata key with
  | none =>
    rw [hr] at hm
    exact absurd hm hinode
  | some r =>
    rw [hr] at hm
    have hsame : (l.heap a).md.type = r.value.type ∧ (l.heap a).md.inodeNumber = r.value.inodeNumber := by
      rcases hm with ⟨hmd, -⟩ | ⟨ht, ht', hn⟩
      · exact ⟨by rw [hmd], by rw [hmd]⟩
      · exact ⟨ht'.trans ht.symm, hn⟩
    have hplain : r.value.type = .POSIX ∨ r.value.type = .HARDLINK_T → Post (reliable uuid) (do
        if ¬ cached then cacheAdd key a
        checkStale me env ctx call path stamp a) (Outcome uuid ctx path l s) l s := by
      intro htype
      obtain ⟨hmd, hversion⟩ := hm.resolve_right fun hx => by
        rcases htype with ht | ht <;> rw [ht] at hx <;> cases hx.1
      refine Post.ite (fun hadd => ?_) fun _ =>
        checkStale_reads hcall h hpath hstamp hb hr ha hkey hmd hversion (hsame.2 ▸ hinode) htype
      refine (cacheAdd_calm (hc (by simpa using hadd))).post.then ?_
      rintro _ l1 s1 ⟨rfl, rfl⟩
      have hcalm : Calm l s1 (l.setCache key (some a)) s1 := by
        refine h.setCache hb ?_
        rintro b ⟨⟩
        refine ⟨ha, hkey, ?_⟩
        unfold Mirrors
        rw [hkey, hr]
        exact hm
      have hb1 : (l.setCache key (some a)).blocked key = false := by rwa [setCache_blocked hb]
      refine (checkStale_reads (l := l.setCache key (some a)) hcall hcalm.step hpath hstamp hb1 hr ha hkey hmd
        hversion (hsame.2 ▸ hinode) htype).mono ?_
      intro x l2 s2 hx
      exact hx.after hcalm
    rw [hsame.1]
    cases ht : r.value.type with
    | POSIX => exact hplain (Or.inl ht)
    | HARDLINK_T => exact hplain (Or.inr ht)
    | HARDLINK_S =>
      have htarget : ∀ l1 : Local, Calm l s l1 s → Post (reliable uuid)
          (call (hardlinkKey (l.heap a).md.inodeNumber) (some a)) (Outcome uuid ctx path l s) l1 s := by
        intro l1 hcalm
        refine (hcall.reads l1 _ (some a) hcalm.pmap hcalm.step).mono ?_
        intro x l2 s2 hx
        rcases hx.after hcalm with ⟨hcalm', hset⟩ | halt
        · refine Or.inl ⟨hcalm', fun h0 => ?_⟩
          have hset := hset h0
          rw [hsame.2] at hset
          exact .link hpath hstamp hb hr (hsame.2 ▸ hinode) ht hset
        · exact Or.inr halt
      refine Post.ite (fun hadd => ?_) fun _ => htarget l (calm_refl h)
      have hk := hc (by simpa using hadd)
      refine post_newMetadataInfo_bind (post_setMdi_bind ?_)
      have hlink := h.addLink hb hr ht
      refine (cacheAdd_calm ?_).post.then ?_
      · exact hk
      · rintro _ l1 s1 ⟨rfl, rfl⟩
        refine htarget _ ?_
        simpa [hsame.2] using hlink
    | FORCE_UPDATE =>
      refine (databaseUpdate_reads l s).then fun err l1 s1 h1 => post_cacheInvalidate_bind ?_
      rcases h1 with ⟨herr, rfl, rfl⟩ | halt
      · refine Post.ite (fun _ => Post.pure ((h.invalidate hb).failed herr _)) fun h0 => absurd herr h0
      · refine Post.ite (fun _ => Post.pure (Or.inr halt)) fun _ => ?_
        exact (hcall.keeps path (some a) (l1.setCache key none) s1 halt).mono fun x l2 s2 h2 => Or.inr h2

theorem lookupStored_reads (hcall : Calls uuid ctx l.pmap s call) (h : InStep l s)
    (hpath : ToSystemPath l.pmap path .LOOKUP (key, stamp)) (hstamp : 0 ≤ stamp) (hb : l.blocked key = false)
    (hk : l.lookupCache key = none) :
    Post (reliable uuid) (lookupStored me env ctx call path key stamp) (Outcome uuid ctx path l s) l s := by
  rw [lookupStored_eq]
  refine post_newMetadataInfo_bind ((load_calm h key).post.then ?_)
  rintro err l1 s1 ⟨hcalm, hlt, hcache, hblocked, hread⟩
  rw [← hblocked] at hb
  obtain rfl := hcalm.store
  have hm := hread.mirrors
  obtain ⟨hkey, hread⟩ := hread
  refine Post.ite (fun herr => ?_) fun hne => Post.ite (fun herr => ?_) fun _ => ?_
  · have hzero : (l1.heap l.next).md.inodeNumber = 0 := by
      cases hr : s1.metadata key with
      | none =>
        rw [hr] at hread
        exact hread.2
      | some r =>
        rw [hr] at hread
        exact absurd (herr.symm.trans hread.1) (by decide)
    refine (cacheAdd_calm (hcache ▸ hk)).post.then ?_
    rintro _ l2 s2 ⟨rfl, rfl⟩
    have hadd : Calm l1 s2 (l1.setCache key (some l.next)) s2 := by
      refine hcalm.step.setCache hb ?_
      rintro b ⟨⟩
      exact ⟨hlt, hkey, hm⟩
    refine post_getMdi_bind (Post.ite (fun _ => ?_) fun hinode => absurd hzero hinode)
    exact Post.pure ((hcalm.trans hadd).failed (by decide) _)
  · exfalso
    cases hr : s1.metadata key with
    | none =>
      rw [hr] at hread
      exact hne hread.1
    | some r =>
      rw [hr] at hread
      exact herr hread.1
  · have hblock : Calm l1 s1 (l1.block key) s1 :=
      ⟨rfl, rfl, Nat.le_refl _, fun _ _ => rfl, hcalm.step, fun k hk => block_blocked hk⟩
    refine post_getMdi_bind (Post.ite (fun _ => ?_) fun _ => ?_)
    · exact Post.modify_bind (Post.pure ((hcalm.trans hblock).failed (by decide) _))
    have hp := hcalm.pmap
    exact (lookupFound_reads (hp ▸ hcall) hcalm.step (hp ▸ hpath) hstamp hb hlt hkey hm
      fun _ => hcache ▸ hk).mono fun x l2 s2 hx => hx.after hcalm

/-- Every lookup reads and stores nothing, or changes something for good. If it finds its object and
    stores nothing, the path is settled. -/
theorem lookup_reads (fuel : Nat) (path : Str) (pointer : Option Nat) (h : InStep l s) :
    Post (reliable uuid) (lookup me env ctx fuel path pointer) (Outcome uuid ctx path l s) l s := by
  induction fuel generalizing l path pointer with
  | zero => exact Post.stop
  | succ fuel ih =>
    have hcall : Calls uuid ctx l.pmap s (lookup me env ctx fuel) :=
      ⟨fun l path pointer _ h => ih path pointer h, fun path pointer => steady_altered.lookup fuel path pointer⟩
    refine Post.get_bind ?_
    split
    · exact Post.stop
    · rename_i key stamp hp
      have hpath : ToSystemPath l.pmap path .LOOKUP (key, stamp) := ⟨fuel + 1, hp⟩
      refine Post.ite (fun hneg => ?_) fun hneg => ?_
      · exact Post.pure ((calm_refl h).failed (Int.ne_of_lt hneg) _)
      have hstamp : 0 ≤ stamp := Int.not_lt.mp hneg
      refine (cacheGet_reads h key).then ?_
      rintro entry l1 s1 ⟨hcalm, hsame, hb, hentry⟩
      obtain rfl := hcalm.store
      cases entry with
      | some a =>
        obtain ⟨rfl, hc⟩ := hentry
        obtain ⟨ha, hkey, hm⟩ := h key a hc
        exact lookupFound_reads hcall h hpath hstamp hb ha hkey hm fun hx => by cases hx
      | none =>
        have hp := hcalm.pmap
        rw [← hsame] at hb
        exact (lookupStored_reads (hp ▸ hcall) hcalm.step (hp ▸ hpath) hstamp hb hentry).mono
          fun x l2 s2 hx => hx.after hcalm

/-- A lookup whose key has a record gets to that record. -/
theorem lookup_gets {fuel : Nat} {pointer : Option Nat} {Q : Int × Option Nat → Local → Store → Prop}
    (h : InStep l s) (hb : l.blocked key = false) (hp : toSystemPath l.pmap (fuel + 1) path .LOOKUP = some (key, stamp))
    (hstamp : 0 ≤ stamp) (hr : s.metadata key = some r) (hinode : r.value.inodeNumber ≠ 0)
    (hfound : ∀ l1 a cached, Calm l s l1 s → l1.blocked = l.blocked → a < l1.next → (l1.heap a).systemPath = key →
      Mirrors s (l1.heap a) → (cached = false → l1.lookupCache key = none) → Completes (reliable uuid)
        (lookupFound me env ctx (lookup me env ctx fuel) path key stamp a cached) Q l1 s) :
    Completes (reliable uuid) (lookup me env ctx (fuel + 1) path pointer) Q l s := by
  refine Completes.get_bind ?_
  rw [hp]
  refine Completes.ite (fun hneg => absurd hneg (by omega)) fun _ => ?_
  refine (cacheGet_calm h hb).then ?_
  rintro entry l1 s1 ⟨hcalm, hsame1, -, hentry⟩
  obtain rfl := hcalm.store
  cases entry with
  | some a =>
    obtain ⟨rfl, hc⟩ := hentry
    obtain ⟨ha, hkey, hm⟩ := h key a hc
    exact hfound l1 a true hcalm hsame1 ha hkey hm fun hx => by cases hx
  | none =>
    rw [lookupStored_eq]
    refine ends_newMetadataInfo_bind ((load_calm hcalm.step key).then ?_)
    rintro err l2 s2 ⟨hcalm', hlt, hcache, hblocked, hread⟩
    obtain rfl := hcalm'.store
    have hm := hread.mirrors
    obtain ⟨hkey, hread⟩ := hread
    rw [hr] at hread
    refine Completes.ite (fun herr => absurd (herr.symm.trans hread.1) (by decide)) fun _ => ?_
    refine Completes.ite (fun herr => absurd hread.1 herr) fun _ => ?_
    refine ends_getMdi_bind (Completes.ite (fun h0 => absurd (hread.2.1 ▸ h0) hinode) fun _ => ?_)
    exact hfound l2 l1.next false (hcalm.trans hcalm') (hblocked.trans hsame1) hlt hkey hm fun _ => hcache ▸ hentry

theorem checkStale_fresh {l1 : Local} (hcalm : Calm l s l1 s) (hsame : l1.blocked = l.blocked) (hmd : (l1.heap a).md = r.value)
    (hverified : stamp ≤ r.value.pathPermissionVerified)
    (hallowed : checkPathPermissions ctx r.value.pathPermission = 0) :
    Completes (reliable uuid) (checkStale me env ctx call path stamp a)
      (fun x l' s' => x.1 = 0 ∧ Calm l s l' s' ∧ l'.blocked = l.blocked) l1 s := by
  refine ends_getMdi_bind (Completes.ite (fun hstale => ?_) fun _ => ends_getMdi_bind (Completes.pure ?_))
  · rw [hmd] at hstale
    omega
  · rw [hmd]
    exact ⟨hallowed, hcalm, hsame⟩

/-- A lookup of a settled path finds its object and stores nothing. -/
theorem Settled.lookup {l0 : Local} (h : Settled l0 s ctx path) : ∀ᶠ fuel in Filter.atTop,
    ∀ l pointer, l.pmap = l0.pmap → l.blocked = l0.blocked → InStep l s →
      Completes (reliable uuid) (lookup me env ctx fuel path pointer)
        (fun x l' s' => x.1 = 0 ∧ Calm l s l' s' ∧ l'.blocked = l.blocked) l s := by
  induction h with
  | found hpath hstamp hblocked hr hinode htype hverified hallowed =>
    rename_i path key stamp r
    obtain ⟨n, hn⟩ := hpath
    filter_upwards [Filter.eventually_gt_atTop n] with fuel hfuel l pointer hdb hsame hl
    obtain ⟨fuel, rfl⟩ := Nat.exists_eq_succ_of_ne_zero (by omega : fuel ≠ 0)
    rw [← hsame] at hblocked
    refine lookup_gets hl hblocked (hdb ▸ toSystemPath_le (by omega) hn) hstamp hr hinode ?_
    intro l1 a cached hcalm hsame1 ha hkey hm hc
    have hmirrors := hm
    unfold Mirrors at hm
    rw [hkey, hr] at hm
    obtain ⟨hmd, -⟩ := hm.resolve_right fun hx => by
      rcases htype with ht | ht <;> rw [ht] at hx <;> cases hx.1
    refine ends_getMdi_bind (Completes.ite (fun h0 => absurd (hmd ▸ h0) hinode) fun _ => ?_)
    have hplain : Completes (reliable uuid) (do
        if ¬ cached then cacheAdd key a
        checkStale me env ctx (Fuse.lookup me env ctx fuel) path stamp a)
        (fun x l' s' => x.1 = 0 ∧ Calm l s l' s' ∧ l'.blocked = l.blocked) l1 s := by
      refine Completes.ite (fun hadd => ?_) fun _ => checkStale_fresh hcalm hsame1 hmd hverified hallowed
      refine (cacheAdd_calm (hc (by simpa using hadd))).then ?_
      rintro _ l2 s2 ⟨rfl, rfl⟩
      rw [← hsame1] at hblocked
      refine checkStale_fresh (hcalm.trans (hcalm.step.setCache hblocked ?_))
        ((setCache_blocked hblocked _).trans hsame1) hmd hverified hallowed
      rintro b ⟨⟩
      exact ⟨ha, hkey, hmirrors⟩
    rw [hmd]
    rcases htype with ht | ht <;> rw [ht] <;> exact hplain
  | link hpath hstamp hblocked hr hinode htype htarget ih =>
    rename_i path key stamp r
    obtain ⟨n, hn⟩ := hpath
    have ih := (Filter.tendsto_sub_atTop_nat 1).eventually ih
    filter_upwards [Filter.eventually_gt_atTop n, ih] with fuel hfuel htarget l pointer hdb hsame hl
    obtain ⟨fuel, rfl⟩ := Nat.exists_eq_succ_of_ne_zero (by omega : fuel ≠ 0)
    rw [← hsame] at hblocked
    refine lookup_gets hl hblocked (hdb ▸ toSystemPath_le (by omega) hn) hstamp hr hinode ?_
    intro l1 a cached hcalm hsame1 ha hkey hm hc
    unfold Mirrors at hm
    rw [hkey, hr] at hm
    have hlinked : (l1.heap a).md.type = .HARDLINK_S ∧ (l1.heap a).md.inodeNumber = r.value.inodeNumber := by
      rcases hm with ⟨hmd, -⟩ | ⟨-, ht', hn⟩
      · exact ⟨by rw [hmd, htype], by rw [hmd]⟩
      · exact ⟨ht', hn⟩
    refine ends_getMdi_bind (Completes.ite (fun h0 => absurd (hlinked.2 ▸ h0) hinode) fun _ => ?_)
    have hcall : ∀ l2 : Local, Calm l s l2 s → l2.blocked = l.blocked → Completes (reliable uuid)
        (Fuse.lookup me env ctx fuel (hardlinkKey (l1.heap a).md.inodeNumber) (some a))
        (fun x l' s' => x.1 = 0 ∧ Calm l s l' s' ∧ l'.blocked = l.blocked) l2 s := by
      intro l2 hcalm' hsame2
      rw [hlinked.2]
      refine (htarget l2 (some a) (hcalm'.pmap.trans hdb) (hsame2.trans hsame) hcalm'.step).mono ?_
      rintro x l3 s3 ⟨h0, hx, hsame3⟩
      exact ⟨h0, hcalm'.trans hx, hsame3.trans hsame2⟩
    rw [hlinked.1]
    refine Completes.ite (fun hadd => ?_) fun _ => hcall l1 hcalm hsame1
    refine ends_newMetadataInfo_bind (ends_setMdi_bind ?_)
    rw [← hsame1] at hblocked
    have hlink := hcalm.step.addLink hblocked hr htype
    refine (cacheAdd_calm ?_).then ?_
    · exact hc (by simpa using hadd)
    · rintro _ l2 s2 ⟨rfl, rfl⟩
      refine hcall _ (hcalm.trans ?_) ((setCache_blocked hblocked (some l1.next)).trans hsame1)
      simpa [hlinked.2] using hlink

end Lookup

end HFlat.Fuse.Reading
