/-
  Lookups that find out and store nothing.

  `Finds` says what a lookup of a path returns when no path permission is out of date: the error code and
  the key that the path leads to, through a hard link if need be. It speaks of the metadata under the keys
  and not of their versions, so that it outlives a `Put` of the same metadata. A lookup of such a path reads
  only, and returns an object of that key which shows what is stored (`Finds.lookup`).
-/
import HFlat.Lib.Crash
import HFlat.Fuse.Reading

namespace HFlat.Fuse.Recovery

open HFlat.Lib HFlat.PathMap HFlat.Permission
open HFlat.Replication (KineticRecord StatusCode)
open HFlat.Fuse.Reading

/-- The metadata under a key, whatever their version. -/
def value (s : Store) (key : Str) : Option Inode := (s.metadata key).map KineticRecord.value

/-- A lookup of the path returns the code `err`, after at most `n` rounds and links, and the object of `key`. -/
inductive Finds (db : PathMapDB) (stored : Str → Option Inode) (ctx : Context) : Nat → Str → Int → Str → Prop
  | missing {n : Nat} {path key : Str} {stamp : Int}
      (hpath : toSystemPath db (n + 1) path .LOOKUP = some (key, stamp)) (hstamp : 0 ≤ stamp)
      (hmd : stored key = none) : Finds db stored ctx (n + 1) path (-ENOENT) key
  | found {n : Nat} {path key : Str} {stamp : Int} {md : Inode}
      (hpath : toSystemPath db (n + 1) path .LOOKUP = some (key, stamp)) (hstamp : 0 ≤ stamp)
      (hmd : stored key = some md) (hinode : md.inodeNumber ≠ 0) (htype : md.type = .POSIX ∨ md.type = .HARDLINK_T)
      (hverified : stamp ≤ md.pathPermissionVerified) :
      Finds db stored ctx (n + 1) path (checkPathPermissions ctx md.pathPermission) key
  | link {n : Nat} {path key target : Str} {stamp err : Int} {md : Inode}
      (hpath : toSystemPath db (n + 1) path .LOOKUP = some (key, stamp)) (hstamp : 0 ≤ stamp)
      (hmd : stored key = some md) (hinode : md.inodeNumber ≠ 0) (htype : md.type = .HARDLINK_S)
      (htarget : Finds db stored ctx n (hardlinkKey md.inodeNumber) err target) :
      Finds db stored ctx (n + 1) path err target

section Finds

variable {db : PathMapDB} {stored : Str → Option Inode} {ctx : Context} {path key key' : Str} {n m : Nat}
variable {err err' : Int}

/-- What a lookup is bound to return. -/
theorem Finds.det (h : Finds db stored ctx n path err key) (h' : Finds db stored ctx m path err' key') :
    err = err' ∧ key = key' := by
  induction h generalizing m with
  | missing hpath hstamp hmd =>
    cases h' with
    | missing hpath' hstamp' hmd' =>
      cases ToSystemPath.det ⟨_, hpath⟩ ⟨_, hpath'⟩
      exact ⟨rfl, rfl⟩
    | found hpath' hstamp' hmd' =>
      cases ToSystemPath.det ⟨_, hpath⟩ ⟨_, hpath'⟩
      cases hmd.symm.trans hmd'
    | link hpath' hstamp' hmd' =>
      cases ToSystemPath.det ⟨_, hpath⟩ ⟨_, hpath'⟩
      cases hmd.symm.trans hmd'
  | found hpath hstamp hmd hinode htype hverified =>
    cases h' with
    | missing hpath' hstamp' hmd' =>
      cases ToSystemPath.det ⟨_, hpath⟩ ⟨_, hpath'⟩
      cases hmd.symm.trans hmd'
    | found hpath' hstamp' hmd' =>
      cases ToSystemPath.det ⟨_, hpath⟩ ⟨_, hpath'⟩
      cases hmd.symm.trans hmd'
      exact ⟨rfl, rfl⟩
    | link hpath' hstamp' hmd' hinode' htype' =>
      cases ToSystemPath.det ⟨_, hpath⟩ ⟨_, hpath'⟩
      cases hmd.symm.trans hmd'
      rcases htype with ht | ht <;> cases ht.symm.trans htype'
  | link hpath hstamp hmd hinode htype htarget ih =>
    cases h' with
    | missing hpath' hstamp' hmd' =>
      cases ToSystemPath.det ⟨_, hpath⟩ ⟨_, hpath'⟩
      cases hmd.symm.trans hmd'
    | found hpath' hstamp' hmd' hinode' htype' =>
      cases ToSystemPath.det ⟨_, hpath⟩ ⟨_, hpath'⟩
      cases hmd.symm.trans hmd'
      rcases htype' with ht | ht <;> cases ht.symm.trans htype
    | link hpath' hstamp' hmd' hinode' htype' htarget' =>
      cases ToSystemPath.det ⟨_, hpath⟩ ⟨_, hpath'⟩
      cases hmd.symm.trans hmd'
      exact ih htarget'

end Finds

/-- The path leads to the key of the same name, and no permission on the way has changed. -/
def Plain (db : PathMapDB) (n : Nat) (path : Str) : Prop := toSystemPath db n path .LOOKUP = some (path, 0)

instance (db : PathMapDB) (n : Nat) (path : Str) : Decidable (Plain db n path) :=
  inferInstanceAs (Decidable (_ = _))

/-- Metadata of a file or of a directory, and not a link. -/
structure Ordinary (md : Inode) : Prop where
  number : md.inodeNumber ≠ 0
  type : md.type = .POSIX

section Plain

variable {db : PathMapDB} {stored : Str → Option Inode} {ctx : Context} {path key : Str} {n m : Nat} {err : Int}
variable {md : Inode}

theorem Plain.succ (h : Plain db n path) : ∃ k, n = k + 1 := by
  refine Nat.exists_eq_succ_of_ne_zero ?_
  rintro rfl
  unfold Plain toSystemPath at h
  dsimp only at h
  split at h
  · have htimeStamp : -ENAMETOOLONG = 0 := congrArg Prod.snd (Option.some.inj h)
    exact absurd htimeStamp (by decide)
  · cases h

theorem Plain.missing (h : Plain db n path) (hmd : stored path = none) :
    Finds db stored ctx n path (-ENOENT) path := by
  obtain ⟨k, rfl⟩ := h.succ
  exact .missing h le_rfl hmd

theorem Plain.found (h : Plain db n path) (hmd : stored path = some md) (ho : Ordinary md) :
    Finds db stored ctx n path (checkPathPermissions ctx md.pathPermission) path := by
  obtain ⟨k, rfl⟩ := h.succ
  exact .found h le_rfl hmd ho.number (Or.inl ho.type) (Int.natCast_nonneg _)

/-- What a lookup has found is found all the same when more is stored. -/
theorem Finds.more {stored' : Str → Option Inode} (h : Finds db stored ctx n path err key)
    (hmore : ∀ k md, stored k = some md → stored' k = some md) (herr : err ≠ -ENOENT) :
    Finds db stored' ctx n path err key := by
  induction h with
  | missing hpath hstamp hmd => exact absurd rfl herr
  | found hpath hstamp hmd hinode htype hverified =>
    exact .found hpath hstamp (hmore _ _ hmd) hinode htype hverified
  | link hpath hstamp hmd hinode htype htarget ih =>
    exact .link hpath hstamp (hmore _ _ hmd) hinode htype (ih herr)

end Plain

/-! ## What a client remembers -/

/-- The object is what is stored under its key. A link is cached without its version. -/
def Shows (stored : Str → Option Inode) (x : MetadataInfo) : Prop :=
  match stored x.systemPath with
  | none => x.md.inodeNumber = 0
  | some md => x.md = md ∨
      (md.type = .HARDLINK_S ∧ x.md.type = .HARDLINK_S ∧ x.md.inodeNumber = md.inodeNumber)

/-- The cache shows what is stored, and no key is blocked. -/
structure Reflects (l : Local) (stored : Str → Option Inode) : Prop where
  shows : ∀ key a, l.lookupCache key = some a →
    a < l.next ∧ (l.heap a).systemPath = key ∧ Shows stored (l.heap a)
  free : l.Free

/-- No object and no mapping has changed; the cache may show more, or less. -/
structure Quiet (stored : Str → Option Inode) (l l' : Local) : Prop where
  pmap : l'.pmap = l.pmap
  next : l.next ≤ l'.next
  heap : ∀ a < l.next, l'.heap a = l.heap a
  reflects : Reflects l' stored

section Memory

variable {stored : Str → Option Inode} {l l1 l2 : Local} {key : Str} {a : Nat} {x : MetadataInfo} {md : Inode}

theorem Shows.of_missing (h : Shows stored x) (hkey : x.systemPath = key) (hmd : stored key = none) :
    x.md.inodeNumber = 0 := by
  unfold Shows at h
  rw [hkey, hmd] at h
  exact h

theorem Shows.of_stored (h : Shows stored x) (hkey : x.systemPath = key) (hmd : stored key = some md) : x.md = md ∨
    (md.type = .HARDLINK_S ∧ x.md.type = .HARDLINK_S ∧ x.md.inodeNumber = md.inodeNumber) := by
  unfold Shows at h
  rw [hkey, hmd] at h
  exact h

/-- Only a link is not shown as a whole. -/
theorem Shows.eq (h : Shows stored x) (hkey : x.systemPath = key) (hmd : stored key = some md)
    (htype : md.type ≠ .HARDLINK_S) : x.md = md :=
  (h.of_stored hkey hmd).resolve_right fun hx => htype hx.1

theorem shows_missing (hkey : x.systemPath = key) (hmd : stored key = none) (hx : x.md.inodeNumber = 0) :
    Shows stored x := by
  unfold Shows
  rw [hkey, hmd]
  exact hx

theorem shows_stored (hkey : x.systemPath = key) (hmd : stored key = some md) (hx : x.md = md) :
    Shows stored x := by
  unfold Shows
  rw [hkey, hmd]
  exact Or.inl hx

/-- Another key was written. -/
theorem Shows.congr {stored' : Str → Option Inode} (h : Shows stored x)
    (hkey : stored' x.systemPath = stored x.systemPath) : Shows stored' x := by
  unfold Shows
  rw [hkey]
  exact h

theorem Quiet.refl (h : Reflects l stored) : Quiet stored l l := ⟨rfl, Nat.le_refl _, fun _ _ => rfl, h⟩

theorem Quiet.trans (h : Quiet stored l l1) (h' : Quiet stored l1 l2) : Quiet stored l l2 where
  pmap := h'.pmap.trans h.pmap
  next := h.next.trans h'.next
  heap a ha := (h'.heap a (Nat.lt_of_lt_of_le ha h.next)).trans (h.heap a ha)
  reflects := h'.reflects

/-- The cache forgets a key, or takes in an object that shows what is stored. -/
theorem Reflects.setCache (h : Reflects l stored) {entry : Option Nat}
    (he : ∀ a, entry = some a → a < l.next ∧ (l.heap a).systemPath = key ∧ Shows stored (l.heap a)) :
    Quiet stored l (l.setCache key entry) := by
  refine ⟨rfl, Nat.le_refl _, fun _ _ => rfl, fun k a hk => ?_, h.free.setCache key entry⟩
  rw [Local.setCache_lookupCache] at hk
  split at hk
  · rename_i hkey
    subst hkey
    exact he a hk
  · exact h.shows k a hk

theorem Reflects.invalidate (h : Reflects l stored) (key : Str) : Quiet stored l (l.setCache key none) :=
  h.setCache fun _ he => absurd he (Option.not_mem_none _)

theorem Reflects.add (h : Reflects l stored) (ha : a < l.next) (hkey : (l.heap a).systemPath = key)
    (hs : Shows stored (l.heap a)) : Quiet stored l (l.setCache key (some a)) := by
  refine h.setCache fun b hb => ?_
  obtain rfl := Option.some.inj hb
  exact ⟨ha, hkey, hs⟩

/-- A new object. -/
theorem Reflects.alloc (h : Reflects l stored) (key : Str) (x : MetadataInfo) :
    Quiet stored l ((l.alloc key).setObject l.next x) := by
  have hold : ∀ a < l.next, ((l.alloc key).setObject l.next x).heap a = l.heap a := by
    intro a ha
    rw [Local.setObject_heap, if_neg (Nat.ne_of_lt ha), Local.alloc_heap, if_neg (Nat.ne_of_lt ha)]
  refine ⟨rfl, Nat.le_succ _, hold, fun k a hk => ?_, h.free⟩
  obtain ⟨ha, hkey, hs⟩ := h.shows k a hk
  rw [hold a ha]
  exact ⟨Nat.lt_succ_of_lt ha, hkey, hs⟩

theorem Reflects.new (h : Reflects l stored) (key : Str) : Quiet stored l (l.alloc key) := by
  have hq := h.alloc key ((l.alloc key).heap l.next)
  have he : (l.alloc key).setObject l.next ((l.alloc key).heap l.next) = l.alloc key := by
    unfold Local.setObject
    rw [Function.update_eq_self]
  rwa [he] at hq

/-- A link in the cache. -/
theorem Reflects.addLink (h : Reflects l stored) (hmd : stored key = some md) (htype : md.type = .HARDLINK_S) :
    Quiet stored l (((l.alloc key).setObject l.next
      ⟨key, lit "0", { Inode.empty with type := .HARDLINK_S, inodeNumber := md.inodeNumber }⟩).setCache key
        (some l.next)) := by
  have hq := h.alloc key
    ⟨key, lit "0", { Inode.empty with type := .HARDLINK_S, inodeNumber := md.inodeNumber }⟩
  refine hq.trans (hq.reflects.add (Nat.lt_succ_self _) ?_ ?_)
  · rw [Local.setObject_heap, if_pos rfl]
  · rw [Local.setObject_heap, if_pos rfl]
    unfold Shows
    rw [hmd]
    exact Or.inr ⟨htype, rfl, rfl⟩

end Memory

/-! ## Requests -/

section Rules

variable {sv : Service Req Res Choice Store} {β : Type} {l : Local} {s : Store} {C : Store → Prop}
variable {Q : β → Local → Store → Prop}

theorem survives_getMdi_bind {mdi : Nat} {f : MetadataInfo → Client β} (h : Survives sv C (f (l.heap mdi)) Q l s) :
    Survives sv C (getMdi mdi >>= f) Q l s := h

theorem survives_setMdi_bind {mdi : Nat} {g : MetadataInfo → MetadataInfo} {f : Unit → Client β}
    (h : Survives sv C (f ()) Q (l.setObject mdi (g (l.heap mdi))) s) :
    Survives sv C (setMdi mdi g >>= f) Q l s := h

theorem survives_newMetadataInfo_bind {key : Str} {f : Nat → Client β}
    (h : Survives sv C (f l.next) Q (l.alloc key) s) : Survives sv C (newMetadataInfo key >>= f) Q l s := h

theorem survives_cacheInvalidate_bind {key : Str} {f : Unit → Client β}
    (h : Survives sv C (f ()) Q (l.setCache key none) s) : Survives sv C (cacheInvalidate key >>= f) Q l s := h

end Rules

section Requests

variable {uuid : Nat → Str} {me : Nat} {l : Local} {s : Store} {key : Str} {a : Nat}

theorem cacheGet_finds (h : Reflects l (value s)) (key : Str) :
    Survives (reliable uuid) (· = s) (cacheGet key) (fun entry l' _ => Quiet (value s) l l' ∧
      match entry with
      | some a => l' = l ∧ l.lookupCache key = some a
      | none => l'.lookupCache key = none) l s := by
  refine Survives.get_bind (Survives.ite (fun hb => ?_) fun _ => ?_)
  · rw [h.free key] at hb
    cases hb
  cases hc : l.lookupCache key with
  | none => exact Survives.pure rfl ⟨Quiet.refl h, hc⟩
  | some a =>
    have hexpired : Survives (reliable uuid) (· = s) (perform (.expired key)) (fun _ l' _ => l' = l) l s := by
      refine Survives.call rfl ⟨.expired false, false, s, rfl⟩ fun choice x s' hserve => ?_
      obtain ⟨_, -, he⟩ := Option.map_eq_some_iff.mp (reliable_serve hserve).2
      cases he
      exact ⟨rfl, rfl⟩
    refine hexpired.then fun expired l' s' hs hl => ?_
    change Bool at expired
    obtain rfl := hl
    obtain rfl := hs
    refine Survives.ite (fun _ => ?_) fun _ => Survives.pure rfl ⟨Quiet.refl h, rfl, rfl⟩
    exact survives_cacheInvalidate_bind (Survives.pure rfl ⟨h.invalidate key, by simp⟩)

theorem cacheAdd_finds (hk : l.lookupCache key = none) :
    Survives (reliable uuid) (· = s) (cacheAdd key a) (fun _ l' _ => l' = l.setCache key (some a)) l s := by
  refine Survives.get_bind ?_
  rw [hk]
  exact Survives.modify rfl rfl

/-- Reading a key into a new object. -/
theorem load_finds (h : Reflects l (value s)) (key : Str) :
    Survives (reliable uuid) (· = s) (getMetadata me l.next) (fun err l' _ => Quiet (value s) l l' ∧
      l.next < l'.next ∧ l'.lookupCache = l.lookupCache ∧ (l'.heap l.next).systemPath = key ∧
        Shows (value s) (l'.heap l.next) ∧ err = if value s key = none then -ENOENT else 0) (l.alloc key) s := by
  have hself : (l.alloc key).heap l.next = ⟨key, lit "0", Inode.empty⟩ := by simp
  have hget : Survives (reliable uuid) (· = s) (perform (.get me l.next key)) (fun x l' _ =>
      l' = l.alloc key ∧ x = (s.metadata key).elim (Except.error .REMOTE_NOT_FOUND) Except.ok)
      (l.alloc key) s := by
    refine Survives.call rfl ⟨.done, ?_⟩ fun choice x s' hserve => ?_
    · cases hm : s.metadata key with
      | none => exact ⟨_, s, by simp [reliable, Service.restrict, answers, store, serve, Store.get, hm]; rfl⟩
      | some r => exact ⟨_, s, by simp [reliable, Service.restrict, answers, store, serve, Store.get, hm]; rfl⟩
    · obtain ⟨hc, hserve⟩ := reliable_serve hserve
      obtain ⟨rfl, -, -⟩ := serve_get hserve
      obtain ⟨y, hy, he⟩ := Option.map_eq_some_iff.mp hserve
      cases he
      refine ⟨rfl, rfl, ?_⟩
      cases choice with
      | done =>
        cases hm : s'.metadata key with
        | none =>
          simp only [Store.get, hm] at hy
          exact (Option.some.inj hy).symm
        | some r =>
          simp only [Store.get, hm] at hy
          exact (Option.some.inj hy).symm
      | unreachable => exact absurd rfl hc.1
      | lost => cases hy
      | expired b => cases hy
      | number n => cases hy
  refine survives_getMdi_bind ?_
  rw [hself]
  refine hget.then fun record l' s' hs hl => ?_
  obtain ⟨rfl, rfl⟩ := hl
  obtain rfl := hs
  cases hm : s'.metadata key with
  | none =>
    have hv : value s' key = none := by simp [value, hm]
    refine Survives.pure rfl ⟨h.new key, Nat.lt_succ_self _, rfl, by rw [hself], ?_, by rw [if_pos hv]⟩
    exact shows_missing (by rw [hself]) hv (by rw [hself]; rfl)
  | some r =>
    have hv : value s' key = some r.value := by simp [value, hm]
    have hnew : ((l.alloc key).setObject l.next
        ⟨((l.alloc key).heap l.next).systemPath, r.version, r.value⟩).heap l.next = ⟨key, r.version, r.value⟩ := by
      rw [Local.setObject_heap, if_pos rfl, hself]
    refine survives_setMdi_bind (Survives.pure rfl ⟨h.alloc key _, Nat.lt_succ_self _, rfl, by rw [hnew], ?_, ?_⟩)
    · exact shows_stored (by rw [hnew]) hv (by rw [hnew])
    · rw [if_neg (by rw [hv]; exact Option.some_ne_none _)]

end Requests

/-! ## Lookups -/

/-- The code and the object that a lookup returns. -/
structure Returned (stored : Str → Option Inode) (l : Local) (err : Int) (key : Str) (x : Int × Option Nat)
    (l' : Local) : Prop where
  quiet : Quiet stored l l'
  code : x.1 = err
  object : ∃ a, x.2 = some a ∧ a < l'.next ∧ (l'.heap a).systemPath = key ∧ Shows stored (l'.heap a)

section Lookup

variable {uuid : Nat → Str} {me : Nat} {env : Env} {ctx : Context} {l l1 : Local} {s : Store} {a n : Nat}
variable {path key target : Str} {stamp err : Int} {md : Inode}
variable {call : Str → Option Nat → Client (Int × Option Nat)}

theorem Returned.after {stored : Str → Option Inode} {x : Int × Option Nat} {l' : Local} (h : Quiet stored l l1)
    (h' : Returned stored l1 err key x l') : Returned stored l err key x l' :=
  ⟨h.trans h'.quiet, h'.code, h'.object⟩

theorem checkStale_finds (h : Reflects l (value s)) (ha : a < l.next) (hkey : (l.heap a).systemPath = key)
    (hmd : (l.heap a).md = md) (hs : Shows (value s) (l.heap a)) (hverified : stamp ≤ md.pathPermissionVerified) :
    Survives (reliable uuid) (· = s) (checkStale me env ctx call path stamp a) (fun x l' _ =>
      Returned (value s) l (checkPathPermissions ctx md.pathPermission) key x l') l s := by
  refine survives_getMdi_bind (Survives.ite (fun hstale => ?_) fun _ => survives_getMdi_bind ?_)
  · rw [hmd] at hstale
    exact absurd hverified (Int.not_le.mpr hstale)
  · rw [hmd]
    exact Survives.pure rfl ⟨Quiet.refl h, rfl, a, rfl, ha, hkey, hs⟩

/-- An object that is in use as it is. -/
theorem lookupFound_finds (h : Reflects l (value s)) (ha : a < l.next) (hkey : (l.heap a).systemPath = key)
    (hmd : value s key = some md) (hs : Shows (value s) (l.heap a)) (hinode : md.inodeNumber ≠ 0)
    (htype : md.type = .POSIX ∨ md.type = .HARDLINK_T) (hverified : stamp ≤ md.pathPermissionVerified)
    {cached : Bool} (hc : cached = false → l.lookupCache key = none) :
    Survives (reliable uuid) (· = s) (lookupFound me env ctx call path key stamp a cached) (fun x l' _ =>
      Returned (value s) l (checkPathPermissions ctx md.pathPermission) key x l') l s := by
  have hx : (l.heap a).md = md := hs.eq hkey hmd fun ht => by rcases htype with he | he <;> cases he.symm.trans ht
  refine survives_getMdi_bind (Survives.ite (fun h0 => absurd (hx ▸ h0) hinode) fun _ => ?_)
  have hplain : Survives (reliable uuid) (· = s) (do
      if ¬ cached then cacheAdd key a
      checkStale me env ctx call path stamp a) (fun x l' _ =>
        Returned (value s) l (checkPathPermissions ctx md.pathPermission) key x l') l s := by
    refine Survives.ite (fun hadd => ?_) fun _ => checkStale_finds h ha hkey hx hs hverified
    refine (cacheAdd_finds (hc (by simpa using hadd))).then fun _ l1 s1 hs1 hl1 => ?_
    obtain rfl := hl1
    obtain rfl := hs1
    have hq := h.add ha hkey hs
    exact (checkStale_finds hq.reflects (l := l.setCache key (some a)) ha hkey hx hs hverified).mono
      (fun _ h => h) fun x l2 s2 _ hr => hr.after hq
  rw [hx]
  rcases htype with ht | ht <;> rw [ht] <;> exact hplain

/-- A link leads on to its target. -/
theorem lookupFound_follows (h : Reflects l (value s)) (hkey : (l.heap a).systemPath = key)
    (hmd : value s key = some md) (hs : Shows (value s) (l.heap a)) (hinode : md.inodeNumber ≠ 0)
    (htype : md.type = .HARDLINK_S) {cached : Bool} (hc : cached = false → l.lookupCache key = none)
    (hcall : ∀ l1 pointer, Quiet (value s) l l1 → Survives (reliable uuid) (· = s)
      (call (hardlinkKey md.inodeNumber) pointer) (fun x l' _ => Returned (value s) l1 err target x l') l1 s) :
    Survives (reliable uuid) (· = s) (lookupFound me env ctx call path key stamp a cached) (fun x l' _ =>
      Returned (value s) l err target x l') l s := by
  have hx : (l.heap a).md.type = .HARDLINK_S ∧ (l.heap a).md.inodeNumber = md.inodeNumber := by
    rcases hs.of_stored hkey hmd with he | ⟨-, ht, hn⟩
    · exact ⟨by rw [he, htype], by rw [he]⟩
    · exact ⟨ht, hn⟩
  have htarget : ∀ l1, Quiet (value s) l l1 → Survives (reliable uuid) (· = s)
      (call (hardlinkKey (l.heap a).md.inodeNumber) (some a)) (fun x l' _ =>
        Returned (value s) l err target x l') l1 s := by
    intro l1 hq
    rw [hx.2]
    exact (hcall l1 (some a) hq).mono (fun _ h => h) fun x l2 s2 _ hr => hr.after hq
  refine survives_getMdi_bind (Survives.ite (fun h0 => absurd (hx.2 ▸ h0) hinode) fun _ => ?_)
  rw [hx.1]
  refine Survives.ite (fun hadd => ?_) fun _ => htarget l (Quiet.refl h)
  refine survives_newMetadataInfo_bind (survives_setMdi_bind ?_)
  refine (cacheAdd_finds ?_).then fun _ l1 s1 hs1 hl1 => ?_
  · exact hc (by simpa using hadd)
  · obtain rfl := hl1
    obtain rfl := hs1
    refine htarget _ ?_
    have hlink := h.addLink hmd htype
    simpa [hx.2] using hlink

/-- A lookup gets to the object of its key. -/
theorem lookup_gets (h : Reflects l (value s)) {pointer : Option Nat}
    (hp : toSystemPath l.pmap (n + 1) path .LOOKUP = some (key, stamp)) (hstamp : 0 ≤ stamp)
    (hinode : ∀ md, value s key = some md → md.inodeNumber ≠ 0)
    (hfound : ∀ l1 a cached, Quiet (value s) l l1 → a < l1.next → (l1.heap a).systemPath = key →
      Shows (value s) (l1.heap a) → (cached = false → value s key ≠ none → l1.lookupCache key = none) →
        Survives (reliable uuid) (· = s) (lookupFound me env ctx (lookup me env ctx n) path key stamp a cached)
          (fun x l' _ => Returned (value s) l err target x l') l1 s) :
    Survives (reliable uuid) (· = s) (lookup me env ctx (n + 1) path pointer)
      (fun x l' _ => Returned (value s) l err target x l') l s := by
  refine Survives.get_bind ?_
  rw [hp]
  refine Survives.ite (fun hneg => absurd hstamp (Int.not_le.mpr hneg)) fun _ => ?_
  refine (cacheGet_finds h key).then fun entry l1 s1 hs1 h1 => ?_
  obtain rfl := hs1
  obtain ⟨hq, hentry⟩ := h1
  cases entry with
  | some a =>
    obtain ⟨rfl, hc⟩ := hentry
    obtain ⟨ha, hkey, hshows⟩ := h.shows key a hc
    exact hfound l1 a true hq ha hkey hshows fun hx => absurd hx (by decide)
  | none =>
    rw [lookupStored_eq]
    refine survives_newMetadataInfo_bind ((load_finds hq.reflects key).then fun err' l2 s2 hs2 h2 => ?_)
    obtain rfl := hs2
    obtain ⟨hq', hlt, hcache, hkey, hshows, rfl⟩ := h2
    have hnone : l2.lookupCache key = none := by
      rw [hcache]
      exact hentry
    have hq2 := hq.trans hq'
    refine Survives.ite (fun herr => ?_) fun herr => Survives.ite (fun hne => ?_) fun _ => ?_
    · -- the object of a missing key is cached as well
      have hmissing : value s2 key = none := by
        by_contra hv
        rw [if_neg hv] at herr
        exact absurd herr (by decide)
      refine (cacheAdd_finds hnone).then fun _ l3 s3 hs3 h3 => ?_
      obtain rfl := h3
      obtain rfl := hs3
      exact hfound _ l1.next false (hq2.trans (hq2.reflects.add hlt hkey hshows)) hlt hkey hshows
        fun _ hv => absurd hmissing hv
    · by_cases hv : value s2 key = none
      · exact absurd (if_pos hv) herr
      · exact absurd (if_neg hv) hne
    · refine survives_getMdi_bind (Survives.ite (fun h0 => ?_) fun _ => ?_)
      · obtain ⟨md, hmd⟩ := Option.ne_none_iff_exists'.mp fun hv => herr (if_pos hv)
        have hn : (l2.heap l1.next).md.inodeNumber = md.inodeNumber := by
          rcases hshows.of_stored hkey hmd with he | ⟨-, -, hn⟩
          · rw [he]
          · exact hn
        exact absurd (hn.symm.trans h0) (hinode md hmd)
      · exact hfound l2 l1.next false hq2 hlt hkey hshows fun _ _ => hnone

/-- A lookup returns what `Finds` says, and reads only. -/
theorem Finds.lookup {db : PathMapDB} (hf : Finds db (value s) ctx n path err target) (hdb : l.pmap = db)
    (h : Reflects l (value s)) (me : Nat) (env : Env) (pointer : Option Nat) :
    Survives (reliable uuid) (· = s) (lookup me env ctx n path pointer)
      (fun x l' _ => Returned (value s) l err target x l') l s := by
  induction hf generalizing l pointer with
  | missing hpath hstamp hmd =>
    refine lookup_gets h (hdb ▸ hpath) hstamp (by simp [hmd]) fun l1 a cached hq ha hkey hs _ => ?_
    refine survives_getMdi_bind (Survives.ite (fun _ => ?_) fun hne => absurd (hs.of_missing hkey hmd) hne)
    exact Survives.pure rfl ⟨hq, rfl, a, rfl, ha, hkey, hs⟩
  | found hpath hstamp hmd hinode htype hverified =>
    refine lookup_gets h (hdb ▸ hpath) hstamp (by simpa [hmd] using hinode) fun l1 a cached hq ha hkey hs hc => ?_
    refine (lookupFound_finds hq.reflects ha hkey hmd hs hinode htype hverified fun hx => ?_).mono
      (fun _ h => h) fun x l2 s2 _ hr => hr.after hq
    exact hc hx (by rw [hmd]; exact Option.some_ne_none _)
  | link hpath hstamp hmd hinode htype htarget ih =>
    refine lookup_gets h (hdb ▸ hpath) hstamp (by simpa [hmd] using hinode) fun l1 a cached hq ha hkey hs hc => ?_
    refine (lookupFound_follows hq.reflects hkey hmd hs hinode htype (fun hx => ?_) ?_).mono
      (fun _ h => h) fun x l2 s2 _ hr => hr.after hq
    · exact hc hx (by rw [hmd]; exact Option.some_ne_none _)
    · intro l2 pointer' hq2
      exact ih (hq2.pmap.trans (hq.pmap.trans hdb)) hq2.reflects pointer'

end Lookup

end HFlat.Fuse.Recovery
