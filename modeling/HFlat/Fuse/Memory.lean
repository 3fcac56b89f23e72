/-
  What lookups do to the memory of a client, and what they return.

  A `Discipline` says which objects a client may keep, and why the requests of a lookup keep to it:
  reading a record into a new object, and storing an object that has inherited path permissions.
  It also says which key a path may lead to. `lookup_looks` derives what every lookup leaves and
  returns. Objects of `lost` are exempt: nothing refers to them any more.
-/
import HFlat.Fuse.Lookup

namespace HFlat.Fuse

open HFlat.Lib HFlat.PathMap HFlat.Permission
open HFlat.Replication (KineticRecord StatusCode)

/-- How a protocol goes with the memory of a client: when lookups may run, and what holds of its
    objects. -/
structure Discipline {T : Type} (A : Protocol Req Res T) (me : Nat) (env : Env) where
  /-- states of the protocol in which a lookup may run -/
  Idle : T → Prop
  /-- snapshots of the path map that the client may have -/
  Snapshot : PathMapDB → Prop
  Ok : MetadataInfo → T → Prop
  /-- the path leads to the key -/
  Leads : Str → Str → Prop
  fresh : ∀ {key t}, Idle t → Ok ⟨key, lit "0", Inode.empty⟩ t
  source : ∀ {x t}, Idle t → Ok x t → x.md.type = .HARDLINK_S → x.md.inodeNumber ≠ 0 →
    Ok ⟨x.systemPath, lit "0", { Inode.empty with
      type := .HARDLINK_S, inodeNumber := x.md.inodeNumber }⟩ t
  expired : ∀ {t key}, Idle t → A.allowed t (.expired key) ∧ ∀ x, A.next t (.expired key) x = t
  refresh : ∀ {t version}, Idle t →
    A.allowed t (.databaseUpdate version) ∧ ∀ x, A.next t (.databaseUpdate version) x = t
  update : ∀ {t db db' entries}, Idle t → Snapshot db →
    A.answers t (.databaseUpdate db.snapshotVersion) (Except.ok entries) →
    updateSnapshot db entries db.snapshotVersion (db.snapshotVersion + entries.length) = some db' →
    Snapshot db'
  get_allowed : ∀ {t a key}, Idle t → A.allowed t (.get me a key)
  get : ∀ {t a key x}, Idle t → A.answers t (.get me a key) x → Idle (A.next t (.get me a key) x) ∧
    (∀ y, Ok y t → Ok y (A.next t (.get me a key) x)) ∧
    ∀ record, x = .ok record → Ok ⟨key, record.version, record.value⟩ (A.next t (.get me a key) x)
  put_allowed : ∀ {t a x parent}, Idle t → Ok x t → Ok parent t → x.md.inodeNumber ≠ 0 →
    A.allowed t (.put me a .update x.systemPath x.keyVersion (inheritPathPermissions env x.md parent.md))
  put : ∀ {t a x parent status version}, Idle t → Ok x t → Ok parent t → x.md.inodeNumber ≠ 0 →
    A.answers t (.put me a .update x.systemPath x.keyVersion (inheritPathPermissions env x.md parent.md))
      (status, version) →
    Idle (A.next t (.put me a .update x.systemPath x.keyVersion (inheritPathPermissions env x.md parent.md))
      (status, version)) ∧
    (∀ y, Ok y t → Ok y (A.next t (.put me a .update x.systemPath x.keyVersion
      (inheritPathPermissions env x.md parent.md)) (status, version))) ∧
    Ok ⟨x.systemPath, if status = .OK then version else x.keyVersion,
      inheritPathPermissions env x.md parent.md⟩ (A.next t (.put me a .update x.systemPath x.keyVersion
        (inheritPathPermissions env x.md parent.md)) (status, version))
  resolve : ∀ {db fuel path key stamp}, Snapshot db → toSystemPath db fuel path .LOOKUP = some (key, stamp) →
    ¬ stamp < 0 → Leads path key
  link : ∀ {t x path key}, Ok x t → x.md.type = .HARDLINK_S → x.md.inodeNumber ≠ 0 →
    Leads path x.systemPath → Leads (hardlinkKey x.md.inodeNumber) key → Leads path key

namespace Memory

variable {T : Type} {A : Protocol Req Res T} {me : Nat} {env : Env} {D : Discipline A me env}
variable {lost : Set Nat} {l : Local} {t : T}

/-! ## Memory -/

/-- The memory of a client, except for the objects in `lost`. -/
structure Sane (D : Discipline A me env) (lost : Set Nat) (l : Local) (t : T) : Prop where
  idle : D.Idle t
  snapshot : D.Snapshot l.pmap
  ok : ∀ a, a ∉ lost → D.Ok (l.heap a) t
  cache : ∀ key a, l.lookupCache key = some a → a ∉ lost ∧ a < l.next ∧ (l.heap a).systemPath = key
  used : ∀ a ∈ lost, a < l.next

theorem Sane.next_live (h : Sane D lost l t) : l.next ∉ lost := fun hn => by
  have := h.used _ hn
  omega

/-- No cache entry refers to the object. -/
def Uncached (l : Local) (a : Nat) : Prop := ∀ key, l.lookupCache key ≠ some a

/-- The cache has no new entries. -/
def Shrunk (l l' : Local) : Prop := ∀ key a, l'.lookupCache key = some a → l.lookupCache key = some a

theorem shrunk_invalidate (l : Local) (key : Str) : Shrunk l (l.setCache key none) := by
  intro key' a ha
  rw [Local.setCache_lookupCache] at ha
  split at ha
  · cases ha
  · exact ha

theorem Sane.setObject (h : Sane D lost l t) {a : Nat} {x : MetadataInfo} (hx : a ∉ lost → D.Ok x t)
    (hp : x.systemPath = (l.heap a).systemPath ∨ Uncached l a) : Sane D lost (l.setObject a x) t := by
  refine ⟨h.idle, h.snapshot, fun b hb => ?_, fun key b hb => ?_, h.used⟩
  · rw [Local.setObject_heap]
    split
    · rename_i he
      subst he
      exact hx hb
    · exact h.ok b hb
  · obtain ⟨hlive, hlt, hpath⟩ := h.cache key b hb
    refine ⟨hlive, hlt, ?_⟩
    rw [Local.setObject_heap]
    split
    · rename_i he
      subst he
      rcases hp with hp | hp
      · exact hp.trans hpath
      · exact absurd hb (hp key)
    · exact hpath

theorem Sane.alloc (h : Sane D lost l t) (key : Str) : Sane D lost (l.alloc key) t := by
  refine ⟨h.idle, h.snapshot, fun a ha => ?_, fun key b hb => ?_, fun a ha => Nat.lt_succ_of_lt (h.used a ha)⟩
  · rw [Local.alloc_heap]
    split
    · exact D.fresh h.idle
    · exact h.ok a ha
  · obtain ⟨hlive, hlt, hpath⟩ := h.cache key b hb
    refine ⟨hlive, Nat.lt_succ_of_lt hlt, ?_⟩
    rw [Local.alloc_heap, if_neg (by omega)]
    exact hpath

theorem Sane.invalidate (h : Sane D lost l t) (key : Str) : Sane D lost (l.setCache key none) t :=
  ⟨h.idle, h.snapshot, h.ok, fun key' a ha => h.cache key' a (shrunk_invalidate l key key' a ha), h.used⟩

theorem Sane.block (h : Sane D lost l t) (key : Str) : Sane D lost (l.block key) t :=
  ⟨h.idle, h.snapshot, h.ok, h.cache, h.used⟩

theorem Sane.setPmap (h : Sane D lost l t) {db : PathMapDB} (hdb : D.Snapshot db) :
    Sane D lost { l with pmap := db } t :=
  ⟨h.idle, hdb, h.ok, h.cache, h.used⟩

/-- The protocol goes on, and objects stay what they are. -/
theorem Sane.stage (h : Sane D lost l t) {t' : T} (hidle : D.Idle t') (hok : ∀ x, D.Ok x t → D.Ok x t') :
    Sane D lost l t' :=
  ⟨hidle, h.snapshot, fun a ha => hok _ (h.ok a ha), h.cache, h.used⟩

/-! ## Objects that keep what they stand for -/

theorem extends_refl (l : Local) : Extends l l := ⟨Nat.le_refl _, fun _ _ => ⟨rfl, rfl⟩⟩

theorem extends_trans {l' l'' : Local} (h : Extends l l') (h' : Extends l' l'') : Extends l l'' := by
  refine ⟨h.next_le.trans h'.next_le, fun a ha => ?_⟩
  obtain ⟨hp, hc⟩ := h.same a ha
  obtain ⟨hp', hc'⟩ := h'.same a (Nat.lt_of_lt_of_le ha h.next_le)
  exact ⟨hp'.trans hp, hc'.trans hc⟩

/-- What follows leaves the objects alone. -/
theorem extends_heap {l' l'' : Local} (h : Extends l l') (hn : l''.next = l'.next) (hh : l''.heap = l'.heap) :
    Extends l l'' := by
  refine extends_trans h ⟨Nat.le_of_eq hn.symm, fun a _ => ?_⟩
  rw [hh]
  exact ⟨rfl, rfl⟩

theorem extends_alloc (l : Local) (key : Str) : Extends l (l.alloc key) := by
  refine ⟨Nat.le_succ _, fun a ha => ?_⟩
  rw [Local.alloc_heap, if_neg (by omega)]
  exact ⟨rfl, rfl⟩

theorem extends_setObject {a : Nat} {x : MetadataInfo} (hp : x.systemPath = (l.heap a).systemPath)
    (hc : x.md.core = (l.heap a).md.core) : Extends l (l.setObject a x) := by
  refine ⟨Nat.le_refl _, fun b _ => ?_⟩
  rw [Local.setObject_heap]
  split
  · rename_i he
    rw [he]
    exact ⟨hp, hc⟩
  · exact ⟨rfl, rfl⟩

/-- A new object is not one of those in use before. -/
theorem extends_new {l0 l' : Local} (h : Extends l0 l) {a : Nat} (ha : l0.next ≤ a) (hn : l.next ≤ l'.next)
    (hother : ∀ b, b ≠ a → l'.heap b = l.heap b) : Extends l0 l' := by
  refine ⟨h.next_le.trans hn, fun b hb => ?_⟩
  rw [hother b (by omega)]
  exact h.same b hb

/-! ## The parts of a lookup -/

theorem cacheGet_sane (h : Sane D lost l t) (key : Str) : Conforms A (cacheGet key) (fun r l' t' =>
    Sane D lost l' t' ∧ l'.next = l.next ∧ l'.heap = l.heap ∧
      ∀ a, r = some a → a ∉ lost ∧ a < l'.next ∧ (l'.heap a).systemPath = key) l t := by
  refine Conforms.get_bind (Conforms.ite (fun _ => conforms_wait) fun _ => ?_)
  cases hc : l.lookupCache key with
  | none => exact Conforms.pure ⟨h, rfl, rfl, by simp⟩
  | some mdi =>
    have hq : A.allowed t (.expired key) ∧ ∀ x, A.next t (.expired key) x = t := D.expired h.idle
    refine (Conforms.call (Q := fun _ l' t' => l' = l ∧ t' = t) hq.1 fun x _ => ⟨rfl, hq.2 x⟩).then ?_
    rintro (expired : Bool) l' t' ⟨rfl, rfl⟩
    refine Conforms.ite (fun _ => ?_) fun _ => ?_
    · exact conforms_cacheInvalidate_bind (Conforms.pure ⟨h.invalidate key, rfl, rfl, by simp⟩)
    · refine Conforms.pure ⟨h, rfl, rfl, fun a ha => ?_⟩
      cases ha
      exact h.cache key mdi hc

theorem cacheAdd_sane (h : Sane D lost l t) {key : Str} {mdi : Nat} (hm : mdi ∉ lost ∧ mdi < l.next)
    (hk : (l.heap mdi).systemPath = key) : Conforms A (cacheAdd key mdi)
      (fun _ l' t' => Sane D lost l' t' ∧ l'.next = l.next ∧ l'.heap = l.heap) l t := by
  refine Conforms.get_bind ?_
  cases l.lookupCache key with
  | some _ => exact conforms_exit
  | none =>
    refine Conforms.modify ⟨⟨h.idle, h.snapshot, h.ok, fun key' a ha => ?_, h.used⟩, rfl, rfl⟩
    rw [Local.setCache_lookupCache] at ha
    split at ha
    · rename_i he
      cases ha
      rw [he]
      exact ⟨hm.1, hm.2, hk⟩
    · exact h.cache key' a ha

theorem databaseUpdate_sane (h : Sane D lost l t) : Conforms A databaseUpdate (fun _ l' t' =>
    Sane D lost l' t' ∧ l'.next = l.next ∧ l'.heap = l.heap) l t := by
  refine Conforms.get_bind ?_
  have hq : A.allowed t (.databaseUpdate l.pmap.snapshotVersion) ∧
      ∀ x, A.next t (.databaseUpdate l.pmap.snapshotVersion) x = t := D.refresh h.idle
  refine (Conforms.call (Q := fun x l' t' => l' = l ∧ t' = t ∧
    A.answers t (.databaseUpdate l.pmap.snapshotVersion) x) hq.1 fun x hx => ⟨rfl, hq.2 x, hx⟩).then ?_
  rintro (entries : Except Int (List DbEntry)) l' t' ⟨rfl, rfl, hx⟩
  cases entries with
  | error err => exact Conforms.pure ⟨h, rfl, rfl⟩
  | ok entries =>
    dsimp only
    split
    · exact conforms_exit
    · rename_i db hdb
      exact Conforms.modify_bind (Conforms.pure ⟨h.setPmap (D.update h.idle h.snapshot hx hdb), rfl, rfl⟩)

/-- Reading a key into an object. -/
theorem getMetadata_sane (h : Sane D lost l t) (a : Nat) : Conforms A (getMetadata me a) (fun _ l' t' =>
    Sane D lost l' t' ∧ l'.next = l.next ∧ (l'.heap a).systemPath = (l.heap a).systemPath ∧
      (∀ b, b ≠ a → l'.heap b = l.heap b) ∧ Shrunk l l') l t := by
  refine conforms_getMdi_bind ?_
  refine (Conforms.call (Q := fun x l' t' => l' = l ∧ A.answers t (.get me a (l.heap a).systemPath) x ∧
    t' = A.next t (.get me a (l.heap a).systemPath) x) (D.get_allowed h.idle) fun x hx => ⟨rfl, hx, rfl⟩).then ?_
  rintro (x : Except StatusCode (KineticRecord Inode)) l' t' ⟨rfl, hx, rfl⟩
  obtain ⟨hidle, hok, hread⟩ := D.get h.idle hx
  have h' := h.stage hidle hok
  cases x with
  | ok record =>
    refine conforms_setMdi_bind (Conforms.pure ⟨h'.setObject (fun _ => hread record rfl) (Or.inl rfl), rfl,
      ?_, fun b hb => ?_, fun _ _ ha => ha⟩)
    · rw [Local.setObject_heap, if_pos rfl]
    · rw [Local.setObject_heap, if_neg hb]
  | error code => cases code <;> exact Conforms.pure ⟨h', rfl, rfl, fun _ _ => rfl, fun _ _ ha => ha⟩

/-- Storing an object that has inherited path permissions. -/
theorem putInherited_sane (h : Sane D lost l t) {mdi parent : Nat} (hm : mdi ∉ lost) (hp : parent ∉ lost)
    (hn : (l.heap mdi).md.inodeNumber ≠ 0) :
    Conforms A (putMetadata me .update mdi) (fun _ l' t' => Sane D lost l' t' ∧ Extends l l')
      (l.setObject mdi { l.heap mdi with
        md := inheritPathPermissions env (l.heap mdi).md (l.heap parent).md }) t := by
  refine conforms_getMdi_bind ?_
  rw [Local.setObject_heap, if_pos rfl]
  refine (Conforms.call (Q := fun x l' t' => l' = l.setObject mdi { l.heap mdi with
      md := inheritPathPermissions env (l.heap mdi).md (l.heap parent).md } ∧
    A.answers t (.put me mdi .update (l.heap mdi).systemPath (l.heap mdi).keyVersion
      (inheritPathPermissions env (l.heap mdi).md (l.heap parent).md)) x ∧
    t' = A.next t (.put me mdi .update (l.heap mdi).systemPath (l.heap mdi).keyVersion
      (inheritPathPermissions env (l.heap mdi).md (l.heap parent).md)) x)
    (D.put_allowed h.idle (h.ok mdi hm) (h.ok parent hp) hn) fun x hx => ⟨rfl, hx, rfl⟩).then ?_
  rintro ⟨status, version⟩ l' t' ⟨rfl, hx, rfl⟩
  obtain ⟨hidle, hok, hself⟩ := D.put h.idle (h.ok mdi hm) (h.ok parent hp) hn hx
  have h' := h.stage hidle hok
  by_cases hs : status = .OK
  · subst hs
    rw [if_pos rfl] at hself
    refine conforms_setMdi_bind (Conforms.pure ?_)
    have hset : (l.setObject mdi { l.heap mdi with
        md := inheritPathPermissions env (l.heap mdi).md (l.heap parent).md }).setObject mdi
        { (l.setObject mdi { l.heap mdi with
            md := inheritPathPermissions env (l.heap mdi).md (l.heap parent).md }).heap mdi with
          keyVersion := version } =
        l.setObject mdi ⟨(l.heap mdi).systemPath, version,
          inheritPathPermissions env (l.heap mdi).md (l.heap parent).md⟩ := by
      rw [Local.setObject_heap, if_pos rfl]
      unfold Local.setObject
      rw [Function.update_idem]
    rw [hset]
    exact ⟨h'.setObject (fun _ => hself) (Or.inl rfl), extends_setObject rfl (core_inherit env _ _)⟩
  · rw [if_neg hs] at hself
    have hset := (h'.setObject (a := mdi) (fun _ => hself) (Or.inl rfl)).invalidate (l.heap mdi).systemPath
    have hext : Extends l (l.setObject mdi { l.heap mdi with
        md := inheritPathPermissions env (l.heap mdi).md (l.heap parent).md }) :=
      extends_setObject rfl (core_inherit env _ _)
    cases status <;> first
      | exact absurd rfl hs
      | exact conforms_cacheInvalidate_bind (Conforms.pure
          ⟨hset, extends_heap hext rfl rfl⟩)

/-! ## Lookups -/

section Lookups

variable {ctx : Context} {lookup : Str → Option Nat → Client (Int × Option Nat)}

/-- The object is in use and not lost. -/
def InUse (lost : Set Nat) (l : Local) (mdi : Nat) : Prop := mdi ∉ lost ∧ mdi < l.next

theorem InUse.mono {l' : Local} {mdi : Nat} (h : InUse lost l mdi) (hle : l.next ≤ l'.next) :
    InUse lost l' mdi := ⟨h.1, Nat.lt_of_lt_of_le h.2 hle⟩

/-- What a lookup of `path` from memory `l` leaves and returns. -/
structure Found (D : Discipline A me env) (lost : Set Nat) (path : Str) (l : Local) (r : Int × Option Nat)
    (l' : Local) (t' : T) : Prop where
  sane : Sane D lost l' t'
  inUse : ∀ a, r.2 = some a → InUse lost l' a
  ext : Extends l l'
  found : r.1 = 0 → ∃ a, r.2 = some a ∧ D.Leads path (l'.heap a).systemPath ∧
    (l'.heap a).md.inodeNumber ≠ 0 ∧ (l'.heap a).md.type ≠ .HARDLINK_S ∧ (l'.heap a).md.type ≠ .FORCE_UPDATE

/-- An object that a lookup is about to check: it may be what the lookup returns. -/
structure Candidate (D : Discipline A me env) (lost : Set Nat) (path : Str) (l : Local) (mdi : Nat) : Prop where
  inUse : InUse lost l mdi
  leads : D.Leads path (l.heap mdi).systemPath
  inode : (l.heap mdi).md.inodeNumber ≠ 0
  link : (l.heap mdi).md.type ≠ .HARDLINK_S
  force : (l.heap mdi).md.type ≠ .FORCE_UPDATE

theorem Candidate.mono {path : Str} {l' : Local} {mdi : Nat} (h : Candidate D lost path l mdi)
    (he : Extends l l') : Candidate D lost path l' mdi := by
  obtain ⟨hp, hc⟩ := he.same mdi h.inUse.2
  refine ⟨h.inUse.mono he.next_le, ?_, ?_, ?_, ?_⟩
  · rw [hp]
    exact h.leads
  · rw [inode_of_core hc]
    exact h.inode
  · rw [type_of_core hc]
    exact h.link
  · rw [type_of_core hc]
    exact h.force

theorem found_error {path : Str} {l0 : Local} (h : Sane D lost l t) (he : Extends l0 l) {mdi : Option Nat}
    (hm : ∀ a, mdi = some a → InUse lost l a) {err : Int} (herr : err ≠ 0) :
    Found D lost path l0 (err, mdi) l t :=
  ⟨h, hm, he, fun h0 => absurd h0 herr⟩

theorem inUse_some {mdi : Nat} (hm : InUse lost l mdi) : ∀ a, some mdi = some a → InUse lost l a := by
  intro a ha
  cases ha
  exact hm

theorem found_some {path : Str} {l0 : Local} (h : Sane D lost l t) (he : Extends l0 l) {mdi : Nat}
    (hm : Candidate D lost path l mdi) (err : Int) : Found D lost path l0 (err, some mdi) l t :=
  ⟨h, inUse_some hm.inUse, he, fun _ => ⟨mdi, rfl, hm.leads, hm.inode, hm.link, hm.force⟩⟩

/-- A first part has allocated objects. -/
theorem Found.after {path : Str} {l0 l' : Local} {r : Int × Option Nat} {t' : T} (he : Extends l0 l)
    (h : Found D lost path l r l' t') : Found D lost path l0 r l' t' :=
  ⟨h.sane, h.inUse, extends_trans he h.ext, h.found⟩

/-- What is shown of `lookup`, given for the lookups that it makes itself: an error with the pointer it was
    given, or an object in use. -/
def Looks (D : Discipline A me env) (lost : Set Nat) (lookup : Str → Option Nat → Client (Int × Option Nat)) :
    Prop :=
  ∀ path pointer l t, Sane D lost l t → Conforms A (lookup path pointer)
    (fun r l' t' => (r.1 ≠ 0 ∧ r.2 = pointer ∧ Sane D lost l' t' ∧ Extends l l') ∨
      Found D lost path l r l' t') l t

/-- A lookup that returns to the object at hand if the path cannot be resolved. -/
theorem Looks.again (hl : Looks D lost lookup) (h : Sane D lost l t) {l0 : Local} (he : Extends l0 l)
    {mdi : Nat} (hm : InUse lost l mdi) (path : Str) : Conforms A (lookup path (some mdi))
      (fun r l' t' => Found D lost path l0 r l' t') l t := by
  refine (hl path (some mdi) l t h).mono ?_
  rintro ⟨err, r⟩ l' t' (⟨herr, rfl, h', he'⟩ | h')
  · exact found_error h' (extends_trans he he') (inUse_some (hm.mono he'.next_le)) herr
  · exact h'.after he

theorem Looks.new (hl : Looks D lost lookup) (h : Sane D lost l t) (path : Str) :
    Conforms A (lookup path none) (fun r l' t' => Found D lost path l r l' t') l t := by
  refine (hl path none l t h).mono ?_
  rintro ⟨err, r⟩ l' t' (⟨herr, rfl, h', he'⟩ | h')
  · exact found_error h' he' (by simp) herr
  · exact h'

/-- What a lookup of the parent of `path` leaves and returns. -/
structure FoundParent (D : Discipline A me env) (lost : Set Nat) (path : Str) (l : Local)
    (r : Int × Option Nat) (l' : Local) (t' : T) : Prop where
  sane : Sane D lost l' t'
  inUse : ∀ a, r.2 = some a → InUse lost l' a
  ext : Extends l l'
  found : r.1 = 0 → ∃ parent a, cutParent path = some parent ∧ r.2 = some a ∧
    Candidate D lost parent l' a ∧ S_ISDIR (l'.heap a).md.mode = true

theorem lookupParentWith_found (hl : Looks D lost lookup) (h : Sane D lost l t) (path : Str) :
    Conforms A (lookupParentWith ctx lookup path) (fun r l' t' => FoundParent D lost path l r l' t') l t := by
  unfold lookupParentWith
  split
  · have hne : -EINVAL ≠ 0 := by decide
    exact Conforms.pure ⟨h, by simp, extends_refl l, fun h0 => absurd h0 hne⟩
  · rename_i parentPath hcut
    refine (hl.new h _).then ?_
    rintro ⟨err, mdiParent⟩ l' t' hf
    refine Conforms.ite (fun herr => ?_) fun herr => ?_
    · exact Conforms.pure ⟨hf.sane, hf.inUse, hf.ext, fun h0 => absurd h0 herr⟩
    cases mdiParent with
    | none => exact conforms_exit
    | some parent =>
      refine conforms_getMdi_bind (Conforms.ite (fun _ => ?_) fun hdir => ?_)
      · have hne : -ENOTDIR ≠ 0 := by decide
        exact Conforms.pure ⟨hf.sane, hf.inUse, hf.ext, fun h0 => absurd h0 hne⟩
      · obtain ⟨a, ha, hleads, hn, hS, hF⟩ := hf.found (not_not.mp herr)
        cases ha
        refine Conforms.pure ⟨hf.sane, hf.inUse, hf.ext, fun _ => ⟨parentPath, parent, hcut, rfl,
          ⟨hf.inUse parent rfl, hleads, hn, hS, hF⟩, ?_⟩⟩
        simpa using hdir

theorem finalCheck_found {path : Str} (h : Sane D lost l t) {l0 : Local} (he : Extends l0 l) {mdi : Nat}
    (hm : Candidate D lost path l mdi) : Conforms A (finalCheck ctx mdi)
      (fun r l' t' => Found D lost path l0 r l' t') l t :=
  conforms_getMdi_bind (Conforms.pure (found_some h he hm _))

theorem inheritFromParent_found {path : Str} (hl : Looks D lost lookup) (h : Sane D lost l t) {l0 : Local}
    (he : Extends l0 l) {mdi parent : Nat} (hm : Candidate D lost path l mdi) (hp : parent ∉ lost) :
    Conforms A (inheritFromParent me env ctx lookup path mdi parent)
      (fun r l' t' => Found D lost path l0 r l' t') l t := by
  refine conforms_getMdi_bind (conforms_setMdi_bind ?_)
  refine (putInherited_sane h hm.inUse.1 hp hm.inode).then ?_
  rintro err l' t' ⟨h', he'⟩
  have hm' := hm.mono he'
  have hext := extends_trans he he'
  refine Conforms.ite (fun _ => hl.again h' hext hm'.inUse path) fun _ => Conforms.ite (fun herr => ?_) fun _ => ?_
  · exact Conforms.pure (found_error h' hext (inUse_some hm'.inUse) herr)
  · exact finalCheck_found h' hext hm'

theorem checkStale_found {path : Str} (hl : Looks D lost lookup) (h : Sane D lost l t) {l0 : Local}
    (he : Extends l0 l) (stamp : Int) {mdi : Nat} (hm : Candidate D lost path l mdi) :
    Conforms A (checkStale me env ctx lookup path stamp mdi) (fun r l' t' => Found D lost path l0 r l' t') l t := by
  refine conforms_getMdi_bind (Conforms.ite (fun _ => ?_) fun _ => finalCheck_found h he hm)
  refine Conforms.then (lookupParentWith_found hl h path) ?_
  rintro ⟨err, mdiParent⟩ l' t' hf
  have hm' := hm.mono hf.ext
  have hext := extends_trans he hf.ext
  refine Conforms.ite (fun herr => ?_) fun _ => ?_
  · exact Conforms.pure (found_error hf.sane hext (inUse_some hm'.inUse) herr.1)
  · cases mdiParent with
    | none => exact conforms_exit
    | some parent => exact inheritFromParent_found hl hf.sane hext hm' (hf.inUse parent rfl).1

theorem lookupFound_found {path key : Str} (hl : Looks D lost lookup) (h : Sane D lost l t) {l0 : Local}
    (he : Extends l0 l) (stamp : Int) {mdi : Nat} (hm : InUse lost l mdi)
    (hk : (l.heap mdi).systemPath = key) (hleads : D.Leads path key) (cached : Bool) :
    Conforms A (lookupFound me env ctx lookup path key stamp mdi cached)
      (fun r l' t' => Found D lost path l0 r l' t') l t := by
  have hok := h.ok mdi hm.1
  refine conforms_getMdi_bind (Conforms.ite (fun _ => ?_) fun hn => ?_)
  · have hne : -ENOENT ≠ 0 := by decide
    exact Conforms.pure (found_error h he (inUse_some hm) hne)
  have hlink : ∀ {l1 : Local} {t1 : T}, (l.heap mdi).md.type = .HARDLINK_S → Sane D lost l1 t1 → Extends l l1 →
      Conforms A (lookup (hardlinkKey (l.heap mdi).md.inodeNumber) (some mdi))
        (fun r l' t' => Found D lost path l0 r l' t') l1 t1 := by
    intro l1 t1 htype h1 he1
    refine (hl.again h1 (extends_trans he he1) (hm.mono he1.next_le) _).mono fun r l' t' hf => ?_
    refine ⟨hf.sane, hf.inUse, hf.ext, fun h0 => ?_⟩
    obtain ⟨a, ha, hla, hrest⟩ := hf.found h0
    exact ⟨a, ha, D.link hok htype hn (by rw [hk]; exact hleads) hla, hrest⟩
  cases htype : (l.heap mdi).md.type with
  | HARDLINK_S =>
    cases cached with
    | true => exact hlink htype h (extends_refl l)
    | false =>
      refine conforms_newMetadataInfo_bind (conforms_setMdi_bind ?_)
      have hself : (l.alloc key).heap l.next = ⟨key, lit "0", Inode.empty⟩ := by simp
      rw [hself]
      have hsource : Sane D lost ((l.alloc key).setObject l.next ⟨key, lit "0", { Inode.empty with
          type := .HARDLINK_S, inodeNumber := (l.heap mdi).md.inodeNumber }⟩) t := by
        refine (h.alloc key).setObject (fun _ => ?_) (Or.inl (by rw [hself]))
        rw [← hk]
        exact D.source h.idle hok htype hn
      refine (cacheAdd_sane hsource ⟨h.next_live, Nat.lt_succ_self _⟩ (by simp)).then ?_
      rintro _ l' t' ⟨h', hnext, hheap⟩
      refine hlink htype h' (extends_heap ?_ hnext hheap)
      refine extends_new (extends_alloc l key) (Nat.le_refl _) (Nat.le_refl _) fun b hb => ?_
      rw [Local.setObject_heap, if_neg hb]
  | FORCE_UPDATE =>
    refine (databaseUpdate_sane h).then ?_
    rintro err l' t' ⟨h', hnext, hheap⟩
    have hext := extends_heap he hnext hheap
    have hm' : InUse lost l' mdi := hm.mono (Nat.le_of_eq hnext.symm)
    refine conforms_cacheInvalidate_bind (Conforms.ite (fun herr => ?_) fun _ => ?_)
    · exact Conforms.pure (found_error (h'.invalidate key) (extends_heap hext rfl rfl) (inUse_some hm') herr)
    · exact hl.again (h'.invalidate key) (extends_heap hext rfl rfl) hm' path
  | POSIX | HARDLINK_T =>
    all_goals
      have hcandidate : Candidate D lost path l mdi :=
        ⟨hm, by rw [hk]; exact hleads, hn, by rw [htype]; decide, by rw [htype]; decide⟩
      cases cached with
      | true => exact checkStale_found hl h he stamp hcandidate
      | false =>
        refine (cacheAdd_sane h hm hk).then ?_
        rintro _ l' t' ⟨h', hnext, hheap⟩
        have he' : Extends l l' := extends_heap (extends_refl l) hnext hheap
        exact checkStale_found hl h' (extends_trans he he') stamp (hcandidate.mono he')

theorem lookupStored_found {path key : Str} (hl : Looks D lost lookup) (h : Sane D lost l t) {l0 : Local}
    (he : Extends l0 l) (stamp : Int) (hleads : D.Leads path key) :
    Conforms A (lookupStored me env ctx lookup path key stamp)
      (fun r l' t' => Found D lost path l0 r l' t') l t := by
  refine conforms_cacheBlock_bind ?_
  replace h := h.block key
  replace he : Extends l0 (l.block key) := extends_heap he rfl rfl
  generalize l.block key = l at h he ⊢
  refine conforms_newMetadataInfo_bind ((getMetadata_sane (h.alloc key) l.next).then ?_)
  rintro err l' t' ⟨h', hnext, hpath, hother, -⟩
  have hm : InUse lost l' l.next := ⟨h.next_live, by rw [hnext]; exact Nat.lt_succ_self _⟩
  have hk : (l'.heap l.next).systemPath = key := by
    rw [hpath, Local.alloc_heap, if_pos rfl]
  have hext : Extends l0 l' :=
    extends_new (extends_trans he (extends_alloc l key)) he.next_le (Nat.le_of_eq hnext.symm) hother
  refine Conforms.ite (fun _ => ?_) fun _ => Conforms.ite (fun herr => ?_) fun _ => ?_
  · refine (cacheAdd_sane h' hm hk).then ?_
    rintro _ l1 t1 ⟨h1, hnext1, hheap⟩
    refine lookupFound_found hl h1 (extends_heap hext hnext1 hheap) stamp (hm.mono (Nat.le_of_eq hnext1.symm)) ?_
      hleads false
    rw [hheap]
    exact hk
  · exact conforms_cacheInvalidate_bind (Conforms.pure
      (found_error (h'.invalidate key) (extends_heap hext rfl rfl) (inUse_some hm) herr))
  · exact lookupFound_found hl h' hext stamp hm hk hleads false

theorem lookup_looks (D : Discipline A me env) (lost : Set Nat) (ctx : Context) (fuel : Nat) :
    Looks D lost (Fuse.lookup me env ctx fuel) := by
  induction fuel with
  | zero => exact fun _ _ _ _ _ => conforms_exit
  | succ fuel ih =>
    intro path pointer l t h
    refine Conforms.get_bind ?_
    split
    · exact conforms_exit
    · rename_i key stamp hkey
      refine Conforms.ite (fun hneg => ?_) fun hpos => ?_
      · have hne : stamp ≠ 0 := by omega
        exact Conforms.pure (Or.inl ⟨hne, rfl, h, extends_refl l⟩)
      · have hleads := D.resolve h.snapshot hkey hpos
        refine Conforms.mono ?_ fun _ _ _ h' => Or.inr h'
        refine (cacheGet_sane h key).then ?_
        rintro found l' t' ⟨h', hnext, hheap, hfound⟩
        have he : Extends l l' := extends_heap (extends_refl l) hnext hheap
        cases found with
        | none => exact lookupStored_found ih h' he stamp hleads
        | some mdi =>
          obtain ⟨hlive, hlt, hk⟩ := hfound mdi rfl
          exact lookupFound_found ih h' he stamp ⟨hlive, hlt⟩ hk hleads true

/-- What every lookup leaves and returns. -/
theorem lookup_found (h : Sane D lost l t) (ctx : Context) (fuel : Nat) (path : Str) :
    Conforms A (Fuse.lookup me env ctx fuel path none) (fun r l' t' => Found D lost path l r l' t') l t :=
  (lookup_looks D lost ctx fuel).new h path

theorem lookupParent_found (h : Sane D lost l t) (ctx : Context) (fuel : Nat) (path : Str) :
    Conforms A (lookupParent me env ctx fuel path) (fun r l' t' => FoundParent D lost path l r l' t') l t :=
  lookupParentWith_found (lookup_looks D lost ctx fuel) h path

/-! ### The key of the object -/

/-- An object that a lookup of `path` from memory `l` returns is the one it was given, or one of a key that
    the path leads to. -/
def Keyed (D : Discipline A me env) (path : Str) (pointer : Option Nat) (l : Local) (r : Int × Option Nat)
    (l' : Local) : Prop :=
  (r.1 ≠ 0 ∧ r.2 = pointer ∧ Extends l l') ∨ ∀ a, r.2 = some a → D.Leads path (l'.heap a).systemPath

/-- A lookup conforms to the protocol and returns objects of the right keys. -/
def Keys (D : Discipline A me env) (lost : Set Nat) (lookup : Str → Option Nat → Client (Int × Option Nat)) :
    Prop :=
  ∀ path pointer l t, Sane D lost l t → Conforms A (lookup path pointer)
    (fun r l' _ => Keyed D path pointer l r l') l t

theorem keyed_some {path : Str} {pointer : Option Nat} {l0 : Local} {mdi : Nat}
    (h : D.Leads path (l.heap mdi).systemPath) (err : Int) : Keyed D path pointer l0 (err, some mdi) l := by
  refine Or.inr fun a ha => ?_
  cases ha
  exact h

/-- A lookup that is given the object at hand. -/
theorem Keys.again (hl : Keys D lost lookup) (h : Sane D lost l t) {pointer : Option Nat} {l0 : Local}
    {mdi : Nat} (hm : InUse lost l mdi) {path : Str} (hleads : D.Leads path (l.heap mdi).systemPath) :
    Conforms A (lookup path (some mdi)) (fun r l' _ => Keyed D path pointer l0 r l') l t := by
  refine (hl path (some mdi) l t h).mono ?_
  rintro ⟨err, r⟩ l' t' (⟨-, rfl, he⟩ | hr)
  · refine keyed_some ?_ err
    rw [(he.same mdi hm.2).1]
    exact hleads
  · exact Or.inr hr

theorem checkStale_keyed {path : Str} (hk : Keys D lost lookup) (hl : Looks D lost lookup)
    (h : Sane D lost l t) {pointer : Option Nat} {l0 : Local} (stamp : Int) {mdi : Nat}
    (hm : Candidate D lost path l mdi) : Conforms A (checkStale me env ctx lookup path stamp mdi)
      (fun r l' _ => Keyed D path pointer l0 r l') l t := by
  refine conforms_getMdi_bind (Conforms.ite (fun _ => ?_) fun _ => ?_)
  · refine Conforms.then (lookupParentWith_found hl h path) ?_
    rintro ⟨err, mdiParent⟩ l1 t1 h1
    have hm1 := hm.mono h1.ext
    refine Conforms.ite (fun _ => Conforms.pure (keyed_some hm1.leads _)) fun _ => ?_
    cases mdiParent with
    | none => exact conforms_exit
    | some parent =>
      refine conforms_getMdi_bind (conforms_setMdi_bind ?_)
      refine (putInherited_sane h1.sane hm1.inUse.1 (h1.inUse parent rfl).1 hm1.inode).then ?_
      rintro err l2 t2 ⟨h2, he2⟩
      have hm2 := hm1.mono he2
      refine Conforms.ite (fun _ => hk.again h2 hm2.inUse hm2.leads) fun _ => Conforms.ite (fun _ => ?_) fun _ => ?_
      · exact Conforms.pure (keyed_some hm2.leads _)
      · exact conforms_getMdi_bind (Conforms.pure (keyed_some hm2.leads _))
  · exact conforms_getMdi_bind (Conforms.pure (keyed_some hm.leads _))

theorem lookupFound_keyed {path key : Str} (hk : Keys D lost lookup) (hl : Looks D lost lookup)
    (h : Sane D lost l t) {pointer : Option Nat} {l0 : Local} (stamp : Int) {mdi : Nat} (hm : InUse lost l mdi)
    (hkey : (l.heap mdi).systemPath = key) (hleads : D.Leads path key) (cached : Bool) :
    Conforms A (lookupFound me env ctx lookup path key stamp mdi cached)
      (fun r l' _ => Keyed D path pointer l0 r l') l t := by
  have hself : D.Leads path (l.heap mdi).systemPath := hkey ▸ hleads
  have hok := h.ok mdi hm.1
  refine conforms_getMdi_bind (Conforms.ite (fun _ => Conforms.pure (keyed_some hself _)) fun hn => ?_)
  have hlink : ∀ {l1 : Local} {t1 : T}, (l.heap mdi).md.type = .HARDLINK_S → Sane D lost l1 t1 → Extends l l1 →
      Conforms A (lookup (hardlinkKey (l.heap mdi).md.inodeNumber) (some mdi))
        (fun r l' _ => Keyed D path pointer l0 r l') l1 t1 := by
    intro l1 t1 htype h1 he1
    refine (hk _ (some mdi) l1 t1 h1).mono ?_
    rintro ⟨err, r⟩ l' t' (⟨-, rfl, he⟩ | hr)
    · refine keyed_some ?_ err
      rw [(he.same mdi (hm.mono he1.next_le).2).1, (he1.same mdi hm.2).1]
      exact hself
    · exact Or.inr fun a ha => D.link hok htype hn hself (hr a ha)
  have hcandidate : (l.heap mdi).md.type ≠ .HARDLINK_S → (l.heap mdi).md.type ≠ .FORCE_UPDATE →
      Candidate D lost path l mdi := fun hS hF => ⟨hm, hself, hn, hS, hF⟩
  cases htype : (l.heap mdi).md.type with
  | HARDLINK_S =>
    cases cached with
    | true => exact hlink htype h (extends_refl l)
    | false =>
      refine conforms_newMetadataInfo_bind (conforms_setMdi_bind ?_)
      have hnew : (l.alloc key).heap l.next = ⟨key, lit "0", Inode.empty⟩ := by simp
      rw [hnew]
      have hsource : Sane D lost ((l.alloc key).setObject l.next ⟨key, lit "0", { Inode.empty with
          type := .HARDLINK_S, inodeNumber := (l.heap mdi).md.inodeNumber }⟩) t := by
        refine (h.alloc key).setObject (fun _ => ?_) (Or.inl (by rw [hnew]))
        rw [← hkey]
        exact D.source h.idle hok htype hn
      refine (cacheAdd_sane hsource ⟨h.next_live, Nat.lt_succ_self _⟩ (by simp)).then ?_
      rintro _ l' t' ⟨h', hnext, hheap⟩
      refine hlink htype h' (extends_heap ?_ hnext hheap)
      refine extends_new (extends_alloc l key) (Nat.le_refl _) (Nat.le_refl _) fun b hb => ?_
      rw [Local.setObject_heap, if_neg hb]
  | FORCE_UPDATE =>
    refine (databaseUpdate_sane h).then ?_
    rintro err l' t' ⟨h', hnext, hheap⟩
    have hleads' : D.Leads path ((l'.setCache key none).heap mdi).systemPath := by
      rw [Local.setCache_heap, hheap]
      exact hself
    refine conforms_cacheInvalidate_bind (Conforms.ite (fun _ => Conforms.pure (keyed_some hleads' _)) fun _ => ?_)
    exact hk.again (h'.invalidate key) (hm.mono (Nat.le_of_eq hnext.symm)) hleads'
  | POSIX | HARDLINK_T =>
    all_goals
      have hc := hcandidate (by rw [htype]; decide) (by rw [htype]; decide)
      cases cached with
      | true => exact checkStale_keyed hk hl h stamp hc
      | false =>
        refine (cacheAdd_sane h hm hkey).then ?_
        rintro _ l' t' ⟨h', hnext, hheap⟩
        exact checkStale_keyed hk hl h' stamp (hc.mono (extends_heap (extends_refl l) hnext hheap))

theorem lookup_keys (D : Discipline A me env) (lost : Set Nat) (ctx : Context) (fuel : Nat) :
    Keys D lost (Fuse.lookup me env ctx fuel) := by
  induction fuel with
  | zero => exact fun _ _ _ _ _ => conforms_exit
  | succ fuel ih =>
    intro path pointer l t h
    have hl := lookup_looks D lost ctx fuel
    refine Conforms.get_bind ?_
    split
    · exact conforms_exit
    rename_i key stamp hkey
    refine Conforms.ite (fun hneg => ?_) fun hpos => ?_
    · exact Conforms.pure (Or.inl ⟨ne_of_lt hneg, rfl, extends_refl l⟩)
    have hleads := D.resolve h.snapshot hkey hpos
    refine (cacheGet_sane h key).then ?_
    rintro found l' t' ⟨h', hnext, hheap, hfound⟩
    cases found with
    | some mdi =>
      obtain ⟨hlive, hlt, hk⟩ := hfound mdi rfl
      exact lookupFound_keyed ih hl h' stamp ⟨hlive, hlt⟩ hk hleads true
    | none =>
      refine conforms_cacheBlock_bind ?_
      replace h' := h'.block key
      generalize l'.block key = l' at h' ⊢
      refine conforms_newMetadataInfo_bind ((getMetadata_sane (h'.alloc key) l'.next).then ?_)
      rintro err l1 t1 ⟨h1, hnext1, hpath, -, -⟩
      have hm : InUse lost l1 l'.next := ⟨h'.next_live, by rw [hnext1]; exact Nat.lt_succ_self _⟩
      have hk : (l1.heap l'.next).systemPath = key := by
        rw [hpath, Local.alloc_heap, if_pos rfl]
      refine Conforms.ite (fun _ => ?_) fun _ => Conforms.ite (fun _ => ?_) fun _ => ?_
      · refine (cacheAdd_sane h1 hm hk).then ?_
        rintro _ l2 t2 ⟨h2, hnext2, hheap2⟩
        refine lookupFound_keyed ih hl h2 stamp (hm.mono (Nat.le_of_eq hnext2.symm)) ?_ hleads false
        rw [hheap2]
        exact hk
      · refine conforms_cacheInvalidate_bind (Conforms.pure (keyed_some ?_ _))
        show D.Leads path (l1.heap l'.next).systemPath
        rw [hk]
        exact hleads
      · exact lookupFound_keyed ih hl h1 stamp hm hk hleads false

/-- The object that a lookup returns, found or not, is one of a key that the path leads to. -/
theorem lookup_keyed (h : Sane D lost l t) (ctx : Context) (fuel : Nat) (path : Str) :
    Conforms A (Fuse.lookup me env ctx fuel path none) (fun r l' t' => Found D lost path l r l' t' ∧
      ∀ a, r.2 = some a → D.Leads path (l'.heap a).systemPath) l t := by
  refine ((lookup_found h ctx fuel path).and (lookup_keys D lost ctx fuel path none l t h)).mono ?_
  rintro ⟨err, r⟩ l' t' ⟨hf, ⟨-, rfl, -⟩ | hr⟩
  · exact ⟨hf, nofun⟩
  · exact ⟨hf, hr⟩

end Lookups

end Memory

end HFlat.Fuse
