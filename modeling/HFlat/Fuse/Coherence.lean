/-
  The metadata cache of a lone client holds what is stored.

  `hflat_truncate` looks its path up twice, once itself and once in `hflat_fsync`, and then changes
  and stores the object of the first lookup. If the cache entry has expired in between, the second
  lookup has cached another object, and that one is out of date once the first one is stored. In
  runs in which no entry gets lost while the operation is still going to store its object
  (`undisturbed`), every entry with an inode number has the version and the contents of its key
  after every operation, and no `Put` is refused.

  All of this concerns objects, cache and metadata keys only (`View`). Between operations the
  invariant is `Coherent none`; while an operation has changed an object that it has not stored yet,
  that object is exempt (`Pending`).
-/
import HFlat.Lib.View
import HFlat.PathMap.Root
import HFlat.Permission.Inherit
import HFlat.Fuse.Lone

namespace HFlat.Fuse.Lone

open HFlat.Lib HFlat.PathMap HFlat.Permission
open HFlat.Fuse.Attributes (FileMetadata)
open HFlat.Replication (KineticRecord StatusCode versionOf putSame deleteSame)

/-- The access does not take away the cache entry of an object that the operation is going to
    store. -/
def undisturbed (_ : Store) : Req → Choice → Bool
  | .expired _ held, .yes => ¬ held
  | .delete _ _ held, _ => ¬ held
  | _, _ => true

/-- The service restricted to requests that meet the condition. -/
def careful (uuid : Nat → Str) : Service Req Res Choice Store := (service uuid).restrict undisturbed

/-! ## Objects, cache and metadata keys -/

/-- What the statement of coherence is about: objects, cache and stored metadata. -/
structure View where
  heap : Nat → MetadataInfo
  next : Nat
  lookupCache : Str → Option Nat
  record : Str → Option (KineticRecord FileMetadata)
  refused : Nat

/-- The view of a client and the drives. -/
def view (l : Local) (s : Store) : View := ⟨l.heap, l.next, l.lookupCache, s.record, s.refused⟩

namespace View

/-- The view with another object at an address. -/
def setObject (v : View) (mdi : Nat) (x : MetadataInfo) : View :=
  { v with heap := Function.update v.heap mdi x }

/-- The view with one more object, for a key. -/
def alloc (v : View) (key : Str) : View :=
  { v with
    heap := Function.update v.heap v.next ⟨key, lit "0", FileMetadata.empty, none⟩
    next := v.next + 1 }

/-- The view with another entry of the cache. -/
def setCache (v : View) (key : Str) (entry : Option Nat) : View :=
  { v with lookupCache := Function.update v.lookupCache key entry }

/-- A `Put` under version `new`. -/
def put (v : View) (key expected : Str) (md : FileMetadata) (new : Str) : StatusCode × View :=
  let result := putSame (v.record key) expected ⟨md, new⟩
  (result.1,
    { v with
      record := Function.update v.record key result.2
      refused := if result.1 = .OK then v.refused else v.refused + 1 })

/-- The view after a `Delete`. -/
def delete (v : View) (key expected : Str) : StatusCode × View :=
  let result := deleteSame (v.record key) expected
  (result.1, { v with record := Function.update v.record key result.2 })

/-- Object `mdi` is stored under version `new`. -/
def stored (v : View) (mdi : Nat) (new : Str) : View :=
  let x := v.heap mdi
  { v.setObject mdi { x with keyVersion := new } with
    record := Function.update v.record x.systemPath (some ⟨x.md, new⟩) }

/-- The cache entry of a key is gone, and the record too if it has the expected version. -/
def deleted (v : View) (key expected : Str) : View := ((v.setCache key none).delete key expected).2

end View

/-- The metadata carry an inode number and are not those of a hard link name. -/
def Normal (x : MetadataInfo) : Prop := x.md.inodeNumber ≠ 0 ∧ x.md.type ≠ .HARDLINK_S

/-- `lookup` returns such an object. -/
def Found (x : MetadataInfo) : Prop := Normal x ∧ x.md.type ≠ .FORCE_UPDATE

/-- What a lookup or a flush leaves as it is. -/
def identity (x : MetadataInfo) : Str × InodeType × Nat × Nat × Nat × Nat :=
  (x.systemPath, x.md.type, x.md.inodeNumber, x.md.mode, x.md.uid, x.md.gid)

theorem found_congr {x y : MetadataInfo} (h : identity x = identity y) : Found x ↔ Found y := by
  unfold identity at h
  simp only [Prod.mk.injEq] at h
  obtain ⟨-, htype, hinode, -⟩ := h
  unfold Found Normal
  rw [htype, hinode]

/-- Cached objects have the contents and the version of their keys, except for object `but`. -/
structure Coherent (but : Option Nat) (v : View) : Prop where
  path : ∀ {key a}, v.lookupCache key = some a → (v.heap a).systemPath = key
  used : ∀ {key a}, v.lookupCache key = some a → a < v.next
  stored : ∀ {key a}, v.lookupCache key = some a → but ≠ some a → Normal (v.heap a) →
    v.record key = some ⟨(v.heap a).md, (v.heap a).keyVersion⟩
  versions : ∀ {key r}, v.record key = some r → r.version ≠ []
  refused : v.refused = 0

/-- `lookup` has returned the object, and the cache still has it. -/
def Cached (mdi : Nat) (v : View) : Prop :=
  v.lookupCache (v.heap mdi).systemPath = some mdi ∧ Found (v.heap mdi)

/-- The object is going to be stored, and no other one is cached under its key. -/
structure Pending (mdi : Nat) (v : View) : Prop where
  coherent : Coherent (some mdi) v
  current : ∃ r, v.record (v.heap mdi).systemPath = some r ∧ r.version = (v.heap mdi).keyVersion
  alone : ∀ a, v.lookupCache (v.heap mdi).systemPath = some a → a ≠ mdi → ¬ Normal (v.heap a)

/-- The held objects. -/
def Pinned (held : List Str) (v : View) : Prop :=
  ∀ key ∈ held, ∃ a, v.lookupCache key = some a ∧ Found (v.heap a)

/-- What lookups and flushes do to objects and cache. -/
structure Within (held : List Str) (v v' : View) : Prop where
  next : v.next ≤ v'.next
  same : ∀ a < v.next, identity (v'.heap a) = identity (v.heap a)
  pinned : ∀ key ∈ held, v'.lookupCache key = v.lookupCache key

section Invariant

variable {v v' v'' : View} {mdi a : Nat} {x : MetadataInfo} {key new : Str} {held : List Str}
  {but : Option Nat}

@[simp] theorem setObject_heap_self (v : View) (mdi : Nat) (x : MetadataInfo) :
    (v.setObject mdi x).heap mdi = x := Function.update_self _ _ _

theorem setObject_heap_of_ne (v : View) (x : MetadataInfo) (h : a ≠ mdi) :
    (v.setObject mdi x).heap a = v.heap a := Function.update_of_ne h _ _

@[simp] theorem setObject_lookupCache (v : View) (mdi : Nat) (x : MetadataInfo) :
    (v.setObject mdi x).lookupCache = v.lookupCache := rfl

theorem setObject_path (v : View) (h : x.systemPath = (v.heap mdi).systemPath) (a : Nat) :
    ((v.setObject mdi x).heap a).systemPath = (v.heap a).systemPath := by
  by_cases ha : a = mdi
  · rw [ha, setObject_heap_self, h]
  · rw [setObject_heap_of_ne v x ha]

theorem Within.refl (held : List Str) (v : View) : Within held v v :=
  ⟨le_refl _, fun _ _ => rfl, fun _ _ => rfl⟩

theorem Within.trans (h : Within held v v') (h' : Within held v' v'') : Within held v v'' where
  next := h.next.trans h'.next
  same a ha := (h'.same a (ha.trans_le h.next)).trans (h.same a ha)
  pinned key hkey := (h'.pinned key hkey).trans (h.pinned key hkey)

theorem Within.mono {held' : List Str} (h : Within held' v v') (hsub : ∀ key ∈ held, key ∈ held') :
    Within held v v' :=
  ⟨h.next, h.same, fun key hkey => h.pinned key (hsub key hkey)⟩

theorem Within.setObject (held : List Str) (h : identity x = identity (v.heap mdi)) :
    Within held v (v.setObject mdi x) where
  next := le_refl _
  same a _ := by
    by_cases ha : a = mdi
    · rw [ha, setObject_heap_self, h]
    · rw [setObject_heap_of_ne v x ha]
  pinned _ _ := rfl

theorem Within.alloc (held : List Str) (v : View) (key : Str) : Within held v (v.alloc key) where
  next := Nat.le_succ _
  same _ ha := congrArg identity (Function.update_of_ne (ne_of_lt ha) _ _)
  pinned _ _ := rfl

/-- A new object, and then contents for it. -/
theorem Within.read (held : List Str) (v : View) (key version : Str) (md : FileMetadata) :
    Within held v ((v.alloc key).setObject v.next ⟨key, version, md, none⟩) where
  next := Nat.le_succ _
  same a ha := by
    rw [setObject_heap_of_ne _ _ (ne_of_lt ha)]
    exact (Within.alloc held v key).same a ha
  pinned _ _ := rfl

theorem Within.setCache (v : View) (entry : Option Nat) (h : key ∉ held) :
    Within held v (v.setCache key entry) where
  next := le_refl _
  same _ _ := rfl
  pinned _ hkey := Function.update_of_ne (ne_of_mem_of_not_mem hkey h) _ _

theorem Within.forget (h : key ∈ held → v.lookupCache key = none) :
    Within held v (v.setCache key none) where
  next := le_refl _
  same _ _ := rfl
  pinned k hk := by
    by_cases he : k = key
    · subst he
      rw [h hk]
      exact Function.update_self _ _ _
    · exact Function.update_of_ne he _ _

theorem Within.stored (held : List Str) (v : View) (mdi : Nat) (new : Str) :
    Within held v (v.stored mdi new) := by
  have hid : identity { v.heap mdi with keyVersion := new } = identity (v.heap mdi) := rfl
  have hset := Within.setObject held hid
  exact ⟨hset.next, hset.same, hset.pinned⟩

theorem Pinned.within (h : Pinned held v) (hc : Coherent but v) (hw : Within held v v') :
    Pinned held v' := by
  intro key hkey
  obtain ⟨a, ha, hf⟩ := h key hkey
  refine ⟨a, (hw.pinned key hkey).trans ha, ?_⟩
  exact (found_congr (hw.same a (hc.used ha))).mpr hf

/-- A held object stays in the cache. -/
theorem Cached.within (h : Cached mdi v) (hc : Coherent but v) (hw : Within held v v')
    (hheld : (v.heap mdi).systemPath ∈ held) : Cached mdi v' := by
  have hid := hw.same mdi (hc.used h.1)
  have hpath : (v'.heap mdi).systemPath = (v.heap mdi).systemPath := congrArg Prod.fst hid
  refine ⟨?_, (found_congr hid).mpr h.2⟩
  rw [hpath, hw.pinned _ hheld]
  exact h.1

/-! ### What changes do to the invariant -/

theorem Coherent.exempt (h : Coherent none v) (but : Option Nat) : Coherent but v :=
  { h with stored := fun ha _ hn => h.stored ha (by simp) hn }

/-- An object that is in no cache needs no exemption. -/
theorem Coherent.restore (h : Coherent (some mdi) v)
    (hmdi : ∀ key, v.lookupCache key = some mdi → Normal (v.heap mdi) →
      v.record key = some ⟨(v.heap mdi).md, (v.heap mdi).keyVersion⟩) : Coherent none v where
  path := h.path
  used := h.used
  stored {key a} ha _ hn := by
    by_cases he : a = mdi
    · subst he
      exact hmdi key ha hn
    · exact h.stored ha (fun hs => he (Option.some.inj hs).symm) hn
  versions := h.versions
  refused := h.refused

theorem Coherent.drop (h : Coherent but v) (key : Str) : Coherent but (v.setCache key none) := by
  have hcache : ∀ {k a}, (v.setCache key none).lookupCache k = some a → v.lookupCache k = some a := by
    intro k a ha
    by_cases hk : k = key
    · rw [hk] at ha
      have hnone : (v.setCache key none).lookupCache key = none := Function.update_self _ _ _
      rw [hnone] at ha
      cases ha
    · exact (Function.update_of_ne hk _ _).symm.trans ha
  exact ⟨fun ha => h.path (hcache ha), fun ha => h.used (hcache ha), fun ha => h.stored (hcache ha),
    h.versions, h.refused⟩

theorem Coherent.add (h : Coherent none v) (hpath : (v.heap mdi).systemPath = key) (hused : mdi < v.next)
    (hstored : Normal (v.heap mdi) → v.record key = some ⟨(v.heap mdi).md, (v.heap mdi).keyVersion⟩) :
    Coherent none (v.setCache key (some mdi)) := by
  have hcache : ∀ {k a}, (v.setCache key (some mdi)).lookupCache k = some a →
      (k = key ∧ a = mdi) ∨ v.lookupCache k = some a := by
    intro k a ha
    by_cases hk : k = key
    · rw [hk] at ha
      have hself : (v.setCache key (some mdi)).lookupCache key = some mdi := Function.update_self _ _ _
      rw [hself] at ha
      exact Or.inl ⟨hk, (Option.some.inj ha).symm⟩
    · exact Or.inr ((Function.update_of_ne hk _ _).symm.trans ha)
  refine ⟨fun ha => ?_, fun ha => ?_, fun ha _ hn => ?_, h.versions, h.refused⟩
  · obtain ⟨rfl, rfl⟩ | ha := hcache ha
    · exact hpath
    · exact h.path ha
  · obtain ⟨rfl, rfl⟩ | ha := hcache ha
    · exact hused
    · exact h.used ha
  · obtain ⟨rfl, rfl⟩ | ha := hcache ha
    · exact hstored hn
    · exact h.stored ha (by simp) hn

theorem Coherent.alloc (h : Coherent but v) (key : Str) : Coherent but (v.alloc key) := by
  have hheap : ∀ {k a}, v.lookupCache k = some a → (v.alloc key).heap a = v.heap a :=
    fun ha => Function.update_of_ne (ne_of_lt (h.used ha)) _ _
  refine ⟨fun ha => ?_, fun ha => (h.used ha).trans (Nat.lt_succ_self _), fun ha hb hn => ?_,
    h.versions, h.refused⟩
  · rw [hheap ha]
    exact h.path ha
  · rw [hheap ha] at hn ⊢
    exact h.stored ha hb hn

/-- An object changes under its path. -/
theorem Coherent.setObject (h : Coherent but v) (hbut : but = none ∨ but = some mdi)
    (hx : x.systemPath = (v.heap mdi).systemPath) : Coherent (some mdi) (v.setObject mdi x) := by
  refine ⟨fun ha => (setObject_path v hx _).trans (h.path ha), h.used, fun {key a} ha hb hn => ?_,
    h.versions, h.refused⟩
  have hne : a ≠ mdi := fun he => hb (by rw [he])
  rw [setObject_heap_of_ne v x hne] at hn ⊢
  refine h.stored ha (fun he => ?_) hn
  obtain rfl | rfl := hbut
  · cases he
  · exact hb he

/-- An object that is in no cache changes. -/
theorem Coherent.setUncached (h : Coherent none v) (hmdi : ∀ key, v.lookupCache key ≠ some mdi)
    (x : MetadataInfo) : Coherent none (v.setObject mdi x) := by
  have hheap : ∀ {k a}, v.lookupCache k = some a → (v.setObject mdi x).heap a = v.heap a :=
    fun {k a} ha => setObject_heap_of_ne v x fun he => hmdi k (he ▸ ha)
  refine ⟨fun ha => ?_, h.used, fun ha _ hn => ?_, h.versions, h.refused⟩
  · rw [hheap ha]
    exact h.path ha
  · rw [hheap ha] at hn ⊢
    exact h.stored ha (by simp) hn

theorem Cached.pending (h : Cached mdi v) (hc : Coherent none v) : Pending mdi v where
  coherent := hc.exempt _
  current := ⟨_, hc.stored h.1 (by simp) h.2.1, rfl⟩
  alone a ha hne := absurd (Option.some.inj (ha.symm.trans h.1)) hne

theorem Pending.setObject (h : Pending mdi v) (hpath : x.systemPath = (v.heap mdi).systemPath)
    (hversion : x.keyVersion = (v.heap mdi).keyVersion) : Pending mdi (v.setObject mdi x) where
  coherent := h.coherent.setObject (Or.inr rfl) hpath
  current := by
    rw [setObject_heap_self, hpath, hversion]
    exact h.current
  alone a ha hne := by
    rw [setObject_heap_self, hpath] at ha
    rw [setObject_heap_of_ne v x hne]
    exact h.alone a ha hne

/-- A changed object is coherent once it is stored. -/
theorem Coherent.store (h : Coherent (some mdi) v)
    (halone : ∀ a, v.lookupCache (v.heap mdi).systemPath = some a → a ≠ mdi → ¬ Normal (v.heap a))
    (hnew : new ≠ []) : Coherent none (v.stored mdi new) := by
  have hset : Coherent (some mdi) (v.setObject mdi { v.heap mdi with keyVersion := new }) :=
    h.setObject (Or.inr rfl) rfl
  have hrecord : (v.stored mdi new).record =
      Function.update v.record (v.heap mdi).systemPath (some ⟨(v.heap mdi).md, new⟩) := rfl
  have hself : (v.stored mdi new).heap mdi = { v.heap mdi with keyVersion := new } :=
    setObject_heap_self _ _ _
  refine ⟨hset.path, hset.used, fun {key a} ha _ hn => ?_, fun {key r} hr => ?_, h.refused⟩
  · rw [hrecord]
    have hpath := h.path ha
    by_cases he : a = mdi
    · subst he
      rw [hself, ← hpath, Function.update_self]
    · have hheap : (v.stored mdi new).heap a = v.heap a := setObject_heap_of_ne v _ he
      rw [hheap] at hn ⊢
      have hkey : key ≠ (v.heap mdi).systemPath := fun hk => halone a (hk ▸ ha) he hn
      rw [Function.update_of_ne hkey]
      exact h.stored ha (fun hs => he (Option.some.inj hs).symm) hn
  · rw [hrecord] at hr
    by_cases hk : key = (v.heap mdi).systemPath
    · rw [hk, Function.update_self] at hr
      cases hr
      exact hnew
    · rw [Function.update_of_ne hk] at hr
      exact h.versions hr

theorem Coherent.deleted (h : Coherent (some mdi) v) (expected : Str) :
    Coherent none (v.deleted (v.heap mdi).systemPath expected) := by
  have hdrop := h.drop (v.heap mdi).systemPath
  have hgone : (v.setCache (v.heap mdi).systemPath none).lookupCache (v.heap mdi).systemPath = none :=
    Function.update_self _ _ _
  refine ⟨hdrop.path, hdrop.used, fun {key a} ha _ hn => ?_, fun {key r} hr => ?_, h.refused⟩
  · have ha : (v.setCache (v.heap mdi).systemPath none).lookupCache key = some a := ha
    have hkey : key ≠ (v.heap mdi).systemPath := by
      rintro rfl
      rw [hgone] at ha
      cases ha
    refine (Function.update_of_ne hkey _ _).trans (hdrop.stored ha (fun hs => hkey ?_) hn)
    rw [Option.some.inj hs]
    exact (hdrop.path ha).symm
  · have hr : Function.update v.record (v.heap mdi).systemPath
        (deleteSame (v.record (v.heap mdi).systemPath) expected).2 key = some r := hr
    by_cases hk : key = (v.heap mdi).systemPath
    · rw [hk, Function.update_self] at hr
      unfold deleteSame at hr
      split at hr
      · cases hr
      · rename_i r' hr'
        split at hr
        · cases hr
        · exact h.versions hr
    · rw [Function.update_of_ne hk] at hr
      exact h.versions hr

/-- Objects with other keys stay in the cache. -/
theorem Cached.deleted (h : Cached mdi v) (hkey : (v.heap mdi).systemPath ≠ key) (expected : Str) :
    Cached mdi (v.deleted key expected) :=
  ⟨(Function.update_of_ne hkey _ _).trans h.1, h.2⟩

end Invariant

/-! ## Requests and objects -/

/-- The request leaves the metadata keys as they are. -/
def Req.Plain : Req → Prop
  | .put _ _ _ => False
  | .delete _ _ _ => False
  | _ => True

/-- The step leaves the metadata keys and the count of refused `Put`s as they are. -/
def SameKeys (s s' : Store) : Prop := s'.record = s.record ∧ s'.refused = s.refused

theorem createEntry_sameKeys (s : Store) (key : Str) : SameKeys s (s.createEntry key).2 := by
  unfold Store.createEntry
  split
  · exact ⟨rfl, rfl⟩
  · exact ⟨rfl, rfl⟩

theorem deleteEntry_sameKeys (s : Store) (key : Str) : SameKeys s (s.deleteEntry key).2 := by
  unfold Store.deleteEntry
  split
  · exact ⟨rfl, rfl⟩
  · exact ⟨rfl, rfl⟩

theorem append_sameKeys (s : Store) (version : Nat) (entry : DbEntry) :
    SameKeys s (s.append version entry).2 := by
  unfold Store.append
  split
  · exact ⟨rfl, rfl⟩
  · exact ⟨rfl, rfl⟩

theorem serve_sameKeys {uuid : Nat → Str} {r : Req} (hr : r.Plain) {s s' : Store} {choice : Choice}
    {x : Res r} (hserve : serve uuid s r choice = some (x, s')) : SameKeys s s' := by
  cases r with
  | put key expected md => exact hr.elim
  | delete key expected held => exact hr.elim
  | createEntry key =>
    cases choice with
    | done =>
      obtain rfl : (s.createEntry key).2 = s' := congrArg Prod.snd (Option.some.inj hserve)
      exact createEntry_sameKeys s key
    | _ => cases hserve
  | deleteEntry key =>
    cases choice with
    | done =>
      obtain rfl : (s.deleteEntry key).2 = s' := congrArg Prod.snd (Option.some.inj hserve)
      exact deleteEntry_sameKeys s key
    | _ => cases hserve
  | append version entry =>
    cases choice with
    | done =>
      obtain rfl : (s.append version entry).2 = s' := congrArg Prod.snd (Option.some.inj hserve)
      exact append_sameKeys s version entry
    | _ => cases hserve
  | databaseUpdate version =>
    cases choice with
    | done =>
      obtain ⟨entries, -, hs⟩ := Option.map_eq_some_iff.mp hserve
      obtain rfl : s = s' := congrArg Prod.snd hs
      exact ⟨rfl, rfl⟩
    | _ => cases hserve
  | _ =>
    -- the other requests only touch data blocks, or nothing
    cases choice <;> cases hserve <;> exact ⟨rfl, rfl⟩

section Client

variable {uuid : Nat → Str} {v : View} {α β : Type} {mdi : Nat} {key : Str} {held : List Str}

theorem perform_stutters {r : Req} (hr : r.Plain) : Stutters (careful uuid) view (perform r) := by
  refine Stutters.call fun l s choice x s' hserve => ?_
  obtain ⟨hrecord, hrefused⟩ := serve_sameKeys hr (serve_restrict hserve).2
  unfold view
  rw [hrecord, hrefused]

/-- What the record of a key says. -/
theorem perform_get {Q : Except StatusCode (KineticRecord FileMetadata) → View → Prop}
    (h : Q (lookupRecord (v.record key)) v) : Shows (careful uuid) view (perform (.get key)) Q v := by
  refine Shows.call fun l s choice x s' hv hserve => ?_
  have hserve : serve uuid s (.get key) choice = some (x, s') := (serve_restrict hserve).2
  cases choice with
  | done =>
    cases hserve
    rw [hv]
    rw [← hv] at h
    exact hv ▸ h
  | _ => cases hserve

/-- A held object has not expired. -/
theorem perform_expired {held : Bool} {Q : Bool → View → Prop} (hno : Q false v)
    (hyes : held = false → Q true v) :
    Shows (careful uuid) view (perform (.expired key held)) Q v := by
  refine Shows.call fun l s choice x s' hv hserve => ?_
  obtain ⟨hok, hserve⟩ := serve_restrict hserve
  have hserve : serve uuid s (.expired key held) choice = some (x, s') := hserve
  cases choice with
  | yes =>
    cases hserve
    rw [hv]
    exact hyes (by simpa [undisturbed] using hok)
  | no =>
    cases hserve
    rw [hv]
    exact hno
  | _ => cases hserve

theorem perform_put (hne : ∀ n, uuid n ≠ []) {expected : Str} {md : FileMetadata}
    {Q : StatusCode × Str → View → Prop}
    (h : ∀ new, new ≠ [] → Q ((v.put key expected md new).1, new) (v.put key expected md new).2) :
    Shows (careful uuid) view (perform (.put key expected md)) Q v := by
  refine Shows.call fun l s choice x s' hv hserve => ?_
  have hserve : serve uuid s (.put key expected md) choice = some (x, s') := (serve_restrict hserve).2
  cases choice with
  | done =>
    cases hserve
    subst hv
    exact h (uuid s.uuids) (hne _)
  | _ => cases hserve

theorem perform_delete {expected : Str} {held : Bool} {Q : StatusCode → View → Prop}
    (h : held = false → Q (v.delete key expected).1 (v.delete key expected).2) :
    Shows (careful uuid) view (perform (.delete key expected held)) Q v := by
  refine Shows.call fun l s choice x s' hv hserve => ?_
  obtain ⟨hok, hserve⟩ := serve_restrict hserve
  have hserve : serve uuid s (.delete key expected held) choice = some (x, s') := hserve
  cases choice with
  | done =>
    cases hserve
    subst hv
    exact h (by simpa [undisturbed] using hok)
  | _ => cases hserve

theorem exit_stutters : Stutters (careful uuid) view (exit : Client α) := Stutters.stop

theorem exit_shows {Q : α → View → Prop} : Shows (careful uuid) view (exit : Client α) Q v := Shows.stop

theorem exit_bind {f : α → Client β} {Q : β → View → Prop} :
    Shows (careful uuid) view (exit >>= f) Q v := by
  have hexit : Shows (careful uuid) view (exit : Client α) (fun _ _ => False) v := exit_shows
  exact hexit.then fun _ _ h => h.elim

theorem deref_bind {p : Option Nat} {f : Nat → Client β} {Q : β → View → Prop}
    (h : ∀ a, p = some a → Shows (careful uuid) view (f a) Q v) :
    Shows (careful uuid) view (deref p >>= f) Q v := by
  cases p with
  | none => exact exit_bind
  | some a => exact h a rfl

theorem require_then {m : Client Int} {f : Unit → Client β} {Q : Int → View → Prop}
    {Q' : β → View → Prop} (hm : Shows (careful uuid) view m Q v)
    (h : ∀ v', Q 0 v' → Shows (careful uuid) view (f ()) Q' v') :
    Shows (careful uuid) view (require m >>= f) Q' v := by
  refine Shows.then (Shows.then hm fun err v' hq => ?_) fun _ v' hq => h v' hq
  refine Shows.ite (fun _ => exit_shows) fun herr => Shows.pure ?_
  rw [not_not] at herr
  rw [herr] at hq
  exact hq

theorem getMdi_bind {f : MetadataInfo → Client β} {Q : β → View → Prop}
    (h : Shows (careful uuid) view (f (v.heap mdi)) Q v) :
    Shows (careful uuid) view (getMdi mdi >>= f) Q v := by
  refine Shows.get_bind fun l s hv => ?_
  have hheap : l.heap = v.heap := congrArg View.heap hv
  show Shows (careful uuid) view (f (l.heap mdi)) Q v
  rw [hheap]
  exact h

theorem setMdi_bind {g : MetadataInfo → MetadataInfo} {f : Unit → Client β} {Q : β → View → Prop}
    (h : Shows (careful uuid) view (f ()) Q (v.setObject mdi (g (v.heap mdi)))) :
    Shows (careful uuid) view (setMdi mdi g >>= f) Q v := by
  refine Shows.modify_bind (fun l s hv => ?_) h
  subst hv
  rfl

theorem setMD_bind {g : FileMetadata → FileMetadata} {f : Unit → Client β} {Q : β → View → Prop}
    (h : Shows (careful uuid) view (f ())
      Q (v.setObject mdi { v.heap mdi with md := g (v.heap mdi).md })) :
    Shows (careful uuid) view (setMD mdi g >>= f) Q v :=
  setMdi_bind h

theorem newMetadataInfo_bind {f : Nat → Client β} {Q : β → View → Prop}
    (h : Shows (careful uuid) view (f v.next) Q (v.alloc key)) :
    Shows (careful uuid) view (newMetadataInfo key >>= f) Q v := by
  have hnew : Shows (careful uuid) view (newMetadataInfo key)
      (fun mdi v' => mdi = v.next ∧ v' = v.alloc key) v := by
    refine Shows.get_bind fun l s hv => ?_
    have hnext : l.next = v.next := congrArg View.next hv
    refine Shows.modify_bind (fun l s hv => ?_) (Shows.pure ⟨hnext, rfl⟩)
    subst hv
    rfl
  refine hnew.then ?_
  rintro mdi v' ⟨rfl, rfl⟩
  exact h

theorem cacheInvalidate_bind {f : Unit → Client β} {Q : β → View → Prop}
    (h : Shows (careful uuid) view (f ()) Q (v.setCache key none)) :
    Shows (careful uuid) view (cacheInvalidate key >>= f) Q v := by
  refine Shows.modify_bind (fun l s hv => ?_) h
  subst hv
  rfl

theorem cacheAdd_bind {f : Unit → Client β} {Q : β → View → Prop}
    (h : v.lookupCache key = none → Shows (careful uuid) view (f ()) Q (v.setCache key (some mdi))) :
    Shows (careful uuid) view (cacheAdd key mdi >>= f) Q v := by
  have hadd : Shows (careful uuid) view (cacheAdd key mdi)
      (fun _ v' => v.lookupCache key = none ∧ v' = v.setCache key (some mdi)) v := by
    refine Shows.get_bind fun l s hv => ?_
    have hcache : l.lookupCache = v.lookupCache := congrArg View.lookupCache hv
    rw [hcache]
    cases hkey : v.lookupCache key with
    | some a => exact exit_shows
    | none =>
      refine Shows.modify (fun l s hv => ?_) ⟨rfl, rfl⟩
      subst hv
      rfl
  refine hadd.then ?_
  rintro _ v' ⟨hkey, rfl⟩
  exact h hkey

/-! ### Caches and keys -/

theorem cacheGet_shows (v : View) (held : List Str) (key : Str) :
    Shows (careful uuid) view (cacheGet held key) (fun r v' =>
      (∃ a, r = some a ∧ v.lookupCache key = some a ∧ v' = v) ∨
      (r = none ∧ v' = v.setCache key none ∧ (key ∈ held → v.lookupCache key = none))) v := by
  refine Shows.get_bind fun l s hv => ?_
  have hcache : l.lookupCache = v.lookupCache := congrArg View.lookupCache hv
  rw [hcache]
  cases hkey : v.lookupCache key with
  | none =>
    refine Shows.pure (Or.inr ⟨rfl, ?_, fun _ => rfl⟩)
    have hsame : Function.update v.lookupCache key none = v.lookupCache := by
      rw [← hkey, Function.update_eq_self]
    unfold View.setCache
    rw [hsame]
  | some a =>
    refine Shows.get_bind fun _ _ _ => Shows.ite (fun _ => ?_) fun _ => ?_
    · exact Shows.pure (Or.inl ⟨a, rfl, rfl, rfl⟩)
    · have hexpired : Shows (careful uuid) view (perform (.expired key (decide (key ∈ held))))
          (fun expired v' => v' = v ∧ (expired = true → key ∉ held)) v :=
        perform_expired ⟨rfl, fun h => by cases h⟩ fun h => ⟨rfl, fun _ => of_decide_eq_false h⟩
      refine hexpired.then ?_
      rintro expired v' ⟨rfl, hheld⟩
      refine Shows.ite (fun he => cacheInvalidate_bind (Shows.pure ?_)) fun _ => Shows.pure ?_
      · exact Or.inr ⟨rfl, rfl, fun h => absurd h (hheld he)⟩
      · exact Or.inl ⟨a, rfl, rfl, rfl⟩

theorem getMetadata_shows (v : View) (mdi : Nat) :
    Shows (careful uuid) view (getMetadata mdi) (fun err v' =>
      (∃ r, v.record (v.heap mdi).systemPath = some r ∧ err = 0 ∧
        v' = v.setObject mdi { v.heap mdi with md := r.value, keyVersion := r.version }) ∨
      (v.record (v.heap mdi).systemPath = none ∧ err = -ENOENT ∧ v' = v)) v := by
  refine getMdi_bind ?_
  have hget : Shows (careful uuid) view (perform (.get (v.heap mdi).systemPath))
      (fun x v' => x = lookupRecord (v.record (v.heap mdi).systemPath) ∧ v' = v) v :=
    perform_get ⟨rfl, rfl⟩
  refine hget.then ?_
  rintro _ v' ⟨rfl, rfl⟩
  cases hr : v'.record (v'.heap mdi).systemPath with
  | none => exact Shows.pure (Or.inr ⟨rfl, rfl, rfl⟩)
  | some r => exact setMdi_bind (Shows.pure (Or.inl ⟨r, rfl, rfl, rfl⟩))

section Put

variable (hne : ∀ n, uuid n ≠ [])

include hne

/-- A `Put` under the version of the key is carried out. -/
theorem perform_put_same {expected : Str} (hversion : versionOf (v.record key) = expected)
    (md : FileMetadata) :
    Shows (careful uuid) view (perform (.put key expected md)) (fun x v' => x.1 = .OK ∧ x.2 ≠ [] ∧
      v' = { v with record := Function.update v.record key (some ⟨md, x.2⟩) }) v := by
  have hsame : ∀ new, putSame (v.record key) expected ⟨md, new⟩ = (.OK, some ⟨md, new⟩) :=
    fun new => if_pos hversion
  refine perform_put hne fun new hnew => ⟨?_, hnew, ?_⟩
  · show (putSame _ _ _).1 = _
    rw [hsame]
  · show View.mk _ _ _ _ _ = _
    rw [hsame]
    rfl

theorem putMetadata_shows (h : Pending mdi v) :
    Shows (careful uuid) view (putMetadata mdi)
      (fun err v' => err = 0 ∧ ∃ new, new ≠ [] ∧ v' = v.stored mdi new) v := by
  obtain ⟨r, hr, hversion⟩ := h.current
  have hsame : versionOf (v.record (v.heap mdi).systemPath) = (v.heap mdi).keyVersion := by
    rw [hr]
    exact hversion
  refine getMdi_bind ((perform_put_same hne hsame (v.heap mdi).md).then ?_)
  rintro ⟨status, new⟩ v' ⟨hstatus, hnew, rfl⟩
  obtain rfl : status = .OK := hstatus
  exact setMdi_bind (Shows.pure ⟨rfl, new, hnew, rfl⟩)

/-- Where there is no record yet, no other object with an inode number is cached. -/
theorem createMetadata_shows (h : Coherent (some mdi) v) :
    Shows (careful uuid) view (createMetadata mdi) (fun err v' => err = 0 → Coherent none v') v := by
  refine getMdi_bind ?_
  by_cases hversion : versionOf (v.record (v.heap mdi).systemPath) = []
  · have hnone : v.record (v.heap mdi).systemPath = none := by
      cases hr : v.record (v.heap mdi).systemPath with
      | none => rfl
      | some r =>
        rw [hr] at hversion
        exact absurd hversion (h.versions hr)
    have halone : ∀ a, v.lookupCache (v.heap mdi).systemPath = some a → a ≠ mdi →
        ¬ Normal (v.heap a) := by
      intro a ha hother hn
      have hs := h.stored ha (fun he => hother (Option.some.inj he).symm) hn
      rw [hnone] at hs
      cases hs
    refine (perform_put_same hne hversion (v.heap mdi).md).then ?_
    rintro ⟨status, new⟩ v' ⟨hstatus, hnew, rfl⟩
    obtain rfl : status = .OK := hstatus
    exact setMdi_bind (Shows.pure fun _ => h.store halone hnew)
  · have hput : Shows (careful uuid) view (perform (.put (v.heap mdi).systemPath [] (v.heap mdi).md))
        (fun x _ => x.1 = .REMOTE_VERSION_MISMATCH) v := by
      refine perform_put hne fun new _ => ?_
      have hother : putSame (v.record (v.heap mdi).systemPath) [] ⟨(v.heap mdi).md, new⟩ =
          (.REMOTE_VERSION_MISMATCH, v.record (v.heap mdi).systemPath) := if_neg hversion
      exact congrArg Prod.fst hother
    refine hput.then ?_
    rintro ⟨status, new⟩ v' hstatus
    obtain rfl : status = .REMOTE_VERSION_MISMATCH := hstatus
    exact Shows.pure fun h0 => absurd h0 (by decide)

/-- `put_metadata_forced` succeeds at the first attempt. -/
theorem putMetadataForced_shows {update : Client Unit} (h : Pending mdi v)
    (hupdate : ∀ v, Pending mdi v → Shows (careful uuid) view update (fun _ => Pending mdi) v)
    (fuel : Nat) :
    Shows (careful uuid) view (putMetadataForced mdi update fuel)
      (fun err v' => err = 0 ∧ Coherent none v') v := by
  cases fuel with
  | zero => exact exit_shows
  | succ fuel =>
    refine (hupdate v h).then fun _ v1 h1 => (putMetadata_shows hne h1).then ?_
    rintro err v2 ⟨rfl, new, hnew, rfl⟩
    exact Shows.ite (fun _ => Shows.pure ⟨rfl, h1.coherent.store h1.alone hnew⟩)
      fun hagain => absurd (by decide) hagain

end Put

theorem deleteMetadata_shows (v : View) (held : List Str) (mdi : Nat) :
    Shows (careful uuid) view (deleteMetadata held mdi) (fun err v' =>
      (v.heap mdi).systemPath ∉ held ∧
      v' = v.deleted (v.heap mdi).systemPath (v.heap mdi).keyVersion ∧
      ((∃ r, v.record (v.heap mdi).systemPath = some r ∧ r.version = (v.heap mdi).keyVersion) →
        err = 0)) v := by
  refine getMdi_bind (cacheInvalidate_bind ?_)
  have hdelete : Shows (careful uuid) view
      (perform (.delete (v.heap mdi).systemPath (v.heap mdi).keyVersion
        (decide ((v.heap mdi).systemPath ∈ held))))
      (fun status v' => (v.heap mdi).systemPath ∉ held ∧
        v' = v.deleted (v.heap mdi).systemPath (v.heap mdi).keyVersion ∧
        ((∃ r, v.record (v.heap mdi).systemPath = some r ∧ r.version = (v.heap mdi).keyVersion) →
          status = .OK)) (v.setCache (v.heap mdi).systemPath none) := by
    refine perform_delete fun hheld => ⟨of_decide_eq_false hheld, rfl, ?_⟩
    rintro ⟨r, hr, hversion⟩
    show (deleteSame (v.record (v.heap mdi).systemPath) (v.heap mdi).keyVersion).1 = .OK
    rw [hr]
    unfold deleteSame
    dsimp only
    rw [if_pos hversion]
  refine hdelete.then ?_
  rintro status v' ⟨hheld, hv', hok⟩
  have herr : ∀ err : Int, status ≠ .OK → Shows (careful uuid) view (pure err : Client Int)
      (fun err v' => (v.heap mdi).systemPath ∉ held ∧
        v' = v.deleted (v.heap mdi).systemPath (v.heap mdi).keyVersion ∧
        ((∃ r, v.record (v.heap mdi).systemPath = some r ∧ r.version = (v.heap mdi).keyVersion) →
          err = 0)) v' :=
    fun err hstatus => Shows.pure ⟨hheld, hv', fun hr => absurd (hok hr) hstatus⟩
  cases status with
  | OK => exact Shows.pure ⟨hheld, hv', fun _ => rfl⟩
  | _ => exact herr _ StatusCode.noConfusion

/-! ### Time stamps and database -/

/-- The clock is read and the object changed, but for what stays the same in lookups and flushes. -/
theorem stamp_shows {g : Nat → FileMetadata → FileMetadata}
    (hg : ∀ now (x : MetadataInfo), identity { x with md := g now x.md } = identity x) :
    Shows (careful uuid) view (do let now : Nat ← perform .time; setMD mdi (g now) : Client Unit)
      (fun _ v' => ∃ x : MetadataInfo, identity x = identity (v.heap mdi) ∧
        x.keyVersion = (v.heap mdi).keyVersion ∧ v' = v.setObject mdi x) v := by
  refine (perform_stutters (r := .time) trivial).then fun now => ?_
  have hset : ∀ l s, view l s = v →
      view (l.setObject mdi { l.heap mdi with md := g now (l.heap mdi).md }) s =
        v.setObject mdi { v.heap mdi with md := g now (v.heap mdi).md } := by
    rintro l s rfl
    rfl
  exact Shows.modify hset ⟨_, hg now _, rfl, rfl⟩

theorem updateACMtime_shows : Shows (careful uuid) view (updateACMtime mdi)
    (fun _ v' => ∃ x : MetadataInfo, identity x = identity (v.heap mdi) ∧
      x.keyVersion = (v.heap mdi).keyVersion ∧ v' = v.setObject mdi x) v :=
  stamp_shows fun _ _ => rfl

theorem updateACtime_shows : Shows (careful uuid) view (updateACtime mdi)
    (fun _ v' => ∃ x : MetadataInfo, identity x = identity (v.heap mdi) ∧
      x.keyVersion = (v.heap mdi).keyVersion ∧ v' = v.setObject mdi x) v :=
  stamp_shows fun _ _ => rfl

/-- Without new entries there is an error, but not that of a missing permission. -/
theorem databaseUpdate_shows (v : View) :
    Shows (careful uuid) view databaseUpdate (fun err v' => err ≠ -EACCES ∧ v' = v) v := by
  refine Shows.get_bind fun l _ _ => ?_
  have hentries : Shows (careful uuid) view (perform (.databaseUpdate l.pmap.snapshotVersion))
      (fun entries v' => (∀ err, entries = .error err → err ≠ -EACCES) ∧ v' = v) v := by
    refine Shows.call fun l' s choice x s' hv hserve => ?_
    have hserve : serve uuid s (.databaseUpdate l.pmap.snapshotVersion) choice = some (x, s') :=
      (serve_restrict hserve).2
    cases choice with
    | done =>
      simp only [serve, Option.map_eq_some_iff, Prod.mk.injEq] at hserve
      obtain ⟨entries, hentries, rfl, rfl⟩ := hserve
      refine ⟨fun err he => ?_, hv⟩
      subst he
      unfold Store.databaseUpdate at hentries
      split at hentries
      · cases hentries
      · split at hentries
        · cases hentries
          decide
        · cases hentries
    | _ => cases hserve
  refine hentries.then ?_
  rintro entries v' ⟨herr, rfl⟩
  cases entries with
  | error err => exact Shows.pure ⟨herr err rfl, rfl⟩
  | ok entries =>
    dsimp only
    split
    · exact exit_shows
    · refine Shows.modify_bind (fun l s hv => ?_) (Shows.pure ⟨by decide, rfl⟩)
      rw [← hv]
      rfl

theorem databaseUpdate_stutters : Stutters (careful uuid) view databaseUpdate :=
  fun v => (databaseUpdate_shows v).mono fun _ _ h => h.2

theorem databaseOperation_stutters (entry : DbEntry) (fuel : Nat) :
    Stutters (careful uuid) view (databaseOperation entry fuel) := by
  induction fuel with
  | zero => exact exit_stutters
  | succ fuel ih =>
    refine Stutters.get_bind fun l => ?_
    refine (perform_stutters (r := .append (l.pmap.snapshotVersion + 1) entry) trivial).bind fun status => ?_
    cases status with
    | OK =>
      dsimp only
      split
      · exact exit_stutters
      · refine Stutters.bind (Stutters.modify ?_) fun _ => Stutters.pure 0
        exact fun _ _ => rfl
    | REMOTE_VERSION_MISMATCH =>
      exact databaseUpdate_stutters.bind fun err => Stutters.ite (Stutters.pure err) ih
    | _ => exact Stutters.pure _

end Client

/-! ## Lookup (`lookup.cc`) -/

theorem identity_inherit (env : Env) (x : MetadataInfo) (parent : FileMetadata) :
    identity { x with md := Attributes.inheritPathPermissions env x.md parent } = identity x := by
  obtain ⟨es, hes⟩ := inherit_eq env x.md.toMetadata parent.toMetadata
  unfold Attributes.inheritPathPermissions identity
  dsimp only
  rw [hes]
  rfl

/-- What `lookup` ensures. -/
structure Looked (held : List Str) (v : View) (r : Int × Option Nat) (v' : View) : Prop where
  coherent : Coherent none v'
  within : Within held v v'
  found : r.1 = 0 ∨ r.1 = -EACCES → ∃ a, r.2 = some a ∧ Cached a v'

/-- All that is needed of the recursive calls. -/
def LooksUp (uuid : Nat → Str) (lookup : Lookup) : Prop :=
  ∀ held path pointer v, Coherent none v → Pinned held v →
    Shows (careful uuid) view (lookup held path pointer) (Looked held v) v

section Lookup

variable {uuid : Nat → Str} {env : Env} {ctx : Context} {lookup : Lookup} {v v' : View}
variable {held : List Str} {userPath key : Str} {timeStamp : Int} {mdi : Nat}

theorem Looked.error (h : Coherent none v') (hw : Within held v v') {err : Int} (h0 : err ≠ 0)
    (hacces : err ≠ -EACCES) (pointer : Option Nat) : Looked held v (err, pointer) v' :=
  ⟨h, hw, fun hr => hr.elim (fun he => absurd he h0) fun he => absurd he hacces⟩

/-- With steps before. -/
theorem Looked.after {r : Int × Option Nat} {v'' : View} (hw : Within held v v')
    (h : Looked held v' r v'') : Looked held v r v'' :=
  ⟨h.coherent, hw.trans h.within, h.found⟩

theorem LooksUp.after (hl : LooksUp uuid lookup) (h : Coherent none v') (hp : Pinned held v')
    (hw : Within held v v') (path : Str) (pointer : Option Nat) :
    Shows (careful uuid) view (lookup held path pointer) (Looked held v) v' :=
  (hl held path pointer v' h hp).mono fun _ _ => Looked.after hw

theorem lookupParentWith_shows (hl : LooksUp uuid lookup) (h : Coherent none v) (hp : Pinned held v)
    (path : Str) :
    Shows (careful uuid) view (lookupParentWith ctx lookup held path) (Looked held v) v := by
  unfold lookupParentWith
  cases cutParent path with
  | none => exact Shows.pure (Looked.error h (Within.refl _ _) (by decide) (by decide) none)
  | some parent =>
    refine (hl held parent none v h hp).then ?_
    rintro ⟨err, mdiParent⟩ v1 h1
    refine Shows.ite (fun _ => Shows.pure h1) fun herr => deref_bind fun a ha => getMdi_bind ?_
    obtain ⟨b, hb, hcached⟩ := h1.found (Or.inl (not_not.mp herr))
    refine Shows.ite (fun _ => Shows.pure ?_) fun _ => Shows.pure ?_
    · exact Looked.error h1.coherent h1.within (by decide) (by decide) mdiParent
    · exact ⟨h1.coherent, h1.within, fun _ => ⟨b, hb, hcached⟩⟩

theorem finalCheck_shows (h : Coherent none v') (hw : Within held v v') (hc : Cached mdi v') :
    Shows (careful uuid) view (finalCheck ctx mdi) (Looked held v) v' :=
  getMdi_bind (Shows.pure ⟨h, hw, fun _ => ⟨mdi, rfl, hc⟩⟩)

theorem Cached.stored (h : Cached mdi v) (new : Str) : Cached mdi (v.stored mdi new) := by
  have hself : (v.stored mdi new).heap mdi = { v.heap mdi with keyVersion := new } :=
    setObject_heap_self _ _ _
  unfold Cached
  rw [hself]
  exact h

theorem Cached.setObject {x : MetadataInfo} (h : Cached mdi v) (hx : identity x = identity (v.heap mdi)) :
    Cached mdi (v.setObject mdi x) := by
  have hpath : x.systemPath = (v.heap mdi).systemPath := congrArg Prod.fst hx
  unfold Cached
  rw [setObject_heap_self, hpath]
  exact ⟨h.1, (found_congr hx).mpr h.2⟩

/-- A change that keeps path and version does not hinder the object from being stored. -/
theorem Pending.change {x : MetadataInfo} (h : Pending mdi v) (hx : identity x = identity (v.heap mdi))
    (hversion : x.keyVersion = (v.heap mdi).keyVersion) : Pending mdi (v.setObject mdi x) :=
  h.setObject (congrArg Prod.fst hx) hversion

section Stale

variable (hne : ∀ n, uuid n ≠ [])

include hne

theorem inheritFromParent_shows (h : Coherent none v) (hc : Cached mdi v) (path : Str) (parent : Nat) :
    Shows (careful uuid) view (inheritFromParent env ctx lookup held path mdi parent)
      (Looked held v) v := by
  refine getMdi_bind (setMD_bind ?_)
  have hid := identity_inherit env (v.heap mdi) (v.heap parent).md
  have hpending := (hc.pending h).change hid rfl
  refine (putMetadata_shows hne hpending).then ?_
  rintro err v2 ⟨rfl, new, hnew, rfl⟩
  refine Shows.ite (fun he => absurd he (by decide)) fun _ => ?_
  refine Shows.ite (fun he => absurd rfl he) fun _ => ?_
  have hstored := hpending.coherent.store hpending.alone hnew
  have hw := (Within.setObject held hid).trans (Within.stored held _ mdi new)
  exact finalCheck_shows hstored hw ((hc.setObject hid).stored new)

/-- The object stays in the cache while the parents are looked up. -/
theorem checkStale_shows (hl : LooksUp uuid lookup) (h : Coherent none v) (hp : Pinned held v)
    (hc : Cached mdi v) (hkey : (v.heap mdi).systemPath = key) (path : Str) :
    Shows (careful uuid) view (checkStale env ctx lookup held path key timeStamp mdi)
      (Looked held v) v := by
  have hheld : Pinned (key :: held) v := by
    intro k hk
    obtain rfl | hk := List.mem_cons.mp hk
    · rw [← hkey]
      exact ⟨mdi, hc⟩
    · exact hp k hk
  refine getMdi_bind (Shows.ite (fun _ => ?_) fun _ => finalCheck_shows h (Within.refl _ _) hc)
  refine (lookupParentWith_shows hl h hheld path).then ?_
  rintro ⟨err, mdiParent⟩ v1 h1
  have hw : Within held v v1 := h1.within.mono fun k hk => List.mem_cons_of_mem _ hk
  refine Shows.ite (fun herr => Shows.pure (Looked.error h1.coherent hw herr.1 herr.2 _)) fun _ => ?_
  refine deref_bind fun parent _ => ?_
  have hc1 : Cached mdi v1 := hc.within h h1.within (by rw [hkey]; exact List.mem_cons_self)
  exact (inheritFromParent_shows hne h1.coherent hc1 path parent).mono fun _ _ => Looked.after hw

/-- The object that `lookup` goes on with: cached, or just read. -/
structure Candidate (key : Str) (mdi : Nat) (cached : Bool) (v : View) : Prop where
  path : (v.heap mdi).systemPath = key
  used : mdi < v.next
  entry : v.lookupCache key = if cached then some mdi else none
  stored : cached = false → (v.heap mdi).md.inodeNumber ≠ 0 →
    v.record key = some ⟨(v.heap mdi).md, (v.heap mdi).keyVersion⟩

theorem lookupFound_shows (hl : LooksUp uuid lookup) {cached : Bool} (h : Coherent none v)
    (hp : Pinned held v) (hc : Candidate key mdi cached v) (path : Str) :
    Shows (careful uuid) view (lookupFound env ctx lookup held path key timeStamp mdi cached)
      (Looked held v) v := by
  have hfree : cached = false → key ∉ held := by
    rintro rfl hkey
    obtain ⟨a, ha, -⟩ := hp key hkey
    exact absurd (hc.entry.symm.trans ha) (by simp)
  refine getMdi_bind (Shows.ite (fun _ => ?_) fun hi => ?_)
  · exact Shows.pure (Looked.error h (Within.refl _ _) (by decide) (by decide) _)
  have hstale : Found (v.heap mdi) → Shows (careful uuid) view (do
      if ¬ cached then cacheAdd key mdi
      checkStale env ctx lookup held path key timeStamp mdi) (Looked held v) v := by
    intro hf
    cases cached with
    | true => exact checkStale_shows hne hl h hp ⟨hc.path ▸ hc.entry, hf⟩ hc.path path
    | false =>
      refine cacheAdd_bind fun _ => ?_
      have hw := Within.setCache v (some mdi) (hfree rfl)
      have hadd := h.add hc.path hc.used fun _ => hc.stored rfl hi
      have hcached : Cached mdi (v.setCache key (some mdi)) := by
        refine ⟨?_, hf⟩
        show Function.update v.lookupCache key (some mdi) (v.heap mdi).systemPath = some mdi
        rw [hc.path, Function.update_self]
      exact (checkStale_shows hne hl hadd (hp.within h hw) hcached hc.path path).mono
        fun _ _ => Looked.after hw
  cases htype : (v.heap mdi).md.type with
  | POSIX => exact hstale ⟨⟨hi, by rw [htype]; decide⟩, by rw [htype]; decide⟩
  | HARDLINK_T => exact hstale ⟨⟨hi, by rw [htype]; decide⟩, by rw [htype]; decide⟩
  | FORCE_UPDATE =>
    have hkey : key ∉ held := by
      intro hkey
      obtain ⟨a, ha, hf⟩ := hp key hkey
      cases cached with
      | true =>
        obtain rfl : mdi = a := Option.some.inj (hc.entry.symm.trans ha)
        exact hf.2 htype
      | false => exact hfree rfl hkey
    have hw := Within.setCache v none hkey
    refine (databaseUpdate_shows v).then ?_
    rintro err v' ⟨herr, rfl⟩
    refine cacheInvalidate_bind (Shows.ite (fun h0 => Shows.pure ?_) fun _ => ?_)
    · exact Looked.error (h.drop key) hw h0 herr _
    · exact hl.after (h.drop key) (hp.within h hw) hw path (some mdi)
  | HARDLINK_S =>
    cases cached with
    | true => exact hl held _ _ v h hp
    | false =>
      refine newMetadataInfo_bind (setMD_bind (cacheAdd_bind fun _ => ?_))
      have halloc : (v.alloc key).heap v.next = ⟨key, lit "0", FileMetadata.empty, none⟩ :=
        Function.update_self _ _ _
      have hfresh : ∀ k, (v.alloc key).lookupCache k ≠ some v.next :=
        fun k hk => absurd (h.used hk) (lt_irrefl _)
      rw [halloc]
      have hset := (h.alloc key).setUncached hfresh ⟨key, lit "0",
        { FileMetadata.empty with type := .HARDLINK_S, inodeNumber := (v.heap mdi).md.inodeNumber }, none⟩
      have hw1 := Within.read held v key (lit "0")
        { FileMetadata.empty with type := .HARDLINK_S, inodeNumber := (v.heap mdi).md.inodeNumber }
      have hpath : (((v.alloc key).setObject v.next ⟨key, lit "0",
          { FileMetadata.empty with type := .HARDLINK_S, inodeNumber := (v.heap mdi).md.inodeNumber },
          none⟩).heap v.next).systemPath = key := by rw [setObject_heap_self]
      have hadd := hset.add hpath (Nat.lt_succ_self _) fun hn => by
        rw [setObject_heap_self] at hn
        exact absurd rfl hn.2
      have hw := hw1.trans (Within.setCache _ (some v.next) (hfree rfl))
      exact hl.after hadd (hp.within h hw) hw _ (some mdi)

theorem lookupStored_shows (hl : LooksUp uuid lookup) (h : Coherent none v) (hp : Pinned held v)
    (hkey : v.lookupCache key = none) (path : Str) :
    Shows (careful uuid) view (lookupStored env ctx lookup held path key timeStamp)
      (Looked held v) v := by
  have hfree : key ∉ held := by
    intro hheld
    obtain ⟨a, ha, -⟩ := hp key hheld
    rw [hkey] at ha
    cases ha
  have halloc : (v.alloc key).heap v.next = ⟨key, lit "0", FileMetadata.empty, none⟩ :=
    Function.update_self _ _ _
  have hfresh : ∀ k, (v.alloc key).lookupCache k ≠ some v.next :=
    fun k hk => absurd (h.used hk) (lt_irrefl _)
  have hw0 := Within.alloc held v key
  refine newMetadataInfo_bind ((getMetadata_shows (v.alloc key) v.next).then ?_)
  rintro err v1 (⟨r, hr, rfl, rfl⟩ | ⟨hr, rfl, rfl⟩)
  · refine Shows.ite (fun he => absurd he (by decide)) fun _ => ?_
    refine Shows.ite (fun he => absurd rfl he) fun _ => ?_
    rw [halloc] at hr ⊢
    have hset := (h.alloc key).setUncached hfresh ⟨key, r.version, r.value, none⟩
    have hw := Within.read held v key r.version r.value
    have hcandidate : Candidate key v.next false
        ((v.alloc key).setObject v.next ⟨key, r.version, r.value, none⟩) := by
      refine ⟨?_, Nat.lt_succ_self _, hkey, fun _ _ => ?_⟩
      · rw [setObject_heap_self]
      · rw [setObject_heap_self]
        exact hr
    exact (lookupFound_shows hne hl hset (hp.within h hw) hcandidate path).mono
      fun _ _ => Looked.after hw
  · refine Shows.ite (fun _ => cacheAdd_bind fun _ => getMdi_bind ?_) fun he => absurd rfl he
    have hempty : ¬ Normal ((v.alloc key).heap v.next) := by
      rw [halloc]
      exact fun hn => hn.1 rfl
    have hpath : ((v.alloc key).heap v.next).systemPath = key := by rw [halloc]
    have hadd := (h.alloc key).add hpath (Nat.lt_succ_self _) fun hn => absurd hn hempty
    have hw := hw0.trans (Within.setCache _ (some v.next) hfree)
    refine Shows.ite (fun _ => Shows.pure ?_) fun hi => absurd ?_ hi
    · exact Looked.error hadd hw (by decide) (by decide) _
    · exact congrArg (fun x : MetadataInfo => x.md.inodeNumber) halloc

end Stale

end Lookup

/-- `lookup` keeps the cache coherent, and what it finds is in the cache. -/
theorem lookup_shows {uuid : Nat → Str} (hne : ∀ n, uuid n ≠ []) (env : Env) (ctx : Context)
    (fuel : Nat) : LooksUp uuid (lookup env ctx fuel) := by
  induction fuel with
  | zero => exact fun _ _ _ _ _ _ => exit_shows
  | succ fuel ih =>
    intro held path pointer v h hp
    refine Shows.get_bind fun l _ _ => ?_
    split
    · exact exit_shows
    · rename_i key timeStamp hpath
      refine Shows.ite (fun hx => Shows.pure ?_) fun _ => ?_
      · have hacces : timeStamp ≠ -EACCES := by
          obtain h0 | rfl | rfl := toSystemPath_timeStamp hpath
          · exact absurd hx (not_lt.mpr h0)
          · decide
          · decide
        exact Looked.error h (Within.refl _ _) (ne_of_lt hx) hacces _
      · refine (cacheGet_shows v held key).then ?_
        rintro r v1 (⟨mdi, rfl, hmdi, rfl⟩ | ⟨rfl, rfl, hheld⟩)
        · have hcandidate : Candidate key mdi true v1 :=
            ⟨h.path hmdi, h.used hmdi, hmdi, fun hc => by cases hc⟩
          exact lookupFound_shows hne ih h hp hcandidate path
        · have hw := Within.forget hheld
          exact (lookupStored_shows hne ih (h.drop key) (hp.within h hw) (Function.update_self _ _ _)
            path).mono fun _ _ => Looked.after hw

end HFlat.Fuse.Lone
