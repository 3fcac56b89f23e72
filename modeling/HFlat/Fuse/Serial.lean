/-
  Changes of metadata serialize: the stored metadata are what the changes stored so far make of the
  initial ones, in the order of their `Put`s.

  What keeps the clients in step is that a version determines the metadata (`Knowledge.known`). An
  operation changes the object that the cache holds and then stores it under the version that it was
  loaded with. If that fails the object has metadata that were never stored, but it is in the cache
  no more; it stays in use only if its version has been replaced (`Knowledge.outdated`), and then no
  later `Put` of it can succeed either.
-/
import HFlat.Fuse.Attributes

namespace HFlat.Fuse.Attributes

open HFlat.Lib HFlat.Permission
open HFlat.Replication (KineticRecord StatusCode versionOf putSame)

/-! ## What a client knows -/

/-- What a client knows of the versions of keys. -/
structure Knowledge where
  /-- the metadata that a version of a key is known to have had -/
  known : Str → Str → FileMetadata → Prop
  /-- the versions of a key that are known to have been replaced -/
  outdated : Str → Str → Prop

/-- A version of a key has had this metadata. -/
def Knowledge.add (k : Knowledge) (key version : Str) (md : FileMetadata) : Knowledge :=
  { k with known := fun key' version' md' =>
      k.known key' version' md' ∨ (key' = key ∧ version' = version ∧ md' = md) }

/-- A version of a key has been replaced. -/
def Knowledge.replace (k : Knowledge) (key version : Str) : Knowledge :=
  { k with outdated := fun key' version' =>
      k.outdated key' version' ∨ (key' = key ∧ version' = version) }

/-- What is known stays known. -/
structure Knowledge.Le (k k' : Knowledge) : Prop where
  known : ∀ {key version md}, k.known key version md → k'.known key version md
  outdated : ∀ {key version}, k.outdated key version → k'.outdated key version

/-- A client stores what one of the changes makes of metadata that it knows, under the version
    that the metadata had, or something under a version that is outdated. -/
def protocol (env : Env) : Protocol Req Res Knowledge where
  allowed k
    | .put key expected md why => k.outdated key expected ∨
        ∃ md0, k.known key expected md0 ∧ why.apply env md0 = .ok md
    | _ => True
  answers _ _ _ := True
  next k
    | .get key, .ok r => k.add key r.version r.value
    | .put key _ md _, (.OK, version) => k.add key version md
    | .put key expected _ _, (.REMOTE_VERSION_MISMATCH, _) => k.replace key expected
    | _, _ => k

/-- An object that an operation may change: its metadata are known, or no `Put` of it can succeed. -/
def Settled (k : Knowledge) (x : MetadataInfo) : Prop :=
  k.known x.systemPath x.keyVersion x.md ∨ k.outdated x.systemPath x.keyVersion

/-- The object is one of the client's, and what it holds is known. -/
def Ready (l : Local) (k : Knowledge) (mdi : Nat) : Prop := mdi < l.next ∧ Settled k (l.heap mdi)

/-- An object in the cache: one that no operation stores, or a settled one. -/
def Clean (k : Knowledge) (x : MetadataInfo) : Prop :=
  x.md.inodeNumber = 0 ∨ x.md.type = .HARDLINK_S ∨ Settled k x

/-- The cached objects are clean, apart from the one that is being changed. -/
def CacheInv (l : Local) (k : Knowledge) (changing : Option Nat) : Prop :=
  ∀ key mdi, l.lookupCache key = some mdi → mdi < l.next ∧ (l.heap mdi).systemPath = key ∧
    (changing ≠ some mdi → Clean k (l.heap mdi))

/-- The object is the one for this key. -/
def Found (l : Local) (k : Knowledge) (key : Str) (mdi : Nat) : Prop :=
  mdi < l.next ∧ (l.heap mdi).systemPath = key ∧ Clean k (l.heap mdi)

/-- From `l` to `l'`, objects that may be changed stay so. -/
def Keeps (l : Local) (k : Knowledge) (l' : Local) (k' : Knowledge) : Prop :=
  ∀ mdi, Ready l k mdi → Ready l' k' mdi

section Memory

variable {l l' l'' : Local} {k k' k'' : Knowledge} {mdi : Nat} {key : Str} {x : MetadataInfo}

theorem Knowledge.le_refl (k : Knowledge) : k.Le k := ⟨id, id⟩

theorem Knowledge.le_add (k : Knowledge) (key version : Str) (md : FileMetadata) :
    k.Le (k.add key version md) := ⟨Or.inl, id⟩

theorem Knowledge.le_replace (k : Knowledge) (key version : Str) : k.Le (k.replace key version) :=
  ⟨id, Or.inl⟩

theorem Settled.mono (h : Settled k x) (hk : k.Le k') : Settled k' x := h.imp hk.known hk.outdated

theorem Clean.mono (h : Clean k x) (hk : k.Le k') : Clean k' x :=
  h.imp_right (Or.imp_right fun hs => hs.mono hk)

theorem Clean.settled (h : Clean k x) (hi : x.md.inodeNumber ≠ 0) (ht : x.md.type ≠ .HARDLINK_S) :
    Settled k x := by
  rcases h with h | h | h
  · exact absurd h hi
  · exact absurd h ht
  · exact h

theorem Ready.mono (h : Ready l k mdi) (hk : k.Le k') : Ready l k' mdi := ⟨h.1, h.2.mono hk⟩

theorem Keeps.refl : Keeps l k l k := fun _ h => h

theorem Keeps.trans (h : Keeps l k l' k') (h' : Keeps l' k' l'' k'') : Keeps l k l'' k'' :=
  fun mdi hm => h' mdi (h mdi hm)

theorem Keeps.mono (h : Keeps l k l' k') (hk : k'.Le k'') : Keeps l k l' k'' :=
  fun mdi hm => (h mdi hm).mono hk

/-- The cache is not in the way. -/
theorem Keeps.setCache (key : Str) (entry : Option Nat) : Keeps l k (l.setCache key entry) k :=
  fun _ h => h

/-- Writing to an object keeps all the others. -/
theorem Keeps.setObject (h : Ready l k mdi → Settled k x) : Keeps l k (l.setObject mdi x) k := by
  intro mdi' hm
  refine ⟨hm.1, ?_⟩
  show Settled k (Function.update l.heap mdi x mdi')
  by_cases he : mdi' = mdi
  · subst he
    rw [Function.update_self]
    exact h hm
  · rw [Function.update_of_ne he]
    exact hm.2

/-- A new object is none of those that may be changed, whatever is written to it. -/
theorem Keeps.alloc (key : Str) (x : MetadataInfo) :
    Keeps l k ((l.alloc key).setObject l.next x) k := by
  intro mdi hm
  refine ⟨Nat.lt_succ_of_lt hm.1, ?_⟩
  show Settled k (Function.update (Function.update l.heap l.next _) l.next x mdi)
  rw [Function.update_of_ne (Nat.ne_of_lt hm.1), Function.update_of_ne (Nat.ne_of_lt hm.1)]
  exact hm.2

theorem CacheInv.mono {changing : Option Nat} (h : CacheInv l k changing) (hk : k.Le k') :
    CacheInv l k' changing := by
  intro key mdi hmdi
  obtain ⟨hlt, hpath, hclean⟩ := h key mdi hmdi
  exact ⟨hlt, hpath, fun hne => (hclean hne).mono hk⟩

/-- The object that is changed keeps its path. -/
theorem CacheInv.setObject {changing : Option Nat} (h : CacheInv l k changing)
    (hc : changing = none ∨ changing = some mdi) (hx : x.systemPath = (l.heap mdi).systemPath) :
    CacheInv (l.setObject mdi x) k (some mdi) := by
  intro key mdi' hmdi'
  obtain ⟨hlt, hpath, hclean⟩ := h key mdi' hmdi'
  refine ⟨hlt, ?_, fun hne => ?_⟩
  · show (Function.update l.heap mdi x mdi').systemPath = key
    by_cases hm : mdi' = mdi
    · subst hm
      rw [Function.update_self, hx, hpath]
    · rw [Function.update_of_ne hm, hpath]
  · have hm : mdi' ≠ mdi := fun hm => hne (by rw [hm])
    show Clean k (Function.update l.heap mdi x mdi')
    rw [Function.update_of_ne hm]
    apply hclean
    rcases hc with rfl | rfl
    · simp
    · simpa using hm.symm

/-- Without the changed object, or with it clean again. -/
theorem CacheInv.restore (h : CacheInv l k (some mdi))
    (hm : ∀ key, l.lookupCache key = some mdi → Clean k (l.heap mdi)) : CacheInv l k none := by
  intro key mdi' hmdi'
  obtain ⟨hlt, hpath, hclean⟩ := h key mdi' hmdi'
  refine ⟨hlt, hpath, fun _ => ?_⟩
  by_cases hmdi : mdi' = mdi
  · subst hmdi
    exact hm key hmdi'
  · exact hclean (by simpa using Ne.symm hmdi)

theorem CacheInv.setCache_none {changing : Option Nat} (h : CacheInv l k changing) (key : Str) :
    CacheInv (l.setCache key none) k changing := by
  intro key' mdi hmdi
  have hmdi : Function.update l.lookupCache key none key' = some mdi := hmdi
  by_cases hk : key' = key
  · rw [hk, Function.update_self] at hmdi
    cases hmdi
  · rw [Function.update_of_ne hk] at hmdi
    exact h key' mdi hmdi

/-- Once its key is dropped, the changed object is not cached any more. -/
theorem CacheInv.drop (h : CacheInv l k (some mdi)) :
    CacheInv (l.setCache (l.heap mdi).systemPath none) k none := by
  refine (h.setCache_none _).restore fun key hkey => ?_
  have hkey : Function.update l.lookupCache (l.heap mdi).systemPath none key = some mdi := hkey
  by_cases hk : key = (l.heap mdi).systemPath
  · rw [hk, Function.update_self] at hkey
    cases hkey
  · rw [Function.update_of_ne hk] at hkey
    exact absurd (h key mdi hkey).2.1.symm hk

theorem CacheInv.add (h : CacheInv l k none) (hf : Found l k key mdi) :
    CacheInv (l.setCache key (some mdi)) k none := by
  intro key' mdi' hmdi'
  have hmdi' : Function.update l.lookupCache key (some mdi) key' = some mdi' := hmdi'
  by_cases hk : key' = key
  · rw [hk, Function.update_self] at hmdi'
    cases hmdi'
    exact ⟨hf.1, by rw [hk]; exact hf.2.1, fun _ => hf.2.2⟩
  · rw [Function.update_of_ne hk] at hmdi'
    exact h key' mdi' hmdi'

/-- The next address is not in use. -/
theorem CacheInv.not_cached {changing : Option Nat} (h : CacheInv l k changing) (key : Str) :
    l.lookupCache key ≠ some l.next := by
  intro hk
  exact absurd (h key l.next hk).1 (Nat.lt_irrefl _)

theorem CacheInv.alloc (h : CacheInv l k none) (key : Str) : CacheInv (l.alloc key) k none := by
  intro key' mdi hmdi
  obtain ⟨hlt, hpath, hclean⟩ := h key' mdi hmdi
  have hheap : (l.alloc key).heap mdi = l.heap mdi := Function.update_of_ne (Nat.ne_of_lt hlt) _ _
  rw [hheap]
  exact ⟨Nat.lt_succ_of_lt hlt, hpath, hclean⟩

end Memory

/-! ## Clients follow the protocol -/

section Programs

variable {env : Env} {ctx : Context} {l : Local} {k : Knowledge} {mdi : Nat} {key : Str} {α : Type}

section Bind

variable {Q : α → Local → Knowledge → Prop}

theorem getMdi_bind {f : MetadataInfo → Client α}
    (h : Conforms (protocol env) (f (l.heap mdi)) Q l k) :
    Conforms (protocol env) (getMdi mdi >>= f) Q l k := h

theorem setMdi_bind {g : MetadataInfo → MetadataInfo} {f : Unit → Client α}
    (h : Conforms (protocol env) (f ()) Q (l.setObject mdi (g (l.heap mdi))) k) :
    Conforms (protocol env) (setMdi mdi g >>= f) Q l k := h

theorem newMetadataInfo_bind {f : Nat → Client α}
    (h : Conforms (protocol env) (f l.next) Q (l.alloc key) k) :
    Conforms (protocol env) (newMetadataInfo key >>= f) Q l k := h

theorem cacheInvalidate_bind {f : Unit → Client α}
    (h : Conforms (protocol env) (f ()) Q (l.setCache key none) k) :
    Conforms (protocol env) (cacheInvalidate key >>= f) Q l k := h

theorem cacheAdd_bind {f : Unit → Client α}
    (h : Conforms (protocol env) (f ()) Q (l.setCache key (some mdi)) k) :
    Conforms (protocol env) (cacheAdd key mdi >>= f) Q l k := by
  refine Conforms.then (Q := fun _ l' k' => l' = l.setCache key (some mdi) ∧ k' = k) ?_ ?_
  · unfold cacheAdd
    apply Conforms.get_bind
    cases l.lookupCache key with
    | some _ => exact Conforms.stop
    | none => exact Conforms.modify ⟨rfl, rfl⟩
  · rintro ⟨⟩ l' k' ⟨rfl, rfl⟩
    exact h

theorem deref_bind {r : Option Nat} {f : Nat → Client α}
    (h : ∀ mdi, r = some mdi → Conforms (protocol env) (f mdi) Q l k) :
    Conforms (protocol env) (deref r >>= f) Q l k := by
  cases r with
  | none => exact Conforms.bind Conforms.stop
  | some mdi => exact h mdi rfl

/-- A request that teaches the client nothing. -/
theorem perform_bind {r : Req} {f : Res r → Client α} (ha : (protocol env).allowed k r)
    (hn : ∀ x, (protocol env).next k r x = k) (h : ∀ x, Conforms (protocol env) (f x) Q l k) :
    Conforms (protocol env) (perform r >>= f) Q l k := by
  refine (Conforms.call (l := l) (Q := fun _ l' k' => l' = l ∧ k' = k) ha fun x _ => ⟨rfl, hn x⟩).then ?_
  rintro x l' k' ⟨rfl, rfl⟩
  exact h x

end Bind

/-- What storing the object ensures. If another client was faster, no `Put` of it can succeed. -/
structure Stored (l : Local) (k : Knowledge) (mdi : Nat) (err : Int) (l' : Local) (k' : Knowledge) :
    Prop where
  cache : CacheInv l' k' none
  keeps : err = 0 ∨ err = -EAGAIN → Keeps l k l' k'
  ready : err = 0 → Ready l' k' mdi
  noAccess : err ≠ -EACCES

/-- The changed object is stored, or dropped. -/
theorem storeChange_conforms {why : Cause} {md : FileMetadata} (h : CacheInv l k none)
    (hr : Ready l k mdi) (hmd : why.apply env (l.heap mdi).md = .ok md) :
    Conforms (protocol env) (putMetadata mdi why) (Stored l k mdi)
      (l.setObject mdi { l.heap mdi with md := md }) k := by
  have hself : ∀ x, (l.setObject mdi x).heap mdi = x := fun x => Function.update_self _ _ _
  have hchanged : CacheInv (l.setObject mdi { l.heap mdi with md := md }) k (some mdi) :=
    h.setObject (Or.inl rfl) rfl
  refine getMdi_bind ?_
  rw [hself]
  refine (Conforms.call (Q := fun x l' k' => l' = l.setObject mdi { l.heap mdi with md := md } ∧
    k' = (protocol env).next k (.put (l.heap mdi).systemPath (l.heap mdi).keyVersion md why) x)
    ?_ fun x _ => ⟨rfl, rfl⟩).then ?_
  · exact hr.2.symm.imp_right fun hknown => ⟨_, hknown, hmd⟩
  rintro ⟨status, version⟩ l1 k1 ⟨rfl, rfl⟩
  have hdrop : CacheInv ((l.setObject mdi { l.heap mdi with md := md }).setCache
      (l.heap mdi).systemPath none) k none := by
    have hd := hchanged.drop
    rw [hself] at hd
    exact hd
  have hfailed : ∀ err : Int, err ≠ 0 → err ≠ -EAGAIN → err ≠ -EACCES → Stored l k mdi err
      ((l.setObject mdi { l.heap mdi with md := md }).setCache (l.heap mdi).systemPath none) k :=
    fun err h0 hagain hacces => ⟨hdrop, fun he => by rcases he with he | he <;> contradiction,
      fun he => absurd he h0, hacces⟩
  cases status with
  | OK =>
    have hx : (l.setObject mdi { l.heap mdi with md := md }).setObject mdi
        { l.heap mdi with md := md, keyVersion := version } =
        l.setObject mdi ⟨(l.heap mdi).systemPath, version, md⟩ := by
      simp only [Local.setObject, Function.update_idem]
    refine setMdi_bind (Conforms.pure ?_)
    rw [hself, hx]
    have hsettled : Settled (k.add (l.heap mdi).systemPath version md)
        ⟨(l.heap mdi).systemPath, version, md⟩ := Or.inl (Or.inr ⟨rfl, rfl, rfl⟩)
    have hle := k.le_add (l.heap mdi).systemPath version md
    have hset : CacheInv (l.setObject mdi ⟨(l.heap mdi).systemPath, version, md⟩) k (some mdi) :=
      h.setObject (Or.inl rfl) rfl
    refine ⟨(hset.mono hle).restore fun key _ => ?_, fun _ m hm => ?_, fun _ => ⟨hr.1, ?_⟩, by decide⟩
    · rw [hself]
      exact Or.inr (Or.inr hsettled)
    · exact Keeps.setObject (fun _ => hsettled) m (hm.mono hle)
    · rw [hself]
      exact hsettled
  | REMOTE_VERSION_MISMATCH =>
    have hle := k.le_replace (l.heap mdi).systemPath (l.heap mdi).keyVersion
    refine Conforms.pure ⟨?_, fun _ m hm => ?_, fun he => absurd he (by decide), by decide⟩
    · exact (show CacheInv _ (k.replace (l.heap mdi).systemPath (l.heap mdi).keyVersion) none from
        hdrop.mono hle)
    · exact Keeps.setObject (x := { l.heap mdi with md := md })
        (fun _ => Or.inr (Or.inr ⟨rfl, rfl⟩)) m (hm.mono hle)
  | REMOTE_NOT_FOUND => exact hfailed (-ENOENT) (by decide) (by decide) (by decide)
  | REMOTE_CLUSTER_VERSION_MISMATCH => exact hfailed (- EIO) (by decide) (by decide) (by decide)
  | REMOTE_REMOTE_CONNECTION_ERROR => exact hfailed (- EIO) (by decide) (by decide) (by decide)
  | REMOTE_NOT_AUTHORIZED => exact hfailed (- EIO) (by decide) (by decide) (by decide)
  | REMOTE_OTHER_ERROR => exact hfailed (- EIO) (by decide) (by decide) (by decide)

theorem cacheGet_conforms (h : CacheInv l k none) :
    Conforms (protocol env) (cacheGet key)
      (fun r l' k' => CacheInv l' k' none ∧ Keeps l k l' k' ∧ ∀ mdi, r = some mdi → Found l' k' key mdi)
      l k := by
  apply Conforms.get_bind
  cases hmdi : l.lookupCache key with
  | none => exact Conforms.pure ⟨h, Keeps.refl, fun _ hr => by cases hr⟩
  | some mdi =>
    refine perform_bind trivial (fun _ => rfl) fun expired => ?_
    refine Conforms.ite (fun _ => cacheInvalidate_bind (Conforms.pure ?_)) fun _ => Conforms.pure ?_
    · exact ⟨h.setCache_none key, Keeps.setCache key none, fun _ hr => by cases hr⟩
    · refine ⟨h, Keeps.refl, fun mdi' hr => ?_⟩
      cases hr
      obtain ⟨hlt, hpath, hclean⟩ := h key mdi hmdi
      exact ⟨hlt, hpath, hclean (by simp)⟩

/-- What the record says is known. Without a record the object stays as it is. -/
theorem getMetadata_conforms (h : CacheInv l k none) (hnew : ∀ key, l.lookupCache key ≠ some mdi)
    (hf : Found l k key mdi) :
    Conforms (protocol env) (getMetadata mdi)
      (fun _ l' k' => CacheInv l' k' none ∧ Keeps l k l' k' ∧ Found l' k' key mdi) l k := by
  refine getMdi_bind ?_
  refine (Conforms.call (l := l) (Q := fun x l' k' => l' = l ∧
    k' = (protocol env).next k (.get (l.heap mdi).systemPath) x) trivial
    fun x _ => ⟨rfl, rfl⟩).then ?_
  rintro record l' k' ⟨rfl, rfl⟩
  cases record with
  | ok record =>
    refine setMdi_bind (Conforms.pure ?_)
    have hle := k.le_add (l'.heap mdi).systemPath record.version record.value
    have hsettled : Settled (k.add (l'.heap mdi).systemPath record.version record.value)
        ⟨(l'.heap mdi).systemPath, record.version, record.value⟩ := Or.inl (Or.inr ⟨rfl, rfl, rfl⟩)
    have hset : CacheInv (l'.setObject mdi ⟨(l'.heap mdi).systemPath, record.version, record.value⟩) k
        (some mdi) := h.setObject (Or.inl rfl) rfl
    refine ⟨(hset.mono hle).restore fun key hkey => absurd hkey (hnew key), fun m hm => ?_, hf.1, ?_⟩
    · exact Keeps.setObject (fun _ => hsettled) m (hm.mono hle)
    · show (Function.update l'.heap mdi _ mdi).systemPath = key ∧
        Clean _ (Function.update l'.heap mdi _ mdi)
      rw [Function.update_self]
      exact ⟨hf.2.1, Or.inr (Or.inr hsettled)⟩
  | error status => cases status <;> exact Conforms.pure ⟨h, Keeps.refl, hf⟩

/-- A new object is in no cache, and has no inode number. -/
theorem newMetadataInfo_conforms {f : Nat → Client α} {Q : α → Local → Knowledge → Prop}
    (h : CacheInv l k none)
    (hf : ∀ l' mdi, CacheInv l' k none → (∀ x, Keeps l k (l'.setObject mdi x) k) →
      (∀ key, l'.lookupCache key ≠ some mdi) → Found l' k key mdi →
      Conforms (protocol env) (f mdi) Q l' k) :
    Conforms (protocol env) (newMetadataInfo key >>= f) Q l k := by
  apply newMetadataInfo_bind
  have halloc : (l.alloc key).heap l.next = ⟨key, lit "0", FileMetadata.empty⟩ :=
    Function.update_self _ _ _
  refine hf _ _ (h.alloc key) (Keeps.alloc key) h.not_cached ⟨Nat.lt_succ_self _, ?_⟩
  rw [halloc]
  exact ⟨rfl, Or.inl rfl⟩

/-! ### Lookup -/

/-- What `lookup` ensures. With an error other than `EACCES` the operation ends. -/
structure Looked (l : Local) (k : Knowledge) (r : Int × Option Nat) (l' : Local) (k' : Knowledge) :
    Prop where
  cache : CacheInv l' k' none
  keeps : r.1 = 0 ∨ r.1 = -EACCES → Keeps l k l' k'
  ready : r.1 = 0 → ∀ mdi, r.2 = some mdi → Ready l' k' mdi

/-- All that is needed of the recursive calls. -/
def Looks (env : Env) (lookup : Str → Option Nat → Client (Int × Option Nat)) : Prop :=
  ∀ userPath pointer l k, CacheInv l k none →
    Conforms (protocol env) (lookup userPath pointer) (Looked l k) l k

section Lookup

variable {l' : Local} {k' : Knowledge}

theorem Looked.error {err : Int} (h : CacheInv l' k' none) (hk : Keeps l k l' k') (herr : err ≠ 0)
    (mdi : Option Nat) : Looked l k (err, mdi) l' k' :=
  ⟨h, fun _ => hk, fun h0 => absurd h0 herr⟩

/-- With steps before. -/
theorem Looked.after {r : Int × Option Nat} {l'' : Local} {k'' : Knowledge} (hk : Keeps l k l' k')
    (h : Looked l' k' r l'' k'') : Looked l k r l'' k'' :=
  ⟨h.cache, fun hr => hk.trans (h.keeps hr), h.ready⟩

variable {lookup : Str → Option Nat → Client (Int × Option Nat)} {userPath : Str} {timeStamp : Int}

theorem Looks.after (hl : Looks env lookup) (h : CacheInv l' k' none) (hk : Keeps l k l' k')
    (path : Str) (pointer : Option Nat) :
    Conforms (protocol env) (lookup path pointer) (Looked l k) l' k' :=
  (hl path pointer l' k' h).mono fun _ _ _ => Looked.after hk

theorem lookupParentWith_conforms (hl : Looks env lookup) (h : CacheInv l k none) :
    Conforms (protocol env) (lookupParentWith ctx lookup userPath)
      (fun r l' k' => CacheInv l' k' none ∧ (r.1 = 0 ∨ r.1 = -EACCES → Keeps l k l' k')) l k := by
  unfold lookupParentWith
  cases cutParent userPath with
  | none => exact Conforms.pure ⟨h, fun _ => Keeps.refl⟩
  | some path =>
    refine (hl path none l k h).then ?_
    rintro ⟨err, mdiParent⟩ l1 k1 h1
    refine Conforms.ite (fun _ => Conforms.pure ⟨h1.cache, h1.keeps⟩) fun herr => ?_
    have hkeeps : Keeps l k l1 k1 := h1.keeps (Or.inl (not_not.mp herr))
    refine deref_bind fun parent _ => getMdi_bind ?_
    refine Conforms.ite (fun _ => ?_) fun _ => ?_
    · exact Conforms.pure ⟨h1.cache, fun _ => hkeeps⟩
    · exact Conforms.pure ⟨h1.cache, fun _ => hkeeps⟩

theorem finalCheck_conforms (h : CacheInv l' k' none) (hk : Keeps l k l' k') (hr : Ready l' k' mdi) :
    Conforms (protocol env) (finalCheck ctx mdi) (Looked l k) l' k' := by
  refine getMdi_bind (Conforms.pure ⟨h, fun _ => hk, fun _ mdi' hmdi => ?_⟩)
  cases hmdi
  exact hr

theorem inheritFromParent_conforms (hl : Looks env lookup) {parent : Nat} (h : CacheInv l k none)
    (hr : Ready l k mdi) :
    Conforms (protocol env) (inheritFromParent env ctx lookup userPath mdi parent) (Looked l k) l k := by
  refine getMdi_bind (setMdi_bind ((storeChange_conforms h hr rfl).then ?_))
  intro err l1 k1 h1
  refine Conforms.ite (fun herr => ?_) fun _ => Conforms.ite (fun herr => ?_) fun herr => ?_
  · exact hl.after h1.cache (h1.keeps (Or.inr herr)) userPath (some mdi)
  · refine Conforms.pure ⟨h1.cache, fun he => ?_, fun he => absurd he herr⟩
    rcases he with he | he
    · exact absurd he herr
    · exact absurd he h1.noAccess
  · have herr := not_not.mp herr
    exact finalCheck_conforms h1.cache (h1.keeps (Or.inl herr)) (h1.ready herr)

theorem checkStale_conforms (hl : Looks env lookup) (h : CacheInv l k none) (hr : Ready l k mdi) :
    Conforms (protocol env) (checkStale env ctx lookup userPath timeStamp mdi) (Looked l k) l k := by
  refine getMdi_bind (Conforms.ite (fun _ => ?_) fun _ => finalCheck_conforms h Keeps.refl hr)
  refine (lookupParentWith_conforms hl h).then ?_
  rintro ⟨err, mdiParent⟩ l1 k1 h1
  refine Conforms.ite (fun herr => ?_) fun herr => ?_
  · exact Conforms.pure ⟨h1.1, h1.2, fun h0 => absurd h0 herr.1⟩
  · have herr : err = 0 ∨ err = -EACCES := by
      rw [Decidable.not_and_iff_or_not, not_not, not_not] at herr
      exact herr
    refine deref_bind fun parent _ => ?_
    refine (inheritFromParent_conforms hl h1.1 (h1.2 herr mdi hr)).mono fun r l' k' => ?_
    exact Looked.after (h1.2 herr)

/-- The object is added to the cache, unless it comes from there. -/
theorem cacheAdd_conforms {cached : Bool} {m : Client α} {Q : α → Local → Knowledge → Prop}
    (h : CacheInv l k none) (hf : Found l k key mdi)
    (hm : ∀ l', CacheInv l' k none → Keeps l k l' k → Conforms (protocol env) m Q l' k) :
    Conforms (protocol env) (do
      if ¬ cached then cacheAdd key mdi
      m) Q l k := by
  cases cached with
  | true => exact hm l h Keeps.refl
  | false => exact cacheAdd_bind (hm _ (h.add hf) (Keeps.setCache key (some mdi)))

theorem lookupFound_conforms (hl : Looks env lookup) {cached : Bool} (h : CacheInv l k none)
    (hf : Found l k key mdi) :
    Conforms (protocol env) (lookupFound env ctx lookup userPath key timeStamp mdi cached) (Looked l k)
      l k := by
  have hstale : (l.heap mdi).md.inodeNumber ≠ 0 → (l.heap mdi).md.type ≠ .HARDLINK_S →
      Conforms (protocol env) (do
        if ¬ cached then cacheAdd key mdi
        checkStale env ctx lookup userPath timeStamp mdi) (Looked l k) l k := by
    intro hi ht
    refine cacheAdd_conforms h hf fun l' h' hk => ?_
    have hr : Ready l' k mdi := hk mdi ⟨hf.1, hf.2.2.settled hi ht⟩
    exact (checkStale_conforms hl h' hr).mono fun _ _ _ => Looked.after hk
  refine getMdi_bind (Conforms.ite (fun _ => ?_) fun hi => ?_)
  · exact Conforms.pure (Looked.error h Keeps.refl (by decide) _)
  cases htype : (l.heap mdi).md.type with
  | POSIX => exact hstale hi (by rw [htype]; decide)
  | HARDLINK_T => exact hstale hi (by rw [htype]; decide)
  | FORCE_UPDATE =>
    refine perform_bind trivial (fun _ => rfl) fun err => cacheInvalidate_bind ?_
    have hk := Keeps.setCache (l := l) (k := k) key none
    refine Conforms.ite (fun herr => ?_) fun _ => hl.after (h.setCache_none key) hk userPath (some mdi)
    exact Conforms.pure (Looked.error (h.setCache_none key) hk herr _)
  | HARDLINK_S =>
    cases cached with
    | true => exact hl _ _ l k h
    | false =>
      refine newMetadataInfo_conforms h fun l1 stub h1 hk hnew hf1 => setMdi_bind ?_
      have hclean : Clean k { l1.heap stub with md := { (l1.heap stub).md with
          type := .HARDLINK_S, inodeNumber := (l.heap mdi).md.inodeNumber } } := Or.inr (Or.inl rfl)
      have hset : CacheInv (l1.setObject stub { l1.heap stub with md := { (l1.heap stub).md with
          type := .HARDLINK_S, inodeNumber := (l.heap mdi).md.inodeNumber } }) k (some stub) :=
        h1.setObject (Or.inl rfl) rfl
      have hset := hset.restore fun key' hkey' => absurd hkey' (hnew key')
      refine cacheAdd_bind (hl.after (hset.add ⟨hf1.1, ?_⟩) ?_ _ _)
      · show (Function.update l1.heap stub _ stub).systemPath = key ∧
          Clean k (Function.update l1.heap stub _ stub)
        rw [Function.update_self]
        exact ⟨hf1.2.1, hclean⟩
      · exact (hk _).trans (Keeps.setCache key (some stub))

theorem lookupStored_conforms (hl : Looks env lookup) (h : CacheInv l k none) :
    Conforms (protocol env) (lookupStored env ctx lookup userPath key timeStamp) (Looked l k) l k := by
  refine newMetadataInfo_conforms h fun l1 mdi h1 hset hnew hf1 => ?_
  have hk1 : Keeps l k l1 k := by
    have hk1 := hset (l1.heap mdi)
    rwa [Local.setObject, Function.update_eq_self] at hk1
  refine (getMetadata_conforms h1 hnew hf1).then ?_
  rintro err l2 k2 ⟨h2, hk2, hf2⟩
  have hk2 : Keeps l k l2 k2 := hk1.trans hk2
  refine Conforms.ite (fun _ => ?_) fun _ => Conforms.ite (fun herr => ?_) fun _ => ?_
  · have hk3 := hk2.trans (Keeps.setCache key (some mdi))
    refine cacheAdd_bind ((lookupFound_conforms hl (h2.add hf2) hf2).mono fun _ _ _ => ?_)
    exact Looked.after hk3
  · have hk3 := hk2.trans (Keeps.setCache key none)
    exact cacheInvalidate_bind (Conforms.pure (Looked.error (h2.setCache_none key) hk3 herr _))
  · exact (lookupFound_conforms hl h2 hf2).mono fun _ _ _ => Looked.after hk2

end Lookup

/-- `lookup` finds only objects that an operation may change. -/
theorem lookup_conforms (fuel : Nat) : Looks env (lookup env ctx fuel) := by
  induction fuel with
  | zero => exact fun _ _ _ _ _ => Conforms.stop
  | succ fuel ih =>
    intro userPath pointer l k h
    refine perform_bind trivial (fun _ => rfl) fun x => ?_
    refine Conforms.ite (fun hx => ?_) fun _ => ?_
    · exact Conforms.pure (Looked.error h Keeps.refl (ne_of_lt hx) _)
    · refine (cacheGet_conforms h).then ?_
      rintro r l1 k1 ⟨h1, hk, hf⟩
      cases r with
      | none => exact (lookupStored_conforms ih h1).mono fun _ _ _ => Looked.after hk
      | some mdi => exact (lookupFound_conforms ih h1 (hf mdi rfl)).mono fun _ _ _ => Looked.after hk

section Operations

variable {userPath : Str}

/-- What every operation ensures. -/
abbrev Kept (_ : α) (l : Local) (k : Knowledge) : Prop := CacheInv l k none

theorem change_conforms {op : Op} {again : Client Int}
    (hagain : ∀ l k, CacheInv l k none → Conforms (protocol env) again Kept l k)
    (h : CacheInv l k none) (hr : Ready l k mdi) :
    Conforms (protocol env) (change op mdi again) Kept l k := by
  refine getMdi_bind ?_
  cases hmd : op.apply (l.heap mdi).md with
  | error err => exact Conforms.pure h
  | ok md =>
    have hstore : Conforms (protocol env) (putMetadata mdi (.op op)) (Stored l k mdi)
        (l.setObject mdi { l.heap mdi with md := md }) k := storeChange_conforms h hr hmd
    refine setMdi_bind (hstore.then ?_)
    intro err l1 k1 h1
    exact Conforms.ite (fun _ => hagain l1 k1 h1.cache) fun _ => Conforms.pure h1.cache

/-- An operation is a lookup, and then what is done with the object. -/
theorem lookup_then {fuel : Nat} {f : Nat → Client Int} (h : CacheInv l k none)
    (hf : ∀ mdi l k, CacheInv l k none → Ready l k mdi → Conforms (protocol env) (f mdi) Kept l k) :
    Conforms (protocol env) (do
      let (err, mdi) ← lookup env ctx fuel userPath none
      if err ≠ 0 then return err
      let mdi ← deref mdi
      f mdi) Kept l k := by
  refine (lookup_conforms fuel userPath none l k h).then ?_
  rintro ⟨err, mdi⟩ l1 k1 h1
  refine Conforms.ite (fun _ => Conforms.pure h1.cache) fun herr => ?_
  exact deref_bind fun mdi hmdi => hf mdi l1 k1 h1.cache (h1.ready (not_not.mp herr) mdi hmdi)

theorem hflatSetxattr_conforms {name value : Str} {flags fuel : Nat} (h : CacheInv l k none) :
    Conforms (protocol env) (hflatSetxattr env ctx userPath name value flags fuel) Kept l k := by
  induction fuel generalizing l k with
  | zero => exact Conforms.stop
  | succ fuel ih =>
    refine lookup_then h fun mdi l1 k1 h1 hr => ?_
    refine Conforms.ite (fun _ => Conforms.stop) fun _ => Conforms.ite (fun _ => ?_) fun _ => ?_
    · exact Conforms.call trivial fun _ _ => h1
    · exact change_conforms (fun _ _ h => ih h) h1 hr

theorem hflatRemovexattr_conforms {name : Str} {fuel : Nat} (h : CacheInv l k none) :
    Conforms (protocol env) (hflatRemovexattr env ctx userPath name fuel) Kept l k := by
  induction fuel generalizing l k with
  | zero => exact Conforms.stop
  | succ fuel ih =>
    exact lookup_then h fun mdi l1 k1 h1 hr => change_conforms (fun _ _ h => ih h) h1 hr

theorem hflatUtimens_conforms {atime mtime : Int} {fuel : Nat} (h : CacheInv l k none) :
    Conforms (protocol env) (hflatUtimens env ctx userPath atime mtime fuel) Kept l k := by
  induction fuel generalizing l k with
  | zero => exact Conforms.stop
  | succ fuel ih =>
    exact lookup_then h fun mdi l1 k1 h1 hr => change_conforms (fun _ _ h => ih h) h1 hr

theorem runOp_conforms {fuel : Nat} {op : Op} (h : CacheInv l k none) :
    Conforms (protocol env) (runOp env ctx fuel userPath op) Kept l k := by
  cases op with
  | setxattr name value flags => exact hflatSetxattr_conforms h
  | removexattr name => exact hflatRemovexattr_conforms h
  | utimens atime mtime => exact hflatUtimens_conforms h

theorem session_conforms {fuel : Nat} {ops : List (Str × Op)} (h : CacheInv l k none) :
    Conforms (protocol env) (session env ctx fuel ops) Kept l k := by
  induction ops generalizing l k with
  | nil => exact Conforms.pure h
  | cons op ops ih => exact (runOp_conforms h).then fun _ _ _ h1 => ih h1

end Operations

end Programs

/-! ## The store -/

/-- The changes of one key, the earliest first. -/
def changesOf (key : Str) (done : List (Str × Cause)) : List Cause :=
  (done.filter (·.1 = key)).map Prod.snd

/-- One change after the other. -/
def applyAll (env : Env) (md : FileMetadata) (changes : List Cause) : Except Int FileMetadata :=
  changes.foldlM (Cause.apply env) md

section Store

variable {env : Env} {uuid : Nat → Str} {initial : Str → Option (KineticRecord FileMetadata)}
variable {ι : Type}

/-- A version that is not empty and that no `Put` will generate any more. -/
def Used (uuid : Nat → Str) (uuids : Nat) (version : Str) : Prop :=
  version ≠ [] ∧ ∀ n, uuids ≤ n → uuid n ≠ version

/-- What a client knows is true. -/
structure Valid (uuid : Nat → Str) (s : State) (k : Knowledge) : Prop where
  usedKnown : ∀ {key version md}, k.known key version md → Used uuid s.uuids version
  /-- a version determines the metadata -/
  determines : ∀ {key version md r}, k.known key version md → s.record key = some r →
    r.version = version → r.value = md
  usedOutdated : ∀ {key version}, k.outdated key version → Used uuid s.uuids version
  replaced : ∀ {key version}, k.outdated key version → versionOf (s.record key) ≠ version

/-- The invariant: what the clients know is true, and the stored metadata are the result of the changes
    made so far. -/
structure StoreInv (env : Env) (uuid : Nat → Str) (initial : Str → Option (KineticRecord FileMetadata))
    (s : State) (k : ι → Knowledge) : Prop where
  valid : ∀ i, Valid uuid s (k i)
  usedRecord : ∀ {key r}, s.record key = some r → Used uuid s.uuids r.version
  /-- the stored metadata are the result of all changes so far -/
  applied : ∀ {key r}, initial key = some r → ∃ r', s.record key = some r' ∧
    applyAll env r.value (changesOf key s.done) = .ok r'.value

theorem Used.succ {n : Nat} {version : Str} (h : Used uuid n version) : Used uuid (n + 1) version :=
  ⟨h.1, fun m hm => h.2 m (Nat.le_of_succ_le hm)⟩

/-- The next version is then in use. -/
theorem Used.new (huuid : Function.Injective uuid) (hne : ∀ n, uuid n ≠ []) (n : Nat) :
    Used uuid (n + 1) (uuid n) :=
  ⟨hne n, fun _ hm he => absurd (huuid he) (Nat.ne_of_gt hm)⟩

theorem changesOf_append (key key' : Str) (done : List (Str × Cause)) (why : Cause) :
    changesOf key (done ++ [(key', why)]) =
      if key' = key then changesOf key done ++ [why] else changesOf key done := by
  by_cases h : key' = key <;> simp [changesOf, List.filter_append, h]

/-- One more change. -/
theorem applyAll_append {md md' : FileMetadata} {changes : List Cause} {why : Cause}
    (h : applyAll env md changes = .ok md') :
    applyAll env md (changes ++ [why]) = why.apply env md' := by
  have happend : applyAll env md (changes ++ [why]) =
      applyAll env md changes >>= fun md => why.apply env md := by
    simp [applyAll, List.foldlM_append]
  rw [happend, h]
  rfl

variable {s : State} {key : Str}

section Valid

variable {k : Knowledge}

/-- A client that learns what the store says. -/
theorem Valid.add {r : KineticRecord FileMetadata} (h : Valid uuid s k) (hr : s.record key = some r)
    (hu : Used uuid s.uuids r.version) : Valid uuid s (k.add key r.version r.value) where
  usedKnown := by
    rintro key' version md (hk | ⟨rfl, rfl, rfl⟩)
    · exact h.usedKnown hk
    · exact hu
  determines := by
    rintro key' version md r' (hk | ⟨rfl, rfl, rfl⟩) hr' hv
    · exact h.determines hk hr' hv
    · rw [hr] at hr'
      cases hr'
      rfl
  usedOutdated := h.usedOutdated
  replaced := h.replaced

theorem Valid.replace {version : Str} (h : Valid uuid s k) (hu : Used uuid s.uuids version)
    (hv : versionOf (s.record key) ≠ version) : Valid uuid s (k.replace key version) where
  usedKnown := h.usedKnown
  determines := h.determines
  usedOutdated := by
    rintro key' version' (hk | ⟨rfl, rfl⟩)
    · exact h.usedOutdated hk
    · exact hu
  replaced := by
    rintro key' version' (hk | ⟨rfl, rfl⟩)
    · exact h.replaced hk
    · exact hv

/-- A version was generated for nothing. -/
theorem Valid.tick (h : Valid uuid s k) : Valid uuid { s with uuids := s.uuids + 1 } k where
  usedKnown hk := (h.usedKnown hk).succ
  determines := h.determines
  usedOutdated hk := (h.usedOutdated hk).succ
  replaced := h.replaced

/-- A record with a new version is none of those that the client has seen. -/
theorem Valid.store (h : Valid uuid s k) (md : FileMetadata) (done : List (Str × Cause)) :
    Valid uuid ⟨Function.update s.record key (some ⟨md, uuid s.uuids⟩), s.uuids + 1, done⟩ k where
  usedKnown hk := (h.usedKnown hk).succ
  determines := by
    intro key' version md' r hk hr hv
    have hr : Function.update s.record key (some ⟨md, uuid s.uuids⟩) key' = some r := hr
    by_cases he : key' = key
    · rw [he, Function.update_self] at hr
      cases hr
      exact absurd hv ((h.usedKnown hk).2 s.uuids (Nat.le_refl _))
    · rw [Function.update_of_ne he] at hr
      exact h.determines hk hr hv
  usedOutdated hk := (h.usedOutdated hk).succ
  replaced := by
    intro key' version hk
    show versionOf (Function.update s.record key (some ⟨md, uuid s.uuids⟩) key') ≠ version
    by_cases he : key' = key
    · rw [he, Function.update_self]
      exact (h.usedOutdated hk).2 s.uuids (Nat.le_refl _)
    · rw [Function.update_of_ne he]
      exact h.replaced hk

end Valid

variable {k : ι → Knowledge} {i : ι}

theorem StoreInv.tick (h : StoreInv env uuid initial s k) :
    StoreInv env uuid initial { s with uuids := s.uuids + 1 } k where
  valid j := (h.valid j).tick
  usedRecord hr := (h.usedRecord hr).succ
  applied := h.applied

/-- A change of the stored metadata is stored. -/
theorem StoreInv.store (huuid : Function.Injective uuid) (hne : ∀ n, uuid n ≠ [])
    (h : StoreInv env uuid initial s k) {r : KineticRecord FileMetadata} (hr : s.record key = some r)
    {md : FileMetadata} {why : Cause} (hmd : why.apply env r.value = .ok md) :
    StoreInv env uuid initial ⟨Function.update s.record key (some ⟨md, uuid s.uuids⟩), s.uuids + 1,
      s.done ++ [(key, why)]⟩ k where
  valid j := (h.valid j).store md _
  usedRecord := by
    intro key' r' hr'
    have hr' : Function.update s.record key (some ⟨md, uuid s.uuids⟩) key' = some r' := hr'
    by_cases he : key' = key
    · rw [he, Function.update_self] at hr'
      cases hr'
      exact Used.new huuid hne s.uuids
    · rw [Function.update_of_ne he] at hr'
      exact (h.usedRecord hr').succ
  applied := by
    intro key' r0 hr0
    obtain ⟨r', hr', happlied⟩ := h.applied hr0
    show ∃ r', Function.update s.record key (some ⟨md, uuid s.uuids⟩) key' = some r' ∧
      applyAll env r0.value (changesOf key' (s.done ++ [(key, why)])) = .ok r'.value
    rw [changesOf_append]
    by_cases he : key' = key
    · rw [he] at hr' happlied ⊢
      rw [hr] at hr'
      cases hr'
      rw [Function.update_self, if_pos rfl]
      exact ⟨_, rfl, (applyAll_append happlied).trans hmd⟩
    · rw [Function.update_of_ne he, if_neg (Ne.symm he)]
      exact ⟨r', hr', happlied⟩

/-- What a `Put` does. -/
theorem put_cases (uuid : Nat → Str) (s : State) (key expected : Str) (md : FileMetadata) (why : Cause) :
    (versionOf (s.record key) = expected ∧ s.put uuid key expected md why =
      (.OK, ⟨Function.update s.record key (some ⟨md, uuid s.uuids⟩), s.uuids + 1,
        s.done ++ [(key, why)]⟩)) ∨
    (versionOf (s.record key) ≠ expected ∧ s.put uuid key expected md why =
      (.REMOTE_VERSION_MISMATCH, { s with uuids := s.uuids + 1 })) := by
  by_cases hv : versionOf (s.record key) = expected
  · exact Or.inl ⟨hv, by simp [State.put, putSame, hv]⟩
  · exact Or.inr ⟨hv, by simp [State.put, putSame, hv]⟩

/-- What a `Put` that the protocol allows does to the invariant. -/
theorem StoreInv.put (huuid : Function.Injective uuid) (hne : ∀ n, uuid n ≠ [])
    (h : StoreInv env uuid initial s k) {expected : Str} {md : FileMetadata} {why : Cause}
    (ha : (protocol env).allowed (k i) (.put key expected md why)) :
    StoreInv env uuid initial (s.put uuid key expected md why).2 k := by
  rcases put_cases uuid s key expected md why with ⟨hv, hput⟩ | ⟨-, hput⟩
  · rw [hput]
    rcases ha with ha | ⟨md0, hk, hmd⟩
    · exact absurd hv ((h.valid i).replaced ha)
    · -- the version is that of a record, so the record has the metadata that the client knows
      cases hr : s.record key with
      | none =>
        rw [hr] at hv
        exact absurd hv.symm ((h.valid i).usedKnown hk).1
      | some r =>
        rw [hr] at hv
        have hvalue : r.value = md0 := (h.valid i).determines hk hr hv
        exact h.store huuid hne hr (by rw [hvalue]; exact hmd)
  · rw [hput]
    exact h.tick

variable [DecidableEq ι]

/-- Only one client has learned something. -/
theorem StoreInv.update (h : StoreInv env uuid initial s k) {ki : Knowledge} (hi : Valid uuid s ki) :
    StoreInv env uuid initial s (Function.update k i ki) where
  valid := (Function.forall_update_iff k fun _ ki => Valid uuid s ki).mpr ⟨hi, fun j _ => h.valid j⟩
  usedRecord := h.usedRecord
  applied := h.applied

/-- A step of a client that follows the protocol keeps the invariant. -/
theorem serial_sound (huuid : Function.Injective uuid) (hne : ∀ n, uuid n ≠ []) :
    Sound (service uuid) (fun _ : ι => protocol env) (StoreInv env uuid initial) := by
  intro s k i r choice x s' h ha hs
  refine ⟨trivial, ?_⟩
  have hsame : (protocol env).next (k i) r x = k i → StoreInv env uuid initial s' k →
      StoreInv env uuid initial s' (Function.update k i ((protocol env).next (k i) r x)) := by
    intro hn h'
    rw [hn, Function.update_eq_self]
    exact h'
  cases r with
  | systemPath userPath =>
    cases choice <;> cases hs
    exact hsame rfl h
  | expired key =>
    cases choice <;> cases hs
    exact hsame rfl h
  | databaseUpdate =>
    cases choice <;> cases hs
    exact hsame rfl h
  | selfCheck =>
    cases choice <;> cases hs
    exact hsame rfl h
  | get key =>
    cases choice <;> cases hs
    · cases hr : s.record key with
      | none =>
        have hget : s.get key = .error .REMOTE_NOT_FOUND := by simp [State.get, hr]
        exact hsame (by rw [hget]; rfl) h
      | some r =>
        have hget : s.get key = .ok r := by simp [State.get, hr]
        rw [hget]
        exact h.update ((h.valid i).add hr (h.usedRecord hr))
    · exact hsame rfl h
  | put key expected md why =>
    have hput := h.put huuid hne ha
    cases choice with
    | unreachable =>
      cases hs
      exact hsame rfl h.tick
    | lost =>
      cases hs
      exact hsame rfl hput
    | done =>
      have hs : some (((s.put uuid key expected md why).1, uuid s.uuids),
        (s.put uuid key expected md why).2) = some (x, s') := hs
      rcases put_cases uuid s key expected md why with ⟨hv, he⟩ | ⟨hv, he⟩
      · rw [he] at hs hput
        cases hs
        exact hput.update ((hput.valid i).add (Function.update_self _ _ _) (Used.new huuid hne _))
      · rw [he] at hs hput
        cases hs
        refine hput.update ((hput.valid i).replace ?_ hv)
        rcases ha with ha | ⟨md0, hk, -⟩
        · exact ((h.valid i).usedOutdated ha).succ
        · exact ((h.valid i).usedKnown hk).succ
    | _ => cases hs

end Store

/-! ## Operations among the changes -/

section Operations

variable {env : Env} {md md' : FileMetadata}

/-- The path permissions, which a lookup refreshes. -/
def withoutPermissions (md : FileMetadata) : FileMetadata :=
  { md with
    pathPermissionVerified := 0
    pathPermission := []
    pathPermissionChildren := if S_ISDIR md.mode then [] else md.pathPermissionChildren }

/-- The operation that a change belongs to. -/
def Cause.operation : Cause → Option Op
  | .op o => some o
  | .inherit _ => none

/-- The operations that have been stored, the earliest first. -/
def opsOf (key : Str) (done : List (Str × Cause)) : List Op :=
  (changesOf key done).filterMap Cause.operation

/-- One operation after the other. -/
def applyOps (md : FileMetadata) (ops : List Op) : Except Int FileMetadata := ops.foldlM Op.apply md

theorem computePathPermissionChildren_only (env : Env) (md : Metadata) :
    ∃ v, (computePathPermissionChildren env md).1 = { md with pathPermissionChildren := v } := by
  unfold computePathPermissionChildren
  dsimp only
  split
  · exact ⟨_, rfl⟩
  · exact ⟨md.pathPermissionChildren, rfl⟩

theorem withoutPermissions_inherit (parent : FileMetadata) :
    withoutPermissions (inheritPathPermissions env md parent) = withoutPermissions md := by
  unfold inheritPathPermissions Permission.inheritPathPermissions
  by_cases hdir : S_ISDIR md.mode
  · rw [if_pos (show S_ISDIR (copyPathPermissions md.toMetadata parent.toMetadata).mode from hdir)]
    obtain ⟨v, hv⟩ := computePathPermissionChildren_only env (copyPathPermissions md.toMetadata
      parent.toMetadata)
    rw [hv]
    simp [withoutPermissions, copyPathPermissions, hdir]
  · rw [if_neg (show ¬ S_ISDIR (copyPathPermissions md.toMetadata parent.toMetadata).mode from hdir)]
    rfl

/-- An operation neither reads nor changes the path permissions. -/
theorem apply_withoutPermissions (op : Op) :
    op.apply (withoutPermissions md) = (op.apply md).map withoutPermissions := by
  cases op with
  | setxattr name value flags =>
    show (Fuse.setxattr name value flags md.xattr).map _ =
      ((Fuse.setxattr name value flags md.xattr).map _).map _
    cases Fuse.setxattr name value flags md.xattr <;> rfl
  | removexattr name =>
    show (deleteFirst name md.xattr).map _ = ((deleteFirst name md.xattr).map _).map _
    cases deleteFirst name md.xattr <;> rfl
  | utimens atime mtime => rfl

/-- All changes together do what the operations among them do. -/
theorem ops_of_changes {changes : List Cause} (h : applyAll env md changes = .ok md') :
    applyOps (withoutPermissions md) (changes.filterMap Cause.operation) =
      .ok (withoutPermissions md') := by
  induction changes generalizing md with
  | nil =>
    cases h
    rfl
  | cons why changes ih =>
    cases why with
    | inherit parent =>
      have hrest : applyAll env (inheritPathPermissions env md parent) changes = .ok md' := h
      rw [← @withoutPermissions_inherit env _ parent]
      exact ih hrest
    | op op =>
      cases hop : op.apply md with
      | error err =>
        rw [applyAll, List.foldlM_cons, Cause.apply, hop] at h
        cases h
      | ok md1 =>
        rw [applyAll, List.foldlM_cons, Cause.apply, hop] at h
        have hrest : applyAll env md1 changes = .ok md' := h
        rw [List.filterMap_cons_some (f := Cause.operation) rfl, applyOps, List.foldlM_cons,
          apply_withoutPermissions, hop]
        exact ih hrest

/-- What holds of the initial metadata and is kept by every operation. -/
theorem applyOps_keeps {P : FileMetadata → Prop}
    (hP : ∀ (op : Op) md md', op.apply md = .ok md' → P md → P md') {ops : List Op}
    (h : applyOps md ops = .ok md') (hmd : P md) : P md' := by
  induction ops generalizing md with
  | nil =>
    cases h
    exact hmd
  | cons op ops ih =>
    cases hop : op.apply md with
    | error err =>
      rw [applyOps, List.foldlM_cons, hop] at h
      cases h
    | ok md1 =>
      rw [applyOps, List.foldlM_cons, hop] at h
      exact ih h (hP op md md1 hop hmd)

theorem of_map_ok {α β : Type} {f : α → β} {x : Except Int α} {b : β} (h : x.map f = .ok b) :
    ∃ a, x = .ok a ∧ f a = b := by
  cases x with
  | error err => cases h
  | ok a =>
    cases h
    exact ⟨a, rfl, rfl⟩

/-- The fields that no operation changes. -/
def fixedFields (md : FileMetadata) : FileMetadata := { md with xattr := [], atime := 0, mtime := 0 }

theorem fixedFields_apply {op : Op} (h : op.apply md = .ok md') : fixedFields md' = fixedFields md := by
  cases op with
  | setxattr name value flags =>
    obtain ⟨xattr, -, rfl⟩ := of_map_ok h
    rfl
  | removexattr name =>
    obtain ⟨xattr, -, rfl⟩ := of_map_ok h
    rfl
  | utimens atime mtime =>
    cases h
    rfl

/-- No attribute name occurs twice. -/
def NamesUnique (md : FileMetadata) : Prop := (md.xattr.map Prod.fst).Nodup

theorem setFirst_names (name value : Str) (xattr : List (Str × Str)) :
    (setFirst name value xattr).map Prod.fst = xattr.map Prod.fst := by
  induction xattr with
  | nil => rfl
  | cons a xattr ih =>
    unfold setFirst
    split
    · rename_i ha
      simp [ha]
    · simp [ih]

theorem namesUnique_apply {op : Op} (h : op.apply md = .ok md') (hmd : NamesUnique md) :
    NamesUnique md' := by
  cases op with
  | setxattr name value flags =>
    obtain ⟨xattr, hx, rfl⟩ := of_map_ok h
    show (xattr.map Prod.fst).Nodup
    unfold Fuse.setxattr at hx
    dsimp only at hx
    split at hx
    · cases hx
    split at hx
    · cases hx
    split at hx
    · cases hx
      rw [setFirst_names]
      exact hmd
    · rename_i hnew
      cases hx
      have hnew : name ∉ md.xattr.map Prod.fst := by
        intro hmem
        obtain ⟨a, ha, he⟩ := List.mem_map.mp hmem
        exact hnew (List.any_eq_true.mpr ⟨a, ha, decide_eq_true he⟩)
      rw [List.map_append, List.nodup_append]
      refine ⟨hmd, List.nodup_singleton name, fun a ha b hb => ?_⟩
      obtain rfl := List.mem_singleton.mp hb
      exact fun he => hnew (he ▸ ha)
  | removexattr name =>
    obtain ⟨xattr, hx, rfl⟩ := of_map_ok h
    unfold deleteFirst at hx
    split at hx
    · cases hx
      exact hmd.sublist ((List.eraseP_sublist).map Prod.fst)
    · cases hx
  | utimens atime mtime =>
    cases h
    exact hmd

end Operations

/-! ## Runs -/

section Runs

variable {ι : Type} [DecidableEq ι]

/-- Everything that versions may say about the metadata, as far as the store does not contradict. -/
def Knowledge.ofStore (uuid : Nat → Str) (s : State) : Knowledge where
  known key version md := Used uuid s.uuids version ∧
    ∀ r, s.record key = some r → r.version = version → r.value = md
  outdated _ _ := False

/-- The versions of the cached objects are as old as you like; an object with the stored version has
    the stored metadata. -/
def StaleCache (uuid : Nat → Str) (s : State) (l : Local) : Prop :=
  CacheInv l (Knowledge.ofStore uuid s) none

/-- Every client runs its operations. -/
def start (env : Env) (ctx : ι → Context) (fuel : ι → Nat) (ops : ι → List (Str × Op)) (s : State)
    (l : ι → Local) : Config Req Res State ι (Unit × Local) :=
  ⟨s, fun i => (session env (ctx i) (fuel i) (ops i)).run (l i)⟩

/-- In every run of any number of clients, the stored metadata of a file are what the operations
    stored so far make of the initial ones, in the order of their `Put`s, apart from the path
    permissions. -/
theorem stored_serial {env : Env} {uuid : Nat → Str} (huuid : Function.Injective uuid)
    (hne : ∀ n, uuid n ≠ []) {ctx : ι → Context} {fuel : ι → Nat} {ops : ι → List (Str × Op)}
    {s : State} {l : ι → Local} (hdone : s.done = [])
    (hversions : ∀ key r, s.record key = some r → Used uuid s.uuids r.version)
    (hcache : ∀ i, StaleCache uuid s (l i)) {schedule : List (ι × Choice)}
    {c : Config Req Res State ι (Unit × Local)}
    (hrun : runFrom (service uuid) (start env ctx fuel ops s l) schedule = some c)
    {key : Str} {r : KineticRecord FileMetadata} (hr : s.record key = some r) :
    ∃ r', c.shared.record key = some r' ∧
      applyOps (withoutPermissions r.value) (opsOf key c.shared.done) =
        .ok (withoutPermissions r'.value) ∧
      (NamesUnique r.value → NamesUnique r'.value) ∧
      fixedFields (withoutPermissions r'.value) = fixedFields (withoutPermissions r.value) := by
  have hinv : StoreInv env uuid s.record s fun _ : ι => Knowledge.ofStore uuid s :=
    { valid := fun _ => ⟨fun hk => hk.1, fun hk hr hv => hk.2 _ hr hv, fun hk => hk.elim, fun hk => hk.elim⟩
      usedRecord := fun hr => hversions _ _ hr
      applied := fun {_ r} hr => ⟨r, hr, by rw [hdone]; rfl⟩ }
  have hprog : ∀ i, ((start env ctx fuel ops s l).prog i).Conforms (protocol env)
      (fun x k => CacheInv x.2 k none) (Knowledge.ofStore uuid s) :=
    fun i => session_conforms (hcache i)
  obtain ⟨k, hinv, -⟩ := runFrom_conforms (serial_sound huuid hne) hinv hprog hrun
  obtain ⟨r', hr', happlied⟩ := hinv.applied hr
  have hops := ops_of_changes happlied
  refine ⟨r', hr', hops, fun hunique => ?_, ?_⟩
  · have hunique : NamesUnique (withoutPermissions r'.value) :=
      applyOps_keeps (fun _ _ _ hop hmd => namesUnique_apply hop hmd) hops hunique
    exact hunique
  · exact applyOps_keeps (P := fun md => fixedFields md = fixedFields (withoutPermissions r.value))
      (fun _ _ _ hop hmd => (fixedFields_apply hop).trans hmd) hops rfl

/-! ### A file `f` in a directory `/d` -/

/-- Versions `"v0"`, `"v1"`, ... -/
def versions (n : Nat) : Str := 'v' :: toStr n

/-- The metadata of the file. -/
def file : FileMetadata := { FileMetadata.empty with mode := S_IFREG ||| 0o644, inodeNumber := 2 }

/-- Its path permissions were verified at time 5. -/
def directory : FileMetadata :=
  { FileMetadata.empty with mode := S_IFDIR ||| 0o777, inodeNumber := 1, pathPermissionVerified := 5 }

/-- A file system with the file `/d/f`. -/
def withFile : State where
  record key := if key = lit "/d" then some ⟨directory, lit "a"⟩
    else if key = lit "/d/f" then some ⟨file, lit "b"⟩ else none
  uuids := 0
  done := []

/-- Nothing is cached. -/
def newLocal : Local := ⟨fun _ => ⟨[], [], FileMetadata.empty⟩, 0, fun _ => none⟩

/-- One client sets an attribute and another one the times, and the second one starts again. -/
def twoClients : Config Req Res State Bool (Unit × Local) :=
  start relaxed (fun _ => superuser) (fun _ => 4)
    (fun i => if i then [(lit "/d/f", .setxattr (lit "user") (lit "x") 0)]
      else [(lit "/d/f", .utimens 7 (-1))]) withFile fun _ => newLocal

/-- Both clients look up the file before the first one stores it. -/
def bothFound : List (Bool × Choice) :=
  [(true, .systemPath (lit "/d/f") 0), (false, .systemPath (lit "/d/f") 0), (true, .done), (false, .done),
    (true, .done), (false, .done), (false, .systemPath (lit "/d/f") 0), (false, .done), (false, .done)]

theorem versions_used : ∀ key r, withFile.record key = some r → Used versions withFile.uuids r.version := by
  intro key r hr
  have hversion : r.version = lit "a" ∨ r.version = lit "b" := by
    unfold withFile at hr
    dsimp only at hr
    split at hr
    · cases hr
      exact Or.inl rfl
    split at hr
    · cases hr
      exact Or.inr rfl
    · cases hr
  rcases hversion with h | h <;> rw [h] <;>
    exact ⟨by decide, fun n _ he => absurd (List.cons.inj he).1 (by decide)⟩

theorem stored_serial_two_clients : ∃ c, runFrom (service versions) twoClients bothFound = some c ∧
    opsOf (lit "/d/f") c.shared.done = [.setxattr (lit "user") (lit "x") 0, .utimens 7 (-1)] ∧
    ∃ r', c.shared.record (lit "/d/f") = some r' ∧
      applyOps (withoutPermissions file) (opsOf (lit "/d/f") c.shared.done) =
        .ok (withoutPermissions r'.value) ∧
      (NamesUnique file → NamesUnique r'.value) ∧
      fixedFields (withoutPermissions r'.value) = fixedFields (withoutPermissions file) := by
  have hc : (runFrom (service versions) twoClients bothFound).any fun c =>
      opsOf (lit "/d/f") c.shared.done = [.setxattr (lit "user") (lit "x") 0, .utimens 7 (-1)] := by
    decide +kernel
  obtain ⟨c, hc, hops⟩ := (Option.any_eq_true _ _).mp hc
  refine ⟨c, hc, of_decide_eq_true hops, ?_⟩
  have hfile : withFile.record (lit "/d/f") = some ⟨file, lit "b"⟩ := by decide
  exact stored_serial (fun n m h => toStr_inj (List.cons.inj h).2) (fun n => List.cons_ne_nil _ _) rfl
    versions_used (fun _ _ _ h => by cases h) hc hfile

/-- One client sets the times of the file, whose path permissions were verified before those of the
    directory. -/
def oneClient : Config Req Res State Unit (Unit × Local) :=
  start relaxed (fun _ => superuser) (fun _ => 4) (fun _ => [(lit "/d/f", .utimens 7 8)]) withFile
    fun _ => newLocal

/-- A lookup that reads the path permissions of `/d` again. -/
def refreshed : List (Unit × Choice) :=
  [((), .systemPath (lit "/d/f") 5), ((), .done), ((), .systemPath (lit "/d") 0), ((), .done), ((), .done),
    ((), .done)]

/-- The lookup has changed the metadata as well. -/
theorem stored_serial_refreshed : ∃ c, runFrom (service versions) oneClient refreshed = some c ∧
    opsOf (lit "/d/f") c.shared.done = [.utimens 7 8] ∧
    ∃ r', c.shared.record (lit "/d/f") = some r' ∧
      applyOps file (opsOf (lit "/d/f") c.shared.done) ≠ .ok r'.value ∧
      r'.value.pathPermissionVerified = 5 ∧ file.pathPermissionVerified = 0 := by
  have hc : (runFrom (service versions) oneClient refreshed).any fun c =>
      opsOf (lit "/d/f") c.shared.done = [.utimens 7 8] ∧
        (c.shared.record (lit "/d/f")).any fun r' =>
          applyOps file [.utimens 7 8] ≠ .ok r'.value ∧ r'.value.pathPermissionVerified = 5 := by
    decide +kernel
  obtain ⟨c, hc, h⟩ := (Option.any_eq_true _ _).mp hc
  obtain ⟨hops, hrecord⟩ := of_decide_eq_true h
  obtain ⟨r', hr', h'⟩ := (Option.any_eq_true _ _).mp hrecord
  obtain ⟨happlied, hverified⟩ := of_decide_eq_true h'
  exact ⟨c, hc, hops, r', hr', by rw [hops]; exact happlied, hverified, rfl⟩

end Runs

end HFlat.Fuse.Attributes
