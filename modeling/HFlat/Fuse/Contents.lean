/-
  What a store contains, and how the accesses of a client that has the store to itself change it.

  `Contents` forgets versions and keeps which metadata are stored, which entries exist, and the log. For each
  access that writes there is one lemma: what it answers, and the contents afterwards. The crash condition of
  a program is one about contents (`Through`).
-/
import HFlat.Fuse.Finding
import Mathlib.Data.Set.Insert

namespace HFlat.Fuse.Recovery

open HFlat.Lib HFlat.PathMap HFlat.Permission
open HFlat.Replication (KineticRecord StatusCode versionOf putSame deleteSame)
open HFlat.Fuse.Reading (reliable answers reliable_serve)

/-! ## Contents -/

/-- What the drives show: metadata, directory entries and the log. -/
structure Contents where
  stored : Str → Option Inode
  listed : Set Str
  log : List DbEntry

/-- What the drives show in a state. -/
def contents (s : Store) : Contents := ⟨value s, {key | s.entries.find key ≠ none}, s.log⟩

/-- The metadata of a key become `md`. -/
def Contents.set (c : Contents) (key : Str) (md : Option Inode) : Contents :=
  { c with stored := Function.update c.stored key md }

/-- One more directory entry. -/
def Contents.addEntry (c : Contents) (key : Str) : Contents := { c with listed := insert key c.listed }

/-- One directory entry less. -/
def Contents.removeEntry (c : Contents) (key : Str) : Contents := { c with listed := c.listed \ {key} }

/-- The record of an entry becomes `record`. -/
def setEntry (s : Store) (key : Str) (record : Option (KineticRecord Str)) : Store :=
  { s with entries := s.entries.set key record }

/-- Entries are created with version `"1"`. -/
def Stamped (s : Store) : Prop := ∀ key record, s.entries.find key = some record → record.version = lit "1"

section Contents

variable {s s' : Store} {c : Contents} {key k : Str} {md : Option Inode}

@[simp] theorem Contents.set_stored : (c.set key md).stored k = if k = key then md else c.stored k :=
  Function.update_apply _ _ _ _

@[simp] theorem Contents.mem_removeEntry : k ∈ (c.removeEntry key).listed ↔ k ∈ c.listed ∧ k ≠ key := Iff.rfl

theorem value_set (s : Store) (key : Str) (r : Option (KineticRecord Inode)) :
    value (s.set key r) = Function.update (value s) key (r.map KineticRecord.value) := by
  funext k
  rw [Function.update_apply]
  show (Function.update s.metadata key r k).map KineticRecord.value = _
  rw [Function.update_apply]
  split <;> rfl

theorem contents_entries (s : Store) (key : Str) (record : Option (KineticRecord Str)) :
    contents (setEntry s key record) =
      if record = none then (contents s).removeEntry key else (contents s).addEntry key := by
  have hfind : ∀ k, (s.entries.set key record).find k = if k = key then record else s.entries.find k :=
    fun k => Replication.Records.find_set _ _ _ _
  split
  · rename_i hr
    refine congrArg (fun l => (⟨value s, l, s.log⟩ : Contents)) (Set.ext fun k => ?_)
    show (s.entries.set key record).find k ≠ none ↔ s.entries.find k ≠ none ∧ k ≠ key
    rw [hfind]
    split
    · rename_i hk
      exact ⟨fun h => absurd hr h, fun h => absurd hk h.2⟩
    · rename_i hk
      exact ⟨fun h => ⟨h, hk⟩, fun h => h.1⟩
  · rename_i hr
    refine congrArg (fun l => (⟨value s, l, s.log⟩ : Contents)) (Set.ext fun k => ?_)
    show (s.entries.set key record).find k ≠ none ↔ k ∈ insert key {k | s.entries.find k ≠ none}
    rw [hfind, Set.mem_insert_iff]
    split
    · rename_i hk
      exact ⟨fun _ => Or.inl hk, fun _ => hr⟩
    · rename_i hk
      exact ⟨Or.inr, fun h => h.resolve_left hk⟩

theorem Stamped.entries (h : Stamped s) {record : Option (KineticRecord Str)}
    (hr : ∀ r, record = some r → r.version = lit "1") :
    Stamped (setEntry s key record) := by
  intro k r hk
  have hfind : (s.entries.set key record).find k = if k = key then record else s.entries.find k :=
    Replication.Records.find_set _ _ _ _
  change (s.entries.set key record).find k = some r at hk
  rw [hfind] at hk
  split at hk
  · exact hr r hk
  · exact h k r hk

end Contents

/-! ## Memory -/

/-- Objects keep their key and metadata, and the cache takes in nothing. -/
structure Keeps (l l' : Local) : Prop where
  pmap : l'.pmap = l.pmap
  next : l'.next = l.next
  path : ∀ a, (l'.heap a).systemPath = (l.heap a).systemPath
  md : ∀ a, (l'.heap a).md = (l.heap a).md
  cache : ∀ key a, l'.lookupCache key = some a → l.lookupCache key = some a
  free : l.Free → l'.Free

section Memory

variable {l l1 l2 : Local} {a : Nat} {key : Str}

theorem Keeps.refl (l : Local) : Keeps l l := ⟨rfl, rfl, fun _ => rfl, fun _ => rfl, fun _ _ h => h, id⟩

theorem Keeps.trans (h : Keeps l l1) (h' : Keeps l1 l2) : Keeps l l2 where
  pmap := h'.pmap.trans h.pmap
  next := h'.next.trans h.next
  path a := (h'.path a).trans (h.path a)
  md a := (h'.md a).trans (h.md a)
  cache key a hk := h.cache key a (h'.cache key a hk)
  free hfree := h'.free (h.free hfree)

theorem Keeps.invalidate (l : Local) (key : Str) : Keeps l (l.setCache key none) := by
  refine ⟨rfl, rfl, fun _ => rfl, fun _ => rfl, fun k a hk => ?_, fun hfree => hfree.setCache key none⟩
  rw [Local.setCache_lookupCache] at hk
  split at hk
  · cases hk
  · exact hk

theorem Keeps.setObject {x : MetadataInfo} (hpath : x.systemPath = (l.heap a).systemPath)
    (hmd : x.md = (l.heap a).md) : Keeps l (l.setObject a x) := by
  refine ⟨rfl, rfl, fun b => ?_, fun b => ?_, fun _ _ h => h, id⟩
  · rw [Local.setObject_heap]
    split
    · rename_i hb
      rw [hb, hpath]
    · rfl
  · rw [Local.setObject_heap]
    split
    · rename_i hb
      rw [hb, hmd]
    · rfl

theorem Shows.keeps {stored : Str → Option Inode} (h : Shows stored (l.heap a)) (hk : Keeps l l1) :
    Shows stored (l1.heap a) := by
  unfold Shows
  rw [hk.path a, hk.md a]
  exact h

/-- The cache shows what is stored as long as no key that it has was written. -/
theorem Reflects.keeps {stored stored' : Str → Option Inode} (h : Reflects l stored) (hk : Keeps l l1)
    (hstored : ∀ key a, l1.lookupCache key = some a → stored' key = stored key) : Reflects l1 stored' := by
  refine ⟨fun key a hc => ?_, hk.free h.free⟩
  obtain ⟨ha, hkey, hs⟩ := h.shows key a (hk.cache key a hc)
  have hkey' := (hk.path a).trans hkey
  refine ⟨hk.next ▸ ha, hkey', Shows.congr (hs.keeps hk) ?_⟩
  rw [hkey']
  exact hstored key a hc

end Memory

/-! ## Accesses -/

/-- A program that ends, and until then keeps to a condition on the contents. -/
def Through {α : Type} (uuid : Nat → Str) (P : Contents → Prop) (m : Client α) (Q : α → Local → Store → Prop)
    (l : Local) (s : Store) : Prop :=
  Survives (reliable uuid) (fun s => P (contents s)) m Q l s

section Accesses

variable {uuid : Nat → Str} {P : Contents → Prop} {me a : Nat} {env : Env} {l : Local} {s : Store} {key : Str}
variable {md : Inode} {name : Str}

/-- An access with a single outcome. -/
theorem perform_through {r : Req} {x : Res r} {s' : Store}
    (hdone : (reliable uuid).serve s r .done = some (x, s'))
    (honly : ∀ choice y s1, (reliable uuid).serve s r choice = some (y, s1) → y = x ∧ s1 = s')
    (hP : P (contents s)) (hP' : P (contents s')) :
    Through uuid P (perform r) (fun y l' s1 => y = x ∧ l' = l ∧ s1 = s') l s := by
  refine Survives.call hP ⟨.done, x, s', hdone⟩ fun choice y s1 hserve => ?_
  obtain ⟨rfl, rfl⟩ := honly choice y s1 hserve
  exact ⟨hP', rfl, rfl, rfl⟩

theorem answer_done {result x : StatusCode × Store} {choice : Choice} (hc : choice ≠ .unreachable ∧ choice ≠ .lost)
    (h : answer s result choice = some x) : x = result := by
  cases choice with
  | done => exact (Option.some.inj h).symm
  | unreachable => exact absurd rfl hc.1
  | lost => exact absurd rfl hc.2
  | expired b => cases h
  | number n => cases h

/-- The only answer of a service that carries out every access. -/
theorem answer_eq {result : StatusCode × Store} {x y : StatusCode} {s' s1 : Store} {choice : Choice}
    (hresult : result = (x, s')) (hc : choice ≠ .unreachable ∧ choice ≠ .lost)
    (h : answer s result choice = some (y, s1)) : y = x ∧ s1 = s' :=
  Prod.mk.inj ((answer_done hc h).trans hresult)

/-- Only versions have changed. -/
structure Same (s s' : Store) : Prop where
  value : value s' = value s
  entries : s'.entries = s.entries
  log : s'.log = s.log

theorem Same.refl (s : Store) : Same s s := ⟨rfl, rfl, rfl⟩

theorem Same.trans {s' s'' : Store} (h : Same s s') (h' : Same s' s'') : Same s s'' :=
  ⟨h'.value.trans h.value, h'.entries.trans h.entries, h'.log.trans h.log⟩

theorem Same.contents {s' : Store} (h : Same s s') : contents s' = contents s := by
  unfold Recovery.contents
  rw [h.value, h.entries, h.log]

theorem Same.stamped {s' : Store} (h : Same s s') (hs : Stamped s) : Stamped s' := by
  unfold Stamped
  rw [h.entries]
  exact hs

/-- A `Put` of the metadata that are stored. -/
theorem put_through (hmd : value s key = some md) (why : Purpose) (expected : Str) (hP : P (contents s)) :
    Through uuid P (perform (.put me a why key expected md)) (fun x l' s' => l' = l ∧ Same s s' ∧
      (x.1 = .OK ∧ versionOf (s'.metadata key) = x.2 ∨
        x.1 = .REMOTE_VERSION_MISMATCH ∧ versionOf (s.metadata key) ≠ expected ∧ s'.metadata = s.metadata))
      l s := by
  have hdone : (reliable uuid).serve s (.put me a why key expected md) .done =
      some (((s.put uuid key expected md).1, uuid s.uuids), (s.put uuid key expected md).2) := rfl
  have honly : ∀ choice y s1, (reliable uuid).serve s (.put me a why key expected md) choice = some (y, s1) →
      y = ((s.put uuid key expected md).1, uuid s.uuids) ∧ s1 = (s.put uuid key expected md).2 := by
    intro choice y s1 hserve
    obtain ⟨hc, hserve⟩ := reliable_serve hserve
    obtain ⟨result, hr, he⟩ := Option.map_eq_some_iff.mp hserve
    obtain rfl := answer_done hc hr
    exact ⟨(congrArg Prod.fst he).symm, (congrArg Prod.snd he).symm⟩
  have hsame : Same s (s.put uuid key expected md).2 ∧ ((s.put uuid key expected md).1 = .OK ∧
      versionOf ((s.put uuid key expected md).2.metadata key) = uuid s.uuids ∨
        (s.put uuid key expected md).1 = .REMOTE_VERSION_MISMATCH ∧ versionOf (s.metadata key) ≠ expected ∧
          (s.put uuid key expected md).2.metadata = s.metadata) := by
    unfold Store.put putSame
    split
    · refine ⟨⟨?_, rfl, rfl⟩, Or.inl ⟨rfl, ?_⟩⟩
      · have hv := value_set s key (some ⟨md, uuid s.uuids⟩)
        have hself : Function.update (value s) key (some md) = value s := by
          rw [← hmd]
          exact Function.update_eq_self _ _
        exact hv.trans hself
      · show versionOf (Function.update s.metadata key (some ⟨md, uuid s.uuids⟩) key) = uuid s.uuids
        rw [Function.update_self]
        rfl
    · rename_i hv
      have hset : Function.update s.metadata key (s.metadata key) = s.metadata := Function.update_eq_self _ _
      refine ⟨⟨?_, rfl, rfl⟩, Or.inr ⟨rfl, hv, hset⟩⟩
      funext k
      show (Function.update s.metadata key (s.metadata key) k).map _ = _
      rw [hset]
      rfl
  refine (perform_through hdone honly hP ?_).mono (fun _ h => h) fun x l' s' _ hx => ?_
  · rw [hsame.1.contents]
    exact hP
  · obtain ⟨rfl, rfl, rfl⟩ := hx
    exact ⟨rfl, hsame⟩

/-- Metadata that are stored anyway are stored once more, unless the version of the object is outdated. -/
theorem putMetadata_through (hmd : value s (l.heap a).systemPath = some (l.heap a).md) (hP : P (contents s)) :
    Through uuid P (putMetadata me .update a) (fun err l' s' => Keeps l l' ∧ Same s s' ∧
      (err = 0 ∨ err = -EAGAIN ∧ versionOf (s.metadata (l.heap a).systemPath) ≠ (l.heap a).keyVersion)) l s := by
  refine survives_getMdi_bind ((put_through hmd .update _ hP).then fun x l1 s1 hs1 hx => ?_)
  obtain ⟨status, version⟩ : StatusCode × Str := x
  obtain ⟨rfl, hsame, ⟨hok, -⟩ | ⟨hmis, hv, -⟩⟩ := hx
  · change status = .OK at hok
    rw [hok]
    exact survives_setMdi_bind (Survives.pure hs1 ⟨Keeps.setObject rfl rfl, hsame, Or.inl rfl⟩)
  · change status = .REMOTE_VERSION_MISMATCH at hmis
    rw [hmis]
    exact survives_cacheInvalidate_bind (Survives.pure hs1 ⟨Keeps.invalidate _ _, hsame, Or.inr ⟨rfl, hv⟩⟩)

/-- The metadata are read again; the version of the object is the one that is stored then. -/
theorem getMetadata_through (hmd : value s (l.heap a).systemPath = some (l.heap a).md) (hP : P (contents s)) :
    Through uuid P (getMetadata me a) (fun err l' s' => s' = s ∧ err = 0 ∧ Keeps l l' ∧
      versionOf (s.metadata (l.heap a).systemPath) = (l'.heap a).keyVersion) l s := by
  obtain ⟨r, hr, hvalue⟩ := Option.map_eq_some_iff.mp hmd
  have hserved : s.get (l.heap a).systemPath .done = some (.ok r) := by
    simp only [Store.get, hr]
  have hget : Through uuid P (perform (.get me a (l.heap a).systemPath))
      (fun x l' s' => x = Except.ok r ∧ l' = l ∧ s' = s) l s := by
    refine perform_through ?_ (fun choice y s1 hserve => ?_) hP hP
    · show (s.get (l.heap a).systemPath .done).map (fun x => (x, s)) = _
      rw [hserved]
      rfl
    · obtain ⟨hc, hserve⟩ := reliable_serve hserve
      obtain ⟨x, hx, he⟩ := Option.map_eq_some_iff.mp hserve
      cases he
      cases choice with
      | done => exact ⟨Option.some.inj (hx.symm.trans hserved), rfl⟩
      | unreachable => exact absurd rfl hc.1
      | lost => cases hx
      | expired b => cases hx
      | number n => cases hx
  refine survives_getMdi_bind (hget.then fun x l1 s1 hs1 h1 => ?_)
  obtain ⟨rfl, rfl, rfl⟩ := h1
  refine survives_setMdi_bind (Survives.pure hs1 ⟨rfl, rfl, Keeps.setObject rfl hvalue, ?_⟩)
  rw [hr, Local.setObject_heap, if_pos rfl]
  rfl

/-- Two attempts are enough: before the second one the version is read. -/
theorem putMetadataForced_through (hmd : value s (l.heap a).systemPath = some (l.heap a).md)
    (hP : P (contents s)) (fuel : Nat) :
    Through uuid P (putMetadataForced me a (fuel + 2)) (fun _ l' s' => Keeps l l' ∧ Same s s') l s := by
  refine (putMetadata_through hmd hP).then fun err l1 s1 hs1 h1 => ?_
  obtain ⟨hk1, hsame1, herr⟩ := h1
  refine Survives.ite (fun _ => Survives.pure hs1 ⟨hk1, hsame1⟩) fun _ => ?_
  have hmd1 : value s1 (l1.heap a).systemPath = some (l1.heap a).md := by
    rw [hk1.path, hk1.md, hsame1.value]
    exact hmd
  refine (getMetadata_through hmd1 hs1).then fun err l2 s2 hs2 h2 => ?_
  obtain ⟨rfl, rfl, hk2, hv2⟩ := h2
  refine Survives.ite (fun hne => absurd rfl hne) fun _ => ?_
  have hmd2 : value s2 (l2.heap a).systemPath = some (l2.heap a).md := by
    rw [hk2.path, hk2.md]
    exact hmd1
  refine (putMetadata_through hmd2 hs2).then fun err l3 s3 hs3 h3 => ?_
  obtain ⟨hk3, hsame3, herr3⟩ := h3
  have hok : err ≠ -EAGAIN := by
    rcases herr3 with rfl | ⟨-, hne⟩
    · decide
    · rw [hk2.path] at hne
      exact absurd hv2 hne
  exact Survives.ite (fun _ => Survives.pure hs3 ⟨(hk1.trans hk2).trans hk3, hsame1.trans hsame3⟩)
    fun hagain => absurd hok hagain

/-- An object of a directory that shows what is stored. -/
structure Holds (l : Local) (s : Store) (a : Nat) (key : Str) (md : Inode) : Prop where
  used : a < l.next
  path : (l.heap a).systemPath = key
  object : (l.heap a).md = md
  stored : value s key = some md

theorem Holds.keeps {l' : Local} {s' : Store} (h : Holds l s a key md) (hk : Keeps l l')
    (hs : value s' key = value s key) : Holds l' s' a key md :=
  ⟨hk.next ▸ h.used, (hk.path a).trans h.path, (hk.md a).trans h.object, hs.trans h.stored⟩

theorem Holds.quiet {l' : Local} (h : Holds l s a key md) (hq : Quiet (value s) l l') : Holds l' s a key md := by
  have hsame := hq.heap a h.used
  exact ⟨Nat.lt_of_lt_of_le h.used hq.next, hsame ▸ h.path, hsame ▸ h.object, h.stored⟩

theorem Holds.shown (h : Holds l s a key md) : value s (l.heap a).systemPath = some (l.heap a).md := by
  rw [h.path, h.object]
  exact h.stored

theorem touchDirectory_through (h : Holds l s a key md) (hP : P (contents s)) (fuel : Nat) :
    Through uuid P (touchDirectory me env a (fuel + 2))
      (fun err l' s' => err = 0 ∧ Keeps l l' ∧ Same s s') l s := by
  refine Survives.ite (fun _ => ?_) fun _ => Survives.pure hP ⟨rfl, Keeps.refl l, Same.refl s⟩
  exact (putMetadataForced_through h.shown hP fuel).then fun _ l1 s1 hs1 h1 => Survives.pure hs1 ⟨rfl, h1⟩

/-! ### Entries -/

theorem createEntry_exists (hs : Stamped s) (hthere : key ∈ (contents s).listed) :
    s.createEntry key = (.REMOTE_VERSION_MISMATCH, setEntry s key (s.entries.find key)) := by
  obtain ⟨r, hr⟩ := Option.ne_none_iff_exists'.mp hthere
  have hv : r.version ≠ [] := by
    rw [hs key r hr]
    decide
  simp [Store.createEntry, putSame, versionOf, setEntry, hr, hv]

theorem deleteEntry_there (hs : Stamped s) (hthere : key ∈ (contents s).listed) :
    s.deleteEntry key = (.OK, setEntry s key none) := by
  obtain ⟨r, hr⟩ := Option.ne_none_iff_exists'.mp hthere
  simp [Store.deleteEntry, deleteSame, setEntry, hr, hs key r hr]

/-- What an access to the entries leaves. -/
structure Left (l : Local) (s : Store) (c : Contents) (err : Int) (l' : Local) (s' : Store) : Prop where
  code : err = 0
  keeps : Keeps l l'
  contents : contents s' = c
  stamped : Stamped s'

theorem deleteDirectoryEntry_through (h : Holds l s a key md) (hs : Stamped s)
    (hthere : direntryKey md.inodeNumber name ∈ (contents s).listed) (hP : P (contents s))
    (hP' : P ((contents s).removeEntry (direntryKey md.inodeNumber name))) (fuel : Nat) :
    Through uuid P (deleteDirectoryEntry me env a name (fuel + 2)) (fun err l' s' =>
      Left l s ((contents s).removeEntry (direntryKey md.inodeNumber name)) err l' s') l s := by
  have hcontents := contents_entries s (direntryKey md.inodeNumber name) none
  rw [if_pos rfl] at hcontents
  have hdelete : Through uuid P (perform (.deleteEntry (direntryKey md.inodeNumber name))) (fun x l' s' =>
      x = .OK ∧ l' = l ∧ s' = setEntry s (direntryKey md.inodeNumber name) none) l s := by
    have hanswer := deleteEntry_there hs hthere
    refine perform_through (congrArg some hanswer) (fun choice y s1 hserve => ?_) hP (hcontents ▸ hP')
    obtain ⟨hc, hans⟩ := reliable_serve hserve
    exact answer_eq hanswer hc hans
  refine survives_getMdi_bind ?_
  rw [h.object]
  refine hdelete.then fun status l1 s1 hs1 h1 => ?_
  obtain ⟨rfl, rfl, rfl⟩ := h1
  have hholds : Holds l1 (setEntry s (direntryKey md.inodeNumber name) none) a key md :=
    h.keeps (Keeps.refl l1) rfl
  refine (touchDirectory_through hholds hs1 fuel).mono (fun _ h => h) fun err l2 s2 _ h2 => ?_
  obtain ⟨rfl, hk, hsame⟩ := h2
  refine ⟨rfl, hk, hsame.contents.trans hcontents, hsame.stamped (hs.entries fun r hr => ?_)⟩
  cases hr

end Accesses

end HFlat.Fuse.Recovery
