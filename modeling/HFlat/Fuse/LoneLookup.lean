/-
  What a lookup of a lone client leaves alone.

  A lookup reads and stores metadata keys. It does not touch data blocks (`part`), it keeps types, inode
  numbers and sizes in the store, and objects with unflushed data stay in the cache (`Quiet`). What it
  finds is the inode that the path leads to (`leadsTo`). The client has read the whole log, so that the
  path map stays as it is.
-/
import HFlat.Fuse.LoneSession

namespace HFlat.Fuse.Lone

open HFlat.Lib HFlat.PathMap HFlat.Permission
open HFlat.Fuse.Attributes (FileMetadata)
open HFlat.Replication (KineticRecord StatusCode)

/-! ## Data blocks and database -/

/-- What the view of coherence leaves out: blocks, their cache, and path mappings. -/
structure Part where
  data : Nat → BlockInfo
  nextData : Nat
  dataCache : DataKey → Option Nat
  block : DataKey → Option (KineticRecord Str)
  pmap : PathMapDB
  log : List DbEntry

/-- The part of a client and the drives. -/
def part (l : Local) (s : Store) : Part :=
  ⟨l.data, l.nextData, l.dataCache, s.block, l.pmap, s.log⟩

/-- The client has read the whole log. -/
def Part.InStep (p : Part) : Prop := p.log.length = p.pmap.snapshotVersion

/-- The view and the part. -/
def whole (l : Local) (s : Store) : View × Part := (view l s, part l s)

/-- The program leaves data blocks and database as they are in `p`. -/
def Keeps {α : Type} (uuid : Nat → Str) (p : Part) (m : Client α) : Prop :=
  Shows (careful uuid) part m (fun _ p' => p' = p) p

/-- The request does not concern data blocks or the log. -/
def Req.OffData : Req → Prop
  | .putData _ _ _ => False
  | .deleteData _ => False
  | .append _ _ => False
  | _ => True

theorem serve_offData {uuid : Nat → Str} {r : Req} (hr : r.OffData) {s s' : Store} {choice : Choice}
    {x : Res r} (hserve : serve uuid s r choice = some (x, s')) :
    s'.block = s.block ∧ s'.log = s.log := by
  cases r with
  | putData key expected d => exact hr.elim
  | deleteData key => exact hr.elim
  | append version entry => exact hr.elim
  | createEntry key =>
    cases choice with
    | done =>
      obtain rfl : (s.createEntry key).2 = s' := congrArg Prod.snd (Option.some.inj hserve)
      unfold Store.createEntry
      split <;> exact ⟨rfl, rfl⟩
    | _ => cases hserve
  | deleteEntry key =>
    cases choice with
    | done =>
      obtain rfl : (s.deleteEntry key).2 = s' := congrArg Prod.snd (Option.some.inj hserve)
      unfold Store.deleteEntry
      split <;> exact ⟨rfl, rfl⟩
    | _ => cases hserve
  | databaseUpdate version =>
    cases choice with
    | done =>
      obtain ⟨entries, -, hs⟩ := Option.map_eq_some_iff.mp hserve
      obtain rfl : s = s' := congrArg Prod.snd hs
      exact ⟨rfl, rfl⟩
    | _ => cases hserve
  | _ => cases choice <;> cases hserve <;> exact ⟨rfl, rfl⟩

section Keeps

variable {uuid : Nat → Str} {p : Part} {v : View} {α β : Type} {mdi : Nat} {key : Str}

theorem Keeps.pure (a : α) : Keeps uuid p (pure a : Client α) := Shows.pure rfl

theorem Keeps.bind {m : Client α} {f : α → Client β} (hm : Keeps uuid p m)
    (hf : ∀ a, Keeps uuid p (f a)) : Keeps uuid p (m >>= f) := by
  refine Shows.then hm ?_
  rintro a _ rfl
  exact hf a

theorem Keeps.ite {c : Prop} [Decidable c] {m m' : Client α} (h : Keeps uuid p m) (h' : Keeps uuid p m') :
    Keeps uuid p (if c then m else m') := Shows.ite (fun _ => h) fun _ => h'

theorem Keeps.exit : Keeps uuid p (exit : Client α) := Shows.stop

theorem perform_keeps {r : Req} (hr : r.OffData) : Keeps uuid p (perform r) := by
  refine Shows.call fun l s choice x s' hp hserve => ?_
  obtain ⟨hblock, hlog⟩ := serve_offData hr (serve_restrict hserve).2
  rw [← hp]
  unfold part
  rw [hblock, hlog]

theorem modify_keeps {g : Local → Local} (hg : ∀ l s, part (g l) s = part l s) :
    Keeps uuid p (modify g : Client Unit) :=
  Shows.modify (fun l s hp => (hg l s).trans hp) rfl

theorem getMdi_keeps (mdi : Nat) : Keeps uuid p (getMdi mdi) := Shows.get_bind fun _ _ _ => Keeps.pure _

theorem setMdi_keeps (mdi : Nat) (f : MetadataInfo → MetadataInfo) : Keeps uuid p (setMdi mdi f) :=
  modify_keeps fun _ _ => rfl

theorem cacheInvalidate_keeps (key : Str) : Keeps uuid p (cacheInvalidate key) :=
  modify_keeps fun _ _ => rfl

theorem getMetadata_keeps (mdi : Nat) : Keeps uuid p (getMetadata mdi) := by
  refine (getMdi_keeps mdi).bind fun x => ?_
  refine (perform_keeps (r := .get x.systemPath) trivial).bind fun record => ?_
  split
  · exact (setMdi_keeps mdi _).bind fun _ => Keeps.pure 0
  · exact Keeps.pure _
  · exact Keeps.pure _

theorem putMetadata_keeps (mdi : Nat) : Keeps uuid p (putMetadata mdi) := by
  refine (getMdi_keeps mdi).bind fun x => ?_
  refine (perform_keeps (r := .put x.systemPath x.keyVersion x.md) trivial).bind fun ⟨status, new⟩ => ?_
  have hfailed : Keeps uuid p (do
      cacheInvalidate x.systemPath
      if status = .REMOTE_VERSION_MISMATCH then return -EAGAIN
      if status = .REMOTE_NOT_FOUND then return -ENOENT
      return - EIO : Client Int) :=
    (cacheInvalidate_keeps _).bind fun _ => Keeps.ite (Keeps.pure _) (Keeps.ite (Keeps.pure _) (Keeps.pure _))
  cases status with
  | OK => exact (setMdi_keeps mdi _).bind fun _ => Keeps.pure 0
  | _ => exact hfailed

/-- There is nothing new in the log. -/
theorem databaseUpdate_keeps (hp : p.InStep) :
    Shows (careful uuid) part databaseUpdate (fun err p' => err = -EALREADY ∧ p' = p) p := by
  refine Shows.get_bind fun l s hl => ?_
  subst hl
  have hentries : Shows (careful uuid) part (perform (.databaseUpdate l.pmap.snapshotVersion))
      (fun entries p' => entries = .error (-EALREADY) ∧ p' = part l s) (part l s) := by
    refine Shows.call fun l' s' choice x s'' hp' hserve => ?_
    have hserve : serve uuid s' (.databaseUpdate l.pmap.snapshotVersion) choice = some (x, s'') :=
      (serve_restrict hserve).2
    have hlog : s'.log.length = l.pmap.snapshotVersion := by
      have hlog : s'.log = s.log := congrArg Part.log hp'
      rw [hlog]
      exact hp
    cases choice with
    | done =>
      obtain ⟨entries, hentries, hs⟩ := Option.map_eq_some_iff.mp hserve
      cases hs
      unfold Store.databaseUpdate at hentries
      rw [if_neg (by omega), if_pos hlog.symm] at hentries
      exact ⟨(Option.some.inj hentries).symm, hp'⟩
    | _ => cases hserve
  refine hentries.then ?_
  rintro _ _ ⟨rfl, rfl⟩
  exact Shows.pure ⟨rfl, rfl⟩

/-- Objects, cache and metadata keys change, the rest does not. -/
theorem Keeps.with {m : Client α} {Q : α → View → Prop} (hm : Keeps uuid p m)
    (h : Shows (careful uuid) view m Q v) :
    Shows (careful uuid) whole m (fun a w => Q a w.1 ∧ w.2 = p) (v, p) :=
  h.pair hm

/-- A program of which it is known what it does to objects, cache and metadata keys, and that it keeps the
    rest, followed by `f`. -/
theorem Keeps.then {m : Client α} {f : α → Client β} {Q : α → View → Prop} {Q' : β → View × Part → Prop}
    (hm : Keeps uuid p m) (h : Shows (careful uuid) view m Q v)
    (hf : ∀ a v', Q a v' → Shows (careful uuid) whole (f a) Q' (v', p)) :
    Shows (careful uuid) whole (m >>= f) Q' (v, p) := by
  refine (hm.with h).then ?_
  rintro a ⟨v', _⟩ ⟨hq, rfl⟩
  exact hf a v' hq

end Keeps

/-! ## What stays -/

/-- The object has unflushed data. -/
def unflushed (data : Nat → BlockInfo) (x : MetadataInfo) : Bool :=
  match x.dirtyData with
  | some di => (data di).hasUpdates
  | none => false

/-- Type and inode number under a key. -/
def View.nature (v : View) (key : Str) : Option (InodeType × Nat) :=
  (v.record key).map fun r => (r.value.type, r.value.inodeNumber)

/-- A cached name of a hard link is one in the store. -/
def Linked (v : View) (key : Str) (a : Nat) : Prop :=
  (v.heap a).md.type = .HARDLINK_S → (v.heap a).md.inodeNumber ≠ 0 →
    v.nature key = some (.HARDLINK_S, (v.heap a).md.inodeNumber)

/-- Objects stay what they are, new ones in the cache have no data to flush, and those that have stay in
    the cache. -/
structure Calm (data : Nat → BlockInfo) (v v' : View) : Prop where
  next : v.next ≤ v'.next
  used : ∀ {key a}, v'.lookupCache key = some a → a < v'.next
  same : ∀ a < v.next, identity (v'.heap a) = identity (v.heap a) ∧
    (v'.heap a).dirtyData = (v.heap a).dirtyData
  added : ∀ {key a}, v'.lookupCache key = some a →
    v.lookupCache key = some a ∨ (v'.heap a).dirtyData = none ∧ Linked v' key a
  kept : ∀ {key a}, a < v.next → v.lookupCache key = some a → unflushed data (v.heap a) = true →
    v'.lookupCache key = some a
  nature : v'.nature = v.nature

/-- The sizes in the store stay as well. -/
structure Quiet (data : Nat → BlockInfo) (v v' : View) : Prop extends Calm data v v' where
  size : ∀ key, (v'.record key).map (·.value.size) = (v.record key).map (·.value.size)

/-- What is cached besides contents: names of hard links as they are in the store, and data to be flushed
    for files only. -/
structure Honest (v : View) : Prop where
  linked : ∀ {key a}, v.lookupCache key = some a → Linked v key a
  owners : ∀ {key a}, v.lookupCache key = some a → (v.heap a).dirtyData ≠ none → Found (v.heap a)

section Quiet

variable {data : Nat → BlockInfo} {v v' v'' : View} {mdi a : Nat} {x : MetadataInfo} {key new : Str}
  {but : Option Nat}

theorem unflushed_congr {x y : MetadataInfo} (h : x.dirtyData = y.dirtyData) :
    unflushed data x = unflushed data y := by
  unfold unflushed
  rw [h]

theorem unflushed_of {di : Nat} (hdi : x.dirtyData = some di) : unflushed data x = (data di).hasUpdates := by
  unfold unflushed
  rw [hdi]

theorem Linked.congr (h : Linked v key a) (hid : identity (v'.heap a) = identity (v.heap a))
    (hnature : v'.nature = v.nature) : Linked v' key a := by
  unfold identity at hid
  simp only [Prod.mk.injEq] at hid
  obtain ⟨-, htype, hinode, -⟩ := hid
  unfold Linked
  rw [htype, hinode, hnature]
  exact h

theorem Calm.refl (data : Nat → BlockInfo) (h : Coherent but v) : Calm data v v where
  next := le_refl _
  used := h.used
  same _ _ := ⟨rfl, rfl⟩
  added ha := Or.inl ha
  kept _ ha _ := ha
  nature := rfl

theorem Calm.trans (h : Calm data v v') (h' : Calm data v' v'') : Calm data v v'' where
  next := h.next.trans h'.next
  used := h'.used
  same a ha := by
    obtain ⟨hid, hdirty⟩ := h.same a ha
    obtain ⟨hid', hdirty'⟩ := h'.same a (ha.trans_le h.next)
    exact ⟨hid'.trans hid, hdirty'.trans hdirty⟩
  added {key a} ha := by
    obtain ha | hnew := h'.added ha
    · obtain hold | ⟨hdirty, hlinked⟩ := h.added ha
      · exact Or.inl hold
      · obtain ⟨hid', hdirty'⟩ := h'.same a (h.used ha)
        exact Or.inr ⟨hdirty'.trans hdirty, hlinked.congr hid' h'.nature⟩
    · exact Or.inr hnew
  kept {key a} hused ha hun := by
    refine h'.kept (hused.trans_le h.next) (h.kept hused ha hun) ?_
    rw [unflushed_congr (h.same a hused).2]
    exact hun
  nature := h'.nature.trans h.nature

theorem Calm.honest (h : Calm data v v') (hc : Coherent but v) (hv : Honest v) : Honest v' where
  linked {key a} ha := by
    obtain hold | ⟨-, hlinked⟩ := h.added ha
    · exact (hv.linked hold).congr (h.same a (hc.used hold)).1 h.nature
    · exact hlinked
  owners {key a} ha hdirty := by
    obtain hold | ⟨hnone, -⟩ := h.added ha
    · obtain ⟨hid, hsame⟩ := h.same a (hc.used hold)
      rw [hsame] at hdirty
      exact (found_congr hid).mpr (hv.owners hold hdirty)
    · exact absurd hnone hdirty

theorem Quiet.refl (data : Nat → BlockInfo) (h : Coherent but v) : Quiet data v v :=
  ⟨Calm.refl data h, fun _ => rfl⟩

theorem Quiet.trans (h : Quiet data v v') (h' : Quiet data v' v'') : Quiet data v v'' :=
  ⟨h.toCalm.trans h'.toCalm, fun key => (h'.size key).trans (h.size key)⟩

/-! ### Single changes -/

theorem Quiet.setObject (data : Nat → BlockInfo) (h : Coherent but v) (hid : identity x = identity (v.heap mdi))
    (hdirty : x.dirtyData = (v.heap mdi).dirtyData) : Quiet data v (v.setObject mdi x) where
  next := le_refl _
  used := h.used
  same a _ := by
    by_cases ha : a = mdi
    · rw [ha, setObject_heap_self]
      exact ⟨hid, hdirty⟩
    · rw [setObject_heap_of_ne v x ha]
      exact ⟨rfl, rfl⟩
  added ha := Or.inl ha
  kept _ ha _ := ha
  nature := rfl
  size _ := rfl

/-- A new object, and then contents for it. -/
theorem Quiet.read (data : Nat → BlockInfo) (h : Coherent but v) (key : Str) (x : MetadataInfo) :
    Quiet data v ((v.alloc key).setObject v.next x) where
  next := Nat.le_succ _
  used ha := (h.used ha).trans (Nat.lt_succ_self _)
  same a ha := by
    rw [setObject_heap_of_ne _ _ (ne_of_lt ha)]
    have hheap : (v.alloc key).heap a = v.heap a := Function.update_of_ne (ne_of_lt ha) _ _
    rw [hheap]
    exact ⟨rfl, rfl⟩
  added ha := Or.inl ha
  kept _ ha _ := ha
  nature := rfl
  size _ := rfl

theorem Quiet.alloc (data : Nat → BlockInfo) (h : Coherent but v) (key : Str) : Quiet data v (v.alloc key) := by
  have hself : (v.alloc key).setObject v.next ((v.alloc key).heap v.next) = v.alloc key := by
    unfold View.setObject
    rw [Function.update_eq_self]
  rw [← hself]
  exact Quiet.read data h key _

theorem Quiet.drop (h : Coherent but v)
    (hclean : ∀ a, v.lookupCache key = some a → unflushed data (v.heap a) = false) :
    Quiet data v (v.setCache key none) where
  next := le_refl _
  used ha := (h.drop key).used ha
  same _ _ := ⟨rfl, rfl⟩
  added {k a} ha := by
    by_cases hk : k = key
    · subst hk
      have hself : (v.setCache k none).lookupCache k = none := Function.update_self _ _ _
      rw [hself] at ha
      cases ha
    · exact Or.inl ((Function.update_of_ne hk _ _).symm.trans ha)
  kept {k a} _ ha hun := by
    refine (Function.update_of_ne ?_ _ _).trans ha
    rintro rfl
    rw [hclean a ha] at hun
    cases hun
  nature := rfl
  size _ := rfl

theorem Quiet.add (h : Coherent but v) (hfree : v.lookupCache key = none) (hused : mdi < v.next)
    (hdirty : (v.heap mdi).dirtyData = none) (hlinked : Linked v key mdi) :
    Quiet data v (v.setCache key (some mdi)) where
  next := le_refl _
  used {k a} ha := by
    by_cases hk : k = key
    · rw [hk] at ha
      have hself : (v.setCache key (some mdi)).lookupCache key = some mdi := Function.update_self _ _ _
      rw [hself] at ha
      cases ha
      exact hused
    · exact h.used ((Function.update_of_ne hk _ _).symm.trans ha)
  same _ _ := ⟨rfl, rfl⟩
  added {k a} ha := by
    by_cases hk : k = key
    · rw [hk] at ha ⊢
      have hself : (v.setCache key (some mdi)).lookupCache key = some mdi := Function.update_self _ _ _
      rw [hself] at ha
      cases ha
      exact Or.inr ⟨hdirty, hlinked⟩
    · exact Or.inl ((Function.update_of_ne hk _ _).symm.trans ha)
  kept {k a} _ ha _ := by
    refine (Function.update_of_ne ?_ _ _).trans ha
    rintro rfl
    rw [hfree] at ha
    cases ha
  nature := rfl
  size _ := rfl

/-- The object is stored, with type and inode number of the record. -/
theorem Calm.stored (data : Nat → BlockInfo) (h : Coherent but v)
    (hnature : v.nature (v.heap mdi).systemPath = some ((v.heap mdi).md.type, (v.heap mdi).md.inodeNumber))
    (new : Str) : Calm data v (v.stored mdi new) := by
  have hset : Quiet data v (v.setObject mdi { v.heap mdi with keyVersion := new }) :=
    Quiet.setObject data h rfl rfl
  refine ⟨hset.next, hset.used, hset.same, fun ha => Or.inl ha, hset.kept, funext fun key => ?_⟩
  show (Function.update v.record (v.heap mdi).systemPath (some ⟨(v.heap mdi).md, new⟩) key).map _ = _
  by_cases hk : key = (v.heap mdi).systemPath
  · rw [hk, Function.update_self, hnature]
    rfl
  · rw [Function.update_of_ne hk]
    rfl

end Quiet

/-! ## Lookup (`lookup.cc`) -/

/-- What a lookup that is expected to find inode `target` ensures besides `Looked`. -/
structure Seen (target : Option Nat) (v : View) (p : Part) (r : Int × Option Nat) (w : View × Part) :
    Prop where
  part : w.2 = p
  quiet : Quiet p.data v w.1
  code : r.1 ≤ 0 ∧ r.1 ≠ -EAGAIN
  found : r.1 = 0 → ∀ a, r.2 = some a → target = some (w.1.heap a).md.inodeNumber

section LeadsTo

variable {pmap : PathMapDB} {nature : Str → Option (InodeType × Nat)} {n inode : Nat} {path key : Str}
  {timeStamp : Int}

end LeadsTo

section Lookup

variable {uuid : Nat → Str} {env : Env} {ctx : Context} {v v' : View} {p : Part} {target : Option Nat}
variable {held : List Str} {userPath key : Str} {timeStamp : Int} {mdi : Nat} {α β : Type}

theorem Seen.error (h : Quiet p.data v v') {err : Int} (h0 : err < 0) (hagain : err ≠ -EAGAIN)
    (pointer : Option Nat) : Seen target v p (err, pointer) (v', p) :=
  ⟨rfl, h, ⟨h0.le, hagain⟩, fun he => absurd he (ne_of_lt h0)⟩

/-- With steps before. -/
theorem Seen.after {r : Int × Option Nat} {w : View × Part} (hq : Quiet p.data v v')
    (h : Seen target v' p r w) : Seen target v p r w :=
  ⟨h.part, hq.trans h.quiet, h.code, h.found⟩

/-- The record of a cached object is of its type and inode number. -/
theorem Cached.nature (h : Cached mdi v) (hc : Coherent none v) :
    v.nature (v.heap mdi).systemPath = some ((v.heap mdi).md.type, (v.heap mdi).md.inodeNumber) := by
  unfold View.nature
  rw [hc.stored h.1 (by simp) h.2.1]
  rfl

section Stale

variable (hne : ∀ n, uuid n ≠ [])

include hne

end Stale

end Lookup

end HFlat.Fuse.Lone
