/-
  Any number of clients that append to one file.

  An append is serialized by the `Put` of the metadata key that records the new size. Its offset is
  older than that: if the file has grown since, a retry of `hflat_write` writes to the same offset
  again, over what the other client has appended. `serialized` is the condition under which this
  does not happen: when the metadata key is stored for an append, the file ends at or before it.

  A client that has stored the metadata key holds a claim on the ranges it is about to write. Claims
  are apart from each other, every `Put` of a block stores claimed ranges only (`Inv`), and an append
  that is acknowledged has stored its claim.
-/
import HFlat.Data.File
import HFlat.Fuse.Lookup
import HFlat.Permission.Inherit

namespace HFlat.Data.File.Append

open HFlat.Lib HFlat.Lib.Block
open HFlat.Permission (Env Context)
open HFlat.Fuse (Inode)
open HFlat.Replication (KineticRecord StatusCode versionOf putSame)

/-! ## Sessions -/

/-- The operations of a client on the file. -/
inductive Action where
  /-- any operation that looks up the file -/
  | lookup (ctx : Context)
  | append (ctx : Context) (buf : Str) (offset : Nat)
  deriving DecidableEq, Repr

/-- Writes are not empty. -/
def Action.NonEmpty : Action → Prop
  | .lookup _ => True
  | .append _ buf _ => buf ≠ []

instance (a : Action) : Decidable a.NonEmpty :=
  match a with
  | .lookup _ => isTrue trivial
  | .append _ buf _ => inferInstanceAs (Decidable (buf ≠ []))

/-- Writes begin below 2 GiB. -/
def Action.Below : Action → Prop
  | .lookup _ => True
  | .append _ _ offset => offset < 2147483648

instance (a : Action) : Decidable a.Below :=
  match a with
  | .lookup _ => isTrue trivial
  | .append _ _ offset => inferInstanceAs (Decidable (offset < 2147483648))

/-- An acknowledged append: its offset and what it has written. -/
abbrev Ack := Nat × Str

section Sessions

variable (env : Env) (blocksize fuel : Nat)

/-- One action after the other: the appends that were acknowledged. -/
def session : List Action → Client (List Ack)
  | [] => return []
  | .lookup ctx :: actions => do
      let _ ← lookup env ctx fuel
      session actions
  | .append ctx buf offset :: actions => do
      let size ← hflatWrite env ctx blocksize true fuel buf offset
      let acks ← session actions
      return if 0 < size then (offset, buf.take size.toNat) :: acks else acks

/-- A client that has just mounted the file system. -/
def mounted : Local :=
  ⟨fun _ => ⟨[], Inode.empty, none⟩, 0, none, fun _ => ⟨0, ⟨[], [], []⟩, []⟩, 0, fun _ => none⟩

end Sessions

/-- The file before the first step. -/
def Store.start (record : Option (KineticRecord Inode)) (blocks : Nat → Option (KineticRecord Str)) : Store :=
  ⟨record, 0, fun b => ⟨blocks b, 0, []⟩⟩

/-- Every client is about to start its session. -/
def sessions {ι : Type} (env : ι → Env) (blocksize fuel : Nat) (actions : ι → List Action)
    (record : Option (KineticRecord Inode)) (blocks : Nat → Option (KineticRecord Str)) :
    Config Req Res Store ι (List Ack × Local) :=
  ⟨Store.start record blocks, fun i => (session (env i) blocksize fuel (actions i)).run mounted⟩

/-! ## The condition -/

/-- The stored size of the file. -/
def storedSize (record : Option (KineticRecord Inode)) : Nat := (record.map fun r => r.value.size).getD 0

/-- When the metadata key is stored for an append, the file ends at or before it and stays below 2^32
    bytes; no block is stored without this, and no update of path permissions is refused while an append is
    under way. -/
def serialized (blocksize : Nat) (s : Store) : Req → Choice → Bool
  | .put _ _ _, .access .unreachable => true
  | .put (.flush block calls newsize) expected _, _ => versionOf s.record = expected →
      (∀ u ∈ calls, storedSize s.record ≤ blocksize * block + u.offset) ∧ newsize < 2 ^ 32
  | .put (.inherit dirty) expected _, _ => dirty = true → versionOf s.record = expected
  | .data _ serialized (.put _ _ _), _ => serialized
  | _, _ => true

/-! ## What a client does -/

/-- Ranges of a block with what is written there. -/
abbrev Claim := Nat × List (Update Char)

/-- What a client knows and has done: versions and blocks of data keys, versions and sizes of the metadata
    key, the ranges it may write now, those it could write before, and those it has written. -/
structure Stage where
  known : Nat → Known
  seen : List (Str × Nat)
  pending : Option Claim
  claims : List Claim
  stored : List Claim

/-- All ranges the client was ever allowed to write. -/
def Stage.all (t : Stage) : List Claim := t.pending.toList ++ t.claims

/-- Nothing but the version of an absent block is known. -/
def Stage.start : Stage := ⟨fun _ => [([], [])], [], none, [], []⟩

section Protocol

variable (blocksize : Nat)

/-- What a client may request. -/
def Allowed (t : Stage) : Req → Prop
  | .put (.inherit _) expected md => (expected, md.size) ∈ t.seen
  | .put (.flush block calls newsize) expected md => md.size = newsize % 2 ^ 32 ∧
      (∃ size, (expected, size) ∈ t.seen ∧ size ≤ newsize) ∧ ∀ u ∈ calls, blocksize * block + u.stop ≤ newsize
  | .data block serialized (.put expected data calls) =>
      Data.protocol.allowed (t.known block) (.put expected data calls) ∧
        (serialized = true → t.pending = some (block, calls))
  | _ => True

/-- What a client may rely on in an answer. -/
def Answered (t : Stage) : (r : Req) → Res r → Prop
  | .put (.inherit true) _ _, x => x.1 ≠ StatusCode.REMOTE_VERSION_MISMATCH
  | .parent, x => ∀ err : Int, x = .error err → err < 0
  | .data block _ .get, x => Data.Answers (t.known block) .get x
  | .data _ serialized (.put _ _ _), _ => serialized = true
  | _, _ => True

/-- The metadata has been read. -/
def Stage.read (t : Stage) : Except StatusCode (KineticRecord Inode) → Stage
  | .ok record => { t with seen := (record.version, record.value.size) :: t.seen }
  | .error _ => t

/-- After a `Put` of the metadata key. -/
def Stage.put (t : Stage) (md : Inode) (x : StatusCode × Str) : Purpose → Stage
  | .inherit _ => if x.1 = .OK then { t with seen := (x.2, md.size) :: t.seen } else t
  | .flush block calls _ =>
      if x.1 = .OK then
        { t with seen := (x.2, md.size) :: t.seen, pending := some (block, calls), claims := t.all }
      else t

/-- After a `Put` of a block. -/
def Stage.putData (t : Stage) (block : Nat) (serialized : Bool) (calls : List (Update Char))
    (x : StatusCode × Str) : Stage :=
  if x.1 = .OK ∧ serialized then
    { t with pending := none, claims := (block, calls) :: t.claims, stored := (block, calls) :: t.stored }
  else t

/-- A block has been read or stored. -/
def Stage.learn (t : Stage) (block : Nat) (known : Known) : Stage :=
  { t with known := Function.update t.known block known }

/-- What a client knows after an answer. -/
def next (t : Stage) : (r : Req) → Res r → Stage
  | .get, x => t.read x
  | .put why _ md, x => t.put md x why
  | .data block _ .get, x => t.learn block (Data.next (t.known block) .get x)
  | .data block serialized (.put expected data calls), x =>
      (t.putData block serialized calls x).learn block
        (Data.next (t.known block) (.put expected data calls) x)
  | _, _ => t

/-- A client stores the metadata with the size of what it has written. -/
def protocol : Protocol Req Res Stage := ⟨Allowed blocksize, Answered, next⟩

end Protocol

/-! ## Memory -/

variable {blocksize : Nat} {env : Env} {ctx : Context} {l : Local} {t : Stage}

section Rules

variable {α β : Type} {A : Protocol Req Res Stage}

theorem conforms_getMdi_bind {mdi : Nat} {f : MetadataInfo → Client β} {Q : β → Local → Stage → Prop}
    (h : Conforms A (f (l.heap mdi)) Q l t) : Conforms A (getMdi mdi >>= f) Q l t := h

theorem conforms_setMdi_bind {mdi : Nat} {g : MetadataInfo → MetadataInfo} {f : Unit → Client β}
    {Q : β → Local → Stage → Prop} (h : Conforms A (f ()) Q (l.setObject mdi (g (l.heap mdi))) t) :
    Conforms A (setMdi mdi g >>= f) Q l t := h

theorem conforms_getDi_bind {di : Nat} {f : BlockInfo → Client β} {Q : β → Local → Stage → Prop}
    (h : Conforms A (f (l.data di)) Q l t) : Conforms A (getDi di >>= f) Q l t := h

theorem conforms_setDi_bind {di : Nat} {g : BlockInfo → BlockInfo} {f : Unit → Client β}
    {Q : β → Local → Stage → Prop} (h : Conforms A (f ()) Q (l.setBlock di (g (l.data di))) t) :
    Conforms A (setDi di g >>= f) Q l t := h

theorem conforms_cacheInvalidate_bind {f : Unit → Client β} {Q : β → Local → Stage → Prop}
    (h : Conforms A (f ()) Q { l with lookupCache := none } t) : Conforms A (cacheInvalidate >>= f) Q l t := h

theorem conforms_newMetadataInfo_bind {f : Nat → Client β} {Q : β → Local → Stage → Prop}
    (h : Conforms A (f l.next) Q
      { l.setObject l.next ⟨lit "0", Inode.empty, none⟩ with next := l.next + 1 } t) :
    Conforms A (newMetadataInfo >>= f) Q l t := h

theorem conforms_newDataInfo_bind {block : Nat} {x : DataInfo} {f : Nat → Client β}
    {Q : β → Local → Stage → Prop}
    (h : Conforms A (f l.nextData) Q
      { l.setBlock l.nextData ⟨block, x, []⟩ with nextData := l.nextData + 1 } t) :
    Conforms A (newDataInfo block x >>= f) Q l t := h

theorem conforms_exit {Q : α → Local → Stage → Prop} :
    Conforms A (exit : Client α) Q l t := trivial

end Rules

/-- The object was read or stored with this size. -/
def Current (x : MetadataInfo) (t : Stage) : Prop := (x.keyVersion, x.md.size) ∈ t.seen

/-- The cached object is current, and every block is one that the client knows with the writes since its last
    flush. -/
structure Mem (l : Local) (t : Stage) : Prop where
  cached : ∀ a, l.lookupCache = some a → a < l.next ∧ ((l.heap a).md.inodeNumber ≠ 0 → Current (l.heap a) t)
  dirty : ∀ a d, a < l.next → (l.heap a).dirtyData = some d → d < l.nextData
  block : ∀ b d, l.dataCache b = some d → d < l.nextData ∧ (l.data d).key = b
  holds : ∀ d, d < l.nextData → Matches (l.data d).info (l.data d).calls (t.known (l.data d).key)
  base : ∀ b, ([], []) ∈ t.known b
  sublist : t.stored.Sublist t.claims

/-- Only versions of the metadata key were learnt. -/
structure Grows (t t' : Stage) : Prop where
  known : t'.known = t.known
  seen : t.seen ⊆ t'.seen
  pending : t'.pending = t.pending
  claims : t'.claims = t.claims
  stored : t'.stored = t.stored

theorem Grows.refl (t : Stage) : Grows t t := ⟨rfl, List.Subset.refl _, rfl, rfl, rfl⟩

theorem Grows.trans {t' t'' : Stage} (h : Grows t t') (h' : Grows t' t'') : Grows t t'' :=
  ⟨h'.known.trans h.known, List.Subset.trans h.seen h'.seen, h'.pending.trans h.pending, h'.claims.trans h.claims,
    h'.stored.trans h.stored⟩

theorem Mem.grows (h : Mem l t) {t' : Stage} (hg : Grows t t') : Mem l t' := by
  refine ⟨fun a ha => ?_, h.dirty, h.block, ?_, ?_, ?_⟩
  · obtain ⟨hlt, hcur⟩ := h.cached a ha
    exact ⟨hlt, fun hn => hg.seen (hcur hn)⟩
  · rw [hg.known]
    exact h.holds
  · rw [hg.known]
    exact h.base
  · rw [hg.stored, hg.claims]
    exact h.sublist

theorem Mem.cached_of_seen (h : Mem l t) {t' : Stage} (hs : t'.seen = t.seen) : ∀ a, l.lookupCache = some a →
    a < l.next ∧ ((l.heap a).md.inodeNumber ≠ 0 → Current (l.heap a) t') := by
  intro a ha
  obtain ⟨hlt, hcur⟩ := h.cached a ha
  refine ⟨hlt, fun hn => ?_⟩
  unfold Current
  rw [hs]
  exact hcur hn

theorem Mem.invalidate (h : Mem l t) : Mem { l with lookupCache := none } t :=
  ⟨fun _ ha => (by cases ha), h.dirty, h.block, h.holds, h.base, h.sublist⟩

theorem Mem.dataInvalidate (h : Mem l t) (b : Nat) :
    Mem { l with dataCache := Function.update l.dataCache b none } t := by
  refine ⟨h.cached, h.dirty, fun b' d hd => ?_, h.holds, h.base, h.sublist⟩
  have hd' : Function.update l.dataCache b none b' = some d := hd
  by_cases hb : b' = b
  · rw [hb, Function.update_self] at hd'
    cases hd'
  · rw [Function.update_of_ne hb] at hd'
    exact h.block b' d hd'

/-- Lookups leave blocks alone, and objects keep their dirty block. -/
structure Frame (l l' : Local) : Prop where
  data : l'.data = l.data
  nextData : l'.nextData = l.nextData
  dataCache : l'.dataCache = l.dataCache
  next : l.next ≤ l'.next
  dirtyData : ∀ a, a < l.next → (l'.heap a).dirtyData = (l.heap a).dirtyData

theorem Frame.refl (l : Local) : Frame l l := ⟨rfl, rfl, rfl, Nat.le_refl _, fun _ _ => rfl⟩

theorem Frame.trans {l' l'' : Local} (h : Frame l l') (h' : Frame l' l'') : Frame l l'' :=
  ⟨h'.data.trans h.data, h'.nextData.trans h.nextData, h'.dataCache.trans h.dataCache, h.next.trans h'.next,
    fun a ha => (h'.dirtyData a (Nat.lt_of_lt_of_le ha h.next)).trans (h.dirtyData a ha)⟩

theorem Frame.dirty {l' : Local} (h : Frame l l') {a : Nat} (ha : a < l.next) : l'.dirty a = l.dirty a := by
  unfold Local.dirty
  rw [h.dirtyData a ha, h.data]

/-- Objects change, but not their dirty blocks. -/
theorem frame_setObject {a : Nat} {x : MetadataInfo} (hx : x.dirtyData = (l.heap a).dirtyData) :
    Frame l (l.setObject a x) := by
  refine ⟨rfl, rfl, rfl, Nat.le_refl _, fun b _ => ?_⟩
  show (Function.update l.heap a x b).dirtyData = _
  by_cases hb : b = a
  · rw [hb, Function.update_self]
    exact hx
  · rw [Function.update_of_ne hb]

theorem heap_setObject (l : Local) (a b : Nat) (x : MetadataInfo) :
    (l.setObject a x).heap b = if b = a then x else l.heap b := Function.update_apply _ _ _ _

theorem Mem.setObject (h : Mem l t) {a : Nat} {x : MetadataInfo} (hx : x.dirtyData = (l.heap a).dirtyData)
    (hcur : l.lookupCache = some a → x.md.inodeNumber ≠ 0 → Current x t) : Mem (l.setObject a x) t := by
  refine ⟨fun b hb => ?_, fun b d hb hd => ?_, h.block, h.holds, h.base, h.sublist⟩
  · obtain ⟨hlt, hcur'⟩ := h.cached b hb
    refine ⟨hlt, ?_⟩
    rw [heap_setObject]
    split
    · rename_i he
      subst he
      exact hcur hb
    · exact hcur'
  · rw [(frame_setObject hx).dirtyData b hb] at hd
    exact h.dirty b d hb hd

/-! ## Lookups -/

theorem inherit_inodeNumber (env : Env) (md parent : Inode) :
    (Fuse.inheritPathPermissions env md parent).inodeNumber = md.inodeNumber :=
  Fuse.inode_of_core (Fuse.core_inherit env md parent)

theorem cacheGet_mem (h : Mem l t) : Conforms (protocol blocksize) cacheGet (fun r l' t' =>
    t' = t ∧ Mem l' t ∧ Frame l l' ∧ l'.heap = l.heap ∧
      (∀ a, r = some a → l.lookupCache = some a ∧ l'.lookupCache = some a) ∧
      (r = none → ∀ a, l.lookupCache = some a → l.dirty a = false)) l t := by
  refine Conforms.get_bind ?_
  cases hc : l.lookupCache with
  | none => exact Conforms.pure ⟨rfl, h, Frame.refl l, rfl, by simp, by simp⟩
  | some mdi =>
    have hsome : ∀ a, some mdi = some a → some mdi = some a ∧ l.lookupCache = some a := by
      intro a ha
      exact ⟨ha, hc.trans ha⟩
    refine Conforms.get_bind (Conforms.ite (fun _ => ?_) fun hclean => ?_)
    · exact Conforms.pure ⟨rfl, h, Frame.refl l, rfl, hsome, by simp⟩
    refine (Conforms.call (Q := fun _ l' t' => l' = l ∧ t' = t) trivial fun x _ => ⟨rfl, rfl⟩).then ?_
    rintro (expired : Bool) l' t' ⟨rfl, rfl⟩
    refine Conforms.ite (fun _ => ?_) fun _ => ?_
    · refine conforms_cacheInvalidate_bind (Conforms.pure ⟨rfl, h.invalidate, ⟨rfl, rfl, rfl, Nat.le_refl _,
        fun _ _ => rfl⟩, rfl, by simp, fun _ a ha => ?_⟩)
      cases ha
      simpa using hclean
    · exact Conforms.pure ⟨rfl, h, Frame.refl _, rfl, hsome, by simp⟩

theorem cacheAdd_mem (h : Mem l t) {a : Nat} (ha : a < l.next) (hcur : (l.heap a).md.inodeNumber ≠ 0 →
    Current (l.heap a) t) : Conforms (protocol blocksize) (cacheAdd a) (fun _ l' t' =>
      t' = t ∧ Mem l' t ∧ Frame l l' ∧ l'.heap = l.heap ∧ l'.lookupCache = some a) l t := by
  refine Conforms.get_bind ?_
  cases l.lookupCache with
  | some _ => exact conforms_exit
  | none =>
    refine Conforms.modify ⟨rfl, ⟨fun b hb => ?_, h.dirty, h.block, h.holds, h.base, h.sublist⟩,
      ⟨rfl, rfl, rfl, Nat.le_refl _, fun _ _ => rfl⟩, rfl, rfl⟩
    cases hb
    exact ⟨ha, hcur⟩

/-- A new object that is not cached yet. -/
theorem new_mem (h : Mem l t) : Mem { l.setObject l.next ⟨lit "0", Inode.empty, none⟩ with next := l.next + 1 } t ∧
    Frame l { l.setObject l.next ⟨lit "0", Inode.empty, none⟩ with next := l.next + 1 } := by
  have hold : ∀ a, a < l.next →
      Function.update l.heap l.next (⟨lit "0", Inode.empty, none⟩ : MetadataInfo) a = l.heap a := by
    intro a ha
    exact Function.update_of_ne (by omega) _ _
  refine ⟨⟨fun a ha => ?_, fun a d ha hd => ?_, h.block, h.holds, h.base, h.sublist⟩,
    ⟨rfl, rfl, rfl, Nat.le_succ _, fun a ha => ?_⟩⟩
  · obtain ⟨hlt, hcur⟩ := h.cached a ha
    refine ⟨Nat.lt_succ_of_lt hlt, ?_⟩
    show (Function.update l.heap l.next _ a).md.inodeNumber ≠ 0 → Current (Function.update l.heap l.next _ a) t
    rw [hold a hlt]
    exact hcur
  · have hd' : (Function.update l.heap l.next (⟨lit "0", Inode.empty, none⟩ : MetadataInfo) a).dirtyData =
        some d := hd
    by_cases hn : a = l.next
    · rw [hn, Function.update_self] at hd'
      cases hd'
    · have hlt : a < l.next := by
        have : a < l.next + 1 := ha
        omega
      rw [hold a hlt] at hd'
      exact h.dirty a d hlt hd'
  · show (Function.update l.heap l.next _ a).dirtyData = _
    rw [hold a ha]

/-- What reading the metadata key leaves of an object that is not cached. -/
theorem getMetadata_mem (h : Mem l t) {a : Nat} (ha : l.lookupCache ≠ some a) :
    Conforms (protocol blocksize) (getMetadata a) (fun err l' t' => Grows t t' ∧ Mem l' t' ∧ Frame l l' ∧
      l'.next = l.next ∧ l'.lookupCache = l.lookupCache ∧
      (err = 0 → Current (l'.heap a) t') ∧ (err ≠ 0 → l'.heap = l.heap) ∧ err ≤ 0) l t := by
  refine (Conforms.call (Q := fun x l' t' => l' = l ∧ t' = t.read x) trivial fun x _ => ⟨rfl, rfl⟩).then ?_
  rintro (x : Except StatusCode (KineticRecord Inode)) l' t' ⟨rfl, rfl⟩
  cases x with
  | ok record =>
    have hg : Grows t (t.read (.ok record)) := ⟨rfl, List.subset_cons_self _ _, rfl, rfl, rfl⟩
    refine conforms_setMdi_bind (Conforms.pure ⟨hg, ?_, frame_setObject rfl, rfl, rfl, fun _ => ?_,
      fun h0 => absurd rfl h0, Int.le_refl _⟩)
    · exact (h.grows hg).setObject rfl fun hc => absurd hc ha
    · rw [heap_setObject, if_pos rfl]
      exact List.mem_cons_self
  | error code =>
    cases code <;> exact Conforms.pure ⟨Grows.refl t, h, Frame.refl _, rfl, rfl,
      fun h0 => absurd h0 (by decide), fun _ => rfl, by decide⟩

/-- Storing inherited path permissions of the cached object. -/
theorem putInherited_mem (h : Mem l t) {a : Nat} (ha : l.lookupCache = some a)
    (hn : (l.heap a).md.inodeNumber ≠ 0) (dirty : Bool) (parent : Inode) :
    Conforms (protocol blocksize) (putMetadata (.inherit dirty) a) (fun err l' t' => Grows t t' ∧ Mem l' t' ∧
      Frame l l' ∧ (err = 0 → l'.lookupCache = some a ∧ (l'.heap a).md.inodeNumber ≠ 0) ∧
      (dirty = true → err ≠ -EAGAIN) ∧ err ≤ 0)
      (l.setObject a { l.heap a with md := Fuse.inheritPathPermissions env (l.heap a).md parent }) t := by
  have hcur : ((l.heap a).keyVersion, (l.heap a).md.size) ∈ t.seen := (h.cached a ha).2 hn
  have hmem : Mem (l.setObject a { l.heap a with md := Fuse.inheritPathPermissions env (l.heap a).md parent }) t :=
    h.setObject rfl fun _ _ => hcur
  have hframe : Frame l (l.setObject a { l.heap a with
      md := Fuse.inheritPathPermissions env (l.heap a).md parent }) := frame_setObject rfl
  refine conforms_getMdi_bind ?_
  rw [heap_setObject, if_pos rfl]
  dsimp only
  have hcall : Conforms (protocol blocksize) (perform (.put (.inherit dirty) (l.heap a).keyVersion
      (Fuse.inheritPathPermissions env (l.heap a).md parent))) (fun x l' t' =>
        l' = l.setObject a { l.heap a with md := Fuse.inheritPathPermissions env (l.heap a).md parent } ∧
        t' = t.put (Fuse.inheritPathPermissions env (l.heap a).md parent) x (.inherit dirty) ∧
        (dirty = true → x.1 ≠ StatusCode.REMOTE_VERSION_MISMATCH))
      (l.setObject a { l.heap a with md := Fuse.inheritPathPermissions env (l.heap a).md parent }) t := by
    refine Conforms.call hcur fun x hx => ⟨rfl, rfl, fun hd => ?_⟩
    subst hd
    exact hx
  refine hcall.then ?_
  rintro (⟨status, version⟩ : StatusCode × Str) l' t' ⟨rfl, rfl, hrefused⟩
  cases status
  case OK =>
    refine conforms_setMdi_bind (Conforms.pure ?_)
    have hg : Grows t (t.put (Fuse.inheritPathPermissions env (l.heap a).md parent) (.OK, version)
        (.inherit dirty)) :=
      ⟨rfl, List.subset_cons_self _ _, rfl, rfl, rfl⟩
    refine ⟨hg, ?_, hframe.trans (frame_setObject rfl), fun _ => ⟨ha, ?_⟩, fun _ => by decide, by decide⟩
    · refine (hmem.grows hg).setObject rfl fun _ _ => ?_
      rw [heap_setObject, if_pos rfl]
      exact List.mem_cons_self
    · rw [heap_setObject, if_pos rfl, heap_setObject, if_pos rfl]
      show (Fuse.inheritPathPermissions env (l.heap a).md parent).inodeNumber ≠ 0
      rw [inherit_inodeNumber]
      exact hn
  all_goals
    refine conforms_cacheInvalidate_bind (Conforms.pure ⟨Grows.refl t, hmem.invalidate,
      hframe.trans ⟨rfl, rfl, rfl, Nat.le_refl _, fun _ _ => rfl⟩, fun h0 => absurd h0 (by decide), fun hd => ?_,
      by decide⟩)
    first
      | exact absurd rfl (hrefused hd)
      | decide

/-- What a lookup leaves and returns. -/
structure Looked (l : Local) (t : Stage) (r : Int × Option Nat) (l' : Local) (t' : Stage) : Prop where
  grows : Grows t t'
  mem : Mem l' t'
  frame : Frame l l'
  nonpos : r.1 ≤ 0
  found : r.1 = 0 → ∃ a, r.2 = some a ∧ l'.lookupCache = some a ∧ (l'.heap a).md.inodeNumber ≠ 0
  same : ∀ a, l.lookupCache = some a → l.dirty a = true → r.1 = 0 → r.2 = some a

theorem looked_error {l' : Local} {t' : Stage} (hg : Grows t t') (hm : Mem l' t') (hf : Frame l l')
    {err : Int} (herr : err < 0) (mdi : Option Nat) : Looked l t (err, mdi) l' t' :=
  ⟨hg, hm, hf, herr.le, fun h0 => absurd h0 herr.ne, fun _ _ _ h0 => absurd h0 herr.ne⟩

/-- The cached object is returned. -/
theorem looked_cached {l' : Local} {t' : Stage} (hg : Grows t t') (hm : Mem l' t') (hf : Frame l l') {a : Nat}
    (hc : l'.lookupCache = some a) (hn : (l'.heap a).md.inodeNumber ≠ 0)
    (hsame : ∀ b, l.lookupCache = some b → l.dirty b = true → a = b) {err : Int} (herr : err ≤ 0) :
    Looked l t (err, some a) l' t' :=
  ⟨hg, hm, hf, herr, fun _ => ⟨a, rfl, hc, hn⟩, fun b hb hd _ => congrArg some (hsame b hb hd)⟩

theorem checkStale_looked {lookup : Client (Int × Option Nat)} {l0 : Local} {t0 : Stage}
    (hl : ∀ l t, Mem l t → Conforms (protocol blocksize) lookup (Looked l t) l t) (hg : Grows t0 t) (h : Mem l t)
    (hf : Frame l0 l) {a : Nat} (hc : l.lookupCache = some a) (hn : (l.heap a).md.inodeNumber ≠ 0)
    (hsame : ∀ b, l0.lookupCache = some b → l0.dirty b = true → a = b ∧ a < l0.next) :
    Conforms (protocol blocksize) (checkStale env ctx lookup a) (Looked l0 t0) l t := by
  have hsame' : ∀ b, l0.lookupCache = some b → l0.dirty b = true → a = b := fun b hb hd => (hsame b hb hd).1
  have hcheck : ∀ es, Permission.checkPathPermissions ctx es ≤ 0 := by
    intro es
    rcases Permission.checkPathPermissions_cases ctx es with ⟨-, h0⟩ | ⟨-, h0⟩
    · rw [h0]
    · rw [h0]
      decide
  have hstamp : Conforms (protocol blocksize) (perform .stamp) (fun _ l' t' => l' = l ∧ t' = t) l t :=
    Conforms.call trivial fun x hx => ⟨rfl, rfl⟩
  refine hstamp.then ?_
  rintro (stamp : Int) l t ⟨rfl, rfl⟩
  refine conforms_getMdi_bind (Conforms.ite (fun _ => ?_) fun _ => ?_)
  · have hparent : Conforms (protocol blocksize) (perform .parent) (fun x l' t' => l' = l ∧ t' = t ∧
        ∀ err : Int, x = .error err → err < 0) l t := Conforms.call trivial fun x hx => ⟨rfl, rfl, hx⟩
    refine hparent.then ?_
    rintro (parent : Except Int Inode) l1 t1 ⟨rfl, rfl, hneg⟩
    cases parent with
    | error err => exact Conforms.pure (looked_cached hg h hf hc hn hsame' (hneg err rfl).le)
    | ok parent =>
      refine Conforms.get_bind (conforms_setMdi_bind ?_)
      refine (putInherited_mem h hc hn (l1.dirty a) parent).then ?_
      rintro err l2 t2 ⟨hg2, h2, hf2, hok, hdirty, hle⟩
      refine Conforms.ite (fun hagain => ?_) fun _ => Conforms.ite (fun herr => ?_) fun herr => ?_
      · -- the object was not dirty, so none was
        refine (hl l2 t2 h2).mono fun r l' t' hr => ?_
        refine ⟨(hg.trans hg2).trans hr.grows, hr.mem, (hf.trans hf2).trans hr.frame, hr.nonpos, hr.found, ?_⟩
        intro b hb hd h0
        obtain ⟨rfl, hlt⟩ := hsame b hb hd
        have hd1 : l1.dirty a = true := (hf.dirty hlt).trans hd
        exact absurd hagain (hdirty hd1)
      · exact Conforms.pure (looked_error (hg.trans hg2) h2 (hf.trans hf2) (lt_of_le_of_ne hle herr) _)
      · obtain ⟨hc2, hn2⟩ := hok (not_not.mp herr)
        exact conforms_getMdi_bind (Conforms.pure
          (looked_cached (hg.trans hg2) h2 (hf.trans hf2) hc2 hn2 hsame' (hcheck _)))
  · exact conforms_getMdi_bind (Conforms.pure (looked_cached hg h hf hc hn hsame' (hcheck _)))

theorem lookup_looked (fuel : Nat) (h : Mem l t) :
    Conforms (protocol blocksize) (lookup env ctx fuel) (Looked l t) l t := by
  induction fuel generalizing l t with
  | zero => exact conforms_exit
  | succ fuel ih =>
    have henoent : -ENOENT < 0 := by decide
    refine (cacheGet_mem h).then ?_
    rintro found l1 t1 ⟨rfl, h1, hf1, hheap, hsome, hnone⟩
    cases found with
    | some a =>
      obtain ⟨hc, hc1⟩ := hsome a rfl
      refine conforms_getMdi_bind (Conforms.ite (fun _ => ?_) fun hn => ?_)
      · exact Conforms.pure (looked_error (Grows.refl _) h1 hf1 henoent _)
      · refine checkStale_looked (fun l t h => ih h) (Grows.refl _) h1 hf1 hc1 hn fun b hb _ => ?_
        obtain rfl : a = b := Option.some.inj (hc.symm.trans hb)
        exact ⟨rfl, (h.cached a hc).1⟩
    | none =>
      obtain ⟨h2, hf2⟩ := new_mem h1
      have hclean : ∀ b, l.lookupCache = some b → l.dirty b = true → l1.next = b ∧ l1.next < l.next := by
        intro b hb hd
        rw [hnone rfl b hb] at hd
        cases hd
      refine conforms_newMetadataInfo_bind ?_
      have hnew : ({ l1.setObject l1.next ⟨lit "0", Inode.empty, none⟩ with
          next := l1.next + 1 } : Local).lookupCache ≠ some l1.next := by
        intro hc
        have hlt := (h1.cached l1.next hc).1
        omega
      refine (getMetadata_mem h2 hnew).then ?_
      rintro err l3 t3 ⟨hg3, h3, hf3, hnext, hcache, hcur, hsame, hle⟩
      have hlt : l1.next < l3.next := by
        rw [hnext]
        exact Nat.lt_succ_self _
      have hf : Frame l l3 := (hf1.trans hf2).trans hf3
      refine Conforms.ite (fun herr => ?_) fun _ => Conforms.ite (fun herr => ?_) fun herr => ?_
      · have hempty : (l3.heap l1.next).md.inodeNumber = 0 := by
          rw [hsame (by rw [herr]; decide)]
          show (Function.update l1.heap l1.next _ l1.next).md.inodeNumber = 0
          rw [Function.update_self]
          rfl
        refine (cacheAdd_mem h3 hlt fun hn => absurd hempty hn).then ?_
        rintro _ l4 t4 ⟨rfl, h4, hf4, -, -⟩
        exact Conforms.pure (looked_error hg3 h4 (hf.trans hf4) henoent _)
      · exact conforms_cacheInvalidate_bind (Conforms.pure (looked_error hg3 h3.invalidate
          (hf.trans ⟨rfl, rfl, rfl, Nat.le_refl _, fun _ _ => rfl⟩) (lt_of_le_of_ne hle herr) _))
      · refine conforms_getMdi_bind (Conforms.ite (fun _ => ?_) fun hn => ?_)
        · exact Conforms.pure (looked_error hg3 h3 hf henoent _)
        · refine (cacheAdd_mem h3 hlt fun _ => hcur (not_not.mp herr)).then ?_
          rintro _ l4 t4 ⟨rfl, h4, hf4, hheap4, hc4⟩
          refine checkStale_looked (fun l t h => ih h) hg3 h4 (hf.trans hf4) hc4 ?_ hclean
          rw [hheap4]
          exact hn

/-! ## Flushes -/

theorem matches_mono {x : DataInfo} {calls : List (Update Char)} {k k' : Known} (h : Matches x calls k)
    (hk : k ⊆ k') : Matches x calls k' := by
  obtain ⟨base, hbase, hholds⟩ := h
  exact ⟨base, hk hbase, hholds⟩

/-- What the client has learnt while it stored a block. -/
structure Learns (b : Nat) (t t' : Stage) : Prop where
  known : t.known b ⊆ t'.known b
  other : ∀ c, c ≠ b → t'.known c = t.known c
  seen : t'.seen = t.seen

theorem Learns.trans {b : Nat} {t' t'' : Stage} (h : Learns b t t') (h' : Learns b t' t'') : Learns b t t'' :=
  ⟨List.Subset.trans h.known h'.known, fun c hc => (h'.other c hc).trans (h.other c hc), h'.seen.trans h.seen⟩

theorem learns_cons (t : Stage) (b : Nat) (v : Str × Str) : Learns b t (t.learn b (v :: t.known b)) := by
  refine ⟨?_, fun c hc => Function.update_of_ne hc _ _, rfl⟩
  show t.known b ⊆ Function.update t.known b (v :: t.known b) b
  rw [Function.update_self]
  exact List.subset_cons_self _ _

theorem learn_same (t : Stage) (b : Nat) : t.learn b (t.known b) = t := by
  unfold Stage.learn
  rw [Function.update_eq_self]

@[simp] theorem known_learn (t : Stage) (b : Nat) (k : Known) : (t.learn b k).known b = k :=
  Function.update_self _ _ _

/-- What storing the block with its claim leaves. -/
structure Flushed (b : Nat) (calls : List (Update Char)) (t : Stage) (r : Int × DataInfo) (t' : Stage) : Prop where
  learns : Learns b t t'
  nonpos : r.1 ≤ 0
  holds : Matches r.2 (if r.1 = 0 then [] else calls) (t'.known b)
  done : r.1 = 0 → t'.stored = (b, calls) :: t.stored ∧ t'.claims = (b, calls) :: t.claims
  failed : r.1 ≠ 0 → t'.stored = t.stored ∧ t'.claims = t.claims

theorem putData_flushed (fuel : Nat) {b : Nat} {calls : List (Update Char)} {x : DataInfo}
    (hx : Matches x calls (t.known b)) (hp : t.pending = some (b, calls)) :
    (onBlock b true (Data.putData calls fuel x)).Conforms (protocol blocksize) (Flushed b calls t) t := by
  induction fuel generalizing x t with
  | zero => trivial
  | succ fuel ih =>
    have hne : - EIO ≠ 0 := by decide
    have hle : - EIO ≤ 0 := by decide
    have hfailed : ∀ {y : DataInfo}, Matches y calls (t.known b) → Flushed b calls t (- EIO, y) t := fun hy =>
      ⟨⟨List.Subset.refl _, fun _ _ => rfl, rfl⟩, hle, hy, fun h0 => absurd h0 hne, fun _ => ⟨rfl, rfl⟩⟩
    obtain ⟨base, hbase, hholds⟩ := hx
    refine ⟨⟨⟨base, hbase, hholds.d⟩, fun _ => hp⟩, fun (answer : StatusCode × Str) _ => ?_⟩
    obtain ⟨status, newVersion⟩ := answer
    cases status with
    | OK =>
      have hlearn : Learns b t (t.learn b ((newVersion, x.d) :: t.known b)) := learns_cons t b _
      refine ⟨⟨hlearn.known, hlearn.other, rfl⟩, Int.le_refl _, ?_, fun _ => ⟨rfl, rfl⟩, fun h0 => absurd rfl h0⟩
      refine ⟨x.d, ?_, holds_nil newVersion x.d⟩
      show (newVersion, x.d) ∈ Function.update t.known b ((newVersion, x.d) :: t.known b) b
      rw [Function.update_self]
      exact List.mem_cons_self
    | REMOTE_VERSION_MISMATCH =>
      have hsame : (protocol blocksize).next t (.data b true (.put x.keyVersion x.d calls))
          (StatusCode.REMOTE_VERSION_MISMATCH, newVersion) = t := learn_same t b
      rw [hsame]
      refine ⟨trivial, fun (record : Except StatusCode (KineticRecord Str)) hanswer => ?_⟩
      cases record with
      | error status =>
        have hnext : (protocol blocksize).next t (.data b true .get)
            (Except.error status : Except StatusCode (KineticRecord Str)) = t := learn_same t b
        rw [hnext]
        exact hfailed ⟨base, hbase, hholds⟩
      | ok record =>
        have hlen : base.length ≤ record.value.length := hanswer record rfl _ hbase
        have hnext : (protocol blocksize).next t (.data b true .get)
            (Except.ok record : Except StatusCode (KineticRecord Str)) =
            t.learn b ((record.version, record.value) :: t.known b) := rfl
        rw [hnext]
        cases hmerge : x.mergeDataChanges record.value with
        | none =>
          simp only [Prog.bind, hmerge]
          trivial
        | some x' =>
          simp only [Prog.bind, hmerge]
          obtain ⟨hholds', -⟩ := DataInfo.mergeDataChanges_holds hholds hlen hmerge
          have hlearn := learns_cons t b (record.version, record.value)
          refine (ih (x := { x' with keyVersion := record.version })
            (t := t.learn b ((record.version, record.value) :: t.known b)) ?_ hp).mono fun r t' hr => ?_
          · refine ⟨record.value, ?_, hholds'.d, hholds'.updates, hholds'.nonempty⟩
            rw [known_learn]
            exact List.mem_cons_self
          · exact ⟨hlearn.trans hr.learns, hr.nonpos, hr.holds, hr.done, hr.failed⟩
    | _ =>
      all_goals
        have hsame : ∀ status, status ≠ StatusCode.OK → (protocol blocksize).next t
            (.data b true (.put x.keyVersion x.d calls)) (status, newVersion) = t := by
          intro status hs
          show ((t.putData b true calls (status, newVersion)).learn b
            (Data.next (t.known b) (.put x.keyVersion x.d calls) (status, newVersion))) = t
          simp [Stage.putData, Data.next, hs, learn_same]
        rw [hsame _ (by decide)]
        exact hfailed ⟨base, hbase, hholds⟩

theorem conforms_lift {α : Type} {A : Protocol Req Res Stage} {m : Prog Req Res α} {Q : α → Local → Stage → Prop}
    (h : m.Conforms A (fun a t => Q a l t) t) : Conforms A (StateT.lift m) Q l t :=
  Prog.Conforms.bind h

theorem data_setBlock (l : Local) (d e : Nat) (x : BlockInfo) :
    (l.setBlock d x).data e = if e = d then x else l.data e := Function.update_apply _ _ _ _

/-- What storing the block of an object leaves. -/
structure Stores (d : Nat) (l : Local) (t : Stage) (err : Int) (l' : Local) (t' : Stage) : Prop where
  mem : Mem l' t'
  nonpos : err ≤ 0
  lookupCache : l'.lookupCache = l.lookupCache
  heap : l'.heap = l.heap
  next : l'.next = l.next
  nextData : l'.nextData = l.nextData
  other : ∀ e, e ≠ d → l'.data e = l.data e
  done : err = 0 → t'.stored = ((l.data d).key, (l.data d).calls) :: t.stored ∧
    (l'.data d).info.hasUpdates = false
  failed : err ≠ 0 → t'.stored = t.stored

theorem hasUpdates_of_matches {x : DataInfo} {k : Known} (h : Matches x [] k) : x.hasUpdates = false := by
  obtain ⟨base, -, hholds⟩ := h
  have hupdates : x.updates = [] := hholds.updates
  simp [DataInfo.hasUpdates, hupdates]

theorem putData_stores (h : Mem l t) {d : Nat} (hd : d < l.nextData)
    (hp : t.pending = some ((l.data d).key, (l.data d).calls)) (fuel : Nat) :
    Conforms (protocol blocksize) (putData true d fuel) (Stores d l t) l t := by
  refine conforms_getDi_bind ?_
  have hput : Conforms (protocol blocksize)
      (StateT.lift (onBlock (l.data d).key true (Data.putData (l.data d).calls fuel (l.data d).info)))
      (fun r l' t' => l' = l ∧ Flushed (l.data d).key (l.data d).calls t r t') l t :=
    conforms_lift ((putData_flushed fuel (h.holds d hd) hp).mono fun r t' hr => ⟨rfl, hr⟩)
  refine hput.then ?_
  rintro ⟨err, info⟩ l' t' ⟨rfl, hr⟩
  refine conforms_setDi_bind (Conforms.pure ?_)
  have hkey : ∀ e, ((l'.setBlock d { l'.data d with
      info := info, calls := if err = 0 then [] else (l'.data d).calls }).data e).key = (l'.data e).key := by
    intro e
    rw [data_setBlock]
    split
    · rename_i he
      rw [he]
    · rfl
  refine ⟨⟨h.cached_of_seen hr.learns.seen, h.dirty, fun b e he => ?_, fun e he => ?_, fun b => ?_, ?_⟩,
    hr.nonpos, rfl, rfl, rfl, rfl, fun e he => ?_, fun h0 => ⟨(hr.done h0).1, ?_⟩, fun h0 => (hr.failed h0).1⟩
  · rw [hkey]
    exact h.block b e he
  · rw [hkey, data_setBlock]
    split
    · rename_i he'
      rw [he']
      exact hr.holds
    · by_cases hb : (l'.data e).key = (l'.data d).key
      · have := h.holds e he
        rw [hb] at this ⊢
        exact matches_mono this hr.learns.known
      · rw [hr.learns.other _ hb]
        exact h.holds e he
  · by_cases hb : b = (l'.data d).key
    · rw [hb]
      exact hr.learns.known (h.base _)
    · rw [hr.learns.other b hb]
      exact h.base b
  · by_cases h0 : err = 0
    · obtain ⟨hs, hc⟩ := hr.done h0
      rw [hs, hc]
      exact h.sublist.cons_cons _
    · obtain ⟨hs, hc⟩ := hr.failed h0
      rw [hs, hc]
      exact h.sublist
  · rw [data_setBlock, if_neg he]
  · have hholds := hr.holds
    dsimp only at h0 hholds
    rw [if_pos h0] at hholds
    rw [data_setBlock, if_pos rfl]
    exact hasUpdates_of_matches hholds

/-- A block is not stored without a claim. -/
theorem putData_unserialized (h : Mem l t) {d : Nat} (hd : d < l.nextData) (fuel : Nat)
    (Q : Int → Local → Stage → Prop) : Conforms (protocol blocksize) (putData false d fuel) Q l t := by
  refine conforms_getDi_bind ?_
  have hput : Conforms (protocol blocksize)
      (StateT.lift (onBlock (l.data d).key false (Data.putData (l.data d).calls fuel (l.data d).info)))
      (fun _ _ _ => False) l t := by
    refine conforms_lift ?_
    cases fuel with
    | zero => trivial
    | succ fuel =>
      obtain ⟨base, hbase, hholds⟩ := h.holds d hd
      exact ⟨⟨⟨base, hbase, hholds.d⟩, fun hf => absurd hf (by decide)⟩, fun x hx => absurd hx Bool.false_ne_true⟩
  exact hput.then fun _ _ _ hf => hf.elim

/-- Storing the new size of the file, for the block of object `d`. -/
structure ClaimsBlock (a : Nat) (l : Local) (t : Stage) (claim : Claim) (err : Int) (l' : Local) (t' : Stage) :
    Prop where
  mem : Mem l' t'
  nonpos : err ≤ 0
  frame : Frame l l'
  stored : t'.stored = t.stored
  done : err = 0 → l'.lookupCache = some a ∧ t'.pending = some claim

theorem putFlush_claims (h : Mem l t) {a d newsize : Nat} (ha : l.lookupCache = some a)
    (hn : (l.heap a).md.inodeNumber ≠ 0) (hd : d < l.nextData)
    (hsize : newsize = newSize blocksize (l.data d) (l.heap a).md) :
    Conforms (protocol blocksize) (putMetadata (.flush (l.data d).key (l.data d).calls newsize) a)
      (ClaimsBlock a l t ((l.data d).key, (l.data d).calls))
      (l.setObject a { l.heap a with md := { (l.heap a).md with size := newsize % 2 ^ 32 } }) t := by
  have hcur : ((l.heap a).keyVersion, (l.heap a).md.size) ∈ t.seen := (h.cached a ha).2 hn
  have hframe : Frame l (l.setObject a { l.heap a with
      md := { (l.heap a).md with size := newsize % 2 ^ 32 } }) := frame_setObject rfl
  have hstop : ∀ u ∈ (l.data d).calls, blocksize * (l.data d).key + u.stop ≤ newsize := by
    intro u hu
    obtain ⟨base, -, hholds⟩ := h.holds d hd
    have hle : u.stop ≤ (l.data d).info.d.length := by
      rw [hholds.d, length_overlay]
      exact (stop_le_reach hu).trans (le_max_right _ _)
    have hmax : blocksize * (l.data d).key + (l.data d).info.d.length ≤ newsize := by
      rw [hsize]
      exact le_max_left _ _
    omega
  have hle : (l.heap a).md.size ≤ newsize := by
    rw [hsize]
    exact le_max_right _ _
  have hallowed : (protocol blocksize).allowed t (.put (.flush (l.data d).key (l.data d).calls newsize)
      (l.heap a).keyVersion { (l.heap a).md with size := newsize % 2 ^ 32 }) := ⟨rfl, ⟨_, hcur, hle⟩, hstop⟩
  refine conforms_getMdi_bind ?_
  rw [heap_setObject, if_pos rfl]
  dsimp only
  refine (Conforms.call (Q := fun x l' t' =>
    l' = l.setObject a { l.heap a with md := { (l.heap a).md with size := newsize % 2 ^ 32 } } ∧
    t' = t.put { (l.heap a).md with size := newsize % 2 ^ 32 } x
      (.flush (l.data d).key (l.data d).calls newsize)) hallowed fun x _ => ⟨rfl, rfl⟩).then ?_
  rintro (⟨status, version⟩ : StatusCode × Str) l' t' ⟨rfl, rfl⟩
  -- the object has a new size, which is current only once it is stored
  have huncached : Mem { l.setObject a { l.heap a with md := { (l.heap a).md with size := newsize % 2 ^ 32 } } with
      lookupCache := none } t :=
    h.invalidate.setObject (x := { l.heap a with md := { (l.heap a).md with size := newsize % 2 ^ 32 } }) rfl
      fun hc => by cases hc
  cases status
  case OK =>
    refine conforms_setMdi_bind (Conforms.pure ?_)
    refine ⟨?_, Int.le_refl _, hframe.trans (frame_setObject rfl), rfl, fun _ => ⟨ha, rfl⟩⟩
    rw [heap_setObject, if_pos rfl]
    refine ⟨fun b hb => ?_, fun b e hb he => ?_, h.block, h.holds, h.base, ?_⟩
    · obtain rfl : a = b := Option.some.inj (ha.symm.trans hb)
      refine ⟨(h.cached a ha).1, fun _ => ?_⟩
      rw [heap_setObject, if_pos rfl]
      exact List.mem_cons_self
    · have hframe' := hframe.trans (frame_setObject (a := a) (x := { l.heap a with
        md := { (l.heap a).md with size := newsize % 2 ^ 32 }, keyVersion := version }) (by
          rw [heap_setObject, if_pos rfl]))
      rw [hframe'.dirtyData b hb] at he
      exact h.dirty b e hb he
    · exact h.sublist.trans (List.sublist_append_right _ _)
  all_goals
    refine conforms_cacheInvalidate_bind (Conforms.pure ⟨huncached, by decide,
      hframe.trans ⟨rfl, rfl, rfl, Nat.le_refl _, fun _ _ => rfl⟩, rfl, fun h0 => absurd h0 (by decide)⟩)

/-- The cached object `a` has the dirty block `d`. -/
structure Dirty (l : Local) (a d : Nat) : Prop where
  cached : l.lookupCache = some a
  data : (l.heap a).dirtyData = some d
  updates : (l.data d).info.hasUpdates = true

theorem dirty_of_dirtyData {a d : Nat} (h : (l.heap a).dirtyData = some d) :
    l.dirty a = (l.data d).info.hasUpdates := by
  unfold Local.dirty
  rw [h]

theorem Dirty.dirty {a d : Nat} (h : Dirty l a d) : l.dirty a = true :=
  (dirty_of_dirtyData h.data).trans h.updates

/-- What `hflat_fsync` leaves: if it returns 0, the dirty block of the cached object was stored. -/
structure Synced (l : Local) (t : Stage) (err : Int) (l' : Local) (t' : Stage) : Prop where
  mem : Mem l' t'
  nonpos : err ≤ 0
  stored : ∃ n, t'.stored = n ++ t.stored
  next : l.next ≤ l'.next
  nextData : l'.nextData = l.nextData
  done : err = 0 → ∀ a d, Dirty l a d → t'.stored = ((l.data d).key, (l.data d).calls) :: t.stored ∧
    l'.lookupCache = some a ∧ (l'.heap a).dirtyData = some d ∧ (l'.data d).info.hasUpdates = false ∧
    ∀ e, e ≠ d → l'.data e = l.data e

/-- An error, or nothing to flush. -/
theorem synced_clean {l1 : Local} {t1 : Stage} (hm : Mem l1 t1) (hs : t1.stored = t.stored) (hf : Frame l l1)
    {err : Int} (hle : err ≤ 0) (hclean : err = 0 → ∀ a d, ¬ Dirty l a d) : Synced l t err l1 t1 :=
  ⟨hm, hle, ⟨[], hs⟩, hf.next, hf.nextData, fun h0 a d hd => absurd hd (hclean h0 a d)⟩

theorem hflatFsync_synced (h : Mem l t) (fuel : Nat) :
    Conforms (protocol blocksize) (hflatFsync env ctx blocksize true fuel) (Synced l t) l t := by
  cases fuel with
  | zero => exact conforms_exit
  | succ fuel =>
    refine (lookup_looked (fuel + 1) h).then ?_
    rintro ⟨err, mdi⟩ l1 t1 hl
    refine Conforms.ite (fun herr => ?_) fun herr => ?_
    · exact Conforms.pure (synced_clean hl.mem hl.grows.stored hl.frame hl.nonpos fun h0 => absurd h0 herr)
    have h0 : err = 0 := not_not.mp herr
    obtain ⟨a, rfl, hc, hn⟩ := hl.found h0
    -- a dirty object is still the cached one, with the same block
    have hsame : ∀ b d, Dirty l b d → a = b ∧ (l1.heap a).dirtyData = some d := by
      intro b d hd
      have hab : some a = some b := hl.same b hd.cached hd.dirty h0
      obtain rfl : a = b := Option.some.inj hab
      exact ⟨rfl, (hl.frame.dirtyData a (h.cached a hd.cached).1).trans hd.data⟩
    refine conforms_getMdi_bind ?_
    cases hdata : (l1.heap a).dirtyData with
    | none =>
      refine Conforms.pure (synced_clean hl.mem hl.grows.stored hl.frame (Int.le_refl _) fun _ b d hd => ?_)
      have := (hsame b d hd).2
      rw [hdata] at this
      cases this
    | some d =>
      have hdata' : ∀ b e, Dirty l b e → a = b ∧ d = e := by
        intro b e hd
        obtain ⟨hab, he⟩ := hsame b e hd
        exact ⟨hab, Option.some.inj (hdata.symm.trans he)⟩
      have hd : d < l1.nextData := hl.mem.dirty a d (hl.mem.cached a hc).1 hdata
      refine conforms_getDi_bind (Conforms.ite (fun hclean => ?_) fun _ => conforms_getMdi_bind ?_)
      · refine Conforms.pure (synced_clean hl.mem hl.grows.stored hl.frame (Int.le_refl _) fun _ b e hd => ?_)
        obtain ⟨-, rfl⟩ := hdata' b e hd
        have hupdates := hd.updates
        rw [← hl.frame.data] at hupdates
        exact hclean hupdates
      refine Conforms.ite (fun _ => ?_) fun _ => putData_unserialized hl.mem hd fuel _
      refine conforms_setMdi_bind ((putFlush_claims hl.mem hc hn hd rfl).then ?_)
      intro err l2 t2 hclaim
      have hframe := hl.frame.trans hclaim.frame
      have hstored : t2.stored = t.stored := hclaim.stored.trans hl.grows.stored
      refine Conforms.ite (fun herr => ?_) fun herr => ?_
      · refine Conforms.modify_bind (Conforms.pure ?_)
        exact ⟨hclaim.mem.dataInvalidate _, hclaim.nonpos, ⟨[], hstored⟩, hframe.next, hframe.nextData,
          fun h0 => absurd h0 herr.1⟩
      have herr0 : err = 0 := by simpa using herr
      obtain ⟨hc2, hp⟩ := hclaim.done herr0
      rw [if_neg (by rw [herr0]; decide)]
      have hd2 : d < l2.nextData := by
        rw [hclaim.frame.nextData]
        exact hd
      rw [← hclaim.frame.data] at hp
      refine (putData_stores hclaim.mem hd2 hp fuel).mono fun err' l3 t3 hstores => ?_
      refine ⟨hstores.mem, hstores.nonpos, ?_, ?_, hstores.nextData.trans hframe.nextData, fun h0 b e hdirty => ?_⟩
      · by_cases h0 : err' = 0
        · exact ⟨[_], by rw [(hstores.done h0).1, hstored, List.singleton_append]⟩
        · exact ⟨[], (hstores.failed h0).trans hstored⟩
      · rw [hstores.next]
        exact hframe.next
      · obtain ⟨rfl, rfl⟩ := hdata' b e hdirty
        obtain ⟨hs, hclean⟩ := hstores.done h0
        refine ⟨?_, hstores.lookupCache.trans hc2, ?_, hclean, fun e he => ?_⟩
        · rw [hs, hframe.data, hstored]
        · rw [hstores.heap, hclaim.frame.dirtyData a (hl.mem.cached a hc).1]
          exact hdata
        · rw [hstores.other e he, hframe.data]

/-! ## Writes -/

theorem Mem.learns (h : Mem l t) {b : Nat} {t' : Stage} (hl : Learns b t t') (hs : t'.stored = t.stored)
    (hc : t'.claims = t.claims) : Mem l t' := by
  have hknown : ∀ c, t.known c ⊆ t'.known c := by
    intro c
    by_cases hb : c = b
    · rw [hb]
      exact hl.known
    · rw [hl.other c hb]
      exact List.Subset.refl _
  refine ⟨h.cached_of_seen hl.seen, h.dirty, h.block, fun d hd => matches_mono (h.holds d hd) (hknown _),
    fun c => hknown c (h.base c), ?_⟩
  rw [hs, hc]
  exact h.sublist

theorem getData_learns (h : Mem l t) (b : Nat) : Conforms (protocol blocksize) (getData b) (fun r l' t' =>
    l' = l ∧ Mem l t' ∧ t'.stored = t.stored ∧ (∀ err, r = .error err → err = - EIO) ∧
      ∀ x, r = .ok x → Matches x [] (t'.known b)) l t := by
  refine conforms_lift ⟨trivial, fun (record : Except StatusCode (KineticRecord Str)) _ => ?_⟩
  cases record with
  | ok record =>
    have hlearn := learns_cons t b (record.version, record.value)
    refine ⟨rfl, h.learns hlearn rfl rfl, rfl, fun err herr => (by cases herr), fun x hx => ?_⟩
    cases hx
    refine ⟨record.value, ?_, holds_nil _ _⟩
    show (record.version, record.value) ∈ (t.learn b ((record.version, record.value) :: t.known b)).known b
    rw [known_learn]
    exact List.mem_cons_self
  | error status =>
    have hsame : (protocol blocksize).next t (.data b false .get)
        (Except.error status : Except StatusCode (KineticRecord Str)) = t := learn_same t b
    rw [hsame]
    cases status with
    | REMOTE_NOT_FOUND =>
      refine ⟨rfl, h, rfl, fun err herr => (by cases herr), fun x hx => ?_⟩
      cases hx
      exact ⟨[], h.base b, holds_nil _ _⟩
    | _ =>
      refine ⟨rfl, h, rfl, fun err herr => ?_, fun x hx => (by cases hx)⟩
      cases herr
      rfl

/-- A block is looked for, or made and added to the cache. -/
structure HasBlock (l : Local) (t : Stage) (b : Nat) (r : Except Int Nat) (l' : Local) (t' : Stage) : Prop where
  mem : Mem l' t'
  stored : t'.stored = t.stored
  lookupCache : l'.lookupCache = l.lookupCache
  heap : l'.heap = l.heap
  next : l'.next = l.next
  error : ∀ err, r = .error err → err = - EIO
  found : ∀ d, r = .ok d → d < l'.nextData ∧ (l'.data d).key = b

theorem dataCacheGet_mem (h : Mem l t) (b : Nat) : Conforms (protocol blocksize) (dataCacheGet b) (fun r l' t' =>
    t' = t ∧ Mem l' t ∧ l'.lookupCache = l.lookupCache ∧ l'.heap = l.heap ∧ l'.next = l.next ∧
      ∀ d, r = some d → d < l'.nextData ∧ (l'.data d).key = b) l t := by
  refine Conforms.get_bind ?_
  cases hc : l.dataCache b with
  | none => exact Conforms.pure ⟨rfl, h, rfl, rfl, rfl, by simp⟩
  | some d =>
    have hfound : ∀ e, some d = some e → e < l.nextData ∧ (l.data e).key = b := by
      intro e he
      cases he
      exact h.block b d hc
    refine conforms_getDi_bind (Conforms.ite (fun _ => ?_) fun _ => ?_)
    · exact Conforms.pure ⟨rfl, h, rfl, rfl, rfl, hfound⟩
    refine (Conforms.call (Q := fun _ l' t' => l' = l ∧ t' = t) trivial fun x _ => ⟨rfl, rfl⟩).then ?_
    rintro (expired : Bool) l' t' ⟨rfl, rfl⟩
    refine Conforms.ite (fun _ => ?_) fun _ => ?_
    · exact Conforms.modify_bind (Conforms.pure ⟨rfl, h.dataInvalidate b, rfl, rfl, rfl, by simp⟩)
    · exact Conforms.pure ⟨rfl, h, rfl, rfl, rfl, hfound⟩

theorem dataAdd_eq (b d : Nat) : Conforms (protocol blocksize) (dataAdd b d) (fun _ l' t' =>
    t' = t ∧ l' = { l with dataCache := Function.update l.dataCache b (some d) }) l t := by
  refine Conforms.get_bind ?_
  cases l.dataCache b with
  | some _ => exact conforms_exit
  | none => exact Conforms.modify ⟨rfl, rfl⟩

/-- A new block, added to the cache. -/
theorem newBlock_mem (h : Mem l t) (b : Nat) {x : DataInfo} (hx : Matches x [] (t.known b)) :
    Conforms (protocol blocksize) (do let di ← newDataInfo b x; dataAdd b di; return .ok di : Client (Except Int Nat))
      (HasBlock l t b) l t := by
  refine conforms_newDataInfo_bind ?_
  have hdata : ∀ e, e < l.nextData →
      Function.update l.data l.nextData (⟨b, x, []⟩ : BlockInfo) e = l.data e := fun e he =>
    Function.update_of_ne (by omega) _ _
  have hmem : Mem { l.setBlock l.nextData ⟨b, x, []⟩ with nextData := l.nextData + 1 } t := by
    refine ⟨h.cached, fun a d ha hd => Nat.lt_succ_of_lt (h.dirty a d ha hd), fun c d hd => ?_, fun d hd => ?_,
      h.base, h.sublist⟩
    · obtain ⟨hlt, hkey⟩ := h.block c d hd
      refine ⟨Nat.lt_succ_of_lt hlt, ?_⟩
      show (Function.update l.data l.nextData _ d).key = c
      rw [hdata d hlt]
      exact hkey
    · show Matches (Function.update l.data l.nextData _ d).info (Function.update l.data l.nextData _ d).calls
        (t.known (Function.update l.data l.nextData _ d).key)
      by_cases hn : d = l.nextData
      · rw [hn, Function.update_self]
        exact hx
      · have hlt : d < l.nextData := by
          have : d < l.nextData + 1 := hd
          omega
        rw [hdata d hlt]
        exact h.holds d hlt
  refine (dataAdd_eq b l.nextData).then ?_
  rintro _ l' t' ⟨rfl, rfl⟩
  refine Conforms.pure ⟨⟨hmem.cached, hmem.dirty, fun c d hd => ?_, hmem.holds, hmem.base, hmem.sublist⟩, rfl, rfl,
    rfl, rfl, fun err herr => (by cases herr), fun d hd => ?_⟩
  · have hd' : Function.update l.dataCache b (some l.nextData) c = some d := hd
    by_cases hc : c = b
    · rw [hc, Function.update_self] at hd'
      cases hd'
      refine ⟨Nat.lt_succ_self _, ?_⟩
      show (Function.update l.data l.nextData _ l.nextData).key = c
      rw [Function.update_self, hc]
    · rw [Function.update_of_ne hc] at hd'
      exact hmem.block c d hd'
  · cases hd
    refine ⟨Nat.lt_succ_self _, ?_⟩
    show (Function.update l.data l.nextData _ l.nextData).key = b
    rw [Function.update_self]

theorem writeBlock_has (h : Mem l t) (b stop : Nat) (md : Inode) :
    Conforms (protocol blocksize) (writeBlock b stop md) (HasBlock l t b) l t := by
  refine (dataCacheGet_mem h b).then ?_
  rintro found l1 t1 ⟨rfl, h1, hcache, hheap, hnext, hfound⟩
  cases found with
  | some d =>
    refine Conforms.pure ⟨h1, rfl, hcache, hheap, hnext, fun err herr => (by cases herr), fun e he => ?_⟩
    cases he
    exact hfound d rfl
  | none =>
    have hafter : ∀ {r : Except Int Nat} {l2 : Local} {t' t2 : Stage}, t'.stored = t1.stored →
        HasBlock l1 t' b r l2 t2 → HasBlock l t1 b r l2 t2 := fun hs hr =>
      ⟨hr.mem, hr.stored.trans hs, hr.lookupCache.trans hcache, hr.heap.trans hheap, hr.next.trans hnext, hr.error,
        hr.found⟩
    refine Conforms.ite (fun _ => ?_) fun _ => ?_
    · exact (newBlock_mem h1 b ⟨[], h1.base b, holds_nil _ _⟩).mono fun r l2 t2 hr => hafter rfl hr
    · refine (getData_learns h1 b).then ?_
      rintro r l2 t2 ⟨rfl, h2, hs2, herr, hok⟩
      cases r with
      | error err =>
        refine Conforms.modify_bind (Conforms.pure ⟨h2.dataInvalidate b, hs2, hcache, hheap, hnext, fun e he => ?_,
          fun d hd => (by cases hd)⟩)
        cases he
        exact herr err rfl
      | ok x => exact (newBlock_mem h2 b (hok x rfl)).mono fun r l3 t3 hr => hafter hs2 hr

/-- The claim is what is left to write for this append, and it comes last. -/
structure AckOf (blocksize : Nat) (ack : Ack) (claim : Claim) : Prop where
  inside : ack.1 - ack.1 / blocksize * blocksize + ack.2.length ≤ blocksize
  block : claim.1 = ack.1 / blocksize
  last : ∃ calls, claim.2 = calls ++ [⟨ack.1 - ack.1 / blocksize * blocksize, ack.2⟩]
  nonempty : ack.2 ≠ []

theorem start_eq_mod (n : Nat) : n - n / blocksize * blocksize = n % blocksize := by
  have h := Nat.div_add_mod n blocksize
  rw [Nat.mul_comm] at h
  omega

/-- What `do_rw` leaves and returns. -/
structure Written (blocksize : Nat) (l : Local) (t : Stage) (buf : Str) (offset : Nat) (r : Int × Option Nat)
    (l' : Local) (t' : Stage) : Prop where
  mem : Mem l' t'
  stored : t'.stored = t.stored
  lookupCache : l'.lookupCache = l.lookupCache
  heap : l'.heap = l.heap
  next : l'.next = l.next
  error : r.2 = none → r.1 = - EIO
  done : ∀ d, r.2 = some d → d < l'.nextData ∧ (l'.data d).info.hasUpdates = true ∧ ∃ n : Nat, r.1 = n ∧ 0 < n ∧
    n ≤ buf.length ∧ n ≤ blockLimit ∧ AckOf blocksize (offset, buf.take n) ((l'.data d).key, (l'.data d).calls)

theorem doRw_written (hb : BlockSize blocksize) {buf : Str} (hbuf : buf ≠ []) {offset : Nat}
    (hoffset : offset < 2147483648) (h : Mem l t) (mdi : Nat) :
    Conforms (protocol blocksize) (doRw blocksize buf offset mdi) (Written blocksize l t buf offset) l t := by
  have hle := Nat.div_le_self offset blocksize
  have hblock : offset / blocksize < 4294967296 := by omega
  unfold doRw
  rw [place_of_lt hb hoffset]
  unfold doRwAt
  dsimp only
  rw [Place.block_of_lt hblock, Int.toNat_natCast, Int.toNat_natCast]
  refine conforms_getMdi_bind ((writeBlock_has h _ _ _).then ?_)
  intro r l1 t1 hr
  cases r with
  | error err =>
    refine Conforms.pure ⟨hr.mem, hr.stored, hr.lookupCache, hr.heap, hr.next, fun _ => hr.error err rfl,
      fun d hd => (by cases hd)⟩
  | ok d =>
    obtain ⟨hd, hkey⟩ := hr.found d rfl
    -- the part of the write inside the block
    have hpos : 0 < buf.length := List.length_pos_iff.mpr hbuf
    have hstart : offset % blocksize < blocksize := Nat.mod_lt offset hb.1
    obtain ⟨n, hn⟩ : ∃ n, n = min buf.length (blocksize - offset % blocksize) := ⟨_, rfl⟩
    have hn0 : 0 < n := by
      rw [hn]
      exact lt_min hpos (by omega)
    have hnle : n ≤ buf.length := by
      rw [hn]
      exact min_le_left _ _
    have hbytes : buf.take n ≠ [] := by
      intro he
      rcases List.take_eq_nil_iff.mp he with h0 | h0
      · exact absurd h0 hn0.ne'
      · exact hbuf h0
    refine conforms_getDi_bind ?_
    rw [← hn]
    cases hupdate : (l1.data d).info.updateData (buf.take n) (offset % blocksize) with
    | none => exact conforms_exit
    | some info =>
      refine conforms_setDi_bind (Conforms.pure ?_)
      obtain ⟨base, hbase, hholds⟩ := hr.mem.holds d hd
      obtain ⟨hholds', hversion⟩ := DataInfo.updateData_holds hholds hbytes hupdate
      have hmatches : Matches info ((l1.data d).calls ++ [⟨offset % blocksize, buf.take n⟩])
          (t1.known (l1.data d).key) := ⟨base, hversion.symm ▸ hbase, hholds'⟩
      have hlimit : n ≤ blockLimit := by
        unfold DataInfo.updateData at hupdate
        obtain ⟨hle, -⟩ := Option.ite_none_right_eq_some.mp hupdate
        rw [List.length_take] at hle
        omega
      refine ⟨⟨hr.mem.cached, hr.mem.dirty, fun c e he => ?_, fun e he => ?_, hr.mem.base, hr.mem.sublist⟩, hr.stored,
        hr.lookupCache, hr.heap, hr.next, fun h0 => (by cases h0), fun e he => ?_⟩
      · rw [data_setBlock]
        split
        · rename_i hed
          rw [hed] at he ⊢
          exact hr.mem.block c d he
        · exact hr.mem.block c e he
      · rw [data_setBlock]
        split
        · exact hmatches
        · exact hr.mem.holds e he
      · cases he
        refine ⟨hd, ?_, n, rfl, hn0, hnle, hlimit, ?_⟩
        · rw [data_setBlock, if_pos rfl]
          have hupdates : info.updates ≠ [] := by
            rw [hholds'.updates]
            simp
          simp [DataInfo.hasUpdates, hupdates]
        · rw [data_setBlock, if_pos rfl]
          refine ⟨?_, hkey, ⟨_, by rw [start_eq_mod]⟩, hbytes⟩
          show offset - offset / blocksize * blocksize + (buf.take n).length ≤ blocksize
          rw [start_eq_mod, List.length_take]
          omega

/-- `setDirtyData` of the cached object. -/
theorem setDirtyData_eq (mdi : Nat) (di : Option Nat) : Conforms (protocol blocksize) (setDirtyData mdi di)
    (fun r l' t' => t' = t ∧ (r = false → l.dirty mdi = true ∧ (l.heap mdi).dirtyData ≠ di ∧ l' = l) ∧
      (r = true → (l'.heap mdi).dirtyData = di ∧ (l' = l ∨ l' = l.setObject mdi { l.heap mdi with dirtyData := di }))) l
    t := by
  refine conforms_getMdi_bind (Conforms.ite (fun he => ?_) fun hne => Conforms.get_bind
    (Conforms.ite (fun hd => ?_) fun _ => ?_))
  · exact Conforms.pure ⟨rfl, by simp, fun _ => ⟨he, Or.inl rfl⟩⟩
  · exact Conforms.pure ⟨rfl, fun _ => ⟨hd, hne, rfl⟩, by simp⟩
  · refine conforms_setMdi_bind (Conforms.pure ⟨rfl, by simp, fun _ => ⟨?_, Or.inr rfl⟩⟩)
    rw [heap_setObject, if_pos rfl]

theorem Mem.setDirty (h : Mem l t) {mdi : Nat} {di : Option Nat} (hdi : ∀ d, di = some d → d < l.nextData) :
    Mem (l.setObject mdi { l.heap mdi with dirtyData := di }) t := by
  refine ⟨fun a ha => ?_, fun a d ha hd => ?_, h.block, h.holds, h.base, h.sublist⟩
  · obtain ⟨hlt, hcur⟩ := h.cached a ha
    refine ⟨hlt, ?_⟩
    rw [heap_setObject]
    split
    · rename_i he
      rw [he] at hcur
      exact hcur
    · exact hcur
  · rw [heap_setObject] at hd
    split at hd
    · exact hdi d hd
    · exact h.dirty a d ha hd

/-- What an append leaves and returns: if it is acknowledged, its claim was stored. -/
structure Appended (blocksize : Nat) (t : Stage) (buf : Str) (offset : Nat) (size : Int) (l' : Local) (t' : Stage) :
    Prop where
  mem : Mem l' t'
  stored : ∃ n, t'.stored = n ++ t.stored ∧ (0 < size → size.toNat ≤ buf.length ∧
    ∃ c ∈ n, AckOf blocksize (offset, buf.take size.toNat) c)

/-- The write is ready to be flushed: it is in the dirty block of the cached object, or has failed. -/
def Ready (blocksize : Nat) (l : Local) (buf : Str) (offset : Nat) (size : Int) : Prop :=
  size < 0 ∨ ∃ a d, Dirty l a d ∧ size.toNat ≤ buf.length ∧
    AckOf blocksize (offset, buf.take size.toNat) ((l.data d).key, (l.data d).calls)

theorem finishWrite_appended {t0 : Stage} {buf : Str} {offset : Nat} {size : Int} {retry : Client Int}
    (hretry : ∀ l t, Mem l t → Conforms (protocol blocksize) retry
      (Appended blocksize t (buf.take (sizeT size)) offset) l t)
    (h : Mem l t) (hstored : ∃ n, t.stored = n ++ t0.stored) (hready : Ready blocksize l buf offset size) (fuel : Nat) :
    Conforms (protocol blocksize) (finishWrite env ctx blocksize true offset size retry fuel)
      (Appended blocksize t0 buf offset) l t := by
  obtain ⟨n0, hn0⟩ := hstored
  refine Conforms.ite (fun _ => ?_) fun hfalse => absurd (Or.inl rfl) hfalse
  refine (hflatFsync_synced h fuel).then ?_
  intro err l1 t1 hs
  obtain ⟨n1, hn1⟩ := hs.stored
  refine Conforms.ite (fun _ => ?_) fun hagain => Conforms.ite (fun herr => ?_) fun herr => ?_
  · refine (hretry l1 t1 hs.mem).mono fun size' l2 t2 ha => ⟨ha.mem, ?_⟩
    obtain ⟨n2, hn2, hack⟩ := ha.stored
    refine ⟨n2 ++ n1 ++ n0, by rw [hn2, hn1, hn0]; simp, fun hpos => ?_⟩
    obtain ⟨hle, c, hc, hackof⟩ := hack hpos
    rw [List.length_take] at hle
    rw [List.take_take, min_eq_left (by omega)] at hackof
    exact ⟨by omega, c, List.mem_append_left _ (List.mem_append_left _ hc), hackof⟩
  · refine Conforms.pure ⟨hs.mem, n1 ++ n0, by rw [hn1, hn0]; simp, fun hpos => ?_⟩
    exact absurd hpos (not_lt.mpr hs.nonpos)
  · refine Conforms.pure ⟨hs.mem, n1 ++ n0, by rw [hn1, hn0]; simp, fun hpos => ?_⟩
    rcases hready with hneg | ⟨a, d, hdirty, hle, hackof⟩
    · omega
    · obtain ⟨hstored1, -⟩ := hs.done (not_not.mp herr) a d hdirty
      refine ⟨hle, _, List.mem_append_left _ ?_, hackof⟩
      rw [hstored1] at hn1
      have hsingle : [((l.data d).key, (l.data d).calls)] = n1 := List.append_cancel_right hn1
      rw [← hsingle]
      exact List.mem_singleton_self _

/-- The block of the write is the dirty block now. -/
theorem ready_of_setDirtyData (h : Mem l t) {buf : Str} {offset mdi : Nat} {size : Int} {di : Option Nat} {l' : Local}
    (hc : l.lookupCache = some mdi) (herror : di = none → size < 0)
    (hdone : ∀ d, di = some d → d < l.nextData ∧ (l.data d).info.hasUpdates = true ∧ size.toNat ≤ buf.length ∧
      AckOf blocksize (offset, buf.take size.toNat) ((l.data d).key, (l.data d).calls))
    (hdi : (l'.heap mdi).dirtyData = di)
    (hl' : l' = l ∨ l' = l.setObject mdi { l.heap mdi with dirtyData := di }) :
    Mem l' t ∧ Ready blocksize l' buf offset size := by
  have hmem : Mem l' t := by
    rcases hl' with rfl | rfl
    · exact h
    · exact h.setDirty fun d hd => (hdone d hd).1
  have hdata : l'.data = l.data := by
    rcases hl' with rfl | rfl <;> rfl
  have hcache : l'.lookupCache = some mdi := by
    rcases hl' with rfl | rfl <;> exact hc
  refine ⟨hmem, ?_⟩
  cases di with
  | none => exact Or.inl (herror rfl)
  | some d =>
    obtain ⟨-, hupdates, hle, hack⟩ := hdone d rfl
    rw [← hdata] at hupdates hack
    exact Or.inr ⟨mdi, d, ⟨hcache, hdi, hupdates⟩, hle, hack⟩

theorem sizeT_pos {size : Int} (h : size = - EIO ∨ ∃ n : Nat, size = n ∧ 0 < n ∧ n ≤ blockLimit) :
    0 < sizeT size := by
  have hlimit : blockLimit = 1048576 := rfl
  rcases h with rfl | ⟨n, rfl, hn, hle⟩
  · decide
  · unfold sizeT
    omega

theorem hflatWrite_appended (hb : BlockSize blocksize) (fuel : Nat) {buf : Str} (hbuf : buf ≠ []) {offset : Nat}
    (hoffset : offset < 2147483648) (h : Mem l t) :
    Conforms (protocol blocksize) (hflatWrite env ctx blocksize true fuel buf offset)
      (Appended blocksize t buf offset) l t := by
  induction fuel generalizing buf l t with
  | zero => exact conforms_exit
  | succ fuel ih =>
    have hfailed : ∀ {err : Int} {l' : Local} {t' : Stage}, err ≤ 0 → Mem l' t' →
        (∃ n, t'.stored = n ++ t.stored) → Appended blocksize t buf offset err l' t' := by
      intro err l' t' hle hm hn
      obtain ⟨n, hn⟩ := hn
      exact ⟨hm, n, hn, fun hpos => absurd hpos (not_lt.mpr hle)⟩
    refine (lookup_looked (fuel + 1) h).then ?_
    rintro ⟨err, mdi⟩ l1 t1 hl
    refine Conforms.ite (fun _ => ?_) fun herr => ?_
    · exact Conforms.pure (hfailed hl.nonpos hl.mem ⟨[], hl.grows.stored⟩)
    obtain ⟨a, rfl, hc, hn⟩ := hl.found (not_not.mp herr)
    refine (doRw_written hb hbuf hoffset hl.mem a).then ?_
    rintro ⟨size, di⟩ l2 t2 hw
    have hstored : t2.stored = t.stored := hw.stored.trans hl.grows.stored
    have hc2 : l2.lookupCache = some a := hw.lookupCache.trans hc
    refine Conforms.ite (fun h0 => ?_) fun _ => ?_
    · exact Conforms.pure (hfailed (Int.le_refl _) hw.mem ⟨[], hstored⟩)
    have hsize : size = - EIO ∨ ∃ n : Nat, size = n ∧ 0 < n ∧ n ≤ blockLimit := by
      cases di with
      | none => exact Or.inl (hw.error rfl)
      | some d =>
        obtain ⟨-, -, n, hn, hpos, -, hlimit, -⟩ := hw.done d rfl
        exact Or.inr ⟨n, hn, hpos, hlimit⟩
    have herror : di = none → size < 0 := by
      intro hnone
      have hval : size = - EIO := hw.error hnone
      rw [hval]
      decide
    have hdone : ∀ d, di = some d → d < l2.nextData ∧ (l2.data d).info.hasUpdates = true ∧ size.toNat ≤ buf.length ∧
        AckOf blocksize (offset, buf.take size.toNat) ((l2.data d).key, (l2.data d).calls) := by
      intro d hd
      obtain ⟨hlt, hupdates, n, hn, -, hle, -, hack⟩ := hw.done d hd
      have hval : size = n := hn
      rw [hval]
      exact ⟨hlt, hupdates, hle, hack⟩
    have hretry : ∀ l t, Mem l t → Conforms (protocol blocksize)
        (hflatWrite env ctx blocksize true fuel (buf.take (sizeT size)) offset)
        (Appended blocksize t (buf.take (sizeT size)) offset) l t := by
      intro l t h
      refine ih ?_ h
      intro he
      rcases List.take_eq_nil_iff.mp he with h0 | h0
      · exact absurd h0 (sizeT_pos hsize).ne'
      · exact hbuf h0
    refine (setDirtyData_eq a di).then ?_
    rintro set l3 t3 ⟨rfl, hfalse, htrue⟩
    refine Conforms.ite (fun hset => ?_) fun hset => ?_
    · obtain ⟨hdi, hl3⟩ := htrue hset
      obtain ⟨h3, hready⟩ := ready_of_setDirtyData hw.mem hc2 herror hdone hdi hl3
      exact finishWrite_appended hretry h3 ⟨[], hstored⟩ hready (fuel + 1)
    · obtain ⟨hdirty, hne, rfl⟩ := hfalse (Bool.eq_false_iff.mpr hset)
      refine (hflatFsync_synced hw.mem (fuel + 1)).then ?_
      intro err l4 t4 hs
      obtain ⟨n4, hn4⟩ := hs.stored
      refine Conforms.ite (fun _ => ?_) fun herr => ?_
      · exact Conforms.pure (hfailed hs.nonpos hs.mem ⟨n4, by rw [hn4, hstored]⟩)
      -- the other dirty block is flushed, that of the write is still there
      obtain ⟨e, he, hupdates⟩ : ∃ e, (l3.heap a).dirtyData = some e ∧ (l3.data e).info.hasUpdates = true := by
        cases he : (l3.heap a).dirtyData with
        | none =>
          unfold Local.dirty at hdirty
          rw [he] at hdirty
          cases hdirty
        | some e => exact ⟨e, rfl, (dirty_of_dirtyData he).symm.trans hdirty⟩
      obtain ⟨-, hc4, he4, hclean, hother⟩ := hs.done (not_not.mp herr) a e ⟨hc2, he, hupdates⟩
      have hdone4 : ∀ d, di = some d → d < l4.nextData ∧ (l4.data d).info.hasUpdates = true ∧ size.toNat ≤ buf.length ∧
          AckOf blocksize (offset, buf.take size.toNat) ((l4.data d).key, (l4.data d).calls) := by
        intro d hd
        have hde : d ≠ e := by
          rintro rfl
          exact hne (he.trans hd.symm)
        rw [hother d hde, hs.nextData]
        exact hdone d hd
      refine (setDirtyData_eq a di).then ?_
      rintro set l5 t5 ⟨rfl, hfalse5, htrue5⟩
      cases set with
      | false =>
        obtain ⟨hdirty4, -⟩ := hfalse5 rfl
        rw [dirty_of_dirtyData he4, hclean] at hdirty4
        cases hdirty4
      | true =>
        obtain ⟨hdi, hl5⟩ := htrue5 rfl
        obtain ⟨h5, hready⟩ := ready_of_setDirtyData hs.mem hc4 herror hdone4 hdi hl5
        exact finishWrite_appended hretry h5 ⟨n4, by rw [hn4, hstored]⟩ hready (fuel + 1)

/-- What a session leaves and returns: every acknowledged append has stored a claim, in their order. -/
def Acked (blocksize : Nat) (t : Stage) (acks : List Ack) (l' : Local) (t' : Stage) : Prop :=
  Mem l' t' ∧ ∃ n, t'.stored = n ++ t.stored ∧ ∃ claims, claims.Sublist n.reverse ∧
    List.Forall₂ (AckOf blocksize) acks claims

theorem session_acked (hb : BlockSize blocksize) (fuel : Nat) {actions : List Action}
    (hactions : ∀ a ∈ actions, a.NonEmpty) (hbelow : ∀ a ∈ actions, a.Below) (h : Mem l t) :
    Conforms (protocol blocksize) (session env blocksize fuel actions) (Acked blocksize t) l t := by
  induction actions generalizing l t with
  | nil => exact Conforms.pure ⟨h, [], rfl, [], List.Sublist.refl _, List.Forall₂.nil⟩
  | cons action actions ih =>
    have hrest : ∀ a ∈ actions, a.NonEmpty := fun a ha => hactions a (List.mem_cons_of_mem _ ha)
    have hlow : ∀ a ∈ actions, a.Below := fun a ha => hbelow a (List.mem_cons_of_mem _ ha)
    cases action with
    | lookup ctx =>
      refine (lookup_looked fuel h).then fun r l1 t1 hl => ?_
      refine (ih hrest hlow hl.mem).mono fun acks l2 t2 hacked => ?_
      obtain ⟨h2, n, hn, hclaims⟩ := hacked
      exact ⟨h2, n, hn.trans (congrArg (n ++ ·) hl.grows.stored), hclaims⟩
    | append ctx buf offset =>
      have hbuf : buf ≠ [] := hactions _ List.mem_cons_self
      have hoffset : offset < 2147483648 := hbelow _ List.mem_cons_self
      refine (hflatWrite_appended hb fuel hbuf hoffset h).then fun size l1 t1 hsize => ?_
      refine (ih hrest hlow hsize.mem).then fun acks l2 t2 hacked => Conforms.pure ?_
      obtain ⟨n1, hn1, hack⟩ := hsize.stored
      obtain ⟨h2, n2, hn2, claims, hsub, hall⟩ := hacked
      refine ⟨h2, n2 ++ n1, by rw [hn2, hn1, List.append_assoc], ?_⟩
      rw [List.reverse_append]
      split
      · rename_i hpos
        obtain ⟨-, c, hc, hackof⟩ := hack hpos
        have hsingle : [c].Sublist n1.reverse := List.singleton_sublist.mpr (List.mem_reverse.mpr hc)
        exact ⟨c :: claims, hsingle.append hsub, List.Forall₂.cons hackof hall⟩
      · exact ⟨claims, hsub.trans (List.sublist_append_right _ _), hall⟩

theorem mem_mounted : Mem mounted Stage.start :=
  ⟨fun _ ha => (by cases ha), fun _ _ ha => absurd ha (Nat.not_lt_zero _), fun _ _ hd => (by cases hd),
    fun _ hd => absurd hd (Nat.not_lt_zero _), fun _ => List.mem_cons_self, List.Sublist.refl _⟩

end HFlat.Data.File.Append
