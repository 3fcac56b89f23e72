/-
  What a lookup does to the memory of a client, under any protocol.

  An `ObjectInv` is an invariant of the objects on the client's heap, together with the reasons why
  the requests of a lookup keep it: reading a record into a new object, and storing an object after
  its path permissions were brought up to date. `lookup_good` says that every lookup keeps such an
  invariant and what the object that it returns is like. Nothing here depends on the shared store.
-/
import HFlat.Fuse.Operations
import HFlat.Fuse.Store
import HFlat.Lib.Protocol

namespace HFlat.Fuse

open HFlat.Lib HFlat.PathMap HFlat.Permission
open HFlat.Replication (KineticRecord StatusCode)

/-! ## Memory -/

section Rules

variable {T α β : Type} {A : Protocol Req Res T} {l : Local} {t : T}

theorem conforms_getMdi_bind {mdi : Nat} {f : MetadataInfo → Client β} {Q : β → Local → T → Prop}
    (h : Conforms A (f (l.heap mdi)) Q l t) : Conforms A (getMdi mdi >>= f) Q l t := h

theorem conforms_setMdi_bind {mdi : Nat} {g : MetadataInfo → MetadataInfo} {f : Unit → Client β}
    {Q : β → Local → T → Prop}
    (h : Conforms A (f ()) Q (l.setObject mdi (g (l.heap mdi))) t) :
    Conforms A (setMdi mdi g >>= f) Q l t := h

theorem conforms_newMetadataInfo_bind {key : Str} {f : Nat → Client β} {Q : β → Local → T → Prop}
    (h : Conforms A (f l.next) Q (l.alloc key) t) : Conforms A (newMetadataInfo key >>= f) Q l t := h

theorem conforms_cacheInvalidate_bind {key : Str} {f : Unit → Client β} {Q : β → Local → T → Prop}
    (h : Conforms A (f ()) Q (l.setCache key none) t) : Conforms A (cacheInvalidate key >>= f) Q l t := h

theorem conforms_cacheBlock_bind {key : Str} {f : Unit → Client β} {Q : β → Local → T → Prop}
    (h : Conforms A (f ()) Q (l.block key) t) : Conforms A (cacheBlock key >>= f) Q l t := h

theorem conforms_deref_bind {mdi : Nat} {f : Nat → Client β} {Q : β → Local → T → Prop}
    (h : Conforms A (f mdi) Q l t) : Conforms A (deref (some mdi) >>= f) Q l t := h

theorem conforms_exit {Q : α → Local → T → Prop} : Conforms A (exit : Client α) Q l t := trivial

theorem conforms_wait {Q : α → Local → T → Prop} : Conforms A (wait : Client α) Q l t := trivial

end Rules

@[simp] theorem Local.setObject_next (l : Local) (mdi : Nat) (x : MetadataInfo) :
    (l.setObject mdi x).next = l.next := rfl

@[simp] theorem Local.setObject_lookupCache (l : Local) (mdi : Nat) (x : MetadataInfo) :
    (l.setObject mdi x).lookupCache = l.lookupCache := rfl

@[simp] theorem Local.setObject_heap (l : Local) (mdi a : Nat) (x : MetadataInfo) :
    (l.setObject mdi x).heap a = if a = mdi then x else l.heap a := Function.update_apply _ _ _ _

@[simp] theorem Local.alloc_next (l : Local) (key : Str) : (l.alloc key).next = l.next + 1 := rfl

@[simp] theorem Local.alloc_lookupCache (l : Local) (key : Str) :
    (l.alloc key).lookupCache = l.lookupCache := rfl

@[simp] theorem Local.alloc_heap (l : Local) (key : Str) (a : Nat) :
    (l.alloc key).heap a = if a = l.next then ⟨key, lit "0", Inode.empty⟩ else l.heap a :=
  Function.update_apply _ _ _ _

@[simp] theorem Local.setCache_next (l : Local) (key : Str) (entry : Option Nat) :
    (l.setCache key entry).next = l.next := rfl

@[simp] theorem Local.setCache_heap (l : Local) (key : Str) (entry : Option Nat) :
    (l.setCache key entry).heap = l.heap := rfl

@[simp] theorem Local.setCache_lookupCache (l : Local) (key k : Str) (entry : Option Nat) :
    (l.setCache key entry).lookupCache k = if k = key then entry else l.lookupCache k :=
  Function.update_apply _ _ _ _

/-! ## Blocked keys -/

@[simp] theorem Local.block_next (l : Local) (key : Str) : (l.block key).next = l.next := rfl

@[simp] theorem Local.block_heap (l : Local) (key : Str) : (l.block key).heap = l.heap := rfl

@[simp] theorem Local.block_lookupCache (l : Local) (key : Str) :
    (l.block key).lookupCache = l.lookupCache := rfl

@[simp] theorem Local.block_pmap (l : Local) (key : Str) : (l.block key).pmap = l.pmap := rfl

@[simp] theorem Local.block_setCache (l : Local) (key : Str) (entry : Option Nat) :
    (l.block key).setCache key entry = l.setCache key entry := by
  simp [Local.block, Local.setCache]

/-- No key is blocked: the client is not about to add one. -/
def Local.Free (l : Local) : Prop := ∀ key, l.blocked key = false

theorem Local.Free.setCache {l : Local} (h : l.Free) (key : Str) (entry : Option Nat) :
    (l.setCache key entry).Free := by
  intro k
  show Function.update l.blocked key false k = false
  rw [Function.update_apply]
  split
  · rfl
  · exact h k

section Blocked

variable {me : Nat} {env : Env} {ctx : Context} {lookup : Str → Option Nat → Client (Int × Option Nat)}
variable {α : Type}

theorem run_cacheAdd_bind (l : Local) (key : Str) (a : Nat) (f : Unit → Client α) :
    (cacheAdd key a >>= f).run l = match l.lookupCache key with
      | some _ => .stop
      | none => (f ()).run (l.setCache key (some a)) := by
  show ((cacheAdd key a).run l >>= fun x => (f x.1).run x.2) = _
  unfold cacheAdd
  show ((StateT.run (match l.lookupCache key with | some _ => _ | none => _) l) >>= _) = _
  cases l.lookupCache key <;> rfl

/-- Who adds a key need not have blocked it. -/
theorem cacheAdd_block (l : Local) (key : Str) (a : Nat) (f : Unit → Client α) :
    (cacheAdd key a >>= f).run (l.block key) = (cacheAdd key a >>= f).run l := by
  rw [run_cacheAdd_bind, run_cacheAdd_bind, Local.block_lookupCache, Local.block_setCache]

theorem run_databaseUpdate_bind (l : Local) (f : Int → Client α) : (databaseUpdate >>= f).run l =
    .call (.databaseUpdate l.pmap.snapshotVersion) fun (entries : Except Int (List DbEntry)) =>
      match entries with
      | .error err => (f err).run l
      | .ok entries =>
          match updateSnapshot l.pmap entries l.pmap.snapshotVersion
              (l.pmap.snapshotVersion + entries.length) with
          | none => .stop
          | some db => (f 0).run { l with pmap := db } := by
  refine congrArg (Prog.call (Req.databaseUpdate l.pmap.snapshotVersion)) (funext fun entries => ?_)
  change Except Int (List DbEntry) at entries
  cases entries with
  | error err => rfl
  | ok entries =>
    show ((match updateSnapshot l.pmap entries _ _ with | none => _ | some db => _ : Client Int) l >>=
      fun x => f x.1 x.2) = _
    dsimp only
    cases updateSnapshot l.pmap entries l.pmap.snapshotVersion (l.pmap.snapshotVersion + entries.length) <;> rfl

theorem databaseUpdate_block (l : Local) (key : Str) (f : Int → Client α) :
    (do let err ← databaseUpdate; cacheInvalidate key; f err : Client α).run (l.block key) =
      (do let err ← databaseUpdate; cacheInvalidate key; f err : Client α).run l := by
  rw [run_databaseUpdate_bind, run_databaseUpdate_bind]
  have hrelease : ∀ (l : Local) err, (do cacheInvalidate key; f err : Client α).run (l.block key) =
      (do cacheInvalidate key; f err : Client α).run l :=
    fun l err => congrArg (fun l => (f err).run l) (l.block_setCache key none)
  refine congrArg (Prog.call _) (funext fun entries => ?_)
  cases entries with
  | error err => exact hrelease l err
  | ok entries =>
    dsimp only
    rw [Local.block_pmap]
    split
    · rfl
    · rename_i db _
      exact hrelease { l with pmap := db } 0

theorem lookupFound_block {l : Local} {a : Nat} (hn : (l.heap a).md.inodeNumber ≠ 0) (path key : Str)
    (stamp : Int) : (lookupFound me env ctx lookup path key stamp a false).run (l.block key) =
      (lookupFound me env ctx lookup path key stamp a false).run l := by
  unfold lookupFound
  show StateT.run (if (l.heap a).md.inodeNumber = 0 then _ else _) (l.block key) =
    StateT.run (if (l.heap a).md.inodeNumber = 0 then _ else _) l
  rw [if_neg hn, if_neg hn]
  dsimp only [Local.block_heap]
  cases (l.heap a).md.type with
  | HARDLINK_S =>
    exact cacheAdd_block ((l.alloc key).setObject l.next { (l.alloc key).heap l.next with
      md := { ((l.alloc key).heap l.next).md with type := .HARDLINK_S, inodeNumber := (l.heap a).md.inodeNumber } })
      key l.next fun _ => lookup (hardlinkKey (l.heap a).md.inodeNumber) (some a)
  | FORCE_UPDATE => exact databaseUpdate_block l key _
  | POSIX => exact cacheAdd_block l key a _
  | HARDLINK_T => exact cacheAdd_block l key a _

/-- Who blocks a key for a lookup does not notice it, unless the record that is read has no inode number. -/
theorem lookupStored_eq (path key : Str) (stamp : Int) :
    lookupStored me env ctx lookup path key stamp = (do
      let mdi ← newMetadataInfo key
      let err ← getMetadata me mdi
      if err = -ENOENT then
        cacheAdd key mdi
        lookupFound me env ctx lookup path key stamp mdi false
      else if err ≠ 0 then
        cacheInvalidate key
        return (err, some mdi)
      else if (← getMdi mdi).md.inodeNumber = 0 then
        cacheBlock key
        return (-ENOENT, some mdi)
      else lookupFound me env ctx lookup path key stamp mdi false) := by
  funext l
  unfold lookupStored getMetadata
  refine congrArg (Prog.call (Req.get me l.next ((l.alloc key).heap l.next).systemPath)) (funext fun record => ?_)
  change Except StatusCode (KineticRecord Inode) at record
  cases record with
  | ok r =>
    let l1 : Local := (l.alloc key).setObject l.next
      { (l.alloc key).heap l.next with md := r.value, keyVersion := r.version }
    show (lookupFound me env ctx lookup path key stamp l.next false).run (l1.block key) =
      StateT.run (if (l1.heap l.next).md.inodeNumber = 0 then _ else _) l1
    by_cases hn : (l1.heap l.next).md.inodeNumber = 0
    · rw [if_pos hn]
      unfold lookupFound
      show StateT.run (if (l1.heap l.next).md.inodeNumber = 0 then _ else _) (l1.block key) = _
      rw [if_pos hn]
      rfl
    · rw [if_neg hn]
      exact lookupFound_block hn path key stamp
  | error code =>
    cases code with
    | REMOTE_NOT_FOUND => exact cacheAdd_block (l.alloc key) key l.next _
    | _ =>
      exact congrArg (fun l1 => Prog.ret ((- EIO, some l.next), l1)) ((l.alloc key).block_setCache key none)

end Blocked

/-! ## Objects -/

/-- The metadata without path permissions. -/
def Inode.core (md : Inode) : Inode :=
  { md with
    toMetadata :=
      { md.toMetadata with
        pathPermissionVerified := 0, pathPermission := [], pathPermissionChildren := [] } }

theorem core_compute (env : Env) (md : Metadata) (inode : Inode) :
    ({ inode with toMetadata := (computePathPermissionChildren env md).1 } : Inode).core =
      ({ inode with toMetadata := md } : Inode).core := by
  unfold computePathPermissionChildren
  dsimp only
  split <;> rfl

theorem core_inherit (env : Env) (md parent : Inode) :
    (inheritPathPermissions env md parent).core = md.core := by
  unfold inheritPathPermissions Permission.inheritPathPermissions
  dsimp only
  split
  · exact (core_compute env _ md).trans rfl
  · rfl

theorem inode_of_core {md md' : Inode} (h : md'.core = md.core) : md'.inodeNumber = md.inodeNumber := by
  have hn := congrArg (fun x : Inode => x.inodeNumber) h
  exact hn

theorem type_of_core {md md' : Inode} (h : md'.core = md.core) : md'.type = md.type := by
  have ht := congrArg (fun x : Inode => x.type) h
  exact ht

/-! ## Invariants of objects -/

/-- An invariant of the objects of client `me`, kept by what a lookup does. `Free` says of an
    address that it is not in use, `Storable` of an object that it may be stored. -/
structure ObjectInv {T : Type} (A : Protocol Req Res T) (me : Nat) where
  Ok : Nat → MetadataInfo → T → Prop
  Free : Nat → T → Prop
  Storable : MetadataInfo → Prop
  storable : ∀ {x}, x.md.inodeNumber ≠ 0 → Storable x
  fresh : ∀ {a key t}, Free a t → Ok a ⟨key, lit "0", Inode.empty⟩ t
  source : ∀ {a key t inode}, Free a t → inode ≠ 0 →
    Ok a ⟨key, lit "0", { Inode.empty with type := .HARDLINK_S, inodeNumber := inode }⟩ t
  quiet : ∀ {t r}, r.quiet = true → A.allowed t r ∧ ∀ x, A.next t r x = t
  get_allowed : ∀ t a key, A.allowed t (.get me a key)
  get_self : ∀ {t a key record}, Free a t → A.answers t (.get me a key) (.ok record) →
    Ok a ⟨key, record.version, record.value⟩ (A.next t (.get me a key) (.ok record))
  get_error : ∀ {t a key x code}, Ok a x t → A.answers t (.get me a key) (.error code) →
    Ok a x (A.next t (.get me a key) (.error code))
  get_other : ∀ {t a b key x answer}, b ≠ a → Ok b x t → A.answers t (.get me a key) answer →
    Ok b x (A.next t (.get me a key) answer)
  get_free : ∀ {t a b key answer}, b ≠ a → Free b t → Free b (A.next t (.get me a key) answer)
  put_allowed : ∀ {t a x md}, Ok a x t → Storable x → md.core = x.md.core →
    A.allowed t (.put me a .update x.systemPath x.keyVersion md)
  put_self : ∀ {t a x md version}, Ok a x t → Storable x → md.core = x.md.core →
    Ok a ⟨x.systemPath, version, md⟩
      (A.next t (.put me a .update x.systemPath x.keyVersion md) (.OK, version))
  put_failed : ∀ {t a x md code version}, Ok a x t → Storable x → md.core = x.md.core →
    code ≠ .OK → Ok a { x with md := md }
      (A.next t (.put me a .update x.systemPath x.keyVersion md) (code, version))
  put_other : ∀ {t a b x key expected md answer}, b ≠ a → Ok b x t →
    Ok b x (A.next t (.put me a .update key expected md) answer)
  put_free : ∀ {t a b key expected md answer}, b ≠ a → Free b t →
    Free b (A.next t (.put me a .update key expected md) answer)

variable {T : Type} {A : Protocol Req Res T} {me : Nat}

/-- The memory is as the invariant says: objects in use, free addresses, and the lookup cache. -/
structure Good (O : ObjectInv A me) (l : Local) (t : T) : Prop where
  objects : ∀ a, a < l.next → O.Ok a (l.heap a) t
  free : ∀ a, l.next ≤ a → O.Free a t
  cache : ∀ key a, l.lookupCache key = some a → a < l.next ∧ (l.heap a).systemPath = key

/-- What a lookup returns. -/
structure Found (r : Int × Option Nat) (l : Local) : Prop where
  bound : ∀ a, r.2 = some a → a < l.next
  found : r.1 = 0 → ∃ a, r.2 = some a ∧ (l.heap a).md.inodeNumber ≠ 0 ∧
    (l.heap a).md.type ≠ .HARDLINK_S ∧ (l.heap a).md.type ≠ .FORCE_UPDATE

/-- Objects keep their key and everything but path permissions and version. -/
structure Extends (l l' : Local) : Prop where
  next_le : l.next ≤ l'.next
  same : ∀ a, a < l.next → (l'.heap a).systemPath = (l.heap a).systemPath ∧
    (l'.heap a).md.core = (l.heap a).md.core

/-- The objects of `l0` are extended. -/
def ObjectInv.frame (O : ObjectInv A me) (l0 : Local) : ObjectInv A me where
  Ok a x t := O.Ok a x t ∧ (a < l0.next → x.systemPath = (l0.heap a).systemPath ∧
    x.md.core = (l0.heap a).md.core)
  Free a t := O.Free a t ∧ l0.next ≤ a
  Storable := O.Storable
  storable := O.storable
  fresh h := ⟨O.fresh h.1, fun ha => absurd h.2 (by omega)⟩
  source h hn := ⟨O.source h.1 hn, fun ha => absurd h.2 (by omega)⟩
  quiet h := O.quiet h
  get_allowed := O.get_allowed
  get_self h hx := ⟨O.get_self h.1 hx, fun ha => absurd h.2 (by omega)⟩
  get_error h hx := ⟨O.get_error h.1 hx, h.2⟩
  get_other hne h hx := ⟨O.get_other hne h.1 hx, h.2⟩
  get_free hne h := ⟨O.get_free hne h.1, h.2⟩
  put_allowed h hn hc := O.put_allowed h.1 hn hc
  put_self h hn hc := ⟨O.put_self h.1 hn hc, fun ha => ⟨(h.2 ha).1, hc.trans (h.2 ha).2⟩⟩
  put_failed h hn hc hcode := ⟨O.put_failed h.1 hn hc hcode, fun ha => ⟨(h.2 ha).1, hc.trans (h.2 ha).2⟩⟩
  put_other hne h := ⟨O.put_other hne h.1, h.2⟩
  put_free hne h := ⟨O.put_free hne h.1, h.2⟩

theorem Good.frame {O : ObjectInv A me} {l : Local} {t : T} (h : Good O l t) :
    Good (O.frame l) l t :=
  ⟨fun a ha => ⟨h.objects a ha, fun _ => ⟨rfl, rfl⟩⟩, fun a ha => ⟨h.free a ha, ha⟩, h.cache⟩

/-- Memory that is good for the frame extends the one at the start. -/
theorem Good.of_frame {O : ObjectInv A me} {l0 l : Local} {t : T} (h : Good (O.frame l0) l t) :
    Good O l t ∧ Extends l0 l := by
  have hle : l0.next ≤ l.next := (h.free l.next (Nat.le_refl _)).2
  exact ⟨⟨fun a ha => (h.objects a ha).1, fun a ha => (h.free a ha).1, h.cache⟩,
    hle, fun a ha => (h.objects a (by omega)).2 ha⟩

/-! ## The parts of a lookup -/

section Parts

variable {O : ObjectInv A me} {l : Local} {t : T} {Q : Unit → Local → T → Prop}

theorem Good.setCache (h : Good O l t) (key : Str) (entry : Option Nat)
    (he : ∀ a, entry = some a → a < l.next ∧ (l.heap a).systemPath = key) :
    Good O (l.setCache key entry) t := by
  refine ⟨h.objects, h.free, fun k a hk => ?_⟩
  rw [Local.setCache_lookupCache] at hk
  split at hk
  · rename_i hkey
    subst hkey
    exact he a hk
  · exact h.cache k a hk

theorem Good.invalidate (h : Good O l t) (key : Str) : Good O (l.setCache key none) t :=
  h.setCache key none (by simp)

theorem Good.block (h : Good O l t) (key : Str) : Good O (l.block key) t := ⟨h.objects, h.free, h.cache⟩

/-- A new object. -/
theorem Good.alloc (h : Good O l t) (key : Str) : O.Ok l.next ⟨key, lit "0", Inode.empty⟩ t ∧
    (∀ a, a < l.next → O.Ok a ((l.alloc key).heap a) t) ∧ (∀ a, l.next < a → O.Free a t) := by
  refine ⟨O.fresh (h.free _ (Nat.le_refl _)), fun a ha => ?_, fun a ha => h.free a (by omega)⟩
  rw [Local.alloc_heap, if_neg (by omega)]
  exact h.objects a ha

theorem conforms_quiet (O : ObjectInv A me) {r : Req} {Q : Res r → Local → T → Prop}
    (hr : r.quiet = true) (h : ∀ x, A.answers t r x → Q x l t) : Conforms A (perform r) Q l t := by
  refine Conforms.call (O.quiet hr).1 fun x hx => ?_
  rw [(O.quiet hr).2 x]
  exact h x hx

theorem cacheGet_good (h : Good O l t) (key : Str) :
    Conforms A (cacheGet key) (fun r l' t' => t' = t ∧ Good O l' t ∧ l'.next = l.next ∧
      (r = none → l'.lookupCache key = none) ∧
      ∀ a, r = some a → a < l'.next ∧ (l'.heap a).systemPath = key) l t := by
  refine Conforms.get_bind (Conforms.ite (fun _ => conforms_wait) fun _ => ?_)
  cases hc : l.lookupCache key with
  | none => exact Conforms.pure ⟨rfl, h, rfl, fun _ => hc, by simp⟩
  | some mdi =>
    refine (conforms_quiet O (r := .expired key) rfl
      (Q := fun _ l' t' => l' = l ∧ t' = t) fun _ _ => ⟨rfl, rfl⟩).then ?_
    rintro (expired : Bool) l' t' ⟨rfl, rfl⟩
    refine Conforms.ite (fun _ => ?_) fun _ => ?_
    · refine conforms_cacheInvalidate_bind (Conforms.pure ⟨rfl, h.invalidate key, rfl, fun _ => ?_, by simp⟩)
      simp
    · refine Conforms.pure ⟨rfl, h, rfl, by simp, fun a ha => ?_⟩
      cases ha
      exact h.cache key mdi hc

theorem cacheAdd_good (h : Good O l t) {key : Str} {mdi : Nat} (hm : mdi < l.next)
    (hk : (l.heap mdi).systemPath = key) :
    Conforms A (cacheAdd key mdi) (fun _ l' t' => t' = t ∧ Good O l' t ∧ l'.next = l.next ∧
      l'.heap = l.heap) l t := by
  refine Conforms.get_bind ?_
  cases hc : l.lookupCache key with
  | some _ => exact conforms_exit
  | none =>
    refine Conforms.modify ⟨rfl, h.setCache key (some mdi) fun a ha => ?_, rfl, rfl⟩
    cases ha
    exact ⟨hm, hk⟩

theorem databaseUpdate_good (h : Good O l t) :
    Conforms A databaseUpdate (fun _ l' t' => t' = t ∧ Good O l' t ∧ l'.next = l.next ∧
      l'.heap = l.heap) l t := by
  refine Conforms.get_bind ?_
  refine (conforms_quiet O (r := .databaseUpdate l.pmap.snapshotVersion) rfl
    (Q := fun _ l' t' => l' = l ∧ t' = t) fun _ _ => ⟨rfl, rfl⟩).then ?_
  rintro (entries : Except Int (List DbEntry)) l' t' ⟨rfl, rfl⟩
  cases entries with
  | error err => exact Conforms.pure ⟨rfl, h, rfl, rfl⟩
  | ok entries =>
    dsimp only
    split
    · exact conforms_exit
    · refine Conforms.modify_bind (Conforms.pure ⟨rfl, ?_, rfl, rfl⟩)
      exact ⟨h.objects, h.free, h.cache⟩

/-- Reading a key into a new object. -/
theorem load_good (h : Good O l t) (key : Str) :
    Conforms A (getMetadata me l.next) (fun _ l' t' => Good O l' t' ∧ l'.next = l.next + 1 ∧
      (l'.heap l.next).systemPath = key) (l.alloc key) t := by
  obtain ⟨h1, h2, h3⟩ := h.alloc key
  have hcache : ∀ k a, l.lookupCache k = some a →
      a < l.next + 1 ∧ ((l.alloc key).heap a).systemPath = k := fun k a hk => by
    have hc := h.cache k a hk
    rw [Local.alloc_heap, if_neg (by omega)]
    exact ⟨by omega, hc.2⟩
  refine conforms_getMdi_bind ?_
  rw [Local.alloc_heap, if_pos rfl]
  refine (Conforms.call (Q := fun x l' t' => l' = l.alloc key ∧ A.answers t (.get me l.next key) x ∧
    t' = A.next t (.get me l.next key) x) (O.get_allowed t l.next key) fun x hx => ⟨rfl, hx, rfl⟩).then ?_
  rintro (x : Except StatusCode (KineticRecord Inode)) l' t' ⟨rfl, hx, rfl⟩
  cases x with
  | ok record =>
    refine conforms_setMdi_bind (Conforms.pure ⟨⟨fun a ha => ?_, fun a ha => ?_, fun k a hk => ?_⟩, rfl, ?_⟩)
    · rw [Local.setObject_heap]
      split
      · rename_i hne
        subst hne
        rw [Local.alloc_heap, if_pos rfl]
        exact O.get_self (h.free _ (Nat.le_refl _)) hx
      · rename_i hne
        have ha' : a < l.next := by
          have : a < l.next + 1 := ha
          omega
        exact O.get_other hne (h2 a ha') hx
    · have ha' : l.next + 1 ≤ a := ha
      exact O.get_free (by omega) (h.free a (by omega))
    · have hk' := hcache k a hk
      refine ⟨hk'.1, ?_⟩
      rw [Local.setObject_heap]
      split
      · rename_i hne
        subst hne
        exact hk'.2
      · exact hk'.2
    · simp
  | error code =>
    have hgood : Good O (l.alloc key) (A.next t (.get me l.next key) (.error code)) := by
      refine ⟨fun a ha => ?_, fun a ha => ?_, hcache⟩
      · by_cases hne : a = l.next
        · subst hne
          rw [Local.alloc_heap, if_pos rfl]
          exact O.get_error h1 hx
        · have ha' : a < l.next := by
            have : a < l.next + 1 := ha
            omega
          exact O.get_other hne (h2 a ha') hx
      · have ha' : l.next + 1 ≤ a := ha
        exact O.get_free (by omega) (h3 a (by omega))
    cases code <;> exact Conforms.pure ⟨hgood, rfl, by simp⟩

/-- Storing an object of which only path permissions have changed. -/
theorem putMetadata_good (h : Good O l t) {mdi : Nat} (hm : mdi < l.next) {md : Inode}
    (hn : O.Storable (l.heap mdi)) (hmd : md.core = (l.heap mdi).md.core) :
    Conforms A (putMetadata me .update mdi) (fun _ l' t' => Good O l' t' ∧ l'.next = l.next ∧
      (l'.heap mdi).md = md) (l.setObject mdi { l.heap mdi with md := md }) t := by
  have hok := h.objects mdi hm
  refine conforms_getMdi_bind ?_
  rw [Local.setObject_heap, if_pos rfl]
  refine (Conforms.call (Q := fun x l' t' => l' = l.setObject mdi { l.heap mdi with md := md } ∧
    t' = A.next t (.put me mdi .update (l.heap mdi).systemPath (l.heap mdi).keyVersion md) x)
    (O.put_allowed hok hn hmd) fun x hx => ⟨rfl, rfl⟩).then ?_
  rintro (x : StatusCode × Str) l' t' ⟨rfl, rfl⟩
  obtain ⟨status, version⟩ := x
  have hother : ∀ a, a ≠ mdi → a < l.next → O.Ok a (l.heap a) (A.next t
      (.put me mdi .update (l.heap mdi).systemPath (l.heap mdi).keyVersion md) (status, version)) :=
    fun a hne ha => O.put_other hne (h.objects a ha)
  have hfree : ∀ a, l.next ≤ a → O.Free a (A.next t
      (.put me mdi .update (l.heap mdi).systemPath (l.heap mdi).keyVersion md) (status, version)) :=
    fun a ha => O.put_free (by omega) (h.free a ha)
  have hcache : ∀ version k a, l.lookupCache k = some a → a < l.next ∧
      ((l.setObject mdi ⟨(l.heap mdi).systemPath, version, md⟩).heap a).systemPath = k := by
    intro version k a hk
    refine ⟨(h.cache k a hk).1, ?_⟩
    rw [Local.setObject_heap]
    split
    · rename_i ha
      subst ha
      exact (h.cache k a hk).2
    · exact (h.cache k a hk).2
  have hfail : status ≠ .OK → Good O
      ((l.setObject mdi { l.heap mdi with md := md }).setCache (l.heap mdi).systemPath none) (A.next t
      (.put me mdi .update (l.heap mdi).systemPath (l.heap mdi).keyVersion md) (status, version)) := by
    intro hs
    have hg : Good O (l.setObject mdi { l.heap mdi with md := md }) (A.next t
        (.put me mdi .update (l.heap mdi).systemPath (l.heap mdi).keyVersion md) (status, version)) := by
      refine ⟨fun a ha => ?_, hfree, hcache _⟩
      rw [Local.setObject_heap]
      split
      · rename_i hne
        subst hne
        exact O.put_failed hok hn hmd hs
      · rename_i hne
        exact hother a hne ha
    exact hg.invalidate _
  by_cases hs : status = .OK
  · subst hs
    refine conforms_setMdi_bind (Conforms.pure ⟨⟨fun a ha => ?_, hfree, fun k a hk => ?_⟩, rfl, by simp⟩)
    · rw [Local.setObject_heap]
      split
      · rename_i hne
        subst hne
        simpa using O.put_self hok hn hmd
      · rename_i hne
        rw [Local.setObject_heap, if_neg hne]
        exact hother a hne ha
    · have hk' := hcache version k a hk
      refine ⟨hk'.1, ?_⟩
      rw [Local.setObject_heap] at hk' ⊢
      split
      · rename_i hne
        rw [if_pos hne] at hk'
        simpa using hk'.2
      · rename_i hne
        rw [if_neg hne] at hk'
        rw [Local.setObject_heap, if_neg hne]
        exact hk'.2
  · have hgood := hfail hs
    cases status <;> first
      | exact absurd rfl hs
      | exact conforms_cacheInvalidate_bind (Conforms.pure ⟨hgood, rfl, by simp⟩)

end Parts

/-! ## Lookups -/

section Lookups

variable {env : Env} {ctx : Context} {lookup : Str → Option Nat → Client (Int × Option Nat)}

/-- `lookup` keeps every invariant of objects and returns an object in use. -/
def Lookups (A : Protocol Req Res T) (me : Nat) (lookup : Str → Option Nat → Client (Int × Option Nat)) :
    Prop :=
  ∀ (O : ObjectInv A me) path pointer l t, Good O l t → (∀ a, pointer = some a → a < l.next) →
    Conforms A (lookup path pointer) (fun r l' t' => Good O l' t' ∧ Found r l') l t

/-- A directory is found. -/
def FoundDir (r : Int × Option Nat) (l : Local) : Prop :=
  r.1 = 0 → ∃ a, r.2 = some a ∧ S_ISDIR (l.heap a).md.mode = true

theorem Extends.inode {l l' : Local} (h : Extends l l') {a : Nat} (ha : a < l.next) :
    (l'.heap a).md.inodeNumber = (l.heap a).md.inodeNumber := inode_of_core (h.same a ha).2

theorem Extends.type {l l' : Local} (h : Extends l l') {a : Nat} (ha : a < l.next) :
    (l'.heap a).md.type = (l.heap a).md.type := type_of_core (h.same a ha).2

/-- A lookup also leaves the objects in use what they are. -/
theorem Lookups.extends (hl : Lookups A me lookup) {O : ObjectInv A me} {l : Local} {t : T}
    (h : Good O l t) {pointer : Option Nat} (hp : ∀ a, pointer = some a → a < l.next) (path : Str) :
    Conforms A (lookup path pointer) (fun r l' t' => Good O l' t' ∧ Found r l' ∧ Extends l l') l t := by
  refine (hl (O.frame l) path pointer l t h.frame hp).mono fun r l' t' hr => ?_
  obtain ⟨hgood, hext⟩ := hr.1.of_frame
  exact ⟨hgood, hr.2, hext⟩

variable {O : ObjectInv A me} {l : Local} {t : T}

theorem lookupParentWith_good (hl : Lookups A me lookup) (h : Good O l t) (path : Str) :
    Conforms A (lookupParentWith ctx lookup path) (fun r l' t' => Good O l' t' ∧ Found r l' ∧
      Extends l l' ∧ FoundDir r l') l t := by
  unfold lookupParentWith
  split
  · exact Conforms.pure ⟨h, ⟨by simp, fun he => absurd he (by decide)⟩,
      ⟨Nat.le_refl _, fun _ _ => ⟨rfl, rfl⟩⟩, fun he => absurd he (by decide)⟩
  · rename_i parentPath _
    have hp : ∀ a, (none : Option Nat) = some a → a < l.next := by simp
    refine (hl.extends h hp parentPath).then ?_
    rintro ⟨err, mdiParent⟩ l' t' ⟨hg, hf, he⟩
    refine Conforms.ite (fun herr => ?_) fun herr => ?_
    · exact Conforms.pure ⟨hg, hf, he, fun h0 => absurd h0 herr⟩
    · obtain ⟨parent, hparent, hn, hS, hF⟩ := hf.found (not_not.mp herr)
      obtain rfl : mdiParent = some parent := hparent
      have hbound := hf.bound parent rfl
      refine conforms_getMdi_bind (Conforms.ite (fun hdir => ?_) fun hdir => ?_)
      · have hne : -ENOTDIR ≠ 0 := by decide
        exact Conforms.pure ⟨hg, ⟨hf.bound, fun h0 => absurd h0 hne⟩, he, fun h0 => absurd h0 hne⟩
      · refine Conforms.pure ⟨hg, ⟨hf.bound, fun _ => ⟨parent, rfl, hn, hS, hF⟩⟩, he,
          fun _ => ⟨parent, rfl, ?_⟩⟩
        simpa using hdir

theorem finalCheck_good (h : Good O l t) {mdi : Nat} (hm : mdi < l.next)
    (hn : (l.heap mdi).md.inodeNumber ≠ 0) (hS : (l.heap mdi).md.type ≠ .HARDLINK_S)
    (hF : (l.heap mdi).md.type ≠ .FORCE_UPDATE) :
    Conforms A (finalCheck ctx mdi) (fun r l' t' => Good O l' t' ∧ Found r l') l t := by
  refine conforms_getMdi_bind (Conforms.pure ⟨h, fun a ha => ?_, fun _ => ⟨mdi, rfl, hn, hS, hF⟩⟩)
  cases ha
  exact hm

theorem inheritFromParent_good (hl : Lookups A me lookup) (h : Good O l t) {mdi parent : Nat}
    (hm : mdi < l.next) (hn : (l.heap mdi).md.inodeNumber ≠ 0)
    (hS : (l.heap mdi).md.type ≠ .HARDLINK_S) (hF : (l.heap mdi).md.type ≠ .FORCE_UPDATE) (path : Str) :
    Conforms A (inheritFromParent me env ctx lookup path mdi parent)
      (fun r l' t' => Good O l' t' ∧ Found r l') l t := by
  refine conforms_getMdi_bind (conforms_setMdi_bind ?_)
  have hcore := core_inherit env (l.heap mdi).md (l.heap parent).md
  refine (putMetadata_good h hm (O.storable hn) hcore).then ?_
  rintro err l' t' ⟨hg, hnext, hmd⟩
  have hm' : mdi < l'.next := hnext.symm ▸ hm
  refine Conforms.ite (fun _ => ?_) fun _ => Conforms.ite (fun herr => ?_) fun _ => ?_
  · exact hl O path (some mdi) l' t' hg fun a ha => by cases ha; exact hm'
  · exact Conforms.pure ⟨hg, fun a ha => by cases ha; exact hm', fun h0 => absurd h0 herr⟩
  · refine finalCheck_good hg hm' ?_ ?_ ?_
    · rw [hmd, inode_of_core hcore]
      exact hn
    · rw [hmd, type_of_core hcore]
      exact hS
    · rw [hmd, type_of_core hcore]
      exact hF

theorem checkStale_good (hl : Lookups A me lookup) (h : Good O l t) {mdi : Nat} (hm : mdi < l.next)
    (hn : (l.heap mdi).md.inodeNumber ≠ 0) (hS : (l.heap mdi).md.type ≠ .HARDLINK_S)
    (hF : (l.heap mdi).md.type ≠ .FORCE_UPDATE) (path : Str) (stamp : Int) :
    Conforms A (checkStale me env ctx lookup path stamp mdi)
      (fun r l' t' => Good O l' t' ∧ Found r l') l t := by
  refine conforms_getMdi_bind (Conforms.ite (fun _ => ?_) fun _ => finalCheck_good h hm hn hS hF)
  refine Conforms.then (lookupParentWith_good hl h path) ?_
  rintro ⟨err, mdiParent⟩ l' t' ⟨hg, hf, he, -⟩
  have hm' : mdi < l'.next := Nat.lt_of_lt_of_le hm he.next_le
  refine Conforms.ite (fun herr => ?_) fun _ => ?_
  · exact Conforms.pure ⟨hg, fun a ha => by cases ha; exact hm', fun h0 => absurd h0 herr.1⟩
  · cases mdiParent with
    | none => exact conforms_exit
    | some parent =>
      refine inheritFromParent_good hl hg hm' ?_ ?_ ?_ path
      · rw [he.inode hm]
        exact hn
      · rw [he.type hm]
        exact hS
      · rw [he.type hm]
        exact hF

/-- The object that stands for a hard link in the cache. -/
theorem Good.source (h : Good O l t) (key : Str) {inode : Nat} (hn : inode ≠ 0) :
    Good O ((l.alloc key).setObject l.next
      { (l.alloc key).heap l.next with
        md := { ((l.alloc key).heap l.next).md with type := .HARDLINK_S, inodeNumber := inode } }) t := by
  have hself : (l.alloc key).heap l.next = ⟨key, lit "0", Inode.empty⟩ := by simp
  rw [hself]
  obtain ⟨-, h2, h3⟩ := h.alloc key
  refine ⟨fun a ha => ?_, fun a ha => h3 a ha, fun k a hk => ?_⟩
  · rw [Local.setObject_heap]
    split
    · rename_i hne
      subst hne
      exact O.source (h.free _ (Nat.le_refl _)) hn
    · rename_i hne
      have ha' : a < l.next + 1 := ha
      exact h2 a (by omega)
  · have hc := h.cache k a hk
    have hne : a ≠ l.next := by omega
    refine ⟨Nat.lt_succ_of_lt hc.1, ?_⟩
    rw [Local.setObject_heap, if_neg hne, Local.alloc_heap, if_neg hne]
    exact hc.2

theorem lookupFound_good (hl : Lookups A me lookup) (h : Good O l t) {mdi : Nat} (hm : mdi < l.next)
    {key : Str} (hk : (l.heap mdi).systemPath = key) (path : Str) (stamp : Int) (cached : Bool) :
    Conforms A (lookupFound me env ctx lookup path key stamp mdi cached)
      (fun r l' t' => Good O l' t' ∧ Found r l') l t := by
  have hbound : ∀ l' : Local, l.next ≤ l'.next → ∀ a, some mdi = some a → a < l'.next := by
    intro l' hle a ha
    cases ha
    exact Nat.lt_of_lt_of_le hm hle
  refine conforms_getMdi_bind (Conforms.ite (fun _ => ?_) fun hn => ?_)
  · have hne : -ENOENT ≠ 0 := by decide
    exact Conforms.pure ⟨h, hbound l (Nat.le_refl _), fun h0 => absurd h0 hne⟩
  cases htype : (l.heap mdi).md.type with
  | HARDLINK_S =>
    cases cached with
    | true => exact hl O _ _ l t h (hbound l (Nat.le_refl _))
    | false =>
      refine conforms_newMetadataInfo_bind (conforms_setMdi_bind ?_)
      refine (cacheAdd_good (h.source key hn) (Nat.lt_succ_self _) (by simp)).then ?_
      rintro _ l' t' ⟨rfl, hg, hnext, -⟩
      exact hl O _ _ l' _ hg (hbound l' (by rw [hnext]; exact Nat.le_succ _))
  | FORCE_UPDATE =>
    refine (databaseUpdate_good h).then ?_
    rintro err l' t' ⟨rfl, hg, hnext, -⟩
    refine conforms_cacheInvalidate_bind (Conforms.ite (fun herr => ?_) fun _ => ?_)
    · exact Conforms.pure ⟨hg.invalidate key, hbound _ (Nat.le_of_eq hnext.symm),
        fun h0 => absurd h0 herr⟩
    · exact hl O _ _ _ _ (hg.invalidate key) (hbound _ (Nat.le_of_eq hnext.symm))
  | POSIX | HARDLINK_T =>
    all_goals
      have hS : (l.heap mdi).md.type ≠ .HARDLINK_S := by rw [htype]; decide
      have hF : (l.heap mdi).md.type ≠ .FORCE_UPDATE := by rw [htype]; decide
      cases cached with
      | true => exact checkStale_good hl h hm hn hS hF path stamp
      | false =>
        refine (cacheAdd_good h hm hk).then ?_
        rintro _ l' t' ⟨rfl, hg, hnext, hheap⟩
        rw [← hheap] at hn hS hF
        exact checkStale_good hl hg (hnext.symm ▸ hm) hn hS hF path stamp

theorem lookupStored_good (hl : Lookups A me lookup) (h : Good O l t) (path key : Str) (stamp : Int) :
    Conforms A (lookupStored me env ctx lookup path key stamp)
      (fun r l' t' => Good O l' t' ∧ Found r l') l t := by
  refine conforms_cacheBlock_bind (conforms_newMetadataInfo_bind ((load_good (h.block key) key).then ?_))
  rintro err l' t' ⟨hg, hnext, hk⟩
  rw [Local.block_next] at hnext hk
  have hm : l.next < l'.next := by omega
  refine Conforms.ite (fun _ => ?_) fun _ => Conforms.ite (fun herr => ?_) fun _ => ?_
  · refine (cacheAdd_good hg hm hk).then ?_
    rintro _ l'' t'' ⟨rfl, hg', hnext', hheap⟩
    rw [← hheap] at hk
    exact lookupFound_good hl hg' (by omega) hk path stamp false
  · refine conforms_cacheInvalidate_bind (Conforms.pure ⟨hg.invalidate key, fun a ha => ?_,
      fun h0 => absurd h0 herr⟩)
    cases ha
    exact hm
  · exact lookupFound_good hl hg hm hk path stamp false

/-- Every lookup keeps the invariant. -/
theorem lookup_good (A : Protocol Req Res T) (me : Nat) (env : Env) (ctx : Context) (fuel : Nat) :
    Lookups A me (Fuse.lookup me env ctx fuel) := by
  induction fuel with
  | zero => exact fun _ _ _ _ _ _ _ => conforms_exit
  | succ fuel ih =>
    intro O path pointer l t h hp
    refine Conforms.get_bind ?_
    split
    · exact conforms_exit
    · rename_i key stamp _
      refine Conforms.ite (fun hneg => ?_) fun _ => ?_
      · exact Conforms.pure ⟨h, hp, fun h0 => absurd h0 (by omega)⟩
      · refine (cacheGet_good h key).then ?_
        rintro found l' t' ⟨rfl, hg, hnext, -, hfound⟩
        cases found with
        | none => exact lookupStored_good ih hg path key stamp
        | some mdi => exact lookupFound_good ih hg (hfound mdi rfl).1 (hfound mdi rfl).2 path stamp true

theorem lookupParent_good (h : Good O l t) (fuel : Nat) (path : Str) :
    Conforms A (lookupParent me env ctx fuel path) (fun r l' t' => Good O l' t' ∧ Found r l' ∧
      Extends l l' ∧ FoundDir r l') l t :=
  lookupParentWith_good (lookup_good A me env ctx fuel) h path

end Lookups

end HFlat.Fuse
