/-
  Lookups end.

  `lookup` calls itself for the target of a hard link, once more for the same path after the database
  was updated or a `Put` found another version, and for the parent of a path whose permissions are out
  of date. The first three end by themselves. An update of the database takes over at least one entry
  of the log. A `Put` is refused only if the object was not in step with the store; it is dropped from
  the cache then, and after that only if a cache entry has expired. The parents of a path come to `/`,
  which is its own parent: with `/` out of date, the lookup of `/` calls itself for ever. A lookup also
  blocks the key that it reads until it adds the object to the cache; for a record without an inode
  number it never does, and the next lookup of the path waits for ever.

  Nobody else takes a step, and any number of cache entries may expire, but not infinitely many.
-/
import HFlat.Fuse.Lookup
import HFlat.Fuse.Permissions
import HFlat.Intercept.PathChange
import HFlat.Lib.Completion
import HFlat.PathMap.Root
import HFlat.PathMap.Termination

namespace HFlat.Fuse.Termination

open HFlat.Lib HFlat.PathMap HFlat.Permission
open HFlat.Replication (KineticRecord StatusCode versionOf putSame)

/-- A cache entry has expired. -/
def expires (choice : Choice) : Bool := choice = .expired true

/-- The store, with the number of cache entries that may still expire. -/
def quietStore (uuid : Nat → Str) : Service Req Res Choice (Store × Nat) := (store uuid).limit expires

/-! ## Memory and store -/

/-- If `lookup` checks the path permissions of the object, they were verified at that time or later. -/
def Verified (stamp : Nat) (md : Inode) : Prop :=
  md.inodeNumber = 0 ∨ md.type = .HARDLINK_S ∨ md.type = .FORCE_UPDATE ∨ stamp ≤ md.pathPermissionVerified

instance (stamp : Nat) (md : Inode) : Decidable (Verified stamp md) := by
  unfold Verified
  infer_instance

/-- What may be stored under a key: the target of a hard link is no further link, and the root
    directory is not out of date. -/
structure Fits (log : List DbEntry) (key : Str) (md : Inode) : Prop where
  target : ∀ inode, key = hardlinkKey inode → md.type ≠ .HARDLINK_S
  verified : key = root → ∀ db, SnapshotOf log db → Verified (stampOf db.snapshot root) md

/-- Some path leads to the key, on some snapshot of the log. -/
def Reached (log : List DbEntry) (key : Str) : Prop :=
  ∃ db userPath ts, SnapshotOf log db ∧ ToSystemPath db userPath .LOOKUP (key, ts) ∧ 0 ≤ ts

/-- The cache holds objects under their own keys, and the snapshot is one of the log. No path leads to a
    blocked key, or to a record without an inode number, which would leave the key blocked. -/
structure Tidy (log : List DbEntry) (l : Local) (s : Store) : Prop where
  log_eq : s.log = log
  pmap : SnapshotOf log l.pmap
  cached : ∀ key a, l.lookupCache key = some a →
    a < l.next ∧ (l.heap a).systemPath = key ∧ Fits log key (l.heap a).md
  stored : ∀ key r, s.metadata key = some r → Fits log key r.value
  free : ∀ key, Reached log key → l.blocked key = false
  numbered : ∀ key r, Reached log key → s.metadata key = some r → r.value.inodeNumber ≠ 0

/-- The object has the version that is stored. -/
def InSync (l : Local) (s : Store) (a : Nat) : Prop :=
  versionOf (s.metadata (l.heap a).systemPath) = (l.heap a).keyVersion

/-- What the cache holds in step with the store it still holds so. -/
def Kept (l : Local) (s : Store) (l' : Local) (s' : Store) : Prop :=
  ∀ key a, l.lookupCache key = some a → InSync l s a → l'.lookupCache key = some a ∧ InSync l' s' a

/-- The number of times that a lookup may be set back. -/
def budget (log : List DbEntry) (l : Local) (n : Nat) : Nat := log.length - l.pmap.snapshotVersion + n

/-- What every part of a lookup does. -/
structure Advance (log : List DbEntry) (l : Local) (n : Nat) (l' : Local) (s' : Store) (n' : Nat) : Prop where
  tidy : Tidy log l' s'
  left : n' ≤ n
  next : l.next ≤ l'.next
  same : ∀ a < l.next, (l'.heap a).systemPath = (l.heap a).systemPath ∧
    (l'.heap a).md.type = (l.heap a).md.type ∧ (l'.heap a).md.inodeNumber = (l.heap a).md.inodeNumber
  version : l.pmap.snapshotVersion ≤ l'.pmap.snapshotVersion

/-- A part of a lookup that goes well: it was set back, or the cache has stayed in step. -/
structure Forward (log : List DbEntry) (l : Local) (s : Store) (n : Nat) (l' : Local) (s' : Store × Nat) : Prop
    extends Advance log l n l' s'.1 s'.2 where
  kept : budget log l' s'.2 < budget log l n ∨ Kept l s l' s'.1

/-- Codes with which a lookup returns an object. -/
def Usable (err : Int) : Prop := err = 0 ∨ err = -EACCES

instance (err : Int) : Decidable (Usable err) := inferInstanceAs (Decidable (err = 0 ∨ err = -EACCES))

/-- What a lookup leaves and returns. -/
structure Outcome (log : List DbEntry) (l : Local) (s : Store) (n : Nat) (r : Int × Option Nat) (l' : Local)
    (s' : Store × Nat) : Prop where
  advance : Advance log l n l' s'.1 s'.2
  found : Usable r.1 → r.2.isSome = true ∧ Forward log l s n l' s'

section Steps

variable {log : List DbEntry} {l l1 l2 : Local} {s s1 s2 : Store} {n n1 n2 : Nat} {key : Str} {a : Nat}

theorem kept_refl (l : Local) (s : Store) : Kept l s l s := fun _ _ hc hs => ⟨hc, hs⟩

theorem Kept.trans (h : Kept l s l1 s1) (h' : Kept l1 s1 l2 s2) : Kept l s l2 s2 :=
  fun key a hc hs => h' key a (h key a hc hs).1 (h key a hc hs).2

theorem advance_refl (h : Tidy log l s) : Advance log l n l s n :=
  ⟨h, Nat.le_refl _, Nat.le_refl _, fun _ _ => ⟨rfl, rfl, rfl⟩, Nat.le_refl _⟩

theorem Advance.trans (h : Advance log l n l1 s1 n1) (h' : Advance log l1 n1 l2 s2 n2) :
    Advance log l n l2 s2 n2 where
  tidy := h'.tidy
  left := h'.left.trans h.left
  next := h.next.trans h'.next
  same a ha := by
    have h1 := h.same a ha
    have h2 := h'.same a (Nat.lt_of_lt_of_le ha h.next)
    exact ⟨h2.1.trans h1.1, h2.2.1.trans h1.2.1, h2.2.2.trans h1.2.2⟩
  version := h.version.trans h'.version

theorem Advance.budget_le (h : Advance log l n l1 s1 n1) : budget log l1 n1 ≤ budget log l n := by
  have hv := h.version
  have hn := h.left
  unfold budget
  omega

/-- Without a setback the snapshot is the same. -/
theorem Advance.pmap_eq (h : Advance log l n l1 s1 n1) (hl : Tidy log l s)
    (hb : ¬ budget log l1 n1 < budget log l n) : l1.pmap = l.pmap := by
  have hv := h.version
  have hn := h.left
  have hle := h.tidy.pmap.version_le
  unfold budget at hb
  exact h.tidy.pmap.eq_of_version hl.pmap (by omega)

theorem forward_refl (h : Tidy log l s) : Forward log l s n l (s, n) :=
  ⟨advance_refl h, Or.inr (kept_refl l s)⟩

theorem Forward.trans (h : Forward log l s n l1 (s1, n1)) (h' : Forward log l1 s1 n1 l2 (s2, n2)) :
    Forward log l s n l2 (s2, n2) := by
  refine ⟨h.toAdvance.trans h'.toAdvance, ?_⟩
  have hle := h.toAdvance.budget_le
  have hle' := h'.toAdvance.budget_le
  dsimp only at hle hle' ⊢
  rcases h.kept with hb | hk
  · exact Or.inl (by dsimp only at hb; omega)
  · rcases h'.kept with hb | hk'
    · exact Or.inl (by dsimp only at hb; omega)
    · exact Or.inr (hk.trans hk')

theorem Outcome.after {r : Int × Option Nat} (h : Forward log l s n l1 (s1, n1))
    (h' : Outcome log l1 s1 n1 r l2 (s2, n2)) : Outcome log l s n r l2 (s2, n2) :=
  ⟨h.toAdvance.trans h'.advance, fun hr => ⟨(h'.found hr).1, h.trans (h'.found hr).2⟩⟩

theorem Forward.outcome (h : Forward log l s n l1 (s1, n1)) (err : Int) (a : Nat) :
    Outcome log l s n (err, some a) l1 (s1, n1) := ⟨h.toAdvance, fun _ => ⟨rfl, h⟩⟩

theorem Advance.outcome (h : Advance log l n l1 s1 n1) {err : Int} (he : ¬ Usable err) (entry : Option Nat) :
    Outcome log l s n (err, entry) l1 (s1, n1) := ⟨h, fun hu => absurd hu he⟩

/-- New objects do not matter. -/
theorem Tidy.grow (h : Tidy log l s) (hp : l1.pmap = l.pmap) (hc : l1.lookupCache = l.lookupCache)
    (hb : l1.blocked = l.blocked) (hn : l.next ≤ l1.next) (hh : ∀ a < l.next, l1.heap a = l.heap a) :
    Forward log l s n l1 (s, n) where
  tidy := by
    refine ⟨h.log_eq, hp ▸ h.pmap, fun key a hk => ?_, h.stored, hb ▸ h.free, h.numbered⟩
    obtain ⟨ha, hkey, hfits⟩ := h.cached key a (hc ▸ hk)
    rw [hh a ha]
    exact ⟨Nat.lt_of_lt_of_le ha hn, hkey, hfits⟩
  left := Nat.le_refl _
  next := hn
  same a ha := by
    rw [hh a ha]
    exact ⟨rfl, rfl, rfl⟩
  version := by rw [hp]
  kept := Or.inr fun key a hk hs => by
    have ha := (h.cached key a hk).1
    rw [hc]
    refine ⟨hk, ?_⟩
    unfold InSync
    rw [hh a ha]
    exact hs

theorem Tidy.free_setCache (h : Tidy log l s) (key : Str) (entry : Option Nat) (k : Str) (hk : Reached log k) :
    (l.setCache key entry).blocked k = false := by
  show Function.update l.blocked key false k = false
  rw [Function.update_apply]
  split
  · rfl
  · exact h.free k hk

/-- An entry is removed. -/
theorem Tidy.invalidate (h : Tidy log l s) (key : Str) {n' : Nat} (hn : n' ≤ n) :
    Advance log l n (l.setCache key none) s n' where
  tidy := by
    refine ⟨h.log_eq, h.pmap, fun k a hk => ?_, h.stored, h.free_setCache key none, h.numbered⟩
    rw [Local.setCache_lookupCache] at hk
    split at hk
    · cases hk
    · exact h.cached k a hk
  left := hn
  next := Nat.le_refl _
  same _ _ := ⟨rfl, rfl, rfl⟩
  version := Nat.le_refl _

/-- An object is added for a key that the cache does not have. -/
theorem Tidy.add (h : Tidy log l s) (hk : l.lookupCache key = none) (ha : a < l.next)
    (hkey : (l.heap a).systemPath = key) (hfits : Fits log key (l.heap a).md) :
    Forward log l s n (l.setCache key (some a)) (s, n) where
  tidy := by
    refine ⟨h.log_eq, h.pmap, fun k b hb => ?_, h.stored, h.free_setCache key (some a), h.numbered⟩
    rw [Local.setCache_lookupCache] at hb
    split at hb
    · rename_i hkk
      cases hb
      rw [hkk]
      exact ⟨ha, hkey, hfits⟩
    · exact h.cached k b hb
  left := Nat.le_refl _
  next := Nat.le_refl _
  same _ _ := ⟨rfl, rfl, rfl⟩
  version := Nat.le_refl _
  kept := Or.inr fun k b hb hs => by
    refine ⟨?_, hs⟩
    rw [Local.setCache_lookupCache]
    split
    · rename_i hkk
      rw [hkk, hk] at hb
      cases hb
    · exact hb

end Steps

/-! ## Requests -/

section Rules

variable {S β : Type} {sv : Service Req Res Choice S} {l : Local} {s : S} {Q : β → Local → S → Prop}

theorem ends_getMdi_bind {mdi : Nat} {f : MetadataInfo → Client β} (h : Completes sv (f (l.heap mdi)) Q l s) :
    Completes sv (getMdi mdi >>= f) Q l s := h

theorem ends_setMdi_bind {mdi : Nat} {g : MetadataInfo → MetadataInfo} {f : Unit → Client β}
    (h : Completes sv (f ()) Q (l.setObject mdi (g (l.heap mdi))) s) :
    Completes sv (setMdi mdi g >>= f) Q l s := h

theorem ends_newMetadataInfo_bind {key : Str} {f : Nat → Client β}
    (h : Completes sv (f l.next) Q (l.alloc key) s) : Completes sv (newMetadataInfo key >>= f) Q l s := h

theorem ends_of_newMetadataInfo_bind {key : Str} {f : Nat → Client β}
    (h : Completes sv (newMetadataInfo key >>= f) Q l s) : Completes sv (f l.next) Q (l.alloc key) s := h

theorem ends_cacheInvalidate_bind {key : Str} {f : Unit → Client β}
    (h : Completes sv (f ()) Q (l.setCache key none) s) : Completes sv (cacheInvalidate key >>= f) Q l s := h

end Rules

section Requests

variable {uuid : Nat → Str} {log : List DbEntry} {l : Local} {s : Store} {n : Nat} {key : Str}

/-- A request that no expiry is about. -/
theorem ends_perform {r : Req} {Q : Res r → Local → Store × Nat → Prop}
    (hserved : ∃ choice x s', expires choice = false ∧ (store uuid).serve s r choice = some (x, s'))
    (hr : ∀ key, r ≠ .expired key)
    (h : ∀ choice x s', serve uuid s r choice = some (x, s') → Q x l (s', n)) :
    Completes (quietStore uuid) (perform r) Q l (s, n) := by
  refine Completes.call ?_ ?_
  · obtain ⟨choice, x, s', hc, hserve⟩ := hserved
    exact ⟨choice, x, (s', n), limit_serves hc hserve⟩
  · rintro choice x ⟨s', n'⟩ hserve
    obtain ⟨hs, hn⟩ := serve_limit hserve
    rcases hn with ⟨hexp, -⟩ | ⟨-, hn⟩
    · -- only a cache access takes this choice
      obtain rfl : choice = .expired true := of_decide_eq_true hexp
      cases r with
      | expired key => exact absurd rfl (hr key)
      | get me mdi key => cases hs
      | put me mdi why key expected md => cases hs
      | putVersion me why key record => cases hs
      | delete me why key expected => cases hs
      | createEntry key => cases hs
      | deleteEntry key => cases hs
      | entryRange start stop max => cases hs
      | inodeNumber => cases hs
      | databaseUpdate version => cases hs
      | append version entry => cases hs
    · obtain rfl : n' = n := hn
      exact h choice x s' hs

variable (uuid)

theorem cacheGet_ends (h : Tidy log l s) (hkey : Reached log key) :
    Completes (quietStore uuid) (cacheGet key) (fun entry l' s' => Forward log l s n l' s' ∧
      match entry with
      | some a => l' = l ∧ s' = (s, n) ∧ l.lookupCache key = some a
      | none => l'.lookupCache key = none ∧ l'.pmap = l.pmap) l (s, n) := by
  refine Completes.get_bind (Completes.ite (fun hb => ?_) fun _ => ?_)
  · rw [h.free key hkey] at hb
    cases hb
  cases hc : l.lookupCache key with
  | none => exact Completes.pure ⟨forward_refl h, hc, rfl⟩
  | some a =>
    refine Completes.then (Q := fun (expired : Bool) l' s' => l' = l ∧ s'.1 = s ∧
      (expired = true ∧ s'.2 + 1 = n ∨ expired = false ∧ s'.2 = n)) ?_ ?_
    · refine Completes.call ⟨.expired false, false, (s, n), rfl⟩ ?_
      rintro choice (x : Bool) ⟨s', n'⟩ hserve
      obtain ⟨hs, hn⟩ := serve_limit hserve
      cases choice with
      | expired b =>
        cases hs
        refine ⟨rfl, rfl, ?_⟩
        cases x with
        | true => exact Or.inl ⟨rfl, (hn.resolve_right fun hx => by cases hx.1).2⟩
        | false => exact Or.inr ⟨rfl, (hn.resolve_left fun hx => by cases hx.1).2⟩
      | done => cases hs
      | unreachable => cases hs
      | lost => cases hs
      | number k => cases hs
    · rintro (expired : Bool) l' ⟨s', n'⟩ ⟨rfl, rfl, hexp⟩
      dsimp only at hexp
      refine Completes.ite (fun he => ?_) fun he => ?_
      · have hn := (hexp.resolve_right fun hx => by rw [hx.1] at he; cases he).2
        have hadvance : Advance log l' n (l'.setCache key none) s' n' := h.invalidate key (by omega)
        refine ends_cacheInvalidate_bind (Completes.pure ⟨⟨hadvance, Or.inl ?_⟩, ?_, rfl⟩)
        · show log.length - l'.pmap.snapshotVersion + n' < log.length - l'.pmap.snapshotVersion + n
          omega
        · simp
      · obtain rfl := (hexp.resolve_left fun hx => he hx.1).2
        exact Completes.pure ⟨forward_refl h, rfl, rfl, rfl⟩

theorem cacheAdd_ends (h : Tidy log l s) {a : Nat} (hk : l.lookupCache key = none) (ha : a < l.next)
    (hkey : (l.heap a).systemPath = key) (hfits : Fits log key (l.heap a).md) :
    Completes (quietStore uuid) (cacheAdd key a) (fun _ l' s' => Forward log l s n l' s' ∧
      l' = l.setCache key (some a) ∧ s' = (s, n)) l (s, n) := by
  refine Completes.get_bind ?_
  rw [hk]
  refine Completes.modify ?_
  exact ⟨h.add hk ha hkey hfits, rfl, rfl⟩

/-- Reading a key into a new object. -/
theorem load_ends (h : Tidy log l s) (me : Nat) (key : Str) :
    Completes (quietStore uuid) (getMetadata me l.next) (fun err l' s' => Forward log l s n l' s' ∧
      s' = (s, n) ∧ l'.next = l.next + 1 ∧ l'.lookupCache = l.lookupCache ∧
      (l'.heap l.next).systemPath = key ∧ l'.pmap = l.pmap ∧
      (err = 0 ∧ Fits log key (l'.heap l.next).md ∧ InSync l' s l.next ∧
          (Reached log key → (l'.heap l.next).md.inodeNumber ≠ 0) ∨
        err = -ENOENT ∧ Fits log key (l'.heap l.next).md ∧ (l'.heap l.next).md.inodeNumber = 0 ∨
        err = - EIO)) (l.alloc key) (s, n) := by
  have hgrow : ∀ x : MetadataInfo, Forward log l s n ((l.alloc key).setObject l.next x) (s, n) := by
    refine fun x => h.grow rfl rfl rfl (Nat.le_succ _) fun a ha => ?_
    rw [Local.setObject_heap, if_neg (by omega), Local.alloc_heap, if_neg (by omega)]
  have halloc : Forward log l s n (l.alloc key) (s, n) := by
    refine h.grow rfl rfl rfl (Nat.le_succ _) fun a ha => ?_
    rw [Local.alloc_heap, if_neg (by omega)]
  have hself : (l.alloc key).heap l.next = ⟨key, lit "0", Inode.empty⟩ := by simp
  refine ends_getMdi_bind ?_
  rw [hself]
  refine Completes.then (ends_perform (r := .get me l.next key) (Q := fun x l' s' => l' = l.alloc key ∧
    s' = (s, n) ∧ ∀ r, x = .ok r → s.metadata key = some r) ⟨.done, ?_⟩ (by simp) ?_) ?_
  · cases hm : s.metadata key with
    | none => exact ⟨_, _, rfl, by simp only [store, serve, Store.get, hm]; rfl⟩
    | some r => exact ⟨_, _, rfl, by simp only [store, serve, Store.get, hm]; rfl⟩
  · intro choice x s' hserve
    obtain ⟨rfl, hx, -⟩ := serve_get hserve
    exact ⟨rfl, rfl, hx⟩
  · rintro (record : Except StatusCode (KineticRecord Inode)) l' s' ⟨rfl, rfl, hr⟩
    cases record with
    | ok record =>
      have hm := hr record rfl
      refine ends_setMdi_bind (Completes.pure ⟨hgrow _, rfl, rfl, rfl, ?_, rfl, Or.inl ⟨rfl, ?_, ?_, fun hk => ?_⟩⟩)
      · simp
      · simpa using h.stored key record hm
      · simp [InSync, hm, versionOf]
      · simpa using h.numbered key record hk hm
    | error code =>
      have hempty : Fits log key Inode.empty := ⟨fun _ _ => by decide, fun _ _ _ => Or.inl rfl⟩
      cases code with
      | REMOTE_NOT_FOUND =>
        refine Completes.pure ⟨halloc, rfl, rfl, rfl, ?_, rfl, Or.inr (Or.inl ⟨rfl, ?_, ?_⟩)⟩
        · rw [hself]
        · rw [hself]
          exact hempty
        · rw [hself]
          rfl
      | _ =>
        refine Completes.pure ⟨halloc, rfl, rfl, rfl, ?_, rfl, Or.inr (Or.inr rfl)⟩
        rw [hself]

/-- What a request for entries of the log answers. -/
def Updated (log : List DbEntry) (l : Local) : Except Int (List DbEntry) → Prop
  | .error err => err ≠ 0 ∧ ¬ Usable err
  | .ok entries => ∃ k, 0 < k ∧ l.pmap.snapshotVersion < log.length ∧
      entries = (log.drop l.pmap.snapshotVersion).take k

theorem databaseUpdate_ends (h : Tidy log l s) (hlog : (replay log).isSome = true) :
    Completes (quietStore uuid) databaseUpdate (fun err l' s' => s' = (s, n) ∧
      (err = 0 ∧ (∃ db, l' = { l with pmap := db } ∧ SnapshotOf log db ∧
          l.pmap.snapshotVersion < db.snapshotVersion) ∨
        err ≠ 0 ∧ ¬ Usable err ∧ l' = l)) l (s, n) := by
  refine Completes.get_bind ?_
  refine Completes.then (ends_perform (r := .databaseUpdate l.pmap.snapshotVersion) (Q := fun x l' s' =>
    l' = l ∧ s' = (s, n) ∧ Updated log l x) ⟨.unreachable, _, _, rfl, rfl⟩ (by simp) ?_) ?_
  · intro choice x s' hserve
    have hx : (s.databaseUpdate l.pmap.snapshotVersion choice).map (fun x => (x, s)) = some (x, s') := hserve
    obtain ⟨y, hy, he⟩ := Option.map_eq_some_iff.mp hx
    cases he
    refine ⟨rfl, rfl, ?_⟩
    cases choice with
    | number k =>
      simp only [Store.databaseUpdate, h.log_eq] at hy
      split at hy
      · cases hy
      · split at hy
        · cases hy
          exact ⟨by decide, by decide⟩
        · split at hy
          · cases hy
          · cases hy
            exact ⟨k, by omega, by omega, rfl⟩
    | unreachable =>
      cases hy
      exact ⟨by decide, by decide⟩
    | done => cases hy
    | lost => cases hy
    | expired b => cases hy
  · rintro (entries : Except Int (List DbEntry)) l' s' ⟨rfl, rfl, hx⟩
    cases entries with
    | error err => exact Completes.pure ⟨rfl, Or.inr ⟨hx.1, hx.2, rfl⟩⟩
    | ok entries =>
      obtain ⟨k, hk, hlt, rfl⟩ := hx
      obtain ⟨db, hdb, hsnap, hv⟩ := h.pmap.update hlog hk hlt
      dsimp only
      rw [hdb]
      exact Completes.modify_bind (Completes.pure ⟨rfl, Or.inl ⟨rfl, db, rfl, hsnap, hv⟩⟩)

/-- An object that is not the root directory changes, and so may its record. -/
theorem Tidy.write (h : Tidy log l s) {a : Nat} (hkey : (l.heap a).systemPath = key) (hr : key ≠ root)
    (ht : (l.heap a).md.type ≠ .HARDLINK_S) (hn : (l.heap a).md.inodeNumber ≠ 0) {x : MetadataInfo}
    (hx : x.systemPath = key) (hty : x.md.type = (l.heap a).md.type)
    (hno : x.md.inodeNumber = (l.heap a).md.inodeNumber) {s' : Store} (hlog : s'.log = s.log)
    (hother : ∀ k, k ≠ key → s'.metadata k = s.metadata k)
    (hself : ∀ r, s'.metadata key = some r → s.metadata key = some r ∨ r.value = x.md) :
    Advance log l n (l.setObject a x) s' n where
  tidy := by
    have hfits : Fits log key x.md := ⟨fun _ _ => hty ▸ ht, fun hroot => absurd hroot hr⟩
    refine ⟨hlog.trans h.log_eq, h.pmap, fun k b hb => ?_, fun k r hk => ?_, h.free, fun k r hreach hk => ?_⟩
    · obtain ⟨hlt, hpath, hf⟩ := h.cached k b hb
      refine ⟨hlt, ?_⟩
      rw [Local.setObject_heap]
      split
      · rename_i hba
        rw [hba, hkey] at hpath
        rw [← hpath]
        exact ⟨hx, hfits⟩
      · exact ⟨hpath, hf⟩
    · by_cases hk' : k = key
      · rw [hk'] at hk ⊢
        rcases hself r hk with hs | hv
        · exact h.stored key r hs
        · rw [hv]
          exact hfits
      · rw [hother k hk'] at hk
        exact h.stored k r hk
    · by_cases hk' : k = key
      · rw [hk'] at hk hreach
        rcases hself r hk with hs | hv
        · exact h.numbered key r hreach hs
        · rw [hv, hno]
          exact hn
      · rw [hother k hk'] at hk
        exact h.numbered k r hreach hk
  left := Nat.le_refl _
  next := Nat.le_refl _
  same b _ := by
    rw [Local.setObject_heap]
    split
    · rename_i hba
      rw [hba]
      exact ⟨hx.trans hkey.symm, hty, hno⟩
    · exact ⟨rfl, rfl, rfl⟩
  version := Nat.le_refl _

/-- The ways in which storing object `a` under `key` ends. -/
def Stored (l : Local) (s : Store) (a : Nat) (key : Str) (err : Int) (l' : Local) (s' : Store) : Prop :=
  err = 0 ∧ l'.lookupCache = l.lookupCache ∧ InSync l' s' a ∧
      (∀ b, (l.heap b).systemPath ≠ key → InSync l s b → InSync l' s' b) ∨
    err = -EAGAIN ∧ ¬ InSync l s a ∧ l'.lookupCache = Function.update l.lookupCache key none ∧
      (∀ b, (l.heap b).systemPath ≠ key → InSync l s b → InSync l' s' b) ∨
    err ≠ 0 ∧ err ≠ -EAGAIN ∧ ¬ Usable err

/-- Storing an object whose path permissions have changed. -/
theorem putMetadata_ends (h : Tidy log l s) (me : Nat) {a : Nat} (hkey : (l.heap a).systemPath = key)
    (hr : key ≠ root) (ht : (l.heap a).md.type ≠ .HARDLINK_S) (hn : (l.heap a).md.inodeNumber ≠ 0)
    {md : Inode} (hty : md.type = (l.heap a).md.type) (hno : md.inodeNumber = (l.heap a).md.inodeNumber) :
    Completes (quietStore uuid) (putMetadata me .update a) (fun err l' s' => Advance log l n l' s'.1 s'.2 ∧
      s'.2 = n ∧ l'.pmap = l.pmap ∧ Stored l s a key err l' s'.1)
      (l.setObject a { l.heap a with md := md }) (s, n) := by
  let x : MetadataInfo := { l.heap a with md := md }
  refine ends_getMdi_bind ?_
  rw [Local.setObject_heap, if_pos rfl]
  refine Completes.then (ends_perform (r := .put me a .update (l.heap a).systemPath (l.heap a).keyVersion md)
    (Q := fun result l' s' => l' = l.setObject a x ∧ s'.2 = n ∧ s'.1.log = s.log ∧
      (∀ k, k ≠ key → s'.1.metadata k = s.metadata k) ∧
      (InSync l s a ∧ result.1 ≠ .REMOTE_VERSION_MISMATCH ∧ s'.1.metadata key = some ⟨md, result.2⟩ ∨
        result.1 ≠ .OK ∧ (result.1 = .REMOTE_VERSION_MISMATCH → ¬ InSync l s a) ∧
          s'.1.metadata key = s.metadata key)) ⟨.done, _, _, rfl, rfl⟩ (by simp) ?_) ?_
  · rintro choice ⟨status, version⟩ s' hserve
    have hlog := (serve_unnamed rfl hserve).2
    obtain ⟨rfl, ⟨hv, hne, rfl⟩ | ⟨hne, hv, rfl⟩⟩ := serve_put hserve
    · refine ⟨rfl, rfl, rfl, fun k hk => ?_, Or.inl ⟨hv, hne, ?_⟩⟩
      · show (s.set _ _).metadata k = _
        rw [Store.set_metadata, hkey, if_neg hk]
      · show (s.set _ _).metadata key = _
        rw [Store.set_metadata, hkey, if_pos rfl]
    · exact ⟨rfl, rfl, rfl, fun _ _ => rfl, Or.inr ⟨hne, hv, rfl⟩⟩
  · rintro ⟨status, version⟩ l' ⟨s', n'⟩ ⟨rfl, rfl, hlog, hother, heffect⟩
    dsimp only at hlog hother heffect
    have hself : ∀ y : MetadataInfo, y.md = md → ∀ r, s'.metadata key = some r →
        s.metadata key = some r ∨ r.value = y.md := by
      intro y hy r hm
      rcases heffect with ⟨-, -, he⟩ | ⟨-, -, he⟩
      · rw [he] at hm
        cases hm
        exact Or.inr hy.symm
      · exact Or.inl (he ▸ hm)
    have hsync : ∀ (y : MetadataInfo) b, (l.heap b).systemPath ≠ key → InSync l s b →
        versionOf (s'.metadata ((l.setObject a y).heap b).systemPath) =
          ((l.setObject a y).heap b).keyVersion := by
      intro y b hb hs
      have hba : b ≠ a := fun hba => hb (hba ▸ hkey)
      rw [Local.setObject_heap, if_neg hba, hother _ hb]
      exact hs
    have hfailed : status ≠ .OK → Completes (quietStore uuid) (do
        cacheInvalidate (l.heap a).systemPath
        if status = .REMOTE_VERSION_MISMATCH then return -EAGAIN
        if status = .REMOTE_NOT_FOUND then return -ENOENT
        return - EIO : Client Int) (fun err l' s' => Advance log l n' l' s'.1 s'.2 ∧
          s'.2 = n' ∧ l'.pmap = l.pmap ∧ Stored l s a key err l' s'.1) (l.setObject a x) (s', n') := by
      intro hstatus
      have hadvance : Advance log l n' ((l.setObject a x).setCache key none) s' n' := by
        have hwrite := h.write hkey hr ht hn (x := x) hkey hty hno hlog hother (hself x rfl) (n := n')
        exact hwrite.trans (hwrite.tidy.invalidate key (Nat.le_refl _))
      rw [hkey]
      refine ends_cacheInvalidate_bind
        (Completes.ite (fun hm => ?_) fun _ => Completes.ite (fun _ => ?_) fun _ => ?_)
      · refine Completes.pure ⟨hadvance, rfl, rfl, Or.inr (Or.inl ⟨rfl, ?_, rfl, hsync x⟩)⟩
        rcases heffect with ⟨-, hne, -⟩ | ⟨-, hv, -⟩
        · exact absurd hm hne
        · exact hv hm
      · exact Completes.pure ⟨hadvance, rfl, rfl, Or.inr (Or.inr ⟨by decide, by decide, by decide⟩)⟩
      · exact Completes.pure ⟨hadvance, rfl, rfl, Or.inr (Or.inr ⟨by decide, by decide, by decide⟩)⟩
    cases status with
    | OK =>
      rcases heffect with ⟨hs, -, hm⟩ | ⟨hne, -, -⟩
      · let y : MetadataInfo := { x with keyVersion := version }
        have hset : (l.setObject a x).setObject a y = l.setObject a y := by
          simp [Local.setObject]
        refine ends_setMdi_bind ?_
        rw [show ({ (l.setObject a x).heap a with keyVersion := version } : MetadataInfo) = y by
          rw [Local.setObject_heap, if_pos rfl], hset]
        refine Completes.pure ⟨h.write hkey hr ht hn (x := y) hkey hty hno hlog hother (hself y rfl), rfl, rfl,
          Or.inl ⟨rfl, rfl, ?_, hsync y⟩⟩
        show versionOf (s'.metadata ((l.setObject a y).heap a).systemPath) = _
        rw [Local.setObject_heap, if_pos rfl]
        show versionOf (s'.metadata (l.heap a).systemPath) = version
        rw [hkey, hm]
        rfl
      · exact absurd rfl hne
    | _ => exact hfailed (by simp)

end Requests

/-! ## One level of the recursion -/

section Lookup

variable {uuid : Nat → Str} {log : List DbEntry} {env : Env} {ctx : Context}
variable {call : Str → Option Nat → Client (Int × Option Nat)} {m : Nat} {u key : Str} {ts : Int}

/-- Where it may be set back at most `m` times and `P` holds, the lookup of `u` ends. -/
def Looks (uuid : Nat → Str) (log : List DbEntry) (call : Str → Option Nat → Client (Int × Option Nat))
    (m : Nat) (u : Str) (P : Local → Store → Prop) : Prop :=
  ∀ l s n pointer, Tidy log l s → budget log l n ≤ m → P l s →
    Completes (quietStore uuid) (call u pointer) (Outcome log l s n) l (s, n)

/-- No condition. -/
def Anywhere (_ : Local) (_ : Store) : Prop := True

/-- The object that the cache holds for the path, if any, is in step with the store. -/
def Ready (u : Str) (l : Local) (s : Store) : Prop :=
  ∀ key ts a, ToSystemPath l.pmap u .LOOKUP (key, ts) → l.lookupCache key = some a → InSync l s a

/-- What one level of `lookup` needs of the calls that it makes. -/
structure Callees (uuid : Nat → Str) (log : List DbEntry) (call : Str → Option Nat → Client (Int × Option Nat))
    (m : Nat) (u : Str) : Prop where
  target : (∀ inode, u ≠ hardlinkKey inode) → ∀ inode, Looks uuid log call m (hardlinkKey inode) Anywhere
  parent : ∀ path, cutParent u = some path → path ≠ u → Looks uuid log call m path Anywhere
  later : ∀ m' < m, Looks uuid log call m' u Anywhere

variable {l l1 : Local} {s s1 : Store} {n n1 a : Nat}

theorem inheritFromParent_ends (hcall : Callees uuid log call m u) (hl : Tidy log l s)
    (hb : budget log l n ≤ m) (hpath : ToSystemPath l.pmap u .LOOKUP (key, ts))
    (hc : l.lookupCache key = some a) (hr : key ≠ root) (ht : (l.heap a).md.type ≠ .HARDLINK_S)
    (hn : (l.heap a).md.inodeNumber ≠ 0) (hsync : InSync l s a ∨ Looks uuid log call m u (Ready u))
    (hf : Forward log l s n l1 (s1, n1))
    (me parent : Nat) :
    Completes (quietStore uuid) (inheritFromParent me env ctx call u a parent) (Outcome log l s n) l1
      (s1, n1) := by
  obtain ⟨ha, hkey, -⟩ := hl.cached key a hc
  obtain ⟨hkey1, hty1, hno1⟩ := hf.same a ha
  rw [hkey] at hkey1
  -- the other objects in the cache have other keys
  have hother : ∀ k b, k ≠ key → l1.lookupCache k = some b → (l1.heap b).systemPath ≠ key := by
    intro k b hk hb
    rw [(hf.tidy.cached k b hb).2.1]
    exact hk
  have htype : ∀ parent : Inode, (inheritPathPermissions env (l1.heap a).md parent).type =
      (l1.heap a).md.type := fun parent => type_of_core (core_inherit env (l1.heap a).md parent)
  have hnumber : ∀ parent : Inode, (inheritPathPermissions env (l1.heap a).md parent).inodeNumber =
      (l1.heap a).md.inodeNumber := fun parent => inode_of_core (core_inherit env (l1.heap a).md parent)
  refine ends_getMdi_bind (ends_setMdi_bind ?_)
  refine (putMetadata_ends uuid hf.tidy me hkey1 hr (hty1 ▸ ht) (hno1 ▸ hn) (htype _) (hnumber _)).then ?_
  rintro err l2 ⟨s2, n2⟩ ⟨hadvance, rfl, hp, hstored⟩
  dsimp only at hadvance hstored
  have hfar := hf.toAdvance.trans hadvance
  have hbudget : budget log l2 n2 = budget log l1 n2 := by rw [budget, hp, budget]
  refine Completes.ite (fun he => ?_) fun hne => Completes.ite (fun he => ?_) fun he => ?_
  · obtain ⟨hns, hcache, hkeep⟩ : ¬ InSync l1 s1 a ∧ l2.lookupCache = Function.update l1.lookupCache key none ∧
        ∀ b, (l1.heap b).systemPath ≠ key → InSync l1 s1 b → InSync l2 s2 b := by
      rcases hstored with ⟨h0, -⟩ | ⟨-, hx⟩ | ⟨-, h1, -⟩
      · rw [h0] at he
        cases he
      · exact hx
      · exact absurd he h1
    by_cases hless : budget log l1 n2 < budget log l n
    · refine Completes.mono (hcall.later (budget log l2 n2) (by omega) l2 s2 n2 (some a) hadvance.tidy
        (Nat.le_refl _) trivial) fun r l' s' hr => ?_
      exact Outcome.after ⟨hfar, Or.inl (by show budget log l2 n2 < _; omega)⟩ hr
    · -- the object was out of step from the start, and now it is not in the cache any more
      have hkept : Kept l s l1 s1 := hf.kept.resolve_left hless
      have hns0 : ¬ InSync l s a := fun h => hns (hkept key a hc h).2
      have hpmap : l2.pmap = l.pmap := hp.trans (hf.toAdvance.pmap_eq hl hless)
      refine Completes.mono (hsync.resolve_left hns0 l2 s2 n2 (some a) hadvance.tidy ?_ ?_) fun r l' s' hr => ?_
      · have hle := hf.toAdvance.budget_le
        dsimp only at hle
        omega
      · intro key' ts' b hpath' hb
        rw [hpmap] at hpath'
        obtain rfl : key' = key := congrArg Prod.fst (hpath'.det hpath)
        rw [hcache, Function.update_self] at hb
        cases hb
      · refine Outcome.after ⟨hfar, Or.inr fun k b hkb hs => ?_⟩ hr
        have hne : k ≠ key := by
          rintro rfl
          rw [hc] at hkb
          cases hkb
          exact hns0 hs
        obtain ⟨hc1, hs1⟩ := hkept k b hkb hs
        refine ⟨?_, hkeep b (hother k b hne hc1) hs1⟩
        rw [hcache, Function.update_of_ne hne]
        exact hc1
  · have hnu : ¬ Usable err := by
      rcases hstored with ⟨h0, -⟩ | ⟨h0, -⟩ | ⟨-, -, hnu⟩
      · exact absurd h0 he
      · exact absurd h0 hne
      · exact hnu
    exact Completes.pure (hfar.outcome hnu _)
  · obtain ⟨hcache, hself, hkeep⟩ : l2.lookupCache = l1.lookupCache ∧ InSync l2 s2 a ∧
        ∀ b, (l1.heap b).systemPath ≠ key → InSync l1 s1 b → InSync l2 s2 b := by
      rcases hstored with ⟨-, hx⟩ | ⟨h0, -⟩ | ⟨h0, -⟩
      · exact hx
      · exact absurd h0 hne
      · exact absurd h0 he
    refine ends_getMdi_bind (Completes.pure (Forward.outcome ⟨hfar, ?_⟩ _ a))
    refine hf.kept.imp (fun hless => ?_) fun hkept k b hkb hs => ?_
    · show budget log l2 n2 < _
      rw [hbudget]
      exact hless
    · obtain ⟨hc1, hs1⟩ := hkept k b hkb hs
      rw [hcache]
      refine ⟨hc1, ?_⟩
      by_cases hk : k = key
      · rw [hk, hc] at hkb
        cases hkb
        exact hself
      · exact hkeep b (hother k b hk hc1) hs1

theorem findLastSeparator_lt {u : Str} {pos : Nat} (h : findLastSeparator u = some pos) :
    pos < u.length := by
  induction u generalizing pos with
  | nil => cases h
  | cons c r ih =>
    rw [findLastSeparator] at h
    cases hr : findLastSeparator r with
    | some i =>
      rw [hr] at h
      cases h
      have hi := ih hr
      rw [List.length_cons]
      omega
    | none =>
      rw [hr] at h
      dsimp only at h
      split at h
      · cases h
        exact Nat.succ_pos _
      · cases h

theorem cutParent_length {u path : Str} (h : cutParent u = some path) (hne : path ≠ u) :
    path.length < u.length := by
  have htake : ∀ k, some (u.take k) = some path → path.length < u.length := by
    intro k hk
    obtain rfl := Option.some.inj hk
    by_contra hlen
    rw [List.length_take] at hlen
    exact hne (List.take_of_length_le (by omega))
  unfold cutParent at h
  split at h
  · cases h
  · exact htake _ h
  · exact htake _ h

/-- A path that is its own parent is a way to write `/`. -/
theorem iointercept_of_cutParent (h : cutParent u = some u) : iointercept u = root := by
  unfold cutParent at h
  cases hp : findLastSeparator u with
  | none =>
    rw [hp] at h
    cases h
  | some pos =>
    rw [hp] at h
    cases u with
    | nil => cases hp
    | cons c r =>
      cases pos with
      | zero =>
        have hr : r = [] := by
          have hx := Option.some.inj h
          simpa using hx.symm
        subst hr
        have hc : c = '/' ∨ c = ':' := by
          by_contra hc
          simp [findLastSeparator, hc] at hp
        rcases hc with rfl | rfl
        · decide
        · decide
      | succ i =>
        have hlen := congrArg List.length (Option.some.inj h)
        have hlt := findLastSeparator_lt hp
        rw [List.length_take] at hlen
        omega

theorem checkStale_ends (hcall : Callees uuid log call m u) (hl : Tidy log l s) (hb : budget log l n ≤ m)
    (hg : Grounded l.pmap.snapshot) (hpath : ToSystemPath l.pmap u .LOOKUP (key, ts))
    (hc : l.lookupCache key = some a) (ht : (l.heap a).md.type ≠ .HARDLINK_S)
    (hn : (l.heap a).md.inodeNumber ≠ 0) (hroot : key = root → ts ≤ (l.heap a).md.pathPermissionVerified)
    (hsync : InSync l s a ∨ Looks uuid log call m u (Ready u)) (me : Nat) :
    Completes (quietStore uuid) (checkStale me env ctx call u ts a) (Outcome log l s n) l (s, n) := by
  refine ends_getMdi_bind (Completes.ite (fun hstale => ?_) fun _ => ?_)
  · have hr : key ≠ root := fun h => absurd (hroot h) (by omega)
    unfold lookupParentWith
    cases hcut : cutParent u with
    | none => exact Completes.pure ((advance_refl hl).outcome (by decide) _)
    | some path =>
      have hne : path ≠ u := by
        rintro rfl
        have hroot' := toSystemPath_root hg (iointercept_of_cutParent hcut) 0
        exact hr (congrArg Prod.fst (hpath.det ⟨1, hroot'⟩))
      refine Completes.then (Q := fun r l1 s1 => Outcome log l s n r l1 s1) ?_ ?_
      · refine Completes.then (hcall.parent path hcut hne l s n none hl hb trivial) ?_
        rintro ⟨err, mdiParent⟩ l1 s1 hout
        refine Completes.ite (fun _ => Completes.pure hout) fun he => ?_
        obtain ⟨hsome, hf⟩ := hout.found (Or.inl (not_not.mp he))
        cases mdiParent with
        | none => cases hsome
        | some parent =>
          refine ends_getMdi_bind (Completes.ite (fun _ => ?_) fun _ => ?_)
          · exact Completes.pure (hout.advance.outcome (by decide) _)
          · exact Completes.pure (hf.outcome _ parent)
      · rintro ⟨err, mdiParent⟩ l1 ⟨s1, n1⟩ hout
        refine Completes.ite (fun he => ?_) fun he => ?_
        · exact Completes.pure (hout.advance.outcome (fun hu => hu.elim he.1 he.2) _)
        · obtain ⟨hsome, hf⟩ := hout.found (by
            unfold Usable
            omega)
          cases mdiParent with
          | none => cases hsome
          | some parent => exact inheritFromParent_ends hcall hl hb hpath hc hr ht hn hsync hf me parent
  · exact ends_getMdi_bind (Completes.pure ((forward_refl hl).outcome _ a))

theorem not_mem_hardlinkKey {c : Char} (hc : c.isDigit = false) (hl : c ∉ lit "hardlink_") (inode : Nat) :
    c ∉ hardlinkKey inode := by
  intro h
  rcases List.mem_append.mp h with h | h
  · exact hl h
  · exact not_mem_toStr hc h

/-- The key of a hard link target leads to itself. -/
theorem toSystemPath_hardlinkKey {db : PathMapDB} (hg : Grounded db.snapshot) (inode fuel : Nat) :
    ∃ ts, toSystemPath db (fuel + 1) (hardlinkKey inode) .LOOKUP = some (hardlinkKey inode, ts) :=
  toSystemPath_name hg (not_mem_hardlinkKey rfl (by decide) inode) (not_mem_hardlinkKey rfl (by decide) inode)
    (by simp [hardlinkKey, lit]) fuel

/-- `/` is not out of date. -/
theorem Fits.fresh {md : Inode} (h : Fits log key md) {db : PathMapDB} (hdb : SnapshotOf log db)
    (hg : Grounded db.snapshot) (hpath : ToSystemPath db u .LOOKUP (key, ts)) (hn : md.inodeNumber ≠ 0)
    (hS : md.type ≠ .HARDLINK_S) (hF : md.type ≠ .FORCE_UPDATE) (hr : key = root) :
    ts ≤ md.pathPermissionVerified := by
  subst hr
  obtain ⟨fuel, hfuel⟩ := hpath
  have hroot := toSystemPath_root hg (root_of_toSystemPath hg hfuel) 0
  have hts : ts = stampOf db.snapshot root :=
    congrArg Prod.snd (ToSystemPath.det ⟨fuel, hfuel⟩ ⟨1, hroot⟩)
  rcases h.verified rfl db hdb with h0 | h0 | h0 | hle
  · exact absurd h0 hn
  · exact absurd h0 hS
  · exact absurd h0 hF
  · rw [hts]
    exact Int.ofNat_le.mpr hle

/-- The client goes on with a later snapshot. -/
theorem Tidy.setPmap (h : Tidy log l s) {db : PathMapDB} (hdb : SnapshotOf log db)
    (hv : l.pmap.snapshotVersion < db.snapshotVersion) :
    Advance log l n { l with pmap := db } s n ∧ budget log { l with pmap := db } n < budget log l n := by
  refine ⟨⟨⟨h.log_eq, hdb, h.cached, h.stored, h.free, h.numbered⟩, Nat.le_refl _, Nat.le_refl _,
    fun _ _ => ⟨rfl, rfl, rfl⟩, Nat.le_of_lt hv⟩, ?_⟩
  have hle := hdb.version_le
  show log.length - db.snapshotVersion + n < log.length - l.pmap.snapshotVersion + n
  omega

theorem lookupFound_ends (hlog : (replay log).isSome = true)
    (hground : ∀ db, SnapshotOf log db → Grounded db.snapshot) (hcall : Callees uuid log call m u)
    (hl : Tidy log l s) (hb : budget log l n ≤ m) (ha : a < l.next) (hkey : (l.heap a).systemPath = key)
    (hfits : Fits log key (l.heap a).md) (hpath : ToSystemPath l.pmap u .LOOKUP (key, ts)) (cached : Bool)
    (hc : (l.heap a).md.inodeNumber ≠ 0 → l.lookupCache key = if cached then some a else none)
    (hsync : InSync l s a ∨ Looks uuid log call m u (Ready u)) (me : Nat) :
    Completes (quietStore uuid) (lookupFound me env ctx call u key ts a cached) (Outcome log l s n) l
      (s, n) := by
  refine ends_getMdi_bind (Completes.ite (fun _ => ?_) fun hn => ?_)
  · exact Completes.pure ((advance_refl hl).outcome (by decide) _)
  have hc := hc hn
  have hg := hground l.pmap hl.pmap
  cases htype : (l.heap a).md.type with
  | HARDLINK_S =>
    have hne : ∀ inode, u ≠ hardlinkKey inode := by
      rintro inode rfl
      obtain ⟨ts', hself⟩ := toSystemPath_hardlinkKey hg inode 0
      exact hfits.target inode (congrArg Prod.fst (hpath.det ⟨1, hself⟩)) htype
    cases cached with
    | true => exact hcall.target hne _ l s n (some a) hl hb trivial
    | false =>
      refine ends_newMetadataInfo_bind (ends_setMdi_bind ?_)
      rw [Local.alloc_heap, if_pos rfl]
      have hgrow : Forward log l s n ((l.alloc key).setObject l.next ⟨key, lit "0", { Inode.empty with
          type := .HARDLINK_S, inodeNumber := (l.heap a).md.inodeNumber }⟩) (s, n) := by
        refine hl.grow rfl rfl rfl (Nat.le_succ _) fun b hb => ?_
        rw [Local.setObject_heap, if_neg (by omega), Local.alloc_heap, if_neg (by omega)]
      refine (cacheAdd_ends uuid hgrow.tidy (a := l.next) hc (Nat.lt_succ_self _) ?_ ?_).then ?_
      · simp
      · rw [Local.setObject_heap, if_pos rfl]
        exact ⟨fun inode h => absurd htype (hfits.target inode h), fun _ _ _ => Or.inr (Or.inl rfl)⟩
      · rintro _ l1 _ ⟨hadd, -, rfl⟩
        have hf := hgrow.trans hadd
        have hle := hf.toAdvance.budget_le
        refine (hcall.target hne _ l1 s n (some a) hf.tidy (by dsimp only at hle; omega) trivial).mono ?_
        exact fun r l' s' hr => Outcome.after hf hr
  | FORCE_UPDATE =>
    refine (databaseUpdate_ends uuid hl hlog).then ?_
    rintro err l1 _ ⟨rfl, ⟨rfl, db, rfl, hdb, hv⟩ | ⟨he, hu, rfl⟩⟩
    · obtain ⟨hadvance, hless⟩ := hl.setPmap (n := n) hdb hv
      have hfar := hadvance.trans (hadvance.tidy.invalidate key (Nat.le_refl n))
      refine ends_cacheInvalidate_bind (Completes.ite (fun he => absurd rfl he) fun _ => ?_)
      have hless' := Nat.lt_of_lt_of_le hless hb
      refine (hcall.later _ hless' _ s n (some a) hfar.tidy (Nat.le_refl _) trivial).mono ?_
      exact fun r l' s' hr => Outcome.after ⟨hfar, Or.inl hless⟩ hr
    · refine ends_cacheInvalidate_bind (Completes.ite (fun _ => ?_) fun h0 => absurd he h0)
      exact Completes.pure ((hl.invalidate key (Nat.le_refl n)).outcome hu _)
  | POSIX | HARDLINK_T =>
    all_goals
      have hS : (l.heap a).md.type ≠ .HARDLINK_S := by rw [htype]; decide
      have hF : (l.heap a).md.type ≠ .FORCE_UPDATE := by rw [htype]; decide
      have hroot := hfits.fresh hl.pmap hg hpath hn hS hF
      cases cached with
      | true => exact checkStale_ends hcall hl hb hg hpath hc hS hn hroot hsync me
      | false =>
        refine (cacheAdd_ends uuid hl hc ha hkey hfits).then ?_
        rintro _ _ _ ⟨hadd, rfl, rfl⟩
        have hc' : (l.setCache key (some a)).lookupCache key = some a := by simp
        exact (checkStale_ends hcall hadd.tidy hb hg hpath hc' hS hn hroot hsync me).mono
          fun r l' s' hr => Outcome.after hadd hr

theorem lookupStored_ends (hlog : (replay log).isSome = true)
    (hground : ∀ db, SnapshotOf log db → Grounded db.snapshot) (hcall : Callees uuid log call m u)
    (hl : Tidy log l s) (hb : budget log l n ≤ m) (hc : l.lookupCache key = none)
    (hpath : ToSystemPath l.pmap u .LOOKUP (key, ts)) (hreach : Reached log key) (me : Nat) :
    Completes (quietStore uuid) (lookupStored me env ctx call u key ts) (Outcome log l s n) l (s, n) := by
  rw [lookupStored_eq]
  refine ends_newMetadataInfo_bind ((load_ends uuid hl me key).then ?_)
  rintro err l1 _ ⟨hf, rfl, hnext, hcache, hkey, hp, hx⟩
  have ha : l.next < l1.next := by omega
  have hc1 : l1.lookupCache key = none := by rw [hcache, hc]
  have hb1 : budget log l1 n ≤ m := hf.toAdvance.budget_le.trans hb
  refine Completes.ite (fun he => ?_) fun he => Completes.ite (fun h0 => ?_) fun h0 => ?_
  · obtain ⟨hfits, hn⟩ : Fits log key (l1.heap l.next).md ∧ (l1.heap l.next).md.inodeNumber = 0 := by
      rcases hx with ⟨h0, -⟩ | ⟨-, hx⟩ | h0
      · rw [h0] at he
        cases he
      · exact hx
      · rw [h0] at he
        cases he
    refine (cacheAdd_ends uuid hf.tidy hc1 ha hkey hfits).then ?_
    rintro _ _ _ ⟨hadd, rfl, rfl⟩
    refine ends_getMdi_bind (Completes.ite (fun _ => ?_) fun hn' => absurd hn hn')
    exact Completes.pure ((hf.trans hadd).toAdvance.outcome (by decide) _)
  · have hnu : ¬ Usable err := by
      rcases hx with ⟨h, -⟩ | ⟨h, -⟩ | h
      · exact absurd h h0
      · exact absurd h he
      · rw [h]
        decide
    refine ends_cacheInvalidate_bind (Completes.pure ?_)
    exact (hf.toAdvance.trans (hf.tidy.invalidate key (Nat.le_refl n))).outcome hnu _
  · obtain ⟨hfits, hs, hn⟩ : Fits log key (l1.heap l.next).md ∧ InSync l1 s l.next ∧
        (Reached log key → (l1.heap l.next).md.inodeNumber ≠ 0) := by
      rcases hx with ⟨-, hx⟩ | ⟨h, -⟩ | h
      · exact hx
      · exact absurd h he
      · rw [h] at h0
        exact absurd (by decide) h0
    refine ends_getMdi_bind (Completes.ite (fun h0 => absurd h0 (hn hreach)) fun _ => ?_)
    refine (lookupFound_ends hlog hground hcall hf.tidy hb1 ha hkey hfits (hp.symm ▸ hpath) false
      (fun _ => hc1) (Or.inl hs) me).mono fun r l' s' hr => Outcome.after hf hr

/-- One level of `lookup`. -/
theorem lookup_ends (hlog : (replay log).isSome = true)
    (hground : ∀ db, SnapshotOf log db → Grounded db.snapshot) {me fuel : Nat}
    (hcall : Callees uuid log (lookup me env ctx fuel) m u)
    (hres : ∀ db, SnapshotOf log db → ∃ res, toSystemPath db (fuel + 1) u .LOOKUP = some res)
    {P : Local → Store → Prop}
    (hagain : (∀ l s, P l s → Ready u l s) ∨ Looks uuid log (lookup me env ctx fuel) m u (Ready u)) :
    Looks uuid log (lookup me env ctx (fuel + 1)) m u P := by
  intro l s n pointer hl hb hP
  obtain ⟨⟨key, ts⟩, hpath⟩ := hres l.pmap hl.pmap
  have hto : ToSystemPath l.pmap u .LOOKUP (key, ts) := ⟨fuel + 1, hpath⟩
  refine Completes.get_bind ?_
  rw [hpath]
  refine Completes.ite (fun hneg => ?_) fun hts => ?_
  · refine Completes.pure ((advance_refl hl).outcome ?_ _)
    rcases toSystemPath_timeStamp hpath with h | rfl | rfl
    · omega
    · decide
    · decide
  · have hreach : Reached log key := ⟨l.pmap, u, ts, hl.pmap, hto, Int.not_lt.mp hts⟩
    refine (cacheGet_ends uuid hl hreach).then ?_
    rintro entry l1 ⟨s1, n1⟩ ⟨hf, hentry⟩
    cases entry with
    | some a =>
      obtain ⟨rfl, he, hc⟩ := hentry
      cases he
      obtain ⟨ha, hkey, hfits⟩ := hl.cached key a hc
      refine lookupFound_ends hlog hground hcall hl hb ha hkey hfits hto true (fun _ => hc) ?_ me
      exact hagain.imp (fun h => h l1 s hP key ts a hto hc) id
    | none =>
      obtain ⟨hc, hp⟩ := hentry
      exact (lookupStored_ends hlog hground hcall hf.tidy (hf.toAdvance.budget_le.trans hb) hc
        (hp.symm ▸ hto) hreach me).mono fun r l' s' hr => Outcome.after hf hr

end Lookup

/-! ## Enough fuel -/

section Fuel

variable {log : List DbEntry} (uuid : Nat → Str) (me : Nat) (env : Env) (ctx : Context) (m : Nat)

theorem Looks.mono {uuid : Nat → Str} {call : Str → Option Nat → Client (Int × Option Nat)} {m m' : Nat}
    {u : Str} {P : Local → Store → Prop} (h : Looks uuid log call m u P) (hm : m' ≤ m) :
    Looks uuid log call m' u P :=
  fun l s n pointer hl hb hP => h l s n pointer hl (hb.trans hm) hP

theorem eventually_succ {p : Nat → Prop} (h : ∀ᶠ fuel in Filter.atTop, p (fuel + 1)) :
    ∀ᶠ fuel in Filter.atTop, p fuel := by
  rw [← Filter.map_add_atTop_eq_nat 1, Filter.eventually_map]
  exact h

/-- The lookups of some paths end if the calls that they make do: the first `Put` that is refused
    makes the path ready, the next one is a setback. -/
theorem eventually_looks (hlog : (replay log).isSome = true)
    (hground : ∀ db, SnapshotOf log db → Grounded db.snapshot) {U : Str → Prop}
    (hcall : ∀ᶠ fuel in Filter.atTop, ∀ u, U u → Callees uuid log (lookup me env ctx fuel) m u)
    (hres : ∀ᶠ fuel in Filter.atTop, ∀ u, U u → ∀ db, SnapshotOf log db →
      ∃ res, toSystemPath db fuel u .LOOKUP = some res) :
    ∀ᶠ fuel in Filter.atTop, ∀ u, U u → Looks uuid log (lookup me env ctx fuel) m u Anywhere := by
  have hres' := (Filter.tendsto_add_atTop_nat 1).eventually hres
  have hready : ∀ᶠ fuel in Filter.atTop, ∀ u, U u →
      Looks uuid log (lookup me env ctx fuel) m u (Ready u) := by
    refine eventually_succ ?_
    filter_upwards [hcall, hres'] with fuel hc hr u hu
    exact lookup_ends hlog hground (hc u hu) (hr u hu) (Or.inl fun _ _ h => h)
  refine eventually_succ ?_
  filter_upwards [hcall, hres', hready] with fuel hc hr hd u hu
  exact lookup_ends hlog hground (hc u hu) (hr u hu) (Or.inr (hd u hu))

theorem cutParent_hardlinkKey (inode : Nat) : cutParent (hardlinkKey inode) = none := by
  unfold cutParent
  rw [Intercept.findLastSeparator_free ⟨not_mem_hardlinkKey rfl (by decide) inode,
    not_mem_hardlinkKey rfl (by decide) inode⟩]

/-- The lookups of hard link targets end. -/
theorem eventually_target (hlog : (replay log).isSome = true)
    (hground : ∀ db, SnapshotOf log db → Grounded db.snapshot) :
    ∀ᶠ fuel in Filter.atTop, ∀ inode,
      Looks uuid log (lookup me env ctx fuel) m (hardlinkKey inode) Anywhere := by
  have hres : ∀ᶠ fuel in Filter.atTop, ∀ u, (∃ inode, u = hardlinkKey inode) → ∀ db, SnapshotOf log db →
      ∃ res, toSystemPath db fuel u .LOOKUP = some res := by
    refine eventually_succ (Filter.Eventually.of_forall ?_)
    rintro fuel u ⟨inode, rfl⟩ db hdb
    obtain ⟨ts, h⟩ := toSystemPath_hardlinkKey (hground db hdb) inode fuel
    exact ⟨_, h⟩
  have hcall : ∀ {m}, (∀ᶠ fuel in Filter.atTop, ∀ m' < m, ∀ inode,
      Looks uuid log (lookup me env ctx fuel) m' (hardlinkKey inode) Anywhere) →
      ∀ᶠ fuel in Filter.atTop, ∀ inode,
        Looks uuid log (lookup me env ctx fuel) m (hardlinkKey inode) Anywhere := by
    intro m hlater
    have hall := eventually_looks uuid me env ctx m hlog hground
      (U := fun u => ∃ inode, u = hardlinkKey inode) ?_ hres
    · filter_upwards [hall] with fuel h inode
      exact h _ ⟨inode, rfl⟩
    · filter_upwards [hlater] with fuel h
      rintro _ ⟨inode, rfl⟩
      refine ⟨fun hne => absurd rfl (hne inode), fun path hcut => ?_, fun m' hm => h m' hm inode⟩
      rw [cutParent_hardlinkKey] at hcut
      cases hcut
  induction m with
  | zero => exact hcall (Filter.Eventually.of_forall fun _ m' hm => absurd hm (Nat.not_lt_zero m'))
  | succ m ih =>
    refine hcall ?_
    filter_upwards [ih] with fuel h m' hm inode
    exact (h inode).mono (Nat.le_of_lt_succ hm)

/-- Every lookup ends: induction on the number of setbacks, and on the path. -/
theorem eventually_lookup (hlog : (replay log).isSome = true)
    (hground : ∀ db, SnapshotOf log db → Grounded db.snapshot)
    (hres : ∀ db, SnapshotOf log db → ∀ u, ∃ res, ToSystemPath db u .LOOKUP res) (u : Str) :
    ∀ᶠ fuel in Filter.atTop, Looks uuid log (lookup me env ctx fuel) m u Anywhere := by
  have htarget : ∀ m, ∀ᶠ fuel in Filter.atTop, ∀ inode,
      Looks uuid log (lookup me env ctx fuel) m (hardlinkKey inode) Anywhere :=
    fun m => eventually_target uuid me env ctx m hlog hground
  -- one path, if the lookup of its parent ends, and its own after a setback
  have hstep : ∀ {m u}, (∀ path, cutParent u = some path → path ≠ u →
      ∀ᶠ fuel in Filter.atTop, Looks uuid log (lookup me env ctx fuel) m path Anywhere) →
      (∀ᶠ fuel in Filter.atTop, ∀ m' < m, Looks uuid log (lookup me env ctx fuel) m' u Anywhere) →
      ∀ᶠ fuel in Filter.atTop, Looks uuid log (lookup me env ctx fuel) m u Anywhere := by
    intro m u hparent hlater
    have hup : ∀ᶠ fuel in Filter.atTop, ∀ path, cutParent u = some path → path ≠ u →
        Looks uuid log (lookup me env ctx fuel) m path Anywhere := by
      cases hcut : cutParent u with
      | none => exact Filter.Eventually.of_forall fun _ path h => by cases h
      | some path =>
        by_cases hne : path = u
        · refine Filter.Eventually.of_forall fun _ path' h hne' => ?_
          cases h
          exact absurd hne hne'
        · filter_upwards [hparent path hcut hne] with fuel h path' hp _
          cases hp
          exact h
    have hall := eventually_looks uuid me env ctx m hlog hground
      (U := fun u' => u' = u) ?_ ?_
    · filter_upwards [hall] with fuel h
      exact h u rfl
    · filter_upwards [htarget m, hup, hlater] with fuel ht hp hl
      rintro _ rfl
      exact ⟨fun _ inode => ht inode, hp, hl⟩
    · filter_upwards [eventually_toSystemPath fun db hdb => hres db hdb u] with fuel h
      rintro _ rfl
      exact h
  induction m generalizing u with
  | zero =>
    induction hlen : u.length using Nat.strong_induction_on generalizing u with
    | _ k ih =>
      subst hlen
      refine hstep (fun path hcut hne => ih _ (cutParent_length hcut hne) path rfl) ?_
      exact Filter.Eventually.of_forall fun _ m' hm => absurd hm (Nat.not_lt_zero m')
  | succ m ihm =>
    induction hlen : u.length using Nat.strong_induction_on generalizing u with
    | _ k ih =>
      subst hlen
      refine hstep (fun path hcut hne => ih _ (cutParent_length hcut hne) path rfl) ?_
      filter_upwards [ihm u] with fuel h m' hm
      exact h.mono (Nat.le_of_lt_succ hm)

end Fuel

/-! ## The root directory out of date -/

section Unending

variable {uuid : Nat → Str} {env : Env} {ctx : Context} {me : Nat} {l : Local} {s : Store} {n a : Nat}
variable {Q : Int × Option Nat → Local → Store × Nat → Prop}

/-- Who asks for a blocked key waits for ever. -/
theorem cacheGet_free {key : Str} {Q : Option Nat → Local → Store × Nat → Prop}
    (h : Completes (quietStore uuid) (cacheGet key) Q l (s, n)) : l.blocked key = false := by
  have h := Completes.of_get_bind h
  cases hb : l.blocked key with
  | false => rfl
  | true =>
    rw [if_pos hb] at h
    exact absurd h id

/-- The cache entry need not have expired. -/
theorem cacheGet_stays {key : Str} {Q : Option Nat → Local → Store × Nat → Prop}
    (h : Completes (quietStore uuid) (cacheGet key) Q l (s, n)) (hc : l.lookupCache key = some a) :
    Q (some a) l (s, n) := by
  have hb := cacheGet_free h
  have h := Completes.of_get_bind h
  rw [if_neg (Bool.eq_false_iff.mp hb), hc] at h
  exact h.served (.expired false) false rfl

theorem cacheGet_expires {key : Str} {Q : Option Nat → Local → Store × Nat → Prop}
    (h : Completes (quietStore uuid) (cacheGet key) Q l (s, n + 1)) (hc : l.lookupCache key = some a) :
    Q none (l.setCache key none) (s, n) := by
  have hb := cacheGet_free h
  have h := Completes.of_get_bind h
  rw [if_neg (Bool.eq_false_iff.mp hb), hc] at h
  exact h.served (.expired true) true rfl

theorem cacheGet_misses {key : Str} {Q : Option Nat → Local → Store × Nat → Prop}
    (h : Completes (quietStore uuid) (cacheGet key) Q l (s, n)) (hc : l.lookupCache key = none) :
    Q none l (s, n) := by
  have hb := cacheGet_free h
  have h := Completes.of_get_bind h
  rw [if_neg (Bool.eq_false_iff.mp hb), hc] at h
  exact h

/-- The memory after a record was read into a new object. -/
def loaded (l : Local) (key : Str) (r : KineticRecord Inode) : Local :=
  (l.alloc key).setObject l.next ⟨key, r.version, r.value⟩

theorem loaded_heap (l : Local) (key : Str) (r : KineticRecord Inode) :
    (loaded l key r).heap l.next = ⟨key, r.version, r.value⟩ := by
  show ((l.alloc key).setObject _ _).heap l.next = _
  rw [Local.setObject_heap, if_pos rfl]

theorem load_reads {key : Str} {Q : Int → Local → Store × Nat → Prop}
    (h : Completes (quietStore uuid) (getMetadata me l.next) Q (l.alloc key) (s, n)) {r : KineticRecord Inode}
    (hr : s.metadata key = some r) : Q 0 (loaded l key r) (s, n) := by
  have h := Completes.of_get_bind h
  have hself : (l.alloc key).heap l.next = ⟨key, lit "0", Inode.empty⟩ := by simp
  rw [hself] at h
  have hserve : (quietStore uuid).serve (s, n) (.get me l.next key) .done = some (.ok r, (s, n)) := by
    refine limit_serves rfl ?_
    simp only [store, serve, Store.get, hr]
    rfl
  have hQ : Q 0 ((l.alloc key).setObject l.next
      ⟨((l.alloc key).heap l.next).systemPath, r.version, r.value⟩) (s, n) := h.served .done (.ok r) hserve
  rw [hself] at hQ
  exact hQ

/-- A record without an inode number leaves its key blocked. -/
theorem lookupStored_blocks {call : Str → Option Nat → Client (Int × Option Nat)} {u key : Str} {ts : Int}
    (h : Completes (quietStore uuid) (lookupStored me env ctx call u key ts) Q l (s, n))
    {r : KineticRecord Inode} (hr : s.metadata key = some r) (hn : r.value.inodeNumber = 0) :
    Q (-ENOENT, some l.next) ((loaded l key r).block key) (s, n) := by
  rw [lookupStored_eq] at h
  have h := load_reads (ends_of_newMetadataInfo_bind h).unbind hr
  rw [if_neg (by decide), if_neg (by decide)] at h
  have h := Completes.of_get_bind h
  rw [loaded_heap, if_pos hn] at h
  exact h

theorem lookupStored_finds {call : Str → Option Nat → Client (Int × Option Nat)} {u key : Str} {ts : Int}
    (h : Completes (quietStore uuid) (lookupStored me env ctx call u key ts) Q l (s, n))
    {r : KineticRecord Inode} (hr : s.metadata key = some r) (hn : r.value.inodeNumber ≠ 0) :
    Completes (quietStore uuid) (lookupFound me env ctx call u key ts l.next false) Q (loaded l key r) (s, n) := by
  rw [lookupStored_eq] at h
  have h := load_reads (ends_of_newMetadataInfo_bind h).unbind hr
  rw [if_neg (by decide), if_neg (by decide)] at h
  have h := Completes.of_get_bind h
  rw [loaded_heap, if_neg hn] at h
  exact h

theorem cutParent_root : cutParent root = some root := rfl

theorem checkStale_unending {call : Str → Option Nat → Client (Int × Option Nat)} {stamp : Nat}
    (hv : ¬ Verified stamp (l.heap a).md)
    (hcall : ∀ Q, ¬ Completes (quietStore uuid) (call root none) Q l (s, n)) :
    ¬ Completes (quietStore uuid) (checkStale me env ctx call root stamp a) Q l (s, n) := by
  intro h
  simp only [Verified, not_or] at hv
  have hstale : ((l.heap a).md.pathPermissionVerified : Int) < stamp := by omega
  have h := Completes.of_get_bind h
  rw [if_pos hstale] at h
  have h := h.unbind
  unfold lookupParentWith at h
  rw [cutParent_root] at h
  exact hcall _ h.unbind

theorem lookupFound_unending {call : Str → Option Nat → Client (Int × Option Nat)} {stamp : Nat} (cached : Bool)
    (hv : ¬ Verified stamp (l.heap a).md)
    (hcall : ∀ l', (l'.lookupCache root = some a ∧ l'.heap = l.heap ∧ l'.pmap = l.pmap) →
      ∀ Q, ¬ Completes (quietStore uuid) (call root none) Q l' (s, n))
    (hc : l.lookupCache root = if cached then some a else none) :
    ¬ Completes (quietStore uuid) (lookupFound me env ctx call root root stamp a cached) Q l (s, n) := by
  intro h
  have hv' := hv
  simp only [Verified, not_or] at hv'
  obtain ⟨hn, hS, hF, -⟩ := hv'
  have h := Completes.of_get_bind h
  rw [if_neg hn] at h
  have hcheck : Completes (quietStore uuid) (do
      if ¬ cached then cacheAdd root a
      checkStale me env ctx call root stamp a : Client (Int × Option Nat)) Q l (s, n) := by
    revert h
    cases htype : (l.heap a).md.type with
    | HARDLINK_S => exact absurd htype hS
    | FORCE_UPDATE => exact absurd htype hF
    | POSIX => exact id
    | HARDLINK_T => exact id
  cases cached with
  | true => exact checkStale_unending hv (hcall l ⟨hc, rfl, rfl⟩) hcheck
  | false =>
    have hadd := Completes.of_get_bind
      (hcheck.unbind : Completes (quietStore uuid) (cacheAdd root a) _ l (s, n))
    rw [hc] at hadd
    exact checkStale_unending (l := l.setCache root (some a)) hv (hcall _ ⟨by simp, rfl, rfl⟩) hadd

/-- With `/` out of date in the cache, its lookup looks it up again. -/
theorem lookup_unending (hg : Grounded l.pmap.snapshot) (hc : l.lookupCache root = some a)
    (hv : ¬ Verified (stampOf l.pmap.snapshot root) (l.heap a).md) (fuel : Nat) (pointer : Option Nat) :
    ¬ Completes (quietStore uuid) (lookup me env ctx fuel root pointer) Q l (s, n) := by
  induction fuel generalizing l pointer Q with
  | zero => exact id
  | succ fuel ih =>
    intro h
    have h := Completes.of_get_bind h
    rw [toSystemPath_root hg rfl] at h
    dsimp only at h
    rw [if_neg (by omega)] at h
    refine lookupFound_unending true hv ?_ hc (cacheGet_stays h.unbind hc)
    rintro l' ⟨hc', hheap, hp⟩ Q'
    refine ih (hp ▸ hg) hc' ?_ none
    rw [hp, hheap]
    exact hv

/-- It may also read `/` out of date. -/
theorem lookupStored_unending (hg : Grounded l.pmap.snapshot) (hc : l.lookupCache root = none)
    {r : KineticRecord Inode} (hr : s.metadata root = some r)
    (hv : ¬ Verified (stampOf l.pmap.snapshot root) r.value) (fuel : Nat) :
    ¬ Completes (quietStore uuid) (lookupStored me env ctx (lookup me env ctx fuel) root root
      (stampOf l.pmap.snapshot root)) Q l (s, n) := by
  intro h
  have hn : r.value.inodeNumber ≠ 0 := fun h0 => hv (Or.inl h0)
  have hv1 : ¬ Verified (stampOf l.pmap.snapshot root) ((loaded l root r).heap l.next).md := by
    rw [loaded_heap]
    exact hv
  refine lookupFound_unending false hv1 ?_ hc (lookupStored_finds h hr hn)
  rintro l' ⟨hc', hheap, hp⟩ Q'
  have hp' : l'.pmap = l.pmap := hp
  refine lookup_unending (hp' ▸ hg) hc' ?_ fuel none
  rw [hp', hheap]
  exact hv1

theorem lookup_root_stored (hg : Grounded l.pmap.snapshot) {r : KineticRecord Inode}
    (hr : s.metadata root = some r) (hv : ¬ Verified (stampOf l.pmap.snapshot root) r.value) (fuel : Nat)
    (pointer : Option Nat) :
    ¬ Completes (quietStore uuid) (lookup me env ctx fuel root pointer) Q l (s, 1) := by
  intro h
  cases fuel with
  | zero => exact h
  | succ fuel =>
    have h := Completes.of_get_bind h
    rw [toSystemPath_root hg rfl] at h
    dsimp only at h
    rw [if_neg (by omega)] at h
    cases hc : l.lookupCache root with
    | none => exact lookupStored_unending hg hc hr hv fuel (cacheGet_misses h.unbind hc)
    | some a =>
      refine lookupStored_unending (l := l.setCache root none) hg ?_ hr hv fuel (cacheGet_expires h.unbind hc)
      simp

/-- A lookup that ends does not ask for a blocked key. -/
theorem free_of_ends {fuel : Nat} {u key : Str} {ts : Int} {pointer : Option Nat}
    (h : Completes (quietStore uuid) (lookup me env ctx fuel u pointer) Q l (s, n))
    (hpath : ToSystemPath l.pmap u .LOOKUP (key, ts)) (hts : 0 ≤ ts) : l.blocked key = false := by
  cases fuel with
  | zero => exact absurd h id
  | succ fuel =>
    have h := Completes.of_get_bind h
    cases hp : toSystemPath l.pmap (fuel + 1) u .LOOKUP with
    | none =>
      rw [hp] at h
      exact absurd h id
    | some res =>
      obtain rfl : res = (key, ts) := ToSystemPath.det ⟨fuel + 1, hp⟩ hpath
      rw [hp] at h
      dsimp only at h
      rw [if_neg (Int.not_lt.mpr hts)] at h
      exact cacheGet_free h.unbind

/-- The lookup of a record without an inode number leaves its key blocked, if it reads the record. -/
theorem lookup_blocks {fuel : Nat} {u key : Str} {ts : Int} {pointer : Option Nat}
    (h : Completes (quietStore uuid) (lookup me env ctx fuel u pointer) Q l (s, 1))
    (hpath : ToSystemPath l.pmap u .LOOKUP (key, ts)) (hts : 0 ≤ ts) {r : KineticRecord Inode}
    (hr : s.metadata key = some r) (hn : r.value.inodeNumber = 0) :
    ∃ x l' n', l'.pmap = l.pmap ∧ l'.blocked key = true ∧ Q x l' (s, n') := by
  have hblock : ∀ l1 : Local, (l1.block key).blocked key = true := fun l1 => Function.update_self _ _ _
  cases fuel with
  | zero => exact absurd h id
  | succ fuel =>
    have h := Completes.of_get_bind h
    cases hp : toSystemPath l.pmap (fuel + 1) u .LOOKUP with
    | none =>
      rw [hp] at h
      exact absurd h id
    | some res =>
      obtain rfl : res = (key, ts) := ToSystemPath.det ⟨fuel + 1, hp⟩ hpath
      rw [hp] at h
      dsimp only at h
      rw [if_neg (Int.not_lt.mpr hts)] at h
      cases hc : l.lookupCache key with
      | none =>
        have hQ := lookupStored_blocks (cacheGet_misses h.unbind hc) hr hn
        exact ⟨_, (loaded l key r).block key, _, rfl, hblock _, hQ⟩
      | some a =>
        have hQ := lookupStored_blocks (cacheGet_expires h.unbind hc) hr hn
        exact ⟨_, (loaded (l.setCache key none) key r).block key, _, rfl, hblock _, hQ⟩

/-- A lookup that ends resolves its path. -/
theorem resolves_of_ends {fuel : Nat} {u : Str} {pointer : Option Nat}
    (h : Completes (quietStore uuid) (lookup me env ctx fuel u pointer) Q l (s, n)) :
    ∃ res, ToSystemPath l.pmap u .LOOKUP res := by
  cases fuel with
  | zero => exact absurd h id
  | succ fuel =>
    have h := Completes.of_get_bind h
    cases hp : toSystemPath l.pmap (fuel + 1) u .LOOKUP with
    | none =>
      rw [hp] at h
      exact absurd h id
    | some res => exact ⟨res, fuel + 1, hp⟩

end Unending

/-! ## When all lookups end -/

/-- Lookups one after the other, each with its caller, path and pointer. -/
def lookups (me : Nat) (env : Env) (fuel : Nat) : List (Context × Str × Option Nat) → Client Unit
  | [] => return ()
  | (ctx, userPath, pointer) :: rest => do
      let _ ← lookup me env ctx fuel userPath pointer
      lookups me env fuel rest

/-- What clients leave in the store and what a client keeps in its cache. The log can be replayed, the
    cache holds objects under their own keys, and the target of a hard link is no further link. -/
structure Consistent (l : Local) (s : Store) : Prop where
  proper : ∀ entry ∈ s.log, entry.Proper
  replays : (replay s.log).isSome = true
  cached : ∀ key a, l.lookupCache key = some a → a < l.next ∧ (l.heap a).systemPath = key
  targetStored : ∀ inode r, s.metadata (hardlinkKey inode) = some r → r.value.type ≠ .HARDLINK_S
  targetCached : ∀ inode a, l.lookupCache (hardlinkKey inode) = some a → (l.heap a).md.type ≠ .HARDLINK_S

/-- The root directory is not out of date, neither in the store nor in the cache. -/
def RootVerified (db : PathMapDB) (l : Local) (s : Store) : Prop :=
  (∀ r, s.metadata root = some r → Verified (stampOf db.snapshot root) r.value) ∧
    ∀ a, l.lookupCache root = some a → Verified (stampOf db.snapshot root) (l.heap a).md

/-- No path leads to a blocked key, or to a record without an inode number. -/
def Unblocked (db : PathMapDB) (l : Local) (s : Store) : Prop :=
  ∀ userPath key ts, ToSystemPath db userPath .LOOKUP (key, ts) → 0 ≤ ts →
    l.blocked key = false ∧ ∀ r, s.metadata key = some r → r.value.inodeNumber ≠ 0

section Main

variable {l : Local} {s : Store}

theorem Consistent.grounded (h : Consistent l s) {db : PathMapDB} (hdb : SnapshotOf s.log db) :
    Grounded db.snapshot := hdb.grounded h.proper

theorem Consistent.tidy (h : Consistent l s) (hroot : ∀ db, SnapshotOf s.log db → RootVerified db l s)
    (hunblocked : ∀ db, SnapshotOf s.log db → Unblocked db l s) {db : PathMapDB} (hdb : SnapshotOf s.log db) :
    Tidy s.log { l with pmap := db } s where
  log_eq := rfl
  pmap := hdb
  cached key a hk := by
    obtain ⟨ha, hkey⟩ := h.cached key a hk
    refine ⟨ha, hkey, fun inode he => ?_, fun he db hdb => ?_⟩
    · exact h.targetCached inode a (he ▸ hk)
    · exact (hroot db hdb).2 a (he ▸ hk)
  stored key r hk :=
    ⟨fun inode he => h.targetStored inode r (he ▸ hk), fun he db hdb => (hroot db hdb).1 r (he ▸ hk)⟩
  free := by
    rintro key ⟨db, userPath, ts, hdb, hpath, hts⟩
    exact (hunblocked db hdb userPath key ts hpath hts).1
  numbered := by
    rintro key r ⟨db, userPath, ts, hdb, hpath, hts⟩
    exact (hunblocked db hdb userPath key ts hpath hts).2 r

/-- Lookups that end one by one, wherever they are set back at most `m` times, end one after the other. -/
theorem lookups_ends {uuid : Nat → Str} {log : List DbEntry} {me fuel m n : Nat} {env : Env}
    {calls : List (Context × Str × Option Nat)}
    (hcalls : ∀ x ∈ calls, Looks uuid log (lookup me env x.1 fuel) m x.2.1 Anywhere) (hl : Tidy log l s)
    (hb : budget log l n ≤ m) :
    Completes (quietStore uuid) (lookups me env fuel calls) (fun _ _ _ => True) l (s, n) := by
  induction calls generalizing l s n with
  | nil => exact Completes.pure trivial
  | cons x calls ih =>
    refine Completes.then (hcalls x List.mem_cons_self l s n x.2.2 hl hb trivial) ?_
    rintro _ l1 ⟨s1, n1⟩ hout
    exact ih (fun y hy => hcalls y (List.mem_cons_of_mem _ hy)) hout.advance.tidy
      (hout.advance.budget_le.trans hb)

/-- All lookups that a client makes, one after the other, end, on every snapshot of the log and with any
    number of cache entries that expire, if and only if `toSystemPath` ends for every path, the path
    permissions of `/` were verified after the last change of its permissions, and no path leads to a
    blocked key or to a record without an inode number. -/
theorem lookup_terminates_iff (h : Consistent l s) (uuid : Nat → Str) (me : Nat) (env : Env) :
    (∀ db, SnapshotOf s.log db → ∀ calls n, ∃ bound, ∀ fuel, bound ≤ fuel →
      Completes (quietStore uuid) (lookups me env fuel calls) (fun _ _ _ => True)
        { l with pmap := db } (s, n)) ↔
    ∀ db, SnapshotOf s.log db →
      (∀ userPath, ∃ res, ToSystemPath db userPath .LOOKUP res) ∧ RootVerified db l s ∧ Unblocked db l s := by
  constructor
  · intro hall db hdb
    have hg := h.grounded hdb
    have hone : ∀ userPath n, ∃ fuel, Completes (quietStore uuid)
        (lookup me env ⟨0, 0⟩ fuel userPath none) (fun _ _ _ => True) { l with pmap := db } (s, n) := by
      intro userPath n
      obtain ⟨bound, hends⟩ := hall db hdb [(⟨0, 0⟩, userPath, none)] n
      exact ⟨bound, (hends bound (Nat.le_refl _)).unbind.mono fun _ _ _ _ => trivial⟩
    refine ⟨fun userPath => ?_, ⟨fun r hr => ?_, fun a ha => ?_⟩,
      fun userPath key ts hpath hts => ⟨?_, fun r hr => ?_⟩⟩
    · obtain ⟨fuel, hends⟩ := hone userPath 0
      exact resolves_of_ends hends
    · by_contra hv
      obtain ⟨fuel, hends⟩ := hone root 1
      exact lookup_root_stored (l := { l with pmap := db }) hg hr hv fuel none hends
    · by_contra hv
      obtain ⟨fuel, hends⟩ := hone root 0
      exact lookup_unending (l := { l with pmap := db }) hg ha hv fuel none hends
    · obtain ⟨fuel, hends⟩ := hone userPath 0
      exact free_of_ends (l := { l with pmap := db }) hends hpath hts
    · -- the second lookup waits for the key that the first one has blocked
      intro hn
      obtain ⟨bound, hends⟩ := hall db hdb [(⟨0, 0⟩, userPath, none), (⟨0, 0⟩, userPath, none)] 1
      have hends := (hends bound (Nat.le_refl _)).unbind
      obtain ⟨x, l', n', hp, hb, hsecond⟩ := lookup_blocks (l := { l with pmap := db }) hends hpath hts hr hn
      have hpath' : ToSystemPath l'.pmap userPath .LOOKUP (key, ts) := by
        rw [hp]
        exact hpath
      have hfree := free_of_ends hsecond.unbind hpath' hts
      rw [hb] at hfree
      cases hfree
  · intro hall db hdb calls n
    have hlooks : ∀ᶠ fuel in Filter.atTop, ∀ x ∈ calls.toFinset,
        Looks uuid s.log (lookup me env x.1 fuel) (budget s.log { l with pmap := db } n) x.2.1 Anywhere :=
      (Filter.eventually_all_finset _).mpr fun x _ => eventually_lookup uuid me env x.1 _ h.replays
        (fun db hdb => h.grounded hdb) (fun db hdb => (hall db hdb).1) x.2.1
    obtain ⟨bound, hbound⟩ := Filter.eventually_atTop.mp hlooks
    refine ⟨bound, fun fuel hfuel => lookups_ends (fun x hx => hbound fuel hfuel x ?_) ?_ (Nat.le_refl _)⟩
    · exact List.mem_toFinset.mpr hx
    · exact h.tidy (fun db hdb => (hall db hdb).2.1) (fun db hdb => (hall db hdb).2.2) hdb

end Main

/-! ## A permission change of the root directory -/

/-- Another client changes the mode of `/`. -/
def chmodRoot (i : Nat) : List Action := if i = 0 then [.chmod superuser root (S_IFDIR ||| 0o700)] else []

/-- The root directory after `chmod 700 /`. -/
def privateRoot : Inode :=
  { (Inode.computePathPermissionChildren posix { rootDirectory with mode := S_IFDIR ||| 0o700 }).1 with
    pathPermissionVerified := 1 }

/-- The store after `chmod 700 /`. -/
def afterChmod : Store :=
  { (Store.mkfs counter).set root (some ⟨privateRoot, counter 2⟩) with
    log := [⟨.NONE, root, []⟩]
    uuids := 3 }

theorem snapshotOf_change {db : PathMapDB} (h : SnapshotOf [⟨.NONE, root, []⟩] db) :
    db = .empty ∨ db = addPermissionChange .empty root := by
  obtain ⟨entries, hpre, hreplay⟩ := h
  rcases List.prefix_cons_iff.mp hpre with rfl | ⟨rest, rfl, hrest⟩
  · exact Or.inl (Option.some.inj hreplay).symm
  · rw [List.prefix_nil.mp hrest] at hreplay
    exact Or.inr (Option.some.inj hreplay).symm

theorem afterChmod_numbered {key : Str} {r : KineticRecord Inode} (h : afterChmod.metadata key = some r) :
    r.value.inodeNumber = 1 := by
  by_cases hkey : key = root
  · subst hkey
    cases h
    rfl
  · simp [afterChmod, Store.mkfs, hkey] at h

/-- After `chmod 700 /` a client that has the new snapshot looks up `/a` twice, and the lookups end. -/
theorem lookup_terminates_after_chmod : Consistent (Local.mounted .empty) afterChmod ∧ ∃ bound,
    ∀ fuel, bound ≤ fuel → Completes (quietStore counter)
      (lookups 1 posix fuel [(superuser, root ++ lit "a", none), (superuser, root ++ lit "a", none)])
      (fun _ _ _ => True) { Local.mounted .empty with pmap := addPermissionChange .empty root }
      (afterChmod, 1) := by
  have hconsistent : Consistent (Local.mounted .empty) afterChmod := by
    refine ⟨?_, by decide, fun key a h => (by cases h), fun inode r h => ?_, fun inode a h => (by cases h)⟩
    · intro entry hentry
      obtain rfl := List.mem_singleton.mp hentry
      exact ⟨by decide, fun h => (by cases h), fun h => (by cases h)⟩
    · have hne : hardlinkKey inode ≠ root := by simp [hardlinkKey, lit, root]
      simp [afterChmod, Store.mkfs, hne] at h
  have hdb : SnapshotOf afterChmod.log (addPermissionChange .empty root) :=
    ⟨afterChmod.log, List.prefix_refl _, rfl⟩
  have hunblocked : ∀ db, Unblocked db (Local.mounted .empty) afterChmod := by
    refine fun db userPath key ts _ _ => ⟨rfl, fun r hr => ?_⟩
    rw [afterChmod_numbered hr]
    decide
  refine ⟨hconsistent, (lookup_terminates_iff hconsistent counter 1 posix).mpr
    (fun db hdb => ?_) _ hdb _ 1⟩
  rcases snapshotOf_change hdb with rfl | rfl
  · have hinv : LoopInv PathMapDB.empty.snapshot := loopInv_empty
    refine ⟨fun userPath => hinv.toSystemPath userPath .LOOKUP, ⟨fun r hr => ?_, fun a h => (by cases h)⟩,
      hunblocked _⟩
    cases hr
    decide
  · have hempty : LoopInv PathMapDB.empty.snapshot := loopInv_empty
    have hinv : LoopInv (addPermissionChange .empty root).snapshot := hempty.addPermissionChange (by decide)
    refine ⟨fun userPath => hinv.toSystemPath userPath .LOOKUP, ⟨fun r hr => ?_, fun a h => (by cases h)⟩,
      hunblocked _⟩
    cases hr
    decide

/-- A client crashes in `chmod 700 /`, after it has noted the change in the database and before it
    stores the root directory again. Any client that has the new snapshot looks up `/` for ever. -/
theorem lookup_unending_after_crash : ¬ ∀ (env : Env) (fuel : Nat) (todo : Nat → List Action)
    (schedule : List (Nat × Choice)) (c : Config Req Res Store Nat (List Int × Local)),
    runFrom (store counter) (actors env fuel todo (fun _ => PathMapDB.empty) (Store.mkfs counter)) schedule =
      some c → ∀ db, SnapshotOf c.shared.log db → ∀ ctx userPath pointer n, ∃ bound, ∀ fuel, bound ≤ fuel →
        Completes (quietStore counter) (lookup 1 env ctx fuel userPath pointer) (fun _ _ _ => True)
          (Local.mounted db) (c.shared, n) := by
  intro h
  have hrun : ((runFrom (store counter)
      (actors posix 5 chmodRoot (fun _ => PathMapDB.empty) (Store.mkfs counter))
      [(0, .done), (0, .done), (0, .done)]).any fun c => c.shared.log = [⟨.NONE, root, []⟩] ∧
        (c.shared.metadata root).any fun r => ¬ Verified 1 r.value) = true := by decide +kernel
  obtain ⟨c, hc, hresults⟩ := (Option.any_eq_true _ _).mp hrun
  obtain ⟨hlog, hroot⟩ := of_decide_eq_true hresults
  obtain ⟨r, hr, hv⟩ := (Option.any_eq_true _ _).mp hroot
  have hdb : SnapshotOf c.shared.log (addPermissionChange .empty root) :=
    ⟨c.shared.log, List.prefix_refl _, by rw [hlog]; rfl⟩
  have hempty : Grounded PathMapDB.empty.snapshot := grounded_empty
  have hg : Grounded (addPermissionChange .empty root).snapshot := hempty.addPermissionChange (by decide)
  obtain ⟨bound, hends⟩ := h posix 5 chmodRoot _ c hc _ hdb superuser root none 1
  have hstamp : stampOf (addPermissionChange .empty root).snapshot root = 1 := by decide
  refine lookup_root_stored (l := Local.mounted (addPermissionChange .empty root)) hg hr ?_ bound none
    (hends bound (Nat.le_refl _))
  show ¬ Verified (stampOf (addPermissionChange .empty root).snapshot root) r.value
  rw [hstamp]
  exact of_decide_eq_true hv

end HFlat.Fuse.Termination
