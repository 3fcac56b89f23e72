/-
  `lookup` in a file system without renames and links. The cache mirrors the stored metadata
  (`Mirrors`), so a lookup returns the stored record; it changes at most records at or above the
  path, and of these only the inherited path permissions (`Touches`). A lookup of an existing path
  ends with the final check, on a record that is verified up to every change above it (`Found`).
-/
import HFlat.Permission.Inherit

namespace HFlat.Permission

open HFlat.Lib HFlat.PathMap HFlat.Replication

/-! ## System paths -/

/-- A user path whose directories, as `lookup_parent` cuts them, are the directories above its
    system path. Paths without `:` are, and those that the interception library writes. -/
inductive Hierarchical : Str → Prop
  | root {u : Str} (h : iointercept u = root) : Hierarchical u
  | child {u v : Str} (hcut : cutParent u = some v)
      (hdir : iointercept v = parentPath (iointercept u)) (hv : Hierarchical v) : Hierarchical u

/-- What `toSystemPath` returns when no path is mapped. -/
theorem toSystemPath_unmapped {t : Records} {db : PathMapDB} (h : PathInv t db) {u p : Str}
    (hu : iointercept u = p) (n : Nat) :
    ∃ ts, toSystemPath db (n + 1) u .LOOKUP = some (p, ts) ∧
      (ts = -ENAMETOOLONG ∧ ¬ (NamesFit p ∧ p.length ≤ PATH_MAX) ∨
        0 ≤ ts ∧ NamesFit p ∧ p.length ≤ PATH_MAX ∧
          (∀ k, Under k p → (stampOf db.snapshot k : Int) ≤ ts) ∧
          ∀ bound : Nat, (∀ k, Under k p → stampOf db.snapshot k ≤ bound) → ts ≤ bound) := by
  unfold toSystemPath
  simp only [hu]
  split
  · rename_i hlong
    exact ⟨_, rfl, Or.inl ⟨rfl, fun hfit => by omega⟩⟩
  · rename_i hlen
    have hnone : ∀ k, Under k p → ¬ Follows db.snapshot true false p k := by
      intro k _ hk
      unfold Follows found at hk
      cases hf : db.snapshot.find k with
      | none => simp [hf] at hk
      | some e => simp [hf, remaps, (h.snapshot k e hf).1] at hk
    obtain ⟨q, ts, hs⟩ := search_of_no_hit (le_refl 0) hnone
    refine ⟨ts, by simp [toSystemPathLoop, hs], ?_⟩
    have hbound : ∀ bound : Nat, (∀ k, Under k p → stampOf db.snapshot k ≤ bound) →
        ts = -ENAMETOOLONG ∨ 0 ≤ ts ∧ ts ≤ bound :=
      fun bound hb => search_le (by omega) (fun k hk => by exact_mod_cast hb k hk) hs
    have hversion : ∀ k, Under k p → stampOf db.snapshot k ≤ db.snapshotVersion := by
      intro k _
      unfold stampOf
      cases hf : db.snapshot.find k with
      | none => simp
      | some e => simpa using (h.snapshot k e hf).2.1
    by_cases hfit : NamesFit p
    · obtain ⟨-, h0, hstamp⟩ := search_false (le_refl 0) hfit hs
      refine Or.inr ⟨h0, hfit, by omega, hstamp, fun bound hb => ?_⟩
      rcases hbound bound hb with he | ⟨-, hle⟩
      · rw [he] at h0
        exact absurd h0 (by decide)
      · exact hle
    · refine Or.inl ⟨?_, fun hx => hfit hx.1⟩
      rcases hbound _ hversion with he | ⟨h0, -⟩
      · exact he
      · refine absurd (search_namesFit (fun k hk => ?_) h0 hs) hfit
        obtain ⟨e, he⟩ := Option.ne_none_iff_exists'.mp hk
        obtain ⟨md, hmd⟩ := Option.ne_none_iff_exists'.mp (h.snapshot k e he).2.2.2
        exact (h.record k md hmd).namesFit

/-! ## The client's memory -/

/-- The metadata of each key. -/
def FS.records (fs : FS) : Records := fun k => (fs.store k).map KineticRecord.value

/-- The object at address `x` is the stored record of `k`, or stands for its absence. -/
def Mirrors (fs : FS) (k : Str) (x : Nat) : Prop :=
  (fs.heap x).systemPath = k ∧
    match fs.store k with
    | none => (fs.heap x).md = Metadata.empty
    | some r => (fs.heap x).keyVersion = r.version ∧ (fs.heap x).md = r.value

/-- The invariant of a client: the stored tree, a cache that mirrors it, and an inode number token. -/
structure FsInv (fs : FS) : Prop where
  paths : PathInv fs.records fs.pmap
  cached : ∀ k x, fs.lookupCache k = some x → x < fs.next ∧ Mirrors fs k x
  token : 0 < fs.inumToken

/-- `k` is `p` or a directory above it. -/
def AtOrAbove (k p : Str) : Prop := k = p ∨ Above k p

/-- What a lookup of `p` may change: the path permissions of records at or above `p`, with their
    objects. Other cache entries may disappear. -/
structure Touches (p : Str) (fs fs' : FS) : Prop where
  pmap : fs'.pmap = fs.pmap
  token : fs'.inumToken = fs.inumToken
  next : fs.next ≤ fs'.next
  store : ∀ k, ¬ AtOrAbove k p → fs'.store k = fs.store k
  heap : ∀ x, x < fs.next → ¬ AtOrAbove (fs.heap x).systemPath p → fs'.heap x = fs.heap x
  cache : ∀ k x, ¬ AtOrAbove k p → fs'.lookupCache k = some x → fs.lookupCache k = some x
  attributes : ∀ k md', fs'.records k = some md' → ∃ md, fs.records k = some md ∧
    md'.type = md.type ∧ md'.uid = md.uid ∧ md'.gid = md.gid ∧ md'.mode = md.mode ∧
    md'.inodeNumber = md.inodeNumber
  exists_iff : ∀ k, fs'.store k = none ↔ fs.store k = none

section Memory

variable {env : Env} {fs fs' fs'' : FS} {p : Str}

theorem touches_refl (p : Str) (fs : FS) : Touches p fs fs :=
  ⟨rfl, rfl, le_refl _, fun _ _ => rfl, fun _ _ _ => rfl, fun _ _ _ h => h,
    fun _ md h => ⟨md, h, rfl, rfl, rfl, rfl, rfl⟩, fun _ => Iff.rfl⟩

theorem Touches.mono {q : Str} (h : Touches q fs fs') (hq : Above q p) : Touches p fs fs' := by
  have hup : ∀ k, ¬ AtOrAbove k p → ¬ AtOrAbove k q := by
    intro k hk hkq
    rcases hkq with rfl | hkq
    · exact hk (Or.inr hq)
    · exact hk (Or.inr (hkq.trans hq))
  exact ⟨h.pmap, h.token, h.next, fun k hk => h.store k (hup k hk),
    fun x hx hk => h.heap x hx (hup _ hk), fun k x hk => h.cache k x (hup k hk), h.attributes,
    h.exists_iff⟩

theorem Touches.trans (h : Touches p fs fs') (h' : Touches p fs' fs'') : Touches p fs fs'' := by
  refine ⟨h'.pmap.trans h.pmap, h'.token.trans h.token, h.next.trans h'.next,
    fun k hk => (h'.store k hk).trans (h.store k hk), fun x hx hk => ?_,
    fun k x hk hx => h.cache k x hk (h'.cache k x hk hx), fun k md'' h2 => ?_,
    fun k => (h'.exists_iff k).trans (h.exists_iff k)⟩
  · have h1 := h.heap x hx hk
    rw [← h1] at hk
    rw [h'.heap x (lt_of_lt_of_le hx h.next) hk, h1]
  · obtain ⟨md', h1, a1, a2, a3, a4, a5⟩ := h'.attributes k md'' h2
    obtain ⟨md, h0, b1, b2, b3, b4, b5⟩ := h.attributes k md' h1
    exact ⟨md, h0, a1.trans b1, a2.trans b2, a3.trans b3, a4.trans b4, a5.trans b5⟩

/-- Cache entries may be dropped at any access. -/
theorem FsInv.dropped (h : FsInv fs) (env : Env) : FsInv (fs.dropped env) := by
  refine ⟨h.paths, fun k x hx => ?_, h.token⟩
  simp only [FS.dropped] at hx
  split at hx
  · cases hx
  · exact h.cached k x hx

theorem touches_dropped (p : Str) (fs : FS) (env : Env) : Touches p fs (fs.dropped env) := by
  refine ⟨rfl, rfl, le_refl _, fun _ _ => rfl, fun _ _ _ => rfl, fun k x _ hx => ?_,
    fun _ md h => ⟨md, h, rfl, rfl, rfl, rfl, rfl⟩, fun _ => Iff.rfl⟩
  simp only [FS.dropped] at hx
  split at hx
  · cases hx
  · exact hx

theorem alloc_heap_of_lt {x : Nat} (hx : x < fs.next) (key : Str) :
    (fs.alloc key).heap x = fs.heap x :=
  Function.update_of_ne (by omega) _ _

theorem FsInv.alloc (h : FsInv fs) (key : Str) : FsInv (fs.alloc key) := by
  refine ⟨h.paths, fun k x hx => ?_, h.token⟩
  obtain ⟨hlt, hm⟩ := h.cached k x hx
  refine ⟨Nat.lt_succ_of_lt hlt, ?_⟩
  unfold Mirrors at hm ⊢
  rw [alloc_heap_of_lt hlt]
  exact hm

theorem touches_alloc (p key : Str) (fs : FS) : Touches p fs (fs.alloc key) :=
  ⟨rfl, rfl, Nat.le_succ _, fun _ _ => rfl, fun _ hx _ => alloc_heap_of_lt hx key,
    fun _ _ _ h => h, fun _ md h => ⟨md, h, rfl, rfl, rfl, rfl, rfl⟩, fun _ => Iff.rfl⟩

theorem FsInv.setCache (h : FsInv fs) {k : Str} {x : Nat} (hx : x < fs.next) (hm : Mirrors fs k x) :
    FsInv (fs.setCache k (some x)) := by
  refine ⟨h.paths, fun k' y hy => ?_, h.token⟩
  by_cases hk : k' = k
  · subst hk
    simp only [FS.setCache, Function.update_self, Option.some.injEq] at hy
    rw [← hy]
    exact ⟨hx, hm⟩
  · exact h.cached k' y ((Function.update_of_ne hk _ _).symm.trans hy)

theorem touches_setCache (p : Str) (fs : FS) (x : Option Nat) : Touches p fs (fs.setCache p x) := by
  refine ⟨rfl, rfl, le_refl _, fun _ _ => rfl, fun _ _ _ => rfl, fun k y hk hy => ?_,
    fun _ md h => ⟨md, h, rfl, rfl, rfl, rfl, rfl⟩, fun _ => Iff.rfl⟩
  have hne : k ≠ p := fun he => hk (Or.inl he)
  exact (Function.update_of_ne hne _ _).symm.trans hy

/-- The object at `x` and the record of `p` become `md` with a new version. -/
def FS.written (fs : FS) (p : Str) (x : Nat) (md : Metadata) (version : Str) : FS :=
  { fs with
    store := Function.update fs.store p (some ⟨md, version⟩)
    heap := Function.update fs.heap x ⟨p, version, md⟩
    uuids := fs.uuids + 1 }

theorem Mirrors.object {k : Str} {x : Nat} {r : KineticRecord Metadata} (h : Mirrors fs k x)
    (hr : fs.store k = some r) : fs.heap x = ⟨k, r.version, r.value⟩ := by
  obtain ⟨h1, h2⟩ := h
  rw [hr] at h2
  rw [← h1, ← h2.1, ← h2.2]

/-- In `fs'` the record of `p` and its object at `x` are `md`; the rest of the records, objects and
    cache entries is that of `fs`. -/
structure Writes (fs : FS) (p : Str) (x : Nat) (md : Metadata) (version : Str) (fs' : FS) : Prop where
  store : fs'.store = Function.update fs.store p (some ⟨md, version⟩)
  heap : fs'.heap = Function.update fs.heap x ⟨p, version, md⟩
  next : fs'.next = fs.next
  cache : fs'.lookupCache = fs.lookupCache

theorem writes_written (fs : FS) (p : Str) (x : Nat) (md : Metadata) (version : Str) :
    Writes fs p x md version (fs.written p x md version) := ⟨rfl, rfl, rfl, rfl⟩

theorem Writes.trans {x : Nat} {md md' : Metadata} {version version' : Str}
    (h : Writes fs p x md version fs') (h' : Writes fs' p x md' version' fs'') :
    Writes fs p x md' version' fs'' := by
  refine ⟨?_, ?_, h'.next.trans h.next, h'.cache.trans h.cache⟩
  · rw [h'.store, h.store, Function.update_idem]
  · rw [h'.heap, h.heap, Function.update_idem]

theorem Writes.records {x : Nat} {md : Metadata} {version : Str} (h : Writes fs p x md version fs') :
    fs'.records = Function.update fs.records p (some md) := by
  funext k
  unfold FS.records
  rw [h.store]
  by_cases hk : k = p
  · subst hk
    rw [Function.update_self, Function.update_self]
    rfl
  · rw [Function.update_of_ne hk, Function.update_of_ne hk]

/-- A write through the only object of a key. -/
theorem FsInv.write (hi : FsInv fs) {x : Nat} {md : Metadata} {version : Str}
    (h : Writes fs p x md version fs') (hpath : (fs.heap x).systemPath = p)
    (howner : ∀ y, fs.lookupCache p = some y → y = x) (htoken : 0 < fs'.inumToken)
    (hpaths : PathInv (Function.update fs.records p (some md)) fs'.pmap) : FsInv fs' := by
  refine ⟨by rw [h.records]; exact hpaths, fun k y hy => ?_, htoken⟩
  rw [h.cache] at hy
  obtain ⟨hlt, hm⟩ := hi.cached k y hy
  refine ⟨by rw [h.next]; exact hlt, ?_⟩
  unfold Mirrors
  rw [h.store, h.heap]
  by_cases hk : k = p
  · subst hk
    rw [howner y hy, Function.update_self, Function.update_self]
    exact ⟨rfl, rfl, rfl⟩
  · have hne : y ≠ x := fun he => hk (by rw [← hm.1, he, hpath])
    rw [Function.update_of_ne hne, Function.update_of_ne hk]
    exact hm

theorem touches_written {x : Nat} {md old : Metadata} {version : Str}
    (hpath : (fs.heap x).systemPath = p) (hold : fs.records p = some old)
    (hsame : md.type = old.type ∧ md.uid = old.uid ∧ md.gid = old.gid ∧ md.mode = old.mode ∧
      md.inodeNumber = old.inodeNumber) : Touches p fs (fs.written p x md version) := by
  refine ⟨rfl, rfl, le_refl _, fun k hk => ?_, fun y hy hk => ?_, fun _ _ _ h => h,
    fun k md' hmd' => ?_, fun k => ?_⟩
  · exact Function.update_of_ne (fun he => hk (Or.inl he)) _ _
  · refine Function.update_of_ne (fun he => hk (Or.inl ?_)) _ _
    rw [he]
    exact hpath
  · rw [(writes_written fs p x md version).records] at hmd'
    by_cases hk : k = p
    · subst hk
      rw [Function.update_self] at hmd'
      cases hmd'
      exact ⟨old, hold, hsame⟩
    · rw [Function.update_of_ne hk] at hmd'
      exact ⟨md', hmd', rfl, rfl, rfl, rfl, rfl⟩
  · unfold FS.written
    dsimp only
    by_cases hk : k = p
    · subst hk
      have hne : fs.store k ≠ none := by
        intro hn
        simp [FS.records, hn] at hold
      simp [hne]
    · rw [Function.update_of_ne hk]

end Memory

/-! ## Lookup of an existing path -/

section Existing

variable {env : Env} {ctx : Context} {fs : FS} {p u : Str} {x : Nat} {r : KineticRecord Metadata}

/-- The object at `x` is the record of `p`, and no other object of `p` is cached. -/
structure Holds (fs : FS) (p : Str) (x : Nat) (r : KineticRecord Metadata) : Prop where
  lt : x < fs.next
  store : fs.store p = some r
  object : fs.heap x = ⟨p, r.version, r.value⟩
  owner : ∀ y, fs.lookupCache p = some y → y = x

theorem Holds.records (h : Holds fs p x r) : fs.records p = some r.value := by
  simp [FS.records, h.store]

/-- A lookup of another path leaves the object alone. -/
theorem Holds.touched {fs' : FS} {q : Str} (h : Holds fs p x r) (ht : Touches q fs fs')
    (hpq : ¬ AtOrAbove p q) : Holds fs' p x r := by
  refine ⟨lt_of_lt_of_le h.lt ht.next, (ht.store p hpq).trans h.store, ?_,
    fun y hy => h.owner y (ht.cache p y hpq hy)⟩
  rw [ht.heap x h.lt (by rw [h.object]; exact hpq), h.object]

/-- What a lookup that reaches its final check returns. -/
def Found (ctx : Context) (p : Str) (result : Int × Option Nat) (fs : FS) : Prop :=
  ∃ x r, result = (checkPathPermissions ctx r.value.pathPermission, some x) ∧ Holds fs p x r ∧
    Fresh fs.pmap p r.value

theorem getMdi_run (h : Holds fs p x r) : (getMdi x).run fs = some (⟨p, r.version, r.value⟩, fs) := by
  rw [← h.object]
  rfl

theorem setMD_run (h : Holds fs p x r) (f : Metadata → Metadata) :
    (setMD x f).run fs = some ((), fs.setObject x ⟨p, r.version, f r.value⟩) := by
  have hrun : (setMD x f).run fs = some ((), fs.setObject x { fs.heap x with md := f (fs.heap x).md }) :=
    rfl
  rw [hrun, h.object]

/-- A `put_metadata` of the object with new metadata. -/
theorem putMetadata_run (h : Holds fs p x r) (md : Metadata) :
    (putMetadata env x).run (fs.setObject x ⟨p, r.version, md⟩) =
      some (0, fs.written p x md (env.uuid fs.uuids)) := by
  simp [putMetadata, generateUuid, getMdi, setMdi, FS.setObject, FS.written, putSame, versionOf,
    h.store, StateT.run_bind, Function.update_idem]

theorem finalCheck_yields (h : Holds fs p x r) (hfresh : Fresh fs.pmap p r.value) :
    Yields (finalCheck ctx x) (fun result fs' => fs' = fs ∧ Found ctx p result fs') fs := by
  refine ⟨_, fs, rfl, rfl, x, r, ?_, h, hfresh⟩
  rw [h.object]

/-- The object after a write. -/
theorem holds_written (h : Holds fs p x r) (md : Metadata) (version : Str) :
    Holds (fs.written p x md version) p x ⟨md, version⟩ :=
  ⟨h.lt, by simp [FS.written], by simp [FS.written], h.owner⟩

/-- The end of step 4: the record inherits from its verified parent and is checked. -/
theorem inheritFromParent_yields (henv : RemovesPresent env.removeDuplicates) (hi : FsInv fs)
    (h : Holds fs p x r) (hp : p ≠ root) {y : Nat} {parent : KineticRecord Metadata}
    (hparent : Holds fs (parentPath p) y parent) (hdir : S_ISDIR parent.value.mode = true)
    (hfresh : Fresh fs.pmap (parentPath p) parent.value)
    (hstamp : stampOf fs.pmap.snapshot p ≤ parent.value.pathPermissionVerified)
    (self : Str → M (Int × Option Nat)) :
    Yields (inheritFromParent env ctx self u x y)
      (fun result fs' => FsInv fs' ∧ Touches p fs fs' ∧ Found ctx p result fs') fs := by
  have hrec := h.records
  have hpaths := hi.paths.refresh henv hrec hp hparent.records hdir hfresh hstamp
  have hsys : (fs.heap x).systemPath = p := by rw [h.object]
  have hinv := hi.write (writes_written _ _ _ _ (env.uuid fs.uuids)) hsys h.owner hi.token hpaths
  refine Yields.run_bind (getMdi_run hparent) (Yields.run_bind (setMD_run h _) ?_)
  refine Yields.run_bind (putMetadata_run h _) ?_
  rw [if_neg (by decide), if_neg (by decide)]
  refine (finalCheck_yields (holds_written h _ _) ?_).mono fun result fs' hfs' => ?_
  · exact fresh_inherit hi.paths hfresh hstamp
  · obtain ⟨rfl, hfound⟩ := hfs'
    obtain ⟨es, hes⟩ := inherit_eq env r.value parent.value
    refine ⟨hinv, touches_written hsys hrec ?_, hfound⟩
    rw [hes]
    exact ⟨rfl, rfl, rfl, rfl, rfl⟩

/-- What a lookup of an existing hierarchical path does; the recursion hypothesis of `lookup`. -/
def LooksUp (ctx : Context) (bound : Nat) (self : Str → M (Int × Option Nat)) : Prop :=
  ∀ (fs : FS) (u : Str), FsInv fs → Hierarchical u → fs.store (iointercept u) ≠ none →
    (iointercept u).length < bound →
    Yields (self u) (fun result fs' => FsInv fs' ∧ Touches (iointercept u) fs fs' ∧
      Found ctx (iointercept u) result fs') fs

/-- `lookup_parent` below an existing object: the object, whether or not the caller may pass it. -/
theorem lookupParentWith_yields {self : Str → M (Int × Option Nat)} (hi : FsInv fs)
    (hu : Hierarchical u) (hup : iointercept u = p) (hp : p ≠ root) {bound : Nat}
    (hself : LooksUp ctx bound self) (hparent : fs.store (parentPath p) ≠ none)
    (hlt : (parentPath p).length < bound) :
    Yields (lookupParentWith ctx self u)
      (fun result fs' => FsInv fs' ∧ Touches (parentPath p) fs fs' ∧
        ∃ y r, result.2 = some y ∧ Holds fs' (parentPath p) y r ∧
          Fresh fs'.pmap (parentPath p) r.value ∧
          (result.1 = 0 ∧ S_ISDIR r.value.mode = true ∨ result.1 = -EACCES ∨
            result.1 = -ENOTDIR ∧ S_ISDIR r.value.mode = false)) fs := by
  cases hu with
  | root h => exact absurd (hup.symm.trans h) hp
  | @child u v hcut hv hier =>
    rw [hup] at hv
    unfold lookupParentWith
    rw [hcut]
    refine (hself fs v hi hier (by rw [hv]; exact hparent) (by rw [hv]; exact hlt)).then
      fun result fs1 h1 => ?_
    rw [hv] at h1
    obtain ⟨hi1, ht1, y, r, rfl, hy, hfresh⟩ := h1
    dsimp only
    split
    · rename_i herr
      refine Yields.pure ⟨hi1, ht1, y, r, rfl, hy, hfresh, Or.inr (Or.inl ?_)⟩
      rcases checkPathPermissions_cases ctx r.value.pathPermission with ⟨-, hc⟩ | ⟨-, hc⟩
      · exact absurd hc herr
      · exact hc
    · refine Yields.run_bind (getMdi_run hy) ?_
      dsimp only
      cases hdir : S_ISDIR r.value.mode with
      | false =>
        rw [if_pos (by simp)]
        exact Yields.pure ⟨hi1, ht1, y, r, rfl, hy, hfresh, Or.inr (Or.inr ⟨rfl, hdir⟩)⟩
      | true =>
        rw [if_neg (by simp)]
        refine Yields.pure ⟨hi1, ht1, y, r, rfl, hy, hfresh, ?_⟩
        rcases checkPathPermissions_cases ctx r.value.pathPermissionChildren with ⟨-, hc⟩ | ⟨-, hc⟩
        · exact Or.inl ⟨hc, hdir⟩
        · exact Or.inr (Or.inl hc)

/-- Step 4 of `lookup`. -/
theorem checkStale_yields (henv : RemovesPresent env.removeDuplicates)
    {self : Str → M (Int × Option Nat)} (hi : FsInv fs) (h : Holds fs p x r) (hu : Hierarchical u)
    (hup : iointercept u = p) (hself : LooksUp ctx p.length self) {ts : Int}
    (hstamp : ∀ k, Under k p → (stampOf fs.pmap.snapshot k : Int) ≤ ts)
    (hbound : ∀ bound : Nat, (∀ k, Under k p → stampOf fs.pmap.snapshot k ≤ bound) → ts ≤ bound) :
    Yields (checkStale env ctx self u ts x)
      (fun result fs' => FsInv fs' ∧ Touches p fs fs' ∧ Found ctx p result fs') fs := by
  refine Yields.run_bind (getMdi_run h) ?_
  split
  · rename_i hstale
    dsimp only at hstale
    have hrec := h.records
    -- some directory above `p` has changed since, and its stamp is older than that of `p` itself
    obtain ⟨a, ha, hlate⟩ : ∃ a, Under a p ∧
        r.value.pathPermissionVerified < stampOf fs.pmap.snapshot a := by
      by_contra hno
      refine absurd (hbound _ fun k hk => ?_) (not_le.mpr hstale)
      by_contra hlt
      exact hno ⟨k, hk, by omega⟩
    have hap : a ≠ p := by
      rintro rfl
      have := (hi.paths.record a _ hrec).stamp
      omega
    have hp : p ≠ root := by
      rintro rfl
      have h0 : a ≠ [] := by
        rintro rfl
        rw [hi.paths.stamp_absent hi.paths.nil] at hlate
        omega
      exact hap (under_root ha h0)
    obtain ⟨parent, hparent, hdir⟩ := hi.paths.parent p _ hrec hp
    obtain ⟨rest, hrest⟩ := (hi.paths.record p _ hrec).absolute
    obtain ⟨hlt, -⟩ := parentPath_absolute hrest hp
    have hexists : fs.store (parentPath p) ≠ none := fun hn => by simp [FS.records, hn] at hparent
    refine (lookupParentWith_yields hi hu hup hp hself hexists hlt).then fun result fs1 h1 => ?_
    obtain ⟨hi1, ht1, y, rp, hy, hholds, hfresh1, hcode⟩ := h1
    have hdir1 : S_ISDIR rp.value.mode = true := by
      obtain ⟨md, hmd, -, -, -, hmode, -⟩ := ht1.attributes _ _ hholds.records
      rw [hparent] at hmd
      cases hmd
      rw [hmode]
      exact hdir
    have hcode1 : result.1 = 0 ∨ result.1 = -EACCES := by
      rcases hcode with ⟨hc, -⟩ | hc | ⟨-, hd⟩
      · exact Or.inl hc
      · exact Or.inr hc
      · rw [hd] at hdir1
        cases hdir1
    have hnot : ¬ AtOrAbove p (parentPath p) := by
      rintro (he | habove)
      · rw [← he] at hlt
        omega
      · have := (hi.paths.above_under habove parent hparent).1
        omega
    have h1 := h.touched ht1 hnot
    have hlate1 : stampOf fs1.pmap.snapshot p ≤ rp.value.pathPermissionVerified := by
      have hs := hi1.paths.stamp_parent hfresh1 ha hap
      have hself := (hi.paths.record p _ hrec).stamp
      rw [ht1.pmap] at hs ⊢
      omega
    obtain ⟨code, found⟩ := result
    dsimp only at hcode1 hy ⊢
    rw [if_neg (by omega), hy]
    refine (inheritFromParent_yields henv hi1 h1 hp hholds hdir1 hfresh1 hlate1 self).mono
      fun result fs2 h2 => ?_
    exact ⟨h2.1, (ht1.mono (Above.parent hp rfl)).trans h2.2.1, h2.2.2⟩
  · rename_i hstale
    refine (finalCheck_yields h fun k hk => ?_).mono fun result fs' hfs' => ?_
    · have := hstamp k hk
      dsimp only at hstale
      omega
    · obtain ⟨rfl, hfound⟩ := hfs'
      exact ⟨hi, touches_refl p _, hfound⟩

theorem cacheAdd_run (hnone : fs.lookupCache p = none) :
    (cacheAdd env p x).run fs = some ((), (fs.dropped env).setCache p (some x)) := by
  have hnone' : (fs.dropped env).lookupCache p = none := by
    simp [FS.dropped, hnone]
  unfold cacheAdd
  simp only [StateT.run_bind, StateT.run_modify, StateT.run_get, Option.pure_def, Option.bind_eq_bind,
    Option.bind_some, hnone']

/-- Steps 3 and 4 of `lookup` for an object that is cached or about to be. -/
theorem lookupFound_yields (henv : RemovesPresent env.removeDuplicates)
    {self : Str → M (Int × Option Nat)} (hi : FsInv fs) (h : Holds fs p x r) (hu : Hierarchical u)
    (hup : iointercept u = p) (hself : LooksUp ctx p.length self) {ts : Int}
    (hstamp : ∀ k, Under k p → (stampOf fs.pmap.snapshot k : Int) ≤ ts)
    (hbound : ∀ bound : Nat, (∀ k, Under k p → stampOf fs.pmap.snapshot k ≤ bound) → ts ≤ bound)
    {cached : Bool} (hcached : cached = false → fs.lookupCache p = none) :
    Yields (lookupFound env ctx self u p ts x cached)
      (fun result fs' => FsInv fs' ∧ Touches p fs fs' ∧ Found ctx p result fs') fs := by
  have hok := hi.paths.record p _ h.records
  refine Yields.run_bind (getMdi_run h) ?_
  dsimp only
  rw [if_neg hok.inode, hok.type]
  dsimp only
  cases cached with
  | true =>
    exact checkStale_yields henv hi h hu hup hself hstamp hbound
  | false =>
    have hm : Mirrors (fs.dropped env) p x := by
      unfold Mirrors
      show (fs.heap x).systemPath = p ∧ match fs.store p with
        | none => (fs.heap x).md = Metadata.empty
        | some r => (fs.heap x).keyVersion = r.version ∧ (fs.heap x).md = r.value
      rw [h.object, h.store]
      exact ⟨rfl, rfl, rfl⟩
    have hi1 := (hi.dropped env).setCache h.lt hm
    have ht1 := (touches_dropped p fs env).trans (touches_setCache p (fs.dropped env) (some x))
    have h1 : Holds ((fs.dropped env).setCache p (some x)) p x r := by
      refine ⟨h.lt, h.store, h.object, fun y hy => ?_⟩
      simp only [FS.setCache, Function.update_self, Option.some.injEq] at hy
      exact hy.symm
    refine Yields.run_bind (cacheAdd_run (hcached rfl)) ?_
    refine (checkStale_yields henv hi1 h1 hu hup hself hstamp hbound).mono fun result fs2 h2 => ?_
    exact ⟨h2.1, ht1.trans h2.2.1, h2.2.2⟩

theorem newMetadataInfo_run (key : Str) (fs : FS) :
    (newMetadataInfo key).run fs = some (fs.next, fs.alloc key) := rfl

theorem alloc_heap_next (key : Str) (fs : FS) :
    (fs.alloc key).heap fs.next = ⟨key, ['0'], Metadata.empty⟩ :=
  Function.update_self _ _ _

/-- A new object that has read its record. -/
theorem fetched (hi : FsInv fs) (hr : fs.store p = some r) (hc : fs.lookupCache p = none) :
    FsInv ((fs.alloc p).setObject fs.next ⟨p, r.version, r.value⟩) ∧
      Touches p fs ((fs.alloc p).setObject fs.next ⟨p, r.version, r.value⟩) ∧
      Holds ((fs.alloc p).setObject fs.next ⟨p, r.version, r.value⟩) p fs.next r := by
  have hheap : ∀ y, y < fs.next →
      ((fs.alloc p).setObject fs.next ⟨p, r.version, r.value⟩).heap y = fs.heap y := by
    intro y hy
    rw [← alloc_heap_of_lt hy p]
    exact Function.update_of_ne (by omega) _ _
  refine ⟨⟨hi.paths, fun k y hy => ?_, hi.token⟩, ⟨rfl, rfl, Nat.le_succ _, fun _ _ => rfl,
    fun y hy _ => hheap y hy, fun _ _ _ h => h, fun _ md h => ⟨md, h, rfl, rfl, rfl, rfl, rfl⟩,
    fun _ => Iff.rfl⟩, ⟨Nat.lt_succ_self _, hr, Function.update_self _ _ _, fun y hy => ?_⟩⟩
  · obtain ⟨hlt, hm⟩ := hi.cached k y hy
    refine ⟨Nat.lt_succ_of_lt hlt, ?_⟩
    unfold Mirrors
    rw [hheap y hlt]
    exact hm
  · have hy' : fs.lookupCache p = some y := hy
    rw [hc] at hy'
    cases hy'

theorem getMetadata_alloc_run (hr : fs.store p = some r) :
    (getMetadata fs.next).run (fs.alloc p) =
      some (0, (fs.alloc p).setObject fs.next ⟨p, r.version, r.value⟩) := by
  have hstore : (fs.alloc p).store p = some r := hr
  simp [getMetadata, getMdi, setMdi, StateT.run_bind, alloc_heap_next, hstore]

/-- `lookup` of an existing path. -/
theorem lookup_yields (henv : RemovesPresent env.removeDuplicates) (fuel : Nat) :
    LooksUp ctx fuel (lookup env ctx fuel) := by
  induction fuel with
  | zero =>
    intro fs u _ _ _ hlt
    omega
  | succ fuel ih =>
    intro fs u hi hu hexists hlt
    obtain ⟨r, hr⟩ := Option.ne_none_iff_exists'.mp hexists
    have hrec : fs.records (iointercept u) = some r.value := by simp [FS.records, hr]
    have hok := hi.paths.record _ _ hrec
    obtain ⟨ts, hts, hcases⟩ := toSystemPath_unmapped hi.paths (rfl : iointercept u = iointercept u) fuel
    rcases hcases with ⟨-, hnot⟩ | ⟨h0, -, -, hstamp, hbound⟩
    · exact absurd ⟨hok.namesFit, hok.fits⟩ hnot
    · have hself : LooksUp ctx (iointercept u).length (lookup env ctx fuel) :=
        fun fs v hi hv hex hl => ih fs v hi hv hex (by omega)
      have hi1 := hi.dropped env
      have ht1 := touches_dropped (iointercept u) fs env
      refine Yields.get_bind ?_
      rw [hts]
      dsimp only
      rw [if_neg (by omega)]
      refine Yields.run_bind (show (cacheGet env (iointercept u)).run fs =
        some ((fs.dropped env).lookupCache (iointercept u), fs.dropped env) from rfl) ?_
      cases hc : (fs.dropped env).lookupCache (iointercept u) with
      | some x =>
        obtain ⟨hx, hm⟩ := hi1.cached _ x hc
        have hh : Holds (fs.dropped env) (iointercept u) x r :=
          ⟨hx, hr, hm.object hr, fun y hy => Option.some.inj (hy.symm.trans hc)⟩
        dsimp only
        refine (lookupFound_yields henv hi1 hh hu rfl hself hstamp hbound
          (fun hf : true = false => absurd hf (by decide))).mono fun result fs2 h2 => ?_
        exact ⟨h2.1, ht1.trans h2.2.1, h2.2.2⟩
      | none =>
        obtain ⟨hi2, ht2, hh⟩ := fetched (hi.dropped env) hr hc
        refine Yields.run_bind (newMetadataInfo_run _ _) ?_
        refine Yields.run_bind (getMetadata_alloc_run (show (fs.dropped env).store _ = some r from hr)) ?_
        rw [if_neg (by decide), if_neg (by decide)]
        refine (lookupFound_yields henv hi2 hh hu rfl hself hstamp hbound fun _ => hc).mono
          fun result fs2 h2 => ?_
        exact ⟨h2.1, (ht1.trans ht2).trans h2.2.1, h2.2.2⟩

end Existing

end HFlat.Permission
