/-
  Path-permission caching refines a component walk: in every run of `mkdir`, `create`, `chmod`,
  `chown` and lookups, with cache entries that disappear at any access, a lookup of an existing
  path returns 0 exactly for the callers that meet the entries derived from the current mode, user
  and group of every directory above the path.
-/
import HFlat.Permission.Lookup

namespace HFlat.Permission

open HFlat.Lib HFlat.PathMap HFlat.Replication

variable {env : Env} {ctx : Context} {fs : FS} {p u : Str} {x : Nat}

/-! ## Lookup of an absent path -/

/-- The object at `x` stands for the absence of `p`. -/
structure Vacant (fs : FS) (p : Str) (x : Nat) : Prop where
  lt : x < fs.next
  store : fs.store p = none
  path : (fs.heap x).systemPath = p
  object : (fs.heap x).md = Metadata.empty
  owner : ∀ y, fs.lookupCache p = some y → y = x

theorem Vacant.touched {fs' : FS} {q : Str} (h : Vacant fs p x) (ht : Touches q fs fs')
    (hpq : ¬ AtOrAbove p q) : Vacant fs' p x := by
  have hheap : fs'.heap x = fs.heap x := ht.heap x h.lt (by rw [h.path]; exact hpq)
  exact ⟨lt_of_lt_of_le h.lt ht.next, (ht.store p hpq).trans h.store, by rw [hheap]; exact h.path,
    by rw [hheap]; exact h.object, fun y hy => h.owner y (ht.cache p y hpq hy)⟩

theorem getMetadata_absent_run (habsent : fs.store p = none) :
    (getMetadata fs.next).run (fs.alloc p) = some (-ENOENT, fs.alloc p) := by
  have hstore : (fs.alloc p).store p = none := habsent
  simp [getMetadata, getMdi, StateT.run_bind, alloc_heap_next, hstore]

/-- Step 3 of `lookup` for the object of an absent path. -/
theorem lookupFound_vacant (hv : Vacant fs p x) {self : Str → M (Int × Option Nat)} {key : Str}
    {ts : Int} {cached : Bool} :
    (lookupFound env ctx self u key ts x cached).run fs = some ((-ENOENT, some x), fs) := by
  unfold lookupFound
  rw [StateT.run_bind]
  show ((if (fs.heap x).md.inodeNumber = 0 then pure (-ENOENT, some x) else _ :
    M (Int × Option Nat)).run fs) = _
  rw [hv.object, if_pos (show Metadata.empty.inodeNumber = 0 from rfl)]
  rfl

/-- A lookup of an absent path changes no record. -/
theorem lookup_absent (hi : FsInv fs) (hu : iointercept u = p) (habsent : fs.store p = none)
    (fuel : Nat) :
    Yields (lookup env ctx (fuel + 1) u) (fun result fs' => FsInv fs' ∧ Touches p fs fs' ∧
      (result.1 = -ENAMETOOLONG ∨ result.1 = -ENOENT ∧ NamesFit p ∧ p.length ≤ PATH_MAX ∧
        ∃ x, result.2 = some x ∧ Vacant fs' p x)) fs := by
  obtain ⟨ts, hts, hcases⟩ := toSystemPath_unmapped hi.paths hu fuel
  refine Yields.get_bind ?_
  rw [hts]
  dsimp only
  rcases hcases with ⟨rfl, -⟩ | ⟨h0, hfit, hlen, -, -⟩
  · rw [if_pos (by decide)]
    exact Yields.pure ⟨hi, touches_refl p fs, Or.inl rfl⟩
  · rw [if_neg (by omega)]
    have hi1 := hi.dropped env
    have ht1 := touches_dropped p fs env
    refine Yields.run_bind (show (cacheGet env p).run fs =
      some ((fs.dropped env).lookupCache p, fs.dropped env) from rfl) ?_
    cases hc : (fs.dropped env).lookupCache p with
    | some x =>
      obtain ⟨hx, hpath, hm⟩ := hi1.cached p x hc
      rw [show (fs.dropped env).store p = none from habsent] at hm
      have hv : Vacant (fs.dropped env) p x :=
        ⟨hx, habsent, hpath, hm, fun y hy => Option.some.inj (hy.symm.trans hc)⟩
      exact ⟨_, _, lookupFound_vacant hv, hi1, ht1, Or.inr ⟨rfl, hfit, hlen, x, rfl, hv⟩⟩
    | none =>
      have hi2 := (hi1.alloc p).dropped env
      have ht2 := (ht1.trans (touches_alloc p p _)).trans (touches_dropped p _ env)
      have hobject := alloc_heap_next p (fs.dropped env)
      have hlt : (fs.dropped env).next < (((fs.dropped env).alloc p).dropped env).next :=
        Nat.lt_succ_self _
      have hm : Mirrors (((fs.dropped env).alloc p).dropped env) p (fs.dropped env).next := by
        refine ⟨congrArg MetadataInfo.systemPath hobject, ?_⟩
        rw [show (((fs.dropped env).alloc p).dropped env).store p = none from habsent]
        exact congrArg MetadataInfo.md hobject
      have hv : Vacant ((((fs.dropped env).alloc p).dropped env).setCache p (some (fs.dropped env).next))
          p (fs.dropped env).next := by
        refine ⟨hlt, habsent, congrArg MetadataInfo.systemPath hobject,
          congrArg MetadataInfo.md hobject, fun y hy => ?_⟩
        simp only [FS.setCache, Function.update_self, Option.some.injEq] at hy
        exact hy.symm
      refine Yields.run_bind (newMetadataInfo_run _ _) ?_
      refine Yields.run_bind (getMetadata_absent_run (show (fs.dropped env).store p = none from habsent)) ?_
      rw [if_pos rfl]
      refine Yields.run_bind (cacheAdd_run hc) ?_
      exact ⟨_, _, lookupFound_vacant hv, hi2.setCache hlt hm,
        ht2.trans (touches_setCache p _ _), Or.inr ⟨rfl, hfit, hlen, _, rfl, hv⟩⟩

/-! ## Creation -/

theorem findLastSeparator_colonFree (h : ':' ∉ u) : findLastSeparator u = findLastOf '/' u := by
  induction u with
  | nil => rfl
  | cons c u ih =>
    rw [List.mem_cons, not_or] at h
    unfold findLastSeparator findLastOf
    rw [ih h.2]
    have hc : ¬ c = ':' := fun he => h.1 he.symm
    cases findLastOf '/' u with
    | none => simp only [hc, or_false]
    | some i => rfl

/-- Every absolute path without `:` is hierarchical. -/
theorem hierarchical_of_colonFree {r : Str} (hu : u = '/' :: r) (h : ':' ∉ u) : Hierarchical u := by
  induction hn : u.length using Nat.strong_induction_on generalizing u r with
  | _ n ih =>
    by_cases hroot : u = root
    · exact Hierarchical.root (by rw [iointercept_of_colonFree h, hroot])
    · obtain ⟨hlt, -⟩ := parentPath_absolute hu hroot
      have hslash : findLastOf '/' u ≠ none := by
        rw [ne_eq, findLastOf_eq_none]
        simp [hu]
      obtain ⟨i, hi⟩ := Option.ne_none_iff_exists'.mp hslash
      -- the directory is a prefix of the path that is not empty
      have hcut : cutParent u = some (parentPath u) ∧ ∃ j, parentPath u = u.take (j + 1) := by
        unfold cutParent parentPath
        rw [findLastSeparator_colonFree h, hi]
        cases i with
        | zero => exact ⟨by simp [hu, root], 0, by simp [hu, root]⟩
        | succ i => exact ⟨rfl, i, rfl⟩
      obtain ⟨hcut, j, hj⟩ := hcut
      have hfree : ':' ∉ parentPath u := by
        rw [hj]
        exact fun hm => h (List.mem_of_mem_take hm)
      refine Hierarchical.child hcut ?_ (ih _ (by omega) (show parentPath u = '/' :: r.take j from ?_)
        hfree rfl)
      · rw [iointercept_of_colonFree hfree, iointercept_of_colonFree h]
      · rw [hj, hu, List.take_succ_cons]

theorem Hierarchical.absolute (h : Hierarchical u) : ∃ r, iointercept u = '/' :: r := by
  induction h with
  | root h => exact ⟨[], h⟩
  | @child u v hcut hdir hv ih =>
    obtain ⟨r, hr⟩ := ih
    rw [hdir] at hr
    unfold parentPath at hr
    cases hl : findLastOf '/' (iointercept u) with
    | none =>
      rw [hl] at hr
      cases hr
    | some i =>
      obtain ⟨hsplit, -, -⟩ := findLastOf_eq_some hl
      cases i with
      | zero => exact ⟨_, hsplit⟩
      | succ i =>
        rw [hl] at hr
        rw [show (iointercept u).take (i + 1) = '/' :: r from hr] at hsplit
        exact ⟨_, hsplit⟩

theorem iointercept_length (u : Str) : (iointercept u).length ≤ u.length := by
  unfold iointercept
  cases findFirstOf ':' u 0 with
  | none => exact le_refl _
  | some pos =>
    dsimp only
    rw [List.length_map]
    cases hl : findFirstOf '/' u pos with
    | none =>
      dsimp only
      split
      · exact le_refl _
      · exact List.length_take_le' _ _
    | some last =>
      have hle : pos ≤ last := by
        obtain ⟨i, -, hi⟩ := Option.map_eq_some_iff.mp hl
        omega
      show (u.take pos ++ u.drop (last + 1)).length ≤ u.length
      rw [List.length_append, List.length_take, List.length_drop]
      omega

/-- `lookup_parent` below an object that need not exist. -/
theorem lookupParent_yields (henv : RemovesPresent env.removeDuplicates) (hi : FsInv fs)
    (hu : Hierarchical u) (hup : iointercept u = p) (hp : p ≠ root) {fuel : Nat}
    (hlt : (parentPath p).length < fuel) :
    Yields (lookupParent env ctx fuel u) (fun result fs' => FsInv fs' ∧
      Touches (parentPath p) fs fs' ∧ (result.1 = 0 → ∃ y r, result.2 = some y ∧
        Holds fs' (parentPath p) y r ∧ Fresh fs'.pmap (parentPath p) r.value ∧
        S_ISDIR r.value.mode = true)) fs := by
  by_cases hparent : fs.store (parentPath p) = none
  · cases hu with
    | root h => exact absurd (hup.symm.trans h) hp
    | @child u v hcut hdir hv =>
      rw [hup] at hdir
      unfold lookupParent lookupParentWith
      rw [hcut]
      obtain ⟨fuel, rfl⟩ := Nat.exists_eq_succ_of_ne_zero (by omega : fuel ≠ 0)
      refine (lookup_absent hi hdir hparent fuel).then fun result fs1 h1 => ?_
      obtain ⟨hi1, ht1, hcode⟩ := h1
      have hne : result.1 ≠ 0 := by
        rcases hcode with hc | ⟨hc, -⟩
        · rw [hc]
          decide
        · rw [hc]
          decide
      dsimp only
      rw [if_pos hne]
      exact Yields.pure ⟨hi1, ht1, fun h0 => absurd h0 hne⟩
  · refine (lookupParentWith_yields hi hu hup hp (lookup_yields henv fuel) hparent hlt).mono
      fun result fs1 h1 => ?_
    obtain ⟨hi1, ht1, y, r, hy, hholds, hfresh, hcode⟩ := h1
    refine ⟨hi1, ht1, fun h0 => ⟨y, r, hy, hholds, hfresh, ?_⟩⟩
    rcases hcode with ⟨-, hd⟩ | hc | ⟨hc, -⟩
    · exact hd
    · rw [hc] at h0
      exact absurd h0 (by decide)
    · rw [hc] at h0
      exact absurd h0 (by decide)

theorem setMD_setObject_run (mdi : Nat) (key version : Str) (md : Metadata) (f : Metadata → Metadata) :
    (setMD mdi f).run (fs.setObject mdi ⟨key, version, md⟩) =
      some ((), fs.setObject mdi ⟨key, version, f md⟩) := by
  simp [setMD, setMdi, FS.setObject]

theorem Holds.setObject {r : KineticRecord Metadata} (h : Holds fs p x r) :
    fs.setObject x ⟨p, r.version, r.value⟩ = fs := by
  unfold FS.setObject
  rw [← h.object, Function.update_eq_self]

/-- `put_metadata_forced` of an object with the version of its record: the first attempt succeeds. -/
theorem putMetadataForced_run {r : KineticRecord Metadata} (h : Holds fs p x r) (md : Metadata)
    (update : Metadata → Metadata) (fuel : Nat) :
    (putMetadataForced env x update (fuel + 1)).run (fs.setObject x ⟨p, r.version, md⟩) =
      some (0, fs.written p x (update md) (env.uuid fs.uuids)) := by
  simp only [putMetadataForced, StateT.run_bind, setMD_setObject_run, putMetadata_run h,
    Option.bind_eq_bind, Option.bind_some]
  rfl

/-- `create_directory_entry` writes at most the time stamps of the directory. -/
theorem createDirectoryEntry_yields {y : Nat} {parent : KineticRecord Metadata} (hi : FsInv fs)
    (h : Holds fs p y parent) (filename : Str) (fuel : Nat) :
    Yields (createDirectoryEntry env y filename (fuel + 1)) (fun err fs' => FsInv fs' ∧
      Touches p fs fs' ∧ (err = 0 → ∃ version, Holds fs' p y ⟨parent.value, version⟩)) fs := by
  unfold createDirectoryEntry
  refine Yields.run_bind (getMdi_run h) (Yields.get_bind ?_)
  split
  · exact Yields.pure ⟨hi, touches_refl p fs, fun h0 => absurd h0 (by decide)⟩
  · refine Yields.modify_bind ?_
    -- a directory entry is no part of the invariant
    generalize hfs1 : ({ fs with direntries := _ } : FS) = fs1
    have hi1 : FsInv fs1 := by
      subst hfs1
      exact ⟨hi.paths, hi.cached, hi.token⟩
    have ht1 : Touches p fs fs1 := by
      subst hfs1
      exact ⟨rfl, rfl, le_refl _, fun _ _ => rfl, fun _ _ _ => rfl, fun _ _ _ h => h,
        fun _ md h => ⟨md, h, rfl, rfl, rfl, rfl, rfl⟩, fun _ => Iff.rfl⟩
    have h1 : Holds fs1 p y parent := by
      subst hfs1
      exact ⟨h.lt, h.store, h.object, h.owner⟩
    split
    · have hsys : (fs1.heap y).systemPath = p := by rw [h1.object]
      have hpaths : PathInv (Function.update fs1.records p (some parent.value)) fs1.pmap := by
        rw [← h1.records, Function.update_eq_self]
        exact hi1.paths
      have hrun := @putMetadataForced_run env fs1 p y parent h1 parent.value id fuel
      rw [h1.setObject] at hrun
      refine Yields.run_bind hrun (Yields.pure ⟨?_, ?_, fun _ => ?_⟩)
      · exact hi1.write (writes_written _ _ _ _ _) hsys h1.owner hi1.token hpaths
      · exact ht1.trans (touches_written hsys h1.records ⟨rfl, rfl, rfl, rfl, rfl⟩)
      · exact ⟨_, holds_written h1 _ _⟩
    · exact Yields.pure ⟨hi1, ht1, fun _ => ⟨parent.version, h1⟩⟩

/-- Inode numbers are not 0, and nothing else depends on them. -/
theorem generateInodeNumber_yields (htoken : 0 < fs.inumToken) :
    Yields generateInodeNumber (fun inode fs' => inode ≠ 0 ∧ ∃ base counter token, 0 < token ∧
      fs' = { fs with inumBase := base, inumCounter := counter, inumToken := token }) fs := by
  unfold generateInodeNumber
  refine Yields.modify_bind (Yields.get_bind (Yields.get_bind (Yields.pure ?_)))
  split
  · refine ⟨?_, _, _, _, ?_, rfl⟩
    · show fs.inumToken + 0 ≠ 0
      omega
    · omega
  · refine ⟨?_, _, _, _, htoken, rfl⟩
    show fs.inumBase + (fs.inumCounter + 1) ≠ 0
    omega

theorem createMetadata_run (hv : Vacant fs p x) (md : Metadata) :
    (createMetadata env x).run (fs.setObject x ⟨p, (fs.heap x).keyVersion, md⟩) =
      some (0, fs.written p x md (env.uuid fs.uuids)) := by
  simp [createMetadata, generateUuid, getMdi, setMdi, FS.setObject, FS.written, putSame, versionOf,
    hv.store, StateT.run_bind, Function.update_idem]

/-- The metadata that `initialize_metadata` gives to a new object. -/
def initialMetadata (env : Env) (ctx : Context) (mode inode : Nat) (parent : Metadata) : Metadata :=
  inheritPathPermissions env ⟨.POSIX, ctx.uid, ctx.gid, mode, inode, 0, [], []⟩ parent

theorem initializeMetadata_yields (htoken : 0 < fs.inumToken) (hv : Vacant fs p x) {q : Str} {y : Nat}
    {parent : KineticRecord Metadata} (hparent : Holds fs q y parent) (mode : Nat) :
    Yields (initializeMetadata env ctx x y mode) (fun _ fs' => ∃ base counter token inode,
      0 < token ∧ inode ≠ 0 ∧ fs' = FS.setObject
        { fs with inumBase := base, inumCounter := counter, inumToken := token } x
        ⟨p, (fs.heap x).keyVersion, initialMetadata env ctx mode inode parent.value⟩) fs := by
  unfold initializeMetadata
  refine (generateInodeNumber_yields htoken).then fun inode fs1 h1 => ?_
  obtain ⟨hinode, base, counter, token, htoken1, rfl⟩ := h1
  have hparent1 : Holds { fs with inumBase := base, inumCounter := counter, inumToken := token } q y
      parent := ⟨hparent.lt, hparent.store, hparent.object, hparent.owner⟩
  refine Yields.run_bind (getMdi_run hparent1) (Yields.modify ?_)
  refine ⟨base, counter, token, inode, htoken1, hinode, ?_⟩
  dsimp only
  rw [hv.path, hv.object]
  rfl

/-- `create_metadata` of a new object with its initial metadata. -/
theorem createMetadata_yields (henv : RemovesPresent env.removeDuplicates) (hi : FsInv fs)
    (hv : Vacant fs p x) (habsolute : ∃ r, p = '/' :: r) (hfit : NamesFit p)
    (hlen : p.length ≤ PATH_MAX) (hp : p ≠ root) {y : Nat} {parent : KineticRecord Metadata}
    (hparent : Holds fs (parentPath p) y parent) (hdir : S_ISDIR parent.value.mode = true)
    (hfresh : Fresh fs.pmap (parentPath p) parent.value) {base counter token inode : Nat}
    (htoken : 0 < token) (hinode : inode ≠ 0) (mode : Nat) :
    Yields (createMetadata env x) (fun err fs' => err = 0 ∧ FsInv fs') (FS.setObject
      { fs with inumBase := base, inumCounter := counter, inumToken := token } x
      ⟨p, (fs.heap x).keyVersion, initialMetadata env ctx mode inode parent.value⟩) := by
  have hv1 : Vacant { fs with inumBase := base, inumCounter := counter, inumToken := token } p x :=
    ⟨hv.lt, hv.store, hv.path, hv.object, hv.owner⟩
  have habsent : fs.records p = none := by simp [FS.records, hv.store]
  have hok : RecordOk fs.pmap p ⟨.POSIX, ctx.uid, ctx.gid, mode, inode, 0, [], []⟩ :=
    ⟨habsolute, hfit, hlen, rfl, hinode, Nat.zero_le _, by rw [hi.paths.stamp_absent habsent]⟩
  refine ⟨0, _, createMetadata_run hv1 _, rfl, ?_⟩
  exact hi.write ⟨rfl, rfl, rfl, rfl⟩ hv.path hv.owner htoken
    (hi.paths.create henv habsent hp hparent.records hdir hfresh hok)

theorem hflatCreate_yields (henv : RemovesPresent env.removeDuplicates) (hi : FsInv fs)
    (hu : Hierarchical u) {fuel : Nat} (hlt : u.length < fuel) (mode : Nat) :
    Yields (hflatCreate env ctx fuel u mode) (fun _ fs' => FsInv fs') fs := by
  have hlen := iointercept_length u
  obtain ⟨fuel, rfl⟩ := Nat.exists_eq_succ_of_ne_zero (by omega : fuel ≠ 0)
  unfold hflatCreate
  by_cases hexists : fs.store (iointercept u) = none
  · refine (lookup_absent hi rfl hexists fuel).then fun result fs1 h1 => ?_
    obtain ⟨hi1, ht1, hcode⟩ := h1
    obtain ⟨code, mdi⟩ := result
    dsimp only at hcode ⊢
    rcases hcode with hc | ⟨hc, hfit, hmax, x, hx, hv⟩
    · rw [if_neg (by rw [hc]; decide), if_pos (by rw [hc]; decide)]
      exact Yields.pure hi1
    · rw [if_neg (by rw [hc]; decide), if_neg (by rw [hc]; decide)]
      have hroot : iointercept u ≠ root := by
        intro he
        obtain ⟨md, hmd, -⟩ := hi.paths.rootDir
        simp [FS.records, ← he, hexists] at hmd
      obtain ⟨r, hr⟩ := hu.absolute
      obtain ⟨hshort, -⟩ := parentPath_absolute hr hroot
      refine (lookupParent_yields henv hi1 hu rfl hroot (by omega)).then fun result fs2 h2 => ?_
      obtain ⟨hi2, ht2, hfound⟩ := h2
      obtain ⟨code2, mdiDir⟩ := result
      dsimp only at hfound ⊢
      split
      · exact Yields.pure hi2
      · split
        · exact Yields.pure hi2
        · rename_i h0
          obtain ⟨y, parent, rfl, hparent, hfresh, hdir⟩ := hfound (not_not.mp h0)
          have hnot : ¬ AtOrAbove (iointercept u) (parentPath (iointercept u)) := by
            rintro (he | habove)
            · rw [← he] at hshort
              omega
            · have := (hi2.paths.above_under habove parent.value hparent.records).1
              omega
          have hv2 := hv.touched ht2 hnot
          subst hx
          dsimp only
          refine Yields.run_bind (getMdi_run hparent) ?_
          dsimp only
          split
          · exact Yields.pure hi2
          · refine (createDirectoryEntry_yields hi2 hparent _ fuel).then fun err fs3 h3 => ?_
            obtain ⟨hi3, ht3, hholds⟩ := h3
            split
            · exact Yields.pure hi3
            · rename_i herr
              obtain ⟨version, hparent3⟩ := hholds (not_not.mp herr)
              have hv3 := hv2.touched ht3 hnot
              have hfresh3 : Fresh fs3.pmap (parentPath (iointercept u)) parent.value := by
                rw [ht3.pmap]
                exact hfresh
              refine (initializeMetadata_yields hi3.token hv3 hparent3 mode).then fun _ fs4 h4 => ?_
              obtain ⟨base, counter, token, inode, htoken, hinode, rfl⟩ := h4
              refine (createMetadata_yields henv hi3 hv3 ⟨r, hr⟩ hfit hmax hroot hparent3 hdir hfresh3
                htoken hinode mode).then fun err fs5 h5 => ?_
              rw [if_neg (by rw [h5.1]; decide)]
              exact Yields.pure h5.2
  · refine (lookup_yields henv (fuel + 1) fs u hi hu hexists (by omega)).then fun result fs1 h1 => ?_
    obtain ⟨hi1, -, y, r, rfl, -, -⟩ := h1
    dsimp only
    rcases checkPathPermissions_cases ctx r.value.pathPermission with ⟨-, hc⟩ | ⟨-, hc⟩
    · rw [if_pos hc]
      exact Yields.pure hi1
    · rw [hc, if_neg (by decide), if_pos (by decide)]
      exact Yields.pure hi1

/-! ## Permission changes -/

theorem fileType_land {m c : Nat} (hc : c &&& S_IFMT = S_IFMT) : fileType (m &&& c) = fileType m := by
  unfold fileType
  rw [Nat.and_assoc, hc]

/-- Neither `chmod` nor `chown` changes the type of an object: the mode that `chmod` is given has
    the type of the object. -/
theorem fileType_changedMode {md : Metadata} {mode uid gid : Option Nat}
    (hmode : ∀ m, mode = some m → fileType m = fileType md.mode) :
    fileType ((changedMode ctx md mode uid gid).getD md.mode) = fileType md.mode := by
  have hsuid : (S_ISUID ^^^ (2 ^ 32 - 1)) &&& S_IFMT = S_IFMT := by decide
  have hsgid : (S_ISGID ^^^ (2 ^ 32 - 1)) &&& S_IFMT = S_IFMT := by decide
  unfold changedMode
  dsimp only
  split
  · rw [Option.getD_some, fileType_land hsgid, fileType_land hsuid]
  · cases mode with
    | none => rfl
    | some m =>
      rw [Option.map_some, Option.getD_some]
      split
      · rw [fileType_land hsgid]
        exact hmode m rfl
      · exact hmode m rfl

theorem databaseOperation_run (fs : FS) (u : Str) :
    (databaseOperation ⟨.NONE, u, []⟩).run fs =
      some (0, { fs with pmap := addPermissionChange fs.pmap u }) := rfl

/-- The end of `do_permission_change`. -/
theorem notePermissionChange_yields (henv : RemovesPresent env.removeDuplicates) (hi : FsInv fs)
    {r : KineticRecord Metadata} (h : Holds fs p x r) (hup : iointercept u = p) (hp : p ≠ root)
    (hfresh : Fresh fs.pmap p r.value) {md : Metadata}
    (hsame : md.type = r.value.type ∧ md.inodeNumber = r.value.inodeNumber ∧
      md.pathPermissionVerified = r.value.pathPermissionVerified ∧
      md.pathPermission = r.value.pathPermission ∧
      md.pathPermissionChildren = r.value.pathPermissionChildren)
    (hdir : S_ISDIR md.mode = S_ISDIR r.value.mode) (version : Str) (fuel : Nat) :
    Yields (notePermissionChange env (fuel + 1) u x) (fun _ fs' => FsInv fs')
      (fs.written p x md version) := by
  obtain ⟨htype, hinode, hverified, hpp, hppc⟩ := hsame
  have hsys : (fs.heap x).systemPath = p := by rw [h.object]
  have hh := holds_written h md version
  have hquiet : (S_ISDIR md.mode = true → ∀ ctx, Allows ctx md.pathPermission →
      (Allows ctx md.pathPermissionChildren ↔ Allows ctx (derivedEntries md))) →
      FsInv (fs.written p x md version) := fun hchildren =>
    hi.write (writes_written _ _ _ _ _) hsys h.owner hi.token (hi.paths.changeQuietly h.records hp
      hfresh hdir htype hinode hverified hpp hppc hchildren)
  unfold notePermissionChange
  refine Yields.run_bind (getMdi_run hh) ?_
  dsimp only
  split
  · rename_i hd
    refine Yields.run_bind (setMD_run hh _) ?_
    split
    · obtain ⟨es, hes⟩ := @compute_attributes env md
      have hallows : ∀ ctx, Allows ctx md.pathPermission → (Allows ctx es ↔
          Allows ctx (derivedEntries md)) := by
        intro ctx ha
        have hc := @allows_compute env henv ctx md ha
        rw [hes] at hc
        exact hc
      have hpaths : PathInv (Function.update fs.records p (some { md with
          pathPermissionVerified := fs.pmap.snapshotVersion + 1, pathPermissionChildren := es }))
          (addPermissionChange fs.pmap u) := by
        refine hi.paths.change hup h.records hp hfresh hdir htype hinode rfl hpp fun _ ctx ha => ?_
        exact hallows ctx ha
      have hw : Writes fs p x md version
          { fs.written p x md version with pmap := addPermissionChange fs.pmap u } := ⟨rfl, rfl, rfl, rfl⟩
      have hh1 : Holds { fs.written p x md version with pmap := addPermissionChange fs.pmap u } p x
          ⟨md, version⟩ := ⟨hh.lt, hh.store, hh.object, hh.owner⟩
      refine Yields.run_bind (databaseOperation_run _ _) ?_
      rw [if_neg (by decide)]
      refine Yields.get_bind ?_
      refine Yields.run_bind (putMetadataForced_run hh1 _ _ fuel) ?_
      rw [if_neg (by decide)]
      refine Yields.pure ?_
      rw [hes]
      exact hi.write (hw.trans (writes_written _ _ _ _ _)) hsys h.owner hi.token hpaths
    · rename_i hchanged
      have hsame := compute_unchanged (Bool.eq_false_iff.mpr hchanged)
      rw [hsame, hh.setObject]
      refine Yields.pure (hquiet fun _ ctx ha => ?_)
      have hallows := @allows_compute env henv ctx md ha
      rw [hsame] at hallows
      exact hallows
  · rename_i hd
    exact Yields.pure (hquiet fun hd' => absurd hd' hd)

theorem permissionLookup_yields (henv : RemovesPresent env.removeDuplicates) (hi : FsInv fs)
    (hu : Hierarchical u) (hup : iointercept u = p) {fuel : Nat} (hlt : u.length < fuel)
    (gid : Option Nat) :
    Yields (permissionLookup env ctx fuel u gid) (fun result fs' => FsInv fs' ∧ Touches p fs fs' ∧
      (result.1 = 0 → ∃ x r, result.2 = some x ∧ Holds fs' p x r ∧ Fresh fs'.pmap p r.value)) fs := by
  have hlen := iointercept_length u
  rw [hup] at hlen
  unfold permissionLookup
  by_cases hexists : fs.store p = none
  · obtain ⟨fuel, rfl⟩ := Nat.exists_eq_succ_of_ne_zero (by omega : fuel ≠ 0)
    refine (lookup_absent hi hup hexists fuel).then fun result fs1 h1 => ?_
    obtain ⟨hi1, ht1, hcode⟩ := h1
    have hne : result.1 ≠ 0 := by
      rcases hcode with hc | ⟨hc, -⟩
      · rw [hc]
        decide
      · rw [hc]
        decide
    dsimp only
    rw [if_pos hne]
    exact Yields.pure ⟨hi1, ht1, fun h0 => absurd h0 hne⟩
  · rw [← hup] at hexists hlen
    refine (lookup_yields henv fuel fs u hi hu hexists (by omega)).then fun result fs1 h1 => ?_
    rw [hup] at h1
    obtain ⟨hi1, ht1, x, r, rfl, hx, hfresh⟩ := h1
    have hfound : ∃ y r, some x = some y ∧ Holds fs1 p y r ∧ Fresh fs1.pmap p r.value :=
      ⟨x, r, rfl, hx, hfresh⟩
    have hdenied : ¬ (-EPERM = 0) := by decide
    dsimp only
    split
    · rename_i hc
      exact Yields.pure ⟨hi1, ht1, fun h0 => absurd h0 hc⟩
    · split
      · exact Yields.pure ⟨hi1, ht1, fun _ => hfound⟩
      · refine Yields.run_bind (getMdi_run hx) ?_
        split
        · exact Yields.pure ⟨hi1, ht1, fun h0 => absurd h0 hdenied⟩
        · split
          · exact Yields.pure ⟨hi1, ht1, fun h0 => absurd h0 hdenied⟩
          · exact Yields.pure ⟨hi1, ht1, fun _ => hfound⟩

theorem doPermissionChange_yields (henv : RemovesPresent env.removeDuplicates) (hi : FsInv fs)
    (hu : Hierarchical u) (hup : iointercept u = p) (hp : p ≠ root) {mode uid gid : Option Nat}
    (hassert : mode = none ∨ uid = none ∧ gid = none)
    (hmode : ∀ m md, mode = some m → fs.records p = some md → fileType m = fileType md.mode)
    {fuel : Nat} (hlt : u.length < fuel) :
    Yields (doPermissionChange env ctx u fuel mode uid gid) (fun _ fs' => FsInv fs') fs := by
  obtain ⟨fuel, rfl⟩ := Nat.exists_eq_succ_of_ne_zero (by omega : fuel ≠ 0)
  unfold doPermissionChange
  refine (permissionLookup_yields henv hi hu hup hlt gid).then fun result fs1 h1 => ?_
  obtain ⟨hi1, ht1, hfound⟩ := h1
  obtain ⟨code, mdi⟩ := result
  dsimp only at hfound ⊢
  split
  · exact Yields.pure hi1
  · rename_i hc
    obtain ⟨x, r, rfl, hx, hfresh⟩ := hfound (not_not.mp hc)
    dsimp only
    refine Yields.run_bind (getMdi_run hx) ?_
    dsimp only
    rw [if_neg (by rcases hassert with h | h <;> simp [h])]
    have htype : fileType ((changedMode ctx r.value mode uid gid).getD r.value.mode) =
        fileType r.value.mode := by
      refine fileType_changedMode fun m hm => ?_
      obtain ⟨md, hmd, -, -, -, hsame, -⟩ := ht1.attributes p r.value hx.records
      rw [hsame]
      exact hmode m md hm hmd
    have hdir : S_ISDIR ((changedMode ctx r.value mode uid gid).getD r.value.mode) =
        S_ISDIR r.value.mode := by
      unfold S_ISDIR
      rw [htype]
    refine Yields.run_bind (setMD_run hx _) (Yields.run_bind (putMetadata_run hx _) ?_)
    rw [if_neg (by decide), if_neg (by decide)]
    exact notePermissionChange_yields henv hi1 hx hup hp hfresh
      (show (changeMetadata r.value (changedMode ctx r.value mode uid gid) uid gid).type = _ ∧ _ from
        ⟨rfl, rfl, rfl, rfl, rfl⟩) hdir _ fuel

/-! ## Runs -/

/-- Operations on paths as the kernel and the interception library pass them. The mode that
    `chmod` is given has the file type of the object; the root keeps its mode and owner. -/
def Op.Valid (fs : FS) (op : Op) : Prop :=
  Hierarchical op.userPath ∧
    match op with
    | .chmod _ u mode => iointercept u ≠ root ∧
        ∀ md, fs.records (iointercept u) = some md → fileType mode = fileType md.mode
    | .chown _ u _ _ => iointercept u ≠ root
    | _ => True

/-- The states that runs of one client reach. -/
inductive Reachable (env : Env) (owner : Context) : FS → Prop
  | init : Reachable env owner (FS.init env owner)
  | step {fs fs' : FS} {op : Op} {err : Int} (h : Reachable env owner fs) (hop : op.Valid fs)
      (hrun : (op.run env).run fs = some (err, fs')) : Reachable env owner fs'

/-- No operation fails an assertion or runs forever, and each keeps the invariant. -/
theorem Op.run_yields (henv : RemovesPresent env.removeDuplicates) (hi : FsInv fs) {op : Op}
    (hop : op.Valid fs) : Yields (op.run env) (fun _ fs' => FsInv fs') fs := by
  obtain ⟨hu, hop⟩ := hop
  unfold Op.run
  cases op with
  | mkdir ctx u mode => exact hflatCreate_yields henv hi hu (by omega) _
  | create ctx u mode => exact hflatCreate_yields henv hi hu (by omega) _
  | chmod ctx u mode =>
    refine doPermissionChange_yields henv hi hu rfl hop.1 (Or.inr ⟨rfl, rfl⟩) (fun m md hm hmd => ?_)
      (by omega)
    cases hm
    exact hop.2 md hmd
  | chown ctx u uid gid =>
    exact doPermissionChange_yields henv hi hu rfl hop (Or.inl rfl) (fun m md hm => nomatch hm)
      (by omega)
  | lookup ctx u =>
    have hlen := iointercept_length u
    by_cases hexists : fs.store (iointercept u) = none
    · exact (lookup_absent hi rfl hexists _).then fun result fs1 h1 => Yields.pure h1.1
    · exact (lookup_yields henv _ fs u hi hu hexists
        (by show _ < u.length + 2; omega)).then fun result fs1 h1 => Yields.pure h1.1

theorem fsInv_init (env : Env) (owner : Context) : FsInv (FS.init env owner) := by
  have hroot : ∀ p md, (FS.init env owner).records p = some md →
      p = root ∧ md = ⟨.POSIX, owner.uid, owner.gid, S_IFDIR ||| 0o777, 1, 0, [], []⟩ := by
    intro p md hmd
    simp only [FS.records, FS.init, Option.map_eq_some_iff] at hmd
    obtain ⟨r, hr, rfl⟩ := hmd
    split at hr
    · rename_i hp
      cases hr
      exact ⟨hp, rfl⟩
    · cases hr
  have hchildren : derivedEntries ⟨.POSIX, owner.uid, owner.gid, S_IFDIR ||| 0o777, 1, 0, [], []⟩ = [] := by
    simp [derivedEntries, S_IFDIR, S_IXUSR, S_IXGRP, S_IXOTH]
  have hdir : S_ISDIR (S_IFDIR ||| 0o777) = true := by decide
  refine ⟨⟨⟨_, rfl, hdir⟩, fun p md hmd => ?_, fun p md hmd hp => ?_, fun k e hk => ?_,
    fun p md hmd _ ctx => ?_, fun p md hmd _ ctx _ => ?_⟩, fun k x hx => (by cases hx), Nat.succ_pos _⟩
  · obtain ⟨rfl, rfl⟩ := hroot p md hmd
    exact ⟨⟨[], rfl⟩, by decide, by decide, rfl, Nat.one_ne_zero, le_refl _, le_refl _⟩
  · exact absurd (hroot p md hmd).1 hp
  · cases hk
  · obtain ⟨rfl, rfl⟩ := hroot p md hmd
    refine ⟨fun _ a md ha => absurd rfl (above_iff.mp ha).1, fun _ e he => ?_⟩
    cases he
  · obtain ⟨rfl, rfl⟩ := hroot p md hmd
    rw [hchildren]

theorem Reachable.fsInv (henv : RemovesPresent env.removeDuplicates) {owner : Context}
    (h : Reachable env owner fs) : FsInv fs := by
  induction h with
  | init => exact fsInv_init env owner
  | step _ hop hrun ih => exact (Op.run_yields henv ih hop).of_run hrun

/-- A lookup changes no mode, user or group of a directory. -/
theorem reaches_touched {fs' : FS} {q : Str} (ht : Touches p fs fs') :
    Reaches fs'.records ctx q ↔ Reaches fs.records ctx q := by
  have hrecords : ∀ k md, fs.records k = some md → ∃ md', fs'.records k = some md' := by
    intro k md hmd
    refine Option.ne_none_iff_exists'.mp fun hnone => ?_
    have hstore : fs.store k = none := (ht.exists_iff k).mp (Option.map_eq_none_iff.mp hnone)
    simp [FS.records, hstore] at hmd
  constructor
  · intro h a md ha hmd
    obtain ⟨md', hmd'⟩ := hrecords a md hmd
    obtain ⟨md1, h1, -, hu, hg, hm, -⟩ := ht.attributes a md' hmd'
    rw [hmd] at h1
    cases h1
    rw [← derivedEntries_congr hm hu hg]
    exact h a md' ha hmd'
  · intro h a md' ha hmd'
    obtain ⟨md, hmd, -, hu, hg, hm, -⟩ := ht.attributes a md' hmd'
    rw [derivedEntries_congr hm hu hg]
    exact h a md ha hmd

/-- Path-permission caching refines the walk over the directories above a path. In every reachable
    state a lookup of an existing path ends with the check of its stored path permissions, which
    returns 0 exactly if the caller meets the entries derived from every directory above. -/
theorem lookup_refines_walk (henv : RemovesPresent env.removeDuplicates) {owner : Context}
    (hr : Reachable env owner fs) (hu : Hierarchical u) (hexists : fs.store (iointercept u) ≠ none)
    {fuel : Nat} (hfuel : u.length < fuel) (ctx : Context) :
    ∃ x md version fs', (lookup env ctx fuel u).run fs =
        some ((checkPathPermissions ctx md.pathPermission, some x), fs') ∧
      fs'.store (iointercept u) = some ⟨md, version⟩ ∧
      (checkPathPermissions ctx md.pathPermission = 0 ↔ ∀ a, Above a (iointercept u) →
        ∃ dir, fs.records a = some dir ∧ Allows ctx (derivedEntries dir)) := by
  have hi := hr.fsInv henv
  have hlen := iointercept_length u
  obtain ⟨result, fs', hrun, hi', ht, x, r, rfl, hx, hfresh⟩ :=
    @lookup_yields env ctx henv fuel fs u hi hu hexists (by omega)
  refine ⟨x, r.value, r.version, fs', hrun, hx.store, ?_⟩
  rw [checkPathPermissions_eq_zero, hi'.paths.allows_iff hx.records hfresh ctx, reaches_touched ht]
  obtain ⟨r0, hr0⟩ := Option.ne_none_iff_exists'.mp hexists
  have hrec : fs.records (iointercept u) = some r0.value := by simp [FS.records, hr0]
  constructor
  · intro h a ha
    obtain ⟨dir, hdir, -⟩ := hi.paths.above ha _ hrec
    exact ⟨dir, hdir, h a dir ha hdir⟩
  · intro h a md ha hmd
    obtain ⟨dir, hdir, hallows⟩ := h a ha
    rw [hmd] at hdir
    cases hdir
    exact hallows

/-- No entry of the cache disappears. -/
def plainEnv : Env where
  uuid := fun n => List.replicate (n + 1) 'u'
  drops := fun _ _ => false
  removeDuplicates := withoutDuplicates
  posixFull := true

/-- A directory that its owner makes private after a lookup of user 2 below it. -/
theorem lookup_refines_walk_private : ∃ fs, Reachable plainEnv ⟨1, 1⟩ fs ∧
    ∃ x md version fs', (lookup plainEnv ⟨2, 2⟩ 5 (lit "/a/b")).run fs =
        some ((checkPathPermissions ⟨2, 2⟩ md.pathPermission, some x), fs') ∧
      fs'.store (lit "/a/b") = some ⟨md, version⟩ ∧
      (checkPathPermissions ⟨2, 2⟩ md.pathPermission = 0 ↔ ∀ a, Above a (lit "/a/b") →
        ∃ dir, fs.records a = some dir ∧ Allows ⟨2, 2⟩ (derivedEntries dir)) := by
  have hrun : ((Op.run plainEnv (.mkdir ⟨1, 1⟩ (lit "/a") 0o755)).run (FS.init plainEnv ⟨1, 1⟩)).any
      (fun r1 => ((Op.run plainEnv (.create ⟨1, 1⟩ (lit "/a/b") 0o100644)).run r1.2).any fun r2 =>
        ((Op.run plainEnv (.lookup ⟨2, 2⟩ (lit "/a/b"))).run r2.2).any fun r3 =>
          (r3.2.records (lit "/a")).all (fun md => fileType 0o040700 = fileType md.mode) &&
          ((Op.run plainEnv (.chmod ⟨1, 1⟩ (lit "/a") 0o040700)).run r3.2).any fun r4 =>
            (r4.2.store (lit "/a/b")).isSome) = true := by decide +kernel
  obtain ⟨⟨e1, fs1⟩, h1, hrun⟩ := (Option.any_eq_true _ _).mp hrun
  obtain ⟨⟨e2, fs2⟩, h2, hrun⟩ := (Option.any_eq_true _ _).mp hrun
  obtain ⟨⟨e3, fs3⟩, h3, hrun⟩ := (Option.any_eq_true _ _).mp hrun
  obtain ⟨htype, hrun⟩ := Bool.and_eq_true_iff.mp hrun
  obtain ⟨⟨e4, fs4⟩, h4, hexists⟩ := (Option.any_eq_true _ _).mp hrun
  have ha : Hierarchical (lit "/a") := hierarchical_of_colonFree rfl (by decide)
  have hab : Hierarchical (lit "/a/b") := hierarchical_of_colonFree rfl (by decide)
  have htype' : ∀ md, fs3.records (lit "/a") = some md → fileType 0o040700 = fileType md.mode := by
    intro md hmd
    rw [hmd] at htype
    simpa using htype
  have hv1 : (Op.mkdir ⟨1, 1⟩ (lit "/a") 0o755).Valid (FS.init plainEnv ⟨1, 1⟩) := ⟨ha, trivial⟩
  have hv2 : (Op.create ⟨1, 1⟩ (lit "/a/b") 0o100644).Valid fs1 := ⟨hab, trivial⟩
  have hv3 : (Op.lookup ⟨2, 2⟩ (lit "/a/b")).Valid fs2 := ⟨hab, trivial⟩
  have hv4 : (Op.chmod ⟨1, 1⟩ (lit "/a") 0o040700).Valid fs3 := ⟨ha, by decide, htype'⟩
  have hr4 := (((Reachable.init.step hv1 h1).step hv2 h2).step hv3 h3).step hv4 h4
  exact ⟨fs4, hr4, lookup_refines_walk withoutDuplicates_removesPresent hr4 hab
    (Option.isSome_iff_ne_none.mp hexists) (by decide) ⟨2, 2⟩⟩

end HFlat.Permission
