/-
  Which paths lead to the root directory.

  Clients move no directory from or to `/` and make no symbolic link that is empty (`Proper`). Then
  no entry of the snapshot takes a path to `/`: a path leads there only if it is a way to write `/`
  (`root_of_toSystemPath`). A name without a slash leads to itself.
-/
import Mathlib.Order.Filter.AtTopBot.Finite
import HFlat.Database.Replay
import HFlat.PathMap.Updates

namespace HFlat.PathMap

open HFlat.Lib

/-! ## Local snapshots -/

/-- The snapshot of a client that has applied a first part of the log. -/
def SnapshotOf (log : List DbEntry) (db : PathMapDB) : Prop :=
  ∃ entries, entries <+: log ∧ replay entries = some db

section SnapshotOf

variable {log : List DbEntry} {db db' : PathMapDB}

theorem SnapshotOf.version_le (h : SnapshotOf log db) : db.snapshotVersion ≤ log.length := by
  obtain ⟨entries, hpre, hreplay⟩ := h
  rw [replay_version hreplay]
  exact hpre.length_le

theorem SnapshotOf.take (h : SnapshotOf log db) : replay (log.take db.snapshotVersion) = some db := by
  obtain ⟨entries, hpre, hreplay⟩ := h
  rw [replay_version hreplay, ← List.prefix_iff_eq_take.mp hpre]
  exact hreplay

theorem SnapshotOf.eq_of_version (h : SnapshotOf log db) (h' : SnapshotOf log db')
    (hv : db.snapshotVersion = db'.snapshotVersion) : db = db' := by
  have htake := h.take
  rw [hv, h'.take] at htake
  exact (Option.some.inj htake).symm

theorem finite_snapshotOf (log : List DbEntry) : Set.Finite {db | SnapshotOf log db} := by
  refine Set.Finite.subset (List.finite_toSet (log.inits.filterMap replay)) ?_
  intro db hdb
  obtain ⟨entries, hpre, hreplay⟩ := hdb
  exact List.mem_filterMap.mpr ⟨entries, (List.mem_inits entries log).mpr hpre, hreplay⟩

/-- A log that can be replayed can be replayed step by step. -/
theorem replay_take_isSome (hlog : (replay log).isSome) (n : Nat) : (replay (log.take n)).isSome := by
  obtain ⟨db, hdb⟩ := Option.isSome_iff_exists.mp hlog
  rw [← List.take_append_drop n log, replay, List.foldlM_append] at hdb
  obtain ⟨db1, h1, -⟩ := Option.bind_eq_some_iff.mp hdb
  exact Option.isSome_iff_exists.mpr ⟨db1, h1⟩

/-- `database_update` takes a client to a later snapshot. -/
theorem SnapshotOf.update (h : SnapshotOf log db) (hlog : (replay log).isSome) {n : Nat} (hn : 0 < n)
    (hlt : db.snapshotVersion < log.length) :
    ∃ db', updateSnapshot db ((log.drop db.snapshotVersion).take n) db.snapshotVersion
        (db.snapshotVersion + ((log.drop db.snapshotVersion).take n).length) = some db' ∧
      SnapshotOf log db' ∧ db.snapshotVersion < db'.snapshotVersion := by
  obtain ⟨db', hdb'⟩ := Option.isSome_iff_exists.mp (replay_take_isSome hlog (db.snapshotVersion + n))
  have hsplit : log.take (db.snapshotVersion + n) =
      log.take db.snapshotVersion ++ (log.drop db.snapshotVersion).take n := List.take_add
  have hfold : ((log.drop db.snapshotVersion).take n).foldlM applyEntry db = some db' := by
    have hreplay := hdb'
    rw [hsplit, replay, List.foldlM_append] at hreplay
    obtain ⟨db1, h1, h2⟩ := Option.bind_eq_some_iff.mp hreplay
    rw [show db = db1 from Option.some.inj (h.take.symm.trans h1)]
    rwa [show db = db1 from Option.some.inj (h.take.symm.trans h1)] at h2
  have hversion := foldlM_applyEntry_version hfold
  have hpos : 0 < ((log.drop db.snapshotVersion).take n).length := by
    rw [List.length_take, List.length_drop]
    omega
  refine ⟨db', ?_, ⟨_, List.take_prefix _ _, hdb'⟩, by omega⟩
  unfold updateSnapshot
  rw [if_neg (by omega), if_neg (by omega), updateLoop_eq (le_refl _), hfold]
  show some { db' with snapshotVersion := _ } = some db'
  rw [← hversion]

end SnapshotOf

/-! ## What clients append -/

/-- An entry that the operations append: user paths are absolute, `/` is not moved or replaced, and
    symbolic links are not empty. -/
structure DbEntry.Proper (entry : DbEntry) : Prop where
  origin : (iointercept entry.origin).head? = some '/'
  move : entry.type = .MOVE → iointercept entry.origin ≠ root ∧
    (iointercept entry.target).head? = some '/' ∧ iointercept entry.target ≠ root
  link : entry.type = .SYMLINK → iointercept entry.target ≠ []

/-- An entry of a snapshot that takes no path to `/`. -/
structure PMEntry.Grounded (k : Str) (e : PMEntry) : Prop where
  key : k.head? = some '/' ∨ k.head? = some '|'
  target : e.type ≠ .NONE → e.target ≠ []
  reuse : e.type = .REUSE → e.target.head? = some '|'
  below : e.type = .MOVE ∨ e.type = .REUSE → k ≠ root ∧ e.target ≠ root

/-- Every entry is grounded. -/
def Grounded (snap : Snapshot) : Prop := ∀ k e, snap.find k = some e → e.Grounded k

section Grounded

variable {snap : Snapshot} {db db' : PathMapDB} {k : Str} {e : PMEntry}

theorem grounded_empty : Grounded ∅ := by
  intro k e he
  rw [find_empty] at he
  cases he

theorem Grounded.insert (h : Grounded snap) (he : e.Grounded k) : Grounded (snap.insert k e) := by
  intro k' e' he'
  rw [find_insert] at he'
  split at he'
  · rename_i hk
    rw [hk, ← Option.some.inj he']
    exact he
  · exact h k' e' he'

theorem Grounded.erase (h : Grounded snap) (k : Str) : Grounded (snap.erase k) := by
  intro k' e' he'
  rw [find_erase] at he'
  split at he'
  · cases he'
  · exact h k' e' he'

theorem reuseName_head (version : Nat) : (reuseName version).head? = some '|' := rfl

theorem grounded_reuseName (hk : k.head? = some '/') (hr : k ≠ root) (version stamp : Nat) :
    PMEntry.Grounded k ⟨.REUSE, reuseName version, stamp⟩ where
  key := Or.inl hk
  target _ := by simp [reuseName, lit]
  reuse _ := reuseName_head version
  below _ := ⟨hr, by simp [reuseName, lit, root]⟩

/-- A move entry for a directory takes over the target of the entry it had so far. -/
theorem PMEntry.Grounded.moved (he : e.Grounded k) (hty : e.type = .MOVE ∨ e.type = .REUSE) {d : Str}
    (hd : d.head? = some '/') (hr : d ≠ root) (stamp : Nat) :
    PMEntry.Grounded d ⟨.MOVE, e.target, stamp⟩ where
  key := Or.inl hd
  target _ := he.target (by rcases hty with h | h <;> rw [h] <;> decide)
  reuse h := by cases h
  below _ := ⟨hr, (he.below hty).2⟩

theorem Grounded.addDirectoryMove (h : Grounded db.snapshot) {entry : DbEntry} (hp : entry.Proper)
    (hty : entry.type = .MOVE) (hdb : addDirectoryMove db entry.origin entry.target = some db') :
    Grounded db'.snapshot := by
  obtain ⟨hor, hd, hdr⟩ := hp.move hty
  have hmoved : ∀ snap, moveMapping db.snapshot (db.snapshotVersion + 1) (iointercept entry.origin)
      (iointercept entry.target) = some snap → Grounded snap := by
    intro snap hsnap
    unfold moveMapping at hsnap
    cases hf : db.snapshot.find (iointercept entry.origin) with
    | none =>
      rw [hf] at hsnap
      rw [← Option.some.inj hsnap]
      refine (h.insert ⟨Or.inl hd, fun _ hnil => ?_, by simp, fun _ => ⟨hdr, hor⟩⟩).insert
        (grounded_reuseName hp.origin hor _ _)
      have hhead := hp.origin
      rw [show iointercept entry.origin = [] from hnil] at hhead
      cases hhead
    | some e =>
      rw [hf] at hsnap
      have he := h _ e hf
      dsimp only at hsnap
      split at hsnap
      · rename_i hre
        rw [← Option.some.inj hsnap]
        exact (h.insert (he.moved (Or.inr hre) hd hdr _)).insert (grounded_reuseName hp.origin hor _ _)
      · rename_i hmo
        rw [← Option.some.inj hsnap]
        exact (h.insert (he.moved (Or.inl hmo) hd hdr _)).erase _
      · cases hsnap
  unfold PathMap.addDirectoryMove at hdb
  dsimp only at hdb
  split at hdb
  · cases hdb
  · rename_i snap hsnap
    split at hdb
    · rw [← Option.some.inj hdb]
      exact ((hmoved snap hsnap).erase _).erase _
    · rw [← Option.some.inj hdb]
      exact hmoved snap hsnap

theorem Grounded.addSoftLink (h : Grounded db.snapshot) {entry : DbEntry} (hp : entry.Proper)
    (hty : entry.type = .SYMLINK) (hdb : addSoftLink db entry.origin entry.target = some db') :
    Grounded db'.snapshot := by
  have hlink : ∀ k : Str, k.head? = some '/' ∨ k.head? = some '|' →
      PMEntry.Grounded k ⟨.SYMLINK, iointercept entry.target, 0⟩ :=
    fun k hk => ⟨hk, fun _ => hp.link hty, by simp, by simp⟩
  unfold PathMap.addSoftLink at hdb
  dsimp only at hdb
  split at hdb
  · rw [← Option.some.inj hdb]
    exact h.insert (hlink _ (Or.inl hp.origin))
  · rename_i e he
    split at hdb
    · rename_i hre
      rw [← Option.some.inj hdb]
      exact h.insert (hlink _ (Or.inr ((h _ e he).reuse hre)))
    · cases hdb

theorem Grounded.addPermissionChange (h : Grounded db.snapshot) {path : Str}
    (hp : (iointercept path).head? = some '/') : Grounded (addPermissionChange db path).snapshot := by
  refine h.insert ?_
  split
  · rename_i e he
    have hg := h _ e he
    exact ⟨hg.key, hg.target, hg.reuse, hg.below⟩
  · exact ⟨Or.inl hp, by simp, by simp, by simp⟩

theorem Grounded.applyEntry (h : Grounded db.snapshot) {entry : DbEntry} (hp : entry.Proper)
    (hdb : applyEntry db entry = some db') : Grounded db'.snapshot := by
  unfold PathMap.applyEntry at hdb
  split at hdb
  · rename_i hty
    exact h.addDirectoryMove hp hty hdb
  · rename_i hty
    exact h.addSoftLink hp hty hdb
  · rw [← Option.some.inj hdb]
    exact h.addPermissionChange hp.origin
  · rw [← Option.some.inj hdb]
    exact h.erase _

theorem Grounded.foldlM (h : Grounded db.snapshot) {entries : List DbEntry}
    (hp : ∀ entry ∈ entries, entry.Proper) (hdb : entries.foldlM PathMap.applyEntry db = some db') :
    Grounded db'.snapshot := by
  induction entries generalizing db with
  | nil =>
    cases hdb
    exact h
  | cons entry entries ih =>
    obtain ⟨db1, h1, h2⟩ := Option.bind_eq_some_iff.mp hdb
    exact ih (h.applyEntry (hp entry List.mem_cons_self) h1)
      (fun x hx => hp x (List.mem_cons_of_mem _ hx)) h2

theorem SnapshotOf.grounded {log : List DbEntry} (h : SnapshotOf log db)
    (hp : ∀ entry ∈ log, entry.Proper) : Grounded db.snapshot := by
  obtain ⟨entries, hpre, hreplay⟩ := h
  exact grounded_empty.foldlM (fun entry hx => hp entry (hpre.subset hx)) hreplay

end Grounded

/-! ## Where paths lead -/

section Leads

variable {snap : Snapshot} {db : PathMapDB} {fr : Bool} {p key : Str} {fuel links : Nat} {ts ts' : Int}

/-- The loop comes to `/` only if it starts there. -/
theorem loop_root (h : Grounded snap)
    (hl : toSystemPathLoop snap false fuel p fr links ts = some (root, ts')) (hts : 0 ≤ ts) : p = root := by
  induction fuel generalizing p fr links ts with
  | zero => cases hl
  | succ n ih =>
    rw [toSystemPathLoop] at hl
    rcases hq : searchPathRecursive snap p ts fr false with ⟨_ | _, q, ts1⟩
    · rw [hq] at hl
      exact congrArg Prod.fst (Option.some.inj hl)
    · rw [hq] at hl
      obtain ⟨hit, hle, -⟩ := search_true hts hq
      cases he : snap.find q with
      | none => simp [he] at hl
      | some e =>
        simp only [he] at hl
        split at hl
        · exact congrArg Prod.fst (Option.some.inj hl)
        · have hnext := ih hl (hts.trans hle)
          have hg := h q e he
          have hf := hit.follows
          simp only [Follows, found, he] at hf
          -- the target would be `/` itself, and the whole path its name
          have htarget : e.target ≠ [] := hg.target fun hty => by simp [remaps, hty] at hf
          obtain ⟨htr, hrest⟩ : e.target = root ∧ p.drop q.length = [] := by
            unfold root at hnext ⊢
            rw [List.append_eq_singleton_iff] at hnext
            exact hnext.resolve_left fun hx => htarget hx.1
          have hqp : q = p := by
            rw [← hit.under.drop_eq, hrest, List.append_nil]
          have hty : e.type = .MOVE ∨ e.type = .REUSE := by
            cases hty : e.type with
            | MOVE => exact Or.inl rfl
            | REUSE => exact Or.inr rfl
            | SYMLINK => simp [remaps, hty, hqp] at hf
            | NONE => simp [remaps, hty] at hf
          exact absurd htr (hg.below hty).2

theorem root_of_toSystemPath (h : Grounded db.snapshot)
    (hp : toSystemPath db fuel p .LOOKUP = some (root, ts)) : iointercept p = root := by
  unfold toSystemPath at hp
  dsimp only at hp
  split at hp
  · exact congrArg Prod.fst (Option.some.inj hp)
  · exact loop_root h hp (le_refl 0)

theorem Grounded.find_nil (h : Grounded snap) : snap.find [] = none := by
  cases hf : snap.find [] with
  | none => rfl
  | some e =>
    rcases (h [] e hf).key with hk | hk
    · cases hk
    · cases hk

theorem found_nil (h : Grounded snap) (fs : Bool) : found snap [] fr fs = false := by
  rw [found, h.find_nil]

theorem seen_nil (h : Grounded snap) (ts : Int) : seen snap [] ts = ts := by
  rw [seen, h.find_nil]

/-- No entry redirects `/`, and the time stamp is that of its last permission change. -/
theorem toSystemPath_root (h : Grounded db.snapshot) (hp : iointercept p = root) (fuel : Nat) :
    toSystemPath db (fuel + 1) p .LOOKUP = some (root, (stampOf db.snapshot root : Int)) := by
  have hf : found db.snapshot root true false = false := by
    cases hf : db.snapshot.find root with
    | none => simp [found, hf]
    | some e =>
      have hg := h root e hf
      cases hty : e.type with
      | MOVE => exact absurd rfl (hg.below (Or.inl hty)).1
      | REUSE => exact absurd rfl (hg.below (Or.inr hty)).1
      | SYMLINK => simp [found, hf, remaps, hty]
      | NONE => simp [found, hf, remaps, hty]
  have hseen : seen db.snapshot root 0 = stampOf db.snapshot root := by
    unfold seen stampOf
    cases db.snapshot.find root with
    | none => rfl
    | some e => simp
  have hsearch : searchPathRecursive db.snapshot root 0 true false =
      (false, [], (stampOf db.snapshot root : Int)) := by
    rw [searchPathRecursive_eq, hf, hseen, if_neg (by decide), if_neg (by decide)]
    show searchPathRecursive db.snapshot [] (stampOf db.snapshot root) true true = _
    rw [searchPathRecursive_eq, found_nil h, seen_nil h]
    rfl
  unfold toSystemPath
  rw [hp]
  show toSystemPathLoop db.snapshot false (fuel + 1) root true 0 0 = _
  rw [toSystemPathLoop, hsearch]

/-- A name without slash and colon is no key of the snapshot. -/
theorem toSystemPath_name (h : Grounded db.snapshot) (hs : '/' ∉ p) (hc : ':' ∉ p)
    (hb : p.head? ≠ some '|') (fuel : Nat) :
    ∃ ts, toSystemPath db (fuel + 1) p .LOOKUP = some (p, ts) := by
  have hnone : db.snapshot.find p = none := by
    cases hf : db.snapshot.find p with
    | none => rfl
    | some e =>
      rcases (h p e hf).key with hk | hk
      · exact absurd (List.mem_of_mem_head? hk) hs
      · exact absurd hk hb
  unfold toSystemPath
  rw [iointercept_of_colonFree hc]
  dsimp only
  split
  · exact ⟨_, rfl⟩
  · obtain ⟨q, ts, hsearch⟩ : ∃ q ts, searchPathRecursive db.snapshot p 0 true false = (false, q, ts) := by
      rw [searchPathRecursive_eq, if_neg (by simp [found, hnone])]
      split
      · exact ⟨_, _, rfl⟩
      · rw [findLastOf_eq_none.mpr hs]
        exact ⟨_, _, rfl⟩
    refine ⟨ts, ?_⟩
    show toSystemPathLoop db.snapshot false (fuel + 1) p true 0 0 = _
    rw [toSystemPathLoop, hsearch]

theorem search_timeStamp {q : Str} {fs b : Bool} (hts : 0 ≤ ts)
    (h : searchPathRecursive snap p ts fr fs = (b, q, ts')) : 0 ≤ ts' ∨ ts' = -ENAMETOOLONG := by
  induction hl : p.length using Nat.strong_induction_on generalizing p ts fs with
  | _ n ih =>
    rw [searchPathRecursive_eq] at h
    have hseen := hts.trans (le_seen snap p ts)
    split_ifs at h
    · obtain ⟨-, -, rfl⟩ : true = b ∧ p = q ∧ seen snap p ts = ts' := by simpa using h
      exact Or.inl hseen
    · obtain ⟨-, -, rfl⟩ : false = b ∧ p = q ∧ -ENAMETOOLONG = ts' := by simpa using h
      exact Or.inr rfl
    · cases hpos : findLastOf '/' p with
      | none =>
        rw [hpos] at h
        obtain ⟨-, -, rfl⟩ : false = b ∧ p = q ∧ seen snap p ts = ts' := by simpa using h
        exact Or.inl hseen
      | some i =>
        rw [hpos] at h
        have hlt := (findLastOf_eq_some hpos).2.2
        have hlen : (p.take i).length < n := by
          rw [List.length_take]
          omega
        exact ih _ hlen hseen h rfl

/-- The time stamp is an error or not negative. -/
theorem loop_timeStamp (hl : toSystemPathLoop snap false fuel p fr links ts = some (key, ts'))
    (hts : 0 ≤ ts) : 0 ≤ ts' ∨ ts' = -ENAMETOOLONG ∨ ts' = -ELOOP := by
  induction fuel generalizing p fr links ts with
  | zero => cases hl
  | succ n ih =>
    rw [toSystemPathLoop] at hl
    rcases hq : searchPathRecursive snap p ts fr false with ⟨_ | _, q, ts1⟩
    · rw [hq] at hl
      obtain rfl : ts1 = ts' := congrArg Prod.snd (Option.some.inj hl)
      exact (search_timeStamp hts hq).imp id Or.inl
    · rw [hq] at hl
      cases he : snap.find q with
      | none => simp [he] at hl
      | some e =>
        simp only [he] at hl
        split at hl
        · exact Or.inr (Or.inr (congrArg Prod.snd (Option.some.inj hl)).symm)
        · exact ih hl (hts.trans (search_true hts hq).2.1)

theorem toSystemPath_timeStamp (hp : toSystemPath db fuel p .LOOKUP = some (key, ts)) :
    0 ≤ ts ∨ ts = -ENAMETOOLONG ∨ ts = -ELOOP := by
  unfold toSystemPath at hp
  dsimp only at hp
  split at hp
  · exact Or.inr (Or.inl (congrArg Prod.snd (Option.some.inj hp)).symm)
  · exact loop_timeStamp hp (le_refl 0)

theorem toSystemPath_le {n m : Nat} {ctype : CallingType} {res : Str × Int} (hnm : n ≤ m)
    (h : toSystemPath db n p ctype = some res) : toSystemPath db m p ctype = some res := by
  unfold toSystemPath at h ⊢
  dsimp only at h ⊢
  split at h
  · rename_i hlen
    rw [if_pos hlen]
    exact h
  · rename_i hlen
    rw [if_neg hlen]
    exact toSystemPathLoop_le hnm h

/-- Some number of rounds is enough for a path on all snapshots of a log. -/
theorem eventually_toSystemPath {log : List DbEntry}
    (h : ∀ db, SnapshotOf log db → ∃ res, ToSystemPath db p .LOOKUP res) :
    ∀ᶠ fuel in Filter.atTop, ∀ db, SnapshotOf log db → ∃ res, toSystemPath db fuel p .LOOKUP = some res := by
  refine (Filter.eventually_all_finite (finite_snapshotOf log)).mpr fun db hdb => ?_
  obtain ⟨res, n, hn⟩ := h db hdb
  filter_upwards [Filter.eventually_ge_atTop n] with fuel hfuel
  exact ⟨res, toSystemPath_le hfuel hn⟩

end Leads

end HFlat.PathMap
