/-
  Updates that overlap: `updateSnapshot` with entries that the snapshot has already applied, as
  happens when two threads of a client run `database_update`.

  The loop counts from the version of the snapshot and not from `fromVersion`, so it never skips
  an entry (`updateLoop_eq`): unless the snapshot already has all entries, those between
  `fromVersion` and its version are applied a second time (`updateSnapshot_twice`), and all later
  ones under an index that is too high by as many. A permission change stores this index.
-/
import HFlat.Database.Replay
import HFlat.PathMap.Updates

namespace HFlat.PathMap

variable {log : List DbEntry} {fromVersion version toVersion : Nat} {db db' : PathMapDB}

theorem foldlM_drop_eq (hdb : replay (log.take version) = some db) (hdb' : replay log = some db') :
    (log.drop version).foldlM applyEntry db = some db' := by
  rw [← List.take_append_drop version log, replay, List.foldlM_append] at hdb'
  obtain ⟨db1, h1, h2⟩ := Option.bind_eq_some_iff.mp hdb'
  rw [replay] at hdb
  rw [hdb] at h1
  cases h1
  exact h2

theorem snapshotVersion_take (hdb : replay (log.take version) = some db) (hle : version ≤ log.length) :
    db.snapshotVersion = version := by
  rw [replay_version hdb, List.length_take]
  omega

/-- The entries that the snapshot has already applied are applied again. -/
theorem updateSnapshot_twice (hdb : replay (log.take version) = some db) (hfrom : fromVersion ≤ version)
    (hto : version < log.length) :
    updateSnapshot db (log.drop fromVersion) fromVersion log.length =
      ((log.drop fromVersion).foldlM applyEntry db).map
        fun db => { db with snapshotVersion := log.length } := by
  have hversion := snapshotVersion_take hdb hto.le
  unfold updateSnapshot
  rw [if_neg (by rw [List.length_drop]; omega), if_neg (by omega), hversion, updateLoop_eq hfrom]
  cases (log.drop fromVersion).foldlM applyEntry db with
  | none => rfl
  | some db1 => rfl

/-- A permission change stores its index with the path. -/
theorem stamp_permissionChange {entries : List DbEntry} {p t : Str}
    (h : (entries ++ [(⟨.NONE, p, t⟩ : DbEntry)]).foldlM applyEntry db = some db') :
    (db'.snapshot.find (iointercept p)).map PMEntry.permissionTimeStamp =
      some (db.snapshotVersion + entries.length + 1) := by
  rw [List.foldlM_append] at h
  obtain ⟨db1, h1, h2⟩ := Option.bind_eq_some_iff.mp h
  have hversion := foldlM_applyEntry_version h1
  have hdb' : db' = addPermissionChange db1 p := by
    simpa [applyEntry] using h2.symm
  rw [hdb', addPermissionChange_find db1 rfl, if_pos rfl, ← hversion]
  cases db1.snapshot.find (iointercept p) with
  | none => rfl
  | some e => rfl

/-- If the last entry is a permission change, an overlap leaves the wrong time stamp. -/
theorem updateSnapshot_ne {entries : List DbEntry} {p t : Str} (hlog : log = entries ++ [⟨.NONE, p, t⟩])
    (hdb : replay (log.take version) = some db) (hdb' : replay log = some db') (hfrom : fromVersion < version)
    (hto : version < log.length) :
    updateSnapshot db (log.drop fromVersion) fromVersion log.length ≠ some db' := by
  intro h
  rw [updateSnapshot_twice hdb hfrom.le hto, Option.map_eq_some_iff] at h
  obtain ⟨db1, h1, rfl⟩ := h
  have hversion := snapshotVersion_take hdb hto.le
  have hlength : log.length = entries.length + 1 := by
    rw [hlog, List.length_append]
    rfl
  have hdrop : log.drop fromVersion = entries.drop fromVersion ++ [⟨.NONE, p, t⟩] := by
    rw [hlog, List.drop_append_of_le_length (by omega)]
  rw [hdrop] at h1
  rw [hlog] at hdb'
  have htwice := stamp_permissionChange h1
  have honce := stamp_permissionChange hdb'
  rw [htwice, List.length_drop, Option.some_inj] at honce
  have hempty : PathMapDB.empty.snapshotVersion = 0 := rfl
  omega

theorem updateSnapshot_of_aligned (halign : fromVersion = version ∨ version = log.length)
    (hfrom : fromVersion ≤ version) (hto : version ≤ log.length)
    (hdb : replay (log.take version) = some db) (hdb' : replay log = some db') :
    updateSnapshot db (log.drop fromVersion) fromVersion log.length = some db' := by
  have hversion := snapshotVersion_take hdb hto
  obtain hlt | heq := hto.lt_or_eq
  · obtain rfl : fromVersion = version := halign.resolve_right hlt.ne
    rw [updateSnapshot_twice hdb le_rfl hlt, foldlM_drop_eq hdb hdb', ← replay_version hdb']
    rfl
  · rw [heq, List.take_length, hdb'] at hdb
    cases hdb
    unfold updateSnapshot
    rw [if_neg (by rw [List.length_drop]; omega), if_pos (by omega)]

theorem replay_permissionChanges (p : Str) (n : Nat) :
    ∃ db, replay (List.replicate n ⟨.NONE, p, []⟩) = some db := by
  induction n with
  | zero => exact ⟨_, rfl⟩
  | succ n ih =>
    obtain ⟨db, h⟩ := ih
    rw [List.replicate_succ']
    exact ⟨_, replay_append h rfl⟩

/-- Every log is replayed right by an update exactly if the snapshot is where the update starts or
    already where it ends. -/
theorem updateSnapshot_once_iff (hfrom : fromVersion ≤ version) (hto : version ≤ toVersion) :
    (∀ (log : List DbEntry) (db db' : PathMapDB), log.length = toVersion →
      replay (log.take version) = some db → replay log = some db' →
        updateSnapshot db (log.drop fromVersion) fromVersion toVersion = some db') ↔
      fromVersion = version ∨ version = toVersion := by
  constructor
  · intro h
    by_contra hoverlap
    obtain ⟨hne, hne'⟩ := not_or.mp hoverlap
    obtain ⟨n, rfl⟩ : ∃ n, toVersion = n + 1 := ⟨toVersion - 1, by omega⟩
    obtain ⟨db', hdb'⟩ := replay_permissionChanges (lit "/a") (n + 1)
    obtain ⟨db, hdb⟩ := replay_permissionChanges (lit "/a") version
    have hlength : (List.replicate (n + 1) (⟨.NONE, lit "/a", []⟩ : DbEntry)).length = n + 1 :=
      List.length_replicate
    have htake : (List.replicate (n + 1) (⟨.NONE, lit "/a", []⟩ : DbEntry)).take version =
        List.replicate version ⟨.NONE, lit "/a", []⟩ := by
      rw [List.take_replicate, min_eq_left hto]
    rw [← htake] at hdb
    have hto : version < (List.replicate (n + 1) (⟨.NONE, lit "/a", []⟩ : DbEntry)).length := by omega
    have hwrong := updateSnapshot_ne List.replicate_succ' hdb hdb' (by omega : fromVersion < version) hto
    rw [hlength] at hwrong
    exact hwrong (h _ db db' hlength hdb hdb')
  · rintro halign log db db' rfl hdb hdb'
    exact updateSnapshot_of_aligned halign hfrom hto hdb hdb'

theorem updateSnapshot_once_aligned :
    (∀ (log : List DbEntry) (db db' : PathMapDB), log.length = 3 →
      replay (log.take 1) = some db → replay log = some db' →
        updateSnapshot db (log.drop 1) 1 3 = some db') ↔ 1 = 1 ∨ 1 = 3 :=
  updateSnapshot_once_iff (by decide) (by decide)

/-- Two permission changes of `/a`; the first is applied, the update brings both. -/
theorem updateSnapshot_overlap :
    ∃ db db', replay [⟨.NONE, lit "/a", []⟩] = some db ∧
      replay [⟨.NONE, lit "/a", []⟩, ⟨.NONE, lit "/a", []⟩] = some db' ∧
      updateSnapshot db [⟨.NONE, lit "/a", []⟩, ⟨.NONE, lit "/a", []⟩] 0 2 ≠ some db' := by
  obtain ⟨db, hdb⟩ := replay_permissionChanges (lit "/a") 1
  obtain ⟨db', hdb'⟩ := replay_permissionChanges (lit "/a") 2
  have hlog : [(⟨.NONE, lit "/a", []⟩ : DbEntry), ⟨.NONE, lit "/a", []⟩] =
      [⟨.NONE, lit "/a", []⟩] ++ [⟨.NONE, lit "/a", []⟩] := rfl
  have htake : replay (List.take 1 [(⟨.NONE, lit "/a", []⟩ : DbEntry), ⟨.NONE, lit "/a", []⟩]) = some db := hdb
  exact ⟨db, db', hdb, hdb', updateSnapshot_ne hlog htake hdb' (by decide : 0 < 1) (by decide)⟩

end HFlat.PathMap
