/-
  Replay of the database log. The snapshot of a client is a function of the entries it has
  applied: `replay`. A batch update (`updateSnapshot`) extends a replay by its entries, and a
  serialized snapshot is loaded (`loadSnapshot`) as the replay it was taken from.
-/
import HFlat.PathMap.Model

namespace HFlat.PathMap

/-- The snapshot after the given entries, from the empty one. -/
def replay (entries : List DbEntry) : Option PathMapDB := entries.foldlM applyEntry PathMapDB.empty

/-! ## Versions -/

theorem addSoftLink_version {db db' : PathMapDB} {o d : Str} (h : addSoftLink db o d = some db') :
    db'.snapshotVersion = db.snapshotVersion + 1 := by
  simp only [addSoftLink] at h
  split at h
  · cases h
    rfl
  · split at h
    · cases h
      rfl
    · cases h

theorem addDirectoryMove_version {db db' : PathMapDB} {o d : Str}
    (h : addDirectoryMove db o d = some db') : db'.snapshotVersion = db.snapshotVersion + 1 := by
  simp only [addDirectoryMove] at h
  split at h
  · cases h
  · split at h
    · cases h
      rfl
    · cases h
      rfl

theorem applyEntry_version {db db' : PathMapDB} {entry : DbEntry}
    (h : applyEntry db entry = some db') : db'.snapshotVersion = db.snapshotVersion + 1 := by
  unfold applyEntry at h
  split at h
  · exact addDirectoryMove_version h
  · exact addSoftLink_version h
  · cases h
    rfl
  · cases h
    rfl

theorem foldlM_applyEntry_version {entries : List DbEntry} {db db' : PathMapDB}
    (h : entries.foldlM applyEntry db = some db') :
    db'.snapshotVersion = db.snapshotVersion + entries.length := by
  induction entries generalizing db with
  | nil =>
    cases h
    rfl
  | cons entry entries ih =>
    obtain ⟨db1, h1, h2⟩ := Option.bind_eq_some_iff.mp h
    rw [ih h2, applyEntry_version h1, List.length_cons]
    omega

theorem replay_version {entries : List DbEntry} {db : PathMapDB} (h : replay entries = some db) :
    db.snapshotVersion = entries.length := by
  have := foldlM_applyEntry_version h
  rwa [show PathMapDB.empty.snapshotVersion = 0 from rfl, Nat.zero_add] at this

theorem replay_append {entries more : List DbEntry} {db db' : PathMapDB}
    (h : replay entries = some db) (h' : more.foldlM applyEntry db = some db') :
    replay (entries ++ more) = some db' := by
  rw [replay, List.foldlM_append]
  exact Option.bind_eq_some_iff.mpr ⟨db, h, h'⟩

/-! ## Batches -/

/-- No entry is skipped when the batch starts at or before the version of the snapshot. -/
theorem updateLoop_eq {fromVersion currentVersion : Nat} (hle : fromVersion ≤ currentVersion)
    (db : PathMapDB) (entries : List DbEntry) :
    updateLoop fromVersion db currentVersion entries = entries.foldlM applyEntry db := by
  induction entries generalizing db currentVersion with
  | nil => rfl
  | cons entry entries ih =>
    have hskip : ¬ currentVersion + 1 < fromVersion := by omega
    rw [updateLoop, if_neg hskip, List.foldlM_cons]
    cases applyEntry db entry with
    | none => rfl
    | some db1 => exact ih (by omega) db1

/-- A batch that starts at the version of the snapshot applies all of its entries. -/
theorem updateSnapshot_eq {db db' : PathMapDB} {entries : List DbEntry} {toVersion : Nat}
    (h : updateSnapshot db entries db.snapshotVersion toVersion = some db') :
    entries.foldlM applyEntry db = some db' := by
  unfold updateSnapshot at h
  split at h
  · cases h
  · rename_i hassert
    split at h
    · have hnil : entries = [] := List.length_eq_zero_iff.mp (by omega)
      rw [hnil]
      exact h
    · rw [updateLoop_eq (le_refl _)] at h
      split at h
      · cases h
      · rename_i db1 hdb1
        have hversion := foldlM_applyEntry_version hdb1
        rw [hdb1, ← h]
        congr 1
        show db1 = { db1 with snapshotVersion := toVersion }
        rw [show toVersion = db1.snapshotVersion by omega]

/-! ## Serialized snapshots -/

/-- Inserting the entries of the listed keys. -/
theorem lookup_insert_entries (snap : Snapshot) (order : List Str) (acc : Snapshot) (k : Str) :
    ((order.filterMap fun k => (snap.find k).map fun e => (k, e)).foldl
      (fun acc e => acc.insert e.1 e.2) acc).lookup k =
      if k ∈ order ∧ (snap.find k).isSome then snap.find k else acc.lookup k := by
  induction order generalizing acc with
  | nil => simp
  | cons a order ih =>
    cases ha : snap.find a with
    | none =>
      rw [List.filterMap_cons_none (by simp [ha]), ih]
      by_cases hk : k = a
      · subst hk
        simp [ha]
      · simp [hk]
    | some e =>
      rw [List.filterMap_cons_some (by simp [ha]; rfl), List.foldl_cons, ih]
      by_cases hk : k = a
      · subst hk
        simp [ha]
      · simp [hk, Finmap.lookup_insert_of_ne]

/-- Loading a serialized snapshot gives back the snapshot it was taken from, if that is newer. -/
theorem loadSnapshot_serializeSnapshot {db db' : PathMapDB} {order : List Str} {s : DbSnapshot}
    (h : serializeSnapshot db order = some s) :
    loadSnapshot db' s = if db.snapshotVersion ≤ db'.snapshotVersion then db' else db := by
  unfold serializeSnapshot at h
  split at h
  · rename_i horder
    cases h
    unfold loadSnapshot
    dsimp only
    split
    · rfl
    · have hsnap : (order.filterMap fun k => (db.snapshot.find k).map fun e => (k, e)).foldl
          (fun acc e => acc.insert e.1 e.2) (∅ : Snapshot) = db.snapshot := by
        refine Finmap.ext_lookup fun k => ?_
        rw [lookup_insert_entries]
        split
        · rfl
        · rename_i hk
          have hmem : k ∈ order ↔ k ∈ db.snapshot := by
            rw [← List.mem_toFinset, horder.2, Finmap.mem_keys]
          rw [Finmap.lookup_empty]
          cases hf : db.snapshot.find k with
          | none => exact hf.symm
          | some e => exact absurd ⟨hmem.mpr (Finmap.mem_of_lookup_eq_some hf), by simp [hf]⟩ hk
      rw [hsnap]
  · cases h

end HFlat.PathMap
