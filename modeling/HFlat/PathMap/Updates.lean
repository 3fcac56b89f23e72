/-
  What each update of the path map does to a lookup. `addDirectoryMove` is described once, by
  `Moved` (what is recorded for the destination and what is left at the origin) and
  `addDirectoryMove_find`; every invariant of the snapshot is derived from these.
-/
import HFlat.PathMap.Namespace

namespace HFlat.PathMap

open HFlat.Lib

/-! ## Directory moves -/

/-- The move of `o` recorded at `version`: the new mapping of the destination has target `t` and
    time stamp `ts`, and `left` is the entry left at the origin. -/
inductive Moved (snap : Snapshot) (version : Nat) (o : Str) : Str → Nat → Option PMEntry → Prop
  | first (h : snap.find o = none) :
      Moved snap version o o 0 (some ⟨.REUSE, reuseName version, 0⟩)
  | reused {e : PMEntry} (h : snap.find o = some e) (ht : e.type = .REUSE) :
      Moved snap version o e.target e.permissionTimeStamp
        (some ⟨.REUSE, reuseName version, e.permissionTimeStamp⟩)
  | again {e : PMEntry} (h : snap.find o = some e) (ht : e.type = .MOVE) :
      Moved snap version o e.target e.permissionTimeStamp none

/-- The entry of `k` after the move: a move back to the target of the mapping erases both names. -/
def movedFind (snap : Snapshot) (o d t : Str) (ts : Nat) (left : Option PMEntry) (k : Str) :
    Option PMEntry :=
  if t = d then (if k = o ∨ k = d then none else snap.find k)
  else if k = d then some ⟨.MOVE, t, ts⟩
  else if k = o then left
  else snap.find k

/-- The target of the mapping that a move of `o` creates. -/
def moveTarget (snap : Snapshot) (o : Str) : Str := ((snap.find o).map PMEntry.target).getD o

theorem Moved.target_eq {snap : Snapshot} {v : Nat} {o t : Str} {ts : Nat} {left : Option PMEntry}
    (h : Moved snap v o t ts left) : moveTarget snap o = t := by
  unfold moveTarget
  cases h with
  | first hl => simp [hl]
  | reused hl _ => simp [hl]
  | again hl _ => simp [hl]

theorem Moved.stamp_eq {snap : Snapshot} {v : Nat} {o t : Str} {ts : Nat} {left : Option PMEntry}
    (h : Moved snap v o t ts left) : stampOf snap o = ts := by
  unfold stampOf
  cases h with
  | first hl => simp [hl]
  | reused hl _ => simp [hl]
  | again hl _ => simp [hl]

/-- Where an entry after a directory move comes from. -/
theorem Moved.find_cases {snap : Snapshot} {v : Nat} {o d t : Str} {ts : Nat}
    {left : Option PMEntry} (h : Moved snap v o t ts left) {k : Str} {e : PMEntry}
    (he : movedFind snap o d t ts left k = some e) :
    (k = d ∧ t ≠ d ∧ e = ⟨.MOVE, t, stampOf snap o⟩) ∨
      (k = o ∧ e = ⟨.REUSE, reuseName v, stampOf snap o⟩) ∨
      (k ≠ o ∧ k ≠ d ∧ snap.find k = some e) := by
  unfold movedFind at he
  split_ifs at he with htd hk hk hk'
  · simp only [not_or] at hk
    exact Or.inr (Or.inr ⟨hk.1, hk.2, he⟩)
  · refine Or.inl ⟨hk, htd, ?_⟩
    rw [← Option.some.inj he, h.stamp_eq]
  · refine Or.inr (Or.inl ⟨hk', ?_⟩)
    cases h with
    | first hl => rw [← Option.some.inj he]; simp [stampOf, hl]
    | reused hl _ => rw [← Option.some.inj he]; simp [stampOf, hl]
    | again _ _ => simp at he
  · exact Or.inr (Or.inr ⟨hk', hk, he⟩)

theorem find_empty (k : Str) : Snapshot.find ∅ k = none := Finmap.lookup_empty k

theorem find_insert (snap : Snapshot) (a k : Str) (e : PMEntry) :
    Snapshot.find (snap.insert a e) k = if k = a then some e else snap.find k := by
  unfold Snapshot.find
  split
  · subst k; exact Finmap.lookup_insert snap
  · exact Finmap.lookup_insert_of_ne snap ‹_›

theorem find_erase (snap : Snapshot) (a k : Str) :
    Snapshot.find (snap.erase a) k = if k = a then none else snap.find k := by
  unfold Snapshot.find
  split
  · subst k; exact Finmap.lookup_erase a snap
  · exact Finmap.lookup_erase_ne ‹_›

theorem addDirectoryMove_find {db db' : PathMapDB} {o d : Str} (ho : iointercept o = o)
    (hd : iointercept d = d) (hne : o ≠ d) (h : addDirectoryMove db o d = some db') :
    db'.snapshotVersion = db.snapshotVersion + 1 ∧
      ∃ t ts left, Moved db.snapshot (db.snapshotVersion + 1) o t ts left ∧
        ∀ k, db'.snapshot.find k = movedFind db.snapshot o d t ts left k := by
  unfold addDirectoryMove moveMapping at h
  simp only [ho, hd] at h
  cases hl : db.snapshot.find o with
  | none =>
    simp only [hl, find_insert, Ne.symm hne, if_false, if_true, Option.map_some,
      Option.some.injEq, hne] at h
    refine ⟨by rw [← h], o, 0, _, Moved.first hl, fun k => ?_⟩
    rw [← h]
    simp only [find_insert, movedFind, hne, if_false]
    by_cases h1 : k = d
    · simp [h1, Ne.symm hne]
    · by_cases h2 : k = o <;> simp [h1, h2, hne]
  | some e =>
    simp only [hl] at h
    cases ht : e.type with
    | SYMLINK => simp [ht] at h
    | NONE => simp [ht] at h
    | REUSE =>
      simp only [ht, find_insert, Ne.symm hne, if_false, if_true, Option.map_some,
        Option.some.injEq] at h
      refine ⟨?_, _, _, _, Moved.reused hl ht, fun k => ?_⟩
      · split_ifs at h <;> (rw [Option.some.injEq] at h; rw [← h])
      · split_ifs at h with htd <;> (rw [Option.some.injEq] at h; rw [← h])
        · simp only [find_insert, find_erase, movedFind, htd, if_true]
          by_cases h1 : k = o <;> by_cases h2 : k = d <;> simp [h1, h2]
        · simp only [find_insert, movedFind, htd, if_false]
          by_cases h1 : k = d
          · simp [h1, Ne.symm hne]
          · by_cases h2 : k = o <;> simp [h1, h2, hne]
    | MOVE =>
      simp only [ht, find_insert, find_erase, Ne.symm hne, if_false, if_true,
        Option.map_some, Option.some.injEq] at h
      refine ⟨?_, _, _, _, Moved.again hl ht, fun k => ?_⟩
      · split_ifs at h <;> (rw [Option.some.injEq] at h; rw [← h])
      · split_ifs at h with htd <;> (rw [Option.some.injEq] at h; rw [← h])
        · simp only [find_insert, find_erase, movedFind, htd, if_true]
          by_cases h1 : k = o <;> by_cases h2 : k = d <;> simp [h1, h2]
        · simp only [find_insert, find_erase, movedFind, htd, if_false]
          by_cases h1 : k = d
          · simp [h1, Ne.symm hne]
          · by_cases h2 : k = o <;> simp [h1, h2, hne]

/-! ## Other updates -/

theorem addPermissionChange_find (db : PathMapDB) {u p : Str} (hp : iointercept u = p) (k : Str) :
    (addPermissionChange db u).snapshot.find k =
      if k = p then
        some (((db.snapshot.find p).map fun e =>
          ⟨e.type, e.target, db.snapshotVersion + 1⟩).getD ⟨.NONE, [], db.snapshotVersion + 1⟩)
      else db.snapshot.find k := by
  unfold addPermissionChange
  simp only [hp, find_insert]
  cases db.snapshot.find p <;> rfl

theorem addUnlink_find (db : PathMapDB) (p k : Str) :
    (addUnlink db p).snapshot.find k =
      if k = iointercept p then none else db.snapshot.find k := by
  unfold addUnlink
  exact find_erase db.snapshot (iointercept p) k

/-- A symbolic link is stored at its origin, or at the name that replaces a reused origin. -/
theorem addSoftLink_find {db db' : PathMapDB} {o t : Str} (h : addSoftLink db o t = some db') :
    db'.snapshotVersion = db.snapshotVersion + 1 ∧ ∃ key,
      (key = iointercept o ∧ db.snapshot.find key = none ∨
        ∃ e, db.snapshot.find (iointercept o) = some e ∧ e.type = .REUSE ∧ key = e.target) ∧
      ∀ k, db'.snapshot.find k =
        if k = key then some ⟨.SYMLINK, iointercept t, 0⟩ else db.snapshot.find k := by
  unfold addSoftLink at h
  cases hl : db.snapshot.find (iointercept o) with
  | none =>
    simp only [hl, Option.some.injEq] at h
    subst h
    exact ⟨rfl, iointercept o, Or.inl ⟨rfl, hl⟩, fun k => find_insert _ _ _ _⟩
  | some e =>
    simp only [hl] at h
    split_ifs at h with ht
    rw [Option.some.injEq] at h
    subst h
    exact ⟨rfl, e.target, Or.inr ⟨e, rfl, ht, rfl⟩, fun k => find_insert _ _ _ _⟩

end HFlat.PathMap
