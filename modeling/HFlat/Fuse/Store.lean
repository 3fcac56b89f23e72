/-
  What one access does to the metadata keys of the store: a read changes nothing, a conditional
  write takes effect only if the stored version is the expected one, and an access whose answer is
  lost may have taken effect.
-/
import HFlat.Fuse.Model

namespace HFlat.Fuse

open HFlat.Lib HFlat.PathMap HFlat.Permission
open HFlat.Replication (KineticRecord StatusCode versionOf putSame deleteSame)

variable {uuid : Nat → Str} {s s' : Store} {me mdi : Nat} {why : Purpose} {key : Str} {choice : Choice}

@[simp] theorem Store.set_metadata (s : Store) (key k : Str) (r : Option (KineticRecord Inode)) :
    (s.set key r).metadata k = if k = key then r else s.metadata k := Function.update_apply _ _ _ _

@[simp] theorem Store.set_uuids (s : Store) (key : Str) (r : Option (KineticRecord Inode)) :
    (s.set key r).uuids = s.uuids := rfl

theorem Store.set_self (s : Store) (key : Str) : s.set key (s.metadata key) = s := by
  unfold Store.set
  rw [Function.update_eq_self]

theorem answer_eq {s : Store} {result : StatusCode × Store} {choice : Choice} {x : StatusCode × Store}
    (h : answer s result choice = some x) :
    x = result ∨ x = (.REMOTE_REMOTE_CONNECTION_ERROR, s) ∨
      x = (.REMOTE_REMOTE_CONNECTION_ERROR, result.2) := by
  cases choice with
  | done => exact Or.inl (Option.some.inj h).symm
  | unreachable => exact Or.inr (Or.inl (Option.some.inj h).symm)
  | lost => exact Or.inr (Or.inr (Option.some.inj h).symm)
  | expired b => cases h
  | number n => cases h

theorem serve_get {x : Except StatusCode (KineticRecord Inode)}
    (h : serve uuid s (.get me mdi key) choice = some (x, s')) :
    s' = s ∧ (∀ r, x = .ok r → s.metadata key = some r) ∧
      (x = .error .REMOTE_NOT_FOUND → s.metadata key = none) := by
  have hx : (s.get key choice).map (fun x => (x, s)) = some (x, s') := h
  obtain ⟨x', hget, he⟩ := Option.map_eq_some_iff.mp hx
  cases he
  refine ⟨rfl, ?_⟩
  cases choice with
  | done =>
    cases hm : s.metadata key with
    | none =>
      simp only [Store.get, hm] at hget
      cases hget
      simp
    | some r =>
      simp only [Store.get, hm] at hget
      cases hget
      simp
  | unreachable =>
    cases hget
    simp
  | lost => cases hget
  | expired b => cases hget
  | number n => cases hget

/-- A conditional `Put` of a new version: it takes effect, or it does not. -/
theorem serve_put {expected version : Str} {md : Inode} {status : StatusCode}
    (h : serve uuid s (.put me mdi why key expected md) choice = some ((status, version), s')) :
    version = uuid s.uuids ∧
    ((versionOf (s.metadata key) = expected ∧ status ≠ .REMOTE_VERSION_MISMATCH ∧
        s' = { s.set key (some ⟨md, version⟩) with uuids := s.uuids + 1 }) ∨
      (status ≠ .OK ∧ (status = .REMOTE_VERSION_MISMATCH → versionOf (s.metadata key) ≠ expected) ∧
        s' = { s with uuids := s.uuids + 1 })) := by
  have hx : (answer { s with uuids := s.uuids + 1 } (s.put uuid key expected md) choice).map
      (fun result => ((result.1, uuid s.uuids), result.2)) = some ((status, version), s') := h
  obtain ⟨result, hr, he⟩ := Option.map_eq_some_iff.mp hx
  cases he
  refine ⟨rfl, ?_⟩
  by_cases hv : versionOf (s.metadata key) = expected
  · have hput : s.put uuid key expected md =
        (.OK, { s.set key (some ⟨md, uuid s.uuids⟩) with uuids := s.uuids + 1 }) := by
      simp [Store.put, putSame, hv]
    rw [hput] at hr
    rcases answer_eq hr with rfl | rfl | rfl
    · exact Or.inl ⟨hv, by simp, rfl⟩
    · exact Or.inr ⟨by simp, by simp, rfl⟩
    · exact Or.inl ⟨hv, by simp, rfl⟩
  · have hput : s.put uuid key expected md =
        (.REMOTE_VERSION_MISMATCH, { s with uuids := s.uuids + 1 }) := by
      simp [Store.put, putSame, hv, Store.set_self]
    rw [hput] at hr
    rcases answer_eq hr with rfl | rfl | rfl
    · exact Or.inr ⟨by simp, fun _ => hv, rfl⟩
    · exact Or.inr ⟨by simp, by simp, rfl⟩
    · exact Or.inr ⟨by simp, by simp, rfl⟩

theorem serve_putVersion {record : KineticRecord Inode} {status : StatusCode}
    (h : serve uuid s (.putVersion me why key record) choice = some (status, s')) :
    (versionOf (s.metadata key) = [] ∧ status ≠ .REMOTE_VERSION_MISMATCH ∧
        s' = s.set key (some record)) ∨ (status ≠ .OK ∧ s' = s) := by
  have hr : answer s (s.putVersion key record) choice = some (status, s') := h
  by_cases hv : versionOf (s.metadata key) = []
  · have hput : s.putVersion key record = (.OK, s.set key (some record)) := by
      simp [Store.putVersion, putSame, hv]
    rw [hput] at hr
    rcases answer_eq hr with he | he | he
    · cases he
      exact Or.inl ⟨hv, by simp, rfl⟩
    · cases he
      exact Or.inr ⟨by simp, rfl⟩
    · cases he
      exact Or.inl ⟨hv, by simp, rfl⟩
  · have hput : s.putVersion key record = (.REMOTE_VERSION_MISMATCH, s) := by
      simp [Store.putVersion, putSame, hv, Store.set_self]
    rw [hput] at hr
    rcases answer_eq hr with he | he | he
    · cases he
      exact Or.inr ⟨by simp, rfl⟩
    · cases he
      exact Or.inr ⟨by simp, rfl⟩
    · cases he
      exact Or.inr ⟨by simp, rfl⟩

/-- A `Delete` with the version that is stored, or with any. -/
theorem serve_delete {expected : Option Str} {status : StatusCode}
    (h : serve uuid s (.delete me why key expected) choice = some (status, s')) :
    ((∃ r, s.metadata key = some r ∧ ∀ version, expected = some version → r.version = version) ∧
        status ≠ .REMOTE_VERSION_MISMATCH ∧ s' = s.set key none) ∨
      (status ≠ .OK ∧ s' = s) := by
  have hr : answer s (s.delete key expected) choice = some (status, s') := h
  have hdone : (∃ r, s.metadata key = some r ∧ (∀ version, expected = some version → r.version = version) ∧
      s.delete key expected = (.OK, s.set key none)) ∨
      ((s.delete key expected).1 ≠ .OK ∧ (s.delete key expected).2 = s) := by
    cases hm : s.metadata key with
    | none =>
      have hnone : s.set key none = s := by rw [← hm, Store.set_self]
      cases expected with
      | none => exact Or.inr ⟨by simp [Store.delete, hm], by simp [Store.delete, hm, hnone]⟩
      | some version => exact Or.inr ⟨by simp [Store.delete, hm, deleteSame], by
          simp [Store.delete, hm, deleteSame, hnone]⟩
    | some r =>
      cases expected with
      | none => exact Or.inl ⟨r, rfl, by simp, by simp [Store.delete, hm]⟩
      | some version =>
        by_cases hv : r.version = version
        · refine Or.inl ⟨r, rfl, fun v hv' => ?_, by simp [Store.delete, hm, deleteSame, hv]⟩
          cases hv'
          exact hv
        · have hsome : s.set key (some r) = s := by rw [← hm, Store.set_self]
          exact Or.inr ⟨by simp [Store.delete, hm, deleteSame, hv], by
            simp [Store.delete, hm, deleteSame, hv, hsome]⟩
  rcases hdone with ⟨r, hr', hv, he⟩ | ⟨h1, h2⟩
  · rw [he] at hr
    rcases answer_eq hr with he | he | he
    · cases he
      exact Or.inl ⟨⟨r, hr', hv⟩, by simp, rfl⟩
    · cases he
      exact Or.inr ⟨by simp, rfl⟩
    · cases he
      exact Or.inl ⟨⟨r, hr', hv⟩, by simp, rfl⟩
  · rcases answer_eq hr with he | he | he
    · rw [← he] at h1 h2
      exact Or.inr ⟨h1, h2⟩
    · cases he
      exact Or.inr ⟨by simp, rfl⟩
    · cases he
      exact Or.inr ⟨by simp, h2⟩

/-- The client that accesses a metadata key. -/
def Req.owner : Req → Option Nat
  | .get me _ _ => some me
  | .put me _ _ _ _ _ => some me
  | .putVersion me _ _ _ => some me
  | .delete me _ _ _ => some me
  | _ => none

/-- Requests that concern neither a metadata key nor an object. -/
def Req.quiet : Req → Bool
  | .get _ _ _ => false
  | .put _ _ _ _ _ _ => false
  | .putVersion _ _ _ _ => false
  | .delete _ _ _ _ => false
  | _ => true

theorem serve_quiet {r : Req} {x : Res r} (hr : r.quiet = true)
    (h : serve uuid s r choice = some (x, s')) : s'.metadata = s.metadata ∧ s'.uuids = s.uuids := by
  have hanswer : ∀ {result : StatusCode × Store} {y : StatusCode × Store},
      result.2.metadata = s.metadata ∧ result.2.uuids = s.uuids → answer s result choice = some y →
      y.2.metadata = s.metadata ∧ y.2.uuids = s.uuids := by
    intro result y hresult hy
    rcases answer_eq hy with rfl | rfl | rfl
    · exact hresult
    · exact ⟨rfl, rfl⟩
    · exact hresult
  have hmap : ∀ {α : Type} {o : Option α} {x : α},
      o.map (fun x => (x, s)) = some (x, s') → s'.metadata = s.metadata ∧ s'.uuids = s.uuids := by
    intro α o x ho
    obtain ⟨_, _, he⟩ := Option.map_eq_some_iff.mp ho
    cases he
    exact ⟨rfl, rfl⟩
  cases r with
  | get me mdi key => cases hr
  | put me mdi why key expected md => cases hr
  | putVersion me why key record => cases hr
  | delete me why key expected => cases hr
  | createEntry key => exact hanswer (y := (x, s')) ⟨rfl, rfl⟩ h
  | deleteEntry key => exact hanswer (y := (x, s')) ⟨rfl, rfl⟩ h
  | entryRange start stop max => exact hmap h
  | inodeNumber => exact hmap h
  | expired key => exact hmap h
  | databaseUpdate version => exact hmap h
  | append version entry =>
    refine hanswer (y := (x, s')) ?_ h
    unfold Store.append
    split
    · exact ⟨rfl, rfl⟩
    · exact ⟨rfl, rfl⟩

/-- Requests that write directory entries or the log. -/
def Req.names : Req → Bool
  | .createEntry _ => true
  | .deleteEntry _ => true
  | .append _ _ => true
  | _ => false

theorem serve_unnamed {r : Req} {x : Res r} (hr : r.names = false)
    (h : serve uuid s r choice = some (x, s')) : s'.entries = s.entries ∧ s'.log = s.log := by
  have hmap : ∀ {α : Type} {o : Option α} {x : α},
      o.map (fun x => (x, s)) = some (x, s') → s'.entries = s.entries ∧ s'.log = s.log := by
    intro α o x ho
    obtain ⟨_, _, he⟩ := Option.map_eq_some_iff.mp ho
    cases he
    exact ⟨rfl, rfl⟩
  cases r with
  | createEntry key => cases hr
  | deleteEntry key => cases hr
  | append version entry => cases hr
  | get me mdi key => exact hmap h
  | entryRange start stop max => exact hmap h
  | inodeNumber => exact hmap h
  | expired key => exact hmap h
  | databaseUpdate version => exact hmap h
  | put me mdi why key expected md =>
    obtain ⟨status, version⟩ : StatusCode × Str := x
    obtain ⟨-, ⟨-, -, rfl⟩ | ⟨-, -, rfl⟩⟩ := serve_put h
    · exact ⟨rfl, rfl⟩
    · exact ⟨rfl, rfl⟩
  | putVersion me why key record =>
    rcases serve_putVersion h with ⟨-, -, rfl⟩ | ⟨-, rfl⟩
    · exact ⟨rfl, rfl⟩
    · exact ⟨rfl, rfl⟩
  | delete me why key expected =>
    rcases serve_delete h with ⟨-, -, rfl⟩ | ⟨-, rfl⟩
    · exact ⟨rfl, rfl⟩
    · exact ⟨rfl, rfl⟩

/-- An entry is there once it has been created, and the others stay as they are. -/
theorem serve_createEntry {status : StatusCode}
    (h : serve uuid s (.createEntry key) choice = some (status, s')) :
    s'.metadata = s.metadata ∧ s'.log = s.log ∧ (∀ k, k ≠ key → s'.entries.find k = s.entries.find k) ∧
      (status = .OK ∨ s.entries.find key ≠ none → s'.entries.find key ≠ none) := by
  have hr : answer s (s.createEntry key) choice = some (status, s') := h
  have hfind : (s.createEntry key).2.entries.find key ≠ none := by
    show (s.entries.set key (putSame (s.entries.find key) [] ⟨[], lit "1"⟩).2).find key ≠ none
    rw [Replication.Records.find_set, if_pos rfl]
    cases hf : s.entries.find key with
    | none => simp [putSame, versionOf]
    | some r =>
      unfold putSame
      split <;> simp
  have hother : ∀ k, k ≠ key → (s.createEntry key).2.entries.find k = s.entries.find k := by
    intro k hk
    exact (Replication.Records.find_set _ _ _ _).trans (if_neg hk)
  have hdone : (s.createEntry key).2.metadata = s.metadata ∧ (s.createEntry key).2.log = s.log := ⟨rfl, rfl⟩
  rcases answer_eq hr with he | he | he
  · obtain rfl : s' = (s.createEntry key).2 := congrArg Prod.snd he
    exact ⟨hdone.1, hdone.2, hother, fun _ => hfind⟩
  · cases he
    exact ⟨rfl, rfl, fun _ _ => rfl, fun hs => hs.resolve_left (by simp)⟩
  · cases he
    exact ⟨hdone.1, hdone.2, hother, fun _ => hfind⟩

theorem serve_deleteEntry {status : StatusCode}
    (h : serve uuid s (.deleteEntry key) choice = some (status, s')) {k : Str}
    (hk : s.entries.find k = none) : s'.entries.find k = none := by
  have hr : answer s (s.deleteEntry key) choice = some (status, s') := h
  have hdone : (s.deleteEntry key).2.entries.find k = none := by
    show (s.entries.set key (deleteSame (s.entries.find key) (lit "1")).2).find k = none
    rw [Replication.Records.find_set]
    split
    · rename_i he
      rw [← he, hk]
      rfl
    · exact hk
  rcases answer_eq hr with he | he | he
  · obtain rfl : s' = (s.deleteEntry key).2 := congrArg Prod.snd he
    exact hdone
  · cases he
    exact hk
  · cases he
    exact hdone

theorem serve_append {version : Nat} {entry : DbEntry} {status : StatusCode}
    (h : serve uuid s (.append version entry) choice = some (status, s')) : s'.entries = s.entries := by
  have hr : answer s (s.append version entry) choice = some (status, s') := h
  have hdone : (s.append version entry).2.entries = s.entries := by
    unfold Store.append
    split <;> rfl
  rcases answer_eq hr with he | he | he
  · obtain rfl : s' = (s.append version entry).2 := congrArg Prod.snd he
    exact hdone
  · cases he
    rfl
  · cases he
    exact hdone

/-- Only its creation makes an entry appear. -/
theorem serve_absent {r : Req} {x : Res r} (h : serve uuid s r choice = some (x, s')) {k : Str}
    (hk : s.entries.find k = none) (hr : r ≠ .createEntry k) : s'.entries.find k = none := by
  by_cases hn : r.names = false
  · rw [(serve_unnamed hn h).1]
    exact hk
  cases r with
  | createEntry key =>
    obtain ⟨-, -, hother, -⟩ := serve_createEntry h
    rw [hother k fun he => hr (by rw [he])]
    exact hk
  | deleteEntry key => exact serve_deleteEntry h hk
  | append version entry =>
    rw [serve_append h]
    exact hk
  | _ => exact absurd rfl hn

theorem serve_databaseUpdate {version : Nat} {entries : List DbEntry}
    (h : serve uuid s (.databaseUpdate version) choice = some (Except.ok entries, s')) :
    ∃ n, entries = (s.log.drop version).take n := by
  have hmap : (s.databaseUpdate version choice).map (fun x => (x, s)) = some (Except.ok entries, s') := h
  obtain ⟨x, hx, he⟩ := Option.map_eq_some_iff.mp hmap
  cases he
  clear hmap h
  cases choice with
  | number n =>
    unfold Store.databaseUpdate at hx
    dsimp only at hx
    split_ifs at hx
    · cases hx
    · exact ⟨n, (Except.ok.inj (Option.some.inj hx)).symm⟩
  | unreachable => cases hx
  | done => cases hx
  | lost => cases hx
  | expired b => cases hx

theorem serve_inodeNumber {n : Nat} (h : serve uuid s .inodeNumber choice = some (n, s')) : n ≠ 0 := by
  have hn : (nextInodeNumber choice).map (fun x => (x, s)) = some (n, s') := h
  obtain ⟨n', hn', he⟩ := Option.map_eq_some_iff.mp hn
  cases he
  cases choice with
  | number k =>
    simp only [nextInodeNumber] at hn'
    split at hn'
    · cases hn'
    · cases hn'
      assumption
  | done => cases hn'
  | unreachable => cases hn'
  | lost => cases hn'
  | expired b => cases hn'

end HFlat.Fuse
