/-
  The rebuild of a drive: what `synchronizeDrive` leaves on the drives of the partition when it
  returns true. `readRepair` enforces the record of the reference drive unless a drive already has
  its version (`enforced`); the pages of the scan cover all keys of the scanned drive between the
  bounds (`post_repairPages`), and nothing else is repaired. One record serves for all keys: under a
  key that the reference drive has lost, the record of the key before is enforced (`rebuildRecord`).
-/
import HFlat.Lib.Carry
import HFlat.Replication.Namespace

namespace HFlat.Replication

open HFlat.Lib

/-! ## Read repair without interference -/

/-- The drives that are in the write quorum. -/
def nonRedIds (p : Partition) : List DriveId := (p.drives.filter (·.status ≠ .RED)).map KineticDrive.id

/-- What `readRepair` leaves on a drive. -/
def enforced (record cur : Option (KineticRecord Str)) : Option (KineticRecord Str) :=
  match record, cur with
  | none, _ => none
  | some r, some c => if c.version = r.version then some c else some r
  | some r, none => some r

theorem enforced_enforced (record cur : Option (KineticRecord Str)) :
    enforced record (enforced record cur) = enforced record cur := by
  cases record with
  | none => rfl
  | some r =>
    cases cur with
    | none => simp [enforced]
    | some c =>
      by_cases h : c.version = r.version
      · simp [enforced, h]
      · simp [enforced, h]

@[simp] theorem enforced_self (record : Option (KineticRecord Str)) : enforced record record = record := by
  cases record with
  | none => rfl
  | some r => simp [enforced]

/-- What is read on the reference drive stays there. -/
@[simp] theorem enforced_or (cur record : Option (KineticRecord Str)) :
    enforced (cur.or record) cur = cur.or record := by
  cases cur with
  | none => cases record with
    | none => rfl
    | some r => rfl
  | some c => simp [enforced]

/-- Both drives hold a record, and the two have one version. -/
def SameVersion (a b : Option (KineticRecord Str)) : Prop :=
  ∃ r r', a = some r ∧ b = some r' ∧ r.version = r'.version

theorem enforced_eq_iff {record cur : Option (KineticRecord Str)} (hne : cur ≠ record) :
    enforced record cur = record ↔ ¬ SameVersion cur record := by
  cases record with
  | none => simp [enforced, SameVersion]
  | some r =>
    cases cur with
    | none => simp [enforced, SameVersion]
    | some c =>
      by_cases h : c.version = r.version
      · simp only [enforced, h, if_true]
        refine ⟨fun he => absurd he hne, fun hs => absurd ⟨c, r, rfl, rfl, h⟩ hs⟩
      · simp only [enforced, h, if_false]
        refine ⟨fun _ hs => ?_, fun _ => trivial⟩
        obtain ⟨x, y, hx, hy, hv⟩ := hs
        cases hx
        cases hy
        exact h hv

section Repair

variable {v : View} {s : Drives} {p : Partition} {d : DriveId} {key : Str}
variable {record : Option (KineticRecord Str)}

/-- Both partitions of the client's memory are the same. -/
def SameViews (v v' : View) : Prop := v'.partition = v.partition ∧ v'.logPartition = v.logPartition

theorem SameViews.trans {v v' v'' : View} (h : SameViews v v') (h' : SameViews v' v'') :
    SameViews v v'' := ⟨h'.1.trans h.1, h'.2.trans h.2⟩

theorem post_driveToConnection (p : Partition) (d : DriveId) :
    Post drives.left (driveToConnection p d) (fun _ v' s' => SameViews v v' ∧ s' = s) v s := by
  unfold driveToConnection
  refine Post.get_bind (Post.ite (fun _ => Post.pure ⟨⟨rfl, rfl⟩, rfl⟩) fun _ => ?_)
  refine Post.then (Q := fun _ v' s' => v' = v ∧ s' = s) (Post.call fun choice x s' hserve => ?_)
    fun con v1 s1 h1 => ?_
  · simp only [Service.left, drives, serveAll] at hserve
    split at hserve
    · rename_i y cluster hy
      cases hserve
      cases choice with
      | reach told | unreachable =>
        cases hy
        exact ⟨rfl, rfl⟩
      | lost | index i => cases hy
    · cases hserve
  · obtain ⟨rfl, rfl⟩ := h1
    refine Post.ite (fun _ => ?_) fun _ => Post.pure ⟨⟨rfl, rfl⟩, rfl⟩
    exact Post.modify_bind (Post.pure ⟨⟨rfl, rfl⟩, rfl⟩)

theorem post_clientClusterVersion (d : DriveId) (v : View) (s : Drives) :
    Post drives (update (clientClusterVersion d)) (fun _ v' s' => v' = v ∧ s' = s) v s :=
  Post.embed (Post.get_bind (Post.pure ⟨rfl, rfl⟩))

theorem post_connection (p : Partition) (d : DriveId) :
    Post drives (connection p d) (fun _ v' s' => SameViews v v' ∧ s' = s) v s := by
  unfold connection
  refine (Post.embed (post_driveToConnection p d)).then fun con v1 s1 h1 => ?_
  obtain ⟨hv, rfl⟩ := h1
  refine Post.ite (fun _ => Post.bind Post.stop) fun _ => ?_
  exact Post.embed (Post.get_bind (Post.pure ⟨hv, rfl⟩))

/-- `Get`: OK with the record, not found without one, or an error. -/
theorem post_get (d : DriveId) (ccv : Nat) (key : Str) :
    Post drives (ask (.get d ccv key)) (fun answer v' s' => v' = v ∧ s' = s ∧
      (answer.1 = .OK ∧ answer.2 = s.find d key ∧ s.find d key ≠ none ∧
          ccv = (s.cluster.drive d).clusterVersion ∨
        answer.1 = .REMOTE_NOT_FOUND ∧ answer.2 = none ∧ s.find d key = none ∧
          ccv = (s.cluster.drive d).clusterVersion ∨
        answer.1 ≠ .OK ∧ answer.1 ≠ .REMOTE_NOT_FOUND)) v s := by
  refine Post.call fun choice x s' hserve => ?_
  have hserve : serveData s (.get d ccv key) choice = some (x, s') := hserve
  cases choice with
  | reach told =>
    simp only [serveData] at hserve
    split at hserve
    · rename_i hccv
      split at hserve
      · rename_i r hr
        cases hserve
        exact ⟨rfl, rfl, Or.inl ⟨rfl, hr.symm, by rw [hr]; exact Option.some_ne_none _, hccv⟩⟩
      · rename_i hr
        cases hserve
        exact ⟨rfl, rfl, Or.inr (Or.inl ⟨rfl, rfl, hr, hccv⟩)⟩
    · cases hserve
      exact ⟨rfl, rfl, Or.inr (Or.inr ⟨by decide, by decide⟩)⟩
  | unreachable =>
    cases hserve
    exact ⟨rfl, rfl, Or.inr (Or.inr ⟨by decide, by decide⟩)⟩
  | lost | index i => cases hserve

theorem find_setRecord (s : Drives) (d d' : DriveId) (key k : Str) (r : Option (KineticRecord Str)) :
    (s.setRecord d key r).find d' k = if k = key ∧ d' = d then r else s.find d' k := by
  by_cases hd : d' = d
  · subst hd
    simp [Drives.find, Drives.setRecord]
  · simp [Drives.find, Drives.setRecord, hd]

/-- On the drives `ids` the record of `key` has been enforced; nothing else has changed. -/
structure Enforced (ids : List DriveId) (key : Str) (record : Option (KineticRecord Str))
    (s s' : Drives) : Prop where
  cluster : s'.cluster = s.cluster
  agreed : s'.agreed = s.agreed
  others : s'.others = s.others
  find : ∀ d k, s'.find d k = if k = key ∧ d ∈ ids then enforced record (s.find d k) else s.find d k

theorem Enforced.refl (key : Str) (record : Option (KineticRecord Str)) (s : Drives) :
    Enforced [] key record s s := ⟨rfl, rfl, rfl, fun d k => by simp⟩

theorem Enforced.append {ids ids' : List DriveId} {s s1 s' : Drives} (h : Enforced ids key record s s1)
    (h' : Enforced ids' key record s1 s') : Enforced (ids ++ ids') key record s s' := by
  refine ⟨h'.cluster.trans h.cluster, h'.agreed.trans h.agreed, h'.others.trans h.others, fun d k => ?_⟩
  rw [h'.find, h.find]
  by_cases hk : k = key
  · by_cases hd : d ∈ ids
    · simp [hk, hd, enforced_enforced]
    · simp [hk, hd]
  · simp [hk]

/-- A write that leaves the enforced record. -/
theorem enforced_setRecord {r : Option (KineticRecord Str)} (h : r = enforced record (s.find d key)) :
    Enforced [d] key record s (s.setRecord d key r) := by
  refine ⟨rfl, rfl, rfl, fun d' k => ?_⟩
  rw [find_setRecord]
  by_cases hk : k = key ∧ d' = d
  · obtain ⟨rfl, rfl⟩ := hk
    simp [h]
  · rw [if_neg hk, if_neg fun hc => hk ⟨hc.1, List.mem_singleton.mp hc.2⟩]

/-- Nothing to do: the drive has what is enforced. -/
theorem enforced_unchanged (h : enforced record (s.find d key) = s.find d key) :
    Enforced [d] key record s s := by
  refine ⟨rfl, rfl, rfl, fun d' k => ?_⟩
  by_cases hk : k = key ∧ d' ∈ [d]
  · obtain ⟨rfl, hd⟩ := hk
    obtain rfl := List.mem_singleton.mp hd
    simp [h]
  · rw [if_neg hk]

/-- A write that finds the version it expects succeeds unless the connection fails. -/
theorem post_repairWrite {op : WriteOp} (hccv : ccv = (s.cluster.drive d).clusterVersion)
    (hop : op.apply (s.find d key) = (.OK, enforced record (s.find d key))) :
    Post drives (ask (.write .repair d ccv key op)) (fun code v' s' => v' = v ∧
      ((code : StatusCode) = .OK ∧ Enforced [d] key record s s' ∨
        (code : StatusCode) = .REMOTE_REMOTE_CONNECTION_ERROR ∧
          (Enforced [] key record s s' ∨ Enforced [d] key record s s'))) v s := by
  have hcarry : s.carryOut d ccv key op = (.OK, s.setRecord d key (enforced record (s.find d key))) := by
    unfold Drives.carryOut
    rw [if_pos hccv, hop]
  refine Post.call fun choice x s' hserve => ?_
  have hserve : serveData s (.write .repair d ccv key op) choice = some (x, s') := hserve
  cases choice with
  | reach told =>
    simp only [serveData, hcarry] at hserve
    cases hserve
    exact ⟨rfl, Or.inl ⟨rfl, enforced_setRecord rfl⟩⟩
  | lost =>
    simp only [serveData, hcarry] at hserve
    cases hserve
    exact ⟨rfl, Or.inr ⟨rfl, Or.inr (enforced_setRecord rfl)⟩⟩
  | unreachable =>
    cases hserve
    exact ⟨rfl, Or.inr ⟨rfl, Or.inl (Enforced.refl _ _ _)⟩⟩
  | index i => cases hserve

theorem post_enforce {status : StatusCode} (hccv : ccv = (s.cluster.drive d).clusterVersion)
    (hstatus : status = .OK ∧ s.find d key ≠ none ∨ status = .REMOTE_NOT_FOUND ∧ s.find d key = none) :
    Post drives (enforce key record d ccv status (s.find d key)) (fun a v' s' => v' = v ∧
      (a ≠ some .REMOTE_VERSION_MISMATCH ∧ Enforced [d] key record s s' ∨
        a = some .REMOTE_REMOTE_CONNECTION_ERROR ∧ Enforced [] key record s s')) v s := by
  have hwrite : ∀ op : WriteOp, op.apply (s.find d key) = (.OK, enforced record (s.find d key)) →
      Post drives (do let code : StatusCode ← ask (.write .repair d ccv key op); return some code)
        (fun a v' s' => v' = v ∧
          (a ≠ some .REMOTE_VERSION_MISMATCH ∧ Enforced [d] key record s s' ∨
            a = some .REMOTE_REMOTE_CONNECTION_ERROR ∧ Enforced [] key record s s')) v s := by
    intro op hop
    refine (post_repairWrite hccv hop).then fun code v1 s1 h1 => Post.pure ?_
    obtain ⟨hv, ⟨rfl, he⟩ | ⟨rfl, he | he⟩⟩ := h1
    · exact ⟨hv, Or.inl ⟨by decide, he⟩⟩
    · exact ⟨hv, Or.inr ⟨rfl, he⟩⟩
    · exact ⟨hv, Or.inl ⟨by decide, he⟩⟩
  unfold enforce
  cases record with
  | none =>
    refine Post.ite (fun hok => hwrite _ ?_) fun hok => Post.pure ⟨rfl, Or.inl ⟨?_, ?_⟩⟩
    · obtain ⟨-, hr⟩ | ⟨h, -⟩ := hstatus
      · obtain ⟨r, hr⟩ := Option.ne_none_iff_exists'.mp hr
        simp [WriteOp.apply, deleteSame, enforced, versionOf, hr]
      · rw [hok] at h
        exact absurd h (by decide)
    · obtain ⟨h, -⟩ | ⟨rfl, -⟩ := hstatus
      · exact absurd h hok
      · decide
    · obtain ⟨h, -⟩ | ⟨-, hr⟩ := hstatus
      · exact absurd h hok
      · exact enforced_unchanged (by rw [hr]; rfl)
  | some r =>
    refine Post.ite (fun hsame => Post.pure ⟨rfl, Or.inl ⟨by simp, enforced_unchanged ?_⟩⟩)
      fun hsame => hwrite _ ?_
    · obtain ⟨-, hr⟩ | ⟨h, -⟩ := hstatus
      · obtain ⟨c, hc⟩ := Option.ne_none_iff_exists'.mp hr
        have hv : c.version = r.version := by simpa [versionOf, hc] using hsame.2
        simp [enforced, hc, hv]
      · rw [hsame.1] at h
        exact absurd h (by decide)
    · have hput : WriteOp.apply (.put (versionOf (s.find d key)) .REQUIRE_SAME_VERSION r) (s.find d key)
          = (.OK, some r) := by simp [WriteOp.apply, putSame]
      rw [hput]
      obtain ⟨hok, hr⟩ | ⟨-, hr⟩ := hstatus
      · obtain ⟨c, hc⟩ := Option.ne_none_iff_exists'.mp hr
        have hv : c.version ≠ r.version := by
          intro hv
          exact hsame ⟨hok, by simpa [versionOf, hc] using hv⟩
        simp [enforced, hc, hv]
      · simp [enforced, hr]

/-- The loop of `readRepair` enforces the record on some of the drives it visits, on all of them
    if it returns OK. -/
theorem post_enforceAll (p : Partition) (index : Nat) (ds : List KineticDrive) (i : Nat) (v : View)
    (s : Drives) :
    Post drives (enforceAll p key index record ds i) (fun status v' s' => SameViews v v' ∧
      ∃ ids, Enforced ids key record s s' ∧
        (∀ d ∈ ids, d ∈ (ds.filter (·.status ≠ .RED)).map KineticDrive.id) ∧
        (status = .OK → ids = (ds.filter (·.status ≠ .RED)).map KineticDrive.id)) v s := by
  induction ds generalizing i v s with
  | nil => exact Post.pure ⟨⟨rfl, rfl⟩, [], Enforced.refl _ _ _, by simp, by simp⟩
  | cons d ds ih =>
    unfold enforceAll
    refine Post.ite (fun hred => ?_) fun hred => ?_
    · rw [List.filter_cons_of_neg (by simp [hred])]
      exact ih (i + 1) v s
    · rw [List.filter_cons_of_pos (by simp [hred]), List.map_cons]
      -- what is left to do once the drive itself has been dealt with
      have hrest : ∀ v1 s1, SameViews v v1 → Enforced [d.id] key record s s1 →
          Post drives (enforceAll p key index record ds (i + 1)) (fun status v' s' => SameViews v v' ∧
            ∃ ids, Enforced ids key record s s' ∧
              (∀ x ∈ ids, x ∈ d.id :: (ds.filter (·.status ≠ .RED)).map KineticDrive.id) ∧
              (status = .OK → ids = d.id :: (ds.filter (·.status ≠ .RED)).map KineticDrive.id)) v1 s1 := by
        intro v1 s1 hv1 he1
        refine (ih (i + 1) v1 s1).mono fun status v2 s2 h2 => ?_
        obtain ⟨hv2, ids, he2, hin, hall⟩ := h2
        refine ⟨hv1.trans hv2, d.id :: ids, he1.append he2, ?_, fun hok => by rw [hall hok]⟩
        intro x hx
        rcases List.mem_cons.mp hx with rfl | hx
        · exact List.mem_cons_self
        · exact List.mem_cons_of_mem _ (hin x hx)
      refine (post_connection p d.id).then fun ccv v1 s1 h1 => ?_
      obtain ⟨hv1, rfl⟩ := h1
      refine (post_get d.id ccv key).then fun answer v2 s2 h2 => ?_
      obtain ⟨rfl, rfl, hanswer⟩ := h2
      refine Post.ite (fun hbad => Post.pure ⟨hv1, [], Enforced.refl _ _ _, by simp,
        fun hok => absurd hok hbad.1⟩) fun hbad => ?_
      have hread : answer.2 = s2.find d.id key ∧ ccv = (s2.cluster.drive d.id).clusterVersion ∧
          (answer.1 = .OK ∧ s2.find d.id key ≠ none ∨
            answer.1 = .REMOTE_NOT_FOUND ∧ s2.find d.id key = none) := by
        obtain ⟨h1, h2, h3, h4⟩ | ⟨h1, h2, h3, h4⟩ | h := hanswer
        · exact ⟨h2, h4, Or.inl ⟨h1, h3⟩⟩
        · exact ⟨h2.trans h3.symm, h4, Or.inr ⟨h1, h3⟩⟩
        · exact absurd h hbad
      obtain ⟨hrec, hccv, hstatus⟩ := hread
      rw [hrec]
      refine (post_enforce hccv hstatus).then fun a v3 s3 h3 => ?_
      obtain ⟨rfl, ⟨hne, he⟩ | ⟨rfl, he⟩⟩ := h3
      · cases a with
        | none => exact hrest v3 s3 hv1 he
        | some code =>
          refine Post.ite (fun hcode => Post.pure ⟨hv1, [d.id], he, by simp,
            fun hok => absurd hok hcode.1⟩) fun _ => Post.ite (fun hmis => ?_) fun _ => hrest v3 s3 hv1 he
          exact absurd (congrArg some hmis.1) hne
      · exact Post.ite (fun hcode => Post.pure ⟨hv1, [], he, by simp, fun hok => absurd hok hcode.1⟩)
          fun hcode => absurd ⟨by decide, by decide, by decide⟩ hcode

/-- The reference drive: the first GREEN one. -/
def reference (p : Partition) : Option KineticDrive := p.drives.find? (·.status = .GREEN)

theorem reference_of_greenIndex {index : Nat} {f : KineticDrive} (h : greenIndex p = some index)
    (hf : p.drives[index]? = some f) : reference p = some f := by
  unfold greenIndex at h
  unfold reference
  rw [List.find?_eq_bind_findIdx?_getElem?, h]
  exact hf

theorem reference_mem {f : KineticDrive} (h : reference p = some f) : f.id ∈ nonRedIds p := by
  have hgreen : f.status = .GREEN := by simpa using List.find?_some h
  refine List.mem_map.mpr ⟨f, List.mem_filter.mpr ⟨List.mem_of_find?_eq_some h, ?_⟩, rfl⟩
  simp [hgreen]

/-- `readRepair` enforces the record of the reference drive, or the one it was called with if the
    reference drive has none. -/
theorem post_repair (key : Str) (v : View) (s : Drives) :
    Post drives (repair key record) (fun answer v' s' => SameViews v v' ∧
      ∃ f, reference v.partition = some f ∧
      ∃ ids, Enforced ids key ((s.find f.id key).or record) s s' ∧ (∀ d ∈ ids, d ∈ nonRedIds v.partition) ∧
        (answer.2 = record ∨ answer.2 = (s.find f.id key).or record) ∧
        (answer.1 = .OK → ids = nonRedIds v.partition ∧ answer.2 = (s.find f.id key).or record)) v s := by
  unfold repair
  refine Post.get_bind ?_
  dsimp only
  split
  · exact Post.stop
  · rename_i index hindex
    split
    · exact Post.stop
    · rename_i f hf
      have href := reference_of_greenIndex hindex hf
      refine (post_connection v.partition f.id).then fun ccv v1 s1 h1 => ?_
      obtain ⟨hv1, rfl⟩ := h1
      refine (post_get f.id ccv key).then fun answer v2 s2 h2 => ?_
      obtain ⟨rfl, rfl, hanswer⟩ := h2
      refine Post.ite (fun hbad => Post.pure ⟨hv1, f, href, [], Enforced.refl _ _ _, by simp, Or.inl rfl,
        fun hok => absurd hok hbad.1⟩) fun hbad => ?_
      have hrec : answer.2 = s2.find f.id key := by
        obtain ⟨-, h, -⟩ | ⟨-, h, hnone, -⟩ | h := hanswer
        · exact h
        · exact h.trans hnone.symm
        · exact absurd h hbad
      rw [hrec]
      refine (post_enforceAll v.partition index v.partition.drives 0 v2 s2).then fun status v3 s3 h3 => ?_
      obtain ⟨hv3, ids, he, hin, hall⟩ := h3
      exact Post.pure ⟨hv1.trans hv3, f, href, ids, he, hin, Or.inr rfl, fun hok => ⟨hall hok, rfl⟩⟩

end Repair

/-! ## The pages of the scan -/

theorem mem_keyRange {d : Records} {start stop k : Str} {max : Nat} (h : k ∈ d.keyRange start stop max) :
    d.find k ≠ none ∧ start ≤ k ∧ k ≤ stop := by
  obtain ⟨hk, hrange⟩ := List.mem_filter.mp (List.mem_of_mem_take h)
  exact ⟨(d.mem_keys k).mp hk, of_decide_eq_true hrange⟩

/-- A key of the range is in the page, or the page is full and the key comes after it. -/
theorem keyRange_covers {d : Records} {start stop k : Str} {max : Nat} (hk : d.find k ≠ none)
    (hstart : start ≤ k) (hstop : k ≤ stop) :
    k ∈ d.keyRange start stop max ∨
      (d.keyRange start stop max).length = max ∧ ∀ x ∈ d.keyRange start stop max, x < k := by
  unfold Records.keyRange
  set keys := d.keys.filter fun k => start ≤ k ∧ k ≤ stop with hkeys
  have hmem : k ∈ keys := List.mem_filter.mpr ⟨(d.mem_keys k).mpr hk, decide_eq_true ⟨hstart, hstop⟩⟩
  have hsorted : (keys.take max ++ keys.drop max).Pairwise (· < ·) := by
    rw [List.take_append_drop]
    exact d.sorted.filter _
  rw [← List.take_append_drop max keys] at hmem
  rcases List.mem_append.mp hmem with h | h
  · exact Or.inl h
  · have hlong : max < keys.length := by
      have := List.length_pos_of_mem h
      rw [List.length_drop] at this
      omega
    refine Or.inr ⟨?_, fun x hx => (List.pairwise_append.mp hsorted).2.2 x hx k h⟩
    rw [List.length_take]
    omega

section Scan

variable {assigned : Str → Bool} {p : Partition} {f : KineticDrive} {con : DriveId} {v : View}
  {s s1 s' : Drives} {record record1 record' : Option (KineticRecord Str)}

/-- The key that is repaired for a key of the scan. -/
def strip (p : Partition) (key : Str) : Str :=
  if p.logId = none then key else key.drop (logPrefix p).length

/-- What the keys of the scan begin with. -/
def scanPrefix (p : Partition) : Str := if p.logId = none then [] else logPrefix p

/-- The keys between the bounds of the scan. -/
def InBounds (p : Partition) (key : Str) : Prop :=
  scanPrefix p ++ lit " " ≤ key ∧ key ≤ scanPrefix p ++ lit "|"

instance (p : Partition) (key : Str) : Decidable (InBounds p key) := inferInstanceAs (Decidable (_ ∧ _))

/-- The keys that a rebuild repairs, in its order: those of the scanned drive between the bounds, in a
    scan of the log drive without the prefix. -/
def scanKeys (p : Partition) (con : DriveId) (s : Drives) : List Str :=
  ((s.data con).keys.filter (InBounds p ·)).map (strip p)

/-- What the reference drive of a key holds: for keys of other partitions that is another drive. -/
def held (assigned : Str → Bool) (f : DriveId) (s : Drives) (k : Str) : Option (KineticRecord Str) :=
  if assigned k then s.find f k else s.others k

theorem cons_le_cons_iff {x y : Char} {xs ys : Str} : x :: xs ≤ y :: ys ↔ x < y ∨ x = y ∧ xs ≤ ys := by
  rw [← not_lt, ← not_lt, List.cons_lt_cons_iff]
  rcases lt_trichotomy x y with h | rfl | h
  · simp [h, h.not_gt, h.ne']
  · simp
  · simp [h, h.not_gt, h.ne']

/-- The record that a rebuild enforces under a key of the scan: that of the reference drive, or, if it
    has none, the one of the last key before that has one. -/
def rebuildRecord (assigned : Str → Bool) (p : Partition) (f con : DriveId) (s : Drives) (k : Str) :
    Option (KineticRecord Str) :=
  carriedTo (held assigned f s) none (scanKeys p con s) k

theorem prefix_of_between {pre a b key : Str} (hlow : pre ++ a ≤ key) (hhigh : key ≤ pre ++ b) :
    ∃ key', key = pre ++ key' := by
  induction pre generalizing key with
  | nil => exact ⟨key, rfl⟩
  | cons c pre ih =>
    cases key with
    | nil => exact absurd hlow (by simp)
    | cons x xs =>
      rw [List.cons_append, cons_le_cons_iff] at hlow hhigh
      obtain rfl : x = c := by
        rcases hlow with h | h
        · exact (hhigh.elim (fun h' => absurd h' (not_lt_of_gt h)) fun h' => h'.1)
        · exact h.1.symm
      have hlow := (hlow.resolve_left (lt_irrefl _)).2
      have hhigh := (hhigh.resolve_left (lt_irrefl _)).2
      obtain ⟨key', rfl⟩ := ih hlow hhigh
      exact ⟨key', rfl⟩

theorem le_of_append_le_append {pre a b : Str} (h : pre ++ a ≤ pre ++ b) : a ≤ b := by
  induction pre with
  | nil => exact h
  | cons c pre ih =>
    rw [List.cons_append, List.cons_append, cons_le_cons_iff] at h
    exact ih (h.resolve_left (lt_irrefl _)).2

/-- The keys of the log are repaired in the order of the scan. -/
theorem strip_le_strip {x y : Str} (hx : InBounds p x) (hy : InBounds p y) (h : x ≤ y) :
    strip p x ≤ strip p y := by
  unfold strip
  split
  · exact h
  · rename_i hlog
    have hpre : scanPrefix p = logPrefix p := if_neg hlog
    unfold InBounds at hx hy
    rw [hpre] at hx hy
    obtain ⟨a, rfl⟩ := prefix_of_between hx.1 hx.2
    obtain ⟨b, rfl⟩ := prefix_of_between hy.1 hy.2
    rw [List.drop_left, List.drop_left]
    exact le_of_append_le_append h

theorem map_strip_sorted {ks : List Str} (hbounds : ∀ k ∈ ks, InBounds p k) (h : ks.Pairwise (· ≤ ·)) :
    (ks.map (strip p)).Pairwise (· ≤ ·) := by
  rw [List.pairwise_map]
  exact h.imp_of_mem fun hx hy hle => strip_le_strip (hbounds _ hx) (hbounds _ hy) hle

/-- What the repair of the scanned keys `ks` leaves, from `record` on. In a scan of the log drive,
    `con` is the log drive, which loses some of these keys. -/
structure Repaired (assigned : Str → Bool) (p : Partition) (f : KineticDrive) (con : DriveId)
    (ks : List Str) (record : Option (KineticRecord Str)) (s : Drives)
    (record' : Option (KineticRecord Str)) (s' : Drives) : Prop where
  find : ∀ d, p.logId = none ∨ d ≠ con → ∀ k, s'.find d k =
    if (k ∈ ks.map (strip p) ∧ assigned k) ∧ d ∈ nonRedIds p then
      enforced (carriedTo (held assigned f.id s) record (ks.map (strip p)) k) (s.find d k)
    else s.find d k
  others : ∀ k, assigned k = false → s'.others k = filled (held assigned f.id s) record (ks.map (strip p)) k
  record : record' = carried (held assigned f.id s) record (ks.map (strip p))
  other : ∀ k, k ∉ ks → s'.find con k = s.find con k

theorem Repaired.refl : Repaired assigned p f con [] record s record s :=
  ⟨by simp, fun k hk => by simp [filled, held, hk], rfl, by simp⟩

/-- What the reference drives hold afterwards. -/
theorem Repaired.held {ks : List Str} (h : Repaired assigned p f con ks record s record' s')
    (href : reference p = some f) (hf : p.logId = none ∨ f.id ≠ con)
    (hsorted : (ks.map (strip p)).Pairwise (· ≤ ·)) :
    held assigned f.id s' = filled (held assigned f.id s) record (ks.map (strip p)) := by
  funext k
  cases ha : assigned k with
  | false =>
    rw [← h.others k ha]
    simp [Replication.held, ha]
  | true =>
    have hheld : ∀ s, Replication.held assigned f.id s k = s.find f.id k := fun s => by
      simp [Replication.held, ha]
    rw [hheld, h.find f.id hf]
    by_cases hk : k ∈ ks.map (strip p)
    · rw [if_pos ⟨⟨hk, ha⟩, reference_mem href⟩, filled, if_pos hk, ← hheld s, ← or_carriedTo hsorted hk,
        enforced_or]
    · rw [if_neg fun h => hk h.1.1, filled, if_neg hk, hheld]

theorem Repaired.append {ks ks' : List Str} (href : reference p = some f)
    (hf : p.logId = none ∨ f.id ≠ con) (hsorted : ((ks ++ ks').map (strip p)).Pairwise (· ≤ ·))
    (h : Repaired assigned p f con ks record s record1 s1)
    (h' : Repaired assigned p f con ks' record1 s1 record' s') :
    Repaired assigned p f con (ks ++ ks') record s record' s' := by
  rw [List.map_append] at hsorted
  have hheld := h.held href hf (List.pairwise_append.mp hsorted).1
  have hrecord := h.record
  refine ⟨fun d hd k => ?_, fun k hk => ?_, ?_, fun k hk => ?_⟩
  · rw [h'.find d hd k, h.find d hd k, hheld, hrecord]
    by_cases hdk : assigned k ∧ d ∈ nonRedIds p
    · simp only [List.map_append, List.mem_append, hdk.1, hdk.2, and_true]
      by_cases hk : k ∈ ks.map (strip p)
      · rw [if_pos hk, if_pos (Or.inl hk), carriedTo_append_left hsorted hk]
        split
        · rename_i hk'
          rw [carriedTo_append_right hsorted hk', carriedTo_append_left hsorted hk, enforced_enforced]
        · rfl
      · rw [if_neg hk]
        by_cases hk' : k ∈ ks'.map (strip p)
        · rw [if_pos hk', if_pos (Or.inr hk'), carriedTo_append_right hsorted hk']
        · rw [if_neg hk', if_neg fun h => h.elim hk hk']
    · rw [if_neg fun h => hdk ⟨h.1.2, h.2⟩, if_neg fun h => hdk ⟨h.1.2, h.2⟩, if_neg fun h => hdk ⟨h.1.2, h.2⟩]
  · rw [h'.others k hk, hheld, hrecord, List.map_append, filled_append hsorted]
  · rw [h'.record, hheld, hrecord, List.map_append, carried_append_filled hsorted]
  · rw [List.mem_append, not_or] at hk
    rw [h'.other k hk.2, h.other k hk.1]

/-- One key of the scan. -/
theorem post_repairKey (hp : v.partition = p) (href : reference p = some f) (key : Str) :
    Post drives (repairKey assigned key record) (fun answer v' s' => SameViews v v' ∧ (answer.1 = .OK →
      answer.2 = (held assigned f.id s key).or record ∧
      (∀ d k, s'.find d k = if (k = key ∧ assigned k) ∧ d ∈ nonRedIds p
        then enforced ((held assigned f.id s key).or record) (s.find d k) else s.find d k) ∧
      ∀ k, assigned k = false → s'.others k =
        if k = key then (held assigned f.id s key).or record else s.others k)) v s := by
  subst hp
  unfold repairKey
  refine Post.ite (fun ha => ?_) fun ha => ?_
  · refine (post_repair key v s).mono fun answer v1 s1 h1 => ?_
    obtain ⟨hv, f', hf', ids, he, -, -, hall⟩ := h1
    obtain rfl : f = f' := Option.some.inj (href.symm.trans hf')
    have hheld : held assigned f.id s key = s.find f.id key := if_pos ha
    refine ⟨hv, fun hok => ⟨hheld ▸ (hall hok).2, fun d k => ?_, fun k hk => ?_⟩⟩
    · rw [he.find d k, (hall hok).1, hheld]
      by_cases hk : k = key
      · subst hk
        simp [ha]
      · simp [hk]
    · rw [he.others, if_neg]
      rintro rfl
      rw [ha] at hk
      cases hk
  · have hheld : held assigned f.id s key = s.others key := if_neg ha
    refine Post.call fun choice x s' hserve => ⟨⟨rfl, rfl⟩, fun hok => ?_⟩
    have hserve : serveData s (.elsewhere key record) choice = some (x, s') := hserve
    cases choice with
    | reach told =>
      cases hserve
      refine ⟨by rw [hheld], fun d k => ?_, fun k _ => ?_⟩
      · rw [if_neg]
        · rfl
        · exact fun hk => ha (hk.1.1 ▸ hk.1.2)
      · rw [hheld]
        exact Function.update_apply _ _ _ _
    | lost | unreachable =>
      cases hserve
      cases hok
    | index i => cases hserve

/-- A write changes one key of one drive at most. -/
theorem post_write (issuer : Issuer) (con : DriveId) (ccv : Nat) (key : Str) (op : WriteOp) :
    Post drives (ask (.write issuer con ccv key op)) (fun _ v' s' => v' = v ∧
      ∀ d k, d ≠ con ∨ k ≠ key → s'.find d k = s.find d k) v s := by
  have hcarry : ∀ d k, d ≠ con ∨ k ≠ key → (s.carryOut con ccv key op).2.find d k = s.find d k := by
    intro d k h
    unfold Drives.carryOut
    split
    · show (s.setRecord con key _).find d k = _
      rw [find_setRecord, if_neg fun hc => h.elim (fun h => h hc.2) fun h => h hc.1]
    · rfl
  refine Post.call fun choice x s' hserve => ⟨rfl, ?_⟩
  have hserve : serveData s (.write issuer con ccv key op) choice = some (x, s') := hserve
  cases choice with
  | reach told =>
    obtain rfl : (s.carryOut con ccv key op).2 = s' := congrArg Prod.snd (Option.some.inj hserve)
    exact hcarry
  | lost =>
    cases hserve
    exact hcarry
  | unreachable =>
    cases hserve
    exact fun _ _ _ => rfl
  | index i => cases hserve

/-- The drives of the other partitions are left alone by a write. -/
theorem post_write_others (issuer : Issuer) (con : DriveId) (ccv : Nat) (key : Str) (op : WriteOp) :
    Post drives (ask (.write issuer con ccv key op)) (fun _ _ s' => s'.others = s.others) v s := by
  have hothers : (s.carryOut con ccv key op).2.others = s.others := by
    unfold Drives.carryOut
    split
    · rfl
    · rfl
  refine Post.call fun choice x s' hserve => ?_
  have hserve : serveData s (.write issuer con ccv key op) choice = some (x, s') := hserve
  cases choice with
  | reach told =>
    obtain rfl : (s.carryOut con ccv key op).2 = s' := congrArg Prod.snd (Option.some.inj hserve)
    exact hothers
  | lost =>
    cases hserve
    exact hothers
  | unreachable =>
    cases hserve
    rfl
  | index i => cases hserve

/-- One key of a page, with its entry in the log, which may be deleted. -/
theorem Repaired.single {key : Str} (hcon : p.logId = none ∨ con ∉ nonRedIds p)
    (hrecord : record' = (Replication.held assigned f.id s (strip p key)).or record)
    (hfind : ∀ d k, d ≠ con ∨ k ≠ key ∨ p.logId = none → s'.find d k =
      if (k = strip p key ∧ assigned k) ∧ d ∈ nonRedIds p
        then enforced record' (s.find d k) else s.find d k)
    (hothers : ∀ k, assigned k = false → s'.others k = if k = strip p key then record' else s.others k) :
    Repaired assigned p f con [key] record s record' s' := by
  have hto : carriedTo (Replication.held assigned f.id s) record [strip p key] (strip p key) = record' := by
    rw [carriedTo_of_le (by simp), hrecord]
    rfl
  refine ⟨fun d hd k => ?_, fun k hk => ?_, hrecord, fun k hk => ?_⟩
  · rw [hfind d k (hd.elim (fun h => Or.inr (Or.inr h)) Or.inl), List.map_singleton]
    by_cases hk : k = strip p key
    · simp [hk, hto]
    · rw [if_neg fun h => hk h.1.1, if_neg fun h => hk (List.mem_singleton.mp h.1.1)]
  · rw [hothers k hk, filled, List.map_singleton]
    by_cases hk' : k = strip p key
    · rw [if_pos hk', if_pos (List.mem_singleton.mpr hk'), hk', hto]
    · rw [if_neg hk', if_neg fun h => hk' (List.mem_singleton.mp h)]
      simp [Replication.held, hk]
  · have hne : k ≠ key := fun h => hk (List.mem_singleton.mpr h)
    rw [hfind con k (Or.inr (Or.inl hne)), if_neg]
    rintro ⟨⟨hstrip, -⟩, hred⟩
    refine hcon.elim (fun hnone => hne ?_) fun hnot => hnot hred
    rw [hstrip, strip, if_pos hnone]

/-- One page. -/
theorem post_repairPage (hp : v.partition = p) (href : reference p = some f)
    (hcon : p.logId = none ∨ con ∉ nonRedIds p) (ccv : Nat) (deleteLog : Bool) (keys : List Str)
    (hsorted : (keys.map (strip p)).Pairwise (· ≤ ·)) :
    Post drives (repairPage assigned p con ccv deleteLog keys record) (fun page v' s' => SameViews v v' ∧
      (page.1 = true → Repaired assigned p f con keys record s page.2 s')) v s := by
  induction keys generalizing v s record with
  | nil => exact Post.pure ⟨⟨rfl, rfl⟩, fun _ => Repaired.refl⟩
  | cons key keys ih =>
    have hf : p.logId = none ∨ f.id ≠ con :=
      hcon.imp_right fun h hc => h (hc ▸ reference_mem href)
    unfold repairPage
    refine (post_repairKey hp href (strip p key)).then fun answer v1 s1 h1 => ?_
    obtain ⟨hv1, hrepaired⟩ := h1
    refine Post.ite (fun hcode => Post.pure ⟨hv1, by simp⟩) fun hcode => ?_
    obtain ⟨hrecord, hfind, hothers⟩ := hrepaired (not_not.mp hcode)
    rw [← hrecord] at hfind hothers
    have hrest : ∀ v2 s2, SameViews v v2 → Repaired assigned p f con [key] record s answer.2 s2 →
        Post drives (repairPage assigned p con ccv deleteLog keys answer.2) (fun page v' s' => SameViews v v' ∧
          (page.1 = true → Repaired assigned p f con (key :: keys) record s page.2 s')) v2 s2 := by
      intro v2 s2 hv2 h2
      refine (ih (hv2.1.trans hp) (List.pairwise_cons.mp hsorted).2).mono fun page v3 s3 h3 =>
        ⟨hv2.trans h3.1, fun hb => ?_⟩
      exact h2.append href hf hsorted (h3.2 hb)
    refine Post.ite (fun hlog => ?_) fun hlog =>
      hrest v1 s1 hv1 (Repaired.single hcon hrecord (fun d k _ => hfind d k) hothers)
    refine ((post_write .log con ccv key (.delete [] .IGNORE_VERSION)).and
      (post_write_others .log con ccv key _)).then fun _ v2 s2 h2 => ?_
    obtain ⟨⟨rfl, hs2⟩, hothers2⟩ := h2
    refine hrest v2 s2 hv1 (Repaired.single hcon hrecord (fun d k hk => ?_) fun k hk => ?_)
    · rw [hs2 d k (hk.imp_right fun h => h.resolve_right hlog.1), hfind]
    · rw [hothers2, hothers k hk]

theorem post_keyRange (ccv : Nat) (start stop : Str) (max : Nat) :
    Post drives (ask (.keyRange con ccv start stop max)) (fun answer v' s' => v' = v ∧ s' = s ∧
      (answer.1 = .OK → answer.2 = (s.data con).keyRange start stop max)) v s := by
  refine Post.call fun choice x s' hserve => ?_
  have hserve : serveData s (.keyRange con ccv start stop max) choice = some (x, s') := hserve
  cases choice with
  | reach told =>
    simp only [serveData] at hserve
    split at hserve
    · cases hserve
      exact ⟨rfl, rfl, fun _ => rfl⟩
    · cases hserve
      exact ⟨rfl, rfl, fun h => absurd h (by decide)⟩
  | unreachable =>
    cases hserve
    exact ⟨rfl, rfl, fun h => absurd h (by decide)⟩
  | lost | index i => cases hserve

/-- The keys of the scanned drive between the bounds, and no others, have been repaired in their
    order. -/
structure Scanned (assigned : Str → Bool) (p : Partition) (f : KineticDrive) (con : DriveId)
    (start stop : Str) (ks : List Str) (record : Option (KineticRecord Str)) (s s' : Drives) : Prop where
  repaired : ∃ record', Repaired assigned p f con ks record s record' s'
  sorted : ks.Pairwise (· ≤ ·)
  sound : ∀ k ∈ ks, s.find con k ≠ none ∧ start ≤ k ∧ k ≤ stop
  covers : ∀ k, s.find con k ≠ none → start ≤ k → k ≤ stop → k ∈ ks

theorem keyRange_sorted (d : Records) (start stop : Str) (max : Nat) :
    (d.keyRange start stop max).Pairwise (· ≤ ·) :=
  ((d.sorted.filter _).sublist (List.take_sublist _ _)).imp le_of_lt

/-- The last key of a page is its greatest. -/
theorem le_last {keys : List Str} {last : Str} (hsorted : keys.Pairwise (· ≤ ·))
    (hlast : keys.getLast? = some last) : ∀ k ∈ keys, k ≤ last := by
  obtain ⟨front, rfl⟩ := List.getLast?_eq_some_iff.mp hlast
  intro k hk
  rcases List.mem_append.mp hk with hk | hk
  · exact (List.pairwise_append.mp hsorted).2.2 k hk last (List.mem_singleton_self _)
  · exact (List.mem_singleton.mp hk).le

/-- A full page, and the scan from its last key on. -/
theorem Scanned.page {start stop last : Str} {max : Nat} {ks : List Str} (href : reference p = some f)
    (hf : p.logId = none ∨ f.id ≠ con) (hbounds : ∀ k, start ≤ k → k ≤ stop → InBounds p k)
    (h : Repaired assigned p f con ((s.data con).keyRange start stop max) record s record1 s1)
    (hlast : ((s.data con).keyRange start stop max).getLast? = some last)
    (h' : Scanned assigned p f con last stop ks record1 s1 s') :
    Scanned assigned p f con start stop ((s.data con).keyRange start stop max ++ ks) record s s' := by
  have hmem := List.mem_of_getLast? hlast
  have hpage := keyRange_sorted (s.data con) start stop max
  have hsound : ∀ k ∈ (s.data con).keyRange start stop max ++ ks,
      s.find con k ≠ none ∧ start ≤ k ∧ k ≤ stop := by
    intro k hk
    by_cases hin : k ∈ (s.data con).keyRange start stop max
    · exact mem_keyRange hin
    · obtain ⟨h1, h2, h3⟩ := h'.sound k ((List.mem_append.mp hk).resolve_left hin)
      rw [h.other k hin] at h1
      exact ⟨h1, (mem_keyRange hmem).2.1.trans h2, h3⟩
  have hsorted : ((s.data con).keyRange start stop max ++ ks).Pairwise (· ≤ ·) :=
    List.pairwise_append.mpr ⟨hpage, h'.sorted, fun x hx y hy =>
      (le_last hpage hlast x hx).trans (h'.sound y hy).2.1⟩
  obtain ⟨record', hrest⟩ := h'.repaired
  have hstrip := map_strip_sorted (fun k hk => hbounds k (hsound k hk).2.1 (hsound k hk).2.2) hsorted
  refine ⟨⟨record', h.append href hf hstrip hrest⟩, hsorted, hsound, fun k hk hstart hstop => ?_⟩
  by_cases hin : k ∈ (s.data con).keyRange start stop max
  · exact List.mem_append_left _ hin
  · obtain ⟨-, hafter⟩ := (keyRange_covers (d := s.data con) hk hstart hstop).resolve_left hin
    refine List.mem_append_right _ (h'.covers k ?_ (hafter last hmem).le hstop)
    rwa [h.other k hin]

theorem post_repairPages (hp : v.partition = p) (href : reference p = some f)
    (hcon : p.logId = none ∨ con ∉ nonRedIds p) (ccv : Nat) (deleteLog : Bool) (stop : Str) (fuel : Nat)
    (start : Str) (hbounds : ∀ k, start ≤ k → k ≤ stop → InBounds p k) :
    Post drives (repairPages assigned p con ccv deleteLog stop fuel start record) (fun b v' s' =>
      SameViews v v' ∧ (b = true → ∃ ks, Scanned assigned p f con start stop ks record s s')) v s := by
  have hf : p.logId = none ∨ f.id ≠ con := hcon.imp_right fun h hc => h (hc ▸ reference_mem href)
  induction fuel generalizing start v s record with
  | zero => exact Post.stop
  | succ fuel ih =>
    unfold repairPages
    refine (post_keyRange ccv start stop maxsize).then fun answer v1 s1 h1 => ?_
    obtain ⟨rfl, rfl, hpage⟩ := h1
    refine Post.ite (fun _ => Post.pure ⟨⟨rfl, rfl⟩, by simp⟩) fun hok => ?_
    have hpage := hpage (not_not.mp hok)
    have hsorted := keyRange_sorted (s1.data con) start stop maxsize
    have hstrip := map_strip_sorted (fun k hk => hbounds k (mem_keyRange hk).2.1 (mem_keyRange hk).2.2) hsorted
    rw [hpage]
    refine (post_repairPage hp href hcon ccv deleteLog _ hstrip).then fun page v2 s2 h2 => ?_
    obtain ⟨hv2, hrepaired⟩ := h2
    refine Post.ite (fun hb => Post.pure ⟨hv2, by simp⟩) fun hb => ?_
    have hrepaired := hrepaired (by simpa using hb)
    refine Post.ite (fun hfull => ?_) fun hfull => Post.pure ⟨hv2, fun _ => ?_⟩
    · cases hlast : ((s1.data con).keyRange start stop maxsize).getLast? with
      | none =>
        -- a full page is not empty
        rw [List.getLast?_eq_none_iff.mp hlast] at hfull
        exact absurd hfull (by decide)
      | some last =>
        have hstart := (mem_keyRange (List.mem_of_getLast? hlast)).2.1
        refine (ih (hv2.1.trans hp) last fun k hk => hbounds k (hstart.trans hk)).mono fun b v3 s3 h3 =>
          ⟨hv2.trans h3.1, fun hb => ?_⟩
        obtain ⟨ks, hks⟩ := h3.2 hb
        exact ⟨_, Scanned.page href hf hbounds hrepaired hlast hks⟩
    · refine ⟨_, ⟨_, hrepaired⟩, hsorted, fun k hk => mem_keyRange hk, fun k hk hstart hstop => ?_⟩
      rcases keyRange_covers (d := s1.data con) hk hstart hstop with h | h
      · exact h
      · exact absurd h.1 hfull

end Scan

/-! ## Rebuild -/

/-- Partition updates do not touch the records. -/
theorem returns_left_data {m : Prog Req Res α} {s s' : Drives} {a : α} (h : Returns drives.left m s a s') :
    s'.data = s.data := by
  induction h with
  | ret a s => rfl
  | call hserve h ih =>
    rename_i r k s s1 s2 choice x a
    rw [ih]
    simp only [Service.left, drives, serveAll] at hserve
    split at hserve
    · cases hserve
      rfl
    · cases hserve

theorem post_update_data (m : Action α) (v : View) (s : Drives) :
    Post drives (update m) (fun _ _ s' => s'.data = s.data) v s :=
  Post.embed fun _ _ _ h => returns_left_data h

theorem post_finishSynchronize (index : Nat) (v : View) (s : Drives) :
    Post drives (finishSynchronize index) (fun _ _ s' => s'.data = s.data) v s := by
  unfold finishSynchronize
  refine Post.get_bind (Post.modify_bind ((post_update_data putPartitionUpdate _ s).then fun b v1 s1 h1 => ?_))
  exact Post.ite (fun _ => Post.pure h1) fun _ => Post.modify_bind (Post.pure h1)

theorem post_pick (candidates : List Nat) (v : View) (s : Drives) :
    Post drives (update (request (.pick candidates))) (fun i v' s' =>
      v' = v ∧ s' = s ∧ (i : Nat) ∈ candidates) v s := by
  refine Post.embed (Post.call fun choice x s' hserve => ?_)
  simp only [Service.left, drives, serveAll] at hserve
  split at hserve
  · rename_i y cluster hy
    cases hserve
    cases choice with
    | index i =>
      obtain ⟨z, hz, he⟩ := Option.map_eq_some_iff.mp hy
      cases he
      exact ⟨rfl, rfl, List.mem_of_getElem? hz⟩
    | reach told | unreachable | lost => cases hy
  · cases hserve

theorem green_of_mem_greenIndices {p : Partition} {i : Nat} (h : i ∈ greenIndices p) :
    ∃ g ∈ p.drives, g.status = .GREEN ∧ p.drives[i]? = some g := by
  have hi : p.drives[i]?.map KineticDrive.status = some .GREEN := by
    simpa using (List.mem_filter.mp h).2
  obtain ⟨g, hg, hgreen⟩ := Option.map_eq_some_iff.mp hi
  exact ⟨g, List.mem_of_getElem? hg, hgreen, hg⟩

/-- The drive that a rebuild scans: the log drive if there is one, else a GREEN drive. -/
def Source (v : View) (con : DriveId) : Prop :=
  match v.partition.logId with
  | some l => ∃ d, v.logPartition.drives[l]? = some d ∧ con = d.id
  | none => ∃ g ∈ v.partition.drives, g.status = .GREEN ∧ con = g.id

theorem post_scanned (v : View) (s : Drives) :
    Post drives (scanned v.partition) (fun a v' s' => v' = v ∧ s' = s ∧
      ∀ q con, a = some (q, con) → Source v con) v s := by
  unfold scanned
  cases hl : v.partition.logId with
  | some l =>
    refine Post.get_bind (Post.pure ⟨rfl, rfl, fun q con ha => ?_⟩)
    obtain ⟨d, hd, he⟩ := Option.map_eq_some_iff.mp ha
    cases he
    unfold Source
    rw [hl]
    exact ⟨d, hd, rfl⟩
  | none =>
    refine (post_pick (greenIndices v.partition) v s).then fun (i : Nat) v1 s1 h1 => Post.pure ?_
    obtain ⟨hv, hs, hi⟩ := h1
    obtain ⟨g, hg, hgreen, he⟩ := green_of_mem_greenIndices hi
    refine ⟨hv, hs, fun q con ha => ?_⟩
    rw [he] at ha
    cases ha
    unfold Source
    rw [hl]
    exact ⟨g, hg, hgreen, rfl⟩

section Rebuild

variable {assigned : Str → Bool} {v : View} {f : KineticDrive} {s s' : Drives} {con : DriveId} {k : Str}

theorem scanKeys_sorted (p : Partition) (con : DriveId) (s : Drives) :
    (scanKeys p con s).Pairwise (· ≤ ·) :=
  map_strip_sorted (fun _ hk => by simpa using (List.mem_filter.mp hk).2)
    (((s.data con).sorted.imp le_of_lt).filter _)

/-- The keys that have been repaired are those of the scan. -/
theorem Scanned.mem_scanKeys {p : Partition} {ks : List Str} {record : Option (KineticRecord Str)}
    (h : Scanned assigned p f con (scanPrefix p ++ lit " ") (scanPrefix p ++ lit "|") ks record s s') (k : Str) :
    k ∈ ks.map (strip p) ↔ k ∈ scanKeys p con s := by
  have hmem : ∀ x, x ∈ ks ↔ x ∈ (s.data con).keys.filter (InBounds p ·) := by
    intro x
    rw [List.mem_filter, (s.data con).mem_keys, decide_eq_true_eq]
    exact ⟨h.sound x, fun hx => h.covers x hx.1 hx.2.1 hx.2.2⟩
  simp only [scanKeys, List.mem_map, hmem]

/-- What `synchronizeDrive` leaves when it returns true. -/
theorem post_synchronizeDrive (href : reference v.partition = some f)
    (hsource : ∀ con, Source v con → v.partition.logId = none ∨ con ∉ nonRedIds v.partition)
    (index fuel : Nat) (s : Drives) :
    Post drives (synchronizeDrive assigned index fuel) (fun b _ s' => b = true →
      ∃ y, v.partition.drives[index]? = some y ∧ y.status = .YELLOW ∧ ∃ con, Source v con ∧
      ∀ d, v.partition.logId = none ∨ d ≠ con → ∀ k, s'.find d k =
        if (k ∈ scanKeys v.partition con s ∧ assigned k) ∧ d ∈ nonRedIds v.partition then
          enforced (rebuildRecord assigned v.partition f.id con s k) (s.find d k)
        else s.find d k) v s := by
  unfold synchronizeDrive
  refine Post.get_bind ?_
  dsimp only
  split
  · exact Post.stop
  · rename_i y hy
    refine Post.ite (fun _ => Post.pure (by simp)) fun hyellow => ?_
    refine (post_scanned v s).then fun a v1 s1 h1 => ?_
    obtain ⟨rfl, rfl, hcon⟩ := h1
    split
    · exact Post.stop
    · rename_i q con
      have hcon : Source v1 con := hcon q con rfl
      refine (Post.embed (post_driveToConnection q con)).then fun ok v2 s2 h2 => ?_
      obtain ⟨hv2, rfl⟩ := h2
      refine Post.ite (fun _ => Post.pure (by simp)) fun _ => ?_
      refine (post_clientClusterVersion con v2 s2).then fun ccv v3 s3 h3 => ?_
      obtain ⟨rfl, rfl⟩ := h3
      refine (post_repairPages hv2.1 href (hsource con hcon) ccv _ _ fuel _
        fun k hlow hhigh => ⟨hlow, hhigh⟩).then fun b v4 s4 h4 => ?_
      refine Post.ite (fun hb => ?_) fun _ => Post.pure (by simp)
      obtain ⟨ks, hks⟩ := h4.2 hb
      obtain ⟨record', hrepaired⟩ := hks.repaired
      refine (post_finishSynchronize index v4 s4).mono fun b v5 s5 h5 _ => ?_
      refine ⟨y, hy, not_not.mp hyellow, con, hcon, fun d hd k => ?_⟩
      have hdata : s5.find d k = s4.find d k := congrArg (fun data => (data d).find k) h5
      have hstrip : (ks.map (strip v1.partition)).Pairwise (· ≤ ·) :=
        map_strip_sorted (fun x hx => (hks.sound x hx).2) hks.sorted
      have hrecord : carriedTo (held assigned f.id s3) none (ks.map (strip v1.partition)) k =
          rebuildRecord assigned v1.partition f.id con s3 k :=
        carriedTo_congr_mem hstrip (scanKeys_sorted _ _ _) hks.mem_scanKeys none k
      rw [hdata, hrepaired.find d hd k, hrecord]
      simp only [hks.mem_scanKeys]

/-- A key that the reference drive has is rebuilt from there. -/
theorem rebuildRecord_of_held (ha : assigned k = true) (hk : k ∈ scanKeys v.partition con s)
    (hheld : s.find f.id k ≠ none) : rebuildRecord assigned v.partition f.id con s k = s.find f.id k := by
  have he : held assigned f.id s k = s.find f.id k := if_pos ha
  rw [← he] at hheld ⊢
  exact carriedTo_of_held (scanKeys_sorted _ _ _) hk hheld none

/-- The reference drive gets the record that is enforced. -/
theorem enforced_reference (ha : assigned k = true) (hk : k ∈ scanKeys v.partition con s) :
    enforced (rebuildRecord assigned v.partition f.id con s k) (s.find f.id k) =
      rebuildRecord assigned v.partition f.id con s k := by
  have he : held assigned f.id s k = s.find f.id k := if_pos ha
  unfold rebuildRecord
  rw [← he, ← or_carriedTo (scanKeys_sorted _ _ _) hk, enforced_or]

theorem mem_scanKeys_drive {p : Partition} (hlog : p.logId = none) :
    k ∈ scanKeys p con s ↔ s.find con k ≠ none ∧ lit " " ≤ k ∧ k ≤ lit "|" := by
  have hstrip : strip p = id := funext fun k => by simp [strip, hlog]
  rw [scanKeys, hstrip, List.map_id, List.mem_filter, (s.data con).mem_keys, decide_eq_true_eq, InBounds,
    scanPrefix, if_pos hlog]
  rfl

/-- A rebuild without a log drive that returns true makes the YELLOW drive `y` equal to the
    reference drive `f` if and only if every key they differ in is a key of the scanned drive `g`
    between the bounds of the scan, and under no key of the scan `y` holds another record with the
    version of the one that is enforced. -/
theorem synchronizeDrive_exact_iff {v' : View} {y : KineticDrive} {index fuel : Nat}
    (hlog : v.partition.logId = none) (hy : v.partition.drives[index]? = some y)
    (href : reference v.partition = some f)
    (h : Returns drives ((synchronizeDrive assigned index fuel).run v) s (true, v') s') :
    ∃ g ∈ v.partition.drives, g.status = .GREEN ∧
      ((∀ k, assigned k → s'.find y.id k = s'.find f.id k) ↔
        ∀ k, assigned k →
          (s.find y.id k ≠ s.find f.id k → s.find g.id k ≠ none ∧ lit " " ≤ k ∧ k ≤ lit "|") ∧
          (s.find g.id k ≠ none → lit " " ≤ k → k ≤ lit "|" →
            s.find y.id k ≠ rebuildRecord assigned v.partition f.id g.id s k →
            ¬ SameVersion (s.find y.id k) (rebuildRecord assigned v.partition f.id g.id s k))) := by
  obtain ⟨y', hy', hyellow, con, hcon, hfind⟩ :=
    post_synchronizeDrive href (fun _ _ => Or.inl hlog) index fuel s _ _ _ h rfl
  unfold Source at hcon
  rw [hlog] at hcon
  obtain ⟨g, hg, hgreen, rfl⟩ := hcon
  obtain rfl : y = y' := Option.some.inj (hy.symm.trans hy')
  have hyred : y.id ∈ nonRedIds v.partition :=
    List.mem_map.mpr ⟨y, List.mem_filter.mpr ⟨List.mem_of_getElem? hy, by simp [hyellow]⟩, rfl⟩
  refine ⟨g, hg, hgreen, forall_congr' fun k => forall_congr' fun hk => ?_⟩
  rw [hfind y.id (Or.inl hlog) k, hfind f.id (Or.inl hlog) k]
  by_cases hscan : k ∈ scanKeys v.partition g.id s
  · have hg := (mem_scanKeys_drive hlog).mp hscan
    rw [if_pos ⟨⟨hscan, hk⟩, hyred⟩, if_pos ⟨⟨hscan, hk⟩, reference_mem href⟩, enforced_reference hk hscan]
    by_cases hne : s.find y.id k = rebuildRecord assigned v.partition f.id g.id s k
    · exact iff_of_true (by rw [hne, enforced_self]) ⟨fun _ => hg, fun _ _ _ h => absurd hne h⟩
    · rw [enforced_eq_iff hne]
      exact ⟨fun h => ⟨fun _ => hg, fun _ _ _ _ => h⟩, fun h => h.2 hg.1 hg.2.1 hg.2.2 hne⟩
  · rw [if_neg fun h => hscan h.1.1, if_neg fun h => hscan h.1.1]
    rw [mem_scanKeys_drive hlog] at hscan
    refine ⟨fun h => ⟨fun hne => absurd h hne, fun h1 h2 h3 => absurd ⟨h1, h2, h3⟩ hscan⟩, fun h => ?_⟩
    by_contra hne
    exact hscan (h.1 hne)

end Rebuild

/-- A partition with a GREEN and a YELLOW drive. -/
def greenYellow : Partition :=
  ⟨0, some 1, [⟨.GREEN, lit "a", 0⟩, ⟨.YELLOW, lit "b", 0⟩], none⟩

/-- The GREEN drive holds one record, the other drive none. -/
def oneRecord (key : Str) : Drives where
  cluster := ⟨fun _ => ⟨0, fun _ => none⟩, [], []⟩
  data := Function.update (fun _ => Records.empty) (lit "a", 0) (Records.empty.set key (some ⟨lit "x", lit "1"⟩))
  agreed := greenYellow

/-- A rebuild in which every request is answered; the connections are open. -/
def rebuildOne (key : Str) : Option ((Bool × View) × Drives) :=
  ((synchronizeDrive (fun _ => true) 1 2).run ⟨greenYellow, ⟨0, none, [], none⟩, fun _ => some 0⟩).exec drives
    (oneRecord key) (.index 0 :: List.replicate 20 (.reach false))

theorem synchronizeDrive_exact_iff_slash : ∃ v' s', rebuildOne (lit "/x") = some ((true, v'), s') ∧
    ∀ k, s'.find (lit "b", 0) k = s'.find (lit "a", 0) k := by
  have hrun : (rebuildOne (lit "/x")).any (fun r => r.1.1) := by decide
  obtain ⟨⟨⟨b, v'⟩, s'⟩, hrun, hb⟩ := (Option.any_eq_true _ _).mp hrun
  obtain rfl : b = true := hb
  refine ⟨v', s', hrun, ?_⟩
  obtain ⟨g, hg, hgreen, hiff⟩ := synchronizeDrive_exact_iff (y := ⟨.YELLOW, lit "b", 0⟩)
    (f := ⟨.GREEN, lit "a", 0⟩) rfl rfl rfl (returns_of_exec hrun)
  obtain rfl : g = ⟨.GREEN, lit "a", 0⟩ := by
    rcases List.mem_cons.mp hg with h | h
    · exact h
    · rw [List.mem_singleton.mp h] at hgreen
      exact absurd hgreen (by decide)
  refine fun k => hiff.mpr (fun k _ => ⟨fun hne => ?_, fun _ _ _ _ hs => ?_⟩) k rfl
  swap
  · -- the YELLOW drive has no record at all
    obtain ⟨r, r', hr, -, -⟩ := hs
    cases hr
  have hb : (oneRecord (lit "/x")).find (lit "b", 0) k = none := rfl
  have ha : (oneRecord (lit "/x")).find (lit "a", 0) k =
      if k = lit "/x" then some ⟨lit "x", lit "1"⟩ else none := Records.find_set _ _ _ _
  by_cases hk : k = lit "/x"
  · subst hk
    exact ⟨by decide, by decide, by decide⟩
  · refine absurd (hb.trans ?_) hne
    rw [if_neg hk] at ha
    exact ha.symm

/-- The second GREEN drive and the YELLOW one hold `/y`, the first has lost it. -/
def oneLost : Drives where
  cluster := ⟨fun _ => ⟨0, fun _ => none⟩, [], []⟩
  data := fun d =>
    if d = (lit "a", 0) then Records.empty.set (lit "/x") (some ⟨lit "x", lit "1"⟩)
    else if d = (lit "b", 0) then
      (Records.empty.set (lit "/x") (some ⟨lit "x", lit "1"⟩)).set (lit "/y") (some ⟨lit "y", lit "1"⟩)
    else Records.empty.set (lit "/y") (some ⟨lit "y", lit "1"⟩)
  agreed := greenYellow

-- the record of `/x` goes on to `/y`: the first drive gets it, on the others the version is the same
example :
    ((synchronizeDrive (fun _ => true) 2 2).run
      ⟨⟨0, some 1, [⟨.GREEN, lit "a", 0⟩, ⟨.GREEN, lit "b", 0⟩, ⟨.YELLOW, lit "c", 0⟩], none⟩,
        ⟨0, none, [], none⟩, fun _ => some 0⟩).exec drives oneLost
        (.index 1 :: List.replicate 20 (.reach false)) |>.any fun r => r.1.1 ∧
      r.2.find (lit "a", 0) (lit "/y") = some ⟨lit "x", lit "1"⟩ ∧
      r.2.find (lit "c", 0) (lit "/y") = some ⟨lit "y", lit "1"⟩ := by decide

/-- The record of a reused name lies outside the scan. -/
theorem synchronizeDrive_misses_reuse : ∃ v' s', rebuildOne (lit "|reuse_1/x") = some ((true, v'), s') ∧
    s'.find (lit "a", 0) (lit "|reuse_1/x") ≠ none ∧ s'.find (lit "b", 0) (lit "|reuse_1/x") = none := by
  have hrun : (rebuildOne (lit "|reuse_1/x")).any (fun r => r.1.1 ∧
      r.2.find (lit "a", 0) (lit "|reuse_1/x") ≠ none ∧
      r.2.find (lit "b", 0) (lit "|reuse_1/x") = none) := by decide
  obtain ⟨⟨⟨b, v'⟩, s'⟩, hrun, h⟩ := (Option.any_eq_true _ _).mp hrun
  obtain ⟨rfl, h⟩ := of_decide_eq_true h
  exact ⟨v', s', hrun, h⟩

end HFlat.Replication
