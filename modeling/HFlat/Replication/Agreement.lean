/-
  Which drives acknowledge a write: the partition state a client holds in memory against the state
  that was agreed on last.

  First what the programs for partition updates do to memory, to the agreed state and to the views
  that the drives store. A property `Good` of partitions that `disableDrive` and `enableDrive` keep
  then holds of all of them along every run (`Held`). A write that begins while every drive of the
  agreed write quorum is also in the quorum of the memory (`Synced`) is acknowledged only by the
  agreed quorum.
-/
import HFlat.Replication.Rebuild

namespace HFlat.Replication

open HFlat.Lib

/-! ## Partition updates -/

section Updates

variable {v : View} {s : Drives}

theorem post_request {r : Req} : Post drives.left (request r) (fun x v' s' => v' = v ∧
    ∃ choice cluster, serve s.cluster r choice = some (x, cluster) ∧
      s' = { s with cluster := cluster, agreed := agreedAfter s.agreed r x }) v s := by
  refine Post.call fun choice x s' hserve => ?_
  simp only [Service.left, drives, serveAll] at hserve
  split at hserve
  · rename_i y cluster hy
    cases hserve
    exact ⟨rfl, choice, cluster, hy, rfl⟩
  · cases hserve

theorem post_noOp (d : DriveId) (ccv : Nat) :
    Post drives.left (request (.noOp d ccv)) (fun _ v' s' => v' = v ∧ s' = s) v s := by
  refine post_request.mono fun x v' s' h => ?_
  obtain ⟨rfl, choice, cluster, hserve, rfl⟩ := h
  cases choice with
  | reach told | unreachable =>
    cases hserve
    exact ⟨rfl, rfl⟩
  | lost | index i => cases hserve

theorem post_testConnection (p : Partition) (d : DriveId) :
    Post drives.left (testConnection p d) (fun _ v' s' => SameViews v v' ∧ s' = s) v s := by
  unfold testConnection
  refine (post_driveToConnection p d).then fun con v1 s1 h1 => ?_
  refine Post.ite (fun _ => Post.pure h1) fun _ => Post.get_bind ?_
  refine (post_noOp d _).then fun status v2 s2 h2 => Post.pure ?_
  obtain ⟨rfl, rfl⟩ := h2
  exact h1

theorem post_testDrives (p : Partition) (ds : List KineticDrive) (green yellow : Nat) :
    Post drives.left (testDrives p ds green yellow) (fun _ v' s' => SameViews v v' ∧ s' = s) v s := by
  induction ds generalizing v s green yellow with
  | nil => exact Post.pure ⟨⟨rfl, rfl⟩, rfl⟩
  | cons d ds ih =>
    unfold testDrives
    refine Post.ite (fun _ => ih _ _) fun _ => ?_
    refine (post_testConnection p d.id).then fun ok v1 s1 h1 => ?_
    refine Post.ite (fun _ => (ih _ _).mono fun _ v2 s2 h2 => ?_) fun _ => Post.pure h1
    exact ⟨h1.1.trans h2.1, h2.2.trans h1.2⟩

theorem post_testLog (p : Partition) :
    Post drives.left (testLog p) (fun _ v' s' => SameViews v v' ∧ s' = s) v s := by
  unfold testLog
  split
  · exact Post.pure ⟨⟨rfl, rfl⟩, rfl⟩
  · refine Post.get_bind ?_
    split
    · exact Post.stop
    · exact post_testConnection _ _

/-- `testPartition` changes no partition and no drive. -/
theorem post_testPartition :
    Post drives.left testPartition (fun _ v' s' => SameViews v v' ∧ s' = s) v s := by
  unfold testPartition
  refine Post.get_bind (Post.ite (fun _ => Post.pure ⟨⟨rfl, rfl⟩, rfl⟩) fun _ => ?_)
  refine (post_testDrives _ _ _ _).then fun counts v1 s1 h1 => ?_
  split
  · exact Post.pure h1
  · refine (post_testLog _).then fun ok v2 s2 h2 => ?_
    have h : SameViews v v2 ∧ s2 = s := ⟨h1.1.trans h2.1, h2.2.trans h1.2⟩
    exact Post.ite (fun _ => Post.pure h) fun _ => Post.ite (fun _ => Post.pure h) fun _ =>
      Post.ite (fun _ => Post.pure h) fun _ => Post.pure h

/-- A drive stores the partition under some cluster version. -/
def Stored (s : Drives) (p : Partition) : Prop :=
  ∃ d n r, (s.cluster.drive d).views n = some r ∧ r.value = p

/-- The request of `getPartitionUpdate`: a view that is parsed is a stored one. -/
theorem post_getView (d : DriveId) (ccv n : Nat) :
    Post drives.left (request (.get d ccv n)) (fun answer v' s' => v' = v ∧ s'.cluster = s.cluster ∧
      ((answer.1.expectedClusterVersion ≠ 0 ∧ answer.1.ok) →
        ∃ r, answer.2 = some r ∧ s'.agreed = r.value ∧ Stored s r.value) ∧
      (¬ (answer.1.expectedClusterVersion ≠ 0 ∧ answer.1.ok) → s'.agreed = s.agreed) ∧
      (¬ answer.1.ok → answer.2 = none)) v s := by
  refine post_request.mono fun answer v' s' h => ?_
  obtain ⟨rfl, choice, cluster, hserve, rfl⟩ := h
  cases choice with
  | reach told =>
    simp only [serve] at hserve
    split at hserve
    · rename_i r hr
      split at hserve
      · cases hserve
        refine ⟨rfl, rfl, fun hok => ⟨r, rfl, ?_, d, n, r, hr, rfl⟩, fun hok => ?_, fun hok => ?_⟩
        · exact if_pos hok
        · exact if_neg hok
        · rename_i hccv
          exact absurd (by simp [Drive.answer, hccv, KineticStatus.ok]) hok
      · rename_i hccv
        cases hserve
        have hbad : ((s.cluster.drive d).answer ccv told .OK).ok = false := by
          simp [Drive.answer, hccv, KineticStatus.ok]
        refine ⟨rfl, rfl, fun hok => ?_, fun _ => rfl, fun _ => rfl⟩
        rw [hbad] at hok
        exact absurd hok.2 (by decide)
    · cases hserve
      have hbad : ((s.cluster.drive d).answer ccv told .REMOTE_NOT_FOUND).ok = false := by
        unfold Drive.answer
        split
        · rfl
        · rfl
      refine ⟨rfl, rfl, fun hok => ?_, fun _ => rfl, fun _ => rfl⟩
      rw [hbad] at hok
      exact absurd hok.2 (by decide)
  | unreachable =>
    cases hserve
    refine ⟨rfl, rfl, fun hok => absurd hok.1 (by decide), fun _ => rfl, fun _ => rfl⟩
  | lost | index i => cases hserve

/-- A version that has been followed to a stored view makes it the agreed one. -/
theorem post_followVersion (d : DriveId) (fuel : Nat) (status : KineticStatus) :
    Post drives.left (followVersion d fuel status none) (fun x v' s' => SameViews v v' ∧
      s'.cluster = s.cluster ∧
      ((x.1.expectedClusterVersion ≠ 0 ∧ x.1.ok) → ∀ r, x.2 = some r →
        s'.agreed = r.value ∧ Stored s r.value) ∧
      (¬ (x.1.expectedClusterVersion ≠ 0 ∧ x.1.ok) → s'.agreed = s.agreed)) v s := by
  induction fuel generalizing status v s with
  | zero => exact Post.stop
  | succ fuel ih =>
    unfold followVersion
    refine Post.ite (fun _ => Post.modify_bind ?_) fun _ =>
      Post.pure ⟨⟨rfl, rfl⟩, rfl, fun _ r hr => absurd hr (by simp), fun _ => rfl⟩
    refine (post_getView d _ _).then fun answer v1 s1 h1 => ?_
    obtain ⟨rfl, hcluster, hparsed, hsame, hnone⟩ := h1
    by_cases hok : answer.1.ok
    · -- the answer is not a mismatch: the loop ends with it
      cases fuel with
      | zero => exact Post.stop
      | succ fuel =>
        unfold followVersion
        refine Post.ite (fun hmis => ?_) fun _ => Post.pure ⟨⟨rfl, rfl⟩, hcluster, fun h r hr => ?_, hsame⟩
        · simp [KineticStatus.ok, hmis] at hok
        · obtain ⟨r', hr', hagreed, hstored⟩ := hparsed h
          have hr : (answer.2 <|> none) = some r := hr
          rw [hr'] at hr
          cases hr
          exact ⟨hagreed, hstored⟩
    · rw [hnone hok]
      refine (ih answer.1).mono fun x v2 s2 h2 => ?_
      obtain ⟨hv2, hcluster2, hparsed2, hsame2⟩ := h2
      have hagreed : s1.agreed = s.agreed := hsame fun h => hok h.2
      refine ⟨hv2, hcluster2.trans hcluster, fun h r hr => ?_, fun h => (hsame2 h).trans hagreed⟩
      obtain ⟨h1, h2⟩ := hparsed2 h r hr
      refine ⟨h1, ?_⟩
      unfold Stored at h2 ⊢
      rwa [hcluster] at h2

/-- The loop of `getPartitionUpdate`: memory takes over a stored view, which is then the agreed
    one; if there is none, nothing changes. -/
theorem post_updateFrom (fuel : Nat) (p : Partition) (ds : List KineticDrive) :
    Post drives.left (updateFrom fuel p ds) (fun b v' s' => v'.logPartition = v.logPartition ∧
      s'.cluster = s.cluster ∧
      (b = true → v'.partition = s'.agreed ∧ Stored s s'.agreed) ∧
      (b = false → v'.partition = v.partition ∧ s'.agreed = s.agreed)) v s := by
  induction ds generalizing v s with
  | nil => exact Post.pure ⟨rfl, rfl, by simp, fun _ => ⟨rfl, rfl⟩⟩
  | cons d ds ih =>
    -- the next drive is asked in a state in which nothing has changed
    have hnext : ∀ v1 s1, SameViews v v1 → s1.cluster = s.cluster → s1.agreed = s.agreed →
        Post drives.left (updateFrom fuel p ds) (fun b v' s' => v'.logPartition = v.logPartition ∧
          s'.cluster = s.cluster ∧
          (b = true → v'.partition = s'.agreed ∧ Stored s s'.agreed) ∧
          (b = false → v'.partition = v.partition ∧ s'.agreed = s.agreed)) v1 s1 := by
      intro v1 s1 hv1 hcluster hagreed
      refine ih.mono fun b v2 s2 h2 => ?_
      obtain ⟨hlog, hc, htrue, hfalse⟩ := h2
      refine ⟨hlog.trans hv1.2, hc.trans hcluster, fun hb => ?_, fun hb => ?_⟩
      · obtain ⟨h1, h2⟩ := htrue hb
        unfold Stored at h2
        rw [hcluster] at h2
        exact ⟨h1, h2⟩
      · obtain ⟨h1, h2⟩ := hfalse hb
        exact ⟨h1.trans hv1.1, h2.trans hagreed⟩
    unfold updateFrom
    refine Post.ite (fun _ => ih) fun _ => ?_
    refine (post_driveToConnection p d.id).then fun con v1 s1 h1 => ?_
    obtain ⟨hv1, rfl⟩ := h1
    refine Post.ite (fun _ => hnext v1 s1 hv1 rfl rfl) fun _ => Post.get_bind ?_
    refine (post_noOp d.id _).then fun status v2 s2 h2 => ?_
    obtain ⟨rfl, rfl⟩ := h2
    refine (post_followVersion d.id fuel status).then fun x v3 s3 h3 => ?_
    obtain ⟨hv3, hcluster, hparsed, hsame⟩ := h3
    refine Post.ite (fun hok => ?_) fun hok => hnext v3 s3 (hv1.trans hv3) hcluster (hsame hok)
    split
    · exact Post.stop
    · rename_i r hr
      obtain ⟨hagreed, hstored⟩ := hparsed hok r hr
      refine Post.modify_bind (Post.pure ⟨hv3.2.trans hv1.2, hcluster, fun _ => ⟨hagreed.symm, ?_⟩, by simp⟩)
      rw [hagreed]
      exact hstored

theorem post_getPartitionUpdate (fuel : Nat) :
    Post drives.left (getPartitionUpdate fuel) (fun b v' s' => v'.logPartition = v.logPartition ∧
      s'.cluster = s.cluster ∧
      (b = true → v'.partition = s'.agreed ∧ Stored s s'.agreed) ∧
      (b = false → v'.partition = v.partition ∧ s'.agreed = s.agreed)) v s := by
  unfold getPartitionUpdate
  refine Post.get_bind (Post.ite (fun _ => Post.pure ⟨rfl, rfl, by simp, fun _ => ⟨rfl, rfl⟩⟩) fun _ => ?_)
  exact post_updateFrom fuel _ _

/-- A drive changes what it stores to `new`. -/
theorem stored_setDrive {d : DriveId} {new : Drive} {p q : Partition}
    (hnew : ∀ n r, new.views n = some r → (s.cluster.drive d).views n = some r ∨ r.value = p)
    (h : Stored { s with cluster := s.cluster.setDrive d new } q) : Stored s q ∨ q = p := by
  obtain ⟨d', n, r, hr, rfl⟩ := h
  simp only [Cluster.setDrive, Function.update_apply] at hr
  split at hr
  · rename_i hd
    subst hd
    exact (hnew n r hr).imp_left fun h => ⟨d', n, r, h, rfl⟩
  · exact Or.inl ⟨d', n, r, hr, rfl⟩

theorem post_putView (d : DriveId) (ccv n : Nat) (p : Partition) :
    Post drives.left (request (.put d ccv n ⟨p, lit "yes"⟩)) (fun _ v' s' => v' = v ∧
      s'.agreed = s.agreed ∧ ∀ q, Stored s' q → Stored s q ∨ q = p) v s := by
  have hput : ∀ m r, ((s.cluster.drive d).put ccv n ⟨p, lit "yes"⟩).2.views m = some r →
      (s.cluster.drive d).views m = some r ∨ r.value = p := by
    intro m r hr
    unfold Drive.put putSame at hr
    split at hr
    · simp only [Function.update_apply] at hr
      split at hr
      · rename_i hm
        subst hm
        split at hr
        · cases hr
          exact Or.inr rfl
        · exact Or.inl hr
      · exact Or.inl hr
    · exact Or.inl hr
  refine post_request.mono fun answer v' s' h => ?_
  obtain ⟨rfl, choice, cluster, hserve, rfl⟩ := h
  cases choice with
  | reach told | lost =>
    cases hserve
    exact ⟨rfl, rfl, fun q hq => stored_setDrive hput hq⟩
  | unreachable =>
    cases hserve
    exact ⟨rfl, rfl, fun q hq => Or.inl hq⟩
  | index i => cases hserve

theorem post_setClusterVersion (d : DriveId) (ccv n : Nat) :
    Post drives.left (request (.setClusterVersion d ccv n)) (fun _ v' s' => v' = v ∧
      s'.agreed = s.agreed ∧ ∀ q, Stored s' q → Stored s q) v s := by
  have hset : ∀ m r, ((s.cluster.drive d).setClusterVersion ccv n).views m = some r →
      (s.cluster.drive d).views m = some r := by
    intro m r hr
    unfold Drive.setClusterVersion at hr
    split at hr
    · exact hr
    · exact hr
  refine post_request.mono fun answer v' s' h => ?_
  obtain ⟨rfl, choice, cluster, hserve, rfl⟩ := h
  cases choice with
  | reach told | lost =>
    cases hserve
    refine ⟨rfl, rfl, fun q hq => ?_⟩
    obtain ⟨d', m, r, hr, rfl⟩ := hq
    simp only [Cluster.setDrive, Function.update_apply] at hr
    split at hr
    · rename_i hd
      subst hd
      exact ⟨d', m, r, hset m r hr, rfl⟩
    · exact ⟨d', m, r, hr, rfl⟩
  | unreachable =>
    cases hserve
    exact ⟨rfl, rfl, fun q hq => hq⟩
  | index i => cases hserve

/-- The loop of `putPartitionUpdate` stores no other view than the published one. -/
theorem post_putDrives (p : Partition) (ds : List KineticDrive) :
    Post drives.left (putDrives p ds) (fun _ v' s' => SameViews v v' ∧ s'.agreed = s.agreed ∧
      ∀ q, Stored s' q → Stored s q ∨ q = p) v s := by
  induction ds generalizing v s with
  | nil => exact Post.pure ⟨⟨rfl, rfl⟩, rfl, fun q h => Or.inl h⟩
  | cons d ds ih =>
    unfold putDrives
    refine Post.ite (fun _ => ih) fun _ => ?_
    refine (post_driveToConnection p d.id).then fun con v1 s1 h1 => ?_
    obtain ⟨hv1, rfl⟩ := h1
    refine Post.ite (fun _ => Post.pure ⟨hv1, rfl, fun q h => Or.inl h⟩) fun _ => Post.get_bind ?_
    refine (post_putView d.id _ p.clusterVersion p).then fun status v2 s2 h2 => ?_
    obtain ⟨rfl, hagreed2, hstored2⟩ := h2
    refine Post.ite (fun _ => ?_) fun _ => Post.pure ⟨hv1, hagreed2, hstored2⟩
    refine (post_setClusterVersion d.id _ p.clusterVersion).then fun _ v3 s3 h3 => ?_
    obtain ⟨rfl, hagreed3, hstored3⟩ := h3
    refine Post.modify_bind (ih.mono fun b v4 s4 h4 => ?_)
    obtain ⟨hv4, hagreed4, hstored4⟩ := h4
    refine ⟨hv1.trans hv4, (hagreed4.trans hagreed3).trans hagreed2, fun q hq => ?_⟩
    rcases hstored4 q hq with h | h
    · exact hstored2 q (hstored3 q h)
    · exact Or.inr h

/-- `putPartitionUpdate`: the view in memory is the agreed one if it returns true. -/
theorem post_putPartitionUpdate :
    Post drives.left putPartitionUpdate (fun b v' s' => SameViews v v' ∧
      (∀ q, Stored s' q → Stored s q ∨ q = v.partition) ∧
      (s'.agreed = s.agreed ∨ s'.agreed = v.partition) ∧
      (b = true → v.partition.partitionId ≠ none → s'.agreed = v.partition)) v s := by
  unfold putPartitionUpdate
  refine Post.get_bind (Post.ite (fun hnone => Post.pure ⟨⟨rfl, rfl⟩, fun q h => Or.inl h, Or.inl rfl,
    fun _ h => absurd hnone h⟩) fun _ => ?_)
  refine post_request.then fun _ v1 s1 h1 => ?_
  obtain ⟨rfl, choice, cluster, hserve, rfl⟩ := h1
  refine (post_putDrives v1.partition v1.partition.drives).then fun ok v2 s2 h2 => ?_
  obtain ⟨hv2, hagreed, hstored⟩ := h2
  have hbegan : ∀ q, Stored { s with cluster := cluster, agreed := agreedAfter s.agreed (.began v1.partition) () } q →
      Stored s q := by
    intro q hq
    cases hserve
    exact hq
  refine Post.ite (fun _ => ?_) fun _ => Post.pure ⟨hv2, fun q hq => (hstored q hq).imp_left (hbegan q),
    Or.inl hagreed, by simp⟩
  refine post_request.then fun _ v3 s3 h3 => Post.pure ?_
  obtain ⟨rfl, choice', cluster', hserve', rfl⟩ := h3
  refine ⟨hv2, fun q hq => (hstored q ?_).imp_left (hbegan q), Or.inr rfl, fun _ _ => rfl⟩
  cases hserve'
  exact hq

theorem post_addLog (p log : Partition) :
    Post drives.left (addLog p log) (fun p' v' s' => v' = v ∧ s' = s ∧
      (p' = p ∨ ∃ l, p' = { p with logId := some l })) v s := by
  unfold addLog
  refine Post.ite (fun _ => ?_) fun _ => Post.pure ⟨rfl, rfl, Or.inl rfl⟩
  refine post_request.then fun l v1 s1 h1 => Post.pure ?_
  obtain ⟨rfl, choice, cluster, hserve, rfl⟩ := h1
  cases choice with
  | index i =>
    obtain ⟨x, hx, he⟩ := Option.map_eq_some_iff.mp hserve
    cases he
    exact ⟨rfl, rfl, Or.inr ⟨_, rfl⟩⟩
  | reach told | unreachable | lost => cases hserve

end Updates

/-! ## Properties of every partition state -/

section Held

variable {Good GoodLog : Partition → Prop} {v v' : View} {s s' : Drives}

/-- `Good` holds of the partition in memory, of the agreed state and of every stored view, and
    `GoodLog` of the log partition. -/
structure Held (Good GoodLog : Partition → Prop) (v : View) (s : Drives) : Prop where
  memory : Good v.partition
  agreed : Good s.agreed
  stored : ∀ p, Stored s p → Good p
  log : GoodLog v.logPartition

theorem Held.same (h : Held Good GoodLog v s) (hv : SameViews v v') (hc : s'.cluster = s.cluster)
    (ha : s'.agreed = s.agreed) : Held Good GoodLog v' s' := by
  refine ⟨hv.1 ▸ h.memory, ha ▸ h.agreed, fun p hp => h.stored p ?_, hv.2 ▸ h.log⟩
  unfold Stored at hp ⊢
  rwa [← hc]

/-- The write quorum of the agreed state is part of the write quorum of the memory. -/
def Synced (v : View) (s : Drives) : Prop := ∀ d ∈ nonRedIds s.agreed, d ∈ nonRedIds v.partition

theorem Synced.same (h : Synced v s) (hv : SameViews v v') (ha : s'.agreed = s.agreed) : Synced v' s' := by
  unfold Synced
  rw [hv.1, ha]
  exact h

theorem synced_of_eq (h : v.partition = s.agreed) : Synced v s := by
  unfold Synced
  rw [h]
  exact fun _ hd => hd

theorem held_getPartitionUpdate (h : Held Good GoodLog v s) (fuel : Nat) :
    Post drives.left (getPartitionUpdate fuel) (fun b v' s' => Held Good GoodLog v' s' ∧
      v'.logPartition = v.logPartition ∧ (b = true → Synced v' s') ∧
      (b = false → v'.partition = v.partition)) v s := by
  refine (post_getPartitionUpdate fuel).mono fun b v1 s1 h1 => ?_
  obtain ⟨hlog, hcluster, htrue, hfalse⟩ := h1
  have hstored : ∀ p, Stored s1 p → Stored s p := by
    intro p hp
    unfold Stored at hp ⊢
    rwa [← hcluster]
  refine ⟨?_, hlog, fun hb => synced_of_eq (htrue hb).1, fun hb => (hfalse hb).1⟩
  cases b with
  | true =>
    obtain ⟨hmem, hst⟩ := htrue rfl
    have hgood := h.stored _ hst
    exact ⟨hmem ▸ hgood, hgood, fun p hp => h.stored p (hstored p hp), hlog ▸ h.log⟩
  | false =>
    obtain ⟨hmem, hagreed⟩ := hfalse rfl
    exact h.same ⟨hmem, hlog⟩ hcluster hagreed

theorem held_putPartitionUpdate (hid : ∀ p, Good p → p.partitionId ≠ none) (h : Held Good GoodLog v s) :
    Post drives.left putPartitionUpdate (fun b v' s' => Held Good GoodLog v' s' ∧ SameViews v v' ∧
      (b = true → Synced v' s') ∧ (Synced v s → Synced v' s')) v s := by
  refine post_putPartitionUpdate.mono fun b v1 s1 h1 => ?_
  obtain ⟨hv1, hstored, hagreed, htrue⟩ := h1
  refine ⟨⟨hv1.1 ▸ h.memory, ?_, fun p hp => ?_, hv1.2 ▸ h.log⟩, hv1, fun hb => ?_, fun hsync => ?_⟩
  · rcases hagreed with h' | h'
    · exact h' ▸ h.agreed
    · exact h' ▸ h.memory
  · rcases hstored p hp with h' | rfl
    · exact h.stored p h'
    · exact h.memory
  · exact synced_of_eq (hv1.1.trans (htrue hb (hid _ h.memory)).symm)
  · rcases hagreed with h' | h'
    · exact hsync.same hv1 h'
    · exact synced_of_eq (hv1.1.trans h'.symm)

end Held

/-! ## Failed and returning drives -/

section Drives

variable {sv : Service (Req ⊕ DataReq) (SumRes Res DataRes) Choice Drives}
variable {Good GoodLog : Partition → Prop} {v : View} {s : Drives}

/-- The partition after `disableDrive` or `enableDrive` has changed the status of a drive. -/
def Partition.withStatus (p : Partition) (index : Nat) (st : KineticDrive.Status) (n : Nat) : Partition :=
  { p.setStatus index st with clusterVersion := n }

/-- The changes of status keep `Good`. -/
structure Admissible (sv : Service (Req ⊕ DataReq) (SumRes Res DataRes) Choice Drives)
    (Good GoodLog : Partition → Prop) : Prop where
  within : sv.Within drives
  partitionId : ∀ p, Good p → p.partitionId ≠ none
  disable : ∀ v s index, Held Good GoodLog v s →
    Post sv.left (addLog v.partition v.logPartition) (fun p v' s' => v' = v ∧ s' = s ∧
      Good (p.withStatus index .RED (p.clusterVersion + 1))) v s
  enable : ∀ p index st n, Good p → (∃ d ∈ p.drives, d.status ≠ .GREEN) → Good (p.withStatus index st n)

theorem Held.setPartition {p : Partition} (h : Held Good GoodLog v s) (hp : Good p) :
    Held Good GoodLog { v with partition := p } s :=
  ⟨hp, h.agreed, h.stored, h.log⟩

theorem held_disableDrive (ha : Admissible sv Good GoodLog) (h : Held Good GoodLog v s)
    (index fuel : Nat) :
    Post sv.left (disableDrive index fuel) (fun b v' s' => Held Good GoodLog v' s' ∧
      v'.logPartition = v.logPartition ∧ (b = true → Synced v s → Synced v' s')) v s := by
  induction fuel generalizing v s with
  | zero => exact Post.stop
  | succ fuel ih =>
    unfold disableDrive
    refine Post.get_bind ?_
    split
    · exact Post.stop
    · rename_i d hd
      refine Post.ite (fun _ => Post.pure ⟨h, rfl, fun _ hs => hs⟩) fun _ => ?_
      refine (ha.disable v s index h).then fun p v1 s1 h1 => Post.modify_bind ?_
      obtain ⟨rfl, rfl, hgood⟩ := h1
      have hheld : Held Good GoodLog { v1 with partition := p.withStatus index .RED (p.clusterVersion + 1) } s1 :=
        h.setPartition hgood
      refine (post_testPartition.within ha.within.left).then fun ok v2 s2 h2 => ?_
      obtain ⟨hv2, rfl⟩ := h2
      have hheld2 := hheld.same hv2 rfl rfl
      refine Post.ite (fun _ => ?_) fun _ => Post.pure ⟨hheld2, hv2.2, by simp⟩
      refine ((held_putPartitionUpdate ha.partitionId hheld2).within ha.within.left).then
        fun ok v3 s3 h3 => ?_
      obtain ⟨hheld3, hv3, hsync3, -⟩ := h3
      have hlog3 : v3.logPartition = v1.logPartition := hv3.2.trans hv2.2
      refine Post.ite (fun hok => Post.modify_bind (Post.pure ⟨hheld3.same ⟨rfl, rfl⟩ rfl rfl, hlog3,
        fun _ _ => (hsync3 hok).same ⟨rfl, rfl⟩ rfl⟩)) fun _ => ?_
      refine ((held_getPartitionUpdate hheld3 fuel).within ha.within.left).then fun ok v4 s4 h4 => ?_
      obtain ⟨hheld4, hlog4, hsync4, -⟩ := h4
      refine Post.ite (fun hok => (ih hheld4).mono fun b v5 s5 h5 => ?_) fun _ =>
        Post.pure ⟨hheld4, hlog4.trans hlog3, by simp⟩
      exact ⟨h5.1, h5.2.1.trans (hlog4.trans hlog3), fun hb _ => h5.2.2 hb (hsync4 hok)⟩

theorem post_probeVersion (d : DriveId) (fuel cversion : Nat) :
    Post drives.left (probeVersion d fuel cversion) (fun _ v' s' => SameViews v v' ∧ s' = s) v s := by
  induction fuel generalizing cversion v with
  | zero => exact Post.stop
  | succ fuel ih =>
    unfold probeVersion
    refine Post.modify_bind ((post_noOp d cversion).then fun status v1 s1 h1 => ?_)
    obtain ⟨rfl, rfl⟩ := h1
    refine Post.ite (fun _ => (ih (cversion + 1)).mono fun _ v2 s2 h2 => ?_) fun _ =>
      Post.pure ⟨⟨rfl, rfl⟩, rfl⟩
    exact ⟨⟨h2.1.1, h2.1.2⟩, h2.2⟩

theorem exists_withStatus {p : Partition} {index n : Nat} {st : KineticDrive.Status} {d : KineticDrive}
    (hd : p.drives[index]? = some d) (hst : st ≠ .GREEN) :
    ∃ x ∈ (p.withStatus index st n).drives, x.status ≠ .GREEN := by
  refine ⟨{ d with status := st }, List.mem_of_getElem? (i := index) ?_, hst⟩
  show (p.drives.modify index fun d => { d with status := st })[index]? = _
  rw [List.getElem?_modify_eq, hd]
  rfl

theorem held_enableDrive (ha : Admissible sv Good GoodLog) (h : Held Good GoodLog v s)
    (index fuel : Nat) :
    Post sv.left (enableDrive index fuel) (fun _ v' s' => Held Good GoodLog v' s' ∧
      v'.logPartition = v.logPartition) v s := by
  induction fuel generalizing v s with
  | zero => exact Post.stop
  | succ fuel ih =>
    unfold enableDrive
    refine Post.get_bind ?_
    dsimp only
    split
    · exact Post.stop
    · rename_i d hd
      refine Post.ite (fun _ => Post.pure ⟨h, rfl⟩) fun hred => ?_
      have hred : d.status = .RED := not_not.mp hred
      refine ((post_driveToConnection v.partition d.id).within ha.within.left).then fun con v1 s1 h1 => ?_
      obtain ⟨hv1, rfl⟩ := h1
      have hheld1 := h.same hv1 rfl rfl
      refine Post.ite (fun _ => Post.pure ⟨hheld1, hv1.2⟩) fun _ => ?_
      refine ((post_probeVersion d.id fuel 0).within ha.within.left).then fun status v2 s2 h2 => ?_
      obtain ⟨hv2, rfl⟩ := h2
      have hheld2 := hheld1.same hv2 rfl rfl
      refine Post.ite (fun _ => Post.pure ⟨hheld2, hv2.2.trans hv1.2⟩) fun _ => Post.modify_bind ?_
      have hgood : Good (v.partition.withStatus index .YELLOW (v.partition.clusterVersion + 1)) :=
        ha.enable _ _ _ _ h.memory ⟨d, List.mem_of_getElem? hd, by simp [hred]⟩
      have hyellow := exists_withStatus (n := v.partition.clusterVersion + 1) hd
        (show KineticDrive.Status.YELLOW ≠ .GREEN by decide)
      -- the drive becomes RED again while the memory still is as `enableDrive` has changed it
      have hback : ∀ v' s', Held Good GoodLog v' s' → v'.logPartition = v.logPartition →
          v'.partition = v.partition.withStatus index .YELLOW (v.partition.clusterVersion + 1) →
          Post sv.left (do
            let p := (← get).partition
            setPartition { p.setStatus index .RED with clusterVersion := p.clusterVersion - 1 }
            return false) (fun _ v' s' => Held Good GoodLog v' s' ∧ v'.logPartition = v.logPartition) v' s' := by
        intro v' s' hheld hlog hmem
        refine Post.get_bind (Post.modify_bind (Post.pure ⟨hheld.setPartition ?_, hlog⟩))
        exact ha.enable _ _ _ _ hheld.memory (hmem ▸ hyellow)
      refine (post_testPartition.within ha.within.left).then fun ok v3 s3 h3 => ?_
      obtain ⟨hv3, rfl⟩ := h3
      have hheld3 := (hheld2.setPartition hgood).same hv3 rfl rfl
      have hlog3 : v3.logPartition = v.logPartition := hv3.2.trans (hv2.2.trans hv1.2)
      refine Post.ite (fun _ => ?_) fun _ => hback v3 s3 hheld3 hlog3 hv3.1
      refine ((held_putPartitionUpdate ha.partitionId hheld3).within ha.within.left).then fun ok v4 s4 h4 => ?_
      obtain ⟨hheld4, hv4, -, -⟩ := h4
      have hlog4 : v4.logPartition = v.logPartition := hv4.2.trans hlog3
      refine Post.ite (fun _ => Post.pure ⟨hheld4, hlog4⟩) fun _ => ?_
      refine ((held_getPartitionUpdate hheld4 fuel).within ha.within.left).then fun ok v5 s5 h5 => ?_
      obtain ⟨hheld5, hlog5, -, hsame5⟩ := h5
      refine Post.ite (fun _ => (ih hheld5).mono fun _ v6 s6 h6 => ⟨h6.1, h6.2.trans (hlog5.trans hlog4)⟩)
        fun hok => hback v5 s5 hheld5 (hlog5.trans hlog4) ?_
      exact (hsame5 (by simpa using hok)).trans (hv4.1.trans hv3.1)

end Drives

/-! ## Operations of the client -/

section Operations

variable {sv : Service (Req ⊕ DataReq) (SumRes Res DataRes) Choice Drives}
variable {Good GoodLog : Partition → Prop} {v : View} {s : Drives}

/-- A request for records changes neither the cluster nor the agreed state. -/
theorem serveData_same {s s' : Drives} {r : DataReq} {choice : Choice} {x : DataRes r}
    (h : serveData s r choice = some (x, s')) : s'.cluster = s.cluster ∧ s'.agreed = s.agreed := by
  have hcarry : ∀ d ccv key op, (s.carryOut d ccv key op).2.cluster = s.cluster ∧
      (s.carryOut d ccv key op).2.agreed = s.agreed := by
    intro d ccv key op
    unfold Drives.carryOut
    split
    · exact ⟨rfl, rfl⟩
    · exact ⟨rfl, rfl⟩
  unfold serveData at h
  split at h
  · split at h
    · split at h
      · cases h
        exact ⟨rfl, rfl⟩
      · cases h
        exact ⟨rfl, rfl⟩
    · cases h
      exact ⟨rfl, rfl⟩
  · cases h
    exact ⟨rfl, rfl⟩
  · rename_i d ccv key op told
    obtain rfl : (s.carryOut d ccv key op).2 = s' := congrArg Prod.snd (Option.some.inj h)
    exact hcarry d ccv key op
  · cases h
    exact hcarry _ _ _ _
  · cases h
    exact ⟨rfl, rfl⟩
  · split at h
    · cases h
      exact ⟨rfl, rfl⟩
    · cases h
      exact ⟨rfl, rfl⟩
  · cases h
    exact ⟨rfl, rfl⟩
  · cases h
    exact ⟨rfl, rfl⟩
  · cases h
    exact ⟨rfl, rfl⟩
  · cases h
    exact ⟨rfl, rfl⟩
  · cases h

theorem post_ask (r : DataReq) : Post drives (ask r) (fun _ v' s' => v' = v ∧
    s'.cluster = s.cluster ∧ s'.agreed = s.agreed) v s :=
  Post.call fun _ _ _ hserve => ⟨rfl, serveData_same hserve⟩

/-- Memory and agreed state are the same after as before. -/
def Idle (sv : Service (Req ⊕ DataReq) (SumRes Res DataRes) Choice Drives) (m : Client α) : Prop :=
  ∀ v s, Post sv m (fun _ v' s' => SameViews v v' ∧ s'.cluster = s.cluster ∧ s'.agreed = s.agreed) v s

theorem Idle.pure (a : α) : Idle sv (pure a) := fun _ _ => Post.pure ⟨⟨rfl, rfl⟩, rfl, rfl⟩

theorem Idle.crash : Idle sv (Client.crash : Client α) := fun _ _ => Post.stop

theorem Idle.bind {m : Client α} {f : α → Client β} (hm : Idle sv m) (hf : ∀ a, Idle sv (f a)) :
    Idle sv (m >>= f) := by
  intro v s
  refine (hm v s).then fun a v1 s1 h1 => (hf a v1 s1).mono fun b v2 s2 h2 => ?_
  exact ⟨h1.1.trans h2.1, h2.2.1.trans h1.2.1, h2.2.2.trans h1.2.2⟩

theorem Idle.get_bind {f : View → Client β} (hf : ∀ v, Idle sv (f v)) : Idle sv (get >>= f) :=
  fun v s => hf v v s

theorem Idle.ite {c : Prop} [Decidable c] {m m' : Client α} (h : Idle sv m) (h' : Idle sv m') :
    Idle sv (if c then m else m') :=
  fun v s => Post.ite (fun _ => h v s) fun _ => h' v s

theorem Idle.ask (hsv : sv.Within drives) (r : DataReq) : Idle sv (ask r) :=
  fun _ _ => ((post_ask r).within hsv).mono fun _ _ _ h => ⟨⟨by rw [h.1], by rw [h.1]⟩, h.2⟩

theorem Idle.connection (hsv : sv.Within drives) (p : Partition) (d : DriveId) : Idle sv (connection p d) :=
  fun _ _ => ((post_connection p d).within hsv).mono fun _ _ _ h => ⟨h.1, by rw [h.2], by rw [h.2]⟩

theorem Idle.enforce (hsv : sv.Within drives) (key : Str) (record : Option (KineticRecord Str)) (d : DriveId)
    (ccv : Nat) (status : StatusCode) (cur : Option (KineticRecord Str)) :
    Idle sv (enforce key record d ccv status cur) := by
  unfold Replication.enforce
  cases record with
  | none => exact Idle.ite (Idle.bind (Idle.ask hsv _) fun _ => Idle.pure _) (Idle.pure _)
  | some r => exact Idle.ite (Idle.pure _) (Idle.bind (Idle.ask hsv _) fun _ => Idle.pure _)

theorem Idle.enforceAll (hsv : sv.Within drives) (p : Partition) (key : Str) (index : Nat)
    (record : Option (KineticRecord Str)) (ds : List KineticDrive) (i : Nat) :
    Idle sv (enforceAll p key index record ds i) := by
  induction ds generalizing i with
  | nil => exact Idle.pure _
  | cons d ds ih =>
    unfold Replication.enforceAll
    refine Idle.ite (ih _) (Idle.bind (Idle.connection hsv p d.id) fun ccv => ?_)
    refine Idle.bind (Idle.ask hsv _) fun answer => Idle.ite (Idle.pure _) ?_
    refine Idle.bind (Idle.enforce hsv _ _ _ _ _ _) fun a => ?_
    cases a with
    | none => exact ih _
    | some code => exact Idle.ite (Idle.pure _) (Idle.ite (Idle.pure _) (ih _))

theorem Idle.repair (hsv : sv.Within drives) (key : Str) (record : Option (KineticRecord Str)) :
    Idle sv (repair key record) := by
  unfold Replication.repair
  refine Idle.get_bind fun v => ?_
  dsimp only
  split
  · exact Idle.crash
  · split
    · exact Idle.crash
    · refine Idle.bind (Idle.connection hsv _ _) fun ccv => Idle.bind (Idle.ask hsv _) fun answer => ?_
      exact Idle.ite (Idle.pure _) (Idle.bind (Idle.enforceAll hsv _ _ _ _ _ _) fun _ => Idle.pure _)

theorem Idle.writeAll (hsv : sv.Within drives) (p : Partition) (logged : Bool) (key : Str) (op : WriteOp)
    (ds : List KineticDrive) : Idle sv (writeAll p logged key op ds) := by
  induction ds with
  | nil => exact Idle.pure _
  | cons d ds ih =>
    unfold Replication.writeAll
    refine Idle.ite (Idle.bind ih fun _ => Idle.pure _) (Idle.bind (Idle.connection hsv p d.id) fun ccv => ?_)
    exact Idle.bind (Idle.ask hsv _) fun _ => Idle.bind ih fun _ => Idle.pure _

theorem Idle.held {m : Client α} (hm : Idle sv m) : Preserves sv (Held Good GoodLog) m :=
  fun v s h => (hm v s).mono fun _ _ _ h' => h.same h'.1 h'.2.1 h'.2.2

theorem preserves_getPartitionUpdate (ha : Admissible sv Good GoodLog) (fuel : Nat) :
    Preserves sv (Held Good GoodLog) (update (getPartitionUpdate fuel)) :=
  Preserves.embed fun _ _ h => ((held_getPartitionUpdate h fuel).within ha.within.left).mono
    fun _ _ _ h' => h'.1

theorem preserves_disableDrive (ha : Admissible sv Good GoodLog) (index fuel : Nat) :
    Preserves sv (Held Good GoodLog) (update (disableDrive index fuel)) :=
  Preserves.embed fun _ _ h => (held_disableDrive ha h index fuel).mono fun _ _ _ h' => h'.1

theorem preserves_enableDrive (ha : Admissible sv Good GoodLog) (index fuel : Nat) :
    Preserves sv (Held Good GoodLog) (update (enableDrive index fuel)) :=
  Preserves.embed fun _ _ h => (held_enableDrive ha h index fuel).mono fun _ _ _ h' => h'.1

theorem failedIndex_ne_ok {ds : List KineticDrive} {results : List StatusCode} {i j : Nat} {code : StatusCode}
    (h : failedIndex ds results i = some (j, code)) : code ≠ .OK := by
  induction ds generalizing results i with
  | nil => cases h
  | cons d ds ih =>
    cases results with
    | nil => cases h
    | cons c results =>
      simp only [failedIndex] at h
      split at h
      · rename_i hc
        cases h
        exact hc.2.1
      · exact ih h

theorem mem_validResults {ds : List KineticDrive} {results : List StatusCode} {i : Nat} {d : KineticDrive}
    (hlen : ds.length ≤ results.length) (hd : ds[i]? = some d) (hred : d.status ≠ .RED) :
    ∃ c ∈ validResults ds results, results[i]? = some c := by
  induction ds generalizing results i with
  | nil => cases hd
  | cons x ds ih =>
    cases results with
    | nil => exact absurd hlen (by simp)
    | cons c results =>
      have hlen : ds.length ≤ results.length := by simpa using hlen
      unfold validResults
      cases i with
      | zero =>
        obtain rfl : x = d := by simpa using hd
        rw [if_neg hred]
        exact ⟨c, List.mem_cons_self, rfl⟩
      | succ i =>
        obtain ⟨c', hc', he⟩ := ih hlen (by simpa using hd)
        split
        · exact ⟨c', hc', by simpa using he⟩
        · exact ⟨c', List.mem_cons_of_mem _ hc', by simpa using he⟩

/-- `evaluateWriteOperation` returns OK only if every drive of the quorum in memory did, and then
    memory is still in step with the agreed state. -/
theorem post_evaluate (ha : Admissible sv Good GoodLog) (results : List StatusCode)
    (h : Held Good GoodLog v s) (fuel : Nat) :
    Post sv (evaluate results fuel) (fun code v' s' => Held Good GoodLog v' s' ∧ s'.data = s.data ∧
      v'.logPartition = v.logPartition ∧ (code = .OK → Synced v s → Synced v' s' ∧
        ∀ (i : Nat) (d : KineticDrive), v'.partition.drives[i]? = some d → d.status ≠ .RED →
          results[i]? = some .OK)) v s := by
  induction fuel generalizing v s with
  | zero => exact Post.stop
  | succ fuel ih =>
    unfold evaluate
    refine Post.get_bind (Post.ite (fun _ => Post.bind Post.stop) fun hlen => ?_)
    dsimp only
    split
    · exact Post.stop
    · split
      · exact Post.stop
      · rename_i code hgreen
        refine Post.ite (fun hall => Post.pure ⟨h, rfl, rfl, fun hok hsync => ⟨hsync, fun i d hd hred => ?_⟩⟩)
          fun _ => ?_
        · obtain ⟨c, hc, he⟩ := mem_validResults (not_lt.mp hlen) hd hred
          rw [he, hall c hc, hok]
        · split
          · exact Post.pure ⟨h, rfl, rfl, fun hok => absurd hok (by decide)⟩
          · rename_i index code' hfailed
            refine ((Post.embed (held_disableDrive ha h index fuel)).and
              ((post_update_data _ v s).within ha.within)).then fun b v1 s1 h1 => ?_
            obtain ⟨⟨hheld, hlog, hsync1⟩, hdata⟩ := h1
            refine Post.ite (fun hb => (ih hheld).mono fun code v2 s2 h2 => ?_) fun _ =>
              Post.pure ⟨hheld, hdata, hlog, fun hok => absurd hok (failedIndex_ne_ok hfailed)⟩
            obtain ⟨hheld2, hdata2, hlog2, hok2⟩ := h2
            exact ⟨hheld2, hdata2.trans hdata, hlog2.trans hlog, fun hok hsync => hok2 hok (hsync1 hb hsync)⟩

theorem preserves_resolve (ha : Admissible sv Good GoodLog) (key : Str)
    (ok : Option (KineticRecord Str) → Bool) (fuel : Nat) :
    Preserves sv (Held Good GoodLog) (resolve key ok fuel) := by
  have hend : ∀ result : StatusCode × Option (KineticRecord Str), Preserves sv (Held Good GoodLog)
      (if result.1 = .OK then pure (if ok result.2 then .OK else .REMOTE_VERSION_MISMATCH)
        else pure result.1 : Client StatusCode) :=
    fun result => Preserves.ite (Preserves.pure _) (Preserves.pure _)
  unfold resolve
  refine Preserves.bind (Idle.repair ha.within key none).held fun result => Preserves.ite ?_ (hend result)
  refine Preserves.bind (preserves_getPartitionUpdate ha fuel) fun b => Preserves.ite ?_ (hend result)
  exact Preserves.bind (Idle.repair ha.within key result.2).held fun result => hend result

theorem preserves_pick (hsv : sv.Within drives) (candidates : List Nat) :
    Preserves sv (Held Good GoodLog) (update (request (.pick candidates))) :=
  fun v s h => ((post_pick candidates v s).within hsv).mono fun _ v' s' h' => by
    rw [h'.1, h'.2.1]
    exact h

theorem preserves_driveToConnection (hsv : sv.Within drives) (p : Partition) (d : DriveId) :
    Preserves sv (Held Good GoodLog) (update (driveToConnection p d)) :=
  fun v s h => ((Post.embed (post_driveToConnection p d)).within hsv).mono fun _ v' s' h' =>
    h.same h'.1 (by rw [h'.2]) (by rw [h'.2])

theorem preserves_clientClusterVersion (d : DriveId) :
    Preserves sv (Held Good GoodLog) (update (clientClusterVersion d)) :=
  Preserves.embed (Preserves.bind Preserves.get fun _ => Preserves.pure _)

theorem preserves_read (ha : Admissible sv Good GoodLog) (key : Str) (fuel : Nat) :
    Preserves sv (Held Good GoodLog) (read key fuel) := by
  induction fuel with
  | zero => exact Preserves.stop
  | succ fuel ih =>
    have hend : ∀ (index : Nat) (answer : StatusCode × Option (KineticRecord Str)),
        Preserves sv (Held Good GoodLog) (if answer.1 = .REMOTE_CLUSTER_VERSION_MISMATCH then do
            if ← update (getPartitionUpdate fuel) then read key fuel
            else return answer
          else if answer.1 ≠ .OK ∧ answer.1 ≠ .REMOTE_NOT_FOUND ∧ answer.1 ≠ .REMOTE_NOT_AUTHORIZED then do
            if ← update (disableDrive index fuel) then read key fuel
            else return answer
          else return answer : Client (StatusCode × Option (KineticRecord Str))) := by
      intro index answer
      refine Preserves.ite (Preserves.bind (preserves_getPartitionUpdate ha fuel) fun b => ?_)
        (Preserves.ite (Preserves.bind (preserves_disableDrive ha index fuel) fun b => ?_) (Preserves.pure _))
      · exact Preserves.ite ih (Preserves.pure _)
      · exact Preserves.ite ih (Preserves.pure _)
    unfold read
    refine Preserves.bind Preserves.get fun v => Preserves.bind (preserves_pick ha.within _) fun index => ?_
    split
    · exact Preserves.stop
    · refine Preserves.bind (preserves_driveToConnection ha.within _ _) fun con => ?_
      refine Preserves.ite ?_ (hend index _)
      refine Preserves.bind (preserves_clientClusterVersion _) fun ccv => ?_
      exact Preserves.bind (Idle.ask ha.within _).held fun answer => hend index answer

theorem preserves_testPartition (hsv : sv.Within drives) :
    Preserves sv (Held Good GoodLog) (update testPartition) :=
  fun v s h => ((Post.embed post_testPartition).within hsv).mono fun _ v' s' h' =>
    h.same h'.1 (by rw [h'.2]) (by rw [h'.2])

theorem preserves_enableRed (ha : Admissible sv Good GoodLog) (fuel n i : Nat) :
    Preserves sv (Held Good GoodLog) (enableRed fuel n i) := by
  induction n generalizing i with
  | zero => exact Preserves.stop
  | succ n ih =>
    unfold enableRed
    refine Preserves.bind Preserves.get fun v => ?_
    split
    · exact Preserves.pure _
    · exact Preserves.ite (Preserves.bind (preserves_enableDrive ha i fuel) fun _ => ih _) (ih _)

theorem preserves_selfCheck (ha : Admissible sv Good GoodLog) (fuel : Nat) :
    Preserves sv (Held Good GoodLog) (selfCheck fuel) := by
  have htest := @preserves_testPartition sv Good GoodLog ha.within
  unfold selfCheck
  refine Preserves.bind (preserves_enableRed ha fuel fuel 0) fun _ => Preserves.bind htest fun b => ?_
  refine Preserves.ite (Preserves.pure _) (Preserves.bind (preserves_getPartitionUpdate ha fuel) fun b => ?_)
  refine Preserves.ite (Preserves.bind htest fun b => ?_) (Preserves.pure _)
  exact Preserves.ite (Preserves.pure _) (Preserves.pure _)

theorem preserves_writeOperation (ha : Admissible sv Good GoodLog)
    (hlog : ∀ p key fuel, Preserves sv (Held Good GoodLog) (logWrite p key fuel)) (key : Str) (op : WriteOp)
    (fuel : Nat) : Preserves sv (Held Good GoodLog) (writeOperation key op fuel) := by
  induction fuel with
  | zero => exact Preserves.stop
  | succ fuel ih =>
    unfold writeOperation
    refine Preserves.bind Preserves.get fun v => ?_
    refine Preserves.bind (Idle.writeAll ha.within _ _ _ _ _).held fun results => ?_
    refine Preserves.bind (hlog _ _ _) fun _ => Preserves.ite ?_ fun v s h => ?_
    · refine Preserves.bind (preserves_getPartitionUpdate ha fuel) fun b => ?_
      exact Preserves.ite ih (Preserves.pure _)
    · exact (post_evaluate ha results h fuel).mono fun _ _ _ h' => h'.1

end Operations

/-! ## Acknowledged writes -/

section Acknowledged

variable {v : View} {s : Drives} {ids : List DriveId}

/-- A partition with these drives. -/
def Shaped (ids : List DriveId) (p : Partition) : Prop :=
  p.partitionId ≠ none ∧ p.drives.map KineticDrive.id = ids

theorem map_id_setStatus (p : Partition) (index : Nat) (st : KineticDrive.Status) :
    (p.setStatus index st).drives.map KineticDrive.id = p.drives.map KineticDrive.id := by
  unfold Partition.setStatus
  apply List.ext_getElem?
  intro i
  rw [List.getElem?_map, List.getElem?_map, List.getElem?_modify]
  cases p.drives[i]? with
  | none => rfl
  | some d =>
    by_cases hi : index = i
    · simp [hi, KineticDrive.id]
    · simp [hi]

/-- The log partition has no id. -/
def NoId (p : Partition) : Prop := p.partitionId = none

theorem admissible_shaped (ids : List DriveId) : Admissible drives (Shaped ids) NoId where
  within := Service.Within.refl _
  partitionId := fun p h => h.1
  disable := by
    intro v s index h
    refine (post_addLog v.partition v.logPartition).mono fun p v' s' h' => ⟨h'.1, h'.2.1, ?_⟩
    obtain ⟨-, -, rfl | ⟨l, rfl⟩⟩ := h'
    · exact ⟨h.memory.1, (map_id_setStatus _ _ _).trans h.memory.2⟩
    · exact ⟨h.memory.1, (map_id_setStatus _ _ _).trans h.memory.2⟩
  enable := fun p index st n h _ => ⟨h.1, (map_id_setStatus _ _ _).trans h.2⟩

theorem post_testPartition_log (hnone : NoId v.partition) :
    Post drives.left testPartition (fun b v' s' => b = true ∧ v' = v ∧ s' = s) v s := by
  unfold testPartition
  exact Post.get_bind (Post.ite (fun _ => Post.pure ⟨rfl, rfl, rfl⟩) fun h => absurd hnone h)

theorem post_putPartitionUpdate_log (hnone : NoId v.partition) :
    Post drives.left putPartitionUpdate (fun b v' s' => b = true ∧ v' = v ∧ s' = s) v s := by
  unfold putPartitionUpdate
  exact Post.get_bind (Post.ite (fun _ => Post.pure ⟨rfl, rfl, rfl⟩) fun h => absurd hnone h)

/-- `disableDrive` on the log partition publishes nothing. -/
theorem post_disableDrive_log (hnone : NoId v.partition) (index fuel : Nat) :
    Post drives.left (disableDrive index fuel) (fun _ v' s' => NoId v'.partition ∧ s' = s) v s := by
  cases fuel with
  | zero => exact Post.stop
  | succ fuel =>
    unfold disableDrive
    refine Post.get_bind ?_
    split
    · exact Post.stop
    · refine Post.ite (fun _ => Post.pure ⟨hnone, rfl⟩) fun _ => ?_
      refine (post_addLog v.partition v.logPartition).then fun p v1 s1 h1 => Post.modify_bind ?_
      have hp : NoId (p.withStatus index .RED (p.clusterVersion + 1)) := by
        obtain ⟨-, -, rfl | ⟨l, rfl⟩⟩ := h1
        · exact hnone
        · exact hnone
      obtain ⟨-, rfl, -⟩ := h1
      refine (post_testPartition_log hp).then fun b v2 s2 h2 => ?_
      obtain ⟨rfl, rfl, rfl⟩ := h2
      refine Post.ite (fun _ => ?_) fun h => absurd rfl h
      refine (post_putPartitionUpdate_log hp).then fun b v3 s3 h3 => ?_
      obtain ⟨rfl, rfl, rfl⟩ := h3
      refine Post.ite (fun _ => ?_) fun h => absurd rfl h
      exact Post.modify_bind (Post.pure ⟨hp, rfl⟩)

theorem post_disableLog (hlog : NoId v.logPartition) (index fuel : Nat) :
    Post drives (disableLog index fuel) (fun _ v' s' => v'.partition = v.partition ∧
      NoId v'.logPartition ∧ s' = s) v s := by
  unfold disableLog
  refine Post.get_bind (Post.set_bind ?_)
  refine (Post.embed (post_disableDrive_log (v := { v with partition := v.logPartition }) hlog index fuel)).then
    fun _ v1 s1 h1 => Post.modify ⟨rfl, h1.1, h1.2⟩

theorem logPrefix_append_ne (p : Partition) (key : Str) : logPrefix p ++ key ≠ key := by
  intro h
  have := congrArg List.length h
  have hlit : (lit "log_").length = 4 := rfl
  rw [List.length_append, logPrefix, List.length_append, hlit] at this
  omega

/-- The log entry of a write: memory stays in step with the agreed state, and the key itself is
    not touched. -/
theorem post_logWrite (h : Held (Shaped ids) NoId v s) (p : Partition) (key : Str) (fuel : Nat) :
    Post drives (logWrite p key fuel) (fun _ v' s' => Held (Shaped ids) NoId v' s' ∧
      (Synced v s → Synced v' s') ∧ ∀ d, s'.find d key = s.find d key) v s := by
  have hid : ∀ p, Shaped ids p → p.partitionId ≠ none := fun p h => h.1
  unfold logWrite
  refine Post.ite (fun _ => ?_) fun _ => Post.pure ⟨h, fun hs => hs, fun _ => rfl⟩
  refine Post.get_bind ?_
  dsimp only
  split
  · exact Post.stop
  · rename_i d hd
    refine (post_connection v.logPartition d.id).then fun ccv v1 s1 h1 => ?_
    obtain ⟨hv1, rfl⟩ := h1
    refine ((post_write .log d.id ccv (logPrefix p ++ key) _).and (post_ask _)).then ?_
    intro (code : StatusCode) v2 s2 h2
    obtain ⟨⟨rfl, hfind⟩, -, hcluster, hagreed⟩ := h2
    have hheld2 : Held (Shaped ids) NoId v2 s2 := h.same hv1 hcluster hagreed
    have hkey : ∀ x, s2.find x key = s1.find x key :=
      fun x => hfind x key (Or.inr (logPrefix_append_ne p key).symm)
    refine Post.ite (fun _ => ?_) fun _ => Post.pure ⟨hheld2, fun hs => hs.same hv1 hagreed, hkey⟩
    refine (post_disableLog hheld2.log _ fuel).then fun _ v3 s3 h3 => Post.get_bind ?_
    obtain ⟨hv3, hlog3, rfl⟩ := h3
    have hheld3 : Held (Shaped ids) NoId { v3 with partition := { v3.partition with
        logId := none, clusterVersion := v3.partition.clusterVersion + 1 } } s3 :=
      ⟨hv3 ▸ hheld2.memory, hheld2.agreed, hheld2.stored, hlog3⟩
    refine Post.modify_bind (((Post.embed (held_putPartitionUpdate hid hheld3)).and
      (post_update_data _ _ _)).then fun _ v4 s4 h4 => Post.pure ?_)
    obtain ⟨⟨hheld4, -, -, hsync4⟩, hdata⟩ := h4
    refine ⟨hheld4, fun hs => hsync4 ?_, fun x => ?_⟩
    · show ∀ d ∈ nonRedIds s3.agreed, d ∈ nonRedIds v3.partition
      rw [hv3]
      exact hs.same hv1 hagreed
    · rw [← hkey x]
      exact congrArg (fun data => (data x).find key) hdata

section Put

variable {key expected : Str} {mode : WriteMode} {record : KineticRecord Str}

theorem apply_put (cur : Option (KineticRecord Str)) :
    (((WriteOp.put expected mode record).apply cur).1 = .OK →
      ((WriteOp.put expected mode record).apply cur).2 = some record) ∧
    (cur = some record → ((WriteOp.put expected mode record).apply cur).2 = some record) := by
  cases mode with
  | REQUIRE_SAME_VERSION =>
    simp only [WriteOp.apply, putSame]
    split
    · exact ⟨fun _ => rfl, fun _ => rfl⟩
    · exact ⟨fun h => (by cases h), fun h => h⟩
  | IGNORE_VERSION => exact ⟨fun _ => rfl, fun _ => rfl⟩

/-- A drive that answers OK has stored the record; no drive loses it. -/
theorem post_putRecord (issuer : Issuer) (d : DriveId) (ccv : Nat) :
    Post drives (ask (.write issuer d ccv key (.put expected mode record))) (fun code _ s' =>
      ((code : StatusCode) = .OK → s'.find d key = some record) ∧
      ∀ x, s.find x key = some record → s'.find x key = some record) v s := by
  have hkeep : ∀ x, s.find x key = some record →
      (s.carryOut d ccv key (.put expected mode record)).2.find x key = some record := by
    intro x hx
    unfold Drives.carryOut
    split
    · show (s.setRecord d key _).find x key = _
      rw [find_setRecord]
      split
      · rename_i hd
        obtain ⟨-, rfl⟩ := hd
        exact (apply_put _).2 hx
      · exact hx
    · exact hx
  refine Post.call fun choice x s' hserve => ?_
  have hserve : serveData s (.write issuer d ccv key (.put expected mode record)) choice = some (x, s') := hserve
  cases choice with
  | reach told =>
    have hcarry : s.carryOut d ccv key (.put expected mode record) = (x, s') := Option.some.inj hserve
    refine ⟨fun hok => ?_, by rw [hcarry] at hkeep; exact hkeep⟩
    unfold Drives.carryOut at hcarry
    split at hcarry
    · cases hcarry
      rw [find_setRecord, if_pos ⟨rfl, rfl⟩]
      exact (apply_put _).1 hok
    · cases hcarry
      cases hok
  | lost =>
    cases hserve
    exact ⟨fun hok => (by cases hok), hkeep⟩
  | unreachable =>
    cases hserve
    exact ⟨fun hok => (by cases hok), fun _ h => h⟩
  | index i => cases hserve

theorem post_writeAll (p : Partition) (logged : Bool) (ds : List KineticDrive) :
    Post drives (writeAll p logged key (.put expected mode record) ds) (fun results _ s' =>
      (∀ x, s.find x key = some record → s'.find x key = some record) ∧
      ∀ (i : Nat) d, ds[i]? = some d → results[i]? = some .OK → s'.find d.id key = some record) v s := by
  induction ds generalizing v s with
  | nil => exact Post.pure ⟨fun _ h => h, by simp⟩
  | cons d ds ih =>
    unfold writeAll
    refine Post.ite (fun _ => ih.then fun codes v1 s1 h1 => Post.pure ⟨h1.1, fun i x hx hok => ?_⟩) fun _ => ?_
    · cases i with
      | zero => cases hok
      | succ i => exact h1.2 i x (by simpa using hx) (by simpa using hok)
    · refine (post_connection p d.id).then fun ccv v1 s1 h1 => ?_
      obtain ⟨-, rfl⟩ := h1
      refine (post_putRecord _ d.id ccv).then fun (code : StatusCode) v2 s2 h2 => ?_
      refine ih.then fun codes v3 s3 h3 => Post.pure ⟨fun x hx => h3.1 x (h2.2 x hx), fun i x hx hok => ?_⟩
      cases i with
      | zero =>
        obtain rfl : d = x := by simpa using hx
        exact h3.1 _ (h2.1 (Option.some.inj hok))
      | succ i => exact h3.2 i x (by simpa using hx) (by simpa using hok)

/-- `writeOperation`: a `Put` that begins in step with the agreed state and returns OK is on every
    drive of the agreed write quorum. -/
theorem post_writeOperation (h : Held (Shaped ids) NoId v s) (hsync : Synced v s) (fuel : Nat) :
    Post drives (writeOperation key (.put expected mode record) fuel) (fun code _ s' =>
      code = .OK → ∀ d ∈ nonRedIds s'.agreed, s'.find d key = some record) v s := by
  have ha := admissible_shaped ids
  induction fuel generalizing v s with
  | zero => exact Post.stop
  | succ fuel ih =>
    unfold writeOperation
    refine Post.get_bind ?_
    dsimp only
    refine ((post_writeAll v.partition (logs v.partition) v.partition.drives).and
      (Idle.writeAll ha.within _ _ _ _ _ v s)).then fun results v1 s1 h1 => ?_
    obtain ⟨⟨-, hwritten⟩, hv1, hcluster1, hagreed1⟩ := h1
    have hheld1 := h.same hv1 hcluster1 hagreed1
    refine (post_logWrite hheld1 v.partition key fuel).then fun _ v2 s2 h2 => ?_
    obtain ⟨hheld2, hsync2, hfind2⟩ := h2
    refine Post.ite (fun _ => ?_) fun _ => ?_
    · refine (Post.embed (held_getPartitionUpdate hheld2 fuel)).then fun b v3 s3 h3 => ?_
      exact Post.ite (fun hb => ih h3.1 (h3.2.2.1 hb)) fun _ => Post.pure fun hok => absurd hok (by decide)
    · refine (post_evaluate ha results hheld2 fuel).mono fun code v3 s3 h3 hok d hd => ?_
      obtain ⟨hheld3, hdata3, -, hevaluated⟩ := h3
      obtain ⟨hsync3, hall⟩ := hevaluated hok (hsync2 (hsync.same hv1 hagreed1))
      -- the drive is in the quorum of the memory, so its result is OK
      obtain ⟨x, hx, rfl⟩ := List.mem_map.mp (hsync3 d hd)
      obtain ⟨hx, hred⟩ := List.mem_filter.mp hx
      obtain ⟨i, hi⟩ := List.getElem?_of_mem hx
      have hres := hall i x hi (by simpa using hred)
      have hsame : (v.partition.drives.map KineticDrive.id)[i]? = some x.id := by
        rw [h.memory.2, ← hheld3.memory.2, List.getElem?_map, hi]
        rfl
      rw [List.getElem?_map] at hsame
      obtain ⟨y, hy, hyx⟩ := Option.map_eq_some_iff.mp hsame
      have hrec := hwritten i y hy hres
      rw [hyx] at hrec
      calc s3.find x.id key = s2.find x.id key := congrArg (fun data => (data x.id).find key) hdata3
        _ = s1.find x.id key := hfind2 x.id
        _ = some record := hrec

end Put

section Synchronize

variable (assigned : Str → Bool)

theorem Idle.repairPages (p : Partition) (con : DriveId) (ccv : Nat) (deleteLog : Bool) (stop : Str)
    (fuel : Nat) (start : Str) (record : Option (KineticRecord Str)) :
    Idle drives (repairPages assigned p con ccv deleteLog stop fuel start record) := by
  have hsv := Service.Within.refl drives
  have hkey : ∀ key record, Idle drives (repairKey assigned key record) := by
    intro key record
    unfold repairKey
    exact Idle.ite (Idle.repair hsv key record) (Idle.ask hsv _)
  have hpage : ∀ keys record, Idle drives (repairPage assigned p con ccv deleteLog keys record) := by
    intro keys
    induction keys with
    | nil => exact fun _ => Idle.pure _
    | cons key keys ih =>
      intro record
      unfold repairPage
      refine Idle.bind (hkey _ _) fun answer => Idle.ite (Idle.pure _) ?_
      exact Idle.ite (Idle.bind (Idle.ask hsv _) fun _ => ih _) (ih _)
  induction fuel generalizing start record with
  | zero => exact Idle.crash
  | succ fuel ih =>
    unfold Replication.repairPages
    refine Idle.bind (Idle.ask hsv _) fun answer => Idle.ite (Idle.pure _) ?_
    refine Idle.bind (hpage _ _) fun page => Idle.ite (Idle.pure _) ?_
    exact Idle.ite (ih _ _) (Idle.pure _)

theorem preserves_finishSynchronize (index : Nat) :
    Preserves drives (Held (Shaped ids) NoId) (finishSynchronize index) := by
  have hshaped : ∀ (p : Partition) st, Shaped ids p →
      p.partitionId ≠ none ∧ (p.setStatus index st).drives.map KineticDrive.id = ids :=
    fun p st h => ⟨h.1, (map_id_setStatus _ _ _).trans h.2⟩
  intro v s h
  unfold finishSynchronize
  refine Post.get_bind (Post.modify_bind ?_)
  refine (Post.embed (held_putPartitionUpdate (fun p h => h.1) (h.setPartition ?_))).then fun b v1 s1 h1 => ?_
  · dsimp only
    split
    · exact hshaped _ _ h.memory
    · exact hshaped _ _ h.memory
  · refine Post.ite (fun _ => Post.pure h1.1) fun _ => Post.modify_bind (Post.pure (h1.1.setPartition ?_))
    exact hshaped _ _ h1.1.memory

theorem preserves_synchronizeDrive (index fuel : Nat) :
    Preserves drives (Held (Shaped ids) NoId) (synchronizeDrive assigned index fuel) := by
  have hsv := Service.Within.refl drives
  unfold synchronizeDrive
  refine Preserves.bind Preserves.get fun v => ?_
  dsimp only
  split
  · exact Preserves.stop
  · refine Preserves.ite (Preserves.pure _) (Preserves.bind ?_ fun a => ?_)
    · unfold scanned
      split
      · exact Preserves.bind Preserves.get fun _ => Preserves.pure _
      · exact Preserves.bind (preserves_pick hsv _) fun _ => Preserves.pure _
    · split
      · exact Preserves.stop
      · refine Preserves.bind (preserves_driveToConnection hsv _ _) fun con => ?_
        refine Preserves.ite (Preserves.pure _) (Preserves.bind (preserves_clientClusterVersion _) fun ccv => ?_)
        refine Preserves.bind (Idle.repairPages assigned _ _ _ _ _ _ _ _).held fun b => ?_
        exact Preserves.ite (preserves_finishSynchronize index) (Preserves.pure _)

/-- Every operation keeps the drives of the partition. -/
theorem preserves_operation (op : Operation) (fuel : Nat) :
    Preserves drives (Held (Shaped ids) NoId) (op.run assigned fuel) := by
  have ha := admissible_shaped ids
  have hwrite : ∀ key op, Preserves drives (Held (Shaped ids) NoId) (writeOperation key op fuel) :=
    fun key op => preserves_writeOperation ha
      (fun p key fuel v s h => (post_logWrite h p key fuel).mono fun _ _ _ h' => h'.1) key op fuel
  cases op with
  | put key expected mode record =>
    refine Preserves.bind (Preserves.bind (hwrite _ _) fun code => ?_) fun _ => Preserves.pure _
    exact Preserves.ite (preserves_resolve ha _ _ _) (Preserves.pure _)
  | delete key expected mode =>
    refine Preserves.bind (Preserves.bind (hwrite _ _) fun code => ?_) fun _ => Preserves.pure _
    exact Preserves.ite (preserves_resolve ha _ _ _) (Preserves.pure _)
  | get key => exact Preserves.bind (preserves_read ha key fuel) fun _ => Preserves.pure _
  | selfCheck => exact Preserves.bind (preserves_selfCheck ha fuel) fun _ => Preserves.pure _
  | synchronizeDrive index =>
    exact Preserves.bind (preserves_synchronizeDrive assigned index fuel) fun _ => Preserves.pure _

end Synchronize

/-- The start of a run: the configured partition is the agreed one, and whatever views the drives
    store have the same drives. -/
structure Configured (v : View) (s : Drives) : Prop where
  partitionId : v.partition.partitionId ≠ none
  log : v.logPartition.partitionId = none
  agreed : s.agreed = v.partition
  stored : ∀ p, Stored s p →
    p.partitionId ≠ none ∧ p.drives.map KineticDrive.id = v.partition.drives.map KineticDrive.id

/-- In every run, a `Put` that returns OK without read repair is on every drive of the write quorum
    agreed on last, provided that every drive of that quorum is in the quorum of the memory when
    the `Put` begins. -/
theorem put_accepted_by_agreed {assigned : Str → Bool} {v v' v₀ : View} {s s' s₀ : Drives}
    {key expected : Str} {mode : WriteMode} {record : KineticRecord Str} {fuel : Nat}
    (hstart : Configured v₀ s₀) (hrun : Run drives assigned (fun _ => True) (v₀, s₀) (v, s))
    (hsync : ∀ d ∈ nonRedIds s.agreed, d ∈ nonRedIds v.partition)
    (h : Returns drives ((writeOperation key (.put expected mode record) fuel).run v) s (.OK, v') s') :
    ∀ d ∈ nonRedIds s'.agreed, s'.find d key = some record := by
  have hheld : Held (Shaped (v₀.partition.drives.map KineticDrive.id)) NoId v₀ s₀ :=
    ⟨⟨hstart.partitionId, rfl⟩, by rw [hstart.agreed]; exact ⟨hstart.partitionId, rfl⟩, hstart.stored,
      hstart.log⟩
  have hreached : Held (Shaped (v₀.partition.drives.map KineticDrive.id)) NoId v s :=
    Run.preserves (fun op fuel _ => preserves_operation assigned op fuel) hrun hheld
  exact post_writeOperation hreached hsync fuel .OK v' s' h rfl

/-- Three GREEN drives, no log drive. -/
def threeGreen : Partition :=
  ⟨0, some 1, [⟨.GREEN, lit "a", 0⟩, ⟨.GREEN, lit "b", 0⟩, ⟨.GREEN, lit "c", 0⟩], none⟩

/-- The view of a client that knows this partition. -/
def threeGreenView : View := ⟨threeGreen, ⟨0, none, [], none⟩, fun _ => some 0⟩

/-- Drives without data that have agreed on this partition. -/
def noRecords : Drives where
  cluster := ⟨fun _ => ⟨0, fun _ => none⟩, [], []⟩
  data := fun _ => Records.empty
  agreed := threeGreen

theorem configured_threeGreen : Configured threeGreenView noRecords where
  partitionId := by decide
  log := rfl
  agreed := rfl
  stored := by
    intro p hp
    obtain ⟨d, n, r, hr, -⟩ := hp
    cases hr

/-- A `Put` of a new record. -/
def putNew (key : Str) : Client StatusCode := writeOperation key (.put [] .REQUIRE_SAME_VERSION ⟨lit "x", lit "1"⟩) 3

/-- The first `Put` does not reach drive `c`, which is then RED in the state that is published. The
    second `Put` is on all drives of the smaller quorum. -/
theorem put_accepted_by_agreed_disabled : ∃ v s v' s',
    Run drives (fun _ => true) (fun _ => True) (threeGreenView, noRecords) (v, s) ∧
    nonRedIds s.agreed = [(lit "a", 0), (lit "b", 0)] ∧
    Returns drives ((putNew (lit "/y")).run v) s (.OK, v') s' ∧
    ∀ d ∈ nonRedIds s'.agreed, s'.find d (lit "/y") = some ⟨lit "x", lit "1"⟩ := by
  have hrun : (((Operation.put (lit "/x") [] .REQUIRE_SAME_VERSION ⟨lit "x", lit "1"⟩).run (fun _ => true) 3).run
      threeGreenView).exec drives noRecords
        ([.reach false, .reach false, .unreachable] ++ List.replicate 8 (.reach false)) |>.any
          (fun r : (Unit × View) × Drives =>
      (∀ d ∈ nonRedIds r.2.agreed, d ∈ nonRedIds r.1.2.partition) ∧
        nonRedIds r.2.agreed = [(lit "a", 0), (lit "b", 0)] ∧
        (((putNew (lit "/y")).run r.1.2).exec drives r.2 [.reach false, .reach false]).any fun r' =>
          r'.1.1 = .OK) := by
    decide +kernel
  obtain ⟨⟨⟨u, v⟩, s⟩, hrun, h⟩ := (Option.any_eq_true _ _).mp hrun
  obtain ⟨hsync, hquorum, h⟩ := of_decide_eq_true h
  obtain ⟨⟨⟨code, v'⟩, s'⟩, hrun', h'⟩ := (Option.any_eq_true _ _).mp h
  obtain rfl : code = .OK := of_decide_eq_true h'
  have hdisabled : Run drives (fun _ => true) (fun _ => True) (threeGreenView, noRecords) (v, s) :=
    Relation.ReflTransGen.single ⟨_, _, trivial, returns_of_exec hrun⟩
  exact ⟨v, s, v', s', hdisabled, hquorum, returns_of_exec hrun',
    put_accepted_by_agreed configured_threeGreen hdisabled hsync (returns_of_exec hrun')⟩

/-- The first `Put` does not reach drive `c`; the connection test of `disableDrive` then fails at
    drive `b`, and `c` stays RED in memory. The second `Put` returns OK without `c`, which is still
    GREEN in the agreed state. -/
theorem put_without_agreed_drive : ∃ v s v' s',
    Run drives (fun _ => true) (fun _ => True) (threeGreenView, noRecords) (v, s) ∧
    Returns drives ((putNew (lit "/y")).run v) s (.OK, v') s' ∧
    (lit "c", 0) ∈ nonRedIds s'.agreed ∧ s'.find (lit "c", 0) (lit "/y") = none := by
  have hrun : (((Operation.put (lit "/x") [] .REQUIRE_SAME_VERSION ⟨lit "x", lit "1"⟩).run (fun _ => true) 3).run
      threeGreenView).exec drives noRecords
        [.reach false, .reach false, .unreachable, .reach false, .unreachable] |>.any (fun r =>
      (((putNew (lit "/y")).run r.1.2).exec drives r.2 [.reach false, .reach false]).any fun r' =>
        r'.1.1 = .OK ∧ (lit "c", 0) ∈ nonRedIds r'.2.agreed ∧ r'.2.find (lit "c", 0) (lit "/y") = none) := by
    decide
  obtain ⟨⟨⟨u, v⟩, s⟩, hrun, h⟩ := (Option.any_eq_true _ _).mp hrun
  obtain ⟨⟨⟨code, v'⟩, s'⟩, hrun', h'⟩ := (Option.any_eq_true _ _).mp h
  obtain ⟨rfl, hc, hnone⟩ := of_decide_eq_true h'
  refine ⟨v, s, v', s', Relation.ReflTransGen.single ⟨_, _, trivial, returns_of_exec hrun⟩,
    returns_of_exec hrun', hc, hnone⟩

end Acknowledged

end HFlat.Replication
