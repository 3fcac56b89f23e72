/-
  The write log of a partition with failed drives: a key that a RED drive has missed has an entry
  on the log drive.

  A write is logged if a drive is RED when it begins, so the write that finds out that a drive has
  failed has no entry. The runs considered here are those in which every write without an entry is
  carried out by every drive it is sent to, even if the answer gets lost (`covering`). Along them,
  a key without an entry has the same record on all drives (`Covered`).
-/
import HFlat.Replication.Agreement

namespace HFlat.Replication

open HFlat.Lib

/-! ## Runs in which no write is missed without an entry -/

/-- The drive carries the request out. -/
def Drives.carries (s : Drives) (d : DriveId) (ccv : Nat) : Choice → Bool
  | .reach _ => ccv = (s.cluster.drive d).clusterVersion
  | .lost => ccv = (s.cluster.drive d).clusterVersion
  | _ => false

/-- The log drive is always drive `l` of the log partition, writes to the log succeed, and every
    write that is not logged is carried out. -/
def covering (l : Nat) (s : Drives) : Req ⊕ DataReq → Choice → Bool
  | .inl (.pick candidates), .index i => candidates[i]? = some l
  | .inr (.write .log d ccv _ _), choice => choice ≠ .lost ∧ s.carries d ccv choice
  | .inr (.write (.client false) d ccv _ _), choice => s.carries d ccv choice
  | _, _ => true

/-- The drives while every write is covered. -/
def coveredDrives (l : Nat) : Service (Req ⊕ DataReq) (SumRes Res DataRes) Choice Drives :=
  drives.restrict (covering l)

section Log

variable {l : Nat} {log : Partition} {logDrive : KineticDrive} {ids : List DriveId} {pid : Option Int}
variable {v : View} {s : Drives}

/-- What is fixed along a run: the drives of the partition, all different, and the log drive, which
    is none of them. -/
structure LogSetup (l : Nat) (log : Partition) (logDrive : KineticDrive) (ids : List DriveId)
    (pid : Option Int) : Prop where
  partitionId : pid ≠ none
  nodup : ids.Nodup
  usable : usableLogs log ≠ []
  drive : log.drives[l]? = some logDrive
  separate : logDrive.id ∉ ids

/-- The partition has the log drive, or all its drives are GREEN. -/
def Logging (l : Nat) (ids : List DriveId) (pid : Option Int) (p : Partition) : Prop :=
  p.partitionId = pid ∧ p.drives.map KineticDrive.id = ids ∧
    (p.logId = some l ∨ p.logId = none ∧ ∀ d ∈ p.drives, d.status = .GREEN)

theorem Logging.logId {p : Partition} {d : KineticDrive} (h : Logging l ids pid p) (hd : d ∈ p.drives)
    (hgreen : d.status ≠ .GREEN) : p.logId = some l := by
  obtain ⟨-, -, h | h⟩ := h
  · exact h
  · exact absurd (h.2 d hd) hgreen

theorem coveredDrives_within (l : Nat) : (coveredDrives l).Within drives := restrict_within _

/-- A partition that gets a RED drive gets the log drive. -/
theorem post_addLog_covered {p : Partition} (hp : Logging l ids pid p) (husable : usableLogs log ≠ []) :
    Post (coveredDrives l).left (addLog p log) (fun p' v' s' => v' = v ∧ s' = s ∧
      p' = { p with logId := some l }) v s := by
  unfold addLog
  obtain ⟨-, -, hl | ⟨hnone, hgreen⟩⟩ := hp
  · rw [if_neg fun h => absurd (hl.symm.trans h.1) (Option.some_ne_none l)]
    refine Post.pure ⟨rfl, rfl, ?_⟩
    rw [← hl]
  · rw [if_pos ⟨hnone, by simpa using hgreen, husable⟩]
    refine ((Post.call fun choice x s' hserve => ?_) :
      Post _ _ (fun (x : Nat) v' s' => v' = v ∧ s' = s ∧ x = l) v s).then fun x v1 s1 h1 => ?_
    · obtain ⟨hok, hserve⟩ := serve_restrict hserve
      simp only [drives, serveAll] at hserve
      split at hserve
      · rename_i y cluster hy
        cases hserve
        cases choice with
        | index i =>
          have hok : (usableLogs log)[i]? = some l := by simpa [covering] using hok
          obtain ⟨z, hz, he⟩ := Option.map_eq_some_iff.mp hy
          cases he
          rw [hok] at hz
          cases hz
          exact ⟨rfl, rfl, rfl⟩
        | reach told | unreachable | lost => cases hy
      · cases hserve
    · obtain ⟨hv, hs, hx⟩ := h1
      refine Post.pure ⟨hv, hs, ?_⟩
      rw [hx]

theorem admissible_logging (hsetup : LogSetup l log logDrive ids pid) :
    Admissible (coveredDrives l) (Logging l ids pid) (fun p => p = log) where
  within := coveredDrives_within l
  partitionId := fun p h => h.1 ▸ hsetup.partitionId
  disable := by
    intro v s index h
    rw [h.log]
    refine (post_addLog_covered h.memory hsetup.usable).mono fun p v' s' h' => ⟨h'.1, h'.2.1, ?_⟩
    rw [h'.2.2]
    exact ⟨h.memory.1, (map_id_setStatus _ _ _).trans h.memory.2.1, Or.inl rfl⟩
  enable := by
    intro p index st n h hex
    obtain ⟨d, hd, hgreen⟩ := hex
    exact ⟨h.1, (map_id_setStatus _ _ _).trans h.2.1, Or.inl (h.logId hd hgreen)⟩

/-! ## Entries of the log -/

/-- The prefix of the log entries of a partition with this id. -/
def entryPrefix (pid : Option Int) : Str := intToStr (pid.getD 0) ++ lit "log_"

/-- Every key has an entry in the log, or the same record on all drives. -/
def Covered (logDrive : DriveId) (pre : Str) (ids : List DriveId) (s : Drives) : Prop :=
  ∀ k, s.find logDrive (pre ++ k) ≠ none ∨ ∀ d ∈ ids, ∀ d' ∈ ids, s.find d k = s.find d' k

theorem Covered.of_find {L : DriveId} {pre : Str} {s s' : Drives} (h : Covered L pre ids s)
    (hfind : ∀ d k, s'.find d k = s.find d k) : Covered L pre ids s' := by
  intro k
  rw [hfind]
  refine (h k).imp_right fun heq d hd d' hd' => ?_
  rw [hfind, hfind]
  exact heq d hd d' hd'

theorem find_of_data {s s' : Drives} (h : s'.data = s.data) (d : DriveId) (k : Str) :
    s'.find d k = s.find d k := congrArg (fun data => (data d).find k) h

/-- The record that `readRepair` is called with: none, or that of a key with an entry, or the record
    that all drives hold. -/
def Carried (logDrive : DriveId) (pre : Str) (ids : List DriveId) (key : Str)
    (record : Option (KineticRecord Str)) (s : Drives) : Prop :=
  record = none ∨ s.find logDrive (pre ++ key) ≠ none ∨ ∀ d ∈ ids, s.find d key = record

theorem Carried.of_find {L : DriveId} {pre key : Str} {record : Option (KineticRecord Str)} {s s' : Drives}
    (h : Carried L pre ids key record s) (hfind : ∀ d k, s'.find d k = s.find d k) :
    Carried L pre ids key record s' := by
  unfold Carried
  simp only [hfind]
  exact h

/-- What is enforced is then what the drives without an entry hold. -/
theorem Carried.or_eq {L f d : DriveId} {pre key : Str} {record : Option (KineticRecord Str)} {s : Drives}
    (h : Carried L pre ids key record s) (hno : s.find L (pre ++ key) = none)
    (heq : ∀ d ∈ ids, ∀ d' ∈ ids, s.find d key = s.find d' key) (hf : f ∈ ids) (hd : d ∈ ids) :
    (s.find f key).or record = s.find d key := by
  rcases h with rfl | h | h
  · rw [Option.or_none, heq f hf d hd]
  · exact absurd hno h
  · rw [h f hf, h d hd, Option.or_self]

/-- Read repair of a key without an entry changes nothing. -/
theorem Covered.enforced {L f : DriveId} {pre key : Str} {ids' : List DriveId} {s s' : Drives}
    {record : Option (KineticRecord Str)} (h : Covered L pre ids s) (hL : L ∉ ids) (hf : f ∈ ids)
    (hids : ∀ d ∈ ids', d ∈ ids) (hrecord : Carried L pre ids key record s)
    (he : Enforced ids' key ((s.find f key).or record) s s') : Covered L pre ids s' := by
  intro k
  have hlog : s'.find L (pre ++ k) = s.find L (pre ++ k) := by
    rw [he.find, if_neg fun hc => hL (hids L hc.2)]
  rw [hlog]
  by_cases hno : s.find L (pre ++ k) = none
  swap
  · exact Or.inl hno
  refine (h k).imp_right fun heq => ?_
  have hsame : ∀ d ∈ ids, s'.find d k = s.find d k := by
    intro d hd
    rw [he.find]
    split
    · rename_i hc
      obtain ⟨rfl, -⟩ := hc
      rw [hrecord.or_eq hno heq hf hd, enforced_self]
    · rfl
  intro d hd d' hd'
  rw [hsame d hd, hsame d' hd']
  exact heq d hd d' hd'

/-- What holds along the run. -/
structure Kept (l : Nat) (log : Partition) (logDrive : KineticDrive) (ids : List DriveId)
    (pid : Option Int) (v : View) (s : Drives) : Prop where
  held : Held (Logging l ids pid) (fun p => p = log) v s
  covered : Covered logDrive.id (entryPrefix pid) ids s

theorem preserves_update {m : Action α}
    (hm : Preserves (coveredDrives l) (Held (Logging l ids pid) fun p => p = log) (update m)) :
    Preserves (coveredDrives l) (Kept l log logDrive ids pid) (update m) := by
  intro v s h
  refine ((hm v s h.held).and ((post_update_data m v s).within (coveredDrives_within l))).mono
    fun _ _ _ h' => ⟨h'.1, h.covered.of_find (find_of_data h'.2)⟩

theorem mem_of_nonRed {p : Partition} {d : DriveId} (hp : p.drives.map KineticDrive.id = ids)
    (hd : d ∈ nonRedIds p) : d ∈ ids := by
  obtain ⟨x, hx, rfl⟩ := List.mem_map.mp hd
  rw [← hp]
  exact List.mem_map_of_mem (List.mem_filter.mp hx).1

theorem post_repair_kept (hsetup : LogSetup l log logDrive ids pid) {key : Str}
    {record : Option (KineticRecord Str)} (h : Kept l log logDrive ids pid v s)
    (hrecord : Carried logDrive.id (entryPrefix pid) ids key record s) :
    Post (coveredDrives l) (repair key record) (fun answer v' s' => Kept l log logDrive ids pid v' s' ∧
      Carried logDrive.id (entryPrefix pid) ids key answer.2 s') v s := by
  have hsv := coveredDrives_within l
  refine (((Idle.repair hsv key record).held v s h.held).and ((post_repair key v s).within hsv)).mono
    fun answer v' s' h' => ?_
  obtain ⟨hheld, -, f, href, ids', he, hids', hanswer, -⟩ := h'
  have hmem := fun d hd => mem_of_nonRed (d := d) h.held.memory.2.1 hd
  have hf := hmem _ (reference_mem href)
  have hlog : s'.find logDrive.id (entryPrefix pid ++ key) = s.find logDrive.id (entryPrefix pid ++ key) := by
    rw [he.find, if_neg fun hc => hsetup.separate (hmem _ (hids' _ hc.2))]
  refine ⟨⟨hheld, h.covered.enforced hsetup.separate hf (fun d hd => hmem d (hids' d hd)) hrecord he⟩, ?_⟩
  by_cases hno : s.find logDrive.id (entryPrefix pid ++ key) = none
  swap
  · exact Or.inr (Or.inl (hlog ▸ hno))
  have heq := (h.covered key).resolve_left fun hne => hne hno
  -- without an entry the repair has changed nothing
  have hsame : ∀ d ∈ ids, s'.find d key = s.find d key := by
    intro d hd
    rw [he.find, hrecord.or_eq hno heq hf hd, enforced_self, ite_self]
  rcases hanswer with hanswer | hanswer
  · rw [hanswer]
    refine hrecord.imp_right fun hr => Or.inr fun d hd => ?_
    rw [hsame d hd]
    exact (hr.resolve_left fun hne => hne hno) d hd
  · rw [hanswer]
    refine Or.inr (Or.inr fun d hd => ?_)
    rw [hsame d hd, hrecord.or_eq hno heq hf hd]

theorem preserves_resolve_covered (hsetup : LogSetup l log logDrive ids pid) (key : Str)
    (ok : Option (KineticRecord Str) → Bool) (fuel : Nat) :
    Preserves (coveredDrives l) (Kept l log logDrive ids pid) (resolve key ok fuel) := by
  have hend : ∀ result : StatusCode × Option (KineticRecord Str),
      Preserves (coveredDrives l) (Kept l log logDrive ids pid)
      (if result.1 = .OK then pure (if ok result.2 then .OK else .REMOTE_VERSION_MISMATCH)
        else pure result.1 : Client StatusCode) :=
    fun result => Preserves.ite (Preserves.pure _) (Preserves.pure _)
  have hupdate := @preserves_update l log logDrive ids pid _ _
    (preserves_getPartitionUpdate (admissible_logging hsetup) fuel)
  intro v s h
  unfold resolve
  refine (post_repair_kept hsetup h (Or.inl rfl)).then fun result v1 s1 h1 => ?_
  obtain ⟨h1, hrecord⟩ := h1
  refine Post.ite (fun _ => ?_) fun _ => hend result v1 s1 h1
  refine ((hupdate v1 s1 h1).and ((post_update_data _ v1 s1).within (coveredDrives_within l))).then
    fun b v2 s2 h2 => ?_
  refine Post.ite (fun _ => ?_) fun _ => hend result v2 s2 h2.1
  refine (post_repair_kept hsetup h2.1 (hrecord.of_find (find_of_data h2.2))).then fun result v3 s3 h3 => ?_
  exact hend result v3 s3 h3.1

/-! ## Writes -/

section Write

variable {key : Str} {op : WriteOp}

theorem post_writeAll_frame (p : Partition) (logged : Bool) (ds : List KineticDrive) :
    Post drives (writeAll p logged key op ds) (fun _ _ s' => ∀ d k, k ≠ key ∨ d ∉ ds.map KineticDrive.id →
      s'.find d k = s.find d k) v s := by
  induction ds generalizing v s with
  | nil => exact Post.pure fun _ _ _ => rfl
  | cons d ds ih =>
    have hrest : ∀ x k, k ≠ key ∨ x ∉ (d :: ds).map KineticDrive.id →
        (k ≠ key ∨ x ∉ ds.map KineticDrive.id) ∧ (x ≠ d.id ∨ k ≠ key) := by
      intro x k h
      rcases h with h | h
      · exact ⟨Or.inl h, Or.inr h⟩
      · rw [List.map_cons, List.mem_cons, not_or] at h
        exact ⟨Or.inr h.2, Or.inl h.1⟩
    unfold writeAll
    refine Post.ite (fun _ => ih.then fun codes v1 s1 h1 => Post.pure fun x k hx => h1 x k (hrest x k hx).1)
      fun _ => ?_
    refine (post_connection p d.id).then fun ccv v1 s1 h1 => ?_
    obtain ⟨-, rfl⟩ := h1
    refine (post_write _ d.id ccv key op).then fun code v2 s2 h2 => ?_
    refine ih.then fun codes v3 s3 h3 => Post.pure fun x k hx => ?_
    rw [h3 x k (hrest x k hx).1, h2.2 x k (hrest x k hx).2]

/-- A write without an entry, on one drive. -/
theorem post_write_carried (d : DriveId) (ccv : Nat) :
    Post (coveredDrives l) (ask (.write (.client false) d ccv key op)) (fun _ _ s' => ∀ x k, s'.find x k =
      if k = key ∧ x = d then (op.apply (s.find x k)).2 else s.find x k) v s := by
  have hcarry : ccv = (s.cluster.drive d).clusterVersion → ∀ x k,
      (s.carryOut d ccv key op).2.find x k =
        if k = key ∧ x = d then (op.apply (s.find x k)).2 else s.find x k := by
    intro hccv x k
    unfold Drives.carryOut
    rw [if_pos hccv]
    show (s.setRecord d key _).find x k = _
    rw [find_setRecord]
    split
    · rename_i hc
      rw [hc.1, hc.2]
    · rfl
  refine Post.call fun choice x s' hserve => ?_
  obtain ⟨hok, hserve⟩ := serve_restrict hserve
  have hserve : serveData s (.write (.client false) d ccv key op) choice = some (x, s') := hserve
  have hok : s.carries d ccv choice = true := hok
  cases choice with
  | reach told =>
    obtain rfl : (s.carryOut d ccv key op).2 = s' := congrArg Prod.snd (Option.some.inj hserve)
    exact hcarry (of_decide_eq_true hok)
  | lost =>
    cases hserve
    exact hcarry (of_decide_eq_true hok)
  | unreachable | index i => cases hok

/-- A write without an entry reaches all drives. -/
theorem post_writeAll_carried (p : Partition) (ds : List KineticDrive) (hred : ∀ d ∈ ds, d.status ≠ .RED)
    (hnodup : (ds.map KineticDrive.id).Nodup) :
    Post (coveredDrives l) (writeAll p false key op ds) (fun _ _ s' => ∀ x k, s'.find x k =
      if k = key ∧ x ∈ ds.map KineticDrive.id then (op.apply (s.find x k)).2 else s.find x k) v s := by
  induction ds generalizing v s with
  | nil => exact Post.pure fun _ _ => by simp
  | cons d ds ih =>
    rw [List.map_cons, List.nodup_cons] at hnodup
    unfold writeAll
    refine Post.ite (fun h => absurd h (hred d List.mem_cons_self)) fun _ => ?_
    refine ((post_connection p d.id).within (coveredDrives_within l)).then fun ccv v1 s1 h1 => ?_
    obtain ⟨-, rfl⟩ := h1
    refine (post_write_carried d.id ccv).then fun code v2 s2 h2 => ?_
    refine (ih (fun x hx => hred x (List.mem_cons_of_mem _ hx)) hnodup.2).then fun codes v3 s3 h3 => Post.pure ?_
    intro x k
    rw [h3, h2]
    by_cases hk : k = key
    · by_cases hx : x = d.id
      · subst hx
        simp [hk, hnodup.1]
      · simp [hk, hx]
    · simp [hk]

theorem post_write_log (d : DriveId) (ccv : Nat) :
    Post (coveredDrives l) (ask (.write .log d ccv key (.put [] .IGNORE_VERSION ⟨[], []⟩)))
      (fun code _ s' => (code : StatusCode) = .OK ∧ s'.find d key ≠ none) v s := by
  refine Post.call fun choice x s' hserve => ?_
  obtain ⟨hok, hserve⟩ := serve_restrict hserve
  have hserve : serveData s (.write .log d ccv key (.put [] .IGNORE_VERSION ⟨[], []⟩)) choice =
    some (x, s') := hserve
  have hok : choice ≠ .lost ∧ s.carries d ccv choice = true := of_decide_eq_true hok
  cases choice with
  | reach told =>
    have hccv : ccv = (s.cluster.drive d).clusterVersion := of_decide_eq_true hok.2
    simp only [serveData, Drives.carryOut, if_pos hccv, WriteOp.apply] at hserve
    cases hserve
    refine ⟨rfl, ?_⟩
    rw [find_setRecord, if_pos ⟨rfl, rfl⟩]
    exact Option.some_ne_none _
  | lost => exact absurd rfl hok.1
  | unreachable | index i => cases hok.2

/-- The entry of a write succeeds. -/
theorem post_logWrite_covered (hsetup : LogSetup l log logDrive ids pid)
    (h : Held (Logging l ids pid) (fun p => p = log) v s) {p : Partition} (hp : Logging l ids pid p)
    (fuel : Nat) :
    Post (coveredDrives l) (logWrite p key fuel) (fun _ v' s' => SameViews v v' ∧
      s'.cluster = s.cluster ∧ s'.agreed = s.agreed ∧
      (logs p = true → s'.find logDrive.id (entryPrefix pid ++ key) ≠ none) ∧
      ∀ d k, d ≠ logDrive.id ∨ k ≠ entryPrefix pid ++ key → s'.find d k = s.find d k) v s := by
  have hsv := coveredDrives_within l
  have hpre : logPrefix p = entryPrefix pid := by
    unfold logPrefix entryPrefix
    rw [hp.1]
  unfold logWrite
  refine Post.ite (fun hlogs => ?_) fun hlogs => Post.pure ⟨⟨rfl, rfl⟩, rfl, rfl, fun h => absurd h hlogs,
    fun _ _ _ => rfl⟩
  have hl : p.logId = some l := by
    obtain ⟨-, hred⟩ : p.logId ≠ none ∧ p.drives.any (·.status = .RED) = true := of_decide_eq_true hlogs
    obtain ⟨d, hd, hred⟩ := List.any_eq_true.mp hred
    have hred : d.status = .RED := of_decide_eq_true hred
    exact hp.logId hd (by simp [hred])
  refine Post.get_bind ?_
  dsimp only
  rw [h.log, hl, hpre, Option.bind_some, hsetup.drive]
  refine ((post_connection log logDrive.id).within hsv).then fun ccv v1 s1 h1 => ?_
  obtain ⟨hv1, rfl⟩ := h1
  refine (((post_write .log logDrive.id ccv (entryPrefix pid ++ key) _).within hsv).and
    (((post_ask _).within hsv).and (post_write_log logDrive.id ccv))).then fun (code : StatusCode) v2 s2 h2 => ?_
  obtain ⟨⟨rfl, hframe⟩, ⟨-, hcluster, hagreed⟩, rfl, hentry⟩ := h2
  refine Post.ite (fun hc => absurd rfl hc) fun _ => Post.pure ?_
  exact ⟨hv1, hcluster, hagreed, fun _ => hentry, hframe⟩

/-- The write and its entry. -/
theorem covered_write (hsetup : LogSetup l log logDrive ids pid) (h : Kept l log logDrive ids pid v s)
    (fuel : Nat) {β : Type} {f : List StatusCode → Client β} {Q : β → View → Drives → Prop}
    (hf : ∀ results v' s', Kept l log logDrive ids pid v' s' → Post (coveredDrives l) (f results) Q v' s') :
    Post (coveredDrives l) (do
      let results ← writeAll v.partition (logs v.partition) key op v.partition.drives
      logWrite v.partition key fuel
      f results) Q v s := by
  have hsv := coveredDrives_within l
  have hids := h.held.memory.2.1
  cases hlogs : logs v.partition with
  | true =>
    refine ((((post_writeAll_frame v.partition true v.partition.drives).within hsv)).and
      (Idle.writeAll hsv _ _ _ _ _ v s)).then fun results v1 s1 h1 => ?_
    obtain ⟨hframe, hv1, hcluster1, hagreed1⟩ := h1
    have hheld1 := h.held.same hv1 hcluster1 hagreed1
    refine (post_logWrite_covered hsetup hheld1 h.held.memory fuel).then fun _ v2 s2 h2 => hf results v2 s2 ?_
    obtain ⟨hv2, hcluster2, hagreed2, hentry, hframe2⟩ := h2
    refine ⟨hheld1.same hv2 hcluster2 hagreed2, fun k => ?_⟩
    by_cases hk : k = key
    · rw [hk]
      exact Or.inl (hentry hlogs)
    · -- another key: neither its records nor its entry have changed
      have hlog : s2.find logDrive.id (entryPrefix pid ++ k) = s.find logDrive.id (entryPrefix pid ++ k) := by
        rw [hframe2 _ _ (Or.inr fun he => hk (List.append_cancel_left he)),
          hframe _ _ (Or.inr (by rw [hids]; exact hsetup.separate))]
      have hsame : ∀ d ∈ ids, s2.find d k = s.find d k := by
        intro d hd
        rw [hframe2 d k (Or.inl fun he => hsetup.separate (he ▸ hd)), hframe d k (Or.inl hk)]
      rw [hlog]
      refine (h.covered k).imp_right fun heq d hd d' hd' => ?_
      rw [hsame d hd, hsame d' hd']
      exact heq d hd d' hd'
  | false =>
    have hred : ∀ d ∈ v.partition.drives, d.status ≠ .RED := by
      intro d hd hred
      have hlogs : ¬ (v.partition.logId ≠ none ∧ v.partition.drives.any (·.status = .RED) = true) :=
        of_decide_eq_false hlogs
      refine hlogs ⟨?_, List.any_eq_true.mpr ⟨d, hd, by simp [hred]⟩⟩
      rw [h.held.memory.logId hd (by simp [hred])]
      exact Option.some_ne_none l
    refine ((post_writeAll_carried v.partition v.partition.drives hred (by rw [hids]; exact hsetup.nodup)).and
      (Idle.writeAll hsv _ _ _ _ _ v s)).then fun results v1 s1 h1 => ?_
    obtain ⟨hfind, hv1, hcluster1, hagreed1⟩ := h1
    have hheld1 := h.held.same hv1 hcluster1 hagreed1
    have hno : logWrite v.partition key fuel = (pure () : Client Unit) := by
      unfold logWrite
      rw [if_neg (by simp [hlogs])]
    rw [hno]
    refine Post.bind (Post.pure (hf results v1 s1 ⟨hheld1, fun k => ?_⟩))
    rw [hids] at hfind
    rw [hfind, if_neg fun hc => hsetup.separate hc.2]
    refine (h.covered k).imp_right fun heq d hd d' hd' => ?_
    rw [hfind d k, hfind d' k, heq d hd d' hd']
    simp [hd, hd']

theorem preserves_writeOperation_covered (hsetup : LogSetup l log logDrive ids pid) (fuel : Nat) :
    Preserves (coveredDrives l) (Kept l log logDrive ids pid) (writeOperation key op fuel) := by
  have ha := admissible_logging hsetup
  induction fuel with
  | zero => exact Preserves.stop
  | succ fuel ih =>
    intro v s h
    unfold writeOperation
    refine Post.get_bind (covered_write hsetup h fuel fun results v1 s1 h1 => ?_)
    refine Post.ite (fun _ => ?_) fun _ => ?_
    · refine (preserves_update (preserves_getPartitionUpdate ha fuel) v1 s1 h1).then fun b v2 s2 h2 => ?_
      exact Post.ite (fun _ => ih v2 s2 h2) fun _ => Post.pure h2
    · refine (post_evaluate ha results h1.held fuel).mono fun _ v2 s2 h2 => ?_
      exact ⟨h2.1, h1.covered.of_find (find_of_data h2.2.1)⟩

end Write

/-! ## Runs -/

/-- Puts, Deletes and self checks. -/
def Writes : Operation → Prop
  | .put _ _ _ _ => True
  | .delete _ _ _ => True
  | .selfCheck => True
  | _ => False

theorem post_selfCheck_data (fuel : Nat) (v : View) (s : Drives) :
    Post drives (selfCheck fuel) (fun _ _ s' => s'.data = s.data) v s := by
  have hupdate : ∀ (β : Type) (m : Action β), Preserves drives (fun _ s' => s'.data = s.data) (update m) :=
    fun β m v1 s1 h1 => (post_update_data m v1 s1).mono fun _ _ _ h2 => h2.trans h1
  have henable : ∀ n i, Preserves drives (fun _ s' => s'.data = s.data) (enableRed fuel n i) := by
    intro n
    induction n with
    | zero => exact fun _ => Preserves.stop
    | succ n ih =>
      intro i
      unfold enableRed
      refine Preserves.bind Preserves.get fun v => ?_
      split
      · exact Preserves.pure _
      · exact Preserves.ite (Preserves.bind (hupdate _ _) fun _ => ih _) (ih _)
  have hcheck : Preserves drives (fun (_ : View) s' => s'.data = s.data) (selfCheck fuel) := by
    unfold selfCheck
    refine Preserves.bind (henable fuel 0) fun _ => Preserves.bind (hupdate _ _) fun b => ?_
    refine Preserves.ite (Preserves.pure _) (Preserves.bind (hupdate _ _) fun b => ?_)
    refine Preserves.ite (Preserves.bind (hupdate _ _) fun b => ?_) (Preserves.pure _)
    exact Preserves.ite (Preserves.pure _) (Preserves.pure _)
  exact hcheck v s rfl

theorem preserves_writes (hsetup : LogSetup l log logDrive ids pid) (assigned : Str → Bool) (op : Operation)
    (hop : Writes op) (fuel : Nat) :
    Preserves (coveredDrives l) (Kept l log logDrive ids pid) (op.run assigned fuel) := by
  have ha := admissible_logging hsetup
  cases op with
  | put key expected mode record =>
    refine Preserves.bind (Preserves.bind (preserves_writeOperation_covered hsetup fuel) fun code => ?_)
      fun _ => Preserves.pure _
    exact Preserves.ite (preserves_resolve_covered hsetup _ _ _) (Preserves.pure _)
  | delete key expected mode =>
    refine Preserves.bind (Preserves.bind (preserves_writeOperation_covered hsetup fuel) fun code => ?_)
      fun _ => Preserves.pure _
    exact Preserves.ite (preserves_resolve_covered hsetup _ _ _) (Preserves.pure _)
  | selfCheck =>
    refine Preserves.bind (fun v s h => ?_) fun _ => Preserves.pure _
    refine ((preserves_selfCheck ha fuel v s h.held).and
      ((post_selfCheck_data fuel v s).within ha.within)).mono fun _ _ _ h' => ?_
    exact ⟨h'.1, h.covered.of_find (find_of_data h'.2)⟩
  | get key => cases hop
  | synchronizeDrive index => cases hop

/-- The start of a run: all drives are GREEN and hold the same records; views that are stored
    already are all GREEN or have the log drive. -/
structure GreenStart (l : Nat) (log : Partition) (ids : List DriveId) (pid : Option Int) (v : View)
    (s : Drives) : Prop where
  partitionId : v.partition.partitionId = pid
  drives : v.partition.drives.map KineticDrive.id = ids
  green : ∀ d ∈ v.partition.drives, d.status = .GREEN
  logId : v.partition.logId = none
  logPartition : v.logPartition = log
  agreed : s.agreed = v.partition
  stored : ∀ p, Stored s p → Logging l ids pid p
  same : ∀ d ∈ ids, ∀ d' ∈ ids, ∀ k, s.find d k = s.find d' k

theorem GreenStart.kept (h : GreenStart l log ids pid v s) : Kept l log logDrive ids pid v s := by
  have hmem : Logging l ids pid v.partition := ⟨h.partitionId, h.drives, Or.inr ⟨h.logId, h.green⟩⟩
  exact ⟨⟨hmem, h.agreed ▸ hmem, h.stored, h.logPartition⟩, fun k => Or.inr fun d hd d' hd' =>
    h.same d hd d' hd' k⟩

theorem append_le_append (pre : Str) {a b : Str} (h : a ≤ b) : pre ++ a ≤ pre ++ b := by
  rcases lt_or_eq_of_le h with h | rfl
  · exact (List.append_left_lt h).le
  · exact le_rfl

/-- A key within the bounds whose entry is in the log is repaired. -/
theorem mem_scanKeys_log {p : Partition} {con : DriveId} {k : Str} (hlog : p.logId ≠ none)
    (hentry : s.find con (logPrefix p ++ k) ≠ none) (hlow : lit " " ≤ k) (hhigh : k ≤ lit "|") :
    k ∈ scanKeys p con s := by
  have hpre : scanPrefix p = logPrefix p := if_neg hlog
  refine List.mem_map.mpr ⟨logPrefix p ++ k, List.mem_filter.mpr ⟨((s.data con).mem_keys _).mpr hentry, ?_⟩, ?_⟩
  · rw [decide_eq_true_eq, InBounds, hpre]
    exact ⟨append_le_append _ hlow, append_le_append _ hhigh⟩
  · rw [strip, if_neg hlog]
    exact List.drop_left

/-- A rebuild from the log makes all drives of the quorum equal if the keys in which they differ
    lie within the scan, and no drive holds another record with the version of the one that is
    enforced. -/
theorem rebuild_covered (hsetup : LogSetup l log logDrive ids pid) (h : Kept l log logDrive ids pid v s)
    {assigned : Str → Bool} {index fuel : Nat} {f : KineticDrive} {v' : View} {s' : Drives}
    (hlog : v.partition.logId = some l) (href : reference v.partition = some f)
    (hreturn : Returns drives ((synchronizeDrive assigned index fuel).run v) s (true, v') s')
    (hbounds : ∀ d ∈ nonRedIds v.partition, ∀ k, assigned k → s.find d k ≠ s.find f.id k →
      lit " " ≤ k ∧ k ≤ lit "|")
    (hversion : ∀ d ∈ nonRedIds v.partition, ∀ k ∈ scanKeys v.partition logDrive.id s, assigned k →
      s.find d k ≠ rebuildRecord assigned v.partition f.id logDrive.id s k →
      ¬ SameVersion (s.find d k) (rebuildRecord assigned v.partition f.id logDrive.id s k)) :
    (∃ y, v.partition.drives[index]? = some y ∧ y.status = .YELLOW) ∧
      ∀ d ∈ nonRedIds v.partition, ∀ k, assigned k → s'.find d k = s'.find f.id k := by
  have hids := fun d hd => mem_of_nonRed (d := d) h.held.memory.2.1 hd
  have hsource : ∀ con, Source v con → con = logDrive.id := by
    intro con hcon
    unfold Source at hcon
    rw [hlog] at hcon
    obtain ⟨d, hd, rfl⟩ := hcon
    rw [h.held.log, hsetup.drive] at hd
    cases hd
    rfl
  obtain ⟨y, hy, hyellow, con, hcon, hfind⟩ := post_synchronizeDrive href
    (fun con hcon => Or.inr fun hc => hsetup.separate (hids _ (hsource con hcon ▸ hc))) index fuel s _ _ _ hreturn rfl
  obtain rfl := hsource con hcon
  have hne : v.partition.logId ≠ none := by
    rw [hlog]
    exact Option.some_ne_none l
  refine ⟨⟨y, hy, hyellow⟩, fun d hd k hk => ?_⟩
  have hf := reference_mem href
  rw [hfind d (Or.inr fun he => hsetup.separate (he ▸ hids d hd)) k,
    hfind f.id (Or.inr fun he => hsetup.separate (he ▸ hids f.id hf)) k]
  by_cases hscan : k ∈ scanKeys v.partition logDrive.id s
  · rw [if_pos ⟨⟨hscan, hk⟩, hd⟩, if_pos ⟨⟨hscan, hk⟩, hf⟩, enforced_reference hk hscan]
    by_cases heq : s.find d k = rebuildRecord assigned v.partition f.id logDrive.id s k
    · rw [heq, enforced_self]
    · exact (enforced_eq_iff heq).mpr (hversion d hd k hscan hk heq)
  · rw [if_neg fun h => hscan h.1.1, if_neg fun h => hscan h.1.1]
    by_contra hdiff
    -- the drives differ, so the key has an entry, and the scan finds it
    obtain ⟨hlow, hhigh⟩ := hbounds d hd k hk hdiff
    have hpre : logPrefix v.partition = entryPrefix pid := by
      unfold logPrefix entryPrefix
      rw [h.held.memory.1]
    refine hscan (mem_scanKeys_log hne ?_ hlow hhigh)
    rw [hpre]
    exact (h.covered k).resolve_right fun hsame => hdiff (hsame d (hids d hd) f.id (hids f.id hf))

/-- In every run of Puts, Deletes and self checks in which each write without a log entry is
    carried out: the partition has the log drive once a drive is RED, and each key in which that
    drive differs from a GREEN drive has an entry. A rebuild from the log that returns true then
    makes the rebuilt drive equal to the GREEN drives, if the keys in which drives of the quorum
    differ lie within the scan and none of these drives holds, under a key of the scan, another
    record with the version of the one that is enforced. -/
theorem write_log_covers {assigned : Str → Bool} {v₀ : View} {s₀ : Drives}
    (hsetup : LogSetup l log logDrive ids pid) (hstart : GreenStart l log ids pid v₀ s₀)
    (hrun : Run (coveredDrives l) assigned Writes (v₀, s₀) (v, s)) :
    (∀ d ∈ v.partition.drives, d.status = .RED → v.partition.logId = some l ∧
      ∀ g ∈ v.partition.drives, g.status = .GREEN → ∀ k, s.find d.id k ≠ s.find g.id k →
        s.find logDrive.id (logPrefix v.partition ++ k) ≠ none) ∧
    ∀ index fuel y f v' s', v.partition.logId = some l → v.partition.drives[index]? = some y →
      reference v.partition = some f →
      Returns drives ((synchronizeDrive assigned index fuel).run v) s (true, v') s' →
      (∀ d ∈ nonRedIds v.partition, ∀ d' ∈ nonRedIds v.partition, ∀ k, assigned k →
        s.find d k ≠ s.find d' k → lit " " ≤ k ∧ k ≤ lit "|") →
      (∀ d ∈ nonRedIds v.partition, ∀ k ∈ scanKeys v.partition logDrive.id s, assigned k →
        s.find d k ≠ rebuildRecord assigned v.partition f.id logDrive.id s k →
        ¬ SameVersion (s.find d k) (rebuildRecord assigned v.partition f.id logDrive.id s k)) →
      ∀ g ∈ v.partition.drives, g.status = .GREEN → ∀ k, assigned k → s'.find y.id k = s'.find g.id k := by
  have hkept : Kept l log logDrive ids pid v s :=
    Run.preserves (fun op fuel hop => preserves_writes hsetup assigned op hop fuel) hrun hstart.kept
  have hmem : ∀ d ∈ v.partition.drives, d.id ∈ ids := by
    intro d hd
    rw [← hkept.held.memory.2.1]
    exact List.mem_map_of_mem hd
  refine ⟨fun d hd hred => ⟨hkept.held.memory.logId hd (by simp [hred]), fun g hg _ k hne => ?_⟩, ?_⟩
  · have hpre : logPrefix v.partition = entryPrefix pid := by
      unfold logPrefix entryPrefix
      rw [hkept.held.memory.1]
    rw [hpre]
    exact (hkept.covered k).resolve_right fun hsame => hne (hsame _ (hmem d hd) _ (hmem g hg))
  · intro index fuel y f v' s' hlog hy href hreturn hbounds hversion g hg hgreen k hk
    obtain ⟨⟨y', hy', hyellow⟩, hall⟩ := rebuild_covered hsetup hkept hlog href hreturn
      (fun d hd k hk => hbounds d hd f.id (reference_mem href) k hk) hversion
    obtain rfl : y = y' := Option.some.inj (hy.symm.trans hy')
    have hyred : y.id ∈ nonRedIds v.partition :=
      List.mem_map.mpr ⟨y, List.mem_filter.mpr ⟨List.mem_of_getElem? hy, by simp [hyellow]⟩, rfl⟩
    have hgred : g.id ∈ nonRedIds v.partition :=
      List.mem_map.mpr ⟨g, List.mem_filter.mpr ⟨hg, by simp [hgreen]⟩, rfl⟩
    rw [hall y.id hyred k hk, hall g.id hgred k hk]

/-- The log partition with one drive. -/
def oneLog : Partition := ⟨0, none, [⟨.GREEN, lit "l", 0⟩], none⟩

/-- The view of a client that knows this partition. -/
def loggedView : View := ⟨threeGreen, oneLog, fun _ => some 0⟩

theorem logSetup_oneLog : LogSetup 0 oneLog ⟨.GREEN, lit "l", 0⟩ (threeGreen.drives.map KineticDrive.id)
    (some 1) where
  partitionId := by decide
  nodup := by decide
  usable := by decide
  drive := rfl
  separate := by decide

theorem greenStart_threeGreen : GreenStart 0 oneLog (threeGreen.drives.map KineticDrive.id) (some 1)
    loggedView noRecords where
  partitionId := rfl
  drives := rfl
  green := by decide
  logId := rfl
  logPartition := rfl
  agreed := rfl
  stored := by
    intro p hp
    obtain ⟨d, n, r, hr, -⟩ := hp
    cases hr
  same := fun _ _ _ _ _ => rfl

/-- The answer of drive `c` to the first Put gets lost, so `c` becomes RED; the second Put has an
    entry in the log. -/
theorem write_log_covers_lost : ∃ v s, Run (coveredDrives 0) (fun _ => true) Writes (loggedView, noRecords) (v, s) ∧
    s.find (lit "c", 0) (lit "/x") ≠ s.find (lit "a", 0) (lit "/x") ∧
    s.find (lit "l", 0) (lit "1log_/x") ≠ none := by
  have hrun : (((Operation.put (lit "/x") [] .REQUIRE_SAME_VERSION ⟨lit "x", lit "1"⟩).run (fun _ => true) 3).run
      loggedView).exec (coveredDrives 0) noRecords
        ([.reach false, .reach false, .lost, .index 0] ++ List.replicate 10 (.reach false)) |>.any (fun r =>
      (((Operation.put (lit "/x") (lit "1") .REQUIRE_SAME_VERSION ⟨lit "y", lit "2"⟩).run (fun _ => true) 3).run
        r.1.2).exec (coveredDrives 0) r.2 (List.replicate 5 (.reach false)) |>.any fun r' =>
        (⟨.RED, lit "c", 0⟩ : KineticDrive) ∈ r'.1.2.partition.drives ∧
        (⟨.GREEN, lit "a", 0⟩ : KineticDrive) ∈ r'.1.2.partition.drives ∧
        logPrefix r'.1.2.partition = lit "1log_" ∧
        r'.2.find (lit "c", 0) (lit "/x") ≠ r'.2.find (lit "a", 0) (lit "/x")) := by decide +kernel
  obtain ⟨⟨⟨u, v1⟩, s1⟩, hrun1, h⟩ := (Option.any_eq_true _ _).mp hrun
  obtain ⟨⟨⟨u', v⟩, s⟩, hrun2, h⟩ := (Option.any_eq_true _ _).mp h
  obtain ⟨hc, ha, hpre, hne⟩ := of_decide_eq_true h
  have hstep1 : Step (coveredDrives 0) (fun _ => true) Writes (loggedView, noRecords) (v1, s1) :=
    ⟨.put _ _ _ _, 3, trivial, returns_of_exec hrun1⟩
  have hstep2 : Step (coveredDrives 0) (fun _ => true) Writes (v1, s1) (v, s) :=
    ⟨.put _ _ _ _, 3, trivial, returns_of_exec hrun2⟩
  have hrun : Run (coveredDrives 0) (fun _ => true) Writes (loggedView, noRecords) (v, s) :=
    (Relation.ReflTransGen.single hstep1).tail hstep2
  refine ⟨v, s, hrun, hne, ?_⟩
  have hentry := ((write_log_covers logSetup_oneLog greenStart_threeGreen hrun).1 _ hc rfl).2 _ ha rfl _ hne
  rwa [hpre] at hentry

/-- The write that finds out that drive `c` has failed is acknowledged without an entry. -/
theorem write_log_misses_first : ∃ v s, Returns drives ((put (lit "/x") [] .REQUIRE_SAME_VERSION
      ⟨lit "x", lit "1"⟩ 3).run loggedView) noRecords (.OK, v) s ∧
    (⟨.RED, lit "c", 0⟩ : KineticDrive) ∈ v.partition.drives ∧ v.partition.logId = some 0 ∧
    s.find (lit "c", 0) (lit "/x") = none ∧ s.find (lit "a", 0) (lit "/x") ≠ none ∧
    s.find (lit "l", 0) (lit "1log_/x") = none := by
  have hrun : ((put (lit "/x") [] .REQUIRE_SAME_VERSION ⟨lit "x", lit "1"⟩ 3).run loggedView).exec drives noRecords
      ([.reach false, .reach false, .unreachable, .index 0] ++ List.replicate 10 (.reach false)) |>.any (fun r =>
        r.1.1 = .OK ∧ (⟨.RED, lit "c", 0⟩ : KineticDrive) ∈ r.1.2.partition.drives ∧
        r.1.2.partition.logId = some 0 ∧
        r.2.find (lit "c", 0) (lit "/x") = none ∧ r.2.find (lit "a", 0) (lit "/x") ≠ none ∧
        r.2.find (lit "l", 0) (lit "1log_/x") = none) := by decide +kernel
  obtain ⟨⟨⟨code, v⟩, s⟩, hrun, h⟩ := (Option.any_eq_true _ _).mp hrun
  obtain ⟨rfl, h⟩ := of_decide_eq_true h
  exact ⟨v, s, returns_of_exec hrun, h⟩

end Log

end HFlat.Replication
