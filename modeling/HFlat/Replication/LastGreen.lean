/-
  The GREEN drives of a partition along the runs of a client.

  Reads, read repair, writes and `synchronizeDrive` search the partition for a GREEN drive without an
  end to the search. `disableDrive` makes the drive RED before it tests what remains of the partition,
  and does not take this back if the test fails. So that its calls can be spoken of, the operations are
  given once more, with a list of these calls (`erases_operation`). As long as each of them leaves
  another GREEN drive, the partition in memory keeps one, and the first that does not ends it
  (`green_remains_iff`).
-/
import HFlat.Replication.Agreement

namespace HFlat.Replication

open HFlat.Lib

/-! ## GREEN drives -/

/-- The drive is GREEN. -/
def Green (p : Partition) (i : Nat) : Prop := ∃ d, p.drives[i]? = some d ∧ d.status = .GREEN

/-- There is a GREEN drive. -/
def Live (p : Partition) : Prop := ∃ i, Green p i

/-- The searches of `readRepair`, `evaluateWriteOperation`, `readOperation` and `synchronizeDrive` end at
    a drive of the partition. -/
def Searches (p : Partition) : Prop :=
  (∃ i, greenIndex p = some i ∧ i < p.drives.length) ∧ greenIndices p ≠ []

theorem green_of_greenIndex {p : Partition} {i : Nat} (h : greenIndex p = some i) : Green p i := by
  obtain ⟨hlt, hgreen, -⟩ := List.findIdx?_eq_some_iff_getElem.mp h
  exact ⟨_, List.getElem?_eq_getElem hlt, of_decide_eq_true hgreen⟩

theorem mem_greenIndices {p : Partition} {i : Nat} : i ∈ greenIndices p ↔ Green p i := by
  unfold greenIndices Green
  rw [List.mem_filter, List.mem_range]
  constructor
  · rintro ⟨-, h⟩
    exact Option.map_eq_some_iff.mp (of_decide_eq_true h)
  · rintro ⟨d, hd, hgreen⟩
    refine ⟨(List.getElem?_eq_some_iff.mp hd).1, decide_eq_true ?_⟩
    rw [hd, Option.map_some, hgreen]

theorem searches_iff {p : Partition} : Searches p ↔ Live p := by
  constructor
  · rintro ⟨⟨i, hi, -⟩, -⟩
    exact ⟨i, green_of_greenIndex hi⟩
  · rintro ⟨i, hi⟩
    refine ⟨?_, List.ne_nil_of_mem (mem_greenIndices.mpr hi)⟩
    cases h : greenIndex p with
    | some k =>
      obtain ⟨d, hd, -⟩ := green_of_greenIndex h
      exact ⟨k, rfl, (List.getElem?_eq_some_iff.mp hd).1⟩
    | none =>
      obtain ⟨d, hd, hgreen⟩ := hi
      have hall := List.findIdx?_eq_none_iff.mp h d (List.mem_of_getElem? hd)
      exact absurd hgreen (of_decide_eq_false hall)

/-- No other drive than `index` changes. -/
theorem green_setStatus_of_ne {p : Partition} {index i : Nat} (st : KineticDrive.Status) (h : i ≠ index) :
    Green (p.setStatus index st) i ↔ Green p i := by
  unfold Green Partition.setStatus
  rw [List.getElem?_modify_ne _ _ (Ne.symm h)]

/-- A call of `disableDrive`. -/
structure Failing where
  partition : Partition
  index : Nat
  deriving DecidableEq, Repr

/-- Another drive is GREEN. -/
def Failing.Spares (c : Failing) : Prop := ∃ i, i ≠ c.index ∧ Green c.partition i

theorem Failing.Spares.live {p : Partition} {index : Nat} (st : KineticDrive.Status)
    (h : (⟨p, index⟩ : Failing).Spares) : Live (p.setStatus index st) := by
  obtain ⟨i, hindex, hi⟩ := h
  exact ⟨i, (green_setStatus_of_ne st hindex).mpr hi⟩

theorem Failing.Spares.setStatus {p : Partition} {index : Nat} (st : KineticDrive.Status)
    (h : (⟨p, index⟩ : Failing).Spares) : (⟨p.setStatus index st, index⟩ : Failing).Spares := by
  obtain ⟨i, hindex, hi⟩ := h
  exact ⟨i, hindex, (green_setStatus_of_ne st hindex).mpr hi⟩

/-- A drive that is not GREEN is not the only GREEN one. -/
theorem Live.spares {p : Partition} {index : Nat} {d : KineticDrive} (h : Live p)
    (hd : p.drives[index]? = some d) (hne : d.status ≠ .GREEN) : (⟨p, index⟩ : Failing).Spares := by
  obtain ⟨i, hi⟩ := h
  refine ⟨i, ?_, hi⟩
  rintro rfl
  obtain ⟨d', hd', hgreen⟩ := hi
  rw [hd] at hd'
  cases hd'
  exact hne hgreen

theorem live_setStatus_red {p : Partition} {index : Nat} :
    Live (p.setStatus index .RED) ↔ (⟨p, index⟩ : Failing).Spares := by
  constructor
  · rintro ⟨i, hi⟩
    have hindex : i ≠ index := by
      rintro rfl
      obtain ⟨d, hd, hgreen⟩ := hi
      unfold Partition.setStatus at hd
      rw [List.getElem?_modify_eq] at hd
      obtain ⟨d', -, rfl⟩ := Option.map_eq_some_iff.mp hd
      cases hgreen
    exact ⟨i, hindex, (green_setStatus_of_ne _ hindex).mp hi⟩
  · exact fun h => h.live .RED

/-! ## Operations with their calls of `disableDrive` -/

/-- `disableDrive` -/
def disableDriveCalls (index : Nat) : Nat → Action (Bool × List Failing)
  | 0 => crash
  | fuel + 1 => do
      let v ← get
      match v.partition.drives[index]? with
      | none => crash
      | some d =>
          if d.status = .RED then return (true, [⟨v.partition, index⟩])
          let p ← addLog v.partition v.logPartition
          setPartition { p.setStatus index .RED with clusterVersion := p.clusterVersion + 1 }
          if ← testPartition then
            if ← putPartitionUpdate then
              modify fun v => { v with connectionMap := Function.update v.connectionMap d.id none }
              return (true, [⟨v.partition, index⟩])
            if ← getPartitionUpdate fuel then
              let (ok, calls) ← disableDriveCalls index fuel
              return (ok, ⟨v.partition, index⟩ :: calls)
          return (false, [⟨v.partition, index⟩])

/-- `evaluate` -/
def evaluateCalls (results : List StatusCode) : Nat → Client (StatusCode × List Failing)
  | 0 => Client.crash
  | fuel + 1 => do
      let p := (← get).partition
      if results.length < p.drives.length then Client.crash
      match greenIndex p with
      | none => Client.crash
      | some green =>
          match results[green]? with
          | none => Client.crash
          | some code =>
              if ∀ c ∈ validResults p.drives results, c = code then return (code, [])
              match failedIndex p.drives results 0 with
              | none => return (.REMOTE_OTHER_ERROR, [])
              | some (i, code) =>
                  let (ok, calls) ← update (disableDriveCalls i fuel)
                  if ok then
                    let (code, calls') ← evaluateCalls results fuel
                    return (code, calls ++ calls')
                  else return (code, calls)

/-- `writeOperation` -/
def writeOperationCalls (key : Str) (op : WriteOp) : Nat → Client (StatusCode × List Failing)
  | 0 => Client.crash
  | fuel + 1 => do
      let p := (← get).partition
      let results ← writeAll p (logs p) key op p.drives
      logWrite p key fuel
      if .REMOTE_CLUSTER_VERSION_MISMATCH ∈ results then
        if ← update (getPartitionUpdate fuel) then writeOperationCalls key op fuel
        else return (.REMOTE_CLUSTER_VERSION_MISMATCH, [])
      else evaluateCalls results fuel

/-- `put` and `delete`, with `ok` as in `resolve` -/
def resolvedCalls (key : Str) (op : WriteOp) (ok : Option (KineticRecord Str) → Bool) (fuel : Nat) :
    Client (StatusCode × List Failing) := do
  let (result, calls) ← writeOperationCalls key op fuel
  if result = .REMOTE_OTHER_ERROR then
    let result ← resolve key ok fuel
    return (result, calls)
  else return (result, calls)

/-- `read` -/
def readCalls (key : Str) : Nat → Client ((StatusCode × Option (KineticRecord Str)) × List Failing)
  | 0 => Client.crash
  | fuel + 1 => do
      let p := (← get).partition
      let index : Nat ← update (request (.pick (greenIndices p)))
      match p.drives[index]? with
      | none => Client.crash
      | some d =>
          let con ← update (driveToConnection p d.id)
          let mut answer : StatusCode × Option (KineticRecord Str) := (.REMOTE_REMOTE_CONNECTION_ERROR, none)
          if con then
            let ccv ← update (clientClusterVersion d.id)
            answer ← ask (.get d.id ccv key)
          if answer.1 = .REMOTE_CLUSTER_VERSION_MISMATCH then
            if ← update (getPartitionUpdate fuel) then readCalls key fuel
            else return (answer, [])
          else if answer.1 ≠ .OK ∧ answer.1 ≠ .REMOTE_NOT_FOUND ∧ answer.1 ≠ .REMOTE_NOT_AUTHORIZED then
            let (ok, calls) ← update (disableDriveCalls index fuel)
            if ok then
              let (result, calls') ← readCalls key fuel
              return (result, calls ++ calls')
            else return (answer, calls)
          else return (answer, [])

/-- `Operation.run` -/
def Operation.calls (assigned : Str → Bool) (fuel : Nat) : Operation → Client (Unit × List Failing)
  | .put key expected mode record => do
      let (_, calls) ← resolvedCalls key (.put expected mode record)
        (fun r => r.map KineticRecord.version = some record.version) fuel
      return ((), calls)
  | .delete key expected mode => do
      let (_, calls) ← resolvedCalls key (.delete expected mode) (fun r => r = none) fuel
      return ((), calls)
  | .get key => do
      let (_, calls) ← readCalls key fuel
      return ((), calls)
  | .selfCheck => do
      let _ ← Replication.selfCheck fuel
      return ((), [])
  | .synchronizeDrive index => do
      let _ ← Replication.synchronizeDrive assigned index fuel
      return ((), [])

section Erasure

variable {C S : Type} {sv : Service (Req ⊕ DataReq) (SumRes Res DataRes) C S}

theorem erases_disableDriveCalls (index fuel : Nat) :
    Erases sv.left (disableDrive index fuel) (disableDriveCalls index fuel) := by
  induction fuel with
  | zero => exact Erases.stop
  | succ fuel ih =>
    unfold disableDrive disableDriveCalls
    refine Erases.bind fun v => ?_
    cases v.partition.drives[index]? with
    | none => exact Erases.stop
    | some d =>
      refine Erases.ite (Erases.pure _ _) (Erases.bind fun p => Erases.bind fun _ => ?_)
      refine Erases.bind fun ok => Erases.ite ?_ (Erases.pure _ _)
      refine Erases.bind fun ok => Erases.ite (Erases.bind fun _ => Erases.pure _ _) ?_
      refine Erases.bind fun ok => Erases.ite ?_ (Erases.pure _ _)
      exact ih.extend fun calls => ⟨v.partition, index⟩ :: calls

theorem erases_evaluateCalls (results : List StatusCode) (fuel : Nat) :
    Erases sv (evaluate results fuel) (evaluateCalls results fuel) := by
  induction fuel with
  | zero => exact Erases.stop
  | succ fuel ih =>
    refine Erases.bind fun v => Erases.ite Erases.stop ?_
    cases greenIndex v.partition with
    | none => exact Erases.stop
    | some green =>
      dsimp only
      cases results[green]? with
      | none => exact Erases.stop
      | some code =>
        refine Erases.ite (Erases.pure _ _) ?_
        cases failedIndex v.partition.drives results 0 with
        | none => exact Erases.pure _ _
        | some r =>
          refine (Erases.embed (erases_disableDriveCalls r.1 fuel)).then fun ok calls => ?_
          exact Erases.ite (ih.extend fun calls' => calls ++ calls') (Erases.pure _ _)

theorem erases_writeOperationCalls (key : Str) (op : WriteOp) (fuel : Nat) :
    Erases sv (writeOperation key op fuel) (writeOperationCalls key op fuel) := by
  induction fuel with
  | zero => exact Erases.stop
  | succ fuel ih =>
    refine Erases.bind fun v => Erases.bind fun results => Erases.bind fun _ => Erases.ite ?_ ?_
    · exact Erases.bind fun b => Erases.ite ih (Erases.pure _ _)
    · exact erases_evaluateCalls results fuel

theorem erases_readCalls (key : Str) (fuel : Nat) : Erases sv (read key fuel) (readCalls key fuel) := by
  induction fuel with
  | zero => exact Erases.stop
  | succ fuel ih =>
    refine Erases.bind fun v => Erases.bind fun index => ?_
    cases v.partition.drives[index]? with
    | none => exact Erases.stop
    | some d =>
      have hend : ∀ answer : StatusCode × Option (KineticRecord Str), Erases sv
          (if answer.1 = .REMOTE_CLUSTER_VERSION_MISMATCH then do
            if ← update (getPartitionUpdate fuel) then read key fuel
            else return answer
          else if answer.1 ≠ .OK ∧ answer.1 ≠ .REMOTE_NOT_FOUND ∧ answer.1 ≠ .REMOTE_NOT_AUTHORIZED then do
            if ← update (disableDrive index fuel) then read key fuel
            else return answer
          else return answer)
          (if answer.1 = .REMOTE_CLUSTER_VERSION_MISMATCH then do
            if ← update (getPartitionUpdate fuel) then readCalls key fuel
            else return (answer, [])
          else if answer.1 ≠ .OK ∧ answer.1 ≠ .REMOTE_NOT_FOUND ∧ answer.1 ≠ .REMOTE_NOT_AUTHORIZED then do
            let (ok, calls) ← update (disableDriveCalls index fuel)
            if ok then
              let (result, calls') ← readCalls key fuel
              return (result, calls ++ calls')
            else return (answer, calls)
          else return (answer, [])) := by
        intro answer
        refine Erases.ite (Erases.bind fun b => Erases.ite ih (Erases.pure _ _)) ?_
        refine Erases.ite ?_ (Erases.pure _ _)
        refine (Erases.embed (erases_disableDriveCalls index fuel)).then fun ok calls => ?_
        exact Erases.ite (ih.extend fun calls' => calls ++ calls') (Erases.pure _ _)
      refine Erases.bind fun con => Erases.ite ?_ (hend _)
      exact Erases.bind fun ccv => Erases.bind fun answer => hend answer

/-- With the list of calls left out it is the operation. -/
theorem erases_operation (assigned : Str → Bool) (fuel : Nat) (op : Operation) :
    Erases sv (op.run assigned fuel) (op.calls assigned fuel) := by
  have hresolved : ∀ key op ok, Erases sv (do
      let result ← writeOperation key op fuel
      if result = .REMOTE_OTHER_ERROR then resolve key ok fuel
      else return result) (resolvedCalls key op ok fuel) := by
    intro key op ok
    refine (erases_writeOperationCalls key op fuel).then fun result calls => ?_
    exact Erases.ite (Erases.note _ _) (Erases.pure _ _)
  cases op with
  | put key expected mode record => exact (hresolved _ _ _).then fun _ calls => Erases.pure _ _
  | delete key expected mode => exact (hresolved _ _ _).then fun _ calls => Erases.pure _ _
  | get key => exact (erases_readCalls key fuel).then fun _ calls => Erases.pure _ _
  | selfCheck => exact Erases.bind fun _ => Erases.pure _ _
  | synchronizeDrive index => exact Erases.bind fun _ => Erases.pure _ _

end Erasure

/-! ## What partition updates leave -/

section Updates

variable {v : View} {s : Drives}

/-- Every view that a drive stores has a GREEN drive. -/
def StoredLive (s : Drives) : Prop := ∀ p, Stored s p → Live p

theorem StoredLive.same {s s' : Drives} (h : StoredLive s) (hc : s'.cluster = s.cluster) : StoredLive s' := by
  unfold StoredLive Stored
  rw [hc]
  exact h

/-- The loop of `testPartition` counts the GREEN drives. -/
theorem post_testDrives_green (p : Partition) (ds : List KineticDrive) (green yellow : Nat) :
    Post drives.left (testDrives p ds green yellow) (fun counts _ _ => ∀ c, counts = some c →
      c.1 ≠ green → ∃ d ∈ ds, d.status = .GREEN) v s := by
  induction ds generalizing v s green yellow with
  | nil =>
    refine Post.pure fun c hc hne => ?_
    cases hc
    exact absurd rfl hne
  | cons d ds ih =>
    unfold testDrives
    have hrest : ∀ green' yellow' v s, (d.status ≠ .GREEN → green' = green) →
        Post drives.left (testDrives p ds green' yellow') (fun counts _ _ => ∀ c, counts = some c →
          c.1 ≠ green → ∃ d' ∈ d :: ds, d'.status = .GREEN) v s := by
      intro green' yellow' v s hgreen
      refine (ih green' yellow').mono fun counts v1 s1 h1 c hc hne => ?_
      by_cases hd : d.status = .GREEN
      · exact ⟨d, List.mem_cons_self, hd⟩
      · rw [← hgreen hd] at hne
        obtain ⟨d', hd', hstatus⟩ := h1 c hc hne
        exact ⟨d', List.mem_cons_of_mem _ hd', hstatus⟩
    refine Post.ite (fun _ => hrest _ _ _ _ fun _ => rfl) fun _ => ?_
    refine Post.bind fun ok v1 s1 _ => Post.ite (fun _ => hrest _ _ _ _ fun hd => if_neg hd) fun _ => ?_
    exact Post.pure fun c hc => absurd hc (Option.some_ne_none c).symm

/-- A partition that passes `testPartition` has a GREEN drive. -/
theorem post_testPartition_live : Post drives.left testPartition (fun b _ _ =>
    b = true → v.partition.partitionId ≠ none → Live v.partition) v s := by
  unfold testPartition
  refine Post.get_bind (Post.ite (fun hnone => Post.pure fun _ h => absurd hnone h) fun _ => ?_)
  refine (post_testDrives_green _ _ _ _).then fun counts v1 s1 h1 => ?_
  cases counts with
  | none => exact Post.pure fun h => absurd h Bool.false_ne_true
  | some c =>
    refine Post.bind fun ok v2 s2 _ => ?_
    refine Post.ite (fun _ => Post.pure fun h => absurd h Bool.false_ne_true) fun _ => ?_
    refine Post.ite (fun _ => Post.pure fun h => absurd h Bool.false_ne_true) fun hgreen => ?_
    have hlive : Live v.partition := by
      obtain ⟨d, hd, hstatus⟩ := h1 c rfl hgreen
      obtain ⟨i, hi⟩ := List.mem_iff_getElem?.mp hd
      exact ⟨i, d, hi, hstatus⟩
    exact Post.ite (fun _ => Post.pure fun h => absurd h Bool.false_ne_true) fun _ => Post.pure fun _ _ => hlive

/-- Only a partition with a GREEN drive may be published. -/
theorem post_publish (hs : StoredLive s) (hlive : v.partition.partitionId ≠ none → Live v.partition) :
    Post drives.left putPartitionUpdate (fun b v' s' => SameViews v v' ∧ StoredLive s' ∧
      (b = false → v.partition.partitionId ≠ none)) v s := by
  by_cases hnone : v.partition.partitionId = none
  · refine (post_putPartitionUpdate_log hnone).mono fun b v' s' h => ?_
    obtain ⟨rfl, rfl, rfl⟩ := h
    exact ⟨⟨rfl, rfl⟩, hs, fun h => absurd h Bool.false_ne_true.symm⟩
  · refine post_putPartitionUpdate.mono fun b v' s' h => ⟨h.1, fun p hp => ?_, fun _ => hnone⟩
    rcases h.2.1 p hp with hp | rfl
    · exact hs p hp
    · exact hlive hnone

/-- A partition that is taken over has a GREEN drive. -/
theorem post_adopt (hs : StoredLive s) (fuel : Nat) :
    Post drives.left (getPartitionUpdate fuel) (fun b v' s' => v'.logPartition = v.logPartition ∧
      StoredLive s' ∧ (b = true → Live v'.partition) ∧ (b = false → v'.partition = v.partition)) v s := by
  refine (post_getPartitionUpdate fuel).mono fun b v' s' h => ?_
  obtain ⟨hlog, hc, htrue, hfalse⟩ := h
  refine ⟨hlog, hs.same hc, fun hb => ?_, fun hb => (hfalse hb).1⟩
  obtain ⟨hp, hstored⟩ := htrue hb
  rw [hp]
  exact hs _ hstored

/-- Whatever partition it is called with, `disableDrive` publishes only one with a GREEN drive. -/
theorem post_disableDrive_stored (hs : StoredLive s) (index fuel : Nat) :
    Post drives.left (disableDrive index fuel) (fun _ _ s' => StoredLive s') v s := by
  induction fuel generalizing v s with
  | zero => exact Post.stop
  | succ fuel ih =>
    unfold disableDrive
    refine Post.get_bind ?_
    cases v.partition.drives[index]? with
    | none => exact Post.stop
    | some d =>
      refine Post.ite (fun _ => Post.pure hs) fun _ => ?_
      refine (post_addLog _ _).then fun p v1 s1 h1 => Post.modify_bind ?_
      obtain ⟨rfl, rfl, -⟩ := h1
      refine (post_testPartition.and post_testPartition_live).then fun b v2 s2 h2 => ?_
      obtain ⟨⟨hv2, rfl⟩, hlive2⟩ := h2
      refine Post.ite (fun hb => ?_) fun _ => Post.pure hs
      refine (post_publish hs ?_).then fun b v3 s3 h3 => ?_
      · rw [hv2.1]
        exact hlive2 hb
      · refine Post.ite (fun _ => Post.modify_bind (Post.pure h3.2.1)) fun _ => ?_
        refine (post_adopt h3.2.1 fuel).then fun b v4 s4 h4 => ?_
        exact Post.ite (fun _ => ih h4.2.1) fun _ => Post.pure h4.2.1

/-- The partition in memory keeps a GREEN drive if and only if every call leaves one. -/
def Told (calls : List Failing) (v : View) (s : Drives) : Prop :=
  StoredLive s ∧ (Live v.partition ↔ ∀ c ∈ calls, c.Spares)

theorem told_nil : Told [] v s ↔ StoredLive s ∧ Live v.partition := by
  simp [Told]

/-- Calls in a partition that still has a GREEN drive. -/
theorem Told.append {calls calls' : List Failing} {v' : View} {s' : Drives} (h : Told calls v s)
    (hlive : Live v.partition) (h' : Told calls' v' s') : Told (calls ++ calls') v' s' := by
  refine ⟨h'.1, h'.2.trans ?_⟩
  rw [List.forall_mem_append]
  exact (and_iff_right (h.2.mp hlive)).symm

theorem post_disableDriveCalls (hs : StoredLive s) (hlive : Live v.partition) (index fuel : Nat) :
    Post drives.left (disableDriveCalls index fuel) (fun r v' s' => Told r.2 v' s') v s := by
  induction fuel generalizing v s with
  | zero => exact Post.stop
  | succ fuel ih =>
    unfold disableDriveCalls
    refine Post.get_bind ?_
    cases hd : v.partition.drives[index]? with
    | none => exact Post.stop
    | some d =>
      have hone : ∀ {v' s'}, StoredLive s' → (Live v'.partition ↔ Live (v.partition.setStatus index .RED)) →
          Told [⟨v.partition, index⟩] v' s' := by
        intro v' s' hs' hiff
        refine ⟨hs', ?_⟩
        rw [hiff, live_setStatus_red]
        simp
      refine Post.ite (fun hred => Post.pure (hone hs (iff_of_true hlive ?_))) fun _ => ?_
      · refine (hlive.spares hd ?_).live .RED
        rw [hred]
        decide
      refine (post_addLog _ _).then fun p v1 s1 h1 => Post.modify_bind ?_
      obtain ⟨rfl, rfl, hp⟩ := h1
      have hdrives : Live { p.setStatus index .RED with clusterVersion := p.clusterVersion + 1 } ↔
          Live (v1.partition.setStatus index .RED) := by
        rcases hp with rfl | ⟨l, rfl⟩
        · exact Iff.rfl
        · exact Iff.rfl
      refine (post_testPartition.and post_testPartition_live).then fun b v2 s2 h2 => ?_
      obtain ⟨⟨hv2, rfl⟩, hlive2⟩ := h2
      have hiff2 : Live v2.partition ↔ Live (v1.partition.setStatus index .RED) := by
        rw [hv2.1]
        exact hdrives
      refine Post.ite (fun hb => ?_) fun _ => Post.pure (hone hs hiff2)
      rw [← hv2.1] at hlive2
      refine (post_publish hs (hlive2 hb)).then fun b v3 s3 h3 => ?_
      obtain ⟨hv3, hs3, hid⟩ := h3
      have hiff3 : Live v3.partition ↔ Live (v1.partition.setStatus index .RED) := by
        rw [hv3.1]
        exact hiff2
      refine Post.ite (fun _ => Post.modify_bind (Post.pure (hone hs3 hiff3))) fun hfalse => ?_
      refine (post_adopt hs3 fuel).then fun b v4 s4 h4 => ?_
      obtain ⟨-, hs4, htrue, hsame⟩ := h4
      refine Post.ite (fun hb4 => ?_) fun hb4 => Post.pure (hone hs4 ?_)
      · -- the first call has left a GREEN drive, or the test had failed
        have hspares : (⟨v1.partition, index⟩ : Failing).Spares :=
          live_setStatus_red.mp (hiff2.mp (hlive2 hb (hid (by simpa using hfalse))))
        refine (ih hs4 (htrue hb4)).then fun r v5 s5 h5 => Post.pure ⟨h5.1, h5.2.trans ?_⟩
        simp [hspares]
      · rw [hsame (by simpa using hb4)]
        exact hiff3

/-- The partition in memory and the stored views have a GREEN drive. -/
def Lively (v : View) (s : Drives) : Prop := StoredLive s ∧ Live v.partition

theorem Lively.same {v' : View} {s' : Drives} (h : Lively v s) (hp : v'.partition = v.partition)
    (hc : s'.cluster = s.cluster) : Lively v' s' :=
  ⟨h.1.same hc, hp ▸ h.2⟩

theorem preserves_enableDrive_lively (index fuel : Nat) :
    Preserves drives.left Lively (enableDrive index fuel) := by
  induction fuel with
  | zero => exact Preserves.stop
  | succ fuel ih =>
    intro v s h
    unfold enableDrive
    refine Post.get_bind ?_
    dsimp only
    cases hd : v.partition.drives[index]? with
    | none => exact Post.stop
    | some d =>
      refine Post.ite (fun _ => Post.pure h) fun hred => ?_
      have hspares : (⟨v.partition, index⟩ : Failing).Spares := by
        refine h.2.spares hd ?_
        rw [not_not.mp hred]
        decide
      -- the drive becomes RED again while the memory still is as `enableDrive` has changed it
      have hback : ∀ v' s', StoredLive s' → v'.partition =
            { v.partition.setStatus index .YELLOW with clusterVersion := v.partition.clusterVersion + 1 } →
          Post drives.left (do
            let p := (← get).partition
            setPartition { p.setStatus index .RED with clusterVersion := p.clusterVersion - 1 }
            return false) (fun _ v' s' => Lively v' s') v' s' := by
        intro v' s' hs hmem
        refine Post.get_bind (Post.modify_bind (Post.pure ⟨hs, ?_⟩))
        rw [hmem]
        exact (hspares.setStatus .YELLOW).live .RED
      refine (post_driveToConnection v.partition d.id).then fun con v1 s1 h1 => ?_
      obtain ⟨hv1, rfl⟩ := h1
      refine Post.ite (fun _ => Post.pure (h.same hv1.1 rfl)) fun _ => ?_
      refine (post_probeVersion d.id fuel 0).then fun status v2 s2 h2 => ?_
      obtain ⟨hv2, rfl⟩ := h2
      refine Post.ite (fun _ => Post.pure (h.same (hv1.trans hv2).1 rfl)) fun _ => Post.modify_bind ?_
      refine post_testPartition.then fun ok v3 s3 h3 => ?_
      obtain ⟨hv3, rfl⟩ := h3
      refine Post.ite (fun _ => ?_) fun _ => hback v3 s3 h.1 hv3.1
      have hlive3 : Live v3.partition := by
        rw [hv3.1]
        exact hspares.live .YELLOW
      refine (post_publish h.1 fun _ => hlive3).then fun ok v4 s4 h4 => ?_
      obtain ⟨hv4, hs4, -⟩ := h4
      refine Post.ite (fun _ => Post.pure ⟨hs4, hv4.1 ▸ hlive3⟩) fun _ => ?_
      refine (post_adopt hs4 fuel).then fun ok v5 s5 h5 => ?_
      obtain ⟨-, hs5, htrue, hsame⟩ := h5
      refine Post.ite (fun hok => ih v5 s5 ⟨hs5, htrue hok⟩) fun hok => hback v5 s5 hs5 ?_
      exact (hsame (by simpa using hok)).trans (hv4.1.trans hv3.1)

end Updates

/-! ## Operations -/

section Operations

variable {v : View} {s : Drives} {α : Type}

theorem Idle.lively {m : Client α} (hm : Idle drives m) : Preserves drives Lively m :=
  fun v s h => (hm v s).mono fun _ _ _ h' => h.same h'.1.1 h'.2.1

theorem preserves_adopt (fuel : Nat) : Preserves drives Lively (update (getPartitionUpdate fuel)) := by
  refine Preserves.embed fun v s h => (post_adopt h.1 fuel).mono fun b v' s' h' => ⟨h'.2.1, ?_⟩
  cases b with
  | true => exact h'.2.2.1 rfl
  | false => exact h'.2.2.2 rfl ▸ h.2

theorem preserves_logWrite (p : Partition) (key : Str) (fuel : Nat) :
    Preserves drives Lively (logWrite p key fuel) := by
  intro v s h
  unfold logWrite
  refine Post.ite (fun _ => ?_) fun _ => Post.pure h
  refine Post.get_bind ?_
  dsimp only
  cases p.logId.bind fun l => v.logPartition.drives[l]? with
  | none => exact Post.stop
  | some d =>
    refine (post_connection v.logPartition d.id).then fun ccv v1 s1 h1 => ?_
    obtain ⟨hv1, rfl⟩ := h1
    refine (post_ask _).then fun (code : StatusCode) v2 s2 h2 => ?_
    obtain ⟨rfl, hc, -⟩ := h2
    refine Post.ite (fun _ => ?_) fun _ => Post.pure (h.same hv1.1 hc)
    have hlive : Live v2.partition := hv1.1 ▸ h.2
    have hlog : Post drives (disableLog (p.logId.getD 0) fuel)
        (fun _ v' s' => v'.partition = v2.partition ∧ StoredLive s') v2 s2 := by
      unfold disableLog
      refine Post.get_bind (Post.set_bind ?_)
      exact (Post.embed (post_disableDrive_stored (h.1.same hc) _ fuel)).then fun _ v3 s3 h3 =>
        Post.modify ⟨rfl, h3⟩
    refine hlog.then fun _ v3 s3 h3 => Post.get_bind (Post.modify_bind ?_)
    have hlive3 : Live { v3.partition with
        logId := none, clusterVersion := v3.partition.clusterVersion + 1 } := by
      rw [h3.1]
      exact hlive
    have hpublish := post_publish (v := { v3 with partition := { v3.partition with
      logId := none, clusterVersion := v3.partition.clusterVersion + 1 } }) h3.2 fun _ => hlive3
    refine (Post.embed hpublish).then fun _ v4 s4 h4 => Post.pure ⟨h4.2.1, ?_⟩
    rw [h4.1.1]
    exact hlive3

/-- Without a GREEN drive the search does not end. -/
theorem post_evaluateCalls_dead (hdead : ¬ Live v.partition) (results : List StatusCode) (fuel : Nat)
    (Q : StatusCode × List Failing → View → Drives → Prop) :
    Post drives (evaluateCalls results fuel) Q v s := by
  cases fuel with
  | zero => exact Post.stop
  | succ fuel =>
    unfold evaluateCalls
    refine Post.get_bind (Post.ite (fun _ => Post.bind Post.stop) fun _ => ?_)
    cases hgreen : greenIndex v.partition with
    | none => exact Post.stop
    | some green => exact absurd ⟨green, green_of_greenIndex hgreen⟩ hdead

theorem post_evaluateCalls (h : Lively v s) (results : List StatusCode) (fuel : Nat) :
    Post drives (evaluateCalls results fuel) (fun r v' s' => Told r.2 v' s') v s := by
  induction fuel generalizing v s with
  | zero => exact Post.stop
  | succ fuel ih =>
    unfold evaluateCalls
    refine Post.get_bind (Post.ite (fun _ => Post.bind Post.stop) fun _ => ?_)
    cases greenIndex v.partition with
    | none => exact Post.stop
    | some green =>
      dsimp only
      cases results[green]? with
      | none => exact Post.stop
      | some code =>
        refine Post.ite (fun _ => Post.pure (told_nil.mpr h)) fun _ => ?_
        cases failedIndex v.partition.drives results 0 with
        | none => exact Post.pure (told_nil.mpr h)
        | some r =>
          refine (Post.embed (post_disableDriveCalls h.1 h.2 r.1 fuel)).then fun r v1 s1 h1 => ?_
          refine Post.ite (fun _ => ?_) fun _ => Post.pure h1
          by_cases hlive : Live v1.partition
          · refine (ih ⟨h1.1, hlive⟩).then fun r' v2 s2 h2 => Post.pure (h1.append hlive h2)
          · exact Post.bind (post_evaluateCalls_dead hlive results fuel _)

theorem post_writeOperationCalls (h : Lively v s) (key : Str) (op : WriteOp) (fuel : Nat) :
    Post drives (writeOperationCalls key op fuel) (fun r v' s' => Told r.2 v' s') v s := by
  induction fuel generalizing v s with
  | zero => exact Post.stop
  | succ fuel ih =>
    unfold writeOperationCalls
    refine Post.get_bind (((Idle.writeAll (Service.Within.refl drives) _ _ key op _).lively v s h).then
      fun results v1 s1 h1 => ?_)
    refine (preserves_logWrite _ key fuel v1 s1 h1).then fun _ v2 s2 h2 => ?_
    refine Post.ite (fun _ => ?_) fun _ => post_evaluateCalls h2 results fuel
    refine (preserves_adopt fuel v2 s2 h2).then fun b v3 s3 h3 => ?_
    exact Post.ite (fun _ => ih h3) fun _ => Post.pure (told_nil.mpr h3)

theorem preserves_resolve_lively (key : Str) (ok : Option (KineticRecord Str) → Bool) (fuel : Nat) :
    Preserves drives Lively (resolve key ok fuel) := by
  have hrepair := fun record => (Idle.repair (Service.Within.refl drives) key record).lively
  have hend : ∀ result : StatusCode × Option (KineticRecord Str), Preserves drives Lively
      (if result.1 = .OK then pure (if ok result.2 then .OK else .REMOTE_VERSION_MISMATCH)
        else pure result.1 : Client StatusCode) :=
    fun result => Preserves.ite (Preserves.pure _) (Preserves.pure _)
  unfold resolve
  refine Preserves.bind (hrepair none) fun result => Preserves.ite ?_ (hend result)
  refine Preserves.bind (preserves_adopt fuel) fun b => Preserves.ite ?_ (hend result)
  exact Preserves.bind (hrepair result.2) fun result => hend result

/-- Read repair does not end either. -/
theorem post_resolve_dead (hdead : ¬ Live v.partition) (key : Str) (ok : Option (KineticRecord Str) → Bool)
    (fuel : Nat) (Q : StatusCode → View → Drives → Prop) : Post drives (resolve key ok fuel) Q v s := by
  have hrepair : ∀ Q, Post drives (repair key none) Q v s := by
    intro Q
    unfold repair
    refine Post.get_bind ?_
    dsimp only
    cases hgreen : greenIndex v.partition with
    | none => exact Post.stop
    | some green => exact absurd ⟨green, green_of_greenIndex hgreen⟩ hdead
  unfold resolve
  exact Post.bind (hrepair _)

theorem post_resolvedCalls (h : Lively v s) (key : Str) (op : WriteOp)
    (ok : Option (KineticRecord Str) → Bool) (fuel : Nat) :
    Post drives (resolvedCalls key op ok fuel) (fun r v' s' => Told r.2 v' s') v s := by
  unfold resolvedCalls
  refine (post_writeOperationCalls h key op fuel).then fun r v1 s1 h1 => ?_
  refine Post.ite (fun _ => ?_) fun _ => Post.pure h1
  by_cases hlive : Live v1.partition
  · refine (preserves_resolve_lively key ok fuel v1 s1 ⟨h1.1, hlive⟩).then fun _ v2 s2 h2 => Post.pure ?_
    exact ⟨h2.1, iff_of_true h2.2 (h1.2.mp hlive)⟩
  · exact Post.bind (post_resolve_dead hlive key ok fuel _)

/-- The search of a read goes on for ever without a GREEN drive. -/
theorem post_readCalls_dead (hdead : ¬ Live v.partition) (key : Str) (fuel : Nat)
    (Q : (StatusCode × Option (KineticRecord Str)) × List Failing → View → Drives → Prop) :
    Post drives (readCalls key fuel) Q v s := by
  cases fuel with
  | zero => exact Post.stop
  | succ fuel =>
    unfold readCalls
    refine Post.get_bind ((post_pick _ v s).then fun index v1 s1 h1 => ?_)
    exact absurd ⟨_, mem_greenIndices.mp h1.2.2⟩ hdead

theorem post_readCalls (h : Lively v s) (key : Str) (fuel : Nat) :
    Post drives (readCalls key fuel) (fun r v' s' => Told r.2 v' s') v s := by
  induction fuel generalizing v s with
  | zero => exact Post.stop
  | succ fuel ih =>
    have hend : ∀ (index : Nat) (answer : StatusCode × Option (KineticRecord Str)) v s, Lively v s →
        Post drives (if answer.1 = .REMOTE_CLUSTER_VERSION_MISMATCH then do
            if ← update (getPartitionUpdate fuel) then readCalls key fuel
            else return (answer, [])
          else if answer.1 ≠ .OK ∧ answer.1 ≠ .REMOTE_NOT_FOUND ∧ answer.1 ≠ .REMOTE_NOT_AUTHORIZED then do
            let (ok, calls) ← update (disableDriveCalls index fuel)
            if ok then
              let (result, calls') ← readCalls key fuel
              return (result, calls ++ calls')
            else return (answer, calls)
          else return (answer, [])) (fun r v' s' => Told r.2 v' s') v s := by
      intro index answer v s h
      refine Post.ite (fun _ => ?_) fun _ => Post.ite (fun _ => ?_) fun _ => Post.pure (told_nil.mpr h)
      · refine (preserves_adopt fuel v s h).then fun b v1 s1 h1 => ?_
        exact Post.ite (fun _ => ih h1) fun _ => Post.pure (told_nil.mpr h1)
      · refine (Post.embed (post_disableDriveCalls h.1 h.2 index fuel)).then fun r v1 s1 h1 => ?_
        refine Post.ite (fun _ => ?_) fun _ => Post.pure h1
        by_cases hlive : Live v1.partition
        · refine (ih ⟨h1.1, hlive⟩).then fun r' v2 s2 h2 => Post.pure (h1.append hlive h2)
        · exact Post.bind (post_readCalls_dead hlive key fuel _)
    unfold readCalls
    refine Post.get_bind ((post_pick _ v s).then fun (index : Nat) v1 s1 h1 => ?_)
    obtain ⟨rfl, rfl, -⟩ := h1
    dsimp only
    cases v1.partition.drives[index]? with
    | none => exact Post.stop
    | some d =>
      refine (Post.embed (post_driveToConnection v1.partition d.id)).then fun con v2 s2 h2 => ?_
      obtain ⟨hv2, rfl⟩ := h2
      have h2 : Lively v2 s2 := h.same hv2.1 rfl
      refine Post.ite (fun _ => ?_) fun _ =>
        hend index (.REMOTE_REMOTE_CONNECTION_ERROR, none) v2 s2 h2
      have hccv : Preserves drives Lively (update (clientClusterVersion d.id)) :=
        Preserves.embed (Preserves.bind Preserves.get fun _ => Preserves.pure _)
      refine (hccv v2 s2 h2).then fun ccv v3 s3 h3 => ?_
      refine ((Idle.ask (Service.Within.refl drives) _).lively v3 s3 h3).then fun answer v4 s4 h4 => ?_
      exact hend index answer v4 s4 h4

/-- `synchronizeDrive` takes the drive back to YELLOW, which was not GREEN before. -/
theorem post_finishSynchronize_lively {index : Nat} (h : Lively v s)
    (hspares : (⟨v.partition, index⟩ : Failing).Spares) :
    Post drives (finishSynchronize index) (fun _ v' s' => Lively v' s') v s := by
  obtain ⟨i, hindex, hi⟩ := hspares.setStatus .GREEN
  have hend : ∀ p : Partition, p.drives = (v.partition.setStatus index .GREEN).drives →
      Post drives (do
        if ← update putPartitionUpdate then return true
        modify fun v' => { v' with partition := { v'.partition.setStatus index .YELLOW with
          clusterVersion := v.partition.clusterVersion } }
        return false) (fun _ v' s' => Lively v' s') { v with partition := p } s := by
    intro p hdrives
    have hgreen : Green p i := by
      unfold Green at hi ⊢
      rwa [hdrives]
    refine (Post.embed (post_publish h.1 fun _ => ⟨i, hgreen⟩)).then fun b v1 s1 h1 => ?_
    obtain ⟨hv1, hs1, -⟩ := h1
    have hgreen1 : Green v1.partition i := hv1.1 ▸ hgreen
    refine Post.ite (fun _ => Post.pure ⟨hs1, i, hgreen1⟩) fun _ => Post.modify_bind (Post.pure ⟨hs1, ?_⟩)
    have hspares1 : (⟨v1.partition, index⟩ : Failing).Spares := ⟨i, hindex, hgreen1⟩
    exact hspares1.live .YELLOW
  unfold finishSynchronize
  refine Post.get_bind (Post.modify_bind (hend _ ?_))
  dsimp only
  split
  · rfl
  · rfl

theorem preserves_synchronizeDrive_lively (assigned : Str → Bool) (index fuel : Nat) :
    Preserves drives Lively (synchronizeDrive assigned index fuel) := by
  intro v s h
  unfold synchronizeDrive
  refine Post.get_bind ?_
  dsimp only
  cases hd : v.partition.drives[index]? with
  | none => exact Post.stop
  | some d =>
    refine Post.ite (fun _ => Post.pure h) fun hyellow => ?_
    have hspares : (⟨v.partition, index⟩ : Failing).Spares := by
      refine h.2.spares hd ?_
      rw [not_not.mp hyellow]
      decide
    have hscanned : Post drives (scanned v.partition) (fun _ v' s' => v' = v ∧ s' = s) v s := by
      unfold scanned
      cases v.partition.logId with
      | some l => exact Post.get_bind (Post.pure ⟨rfl, rfl⟩)
      | none => exact (post_pick _ v s).then fun i v1 s1 h1 => Post.pure ⟨h1.1, h1.2.1⟩
    refine hscanned.then fun a v1 s1 h1 => ?_
    obtain ⟨rfl, rfl⟩ := h1
    cases a with
    | none => exact Post.stop
    | some a =>
      refine (Post.embed (post_driveToConnection a.1 a.2)).then fun con v2 s2 h2 => ?_
      obtain ⟨hv2, rfl⟩ := h2
      refine Post.ite (fun _ => Post.pure (h.same hv2.1 rfl)) fun _ => ?_
      refine (Post.embed (Post.get_bind (Post.pure ⟨hv2, rfl⟩) :
        Post drives.left (clientClusterVersion a.2) (fun _ v' s' => SameViews v1 v' ∧ s' = s2) v2 s2)).then
        fun ccv v3 s3 h3 => ?_
      obtain ⟨hv3, rfl⟩ := h3
      refine (Idle.repairPages assigned _ _ _ _ _ _ _ _ v3 s3).then fun b v4 s4 h4 => ?_
      have hv4 : v4.partition = v1.partition := (hv3.trans h4.1).1
      have h4 : Lively v4 s4 := h.same hv4 h4.2.1
      refine Post.ite (fun _ => post_finishSynchronize_lively h4 ?_) fun _ => Post.pure h4
      rwa [hv4]

theorem preserves_selfCheck_lively (fuel : Nat) : Preserves drives Lively (selfCheck fuel) := by
  have hred : ∀ n i, Preserves drives Lively (enableRed fuel n i) := by
    intro n
    induction n with
    | zero => exact fun i => Preserves.stop
    | succ n ih =>
      intro i v s h
      unfold enableRed
      refine Post.get_bind ?_
      cases v.partition.drives[i]? with
      | none => exact Post.pure h
      | some d =>
        refine Post.ite (fun _ => ?_) fun _ => ih (i + 1) v s h
        refine (Post.embed (preserves_enableDrive_lively i fuel v s h)).then fun _ v1 s1 h1 => ?_
        exact ih (i + 1) v1 s1 h1
  have htest : Preserves drives Lively (update testPartition) :=
    Preserves.embed fun v s h => post_testPartition.mono fun _ v' s' h' => h.same h'.1.1 (by rw [h'.2])
  unfold selfCheck
  refine Preserves.bind (hred fuel 0) fun _ => Preserves.bind htest fun b => ?_
  refine Preserves.ite (Preserves.pure _) (Preserves.bind (preserves_adopt fuel) fun b => ?_)
  refine Preserves.ite (Preserves.bind htest fun b => ?_) (Preserves.pure _)
  exact Preserves.ite (Preserves.pure _) (Preserves.pure _)

/-- An operation that begins with a GREEN drive ends with one if and only if all its calls leave one. -/
theorem post_operationCalls (h : Lively v s) (assigned : Str → Bool) (fuel : Nat) (op : Operation) :
    Post drives (op.calls assigned fuel) (fun r v' s' => Told r.2 v' s') v s := by
  cases op with
  | put key expected mode record =>
    exact (post_resolvedCalls h key _ _ fuel).then fun r v1 s1 h1 => Post.pure h1
  | delete key expected mode =>
    exact (post_resolvedCalls h key _ _ fuel).then fun r v1 s1 h1 => Post.pure h1
  | get key => exact (post_readCalls h key fuel).then fun r v1 s1 h1 => Post.pure h1
  | selfCheck =>
    exact (preserves_selfCheck_lively fuel v s h).then fun _ v1 s1 h1 => Post.pure (told_nil.mpr h1)
  | synchronizeDrive index =>
    refine (preserves_synchronizeDrive_lively assigned index fuel v s h).then fun _ v1 s1 h1 => ?_
    exact Post.pure (told_nil.mpr h1)

end Operations

/-! ## Runs -/

/-- What an operation leaves, with its calls of `disableDrive`. -/
structure Ended where
  calls : List Failing
  view : View
  drives : Drives

/-- The operations of a client on one partition. Between them other clients and the client's operations
    on other partitions may do anything that leaves this partition alone and publishes no partition
    without a GREEN drive. -/
inductive Session (assigned : Str → Bool) : View → Drives → List Ended → Prop
  | nil (v : View) (s : Drives) : Session assigned v s []
  | operation {v v' : View} {s s' : Drives} {es : List Ended} {calls : List Failing} (op : Operation)
      (fuel : Nat) (hrun : Returns drives ((op.calls assigned fuel).run v) s (((), calls), v') s')
      (hrest : Session assigned v' s' es) : Session assigned v s (⟨calls, v', s'⟩ :: es)
  | others {v v' : View} {s s' : Drives} {es : List Ended} (hpartition : v'.partition = v.partition)
      (hstored : StoredLive s → StoredLive s') (hrest : Session assigned v' s' es) : Session assigned v s es

/-- In every run the searches for a GREEN drive end after every operation if and only if each call of
    `disableDrive` leaves another GREEN drive. -/
theorem green_remains_iff {assigned : Str → Bool} {v : View} {s : Drives} {es : List Ended}
    (hlive : Live v.partition) (hstored : ∀ p, Stored s p → Live p) (h : Session assigned v s es) :
    (∀ e ∈ es, Live e.view.partition ∧ Searches e.view.partition) ↔ ∀ e ∈ es, ∀ c ∈ e.calls, c.Spares := by
  simp only [searches_iff, and_self]
  induction h with
  | nil v s => simp
  | @operation v v' s s' es calls op fuel hrun hrest ih =>
    obtain ⟨hstored', hiff⟩ := post_operationCalls ⟨hstored, hlive⟩ _ fuel op _ _ _ hrun
    rw [List.forall_mem_cons, List.forall_mem_cons]
    by_cases hlive' : Live v'.partition
    · exact and_congr hiff (ih hlive' hstored')
    · exact iff_of_false (fun h => hlive' h.1) fun h => hlive' (hiff.mpr h.1)
  | others hpartition hstored' hrest ih => exact ih (hpartition ▸ hlive) (hstored' hstored)

/-- Drive `c` does not answer the `Put`. -/
theorem green_remains_iff_put : ∃ e : Ended, e.calls = [⟨threeGreen, 2⟩] ∧
    ((∀ x ∈ [e], Live x.view.partition ∧ Searches x.view.partition) ↔ ∀ x ∈ [e], ∀ c ∈ x.calls, c.Spares) ∧
    Live e.view.partition := by
  have hrun : (((Operation.put (lit "/x") [] .REQUIRE_SAME_VERSION ⟨lit "x", lit "1"⟩).calls
      (fun _ => true) 3).run threeGreenView).exec drives noRecords ([.reach false, .reach false, .unreachable] ++
        List.replicate 20 (.reach false)) |>.any (fun r => r.1.1.2 = [⟨threeGreen, 2⟩]) := by decide +kernel
  obtain ⟨⟨⟨⟨u, calls⟩, v⟩, s⟩, hexec, hr⟩ := (Option.any_eq_true _ _).mp hrun
  obtain rfl : calls = [⟨threeGreen, 2⟩] := of_decide_eq_true hr
  have hstored : StoredLive noRecords := by
    rintro p ⟨d, n, r, hr, -⟩
    cases hr
  have hsession : Session (fun _ => true) threeGreenView noRecords [⟨[⟨threeGreen, 2⟩], v, s⟩] :=
    Session.operation _ 3 (returns_of_exec hexec) (Session.nil _ _)
  have hiff := green_remains_iff ⟨0, _, rfl, rfl⟩ hstored hsession
  have hspares : (⟨threeGreen, 2⟩ : Failing).Spares := ⟨0, by decide, _, rfl, rfl⟩
  refine ⟨⟨_, v, s⟩, rfl, hiff, (hiff.mpr ?_ _ (List.mem_singleton_self _)).1⟩
  simpa using hspares

/-- A partition of one drive. -/
def singleDrive : View := ⟨⟨0, some 1, [⟨.GREEN, lit "a", 0⟩], none⟩, ⟨0, none, [], none⟩, fun _ => some 0⟩

/-- The drive does not answer a `Get`; after that it stays RED, and the next `Get` searches for ever. -/
theorem last_green_fails : ¬ ∀ (assigned : Str → Bool) (v v' : View) (s s' : Drives), Live v.partition →
    (∀ p, Stored s p → Live p) → Run drives assigned (fun _ => True) (v, s) (v', s') →
    Live v'.partition ∧ Searches v'.partition := by
  intro h
  have hrun : (((Operation.get (lit "/x")).run (fun _ => true) 3).run singleDrive).exec drives noRecords
        [.index 0, .unreachable] |>.any (fun r => greenIndices r.1.2.partition = []) := by decide +kernel
  obtain ⟨⟨⟨u, v⟩, s⟩, hexec, hr⟩ := (Option.any_eq_true _ _).mp hrun
  have hstored : StoredLive noRecords := by
    rintro p ⟨d, n, r, hr, -⟩
    cases hr
  have hstep : Step drives (fun _ => true) (fun _ => True) (singleDrive, noRecords) (v, s) :=
    ⟨_, 3, trivial, returns_of_exec hexec⟩
  have hlive : Live singleDrive.partition := ⟨0, _, rfl, rfl⟩
  exact (h _ _ _ _ _ hlive hstored (Relation.ReflTransGen.single hstep)).2.2 (of_decide_eq_true hr)

end HFlat.Replication
