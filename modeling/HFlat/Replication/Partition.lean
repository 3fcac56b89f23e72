/-
  Partition updates (`distributed_kinetic_namespace.cc`): `testPartition`, `getPartitionUpdate`,
  `putPartitionUpdate`, `disableDrive` and `enableDrive`, as programs over the drives.

  A client changes its view of the partition in memory and publishes it by creating the key
  `clusterversion_N` on every drive the view does not mark RED. Every call of a program is one
  request to one drive; whether the drive can be reached is a choice of the service, made anew for
  every request. The requests `began` and `returned` go to no drive: they record the calls of
  `putPartitionUpdate` and those that return true.
-/
import HFlat.Lib.Prog
import HFlat.Replication.Drive

namespace HFlat.Replication

open HFlat.Lib

/-! ## Drives -/

/-- A drive: its cluster version and the partition stored under each key `clusterversion_N`. -/
structure Drive where
  clusterVersion : Nat
  views : Nat → Option (KineticRecord Partition)

/-- All drives, the calls of `putPartitionUpdate` and those that have returned true. -/
structure Cluster where
  drive : DriveId → Drive
  began : List Partition
  returned : List Partition

/-- Requests. `ccv` is the client cluster version of the connection. -/
inductive Req where
  | connect (d : DriveId)
  | noOp (d : DriveId) (ccv : Nat)
  | get (d : DriveId) (ccv : Nat) (version : Nat)
  | put (d : DriveId) (ccv : Nat) (version : Nat) (record : KineticRecord Partition)
  | setClusterVersion (d : DriveId) (ccv : Nat) (version : Nat)
  | pick (candidates : List Nat)
  | began (p : Partition)
  | returned (p : Partition)

/-- What the service answers to a request. -/
def Res : Req → Type
  | .connect _ => Bool
  | .noOp _ _ => KineticStatus
  | .get _ _ _ => KineticStatus × Option (KineticRecord Partition)
  | .put _ _ _ _ => KineticStatus
  | .setClusterVersion _ _ _ => KineticStatus
  | .pick _ => Nat
  | .began _ => Unit
  | .returned _ => Unit

/-- What happens to a request: the drive answers (and an `OK` may carry its cluster version or
    `0`), cannot be reached, or carries the request out while the answer is lost. -/
inductive Choice where
  | reach (told : Bool)
  | unreachable
  | lost
  | index (i : Nat)
  deriving DecidableEq, Repr

/-- The status of a drive that is not reached. -/
def connectionError : KineticStatus := ⟨.REMOTE_REMOTE_CONNECTION_ERROR, 0⟩

/-- The status of a request whose cluster version is checked first. -/
def Drive.answer (v : Drive) (ccv : Nat) (told : Bool) (code : StatusCode) : KineticStatus :=
  if ccv = v.clusterVersion then ⟨code, if told then v.clusterVersion else 0⟩
  else ⟨.REMOTE_CLUSTER_VERSION_MISMATCH, v.clusterVersion⟩

/-- `Put` of a cluster version key with expected version `""`. -/
def Drive.put (v : Drive) (ccv version : Nat) (record : KineticRecord Partition) :
    StatusCode × Drive :=
  if ccv = v.clusterVersion then
    let (code, cur) := putSame (v.views version) [] record
    (code, { v with views := Function.update v.views version cur })
  else (.REMOTE_CLUSTER_VERSION_MISMATCH, v)

/-- A drive takes a new cluster version from a client that knows the present one. -/
def Drive.setClusterVersion (v : Drive) (ccv version : Nat) : Drive :=
  if ccv = v.clusterVersion then { v with clusterVersion := version } else v

/-- The cluster with another state of a drive. -/
def Cluster.setDrive (s : Cluster) (d : DriveId) (v : Drive) : Cluster :=
  { s with drive := Function.update s.drive d v }

/-- One access of a client. An `OK` carries the cluster version of the drive if `told`. -/
def serve (s : Cluster) : (r : Req) → Choice → Option (Res r × Cluster)
  | .connect _, .reach _ => some (true, s)
  | .connect _, .unreachable => some (false, s)
  | .noOp d ccv, .reach told => some ((s.drive d).answer ccv told .OK, s)
  | .noOp _ _, .unreachable => some (connectionError, s)
  | .get d ccv n, .reach told =>
      match (s.drive d).views n with
      | some r =>
          if ccv = (s.drive d).clusterVersion then
            some (((s.drive d).answer ccv told .OK, some r), s)
          else some (((s.drive d).answer ccv told .OK, none), s)
      | none => some (((s.drive d).answer ccv told .REMOTE_NOT_FOUND, none), s)
  | .get _ _ _, .unreachable => some ((connectionError, none), s)
  | .put d ccv n r, .reach told =>
      let (code, v) := (s.drive d).put ccv n r
      some ((s.drive d).answer ccv told code, s.setDrive d v)
  | .put d ccv n r, .lost => some (connectionError, s.setDrive d ((s.drive d).put ccv n r).2)
  | .put _ _ _ _, .unreachable => some (connectionError, s)
  | .setClusterVersion d ccv n, .reach told =>
      some ((s.drive d).answer ccv told .OK, s.setDrive d ((s.drive d).setClusterVersion ccv n))
  | .setClusterVersion d ccv n, .lost =>
      some (connectionError, s.setDrive d ((s.drive d).setClusterVersion ccv n))
  | .setClusterVersion _ _ _, .unreachable => some (connectionError, s)
  | .pick candidates, .index i => candidates[i]?.map fun x => (x, s)
  | .began p, _ => some ((), { s with began := p :: s.began })
  | .returned p, _ => some ((), { s with returned := p :: s.returned })
  | _, _ => none

/-- The drives that all clients access. -/
def service : Service Req Res Choice Cluster := ⟨serve⟩

/-! ## The client -/

/-- What a client holds in memory: the partition, the log partition, and the client cluster
    version of every open connection. -/
structure View where
  partition : Partition
  logPartition : Partition
  connectionMap : DriveId → Option Nat

/-- Computations of one client: its view of the partition, and requests to the drives. -/
abbrev Action := StateT View (Prog Req Res)

/-- One request. -/
def request (r : Req) : Action (Res r) := StateT.lift (Prog.perform r)

/-- Out of range accesses and null pointers end the client. -/
def crash {α : Type} : Action α := StateT.lift Prog.stop

/-- The client takes over a partition. -/
def setPartition (p : Partition) : Action Unit := modify fun v => { v with partition := p }

/-- `SetClientClusterVersion` on the connection of a drive. -/
def setClientClusterVersion (d : DriveId) (n : Nat) : Action Unit :=
  modify fun v => { v with connectionMap := Function.update v.connectionMap d (some n) }

/-- The cluster version that the connection to a drive sends along. -/
def clientClusterVersion (d : DriveId) : Action Nat := do
  let v ← get
  return (v.connectionMap d).getD 0

/-- `driveToConnection`: whether there is a connection, after opening one if needed. A new
    connection starts with the cluster version of the partition (which is also the default when
    that is `0`). -/
def driveToConnection (p : Partition) (d : DriveId) : Action Bool := do
  let v ← get
  if (v.connectionMap d).isSome then return true
  let connected : Bool ← request (.connect d)
  if connected then
    setClientClusterVersion d p.clusterVersion
    return true
  return false

/-- `testConnection`: a connection and a `NoOp` with the cluster version. -/
def testConnection (p : Partition) (d : DriveId) : Action Bool := do
  let con ← driveToConnection p d
  if !con then return false
  let ccv ← clientClusterVersion d
  let status : KineticStatus ← request (.noOp d ccv)
  return status.ok

/-- The loop of `testPartition`: the numbers of GREEN and YELLOW drives, `none` if a connection
    fails. -/
def testDrives (p : Partition) : List KineticDrive → Nat → Nat → Action (Option (Nat × Nat))
  | [], green, yellow => return some (green, yellow)
  | d :: ds, green, yellow => do
      if d.status = .RED then
        testDrives p ds green yellow
      else
        let green := if d.status = .GREEN then green + 1 else green
        let yellow := if d.status = .YELLOW then yellow + 1 else yellow
        let ok ← testConnection p d.id
        if ok then testDrives p ds green yellow else return none

/-- The connection test of the log drive, if the partition has one. -/
def testLog (p : Partition) : Action Bool := do
  match p.logId with
  | none => return true
  | some l =>
      let v ← get
      match v.logPartition.drives[l]? with
      | none => crash
      | some d => testConnection v.logPartition d.id

/-- `testPartition`: the drives, and the log drive. -/
def testPartition : Action Bool := do
  let p := (← get).partition
  if p.partitionId = none then return true
  match ← testDrives p p.drives 0 0 with
  | none => return false
  | some (green, yellow) =>
      if !(← testLog p) then return false
      if green = 0 then return false
      if green + yellow = 1 ∧ p.drives.length > 1 ∧ p.logId = none then return false
      return true

/-- The inner loop of `getPartitionUpdate`: follow cluster version mismatches. -/
def followVersion (d : DriveId) : Nat → KineticStatus → Option (KineticRecord Partition) →
    Action (KineticStatus × Option (KineticRecord Partition))
  | 0, _, _ => crash
  | fuel + 1, status, record => do
      if status.statusCode = .REMOTE_CLUSTER_VERSION_MISMATCH then
        let cversion := status.expectedClusterVersion
        setClientClusterVersion d cversion
        let answer : KineticStatus × Option (KineticRecord Partition) ← request (.get d cversion cversion)
        followVersion d fuel answer.1 (answer.2 <|> record)
      else return (status, record)

/-- The loop of `getPartitionUpdate`. -/
def updateFrom (fuel : Nat) (p : Partition) : List KineticDrive → Action Bool
  | [] => return false
  | d :: ds => do
      if d.status = .RED then
        updateFrom fuel p ds
      else
        let con ← driveToConnection p d.id
        if !con then
          updateFrom fuel p ds
        else
          let ccv ← clientClusterVersion d.id
          let status : KineticStatus ← request (.noOp d.id ccv)
          let (status, record) ← followVersion d.id fuel status none
          if status.expectedClusterVersion ≠ 0 ∧ status.ok then
            match record with
            | none => crash
            | some r =>
                setPartition r.value
                return true
          else updateFrom fuel p ds

/-- `getPartitionUpdate`: a newer partition from one of the drives. -/
def getPartitionUpdate (fuel : Nat) : Action Bool := do
  let p := (← get).partition
  if p.partitionId = none then return false
  updateFrom fuel p p.drives

/-- The loop of `putPartitionUpdate`. -/
def putDrives (p : Partition) : List KineticDrive → Action Bool
  | [] => return true
  | d :: ds => do
      if d.status = .RED then
        putDrives p ds
      else
        let con ← driveToConnection p d.id
        if !con then return false
        let ccv ← clientClusterVersion d.id
        let status : KineticStatus ← request (.put d.id ccv p.clusterVersion ⟨p, lit "yes"⟩)
        if status.ok then
          let _ ← request (.setClusterVersion d.id ccv p.clusterVersion)
          setClientClusterVersion d.id p.clusterVersion
          putDrives p ds
        else return false

/-- `putPartitionUpdate`: the partition goes to every drive that is not RED. -/
def putPartitionUpdate : Action Bool := do
  let p := (← get).partition
  if p.partitionId = none then return true
  let _ ← request (.began p)
  let ok ← putDrives p p.drives
  if ok then
    let _ ← request (.returned p)
    return true
  return false

/-- `mutable_drives(index)->set_status`. -/
def Partition.setStatus (p : Partition) (index : Nat) (st : KineticDrive.Status) : Partition :=
  { p with drives := p.drives.modify index fun d => { d with status := st } }

/-- Log drives that are not RED. -/
def usableLogs (log : Partition) : List Nat :=
  (List.range log.drives.length).filter fun i =>
    (log.drives[i]?.map KineticDrive.status).any (· ≠ .RED)

/-- The log drive rule of `disableDrive`. -/
def addLog (p log : Partition) : Action Partition := do
  if p.logId = none ∧ p.drives.all (·.status = .GREEN) ∧ usableLogs log ≠ [] then
    let lid : Nat ← request (.pick (usableLogs log))
    return { p with logId := some lid }
  return p

/-- `disableDrive`, with a bound on its retries. -/
def disableDrive (index : Nat) : Nat → Action Bool
  | 0 => crash
  | fuel + 1 => do
      let v ← get
      match v.partition.drives[index]? with
      | none => crash
      | some d =>
          if d.status = .RED then return true
          let p ← addLog v.partition v.logPartition
          setPartition { p.setStatus index .RED with clusterVersion := p.clusterVersion + 1 }
          if ← testPartition then
            if ← putPartitionUpdate then
              modify fun v => { v with connectionMap := Function.update v.connectionMap d.id none }
              return true
            if ← getPartitionUpdate fuel then
              return ← disableDrive index fuel
          return false

/-- The loop of `enableDrive` that finds the cluster version of the drive. -/
def probeVersion (d : DriveId) : Nat → Nat → Action KineticStatus
  | 0, _ => crash
  | fuel + 1, cversion => do
      setClientClusterVersion d cversion
      let status : KineticStatus ← request (.noOp d cversion)
      if status.statusCode = .REMOTE_CLUSTER_VERSION_MISMATCH then
        probeVersion d fuel (cversion + 1)
      else return status

/-- `enableDrive`, with a bound on its retries. The background synchronization it starts is a
    later call of its own. -/
def enableDrive (index : Nat) : Nat → Action Bool
  | 0 => crash
  | fuel + 1 => do
      let p := (← get).partition
      match p.drives[index]? with
      | none => crash
      | some d =>
          if d.status ≠ .RED then return true
          let con ← driveToConnection p d.id
          if !con then return false
          let status ← probeVersion d.id fuel 0
          if !status.ok then return false
          setPartition { p.setStatus index .YELLOW with clusterVersion := p.clusterVersion + 1 }
          if ← testPartition then
            if ← putPartitionUpdate then return true
            if ← getPartitionUpdate fuel then return ← enableDrive index fuel
          let p := (← get).partition
          setPartition { p.setStatus index .RED with clusterVersion := p.clusterVersion - 1 }
          return false

/-- The calls a client makes. Besides `disableDrive` and `enableDrive`, `writeOperation` and
    `synchronizeDrive` publish a view they have changed themselves. -/
inductive Call where
  | disable (index : Nat)
  | enable (index : Nat)
  | put (p : Partition)

/-- The calls of one client, one after the other. -/
def session (fuel : Nat) : List Call → Action Unit
  | [] => return ()
  | .disable index :: calls => do
      let _ ← disableDrive index fuel
      session fuel calls
  | .enable index :: calls => do
      let _ ← enableDrive index fuel
      session fuel calls
  | .put p :: calls => do
      setPartition p
      let _ ← putPartitionUpdate
      session fuel calls

/-! ## Cluster version keys are created once -/

/-- Every drive a published view counts on holds that view. -/
def Published (s : Cluster) (p : Partition) : Prop :=
  ∀ d ∈ p.drives, d.status ≠ .RED → ((s.drive d.id).views p.clusterVersion).map (·.value) = some p

/-- What every run keeps: a partition that `putPartitionUpdate` returned is published, and every view
    has a version. -/
structure ClusterInv (s : Cluster) : Prop where
  published : ∀ p ∈ s.returned, Published s p
  began : ∀ p ∈ s.returned, p ∈ s.began
  versioned : ∀ d n r, (s.drive d).views n = some r → r.version ≠ []

/-- Stored views stay, and calls are not forgotten. -/
structure Grows (s s' : Cluster) : Prop where
  views : ∀ d n r, (s.drive d).views n = some r → (s'.drive d).views n = some r
  began : ∀ p ∈ s.began, p ∈ s'.began

theorem Grows.published {s s' : Cluster} (h : Grows s s') {p : Partition} (hp : Published s p) :
    Published s' p := by
  intro d hd hr
  obtain ⟨r, hv, he⟩ := Option.map_eq_some_iff.mp (hp d hd hr)
  rw [h.views d.id _ r hv, ← he]
  rfl

/-- A step that changes one drive without removing a view. -/
theorem setDrive_inv {s : Cluster} (hi : ClusterInv s) (d : DriveId) (v : Drive)
    (hv : ∀ n r, (s.drive d).views n = some r → v.views n = some r)
    (hver : ∀ n r, v.views n = some r → r.version ≠ []) :
    ClusterInv (s.setDrive d v) ∧ Grows s (s.setDrive d v) := by
  have hdrive : ∀ x, (s.setDrive d v).drive x = if x = d then v else s.drive x := by
    intro x
    show Function.update s.drive d v x = _
    rw [Function.update_apply]
  have hg : Grows s (s.setDrive d v) := by
    refine ⟨fun x n r hx => ?_, fun _ hp => hp⟩
    rw [hdrive]
    split
    · subst x; exact hv n r hx
    · exact hx
  refine ⟨⟨fun p hp => hg.published (hi.published p hp), hi.began, fun x n r hx => ?_⟩, hg⟩
  rw [hdrive] at hx
  split at hx
  · exact hver n r hx
  · exact hi.versioned x n r hx

theorem Drive.put_views (v : Drive) (ccv n : Nat) (new : KineticRecord Partition)
    (hv : ∀ n r, v.views n = some r → r.version ≠ []) :
    (∀ m r, v.views m = some r → (v.put ccv n new).2.views m = some r) ∧
      ∀ m r, (v.put ccv n new).2.views m = some r → v.views m = some r ∨ r = new := by
  unfold Drive.put putSame
  split
  · by_cases hver : versionOf (v.views n) = []
    · have hnone : v.views n = none := by
        cases hn : v.views n with
        | none => rfl
        | some r => exact absurd (by simpa [versionOf, hn] using hver) (hv n r hn)
      simp only [hver, if_true]
      refine ⟨fun m r hm => ?_, fun m r hm => ?_⟩
      · rw [Function.update_of_ne]
        · exact hm
        · rintro rfl
          rw [hnone] at hm
          exact absurd hm (by simp)
      · rw [Function.update_apply] at hm
        split at hm
        · exact Or.inr (Option.some.inj hm).symm
        · exact Or.inl hm
    · simp only [hver, if_false, Function.update_eq_self]
      exact ⟨fun _ _ h => h, fun _ _ h => Or.inl h⟩
  · exact ⟨fun _ _ h => h, fun _ _ h => Or.inl h⟩

/-- A `Put` that succeeds has created the key. -/
theorem Drive.put_ok {v : Drive} {ccv n : Nat} {new : KineticRecord Partition}
    (h : (v.put ccv n new).1 = .OK) : (v.put ccv n new).2.views n = some new := by
  unfold Drive.put putSame at h ⊢
  by_cases h1 : ccv = v.clusterVersion
  · by_cases h2 : versionOf (v.views n) = []
    · simp [h1, h2]
    · simp [h1, h2] at h
  · simp [h1] at h

theorem Drive.answer_ok {v : Drive} {ccv : Nat} {told : Bool} {code : StatusCode}
    (h : (v.answer ccv told code).ok = true) : code = .OK := by
  unfold Drive.answer KineticStatus.ok at h
  split at h
  · simpa using h
  · simp at h

theorem put_inv {s : Cluster} (hi : ClusterInv s) (d : DriveId) (ccv n : Nat) (p : Partition) :
    ClusterInv (s.setDrive d ((s.drive d).put ccv n ⟨p, lit "yes"⟩).2) ∧
      Grows s (s.setDrive d ((s.drive d).put ccv n ⟨p, lit "yes"⟩).2) := by
  obtain ⟨h1, h2⟩ := (s.drive d).put_views ccv n ⟨p, lit "yes"⟩ fun n r h => hi.versioned d n r h
  refine setDrive_inv hi d _ h1 fun m r hm => ?_
  rcases h2 m r hm with h | rfl
  · exact hi.versioned d m r h
  · simp [lit]

/-! ## Every program of a client keeps the invariant -/

/-- Requests whose step needs nothing to be known: all but a `Put` of a foreign record and the
    record of a return. -/
def Plain : Req → Prop
  | .put _ _ _ r => ∃ p, r = ⟨p, lit "yes"⟩
  | .returned _ => False
  | _ => True

theorem grows_refl (s : Cluster) : Grows s s := ⟨fun _ _ _ h => h, fun _ h => h⟩

theorem serve_plain {s : Cluster} (hi : ClusterInv s) {r : Req} (hr : Plain r) {choice : Choice}
    {x : Res r} {s' : Cluster} (h : service.serve s r choice = some (x, s')) :
    ClusterInv s' ∧ Grows s s' := by
  change serve s r choice = some (x, s') at h
  have hsame : s = s' → ClusterInv s' ∧ Grows s s' := by
    rintro rfl
    exact ⟨hi, grows_refl s⟩
  cases r with
  | connect d =>
    cases choice with
    | reach told => exact hsame (Prod.mk.inj (Option.some.inj h)).2
    | unreachable => exact hsame (Prod.mk.inj (Option.some.inj h)).2
    | lost => simp [serve] at h
    | index i => simp [serve] at h
  | noOp d ccv =>
    cases choice with
    | reach told => exact hsame (Prod.mk.inj (Option.some.inj h)).2
    | unreachable => exact hsame (Prod.mk.inj (Option.some.inj h)).2
    | lost => simp [serve] at h
    | index i => simp [serve] at h
  | get d ccv n =>
    cases choice with
    | reach told =>
      simp only [serve] at h
      split at h
      · split_ifs at h
        · exact hsame (Prod.mk.inj (Option.some.inj h)).2
        · exact hsame (Prod.mk.inj (Option.some.inj h)).2
      · exact hsame (Prod.mk.inj (Option.some.inj h)).2
    | unreachable => exact hsame (Prod.mk.inj (Option.some.inj h)).2
    | lost => simp [serve] at h
    | index i => simp [serve] at h
  | put d ccv n r =>
    obtain ⟨p, rfl⟩ := hr
    cases choice with
    | reach told =>
      obtain rfl := (Prod.mk.inj (Option.some.inj h)).2
      exact put_inv hi d ccv n p
    | unreachable => exact hsame (Prod.mk.inj (Option.some.inj h)).2
    | lost =>
      obtain rfl := (Prod.mk.inj (Option.some.inj h)).2
      exact put_inv hi d ccv n p
    | index i => simp [serve] at h
  | setClusterVersion d ccv n =>
    have hviews : ((s.drive d).setClusterVersion ccv n).views = (s.drive d).views := by
      unfold Drive.setClusterVersion
      split <;> rfl
    have hset := setDrive_inv hi d ((s.drive d).setClusterVersion ccv n)
      (fun m r hm => by rw [hviews]; exact hm)
      (fun m r hm => hi.versioned d m r (by rw [hviews] at hm; exact hm))
    cases choice with
    | reach told =>
      obtain rfl := (Prod.mk.inj (Option.some.inj h)).2
      exact hset
    | unreachable => exact hsame (Prod.mk.inj (Option.some.inj h)).2
    | lost =>
      obtain rfl := (Prod.mk.inj (Option.some.inj h)).2
      exact hset
    | index i => simp [serve] at h
  | pick candidates =>
    cases choice with
    | index i =>
      obtain ⟨y, -, hy⟩ := Option.map_eq_some_iff.mp h
      exact hsame (Prod.mk.inj hy).2
    | reach told => simp [serve] at h
    | unreachable => simp [serve] at h
    | lost => simp [serve] at h
  | began p =>
    obtain rfl : { s with began := p :: s.began } = s' := by
      cases choice <;> exact (Prod.mk.inj (Option.some.inj h)).2
    exact ⟨⟨hi.published, fun q hq => List.mem_cons_of_mem p (hi.began q hq), hi.versioned⟩,
      fun _ _ _ h => h, fun q hq => List.mem_cons_of_mem p hq⟩
  | returned p => exact absurd hr id

/-- The computation keeps `ClusterInv` and only adds to what has happened. -/
abbrev Keeps {α : Type} (m : Action α) : Prop := Tame service ClusterInv Grows Grows m

theorem keeps_request {r : Req} (hr : Plain r) : Keeps (request r) :=
  Tame.call r fun _ hi _ _ _ h => serve_plain hi hr h

theorem keeps_driveToConnection (p : Partition) (d : DriveId) : Keeps (driveToConnection p d) := by
  unfold driveToConnection
  refine Tame.bind Tame.get fun v => Tame.ite (Tame.pure _) ?_
  refine Tame.bind (keeps_request trivial) fun con => ?_
  refine Tame.ite ?_ (Tame.pure _)
  exact Tame.bind (Tame.modify _) fun _ => Tame.pure _

theorem keeps_clientClusterVersion (d : DriveId) : Keeps (clientClusterVersion d) :=
  Tame.bind Tame.get fun _ => Tame.pure _

theorem keeps_testConnection (p : Partition) (d : DriveId) : Keeps (testConnection p d) := by
  unfold testConnection
  refine Tame.bind (keeps_driveToConnection p d) fun con => Tame.ite (Tame.pure _) ?_
  refine Tame.bind (keeps_clientClusterVersion d) fun ccv => ?_
  exact Tame.bind (keeps_request trivial) fun _ => Tame.pure _

theorem keeps_testDrives (p : Partition) (ds : List KineticDrive) (green yellow : Nat) :
    Keeps (testDrives p ds green yellow) := by
  induction ds generalizing green yellow with
  | nil => exact Tame.pure _
  | cons d ds ih =>
    unfold testDrives
    refine Tame.ite (ih _ _) ?_
    exact Tame.bind (keeps_testConnection p d.id) fun _ => Tame.ite (ih _ _) (Tame.pure _)

theorem keeps_testLog (p : Partition) : Keeps (testLog p) := by
  unfold testLog
  split
  · exact Tame.pure _
  · refine Tame.bind Tame.get fun v => ?_
    split
    · exact Tame.stop
    · exact keeps_testConnection _ _

theorem keeps_testPartition : Keeps testPartition := by
  unfold testPartition
  refine Tame.bind Tame.get fun v => Tame.ite (Tame.pure _) ?_
  refine Tame.bind (keeps_testDrives _ _ 0 0) fun counts => ?_
  split
  · exact Tame.pure _
  · refine Tame.bind (keeps_testLog _) fun ok => Tame.ite (Tame.pure _) (Tame.ite (Tame.pure _) ?_)
    exact Tame.ite (Tame.pure _) (Tame.pure _)

theorem keeps_followVersion (d : DriveId) (fuel : Nat) (status : KineticStatus)
    (record : Option (KineticRecord Partition)) : Keeps (followVersion d fuel status record) := by
  induction fuel generalizing status record with
  | zero => exact Tame.stop
  | succ fuel ih =>
    unfold followVersion
    refine Tame.ite ?_ (Tame.pure _)
    refine Tame.bind (Tame.modify _) fun _ => ?_
    exact Tame.bind (keeps_request trivial) fun _ => ih _ _

theorem keeps_updateFrom (fuel : Nat) (p : Partition) (ds : List KineticDrive) :
    Keeps (updateFrom fuel p ds) := by
  induction ds with
  | nil => exact Tame.pure _
  | cons d ds ih =>
    unfold updateFrom
    refine Tame.ite ih (Tame.bind (keeps_driveToConnection p d.id) fun con => Tame.ite ih ?_)
    refine Tame.bind (keeps_clientClusterVersion d.id) fun ccv => ?_
    refine Tame.bind (keeps_request trivial) fun status => ?_
    refine Tame.bind (keeps_followVersion d.id fuel _ none) fun answer => Tame.ite ?_ ih
    split
    · exact Tame.stop
    · exact Tame.bind (Tame.modify _) fun _ => Tame.pure _

theorem keeps_getPartitionUpdate (fuel : Nat) : Keeps (getPartitionUpdate fuel) := by
  unfold getPartitionUpdate
  exact Tame.bind Tame.get fun v => Tame.ite (Tame.pure _) (keeps_updateFrom fuel _ _)

theorem keeps_addLog (p log : Partition) : Keeps (addLog p log) := by
  unfold addLog
  refine Tame.ite ?_ (Tame.pure _)
  exact Tame.bind (keeps_request trivial) fun _ => Tame.pure _

theorem keeps_probeVersion (d : DriveId) (fuel cversion : Nat) :
    Keeps (probeVersion d fuel cversion) := by
  induction fuel generalizing cversion with
  | zero => exact Tame.stop
  | succ fuel ih =>
    unfold probeVersion
    refine Tame.bind (Tame.modify _) fun _ => Tame.bind (keeps_request trivial) fun _ => ?_
    exact Tame.ite (ih _) (Tame.pure _)

/-- The drives of the list that a view counts on hold it. -/
def Holds (p : Partition) (ds : List KineticDrive) (s : Cluster) : Prop :=
  ∀ d ∈ ds, d.status ≠ .RED → ((s.drive d.id).views p.clusterVersion).map (·.value) = some p

theorem stable_holds (p : Partition) (ds : List KineticDrive) : Stable Grows (Holds p ds) := by
  intro s s' hg h d hd hr
  obtain ⟨r, hv, he⟩ := Option.map_eq_some_iff.mp (h d hd hr)
  rw [hg.views d.id _ r hv, ← he]
  rfl

/-- A `Put` that reports success has created the key. -/
theorem serve_put_ok {s s' : Cluster} {d : DriveId} {ccv n : Nat} {r : KineticRecord Partition}
    {choice : Choice} {status : KineticStatus}
    (h : serve s (.put d ccv n r) choice = some (status, s')) (hok : status.ok = true) :
    (s'.drive d).views n = some r := by
  cases choice with
  | reach told =>
    obtain ⟨hst, rfl⟩ := Prod.mk.inj (Option.some.inj h)
    rw [← hst] at hok
    rw [← Drive.put_ok (Drive.answer_ok hok)]
    exact congrArg (fun x : Drive => x.views n) (Function.update_self ..)
  | unreachable =>
    obtain ⟨hst, -⟩ := Prod.mk.inj (Option.some.inj h)
    rw [← hst] at hok
    exact absurd hok (by decide)
  | lost =>
    obtain ⟨hst, -⟩ := Prod.mk.inj (Option.some.inj h)
    rw [← hst] at hok
    exact absurd hok (by decide)
  | index i => simp [serve] at h

/-- When the loop of `putPartitionUpdate` succeeds, every drive it has passed holds the view. -/
theorem ensures_putDrives (p : Partition) (ds : List KineticDrive) (v : View) (s : Cluster)
    (hi : ClusterInv s) :
    Ensures service ClusterInv Grows Grows (putDrives p ds) (fun ok _ s => ok = true → Holds p ds s) v s := by
  have hfalse : ∀ {ds v s}, Ensures service ClusterInv Grows Grows (pure false : Action Bool)
      (fun ok _ s => ok = true → Holds p ds s) v s :=
    fun {_ _ _} _ _ _ h => absurd h (by simp)
  induction ds generalizing v s with
  | nil =>
    refine Ensures.pure (fun _ _ _ _ _ d hd => ?_) (fun _ d hd => ?_)
    · exact absurd hd (by simp)
    · exact absurd hd (by simp)
  | cons d ds ih =>
    unfold putDrives
    split
    · rename_i hred
      refine (ih v s hi).mono fun ok v s _ hx hok e he hr => ?_
      rcases List.mem_cons.mp he with rfl | he
      · exact absurd hred hr
      · exact hx hok e he hr
    · refine (keeps_driveToConnection p d.id).then hi stable_true stable_true trivial fun con v s hi _ => ?_
      split
      · exact hfalse
      refine (keeps_clientClusterVersion d.id).then hi stable_true stable_true trivial fun ccv v s hi _ => ?_
      refine Ensures.call_bind stable_true trivial fun s hi _ choice status s' hserve => ?_
      have hplain : Plain (.put d.id ccv p.clusterVersion ⟨p, lit "yes"⟩) := ⟨p, rfl⟩
      obtain ⟨h1, h2⟩ := serve_plain hi hplain hserve
      refine ⟨h1, h2, ?_⟩
      split
      · rename_i hok
        have hd : Holds p [d] s' := by
          intro e he _
          rw [List.mem_singleton.mp he, serve_put_ok hserve hok]
          rfl
        have hset : Plain (.setClusterVersion d.id ccv p.clusterVersion) := trivial
        refine (keeps_request hset).then h1 (stable_holds p [d]) (stable_holds p [d]) hd fun _ v s hi hd => ?_
        refine Ensures.modify_bind ?_
        refine (Safe.frame (stable_holds p [d]) (stable_holds p [d]) hd (ih _ s hi)).mono ?_
        intro x s _ hx hok e he hr
        rcases List.mem_cons.mp he with rfl | he
        · exact hx.1 e (List.mem_singleton.mpr rfl) hr
        · exact hx.2 hok e he hr
      · exact hfalse

theorem keeps_putPartitionUpdate : Keeps putPartitionUpdate := by
  intro v s hi
  unfold putPartitionUpdate
  refine Ensures.get_bind ?_
  dsimp only
  split
  · exact Tame.pure _ v s hi
  · -- the call is recorded before the loop, the return after it
    set p := v.partition
    have hbegan : Stable Grows fun s : Cluster => p ∈ s.began := fun _ _ hg h => hg.began p h
    refine Ensures.call_bind stable_true trivial fun s hi _ choice _ s' hserve => ?_
    obtain ⟨h1, h2⟩ := serve_plain hi (show Plain (.began p) from trivial) hserve
    obtain rfl : { s with began := p :: s.began } = s' := by
      cases choice <;> exact (Prod.mk.inj (Option.some.inj hserve)).2
    refine ⟨h1, h2, ?_⟩
    refine Ensures.bind h1 ((Safe.frame hbegan hbegan List.mem_cons_self
      (ensures_putDrives p p.drives v _ h1)).mono fun x s hi hx => ?_)
    dsimp only
    split
    · rename_i hok
      refine Ensures.call_bind (hbegan.and (stable_holds p p.drives)) ⟨hx.1, hx.2 hok⟩
        fun s hi hF choice _ s' hserve => ?_
      obtain rfl : { s with returned := p :: s.returned } = s' := by
        cases choice <;> exact (Prod.mk.inj (Option.some.inj hserve)).2
      refine ⟨⟨fun q hq => ?_, fun q hq => ?_, hi.versioned⟩, ⟨fun _ _ _ h => h, fun _ h => h⟩, ?_⟩
      · rcases List.mem_cons.mp hq with rfl | hq
        · exact hF.2
        · exact hi.published q hq
      · rcases List.mem_cons.mp hq with rfl | hq
        · exact hF.1
        · exact hi.began q hq
      · exact fun _ _ _ => trivial
    · exact fun _ _ _ => trivial

theorem keeps_disableDrive (index fuel : Nat) : Keeps (disableDrive index fuel) := by
  induction fuel with
  | zero => exact Tame.stop
  | succ fuel ih =>
    unfold disableDrive
    refine Tame.bind Tame.get fun v => ?_
    split
    · exact Tame.stop
    · refine Tame.ite (Tame.pure _) (Tame.bind (keeps_addLog _ _) fun p => ?_)
      refine Tame.bind (Tame.modify _) fun _ => ?_
      refine Tame.bind keeps_testPartition fun ok => Tame.ite ?_ (Tame.pure _)
      refine Tame.bind keeps_putPartitionUpdate fun ok => Tame.ite ?_ ?_
      · exact Tame.bind (Tame.modify _) fun _ => Tame.pure _
      · exact Tame.bind (keeps_getPartitionUpdate fuel) fun ok => Tame.ite ih (Tame.pure _)

theorem keeps_enableDrive (index fuel : Nat) : Keeps (enableDrive index fuel) := by
  induction fuel with
  | zero => exact Tame.stop
  | succ fuel ih =>
    have hundo : Keeps (do
        let p := (← get).partition
        setPartition { p.setStatus index .RED with clusterVersion := p.clusterVersion - 1 }
        return false : Action Bool) :=
      Tame.bind Tame.get fun _ => Tame.bind (Tame.modify _) fun _ => Tame.pure _
    unfold enableDrive
    refine Tame.bind Tame.get fun v => ?_
    dsimp only
    split
    · exact Tame.stop
    · refine Tame.ite (Tame.pure _) (Tame.bind (keeps_driveToConnection _ _) fun con => ?_)
      refine Tame.ite (Tame.pure _) (Tame.bind (keeps_probeVersion _ fuel 0) fun status => ?_)
      refine Tame.ite (Tame.pure _) (Tame.bind (Tame.modify _) fun _ => ?_)
      refine Tame.bind keeps_testPartition fun ok => Tame.ite ?_ hundo
      refine Tame.bind keeps_putPartitionUpdate fun ok => Tame.ite (Tame.pure _) ?_
      exact Tame.bind (keeps_getPartitionUpdate fuel) fun ok => Tame.ite ih hundo

theorem keeps_session (fuel : Nat) (calls : List Call) : Keeps (session fuel calls) := by
  induction calls with
  | nil => exact Tame.pure _
  | cons call calls ih =>
    cases call with
    | disable index => exact Tame.bind (keeps_disableDrive index fuel) fun _ => ih
    | enable index => exact Tame.bind (keeps_enableDrive index fuel) fun _ => ih
    | put p =>
      exact Tame.bind (Tame.modify _) fun _ => Tame.bind keeps_putPartitionUpdate fun _ => ih

/-! ## One view per cluster version -/

/-- The two views count on a common drive. -/
def ShareDrive (p p' : Partition) : Prop :=
  ∃ d ∈ p.drives, ∃ d' ∈ p'.drives, d.id = d'.id ∧ d.status ≠ .RED ∧ d'.status ≠ .RED

instance (p p' : Partition) : Decidable (ShareDrive p p') :=
  inferInstanceAs (Decidable (∃ d ∈ p.drives, ∃ d' ∈ p'.drives, _))

/-- Any two different views of the same partition and cluster version count on a common drive. -/
def Overlapping (ps : List Partition) : Prop :=
  ∀ p ∈ ps, ∀ p' ∈ ps, p.partitionId = p'.partitionId → p.clusterVersion = p'.clusterVersion →
    p = p' ∨ ShareDrive p p'

instance (ps : List Partition) : Decidable (Overlapping ps) :=
  inferInstanceAs (Decidable (∀ p ∈ ps, ∀ p' ∈ ps, _))

/-- Clients with any views, making any calls, on drives that hold no view yet. -/
def start {ι : Type} (versions : DriveId → Nat) (view : ι → View) (fuel : ι → Nat)
    (calls : ι → List Call) : Config Req Res Cluster ι (Unit × View) :=
  ⟨⟨fun d => ⟨versions d, fun _ => none⟩, [], []⟩, fun i => (session (fuel i) (calls i)).run (view i)⟩

theorem start_inv {ι : Type} (versions : DriveId → Nat) (view : ι → View) (fuel : ι → Nat)
    (calls : ι → List Call) : ClusterInv (start versions view fuel calls).shared where
  published _ hp := absurd hp (by simp [start])
  began _ hp := absurd hp (by simp [start])
  versioned _ _ _ h := absurd h (by simp [start])

theorem run_inv {ι : Type} [DecidableEq ι] {versions : DriveId → Nat} {view : ι → View}
    {fuel : ι → Nat} {calls : ι → List Call} {schedule : List (ι × Choice)}
    {c : Config Req Res Cluster ι (Unit × View)}
    (hrun : runFrom service (start versions view fuel calls) schedule = some c) :
    ClusterInv c.shared := by
  have hstart := start_inv versions view fuel calls
  have hsafe : ∀ i, Safe service ClusterInv Grows Grows (fun _ _ => True)
      ((start versions view fuel calls).prog i) (start versions view fuel calls).shared :=
    fun i => keeps_session (fuel i) (calls i) (view i) _ hstart
  exact (runFrom_safe hstart (by exact fun _ _ _ _ _ h => h) hsafe hrun).1

/-- Two calls of `putPartitionUpdate` that return true for the same partition and cluster version
    have written the same view, in every run in which the views put for one cluster version
    pairwise count on a common drive. -/
theorem one_view_per_clusterVersion {ι : Type} [DecidableEq ι] {versions : DriveId → Nat}
    {view : ι → View} {fuel : ι → Nat} {calls : ι → List Call} {schedule : List (ι × Choice)}
    {c : Config Req Res Cluster ι (Unit × View)}
    (hrun : runFrom service (start versions view fuel calls) schedule = some c)
    (hover : Overlapping c.shared.began) {p p' : Partition} (hp : p ∈ c.shared.returned)
    (hp' : p' ∈ c.shared.returned) (hid : p.partitionId = p'.partitionId)
    (hcv : p.clusterVersion = p'.clusterVersion) : p = p' := by
  have hi := run_inv hrun
  rcases hover p (hi.began p hp) p' (hi.began p' hp') hid hcv with h | ⟨d, hd, d', hd', he, hr, hr'⟩
  · exact h
  · have h1 := hi.published p hp d hd hr
    have h2 := hi.published p' hp' d' hd' hr'
    rw [← he, ← hcv, h1] at h2
    exact Option.some.inj h2

/-! ## Two clients -/

/-- A client of partition 0 that is connected to all drives at cluster version 0, as it is after
    `selfCheck`. -/
def connectedTo (hosts : List String) (logId : Option Nat) : View where
  partition := ⟨0, some 0, hosts.map fun host => ⟨.GREEN, lit host, 8123⟩, logId⟩
  logPartition := ⟨0, none, [⟨.GREEN, lit "log", 8123⟩], none⟩
  connectionMap := fun _ => some 0

/-- Drives `a`, `b` and `c`: one client fails `c` while the other fails `a`. Both views count on
    `b`, and one of them is published. -/
def concurrentFailures : Option (Config Req Res Cluster Bool (Unit × View)) :=
  runFrom service
    (start (fun _ => 0) (fun _ => connectedTo ["a", "b", "c"] none) (fun _ => 2)
      fun i => [.disable (if i then 2 else 0)])
    ((true, .index 0) :: List.replicate 3 (true, .reach false) ++
      (false, .index 0) :: List.replicate 3 (false, .reach false) ++
      List.replicate 6 (true, .reach false) ++ List.replicate 2 (false, .reach false))

theorem one_view_per_clusterVersion_three_drives :
    ∃ c, concurrentFailures = some c ∧ c.shared.began.length = 2 ∧ c.shared.returned.length = 1 ∧
      ∀ p ∈ c.shared.returned, ∀ p' ∈ c.shared.returned, p.partitionId = p'.partitionId →
        p.clusterVersion = p'.clusterVersion → p = p' := by
  obtain ⟨c, hc⟩ := Option.isSome_iff_exists.mp (show concurrentFailures.isSome = true by decide)
  have hover : concurrentFailures.all fun c => Overlapping c.shared.began := by decide
  have hlen : concurrentFailures.map (fun c => (c.shared.began.length, c.shared.returned.length)) =
      some (2, 1) := by decide
  rw [hc] at hover hlen
  obtain ⟨h1, h2⟩ := Prod.mk.inj (Option.some.inj hlen)
  refine ⟨c, hc, h1, h2, fun p hp p' hp' hid hcv => ?_⟩
  exact one_view_per_clusterVersion hc (by simpa using hover) hp hp' hid hcv

/-- Drives `a` and `b` with a log drive, and a network split: one client reaches `a` and the log
    drive, the other `b` and the log drive. -/
def networkSplit : Option (Config Req Res Cluster Bool (Unit × View)) :=
  runFrom service
    (start (fun _ => 0) (fun _ => connectedTo ["a", "b"] (some 0)) (fun _ => 2)
      fun i => [.disable (if i then 1 else 0)])
    (List.replicate 6 (true, .reach false) ++ List.replicate 6 (false, .reach false))

/-- Both clients of a network split publish their view for cluster version 1. -/
theorem not_one_view_network_split :
    ¬ ∀ (versions : DriveId → Nat) (view : Bool → View) (fuel : Bool → Nat)
      (calls : Bool → List Call) (schedule : List (Bool × Choice))
      (c : Config Req Res Cluster Bool (Unit × View)),
      runFrom service (start versions view fuel calls) schedule = some c →
      ∀ p ∈ c.shared.returned, ∀ p' ∈ c.shared.returned, p.partitionId = p'.partitionId →
        p.clusterVersion = p'.clusterVersion → p = p' := by
  intro h
  obtain ⟨c, hc⟩ := Option.isSome_iff_exists.mp (show networkSplit.isSome = true by decide)
  have hall := h _ _ _ _ _ c hc
  have hret : networkSplit.map (fun c => c.shared.returned) =
      some [⟨1, some 0, [⟨.RED, lit "a", 8123⟩, ⟨.GREEN, lit "b", 8123⟩], some 0⟩,
        ⟨1, some 0, [⟨.GREEN, lit "a", 8123⟩, ⟨.RED, lit "b", 8123⟩], some 0⟩] := by decide
  rw [hc, Option.map_some, Option.some.injEq] at hret
  rw [hret] at hall
  have := hall _ List.mem_cons_self _ (List.mem_cons_of_mem _ List.mem_cons_self) rfl rfl
  exact absurd this (by decide)

end HFlat.Replication
