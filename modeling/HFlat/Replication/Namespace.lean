/-
  One client of a partition (`distributed_kinetic_namespace.cc`): `Put`, `Delete`, `Get` with
  their handling of failed drives, the write log, `readRepair` and `synchronizeDrive`.

  The programs for partition updates (`Partition.lean`) run among the requests for records. Every
  request to a drive may be answered, get lost on its way, or be carried out while the answer gets
  lost. A drive refuses a request whose cluster version is not its own. The service notes the
  partition state that was agreed on last: the view of the last `putPartitionUpdate` that returned
  true or the last one that `getPartitionUpdate` has parsed. The requests that `writeOperation`
  makes in parallel go to different drives, so their order does not matter. Capacity estimates are
  left out. An unsuccessful `Get` yields no record; `readRepair` then keeps the one it was called with.
-/
import Mathlib.Data.List.Lex
import Mathlib.Data.Char
import HFlat.Lib.Sequential
import HFlat.Replication.Partition

namespace HFlat.Replication

open HFlat.Lib

/-! ## Records of a drive -/

/-- Insertion into a list of keys in byte order. -/
def insertKey (k : Str) : List Str → List Str
  | [] => [k]
  | x :: xs => if k < x then k :: x :: xs else if k = x then x :: xs else x :: insertKey k xs

theorem mem_insertKey {k k' : Str} {keys : List Str} :
    k' ∈ insertKey k keys ↔ k' = k ∨ k' ∈ keys := by
  induction keys with
  | nil => simp [insertKey]
  | cons x xs ih =>
    unfold insertKey
    split
    · simp
    · split
      · rename_i he
        subst he
        simp
      · simp only [List.mem_cons, ih]
        exact or_left_comm

theorem sorted_insertKey {k : Str} {keys : List Str} (h : keys.Pairwise (· < ·)) :
    (insertKey k keys).Pairwise (· < ·) := by
  induction keys with
  | nil => exact List.pairwise_singleton _ _
  | cons x xs ih =>
    obtain ⟨hx, hxs⟩ := List.pairwise_cons.mp h
    unfold insertKey
    split
    · rename_i hlt
      refine List.pairwise_cons.mpr ⟨fun y hy => ?_, h⟩
      rcases List.mem_cons.mp hy with rfl | hy
      · exact hlt
      · exact lt_trans hlt (hx y hy)
    · rename_i hnlt
      split
      · exact h
      · rename_i hne
        refine List.pairwise_cons.mpr ⟨fun y hy => ?_, ih hxs⟩
        rcases mem_insertKey.mp hy with rfl | hy
        · exact lt_of_le_of_ne (not_lt.mp hnlt) (Ne.symm hne)
        · exact hx y hy

/-- The records of a drive, with its keys in byte order. -/
structure Records where
  find : Str → Option (KineticRecord Str)
  keys : List Str
  sorted : keys.Pairwise (· < ·)
  mem_keys : ∀ k, k ∈ keys ↔ find k ≠ none

namespace Records

/-- No records. -/
def empty : Records := ⟨fun _ => none, [], List.Pairwise.nil, fun _ => by simp⟩

/-- The record of `k` becomes `r`. -/
def set (d : Records) (k : Str) (r : Option (KineticRecord Str)) : Records where
  find := Function.update d.find k r
  keys := if r = none then d.keys.filter (· ≠ k) else insertKey k d.keys
  sorted := by
    split
    · exact d.sorted.filter _
    · exact sorted_insertKey d.sorted
  mem_keys := by
    intro k'
    by_cases hk : k' = k
    · subst hk
      split
      · rename_i hr
        simp [hr]
      · rename_i hr
        simp [hr, mem_insertKey]
    · rw [Function.update_of_ne hk, ← d.mem_keys k']
      split
      · simp [hk]
      · simp [hk, mem_insertKey]

@[simp] theorem find_set (d : Records) (k k' : Str) (r : Option (KineticRecord Str)) :
    (d.set k r).find k' = if k' = k then r else d.find k' := Function.update_apply _ _ _ _

/-- `GetKeyRange` with inclusive bounds: the first `max` keys of the range. -/
def keyRange (d : Records) (start stop : Str) (max : Nat) : List Str :=
  (d.keys.filter fun k => start ≤ k ∧ k ≤ stop).take max

/-- `GetKeyRange` with exclusive bounds. -/
def openRange (d : Records) (start stop : Str) (max : Nat) : List Str :=
  (d.keys.filter fun k => start < k ∧ k < stop).take max

end Records

/-! ## Requests for records -/

/-- `WriteMode` of `KineticNamespace`. -/
inductive WriteMode where
  | REQUIRE_SAME_VERSION | IGNORE_VERSION
  deriving DecidableEq, Repr

/-- What a write does to one key. -/
inductive WriteOp where
  | put (expected : Str) (mode : WriteMode) (record : KineticRecord Str)
  | delete (expected : Str) (mode : WriteMode)
  deriving DecidableEq, Repr

/-- Status and record after a write. -/
def WriteOp.apply (op : WriteOp) (cur : Option (KineticRecord Str)) :
    StatusCode × Option (KineticRecord Str) :=
  match op with
  | .put expected .REQUIRE_SAME_VERSION record => putSame cur expected record
  | .put _ .IGNORE_VERSION record => (.OK, some record)
  | .delete expected .REQUIRE_SAME_VERSION => deleteSame cur expected
  | .delete _ .IGNORE_VERSION => if cur = none then (.REMOTE_NOT_FOUND, none) else (.OK, none)

/-- Who issues a write: `writeOperation` (with or without an entry in the write log), `readRepair`
    or the write log itself. -/
inductive Issuer where
  | client (logged : Bool)
  | repair
  | log
  deriving DecidableEq, Repr

/-- An access to the data of a drive. -/
inductive DataReq where
  | get (d : DriveId) (ccv : Nat) (key : Str)
  | write (issuer : Issuer) (d : DriveId) (ccv : Nat) (key : Str) (op : WriteOp)
  | keyRange (d : DriveId) (ccv : Nat) (start stop : Str) (max : Nat)
  /-- `readRepair` of a key that belongs to another partition, called with `record` -/
  | elsewhere (key : Str) (record : Option (KineticRecord Str))

/-- What a drive answers to it. -/
def DataRes : DataReq → Type
  | .get _ _ _ => StatusCode × Option (KineticRecord Str)
  | .write _ _ _ _ _ => StatusCode
  | .keyRange _ _ _ _ _ => StatusCode × List Str
  | .elsewhere _ _ => StatusCode × Option (KineticRecord Str)

/-- The drives, with the partition state agreed on last and what the reference drives of the other
    partitions hold. -/
structure Drives where
  cluster : Cluster
  data : DriveId → Records
  agreed : Partition
  others : Str → Option (KineticRecord Str) := fun _ => none

/-- The record of a key on a drive. -/
def Drives.find (s : Drives) (d : DriveId) (key : Str) : Option (KineticRecord Str) := (s.data d).find key

/-- The drives with another record of a key on one of them. -/
def Drives.setRecord (s : Drives) (d : DriveId) (key : Str) (r : Option (KineticRecord Str)) : Drives :=
  { s with data := Function.update s.data d ((s.data d).set key r) }

/-- What drive `d` does with a write. -/
def Drives.carryOut (s : Drives) (d : DriveId) (ccv : Nat) (key : Str) (op : WriteOp) :
    StatusCode × Drives :=
  if ccv = (s.cluster.drive d).clusterVersion then
    ((op.apply (s.find d key)).1, s.setRecord d key (op.apply (s.find d key)).2)
  else (.REMOTE_CLUSTER_VERSION_MISMATCH, s)

/-- What `readRepair` of a key of another partition leaves on its reference drive: a record that is
    missing there is created from the one of the call. -/
def Drives.repairOther (s : Drives) (key : Str) (record : Option (KineticRecord Str)) : Drives :=
  { s with others := Function.update s.others key ((s.others key).or record) }

/-- The agreed state after a request for partition updates. -/
def agreedAfter (a : Partition) : (r : Req) → Res r → Partition
  | .returned p, _ => p
  | .get _ _ _, (status, some record) =>
      if status.expectedClusterVersion ≠ 0 ∧ status.ok then record.value else a
  | _, _ => a

/-- One access to data. A drive that is reached compares the cluster versions first. -/
def serveData (s : Drives) : (r : DataReq) → Choice → Option (DataRes r × Drives)
  | .get d ccv key, .reach _ =>
      if ccv = (s.cluster.drive d).clusterVersion then
        match s.find d key with
        | some r => some ((.OK, some r), s)
        | none => some ((.REMOTE_NOT_FOUND, none), s)
      else some ((.REMOTE_CLUSTER_VERSION_MISMATCH, none), s)
  | .get _ _ _, .unreachable => some ((.REMOTE_REMOTE_CONNECTION_ERROR, none), s)
  | .write _ d ccv key op, .reach _ => some (s.carryOut d ccv key op)
  | .write _ d ccv key op, .lost => some (.REMOTE_REMOTE_CONNECTION_ERROR, (s.carryOut d ccv key op).2)
  | .write _ _ _ _ _, .unreachable => some (.REMOTE_REMOTE_CONNECTION_ERROR, s)
  | .keyRange d ccv start stop max, .reach _ =>
      if ccv = (s.cluster.drive d).clusterVersion then
        some ((.OK, (s.data d).keyRange start stop max), s)
      else some ((.REMOTE_CLUSTER_VERSION_MISMATCH, []), s)
  | .keyRange _ _ _ _ _, .unreachable => some ((.REMOTE_REMOTE_CONNECTION_ERROR, []), s)
  | .elsewhere key record, .reach _ => some ((.OK, (s.others key).or record), s.repairOther key record)
  | .elsewhere key record, .lost =>
      some ((.REMOTE_REMOTE_CONNECTION_ERROR, (s.others key).or record), s.repairOther key record)
  | .elsewhere _ record, .unreachable => some ((.REMOTE_REMOTE_CONNECTION_ERROR, record), s)
  | _, _ => none

/-- One access of a client, to the cluster or to data. -/
def serveAll (s : Drives) : (r : Req ⊕ DataReq) → Choice → Option (SumRes Res DataRes r × Drives)
  | .inl r, choice =>
      match serve s.cluster r choice with
      | some (x, cluster) => some (x, { s with cluster := cluster, agreed := agreedAfter s.agreed r x })
      | none => none
  | .inr r, choice => serveData s r choice

/-- The drives that all clients access. -/
def drives : Service (Req ⊕ DataReq) (SumRes Res DataRes) Choice Drives := ⟨serveAll⟩

/-! ## The client -/

/-- Computations of one client: its view of the partition, and requests to the drives. -/
abbrev Client := StateT View (Prog (Req ⊕ DataReq) (SumRes Res DataRes))

/-- One request for data. -/
def ask (r : DataReq) : Client (DataRes r) := StateT.lift (Prog.perform (Sum.inr r : Req ⊕ DataReq))

/-- The client ends. -/
def Client.crash {α : Type} : Client α := StateT.lift Prog.stop

/-- A program for partition updates, as the client runs it. -/
def update {α : Type} (m : Action α) : Client α := embedded m

/-- The connection to a drive that is then used without a check for null: its client cluster
    version. -/
def connection (p : Partition) (d : DriveId) : Client Nat := do
  let con ← update (driveToConnection p d)
  if !con then Client.crash
  update (clientClusterVersion d)

/-- `std::to_string` on an integer. -/
def intToStr (n : Int) : Str := if n < 0 then '-' :: toStr n.natAbs else toStr n.natAbs

/-- `std::to_string(p.partitionid()) + logkey_prefix`. -/
def logPrefix (p : Partition) : Str := intToStr (p.partitionId.getD 0) ++ lit "log_"

/-! ### Read repair -/

/-- The first GREEN drive; there is none if the search runs past the last drive. -/
def greenIndex (p : Partition) : Option Nat := p.drives.findIdx? (·.status = .GREEN)

/-- What `readRepair` does on a drive, given the version it has just read there: the status that
    is checked, `none` if the drive already holds the reference record. -/
def enforce (key : Str) (record : Option (KineticRecord Str)) (d : DriveId) (ccv : Nat)
    (status : StatusCode) (cur : Option (KineticRecord Str)) : Client (Option StatusCode) :=
  match record with
  | none =>
      if status = .OK then do
        let code : StatusCode ← ask (.write .repair d ccv key
          (.delete (versionOf cur) .REQUIRE_SAME_VERSION))
        return some code
      else return some status
  | some r =>
      if status = .OK ∧ versionOf cur = r.version then return none
      else do
        let code : StatusCode ← ask (.write .repair d ccv key
          (.put (versionOf cur) .REQUIRE_SAME_VERSION r))
        return some code

/-- The loop of `readRepair`; `i` is the index of the first drive of the list. `GetVersion` is a
    `Get` of which only the version is used. -/
def enforceAll (p : Partition) (key : Str) (index : Nat) (record : Option (KineticRecord Str)) :
    List KineticDrive → Nat → Client StatusCode
  | [], _ => return .OK
  | d :: ds, i => do
      if d.status = .RED then
        enforceAll p key index record ds (i + 1)
      else
        let ccv ← connection p d.id
        let answer : StatusCode × Option (KineticRecord Str) ← ask (.get d.id ccv key)
        if answer.1 ≠ .OK ∧ answer.1 ≠ .REMOTE_NOT_FOUND then return answer.1
        match ← enforce key record d.id ccv answer.1 answer.2 with
        | none => enforceAll p key index record ds (i + 1)
        | some code =>
            if code ≠ .OK ∧ code ≠ .REMOTE_NOT_FOUND ∧ code ≠ .REMOTE_VERSION_MISMATCH then return code
            if code = .REMOTE_VERSION_MISMATCH ∧ index = i then return .OK
            enforceAll p key index record ds (i + 1)

/-- `readRepair`: status and `record` when it returns. The caller passes `record` by reference, and
    the `Get` on the reference drive leaves it as it was if there is no such key. -/
def repair (key : Str) (record : Option (KineticRecord Str)) :
    Client (StatusCode × Option (KineticRecord Str)) := do
  let p := (← get).partition
  match greenIndex p with
  | none => Client.crash
  | some index =>
      match p.drives[index]? with
      | none => Client.crash
      | some d =>
          let ccv ← connection p d.id
          let answer : StatusCode × Option (KineticRecord Str) ← ask (.get d.id ccv key)
          if answer.1 ≠ .OK ∧ answer.1 ≠ .REMOTE_NOT_FOUND then return (answer.1, record)
          let record' := answer.2.or record
          let status ← enforceAll p key index record' p.drives 0
          return (status, record')

/-! ### Writes -/

/-- The threads of `writeOperation`. -/
def writeAll (p : Partition) (logged : Bool) (key : Str) (op : WriteOp) :
    List KineticDrive → Client (List StatusCode)
  | [] => return []
  | d :: ds => do
      if d.status = .RED then
        let codes ← writeAll p logged key op ds
        return .REMOTE_REMOTE_CONNECTION_ERROR :: codes
      else
        let ccv ← connection p d.id
        let code : StatusCode ← ask (.write (.client logged) d.id ccv key op)
        let codes ← writeAll p logged key op ds
        return code :: codes

/-- The first drive that is not RED and whose result is an unexpected error. -/
def failedIndex : List KineticDrive → List StatusCode → Nat → Option (Nat × StatusCode)
  | d :: ds, code :: codes, i =>
      if d.status ≠ .RED ∧ code ≠ .OK ∧ code ≠ .REMOTE_VERSION_MISMATCH ∧ code ≠ .REMOTE_NOT_AUTHORIZED then
        some (i, code)
      else failedIndex ds codes (i + 1)
  | _, _, _ => none

/-- The results of drives that are not RED. -/
def validResults : List KineticDrive → List StatusCode → List StatusCode
  | d :: ds, code :: codes =>
      if d.status = .RED then validResults ds codes else code :: validResults ds codes
  | _, _ => []

/-- `evaluateWriteOperation`, with a bound on its retries. -/
def evaluate (results : List StatusCode) : Nat → Client StatusCode
  | 0 => Client.crash
  | fuel + 1 => do
      let p := (← get).partition
      -- `results.at` throws
      if results.length < p.drives.length then Client.crash
      match greenIndex p with
      | none => Client.crash
      | some green =>
          match results[green]? with
          | none => Client.crash
          | some code =>
              if ∀ c ∈ validResults p.drives results, c = code then return code
              match failedIndex p.drives results 0 with
              | none => return .REMOTE_OTHER_ERROR
              | some (i, code) =>
                  if ← update (disableDrive i fuel) then evaluate results fuel
                  else return code

/-- `disableDrive(log_partition, index)`. The log partition has no `partitionID`, so nothing is
    published. -/
def disableLog (index fuel : Nat) : Client Unit := do
  let v ← get
  set { v with partition := v.logPartition }
  let _ ← update (disableDrive index fuel)
  modify fun v' => { v' with partition := v.partition, logPartition := v'.partition }

/-- Whether a write gets an entry in the write log. -/
def logs (p : Partition) : Bool := p.logId ≠ none ∧ p.drives.any (·.status = .RED)

/-- The log entry of `writeOperation`. -/
def logWrite (p : Partition) (key : Str) (fuel : Nat) : Client Unit := do
  if logs p then
    let v ← get
    match p.logId.bind fun l => v.logPartition.drives[l]? with
    | none => Client.crash
    | some d =>
        let ccv ← connection v.logPartition d.id
        let code : StatusCode ← ask (.write .log d.id ccv (logPrefix p ++ key)
          (.put [] .IGNORE_VERSION ⟨[], []⟩))
        if code ≠ .OK then
          disableLog (p.logId.getD 0) fuel
          let p := (← get).partition
          modify fun v => { v with
            partition := { p with logId := none, clusterVersion := p.clusterVersion + 1 } }
          let _ ← update putPartitionUpdate

/-- `writeOperation`, with a bound on its retries. -/
def writeOperation (key : Str) (op : WriteOp) : Nat → Client StatusCode
  | 0 => Client.crash
  | fuel + 1 => do
      let p := (← get).partition
      let results ← writeAll p (logs p) key op p.drives
      logWrite p key fuel
      if .REMOTE_CLUSTER_VERSION_MISMATCH ∈ results then
        if ← update (getPartitionUpdate fuel) then writeOperation key op fuel
        else return .REMOTE_CLUSTER_VERSION_MISMATCH
      else evaluate results fuel

/-- The end of `Put` and `Delete`: resolve a partial write. `ok` says whether the record that has
    been enforced means success. -/
def resolve (key : Str) (ok : Option (KineticRecord Str) → Bool) (fuel : Nat) : Client StatusCode := do
  let mut result ← repair key none
  if result.1 = .REMOTE_CLUSTER_VERSION_MISMATCH then
    if ← update (getPartitionUpdate fuel) then
      -- the second call gets the record of the first
      result ← repair key result.2
  if result.1 = .OK then
    return if ok result.2 then .OK else .REMOTE_VERSION_MISMATCH
  return result.1

/-- `Put`: a result that may have been stored by some drives is resolved by reading back. -/
def put (key expected : Str) (mode : WriteMode) (record : KineticRecord Str) (fuel : Nat) :
    Client StatusCode := do
  let result ← writeOperation key (.put expected mode record) fuel
  if result = .REMOTE_OTHER_ERROR then
    resolve key (fun r => r.map KineticRecord.version = some record.version) fuel
  else return result

/-- `Delete`: a result that may have been carried out by some drives is resolved by reading back. -/
def delete (key expected : Str) (mode : WriteMode) (fuel : Nat) : Client StatusCode := do
  let result ← writeOperation key (.delete expected mode) fuel
  if result = .REMOTE_OTHER_ERROR then resolve key (fun r => r = none) fuel
  else return result

/-! ### Reads -/

/-- The indices of GREEN drives. -/
def greenIndices (p : Partition) : List Nat :=
  (List.range p.drives.length).filter fun i => (p.drives[i]?.map KineticDrive.status) = some .GREEN

/-- `Get` and `GetVersion`: `readOperation`, with a bound on its retries. -/
def read (key : Str) : Nat → Client (StatusCode × Option (KineticRecord Str))
  | 0 => Client.crash
  | fuel + 1 => do
      let p := (← get).partition
      let index : Nat ← update (request (.pick (greenIndices p)))
      match p.drives[index]? with
      | none => Client.crash
      | some d =>
          let con ← update (driveToConnection p d.id)
          let mut answer : StatusCode × Option (KineticRecord Str) := (.REMOTE_REMOTE_CONNECTION_ERROR, none)
          if con then
            let ccv ← update (clientClusterVersion d.id)
            answer ← ask (.get d.id ccv key)
          if answer.1 = .REMOTE_CLUSTER_VERSION_MISMATCH then
            if ← update (getPartitionUpdate fuel) then read key fuel
            else return answer
          else if answer.1 ≠ .OK ∧ answer.1 ≠ .REMOTE_NOT_FOUND ∧ answer.1 ≠ .REMOTE_NOT_AUTHORIZED then
            if ← update (disableDrive index fuel) then read key fuel
            else return answer
          else return answer

/-! ### Rebuild of a drive -/

section Synchronize

-- the keys that `keyToPartition` assigns to this partition
variable (assigned : Str → Bool)

/-- `readRepair` of a key of the scan, in the partition that the key belongs to. -/
def repairKey (key : Str) (record : Option (KineticRecord Str)) :
    Client (StatusCode × Option (KineticRecord Str)) :=
  if assigned key then repair key record else ask (.elsewhere key record)

/-- The keys of one page: `false` if a repair fails. All repairs use one `record`, which goes from key
    to key. -/
def repairPage (p : Partition) (con : DriveId) (ccv : Nat) (deleteLog : Bool) :
    List Str → Option (KineticRecord Str) → Client (Bool × Option (KineticRecord Str))
  | [], record => return (true, record)
  | key :: keys, record => do
      let key' := if p.logId = none then key else key.drop (logPrefix p).length
      let answer ← repairKey assigned key' record
      if answer.1 ≠ .OK then return (false, answer.2)
      if p.logId ≠ none ∧ deleteLog then
        let _ ← ask (.write .log con ccv key (.delete [] .IGNORE_VERSION))
      repairPage p con ccv deleteLog keys answer.2

/-- Number of keys that one `GetKeyRange` returns. -/
def maxsize : Nat := 100

/-- The loop of `synchronizeDrive` over the pages of the scan. -/
def repairPages (p : Partition) (con : DriveId) (ccv : Nat) (deleteLog : Bool) (stop : Str) :
    Nat → Str → Option (KineticRecord Str) → Client Bool
  | 0, _, _ => Client.crash
  | fuel + 1, start, record => do
      let answer : StatusCode × List Str ← ask (.keyRange con ccv start stop maxsize)
      if answer.1 ≠ .OK then return false
      let page ← repairPage assigned p con ccv deleteLog answer.2 record
      if !page.1 then return false
      if answer.2.length = maxsize then
        repairPages p con ccv deleteLog stop fuel (answer.2.getLast?.getD start) page.2
      else return true

/-- The drive that is scanned: the log drive, or any GREEN drive. -/
def scanned (p : Partition) : Client (Option (Partition × DriveId)) := do
  match p.logId with
  | some l =>
      let v ← get
      return v.logPartition.drives[l]?.map fun d => (v.logPartition, d.id)
  | none =>
      let index : Nat ← update (request (.pick (greenIndices p)))
      return p.drives[index]?.map fun d => (p, d.id)

/-- The end of `synchronizeDrive`: the drive becomes GREEN. -/
def finishSynchronize (index : Nat) : Client Bool := do
  let p := (← get).partition
  let p' := { p.setStatus index .GREEN with clusterVersion := p.clusterVersion + 1 }
  let p' := if p'.drives.all (·.status = .GREEN) then { p' with logId := none } else p'
  modify fun v => { v with partition := p' }
  if ← update putPartitionUpdate then return true
  modify fun v => { v with
    partition := { v.partition.setStatus index .YELLOW with clusterVersion := p.clusterVersion } }
  return false

/-- `synchronizeDrive`, with a bound on the number of pages. -/
def synchronizeDrive (index fuel : Nat) : Client Bool := do
  let p := (← get).partition
  match p.drives[index]? with
  | none => Client.crash
  | some d =>
      if d.status ≠ .YELLOW then return false
      let deleteLog := p.drives.all (·.status ≠ .RED)
      match ← scanned p with
      | none => Client.crash
      | some (q, con) =>
          if !(← update (driveToConnection q con)) then return false
          let ccv ← update (clientClusterVersion con)
          let pre := if p.logId = none then [] else logPrefix p
          if ← repairPages assigned p con ccv deleteLog (pre ++ lit "|") fuel (pre ++ lit " ") none then
            finishSynchronize index
          else return false

end Synchronize

/-! ### Self check -/

/-- The loop of `selfCheck` over the drives, from drive `i` on. -/
def enableRed (fuel : Nat) : Nat → Nat → Client Unit
  | 0, _ => Client.crash
  | n + 1, i => do
      match (← get).partition.drives[i]? with
      | none => return ()
      | some d =>
          if d.status = .RED then
            let _ ← update (enableDrive i fuel)
          enableRed fuel n (i + 1)

/-- `selfCheck` of the partition. -/
def selfCheck (fuel : Nat) : Client Bool := do
  enableRed fuel fuel 0
  if ← update testPartition then return true
  if ← update (getPartitionUpdate fuel) then
    if ← update testPartition then return true
  return false

/-! ### Runs -/

/-- What a client is asked to do. `enableDrive` starts `synchronizeDrive` in the background; here
    that is an operation of its own. -/
inductive Operation where
  | put (key expected : Str) (mode : WriteMode) (record : KineticRecord Str)
  | delete (key expected : Str) (mode : WriteMode)
  | get (key : Str)
  | selfCheck
  | synchronizeDrive (index : Nat)

/-- The member function that the client calls. -/
def Operation.run (assigned : Str → Bool) (fuel : Nat) : Operation → Client Unit
  | .put key expected mode record => do
      let _ ← Replication.put key expected mode record fuel
  | .delete key expected mode => do
      let _ ← Replication.delete key expected mode fuel
  | .get key => do
      let _ ← read key fuel
  | .selfCheck => do
      let _ ← Replication.selfCheck fuel
  | .synchronizeDrive index => do
      let _ ← Replication.synchronizeDrive assigned index fuel

/-- One operation of the client, one of those allowed. -/
def Step (sv : Service (Req ⊕ DataReq) (SumRes Res DataRes) Choice Drives) (assigned : Str → Bool)
    (allowed : Operation → Prop) (x y : View × Drives) : Prop :=
  ∃ op fuel, allowed op ∧ Returns sv ((op.run assigned fuel).run x.1) x.2 ((), y.1) y.2

/-- Any number of operations, one after another. -/
def Run (sv : Service (Req ⊕ DataReq) (SumRes Res DataRes) Choice Drives) (assigned : Str → Bool)
    (allowed : Operation → Prop) : View × Drives → View × Drives → Prop :=
  Relation.ReflTransGen (Step sv assigned allowed)

theorem Run.preserves {sv : Service (Req ⊕ DataReq) (SumRes Res DataRes) Choice Drives}
    {assigned : Str → Bool} {allowed : Operation → Prop} {F : View → Drives → Prop} {x y : View × Drives}
    (hop : ∀ op fuel, allowed op → Preserves sv F (op.run assigned fuel))
    (h : Run sv assigned allowed x y) (hx : F x.1 x.2) : F y.1 y.2 := by
  induction h with
  | refl => exact hx
  | tail _ hstep ih =>
    obtain ⟨op, fuel, hallowed, hr⟩ := hstep
    exact hop op fuel hallowed _ _ ih _ _ _ hr

end HFlat.Replication
