/-
  Kinetic drives and partitions: the data of `replication.proto`, the status of a drive operation,
  and the conditional operations of a drive on one key. A write with `REQUIRE_SAME_VERSION` takes
  effect only if the stored version is the expected one; an absent key has version `""`.
-/
import HFlat.Base

namespace HFlat.Replication

/-! ## Partitions (`replication.proto`) -/

namespace KineticDrive

/-- `hflat::KineticDrive_Status`. -/
inductive Status where
  | GREEN | YELLOW | RED
  deriving DecidableEq, Repr

end KineticDrive

/-- `hflat::KineticDrive`. -/
structure KineticDrive where
  status : KineticDrive.Status
  host : Str
  port : Int
  deriving DecidableEq, Repr

/-- Host and port, the key of `connection_map`. -/
abbrev DriveId := Str × Int

/-- Host and port identify a drive. -/
def KineticDrive.id (d : KineticDrive) : DriveId := (d.host, d.port)

/-- A partition. The log partition has no `partitionID`. -/
structure Partition where
  clusterVersion : Nat
  partitionId : Option Int
  drives : List KineticDrive
  logId : Option Nat
  deriving DecidableEq, Repr

/-! ## Status of an operation -/

/-- `kinetic::StatusCode`, as far as the namespace tells codes apart. -/
inductive StatusCode where
  | OK
  | REMOTE_NOT_FOUND
  | REMOTE_VERSION_MISMATCH
  | REMOTE_CLUSTER_VERSION_MISMATCH
  | REMOTE_REMOTE_CONNECTION_ERROR
  | REMOTE_NOT_AUTHORIZED
  | REMOTE_OTHER_ERROR
  deriving DecidableEq, Repr

/-- `kinetic::KineticStatus`: the code, and the cluster version that the drive expects. -/
structure KineticStatus where
  statusCode : StatusCode
  expectedClusterVersion : Nat
  deriving DecidableEq, Repr

/-- `ok()`. -/
def KineticStatus.ok (s : KineticStatus) : Bool := s.statusCode = .OK

/-! ## Conditional operations on one key -/

/-- `kinetic::KineticRecord`: value and version. -/
structure KineticRecord (V : Type) where
  value : V
  version : Str
  deriving DecidableEq, Repr

variable {V : Type}

/-- The stored version, `""` for an absent key. -/
def versionOf (cur : Option (KineticRecord V)) : Str := (cur.map KineticRecord.version).getD []

/-- `Put` with `REQUIRE_SAME_VERSION`. -/
def putSame (cur : Option (KineticRecord V)) (expected : Str) (new : KineticRecord V) :
    StatusCode × Option (KineticRecord V) :=
  if versionOf cur = expected then (.OK, some new) else (.REMOTE_VERSION_MISMATCH, cur)

/-- `Delete` with `REQUIRE_SAME_VERSION`. -/
def deleteSame (cur : Option (KineticRecord V)) (expected : Str) :
    StatusCode × Option (KineticRecord V) :=
  match cur with
  | none => (.REMOTE_NOT_FOUND, none)
  | some r => if r.version = expected then (.OK, none) else (.REMOTE_VERSION_MISMATCH, cur)

end HFlat.Replication
