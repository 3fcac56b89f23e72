/-
  The shared database log: `database_operation` and `database_update` (`util.cc`) over the
  database keys of the store (`put_db_entry`, `get_db_entry`, `get_db_version`,
  `put_db_snapshot`, `get_db_snapshot` in `kinetic_helper.cc`).

  Any number of single-threaded clients share the store; every store access is one step, and may
  fail without an effect. The store holds the messages themselves in place of their serialized
  bytes. The state also holds the path map of every client, and records the entry of every
  conditional `Put` that has created one, with the operation that issued it, and the result of
  every operation that has returned. A client whose assertion fails stops.
-/
import HFlat.Lib.Prog
import HFlat.Replication.Drive
import HFlat.Database.Replay

namespace HFlat.Database

open HFlat.Lib HFlat.PathMap HFlat.Replication

/-! ## The store -/

/-- `WriteMode` of `KineticNamespace`. -/
inductive WriteMode where
  | IGNORE_VERSION | REQUIRE_SAME_VERSION
  deriving DecidableEq, Repr

/-- What a database key holds. -/
inductive Value where
  | entry (e : DbEntry)
  | snapshot (s : DbSnapshot)
  | empty
  deriving DecidableEq, Repr

variable {ι : Type}

/-- An operation: the client and the number of its call. -/
abbrev Op (ι : Type) := ι × Nat

/-- An entry that a conditional `Put` has created. -/
structure Appended (ι : Type) where
  op : Op ι
  key : Str
  entry : DbEntry

/-- What an operation has returned for its entry. -/
structure Returned (ι : Type) where
  op : Op ι
  entry : DbEntry
  code : Int
  deriving DecidableEq

/-- The keys of the database, the snapshots in the memories of the clients, and what has happened so
    far. -/
structure State (ι : Type) where
  store : Str → Option (KineticRecord Value)
  /-- path map of each client -/
  pmap : ι → PathMapDB
  /-- entries created, oldest first -/
  log : List (Appended ι)
  /-- operations that have returned -/
  returned : List (Returned ι)

/-- One access to the database or to the snapshot in memory. -/
inductive Req (ι : Type) where
  | get (key : Str)
  | getVersion (key : Str)
  | put (op : Op ι) (key version : Str) (mode : WriteMode) (record : KineticRecord Value)
  | pmap (i : ι)
  | setPmap (i : ι) (db : PathMapDB)
  | serialize (db : PathMapDB)
  | returned (op : Op ι) (entry : DbEntry) (code : Int)

/-- What the service answers to a request. -/
def Res : Req ι → Type
  | .get _ => StatusCode × Option (KineticRecord Value)
  | .getVersion _ => StatusCode × Str
  | .put _ _ _ _ _ => StatusCode
  | .pmap _ => PathMapDB
  | .setPmap _ _ => Unit
  | .serialize _ => DbSnapshot
  | .returned _ _ _ => Unit

/-- What the caller does not control: whether the access fails, and the order in which a hash map
    is iterated. -/
structure Choice where
  fails : Bool
  order : List Str

/-- Status and new record of a `Put`. -/
def putStatus (cur : Option (KineticRecord Value)) (version : Str) (mode : WriteMode)
    (record : KineticRecord Value) : StatusCode × Option (KineticRecord Value) :=
  match mode with
  | .REQUIRE_SAME_VERSION => putSame cur version record
  | .IGNORE_VERSION => (.OK, some record)

/-- The log after a `Put` that ended with `code`. -/
def State.append (s : State ι) (op : Op ι) (key : Str) (mode : WriteMode) (value : Value)
    (code : StatusCode) : List (Appended ι) :=
  match value with
  | .entry e => if mode = .REQUIRE_SAME_VERSION ∧ code = .OK then s.log ++ [⟨op, key, e⟩] else s.log
  | _ => s.log

/-- One access of a client; it may fail. -/
def serve [DecidableEq ι] (s : State ι) : (r : Req ι) → Choice → Option (Res r × State ι)
  | .get key, c =>
      if c.fails then some ((.REMOTE_REMOTE_CONNECTION_ERROR, none), s)
      else
        match s.store key with
        | some r => some ((.OK, some r), s)
        | none => some ((.REMOTE_NOT_FOUND, none), s)
  | .getVersion key, c =>
      if c.fails then some ((.REMOTE_REMOTE_CONNECTION_ERROR, []), s)
      else
        match s.store key with
        | some r => some ((.OK, r.version), s)
        | none => some ((.REMOTE_NOT_FOUND, []), s)
  | .put op key version mode record, c =>
      if c.fails then some (.REMOTE_REMOTE_CONNECTION_ERROR, s)
      else
        let result := putStatus (s.store key) version mode record
        some (result.1, { s with
          store := Function.update s.store key result.2
          log := s.append op key mode record.value result.1 })
  | .pmap i, _ => some (s.pmap i, s)
  | .setPmap i db, _ => some ((), { s with pmap := Function.update s.pmap i db })
  | .serialize db, c => (serializeSnapshot db c.order).map fun x => (x, s)
  | .returned op entry code, _ =>
      some ((), { s with returned := ⟨op, entry, code⟩ :: s.returned })

/-- The service that all clients access. -/
def service [DecidableEq ι] : Service (Req ι) Res Choice (State ι) := ⟨serve⟩

/-! ## Store access (`kinetic_helper.cc`) -/

/-- Computations of one client. -/
abbrev Client (ι α : Type) := Prog (Req ι) Res α

/-- One request. -/
def request (r : Req ι) : Client ι (Res r) := Prog.perform r

/-- `db_base_name`. -/
def dbBaseName : Str := lit "pathmapDB_"

/-- `db_version_key`. -/
def dbVersionKey : Str := dbBaseName ++ lit "version"

/-- The key of the entry with a version. -/
def entryKey (version : Nat) : Str := dbBaseName ++ toStr version

/-- The key of the stored snapshot. -/
def snapshotKey : Str := dbBaseName ++ lit "SNAPSHOT"

/-- `put_db_entry`: the entry must not exist; the version key follows it. -/
def putDbEntry (op : Op ι) (version : Nat) (entry : DbEntry) : Client ι Int := do
  let status : StatusCode ← request
    (.put op (entryKey version) [] .REQUIRE_SAME_VERSION ⟨.entry entry, toStr version⟩)
  if status = .REMOTE_VERSION_MISMATCH then return -EEXIST
  if status ≠ .OK then return - EIO
  let _ ← request (.put op dbVersionKey [] .IGNORE_VERSION ⟨.empty, toStr version⟩)
  return 0

/-- `get_db_entry`. -/
def getDbEntry (version : Nat) : Client ι (Except Int DbEntry) := do
  let answer : StatusCode × Option (KineticRecord Value) ← request (.get (entryKey version))
  if answer.1 = .REMOTE_NOT_FOUND then return .error (-ENOENT)
  if answer.1 ≠ .OK then return .error (- EIO)
  match answer.2.map KineticRecord.value with
  | some (.entry e) => return .ok e
  | _ => return .error (-EINVAL)

/-- `get_db_version`; without the key it is 0. -/
def getDbVersion : Client ι (Except Int Nat) := do
  let answer : StatusCode × Str ← request (.getVersion dbVersionKey)
  if answer.1 = .REMOTE_NOT_FOUND then return .ok 0
  if answer.1 ≠ .OK then return .error (- EIO)
  return .ok (toInt64 answer.2)

/-- `put_db_snapshot`. -/
def putDbSnapshot (op : Op ι) (s : DbSnapshot) : Client ι Int := do
  let status : StatusCode ← request (.put op snapshotKey [] .IGNORE_VERSION ⟨.snapshot s, []⟩)
  if status ≠ .OK then return - EIO
  return 0

/-- `get_db_snapshot`. -/
def getDbSnapshot : Client ι (Except Int DbSnapshot) := do
  let answer : StatusCode × Option (KineticRecord Value) ← request (.get snapshotKey)
  if answer.1 ≠ .OK then return .error (- EIO)
  match answer.2.map KineticRecord.value with
  | some (.snapshot s) => return .ok s
  | _ => return .error (-EINVAL)

/-! ## Database operations (`util.cc`) -/

/-- The loop of `database_update`: `n` entries from `version` on. -/
def getDbEntries : Nat → Nat → Client ι (Except Int (List DbEntry))
  | _, 0 => return .ok []
  | version, n + 1 => do
      match ← getDbEntry version with
      | .error err => return .error err
      | .ok entry =>
          match ← getDbEntries (version + 1) n with
          | .error err => return .error err
          | .ok entries => return .ok (entry :: entries)

/-- The end of `database_update`: replay single entries up to `dbVersion`. -/
def updateEntries (i : ι) (dbVersion : Nat) : Client ι Int := do
  let db : PathMapDB ← request (.pmap i)
  match ← getDbEntries (db.snapshotVersion + 1) (dbVersion - db.snapshotVersion) with
  | .error err => return err
  | .ok entries =>
      match updateSnapshot db entries db.snapshotVersion dbVersion with
      | none => .stop
      | some db' =>
          let _ ← request (.setPmap i db')
          return 0

/-- `database_update` once the version to reach is known. A client that is more than 42 entries
    behind tries the serialized snapshot first. -/
def updateTo (i : ι) (dbVersion : Nat) : Client ι Int := do
  let db : PathMapDB ← request (.pmap i)
  if dbVersion - db.snapshotVersion > 42 then
    match ← getDbSnapshot with
    | .error _ => updateEntries i dbVersion
    | .ok s =>
        let _ ← request (.setPmap i (loadSnapshot db s))
        updateEntries i dbVersion
  else updateEntries i dbVersion

/-- `util::database_update`: entry after entry, from the version of the snapshot to that of the
    database. -/
def databaseUpdate (i : ι) : Client ι Int := do
  let db : PathMapDB ← request (.pmap i)
  match ← getDbVersion with
  | .error err => return err
  | .ok dbVersion =>
      if dbVersion < db.snapshotVersion then .stop
      else if dbVersion = db.snapshotVersion then
        -- the version key can be outdated
        match ← getDbEntry (dbVersion + 1) with
        | .error _ => return -EALREADY
        | .ok _ => updateTo i (dbVersion + 1)
      else updateTo i dbVersion

/-- `database_operation` after its entry is in the log. -/
def applyOwnEntry (i : ι) (op : Op ι) (entry : DbEntry) (db : PathMapDB) : Client ι Int :=
  match updateSnapshot db [entry] db.snapshotVersion (db.snapshotVersion + 1) with
  | none => .stop
  | some db' => do
      let _ ← request (.setPmap i db')
      if db.snapshotVersion % 42 = 0 then
        let s : DbSnapshot ← request (.serialize db')
        let _ ← putDbSnapshot op s
        return 0
      return 0

/-- `database_operation`, with a bound on the number of retries. -/
def databaseOperation (i : ι) (op : Op ι) (entry : DbEntry) : Nat → Client ι Int
  | 0 => .stop
  | fuel + 1 => do
      let db : PathMapDB ← request (.pmap i)
      let err ← putDbEntry op (db.snapshotVersion + 1) entry
      if err = 0 then applyOwnEntry i op entry db
      else if err ≠ -EEXIST then return err
      else
        let err ← databaseUpdate i
        if err ≠ 0 then return err
        databaseOperation i op entry fuel

/-! ## Clients -/

/-- The calls of a client. -/
inductive Call where
  | operation (entry : DbEntry) (fuel : Nat)
  | update

/-- The calls of client `i`, the first one with number `k`. -/
def session (i : ι) : Nat → List Call → Client ι Unit
  | _, [] => return ()
  | k, .operation entry fuel :: calls => do
      let code ← databaseOperation i (i, k) entry fuel
      let _ ← request (.returned (i, k) entry code)
      session i (k + 1) calls
  | k, .update :: calls => do
      let _ ← databaseUpdate i
      session i (k + 1) calls

/-- Clients with empty snapshots and an empty database. -/
def start (calls : ι → List Call) : Config (Req ι) Res (State ι) ι Unit :=
  ⟨⟨fun _ => none, fun _ => PathMapDB.empty, [], []⟩, fun i => session i 0 (calls i)⟩

/-! ## Keys -/

theorem entryKey_inj {v w : Nat} (h : entryKey v = entryKey w) : v = w :=
  toStr_inj (List.append_cancel_left h)

/-- A name with a character that is no digit is not the name of an entry. -/
theorem entryKey_ne (v : Nat) {name : Str} {c : Char} (hc : c ∈ name) (hd : c.isDigit = false) :
    dbBaseName ++ name ≠ entryKey v := by
  intro h
  refine not_mem_toStr (n := v) hd ?_
  rw [← List.append_cancel_left h]
  exact hc

theorem versionKey_ne_entryKey (v : Nat) : dbVersionKey ≠ entryKey v :=
  entryKey_ne v (show 'v' ∈ lit "version" by decide) (by decide)

theorem snapshotKey_ne_entryKey (v : Nat) : snapshotKey ≠ entryKey v :=
  entryKey_ne v (show 'S' ∈ lit "SNAPSHOT" by decide) (by decide)

/-! ## The invariant -/

section Invariant

variable {s s' : State ι} {i : ι} {op : Op ι}

/-- The entries of the log. -/
def State.entries (s : State ι) : List DbEntry := s.log.map Appended.entry

/-- The entries that an operation has appended. -/
def State.appendedBy [DecidableEq ι] (s : State ι) (op : Op ι) : List DbEntry :=
  (s.log.filter fun x => x.op = op).map Appended.entry

/-- `db` is the replay of a first part of the log. -/
def Replayed (db : PathMapDB) (s : State ι) : Prop :=
  ∃ entries, entries <+: s.entries ∧ replay entries = some db

/-- The keys `pathmapDB_1`, `pathmapDB_2`, .. hold the entries of the log, every path map is the
    replay of a first part of it, so is the stored snapshot, and every operation that has returned
    0 has appended its entry. -/
structure LogInv [DecidableEq ι] (s : State ι) : Prop where
  keys : ∀ n x, s.log[n]? = some x → x.key = entryKey (n + 1)
  stored : ∀ n, s.store (entryKey (n + 1)) =
    s.log[n]?.map fun x => ⟨.entry x.entry, toStr (n + 1)⟩
  first : s.store (entryKey 0) = none
  pmap : ∀ i, Replayed (s.pmap i) s
  snapshot : ∀ r x, s.store snapshotKey = some r → r.value = .snapshot x →
    ∃ db order, Replayed db s ∧ serializeSnapshot db order = some x
  returned : ∀ x ∈ s.returned, x.code = 0 → s.appendedBy x.op = [x.entry]

/-- A step on behalf of client `i` that records only operations in `ops`. -/
structure By (ops : Op ι → Prop) (i : ι) (s s' : State ι) : Prop where
  log : ∃ new, s'.log = s.log ++ new ∧ ∀ x ∈ new, ops x.op
  pmap : ∀ j, j ≠ i → s'.pmap j = s.pmap j
  returned : ∀ x ∈ s'.returned, x ∈ s.returned ∨ ops x.op

theorem By.mono {ops ops' : Op ι → Prop} (h : ∀ op, ops op → ops' op) (hs : By ops i s s') :
    By ops' i s s' := by
  obtain ⟨new, hlog, hnew⟩ := hs.log
  exact ⟨⟨new, hlog, fun x hx => h _ (hnew x hx)⟩, hs.pmap, fun x hx => (hs.returned x hx).imp id (h _)⟩

theorem by_refl (ops : Op ι → Prop) (i : ι) (s : State ι) : By ops i s s :=
  ⟨⟨[], by simp, by simp⟩, fun _ _ => rfl, fun _ h => Or.inl h⟩

/-- A step of another client. -/
def Others (i : ι) (s s' : State ι) : Prop := ∃ j, j ≠ i ∧ By (fun op => op.1 = j) j s s'

theorem By.entries {ops : Op ι → Prop} (h : By ops i s s') : s.entries <+: s'.entries := by
  obtain ⟨new, hlog, -⟩ := h.log
  rw [State.entries, State.entries, hlog, List.map_append]
  exact List.prefix_append _ _

theorem Replayed.grow {db : PathMapDB} (h : s.entries <+: s'.entries) (hr : Replayed db s) :
    Replayed db s' := by
  obtain ⟨entries, hpre, hreplay⟩ := hr
  exact ⟨entries, hpre.trans h, hreplay⟩

/-- Entries that follow the replayed part extend the replay. -/
theorem Replayed.extend {db db' : PathMapDB} {entries : List DbEntry} (h : Replayed db s)
    (hpre : entries <+: s.entries.drop db.snapshotVersion)
    (hdb' : entries.foldlM applyEntry db = some db') : Replayed db' s := by
  obtain ⟨before, hbefore, hreplay⟩ := h
  refine ⟨before ++ entries, ?_, replay_append hreplay hdb'⟩
  rw [replay_version hreplay] at hpre
  obtain ⟨rest, hrest⟩ := hbefore
  rw [← hrest, List.drop_left] at hpre
  rw [← hrest]
  exact (List.prefix_append_right_inj before).mpr hpre

theorem Replayed.version_le {db : PathMapDB} (h : Replayed db s) :
    db.snapshotVersion ≤ s.log.length := by
  obtain ⟨entries, hpre, hreplay⟩ := h
  rw [replay_version hreplay]
  simpa [State.entries] using hpre.length_le

/-- The replayed part of the log is the part up to the version of the path map. -/
theorem Replayed.take {db : PathMapDB} (h : Replayed db s) :
    replay (s.entries.take db.snapshotVersion) = some db := by
  obtain ⟨entries, hpre, hreplay⟩ := h
  rw [replay_version hreplay, ← List.prefix_iff_eq_take.mp hpre]
  exact hreplay

theorem log_grows
    (h : Relation.ReflTransGen (fun s s' => ∃ i, By (fun op => op.1 = i) i s s') s s') :
    s.log <+: s'.log := by
  induction h with
  | refl => exact List.prefix_refl _
  | tail _ hstep ih =>
    obtain ⟨i, hby⟩ := hstep
    obtain ⟨new, hlog, -⟩ := hby.log
    rw [hlog]
    exact ih.trans (List.prefix_append _ _)

/-- The operation has left no trace yet. -/
def Fresh (op : Op ι) (s : State ι) : Prop :=
  (∀ x ∈ s.log, x.op ≠ op) ∧ ∀ x ∈ s.returned, x.op ≠ op

/-- The operation has appended its entry and not returned yet. -/
def Done [DecidableEq ι] (op : Op ι) (entry : DbEntry) (s : State ι) : Prop :=
  s.appendedBy op = [entry] ∧ ∀ x ∈ s.returned, x.op ≠ op

theorem Fresh.step {ops : Op ι → Prop} (hf : Fresh op s) (h : By ops i s s') (hop : ¬ ops op) :
    Fresh op s' := by
  obtain ⟨new, hlog, hnew⟩ := h.log
  refine ⟨fun x hx => ?_, fun x hx he => ?_⟩
  · rw [hlog, List.mem_append] at hx
    rcases hx with hx | hx
    · exact hf.1 x hx
    · exact fun he => hop (he ▸ hnew x hx)
  · rcases h.returned x hx with hx | hx
    · exact hf.2 x hx he
    · exact hop (he ▸ hx)

theorem appendedBy_step [DecidableEq ι] {ops : Op ι → Prop} (h : By ops i s s') (hop : ¬ ops op) :
    s'.appendedBy op = s.appendedBy op := by
  obtain ⟨new, hlog, hnew⟩ := h.log
  have hnone : new.filter (fun x => x.op = op) = [] := by
    rw [List.filter_eq_nil_iff]
    intro x hx he
    exact hop (of_decide_eq_true he ▸ hnew x hx)
  rw [State.appendedBy, State.appendedBy, hlog, List.filter_append, hnone, List.append_nil]

theorem Done.step [DecidableEq ι] {ops : Op ι → Prop} {entry : DbEntry} (hd : Done op entry s)
    (h : By ops i s s') (hop : ¬ ops op) : Done op entry s' := by
  refine ⟨by rw [appendedBy_step h hop]; exact hd.1, fun x hx he => ?_⟩
  rcases h.returned x hx with hx | hx
  · exact hd.2 x hx he
  · exact hop (he ▸ hx)

end Invariant

/-! ## Facts that other clients keep -/

section Stability

variable {i : ι} {k : Nat}

theorem stable_pmap (db : PathMapDB) : Stable (Others i) fun s : State ι => s.pmap i = db := by
  rintro s s' ⟨j, hj, hs⟩ h
  exact (hs.pmap i (Ne.symm hj)).trans h

theorem stable_entries (v : Nat) (entries : List DbEntry) :
    Stable (Others i) fun s : State ι => entries <+: s.entries.drop v := by
  rintro s s' ⟨j, -, hs⟩ h
  exact h.trans (hs.entries.drop v)

theorem stable_replayed (db : PathMapDB) : Stable (Others i) (Replayed (ι := ι) db) := by
  rintro s s' ⟨j, -, hs⟩ h
  exact h.grow hs.entries

theorem stable_fresh : Stable (Others i) (Fresh (i, k)) := by
  rintro s s' ⟨j, hj, hs⟩ h
  exact h.step hs fun he => hj he.symm

theorem stable_done [DecidableEq ι] (entry : DbEntry) : Stable (Others i) (Done (i, k) entry) := by
  rintro s s' ⟨j, hj, hs⟩ h
  exact h.step hs fun he => hj he.symm

end Stability

/-! ## Steps -/

section Steps

variable [DecidableEq ι] {s : State ι} {i : ι}

/-- A path map that is a replay may become the client's. -/
theorem LogInv.setPmap (hi : LogInv s) {db : PathMapDB} (hdb : Replayed db s) :
    LogInv { s with pmap := Function.update s.pmap i db } ∧
      By (fun _ => False) i s { s with pmap := Function.update s.pmap i db } := by
  refine ⟨⟨hi.keys, hi.stored, hi.first, fun j => ?_, hi.snapshot, hi.returned⟩,
    ⟨⟨[], by simp, by simp⟩, fun j hj => Function.update_of_ne hj _ _, fun _ h => Or.inl h⟩⟩
  show Replayed (Function.update s.pmap i db j) s
  by_cases hj : j = i
  · subst hj
    rw [Function.update_self]
    exact hdb
  · rw [Function.update_of_ne hj]
    exact hi.pmap j

/-- A write to a key that holds no entry. -/
theorem LogInv.putOther (hi : LogInv s) {key : Str} (hkey : ∀ v, key ≠ entryKey v)
    {record : KineticRecord Value}
    (hsnap : key = snapshotKey → ∀ x, record.value = .snapshot x →
      ∃ db order, Replayed db s ∧ serializeSnapshot db order = some x) :
    LogInv { s with store := Function.update s.store key (some record) } := by
  have hstore : ∀ v, Function.update s.store key (some record) (entryKey v) = s.store (entryKey v) :=
    fun v => Function.update_of_ne (Ne.symm (hkey v)) _ _
  refine ⟨hi.keys, fun n => (hstore _).trans (hi.stored n), (hstore 0).trans hi.first, hi.pmap,
    fun r x hr hx => ?_, hi.returned⟩
  by_cases hk : snapshotKey = key
  · subst hk
    have hr' : Function.update s.store snapshotKey (some record) snapshotKey = some r := hr
    rw [Function.update_self] at hr'
    cases hr'
    exact hsnap rfl x hx
  · refine hi.snapshot r x ?_ hx
    rw [← hr]
    exact (Function.update_of_ne hk _ _).symm

theorem toStr_ne_nil (n : Nat) : toStr (n + 1) ≠ [] := by
  intro h
  have := toInt64_toStr (n + 1)
  rw [h] at this
  exact absurd this (by simp [toInt64])

/-- The state after a conditional `Put` has created the next entry. -/
def State.appendEntry (s : State ι) (op : Op ι) (entry : DbEntry) : State ι :=
  { s with
    store := Function.update s.store (entryKey (s.log.length + 1))
      (some ⟨.entry entry, toStr (s.log.length + 1)⟩)
    log := s.log ++ [⟨op, entryKey (s.log.length + 1), entry⟩] }

omit [DecidableEq ι] in
theorem by_appendEntry (s : State ι) (i : ι) (op : Op ι) (entry : DbEntry) :
    By (· = op) i s (s.appendEntry op entry) :=
  ⟨⟨[⟨op, entryKey (s.log.length + 1), entry⟩], rfl, by simp⟩, fun _ _ => rfl, fun _ h => Or.inl h⟩

omit [DecidableEq ι] in
theorem appendEntry_store_of_ne {op : Op ι} {entry : DbEntry} {key : Str}
    (h : key ≠ entryKey (s.log.length + 1)) : (s.appendEntry op entry).store key = s.store key :=
  Function.update_of_ne h _ _

theorem LogInv.appendEntry (hi : LogInv s) {op : Op ι} (hop : Fresh op s) (entry : DbEntry) :
    LogInv (s.appendEntry op entry) := by
  have hby := by_appendEntry s op.1 op entry
  refine ⟨fun n x hx => ?_, fun n => ?_, ?_, fun i => (hi.pmap i).grow hby.entries,
    fun r x hr hx => ?_, fun x hx hcode => ?_⟩
  · simp only [State.appendEntry, List.getElem?_append] at hx
    split at hx
    · exact hi.keys n x hx
    · rw [List.getElem?_singleton] at hx
      split at hx
      · cases hx
        rw [show n = s.log.length by omega]
      · cases hx
  · by_cases hn : n = s.log.length
    · subst hn
      simp [State.appendEntry]
    · rw [appendEntry_store_of_ne fun h => hn (Nat.succ.inj (entryKey_inj h)), hi.stored]
      congr 1
      simp only [State.appendEntry, List.getElem?_append]
      split
      · rfl
      · rw [List.getElem?_singleton, if_neg (by omega), List.getElem?_eq_none (by omega)]
  · rw [appendEntry_store_of_ne fun h => absurd (entryKey_inj h) (by omega)]
    exact hi.first
  · rw [appendEntry_store_of_ne (snapshotKey_ne_entryKey _)] at hr
    obtain ⟨db, order, hdb, hx⟩ := hi.snapshot r x hr hx
    exact ⟨db, order, hdb.grow hby.entries, hx⟩
  · rw [appendedBy_step hby (hop.2 x hx)]
    exact hi.returned x hx hcode

/-- The entry is the next one, and the only one of its operation. -/
theorem done_appendEntry {op : Op ι} (hop : Fresh op s) (entry : DbEntry) :
    [entry] <+: (s.appendEntry op entry).entries.drop s.log.length ∧
      Done op entry (s.appendEntry op entry) := by
  refine ⟨?_, ?_, hop.2⟩
  · simp [State.entries, State.appendEntry]
  · have hnone : s.log.filter (fun x => x.op = op) = [] := by
      rw [List.filter_eq_nil_iff]
      intro x hx he
      exact hop.1 x hx (of_decide_eq_true he)
    simp [State.appendedBy, State.appendEntry, List.filter_append, hnone]

/-- A conditional `Put` of an entry by a client at version `v`: it succeeds only if the client is
    up to date. -/
theorem serve_putEntry (hi : LogInv s) {op : Op ι} {v : Nat} (hv : v ≤ s.log.length)
    {entry : DbEntry} {choice : Choice} {code : StatusCode} {s' : State ι}
    (hserve : serve s (.put op (entryKey (v + 1)) [] .REQUIRE_SAME_VERSION
      ⟨.entry entry, toStr (v + 1)⟩) choice = some (code, s')) :
    (code ≠ .OK ∧ s' = s) ∨ (code = .OK ∧ v = s.log.length ∧ s' = s.appendEntry op entry) := by
  simp only [serve] at hserve
  split at hserve
  · cases hserve
    exact Or.inl ⟨by decide, rfl⟩
  · cases hserve
    by_cases hlen : v = s.log.length
    · subst hlen
      have hnone : s.store (entryKey (s.log.length + 1)) = none := by simp [hi.stored]
      refine Or.inr ⟨?_, rfl, ?_⟩
      · simp [putStatus, putSame, versionOf, hnone]
      · simp [putStatus, putSame, versionOf, hnone, State.append, State.appendEntry]
    · have hmis : putStatus (s.store (entryKey (v + 1))) [] .REQUIRE_SAME_VERSION
          ⟨.entry entry, toStr (v + 1)⟩ = (.REMOTE_VERSION_MISMATCH, s.store (entryKey (v + 1))) := by
        rw [hi.stored, List.getElem?_eq_getElem (by omega)]
        simp [putStatus, putSame, versionOf, toStr_ne_nil]
      refine Or.inl ⟨by simp [hmis], ?_⟩
      rw [hmis]
      simp [State.append]

end Steps

/-! ## Reading programs -/

section Reading

variable [DecidableEq ι] {i : ι}

/-- A program of client `i` that changes nothing. -/
def Reads {α : Type} (i : ι) (m : Client ι α) (Q : α → State ι → Prop) (s : State ι) : Prop :=
  Safe service LogInv (Others i) (fun s s' => s' = s) Q m s

theorem serve_get {s s' : State ι} {key : Str} {choice : Choice}
    {answer : StatusCode × Option (KineticRecord Value)}
    (h : serve s (.get key) choice = some (answer, s')) :
    s' = s ∧ (answer.1 = .OK → answer.2 = s.store key) := by
  simp only [serve] at h
  split at h
  · cases h
    exact ⟨rfl, fun hc => nomatch hc⟩
  · split at h
    · rename_i hr
      cases h
      exact ⟨rfl, fun _ => hr.symm⟩
    · cases h
      exact ⟨rfl, fun hc => nomatch hc⟩

theorem serve_getVersion {s s' : State ι} {key : Str} {choice : Choice} {answer : StatusCode × Str}
    (h : serve s (.getVersion key) choice = some (answer, s')) : s' = s := by
  simp only [serve] at h
  split at h
  · cases h
    rfl
  · split at h
    · cases h
      rfl
    · cases h
      rfl

/-- `get_db_entry` returns an entry of the log. -/
theorem reads_getDbEntry (v : Nat) (s : State ι) :
    Reads i (getDbEntry (v + 1)) (fun result s => ∀ e, result = .ok e → [e] <+: s.entries.drop v) s := by
  refine Safe.perform_bind stable_true trivial fun s1 hi _ choice answer s2 hserve => ?_
  obtain ⟨rfl, hanswer⟩ := serve_get hserve
  refine ⟨hi, rfl, ?_⟩
  have herror : ∀ err, Reads i (pure (.error err) : Client ι (Except Int DbEntry))
      (fun result s => ∀ e, result = .ok e → [e] <+: s.entries.drop v) s2 :=
    fun err _ _ _ e he => nomatch he
  split
  · exact herror _
  · split
    · exact herror _
    · rename_i hok
      split
      · rename_i e he
        refine Safe.ret ?_ ?_
        · exact fun s s' hs h e' he' => stable_entries v [e'] s s' hs (h e' he')
        · intro e' he'
          cases he'
          rw [hanswer (by simpa using hok), hi.stored] at he
          cases hx : s2.log[v]? with
          | none => simp [hx] at he
          | some x =>
            simp only [hx, Option.map_some, Option.some.injEq, Value.entry.injEq] at he
            have hat : s2.entries[v]? = some e := by simp [State.entries, hx, he]
            obtain ⟨hlt, hget⟩ := List.getElem?_eq_some_iff.mp hat
            rw [List.drop_eq_getElem_cons hlt, hget]
            exact ⟨_, rfl⟩
      · exact herror _

theorem reads_getDbVersion (s : State ι) : Reads i (getDbVersion (ι := ι)) (fun _ _ => True) s := by
  refine Safe.perform_bind stable_true trivial fun s1 hi _ choice answer s2 hserve => ?_
  obtain rfl := serve_getVersion hserve
  refine ⟨hi, rfl, ?_⟩
  split
  · exact fun _ _ _ => trivial
  · split
    · exact fun _ _ _ => trivial
    · exact fun _ _ _ => trivial

/-- `get_db_snapshot` returns a serialized replay. -/
theorem reads_getDbSnapshot (s : State ι) :
    Reads i (getDbSnapshot (ι := ι)) (fun result s => ∀ x, result = .ok x →
      ∃ db order, Replayed db s ∧ serializeSnapshot db order = some x) s := by
  refine Safe.perform_bind stable_true trivial fun s1 hi _ choice answer s2 hserve => ?_
  obtain ⟨rfl, hanswer⟩ := serve_get hserve
  refine ⟨hi, rfl, ?_⟩
  have herror : ∀ err, Reads i (pure (.error err) : Client ι (Except Int DbSnapshot))
      (fun result s => ∀ x, result = .ok x →
        ∃ db order, Replayed db s ∧ serializeSnapshot db order = some x) s2 :=
    fun err _ _ _ x hx => nomatch hx
  split
  · exact herror _
  · rename_i hok
    split
    · rename_i x hx
      refine Safe.ret ?_ ?_
      · intro s s' hs h x' hx'
        obtain ⟨db, order, hdb, hser⟩ := h x' hx'
        exact ⟨db, order, stable_replayed db s s' hs hdb, hser⟩
      · intro x' hx'
        cases hx'
        rw [hanswer (by simpa using hok)] at hx
        obtain ⟨r, hr, hrx⟩ := Option.map_eq_some_iff.mp hx
        exact hi.snapshot r x hr hrx
    · exact herror _

/-- The loop of `database_update` collects the entries that follow version `v`. -/
theorem reads_getDbEntries (v n : Nat) (s : State ι) (hi : LogInv s) :
    Reads i (getDbEntries (v + 1) n)
      (fun result s => ∀ entries, result = .ok entries → entries <+: s.entries.drop v) s := by
  induction n generalizing v s with
  | zero =>
    intro _ _ _ entries he
    cases he
    exact List.nil_prefix
  | succ n ih =>
    refine Safe.bind hi ((reads_getDbEntry v s).mono fun result s1 h1 hfirst => ?_)
    cases result with
    | error err => exact fun _ _ _ entries he => nomatch he
    | ok e =>
      have hrest := Safe.frame (stable_entries v [e]) (stable_unchanged _) (hfirst e rfl)
        (ih (v + 1) s1 h1)
      refine Safe.bind h1 (hrest.mono fun result s2 h2 hboth => ?_)
      obtain ⟨hfirst, hrest⟩ := hboth
      cases result with
      | error err => exact fun _ _ _ entries he => nomatch he
      | ok es =>
        refine Safe.ret ?_ ?_
        · exact fun s s' hs h es' he' => stable_entries v es' s s' hs (h es' he')
        · intro es' he'
          cases he'
          obtain ⟨rest, hsplit⟩ := hfirst
          rw [← hsplit]
          have htail : s2.entries.drop (v + 1) = rest := by
            rw [← List.tail_drop, ← hsplit]
            rfl
          have htail' := hrest es rfl
          rw [htail] at htail'
          exact (List.prefix_append_right_inj [e]).mpr htail'

end Reading

/-! ## Updating programs -/

section Updating

variable [DecidableEq ι] {α β : Type} {i : ι} {G : State ι → State ι → Prop}

/-- A reading program followed by `f`, while the fact `F` is known. -/
theorem Reads.then {m : Client ι α} {f : α → Client ι β} {Q : α → State ι → Prop}
    {Q' : β → State ι → Prop} {F : State ι → Prop} {s : State ι} (hm : Reads i m Q s) (hi : LogInv s)
    (hG : ∀ s, G s s) (hF : Stable (Others i) F) (hs : F s)
    (h : ∀ a s', LogInv s' → F s' → Q a s' → Safe service LogInv (Others i) G Q' (f a) s') :
    Safe service LogInv (Others i) G Q' (m >>= f) s := by
  have hunchanged : ∀ s s' : State ι, s' = s → G s s' := fun s s' he => by rw [he]; exact hG s
  have hframe := (Safe.frame hF (stable_unchanged F) hs hm).weaken hunchanged
  exact Safe.bind hi (hframe.mono fun a s' hi' hx => h a s' hi' hx.1 hx.2)

/-- Reading the path map. -/
theorem safe_pmap {f : PathMapDB → Client ι β} {Q : β → State ι → Prop} {F : State ι → Prop}
    {s : State ι} (hG : ∀ s, G s s) (hF : Stable (Others i) F) (hs : F s)
    (h : ∀ s', LogInv s' → F s' → Safe service LogInv (Others i) G Q (f (s'.pmap i)) s') :
    Safe service LogInv (Others i) G Q (request (.pmap i) >>= f) s := by
  refine Safe.perform_bind hF hs fun s1 hi hf choice db s2 hserve => ?_
  cases hserve
  exact ⟨hi, hG s1, h s1 hi hf⟩

/-- Writing the path map: it has to be a replay. -/
theorem safe_setPmap {ops : Op ι → Prop} {f : Unit → Client ι β} {Q : β → State ι → Prop}
    {F : State ι → Prop} {db : PathMapDB} {s : State ι} (hF : Stable (Others i) F)
    (hstep : Stable (By (fun _ => False) i) F) (hs : F s) (hdb : Replayed db s)
    (h : ∀ s', LogInv s' → F s' → Replayed db s' →
      Safe service LogInv (Others i) (By ops i) Q (f ()) s') :
    Safe service LogInv (Others i) (By ops i) Q (request (.setPmap i db) >>= f) s := by
  refine Safe.perform_bind (hF.and (stable_replayed db)) ⟨hs, hdb⟩
    fun s1 hi hf choice x s2 hserve => ?_
  cases hserve
  obtain ⟨h1, h2⟩ := hi.setPmap (i := i) hf.2
  exact ⟨h1, h2.mono fun _ hx => hx.elim, h _ h1 (hstep _ _ h2 hf.1) (hf.2.grow h2.entries)⟩

/-- A program of client `i` that only moves its path map forward. -/
def Updates (i : ι) (m : Client ι α) (s : State ι) : Prop :=
  Safe service LogInv (Others i) (By (fun _ => False) i) (fun _ _ => True) m s

theorem updates_updateEntries (dbVersion : Nat) (s : State ι) :
    Updates i (updateEntries i dbVersion) s := by
  refine safe_pmap (by_refl _ i) stable_true trivial fun s1 hi1 _ => ?_
  refine (reads_getDbEntries _ _ s1 hi1).then hi1 (by_refl _ i) (stable_replayed _) (hi1.pmap i)
    fun result s2 _ hdb hentries => ?_
  cases result with
  | error err => exact fun _ _ _ => trivial
  | ok entries =>
    simp only
    split
    · trivial
    · rename_i db' hdb'
      have hnew := hdb.extend (hentries entries rfl) (updateSnapshot_eq hdb')
      exact safe_setPmap stable_true stable_true trivial hnew fun _ _ _ _ _ _ _ => trivial

theorem updates_updateTo (dbVersion : Nat) (s : State ι) : Updates i (updateTo i dbVersion) s := by
  refine safe_pmap (by_refl _ i) stable_true trivial fun s1 hi1 _ => ?_
  split
  · refine (reads_getDbSnapshot s1).then hi1 (by_refl _ i) (stable_replayed _) (hi1.pmap i)
      fun result s2 _ hdb hsnap => ?_
    cases result with
    | error err => exact updates_updateEntries dbVersion s2
    | ok x =>
      -- the loaded snapshot is the older one of two replays or the newer one
      obtain ⟨db, order, hreplayed, hser⟩ := hsnap x rfl
      have hnew : Replayed (loadSnapshot (s1.pmap i) x) s2 := by
        rw [loadSnapshot_serializeSnapshot hser]
        split
        · exact hdb
        · exact hreplayed
      exact safe_setPmap stable_true stable_true trivial hnew
        fun s3 _ _ _ => updates_updateEntries dbVersion s3
  · exact updates_updateEntries dbVersion s1

theorem updates_databaseUpdate (s : State ι) : Updates i (databaseUpdate i) s := by
  refine safe_pmap (by_refl _ i) stable_true trivial fun s1 hi1 _ => ?_
  refine (reads_getDbVersion s1).then hi1 (by_refl _ i) stable_true trivial
    fun result s2 hi2 _ _ => ?_
  cases result with
  | error err => exact fun _ _ _ => trivial
  | ok dbVersion =>
    simp only
    split
    · trivial
    · split
      · refine (reads_getDbEntry dbVersion s2).then hi2 (by_refl _ i) stable_true trivial
          fun result s3 _ _ _ => ?_
        cases result with
        | error err => exact fun _ _ _ => trivial
        | ok e => exact updates_updateTo _ s3
      · exact updates_updateTo _ s2

end Updating

/-! ## Operations -/

section Operations

variable [DecidableEq ι] {β : Type} {i : ι} {k : Nat}

/-- A `Put` of another key on behalf of an operation, followed by `f`. -/
theorem safe_putOther {op : Op ι} {key : Str} {record : KineticRecord Value}
    {f : StatusCode → Client ι β} {Q : β → State ι → Prop} {F : State ι → Prop} {s : State ι}
    (hkey : ∀ v, key ≠ entryKey v) (hvalue : ∀ e, record.value ≠ .entry e)
    (hF : Stable (Others i) F) (hstore : ∀ s store, F s → F { s with store := store }) (hs : F s)
    (hsnap : ∀ s, F s → ∀ x, record.value = .snapshot x →
      ∃ db order, Replayed db s ∧ serializeSnapshot db order = some x)
    (h : ∀ code s', LogInv s' → F s' → Safe service LogInv (Others i) (By (· = op) i) Q (f code) s') :
    Safe service LogInv (Others i) (By (· = op) i) Q
      (request (.put op key [] .IGNORE_VERSION record) >>= f) s := by
  refine Safe.perform_bind hF hs fun s1 hi hf choice code s2 hserve => ?_
  simp only [service, serve] at hserve
  split at hserve
  · cases hserve
    exact ⟨hi, by_refl _ i s1, h _ s1 hi hf⟩
  · have hlog : s1.append op key .IGNORE_VERSION record.value .OK = s1.log := by
      unfold State.append
      split
      · rename_i e he
        exact absurd he (hvalue e)
      · rfl
    simp only [putStatus, hlog] at hserve
    cases hserve
    have hnext := hi.putOther hkey fun _ => hsnap s1 hf
    exact ⟨hnext, ⟨⟨[], by simp, by simp⟩, fun _ _ => rfl, fun _ hx => Or.inl hx⟩,
      h _ _ hnext (hstore s1 _ hf)⟩

/-- What `put_db_entry` leaves for a client with path map `db`. -/
def PutDone (i : ι) (op : Op ι) (entry : DbEntry) (db : PathMapDB) (err : Int) (s : State ι) : Prop :=
  s.pmap i = db ∧ ((err ≠ 0 ∧ Fresh op s) ∨
    (err = 0 ∧ Done op entry s ∧ [entry] <+: s.entries.drop db.snapshotVersion))

theorem stable_putDone (entry : DbEntry) (db : PathMapDB) (err : Int) :
    Stable (Others i) (PutDone i (i, k) entry db err) := by
  intro s s' hs h
  refine ⟨stable_pmap db s s' hs h.1, ?_⟩
  rcases h.2 with ⟨he, hf⟩ | ⟨he, hd, hp⟩
  · exact Or.inl ⟨he, stable_fresh s s' hs hf⟩
  · exact Or.inr ⟨he, stable_done entry s s' hs hd, stable_entries _ _ s s' hs hp⟩

theorem safe_putDbEntry {entry : DbEntry} {db : PathMapDB} {s : State ι} (hpmap : s.pmap i = db)
    (hfresh : Fresh (i, k) s) :
    Safe service LogInv (Others i) (By (· = (i, k)) i) (PutDone i (i, k) entry db)
      (putDbEntry (i, k) (db.snapshotVersion + 1) entry) s := by
  refine Safe.perform_bind ((stable_pmap db).and stable_fresh) ⟨hpmap, hfresh⟩
    fun s1 hi ⟨hpmap, hfresh⟩ choice code s2 hserve => ?_
  have hversion : db.snapshotVersion ≤ s1.log.length := hpmap ▸ (hi.pmap i).version_le
  rcases serve_putEntry hi hversion hserve with ⟨hcode, rfl⟩ | ⟨rfl, hlen, rfl⟩
  · refine ⟨hi, by_refl _ i _, ?_⟩
    have hfail : ∀ err : Int, err ≠ 0 → PutDone i (i, k) entry db err s2 :=
      fun err he => ⟨hpmap, Or.inl ⟨he, hfresh⟩⟩
    split
    · exact Safe.ret (stable_putDone entry db _) (hfail _ (by decide))
    · exact Safe.ret (stable_putDone entry db _) (hfail _ (by decide))
  · obtain ⟨hnext, hdone⟩ := done_appendEntry hfresh entry
    refine ⟨hi.appendEntry hfresh entry, by_appendEntry s1 i (i, k) entry, ?_⟩
    rw [← hlen] at hnext
    have hput : PutDone i (i, k) entry db 0 (s1.appendEntry (i, k) entry) :=
      ⟨hpmap, Or.inr ⟨rfl, hdone, hnext⟩⟩
    exact safe_putOther versionKey_ne_entryKey (fun _ he => nomatch he) (stable_putDone entry db 0)
      (fun _ _ h => h) hput (fun _ _ _ hx => nomatch hx)
      fun _ s3 _ h3 => Safe.ret (stable_putDone entry db 0) h3

theorem safe_putDbSnapshot {entry : DbEntry} {db : PathMapDB} {order : List Str} {x : DbSnapshot}
    {s : State ι} (hx : serializeSnapshot db order = some x) (hdone : Done (i, k) entry s)
    (hdb : Replayed db s) :
    Safe service LogInv (Others i) (By (· = (i, k)) i) (fun _ => Done (i, k) entry)
      (putDbSnapshot (i, k) x) s := by
  refine safe_putOther snapshotKey_ne_entryKey (fun _ he => nomatch he)
    ((stable_done entry).and (stable_replayed db)) (fun _ _ h => h) ⟨hdone, hdb⟩
    (fun s hs y hy => ?_) fun code s1 _ h1 => ?_
  · cases hy
    exact ⟨db, order, hs.2, hx⟩
  · split
    · exact Safe.ret (stable_done entry) h1.1
    · exact Safe.ret (stable_done entry) h1.1

/-- The end of an operation whose entry is in the log. -/
theorem safe_applyOwnEntry {entry : DbEntry} {db : PathMapDB} {s : State ι} (hi : LogInv s)
    (hpmap : s.pmap i = db) (hdone : Done (i, k) entry s)
    (hnext : [entry] <+: s.entries.drop db.snapshotVersion) :
    Safe service LogInv (Others i) (By (· = (i, k)) i) (fun code s => code = 0 → Done (i, k) entry s)
      (applyOwnEntry i (i, k) entry db) s := by
  have hret : ∀ s, Done (i, k) entry s → Safe service LogInv (Others i) (By (· = (i, k)) i)
      (fun code s => code = 0 → Done (i, k) entry s) (pure 0 : Client ι Int) s :=
    fun s hd s' hs' _ _ => (stable_done entry).steps hs' hd
  unfold applyOwnEntry
  split
  · trivial
  · rename_i db' hdb'
    have hnew := (hpmap ▸ hi.pmap i : Replayed db s).extend hnext (updateSnapshot_eq hdb')
    refine safe_setPmap (stable_done entry) (fun _ _ hs hd => hd.step hs not_false) hdone hnew
      fun s1 hi1 hdone1 hnew1 => ?_
    split
    · refine Safe.perform_bind ((stable_done entry).and (stable_replayed db')) ⟨hdone1, hnew1⟩
        fun s2 hi2 ⟨hdone2, hnew2⟩ choice x s3 hserve => ?_
      obtain ⟨x', hx, he⟩ := Option.map_eq_some_iff.mp hserve
      cases he
      refine ⟨hi2, by_refl _ i s2, Safe.bind hi2 ?_⟩
      exact (safe_putDbSnapshot hx hdone2 hnew2).mono fun _ s4 _ h4 => hret s4 h4
    · exact hret s1 hdone1

/-- `database_operation` appends its entry once if it returns 0. -/
theorem safe_databaseOperation (entry : DbEntry) (fuel : Nat) {s : State ι}
    (hfresh : Fresh (i, k) s) :
    Safe service LogInv (Others i) (By (· = (i, k)) i) (fun code s => code = 0 → Done (i, k) entry s)
      (databaseOperation i (i, k) entry fuel) s := by
  induction fuel generalizing s with
  | zero => trivial
  | succ fuel ih =>
    refine safe_pmap (by_refl _ i) stable_fresh hfresh fun s1 hi1 hfresh1 => ?_
    refine Safe.bind hi1 ((safe_putDbEntry rfl hfresh1).mono fun err s2 hi2 hput => ?_)
    obtain ⟨hpmap, hput⟩ := hput
    rcases hput with ⟨herr, hfresh2⟩ | ⟨rfl, hdone, hnext⟩
    · rw [if_neg herr]
      split
      · exact fun _ _ _ hc => absurd hc herr
      · have hupdate := Safe.frame stable_fresh (fun _ _ hs hf => hf.step hs not_false) hfresh2
          (updates_databaseUpdate (i := i) s2)
        refine Safe.bind hi2 ((hupdate.weaken fun _ _ hs => hs.mono fun _ hx => hx.elim).mono
          fun err s3 _ h3 => ?_)
        split
        · rename_i herr3
          exact fun _ _ _ hc => absurd hc herr3
        · exact ih h3.1
    · rw [if_pos rfl]
      exact safe_applyOwnEntry hi2 hpmap hdone hnext

/-- Recording the result of an operation. -/
theorem LogInv.recordReturn {s : State ι} (hi : LogInv s) {op : Op ι} {entry : DbEntry} {code : Int}
    (h : code = 0 → s.appendedBy op = [entry]) :
    LogInv { s with returned := ⟨op, entry, code⟩ :: s.returned } := by
  refine ⟨hi.keys, hi.stored, hi.first, hi.pmap, hi.snapshot, fun x hx hcode => ?_⟩
  rcases List.mem_cons.mp hx with rfl | hx
  · exact h hcode
  · exact hi.returned x hx hcode

/-- A session whose operations from number `k` on have left no trace. -/
theorem safe_session (calls : List Call) {s : State ι} (hi : LogInv s)
    (hfresh : ∀ k', k ≤ k' → Fresh (i, k') s) :
    Safe service LogInv (Others i) (By (fun op => op.1 = i) i) (fun _ _ => True)
      (session i k calls) s := by
  have hstable : ∀ n, Stable (Others i) fun s => ∀ k', n ≤ k' → Fresh (i, k') s :=
    fun n s s' hs h k' hk' => stable_fresh s s' hs (h k' hk')
  induction calls generalizing k s with
  | nil => exact fun _ _ _ => trivial
  | cons call calls ih =>
    cases call with
    | update =>
      have hupdate := Safe.frame (hstable k) (fun _ _ hs h k' hk' => (h k' hk').step hs not_false)
        hfresh (updates_databaseUpdate (i := i) s)
      refine Safe.bind hi ((hupdate.weaken fun _ _ hs => hs.mono fun _ hx => hx.elim).mono
        fun _ s1 hi1 h1 => ?_)
      exact ih hi1 fun k' hk' => h1.1 k' (by omega)
    | operation entry fuel =>
      have hlater : ∀ s s', By (· = (i, k)) i s s' → (∀ k', k + 1 ≤ k' → Fresh (i, k') s) →
          ∀ k', k + 1 ≤ k' → Fresh (i, k') s' := by
        intro s s' hs h k' hk'
        refine (h k' hk').step hs fun he => ?_
        have := (Prod.mk.inj he).2
        omega
      have hop := Safe.frame (hstable (k + 1)) hlater (fun k' hk' => hfresh k' (by omega))
        (safe_databaseOperation entry fuel (hfresh k (le_refl k)))
      refine Safe.bind hi ((hop.weaken fun _ _ hs => hs.mono fun op ho => by rw [ho]).mono
        fun code s1 hi1 h1 => ?_)
      have hcode : Stable (Others i) fun s => code = 0 → Done (i, k) entry s :=
        fun s s' hs h hc => stable_done entry s s' hs (h hc)
      refine Safe.perform_bind ((hstable (k + 1)).and hcode) h1
        fun s2 hi2 h2 choice x s3 hserve => ?_
      cases hserve
      have hby : By (· = (i, k)) i s2 { s2 with returned := ⟨(i, k), entry, code⟩ :: s2.returned } :=
        ⟨⟨[], by simp, by simp⟩, fun _ _ => rfl,
          fun x hx => (List.mem_cons.mp hx).symm.imp id fun he => by rw [he]⟩
      have hi3 := hi2.recordReturn fun hc => (h2.2 hc).1
      exact ⟨hi3, hby.mono fun op ho => by rw [ho], ih hi3 (hlater _ _ hby h2.1)⟩

end Operations

/-! ## Runs -/

section Runs

variable [DecidableEq ι] {calls : ι → List Call}

theorem logInv_start : LogInv (start calls).shared where
  keys _ _ h := by simp [start] at h
  stored _ := rfl
  first := rfl
  pmap _ := ⟨[], List.nil_prefix, rfl⟩
  snapshot _ _ h := by simp [start] at h
  returned _ h := by simp [start] at h

theorem safe_start (i : ι) :
    Safe service LogInv (Others i) (By (fun op => op.1 = i) i) (fun _ _ => True)
      ((start calls).prog i) (start calls).shared :=
  safe_session (calls i) logInv_start fun _ _ => ⟨by simp [start], by simp [start]⟩

/-- A key of the log keeps its record. -/
theorem stored_of_grows {s s' : State ι} (hi : LogInv s) (hi' : LogInv s') (h : s.log <+: s'.log)
    {v : Nat} {r : KineticRecord Value} (hr : s.store (entryKey v) = some r) :
    s'.store (entryKey v) = some r := by
  cases v with
  | zero =>
    rw [hi.first] at hr
    cases hr
  | succ n =>
    rw [hi.stored] at hr
    obtain ⟨x, hx, hr⟩ := Option.map_eq_some_iff.mp hr
    obtain ⟨rest, hrest⟩ := h
    rw [hi'.stored, ← hrest, List.getElem?_append_left (List.getElem?_eq_some_iff.mp hx).1, hx,
      Option.map_some, hr]

/-- In every run: the database keys `pathmapDB_1` .. `pathmapDB_n` hold the `n` entries that were
    created, in that order, and no other; a stored entry never changes; the path map of every client
    is the replay of the entries up to its version; clients at the same version have the same path
    map; and an operation that has returned 0 has appended its entry exactly once. -/
theorem database_log_replicated {earlier later : List (ι × Choice)}
    {c c' : Config (Req ι) Res (State ι) ι Unit} (hrun : runFrom service (start calls) earlier = some c)
    (hrun' : runFrom service c later = some c') :
    (∀ n x, c.shared.log[n]? = some x → x.key = entryKey (n + 1)) ∧
    c.shared.store (entryKey 0) = none ∧
    (∀ n, c.shared.store (entryKey (n + 1)) =
      c.shared.log[n]?.map fun x => ⟨.entry x.entry, toStr (n + 1)⟩) ∧
    (∀ v r, c.shared.store (entryKey v) = some r → c'.shared.store (entryKey v) = some r) ∧
    (∀ i, (c.shared.pmap i).snapshotVersion ≤ c.shared.log.length ∧
      replay (c.shared.entries.take (c.shared.pmap i).snapshotVersion) = some (c.shared.pmap i)) ∧
    (∀ i j, (c.shared.pmap i).snapshotVersion = (c.shared.pmap j).snapshotVersion →
      c.shared.pmap i = c.shared.pmap j) ∧
    ∀ op entry, ⟨op, entry, 0⟩ ∈ c.shared.returned → c.shared.appendedBy op = [entry] := by
  have hrely : ∀ i j (s s' : State ι), i ≠ j → By (fun op => op.1 = i) i s s' → Others j s s' :=
    fun i j s s' hij hs => ⟨i, hij, hs⟩
  obtain ⟨hi, -, hsafe⟩ := runFrom_safe logInv_start hrely safe_start hrun
  obtain ⟨hi', hsteps, -⟩ := runFrom_safe hi hrely hsafe hrun'
  refine ⟨hi.keys, hi.first, hi.stored, fun v r => stored_of_grows hi hi' (log_grows hsteps),
    fun i => ⟨(hi.pmap i).version_le, (hi.pmap i).take⟩, fun i j hij => ?_,
    fun op entry hx => hi.returned _ hx rfl⟩
  have h := (hi.pmap i).take
  rw [hij, (hi.pmap j).take] at h
  exact (Option.some.inj h).symm

/-- One client moves `/a` to `/b`; the other then changes the permissions of `/b`, finds that its
    version is taken, updates and retries. -/
def moveAndChange : Option (Config (Req Bool) Res (State Bool) Bool Unit) :=
  runFrom service
    (start fun i => [.operation (if i then ⟨.MOVE, lit "/a", lit "/b"⟩ else ⟨.NONE, lit "/b", []⟩) 2])
    (List.replicate 7 (true, ⟨false, [lit "/b", lit "/a"]⟩) ++ List.replicate 13 (false, ⟨false, []⟩))

theorem database_log_replicated_two_clients :
    ∃ c, moveAndChange = some c ∧ c.shared.log.length = 2 ∧
      (c.shared.pmap true).snapshotVersion = 1 ∧ (c.shared.pmap false).snapshotVersion = 2 ∧
      (∀ i, replay (c.shared.entries.take (c.shared.pmap i).snapshotVersion) =
        some (c.shared.pmap i)) ∧
      c.shared.appendedBy (false, 0) = [⟨.NONE, lit "/b", []⟩] := by
  have hc : moveAndChange.any fun c => c.shared.log.length = 2 ∧
      (c.shared.pmap true).snapshotVersion = 1 ∧ (c.shared.pmap false).snapshotVersion = 2 ∧
      ⟨(false, 0), ⟨.NONE, lit "/b", []⟩, 0⟩ ∈ c.shared.returned := by decide
  obtain ⟨c, hc, h⟩ := (Option.any_eq_true _ _).mp hc
  obtain ⟨hlog, htrue, hfalse, hret⟩ := of_decide_eq_true h
  obtain ⟨-, -, -, -, hreplay, -, honce⟩ := 
    database_log_replicated hc (show runFrom service c [] = some c from rfl)
  exact ⟨c, hc, hlog, htrue, hfalse, fun i => (hreplay i).2, honce _ _ hret⟩

end Runs

end HFlat.Database
