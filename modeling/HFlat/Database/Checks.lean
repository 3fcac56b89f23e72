/-
  The assertions of the version bookkeeping: `dbVersion >= snapshotVersion` in `database_update`,
  and `entries.size() == toVersion - fromVersion` and `fromVersion <= snapshotVersion` in
  `updateSnapshot`.

  The programs are those of `HFlat.Database.Log` with every evaluation of an assertion as a step of
  its own; `erase` takes these steps out again and gives back the programs of that module. An
  assertion can fail: the version key is written after the entry, may be written late or not at
  all, and a client that probes the next entry or loads a serialized snapshot gets ahead of it. In
  runs in which the version key is never behind what a client reads (`orderly`), all of them hold.
-/
import HFlat.Lib.Protocol
import HFlat.Database.Log

namespace HFlat.Database.Checks

open HFlat.Lib HFlat.PathMap HFlat.Replication

/-! ## Assertions as steps -/

/-- The assertions of `database_update` and `updateSnapshot`, with the values that they compare. -/
inductive Assertion where
  | dbVersion (dbVersion snapshotVersion : Nat)
  | entriesSize (size toVersion fromVersion : Nat)
  | fromVersion (fromVersion snapshotVersion : Nat)
  deriving DecidableEq, Repr

/-- The assertion holds of its values. -/
def Assertion.Holds : Assertion → Prop
  | .dbVersion version snapshot => version ≥ snapshot
  | .entriesSize size last first => (size : Int) = (last : Int) - first
  | .fromVersion first snapshot => first ≤ snapshot

instance (a : Assertion) : Decidable a.Holds :=
  match a with
  | .dbVersion version snapshot => inferInstanceAs (Decidable (version ≥ snapshot))
  | .entriesSize size last first => inferInstanceAs (Decidable ((size : Int) = (last : Int) - first))
  | .fromVersion first snapshot => inferInstanceAs (Decidable (first ≤ snapshot))

variable {ι : Type}

/-- A store access of client `i`, or an assertion that it evaluates. -/
inductive Req (ι : Type) where
  | access (i : ι) (r : Database.Req ι)
  | check (i : ι) (a : Assertion)

/-- What the service answers to a request. -/
def Res : Req ι → Type
  | .access _ r => Database.Res r
  | .check _ _ => Unit

/-- Computations of a client that checks its assertions. -/
abbrev Client (ι α : Type) := Prog (Req ι) Res α

/-- The accesses of client `i`. -/
def accesses {α : Type} (i : ι) : Database.Client ι α → Client ι α
  | .ret a => .ret a
  | .call r k => .call (.access i r) fun x => accesses i (k x)
  | .stop => .stop

/-- One access to the database. -/
def request (i : ι) (r : Database.Req ι) : Client ι (Database.Res r) := .call (.access i r) .ret

/-- One assertion. -/
def check (i : ι) (a : Assertion) : Client ι Unit := .call (.check i a) .ret

/-! ## The programs -/

/-- `updateSnapshot`; an entry that cannot be applied ends the client. -/
def updateSnapshot (i : ι) (db : PathMapDB) (entries : List DbEntry) (fromVersion toVersion : Nat) :
    Client ι PathMapDB := do
  check i (.entriesSize entries.length toVersion fromVersion)
  check i (.fromVersion fromVersion db.snapshotVersion)
  match PathMap.updateSnapshot db entries fromVersion toVersion with
  | none => .stop
  | some db => return db

/-- The part of `util::database_update` that reads entry after entry. -/
def updateEntries (i : ι) (dbVersion : Nat) : Client ι Int := do
  let db : PathMapDB ← request i (.pmap i)
  match ← accesses i (getDbEntries (db.snapshotVersion + 1) (dbVersion - db.snapshotVersion)) with
  | .error err => return err
  | .ok entries =>
      let db' ← updateSnapshot i db entries db.snapshotVersion dbVersion
      let _ ← request i (.setPmap i db')
      return 0

/-- The rest of `util::database_update` once the version is known: the stored snapshot first, if it
    pays. -/
def updateTo (i : ι) (dbVersion : Nat) : Client ι Int := do
  let db : PathMapDB ← request i (.pmap i)
  if dbVersion - db.snapshotVersion > 42 then
    match ← accesses i getDbSnapshot with
    | .error _ => updateEntries i dbVersion
    | .ok s =>
        let _ ← request i (.setPmap i (loadSnapshot db s))
        updateEntries i dbVersion
  else updateEntries i dbVersion

/-- `util::database_update` with its assertions. -/
def databaseUpdate (i : ι) : Client ι Int := do
  let db : PathMapDB ← request i (.pmap i)
  match ← accesses i getDbVersion with
  | .error err => return err
  | .ok dbVersion =>
      check i (.dbVersion dbVersion db.snapshotVersion)
      if dbVersion = db.snapshotVersion then
        match ← accesses i (getDbEntry (dbVersion + 1)) with
        | .error _ => return -EALREADY
        | .ok _ => updateTo i (dbVersion + 1)
      else updateTo i dbVersion

/-- The rest of `util::database_operation` once the entry is stored, with the assertions of
    `updateSnapshot`. -/
def applyOwnEntry (i : ι) (op : Op ι) (entry : DbEntry) (db : PathMapDB) : Client ι Int := do
  let db' ← updateSnapshot i db [entry] db.snapshotVersion (db.snapshotVersion + 1)
  let _ ← request i (.setPmap i db')
  if db.snapshotVersion % 42 = 0 then
    let s : DbSnapshot ← request i (.serialize db')
    let _ ← accesses i (putDbSnapshot op s)
    return 0
  return 0

/-- `database_operation`, with a bound on the number of retries. -/
def databaseOperation (i : ι) (op : Op ι) (entry : DbEntry) : Nat → Client ι Int
  | 0 => .stop
  | fuel + 1 => do
      let db : PathMapDB ← request i (.pmap i)
      let err ← accesses i (putDbEntry op (db.snapshotVersion + 1) entry)
      if err = 0 then applyOwnEntry i op entry db
      else if err ≠ -EEXIST then return err
      else
        let err ← databaseUpdate i
        if err ≠ 0 then return err
        databaseOperation i op entry fuel

/-- The calls of client `i`, the first one with number `k`. -/
def session (i : ι) : Nat → List Call → Client ι Unit
  | _, [] => return ()
  | k, .operation entry fuel :: calls => do
      let code ← databaseOperation i (i, k) entry fuel
      let _ ← request i (.returned (i, k) entry code)
      session i (k + 1) calls
  | k, .update :: calls => do
      let _ ← databaseUpdate i
      session i (k + 1) calls

/-! ## Without the assertions -/

section Erase

variable {α β : Type}

/-- The program of accesses only: an assertion that fails ends the client. -/
def erase : Client ι α → Database.Client ι α
  | .ret a => .ret a
  | .call (.access _ r) k => .call r fun x => erase (k x)
  | .call (.check _ a) k => if a.Holds then erase (k ()) else .stop
  | .stop => .stop

theorem erase_bind (m : Client ι α) (f : α → Client ι β) :
    erase (m >>= f) = erase m >>= fun a => erase (f a) := by
  induction m with
  | ret a => rfl
  | stop => rfl
  | call r k ih =>
    cases r with
    | access i r =>
      show Prog.call r (fun x => erase (k x >>= f)) = Prog.call r fun x => erase (k x) >>= fun a => erase (f a)
      congr 1
      funext x
      exact ih x
    | check i a =>
      show (if a.Holds then erase (k () >>= f) else .stop) =
        (if a.Holds then erase (k ()) else .stop) >>= fun a => erase (f a)
      split
      · exact ih ()
      · rfl

theorem erase_accesses (i : ι) (m : Database.Client ι α) : erase (accesses i m) = m := by
  induction m with
  | ret a => rfl
  | stop => rfl
  | call r k ih =>
    show Prog.call r (fun x => erase (accesses i (k x))) = Prog.call r k
    congr 1
    funext x
    exact ih x

theorem erase_request_bind {i : ι} {r : Database.Req ι} {f : Database.Res r → Client ι β}
    {g : Database.Res r → Database.Client ι β} (h : ∀ x, erase (f x) = g x) :
    erase (request i r >>= f) = Database.request r >>= g := by
  rw [← funext h]
  rfl

theorem erase_updateSnapshot_bind (i : ι) (db : PathMapDB) (entries : List DbEntry)
    (fromVersion toVersion : Nat) (f : PathMapDB → Client ι β) :
    erase (updateSnapshot i db entries fromVersion toVersion >>= f) =
      match PathMap.updateSnapshot db entries fromVersion toVersion with
      | none => .stop
      | some db' => erase (f db') := by
  rw [erase_bind]
  show (if (entries.length : Int) = (toVersion : Int) - fromVersion then
    (if fromVersion ≤ db.snapshotVersion then _ else Prog.stop) else Prog.stop) >>= _ = _
  by_cases hs : (entries.length : Int) = (toVersion : Int) - fromVersion
  · by_cases hf : fromVersion ≤ db.snapshotVersion
    · rw [if_pos hs, if_pos hf]
      cases PathMap.updateSnapshot db entries fromVersion toVersion <;> rfl
    · rw [if_pos hs, if_neg hf]
      have hnone : PathMap.updateSnapshot db entries fromVersion toVersion = none := by
        unfold PathMap.updateSnapshot
        rw [if_pos (Or.inr (by omega))]
      rw [hnone]
      rfl
  · rw [if_neg hs]
    have hnone : PathMap.updateSnapshot db entries fromVersion toVersion = none := by
      unfold PathMap.updateSnapshot
      rw [if_pos (Or.inl (by omega))]
    rw [hnone]
    rfl

theorem erase_updateEntries (i : ι) (dbVersion : Nat) :
    erase (updateEntries i dbVersion) = Database.updateEntries i dbVersion := by
  unfold updateEntries Database.updateEntries
  refine erase_request_bind (r := .pmap i) fun (db : PathMapDB) => ?_
  rw [erase_bind, erase_accesses]
  congr 1
  funext entries
  cases entries with
  | error err => rfl
  | ok entries =>
    dsimp only
    rw [erase_updateSnapshot_bind]
    rfl

theorem erase_updateTo (i : ι) (dbVersion : Nat) :
    erase (updateTo i dbVersion) = Database.updateTo i dbVersion := by
  unfold updateTo Database.updateTo
  refine erase_request_bind (r := .pmap i) fun (db : PathMapDB) => ?_
  split
  · rw [erase_bind, erase_accesses]
    congr 1
    funext s
    cases s with
    | error err => exact erase_updateEntries i dbVersion
    | ok s =>
      dsimp only
      exact erase_request_bind (r := .setPmap i (loadSnapshot db s)) fun _ => erase_updateEntries i dbVersion
  · exact erase_updateEntries i dbVersion

theorem erase_databaseUpdate (i : ι) : erase (databaseUpdate i) = Database.databaseUpdate i := by
  unfold databaseUpdate Database.databaseUpdate
  refine erase_request_bind (r := .pmap i) fun (db : PathMapDB) => ?_
  rw [erase_bind, erase_accesses]
  congr 1
  funext version
  cases version with
  | error err => rfl
  | ok dbVersion =>
    show (if dbVersion ≥ db.snapshotVersion then erase (if dbVersion = db.snapshotVersion then _ else _)
      else .stop) = _
    dsimp only
    by_cases hlt : dbVersion < db.snapshotVersion
    · rw [if_neg (by omega), if_pos hlt]
    · rw [if_pos (by omega), if_neg hlt]
      split
      · rw [erase_bind, erase_accesses]
        congr 1
        funext entry
        cases entry with
        | error err => rfl
        | ok entry => exact erase_updateTo i _
      · exact erase_updateTo i _

theorem erase_applyOwnEntry (i : ι) (op : Op ι) (entry : DbEntry) (db : PathMapDB) :
    erase (applyOwnEntry i op entry db) = Database.applyOwnEntry i op entry db := by
  unfold applyOwnEntry Database.applyOwnEntry
  rw [erase_updateSnapshot_bind]
  cases PathMap.updateSnapshot db [entry] db.snapshotVersion (db.snapshotVersion + 1) with
  | none => rfl
  | some db' =>
    dsimp only
    refine erase_request_bind (r := .setPmap i db') fun _ => ?_
    split
    · refine erase_request_bind (r := .serialize db') fun s => ?_
      rw [erase_bind, erase_accesses]
      rfl
    · rfl

theorem erase_databaseOperation (i : ι) (op : Op ι) (entry : DbEntry) (fuel : Nat) :
    erase (databaseOperation i op entry fuel) = Database.databaseOperation i op entry fuel := by
  induction fuel with
  | zero => rfl
  | succ fuel ih =>
    unfold databaseOperation Database.databaseOperation
    refine erase_request_bind (r := .pmap i) fun (db : PathMapDB) => ?_
    rw [erase_bind, erase_accesses]
    congr 1
    funext err
    split
    · exact erase_applyOwnEntry i op entry db
    · split
      · rfl
      · rw [erase_bind, erase_databaseUpdate]
        congr 1
        funext err
        split
        · rfl
        · exact ih

/-- The sessions of `HFlat.Database.Log` are those of this module without the assertions. -/
theorem erase_session (i : ι) (k : Nat) (calls : List Call) :
    erase (session i k calls) = Database.session i k calls := by
  induction calls generalizing k with
  | nil => rfl
  | cons call calls ih =>
    cases call with
    | operation entry fuel =>
      unfold session Database.session
      rw [erase_bind, erase_databaseOperation]
      congr 1
      funext code
      exact erase_request_bind (r := .returned (i, k) entry code) fun _ => ih (k + 1)
    | update =>
      unfold session Database.session
      rw [erase_bind, erase_databaseUpdate]
      congr 1
      funext _
      exact ih (k + 1)

end Erase

/-! ## Runs -/

/-- The version that the version key holds, as `get_db_version` reads it. -/
def dbVersionOf (s : State ι) : Nat := toInt64 (versionOf (s.store dbVersionKey))

/-- The number in the name of a database key. -/
def keyNumber (key : Str) : Nat := toInt64 (key.drop dbBaseName.length)

/-- The state of the store, and the version that each client has read last. -/
abbrev Observed (ι : Type) := State ι × (ι → Nat)

section Service

variable [DecidableEq ι]

/-- The versions read, after an access of client `i` and its answer. -/
def noteVersion (seen : ι → Nat) (i : ι) : (r : Database.Req ι) → Database.Res r → ι → Nat
  | .getVersion _, answer =>
      let answer : StatusCode × Str := answer
      if answer.1 = .REMOTE_REMOTE_CONNECTION_ERROR then seen
      else Function.update seen i (toInt64 answer.2)
  | _, _ => seen

/-- One access, or one assertion, of a client. -/
def serve (s : Observed ι) : (r : Req ι) → Choice → Option (Res r × Observed ι)
  | .access i r, choice =>
      (Database.serve s.1 r choice).map fun result => (result.1, result.2, noteVersion s.2 i r result.1)
  | .check _ _, _ => some ((), s)

/-- The database with the versions that each client has seen. -/
def service : Service (Req ι) Res Choice (Observed ι) := ⟨serve⟩

/-- The version of a stored snapshot. -/
def snapshotVersionOf (s : State ι) : Nat :=
  match s.store snapshotKey with
  | some ⟨.snapshot x, _⟩ => x.snapshotVersion
  | _ => 0

/-- A version is written to the version key, and is not below the one it holds; an entry is read
    only once the version key has reached it; and the serialized snapshot that a client loads is
    not newer than the version that it has read. A read that fails does not matter. -/
def orderly (s : Observed ι) : Req ι → Choice → Bool
  | .access _ (.put _ key _ _ record), choice =>
      key = dbVersionKey → choice.fails = false ∧ dbVersionOf s.1 ≤ toInt64 record.version
  | .access i (.get key), choice =>
      choice.fails = false → (s.1.store key ≠ none → keyNumber key ≤ dbVersionOf s.1) ∧
        (key = snapshotKey → snapshotVersionOf s.1 ≤ s.2 i)
  | _, _ => true

/-- Clients with empty snapshots and an empty database. -/
def start (calls : ι → List Call) : Config (Req ι) Res (Observed ι) ι Unit :=
  ⟨((Database.start calls).shared, fun _ => 0), fun i => session i 0 (calls i)⟩

end Service

/-! ## What a client knows -/

/-- `floor`: the version key has reached this version; `own`: the version of the client's own path
    map; `seen`: the version that the client has read last. -/
structure Known where
  floor : Nat
  own : Nat
  seen : Nat

/-- What an access of client `i` may ask for. -/
def Allowed (i : ι) (t : Known) : Database.Req ι → Prop
  | .pmap k => k = i
  | .setPmap k db => k = i ∧ db.snapshotVersion ≤ t.floor
  | .put _ key _ mode _ => key = dbVersionKey → mode = .IGNORE_VERSION
  | _ => True

/-- What a client may rely on in an answer. -/
def Answers (t : Known) : (r : Database.Req ι) → Database.Res r → Prop
  | .pmap _, db =>
      let db : PathMapDB := db
      db.snapshotVersion = t.own
  | .getVersion key, answer =>
      let answer : StatusCode × Str := answer
      (answer.1 = .REMOTE_NOT_FOUND → answer.2 = []) ∧
        (key = dbVersionKey → answer.1 ≠ .REMOTE_REMOTE_CONNECTION_ERROR → t.floor ≤ toInt64 answer.2)
  | .get key, answer =>
      let answer : StatusCode × Option (KineticRecord Value) := answer
      key = snapshotKey → ∀ x v, answer.2 = some ⟨.snapshot x, v⟩ → x.snapshotVersion ≤ t.seen
  | _, _ => True

/-- What a client knows after an answer. -/
def Known.next (t : Known) : (r : Database.Req ι) → Database.Res r → Known
  | .setPmap _ db, _ => { t with own := db.snapshotVersion }
  | .getVersion key, answer =>
      let answer : StatusCode × Str := answer
      if answer.1 = .REMOTE_REMOTE_CONNECTION_ERROR then t
      else { t with
        floor := if key = dbVersionKey then max t.floor (toInt64 answer.2) else t.floor
        seen := toInt64 answer.2 }
  | .get key, answer =>
      let answer : StatusCode × Option (KineticRecord Value) := answer
      if answer.2 = none then t else { t with floor := max t.floor (keyNumber key) }
  | .put _ key _ _ record, _ =>
      if key = dbVersionKey then { t with floor := max t.floor (toInt64 record.version) } else t
  | _, _ => t

/-- The assertions that are checked hold. -/
def protocol (i : ι) : Protocol (Req ι) Res Known where
  allowed t
    | .access j r => j = i ∧ Allowed i t r
    | .check _ a => a.Holds
  answers t
    | .access _ r, x => Answers t r x
    | .check _ _, _ => True
  next t
    | .access _ r, x => t.next r x
    | .check _ _, _ => t

/-- The same path map and version read, and more of the version key. -/
structure Grew (t t' : Known) : Prop where
  own : t'.own = t.own
  seen : t'.seen = t.seen
  floor : t.floor ≤ t'.floor

theorem Grew.refl (t : Known) : Grew t t := ⟨rfl, rfl, Nat.le_refl _⟩

theorem Grew.trans {t t' t'' : Known} (h : Grew t t') (h' : Grew t' t'') : Grew t t'' :=
  ⟨h'.own.trans h.own, h'.seen.trans h.seen, h.floor.trans h'.floor⟩

section Conforms

variable {i : ι} {t : Known}

theorem keyNumber_entryKey (v : Nat) : keyNumber (entryKey v) = v := by
  unfold keyNumber entryKey
  rw [List.drop_left]
  exact toInt64_toStr v

/-- After a read of a key that holds a record, the version key has reached its number. -/
theorem grew_get (t : Known) (key : Str) (answer : StatusCode × Option (KineticRecord Value)) :
    Grew t (t.next (ι := ι) (.get key) answer) ∧
      (answer.2 ≠ none → keyNumber key ≤ (t.next (ι := ι) (.get key) answer).floor) := by
  show Grew t (if answer.2 = none then t else _) ∧
    (answer.2 ≠ none → keyNumber key ≤ (if answer.2 = none then t else _ : Known).floor)
  by_cases hnone : answer.2 = none
  · rw [if_pos hnone]
    exact ⟨Grew.refl t, fun h => absurd hnone h⟩
  · rw [if_neg hnone]
    exact ⟨⟨rfl, rfl, Nat.le_max_left _ _⟩, fun _ => Nat.le_max_right _ _⟩

theorem getDbEntry_conforms (v : Nat) :
    (accesses i (getDbEntry v)).Conforms (protocol i) (fun r t' => Grew t t' ∧
      ∀ e, r = .ok e → v ≤ t'.floor) t := by
  refine ⟨⟨rfl, trivial⟩, fun (answer : StatusCode × Option (KineticRecord Value)) _ => ?_⟩
  obtain ⟨hgrew, hfloor⟩ := grew_get (ι := ι) t (entryKey v) answer
  rw [keyNumber_entryKey] at hfloor
  have herror : ∀ err, (accesses i (pure (.error err) : Database.Client ι (Except Int DbEntry))).Conforms
      (protocol i) (fun r t' => Grew t t' ∧ ∀ e, r = .ok e → v ≤ t'.floor)
      (t.next (ι := ι) (.get (entryKey v)) answer) := fun err => ⟨hgrew, fun e he => by cases he⟩
  show Prog.Conforms (protocol i) _ (accesses i (if answer.1 = .REMOTE_NOT_FOUND then _ else _)) _
  split
  · exact herror _
  · show Prog.Conforms (protocol i) _ (accesses i (if answer.1 ≠ .OK then _ else _)) _
    split
    · exact herror _
    · obtain ⟨status, record⟩ := answer
      cases record with
      | none => exact herror _
      | some record =>
        obtain ⟨value, version⟩ := record
        cases value with
        | entry e => exact ⟨hgrew, fun _ _ => hfloor (Option.some_ne_none _)⟩
        | snapshot x => exact herror _
        | empty => exact herror _

theorem accesses_bind {α β : Type} (i : ι) (m : Database.Client ι α) (f : α → Database.Client ι β) :
    accesses i (m >>= f) = accesses i m >>= fun a => accesses i (f a) := by
  induction m with
  | ret a => rfl
  | stop => rfl
  | call r k ih =>
    exact congrArg (fun k : Database.Res r → Client ι β => (Prog.call (Req.access i r) k : Client ι β))
      (funext ih)

theorem getDbEntries_conforms (v n : Nat) :
    (accesses i (getDbEntries v n)).Conforms (protocol i) (fun r t' => Grew t t' ∧
      ∀ entries, r = .ok entries → entries.length = n) t := by
  induction n generalizing v t with
  | zero =>
    refine ⟨Grew.refl t, fun entries he => ?_⟩
    cases he
    rfl
  | succ n ih =>
    unfold getDbEntries
    rw [accesses_bind]
    refine Prog.Conforms.bind ((getDbEntry_conforms v).mono ?_)
    rintro (err | entry) t1 ⟨h1, -⟩
    · exact ⟨h1, fun entries he => by cases he⟩
    · show Prog.Conforms (protocol i) _ (accesses i (getDbEntries (v + 1) n >>= _)) _
      rw [accesses_bind]
      refine Prog.Conforms.bind ((ih (v + 1)).mono ?_)
      rintro (err | entries) t2 ⟨h2, hlen⟩
      · exact ⟨h1.trans h2, fun entries he => by cases he⟩
      · refine ⟨h1.trans h2, fun all he => ?_⟩
        cases he
        rw [List.length_cons, hlen entries rfl]

/-- After a read of the version key, the client knows it. -/
theorem next_getVersion (t : Known) (answer : StatusCode × Str) :
    (t.next (ι := ι) (.getVersion dbVersionKey) answer).own = t.own ∧
      t.floor ≤ (t.next (ι := ι) (.getVersion dbVersionKey) answer).floor ∧
      (answer.1 ≠ .REMOTE_REMOTE_CONNECTION_ERROR →
        toInt64 answer.2 ≤ (t.next (ι := ι) (.getVersion dbVersionKey) answer).floor ∧
        (t.next (ι := ι) (.getVersion dbVersionKey) answer).seen = toInt64 answer.2) := by
  show (if answer.1 = .REMOTE_REMOTE_CONNECTION_ERROR then t else _ : Known).own = t.own ∧
    t.floor ≤ (if answer.1 = .REMOTE_REMOTE_CONNECTION_ERROR then t else _ : Known).floor ∧
    (answer.1 ≠ .REMOTE_REMOTE_CONNECTION_ERROR →
      toInt64 answer.2 ≤ (if answer.1 = .REMOTE_REMOTE_CONNECTION_ERROR then t else _ : Known).floor ∧
      (if answer.1 = .REMOTE_REMOTE_CONNECTION_ERROR then t else _ : Known).seen = toInt64 answer.2)
  by_cases he : answer.1 = .REMOTE_REMOTE_CONNECTION_ERROR
  · rw [if_pos he]
    exact ⟨rfl, Nat.le_refl _, fun h => absurd he h⟩
  · rw [if_neg he, if_pos rfl]
    exact ⟨rfl, Nat.le_max_left _ _, fun _ => ⟨Nat.le_max_right _ _, rfl⟩⟩

theorem getDbVersion_conforms :
    (accesses i getDbVersion).Conforms (protocol i) (fun r t' => t'.own = t.own ∧ t.floor ≤ t'.floor ∧
      ∀ v, r = .ok v → t.floor ≤ v ∧ v ≤ t'.floor ∧ t'.seen = v) t := by
  refine ⟨⟨rfl, trivial⟩, fun (answer : StatusCode × Str) hanswer => ?_⟩
  obtain ⟨hempty, hfloor⟩ : (answer.1 = .REMOTE_NOT_FOUND → answer.2 = []) ∧ (dbVersionKey = dbVersionKey →
    answer.1 ≠ .REMOTE_REMOTE_CONNECTION_ERROR → t.floor ≤ toInt64 answer.2) := hanswer
  obtain ⟨hown, hle, hnext⟩ := next_getVersion (ι := ι) t answer
  show Prog.Conforms (protocol i) _ (accesses i (if answer.1 = .REMOTE_NOT_FOUND then _ else _)) _
  by_cases hnot : answer.1 = .REMOTE_NOT_FOUND
  · rw [if_pos hnot]
    have hne : answer.1 ≠ .REMOTE_REMOTE_CONNECTION_ERROR := by rw [hnot]; decide
    have hzero : toInt64 answer.2 = 0 := by rw [hempty hnot]; rfl
    have hfloor' := hfloor rfl hne
    have hnext' := hnext hne
    rw [hzero] at hfloor' hnext'
    refine ⟨hown, hle, fun v hv => ?_⟩
    cases hv
    exact ⟨hfloor', hnext'⟩
  · rw [if_neg hnot]
    show Prog.Conforms (protocol i) _ (accesses i (if answer.1 ≠ .OK then _ else _)) _
    by_cases hok : answer.1 = .OK
    · rw [if_neg (not_not.mpr hok)]
      have hne : answer.1 ≠ .REMOTE_REMOTE_CONNECTION_ERROR := by rw [hok]; decide
      refine ⟨hown, hle, fun v hv => ?_⟩
      cases hv
      exact ⟨hfloor rfl hne, hnext hne⟩
    · rw [if_pos hok]
      exact ⟨hown, hle, fun v hv => by cases hv⟩

theorem getDbSnapshot_conforms :
    (accesses i getDbSnapshot).Conforms (protocol i) (fun r t' => Grew t t' ∧
      ∀ s, r = .ok s → s.snapshotVersion ≤ t.seen) t := by
  refine ⟨⟨rfl, trivial⟩, fun (answer : StatusCode × Option (KineticRecord Value)) hanswer => ?_⟩
  have hseen : ∀ x v, answer.2 = some ⟨.snapshot x, v⟩ → x.snapshotVersion ≤ t.seen := hanswer rfl
  obtain ⟨hgrew, -⟩ := grew_get (ι := ι) t snapshotKey answer
  show Prog.Conforms (protocol i) _ (accesses i (if answer.1 ≠ .OK then _ else _)) _
  split
  · exact ⟨hgrew, fun s hs => by cases hs⟩
  · obtain ⟨status, record⟩ := answer
    cases record with
    | none => exact ⟨hgrew, fun s hs => by cases hs⟩
    | some record =>
      obtain ⟨value, version⟩ := record
      cases value with
      | entry e => exact ⟨hgrew, fun s hs => by cases hs⟩
      | snapshot x =>
        refine ⟨hgrew, fun s hs => ?_⟩
        cases hs
        exact hseen x version rfl
      | empty => exact ⟨hgrew, fun s hs => by cases hs⟩

/-- A batch that fits its versions brings the path map to the last of them. -/
theorem updateSnapshot_conforms {db : PathMapDB} {entries : List DbEntry} {toVersion : Nat}
    (hsize : db.snapshotVersion + entries.length = toVersion) :
    (updateSnapshot i db entries db.snapshotVersion toVersion).Conforms (protocol i)
      (fun db' t' => t' = t ∧ db'.snapshotVersion = toVersion) t := by
  have hs : (entries.length : Int) = (toVersion : Int) - db.snapshotVersion := by omega
  refine ⟨hs, fun _ _ => ⟨Nat.le_refl _, fun _ _ => ?_⟩⟩
  show Prog.Conforms (protocol i) _ (match PathMap.updateSnapshot db entries db.snapshotVersion toVersion with
    | none => _
    | some db => _) _
  split
  · trivial
  · rename_i db' hdb'
    refine ⟨rfl, ?_⟩
    rw [foldlM_applyEntry_version (updateSnapshot_eq hdb'), hsize]

/-- What a client needs to know to start, and knows again at the end. -/
def Ready (t : Known) : Prop := t.own ≤ t.floor

theorem updateEntries_conforms {dbVersion : Nat} (hown : t.own ≤ dbVersion) (hfloor : dbVersion ≤ t.floor) :
    (updateEntries i dbVersion).Conforms (protocol i) (fun _ t' => Ready t') t := by
  refine ⟨⟨rfl, rfl⟩, fun (db : PathMapDB) (hdb : db.snapshotVersion = t.own) => ?_⟩
  show (accesses i (getDbEntries (db.snapshotVersion + 1) (dbVersion - db.snapshotVersion)) >>= _).Conforms
    (protocol i) _ t
  refine Prog.Conforms.bind ((getDbEntries_conforms _ _).mono ?_)
  rintro (err | entries) t1 ⟨h1, hlen⟩
  · show t1.own ≤ t1.floor
    rw [h1.own]
    exact (hown.trans hfloor).trans h1.floor
  · have hsize : db.snapshotVersion + entries.length = dbVersion := by
      rw [hlen entries rfl]
      omega
    refine Prog.Conforms.bind ((updateSnapshot_conforms hsize).mono ?_)
    rintro db' t2 ⟨ht2, hversion⟩
    have hle : db'.snapshotVersion ≤ t2.floor := by
      rw [hversion, ht2]
      exact hfloor.trans h1.floor
    exact ⟨⟨rfl, rfl, hle⟩, fun _ _ => hle⟩

theorem loadSnapshot_version (db : PathMapDB) (s : DbSnapshot) :
    (loadSnapshot db s).snapshotVersion = max db.snapshotVersion s.snapshotVersion := by
  unfold loadSnapshot
  split
  · omega
  · show s.snapshotVersion = _
    omega

theorem updateTo_conforms {dbVersion : Nat} (hown : t.own ≤ dbVersion) (hfloor : dbVersion ≤ t.floor)
    (hseen : t.seen ≤ dbVersion) : (updateTo i dbVersion).Conforms (protocol i) (fun _ t' => Ready t') t := by
  refine ⟨⟨rfl, rfl⟩, fun (db : PathMapDB) (hdb : db.snapshotVersion = t.own) => ?_⟩
  show Prog.Conforms (protocol i) _ (if dbVersion - db.snapshotVersion > 42 then _ else _) t
  split
  · refine Prog.Conforms.bind (getDbSnapshot_conforms.mono ?_)
    rintro (err | s) t1 ⟨h1, hs⟩
    · exact updateEntries_conforms (h1.own.le.trans hown) (hfloor.trans h1.floor)
    · have hversion : (loadSnapshot db s).snapshotVersion ≤ dbVersion := by
        rw [loadSnapshot_version, hdb]
        exact max_le hown ((hs s rfl).trans hseen)
      exact ⟨⟨rfl, rfl, hversion.trans (hfloor.trans h1.floor)⟩,
        fun _ _ => updateEntries_conforms hversion (hfloor.trans h1.floor)⟩
  · exact updateEntries_conforms hown hfloor

theorem databaseUpdate_conforms (h : Ready t) :
    (databaseUpdate i).Conforms (protocol i) (fun _ t' => Ready t') t := by
  refine ⟨⟨rfl, rfl⟩, fun (db : PathMapDB) (hdb : db.snapshotVersion = t.own) => ?_⟩
  show (accesses i getDbVersion >>= _).Conforms (protocol i) _ t
  refine Prog.Conforms.bind (getDbVersion_conforms.mono ?_)
  rintro (err | dbVersion) t1 ⟨hown, hle, hv⟩
  · show t1.own ≤ t1.floor
    exact hown.le.trans (h.trans hle)
  · obtain ⟨hfloor, hfloor1, hseen⟩ := hv dbVersion rfl
    have hcheck : dbVersion ≥ db.snapshotVersion := by
      rw [hdb]
      exact h.trans hfloor
    refine ⟨hcheck, fun _ _ => ?_⟩
    show Prog.Conforms (protocol i) _ (if dbVersion = db.snapshotVersion then _ else _) t1
    split
    · refine Prog.Conforms.bind ((getDbEntry_conforms (dbVersion + 1)).mono ?_)
      rintro (err | entry) t2 ⟨h2, hentry⟩
      · show t2.own ≤ t2.floor
        rw [h2.own, hown]
        exact h.trans (hle.trans h2.floor)
      · refine updateTo_conforms ?_ (hentry entry rfl) ?_
        · rw [h2.own, hown]
          omega
        · rw [h2.seen, hseen]
          omega
    · exact updateTo_conforms (by omega) hfloor1 hseen.le

/-- An operation whose entry is in the log has brought the version key to it. -/
theorem putDbEntry_conforms (op : Op ι) (version : Nat) (entry : DbEntry) :
    (accesses i (putDbEntry op version entry)).Conforms (protocol i) (fun err t' => Grew t t' ∧
      (err = 0 → version ≤ t'.floor)) t := by
  have hne : entryKey version ≠ dbVersionKey := fun h => versionKey_ne_entryKey version h.symm
  refine ⟨⟨rfl, fun h => absurd h hne⟩, fun (status : StatusCode) _ => ?_⟩
  have hnext : t.next (ι := ι) (.put op (entryKey version) [] .REQUIRE_SAME_VERSION
    ⟨.entry entry, toStr version⟩) status = t := if_neg hne
  show Prog.Conforms (protocol i) _ (accesses i (if status = .REMOTE_VERSION_MISMATCH then _ else _))
    (t.next (ι := ι) (.put op (entryKey version) [] .REQUIRE_SAME_VERSION ⟨.entry entry, toStr version⟩) status)
  rw [hnext]
  split
  · exact ⟨Grew.refl t, fun h => absurd h (by decide)⟩
  · show Prog.Conforms (protocol i) _ (accesses i (if status ≠ .OK then _ else _)) t
    split
    · exact ⟨Grew.refl t, fun h => absurd h (by decide)⟩
    · refine ⟨⟨rfl, fun _ => rfl⟩, fun (_ : StatusCode) _ => ?_⟩
      refine ⟨⟨rfl, rfl, Nat.le_max_left _ _⟩, fun _ => ?_⟩
      show version ≤ max t.floor (toInt64 (toStr version))
      rw [toInt64_toStr]
      exact Nat.le_max_right _ _

theorem applyOwnEntry_conforms (op : Op ι) (entry : DbEntry) {db : PathMapDB}
    (hfloor : db.snapshotVersion + 1 ≤ t.floor) :
    (applyOwnEntry i op entry db).Conforms (protocol i) (fun _ t' => Ready t') t := by
  have hsize : db.snapshotVersion + [entry].length = db.snapshotVersion + 1 := rfl
  refine Prog.Conforms.bind ((updateSnapshot_conforms hsize).mono ?_)
  rintro db' t1 ⟨rfl, hversion⟩
  have hle : db'.snapshotVersion ≤ t1.floor := hversion.le.trans hfloor
  refine ⟨⟨rfl, rfl, hle⟩, fun _ _ => ?_⟩
  show Prog.Conforms (protocol i) _ (if db.snapshotVersion % 42 = 0 then _ else _) _
  split
  · refine ⟨⟨rfl, trivial⟩, fun s _ => ⟨⟨rfl, fun h => ?_⟩, fun (status : StatusCode) _ => ?_⟩⟩
    · exact absurd h (by decide)
    · show Prog.Conforms (protocol i) _ (accesses i (if status ≠ .OK then _ else _) >>= _) _
      split
      · exact hle
      · exact hle
  · exact hle

theorem databaseOperation_conforms (op : Op ι) (entry : DbEntry) (fuel : Nat) (h : Ready t) :
    (databaseOperation i op entry fuel).Conforms (protocol i) (fun _ t' => Ready t') t := by
  induction fuel generalizing t with
  | zero => trivial
  | succ fuel ih =>
    refine ⟨⟨rfl, rfl⟩, fun (db : PathMapDB) (hdb : db.snapshotVersion = t.own) => ?_⟩
    show (accesses i (putDbEntry op (db.snapshotVersion + 1) entry) >>= _).Conforms (protocol i) _ t
    refine Prog.Conforms.bind ((putDbEntry_conforms op _ entry).mono ?_)
    rintro err t1 ⟨h1, hok⟩
    have hready : Ready t1 := h1.own.le.trans (h.trans h1.floor)
    show Prog.Conforms (protocol i) _ (if err = 0 then _ else _) t1
    split
    · rename_i herr
      exact applyOwnEntry_conforms op entry (hok herr)
    · split
      · exact hready
      · refine Prog.Conforms.bind ((databaseUpdate_conforms hready).mono fun err t2 h2 => ?_)
        split
        · exact h2
        · exact ih h2

theorem session_conforms (k : Nat) (calls : List Call) (h : Ready t) :
    (session i k calls).Conforms (protocol i) (fun _ t' => Ready t') t := by
  induction calls generalizing k t with
  | nil => exact h
  | cons call calls ih =>
    cases call with
    | operation entry fuel =>
      refine Prog.Conforms.bind ((databaseOperation_conforms (i, k) entry fuel h).mono fun code t1 h1 => ?_)
      exact ⟨⟨rfl, trivial⟩, fun _ _ => ih (k + 1) h1⟩
    | update =>
      exact Prog.Conforms.bind ((databaseUpdate_conforms h).mono fun _ t1 h1 => ih (k + 1) h1)

end Conforms

/-! ## The invariant -/

section Invariant

variable [DecidableEq ι]

/-- What every client knows is so. -/
structure KnownInv (s : Observed ι) (t : ι → Known) : Prop where
  floor : ∀ i, (t i).floor ≤ dbVersionOf s.1
  own : ∀ i, (t i).own = (s.1.pmap i).snapshotVersion
  seen : ∀ i, (t i).seen = s.2 i

/-- A step of client `i` that leaves the other path maps and versions read alone, and takes the
    version key no lower. -/
theorem KnownInv.step {s s' : Observed ι} {t : ι → Known} {i : ι} {k : Known} (h : KnownInv s t)
    (hversion : dbVersionOf s.1 ≤ dbVersionOf s'.1) (hfloor : k.floor ≤ dbVersionOf s'.1)
    (hpmap : ∀ j, j ≠ i → s'.1.pmap j = s.1.pmap j) (hown : k.own = (s'.1.pmap i).snapshotVersion)
    (hreads : ∀ j, j ≠ i → s'.2 j = s.2 j) (hseen : k.seen = s'.2 i) :
    KnownInv s' (Function.update t i k) := by
  refine ⟨fun j => ?_, fun j => ?_, fun j => ?_⟩
  · by_cases hj : j = i
    · subst hj
      rw [Function.update_self]
      exact hfloor
    · rw [Function.update_of_ne hj]
      exact (h.floor j).trans hversion
  · by_cases hj : j = i
    · subst hj
      rw [Function.update_self]
      exact hown
    · rw [Function.update_of_ne hj, hpmap j hj]
      exact h.own j
  · by_cases hj : j = i
    · subst hj
      rw [Function.update_self]
      exact hseen
    · rw [Function.update_of_ne hj, hreads j hj]
      exact h.seen j

/-- A step that changes nothing of what is known. -/
theorem KnownInv.same {s s' : Observed ι} {t : ι → Known} {i : ι} (h : KnownInv s t)
    (hversion : dbVersionOf s'.1 = dbVersionOf s.1) (hpmap : s'.1.pmap = s.1.pmap) (hreads : s'.2 = s.2) :
    KnownInv s' (Function.update t i (t i)) := by
  rw [Function.update_eq_self]
  exact ⟨fun j => hversion.symm ▸ h.floor j, fun j => hpmap.symm ▸ h.own j, fun j => hreads.symm ▸ h.seen j⟩

/-- A step of client `i` that is answered `x` keeps what is known. -/
def Kept (s : Observed ι) (t : ι → Known) (i : ι) (r : Database.Req ι) (x : Database.Res r)
    (s1 : State ι) : Prop :=
  Answers (t i) r x ∧
    KnownInv (s1, noteVersion s.2 i r x) (Function.update t i ((t i).next r x))

variable {s : Observed ι} {t : ι → Known} {i : ι} {choice : Choice} {s1 : State ι}

theorem kept_get {key : Str} {x : StatusCode × Option (KineticRecord Value)} (h : KnownInv s t)
    (hok : orderly s (.access i (.get key)) choice = true)
    (hserve : Database.serve s.1 (.get key) choice = some (x, s1)) : Kept s t i (.get key) x s1 := by
  have horder : choice.fails = false → (s.1.store key ≠ none → keyNumber key ≤ dbVersionOf s.1) ∧
    (key = snapshotKey → snapshotVersionOf s.1 ≤ s.2 i) := of_decide_eq_true hok
  have hanswer : s1 = s.1 ∧ (x.2 = none ∨ choice.fails = false ∧ x.2 = s.1.store key) := by
    simp only [Database.serve] at hserve
    split at hserve
    · cases hserve
      exact ⟨rfl, Or.inl rfl⟩
    · rename_i hfails
      split at hserve
      · rename_i r hr
        cases hserve
        exact ⟨rfl, Or.inr ⟨Bool.eq_false_iff.mpr hfails, hr.symm⟩⟩
      · cases hserve
        exact ⟨rfl, Or.inl rfl⟩
  obtain ⟨rfl, hx⟩ := hanswer
  obtain ⟨hgrew, hfloor⟩ := grew_get (ι := ι) (t i) key x
  constructor
  · intro hkey y v hy
    obtain hnone | ⟨hfails, hsome⟩ := hx
    · rw [hnone] at hy
      cases hy
    have hstored : s.1.store snapshotKey = some ⟨.snapshot y, v⟩ := by rw [← hkey, ← hsome, hy]
    have hle := (horder hfails).2 hkey
    unfold snapshotVersionOf at hle
    rw [hstored] at hle
    rw [h.seen i]
    exact hle
  · refine h.step (Nat.le_refl _) ?_ (fun _ _ => rfl) ?_ (fun _ _ => rfl) ?_
    · show (if x.2 = none then t i else _ : Known).floor ≤ dbVersionOf s.1
      split
      · exact h.floor i
      · rename_i hne
        obtain hx | ⟨hfails, hx⟩ := hx
        · exact absurd hx hne
        · exact max_le (h.floor i) ((horder hfails).1 fun hnone => hne (hx.trans hnone))
    · rw [hgrew.own]
      exact h.own i
    · rw [hgrew.seen]
      exact h.seen i

theorem kept_getVersion {key : Str} {x : StatusCode × Str} (h : KnownInv s t)
    (hserve : Database.serve s.1 (.getVersion key) choice = some (x, s1)) :
    Kept s t i (.getVersion key) x s1 := by
  have hanswer : s1 = s.1 ∧ (x.1 = .REMOTE_REMOTE_CONNECTION_ERROR ∨
      x.1 ≠ .REMOTE_REMOTE_CONNECTION_ERROR ∧ x.2 = versionOf (s.1.store key)) ∧
      (x.1 = .REMOTE_NOT_FOUND → x.2 = []) := by
    simp only [Database.serve] at hserve
    split at hserve
    · cases hserve
      exact ⟨rfl, Or.inl rfl, fun h => by cases h⟩
    · split at hserve
      · rename_i r hr
        cases hserve
        exact ⟨rfl, Or.inr ⟨StatusCode.noConfusion, by rw [hr]; rfl⟩, fun h => by cases h⟩
      · rename_i hr
        cases hserve
        exact ⟨rfl, Or.inr ⟨by decide, by rw [hr]; rfl⟩, fun _ => rfl⟩
  obtain ⟨rfl, hx, hempty⟩ := hanswer
  obtain herr | ⟨hne, hversion⟩ := hx
  · refine ⟨⟨hempty, fun _ hne => absurd herr hne⟩, ?_⟩
    have hnext : (t i).next (ι := ι) (.getVersion key) x = t i := if_pos herr
    have hnote : noteVersion s.2 i (.getVersion key) x = s.2 := if_pos herr
    rw [hnext, hnote]
    exact h.same rfl rfl rfl
  · have hread : key = dbVersionKey → toInt64 x.2 = dbVersionOf s.1 := by
      rintro rfl
      rw [hversion]
      rfl
    have hnext : (t i).next (ι := ι) (.getVersion key) x = { t i with
      floor := if key = dbVersionKey then max (t i).floor (toInt64 x.2) else (t i).floor
      seen := toInt64 x.2 } := if_neg hne
    have hnote : noteVersion s.2 i (.getVersion key) x = Function.update s.2 i (toInt64 x.2) := if_neg hne
    refine ⟨⟨hempty, fun hkey _ => (h.floor i).trans (hread hkey).ge⟩, ?_⟩
    rw [hnext, hnote]
    refine h.step (Nat.le_refl _) ?_ (fun _ _ => rfl) (h.own i) ?_ ?_
    · show (if key = dbVersionKey then max (t i).floor (toInt64 x.2) else (t i).floor) ≤ dbVersionOf s.1
      split
      · rename_i hkey
        exact max_le (h.floor i) (hread hkey).le
      · exact h.floor i
    · intro j hj
      exact Function.update_of_ne hj _ _
    · exact (Function.update_self i (toInt64 x.2) s.2).symm

theorem kept_put {op : Op ι} {key version : Str} {mode : WriteMode} {record : KineticRecord Value}
    {x : StatusCode} (h : KnownInv s t) (hallowed : key = dbVersionKey → mode = .IGNORE_VERSION)
    (hok : orderly s (.access i (.put op key version mode record)) choice = true)
    (hserve : Database.serve s.1 (.put op key version mode record) choice = some (x, s1)) :
    Kept s t i (.put op key version mode record) x s1 := by
  have horder : key = dbVersionKey → choice.fails = false ∧ dbVersionOf s.1 ≤ toInt64 record.version :=
    of_decide_eq_true hok
  refine ⟨trivial, ?_⟩
  show KnownInv (s1, s.2) (Function.update t i (if key = dbVersionKey then _ else t i))
  by_cases hkey : key = dbVersionKey
  · obtain ⟨hfails, hle⟩ := horder hkey
    obtain rfl := hallowed hkey
    subst hkey
    simp only [Database.serve] at hserve
    rw [if_neg (by rw [hfails]; decide)] at hserve
    cases hserve
    have hversion : dbVersionOf ({ s.1 with
        store := Function.update s.1.store dbVersionKey (some record)
        log := s.1.append op dbVersionKey .IGNORE_VERSION record.value .OK } : State ι) =
        toInt64 record.version := by
      show toInt64 (versionOf (Function.update s.1.store dbVersionKey (some record) dbVersionKey)) = _
      rw [Function.update_self]
      rfl
    rw [if_pos rfl]
    refine h.step (hle.trans hversion.ge) ?_ (fun _ _ => rfl) (h.own i) (fun _ _ => rfl) (h.seen i)
    exact (max_le ((h.floor i).trans hle) (Nat.le_refl _)).trans hversion.ge
  · rw [if_neg hkey]
    simp only [Database.serve] at hserve
    split at hserve
    · cases hserve
      exact h.same rfl rfl rfl
    · cases hserve
      refine h.same ?_ rfl rfl
      show toInt64 (versionOf (Function.update s.1.store key _ dbVersionKey)) = _
      rw [Function.update_of_ne (Ne.symm hkey)]
      rfl

theorem kept_setPmap {db : PathMapDB} (h : KnownInv s t)
    (hserve : Database.serve s.1 (.setPmap i db) choice = some ((), s1)) :
    Kept s t i (.setPmap i db) () s1 := by
  cases hserve
  refine ⟨trivial, h.step (Nat.le_refl _) (h.floor i) ?_ ?_ (fun _ _ => rfl) (h.seen i)⟩
  · intro j hj
    exact Function.update_of_ne hj _ _
  · show db.snapshotVersion = (Function.update s.1.pmap i db i).snapshotVersion
    rw [Function.update_self]

theorem sound : Sound (service.restrict (orderly (ι := ι))) protocol KnownInv := by
  intro s t i r choice x s' hinv hallowed hserve
  obtain ⟨hok, hserve⟩ := serve_restrict hserve
  cases r with
  | check j a =>
    cases hserve
    exact ⟨trivial, hinv.same rfl rfl rfl⟩
  | access j r =>
    obtain ⟨rfl, hallowed⟩ := hallowed
    obtain ⟨⟨x', s1⟩, haccess, he⟩ := Option.map_eq_some_iff.mp hserve
    clear hserve
    cases he
    cases r with
    | get key => exact kept_get hinv hok haccess
    | getVersion key => exact kept_getVersion hinv haccess
    | put op key version mode record => exact kept_put hinv hallowed hok haccess
    | pmap k =>
      cases haccess
      obtain rfl : k = j := hallowed
      exact ⟨(hinv.own k).symm, hinv.same rfl rfl rfl⟩
    | setPmap k db =>
      obtain rfl : k = j := hallowed.1
      exact kept_setPmap hinv haccess
    | serialize db =>
      obtain ⟨y, hy, he⟩ := Option.map_eq_some_iff.mp haccess
      cases he
      exact ⟨trivial, hinv.same rfl rfl rfl⟩
    | returned op entry code =>
      cases haccess
      exact ⟨trivial, hinv.same rfl rfl rfl⟩

end Invariant

/-! ## Runs in which the version key keeps up -/

/-- The assertion that a client evaluates next. -/
def reached {α : Type} : Client ι α → Option Assertion
  | .call (.check _ a) _ => some a
  | _ => none

theorem holds_of_conforms {α : Type} {i : ι} {Q : α → Known → Prop} {m : Client ι α} {t : Known}
    {a : Assertion} (hm : m.Conforms (protocol i) Q t) (ha : reached m = some a) : a.Holds := by
  cases m with
  | ret x => cases ha
  | stop => cases ha
  | call r k =>
    cases r with
    | access j r => cases ha
    | check j b =>
      cases ha
      exact hm.1

section Checks

variable [DecidableEq ι]

/-- Every assertion that a client reaches in an orderly run holds. -/
theorem version_checks_hold (calls : ι → List Call) {schedule : List (ι × Choice)}
    {c : Config (Req ι) Res (Observed ι) ι Unit}
    (hrun : runFrom (service.restrict orderly) (start calls) schedule = some c) {i : ι} {a : Assertion}
    (ha : reached (c.prog i) = some a) : a.Holds := by
  have hinv : KnownInv (start calls).shared fun _ => ⟨0, 0, 0⟩ :=
    ⟨fun _ => Nat.zero_le _, fun _ => rfl, fun _ => rfl⟩
  have hprog : ∀ i, ((start calls).prog i).Conforms (protocol i) (fun _ t => Ready t) ⟨0, 0, 0⟩ :=
    fun i => session_conforms 0 (calls i) (Nat.le_refl 0)
  obtain ⟨t, -, hconforms⟩ := runFrom_conforms sound hinv hprog hrun
  exact holds_of_conforms (hconforms i) ha

end Checks

/-- One client moves `/a` to `/b`; the other then changes the permissions of `/b`, finds that its
    version is taken and updates. -/
def moveThenChange : Option (Config (Req Bool) Res (Observed Bool) Bool Unit) :=
  runFrom (service.restrict orderly)
    (start fun i => [.operation (if i then ⟨.MOVE, lit "/a", lit "/b"⟩ else ⟨.NONE, lit "/b", []⟩) 2])
    (List.replicate 9 (true, ⟨false, [lit "/b", lit "/a"]⟩) ++ List.replicate 8 (false, ⟨false, []⟩))

theorem version_checks_hold_two_clients :
    ∃ c, moveThenChange = some c ∧ reached (c.prog false) = some (.entriesSize 1 1 0) ∧
      (Assertion.entriesSize 1 1 0).Holds := by
  have hc : moveThenChange.any fun c => reached (c.prog false) = some (.entriesSize 1 1 0) := by
    decide +kernel
  obtain ⟨c, hc, h⟩ := (Option.any_eq_true _ _).mp hc
  have ha := of_decide_eq_true h
  exact ⟨c, hc, ha, version_checks_hold _ hc ha⟩

/-- One client has written its entry and not yet the version key; the other probes for the entry,
    applies it and updates again. -/
def probeThenUpdate : Option (Config (Req Bool) Res (Observed Bool) Bool Unit) :=
  runFrom service
    (start fun i => if i then [.operation ⟨.MOVE, lit "/a", lit "/b"⟩ 1] else [.update, .update])
    (List.replicate 2 (true, ⟨false, []⟩) ++ List.replicate 12 (false, ⟨false, []⟩))

theorem version_check_fails_after_probe :
    ¬ ∀ (calls : Bool → List Call) (schedule : List (Bool × Choice))
      (c : Config (Req Bool) Res (Observed Bool) Bool Unit) (i : Bool) (a : Assertion),
      runFrom service (start calls) schedule = some c → reached (c.prog i) = some a → a.Holds := by
  intro h
  have hc : probeThenUpdate.any fun c => reached (c.prog false) = some (.dbVersion 0 1) := by
    decide +kernel
  obtain ⟨c, hc, ha⟩ := (Option.any_eq_true _ _).mp hc
  have hholds := h _ _ c false _ hc (of_decide_eq_true ha)
  exact absurd hholds (by decide)

end HFlat.Database.Checks
