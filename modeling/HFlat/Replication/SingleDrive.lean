/-
  A partition all of whose drives answer, against a single drive: `DistributedKineticNamespace` and
  `SimpleKineticNamespace` are two implementations of one interface.

  The GREEN drives hold what the single drive holds (`Serving`); a YELLOW drive may hold anything. If the
  drives of a write do not all answer the same, `readRepair` enforces the record of a GREEN drive on all of
  them, and the result of the `Put` is read off that record. So the result is that of the single drive
  unless the record that is refused has the version of the one that is there.
-/
import Mathlib.Data.Set.Insert
import HFlat.Lib.Completion
import HFlat.Replication.Rebuild

namespace HFlat.Replication.SingleDrive

open HFlat.Lib

/-! ## One drive (`simple_kinetic_namespace.cc`) -/

/-- The keys of one drive. -/
abbrev Contents := Str → Option (KineticRecord Str)

/-- What a call returns. -/
abbrev Answer := StatusCode × Option (KineticRecord Str)

/-- The calls of `KineticNamespace` that read or write one key. -/
inductive Call where
  | write (key : Str) (op : WriteOp)
  | get (key : Str)
  deriving DecidableEq, Repr

/-- The answer to a `Get`. -/
def found : Option (KineticRecord Str) → Answer
  | some r => (.OK, some r)
  | none => (.REMOTE_NOT_FOUND, none)

/-- A call of `SimpleKineticNamespace`. -/
def Call.simple (c : Contents) : Call → Answer × Contents
  | .write key op => (((op.apply (c key)).1, none), Function.update c key (op.apply (c key)).2)
  | .get key => (found (c key), c)

/-- The answers to the calls, and what the drive holds afterwards. -/
def simple : Contents → List Call → List Answer × Contents
  | c, [] => ([], c)
  | c, call :: calls =>
      let result := call.simple c
      let rest := simple result.2 calls
      (result.1 :: rest.1, rest.2)

/-- `Put` or `Delete` of `DistributedKineticNamespace`. -/
def writeKey (fuel : Nat) (key : Str) : WriteOp → Client StatusCode
  | .put expected mode record => Replication.put key expected mode record fuel
  | .delete expected mode => Replication.delete key expected mode fuel

/-- A call of `DistributedKineticNamespace`. -/
def Call.distributed (fuel : Nat) : Call → Client Answer
  | .write key op => do
      let code ← writeKey fuel key op
      return (code, none)
  | .get key => read key fuel

/-- The calls on a `DistributedKineticNamespace`, one after the other. -/
def distributed (fuel : Nat) : List Call → Client (List Answer)
  | [] => return []
  | call :: calls => do
      let answer ← call.distributed fuel
      let answers ← distributed fuel calls
      return answer :: answers

/-! ## Writes on a record -/

section Apply

variable {op : WriteOp} {cur cur' : Option (KineticRecord Str)}

/-- What a write that succeeds leaves. -/
def stored : WriteOp → Option (KineticRecord Str)
  | .put _ _ record => some record
  | .delete _ _ => none

theorem apply_cases (op : WriteOp) (cur : Option (KineticRecord Str)) :
    (op.apply cur).1 = .OK ∧ (op.apply cur).2 = stored op ∨ (op.apply cur).1 ≠ .OK ∧ (op.apply cur).2 = cur := by
  cases op with
  | put expected mode record =>
    cases mode with
    | IGNORE_VERSION => exact Or.inl ⟨rfl, rfl⟩
    | REQUIRE_SAME_VERSION =>
      simp only [WriteOp.apply, putSame]
      split
      · exact Or.inl ⟨rfl, rfl⟩
      · exact Or.inr ⟨StatusCode.noConfusion, rfl⟩
  | delete expected mode =>
    cases mode with
    | IGNORE_VERSION =>
      simp only [WriteOp.apply]
      split
      · rename_i hnone
        exact Or.inr ⟨StatusCode.noConfusion, hnone.symm⟩
      · exact Or.inl ⟨rfl, rfl⟩
    | REQUIRE_SAME_VERSION =>
      cases cur with
      | none => exact Or.inr ⟨StatusCode.noConfusion, rfl⟩
      | some r =>
        simp only [WriteOp.apply, deleteSame]
        split
        · exact Or.inl ⟨rfl, rfl⟩
        · exact Or.inr ⟨StatusCode.noConfusion, rfl⟩

theorem apply_ok (h : (op.apply cur).1 = .OK) : (op.apply cur).2 = stored op := by
  rcases apply_cases op cur with ⟨-, he⟩ | ⟨hne, -⟩
  · exact he
  · exact absurd h hne

theorem apply_refused (h : (op.apply cur).1 ≠ .OK) : (op.apply cur).2 = cur := by
  rcases apply_cases op cur with ⟨hok, -⟩ | ⟨-, he⟩
  · exact absurd hok h
  · exact he

/-- A drive looks at nothing but the version. -/
theorem apply_status (h : cur.map KineticRecord.version = cur'.map KineticRecord.version) :
    (op.apply cur).1 = (op.apply cur').1 := by
  cases cur with
  | none =>
    cases cur' with
    | none => rfl
    | some r => cases h
  | some r =>
    cases cur' with
    | none => cases h
    | some r' =>
      have hv : r.version = r'.version := Option.some.inj h
      cases op with
      | put expected mode record =>
        cases mode with
        | IGNORE_VERSION => rfl
        | REQUIRE_SAME_VERSION =>
          by_cases he : r'.version = expected
          · simp [WriteOp.apply, putSame, versionOf, hv, he]
          · simp [WriteOp.apply, putSame, versionOf, hv, he]
      | delete expected mode =>
        cases mode with
        | IGNORE_VERSION => rfl
        | REQUIRE_SAME_VERSION =>
          by_cases he : r'.version = expected
          · simp [WriteOp.apply, deleteSame, hv, he]
          · simp [WriteOp.apply, deleteSame, hv, he]

theorem enforced_version (record cur : Option (KineticRecord Str)) :
    (enforced record cur).map KineticRecord.version = record.map KineticRecord.version := by
  cases record with
  | none => rfl
  | some r =>
    cases cur with
    | none => rfl
    | some x =>
      simp only [enforced]
      split
      · rename_i h
        exact congrArg some h
      · rfl

/-- `Put` is answered with OK or a mismatch. -/
theorem put_answer (expected : Str) (mode : WriteMode) (record : KineticRecord Str)
    (cur : Option (KineticRecord Str)) :
    ((WriteOp.put expected mode record).apply cur).1 = .OK ∨
      ((WriteOp.put expected mode record).apply cur).1 = .REMOTE_VERSION_MISMATCH := by
  cases mode with
  | IGNORE_VERSION => exact Or.inl rfl
  | REQUIRE_SAME_VERSION =>
    simp only [WriteOp.apply, putSame]
    split
    · exact Or.inl rfl
    · exact Or.inr rfl

theorem apply_answer (op : WriteOp) (cur : Option (KineticRecord Str)) :
    (op.apply cur).1 = .OK ∨ (op.apply cur).1 = .REMOTE_VERSION_MISMATCH ∨ (op.apply cur).1 = .REMOTE_NOT_FOUND := by
  cases op with
  | put expected mode record => exact (put_answer expected mode record cur).imp_right Or.inl
  | delete expected mode =>
    cases cur with
    | none => cases mode <;> exact Or.inr (Or.inr rfl)
    | some r =>
      cases mode with
      | IGNORE_VERSION => exact Or.inl rfl
      | REQUIRE_SAME_VERSION =>
        simp only [WriteOp.apply, deleteSame]
        split
        · exact Or.inl rfl
        · exact Or.inr (Or.inl rfl)

end Apply

/-! ## Drives that answer -/

/-- The drive is reached. -/
def answered (_ : Drives) (_ : Req ⊕ DataReq) : Choice → Bool
  | .reach _ => true
  | .index _ => true
  | _ => false

/-- All requests are answered. -/
def answering : Service (Req ⊕ DataReq) (SumRes Res DataRes) Choice Drives := drives.restrict answered

theorem answering_within : answering.Within drives := restrict_within _

/-- The cluster version with which the client addresses a drive is that of the drive. -/
def Connected (p : Partition) (v : View) (s : Drives) (d : DriveId) : Prop :=
  (v.connectionMap d).getD p.clusterVersion = (s.cluster.drive d).clusterVersion

/-- All that changes in the client's memory is that connections are opened. -/
structure Opened (s : Drives) (v v' : View) : Prop where
  views : SameViews v v'
  connection : ∀ d, v'.connectionMap d = v.connectionMap d ∨
    v'.connectionMap d = some (s.cluster.drive d).clusterVersion

theorem Opened.refl (s : Drives) (v : View) : Opened s v v := ⟨⟨rfl, rfl⟩, fun _ => Or.inl rfl⟩

theorem Opened.trans {s s1 : Drives} {v v1 v2 : View} (h : Opened s v v1) (hs : s1.cluster = s.cluster)
    (h' : Opened s1 v1 v2) : Opened s v v2 := by
  refine ⟨h.views.trans h'.views, fun d => ?_⟩
  rcases h'.connection d with he | he
  · rw [he]
    exact h.connection d
  · rw [he, hs]
    exact Or.inr rfl

theorem Connected.opened {p : Partition} {v v' : View} {s s' : Drives} {d : DriveId} (h : Connected p v s d)
    (ho : Opened s v v') (hs : s'.cluster = s.cluster) : Connected p v' s' d := by
  unfold Connected
  rw [hs]
  rcases ho.connection d with he | he
  · rw [he]
    exact h
  · rw [he]
    rfl

section Requests

variable {p : Partition} {v : View} {s : Drives} {d : DriveId} {key : Str}

theorem completes_driveToConnection (h : Connected p v s d) :
    Completes answering (update (driveToConnection p d)) (fun con v' s' => con = true ∧ s' = s ∧
      Opened s v v' ∧ v'.connectionMap d = some (s.cluster.drive d).clusterVersion) v s := by
  refine Completes.embed ?_
  unfold driveToConnection
  refine Completes.get_bind (Completes.ite (fun hsome => Completes.pure ?_) fun hnone => ?_)
  · obtain ⟨n, hn⟩ := Option.isSome_iff_exists.mp hsome
    unfold Connected at h
    rw [hn] at h
    exact ⟨rfl, rfl, Opened.refl _ _, hn.trans (congrArg some h)⟩
  · have hnone : v.connectionMap d = none := by simpa using hnone
    have hp : p.clusterVersion = (s.cluster.drive d).clusterVersion := by
      unfold Connected at h
      rw [hnone] at h
      exact h
    refine Completes.then (Q := fun con v' s' => con = true ∧ v' = v ∧ s' = s)
      (Completes.call ⟨.reach true, true, s, rfl⟩ fun choice x s' hserve => ?_) fun con v1 s1 h1 => ?_
    · obtain ⟨hok, hserve⟩ := serve_restrict hserve
      cases choice with
      | reach told =>
        cases hserve
        exact ⟨rfl, rfl, rfl⟩
      | unreachable | lost => cases hok
      | index i => cases hserve
    · obtain ⟨rfl, rfl, rfl⟩ := h1
      refine Completes.modify_bind (Completes.pure ⟨rfl, rfl, ⟨⟨rfl, rfl⟩, fun d' => ?_⟩, ?_⟩)
      · by_cases hd : d' = d
        · subst hd
          exact Or.inr (by simp [hp])
        · exact Or.inl (by simp [hd])
      · simp [hp]

theorem completes_connection (h : Connected p v s d) :
    Completes answering (connection p d) (fun ccv v' s' =>
      ccv = (s.cluster.drive d).clusterVersion ∧ s' = s ∧ Opened s v v') v s := by
  unfold connection
  refine (completes_driveToConnection h).then fun con v1 s1 h1 => ?_
  obtain ⟨rfl, rfl, ho, hmap⟩ := h1
  refine Completes.ite (fun hcon => absurd hcon (by decide)) fun _ => ?_
  refine Completes.embed (Completes.get_bind (Completes.pure ⟨?_, rfl, ho⟩))
  rw [hmap]
  rfl

theorem completes_get {ccv : Nat} (hccv : ccv = (s.cluster.drive d).clusterVersion) :
    Completes answering (ask (.get d ccv key)) (fun answer v' s' =>
      answer = found (s.find d key) ∧ v' = v ∧ s' = s) v s := by
  have hget : ∀ told, serveData s (.get d ccv key) (.reach told) = some (found (s.find d key), s) := by
    intro told
    simp only [serveData, if_pos hccv]
    cases s.find d key with
    | none => rfl
    | some r => rfl
  refine Completes.call ⟨.reach true, found (s.find d key), s, hget true⟩ fun choice x s' hserve => ?_
  obtain ⟨hok, hserve⟩ := serve_restrict hserve
  cases choice with
  | reach told =>
    have he : serveData s (.get d ccv key) (.reach told) = some (x, s') := hserve
    rw [hget told] at he
    cases he
    exact ⟨rfl, rfl, rfl⟩
  | unreachable | lost => cases hok
  | index i => cases hserve

theorem completes_write {issuer : Issuer} {ccv : Nat} {op : WriteOp}
    (hccv : ccv = (s.cluster.drive d).clusterVersion) :
    Completes answering (ask (.write issuer d ccv key op)) (fun code v' s' =>
      (code : StatusCode) = (op.apply (s.find d key)).1 ∧ v' = v ∧
        s' = s.setRecord d key (op.apply (s.find d key)).2) v s := by
  have hcarry : s.carryOut d ccv key op =
      ((op.apply (s.find d key)).1, s.setRecord d key (op.apply (s.find d key)).2) := by
    unfold Drives.carryOut
    rw [if_pos hccv]
  have hwrite : ∀ told, serveData s (.write issuer d ccv key op) (.reach told) = some (s.carryOut d ccv key op) :=
    fun _ => rfl
  refine Completes.call ⟨.reach true, _, _, hwrite true⟩ fun choice x s' hserve => ?_
  obtain ⟨hok, hserve⟩ := serve_restrict hserve
  cases choice with
  | reach told =>
    have he : serveData s (.write issuer d ccv key op) (.reach told) = some (x, s') := hserve
    rw [hwrite told, hcarry] at he
    cases he
    exact ⟨rfl, rfl, rfl⟩
  | unreachable | lost => cases hok
  | index i => cases hserve

end Requests

/-! ## Writes to all drives -/

/-- The drives `ids` have carried out the write; nothing else has changed. -/
structure Written (ids : List DriveId) (key : Str) (op : WriteOp) (s s' : Drives) : Prop where
  cluster : s'.cluster = s.cluster
  find : ∀ d k, s'.find d k = if k = key ∧ d ∈ ids then (op.apply (s.find d k)).2 else s.find d k

section Writes

variable {p : Partition} {v : View} {s s1 s' : Drives} {key : Str} {op : WriteOp}

theorem Written.refl : Written [] key op s s := ⟨rfl, fun d k => by simp⟩

theorem Written.cons {d : DriveId} {ids : List DriveId} (hd : d ∉ ids)
    (h : Written ids key op (s.setRecord d key (op.apply (s.find d key)).2) s') :
    Written (d :: ids) key op s s' := by
  refine ⟨h.cluster, fun d' k => ?_⟩
  rw [h.find, find_setRecord]
  by_cases hk : k = key
  · by_cases hd' : d' = d
    · subst hd'
      simp [hk, hd]
    · simp [hk, hd']
  · simp [hk]

/-- The result of a drive, in the results of `writeOperation`. -/
def status (op : WriteOp) (key : Str) (s : Drives) (d : KineticDrive) : StatusCode :=
  if d.status = .RED then .REMOTE_REMOTE_CONNECTION_ERROR else (op.apply (s.find d.id key)).1

theorem nonRed_cons {d : KineticDrive} (hd : d.status ≠ .RED) (ds : List KineticDrive) :
    ((d :: ds).filter (·.status ≠ .RED)).map KineticDrive.id =
      d.id :: (ds.filter (·.status ≠ .RED)).map KineticDrive.id := by
  rw [List.filter_cons_of_pos (by simp [hd]), List.map_cons]

theorem red_cons {d : KineticDrive} (hd : d.status = .RED) (ds : List KineticDrive) :
    ((d :: ds).filter (·.status ≠ .RED)).map KineticDrive.id =
      (ds.filter (·.status ≠ .RED)).map KineticDrive.id := by
  rw [List.filter_cons_of_neg (by simp [hd])]

theorem mem_nonRed {d : KineticDrive} {ds : List KineticDrive} (h : d ∈ ds) (hd : d.status ≠ .RED) :
    d.id ∈ (ds.filter (·.status ≠ .RED)).map KineticDrive.id :=
  List.mem_map.mpr ⟨d, List.mem_filter.mpr ⟨h, by simp [hd]⟩, rfl⟩

theorem completes_writeAll (logged : Bool) (ds : List KineticDrive) (hids : (ds.map KineticDrive.id).Nodup)
    (hc : ∀ d ∈ ds, d.status ≠ .RED → Connected p v s d.id) :
    Completes answering (writeAll p logged key op ds) (fun results v' s' =>
      results = ds.map (status op key s) ∧ Opened s v v' ∧
        Written ((ds.filter (·.status ≠ .RED)).map KineticDrive.id) key op s s') v s := by
  induction ds generalizing v s with
  | nil => exact Completes.pure ⟨rfl, Opened.refl _ _, Written.refl⟩
  | cons d ds ih =>
    obtain ⟨hd, hids⟩ := List.nodup_cons.mp hids
    have htail : ∀ x ∈ ds, x.status ≠ .RED → Connected p v s x.id :=
      fun x hx => hc x (List.mem_cons_of_mem _ hx)
    refine Completes.ite (fun hred => ?_) fun hred => ?_
    · refine (ih hids htail).then fun results v1 s1 h1 => Completes.pure ?_
      obtain ⟨rfl, ho, hw⟩ := h1
      refine ⟨by simp [status, hred], ho, ?_⟩
      rw [red_cons hred]
      exact hw
    · refine (completes_connection (hc d List.mem_cons_self hred)).then fun ccv v1 s1 h1 => ?_
      obtain ⟨hccv, rfl, ho1⟩ := h1
      refine (completes_write hccv).then fun (code : StatusCode) v2 s2 h2 => ?_
      obtain ⟨rfl, rfl, rfl⟩ := h2
      -- the remaining drives are others than this one
      have hother : ∀ x ∈ ds, (s1.setRecord d.id key (op.apply (s1.find d.id key)).2).find x.id key
          = s1.find x.id key := by
        intro x hx
        rw [find_setRecord, if_neg]
        exact fun h => hd (h.2 ▸ List.mem_map_of_mem hx)
      have hcluster : (s1.setRecord d.id key (op.apply (s1.find d.id key)).2).cluster = s1.cluster := rfl
      refine (ih hids fun x hx hxred => (htail x hx hxred).opened ho1 hcluster).then fun results v3 s3 h3 =>
        Completes.pure ?_
      obtain ⟨rfl, ho3, hw⟩ := h3
      refine ⟨?_, ho1.trans hcluster ho3, ?_⟩
      · rw [List.map_cons]
        refine congrArg₂ List.cons (by simp [status, hred]) (List.map_congr_left fun x hx => ?_)
        simp [status, hother x hx]
      · rw [nonRed_cons hred]
        refine Written.cons (fun hmem => hd ?_) hw
        obtain ⟨x, hx, he⟩ := List.mem_map.mp hmem
        exact he ▸ List.mem_map_of_mem (List.mem_of_mem_filter hx)

theorem completes_logWrite {fuel : Nat} (hlog : ∀ l ∈ p.logId, ∃ d, v.logPartition.drives[l]? = some d ∧
      Connected v.logPartition v s d.id ∧ d.id ∉ p.drives.map KineticDrive.id) :
    Completes answering (logWrite p key fuel) (fun _ v' s' => Opened s v v' ∧ s'.cluster = s.cluster ∧
      ∀ d ∈ p.drives, ∀ k, s'.find d.id k = s.find d.id k) v s := by
  refine Completes.ite (fun hlogs => Completes.get_bind ?_) fun _ =>
    Completes.pure ⟨Opened.refl _ _, rfl, fun _ _ _ => rfl⟩
  have hid : p.logId ≠ none := by
    unfold logs at hlogs
    exact (of_decide_eq_true hlogs).1
  obtain ⟨l, hl⟩ := Option.ne_none_iff_exists'.mp hid
  obtain ⟨d, hd, hconnected, hother⟩ := hlog l hl
  have hbind : (p.logId.bind fun l => v.logPartition.drives[l]?) = some d := by
    rw [hl]
    exact hd
  rw [hbind]
  refine (completes_connection hconnected).then fun ccv v1 s1 h1 => ?_
  obtain ⟨hccv, rfl, ho⟩ := h1
  refine (completes_write hccv).then fun (code : StatusCode) v2 s2 h2 => ?_
  obtain ⟨rfl, rfl, rfl⟩ := h2
  refine Completes.ite (fun hne => absurd rfl hne) fun _ => Completes.pure ⟨ho, rfl, fun x hx k => ?_⟩
  rw [find_setRecord, if_neg]
  exact fun h => hother (h.2 ▸ List.mem_map_of_mem hx)

/-! ### Results -/

theorem validResults_status (ds : List KineticDrive) :
    validResults ds (ds.map (status op key s)) =
      (ds.filter (·.status ≠ .RED)).map fun d => (op.apply (s.find d.id key)).1 := by
  induction ds with
  | nil => rfl
  | cons d ds ih =>
    simp only [List.map_cons, validResults]
    split
    · rename_i hred
      rw [List.filter_cons_of_neg (by simp [hred])]
      exact ih
    · rename_i hred
      rw [List.filter_cons_of_pos (by simp [hred]), List.map_cons, ih]
      simp [status, hred]

/-- No drive has failed if all answers are OK or a mismatch. -/
theorem failedIndex_status (ds : List KineticDrive) (n : Nat)
    (h : ∀ d ∈ ds, d.status ≠ .RED → (op.apply (s.find d.id key)).1 = .OK ∨
      (op.apply (s.find d.id key)).1 = .REMOTE_VERSION_MISMATCH) :
    failedIndex ds (ds.map (status op key s)) n = none := by
  induction ds generalizing n with
  | nil => rfl
  | cons d ds ih =>
    simp only [List.map_cons, failedIndex]
    rw [if_neg]
    · exact ih (n + 1) fun x hx => h x (List.mem_cons_of_mem _ hx)
    · rintro ⟨hred, hok, hmis, -⟩
      unfold status at hok hmis
      rw [if_neg hred] at hok hmis
      exact (h d List.mem_cons_self hred).elim hok hmis

theorem exists_greenIndex (h : ∃ d ∈ p.drives, d.status = .GREEN) :
    ∃ i d, greenIndex p = some i ∧ p.drives[i]? = some d ∧ d ∈ p.drives ∧ d.status = .GREEN := by
  have hany : p.drives.any (fun d => decide (d.status = .GREEN)) = true :=
    List.any_eq_true.mpr (h.imp fun d hd => ⟨hd.1, decide_eq_true hd.2⟩)
  obtain ⟨i, hi⟩ := Option.isSome_iff_exists.mp (List.findIdx?_isSome.trans hany)
  obtain ⟨hlt, hgreen, -⟩ := List.findIdx?_eq_some_iff_getElem.mp hi
  exact ⟨i, p.drives[i], hi, List.getElem?_eq_getElem hlt, List.getElem_mem hlt, by simpa using hgreen⟩

/-- The evaluation returns the answer of the GREEN drives if the drives agree, and otherwise finds a partial
    write. -/
theorem completes_evaluate {fuel : Nat} {code : StatusCode} {s0 : Drives}
    (hp : v.partition = p) (hgreen : ∃ d ∈ p.drives, d.status = .GREEN)
    (hcode : ∀ d ∈ p.drives, d.status = .GREEN → (op.apply (s0.find d.id key)).1 = code)
    (h : (∀ d ∈ p.drives, d.status ≠ .RED → (op.apply (s0.find d.id key)).1 = code) ∨
      ∀ d ∈ p.drives, d.status ≠ .RED → (op.apply (s0.find d.id key)).1 = .OK ∨
        (op.apply (s0.find d.id key)).1 = .REMOTE_VERSION_MISMATCH) :
    Completes answering (evaluate (p.drives.map (status op key s0)) (fuel + 1)) (fun code' v' s' =>
      v' = v ∧ s' = s ∧ (code' = code ∧ (∀ d ∈ p.drives, d.status ≠ .RED → (op.apply (s0.find d.id key)).1 = code) ∨
        code' = .REMOTE_OTHER_ERROR ∧ ¬ ∀ d ∈ p.drives, d.status ≠ .RED →
          (op.apply (s0.find d.id key)).1 = code)) v s := by
  subst hp
  unfold evaluate
  refine Completes.get_bind ?_
  dsimp only
  refine Completes.ite (fun hshort => absurd hshort (by simp)) fun _ => ?_
  obtain ⟨i, f, hi, hf, hfmem, hfgreen⟩ := exists_greenIndex hgreen
  have hres : (v.partition.drives.map (status op key s0))[i]? = some code := by
    rw [List.getElem?_map, hf, Option.map_some, status, if_neg (by simp [hfgreen])]
    exact congrArg some (hcode f hfmem hfgreen)
  rw [hi]
  dsimp only
  rw [hres, validResults_status]
  have hagree : (∀ c ∈ (v.partition.drives.filter (·.status ≠ .RED)).map
      (fun d => (op.apply (s0.find d.id key)).1), c = code) ↔
      ∀ d ∈ v.partition.drives, d.status ≠ .RED → (op.apply (s0.find d.id key)).1 = code := by
    simp only [List.forall_mem_map, List.mem_filter, decide_eq_true_eq, and_imp]
  refine Completes.ite (fun hall => Completes.pure ⟨rfl, rfl, Or.inl ⟨rfl, hagree.mp hall⟩⟩) fun hne => ?_
  have hdiffer : ¬ ∀ d ∈ v.partition.drives, d.status ≠ .RED → (op.apply (s0.find d.id key)).1 = code :=
    fun hall => hne (hagree.mpr hall)
  rw [failedIndex_status v.partition.drives 0 (h.resolve_left hdiffer)]
  exact Completes.pure ⟨rfl, rfl, Or.inr ⟨rfl, hdiffer⟩⟩

end Writes

/-! ## Read repair -/

section Repair

variable {p : Partition} {v : View} {s s' : Drives} {key : Str}

/-- What is written finds the version that was just read. -/
theorem completes_enforce {record : Option (KineticRecord Str)} {d : DriveId} {ccv : Nat}
    (hccv : ccv = (s.cluster.drive d).clusterVersion) :
    Completes answering (enforce key record d ccv (found (s.find d key)).1 (found (s.find d key)).2)
      (fun a v' s' => (∀ code ∈ a, code = .OK ∨ code = .REMOTE_NOT_FOUND) ∧ v' = v ∧
        s'.cluster = s.cluster) v s := by
  have hwrite : ∀ op : WriteOp, (op.apply (s.find d key)).1 = .OK →
      Completes answering (do let code : StatusCode ← ask (.write .repair d ccv key op); return some code)
        (fun a v' s' => (∀ code ∈ a, code = .OK ∨ code = .REMOTE_NOT_FOUND) ∧ v' = v ∧
          s'.cluster = s.cluster) v s := by
    intro op hop
    refine (completes_write hccv).then fun (code : StatusCode) v1 s1 h1 => Completes.pure ?_
    obtain ⟨rfl, rfl, rfl⟩ := h1
    refine ⟨fun code hcode => ?_, rfl, rfl⟩
    rw [← Option.some.inj hcode]
    exact Or.inl hop
  have hput : ∀ r cur, ((WriteOp.put (versionOf cur) .REQUIRE_SAME_VERSION r).apply cur).1 = .OK := by
    intro r cur
    simp [WriteOp.apply, putSame]
  cases record with
  | none =>
    cases hcur : s.find d key with
    | none =>
      have hfound : enforce key none d ccv (found none).1 (found none).2 = pure (some .REMOTE_NOT_FOUND) := rfl
      rw [hfound]
      refine Completes.pure ⟨fun code hcode => ?_, rfl, rfl⟩
      exact Or.inr (Option.some.inj hcode).symm
    | some r =>
      unfold enforce
      refine Completes.ite (fun _ => hwrite _ ?_) fun hne => absurd rfl hne
      rw [hcur]
      simp [WriteOp.apply, deleteSame, versionOf, found]
  | some r =>
    refine Completes.ite (fun _ => Completes.pure ⟨fun code hcode => ?_, rfl, rfl⟩) fun _ => hwrite _ ?_
    · exact absurd hcode (Option.not_mem_none code)
    cases hcur : s.find d key with
    | none => exact hput r none
    | some x => exact hput r (some x)

theorem completes_enforceAll {record : Option (KineticRecord Str)} {index : Nat} (ds : List KineticDrive)
    (i : Nat) (hc : ∀ d ∈ ds, d.status ≠ .RED → Connected p v s d.id) :
    Completes answering (enforceAll p key index record ds i) (fun code v' s' =>
      code = .OK ∧ Opened s v v' ∧ s'.cluster = s.cluster) v s := by
  induction ds generalizing i v s with
  | nil => exact Completes.pure ⟨rfl, Opened.refl _ _, rfl⟩
  | cons d ds ih =>
    have htail : ∀ x ∈ ds, x.status ≠ .RED → Connected p v s x.id :=
      fun x hx => hc x (List.mem_cons_of_mem _ hx)
    refine Completes.ite (fun _ => ih (i + 1) htail) fun hred => ?_
    refine (completes_connection (hc d List.mem_cons_self hred)).then fun ccv v1 s1 h1 => ?_
    obtain ⟨hccv, rfl, ho1⟩ := h1
    refine (completes_get hccv).then fun answer v2 s2 h2 => ?_
    obtain ⟨rfl, rfl, rfl⟩ := h2
    refine Completes.ite (fun hbad => ?_) fun _ => ?_
    · cases hcur : s2.find d.id key with
      | none =>
        rw [hcur] at hbad
        exact absurd rfl hbad.2
      | some r =>
        rw [hcur] at hbad
        exact absurd rfl hbad.1
    · refine (completes_enforce hccv).then fun a v3 s3 h3 => ?_
      obtain ⟨hcodes, rfl, hs3⟩ := h3
      have hrest : Completes answering (enforceAll p key index record ds (i + 1)) (fun code v' s' =>
          code = .OK ∧ Opened s2 v v' ∧ s'.cluster = s2.cluster) v3 s3 := by
        refine (ih (i + 1) fun x hx hxred => (htail x hx hxred).opened ho1 hs3).mono fun code v4 s4 h4 => ?_
        exact ⟨h4.1, ho1.trans hs3 h4.2.1, h4.2.2.trans hs3⟩
      cases a with
      | none => exact hrest
      | some code =>
        have hcode := hcodes code rfl
        refine Completes.ite (fun hbad => ?_) fun _ => Completes.ite (fun hmis => ?_) fun _ => hrest
        · exact hcode.elim (fun h => absurd h hbad.1) fun h => absurd h hbad.2.1
        · rw [hmis.1] at hcode
          exact hcode.elim nofun nofun

/-- `readRepair` succeeds, and enforces the record of a GREEN drive. -/
theorem completes_repair (hgreen : ∃ d ∈ v.partition.drives, d.status = .GREEN)
    (hc : ∀ d ∈ v.partition.drives, d.status ≠ .RED → Connected v.partition v s d.id) :
    Completes answering (repair key none) (fun answer v' s' => Opened s v v' ∧ answer.1 = .OK ∧
      ∃ f ∈ v.partition.drives, f.status = .GREEN ∧ answer.2 = s.find f.id key ∧
        Enforced (nonRedIds v.partition) key (s.find f.id key) s s') v s := by
  have hcompletes : Completes answering (repair key none)
      (fun answer v' s' => Opened s v v' ∧ answer.1 = .OK) v s := by
    unfold repair
    refine Completes.get_bind ?_
    obtain ⟨i, f, hi, hf, hfmem, hfgreen⟩ := exists_greenIndex hgreen
    dsimp only
    rw [hi]
    dsimp only
    rw [hf]
    refine (completes_connection (hc f hfmem (by simp [hfgreen]))).then fun ccv v1 s1 h1 => ?_
    obtain ⟨hccv, rfl, ho1⟩ := h1
    refine (completes_get hccv).then fun answer v2 s2 h2 => ?_
    obtain ⟨rfl, rfl, rfl⟩ := h2
    refine Completes.ite (fun hbad => ?_) fun _ => ?_
    · cases hcur : s2.find f.id key with
      | none =>
        rw [hcur] at hbad
        exact absurd rfl hbad.2
      | some r =>
        rw [hcur] at hbad
        exact absurd rfl hbad.1
    · refine (completes_enforceAll v.partition.drives 0 fun d hd hred => (hc d hd hred).opened ho1 rfl).then
        fun code v3 s3 h3 => Completes.pure ⟨ho1.trans rfl h3.2.1, h3.1⟩
  refine (hcompletes.and_post ((post_repair key v s).within answering_within)).mono fun answer v' s' h => ?_
  obtain ⟨⟨ho, hok⟩, -, f, href, ids, he, -, -, hall⟩ := h
  obtain ⟨rfl, hrecord⟩ := hall hok
  rw [Option.or_none] at he hrecord
  exact ⟨ho, hok, f, List.mem_of_find?_eq_some href, by simpa using List.find?_some href, hrecord, he⟩

end Repair

/-! ## Calls -/

/-- All GREEN drives hold `c`, and the client reaches the drives with their cluster versions. -/
structure Serving (c : Contents) (v : View) (s : Drives) : Prop where
  green : ∃ d ∈ v.partition.drives, d.status = .GREEN
  ids : (v.partition.drives.map KineticDrive.id).Nodup
  holds : ∀ d ∈ v.partition.drives, d.status = .GREEN → ∀ k, s.find d.id k = c k
  connected : ∀ d ∈ v.partition.drives, d.status ≠ .RED → Connected v.partition v s d.id
  log : ∀ l ∈ v.partition.logId, ∃ d, v.logPartition.drives[l]? = some d ∧
    Connected v.logPartition v s d.id ∧ d.id ∉ v.partition.drives.map KineticDrive.id

/-- All drives have the version of the key, whatever their status. -/
def Agrees (c : Contents) (v : View) (s : Drives) (key : Str) : Prop :=
  ∀ d ∈ v.partition.drives, d.status ≠ .RED →
    (s.find d.id key).map KineticRecord.version = (c key).map KineticRecord.version

/-- A write on the single drive has come about on the drives of the partition. -/
structure Done (c : Contents) (key : Str) (op : WriteOp) (v : View) (s : Drives) (v' : View)
    (s' : Drives) : Prop where
  opened : Opened s v v'
  cluster : s'.cluster = s.cluster
  other : ∀ d ∈ v.partition.drives, ∀ k, k ≠ key → s'.find d.id k = s.find d.id k
  green : ∀ d ∈ v.partition.drives, d.status = .GREEN → s'.find d.id key = (op.apply (c key)).2
  version : (op.apply (c key)).1 = .OK ∨ Agrees c v s key → ∀ d ∈ v.partition.drives, d.status ≠ .RED →
    (s'.find d.id key).map KineticRecord.version = (op.apply (c key)).2.map KineticRecord.version

section Calls

variable {c : Contents} {v v' : View} {s s' : Drives} {key : Str} {op : WriteOp}

theorem Serving.opened {c' : Contents} (h : Serving c v s) (ho : Opened s v v') (hs : s'.cluster = s.cluster)
    (hholds : ∀ d ∈ v.partition.drives, d.status = .GREEN → ∀ k, s'.find d.id k = c' k) :
    Serving c' v' s' := by
  obtain ⟨hpartition, hlog⟩ := ho.views
  refine ⟨?_, ?_, ?_, ?_, ?_⟩ <;> rw [hpartition]
  · exact h.green
  · exact h.ids
  · exact hholds
  · exact fun d hd hred => (h.connected d hd hred).opened ho hs
  · intro l hl
    obtain ⟨d, hd, hc, hother⟩ := h.log l hl
    rw [hlog]
    exact ⟨d, hd, hc.opened ho hs, hother⟩

theorem Done.serving (hd : Done c key op v s v' s') (h : Serving c v s) :
    Serving (Function.update c key (op.apply (c key)).2) v' s' := by
  refine h.opened hd.opened hd.cluster fun d hmem hgreen k => ?_
  by_cases hk : k = key
  · subst hk
    rw [Function.update_self]
    exact hd.green d hmem hgreen
  · rw [Function.update_of_ne hk, hd.other d hmem k hk]
    exact h.holds d hmem hgreen k

theorem Done.agrees (hd : Done c key op v s v' s') {k : Str}
    (h : Agrees c v s k ∨ k = key ∧ (op.apply (c key)).1 = .OK) :
    Agrees (Function.update c key (op.apply (c key)).2) v' s' k := by
  unfold Agrees
  rw [hd.opened.views.1]
  intro d hmem hred
  by_cases hk : k = key
  · subst hk
    rw [Function.update_self]
    exact hd.version (h.elim Or.inr fun h => Or.inl h.2) d hmem hred
  · rw [Function.update_of_ne hk, hd.other d hmem k hk]
    exact (h.resolve_right fun h => hk h.1) d hmem hred

/-- All drives have carried out the write; if they have answered differently, with OK or a mismatch, it is
    a partial write. -/
theorem completes_writeOperation {fuel : Nat} (h : Serving c v s)
    (hfits : Agrees c v s key ∨ ∀ cur, (op.apply cur).1 = .OK ∨ (op.apply cur).1 = .REMOTE_VERSION_MISMATCH) :
    Completes answering (writeOperation key op (fuel + 2)) (fun code v' s' => Opened s v v' ∧
      s'.cluster = s.cluster ∧
      (∀ d ∈ v.partition.drives, ∀ k, k ≠ key → s'.find d.id k = s.find d.id k) ∧
      (∀ d ∈ v.partition.drives, d.status ≠ .RED → s'.find d.id key = (op.apply (s.find d.id key)).2) ∧
      (code = (op.apply (c key)).1 ∧ (∀ d ∈ v.partition.drives, d.status ≠ .RED →
          (op.apply (s.find d.id key)).1 = (op.apply (c key)).1) ∨
        code = .REMOTE_OTHER_ERROR ∧ ¬ ∀ d ∈ v.partition.drives, d.status ≠ .RED →
          (op.apply (s.find d.id key)).1 = (op.apply (c key)).1)) v s := by
  unfold writeOperation
  refine Completes.get_bind ?_
  dsimp only
  refine (completes_writeAll (logs v.partition) v.partition.drives h.ids h.connected).then
    fun results v1 s1 h1 => ?_
  obtain ⟨rfl, ho1, hw⟩ := h1
  have hlog : ∀ l ∈ v.partition.logId, ∃ d, v1.logPartition.drives[l]? = some d ∧
      Connected v1.logPartition v1 s1 d.id ∧ d.id ∉ v.partition.drives.map KineticDrive.id := by
    intro l hl
    obtain ⟨d, hd, hc, hother⟩ := h.log l hl
    rw [ho1.views.2]
    exact ⟨d, hd, hc.opened ho1 hw.cluster, hother⟩
  refine (completes_logWrite hlog).then fun _ v2 s2 h2 => ?_
  obtain ⟨ho2, hs2, hfind2⟩ := h2
  refine Completes.ite (fun hmem => ?_) fun _ => ?_
  · obtain ⟨d, -, hd⟩ := List.mem_map.mp hmem
    unfold status at hd
    split at hd
    · cases hd
    · rcases apply_answer op (s.find d.id key) with h | h | h <;> cases hd.symm.trans h
  · have hcode : ∀ d ∈ v.partition.drives, d.status = .GREEN →
        (op.apply (s.find d.id key)).1 = (op.apply (c key)).1 := by
      intro d hd hgreen
      rw [h.holds d hd hgreen]
    have hanswers : (∀ d ∈ v.partition.drives, d.status ≠ .RED →
        (op.apply (s.find d.id key)).1 = (op.apply (c key)).1) ∨
        ∀ cur, (op.apply cur).1 = .OK ∨ (op.apply cur).1 = .REMOTE_VERSION_MISMATCH :=
      hfits.imp_left fun ha d hd hred => apply_status (ha d hd hred)
    have hp : v2.partition = v.partition := (ho1.views.trans ho2.views).1
    refine (completes_evaluate hp h.green hcode (hanswers.imp_right fun ha d _ _ => ha _)).mono
      fun code v3 s3 h3 => ?_
    obtain ⟨rfl, rfl, hresult⟩ := h3
    refine ⟨ho1.trans hw.cluster ho2, hs2.trans hw.cluster, fun d hd k hk => ?_, fun d hd hred => ?_, ?_⟩
    · rw [hfind2 d hd, hw.find, if_neg fun h => hk h.1]
    · rw [hfind2 d hd, hw.find, if_pos ⟨rfl, mem_nonRed hd hred⟩]
    · exact hresult

/-- A write, with the resolution of a partial one: `ok` judges the record that is enforced. -/
theorem completes_resolved {ok : Option (KineticRecord Str) → Bool} {fuel : Nat} (h : Serving c v s)
    (hfits : Agrees c v s key ∨
      (∀ cur, (op.apply cur).1 = .OK ∨ (op.apply cur).1 = .REMOTE_VERSION_MISMATCH) ∧
        ok (op.apply (c key)).2 = decide ((op.apply (c key)).1 = .OK)) :
    Completes answering (do
        let result ← writeOperation key op (fuel + 2)
        if result = .REMOTE_OTHER_ERROR then resolve key ok (fuel + 2) else return result)
      (fun code v' s' => code = (op.apply (c key)).1 ∧ Done c key op v s v' s') v s := by
  refine (completes_writeOperation h (hfits.imp_right And.left)).then fun code v1 s1 h1 => ?_
  obtain ⟨ho1, hs1, hother, hwritten, hresult⟩ := h1
  have hgreen : ∀ d ∈ v.partition.drives, d.status = .GREEN → s1.find d.id key = (op.apply (c key)).2 := by
    intro d hd hgreen
    rw [hwritten d hd (by simp [hgreen]), h.holds d hd hgreen]
  refine Completes.ite (fun hpartial => ?_) fun hone => ?_
  · have hdiffer : ¬ ∀ d ∈ v.partition.drives, d.status ≠ .RED →
        (op.apply (s.find d.id key)).1 = (op.apply (c key)).1 := by
      rcases hresult with ⟨rfl, -⟩ | ⟨-, hdiffer⟩
      · rcases apply_answer op (c key) with hc | hc | hc <;> cases hpartial.symm.trans hc
      · exact hdiffer
    obtain ⟨hany, hok⟩ := hfits.resolve_left fun ha =>
      hdiffer fun d hd hred => apply_status (ha d hd hred)
    have hp : v1.partition = v.partition := ho1.views.1
    have hconnected : ∀ d ∈ v1.partition.drives, d.status ≠ .RED → Connected v1.partition v1 s1 d.id := by
      rw [hp]
      exact fun d hd hred => (h.connected d hd hred).opened ho1 hs1
    have hgreen1 : ∃ d ∈ v1.partition.drives, d.status = .GREEN := by
      rw [hp]
      exact h.green
    unfold resolve
    refine (completes_repair hgreen1 hconnected).then fun answer v2 s2 h2 => ?_
    obtain ⟨ho2, hanswer, f, hf, hfgreen, hrecord, he⟩ := h2
    rw [hp] at hf he
    rw [hgreen f hf hfgreen] at hrecord he
    refine Completes.ite (fun hmis => ?_) fun _ => Completes.ite (fun _ => Completes.pure ⟨?_, ?_⟩)
      fun hne => absurd hanswer hne
    · rw [hanswer] at hmis
      cases hmis
    · rw [hrecord, hok]
      rcases hany (c key) with hc | hc
      · simp [hc]
      · simp [hc]
    · refine ⟨ho1.trans hs1 ho2, he.cluster.trans hs1, fun d hd k hk => ?_, fun d hd hdgreen => ?_,
        fun _ d hd hred => ?_⟩
      · rw [he.find, if_neg fun h => hk h.1]
        exact hother d hd k hk
      · rw [he.find, if_pos ⟨rfl, mem_nonRed hd (by simp [hdgreen])⟩, hgreen d hd hdgreen, enforced_self]
      · rw [he.find, if_pos ⟨rfl, mem_nonRed hd hred⟩, enforced_version]
  · obtain ⟨rfl, hall⟩ := hresult.resolve_right fun hpartial => hone hpartial.1
    refine Completes.pure ⟨rfl, ho1, hs1, hother, hgreen, fun hversion d hd hred => ?_⟩
    rw [hwritten d hd hred]
    by_cases hok : (op.apply (c key)).1 = .OK
    · rw [apply_ok hok, apply_ok ((hall d hd hred).trans hok)]
    · rw [apply_refused hok, apply_refused ((hall d hd hred).trans_ne hok)]
      exact hversion.resolve_left hok d hd hred

/-- A write that the drives may answer differently: a `Put` which, if it is refused, has another version than
    the record that is there. -/
def Resolvable (cur : Option (KineticRecord Str)) : WriteOp → Prop
  | .put expected mode record => ((WriteOp.put expected mode record).apply cur).1 ≠ .OK →
      cur.map KineticRecord.version ≠ some record.version
  | .delete _ _ => False

theorem completes_writeKey {fuel : Nat} (h : Serving c v s) (hfits : Agrees c v s key ∨ Resolvable (c key) op) :
    Completes answering (writeKey (fuel + 2) key op) (fun code v' s' =>
      code = (op.apply (c key)).1 ∧ Done c key op v s v' s') v s := by
  cases op with
  | put expected mode record =>
    refine completes_resolved h (hfits.imp_right fun hne => ⟨put_answer expected mode record, ?_⟩)
    by_cases hok : ((WriteOp.put expected mode record).apply (c key)).1 = .OK
    · rw [apply_ok hok]
      simp [stored, hok]
    · rw [apply_refused hok]
      simp [hok, hne hok]
  | delete expected mode => exact completes_resolved h (hfits.imp_right False.elim)

theorem mem_greenIndices {p : Partition} {d : KineticDrive} {i : Nat} (hd : p.drives[i]? = some d)
    (hgreen : d.status = .GREEN) : i ∈ greenIndices p :=
  List.mem_filter.mpr ⟨List.mem_range.mpr (List.getElem?_eq_some_iff.mp hd).1, by simp [hd, hgreen]⟩

/-- A GREEN drive is picked. -/
theorem completes_pick (h : ∃ d ∈ v.partition.drives, d.status = .GREEN) :
    Completes answering (update (request (.pick (greenIndices v.partition)))) (fun (index : Nat) v' s' =>
      v' = v ∧ s' = s ∧ index ∈ greenIndices v.partition) v s := by
  obtain ⟨d, hd, hgreen⟩ := h
  obtain ⟨i, hi⟩ := List.getElem?_of_mem hd
  obtain ⟨n, hn⟩ := List.getElem?_of_mem (mem_greenIndices hi hgreen)
  have hpick : Replication.serve s.cluster (.pick (greenIndices v.partition)) (.index n) = some (i, s.cluster) := by
    simp only [Replication.serve, hn]
    rfl
  have hserve : serveAll s (.inl (.pick (greenIndices v.partition))) (.index n) = some (i, s) := by
    simp only [serveAll, hpick]
    rfl
  have hcompletes : Completes answering (update (request (.pick (greenIndices v.partition))))
      (fun _ _ _ => True) v s :=
    Completes.embed (Completes.call ⟨.index n, i, s, hserve⟩ fun _ _ _ _ => trivial)
  exact (hcompletes.and_post ((post_pick _ v s).within answering_within)).mono fun _ _ _ h => h.2

/-- A GREEN drive answers what the single drive answers. -/
theorem completes_read {fuel : Nat} (h : Serving c v s) :
    Completes answering (read key (fuel + 1)) (fun answer v' s' =>
      answer = found (c key) ∧ Opened s v v' ∧ s' = s) v s := by
  unfold read
  refine Completes.get_bind ?_
  dsimp only
  refine (completes_pick h.green).then fun index v1 s1 h1 => ?_
  obtain ⟨rfl, rfl, hindex⟩ := h1
  obtain ⟨d, hmem, hgreen, hd⟩ := green_of_mem_greenIndices hindex
  rw [hd]
  refine (completes_driveToConnection (h.connected d hmem (by simp [hgreen]))).then fun con v2 s2 h2 => ?_
  obtain ⟨rfl, rfl, ho, hmap⟩ := h2
  refine Completes.ite (fun _ => ?_) fun hcon => absurd rfl hcon
  refine Completes.then (Q := fun ccv v' s' => ccv = (s2.cluster.drive d.id).clusterVersion ∧ v' = v2 ∧ s' = s2)
    (Completes.embed (Completes.get_bind (Completes.pure ⟨by rw [hmap]; rfl, rfl, rfl⟩))) fun ccv v3 s3 h3 => ?_
  obtain ⟨hccv, rfl, rfl⟩ := h3
  refine (completes_get hccv).then fun answer v4 s4 h4 => ?_
  obtain ⟨rfl, rfl, rfl⟩ := h4
  rw [h.holds d hmem hgreen]
  cases hc : c key with
  | none => exact Completes.pure ⟨rfl, ho, rfl⟩
  | some r => exact Completes.pure ⟨rfl, ho, rfl⟩

/-! ### Sessions -/

/-- The keys with the same version on all drives, after a call. -/
def Call.known (c : Contents) (known : Set Str) : Call → Set Str
  | .write key op => if (op.apply (c key)).1 = .OK then insert key known else known
  | .get _ => known

/-- The call is one that both namespaces answer alike. -/
def Call.Fits (c : Contents) (known : Set Str) : Call → Prop
  | .write key op => key ∈ known ∨ Resolvable (c key) op
  | .get _ => True

/-- Wherever the drives may answer differently, the write is resolvable. -/
def Fits : Contents → Set Str → List Call → Prop
  | _, _, [] => True
  | c, known, call :: calls => call.Fits c known ∧ Fits (call.simple c).2 (call.known c known) calls

theorem mem_known_write {known : Set Str} {k : Str} :
    k ∈ Call.known c known (.write key op) ↔ k ∈ known ∨ k = key ∧ (op.apply (c key)).1 = .OK := by
  by_cases hok : (op.apply (c key)).1 = .OK
  · rw [Call.known, if_pos hok, Set.mem_insert_iff, or_comm]
    simp [hok]
  · simp [Call.known, hok]

theorem Serving.opened_read (h : Serving c v s) (ho : Opened s v v') : Serving c v' s :=
  h.opened ho rfl h.holds

theorem completes_call {known : Set Str} {fuel : Nat} (call : Call) (h : Serving c v s)
    (hknown : ∀ k ∈ known, Agrees c v s k) (hfits : call.Fits c known) :
    Completes answering (call.distributed (fuel + 2)) (fun answer v' s' => answer = (call.simple c).1 ∧
      Serving (call.simple c).2 v' s' ∧ ∀ k ∈ call.known c known, Agrees (call.simple c).2 v' s' k) v s := by
  cases call with
  | write key op =>
    refine (completes_writeKey h (hfits.imp_left (hknown key))).then fun code v1 s1 h1 => Completes.pure ?_
    obtain ⟨rfl, hdone⟩ := h1
    refine ⟨rfl, hdone.serving h, fun k hk => hdone.agrees ?_⟩
    rcases mem_known_write.mp hk with hk | hk
    · exact Or.inl (hknown k hk)
    · exact Or.inr hk
  | get key =>
    refine (completes_read h).mono fun answer v' s' h' => ?_
    obtain ⟨rfl, ho, rfl⟩ := h'
    refine ⟨rfl, h.opened_read ho, fun k hk => ?_⟩
    unfold Agrees
    rw [ho.views.1]
    exact hknown k hk

/-- As long as all drives answer, a partition answers every call like a single drive, and its GREEN drives
    hold what the single drive holds. -/
theorem distributed_refines_simple {known : Set Str} {fuel : Nat} (calls : List Call) (h : Serving c v s)
    (hknown : ∀ k ∈ known, Agrees c v s k) (hfits : Fits c known calls) :
    Completes answering (distributed (fuel + 2) calls) (fun answers v' s' =>
      answers = (simple c calls).1 ∧ Serving (simple c calls).2 v' s') v s := by
  induction calls generalizing c known v s with
  | nil => exact Completes.pure ⟨rfl, h⟩
  | cons call calls ih =>
    refine (completes_call call h hknown hfits.1).then fun answer v1 s1 h1 => ?_
    obtain ⟨rfl, hserving, hknown'⟩ := h1
    refine (ih hserving hknown' hfits.2).then fun answers v2 s2 h2 => Completes.pure ?_
    exact ⟨congrArg _ h2.1, h2.2⟩

end Calls

/-- The YELLOW drive misses the only record, until the first write. -/
def outdated : List Call :=
  [.write (lit "/x") (.put (lit "1") .REQUIRE_SAME_VERSION ⟨lit "y", lit "2"⟩),
    .write (lit "/x") (.put [] .REQUIRE_SAME_VERSION ⟨lit "z", lit "2"⟩),
    .write (lit "/x") (.delete (lit "2") .REQUIRE_SAME_VERSION), .get (lit "/x")]

theorem distributed_refines_simple_outdated : Completes answering (distributed 2 outdated) (fun answers _ _ =>
    answers = [(.OK, none), (.REMOTE_VERSION_MISMATCH, none), (.OK, none), (.REMOTE_NOT_FOUND, none)])
    ⟨greenYellow, ⟨0, none, [], none⟩, fun _ => none⟩ (oneRecord (lit "/x")) := by
  have hserving : Serving (fun k => (oneRecord (lit "/x")).find (lit "a", 0) k)
      ⟨greenYellow, ⟨0, none, [], none⟩, fun _ => none⟩ (oneRecord (lit "/x")) := by
    refine ⟨⟨_, List.mem_cons_self, rfl⟩, by decide, fun d hd hgreen k => ?_, fun d hd _ => rfl, nofun⟩
    rcases List.mem_cons.mp hd with rfl | hd
    · rfl
    · rw [List.mem_singleton.mp hd] at hgreen
      cases hgreen
  have hfits : Fits (fun k => (oneRecord (lit "/x")).find (lit "a", 0) k) ∅ outdated := by
    have hfirst : ((WriteOp.put (lit "1") .REQUIRE_SAME_VERSION ⟨lit "y", lit "2"⟩).apply
        ((oneRecord (lit "/x")).find (lit "a", 0) (lit "/x"))).1 = .OK := by decide
    have hmem := mem_known_write.mpr (Or.inr (a := lit "/x" ∈ (∅ : Set Str)) ⟨rfl, hfirst⟩)
    exact ⟨Or.inr fun hne => absurd hfirst hne, Or.inl hmem, Or.inl (mem_known_write.mpr (Or.inl hmem)),
      trivial, trivial⟩
  refine (distributed_refines_simple outdated hserving (fun k hk => hk.elim) hfits).mono fun answers _ _ h => ?_
  rw [h.1]
  decide

end HFlat.Replication.SingleDrive
