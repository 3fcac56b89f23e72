/-
  Replicated writes of one key (`distributed_kinetic_namespace.cc`): `Put` with
  `REQUIRE_SAME_VERSION`, `writeOperation`, `evaluateWriteOperation` and `readRepair`, for a
  partition whose drive statuses do not change and whose drives do not fail.

  Every call of a program is one request to one drive. The requests of `writeOperation` run in
  parallel threads, one request each, so the program picks the drive that answers next. The
  service records the versions the reference drive (the first GREEN drive) has held, the
  expected and the new version of every `Put` that has returned OK, and whether a write of
  `readRepair` has changed the record of the reference drive. Logging to a log drive touches
  another key and is left out.
-/
import Mathlib.Data.List.Nodup
import Mathlib.Data.List.Infix
import HFlat.Lib.Prog
import HFlat.Replication.Drive

namespace HFlat.Replication.Write

open HFlat.Lib

variable {V : Type}

/-! ## Drives -/

/-- Who issues a write. -/
inductive Origin where
  | write | repair
  deriving DecidableEq, Repr

/-- The records of one key on the drives, and what has happened so far. -/
structure Store (V : Type) where
  /-- the record of the key on each drive -/
  drive : Nat → Option (KineticRecord V)
  /-- versions of the reference drive, oldest first -/
  held : List Str
  /-- expected and new version of every `Put` that has returned OK -/
  acked : List (Str × Str)
  /-- `readRepair` has changed the record of the reference drive -/
  overwritten : Bool

/-- One access to a drive, or to what the client does not control. -/
inductive Req (V : Type) where
  | get (i : Nat)
  | getVersion (i : Nat)
  | put (origin : Origin) (i : Nat) (expected : Str) (record : KineticRecord V)
  | delete (i : Nat) (expected : Str)
  | pick (candidates : List Nat)
  | acked (expected version : Str)

/-- What the service answers to a request. -/
def Res : Req V → Type
  | .get _ => StatusCode × Option (KineticRecord V)
  | .getVersion _ => StatusCode × Str
  | .put _ _ _ _ => StatusCode
  | .delete _ _ => StatusCode
  | .pick _ => Nat
  | .acked _ _ => Unit

/-- The effect of a conditional write that ended with `code` and left `cur` on drive `i`. -/
def Store.write (ref : Nat) (s : Store V) (origin : Origin) (i : Nat)
    (result : StatusCode × Option (KineticRecord V)) : Store V where
  drive := Function.update s.drive i result.2
  held := if i = ref ∧ result.1 = .OK then s.held ++ [versionOf result.2] else s.held
  acked := s.acked
  overwritten := s.overwritten || (origin = .repair ∧ i = ref ∧ result.1 = .OK)

/-- The drives. The choice is the drive that a thread of `writeOperation` belongs to. -/
def serve (ref : Nat) (s : Store V) : (r : Req V) → Nat → Option (Res r × Store V)
  | .get i, _ =>
      match s.drive i with
      | some r => some ((.OK, some r), s)
      | none => some ((.REMOTE_NOT_FOUND, none), s)
  | .getVersion i, _ =>
      match s.drive i with
      | some r => some ((.OK, r.version), s)
      | none => some ((.REMOTE_NOT_FOUND, []), s)
  | .put origin i expected record, _ =>
      some ((putSame (s.drive i) expected record).1,
        s.write ref origin i (putSame (s.drive i) expected record))
  | .delete i expected, _ =>
      some ((deleteSame (s.drive i) expected).1,
        s.write ref .repair i (deleteSame (s.drive i) expected))
  | .pick candidates, choice => candidates[choice]?.map fun i => (i, s)
  | .acked expected version, _ => some ((), { s with acked := (expected, version) :: s.acked })

/-- The drives that all clients access; `ref` is the reference drive. -/
def service (ref : Nat) : Service (Req V) Res Nat (Store V) := ⟨serve ref⟩

/-! ## The client -/

/-- Computations of one client. -/
abbrev Client (V α : Type) := Prog (Req V) Res α

/-- One request. -/
def request (r : Req V) : Client V (Res r) := Prog.perform r

/-- The first GREEN drive. -/
def firstGreen (statuses : List KineticDrive.Status) : Nat := statuses.findIdx (· = .GREEN)

/-- The drives that are not RED, in order. -/
def nonRed (statuses : List KineticDrive.Status) : List Nat :=
  (List.range statuses.length).filter fun i => statuses[i]? ≠ some .RED

/-- The threads of `writeOperation`: each drive of `todo` is written once, in any order. -/
def writeDrives (expected : Str) (record : KineticRecord V) :
    Nat → List Nat → (Nat → StatusCode) → Client V (Nat → StatusCode)
  | 0, _, results => return results
  | n + 1, todo, results => do
      let i : Nat ← request (.pick todo)
      let code : StatusCode ← request (.put .write i expected record)
      writeDrives expected record n (todo.erase i) (Function.update results i code)

/-- `evaluateWriteOperation`. Any other status would be a drive failure (`disableDrive`). -/
def evaluateWriteOperation (statuses : List KineticDrive.Status) (results : Nat → StatusCode) :
    Client V StatusCode :=
  if ∀ i ∈ nonRed statuses, results i = results (firstGreen statuses) then
    return results (firstGreen statuses)
  else if ∀ i ∈ nonRed statuses, results i = .OK ∨ results i = .REMOTE_VERSION_MISMATCH ∨
      results i = .REMOTE_NOT_AUTHORIZED then
    return .REMOTE_OTHER_ERROR
  else .stop

/-- `writeOperation` for a `Put`. -/
def writeOperation (statuses : List KineticDrive.Status) (expected : Str)
    (record : KineticRecord V) : Client V StatusCode := do
  let results ← writeDrives expected record (nonRed statuses).length (nonRed statuses)
    fun _ => .REMOTE_REMOTE_CONNECTION_ERROR
  evaluateWriteOperation statuses results

/-- What `readRepair` does on drive `i`, given the version it has just read there: the status that
    is checked, `none` if the drive already holds the reference record. -/
def repairDrive (record : Option (KineticRecord V)) (i : Nat) (status : StatusCode)
    (version : Str) : Client V (Option StatusCode) :=
  match record with
  | none =>
      if status = .OK then do
        let code : StatusCode ← request (.delete i version)
        return some code
      else return some status
  | some r =>
      if status = .OK ∧ version = r.version then return none
      else do
        let code : StatusCode ← request (.put .repair i version r)
        return some code

/-- The loop of `readRepair`. -/
def repairDrives (index : Nat) (record : Option (KineticRecord V)) : List Nat → Client V StatusCode
  | [] => return .OK
  | i :: is => do
      let answer : StatusCode × Str ← request (.getVersion i)
      if answer.1 ≠ .OK ∧ answer.1 ≠ .REMOTE_NOT_FOUND then return answer.1
      match ← repairDrive record i answer.1 answer.2 with
      | none => repairDrives index record is
      | some code =>
          if code ≠ .OK ∧ code ≠ .REMOTE_NOT_FOUND ∧ code ≠ .REMOTE_VERSION_MISMATCH then return code
          if code = .REMOTE_VERSION_MISMATCH ∧ index = i then return .OK
          repairDrives index record is

/-- `readRepair`: the drives get the record of the first GREEN one. -/
def readRepair (statuses : List KineticDrive.Status) :
    Client V (StatusCode × Option (KineticRecord V)) := do
  let answer : StatusCode × Option (KineticRecord V) ← request (.get (firstGreen statuses))
  if answer.1 ≠ .OK ∧ answer.1 ≠ .REMOTE_NOT_FOUND then return answer
  let status ← repairDrives (firstGreen statuses) answer.2 (nonRed statuses)
  return (status, answer.2)

/-- `Put` with `REQUIRE_SAME_VERSION`, up to its record of success. -/
def putResult (statuses : List KineticDrive.Status) (expected : Str) (record : KineticRecord V) :
    Client V StatusCode := do
  let result ← writeOperation statuses expected record
  if result = .REMOTE_OTHER_ERROR then
    let (status, repairRecord) ← readRepair statuses
    if status = .OK then
      if repairRecord.map (·.version) = some record.version then return .OK
      return .REMOTE_VERSION_MISMATCH
    return status
  return result

/-- `Put`; the acknowledged versions are noted. -/
def put (statuses : List KineticDrive.Status) (expected : Str) (record : KineticRecord V) :
    Client V StatusCode := do
  let result ← putResult statuses expected record
  if result = .OK then
    let _ ← request (.acked expected record.version)
    return result
  return result

/-- What a client does with the key: write it, or repair it as `synchronizeDrive` does. -/
inductive Call (V : Type) where
  | put (expected : Str) (record : KineticRecord V)
  | repair

/-- The calls of one client, one after the other. -/
def session (statuses : List KineticDrive.Status) : List (Call V) → Client V Unit
  | [] => return ()
  | .put expected record :: calls => do
      let _ ← put statuses expected record
      session statuses calls
  | .repair :: calls => do
      let _ ← readRepair statuses
      session statuses calls

/-- Clients that start on drives that agree. -/
def start {ι : Type} (statuses : List KineticDrive.Status) (record : Option (KineticRecord V))
    (calls : ι → List (Call V)) : Config (Req V) Res (Store V) ι Unit :=
  ⟨⟨fun _ => record, [versionOf record], [], false⟩, fun i => session statuses (calls i)⟩

/-! ## The reference drive -/

/-- The fact holds unless `readRepair` has changed the reference drive. -/
def Clean (F : Store V → Prop) (s : Store V) : Prop := s.overwritten = true ∨ F s

/-- The versions of the reference drive are all different, the last one is the stored one, and
    every acknowledged `Put` has replaced its expected version by its own. -/
structure RefInv (ref : Nat) (s : Store V) : Prop where
  nodup : s.held.Nodup
  current : s.held.getLast? = some (versionOf (s.drive ref))
  acked : ∀ x ∈ s.acked, [x.1, x.2] <:+: s.held

/-- Steps that add to the reference drive at most one version, from `own`. -/
structure Steps (own : Str → Prop) (s s' : Store V) : Prop where
  overwritten : s.overwritten = true → s'.overwritten = true
  held : s'.overwritten = true ∨ s'.held = s.held ∨ ∃ v, own v ∧ s'.held = s.held ++ [v]
  acked : ∀ x ∈ s.acked, x ∈ s'.acked

theorem Steps.mono {own own' : Str → Prop} (h : ∀ v, own v → own' v) {s s' : Store V}
    (hs : Steps own s s') : Steps own' s s' :=
  ⟨hs.overwritten, hs.held.imp id (Or.imp id fun ⟨v, hv, he⟩ => ⟨v, h v hv, he⟩), hs.acked⟩

theorem steps_refl (own : Str → Prop) (s : Store V) : Steps own s s :=
  ⟨id, Or.inr (Or.inl rfl), fun _ h => h⟩

/-- A version that only `own` could add stays away if it is not in `own`. -/
theorem stable_fresh {own : Str → Prop} {v : Str} (hv : ¬ own v) :
    Stable (Steps (V := V) own) (Clean fun s => v ∉ s.held) := by
  intro s s' hs h
  rcases h with h | h
  · exact Or.inl (hs.overwritten h)
  · rcases hs.held with hw | he | ⟨w, hw, he⟩
    · exact Or.inl hw
    · right
      show v ∉ s'.held
      rw [he]
      exact h
    · right
      show v ∉ s'.held
      rw [he, List.mem_append, List.mem_singleton]
      rintro (hm | rfl)
      · exact h hm
      · exact hv hw

/-- What was held once stays in the history. -/
theorem stable_within (own : Str → Prop) (l : List Str) :
    Stable (Steps (V := V) own) (Clean fun s => l <:+: s.held) := by
  intro s s' hs h
  rcases h with h | h
  · exact Or.inl (hs.overwritten h)
  · rcases hs.held with hw | he | ⟨w, -, he⟩
    · exact Or.inl hw
    · right
      show l <:+: s'.held
      rw [he]
      exact h
    · right
      show l <:+: s'.held
      rw [he]
      exact h.trans (List.prefix_append _ _).isInfix

theorem versionOf_mem_held {ref : Nat} {s : Store V} (h : RefInv ref s) :
    versionOf (s.drive ref) ∈ s.held :=
  List.mem_of_getLast? h.current

/-! ## Requests -/

section Requests

variable {ref : Nat} {s s' : Store V} {choice : Nat}

/-- Writes to other drives and reads do not change what is recorded. -/
theorem write_other (hi : Clean (RefInv ref) s) (own : Str → Prop) (origin : Origin) {i : Nat}
    (hne : i ≠ ref) (result : StatusCode × Option (KineticRecord V)) :
    Clean (RefInv ref) (s.write ref origin i result) ∧ Steps own s (s.write ref origin i result) := by
  have hheld : (s.write ref origin i result).held = s.held := by simp [Store.write, hne]
  have hover : (s.write ref origin i result).overwritten = s.overwritten := by
    simp [Store.write, hne]
  refine ⟨?_, ⟨fun h => by rw [hover]; exact h, Or.inr (Or.inl hheld), fun _ h => h⟩⟩
  rcases hi with h | h
  · exact Or.inl (by rw [hover]; exact h)
  · refine Or.inr ⟨by rw [hheld]; exact h.nodup, ?_, fun x hx => by rw [hheld]; exact h.acked x hx⟩
    rw [hheld, h.current]
    simp [Store.write, Function.update_of_ne (Ne.symm hne)]

/-- A failed write changes nothing. -/
theorem write_failed (hi : Clean (RefInv ref) s) (own : Str → Prop) (origin : Origin) (i : Nat)
    {result : StatusCode × Option (KineticRecord V)} (hcode : result.1 ≠ .OK)
    (hcur : result.2 = s.drive i) :
    Clean (RefInv ref) (s.write ref origin i result) ∧ Steps own s (s.write ref origin i result) ∧
      (s.write ref origin i result).held = s.held := by
  have he : s.write ref origin i result = s := by
    unfold Store.write
    simp [hcode, hcur]
  rw [he]
  exact ⟨hi, steps_refl own s, rfl⟩

/-- A write of `readRepair`: on the reference drive it fails or is recorded as an overwrite. -/
theorem write_repair (hi : Clean (RefInv ref) s) (own : Str → Prop) (i : Nat)
    {result : StatusCode × Option (KineticRecord V)}
    (hfail : result.1 ≠ .OK → result.2 = s.drive i) :
    Clean (RefInv ref) (s.write ref .repair i result) ∧
      Steps own s (s.write ref .repair i result) := by
  by_cases hne : i = ref
  · by_cases hcode : result.1 = .OK
    · have hover : (s.write ref .repair i result).overwritten = true := by
        simp [Store.write, hne, hcode]
      exact ⟨Or.inl hover, fun _ => hover, Or.inl hover, fun _ h => h⟩
    · obtain ⟨h1, h2, -⟩ := write_failed hi own .repair i hcode (hfail hcode)
      exact ⟨h1, h2⟩
  · exact write_other hi own .repair hne result

theorem putSame_failed {cur : Option (KineticRecord V)} {expected : Str} {new : KineticRecord V}
    (h : (putSame cur expected new).1 ≠ .OK) : (putSame cur expected new).2 = cur := by
  unfold putSame at h ⊢
  split
  · rename_i he
    simp [he] at h
  · rfl

theorem deleteSame_failed {cur : Option (KineticRecord V)} {expected : Str}
    (h : (deleteSame cur expected).1 ≠ .OK) : (deleteSame cur expected).2 = cur := by
  cases cur with
  | none => rfl
  | some r =>
    simp only [deleteSame] at h ⊢
    split
    · rename_i he
      simp [he] at h
    · rfl

/-- The write of a `Put` to the reference drive: it replaces the expected version by its own, or
    fails and changes nothing. -/
theorem put_ref (hi : Clean (RefInv ref) s) (expected : Str) {new : KineticRecord V}
    (hfresh : Clean (fun s => new.version ∉ s.held) s) :
    let result := putSame (s.drive ref) expected new
    let s' := s.write ref .write ref result
    Clean (RefInv ref) s' ∧ Steps (· = new.version) s s' ∧
      (result.1 = .OK → Clean (fun s => [expected, new.version] <:+: s.held) s') ∧
      (result.1 ≠ .OK → Clean (fun s => new.version ∉ s.held) s') := by
  dsimp only
  by_cases hcode : (putSame (s.drive ref) expected new).1 = .OK
  · have hver : versionOf (s.drive ref) = expected := by
      by_contra hne
      simp [putSame, hne] at hcode
    have hres : putSame (s.drive ref) expected new = (.OK, some new) := by simp [putSame, hver]
    rw [hres]
    have hheld : (s.write ref .write ref (.OK, some new)).held = s.held ++ [new.version] := by
      simp [Store.write, versionOf]
    have hover : (s.write ref .write ref (.OK, some new)).overwritten = s.overwritten := by
      simp [Store.write]
    have hsteps : Steps (· = new.version) s (s.write ref .write ref (.OK, some new)) :=
      ⟨fun h => by rw [hover]; exact h, Or.inr (Or.inr ⟨_, rfl, hheld⟩), fun _ h => h⟩
    by_cases hw : s.overwritten = true
    · have hw' := hsteps.overwritten hw
      exact ⟨Or.inl hw', hsteps, fun _ => Or.inl hw', fun _ => Or.inl hw'⟩
    · have hI := hi.resolve_left hw
      have hf := hfresh.resolve_left hw
      -- the history ends with the expected version
      obtain ⟨pre, hpre⟩ : ∃ pre, s.held = pre ++ [expected] := by
        have hlast := hI.current
        rw [hver] at hlast
        exact ⟨_, (List.dropLast_append_getLast? _ hlast).symm⟩
      have hinfix : [expected, new.version] <:+: (s.write ref .write ref (.OK, some new)).held :=
        ⟨pre, [], by rw [hheld, hpre]; simp⟩
      refine ⟨Or.inr ⟨?_, ?_, fun x hx => ?_⟩, hsteps, fun _ => Or.inr hinfix, fun h => absurd rfl h⟩
      · rw [hheld]
        exact List.Nodup.append hI.nodup (List.nodup_singleton _)
          (List.disjoint_singleton.mpr hf)
      · rw [hheld]
        simp [Store.write, versionOf]
      · rw [hheld]
        exact (hI.acked x hx).trans (List.prefix_append _ _).isInfix
  · obtain ⟨h1, h2, h3⟩ := write_failed hi (· = new.version) .write ref hcode (putSame_failed hcode)
    refine ⟨h1, h2, fun h => absurd h hcode, fun _ => ?_⟩
    rcases hfresh with hw | hf
    · exact Or.inl (h2.overwritten hw)
    · right
      show new.version ∉ (s.write ref .write ref (putSame (s.drive ref) expected new)).held
      rw [h3]
      exact hf

end Requests

/-! ## Programs -/

section Programs

variable {ref : Nat} {own : Str → Prop}

/-- A program that adds nothing to the reference drive. -/
def Quiet {α : Type} (ref : Nat) (own : Str → Prop) (m : Client V α) (Q : α → Store V → Prop)
    (s : Store V) : Prop :=
  Safe (service ref) (Clean (RefInv ref)) (Steps own) (Steps fun _ => False) Q m s

/-- The request keeps the recorded facts and adds nothing to the reference drive. -/
def QuietReq (ref : Nat) (r : Req V) : Prop :=
  ∀ s choice x s', Clean (RefInv ref) s → serve ref s r choice = some (x, s') →
    Clean (RefInv ref) s' ∧ Steps (fun _ => False) s s'

theorem quiet_getVersion (i : Nat) : QuietReq ref (.getVersion i : Req V) := by
  intro s choice x s' hi hserve
  obtain rfl : s = s' := by
    simp only [serve] at hserve
    split at hserve <;> exact congrArg Prod.snd (Option.some.inj hserve)
  exact ⟨hi, steps_refl _ s⟩

theorem quiet_put (i : Nat) (expected : Str) (r : KineticRecord V) :
    QuietReq ref (.put .repair i expected r) := by
  intro s choice x s' hi hserve
  obtain rfl := congrArg Prod.snd (Option.some.inj hserve)
  exact write_repair hi _ i putSame_failed

theorem quiet_delete (i : Nat) (expected : Str) : QuietReq ref (.delete i expected : Req V) := by
  intro s choice x s' hi hserve
  obtain rfl := congrArg Prod.snd (Option.some.inj hserve)
  exact write_repair hi _ i deleteSame_failed

theorem Quiet.request_bind {α : Type} {r : Req V} {f : Res r → Client V α} {Q : α → Store V → Prop}
    {s : Store V} (hr : QuietReq ref r)
    (h : ∀ x s', Clean (RefInv ref) s' → Quiet ref own (f x) Q s') :
    Quiet ref own (request r >>= f) Q s := by
  refine Safe.perform_bind stable_true trivial fun s1 hi _ choice x s2 hserve => ?_
  obtain ⟨h1, h2⟩ := hr s1 choice x s2 hi hserve
  exact ⟨h1, h2, h x s2 h1⟩

theorem quiet_ret {α : Type} (a : α) (s : Store V) :
    Quiet ref own (pure a : Client V α) (fun _ _ => True) s :=
  fun _ _ _ => trivial

theorem quiet_repairDrive (record : Option (KineticRecord V)) (i : Nat) (status : StatusCode)
    (version : Str) (s : Store V) :
    Quiet ref own (repairDrive record i status version) (fun _ _ => True) s := by
  cases record with
  | none =>
    simp only [repairDrive]
    split
    · exact Quiet.request_bind (quiet_delete i version) fun x s' _ => quiet_ret _ s'
    · exact quiet_ret _ s
  | some r =>
    simp only [repairDrive]
    split
    · exact quiet_ret _ s
    · exact Quiet.request_bind (quiet_put i version r) fun x s' _ => quiet_ret _ s'

theorem quiet_repairDrives (index : Nat) (record : Option (KineticRecord V)) (is : List Nat)
    (s : Store V) : Quiet ref own (repairDrives index record is) (fun _ _ => True) s := by
  induction is generalizing s with
  | nil => exact quiet_ret _ s
  | cons i is ih =>
    refine Quiet.request_bind (quiet_getVersion i) fun answer s1 h1 => ?_
    split
    · exact quiet_ret _ s1
    · refine Safe.bind h1 ((quiet_repairDrive record i _ _ s1).mono fun outcome s2 _ _ => ?_)
      cases outcome with
      | none => exact ih s2
      | some code =>
        show Quiet ref own _ _ s2
        simp only
        split
        · exact quiet_ret _ s2
        · split
          · exact quiet_ret _ s2
          · exact ih s2

/-- `readRepair` returns a record whose version the reference drive has held. -/
theorem quiet_readRepair {statuses : List KineticDrive.Status} (href : firstGreen statuses = ref)
    (s : Store V) :
    Quiet ref own (readRepair statuses)
      (fun answer => Clean fun s => [versionOf answer.2] <:+: s.held) s := by
  subst href
  refine Safe.perform_bind stable_true trivial fun s1 hi _ choice answer s2 hserve => ?_
  obtain ⟨rfl, hrec⟩ : s1 = s2 ∧ answer.2 = s1.drive (firstGreen statuses) := by
    simp only [service, serve] at hserve
    split at hserve <;> simp at hserve <;> obtain ⟨rfl, rfl⟩ := hserve <;> simp_all
  have hseen : Clean (fun s => [versionOf answer.2] <:+: s.held) s1 := by
    refine hi.imp id fun h => ?_
    rw [hrec]
    exact (List.singleton_infix_iff _ _).mpr (versionOf_mem_held h)
  refine ⟨hi, steps_refl _ s1, ?_⟩
  split
  · exact Safe.ret (stable_within own _) hseen
  · refine Safe.bind hi ?_
    refine (Safe.frame (stable_within own _) (stable_within _ _) hseen
      (quiet_repairDrives _ answer.2 _ s1)).mono fun status s2 _ h2 => ?_
    exact Safe.ret (stable_within own _) h2.1

/-- What a write that ended with `code` on the reference drive has left there. -/
def Wrote (expected version : Str) (code : StatusCode) (s : Store V) : Prop :=
  (code = .OK → Clean (fun s => [expected, version] <:+: s.held) s) ∧
    (code ≠ .OK → Clean (fun s => version ∉ s.held) s)

theorem stable_wrote {expected version : Str} (hv : ¬ own version) (code : StatusCode) :
    Stable (Steps (V := V) own) (Wrote expected version code) :=
  fun s s' hs h => ⟨fun hc => stable_within own _ s s' hs (h.1 hc),
    fun hc => stable_fresh hv s s' hs (h.2 hc)⟩

/-- The state of a write whose threads for the drives in `todo` have not run. -/
def Writing (ref : Nat) (expected version : Str) (todo : List Nat) (results : Nat → StatusCode)
    (s : Store V) : Prop :=
  (ref ∈ todo → Clean (fun s => version ∉ s.held) s) ∧
    (ref ∉ todo → Wrote expected version (results ref) s)

theorem stable_writing {expected version : Str} (hv : ¬ own version) (todo : List Nat)
    (results : Nat → StatusCode) :
    Stable (Steps (V := V) own) (Writing ref expected version todo results) :=
  fun s s' hs h => ⟨fun hm => stable_fresh hv s s' hs (h.1 hm),
    fun hm => stable_wrote hv _ s s' hs (h.2 hm)⟩

/-- One thread of `writeOperation`. -/
theorem writing_step {s : Store V} (hi : Clean (RefInv ref) s) {expected : Str}
    {record : KineticRecord V} {todo : List Nat} {results : Nat → StatusCode} (hnodup : todo.Nodup)
    {i : Nat} (hmem : i ∈ todo) (h : Writing ref expected record.version todo results s) :
    let result := putSame (s.drive i) expected record
    let s' := s.write ref .write i result
    Clean (RefInv ref) s' ∧ Steps (· = record.version) s s' ∧
      Writing ref expected record.version (todo.erase i) (Function.update results i result.1) s' := by
  dsimp only
  by_cases hne : i = ref
  · subst hne
    obtain ⟨h1, h2, h3, h4⟩ := put_ref hi expected (h.1 hmem)
    refine ⟨h1, h2, fun hm => absurd hm hnodup.not_mem_erase, fun _ => ?_⟩
    rw [Function.update_self]
    exact ⟨h3, h4⟩
  · obtain ⟨h1, h2⟩ := write_other hi (fun _ => False) .write hne (putSame (s.drive i) expected record)
    refine ⟨h1, h2.mono fun _ hf => hf.elim, ?_⟩
    have hkeep := stable_writing (not_false : ¬ (fun _ : Str => False) record.version) todo results _ _ h2 h
    refine ⟨fun hm => hkeep.1 (List.mem_of_mem_erase hm), fun hm => ?_⟩
    rw [Function.update_of_ne (Ne.symm hne)]
    exact hkeep.2 fun hr => hm ((List.mem_erase_of_ne (Ne.symm hne)).mpr hr)

theorem safe_writeDrives {expected : Str} {record : KineticRecord V} (hv : ¬ own record.version)
    {n : Nat} {todo : List Nat} {results : Nat → StatusCode} {s : Store V}
    (hn : n = todo.length) (hnodup : todo.Nodup)
    (h : Writing ref expected record.version todo results s) :
    Safe (service ref) (Clean (RefInv ref)) (Steps own) (Steps (· = record.version))
      (fun results s => Wrote expected record.version (results ref) s)
      (writeDrives expected record n todo results) s := by
  induction n generalizing todo results s with
  | zero =>
    have hempty : ref ∉ todo := by simp [List.length_eq_zero_iff.mp hn.symm]
    exact Safe.ret (stable_wrote hv _) (h.2 hempty)
  | succ n ih =>
    refine Safe.perform_bind (stable_writing hv todo results) h fun s1 hi h1 choice (i : Nat) s2 hpick => ?_
    obtain ⟨hmem, rfl⟩ : i ∈ todo ∧ s1 = s2 := by
      obtain ⟨j, hj, he⟩ := Option.map_eq_some_iff.mp hpick
      cases he
      exact ⟨List.mem_of_getElem? hj, rfl⟩
    refine ⟨hi, steps_refl _ s1, ?_⟩
    refine Safe.perform_bind (stable_writing hv todo results) h1 fun s2 hi h2 choice code s3 hput => ?_
    cases hput
    obtain ⟨h3, h4, h5⟩ := writing_step hi hnodup hmem h2
    refine ⟨h3, h4, ih ?_ (hnodup.erase i) h5⟩
    rw [List.length_erase_of_mem hmem]
    omega

theorem nodup_nonRed (statuses : List KineticDrive.Status) : (nonRed statuses).Nodup :=
  List.nodup_range.filter _

/-- `writeOperation`: if it returns OK the write is in the history of the reference drive, else it
    is there or its version has never been. -/
theorem safe_writeOperation {statuses : List KineticDrive.Status} (href : firstGreen statuses = ref)
    {expected : Str} {record : KineticRecord V} (hv : ¬ own record.version) {s : Store V}
    (hi : Clean (RefInv ref) s) (hfresh : Clean (fun s => record.version ∉ s.held) s) :
    Safe (service ref) (Clean (RefInv ref)) (Steps own) (Steps (· = record.version))
      (fun code s => ∃ code', (code = .OK → code' = .OK) ∧ Wrote expected record.version code' s)
      (writeOperation statuses expected record) s := by
  have hstart : Writing ref expected record.version (nonRed statuses)
      (fun _ => .REMOTE_REMOTE_CONNECTION_ERROR) s :=
    ⟨fun _ => hfresh, fun _ => ⟨fun h => (nomatch h), fun _ => hfresh⟩⟩
  refine Safe.bind hi ((safe_writeDrives hv rfl (nodup_nonRed statuses) hstart).mono
    fun results s1 _ h1 => ?_)
  have hstable : ∀ code : StatusCode, (code = .OK → results ref = .OK) → Stable (Steps (V := V) own)
      fun s => ∃ code', (code = .OK → code' = .OK) ∧ Wrote expected record.version code' s :=
    fun code _ s s' hs ⟨code', hc, hw⟩ => ⟨code', hc, stable_wrote hv code' s s' hs hw⟩
  subst href
  simp only [evaluateWriteOperation]
  split
  · exact Safe.ret (hstable _ id) ⟨_, id, h1⟩
  · split
    · exact Safe.ret (hstable _ fun h => nomatch h) ⟨_, fun h => (nomatch h), h1⟩
    · trivial

/-- `Put`: if it returns OK its version has replaced the expected one. -/
theorem safe_putResult {statuses : List KineticDrive.Status} (href : firstGreen statuses = ref)
    {expected : Str} {record : KineticRecord V} (hv : ¬ own record.version) {s : Store V}
    (hi : Clean (RefInv ref) s) (hfresh : Clean (fun s => record.version ∉ s.held) s) :
    Safe (service ref) (Clean (RefInv ref)) (Steps own) (Steps (· = record.version))
      (fun code s => code = .OK → Clean (fun s => [expected, record.version] <:+: s.held) s)
      (putResult statuses expected record) s := by
  have hstable : ∀ code : StatusCode, Stable (Steps (V := V) own) fun s =>
      code = .OK → Clean (fun s => [expected, record.version] <:+: s.held) s :=
    fun code s s' hs h hc => stable_within own _ s s' hs (h hc)
  refine Safe.bind hi ((safe_writeOperation href hv hi hfresh).mono fun code s1 h1 hw => ?_)
  obtain ⟨code', hcode, hw⟩ := hw
  split
  · have hrepair := Safe.frame (stable_wrote hv code') (stable_wrote not_false code') hw
      (quiet_readRepair href s1 : Quiet ref own _ _ s1)
    refine Safe.bind h1 ((hrepair.weaken fun _ _ hs => hs.mono fun _ hf => hf.elim).mono
      fun answer s2 h2 hseen => ?_)
    obtain ⟨hw2, hseen⟩ := hseen
    obtain ⟨status, repairRecord⟩ := answer
    simp only
    split
    · split
      · rename_i heq
        refine Safe.ret (hstable _) fun _ => ?_
        -- the version was read on the reference drive, so the write had succeeded there
        by_cases hc : code' = .OK
        · exact hw2.1 hc
        · rcases hw2.2 hc with h | h
          · exact Or.inl h
          · refine hseen.imp id fun hs => absurd ?_ h
            have hver : versionOf repairRecord = record.version := by simp [versionOf, heq]
            rw [← hver]
            exact (List.singleton_infix_iff _ _).mp hs
      · exact Safe.ret (hstable _) fun h => nomatch h
    · rename_i hne
      exact Safe.ret (hstable _) fun h => absurd h hne
  · exact Safe.ret (hstable _) fun h => hw.1 (hcode h)

theorem safe_put {statuses : List KineticDrive.Status} (href : firstGreen statuses = ref)
    (expected : Str) {record : KineticRecord V} (hv : ¬ own record.version) {s : Store V}
    (hi : Clean (RefInv ref) s) (hfresh : Clean (fun s => record.version ∉ s.held) s) :
    Safe (service ref) (Clean (RefInv ref)) (Steps own) (Steps (· = record.version))
      (fun _ _ => True) (put statuses expected record) s := by
  refine Safe.bind hi ((safe_putResult href hv hi hfresh).mono fun code s1 h1 hok => ?_)
  split
  · rename_i hc
    refine Safe.perform_bind (stable_within own _) (hok hc) fun s2 h2 hin choice x s3 hack => ?_
    cases hack
    refine ⟨?_, ⟨id, Or.inr (Or.inl rfl), fun x hx => List.mem_cons_of_mem _ hx⟩,
      fun _ _ _ => trivial⟩
    rcases h2 with h | h
    · exact Or.inl h
    · rcases hin with hw | hin
      · exact Or.inl hw
      · refine Or.inr ⟨h.nodup, h.current, fun y hy => ?_⟩
        rcases List.mem_cons.mp hy with rfl | hy
        · exact hin
        · exact h.acked y hy
  · exact fun _ _ _ => trivial

/-- The versions that the calls write. -/
def written : List (Call V) → List Str
  | [] => []
  | .put _ record :: calls => record.version :: written calls
  | .repair :: calls => written calls

theorem stable_allFresh {versions : List Str} (hv : ∀ v ∈ versions, ¬ own v) :
    Stable (Steps (V := V) own) fun s => ∀ v ∈ versions, Clean (fun s => v ∉ s.held) s :=
  fun s s' hs h v hm => stable_fresh (hv v hm) s s' hs (h v hm)

/-- A session whose versions are new, while the others write only other versions. -/
theorem safe_session {statuses : List KineticDrive.Status} (href : firstGreen statuses = ref)
    {mine : List Str} {calls : List (Call V)} {s : Store V} (hi : Clean (RefInv ref) s)
    (hsub : ∀ v ∈ written calls, v ∈ mine) (hnodup : (written calls).Nodup)
    (hfresh : ∀ v ∈ written calls, Clean (fun s => v ∉ s.held) s) :
    Safe (service ref) (Clean (RefInv ref)) (Steps (· ∉ mine)) (Steps (· ∈ mine))
      (fun _ _ => True) (session statuses calls) s := by
  induction calls generalizing s with
  | nil => exact fun _ _ _ => trivial
  | cons call calls ih =>
    cases call with
    | repair =>
      have hrepair : Quiet ref (· ∉ mine) (readRepair statuses) _ s := quiet_readRepair href s
      have hkeep := Safe.frame (stable_allFresh fun v hv => not_not.mpr (hsub v hv))
        (stable_allFresh fun _ _ => not_false) hfresh hrepair
      refine Safe.bind hi (Safe.mono (hkeep.weaken fun _ _ hs => hs.mono fun _ hf => hf.elim) ?_)
      exact fun _ s1 h1 hf => ih h1 hsub hnodup hf.1
    | put expected r =>
      simp only [written, List.nodup_cons, List.mem_cons, forall_eq_or_imp] at hsub hnodup hfresh
      have hkeep := Safe.frame (stable_allFresh fun v hv => not_not.mpr (hsub.2 v hv))
        (stable_allFresh fun v hv (he : v = r.version) => hnodup.1 (he ▸ hv)) hfresh.2
        (safe_put href expected (not_not.mpr hsub.1) hi hfresh.1)
      refine Safe.bind hi (Safe.mono (hkeep.weaken fun _ _ hs => hs.mono fun v hv => hv ▸ hsub.1) ?_)
      exact fun _ s1 h1 hf => ih h1 hsub.2 hnodup.2 hf.1

end Programs

/-! ## Runs -/

section Runs

variable {ι : Type} {statuses : List KineticDrive.Status}
variable {record : Option (KineticRecord V)} {calls : ι → List (Call V)}

/-- No version is written twice, and the initial one is never written. -/
structure UniqueVersions (record : Option (KineticRecord V)) (calls : ι → List (Call V)) : Prop where
  nodup : ∀ i, (written (calls i)).Nodup
  disjoint : ∀ i j, i ≠ j → ∀ v ∈ written (calls i), v ∉ written (calls j)
  fresh : ∀ i, versionOf record ∉ written (calls i)

/-- The request is a write of `readRepair` that the reference drive, in state `s`, accepts. -/
def Req.Overwrites (ref : Nat) (s : Store V) : Req V → Prop
  | .put .repair i expected _ => i = ref ∧ versionOf (s.drive ref) = expected
  | .delete i expected => i = ref ∧ s.drive ref ≠ none ∧ versionOf (s.drive ref) = expected
  | _ => False

/-- The next request of client `i` is such a write. -/
def Overwrites (ref : Nat) (c : Config (Req V) Res (Store V) ι Unit) (i : ι) : Prop :=
  match c.prog i with
  | .call r _ => r.Overwrites ref c.shared
  | _ => False

theorem putSame_ok {cur : Option (KineticRecord V)} {expected : Str} {new : KineticRecord V}
    (h : (putSame cur expected new).1 = .OK) : versionOf cur = expected := by
  by_contra hne
  simp [putSame, hne] at h

theorem deleteSame_ok {cur : Option (KineticRecord V)} {expected : Str}
    (h : (deleteSame cur expected).1 = .OK) : cur ≠ none ∧ versionOf cur = expected := by
  cases cur with
  | none => simp [deleteSame] at h
  | some r =>
    refine ⟨by simp, ?_⟩
    by_contra hne
    simp [versionOf] at hne
    simp [deleteSame, hne] at h

/-- A request that is no such write does not count as an overwrite. -/
theorem serve_not_overwritten {ref : Nat} {s s' : Store V} {r : Req V} {choice : Nat} {x : Res r}
    (hr : ¬ r.Overwrites ref s) (hs : s.overwritten = false)
    (hserve : serve ref s r choice = some (x, s')) : s'.overwritten = false := by
  cases r with
  | get i | getVersion i =>
    simp only [serve] at hserve
    split at hserve <;> cases hserve <;> exact hs
  | pick candidates =>
    obtain ⟨i, -, he⟩ := Option.map_eq_some_iff.mp hserve
    cases he
    exact hs
  | acked expected version =>
    cases hserve
    exact hs
  | put origin i expected new =>
    cases hserve
    simp only [Store.write, hs, Bool.false_or, decide_eq_false_iff_not]
    rintro ⟨rfl, rfl, hok⟩
    exact hr ⟨rfl, putSame_ok hok⟩
  | delete i expected =>
    cases hserve
    simp only [Store.write, hs, Bool.false_or, decide_eq_false_iff_not]
    rintro ⟨-, rfl, hok⟩
    exact hr ⟨rfl, deleteSame_ok hok⟩

theorem step_not_overwritten [DecidableEq ι] {ref : Nat} {c c' : Config (Req V) Res (Store V) ι Unit} {i : ι}
    {choice : Nat} (hP : ¬ Overwrites ref c i) (hc : c.shared.overwritten = false)
    (hstep : c.step (service ref) i choice = some c') : c'.shared.overwritten = false := by
  obtain ⟨r, k, x, s, hp, hserve, rfl⟩ := Config.step_eq_some hstep
  rw [Overwrites, hp] at hP
  exact serve_not_overwritten hP hc hserve

/-- The start of a run. -/
theorem refInv_start (ref : Nat) : Clean (RefInv ref) (start statuses record calls).shared :=
  Or.inr ⟨List.nodup_singleton _, rfl, fun x hx => by cases hx⟩

theorem safe_start (h : UniqueVersions record calls) (i : ι) :
    Safe (service (firstGreen statuses)) (Clean (RefInv (firstGreen statuses)))
      (Steps (· ∉ written (calls i))) (Steps (· ∈ written (calls i))) (fun _ _ => True)
      ((start statuses record calls).prog i) (start statuses record calls).shared := by
  refine safe_session rfl (refInv_start _) (fun _ hv => hv) (h.nodup i) fun v hv => Or.inr ?_
  show v ∉ [versionOf record]
  rintro hm
  rw [List.mem_singleton] at hm
  exact h.fresh i (hm ▸ hv)

/-- The history of the reference drive only grows. -/
theorem steps_held {own : ι → Str → Prop} {s s' : Store V}
    (h : Relation.ReflTransGen (fun s s' => ∃ i, Steps (own i) s s') s s')
    (hclean : s'.overwritten = false) : s.overwritten = false ∧ s.held <+: s'.held := by
  induction h with
  | refl => exact ⟨hclean, List.prefix_refl _⟩
  | @tail s1 s2 _ hstep ih =>
    obtain ⟨i, hs⟩ := hstep
    have hclean1 : s1.overwritten = false := by
      by_contra hne
      rw [hs.overwritten (by simpa using hne)] at hclean
      exact Bool.noConfusion hclean
    obtain ⟨h1, h2⟩ := ih hclean1
    refine ⟨h1, ?_⟩
    rcases hs.held with hw | he | ⟨v, -, he⟩
    · rw [hw] at hclean
      exact Bool.noConfusion hclean
    · rw [he]
      exact h2
    · rw [he]
      exact h2.trans (List.prefix_append _ _)

/-- In a history without duplicates a version has only one successor. -/
theorem successor_unique {l : List Str} (hl : l.Nodup) {e v w : Str} (hv : [e, v] <:+: l)
    (hw : [e, w] <:+: l) : w = v := by
  obtain ⟨pre, post, hv⟩ := hv
  obtain ⟨pre', post', hw⟩ := hw
  have hat : l[pre.length]? = l[pre'.length]? := by
    calc l[pre.length]? = some e := by simp [← hv]
      _ = l[pre'.length]? := by simp [← hw]
  have hlen : pre.length = pre'.length := by
    refine (List.getElem?_inj ?_ hl).mp hat
    simp only [← hv, List.length_append, List.length_cons]
    omega
  have hnext : some v = some w := by
    calc some v = l[pre.length + 1]? := by simp [← hv]
      _ = l[pre'.length + 1]? := by rw [hlen]
      _ = some w := by simp [← hw]
  exact (Option.some.inj hnext).symm

/-- Once a `Put` has returned OK, the record on the reference drive never again becomes a version
    that it held before, and no other `Put` with the same expected version returns OK: in every run
    in which the reference drive accepts no write of `readRepair`. -/
theorem acknowledged_writes_stay [DecidableEq ι] (hunique : UniqueVersions record calls)
    {earlier later : List (ι × Nat)} {c c' : Config (Req V) Res (Store V) ι Unit}
    (hrun : runFrom (service (firstGreen statuses)) (start statuses record calls) earlier = some c)
    (hrun' : runFrom (service (firstGreen statuses)) c later = some c')
    (halong : Along (service (firstGreen statuses)) (fun c i => ¬ Overwrites (firstGreen statuses) c i)
      (start statuses record calls) (earlier ++ later))
    {expected version : Str} (hack : (expected, version) ∈ c.shared.acked) :
    (∃ before after, c.shared.held = before ++ expected :: version :: after ∧
      versionOf (c'.shared.drive (firstGreen statuses)) ∉ before ++ [expected]) ∧
    ∀ version', (expected, version') ∈ c'.shared.acked → version' = version := by
  have hclean : c'.shared.overwritten = false :=
    halong.keeps (fun c i choice c' => step_not_overwritten) rfl (runFrom_append hrun hrun')
  have hrely : ∀ i j (s s' : Store V), i ≠ j → Steps (· ∈ written (calls i)) s s' →
      Steps (· ∉ written (calls j)) s s' :=
    fun i j s s' hij hs => hs.mono (hunique.disjoint i j hij)
  obtain ⟨hi, -, hsafe⟩ := runFrom_safe (refInv_start _) hrely (safe_start hunique) hrun
  obtain ⟨hi', hsteps, -⟩ := runFrom_safe hi hrely hsafe hrun'
  obtain ⟨hclean0, hheld⟩ := steps_held hsteps hclean
  have hinv := hi.resolve_left (by simp [hclean0])
  have hinv' := hi'.resolve_left (by simp [hclean])
  have hpair := hinv.acked _ hack
  refine ⟨?_, fun version' hack' => ?_⟩
  · obtain ⟨before, after, hsplit⟩ := hpair
    refine ⟨before, after, by simp [← hsplit], fun hmem => ?_⟩
    -- the stored version is the last one of the history, which has no duplicates
    obtain ⟨ext, hext⟩ := hheld
    have hall : c'.shared.held = (before ++ [expected]) ++ (version :: after ++ ext) := by
      simp [← hext, ← hsplit]
    have hlast : versionOf (c'.shared.drive (firstGreen statuses)) ∈ version :: after ++ ext := by
      have hcur := hinv'.current
      rw [hall, List.getLast?_append_of_ne_nil _ (by simp)] at hcur
      exact List.mem_of_getLast? hcur
    have hnodup := hinv'.nodup
    rw [hall] at hnodup
    exact List.disjoint_of_nodup_append hnodup hmem hlast
  · exact successor_unique hinv'.nodup (hpair.trans hheld.isInfix) (hinv'.acked _ hack')

instance Overwrites.decidable {ref : Nat} {c : Config (Req V) Res (Store V) ι Unit} {i : ι} :
    Decidable (Overwrites ref c i) :=
  match hp : c.prog i with
  | .call (.put .repair j expected r) k =>
      decidable_of_iff (j = ref ∧ versionOf (c.shared.drive ref) = expected)
        (by simp [Overwrites, hp, Req.Overwrites])
  | .call (.delete j expected) k =>
      decidable_of_iff
        (j = ref ∧ (c.shared.drive ref).isSome ∧ versionOf (c.shared.drive ref) = expected)
        (by simp [Overwrites, hp, Req.Overwrites, Option.isSome_iff_ne_none])
  | .call (.put .write _ _ _) _ => isFalse (by simp [Overwrites, hp, Req.Overwrites])
  | .call (.get _) _ => isFalse (by simp [Overwrites, hp, Req.Overwrites])
  | .call (.getVersion _) _ => isFalse (by simp [Overwrites, hp, Req.Overwrites])
  | .call (.pick _) _ => isFalse (by simp [Overwrites, hp, Req.Overwrites])
  | .call (.acked _ _) _ => isFalse (by simp [Overwrites, hp, Req.Overwrites])
  | .ret _ => isFalse (by simp [Overwrites, hp])
  | .stop => isFalse (by simp [Overwrites, hp])

end Runs

/-! ## Four clients on two drives -/

/-- Two GREEN drives. -/
def twoGreen : List KineticDrive.Status := [.GREEN, .GREEN]

/-- Two clients replace the initial version, two more the version of the first one. -/
def fourWrites : Fin 4 → List (Call Nat)
  | 0 => [.put ['0'] ⟨1, ['b']⟩]
  | 1 => [.put ['0'] ⟨2, ['c']⟩]
  | 2 => [.put ['b'] ⟨3, ['d']⟩]
  | 3 => [.put ['b'] ⟨4, ['e']⟩]

theorem fourWrites_unique : UniqueVersions (some ⟨0, ['0']⟩) fourWrites :=
  ⟨by decide, by decide, by decide⟩

/-- A run of four clients that put one key. -/
def runFour (schedule : List (Fin 4 × Nat)) : Option (Config (Req Nat) Res (Store Nat) (Fin 4) Unit) :=
  runFrom (service (firstGreen twoGreen)) (start twoGreen (some ⟨0, ['0']⟩) fourWrites) schedule

/-- Clients 0 and 1 each write one drive first, so both see a partial write. Client 0 repairs and
    returns OK, client 1 reads the reference record. -/
def partialWrites : List (Fin 4 × Nat) :=
  [(0, 0), (0, 0), (1, 1), (1, 0), (0, 0), (0, 0), (0, 0), (0, 0), (0, 0), (0, 0), (0, 0),
   (1, 0), (1, 0), (1, 0)]

/-- A `Put` of client `i` without interruption. -/
def writeBoth (i : Fin 4) : List (Fin 4 × Nat) := List.replicate 5 (i, 0)

/-- Client 1 ends its repair before client 2 writes, so the reference drive keeps its record. -/
theorem acknowledged_writes_stay_early_repair :
    ∃ c c', runFour (partialWrites ++ List.replicate 2 (1, 0)) = some c ∧
      runFrom (service 0) c (writeBoth 2) = some c' ∧ (['0'], ['b']) ∈ c.shared.acked ∧
      (∃ before after, c.shared.held = before ++ ['0'] :: ['b'] :: after ∧
        versionOf (c'.shared.drive 0) ∉ before ++ [['0']]) ∧
      ∀ version', (['0'], version') ∈ c'.shared.acked → version' = ['b'] := by
  obtain ⟨c, hc⟩ := Option.isSome_iff_exists.mp
    (show (runFour (partialWrites ++ List.replicate 2 (1, 0))).isSome = true by decide)
  have hrest : (runFour (partialWrites ++ List.replicate 2 (1, 0))).all (fun c =>
      (runFrom (service 0) c (writeBoth 2)).isSome ∧ (['0'], ['b']) ∈ c.shared.acked) := by decide
  rw [hc] at hrest
  obtain ⟨hsome, hack⟩ := of_decide_eq_true hrest
  obtain ⟨c', hc'⟩ := Option.isSome_iff_exists.mp hsome
  refine ⟨c, c', hc, hc', hack, ?_⟩
  exact acknowledged_writes_stay fourWrites_unique hc hc' (by decide) hack

/-- Client 2 replaces the reference record after client 1 has read it. The repair of client 1 puts
    the old record back on the reference drive, and client 3 replaces it once more. -/
theorem not_acknowledged_writes_stay_late_repair :
    ∃ c c' c'', runFour (partialWrites ++ writeBoth 2) = some c ∧
      runFrom (service 0) c (List.replicate 4 (1, 0)) = some c' ∧
      runFrom (service 0) c' (writeBoth 3) = some c'' ∧
      (['b'], ['d']) ∈ c.shared.acked ∧ c.shared.held = [['0'], ['b'], ['d']] ∧
      versionOf (c'.shared.drive 0) = ['b'] ∧
      (['b'], ['d']) ∈ c''.shared.acked ∧ (['b'], ['e']) ∈ c''.shared.acked := by
  have hc : (runFour (partialWrites ++ writeBoth 2)).any (fun c =>
      (runFrom (service 0) c (List.replicate 4 (1, 0))).any fun c' =>
        (runFrom (service 0) c' (writeBoth 3)).any fun c'' =>
          (['b'], ['d']) ∈ c.shared.acked ∧ c.shared.held = [['0'], ['b'], ['d']] ∧
          versionOf (c'.shared.drive 0) = ['b'] ∧
          (['b'], ['d']) ∈ c''.shared.acked ∧ (['b'], ['e']) ∈ c''.shared.acked) := by decide
  obtain ⟨c, hc, h⟩ := (Option.any_eq_true _ _).mp hc
  obtain ⟨c', hc', h⟩ := (Option.any_eq_true _ _).mp h
  obtain ⟨c'', hc'', h⟩ := (Option.any_eq_true _ _).mp h
  exact ⟨c, c', c'', hc, hc', hc'', of_decide_eq_true h⟩

end HFlat.Replication.Write
