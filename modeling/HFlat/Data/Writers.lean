/-
  Any number of clients that write one data key (`get_data`, `put_data` in `kinetic_helper.cc`).

  Every `Put` and `Get` is one step; it may fail, and the answer to a `Put` that was carried out may
  be lost. `generate_uuid` is part of the `Put` that uses the new version. A `Put` also carries the
  `updateData` calls since the last flush, and the state records them for every `Put` that has
  taken effect. An assertion that fails and an exception end the client.
-/
import HFlat.Lib.Protocol
import HFlat.Replication.Drive
import HFlat.Data.DataInfo

namespace HFlat.Data

open HFlat.Lib HFlat.Lib.Block
open HFlat.Replication (KineticRecord StatusCode versionOf putSame)

/-! ## The data key -/

/-- One access to the key of the block. A `Put` names the calls whose bytes it stores. -/
inductive Req where
  | get
  | put (expected data : Str) (calls : List (Update Char))

/-- What the service answers to a request. -/
def Res : Req → Type
  | .get => Except StatusCode (KineticRecord Str)
  | .put _ _ _ => StatusCode × Str

/-- The access is carried out, does not reach the drive, or is carried out without an answer. -/
inductive Choice where
  | done
  | unreachable
  | lost
  deriving DecidableEq, Repr

/-- The record of the block, and what has been stored so far. -/
structure State where
  record : Option (KineticRecord Str)
  /-- number of versions generated so far -/
  uuids : Nat
  /-- the calls of every `Put` that has taken effect, oldest first -/
  flushed : List (List (Update Char))

/-- The stored block, empty for an absent key. -/
def blockOf (record : Option (KineticRecord Str)) : Str := (record.map KineticRecord.value).getD []

section Serve

-- the versions that `generate_uuid` returns
variable (uuid : Nat → Str)

/-- `Put` with the next generated version. -/
def State.put (s : State) (expected data : Str) (calls : List (Update Char)) : StatusCode × State :=
  let result := putSame s.record expected ⟨data, uuid s.uuids⟩
  (result.1, ⟨result.2, s.uuids + 1, if result.1 = .OK then s.flushed ++ [calls] else s.flushed⟩)

/-- One access of a client. -/
def serve (s : State) : (r : Req) → Choice → Option (Res r × State)
  | .get, .done =>
      match s.record with
      | some r => some (.ok r, s)
      | none => some (.error .REMOTE_NOT_FOUND, s)
  | .get, .unreachable => some (.error .REMOTE_REMOTE_CONNECTION_ERROR, s)
  | .get, .lost => none
  | .put expected data calls, .done =>
      some (((s.put uuid expected data calls).1, uuid s.uuids), (s.put uuid expected data calls).2)
  | .put _ _ _, .unreachable =>
      some ((.REMOTE_REMOTE_CONNECTION_ERROR, uuid s.uuids), { s with uuids := s.uuids + 1 })
  | .put expected data calls, .lost =>
      some ((.REMOTE_REMOTE_CONNECTION_ERROR, uuid s.uuids), (s.put uuid expected data calls).2)

/-- The drives that all clients access. -/
def service : Service Req Res Choice State := ⟨serve uuid⟩

end Serve

/-! ## Clients -/

/-- Computations of one client. -/
abbrev Client (α : Type) := Prog Req Res α

/-- One request. -/
def request (r : Req) : Client (Res r) := Prog.perform r

/-- `get_data`; a block that is not stored is empty. -/
def getData : Client (Except Int DataInfo) := do
  let record : Except StatusCode (KineticRecord Str) ← request .get
  match record with
  | .ok record => return .ok ⟨record.version, record.value, []⟩
  | .error .REMOTE_NOT_FOUND => return .ok ⟨[], [], []⟩
  | .error _ => return .error (- EIO)

/-- `put_data`, with a bound on the number of retries: return code and `DataInfo`. -/
def putData (calls : List (Update Char)) : Nat → DataInfo → Client (Int × DataInfo)
  | 0, _ => .stop
  | fuel + 1, x => do
      let (status, newVersion) : StatusCode × Str ← request (.put x.keyVersion x.d calls)
      match status with
      | .OK => return (0, { x.forgetUpdates with keyVersion := newVersion })
      | .REMOTE_VERSION_MISMATCH =>
          -- someone else has updated the block: write the incremental changes
          let record : Except StatusCode (KineticRecord Str) ← request .get
          match record with
          | .error _ => return (- EIO, x)
          | .ok record =>
              match x.mergeDataChanges record.value with
              | none => .stop
              | some x => putData calls fuel { x with keyVersion := record.version }
      | _ => return (- EIO, x)

/-- What a client does with its copy of the block. -/
inductive Action where
  /-- fetch the block -/
  | get
  /-- start from an empty block, as a growing write does -/
  | create
  | update (data : Str) (offset : Nat)
  | put (fuel : Nat)
  deriving DecidableEq, Repr

/-- The action does not update with no bytes. -/
def Action.NonEmpty : Action → Prop
  | .update data _ => data ≠ []
  | _ => True

instance (a : Action) : Decidable a.NonEmpty :=
  match a with
  | .update data _ => inferInstanceAs (Decidable (data ≠ []))
  | .get => isTrue trivial
  | .create => isTrue trivial
  | .put _ => isTrue trivial

/-- The actions one after the other, with the copy and the calls since the last flush. -/
def session : DataInfo → List (Update Char) → List Action → Client Unit
  | _, _, [] => return ()
  | x, calls, .get :: actions => do
      match ← getData with
      | .ok x => session x [] actions
      | .error _ => session x calls actions
  | _, _, .create :: actions => session ⟨[], [], []⟩ [] actions
  | x, calls, .update data offset :: actions =>
      match x.updateData data offset with
      | none => .stop
      | some x => session x (calls ++ [⟨offset, data⟩]) actions
  | x, calls, .put fuel :: actions => do
      let (err, x) ← putData calls fuel x
      session x (if err = 0 then [] else calls) actions

/-- Every client starts with an empty block; `record` is what the key holds. -/
def start {ι : Type} (record : Option (KineticRecord Str)) (actions : ι → List Action) :
    Config Req Res State ι Unit :=
  ⟨⟨record, 0, []⟩, fun i => session ⟨[], [], []⟩ [] (actions i)⟩

/-! ## What a client knows -/

/-- Versions with the blocks that were stored under them. -/
abbrev Known := List (Str × Str)

/-- What a client relies on: a record is as long as those known. -/
def Answers (t : Known) : (r : Req) → Res r → Prop
  | .get, answer =>
      let answer : Except StatusCode (KineticRecord Str) := answer
      ∀ record, answer = .ok record → ∀ known ∈ t, known.2.length ≤ record.value.length
  | .put _ _ _, _ => True

/-- The records that a client knows after an answer. -/
def next (t : Known) : (r : Req) → Res r → Known
  | .get, answer =>
      let answer : Except StatusCode (KineticRecord Str) := answer
      match answer with
      | .ok record => (record.version, record.value) :: t
      | .error _ => t
  | .put _ data _, answer =>
      let answer : StatusCode × Str := answer
      if answer.1 = .OK then (answer.2, data) :: t else t

/-- A client stores a block that it knows with the writes it names, under the version it knows that
    block by. What it knows is not longer than what it reads. -/
def protocol : Protocol Req Res Known where
  allowed t
    | .get => True
    | .put expected data calls => ∃ base, (expected, base) ∈ t ∧ data = overlay nul base calls
  answers := Answers
  next := next

/-- The copy is a block that the client knows, with the writes `calls`. -/
def Matches (x : DataInfo) (calls : List (Update Char)) (t : Known) : Prop :=
  ∃ base, (x.keyVersion, base) ∈ t ∧ x.Holds base calls

section Conforms

variable {t : Known} {x : DataInfo} {calls : List (Update Char)}

theorem holds_nil (version d : Str) : (⟨version, d, []⟩ : DataInfo).Holds d [] :=
  ⟨rfl, rfl, fun _ hu => by cases hu⟩

theorem getData_conforms (h0 : ([], []) ∈ t) (h : Matches x calls t) :
    getData.Conforms protocol (fun r t' => ([], []) ∈ t' ∧ Matches x calls t' ∧
      ∀ x', r = .ok x' → Matches x' [] t') t := by
  refine ⟨trivial, fun (record : Except StatusCode (KineticRecord Str)) _ => ?_⟩
  cases record with
  | ok record =>
    obtain ⟨base, hbase, hholds⟩ := h
    refine ⟨List.mem_cons_of_mem _ h0, ⟨base, List.mem_cons_of_mem _ hbase, hholds⟩, fun x' hx => ?_⟩
    cases hx
    exact ⟨record.value, List.mem_cons_self, holds_nil _ _⟩
  | error status =>
    cases status with
    | REMOTE_NOT_FOUND =>
      refine ⟨h0, h, fun x' hx => ?_⟩
      cases hx
      exact ⟨[], h0, holds_nil _ _⟩
    | _ => exact ⟨h0, h, fun x' hx => by cases hx⟩

theorem putData_conforms (fuel : Nat) (h0 : ([], []) ∈ t) (h : Matches x calls t) :
    (putData calls fuel x).Conforms protocol (fun r t' => ([], []) ∈ t' ∧
      Matches r.2 (if r.1 = 0 then [] else calls) t') t := by
  induction fuel generalizing x t with
  | zero => trivial
  | succ fuel ih =>
    have herror : ∀ y t', ([], []) ∈ t' → Matches y calls t' → ([], []) ∈ t' ∧
        Matches y (if - EIO = 0 then [] else calls) t' := fun y t' h0 hy => ⟨h0, hy⟩
    obtain ⟨base, hbase, hholds⟩ := h
    refine ⟨⟨base, hbase, hholds.d⟩, fun (answer : StatusCode × Str) _ => ?_⟩
    obtain ⟨status, newVersion⟩ := answer
    cases status with
    | OK => exact ⟨List.mem_cons_of_mem _ h0, x.d, List.mem_cons_self, holds_nil newVersion x.d⟩
    | REMOTE_VERSION_MISMATCH =>
      refine ⟨trivial, fun (record : Except StatusCode (KineticRecord Str)) hanswer => ?_⟩
      cases record with
      | error status => exact herror x t h0 ⟨base, hbase, hholds⟩
      | ok record =>
        have hlen : base.length ≤ record.value.length := hanswer record rfl _ hbase
        show Prog.Conforms protocol _ (match x.mergeDataChanges record.value with
          | none => _
          | some x => _) ((record.version, record.value) :: t)
        split
        · trivial
        · rename_i x' hx'
          obtain ⟨hholds', -⟩ := DataInfo.mergeDataChanges_holds hholds hlen hx'
          exact ih (List.mem_cons_of_mem _ h0) ⟨record.value, List.mem_cons_self,
            hholds'.d, hholds'.updates, hholds'.nonempty⟩
    | _ => exact herror x t h0 ⟨base, hbase, hholds⟩

theorem session_conforms {actions : List Action} (hactions : ∀ a ∈ actions, a.NonEmpty)
    (h0 : ([], []) ∈ t) (h : Matches x calls t) :
    (session x calls actions).Conforms protocol (fun _ _ => True) t := by
  induction actions generalizing x calls t with
  | nil => trivial
  | cons action actions ih =>
    have hrest : ∀ a ∈ actions, a.NonEmpty := fun a ha => hactions a (List.mem_cons_of_mem _ ha)
    cases action with
    | get =>
      refine Prog.Conforms.bind ((getData_conforms h0 h).mono ?_)
      rintro (err | x') t' ⟨h0', hkeep, hnew⟩
      · exact ih hrest h0' hkeep
      · exact ih hrest h0' (hnew x' rfl)
    | create => exact ih hrest h0 ⟨[], h0, holds_nil _ _⟩
    | update data offset =>
      show Prog.Conforms protocol _ (match x.updateData data offset with
        | none => _
        | some x => _) t
      split
      · trivial
      · rename_i x' hx'
        obtain ⟨base, hbase, hholds⟩ := h
        obtain ⟨hholds', hversion⟩ :=
          DataInfo.updateData_holds hholds (hactions _ List.mem_cons_self) hx'
        exact ih hrest h0 ⟨base, hversion.symm ▸ hbase, hholds'⟩
    | put fuel =>
      refine Prog.Conforms.bind ((putData_conforms fuel h0 h).mono ?_)
      rintro ⟨err, x'⟩ t' ⟨h0', hx'⟩
      exact ih hrest h0' hx'

end Conforms

/-! ## The invariant -/

section Invariant

variable {ι : Type} {uuid : Nat → Str} {initial : Option (KineticRecord Str)}

/-- The versions that have occurred: none, the first one, and those generated. -/
def Occurred (uuid : Nat → Str) (initial : Option (KineticRecord Str)) (n : Nat) (version : Str) : Prop :=
  version = [] ∨ version = versionOf initial ∨ ∃ m < n, version = uuid m

/-- The versions that `generate_uuid` returns are all different, and no other. -/
structure Unique (uuid : Nat → Str) (initial : Option (KineticRecord Str)) : Prop where
  injective : Function.Injective uuid
  ne_nil : ∀ n, uuid n ≠ []
  ne_initial : ∀ n, uuid n ≠ versionOf initial
  initial_ne_nil : ∀ r, initial = some r → r.version ≠ []

theorem Occurred.mono {n m : Nat} {version : Str} (h : Occurred uuid initial n version) (hle : n ≤ m) :
    Occurred uuid initial m version := by
  obtain h | h | ⟨k, hk, h⟩ := h
  · exact Or.inl h
  · exact Or.inr (Or.inl h)
  · exact Or.inr (Or.inr ⟨k, by omega, h⟩)

theorem Unique.ne {n : Nat} {version : Str} (hu : Unique uuid initial)
    (h : Occurred uuid initial n version) : version ≠ uuid n := by
  rintro rfl
  obtain h | h | ⟨k, hk, h⟩ := h
  · exact hu.ne_nil n h
  · exact hu.ne_initial n h
  · exact absurd (hu.injective h) (by omega)

/-- A version with the block that was stored under it. -/
structure Stored (uuid : Nat → Str) (initial : Option (KineticRecord Str)) (s : State)
    (version block : Str) : Prop where
  length : block.length ≤ (blockOf s.record).length
  current : version = versionOf s.record → block = blockOf s.record
  occurred : Occurred uuid initial s.uuids version

/-- The stored block is the first one with all flushed writes. -/
structure BlockInv (uuid : Nat → Str) (initial : Option (KineticRecord Str)) (s : State)
    (t : ι → Known) : Prop where
  block : blockOf s.record = overlay nul (blockOf initial) s.flushed.flatten
  version : Occurred uuid initial s.uuids (versionOf s.record)
  ne_nil : ∀ r, s.record = some r → r.version ≠ []
  known : ∀ i, ∀ p ∈ t i, Stored uuid initial s p.1 p.2

theorem BlockInv.learn [DecidableEq ι] {s : State} {t : ι → Known} {i : ι} {k : Known}
    (h : BlockInv uuid initial s t) (hk : ∀ p ∈ k, Stored uuid initial s p.1 p.2) :
    BlockInv uuid initial s (Function.update t i k) := by
  refine ⟨h.block, h.version, h.ne_nil, fun j p hp => ?_⟩
  by_cases hj : j = i
  · subst hj
    rw [Function.update_self] at hp
    exact hk p hp
  · rw [Function.update_of_ne hj] at hp
    exact h.known j p hp

/-- A version is generated and not used. -/
theorem BlockInv.skip {s : State} {t : ι → Known} (h : BlockInv uuid initial s t) :
    BlockInv uuid initial { s with uuids := s.uuids + 1 } t :=
  ⟨h.block, h.version.mono (Nat.le_succ _), h.ne_nil,
    fun i p hp => ⟨(h.known i p hp).length, (h.known i p hp).current,
      (h.known i p hp).occurred.mono (Nat.le_succ _)⟩⟩

/-- A `Put` of a known block with writes; if it takes effect, the writes are made to the stored
    block. -/
theorem BlockInv.put {s : State} {t : ι → Known} (hu : Unique uuid initial) (h : BlockInv uuid initial s t)
    {i : ι} {expected base : Str} (calls : List (Update Char)) (hbase : (expected, base) ∈ t i) :
    BlockInv uuid initial (s.put uuid expected (overlay nul base calls) calls).2 t ∧
      ((s.put uuid expected (overlay nul base calls) calls).1 = .OK →
        Stored uuid initial (s.put uuid expected (overlay nul base calls) calls).2 (uuid s.uuids)
          (overlay nul base calls)) := by
  by_cases hversion : versionOf s.record = expected
  · have hput : s.put uuid expected (overlay nul base calls) calls =
        (.OK, ⟨some ⟨overlay nul base calls, uuid s.uuids⟩, s.uuids + 1, s.flushed ++ [calls]⟩) := by
      unfold State.put putSame
      rw [if_pos hversion]
      rfl
    have hcurrent : base = blockOf s.record := (h.known i _ hbase).current hversion.symm
    have hlength : (blockOf s.record).length ≤ (overlay nul base calls).length := by
      rw [← hcurrent]
      exact length_le_overlay nul base calls
    have hnew : Occurred uuid initial (s.uuids + 1) (uuid s.uuids) :=
      Or.inr (Or.inr ⟨s.uuids, Nat.lt_succ_self _, rfl⟩)
    rw [hput]
    refine ⟨⟨?_, hnew, ?_, ?_⟩, fun _ => ⟨Nat.le_refl _, fun _ => rfl, hnew⟩⟩
    · show overlay nul base calls = overlay nul (blockOf initial) (s.flushed ++ [calls]).flatten
      rw [List.flatten_append, overlay_append, ← h.block, ← hcurrent, List.flatten_singleton]
    · rintro r hr
      cases hr
      exact hu.ne_nil _
    · intro j p hp
      have hstored := h.known j p hp
      exact ⟨hstored.length.trans hlength, fun he => absurd he (hu.ne hstored.occurred),
        hstored.occurred.mono (Nat.le_succ _)⟩
  · have hput : s.put uuid expected (overlay nul base calls) calls =
        (.REMOTE_VERSION_MISMATCH, { s with uuids := s.uuids + 1 }) := by
      unfold State.put putSame
      rw [if_neg hversion]
      rfl
    rw [hput]
    exact ⟨h.skip, fun hc => by cases hc⟩

/-- What was read is stored. -/
theorem BlockInv.read {s : State} {t : ι → Known} (h : BlockInv uuid initial s t) {r : KineticRecord Str}
    (hr : s.record = some r) : Stored uuid initial s r.version r.value := by
  have hblock : blockOf s.record = r.value := by
    rw [hr]
    rfl
  have hversion : versionOf s.record = r.version := by
    rw [hr]
    rfl
  exact ⟨by rw [hblock], fun _ => hblock.symm, hversion ▸ h.version⟩

theorem sound [DecidableEq ι] (hu : Unique uuid initial) :
    Sound (service uuid) (fun _ : ι => protocol) (BlockInv uuid initial) := by
  intro s t i r choice x s' hinv hallowed hserve
  cases r with
  | get =>
    have hsame : BlockInv uuid initial s (Function.update t i (t i)) := by
      rw [Function.update_eq_self]
      exact hinv
    cases choice with
    | done =>
      simp only [service, serve] at hserve
      split at hserve
      · rename_i record hrecord
        cases hserve
        have hstored := hinv.read hrecord
        have hblock : blockOf s.record = record.value := by
          rw [hrecord]
          rfl
        refine ⟨fun record' he p hp => ?_, hinv.learn ?_⟩
        · cases he
          rw [← hblock]
          exact (hinv.known i p hp).length
        · exact List.forall_mem_cons.mpr ⟨hstored, hinv.known i⟩
      · cases hserve
        exact ⟨fun record he => (by cases he), hsame⟩
    | unreachable =>
      cases hserve
      exact ⟨fun record he => (by cases he), hsame⟩
    | lost => cases hserve
  | put expected data calls =>
    obtain ⟨base, hbase, rfl⟩ := hallowed
    obtain ⟨hput, hstored⟩ := hinv.put hu calls hbase
    cases choice with
    | done =>
      cases hserve
      refine ⟨trivial, hput.learn ?_⟩
      show ∀ p ∈ (if (s.put uuid expected (overlay nul base calls) calls).1 = .OK then _ else t i), _
      split
      · rename_i hok
        exact List.forall_mem_cons.mpr ⟨hstored hok, hput.known i⟩
      · exact hput.known i
    | unreachable =>
      cases hserve
      exact ⟨trivial, hinv.skip.learn (hinv.skip.known i)⟩
    | lost =>
      cases hserve
      exact ⟨trivial, hput.learn (hput.known i)⟩

theorem blockInv_start (hu : Unique uuid initial) (actions : ι → List Action) :
    BlockInv uuid initial (start initial actions).shared fun _ : ι => [([], [])] := by
  refine ⟨rfl, Or.inr (Or.inl rfl), hu.initial_ne_nil, fun i p hp => ?_⟩
  rw [List.mem_singleton.mp hp]
  refine ⟨Nat.zero_le _, fun hversion => ?_, Or.inl rfl⟩
  show [] = blockOf initial
  cases hinitial : initial with
  | none => rfl
  | some r =>
    have hr : versionOf initial = r.version := by
      rw [hinitial]
      rfl
    exact absurd (hr.symm.trans hversion.symm) (hu.initial_ne_nil r hinitial)

end Invariant

/-! ## Runs -/

/-- In every run the stored block is the first block with the writes of all `Put`s that have taken
    effect, in their order; the order of two of them that write disjoint ranges does not matter. -/
theorem block_updates_kept {ι : Type} [DecidableEq ι] {uuid : Nat → Str}
    {initial : Option (KineticRecord Str)} (hu : Unique uuid initial) {actions : ι → List Action}
    (hactions : ∀ i, ∀ a ∈ actions i, a.NonEmpty) {schedule : List (ι × Choice)}
    {c : Config Req Res State ι Unit} (hrun : runFrom (service uuid) (start initial actions) schedule = some c) :
    blockOf c.shared.record = overlay nul (blockOf initial) c.shared.flushed.flatten ∧
      ∀ earlier us vs later, c.shared.flushed = earlier ++ us :: vs :: later → Apart us vs →
        blockOf c.shared.record = overlay nul (blockOf initial) (earlier ++ vs :: us :: later).flatten := by
  have hprog : ∀ i, ((start initial actions).prog i).Conforms protocol (fun _ _ => True) [([], [])] :=
    fun i => session_conforms (hactions i) List.mem_cons_self ⟨[], List.mem_cons_self, holds_nil _ _⟩
  obtain ⟨t, hinv, -⟩ := runFrom_conforms (sound hu) (blockInv_start hu actions) hprog hrun
  refine ⟨hinv.block, fun earlier us vs later hflushed hapart => ?_⟩
  rw [hinv.block, hflushed]
  simp only [List.flatten_append, List.flatten_cons, ← List.append_assoc]
  rw [overlay_append, List.append_assoc, overlay_append, overlay_comm nul hapart, ← overlay_append,
    ← overlay_append, ← List.append_assoc, ← List.append_assoc]

/-- A version for every number. -/
def numbered (n : Nat) : Str := 'u' :: toStr n

/-- A client that reads the block and changes it, and one that creates it. -/
def writers : Bool → List Action
  | true => [.get, .update (lit "XY") 0, .put 1]
  | false => [.create, .update (lit "zz") 3, .put 2]

/-- One client overwrites the start of the fetched block; the other appends to it with a copy that
    it has not fetched. -/
def overwriteAndAppend : Option (Config Req Res State Bool Unit) :=
  runFrom (service numbered) (start (some ⟨lit "abcd", lit "0"⟩) writers)
    [(true, .done), (false, .done), (true, .done), (false, .done), (false, .done)]

theorem block_updates_kept_two_clients :
    ∃ c, overwriteAndAppend = some c ∧ c.shared.flushed = [[⟨0, lit "XY"⟩], [⟨3, lit "zz"⟩]] ∧
      blockOf c.shared.record = lit "XYczz" ∧
      blockOf c.shared.record = overlay nul (lit "abcd") [⟨0, lit "XY"⟩, ⟨3, lit "zz"⟩] := by
  have hu : Unique numbered (some ⟨lit "abcd", lit "0"⟩) := by
    refine ⟨fun n m h => toStr_inj (List.cons.inj h).2, fun n => List.cons_ne_nil _ _, fun n h => ?_, ?_⟩
    · exact absurd (List.cons.inj h).1 (by decide)
    · rintro r hr
      cases hr
      decide
  have hc : overwriteAndAppend.any fun c =>
      c.shared.flushed = [[⟨0, lit "XY"⟩], [⟨3, lit "zz"⟩]] ∧ blockOf c.shared.record = lit "XYczz" := by
    decide +kernel
  obtain ⟨c, hc, h⟩ := (Option.any_eq_true _ _).mp hc
  obtain ⟨hflushed, hblock⟩ := of_decide_eq_true h
  have hwriters : ∀ i, ∀ a ∈ writers i, a.NonEmpty := by decide
  have hkept := (block_updates_kept hu hwriters hc).1
  rw [hflushed] at hkept
  exact ⟨c, hc, hflushed, hblock, hkept⟩

end HFlat.Data
