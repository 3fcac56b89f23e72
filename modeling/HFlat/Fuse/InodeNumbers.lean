/-
  Inode numbers (`grab_inode_generation_token` and `generate_inode_number` in `util.cc`), for any
  number of clients.

  The version of the key `inode_generation` is a number. A client that moves it from `base` to
  `base + 65535` may give out the numbers from `base` to `base + 65534`; after mounting it starts
  at `base + 1`, after a refresh at `base`. Every access to the key is one step, and so is the
  return of a number, which the service records. `PRIV->lock` makes the calls of one client follow
  one another. There are no I/O errors. `inum_base` is a natural number here: in fewer than `2 ^ 47`
  accesses nothing reaches the end of its 64 bits (`numbers_fit`).

  `Range` is what a client may still give out. The ranges of all clients are disjoint, below the
  version of the key and without any number given out so far (`RangeInv`).
-/
import Mathlib.Algebra.Group.Nat.Defs
import HFlat.Lib.Protocol
import HFlat.Replication.Drive

namespace HFlat.Fuse.InodeNumbers

open HFlat.Lib
open HFlat.Replication (KineticRecord StatusCode putSame versionOf)

/-! ## The key `inode_generation` -/

/-- One access to the key, or the return of a number. -/
inductive Req where
  | getVersion
  | put (expected newVersion : Str)
  /-- `generate_inode_number` returns -/
  | returns (number : Nat)
  deriving DecidableEq, Repr

/-- What the service answers to a request. -/
abbrev Res : Req → Type
  | .getVersion => Except StatusCode Str
  | .put _ _ => StatusCode
  | .returns _ => Unit

/-- The key `inode_generation`, and the numbers returned so far. -/
structure State where
  inodeGeneration : Option (KineticRecord Unit)
  /-- every number returned so far, the latest first -/
  returned : List Nat
  deriving DecidableEq, Repr

/-- One step of a client. -/
def serve (s : State) : (r : Req) → Unit → Option (Res r × State)
  | .getVersion, _ =>
      match s.inodeGeneration with
      | some record => some (.ok record.version, s)
      | none => some (.error .REMOTE_NOT_FOUND, s)
  | .put expected newVersion, _ =>
      let result := putSame s.inodeGeneration expected ⟨(), newVersion⟩
      some (result.1, { s with inodeGeneration := result.2 })
  | .returns number, _ => some ((), { s with returned := number :: s.returned })

/-- The drives that all clients access. -/
def service : Service Req Res Unit State := ⟨serve⟩

/-! ## Clients -/

/-- `std::numeric_limits<std::uint16_t>::max()`. -/
def uint16Max : Nat := 65535

/-- The fields of `hflat_priv` for inode generation. -/
structure Priv where
  inumBase : Nat
  inumCounter : Nat
  deriving DecidableEq, Repr

/-- Computations of one client: its fields for inode generation, and requests to the service. -/
abbrev M := StateT Priv (Prog Req Res)

/-- One request. -/
def request (r : Req) : M (Res r) := StateT.lift (Prog.perform r)

/-- The value of `inum_base` after `GetVersion`, `none` for an error. -/
def baseOf : Except StatusCode Str → Option Nat
  | .ok keyVersion => some (toInt64 keyVersion)
  | .error .REMOTE_NOT_FOUND => some 0
  | .error _ => none

/-- The version that a `Put` expects: none for the first token. -/
def expectedVersion (base : Nat) : Str := if base ≠ 0 then toStr base else []

/-- `grab_inode_generation_token`, with a bound on the number of retries. -/
def grabInodeGenerationToken : Nat → M Int
  | 0 => StateT.lift Prog.stop
  | fuel + 1 => do
      let keyVersion ← request .getVersion
      match baseOf keyVersion with
      | none => return - EIO
      | some base =>
          modify fun priv => { priv with inumBase := base }
          let status ← request (.put (expectedVersion base) (toStr (base + uint16Max)))
          match status with
          | .REMOTE_VERSION_MISMATCH => grabInodeGenerationToken fuel
          | .OK => return 0
          | _ => return - EIO

/-- The refresh in `generate_inode_number`; an error is only logged. -/
def refresh (fuel : Nat) : M Unit := do
  let _ ← grabInodeGenerationToken fuel
  modify fun priv => { priv with inumCounter := 0 }

/-- `generate_inode_number`. -/
def generateInodeNumber (fuel : Nat) : M Nat := do
  -- a 16-bit number
  modify fun priv => { priv with inumCounter := (priv.inumCounter + 1) % (uint16Max + 1) }
  let counter := (← get).inumCounter
  let _ ← (if counter = uint16Max then refresh fuel else pure () : M Unit)
  let priv ← get
  return priv.inumBase + priv.inumCounter

/-- A number of calls of `generate_inode_number`. -/
def generate (fuel : Nat) : Nat → M Unit
  | 0 => pure ()
  | calls + 1 => do
      let number ← generateInodeNumber fuel
      let _ ← request (.returns number)
      generate fuel calls

/-- `hflat_init`, and calls of `generate_inode_number` while the client is mounted. -/
def mount (fuel calls : Nat) : M Unit := do
  let _ ← grabInodeGenerationToken fuel
  generate fuel calls

/-- No client has mounted yet. -/
def start {ι : Type} (retries calls : ι → Nat) : Config Req Res State ι (Unit × Priv) :=
  ⟨⟨none, []⟩, fun i => (mount (retries i) (calls i)).run ⟨0, 0⟩⟩

/-! ## What a client may give out -/

/-- The numbers from `free` to `stop`, without `stop`. -/
structure Range where
  free : Nat
  stop : Nat

/-- The number is in the range. -/
def Range.Has (t : Range) (n : Nat) : Prop := t.free ≤ n ∧ n < t.stop

/-- A client moves the version by one token and returns numbers of its own token only. -/
def protocol : Protocol Req Res Range where
  allowed t
    | .getVersion => True
    | .put expected newVersion =>
        ∃ base, expected = expectedVersion base ∧ newVersion = toStr (base + uint16Max)
    | .returns number => t.Has number
  answers _
    | .getVersion, x => baseOf x ≠ none
    | .put _ _, status => status = .OK ∨ status = .REMOTE_VERSION_MISMATCH
    | .returns _, _ => True
  next t
    | .getVersion, _ => t
    | .put _ newVersion, status =>
        if status = .OK then ⟨toInt64 newVersion - uint16Max, toInt64 newVersion⟩ else t
    | .returns number, _ => ⟨number + 1, t.stop⟩

/-- A token, and no number of it given out. -/
theorem grab_conforms (fuel : Nat) (l : Priv) (t : Range) :
    Conforms protocol (grabInodeGenerationToken fuel)
      (fun _ l' t' => l'.inumCounter = l.inumCounter ∧ t' = ⟨l'.inumBase, l'.inumBase + uint16Max⟩) l t := by
  induction fuel generalizing l t with
  | zero => exact Conforms.stop
  | succ fuel ih =>
    have hget : Conforms protocol (request .getVersion)
        (fun x l' t' => baseOf x ≠ none ∧ l' = l ∧ t' = t) l t :=
      Conforms.call trivial fun x hx => ⟨hx, rfl, rfl⟩
    refine hget.then fun x l' t' ⟨hx, hl, ht⟩ => ?_
    subst hl ht
    obtain ⟨base, hbase⟩ := Option.ne_none_iff_exists'.mp hx
    simp only [hbase]
    refine Conforms.modify_bind ?_
    have hput : Conforms protocol (request (.put (expectedVersion base) (toStr (base + uint16Max))))
        (fun status l'' t'' => (status = .OK ∨ status = .REMOTE_VERSION_MISMATCH) ∧
          l'' = { l' with inumBase := base } ∧ (status = .OK → t'' = ⟨base, base + uint16Max⟩))
        { l' with inumBase := base } t' := by
      refine Conforms.call ⟨base, rfl, rfl⟩ fun status hstatus => ⟨hstatus, rfl, fun hok => ?_⟩
      show (if status = .OK then _ else t') = _
      rw [if_pos hok, toInt64_toStr, Nat.add_sub_cancel]
    refine hput.then fun status l'' t'' ⟨hstatus, hl, ht⟩ => ?_
    subst hl
    obtain rfl | rfl := hstatus
    · exact Conforms.pure ⟨rfl, ht rfl⟩
    · exact ih ⟨base, l'.inumCounter⟩ t''

/-- The numbers after the counter are still the client's. -/
structure Ready (l : Priv) (t : Range) : Prop where
  counter : l.inumCounter < uint16Max
  free : t.free ≤ l.inumBase + l.inumCounter + 1
  stop : t.stop = l.inumBase + uint16Max

/-- The number belongs to the client, and so do those after it. -/
theorem generateInodeNumber_conforms (fuel : Nat) {l : Priv} {t : Range} (h : Ready l t) :
    Conforms protocol (generateInodeNumber fuel)
      (fun number l' t' => t'.Has number ∧ Ready l' ⟨number + 1, t'.stop⟩) l t := by
  have hcounter := h.counter
  have hwrap : (l.inumCounter + 1) % (uint16Max + 1) = l.inumCounter + 1 :=
    Nat.mod_eq_of_lt (Nat.succ_lt_succ hcounter)
  unfold generateInodeNumber
  refine Conforms.modify_bind (Conforms.get_bind ?_)
  have hrefresh : Conforms protocol
      (if (l.inumCounter + 1) % (uint16Max + 1) = uint16Max then refresh fuel else pure () : M Unit)
      (fun _ l' t' => l'.inumCounter < uint16Max ∧ t'.free ≤ l'.inumBase + l'.inumCounter ∧
        t'.stop = l'.inumBase + uint16Max)
      { l with inumCounter := (l.inumCounter + 1) % (uint16Max + 1) } t := by
    refine Conforms.ite (fun _ => ?_) fun hlast => ?_
    · refine (grab_conforms fuel _ t).then fun _ l' t' ⟨_, ht⟩ => ?_
      refine Conforms.modify ⟨(by decide : 0 < uint16Max), ?_, ?_⟩
      · rw [ht]
        exact le_rfl
      · rw [ht]
    · rw [hwrap] at hlast ⊢
      have hnext : l.inumCounter + 1 < uint16Max := by omega
      exact Conforms.pure ⟨hnext, h.free, h.stop⟩
  refine hrefresh.then fun _ l' t' ⟨hlt, hfree, hstop⟩ => ?_
  refine Conforms.get_bind (Conforms.pure ⟨⟨hfree, by omega⟩, hlt, le_rfl, hstop⟩)

theorem generate_conforms (fuel calls : Nat) {l : Priv} {t : Range} (h : Ready l t) :
    Conforms protocol (generate fuel calls) (fun _ _ _ => True) l t := by
  induction calls generalizing l t with
  | zero => exact Conforms.pure trivial
  | succ calls ih =>
    refine (generateInodeNumber_conforms fuel h).then fun number l' t' ⟨hhas, hready⟩ => ?_
    have hreturns : Conforms protocol (request (.returns number))
        (fun _ l'' t'' => l'' = l' ∧ t'' = ⟨number + 1, t'.stop⟩) l' t' :=
      Conforms.call hhas fun _ _ => ⟨rfl, rfl⟩
    refine hreturns.then fun _ l'' t'' ⟨hl, ht⟩ => ?_
    subst hl ht
    exact ih hready

theorem mount_conforms (fuel calls : Nat) (t : Range) :
    Conforms protocol (mount fuel calls) (fun _ _ _ => True) ⟨0, 0⟩ t := by
  refine (grab_conforms fuel _ t).then fun _ l' t' ⟨hcounter, ht⟩ => ?_
  refine generate_conforms fuel calls ⟨?_, ?_, ?_⟩
  · rw [hcounter]
    decide
  · rw [ht]
    exact (Nat.le_add_right _ _).trans (Nat.le_add_right _ _)
  · rw [ht]

/-! ## The invariant -/

section Invariant

variable {ι : Type}

/-- The number of numbers that have been handed out in tokens. -/
def limit (s : State) : Nat := toInt64 (versionOf s.inodeGeneration)

theorem limit_put (s : State) (next : Nat) :
    limit { s with inodeGeneration := some ⟨(), toStr next⟩ } = next := toInt64_toStr next

/-- The invariant: the ranges of the clients are disjoint, below the version, and without the numbers
    returned. -/
structure RangeInv (s : State) (t : ι → Range) : Prop where
  version : versionOf s.inodeGeneration = expectedVersion (limit s)
  below : ∀ i, (t i).stop ≤ limit s
  apart : ∀ i j n, (t i).Has n → (t j).Has n → i = j
  returnedBelow : ∀ n ∈ s.returned, n < limit s
  returnedGone : ∀ n ∈ s.returned, ∀ i, ¬ (t i).Has n
  nodup : s.returned.Nodup

theorem toInt64_expectedVersion (base : Nat) : toInt64 (expectedVersion base) = base := by
  unfold expectedVersion
  split
  · exact toInt64_toStr base
  · rename_i hzero
    rw [not_not.mp hzero]
    rfl

theorem rangeInv_start (retries calls : ι → Nat) :
    RangeInv (start retries calls).shared fun _ : ι => ⟨0, 0⟩ := by
  refine ⟨rfl, fun i => le_rfl, fun i j n hn => ?_, fun n hn => ?_, fun n hn => ?_, List.nodup_nil⟩
  · exact absurd hn.2 (Nat.not_lt_zero n)
  · cases hn
  · cases hn

variable [DecidableEq ι]

/-- The next token starts where the numbers handed out so far end. -/
theorem RangeInv.put {s : State} {t : ι → Range} (h : RangeInv s t) (i : ι) {next : Nat}
    (hlt : limit s < next) :
    RangeInv { s with inodeGeneration := some ⟨(), toStr next⟩ } (Function.update t i ⟨limit s, next⟩) := by
  have hlimit := limit_put s next
  have hold : ∀ j n, (t j).Has n → n < limit s := fun j n hn => hn.2.trans_le (h.below j)
  refine ⟨?_, fun j => ?_, ?_, ?_, ?_, h.nodup⟩
  · rw [hlimit]
    exact (if_pos (Nat.ne_of_gt ((Nat.zero_le _).trans_lt hlt))).symm
  · rw [hlimit]
    by_cases hj : j = i
    · rw [hj, Function.update_self]
    · rw [Function.update_of_ne hj]
      exact (h.below j).trans hlt.le
  · intro j k n hjn hkn
    by_cases hj : j = i <;> by_cases hk : k = i
    · rw [hj, hk]
    · rw [hj, Function.update_self] at hjn
      rw [Function.update_of_ne hk] at hkn
      exact absurd hjn.1 (Nat.not_le_of_lt (hold k n hkn))
    · rw [hk, Function.update_self] at hkn
      rw [Function.update_of_ne hj] at hjn
      exact absurd hkn.1 (Nat.not_le_of_lt (hold j n hjn))
    · rw [Function.update_of_ne hj] at hjn
      rw [Function.update_of_ne hk] at hkn
      exact h.apart j k n hjn hkn
  · intro n hn
    rw [hlimit]
    exact (h.returnedBelow n hn).trans hlt
  · intro n hn
    rw [Function.forall_update_iff t fun _ r => ¬ r.Has n]
    exact ⟨fun hhas => Nat.not_le_of_lt (h.returnedBelow n hn) hhas.1, fun j _ => h.returnedGone n hn j⟩

theorem RangeInv.returns {s : State} {t : ι → Range} (h : RangeInv s t) {i : ι} {number : Nat}
    (hhas : (t i).Has number) :
    RangeInv { s with returned := number :: s.returned } (Function.update t i ⟨number + 1, (t i).stop⟩) := by
  have hsub : ∀ j n, (Function.update t i ⟨number + 1, (t i).stop⟩ j).Has n → (t j).Has n := by
    intro j n hn
    by_cases hj : j = i
    · rw [hj, Function.update_self] at hn
      rw [hj]
      exact ⟨hhas.1.trans ((Nat.le_succ _).trans hn.1), hn.2⟩
    · rwa [Function.update_of_ne hj] at hn
  refine ⟨h.version, ?_, fun j k n hj hk => h.apart j k n (hsub j n hj) (hsub k n hk), ?_, ?_, ?_⟩
  · show ∀ j, (Function.update t i ⟨number + 1, (t i).stop⟩ j).stop ≤ limit s
    rw [Function.forall_update_iff t fun _ r => r.stop ≤ limit s]
    exact ⟨h.below i, fun j _ => h.below j⟩
  · exact List.forall_mem_cons.mpr ⟨hhas.2.trans_le (h.below i), h.returnedBelow⟩
  · refine List.forall_mem_cons.mpr ⟨fun j hj => ?_, fun n hn j hj => h.returnedGone n hn j (hsub j n hj)⟩
    obtain rfl : j = i := h.apart j i number (hsub j number hj) hhas
    rw [Function.update_self] at hj
    exact absurd hj.1 (Nat.not_succ_le_self number)
  · exact List.nodup_cons.mpr ⟨fun hn => h.returnedGone number hn i hhas, h.nodup⟩

theorem range_sound : Sound service (fun _ : ι => protocol) RangeInv := by
  intro s t i r choice x s' h hallowed hserve
  cases r with
  | getVersion =>
    have hsame : s' = s ∧ baseOf x ≠ none := by
      simp only [service, serve] at hserve
      split at hserve
      · cases hserve
        exact ⟨rfl, Option.some_ne_none _⟩
      · cases hserve
        exact ⟨rfl, Option.some_ne_none _⟩
    obtain ⟨rfl, hx⟩ := hsame
    refine ⟨hx, ?_⟩
    show RangeInv s' (Function.update t i (t i))
    rw [Function.update_eq_self]
    exact h
  | returns number =>
    cases hserve
    exact ⟨trivial, h.returns hallowed⟩
  | put expected newVersion =>
    obtain ⟨base, rfl, rfl⟩ := hallowed
    by_cases hversion : versionOf s.inodeGeneration = expectedVersion base
    · have hput : putSame s.inodeGeneration (expectedVersion base) ⟨(), toStr (base + uint16Max)⟩ =
          (.OK, some ⟨(), toStr (base + uint16Max)⟩) := if_pos hversion
      simp only [service, serve, hput] at hserve
      cases hserve
      obtain rfl : limit s = base := by
        unfold limit
        rw [hversion, toInt64_expectedVersion]
      refine ⟨Or.inl rfl, ?_⟩
      show RangeInv _ (Function.update t i ⟨toInt64 (toStr (limit s + uint16Max)) - uint16Max,
        toInt64 (toStr (limit s + uint16Max))⟩)
      rw [toInt64_toStr, Nat.add_sub_cancel]
      exact h.put i (Nat.lt_add_of_pos_right (by decide : 0 < uint16Max))
    · have hput : putSame s.inodeGeneration (expectedVersion base) ⟨(), toStr (base + uint16Max)⟩ =
          (.REMOTE_VERSION_MISMATCH, s.inodeGeneration) := if_neg hversion
      simp only [service, serve, hput] at hserve
      cases hserve
      refine ⟨Or.inr rfl, ?_⟩
      show RangeInv s (Function.update t i (t i))
      rw [Function.update_eq_self]
      exact h

end Invariant

/-! ## A client that runs alone -/

section Alone

variable {α : Type}

/-- The second half of an attempt. -/
def takeToken (fuel base : Nat) : M Int := do
  let status ← request (.put (expectedVersion base) (toStr (base + uint16Max)))
  match status with
  | .REMOTE_VERSION_MISMATCH => grabInodeGenerationToken fuel
  | .OK => return 0
  | _ => return - EIO

theorem grab_call (fuel : Nat) (f : Int → M α) (l : Priv) :
    (grabInodeGenerationToken (fuel + 1) >>= f).run l = .call .getVersion fun x =>
      match baseOf x with
      | none => (f (- EIO)).run l
      | some base => (takeToken fuel base >>= f).run ⟨base, l.inumCounter⟩ := by
  refine congrArg (Prog.call _) (funext fun x => ?_)
  dsimp only
  cases hbase : baseOf x with
  | none =>
    simp only [Prog.bind, Prog.pure_eq, hbase]
    rfl
  | some base =>
    simp only [Prog.bind, Prog.pure_eq, hbase]
    rfl

theorem takeToken_call (fuel base : Nat) (f : Int → M α) (l : Priv) :
    (takeToken fuel base >>= f).run l =
      .call (.put (expectedVersion base) (toStr (base + uint16Max))) fun status =>
        match status with
        | .REMOTE_VERSION_MISMATCH => (grabInodeGenerationToken fuel >>= f).run l
        | .OK => (f 0).run l
        | _ => (f (- EIO)).run l := by
  refine congrArg (Prog.call _) (funext fun status => ?_)
  dsimp only
  cases status <;> rfl

theorem generateInodeNumber_next (fuel base counter : Nat) (hlt : counter + 1 < uint16Max) :
    (generateInodeNumber fuel).run ⟨base, counter⟩ = .ret (base + (counter + 1), ⟨base, counter + 1⟩) := by
  have hwrap : (counter + 1) % (uint16Max + 1) = counter + 1 := Nat.mod_eq_of_lt (by omega)
  have hnot : (if counter + 1 = uint16Max then refresh fuel else pure () : M Unit) = pure () :=
    if_neg hlt.ne
  show ((if (counter + 1) % (uint16Max + 1) = uint16Max then refresh fuel else pure () : M Unit)
    ⟨base, (counter + 1) % (uint16Max + 1)⟩).bind _ = _
  rw [hwrap, hnot]
  rfl

theorem generate_call (fuel calls base counter : Nat) (hlt : counter + 1 < uint16Max) :
    (generate fuel (calls + 1)).run ⟨base, counter⟩ =
      .call (.returns (base + (counter + 1))) fun _ => (generate fuel calls).run ⟨base, counter + 1⟩ := by
  show ((generateInodeNumber fuel).run ⟨base, counter⟩).bind _ = _
  rw [generateInodeNumber_next fuel base counter hlt]
  rfl

theorem generate_refresh (fuel calls base : Nat) :
    (generate fuel (calls + 1)).run ⟨base, uint16Max - 1⟩ =
      (grabInodeGenerationToken fuel >>= fun _ => do
        modify fun priv => { priv with inumCounter := 0 }
        let priv ← get
        let _ ← request (.returns (priv.inumBase + priv.inumCounter))
        generate fuel calls).run ⟨base, uint16Max⟩ := by
  show (((((grabInodeGenerationToken fuel).run ⟨base, uint16Max⟩).bind _).bind _).bind _) = _
  simp only [Prog.bind_bind]
  rfl

variable {ι : Type} [DecidableEq ι] {c : Config Req Res State ι (Unit × Priv)} (i : ι)

/-- A client that reads the version is about to take the token that starts there. -/
theorem run_getVersion (fuel base : Nat) {f : Int → M Unit} {l : Priv}
    (hprog : c.prog i = (grabInodeGenerationToken (fuel + 1) >>= f).run l)
    (hversion : versionOf c.shared.inodeGeneration = expectedVersion base) :
    runFrom service c [(i, ())] =
      some ⟨c.shared, Function.update c.prog i ((takeToken fuel base >>= f).run ⟨base, l.inumCounter⟩)⟩ := by
  have hserve : ∃ x, service.serve c.shared .getVersion () = some (x, c.shared) ∧ baseOf x = some base := by
    cases hcur : c.shared.inodeGeneration with
    | none =>
      rw [hcur] at hversion
      refine ⟨.error .REMOTE_NOT_FOUND, by simp only [service, serve, hcur], ?_⟩
      exact congrArg some ((congrArg toInt64 hversion).trans (toInt64_expectedVersion base))
    | some record =>
      rw [hcur] at hversion
      refine ⟨.ok record.version, by simp only [service, serve, hcur], ?_⟩
      exact congrArg some ((congrArg toInt64 hversion).trans (toInt64_expectedVersion base))
  obtain ⟨x, hserve, hbase⟩ := hserve
  rw [grab_call] at hprog
  show (c.step service i ()).bind _ = _
  simp only [Config.step, hprog, hserve, hbase]
  rfl

/-- The version has not moved: the token is taken. -/
theorem run_put (fuel base : Nat) {f : Int → M Unit} {l : Priv}
    (hprog : c.prog i = (takeToken fuel base >>= f).run l)
    (hversion : versionOf c.shared.inodeGeneration = expectedVersion base) :
    runFrom service c [(i, ())] =
      some ⟨{ c.shared with inodeGeneration := some ⟨(), toStr (base + uint16Max)⟩ },
        Function.update c.prog i ((f 0).run l)⟩ := by
  rw [takeToken_call] at hprog
  show (c.step service i ()).bind _ = _
  simp only [Config.step, hprog, service, serve, putSame, if_pos hversion]
  rfl

/-- The version has moved: the client starts again. -/
theorem run_put_refused (fuel base : Nat) {f : Int → M Unit} {l : Priv}
    (hprog : c.prog i = (takeToken fuel base >>= f).run l)
    (hversion : versionOf c.shared.inodeGeneration ≠ expectedVersion base) :
    runFrom service c [(i, ())] =
      some ⟨c.shared, Function.update c.prog i ((grabInodeGenerationToken fuel >>= f).run l)⟩ := by
  rw [takeToken_call] at hprog
  show (c.step service i ()).bind _ = _
  simp only [Config.step, hprog, service, serve, putSame, if_neg hversion]
  rfl

theorem run_grab (fuel base : Nat) {f : Int → M Unit} {l : Priv}
    (hprog : c.prog i = (grabInodeGenerationToken (fuel + 1) >>= f).run l)
    (hversion : versionOf c.shared.inodeGeneration = expectedVersion base) :
    runFrom service c [(i, ()), (i, ())] =
      some ⟨{ c.shared with inodeGeneration := some ⟨(), toStr (base + uint16Max)⟩ },
        Function.update c.prog i ((f 0).run ⟨base, l.inumCounter⟩)⟩ := by
  have hfirst := run_getVersion i fuel base hprog hversion
  have hput : runFrom service ⟨c.shared, Function.update c.prog i _⟩ [(i, ())] = _ :=
    run_put i fuel base (Function.update_self i ((takeToken fuel base >>= f).run ⟨base, l.inumCounter⟩) c.prog)
      hversion
  refine (runFrom_append hfirst hput).trans ?_
  rw [Function.update_idem]

theorem run_return (fuel calls base counter : Nat)
    (hprog : c.prog i = (generate fuel (calls + 1)).run ⟨base, counter⟩) (hlt : counter + 1 < uint16Max) :
    runFrom service c [(i, ())] =
      some ⟨{ c.shared with returned := (base + (counter + 1)) :: c.shared.returned },
        Function.update c.prog i ((generate fuel calls).run ⟨base, counter + 1⟩)⟩ := by
  rw [generate_call fuel calls base counter hlt] at hprog
  show (c.step service i ()).bind _ = _
  simp only [Config.step, hprog]
  rfl

/-- Within a token, a client gives out the numbers one after the other. -/
theorem run_returns (fuel calls more base counter : Nat)
    (hprog : c.prog i = (generate fuel (more + calls)).run ⟨base, counter⟩) (hlt : counter + calls < uint16Max) :
    runFrom service c (List.replicate calls (i, ())) =
      some ⟨{ c.shared with returned := (List.range' (base + counter + 1) calls).reverse ++ c.shared.returned },
        Function.update c.prog i ((generate fuel more).run ⟨base, counter + calls⟩)⟩ := by
  induction calls generalizing c counter with
  | zero =>
    have hstays : Function.update c.prog i ((generate fuel more).run ⟨base, counter⟩) = c.prog := by
      rw [Function.update_eq_self_iff]
      exact hprog.symm
    exact congrArg (fun progs => some (Config.mk c.shared progs)) hstays.symm
  | succ calls ih =>
    have hfirst := run_return i fuel (more + calls) base counter hprog (by omega)
    have hrest := ih (c := ⟨{ c.shared with returned := (base + (counter + 1)) :: c.shared.returned },
      Function.update c.prog i _⟩) (counter + 1) (Function.update_self i _ _) (by omega)
    refine (runFrom_append hfirst hrest).trans ?_
    simp only [Function.update_idem, List.range'_succ, List.reverse_cons, List.append_assoc, List.singleton_append,
      Nat.add_assoc, Nat.add_comm 1 calls]

/-- After the last number of its token, a client takes another one. -/
theorem run_refresh (fuel calls base next : Nat)
    (hprog : c.prog i = (generate (fuel + 1) (calls + 1)).run ⟨base, uint16Max - 1⟩)
    (hversion : versionOf c.shared.inodeGeneration = expectedVersion next) :
    runFrom service c (List.replicate 3 (i, ())) =
      some ⟨⟨some ⟨(), toStr (next + uint16Max)⟩, next :: c.shared.returned⟩,
        Function.update c.prog i ((generate (fuel + 1) calls).run ⟨next, 0⟩)⟩ := by
  rw [generate_refresh] at hprog
  have hgrab := run_grab i fuel next hprog hversion
  have hlast : runFrom service ⟨{ c.shared with inodeGeneration := some ⟨(), toStr (next + uint16Max)⟩ },
      Function.update c.prog i (Prog.call (.returns next) fun _ => (generate (fuel + 1) calls).run ⟨next, 0⟩)⟩
      [(i, ())] = some ⟨⟨some ⟨(), toStr (next + uint16Max)⟩, next :: c.shared.returned⟩,
        Function.update c.prog i ((generate (fuel + 1) calls).run ⟨next, 0⟩)⟩ := by
    show (Config.step _ _ _ _).bind _ = _
    simp only [Config.step, Function.update_self, Function.update_idem]
    rfl
  exact runFrom_append hgrab hlast

end Alone

/-! ## Runs -/

theorem limit_step {ι : Type} {s s' : State} {t : ι → Range} {i : ι} {r : Req} {x : Res r}
    (hallowed : protocol.allowed (t i) r) (hserve : service.serve s r () = some (x, s')) :
    limit s' ≤ limit s + uint16Max := by
  cases r with
  | getVersion =>
    simp only [service, serve] at hserve
    split at hserve <;> cases hserve <;> exact Nat.le_add_right _ _
  | returns number =>
    cases hserve
    exact Nat.le_add_right _ _
  | put expected newVersion =>
    obtain ⟨base, rfl, rfl⟩ := hallowed
    obtain rfl : s' = { s with inodeGeneration :=
        (putSame s.inodeGeneration (expectedVersion base) ⟨(), toStr (base + uint16Max)⟩).2 } :=
      (congrArg Prod.snd (Option.some.inj hserve)).symm
    by_cases hversion : versionOf s.inodeGeneration = expectedVersion base
    · rw [putSame, if_pos hversion]
      have hbase : limit s = base := by
        unfold limit
        rw [hversion, toInt64_expectedVersion]
      rw [limit_put, hbase]
    · rw [putSame, if_neg hversion]
      exact Nat.le_add_right (limit s) _

section Bounds

variable {ι : Type} [DecidableEq ι]

/-- Every access moves the version by at most one token. -/
theorem limit_le {α : Type} {Q : ι → α → Range → Prop} {c c' : Config Req Res State ι α} {t : ι → Range}
    {schedule : List (ι × Unit)} (hinv : RangeInv c.shared t)
    (h : ∀ i, (c.prog i).Conforms protocol (Q i) (t i)) (hrun : runFrom service c schedule = some c') :
    limit c'.shared ≤ limit c.shared + uint16Max * schedule.length := by
  induction schedule generalizing c t with
  | nil =>
    obtain rfl : c = c' := by simpa [runFrom] using hrun
    exact Nat.le_add_right _ _
  | cons e schedule ih =>
    rw [runFrom, List.foldlM_cons] at hrun
    obtain ⟨c1, hc1, hrun⟩ := Option.bind_eq_some_iff.mp hrun
    have hone : runFrom service c [e] = some c1 := by simpa [runFrom] using hc1
    obtain ⟨t1, hinv1, h1⟩ := runFrom_conforms range_sound hinv h hone
    have hrest := ih hinv1 h1 hrun
    obtain ⟨r, k, x, s, hp, hserve, rfl⟩ := Config.step_eq_some hc1
    have hfirst : limit s ≤ limit c.shared + uint16Max := limit_step ((h e.1).allowed (by rw [hp]; rfl)) hserve
    dsimp only at hrest
    rw [List.length_cons, Nat.mul_succ]
    omega

/-- In fewer than `2 ^ 47` accesses no number leaves the 64 bits of `inum_base`. -/
theorem numbers_fit {retries calls : ι → Nat} {schedule : List (ι × Unit)}
    {c : Config Req Res State ι (Unit × Priv)} (hrun : runFrom service (start retries calls) schedule = some c)
    (hshort : schedule.length < 2 ^ 47) :
    limit c.shared < 2 ^ 63 ∧ ∀ n ∈ c.shared.returned, n < 2 ^ 63 := by
  have hprog : ∀ i, ((start retries calls).prog i).Conforms protocol (fun _ _ => True) ⟨0, 0⟩ :=
    fun i => mount_conforms (retries i) (calls i) ⟨0, 0⟩
  have hle := limit_le (rangeInv_start retries calls) hprog hrun
  have hstart : limit (start retries calls).shared = 0 := rfl
  have hlimit : limit c.shared < 2 ^ 63 := by
    unfold uint16Max at hle
    omega
  obtain ⟨t, hinv, -⟩ := runFrom_conforms range_sound (rangeInv_start retries calls) hprog hrun
  exact ⟨hlimit, fun n hn => (hinv.returnedBelow n hn).trans hlimit⟩

end Bounds

/-- In every run of any number of clients, no number is returned twice. -/
theorem inode_numbers_unique {ι : Type} [DecidableEq ι] {retries calls : ι → Nat}
    {schedule : List (ι × Unit)} {c : Config Req Res State ι (Unit × Priv)}
    (hrun : runFrom service (start retries calls) schedule = some c) : c.shared.returned.Nodup := by
  have hprog : ∀ i, ((start retries calls).prog i).Conforms protocol (fun _ _ => True) ⟨0, 0⟩ :=
    fun i => mount_conforms (retries i) (calls i) ⟨0, 0⟩
  obtain ⟨t, hinv, -⟩ := runFrom_conforms range_sound (rangeInv_start retries calls) hprog hrun
  exact hinv.nodup

/-- Two clients mount at the same time, and one of them has to read the version again. It then uses up its
    token and takes another one, while the other client gives out a number. -/
theorem inode_numbers_unique_two_clients :
    ∃ c, runFrom service (start (fun _ : Bool => 2) fun _ => 65536)
        ([(true, ())] ++ [(false, ()), (false, ())] ++ [(true, ())] ++ [(true, ()), (true, ())] ++
          List.replicate 65534 (true, ()) ++ [(false, ())] ++ List.replicate 3 (true, ()) ++ [(true, ())]) =
        some c ∧
      c.shared.returned = 131071 :: 131070 :: 1 :: (List.range' 65536 65534).reverse ∧
      c.shared.returned.Nodup := by
  have h1 := run_getVersion true 1 0 (c := start (fun _ : Bool => 2) fun _ => 65536)
    (f := fun _ => generate 2 65536) (l := ⟨0, 0⟩) rfl rfl
  have h2 := runFrom_append h1 (run_grab false 1 0 (f := fun _ => generate 2 65536)
    (l := ⟨0, 0⟩) rfl rfl)
  have h3 := runFrom_append h2 (run_put_refused true 1 0
    (f := fun _ => generate 2 65536) (l := ⟨0, 0⟩) rfl (by decide))
  have h4 := runFrom_append h3 (run_grab true 0 65535 (f := fun _ => generate 2 65536)
    (l := ⟨0, 0⟩) rfl rfl)
  have h5 := runFrom_append h4 (run_returns true 2 65534 2 65535 0 rfl (by unfold uint16Max; omega))
  have h6 := runFrom_append h5 (run_return false 2 65535 0 0 rfl (by decide))
  have h7 := runFrom_append h6 (run_refresh true 1 1 65535 131070 rfl rfl)
  have h8 := runFrom_append h7 (run_return true 2 0 131070 0 rfl (by decide))
  exact ⟨_, h8, congrArg (fun l => 131071 :: 131070 :: 1 :: l) (List.append_nil _), inode_numbers_unique h8⟩

end HFlat.Fuse.InodeNumbers
