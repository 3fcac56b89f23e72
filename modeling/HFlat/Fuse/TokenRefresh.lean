/-
  Failed token refreshes (`grab_inode_generation_token` and `generate_inode_number` in `util.cc`).

  One client runs the program of `InodeNumbers` against a key whose accesses may fail. A `GetVersion`
  that fails leaves `inum_base` as it is, a `Put` that fails comes after `inum_base` was
  overwritten; in both cases `hflat_error` writes a line, and the counter starts again. Other
  clients take tokens at any time.

  `Live` describes the client between two calls: every number from `inum_base + 1` up to the counter
  has been returned, and `inum_base` itself unless the token is the one from mounting.
-/
import Mathlib.Data.List.Infix
import HFlat.Lib.Sequential
import HFlat.Fuse.InodeNumbers

namespace HFlat.Fuse.TokenRefresh

open HFlat.Lib
open HFlat.Replication (KineticRecord StatusCode putSame versionOf)
open HFlat.Fuse.InodeNumbers

/-! ## The key `inode_generation` with failures -/

/-- The key `inode_generation`, and what this client has done. -/
structure State where
  inodeGeneration : Option (KineticRecord Unit)
  /-- every number this client has returned, the latest first -/
  returned : List Nat
  /-- the bases of the tokens that this client has put successfully -/
  claimed : List Nat
  /-- number of `GetVersion`s of this client that were answered -/
  answered : Nat
  deriving DecidableEq, Repr

/-- How an access ends. -/
inductive Outcome where
  | done
  /-- the access is not carried out -/
  | failed (status : StatusCode)
  /-- the access is carried out, and an error returned -/
  | unanswered (status : StatusCode)
  deriving DecidableEq, Repr

/-- What happens before an access, and how it ends. -/
structure Choice where
  /-- number of tokens that other clients take before the access -/
  tokens : Nat
  outcome : Outcome
  deriving DecidableEq, Repr

/-- The status is that of a failure. -/
def isFailure : StatusCode → Bool
  | .OK | .REMOTE_NOT_FOUND | .REMOTE_VERSION_MISMATCH => false
  | _ => true

/-- The numbers below have been handed out in tokens. -/
def State.limit (s : State) : Nat := toInt64 (versionOf s.inodeGeneration)

/-- Other clients take tokens. -/
def State.advance (s : State) (tokens : Nat) : State :=
  if tokens = 0 then s
  else { s with inodeGeneration := some ⟨(), toStr (s.limit + tokens * uint16Max)⟩ }

/-- `GetVersion`: the version, or `REMOTE_NOT_FOUND`. -/
def lookupVersion : Option (KineticRecord Unit) → Except StatusCode Str
  | some record => .ok record.version
  | none => .error .REMOTE_NOT_FOUND

/-- A `Put` that is carried out. -/
def State.put (s : State) (expected newVersion : Str) : StatusCode × State :=
  let result := putSame s.inodeGeneration expected ⟨(), newVersion⟩
  (result.1, { s with inodeGeneration := result.2 })

/-- The client takes note of the token that it has put. -/
def State.claim (s : State) (status : StatusCode) (newVersion : Str) : State :=
  if status = .OK then { s with claimed := (toInt64 newVersion - uint16Max) :: s.claimed } else s

/-- The access, after the other clients have taken their tokens. -/
def serveAfter (s : State) : (r : Req) → Outcome → Option (Res r × State)
  | .getVersion, .done => some (lookupVersion s.inodeGeneration, { s with answered := s.answered + 1 })
  | .getVersion, .failed status => if isFailure status then some (.error status, s) else none
  | .put expected newVersion, .done =>
      let (status, s') := s.put expected newVersion
      some (status, s'.claim status newVersion)
  | .put _ _, .failed status => if isFailure status then some (status, s) else none
  | .put expected newVersion, .unanswered status =>
      if isFailure status then some (status, (s.put expected newVersion).2) else none
  | .returns number, .done => some ((), { s with returned := number :: s.returned })
  | _, _ => none

/-- The drives, with failures and with other clients that take tokens. -/
def faulty : Service Req Res Choice State :=
  ⟨fun s r choice => serveAfter (s.advance choice.tokens) r choice.outcome⟩

/-- No token has been taken. -/
def State.start : State := ⟨none, [], [], 0⟩

/-! ## Tokens -/

/-- The client's tokens are below the version of the key. -/
structure TokenInv (s : State) : Prop where
  version : versionOf s.inodeGeneration = expectedVersion s.limit
  below : ∀ base ∈ s.claimed, base + uint16Max ≤ s.limit

/-- What a call leaves as it is, or only adds to. -/
structure Grows (s s' : State) : Prop where
  returned : s.returned <:+ s'.returned
  claimed : s.claimed <:+ s'.claimed

section Steps

variable {s s' s'' : State} {l : Priv} {tokens : Nat}

theorem Grows.refl (s : State) : Grows s s := ⟨List.suffix_rfl, List.suffix_rfl⟩

theorem Grows.trans (h : Grows s s') (h' : Grows s' s'') : Grows s s'' :=
  ⟨h.returned.trans h'.returned, h.claimed.trans h'.claimed⟩

theorem limit_some {n : Nat} (h : s.inodeGeneration = some ⟨(), toStr n⟩) : s.limit = n := by
  unfold State.limit
  rw [h]
  exact toInt64_toStr n

/-- The version of the key goes up. -/
theorem TokenInv.raise (h : TokenInv s) {n : Nat} (hn : s.limit < n) :
    TokenInv { s with inodeGeneration := some ⟨(), toStr n⟩ } := by
  have hlimit : State.limit { s with inodeGeneration := some ⟨(), toStr n⟩ } = n := limit_some rfl
  refine ⟨?_, fun base hbase => ?_⟩
  · rw [hlimit]
    exact (if_pos (Nat.ne_of_gt ((Nat.zero_le _).trans_lt hn))).symm
  · rw [hlimit]
    exact (h.below base hbase).trans hn.le

theorem advance_returned (s : State) (tokens : Nat) : (s.advance tokens).returned = s.returned := by
  unfold State.advance
  split <;> rfl

theorem advance_claimed (s : State) (tokens : Nat) : (s.advance tokens).claimed = s.claimed := by
  unfold State.advance
  split <;> rfl

theorem advance_answered (s : State) (tokens : Nat) : (s.advance tokens).answered = s.answered := by
  unfold State.advance
  split <;> rfl

theorem TokenInv.advance (h : TokenInv s) (tokens : Nat) : TokenInv (s.advance tokens) := by
  unfold State.advance
  split
  · exact h
  · rename_i hpos
    refine h.raise (Nat.lt_add_of_pos_right ?_)
    exact Nat.mul_pos (Nat.pos_of_ne_zero hpos) (by decide)

theorem TokenInv.start : TokenInv State.start := ⟨rfl, fun _ h => absurd h List.not_mem_nil⟩

theorem toInt64_lookup {base : Nat} (hbase : baseOf (lookupVersion s.inodeGeneration) = some base) :
    base = s.limit := by
  unfold lookupVersion at hbase
  unfold State.limit
  cases hkey : s.inodeGeneration with
  | none =>
    rw [hkey] at hbase
    exact (Option.some.inj hbase).symm
  | some record =>
    rw [hkey] at hbase
    exact (Option.some.inj hbase).symm

theorem baseOf_failure {status : StatusCode} (h : isFailure status = true) :
    baseOf (.error status) = none := by
  cases status <;> first | rfl | cases h

/-- `GetVersion`: it yields the limit, or fails. -/
theorem getVersion_post (h : TokenInv s) : Post faulty (request .getVersion)
    (fun x l' s' => l' = l ∧ TokenInv s' ∧ s'.returned = s.returned ∧ s'.claimed = s.claimed ∧
      ((baseOf x = none ∧ s'.answered = s.answered) ∨
        (∃ base, baseOf x = some base ∧ s'.answered = s.answered + 1 ∧
          ∀ b ∈ s.claimed, b + uint16Max ≤ base))) l s := by
  refine Post.call fun choice x s' hserve => ?_
  have hinv := h.advance choice.tokens
  have hret := advance_returned s choice.tokens
  have hclaim := advance_claimed s choice.tokens
  have hans := advance_answered s choice.tokens
  have hserve : serveAfter (s.advance choice.tokens) .getVersion choice.outcome = some (x, s') := hserve
  cases hout : choice.outcome with
  | done =>
    rw [hout] at hserve
    cases hserve
    refine ⟨rfl, ⟨hinv.version, hinv.below⟩, hret, hclaim, Or.inr ?_⟩
    have hsome : ∃ base, baseOf (lookupVersion (s.advance choice.tokens).inodeGeneration) = some base := by
      cases (s.advance choice.tokens).inodeGeneration with
      | none => exact ⟨_, rfl⟩
      | some record => exact ⟨_, rfl⟩
    obtain ⟨base, hbase⟩ := hsome
    refine ⟨base, hbase, congrArg (· + 1) hans, fun b hb => ?_⟩
    rw [toInt64_lookup hbase]
    exact hinv.below b (hclaim.symm ▸ hb)
  | failed status =>
    rw [hout] at hserve
    simp only [serveAfter] at hserve
    split at hserve
    · rename_i hfail
      cases hserve
      exact ⟨rfl, hinv, hret, hclaim, Or.inl ⟨baseOf_failure hfail, hans⟩⟩
    · cases hserve
  | unanswered status =>
    rw [hout] at hserve
    cases hserve

/-- A `Put` either moves the key from `base` to the next token, or is refused. -/
theorem put_cases (s : State) (base : Nat) :
    (s.limit = base ∧ s.put (expectedVersion base) (toStr (base + uint16Max)) =
      (.OK, { s with inodeGeneration := some ⟨(), toStr (base + uint16Max)⟩ })) ∨
    s.put (expectedVersion base) (toStr (base + uint16Max)) = (.REMOTE_VERSION_MISMATCH, s) := by
  unfold State.put putSame
  by_cases hversion : versionOf s.inodeGeneration = expectedVersion base
  · refine Or.inl ⟨?_, by rw [if_pos hversion]⟩
    unfold State.limit
    rw [hversion, toInt64_expectedVersion]
  · exact Or.inr (by rw [if_neg hversion])

/-- The next token belongs to the client. -/
theorem TokenInv.claim (h : TokenInv s) :
    TokenInv { s with
      inodeGeneration := some ⟨(), toStr (s.limit + uint16Max)⟩
      claimed := s.limit :: s.claimed } := by
  have hlimit : State.limit { s with
      inodeGeneration := some ⟨(), toStr (s.limit + uint16Max)⟩
      claimed := s.limit :: s.claimed } = s.limit + uint16Max := limit_some rfl
  have hraise := h.raise (n := s.limit + uint16Max) (Nat.lt_add_of_pos_right (by decide))
  refine ⟨hraise.version, fun base hbase => ?_⟩
  rw [hlimit]
  obtain rfl | hbase := List.mem_cons.mp hbase
  · exact le_rfl
  · exact (h.below base hbase).trans (Nat.le_add_right _ _)

theorem claim_ok (s : State) (base : Nat) :
    s.claim .OK (toStr (base + uint16Max)) = { s with claimed := base :: s.claimed } := by
  unfold State.claim
  rw [if_pos rfl, toInt64_toStr, Nat.add_sub_cancel]

/-- The `Put` of a token: it is claimed, or refused, or fails. -/
theorem put_post (h : TokenInv s) (base : Nat) :
    Post faulty (request (.put (expectedVersion base) (toStr (base + uint16Max))))
      (fun status l' s' => l' = l ∧ TokenInv s' ∧ s'.returned = s.returned ∧ s'.answered = s.answered ∧
        (status = .OK ∧ s'.claimed = base :: s.claimed ∨ status ≠ .OK ∧ s'.claimed = s.claimed)) l s := by
  refine Post.call fun choice status s' hserve => ?_
  have hinv := h.advance choice.tokens
  have hret := advance_returned s choice.tokens
  have hclaim := advance_claimed s choice.tokens
  have hans := advance_answered s choice.tokens
  have hserve : serveAfter (s.advance choice.tokens)
    (.put (expectedVersion base) (toStr (base + uint16Max))) choice.outcome = some (status, s') := hserve
  generalize s.advance choice.tokens = t at hinv hret hclaim hans hserve
  have hfailure : ∀ failure, isFailure failure = true → failure ≠ .OK := by
    rintro _ hfail rfl
    cases hfail
  cases hout : choice.outcome with
  | done =>
    rw [hout] at hserve
    simp only [serveAfter] at hserve
    obtain ⟨rfl, hput⟩ | hput := put_cases t base
    · rw [hput] at hserve
      dsimp only at hserve
      rw [claim_ok] at hserve
      cases hserve
      exact ⟨rfl, hinv.claim, hret, hans, Or.inl ⟨rfl, congrArg _ hclaim⟩⟩
    · rw [hput] at hserve
      cases hserve
      exact ⟨rfl, hinv, hret, hans, Or.inr ⟨StatusCode.noConfusion, hclaim⟩⟩
  | failed failure =>
    rw [hout] at hserve
    simp only [serveAfter] at hserve
    split at hserve
    · rename_i hfail
      cases hserve
      exact ⟨rfl, hinv, hret, hans, Or.inr ⟨hfailure _ hfail, hclaim⟩⟩
    · cases hserve
  | unanswered failure =>
    rw [hout] at hserve
    simp only [serveAfter] at hserve
    split at hserve
    · rename_i hfail
      cases hserve
      obtain ⟨rfl, hput⟩ | hput := put_cases t base
      · rw [hput]
        have hraise := hinv.raise (n := t.limit + uint16Max) (Nat.lt_add_of_pos_right (by decide))
        exact ⟨rfl, hraise, hret, hans, Or.inr ⟨hfailure _ hfail, hclaim⟩⟩
      · rw [hput]
        exact ⟨rfl, hinv, hret, hans, Or.inr ⟨hfailure _ hfail, hclaim⟩⟩
    · cases hserve

end Steps

/-! ## Calls -/

/-- How a refresh ends: with a new token, or without one. Then `inum_base` is what it was, or it has
    been read and lies behind all tokens of the client. -/
def Ends (l : Priv) (s : State) (l' : Priv) (s' : State) : Prop :=
  s'.claimed = l'.inumBase :: s.claimed ∨ s'.claimed = s.claimed ∧
    (s'.answered = s.answered ∧ l'.inumBase = l.inumBase ∨
      s.answered < s'.answered ∧ ∀ base ∈ s.claimed, base + uint16Max ≤ l'.inumBase)

/-- What a refresh has done: no number is returned, and the counter stays. -/
structure Refreshed (l : Priv) (s : State) (l' : Priv) (s' : State) : Prop where
  inv : TokenInv s'
  returned : s'.returned = s.returned
  counter : l'.inumCounter = l.inumCounter
  ends : Ends l s l' s'

theorem grab_post (fuel : Nat) {l : Priv} {s : State} (h : TokenInv s) :
    Post faulty (grabInodeGenerationToken fuel) (fun _ l' s' => Refreshed l s l' s') l s := by
  induction fuel generalizing l s with
  | zero => exact Post.stop
  | succ fuel ih =>
    refine (getVersion_post h).then fun x l1 s1 ⟨hl, hinv, hret, hclaim, hx⟩ => ?_
    subst hl
    obtain ⟨hnone, hans⟩ | ⟨base, hbase, hans, hbehind⟩ := hx
    · simp only [hnone]
      exact Post.pure ⟨hinv, hret, rfl, Or.inr ⟨hclaim, Or.inl ⟨hans, rfl⟩⟩⟩
    · simp only [hbase]
      refine Post.modify_bind ((put_post hinv base).then fun status l2 s2 hput => ?_)
      obtain ⟨hl, hinv2, hret2, hans2, hclaim2⟩ := hput
      subst hl
      have hmore : s.answered < s2.answered := by omega
      have hfail : status ≠ .OK → Refreshed l1 s { l1 with inumBase := base } s2 := fun hstatus =>
        ⟨hinv2, hret2.trans hret, rfl, Or.inr ⟨(hclaim2.resolve_left fun h => hstatus h.1).2.trans hclaim,
          Or.inr ⟨hmore, hbehind⟩⟩⟩
      cases status with
      | OK =>
        have hclaimed := (hclaim2.resolve_right fun h => h.1 rfl).2
        exact Post.pure ⟨hinv2, hret2.trans hret, rfl, Or.inl (hclaimed.trans (congrArg _ hclaim))⟩
      | REMOTE_VERSION_MISMATCH =>
        have hnot := (hclaim2.resolve_left fun h => StatusCode.noConfusion h.1).2
        refine (ih hinv2).mono fun _ l3 s3 h3 => ?_
        refine ⟨h3.inv, h3.returned.trans (hret2.trans hret), h3.counter, ?_⟩
        have hclaimed : s2.claimed = s.claimed := hnot.trans hclaim
        have hout := h3.ends
        unfold Ends at hout
        rw [hclaimed] at hout
        refine hout.imp id fun ⟨hsame, hrest⟩ => ⟨hsame, Or.inr ?_⟩
        obtain ⟨hans3, hl3⟩ | ⟨hans3, hbehind3⟩ := hrest
        · rw [hans3, hl3]
          exact ⟨hmore, hbehind⟩
        · exact ⟨hmore.trans hans3, hbehind3⟩
      | _ => exact Post.pure (hfail StatusCode.noConfusion)

/-- One call of `generate_inode_number` that has returned. -/
structure Called (l : Priv) (s : State) (l' : Priv) (s' : State) : Prop where
  inv : TokenInv s'
  returned : s'.returned = (l'.inumBase + l'.inumCounter) :: s.returned
  next : l.inumCounter + 1 < uint16Max → l' = ⟨l.inumBase, l.inumCounter + 1⟩ ∧ s'.claimed = s.claimed
  refresh : l.inumCounter + 1 = uint16Max → l'.inumCounter = 0 ∧ Ends l s l' s'

theorem returns_post {l : Priv} {s : State} (h : TokenInv s) (number : Nat) :
    Post faulty (request (.returns number)) (fun _ l' s' => l' = l ∧ TokenInv s' ∧
      s'.returned = number :: s.returned ∧ s'.claimed = s.claimed ∧ s'.answered = s.answered) l s := by
  refine Post.call fun choice _ s' hserve => ?_
  have hinv := h.advance choice.tokens
  have hserve : serveAfter (s.advance choice.tokens) (.returns number) choice.outcome = some ((), s') := hserve
  cases hout : choice.outcome with
  | done =>
    rw [hout] at hserve
    cases hserve
    exact ⟨rfl, ⟨hinv.version, hinv.below⟩, congrArg _ (advance_returned s _), advance_claimed s _,
      advance_answered s _⟩
  | failed status =>
    rw [hout] at hserve
    cases hserve
  | unanswered status =>
    rw [hout] at hserve
    cases hserve

theorem generate_succ {fuel calls : Nat} {l : Priv} {s : State} {Q : Unit → Priv → State → Prop}
    (h : TokenInv s) (hcounter : l.inumCounter < uint16Max)
    (hq : ∀ l' s', Called l s l' s' → Post faulty (generate fuel calls) Q l' s') :
    Post faulty (generate fuel (calls + 1)) Q l s := by
  have hwrap : (l.inumCounter + 1) % (uint16Max + 1) = l.inumCounter + 1 :=
    Nat.mod_eq_of_lt (Nat.succ_lt_succ hcounter)
  have hnumber : Post faulty (generateInodeNumber fuel) (fun number l' s' =>
      number = l'.inumBase + l'.inumCounter ∧ TokenInv s' ∧ s'.returned = s.returned ∧
      (l.inumCounter + 1 < uint16Max → l' = ⟨l.inumBase, l.inumCounter + 1⟩ ∧ s'.claimed = s.claimed) ∧
      (l.inumCounter + 1 = uint16Max → l'.inumCounter = 0 ∧ Ends l s l' s')) l s := by
    refine Post.modify_bind (Post.get_bind ?_)
    dsimp only
    rw [hwrap]
    have hmaybe : Post faulty (if l.inumCounter + 1 = uint16Max then refresh fuel else pure () : M Unit)
        (fun _ l' s' => TokenInv s' ∧ s'.returned = s.returned ∧
          (l.inumCounter + 1 < uint16Max → l' = ⟨l.inumBase, l.inumCounter + 1⟩ ∧ s'.claimed = s.claimed) ∧
          (l.inumCounter + 1 = uint16Max → l'.inumCounter = 0 ∧ Ends l s l' s'))
        ⟨l.inumBase, l.inumCounter + 1⟩ s := by
      refine Post.ite (fun hlast => ?_) fun hlast => ?_
      · refine (grab_post fuel h).then fun _ l1 s1 h1 => ?_
        refine Post.modify ⟨h1.inv, h1.returned, fun hlt => ?_, fun _ => ?_⟩
        · omega
        · exact ⟨rfl, h1.ends⟩
      · exact Post.pure ⟨h, rfl, fun _ => ⟨rfl, rfl⟩, fun he => absurd he hlast⟩
    exact hmaybe.then fun _ l1 s1 h1 => Post.get_bind (Post.pure ⟨rfl, h1⟩)
  refine hnumber.then fun number l1 s1 ⟨hn, hinv, hret, hnext, hrefresh⟩ => ?_
  refine (returns_post hinv number).then fun _ l2 s2 ⟨hl, hinv2, hret2, hclaim2, hans2⟩ => ?_
  subst hl hn
  refine hq l2 s2 ⟨hinv2, ?_, fun hlt => ?_, fun he => ?_⟩
  · rw [hret2, hret]
  · rw [hclaim2]
    exact hnext hlt
  · unfold Ends
    rw [hclaim2, hans2]
    exact hrefresh he

/-- The client between two calls. -/
structure Live (l : Priv) (s : State) : Prop where
  inv : TokenInv s
  counter : l.inumCounter < uint16Max
  used : ∀ j, 1 ≤ j → j ≤ l.inumCounter → l.inumBase + j ∈ s.returned
  base : (s.returned.length = l.inumCounter ∧ (∀ n ∈ s.returned, l.inumBase < n) ∧
      (s.claimed = [] ∨ s.claimed = [l.inumBase])) ∨
    (uint16Max ≤ s.returned.length ∧ l.inumBase ∈ s.returned)

section Calls

variable {l l' : Priv} {s s' : State}

theorem Called.grows (h : Called l s l' s') (hcounter : l.inumCounter < uint16Max) : Grows s s' := by
  refine ⟨h.returned ▸ List.suffix_cons _ _, ?_⟩
  obtain hlt | he : l.inumCounter + 1 < uint16Max ∨ l.inumCounter + 1 = uint16Max := by omega
  · rw [(h.next hlt).2]
  · obtain hnew | ⟨hsame, -⟩ := (h.refresh he).2
    · rw [hnew]
      exact List.suffix_cons _ _
    · rw [hsame]

theorem Called.live (h : Called l s l' s') (hl : Live l s) : Live l' s' := by
  have hcounter := hl.counter
  obtain hlt | he : l.inumCounter + 1 < uint16Max ∨ l.inumCounter + 1 = uint16Max := by omega
  · obtain ⟨rfl, hclaim⟩ := h.next hlt
    have hret : s'.returned = (l.inumBase + (l.inumCounter + 1)) :: s.returned := h.returned
    refine ⟨h.inv, hlt, fun j h1 hj => ?_, ?_⟩
    · rw [hret]
      obtain hj | hj : j ≤ l.inumCounter ∨ j = l.inumCounter + 1 := by
        have hj : j ≤ l.inumCounter + 1 := hj
        omega
      · exact List.mem_cons_of_mem _ (hl.used j h1 hj)
      · rw [hj]
        exact List.mem_cons_self
    · rw [hret, hclaim]
      refine hl.base.imp (fun ⟨hlen, hbelow, hclaimed⟩ => ⟨?_, ?_, hclaimed⟩) fun ⟨hlen, hbase⟩ => ⟨?_, ?_⟩
      · exact congrArg (· + 1) hlen
      · exact List.forall_mem_cons.mpr ⟨Nat.lt_add_of_pos_right (Nat.succ_pos _), hbelow⟩
      · exact hlen.trans (Nat.le_succ _)
      · exact List.mem_cons_of_mem _ hbase
  · obtain ⟨hzero, -⟩ := h.refresh he
    have hret : s'.returned = l'.inumBase :: s.returned := by
      rw [h.returned, hzero, Nat.add_zero]
    refine ⟨h.inv, by rw [hzero]; decide, fun j h1 hj => ?_, Or.inr ⟨?_, ?_⟩⟩
    · omega
    · rw [hret, List.length_cons]
      obtain ⟨hlen, -⟩ | ⟨hlen, -⟩ := hl.base
      · omega
      · omega
    · rw [hret]
      exact List.mem_cons_self

/-- Any number of calls. -/
theorem generate_live (fuel calls : Nat) (h : Live l s) :
    Post faulty (generate fuel calls) (fun _ l' s' => Live l' s' ∧ Grows s s') l s := by
  induction calls generalizing l s with
  | zero => exact Post.pure ⟨h, Grows.refl s⟩
  | succ calls ih =>
    refine generate_succ h.inv h.counter fun l1 s1 h1 => (ih (h1.live h)).mono fun _ l2 s2 ⟨h2, hgrows⟩ => ?_
    exact ⟨h2, (h1.grows h.counter).trans hgrows⟩

theorem mount_live (fuel calls : Nat) :
    Post faulty (mount fuel calls) (fun _ l' s' => Live l' s') ⟨0, 0⟩ State.start := by
  refine (grab_post fuel TokenInv.start).then fun _ l1 s1 h1 => ?_
  have hret : s1.returned = [] := h1.returned
  have hzero : l1.inumCounter = 0 := h1.counter
  have hlive : Live l1 s1 := by
    refine ⟨h1.inv, by rw [hzero]; decide, fun j hj hj' => by omega, Or.inl ⟨?_, ?_, ?_⟩⟩
    · rw [hret, hzero]
      rfl
    · rw [hret]
      exact fun n hn => absurd hn List.not_mem_nil
    · exact h1.ends.elim Or.inr fun h => Or.inl h.1
  exact (generate_live fuel calls hlive).mono fun _ _ _ h => h.1

end Calls

/-! ## The claim of a number -/

/-- The number lies in a token of the client. -/
def State.Claims (s : State) (n : Nat) : Prop := ∃ base ∈ s.claimed, base ≤ n ∧ n < base + uint16Max

/-- What was returned since `s` is the client's, and was not returned before. -/
def IssuedAnew (s s' : State) : Prop :=
  ∃ numbers, s'.returned = numbers ++ s.returned ∧ numbers.Nodup ∧
    ∀ n ∈ numbers, n ∉ s.returned ∧ s'.Claims n

section Refresh

variable {l l' : Priv} {s s' : State} {fuel calls later : Nat}

theorem IssuedAnew.mem (h : IssuedAnew s s') {n : Nat} {rest : List Nat}
    (hs : rest ++ s.returned <:+ s'.returned) (hn : n ∈ rest) : n ∉ s.returned ∧ s'.Claims n := by
  obtain ⟨numbers, hnumbers, -, hall⟩ := h
  obtain ⟨more, hmore⟩ := hs
  rw [hnumbers, ← List.append_assoc] at hmore
  have he : more ++ rest = numbers := List.append_cancel_right hmore
  exact hall n (he ▸ List.mem_append_right _ hn)

/-- The failed call itself. -/
theorem refresh_issues_iff (hlive : Live l s) (hneeds : l.inumCounter + 1 = uint16Max)
    (hret : s'.returned = [l'.inumBase] ++ s.returned) (hclaim : s'.claimed = s.claimed)
    (hends : s'.answered = s.answered ∧ l'.inumBase = l.inumBase ∨
      s.answered < s'.answered ∧ ∀ base ∈ s.claimed, base + uint16Max ≤ l'.inumBase) :
    IssuedAnew s s' ↔ s'.answered = s.answered ∧ s.returned.length + 1 = uint16Max ∧ s.claimed ≠ [] := by
  constructor
  · intro h
    have hsuffix : [l'.inumBase] ++ s.returned <:+ s'.returned := by
      rw [hret]
    obtain ⟨hfresh, base, hbase, hle, hlt⟩ := h.mem hsuffix List.mem_cons_self
    rw [hclaim] at hbase
    obtain ⟨hans, hsame⟩ | ⟨-, hbehind⟩ := hends
    · refine ⟨hans, ?_, List.ne_nil_of_mem hbase⟩
      obtain ⟨hlen, -⟩ | ⟨-, hused⟩ := hlive.base
      · rw [hlen, hneeds]
      · rw [hsame] at hfresh
        exact absurd hused hfresh
    · exact absurd hlt (Nat.not_lt_of_le (hbehind base hbase))
  · rintro ⟨hans, hlen, hne⟩
    have hsame : l'.inumBase = l.inumBase := hends.elim And.right fun h => by omega
    obtain ⟨-, hbelow, hclaimed⟩ | ⟨hlong, -⟩ := hlive.base
    · have hbase : l.inumBase ∈ s.claimed := by
        rw [hclaimed.resolve_left hne]
        exact List.mem_cons_self
      refine ⟨[l'.inumBase], hret, List.pairwise_singleton _ _, fun n hn => ?_⟩
      obtain rfl := List.mem_singleton.mp hn
      rw [hsame]
      refine ⟨fun hmem => lt_irrefl _ (hbelow _ hmem), l.inumBase, ?_, le_rfl, ?_⟩
      · rw [hclaim]
        exact hbase
      · exact Nat.lt_add_of_pos_right (by decide)
    · omega

/-- The first call after it returns a number again, or one of another client. -/
theorem next_not_anew (hlive : Live l s) (hneeds : l.inumCounter + 1 = uint16Max) {base : Nat}
    (hret : [base + 1, base] ++ s.returned <:+ s'.returned) (hclaim : s'.claimed = s.claimed)
    (hends : base = l.inumBase ∨ ∀ b ∈ s.claimed, b + uint16Max ≤ base) : ¬ IssuedAnew s s' := by
  intro h
  obtain ⟨hfresh, b, hb, -, hlt⟩ := h.mem hret List.mem_cons_self
  obtain rfl | hbehind := hends
  · have hpos : 1 ≤ l.inumCounter := by
      have hmax : uint16Max = 65535 := rfl
      omega
    exact hfresh (hlive.used 1 le_rfl hpos)
  · rw [hclaim] at hb
    have hle := hbehind b hb
    omega

/-- The call whose refresh fails, and the calls after it, return fresh numbers of the client if and
    only if there is no call after it, the first `GetVersion` fails, and the token is the one from
    mounting. -/
theorem failed_refresh_iff (hreach : Returns faulty ((mount fuel calls).run ⟨0, 0⟩) State.start ((), l) s)
    (hneeds : l.inumCounter + 1 = uint16Max)
    (hrun : Returns faulty ((generate fuel (later + 1)).run l) s ((), l') s')
    (hfail : s'.claimed = s.claimed) :
    IssuedAnew s s' ↔
      later = 0 ∧ s'.answered = s.answered ∧ s.returned.length + 1 = uint16Max ∧ s.claimed ≠ [] := by
  have hlive : Live l s := mount_live fuel calls _ _ _ hreach
  have hspec : Post faulty (generate fuel (later + 1)) (fun _ _ s2 => s2.claimed = s.claimed →
      (IssuedAnew s s2 ↔
        later = 0 ∧ s2.answered = s.answered ∧ s.returned.length + 1 = uint16Max ∧ s.claimed ≠ [])) l s := by
    refine generate_succ hlive.inv hlive.counter fun l1 s1 h1 => ?_
    obtain ⟨hzero, hends⟩ := h1.refresh hneeds
    have hret1 : s1.returned = [l1.inumBase] ++ s.returned := by
      rw [h1.returned, hzero]
      rfl
    have hkept : s1.claimed = s.claimed → _ := fun hclaim =>
      (hends.resolve_left fun hnew => List.cons_ne_self _ _ (hnew.symm.trans hclaim)).2
    cases later with
    | zero =>
      refine Post.pure fun hclaim => ?_
      rw [refresh_issues_iff hlive hneeds hret1 hclaim (hkept hclaim)]
      exact (and_iff_right rfl).symm
    | succ later =>
      have hlive1 := h1.live hlive
      refine generate_succ hlive1.inv hlive1.counter fun l2 s2 h2 => ?_
      refine (generate_live fuel later (h2.live hlive1)).mono fun _ _ s3 ⟨_, hgrows⟩ hclaim => ?_
      have hgrows1 := h1.grows hlive.counter
      have hclaim1 : s1.claimed = s.claimed := by
        have hback := (h2.grows hlive1.counter).trans hgrows
        exact ((hclaim ▸ hback.claimed).eq_of_length_le hgrows1.claimed.length_le)
      have hlt : l1.inumCounter + 1 < uint16Max := by
        rw [hzero]
        decide
      have hret2 : [l1.inumBase + 1, l1.inumBase] ++ s.returned = s2.returned := by
        rw [h2.returned, (h2.next hlt).1, hzero, hret1]
        rfl
      have hnot := next_not_anew hlive hneeds (hret2 ▸ hgrows.returned) hclaim
        ((hkept hclaim1).imp And.right And.right)
      exact iff_of_false hnot fun h => absurd h.1 (Nat.succ_ne_zero later)
  exact hspec _ _ _ hrun hfail

/-- A call that needs no token. -/
theorem quiet_call (fuel : Nat) (h : l.inumCounter + 1 < uint16Max) :
    Returns faulty ((generateInodeNumber fuel).run l) s
      (l.inumBase + (l.inumCounter + 1), ⟨l.inumBase, l.inumCounter + 1⟩) s := by
  have hwrap : (l.inumCounter + 1) % (uint16Max + 1) = l.inumCounter + 1 := Nat.mod_eq_of_lt (by omega)
  have hrest : ∀ counter, counter ≠ uint16Max →
      ((do
        let _ ← (if counter = uint16Max then refresh fuel else pure () : M Unit)
        let priv ← get
        return priv.inumBase + priv.inumCounter : M Nat).run ⟨l.inumBase, counter⟩) =
      .ret (l.inumBase + counter, ⟨l.inumBase, counter⟩) := by
    intro counter hne
    rw [if_neg hne]
    rfl
  have hrun : (generateInodeNumber fuel).run l =
      .ret (l.inumBase + (l.inumCounter + 1), ⟨l.inumBase, l.inumCounter + 1⟩) := by
    have hcall := hrest (l.inumCounter + 1) (by omega)
    rw [← hwrap] at hcall ⊢
    exact hcall
  rw [hrun]
  exact Returns.ret _ _

/-- Calls that need no token. -/
theorem quiet_calls (fuel : Nat) {calls : Nat} (h : l.inumCounter + calls < uint16Max) :
    ∃ s', Returns faulty ((generate fuel calls).run l) s ((), ⟨l.inumBase, l.inumCounter + calls⟩) s' ∧
      s'.claimed = s.claimed ∧ s'.returned.length = s.returned.length + calls := by
  induction calls generalizing l s with
  | zero => exact ⟨s, Returns.ret _ _, rfl, rfl⟩
  | succ calls ih =>
    let number := l.inumBase + (l.inumCounter + 1)
    have hrest : l.inumCounter + 1 + calls < uint16Max := by omega
    obtain ⟨s', hrun, hclaim, hlen⟩ := ih (l := ⟨l.inumBase, l.inumCounter + 1⟩)
      (s := { s with returned := number :: s.returned }) hrest
    have hserve : faulty.serve s (.returns number) ⟨0, .done⟩ =
        some ((), { s with returned := number :: s.returned }) := rfl
    have hsum : l.inumCounter + 1 + calls = l.inumCounter + (calls + 1) := by omega
    refine ⟨s', ?_, hclaim, ?_⟩
    · rw [← hsum]
      exact (quiet_call fuel (by omega)).bind (Returns.call hserve hrun)
    · rw [hlen, List.length_cons]
      omega

end Refresh

/-- A client has mounted and returned all numbers of its token but the first. -/
theorem used_token : ∃ s, Returns faulty ((mount 1 65534).run ⟨0, 0⟩) State.start ((), ⟨0, 65534⟩) s ∧
    s.claimed = [0] ∧ s.returned.length = 65534 := by
  have hgrab : (((grabInodeGenerationToken 1).run ⟨0, 0⟩).exec faulty State.start [⟨0, .done⟩, ⟨0, .done⟩]).any
      fun r => r = ((0, ⟨0, 0⟩), ⟨some ⟨(), toStr 65535⟩, [], [0], 1⟩) := by decide +kernel
  obtain ⟨r, hr, he⟩ := (Option.any_eq_true _ _).mp hgrab
  rw [of_decide_eq_true he] at hr
  obtain ⟨s, hrun, hclaim, hlen⟩ := quiet_calls (l := ⟨0, 0⟩)
    (s := ⟨some ⟨(), toStr 65535⟩, [], [0], 1⟩) 1 (by decide : 0 + 65534 < uint16Max)
  exact ⟨s, (returns_of_exec hr).bind hrun, hclaim, hlen.trans (Nat.zero_add _)⟩

/-- `GetVersion` fails. -/
theorem failed_call (s : State) : Returns faulty ((generateInodeNumber 1).run ⟨0, 65534⟩) s (0, ⟨0, 0⟩) s := by
  have hserve : faulty.serve s .getVersion ⟨0, .failed .REMOTE_OTHER_ERROR⟩ =
      some (.error .REMOTE_OTHER_ERROR, s) := rfl
  exact Returns.call hserve (Returns.ret _ _)

/-- The number is returned. -/
theorem number_returned (s : State) (l : Priv) (number : Nat) :
    Returns faulty ((request (.returns number)).run l) s ((), l)
      { s with returned := number :: s.returned } := by
  have hserve : faulty.serve s (.returns number) ⟨0, .done⟩ =
      some ((), { s with returned := number :: s.returned }) := rfl
  exact Returns.call hserve (Returns.ret _ _)

/-- The first refresh of a client that has mounted; no call follows. -/
theorem failed_refresh_of_mounted : ∃ s s',
    Returns faulty ((mount 1 65534).run ⟨0, 0⟩) State.start ((), ⟨0, 65534⟩) s ∧
    Returns faulty ((generate 1 1).run ⟨0, 65534⟩) s ((), ⟨0, 0⟩) s' ∧ s'.claimed = s.claimed ∧
    IssuedAnew s s' := by
  obtain ⟨s, hmount, hclaim, hlen⟩ := used_token
  have hrun : Returns faulty ((generate 1 1).run ⟨0, 65534⟩) s ((), ⟨0, 0⟩)
      { s with returned := 0 :: s.returned } :=
    (failed_call s).bind ((number_returned s ⟨0, 0⟩ 0).bind (Returns.ret _ _))
  refine ⟨s, _, hmount, hrun, rfl, (failed_refresh_iff hmount rfl hrun rfl).mpr ⟨rfl, rfl, ?_, ?_⟩⟩
  · rw [hlen]
    rfl
  · rw [hclaim]
    exact List.cons_ne_nil _ _

/-- The second call after a failed refresh returns the first number again. -/
theorem failed_refresh_reissues : ¬ ∀ (fuel calls later : Nat) (l l' : Priv) (s s' : State),
    Returns faulty ((mount fuel calls).run ⟨0, 0⟩) State.start ((), l) s → l.inumCounter + 1 = uint16Max →
    Returns faulty ((generate fuel (later + 1)).run l) s ((), l') s' → s'.claimed = s.claimed →
    IssuedAnew s s' := by
  intro h
  obtain ⟨s, hmount, hclaim, hlen⟩ := used_token
  let s1 : State := { s with returned := 0 :: s.returned }
  let s2 : State := { s1 with returned := 1 :: s1.returned }
  have hnext : Returns faulty ((generate 1 1).run ⟨0, 0⟩) s1 ((), ⟨0, 1⟩) s2 :=
    (quiet_call 1 (by decide)).bind ((number_returned s1 ⟨0, 1⟩ 1).bind (Returns.ret _ _))
  have hrun : Returns faulty ((generate 1 2).run ⟨0, 65534⟩) s ((), ⟨0, 1⟩) s2 :=
    (failed_call s).bind ((number_returned s ⟨0, 0⟩ 0).bind hnext)
  have hlive : Live ⟨0, 65534⟩ s := mount_live 1 65534 _ _ _ hmount
  have hsuffix : [0 + 1, 0] ++ s.returned <:+ s2.returned := List.suffix_rfl
  exact next_not_anew hlive rfl hsuffix rfl (Or.inl rfl) (h 1 65534 1 _ _ s s2 hmount rfl hrun rfl)

end HFlat.Fuse.TokenRefresh
