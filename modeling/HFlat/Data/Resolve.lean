/-
  `put_data` with its data key to itself and no failures (`kinetic_helper.cc`).

  After a version mismatch the call fetches the block, merges the updates into it and repeats the
  `Put`, which then succeeds. Two things end it before that. The key may be gone: the mismatch is
  with the version of a block that has been deleted since, the `Get` finds nothing, and the call
  returns an error. And `mergeDataChanges` may throw, where an update lies past the end of the local
  block or of the merged one (`CanMerge` follows the lengths through the loop), or fail its
  assertion.
-/
import HFlat.Data.Writers
import HFlat.Lib.Sequential

namespace HFlat.Data

open HFlat.Lib HFlat.Lib.Block
open HFlat.Replication (KineticRecord StatusCode versionOf putSame)

/-! ## Where the merge ends normally -/

/-- The updates can be made to a block of length `n` with a local block of length `size`, and the
    result is not too large. -/
def RangesFit (size : Nat) : List (Nat × Nat) → Nat → Prop
  | [], n => n ≤ blockLimit
  | (offset, len) :: updates, n =>
      if len ≠ 0 then
        offset ≤ n ∧ offset ≤ size ∧
          RangesFit size updates (min (offset + len) size + (n - (offset + len)))
      else RangesFit size updates offset

instance RangesFit.decidable (size : Nat) : ∀ updates n, Decidable (RangesFit size updates n)
  | [], n => inferInstanceAs (Decidable (n ≤ blockLimit))
  | (offset, len) :: updates, n =>
      have := RangesFit.decidable size updates
      inferInstanceAs (Decidable (if len ≠ 0 then
        offset ≤ n ∧ offset ≤ size ∧
          RangesFit size updates (min (offset + len) size + (n - (offset + len)))
      else RangesFit size updates offset))

/-- `mergeDataChanges` with a fetched block of length `n` neither throws nor fails its assertion. -/
def DataInfo.CanMerge (x : DataInfo) (n : Nat) : Prop :=
  RangesFit x.d.length x.updates (max n x.d.length)

instance (x : DataInfo) (n : Nat) : Decidable (x.CanMerge n) :=
  inferInstanceAs (Decidable (RangesFit x.d.length x.updates (max n x.d.length)))

/-- The loop of `mergeDataChanges`, by the lengths alone. -/
theorem foldlM_mergeUpdate_iff {d : Str} {updates : List (Nat × Nat)} {fresh : Str} :
    (∃ b, updates.foldlM (DataInfo.mergeUpdate d) fresh = some b ∧ b.length ≤ blockLimit) ↔
      RangesFit d.length updates fresh.length := by
  induction updates generalizing fresh with
  | nil =>
    constructor
    · rintro ⟨b, hb, hle⟩
      cases hb
      exact hle
    · intro hle
      exact ⟨fresh, rfl, hle⟩
  | cons update updates ih =>
    obtain ⟨offset, len⟩ := update
    rw [List.foldlM_cons]
    by_cases hlen : len ≠ 0
    · unfold RangesFit
      rw [if_pos hlen]
      by_cases hfit : offset ≤ fresh.length ∧ offset ≤ d.length
      · have hupdate : DataInfo.mergeUpdate d fresh (offset, len) = some (copyRange d fresh (offset, len)) :=
          (if_pos hlen).trans (if_pos hfit)
        have hlength := length_copyRange_eq (r := (offset, len)) hfit.2 hfit.1
        rw [hupdate, Option.bind_eq_bind, Option.bind_some, ih, hlength]
        exact ⟨fun h => ⟨hfit.1, hfit.2, h⟩, fun h => h.2.2⟩
      · have hupdate : DataInfo.mergeUpdate d fresh (offset, len) = none :=
          (if_pos hlen).trans (if_neg hfit)
        rw [hupdate]
        constructor
        · rintro ⟨b, hb, -⟩
          cases hb
        · intro h
          exact absurd ⟨h.1, h.2.1⟩ hfit
    · have hupdate : DataInfo.mergeUpdate d fresh (offset, len) = some (resize nul offset fresh) :=
        if_neg hlen
      unfold RangesFit
      rw [if_neg hlen, hupdate, Option.bind_eq_bind, Option.bind_some, ih, length_resize]

/-- A merge that ends normally keeps version and updates. -/
theorem DataInfo.canMerge_iff {x : DataInfo} {fresh : Str} :
    (∃ d, x.mergeDataChanges fresh = some { x with d := d }) ↔ x.CanMerge fresh.length := by
  have hloop : (∃ b, x.updates.foldlM (DataInfo.mergeUpdate x.d)
        (resize nul (max fresh.length x.d.length) fresh) = some b ∧ b.length ≤ blockLimit) ↔
      RangesFit x.d.length x.updates (resize nul (max fresh.length x.d.length) fresh).length :=
    foldlM_mergeUpdate_iff
  rw [length_resize] at hloop
  unfold DataInfo.CanMerge
  rw [← hloop]
  unfold DataInfo.mergeDataChanges
  constructor
  · rintro ⟨d, hd⟩
    obtain ⟨b, hb, hd⟩ := Option.bind_eq_some_iff.mp hd
    obtain ⟨hle, -⟩ := Option.ite_none_right_eq_some.mp hd
    exact ⟨b, hb, hle⟩
  · rintro ⟨b, hb, hle⟩
    refine ⟨b, Option.bind_eq_some_iff.mpr ⟨b, hb, ?_⟩⟩
    exact if_pos hle

theorem DataInfo.mergeDataChanges_eq_none {x : DataInfo} {fresh : Str} (h : ¬ x.CanMerge fresh.length) :
    x.mergeDataChanges fresh = none := by
  cases hx : x.mergeDataChanges fresh with
  | none => rfl
  | some x' =>
    obtain ⟨b, hb, hd⟩ := Option.bind_eq_some_iff.mp hx
    obtain ⟨hle, hd⟩ := Option.ite_none_right_eq_some.mp hd
    cases hd
    exact absurd (canMerge_iff.mp ⟨b, hx⟩) h

/-! ## The call -/

/-- The service without failures. -/
def reliable (uuid : Nat → Str) : Service Req Res Choice State :=
  (service uuid).restrict fun _ _ choice => choice = .done

/-- The call returns 0, has forgotten the updates and leaves the block in the store under the version
    it remembers. -/
structure Resolved (result : Int × DataInfo) (s : State) : Prop where
  err : result.1 = 0
  updates : result.2.updates = []
  stored : s.record = some ⟨result.2.d, result.2.keyVersion⟩

/-- The call returns, and then it has resolved a mismatch. -/
def Resolves (uuid : Nat → Str) (m : Client (Int × DataInfo)) (s : State) : Prop :=
  (∃ result s', Returns (reliable uuid) m s result s') ∧
    ∀ result s', Returns (reliable uuid) m s result s' → Resolved result s'

/-- The remembered version is the stored one, or there is a block that the updates can be merged
    into. -/
def Resolvable (x : DataInfo) : Option (KineticRecord Str) → Prop
  | none => x.keyVersion = []
  | some r => r.version = x.keyVersion ∨ x.CanMerge r.value.length

instance (x : DataInfo) : ∀ record, Decidable (Resolvable x record)
  | none => inferInstanceAs (Decidable (x.keyVersion = []))
  | some r => inferInstanceAs (Decidable (r.version = x.keyVersion ∨ x.CanMerge r.value.length))

section Call

variable {uuid : Nat → Str} {x : DataInfo} {s : State} {calls : List (Update Char)} {fuel : Nat}

theorem resolves_ret {result : Int × DataInfo} :
    Resolves uuid (Prog.ret result) s ↔ Resolved result s := by
  constructor
  · intro h
    obtain ⟨⟨result', s', hr⟩, hall⟩ := h
    exact hall result s (Returns.ret _ _)
  · intro h
    refine ⟨⟨result, s, Returns.ret _ _⟩, fun result' s' hr => ?_⟩
    obtain ⟨rfl, rfl⟩ := returns_ret hr
    exact h

theorem not_resolves_stop : ¬ Resolves uuid Prog.stop s := by
  rintro ⟨⟨result, s', hr⟩, -⟩
  cases hr

/-- A request has one answer. -/
theorem resolves_call {r : Req} {k : Res r → Client (Int × DataInfo)} {answer : Res r} {s' : State}
    (h : (service uuid).serve s r .done = some (answer, s')) :
    Resolves uuid (Prog.call r k) s ↔ Resolves uuid (k answer) s' := by
  have hserve : (reliable uuid).serve s r .done = some (answer, s') := by
    simp only [reliable, Service.restrict]
    exact h
  have honly : ∀ result s'', Returns (reliable uuid) (Prog.call r k) s result s'' →
      Returns (reliable uuid) (k answer) s' result s'' := by
    intro result s'' hr
    cases hr with
    | call hserve' hr =>
      obtain ⟨hdone, hserve'⟩ := serve_restrict hserve'
      obtain rfl := of_decide_eq_true hdone
      rw [h] at hserve'
      cases hserve'
      exact hr
  constructor
  · intro hresolves
    obtain ⟨⟨result, s'', hr⟩, hall⟩ := hresolves
    exact ⟨⟨result, s'', honly _ _ hr⟩, fun result s'' hr => hall result s'' (Returns.call hserve hr)⟩
  · intro hresolves
    obtain ⟨⟨result, s'', hr⟩, hall⟩ := hresolves
    exact ⟨⟨result, s'', Returns.call hserve hr⟩, fun result s'' hr => hall result s'' (honly _ _ hr)⟩

/-- A `Put` under the stored version. -/
theorem putData_resolves_same (h : versionOf s.record = x.keyVersion) :
    Resolves uuid (putData calls (fuel + 1) x) s := by
  have hput : s.put uuid x.keyVersion x.d calls =
      (.OK, ⟨some ⟨x.d, uuid s.uuids⟩, s.uuids + 1, s.flushed ++ [calls]⟩) := by
    unfold State.put putSame
    rw [if_pos h]
    rfl
  have hserve : (service uuid).serve s (.put x.keyVersion x.d calls) .done =
      some ((.OK, uuid s.uuids), ⟨some ⟨x.d, uuid s.uuids⟩, s.uuids + 1, s.flushed ++ [calls]⟩) := by
    show some (((s.put uuid x.keyVersion x.d calls).1, uuid s.uuids), (s.put uuid x.keyVersion x.d calls).2) = _
    rw [hput]
  refine (resolves_call hserve).mpr (resolves_ret.mpr ⟨rfl, rfl, rfl⟩)

/-- After a mismatch the call goes on with what it fetches. -/
theorem putData_mismatch (h : versionOf s.record ≠ x.keyVersion) :
    Resolves uuid (putData calls (fuel + 1) x) s ↔
      ∃ r, s.record = some r ∧ ∃ x', x.mergeDataChanges r.value = some x' ∧
        Resolves uuid (putData calls fuel { x' with keyVersion := r.version })
          { s with uuids := s.uuids + 1 } := by
  have hput : s.put uuid x.keyVersion x.d calls =
      (.REMOTE_VERSION_MISMATCH, { s with uuids := s.uuids + 1 }) := by
    unfold State.put putSame
    rw [if_neg h]
    rfl
  have hserve : (service uuid).serve s (.put x.keyVersion x.d calls) .done =
      some ((.REMOTE_VERSION_MISMATCH, uuid s.uuids), { s with uuids := s.uuids + 1 }) := by
    show some (((s.put uuid x.keyVersion x.d calls).1, uuid s.uuids), (s.put uuid x.keyVersion x.d calls).2) = _
    rw [hput]
  refine (resolves_call hserve).trans ?_
  cases hrecord : s.record with
  | none =>
    have hget : (service uuid).serve ⟨none, s.uuids + 1, s.flushed⟩ .get .done =
        some (.error .REMOTE_NOT_FOUND, ⟨none, s.uuids + 1, s.flushed⟩) := rfl
    refine (resolves_call hget).trans ⟨fun hr => ?_, ?_⟩
    · have herr : - EIO = 0 := (resolves_ret.mp hr).err
      exact absurd herr (by decide)
    · rintro ⟨r, hr, -⟩
      cases hr
  | some r =>
    have hget : (service uuid).serve ⟨some r, s.uuids + 1, s.flushed⟩ .get .done =
        some (.ok r, ⟨some r, s.uuids + 1, s.flushed⟩) := rfl
    refine (resolves_call hget).trans ?_
    simp only [Prog.bind]
    cases hmerge : x.mergeDataChanges r.value with
    | none =>
      refine ⟨fun hr => absurd hr not_resolves_stop, ?_⟩
      rintro ⟨r', hr', x', hx', -⟩
      cases hr'
      rw [hmerge] at hx'
      cases hx'
    | some x' =>
      refine ⟨fun hr => ⟨r, rfl, x', hmerge, hr⟩, ?_⟩
      rintro ⟨r', hr', y, hy, hresolves⟩
      cases hr'
      rw [hmerge] at hy
      cases hy
      exact hresolves

end Call

/-- On its own and without failures `put_data` resolves a version mismatch exactly if the
    remembered version is the stored one, or there is a block that the updates can be merged into. -/
theorem putData_resolves_iff (uuid : Nat → Str) (calls : List (Update Char)) (fuel : Nat) (x : DataInfo)
    (s : State) : Resolves uuid (putData calls (fuel + 2) x) s ↔ Resolvable x s.record := by
  by_cases hversion : versionOf s.record = x.keyVersion
  · refine iff_of_true (putData_resolves_same hversion) ?_
    cases hrecord : s.record with
    | none =>
      rw [hrecord] at hversion
      exact hversion.symm
    | some r =>
      rw [hrecord] at hversion
      exact Or.inl hversion
  · rw [putData_mismatch hversion]
    cases hrecord : s.record with
    | none =>
      rw [hrecord] at hversion
      refine iff_of_false ?_ fun h => hversion (Eq.symm h)
      rintro ⟨r, hr, -⟩
      cases hr
    | some r =>
      rw [hrecord] at hversion
      constructor
      · rintro ⟨r', hr', x', hx', -⟩
        cases hr'
        by_contra hnot
        obtain ⟨-, hmerge⟩ := not_or.mp hnot
        rw [DataInfo.mergeDataChanges_eq_none hmerge] at hx'
        cases hx'
      · intro h
        obtain ⟨d, hd⟩ := DataInfo.canMerge_iff.mpr (h.resolve_left hversion)
        refine ⟨r, rfl, _, hd, putData_resolves_same ?_⟩
        rfl

/-- A client fetches a block and writes to it; another one unlinks the file; the `Put` ends in an
    error. Where the block is still there in another version, a write past the point of a later
    truncation ends the client. -/
theorem putData_not_always_resolves :
    ∃ fetched x : DataInfo, ∃ s s' : State,
      Returns (reliable numbered) getData ⟨some ⟨lit "abc", lit "0"⟩, 0, []⟩ (.ok fetched) s ∧
      fetched.updateData (lit "X") 1 = some x ∧ s' = { s with record := none } ∧
      ¬ Resolves numbered (putData [⟨1, lit "X"⟩] 2 x) s' ∧
      Returns (reliable numbered) (putData [⟨1, lit "X"⟩] 2 x) s' (- EIO, x) { s' with uuids := 1 } ∧
      ∃ y, x.truncate 0 = some y ∧
        ¬ Resolves numbered (putData [⟨1, lit "X"⟩] 2 y) ⟨some ⟨lit "abcd", lit "1"⟩, 0, []⟩ := by
  have hfetch : getData.exec (reliable numbered) ⟨some ⟨lit "abc", lit "0"⟩, 0, []⟩ [.done] =
      some (.ok ⟨lit "0", lit "abc", []⟩, ⟨some ⟨lit "abc", lit "0"⟩, 0, []⟩) := rfl
  have hput : (putData [⟨1, lit "X"⟩] 2 ⟨lit "0", lit "aXc", [(1, 1)]⟩).exec (reliable numbered)
      ⟨none, 0, []⟩ [.done, .done] =
      some ((- EIO, ⟨lit "0", lit "aXc", [(1, 1)]⟩), ⟨none, 1, []⟩) := rfl
  refine ⟨⟨lit "0", lit "abc", []⟩, ⟨lit "0", lit "aXc", [(1, 1)]⟩, ⟨some ⟨lit "abc", lit "0"⟩, 0, []⟩,
    ⟨none, 0, []⟩, returns_of_exec hfetch, by decide +kernel, rfl, ?_, returns_of_exec hput,
    ⟨lit "0", [], [(1, 1), (0, 0)]⟩, by decide +kernel, ?_⟩
  · rw [putData_mismatch (by decide)]
    rintro ⟨r, hr, -⟩
    cases hr
  · rw [putData_mismatch (by decide)]
    rintro ⟨r, hr, x', hx', -⟩
    cases hr
    have hmerge : DataInfo.mergeDataChanges ⟨lit "0", [], [(1, 1), (0, 0)]⟩ (lit "abcd") = none := by
      decide +kernel
    rw [hmerge] at hx'
    cases hx'

end HFlat.Data
