/-
  Which drives a `Put` or `Delete` fails: `evaluateWriteOperation` of
  `distributed_kinetic_namespace.cc`, given the results of the drives.

  `disableDrive` makes the drive RED in memory, whatever becomes of the update that it publishes. So
  that the calls can be spoken of, `evaluateTraced` and `writeOperationTraced` are the operations
  once more, with a list of the evaluations that took place (`returns_writeOperationTraced`).

  The list of results that do not count as an I/O error lacks `REMOTE_NOT_FOUND`, which is what a
  `Delete` gets from a drive that does not have the key. An evaluation fails such a drive exactly if
  it is not `Plain` (`Evaluation.right_iff`).
-/
import HFlat.Replication.Namespace

namespace HFlat.Replication

open HFlat.Lib

/-! ## Evaluations -/

/-- A reply that is not an error of the drive. -/
def Definite (code : StatusCode) : Prop :=
  code = .OK ∨ code = .REMOTE_VERSION_MISMATCH ∨ code = .REMOTE_NOT_FOUND ∨ code = .REMOTE_NOT_AUTHORIZED

instance (code : StatusCode) : Decidable (Definite code) := inferInstanceAs (Decidable (_ ∨ _ ∨ _ ∨ _))

/-- How the evaluation of the replies ends. -/
inductive Outcome where
  | returned (code : StatusCode)
  /-- `disableDrive` is called. -/
  | failed (index : Nat)
  deriving DecidableEq, Repr

/-- A call of `evaluateWriteOperation`: the partition it found, the results of the drives, and what
    came of it. -/
structure Evaluation where
  partition : Partition
  results : List StatusCode
  outcome : Outcome
  deriving DecidableEq, Repr

/-- Drive `i` is not RED and has this result. -/
def Replied (ds : List KineticDrive) (results : List StatusCode) (i : Nat) (code : StatusCode) : Prop :=
  ∃ d : KineticDrive, ds[i]? = some d ∧ d.status ≠ .RED ∧ results[i]? = some code

/-- A drive has replied with the code. -/
def Evaluation.Replied (e : Evaluation) : Nat → StatusCode → Prop :=
  Replication.Replied e.partition.drives e.results

/-- A drive that is failed has not given a definite reply, and if all have but they disagree, this is
    reported as a partial write. -/
structure Evaluation.Right (e : Evaluation) : Prop where
  failed : ∀ i, e.outcome = .failed i → ∀ code, e.Replied i code → ¬ Definite code
  partialWrite : (∀ i code, e.Replied i code → Definite code) →
    (∃ i j code code', e.Replied i code ∧ e.Replied j code' ∧ code ≠ code') →
    e.outcome = .returned .REMOTE_OTHER_ERROR

/-- If a drive has not found the key, then no drive has, or one before it has an error. -/
def Evaluation.Plain (e : Evaluation) : Prop :=
  ∀ i, e.Replied i .REMOTE_NOT_FOUND → (∀ j code, e.Replied j code → code = .REMOTE_NOT_FOUND) ∨
    ∃ j code, j < i ∧ e.Replied j code ∧ ¬ Definite code

/-! ## Writes with their evaluations -/

/-- `evaluate` -/
def evaluateTraced (results : List StatusCode) : Nat → Client (StatusCode × List Evaluation)
  | 0 => Client.crash
  | fuel + 1 => do
      let p := (← get).partition
      if results.length < p.drives.length then Client.crash
      match greenIndex p with
      | none => Client.crash
      | some green =>
          match results[green]? with
          | none => Client.crash
          | some code =>
              if ∀ c ∈ validResults p.drives results, c = code then
                return (code, [⟨p, results, .returned code⟩])
              match failedIndex p.drives results 0 with
              | none => return (.REMOTE_OTHER_ERROR, [⟨p, results, .returned .REMOTE_OTHER_ERROR⟩])
              | some (i, code) =>
                  if ← update (disableDrive i fuel) then
                    let (code, evaluations) ← evaluateTraced results fuel
                    return (code, ⟨p, results, .failed i⟩ :: evaluations)
                  else return (code, [⟨p, results, .failed i⟩])

/-- `writeOperation` -/
def writeOperationTraced (key : Str) (op : WriteOp) : Nat → Client (StatusCode × List Evaluation)
  | 0 => Client.crash
  | fuel + 1 => do
      let p := (← get).partition
      let results ← writeAll p (logs p) key op p.drives
      logWrite p key fuel
      if .REMOTE_CLUSTER_VERSION_MISMATCH ∈ results then
        if ← update (getPartitionUpdate fuel) then writeOperationTraced key op fuel
        else return (.REMOTE_CLUSTER_VERSION_MISMATCH, [])
      else evaluateTraced results fuel

/-! ## What an evaluation decides -/

/-- A result that does not fail the drive. -/
def Accepted (code : StatusCode) : Prop :=
  code = .OK ∨ code = .REMOTE_VERSION_MISMATCH ∨ code = .REMOTE_NOT_AUTHORIZED

theorem definite_iff {code : StatusCode} : Definite code ↔ Accepted code ∨ code = .REMOTE_NOT_FOUND := by
  unfold Definite Accepted
  tauto

/-- Two drives disagree. -/
def Evaluation.Disagree (e : Evaluation) : Prop :=
  ∃ i j code code', e.Replied i code ∧ e.Replied j code' ∧ code ≠ code'

/-- The outcome is that of the results. -/
inductive Evaluation.Judged (e : Evaluation) : Prop
  | agreed (code : StatusCode) (hall : ∀ i c, e.Replied i c → c = code) (h : e.outcome = .returned code)
  | accepted (hall : ∀ i c, e.Replied i c → Accepted c) (h : e.outcome = .returned .REMOTE_OTHER_ERROR)
  | failing (i : Nat) (code : StatusCode) (hne : e.Disagree) (hi : e.Replied i code) (hcode : ¬ Accepted code)
      (hfirst : ∀ j c, j < i → e.Replied j c → Accepted c) (h : e.outcome = .failed i)

theorem Evaluation.Replied.unique {e : Evaluation} {i : Nat} {code code' : StatusCode} (h : e.Replied i code)
    (h' : e.Replied i code') : code = code' := by
  obtain ⟨-, -, -, h⟩ := h
  obtain ⟨-, -, -, h'⟩ := h'
  exact Option.some.inj (h.symm.trans h')

/-- An evaluation is right if and only if it is plain. -/
theorem Evaluation.right_iff {e : Evaluation} (h : e.Judged) : e.Right ↔ e.Plain := by
  cases h with
  | agreed code hall ho =>
    have hright : e.Right := by
      refine ⟨fun i hi => ?_, ?_⟩
      · rw [ho] at hi
        cases hi
      · rintro - ⟨i, j, c, c', hi, hj, hne⟩
        exact absurd ((hall i c hi).trans (hall j c' hj).symm) hne
    refine iff_of_true hright fun i hi => Or.inl fun j c hj => ?_
    exact (hall j c hj).trans (hall i _ hi).symm
  | accepted hall ho =>
    have hright : e.Right := by
      refine ⟨fun i hi => ?_, fun _ _ => ho⟩
      rw [ho] at hi
      cases hi
    refine iff_of_true hright fun i hi => absurd (hall i _ hi) ?_
    unfold Accepted
    decide
  | failing i code hne hi hcode hfirst ho =>
    by_cases hfound : code = .REMOTE_NOT_FOUND
    · subst hfound
      refine iff_of_false (fun h => h.failed i ho _ hi (definite_iff.mpr (Or.inr rfl))) fun h => ?_
      rcases h i hi with hall | ⟨j, c, hlt, hj, hc⟩
      · obtain ⟨a, b, c, c', ha, hb, hne⟩ := hne
        exact hne ((hall a c ha).trans (hall b c' hb).symm)
      · exact hc (definite_iff.mpr (Or.inl (hfirst j c hlt hj)))
    · have hnot : ¬ Definite code := fun h => (definite_iff.mp h).elim hcode hfound
      refine iff_of_true ⟨fun j hj c hc => ?_, fun hall _ => absurd (hall i code hi) hnot⟩ fun j hj => ?_
      · rw [ho] at hj
        cases hj
        rwa [hc.unique hi]
      · refine Or.inr ⟨i, code, ?_, hi, hnot⟩
        have hne : j ≠ i := by
          rintro rfl
          exact hfound (hi.unique hj)
        have hge : ¬ j < i := by
          intro hlt
          have haccepted := hfirst j _ hlt hj
          unfold Accepted at haccepted
          exact absurd haccepted (by decide)
        omega

/-! ### The results of drives that are not RED -/

section Results

variable {d : KineticDrive} {ds : List KineticDrive} {results : List StatusCode} {c code : StatusCode}

theorem replied_zero : Replied (d :: ds) (c :: results) 0 code ↔ d.status ≠ .RED ∧ c = code := by
  unfold Replied
  simp

theorem not_replied {i : Nat} (h : ds = [] ∨ results = []) : ¬ Replied ds results i code := by
  rintro ⟨d, hd, -, hc⟩
  rcases h with rfl | rfl
  · cases hd
  · cases hc

theorem mem_validResults_iff : code ∈ validResults ds results ↔ ∃ i, Replied ds results i code := by
  induction ds generalizing results with
  | nil => exact iff_of_false List.not_mem_nil fun ⟨_, h⟩ => not_replied (Or.inl rfl) h
  | cons d ds ih =>
    cases results with
    | nil => exact iff_of_false List.not_mem_nil fun ⟨_, h⟩ => not_replied (Or.inr rfl) h
    | cons c results =>
      have hsplit : (∃ i, Replied (d :: ds) (c :: results) i code) ↔
          (d.status ≠ .RED ∧ c = code) ∨ ∃ i, Replied ds results i code := by
        constructor
        · rintro ⟨i, h⟩
          cases i with
          | zero => exact Or.inl (replied_zero.mp h)
          | succ i => exact Or.inr ⟨i, h⟩
        · rintro (h | ⟨i, h⟩)
          · exact ⟨0, replied_zero.mpr h⟩
          · exact ⟨i + 1, h⟩
      rw [hsplit, ← ih, validResults]
      by_cases hred : d.status = .RED
      · simp [hred]
      · rw [if_neg hred, List.mem_cons]
        simp [hred, eq_comm]

theorem accepted_of_not_failed
    (h : ¬ (d.status ≠ .RED ∧ c ≠ .OK ∧ c ≠ .REMOTE_VERSION_MISMATCH ∧ c ≠ .REMOTE_NOT_AUTHORIZED))
    (hzero : Replied (d :: ds) (c :: results) 0 code) : Accepted code := by
  obtain ⟨hred, rfl⟩ := replied_zero.mp hzero
  unfold Accepted
  by_contra hne
  simp only [not_or] at hne
  exact h ⟨hred, hne.1, hne.2.1, hne.2.2⟩

theorem failedIndex_none {n : Nat} (h : failedIndex ds results n = none) {i : Nat}
    (hi : Replied ds results i code) : Accepted code := by
  induction ds generalizing results n i with
  | nil => exact absurd hi (not_replied (Or.inl rfl))
  | cons d ds ih =>
    cases results with
    | nil => exact absurd hi (not_replied (Or.inr rfl))
    | cons c results =>
      unfold failedIndex at h
      split at h
      · cases h
      · rename_i hnot
        cases i with
        | zero => exact accepted_of_not_failed hnot hi
        | succ i => exact ih h hi

theorem failedIndex_some {n k : Nat} (h : failedIndex ds results n = some (k, code)) :
    ∃ i, k = n + i ∧ Replied ds results i code ∧ ¬ Accepted code ∧
      ∀ j c, j < i → Replied ds results j c → Accepted c := by
  induction ds generalizing results n with
  | nil => simp [failedIndex] at h
  | cons d ds ih =>
    cases results with
    | nil => simp [failedIndex] at h
    | cons c results =>
      unfold failedIndex at h
      split at h
      · rename_i hfail
        cases h
        refine ⟨0, rfl, replied_zero.mpr ⟨hfail.1, rfl⟩, ?_, fun j c hj => absurd hj (Nat.not_lt_zero j)⟩
        rintro (h | h | h)
        · exact hfail.2.1 h
        · exact hfail.2.2.1 h
        · exact hfail.2.2.2 h
      · rename_i hnot
        obtain ⟨i, hk, hi, hcode, hfirst⟩ := ih h
        refine ⟨i + 1, by omega, hi, hcode, fun j c' hj hc' => ?_⟩
        cases j with
        | zero => exact accepted_of_not_failed hnot hc'
        | succ j => exact hfirst j c' (by omega) hc'

theorem greenIndex_some {p : Partition} {i : Nat} (h : greenIndex p = some i) :
    ∃ d, p.drives[i]? = some d ∧ d.status = .GREEN := by
  obtain ⟨hlt, hgreen, -⟩ := List.findIdx?_eq_some_iff_getElem.mp h
  exact ⟨_, List.getElem?_eq_getElem hlt, of_decide_eq_true hgreen⟩

end Results

section Traced

variable {C S : Type} {sv : Service (Req ⊕ DataReq) (SumRes Res DataRes) C S} {v v' : View} {s s' : S}

/-- With the list of evaluations left out it is `evaluate`. -/
theorem erases_evaluateTraced (results : List StatusCode) (fuel : Nat) :
    Erases sv (evaluate results fuel) (evaluateTraced results fuel) := by
  induction fuel with
  | zero => exact Erases.stop
  | succ fuel ih =>
    refine Erases.bind fun v => Erases.ite Erases.stop ?_
    cases greenIndex v.partition with
    | none => exact Erases.stop
    | some green =>
      dsimp only
      cases results[green]? with
      | none => exact Erases.stop
      | some code =>
        refine Erases.ite (Erases.pure _ _) ?_
        cases failedIndex v.partition.drives results 0 with
        | none => exact Erases.pure _ _
        | some r =>
          refine Erases.bind fun b => Erases.ite ?_ (Erases.pure _ _)
          exact ih.extend fun evaluations => ⟨v.partition, results, .failed r.1⟩ :: evaluations

theorem erases_writeOperationTraced (key : Str) (op : WriteOp) (fuel : Nat) :
    Erases sv (writeOperation key op fuel) (writeOperationTraced key op fuel) := by
  induction fuel with
  | zero => exact Erases.stop
  | succ fuel ih =>
    refine Erases.bind fun v => Erases.bind fun results => Erases.bind fun _ => Erases.ite ?_ ?_
    · exact Erases.bind fun b => Erases.ite ih (Erases.pure _ _)
    · exact erases_evaluateTraced results fuel

theorem post_evaluateTraced (results : List StatusCode) (fuel : Nat) :
    Post sv (evaluateTraced results fuel) (fun r _ _ => ∀ e ∈ r.2, e.Judged ∧ e.results = results) v s := by
  induction fuel generalizing v s with
  | zero => exact Post.stop
  | succ fuel ih =>
    refine Post.get_bind (Post.ite (fun _ => Post.stop) fun _ => ?_)
    cases hgreen : greenIndex v.partition with
    | none => exact Post.stop
    | some green =>
      dsimp only
      cases hresult : results[green]? with
      | none => exact Post.stop
      | some code =>
        obtain ⟨d, hd, hstatus⟩ := greenIndex_some hgreen
        have hred : d.status ≠ .RED := by
          rw [hstatus]
          decide
        refine Post.ite (fun hall => Post.pure ?_) fun hne => ?_
        · intro e he
          obtain rfl := List.mem_singleton.mp he
          refine ⟨Evaluation.Judged.agreed code (fun i c hi => ?_) rfl, rfl⟩
          exact hall c (mem_validResults_iff.mpr ⟨i, hi⟩)
        · cases hfail : failedIndex v.partition.drives results 0 with
          | none =>
            refine Post.pure fun e he => ?_
            obtain rfl := List.mem_singleton.mp he
            exact ⟨Evaluation.Judged.accepted (fun i c hi => failedIndex_none hfail hi) rfl, rfl⟩
          | some r =>
            obtain ⟨i, code'⟩ := r
            obtain ⟨k, hk, hreplied, hcode, hfirst⟩ := failedIndex_some hfail
            obtain rfl : i = k := by omega
            have hjudged : (⟨v.partition, results, .failed i⟩ : Evaluation).Judged := by
              refine Evaluation.Judged.failing i code' ?_ hreplied hcode hfirst rfl
              obtain ⟨c, hc, hdiffer⟩ : ∃ c ∈ validResults v.partition.drives results, c ≠ code := by
                by_contra h
                exact hne fun c hc => by_contra fun hc' => h ⟨c, hc, hc'⟩
              obtain ⟨j, hj⟩ := mem_validResults_iff.mp hc
              exact ⟨j, green, c, code, hj, ⟨d, hd, hred, hresult⟩, hdiffer⟩
            intro r v' s' hr
            have hpost : Post sv (update (disableDrive i fuel) >>= fun b =>
                if b then (do
                  let (code, evaluations) ← evaluateTraced results fuel
                  return (code, ⟨v.partition, results, .failed i⟩ :: evaluations))
                else return (code', [⟨v.partition, results, .failed i⟩]))
                (fun r _ _ => ∀ e ∈ r.2, e.Judged ∧ e.results = results) v s := by
              apply Post.bind
              intro b v1 s1 _
              refine Post.ite (fun _ => ?_) fun _ => Post.pure ?_
              · refine ih.then fun r v2 s2 hes => Post.pure fun e he => ?_
                rcases List.mem_cons.mp he with rfl | he
                · exact ⟨hjudged, rfl⟩
                · exact hes e he
              · intro e he
                obtain rfl := List.mem_singleton.mp he
                exact ⟨hjudged, rfl⟩
            exact hpost r v' s' hr

/-- Every evaluation is one of results that the drives have given. -/
theorem post_writeOperationTraced (key : Str) (op : WriteOp) {F : List StatusCode → Prop}
    (hF : ∀ p logged ds v s, Post sv (writeAll p logged key op ds) (fun results _ _ => F results) v s)
    (fuel : Nat) :
    Post sv (writeOperationTraced key op fuel) (fun r _ _ => ∀ e ∈ r.2, e.Judged ∧ F e.results) v s := by
  induction fuel generalizing v s with
  | zero => exact Post.stop
  | succ fuel ih =>
    refine Post.get_bind ((hF _ _ _ _ _).then fun results v1 s1 hresults => ?_)
    refine Post.bind fun _ v2 s2 _ => ?_
    refine Post.ite (fun _ => Post.bind fun b v3 s3 _ => ?_) fun _ => ?_
    · exact Post.ite (fun _ => ih) fun _ => Post.pure fun e he => absurd he List.not_mem_nil
    · refine (post_evaluateTraced results fuel).mono fun r v3 s3 h e he => ?_
      obtain ⟨hjudged, rfl⟩ := h e he
      exact ⟨hjudged, hresults⟩

end Traced

/-! ## `Put` and `Delete` -/

section Puts

variable {v v' : View} {s s' : Drives} {key expected : Str} {mode : WriteMode} {record : KineticRecord Str}

theorem put_found (cur : Option (KineticRecord Str)) :
    ((WriteOp.put expected mode record).apply cur).1 ≠ .REMOTE_NOT_FOUND := by
  cases mode with
  | IGNORE_VERSION => exact StatusCode.noConfusion
  | REQUIRE_SAME_VERSION =>
    simp only [WriteOp.apply, putSame]
    split
    · exact StatusCode.noConfusion
    · exact StatusCode.noConfusion

theorem serveData_put {issuer : Issuer} {d : DriveId} {ccv : Nat} {choice : Choice} {code : StatusCode}
    (h : serveData s (.write issuer d ccv key (.put expected mode record)) choice = some (code, s')) :
    code ≠ .REMOTE_NOT_FOUND := by
  cases choice with
  | reach told =>
    have hcarry : s.carryOut d ccv key (.put expected mode record) = (code, s') := Option.some.inj h
    unfold Drives.carryOut at hcarry
    split at hcarry
    · cases hcarry
      exact put_found _
    · cases hcarry
      exact StatusCode.noConfusion
  | unreachable =>
    cases h
    exact StatusCode.noConfusion
  | lost =>
    cases h
    exact StatusCode.noConfusion
  | index i => cases h

/-- No drive answers a `Put` with `REMOTE_NOT_FOUND`. -/
theorem post_writeAll_put (p : Partition) (logged : Bool) (ds : List KineticDrive) :
    Post drives (writeAll p logged key (.put expected mode record) ds)
      (fun results _ _ => .REMOTE_NOT_FOUND ∉ results) v s := by
  have hcode : ∀ d ccv v s, Post drives (ask (.write (.client logged) d ccv key (.put expected mode record)))
      (fun (code : StatusCode) _ _ => code ≠ .REMOTE_NOT_FOUND) v s :=
    fun d ccv v s => Post.call fun choice code s' hserve => serveData_put hserve
  induction ds generalizing v s with
  | nil => exact Post.pure List.not_mem_nil
  | cons d ds ih =>
    refine Post.ite (fun _ => ih.then fun codes v1 s1 h1 => Post.pure ?_) fun _ => ?_
    · exact List.not_mem_cons_of_ne_of_not_mem StatusCode.noConfusion h1
    · refine Post.bind fun ccv v1 s1 _ => (hcode d.id ccv v1 s1).then fun code v2 s2 h2 => ?_
      refine ih.then fun codes v3 s3 h3 => Post.pure ?_
      exact List.not_mem_cons_of_ne_of_not_mem h2.symm h3

/-- A `Put` fails only drives without a definite reply. -/
theorem put_right {fuel : Nat} {code : StatusCode} {es : List Evaluation}
    (h : Returns drives ((writeOperationTraced key (.put expected mode record) fuel).run v) s
      ((code, es), v') s') :
    ∀ e ∈ es, e.Right := by
  intro e he
  obtain ⟨hjudged, hresults⟩ := post_writeOperationTraced key _
    (fun p logged ds v s => post_writeAll_put p logged ds) fuel _ _ _ h e he
  refine (Evaluation.right_iff hjudged).mpr fun i hi => absurd ?_ hresults
  obtain ⟨d, -, -, hi⟩ := hi
  exact List.mem_of_getElem? hi

end Puts

/-- Whatever the drives answer, a write fails only drives without a definite reply and reports other
    disagreements as partial writes, if and only if all its evaluations are plain. -/
theorem write_right_iff {C S : Type} {sv : Service (Req ⊕ DataReq) (SumRes Res DataRes) C S} {v v' : View}
    {s s' : S} {key : Str} {op : WriteOp} {fuel : Nat} {code : StatusCode} {es : List Evaluation}
    (h : Returns sv ((writeOperationTraced key op fuel).run v) s ((code, es), v') s') :
    (∀ e ∈ es, e.Right) ↔ ∀ e ∈ es, e.Plain := by
  have hjudged := post_writeOperationTraced key op (F := fun _ => True)
    (fun _ _ _ _ _ _ _ _ _ => trivial) fuel _ _ _ h
  constructor
  · exact fun hright e he => (Evaluation.right_iff (hjudged e he).1).mp (hright e he)
  · exact fun hplain e he => (Evaluation.right_iff (hjudged e he).1).mpr (hplain e he)

/-- A GREEN and a YELLOW drive. -/
def unsynchronized : View where
  partition := ⟨0, some 1, [⟨.GREEN, lit "a", 0⟩, ⟨.YELLOW, lit "b", 0⟩], some 0⟩
  logPartition := ⟨0, none, [⟨.GREEN, lit "log", 0⟩], none⟩
  connectionMap := fun _ => some 0

/-- Only drive `a` has the key. -/
def onlyFirst : Drives where
  cluster := ⟨fun _ => ⟨0, fun _ => none⟩, [], []⟩
  data := fun d =>
    if d = (lit "a", 0) then Records.empty.set (lit "/x") (some ⟨lit "x", lit "1"⟩) else Records.empty
  agreed := unsynchronized.partition

/-- The evaluation of a `Delete` that both drives have answered. -/
def deleteEvaluation : Evaluation := ⟨unsynchronized.partition, [.OK, .REMOTE_NOT_FOUND], .failed 1⟩

theorem not_right_deleteEvaluation : ¬ deleteEvaluation.Right := by
  intro h
  have hreplied : deleteEvaluation.Replied 1 .REMOTE_NOT_FOUND := ⟨_, rfl, by decide, rfl⟩
  exact h.failed 1 rfl _ hreplied (by decide)

theorem delete_disables : ∃ es v s, Returns drives ((writeOperationTraced (lit "/x") (.delete (lit "1")
      .REQUIRE_SAME_VERSION) 3).run unsynchronized) onlyFirst ((.OK, es), v) s ∧ deleteEvaluation ∈ es ∧
    (⟨.RED, lit "b", 0⟩ : KineticDrive) ∈ v.partition.drives := by
  have hrun : (((writeOperationTraced (lit "/x") (.delete (lit "1") .REQUIRE_SAME_VERSION) 3).run
      unsynchronized).exec drives onlyFirst (List.replicate 12 (.reach false))).any (fun r =>
        r.1.1.1 = .OK ∧ deleteEvaluation ∈ r.1.1.2 ∧
        (⟨.RED, lit "b", 0⟩ : KineticDrive) ∈ r.1.2.partition.drives) := by decide +kernel
  obtain ⟨⟨⟨⟨code, es⟩, v⟩, s⟩, hexec, hr⟩ := (Option.any_eq_true _ _).mp hrun
  obtain ⟨rfl, hmem, hred⟩ := of_decide_eq_true hr
  exact ⟨es, v, s, returns_of_exec hexec, hmem, hred⟩

theorem write_right_iff_delete : ∃ es v s, Returns drives ((writeOperationTraced (lit "/x") (.delete (lit "1")
      .REQUIRE_SAME_VERSION) 3).run unsynchronized) onlyFirst ((.OK, es), v) s ∧
    ((∀ e ∈ es, e.Right) ↔ ∀ e ∈ es, e.Plain) ∧ ¬ ∀ e ∈ es, e.Plain := by
  obtain ⟨es, v, s, hrun, hmem, -⟩ := delete_disables
  have hiff := write_right_iff hrun
  exact ⟨es, v, s, hrun, hiff, fun h => not_right_deleteEvaluation (hiff.mpr h _ hmem)⟩

/-- All drives can be reached, and drive `b` becomes RED for its reply `REMOTE_NOT_FOUND`. -/
theorem write_fails_replied : ¬ ∀ (key : Str) (op : WriteOp) (fuel : Nat) (v v' : View) (s s' : Drives)
    (code : StatusCode) (es : List Evaluation),
    Returns drives ((writeOperationTraced key op fuel).run v) s ((code, es), v') s' → ∀ e ∈ es, e.Right := by
  intro h
  obtain ⟨es, v, s, hrun, hmem, -⟩ := delete_disables
  exact not_right_deleteEvaluation (h _ _ _ _ _ _ _ _ _ hrun _ hmem)

end HFlat.Replication
