/-
  Removing elements from a list with an iterator that skips.

  Up to `b` elements that need not be kept are to be removed from a list, the first ones first
  (`dropFirst`). `sweep` goes through the list with an iterator that also skips the element behind a
  removed one. If it removes the very last element it starts again (`Clears`).

  With more than `b` candidates this is `dropFirst` if and only if no candidate that has to go is
  skipped (`Spaced`). With at most `b` candidates all of them have to go. A sweep then halves every
  run of neighbouring candidates (`sweep_runs`), and it is followed by another one if the last run
  was odd; nothing is left if and only if the last run has length `2 ^ w - 1` and no run is as long
  as `2 ^ (w + 1)`, for some `w`.
-/
import Mathlib.Data.List.Nodup
import Mathlib.Tactic.Ring
import Mathlib.Data.List.Perm.Subperm

namespace HFlat.Lib.Sweep

variable {α : Type} (keep : α → Bool)

/-- Number of elements that need not be kept. -/
def free (l : List α) : Nat := l.countP fun x => !keep x

/-- The first `b` elements that need not be kept are removed. -/
def dropFirst : Nat → List α → List α
  | 0, l => l
  | _ + 1, [] => []
  | b + 1, x :: l => if keep x then x :: dropFirst (b + 1) l else dropFirst b l

/-- What is left of the list, how many elements may still be removed, and whether the last element
    was removed. -/
structure Swept (α : Type) where
  rest : List α
  left : Nat
  hit : Bool

/-- One more element is left. -/
def Swept.cons (x : α) (s : Swept α) : Swept α := { s with rest := x :: s.rest }

/-- One pass of the iterator, which skips the element after one that is removed. -/
def sweep : Nat → List α → Swept α
  | 0, l => ⟨l, 0, false⟩
  | b + 1, [] => ⟨[], b + 1, false⟩
  | b + 1, [x] => if keep x then ⟨[x], b + 1, false⟩ else ⟨[], b, true⟩
  | b + 1, x :: y :: l => if keep x then (sweep (b + 1) (y :: l)).cons x else (sweep b l).cons y

/-- Passes until one does not remove the last element. -/
inductive Clears : Nat → List α → List α → Prop
  | done {b : Nat} {l : List α} (h : (sweep keep b l).hit = false) : Clears b l (sweep keep b l).rest
  | again {b : Nat} {l r : List α} (h : (sweep keep b l).hit = true)
      (hr : Clears (sweep keep b l).left (sweep keep b l).rest r) : Clears b l r

/-- Of two neighbours that need not be kept, the second is not among the first `b`. -/
def Spaced (b : Nat) (l : List α) : Prop :=
  ∀ xs x y ys, l = xs ++ x :: y :: ys → keep x = false → keep y = false → b ≤ free keep xs + 1

/-- The lengths of the runs of elements that need not be kept, between those that are kept. -/
def runs : List α → List Nat
  | [] => [0]
  | x :: l =>
      if keep x then 0 :: runs l
      else
        match runs l with
        | [] => [1]
        | n :: ns => (n + 1) :: ns

/-- Repeated halving empties all runs. -/
def Halves (ns : List Nat) : Prop := ∃ w, ns.getLast? = some (2 ^ w - 1) ∧ ∀ n ∈ ns, n < 2 ^ (w + 1)

/-- Every element that has to go is removed. -/
def Clearable (b : Nat) (l : List α) : Prop :=
  (b < free keep l ∧ Spaced keep b l) ∨ (free keep l ≤ b ∧ Halves (runs keep l))

section Sweep

variable {keep} {b : Nat} {l r : List α} {x y : α}

@[simp] theorem free_nil : free keep [] = 0 := rfl

theorem free_cons_keep (h : keep x = true) : free keep (x :: l) = free keep l := by
  unfold free
  rw [List.countP_cons_of_neg (by simp [h])]

theorem free_cons (h : keep x = false) : free keep (x :: l) = free keep l + 1 := by
  unfold free
  rw [List.countP_cons_of_pos (by simp [h])]

theorem dropFirst_zero (l : List α) : dropFirst keep 0 l = l := by
  rw [dropFirst.eq_def]

theorem sweep_zero (l : List α) : sweep keep 0 l = ⟨l, 0, false⟩ := by
  rw [sweep.eq_def]

theorem dropFirst_nil (b : Nat) : dropFirst keep b [] = [] := by
  cases b with
  | zero => rfl
  | succ b => rfl

theorem dropFirst_keep (h : keep x = true) (b : Nat) : dropFirst keep b (x :: l) = x :: dropFirst keep b l := by
  cases b with
  | zero => rw [dropFirst_zero, dropFirst_zero]
  | succ b => exact if_pos h

theorem dropFirst_free (h : keep x = false) : dropFirst keep (b + 1) (x :: l) = dropFirst keep b l :=
  if_neg (ne_true_of_eq_false h)

theorem sweep_keep (h : keep x = true) (b : Nat) (l : List α) :
    sweep keep b (x :: l) = (sweep keep b l).cons x := by
  cases b with
  | zero =>
    rw [sweep_zero, sweep_zero]
    rfl
  | succ b =>
    cases l with
    | nil => exact if_pos h
    | cons y l => exact if_pos h

theorem sweep_single (h : keep x = false) : sweep keep (b + 1) [x] = ⟨[], b, true⟩ :=
  if_neg (ne_true_of_eq_false h)

theorem sweep_skip (h : keep x = false) : sweep keep (b + 1) (x :: y :: l) = (sweep keep b l).cons y :=
  if_neg (ne_true_of_eq_false h)

/-- The cases of a sweep. -/
theorem sweep_cases (keep : α → Bool) {P : Nat → List α → Prop} (zero : ∀ l, P 0 l) (nil : ∀ b, P (b + 1) [])
    (keeps : ∀ b x l, keep x = true → P (b + 1) l → P (b + 1) (x :: l))
    (single : ∀ b x, keep x = false → P (b + 1) [x])
    (skips : ∀ b x y l, keep x = false → P b l → P (b + 1) (x :: y :: l)) (b : Nat) (l : List α) : P b l := by
  induction b, l using sweep.induct keep with
  | case1 l => exact zero l
  | case2 b => exact nil b
  | case3 b x h => exact keeps b x [] h (nil b)
  | case4 b x h => exact single b x (eq_false_of_ne_true h)
  | case5 b x y l h ih => exact keeps b x (y :: l) h ih
  | case6 b x y l h ih => exact skips b x y l (eq_false_of_ne_true h) ih

theorem sweep_sublist (b : Nat) (l : List α) : (sweep keep b l).rest.Sublist l := by
  induction b, l using sweep_cases keep with
  | zero l =>
    rw [sweep_zero]
  | nil b => exact List.Sublist.refl []
  | keeps b x l h ih =>
    rw [sweep_keep h]
    exact ih.cons_cons x
  | single b x h =>
    rw [sweep_single h]
    exact List.nil_sublist _
  | skips b x y l h ih =>
    rw [sweep_skip h]
    exact (ih.cons_cons y).cons x

/-- Elements that are to be kept are kept. -/
theorem sweep_filter (b : Nat) (l : List α) : (sweep keep b l).rest.filter keep = l.filter keep := by
  induction b, l using sweep_cases keep with
  | zero l => rw [sweep_zero]
  | nil b => rfl
  | keeps b x l h ih =>
    rw [sweep_keep h, List.filter_cons_of_pos h, ← ih]
    exact List.filter_cons_of_pos h
  | single b x h =>
    rw [sweep_single h, List.filter_cons_of_neg (by simp [h])]
  | skips b x y l h ih =>
    rw [sweep_skip h, List.filter_cons_of_neg (by simp [h]), List.filter_cons, ← ih]
    exact List.filter_cons

/-- As many elements are removed as the budget went down. -/
theorem sweep_length (keep : α → Bool) (b : Nat) (l : List α) :
    (sweep keep b l).rest.length + b = l.length + (sweep keep b l).left := by
  induction b, l using sweep_cases keep with
  | zero l => rw [sweep_zero]
  | nil b => rfl
  | keeps b x l h ih =>
    rw [sweep_keep h]
    show (sweep keep (b + 1) l).rest.length + 1 + (b + 1) = l.length + 1 + (sweep keep (b + 1) l).left
    omega
  | single b x h =>
    rw [sweep_single h]
    show 0 + (b + 1) = 0 + 1 + b
    omega
  | skips b x y l h ih =>
    rw [sweep_skip h]
    show (sweep keep b l).rest.length + 1 + (b + 1) = l.length + 1 + 1 + (sweep keep b l).left
    omega

theorem Clears.sublist (h : Clears keep b l r) : r.Sublist l := by
  induction h with
  | done _ => exact sweep_sublist _ _
  | again _ _ ih => exact ih.trans (sweep_sublist _ _)

theorem Clears.filter (h : Clears keep b l r) : r.filter keep = l.filter keep := by
  induction h with
  | done _ => exact sweep_filter _ _
  | again _ _ ih => exact ih.trans (sweep_filter _ _)

theorem Clears.length_le (h : Clears keep b l r) : l.length ≤ r.length + b := by
  induction h with
  | @done b l _ =>
    have := sweep_length keep b l
    omega
  | @again b l r _ _ ih =>
    have := sweep_length keep b l
    omega

/-- Without a budget nothing is removed. -/
theorem Clears.zero (h : Clears keep 0 l r) : r = l := by
  cases h with
  | done h => rw [sweep_zero]
  | again h _ =>
    rw [sweep_zero] at h
    cases h

/-! ## More candidates than have to go -/

theorem spaced_zero (l : List α) : Spaced keep 0 l := fun _ _ _ _ _ _ _ => Nat.zero_le _

theorem spaced_nil (b : Nat) : Spaced keep b [] := by
  rintro (_ | _) _ _ _ h _ _ <;> cases h

theorem spaced_keep (h : keep x = true) : Spaced keep b (x :: l) ↔ Spaced keep b l := by
  constructor
  · intro hs xs y z ys hl hy hz
    have hle := hs (x :: xs) y z ys (congrArg _ hl) hy hz
    rwa [free_cons_keep h] at hle
  · rintro hs (_ | ⟨x', xs⟩) y z ys hl hy hz
    · obtain ⟨rfl, -⟩ := List.cons_eq_cons.mp hl
      rw [h] at hy
      cases hy
    · obtain ⟨rfl, htail⟩ := List.cons_eq_cons.mp hl
      rw [free_cons_keep h]
      exact hs xs y z ys htail hy hz

theorem spaced_single (b : Nat) (x : α) : Spaced keep b [x] := by
  rintro (_ | ⟨_, _ | _⟩) _ _ _ h _ _ <;> cases h

/-- The skipped element is not a candidate, or need not go. -/
theorem spaced_skip (h : keep x = false) :
    Spaced keep (b + 1) (x :: y :: l) ↔ (keep y = true ∨ b = 0) ∧ Spaced keep b (y :: l) := by
  constructor
  · intro hs
    constructor
    · cases hy : keep y with
      | true => exact Or.inl rfl
      | false =>
        have hle : b + 1 ≤ 0 + 1 := hs [] x y l rfl h hy
        exact Or.inr (by omega)
    · intro xs z z' ys hl hz hz'
      have hle := hs (x :: xs) z z' ys (congrArg _ hl) hz hz'
      rw [free_cons h] at hle
      omega
  · rintro ⟨hy, hs⟩ (_ | ⟨x', xs⟩) z z' ys hl hz hz'
    · obtain ⟨-, htail⟩ := List.cons_eq_cons.mp hl
      obtain ⟨rfl, -⟩ := List.cons_eq_cons.mp htail
      obtain hy | rfl := hy
      · rw [hy] at hz'
        cases hz'
      · exact Nat.le_add_left 1 _
    · obtain ⟨rfl, htail⟩ := List.cons_eq_cons.mp hl
      rw [free_cons h]
      have hle := hs xs z z' ys htail hz hz'
      omega

theorem dropFirst_sublist (b : Nat) (l : List α) : (dropFirst keep b l).Sublist l := by
  induction l generalizing b with
  | nil => rw [dropFirst_nil]
  | cons x l ih =>
    cases h : keep x with
    | true =>
      rw [dropFirst_keep h]
      exact (ih b).cons_cons x
    | false =>
      cases b with
      | zero => rw [dropFirst_zero]
      | succ b =>
        rw [dropFirst_free h]
        exact (ih b).cons x

theorem length_dropFirst (keep : α → Bool) (b : Nat) (l : List α) :
    (dropFirst keep b l).length + min b (free keep l) = l.length := by
  induction l generalizing b with
  | nil =>
    rw [dropFirst_nil, free_nil, Nat.min_zero]
    rfl
  | cons x l ih =>
    cases h : keep x with
    | true =>
      have hb := ih b
      rw [dropFirst_keep h, free_cons_keep h, List.length_cons, List.length_cons]
      omega
    | false =>
      rw [free_cons h, List.length_cons]
      cases b with
      | zero =>
        rw [dropFirst_zero, List.length_cons]
        omega
      | succ b =>
        have hb := ih b
        rw [dropFirst_free h]
        omega

/-- Where no candidate is skipped, a sweep removes the first ones. -/
theorem sweep_of_spaced (h : Spaced keep b l) : (sweep keep b l).rest = dropFirst keep b l := by
  induction b, l using sweep_cases keep with
  | zero l => rw [sweep_zero, dropFirst_zero]
  | nil b => rfl
  | keeps b x l hx ih =>
    rw [sweep_keep hx, dropFirst_keep hx, ← ih ((spaced_keep hx).mp h)]
    rfl
  | single b x hx => rw [sweep_single hx, dropFirst_free hx, dropFirst_nil]
  | skips b x y l hx ih =>
    obtain ⟨hy, hs⟩ := (spaced_skip hx).mp h
    rw [sweep_skip hx, dropFirst_free hx]
    obtain hy | rfl := hy
    · rw [dropFirst_keep hy, ← ih ((spaced_keep hy).mp hs)]
      rfl
    · rw [dropFirst_zero, sweep_zero]
      rfl

/-- A candidate that is skipped stays. -/
theorem spaced_of_sweep (hl : l.Nodup) (h : (sweep keep b l).rest = dropFirst keep b l) :
    Spaced keep b l := by
  induction b, l using sweep_cases keep with
  | zero l => exact spaced_zero l
  | nil b => exact spaced_nil _
  | keeps b x l hx ih =>
    rw [sweep_keep hx, dropFirst_keep hx] at h
    exact (spaced_keep hx).mpr (ih (List.nodup_cons.mp hl).2 (List.cons.inj h).2)
  | single b x hx => exact spaced_single _ x
  | skips b x y l hx ih =>
    have hyl := (List.nodup_cons.mp hl).2
    rw [sweep_skip hx, dropFirst_free hx] at h
    have h : y :: (sweep keep b l).rest = dropFirst keep b (y :: l) := h
    cases hy : keep y with
    | true =>
      rw [dropFirst_keep hy] at h
      refine (spaced_skip hx).mpr ⟨Or.inl hy, (spaced_keep hy).mpr ?_⟩
      exact ih (List.nodup_cons.mp hyl).2 (List.cons.inj h).2
    | false =>
      cases b with
      | zero => exact (spaced_skip hx).mpr ⟨Or.inr rfl, spaced_zero _⟩
      | succ b =>
        rw [dropFirst_free hy] at h
        have hmem : y ∈ dropFirst keep b l := h ▸ List.mem_cons_self
        exact absurd ((dropFirst_sublist b l).subset hmem) (List.nodup_cons.mp hyl).1

/-- The last element is removed. -/
theorem sweep_hit (h : (sweep keep b l).hit = true) : (sweep keep b l).rest.Sublist l.dropLast := by
  induction b, l using sweep_cases keep with
  | zero l =>
    rw [sweep_zero] at h
    cases h
  | nil b => cases h
  | keeps b x l hx ih =>
    rw [sweep_keep hx] at h ⊢
    cases l with
    | nil => cases h
    | cons y l => exact (ih h).cons_cons x
  | single b x hx =>
    rw [sweep_single hx]
    exact List.nil_sublist _
  | skips b x y l hx ih =>
    rw [sweep_skip hx] at h ⊢
    cases l with
    | nil =>
      cases b with
      | zero => cases h
      | succ b => cases h
    | cons z l => exact ((ih h).cons_cons y).cons x

/-- With more candidates than have to go, the last element stays. -/
theorem getLast_dropFirst (h : b < free keep l) : (dropFirst keep b l).getLast? = l.getLast? := by
  induction l generalizing b with
  | nil => exact absurd h (Nat.not_lt_zero _)
  | cons x l ih =>
    cases hx : keep x with
    | true =>
      rw [free_cons_keep hx] at h
      rw [dropFirst_keep hx, List.getLast?_cons, List.getLast?_cons, ih h]
    | false =>
      cases b with
      | zero => rw [dropFirst_zero]
      | succ b =>
        rw [free_cons hx] at h
        have hb : b < free keep l := by omega
        rw [dropFirst_free hx, ih hb, List.getLast?_cons]
        cases hlast : l.getLast? with
        | some y => rfl
        | none =>
          rw [List.getLast?_eq_none_iff.mp hlast] at hb
          exact absurd hb (Nat.not_lt_zero _)

theorem clears_iff_spaced (h : Clears keep b l r) (hl : l.Nodup) (hb : b < free keep l) :
    r = dropFirst keep b l ↔ Spaced keep b l := by
  constructor
  · rintro rfl
    refine spaced_of_sweep hl ?_
    generalize hr : dropFirst keep b l = r at h
    cases h with
    | done _ => exact hr.symm ▸ rfl
    | again hhit hrest =>
      -- the last element would be gone
      have hlast := getLast_dropFirst hb
      obtain ⟨a, x, rfl⟩ := (List.eq_nil_or_concat' l).resolve_left fun hnil => by
        rw [hnil] at hb
        exact Nat.not_lt_zero _ hb
      rw [hr, List.getLast?_concat] at hlast
      have hsub := hrest.sublist.trans (sweep_hit hhit)
      rw [List.dropLast_concat] at hsub
      obtain ⟨-, -, hapart⟩ := List.nodup_append.mp hl
      exact absurd rfl (hapart x (hsub.subset (List.mem_of_getLast? hlast)) x List.mem_cons_self)
  · intro hs
    have hsweep := sweep_of_spaced hs
    cases h with
    | done _ => exact hsweep
    | again hhit hrest =>
      have hleft : (sweep keep b l).left = 0 := by
        have hlength := sweep_length keep b l
        rw [hsweep] at hlength
        have hdrop := length_dropFirst keep b l
        omega
      rw [hleft] at hrest
      rw [hrest.zero, hsweep]

/-! ## At most as many candidates as have to go -/

theorem runs_keep (h : keep x = true) : runs keep (x :: l) = 0 :: runs keep l := if_pos h

theorem exists_runs (keep : α → Bool) (l : List α) : ∃ n ns, runs keep l = n :: ns := by
  cases l with
  | nil => exact ⟨0, [], rfl⟩
  | cons x l =>
    unfold runs
    split
    · exact ⟨_, _, rfl⟩
    · split
      · exact ⟨_, _, rfl⟩
      · exact ⟨_, _, rfl⟩

theorem runs_free (h : keep x = false) {n : Nat} {ns : List Nat} (hl : runs keep l = n :: ns) :
    runs keep (x :: l) = (n + 1) :: ns := by
  rw [runs, if_neg (ne_true_of_eq_false h), hl]

/-- There are as many candidates as the runs are long. -/
theorem sum_runs (l : List α) : (runs keep l).sum = free keep l := by
  induction l with
  | nil => rfl
  | cons x l ih =>
    cases h : keep x with
    | true =>
      rw [runs_keep h, free_cons_keep h, List.sum_cons, ih, Nat.zero_add]
    | false =>
      obtain ⟨n, ns, hl⟩ := exists_runs keep l
      rw [hl, List.sum_cons] at ih
      rw [runs_free h hl, free_cons h, List.sum_cons, ← ih]
      omega

theorem runs_eq_zero : (∀ n ∈ runs keep l, n = 0) ↔ free keep l = 0 := by
  rw [← sum_runs, List.sum_eq_zero_iff_forall_eq_nat]

theorem getLast?_runs_cons (l : List α) (n : Nat) : (n :: runs keep l).getLast? = (runs keep l).getLast? := by
  obtain ⟨m, ms, hl⟩ := exists_runs keep l
  rw [hl, List.getLast?_cons_cons]

theorem free_add_filter (keep : α → Bool) (l : List α) : free keep l + (l.filter keep).length = l.length := by
  have hnot : (fun x => !keep x) = fun x => decide ¬ keep x = true := funext fun x => by simp
  unfold free
  rw [← List.countP_eq_length_filter, Nat.add_comm, hnot]
  exact (List.length_eq_countP_add_countP keep).symm

theorem sweep_free (keep : α → Bool) (b : Nat) (l : List α) :
    free keep (sweep keep b l).rest + b = free keep l + (sweep keep b l).left := by
  have hrest := free_add_filter keep (sweep keep b l).rest
  have hl := free_add_filter keep l
  have hlength := sweep_length keep b l
  rw [sweep_filter] at hrest
  omega

/-- A sweep that may remove all candidates halves the runs, and removes the last element if the last
    run is odd. -/
theorem sweep_runs (hb : free keep l ≤ b) :
    runs keep (sweep keep b l).rest = (runs keep l).map (· / 2) ∧
      ((sweep keep b l).hit = true ↔ ∃ n, (runs keep l).getLast? = some n ∧ n % 2 = 1) := by
  induction b, l using sweep_cases keep with
  | zero l =>
    have hzero := runs_eq_zero.mpr (Nat.le_zero.mp hb)
    have hmap : (runs keep l).map (· / 2) = runs keep l := by
      refine (List.map_congr_left fun n hn => ?_).trans (List.map_id _)
      rw [hzero n hn]
      rfl
    rw [sweep_zero, hmap]
    refine ⟨rfl, iff_of_false Bool.false_ne_true ?_⟩
    rintro ⟨n, hn, hodd⟩
    rw [hzero n (List.mem_of_getLast? hn)] at hodd
    cases hodd
  | nil b =>
    refine ⟨rfl, iff_of_false Bool.false_ne_true ?_⟩
    rintro ⟨n, hn, hodd⟩
    cases hn
    cases hodd
  | keeps b x l hx ih =>
    rw [free_cons_keep hx] at hb
    obtain ⟨hruns, hhit⟩ := ih hb
    rw [sweep_keep hx, runs_keep hx, getLast?_runs_cons, List.map_cons, ← hruns]
    exact ⟨runs_keep hx, hhit⟩
  | single b x hx =>
    have hone : runs keep [x] = [1] := runs_free hx rfl
    rw [sweep_single hx, hone]
    exact ⟨rfl, iff_of_true rfl ⟨1, rfl, rfl⟩⟩
  | skips b x y l hx ih =>
    rw [free_cons hx] at hb
    cases hy : keep y with
    | true =>
      rw [free_cons_keep hy] at hb
      obtain ⟨hruns, hhit⟩ := ih (by omega)
      rw [sweep_skip hx, runs_free hx (runs_keep hy), getLast?_runs_cons, List.map_cons, ← hruns]
      exact ⟨runs_keep hy, hhit⟩
    | false =>
      rw [free_cons hy] at hb
      obtain ⟨hruns, hhit⟩ := ih (by omega)
      obtain ⟨n, ns, hl⟩ := exists_runs keep l
      rw [hl] at hruns hhit
      rw [sweep_skip hx, runs_free hx (runs_free hy hl)]
      have hhalf : (n + 1 + 1) / 2 = n / 2 + 1 := by omega
      refine ⟨?_, hhit.trans ?_⟩
      · rw [List.map_cons, hhalf]
        exact runs_free hy hruns
      · cases ns with
        | nil =>
          constructor
          · rintro ⟨m, hm, hodd⟩
            obtain rfl : n = m := Option.some.inj hm
            exact ⟨n + 1 + 1, rfl, by omega⟩
          · rintro ⟨m, hm, hodd⟩
            obtain rfl : n + 1 + 1 = m := Option.some.inj hm
            exact ⟨n, rfl, by omega⟩
        | cons m ns => rw [List.getLast?_cons_cons, List.getLast?_cons_cons]

/-- Halving an even last run. -/
theorem halves_even {ns : List Nat} {n : Nat} (hlast : ns.getLast? = some n) (hn : n % 2 = 0) :
    (∀ m ∈ ns.map (· / 2), m = 0) ↔ Halves ns := by
  rw [List.forall_mem_map]
  constructor
  · intro hall
    have hmem := hall n (List.mem_of_getLast? hlast)
    have hzero : n = 0 := by omega
    refine ⟨0, by rw [hlast, hzero, Nat.pow_zero], fun m hm => ?_⟩
    have hm0 := hall m hm
    show m < 2
    omega
  · rintro ⟨w, hw, hall⟩ m hm
    rw [hlast, Option.some_inj] at hw
    cases w with
    | zero =>
      have hlt : m < 2 := hall m hm
      omega
    | succ w =>
      have hpos := Nat.two_pow_pos w
      rw [Nat.pow_succ] at hw
      omega

/-- Halving an odd last run. -/
theorem halves_odd {ns : List Nat} {n : Nat} (hlast : ns.getLast? = some n) (hn : n % 2 = 1) :
    Halves (ns.map (· / 2)) ↔ Halves ns := by
  have hlast' : (ns.map (· / 2)).getLast? = some (n / 2) := by
    rw [List.getLast?_map, hlast]
    rfl
  constructor
  · rintro ⟨w, hw, hall⟩
    rw [hlast', Option.some_inj] at hw
    have hpos := Nat.two_pow_pos w
    have hpow : 2 ^ (w + 1) = 2 ^ w * 2 := Nat.pow_succ 2 _
    refine ⟨w + 1, ?_, fun m hm => ?_⟩
    · rw [hlast, Option.some_inj]
      omega
    · have hlt := hall (m / 2) (List.mem_map_of_mem hm)
      have hpow' : 2 ^ (w + 1 + 1) = 2 ^ (w + 1) * 2 := Nat.pow_succ 2 _
      omega
  · rintro ⟨w, hw, hall⟩
    rw [hlast, Option.some_inj] at hw
    cases w with
    | zero =>
      rw [hw] at hn
      cases hn
    | succ w =>
      have hpos := Nat.two_pow_pos w
      have hpow : 2 ^ (w + 1) = 2 ^ w * 2 := Nat.pow_succ 2 _
      refine ⟨w, ?_, ?_⟩
      · rw [hlast', Option.some_inj]
        omega
      · rw [List.forall_mem_map]
        intro m hm
        have hlt := hall m hm
        have hpow' : 2 ^ (w + 1 + 1) = 2 ^ (w + 1) * 2 := Nat.pow_succ 2 _
        omega

theorem clears_iff_halves (h : Clears keep b l r) (hb : free keep l ≤ b) :
    free keep r = 0 ↔ Halves (runs keep l) := by
  induction h with
  | @done b l hhit =>
    obtain ⟨hruns, hlast⟩ := sweep_runs hb
    obtain ⟨n, ns, hl⟩ := exists_runs keep l
    obtain ⟨m, hm⟩ : ∃ m, (runs keep l).getLast? = some m :=
      ⟨_, List.getLast?_eq_some_getLast (by rw [hl]; exact List.cons_ne_nil n ns)⟩
    have heven : m % 2 = 0 := by
      have hodd : m % 2 ≠ 1 := fun hodd => by
        rw [hlast.mpr ⟨m, hm, hodd⟩] at hhit
        cases hhit
      omega
    rw [← runs_eq_zero, hruns]
    exact halves_even hm heven
  | @again b l r hhit _ ih =>
    obtain ⟨hruns, hlast⟩ := sweep_runs hb
    obtain ⟨n, hn, hodd⟩ := hlast.mp hhit
    have hfree := sweep_free keep b l
    rw [ih (by omega), hruns]
    exact halves_odd hn hodd

theorem dropFirst_all (h : free keep l ≤ b) : dropFirst keep b l = l.filter keep := by
  induction l generalizing b with
  | nil => rw [dropFirst_nil, List.filter_nil]
  | cons x l ih =>
    cases hx : keep x with
    | true =>
      rw [free_cons_keep hx] at h
      rw [dropFirst_keep hx, List.filter_cons_of_pos hx, ih h]
    | false =>
      rw [free_cons hx] at h
      obtain ⟨b, rfl⟩ := Nat.exists_eq_succ_of_ne_zero (by omega : b ≠ 0)
      rw [dropFirst_free hx, List.filter_cons_of_neg (by simp [hx]), ih (by omega)]

/-- The skipping iterator removes the first candidates if and only if the list is `Clearable`. -/
theorem clears_iff (h : Clears keep b l r) (hl : l.Nodup) : r = dropFirst keep b l ↔ Clearable keep b l := by
  unfold Clearable
  obtain hb | hb := Nat.lt_or_ge b (free keep l)
  · rw [clears_iff_spaced h hl hb]
    exact ⟨fun hs => Or.inl ⟨hb, hs⟩, fun hc => (hc.resolve_right fun hw => Nat.not_le_of_lt hb hw.1).2⟩
  · have hfree := free_add_filter keep r
    rw [h.filter] at hfree
    have hkept : r = l.filter keep ↔ free keep r = 0 := by
      constructor
      · rintro rfl
        omega
      · intro hzero
        have hsub := h.filter ▸ (List.filter_sublist : (r.filter keep).Sublist r)
        exact (hsub.eq_of_length (by omega)).symm
    rw [dropFirst_all hb, hkept, clears_iff_halves h hb]
    exact ⟨fun hw => Or.inr ⟨hb, hw⟩, fun hc => (hc.resolve_left fun hs => Nat.not_le_of_lt hs.1 hb).2⟩

/-! ## In terms of what stays -/

/-- If fewer than `b` elements are removed, all that stay are to be kept; and of two candidates the
    second is only removed with the first. -/
structure Orderly (keep : α → Bool) (b : Nat) (l r : List α) : Prop where
  full : l.length < r.length + b → ∀ x ∈ r, keep x = true
  order : ∀ x y, [x, y].Sublist l → keep x = false → keep y = false → y ∉ r → x ∉ r

theorem orderly_dropFirst (b : Nat) (hl : l.Nodup) : Orderly keep b l (dropFirst keep b l) := by
  refine ⟨fun hless => ?_, ?_⟩
  · have hlength := length_dropFirst keep b l
    rw [dropFirst_all (by omega)]
    exact fun x hx => (List.mem_filter.mp hx).2
  · intro x y hxy hx hy hout
    induction l generalizing b with
    | nil => cases hxy
    | cons z l ih =>
      obtain ⟨hz, hnodup⟩ := List.nodup_cons.mp hl
      cases hkeep : keep z with
      | true =>
        rw [dropFirst_keep hkeep] at hout ⊢
        obtain ⟨-, hout⟩ := not_or.mp (List.mem_cons.not.mp hout)
        cases hxy with
        | cons _ hxy =>
          have hne : x ≠ z := fun he => hz (he ▸ hxy.subset List.mem_cons_self)
          exact List.not_mem_cons_of_ne_of_not_mem hne (ih b hnodup hxy hout)
        | cons_cons _ _ =>
          rw [hx] at hkeep
          cases hkeep
      | false =>
        cases b with
        | zero =>
          rw [dropFirst_zero] at hout
          exact absurd (hxy.subset (List.mem_cons_of_mem _ List.mem_cons_self)) hout
        | succ b =>
          rw [dropFirst_free hkeep] at hout ⊢
          cases hxy with
          | cons _ hxy => exact ih b hnodup hxy hout
          | cons_cons _ _ => exact fun hmem => hz ((dropFirst_sublist b l).subset hmem)

theorem dropFirst_of_orderly (hl : l.Nodup) (hsub : r.Sublist l) (hfilter : r.filter keep = l.filter keep)
    (hlength : l.length ≤ r.length + b) (h : Orderly keep b l r) : r = dropFirst keep b l := by
  induction l generalizing b r with
  | nil => rw [dropFirst_nil, List.sublist_nil.mp hsub]
  | cons z l ih =>
    obtain ⟨hz, hnodup⟩ := List.nodup_cons.mp hl
    cases hsub with
    | cons _ hsub =>
      -- the first element is removed
      have hkeep : keep z = false := by
        cases hkeep : keep z with
        | false => rfl
        | true =>
          rw [List.filter_cons_of_pos hkeep] at hfilter
          have hmem : z ∈ r.filter keep := hfilter ▸ List.mem_cons_self
          exact absurd (hsub.subset (List.mem_of_mem_filter hmem)) hz
      rw [List.filter_cons_of_neg (by simp [hkeep])] at hfilter
      have hle := hsub.length_le
      rw [List.length_cons] at hlength
      obtain ⟨b, rfl⟩ := Nat.exists_eq_succ_of_ne_zero (by omega : b ≠ 0)
      rw [dropFirst_free hkeep]
      refine ih hnodup hsub hfilter (by omega) ⟨fun hless => h.full ?_, fun x y hxy => ?_⟩
      · rw [List.length_cons]
        omega
      · exact h.order x y (hxy.cons z)
    | @cons_cons r _ _ hsub =>
      rw [List.length_cons, List.length_cons] at hlength
      cases hkeep : keep z with
      | true =>
        rw [List.filter_cons_of_pos hkeep, List.filter_cons_of_pos hkeep] at hfilter
        rw [dropFirst_keep hkeep]
        refine congrArg _ (ih hnodup hsub (List.cons.inj hfilter).2 (by omega) ⟨fun hless x hx => ?_, ?_⟩)
        · refine h.full ?_ x (List.mem_cons_of_mem _ hx)
          rw [List.length_cons, List.length_cons]
          omega
        · intro x y hxy hx hy hout
          have hne : y ≠ z := fun he => hz (he ▸ hxy.subset (List.mem_cons_of_mem _ List.mem_cons_self))
          have hnot := h.order x y (hxy.cons z) hx hy (List.not_mem_cons_of_ne_of_not_mem hne hout)
          exact fun hmem => hnot (List.mem_cons_of_mem _ hmem)
      | false =>
        -- the first candidate stays, and so do all others
        have hall : l ⊆ r := by
          intro y hy
          by_contra hout
          have hne : y ≠ z := fun he => hz (he ▸ hy)
          cases hky : keep y with
          | true =>
            rw [List.filter_cons_of_neg (by simp [hkeep]), List.filter_cons_of_neg (by simp [hkeep])] at hfilter
            have hmem : y ∈ r.filter keep := hfilter ▸ List.mem_filter.mpr ⟨hy, hky⟩
            exact hout (List.mem_of_mem_filter hmem)
          | false =>
            have hpair : [z, y].Sublist (z :: l) := (List.singleton_sublist.mpr hy).cons_cons z
            exact h.order z y hpair hkeep hky (List.not_mem_cons_of_ne_of_not_mem hne hout) List.mem_cons_self
        obtain rfl : r = l := hsub.eq_of_length_le (List.subperm_of_subset hnodup hall).length_le
        cases b with
        | zero => rw [dropFirst_zero]
        | succ b =>
          have htrue := h.full (Nat.lt_add_of_pos_right (Nat.succ_pos b)) z List.mem_cons_self
          rw [hkeep] at htrue
          cases htrue

/-- What the skipping iterator leaves is orderly if and only if the list is `Clearable`. -/
theorem orderly_iff (h : Clears keep b l r) (hl : l.Nodup) : Orderly keep b l r ↔ Clearable keep b l := by
  rw [← clears_iff h hl]
  constructor
  · exact dropFirst_of_orderly hl h.sublist h.filter h.length_le
  · rintro rfl
    exact orderly_dropFirst b hl

end Sweep

end HFlat.Lib.Sweep
