/-
  Rewriting of component prefixes. A rule `(q, t)` turns `q ++ r` into `t ++ r`. The rules need
  not be finitely many and several may apply to one path. A terminating set of rules stays
  terminating when rules are dropped (`Terminates.mono`), and when one rule `(d, t)` is added from
  whose result the old rules lead back to `d` with a shorter rest only (`Terminates.insert`).
-/
import Mathlib.Logic.Relation
import HFlat.Lib.Component

namespace HFlat.Lib

variable {α : Type*} {sep : α}

/-- One rewriting step at the front of a path. -/
inductive Hop (sep : α) (R : List α → List α → Prop) : List α → List α → Prop
  | intro {q t r : List α} (h : R q t) (hr : Tail sep r) : Hop sep R (q ++ r) (t ++ r)

/-- No path can be rewritten for ever. -/
def Terminates (sep : α) (R : List α → List α → Prop) : Prop :=
  WellFounded fun p' p => Hop sep R p p'

theorem Hop.mono {R R' : List α → List α → Prop} (h : ∀ q t, R' q t → R q t) {p p' : List α}
    (hp : Hop sep R' p p') : Hop sep R p p' := by
  obtain ⟨hq, hr⟩ := hp
  exact Hop.intro (h _ _ hq) hr

theorem Terminates.mono {R R' : List α → List α → Prop} (h : ∀ q t, R' q t → R q t)
    (hR : Terminates sep R) : Terminates sep R' :=
  Subrelation.wf (fun hp => Hop.mono h hp) hR

theorem terminates_empty : Terminates sep (fun _ _ : List α => False) :=
  ⟨fun _ => ⟨_, fun _ h => by obtain ⟨hq, -⟩ := h; exact hq.elim⟩⟩

section Insert

variable {R R' : List α → List α → Prop} {d t : List α}

/-- Every path that the old rules reach from `t ++ r` is accessible for the new ones. The outer
    induction is on the length of `r`, the inner one along the old rules. -/
theorem acc_of_reaches (hR : Terminates sep R)
    (hback : ∀ r r', Tail sep r → Tail sep r' → Relation.ReflTransGen (Hop sep R) (t ++ r) (d ++ r') →
      r'.length < r.length)
    (hR' : ∀ q x, R' q x → R q x ∨ (q = d ∧ x = t)) (n : Nat) (r : List α) (hn : r.length = n)
    (hr : Tail sep r) (p : List α) (hp : Relation.ReflTransGen (Hop sep R) (t ++ r) p) :
    Acc (fun p' p => Hop sep R' p p') p := by
  induction n using Nat.strongRecOn generalizing r p with
  | ind n ihn =>
    induction p using hR.induction with
    | _ p ihp =>
      refine ⟨p, fun p' hstep => ?_⟩
      obtain ⟨hq, hw⟩ := hstep
      rcases hR' _ _ hq with hq | ⟨rfl, rfl⟩
      · exact ihp _ (Hop.intro hq hw) (hp.tail (Hop.intro hq hw))
      · exact ihn _ (hn ▸ hback r _ hr hw hp) _ rfl hw _ Relation.ReflTransGen.refl

theorem Terminates.insert (hR : Terminates sep R)
    (hback : ∀ r r', Tail sep r → Tail sep r' → Relation.ReflTransGen (Hop sep R) (t ++ r) (d ++ r') →
      r'.length < r.length)
    (hR' : ∀ q x, R' q x → R q x ∨ (q = d ∧ x = t)) : Terminates sep R' := by
  refine ⟨fun p => ?_⟩
  induction p using hR.induction with
  | _ p ih =>
    refine ⟨p, fun p' hstep => ?_⟩
    obtain ⟨hq, hw⟩ := hstep
    rcases hR' _ _ hq with hq | ⟨rfl, rfl⟩
    · exact ih _ (Hop.intro hq hw)
    · exact acc_of_reaches hR hback hR' _ _ rfl hw _ Relation.ReflTransGen.refl

end Insert

end HFlat.Lib
