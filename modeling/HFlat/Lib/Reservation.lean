/-
  Places that are reserved before they are used.

  A party reserves a free place, and puts it to use, which ends the reservation. To free a place that is
  in use, the party takes it out of use, which reserves it again, and then gives it up. A step may also
  take effect without the party being told of it (`Fault`); it then holds nothing.

  No two parties hold the same place, a place that is held is not in use, and one that is in use is taken
  (`Exclusive`). Without faults every place that is taken is in use or held (`Complete`).
-/
import Mathlib.Data.Set.Insert
import Mathlib.Order.BooleanAlgebra.Set
import Mathlib.Logic.Function.Basic

namespace HFlat.Lib.Reservation

variable {ι κ : Type}

/-- Names that are taken, names in use, and the name that each client holds. -/
structure State (ι κ : Type) where
  /-- reserved or in use -/
  taken : Set κ
  used : Set κ
  holder : ι → Option κ

section Steps

variable [DecidableEq ι] (i : ι) (s : State ι κ)

/-- What client `i` may do. -/
inductive Step : State ι κ → Prop
  | reserve {k : κ} (hfree : k ∉ s.taken) (hi : s.holder i = none) :
      Step ⟨insert k s.taken, s.used, Function.update s.holder i (some k)⟩
  | use {k : κ} (hi : s.holder i = some k) : Step ⟨s.taken, insert k s.used, Function.update s.holder i none⟩
  | vacate {k : κ} (hk : k ∈ s.used) (hi : s.holder i = none) :
      Step ⟨s.taken, s.used \ {k}, Function.update s.holder i (some k)⟩
  | release {k : κ} (hi : s.holder i = some k) :
      Step ⟨s.taken \ {k}, s.used, Function.update s.holder i none⟩

/-- A step of which the party is not told, or none at all. -/
inductive Fault : State ι κ → Prop
  | reserve (k : κ) : Fault ⟨insert k s.taken, s.used, s.holder⟩
  | vacate (k : κ) : Fault ⟨s.taken, s.used \ {k}, s.holder⟩
  | forget : Fault ⟨s.taken, s.used, Function.update s.holder i none⟩

end Steps

/-- No two clients hold the same name, and no name in use is held. -/
structure Exclusive (s : State ι κ) : Prop where
  taken : ∀ {i k}, s.holder i = some k → k ∈ s.taken
  unused : ∀ {i k}, s.holder i = some k → k ∉ s.used
  sole : ∀ {i j k}, s.holder i = some k → s.holder j = some k → i = j
  used : s.used ⊆ s.taken

/-- Every name taken is in use or held. -/
def Complete (s : State ι κ) : Prop := ∀ k ∈ s.taken, k ∈ s.used ∨ ∃ i, s.holder i = some k

section Invariants

variable {i j : ι} {s s' : State ι κ} {k k' : κ}

/-- Nobody holds a place that is in use, or one that is free. -/
theorem Exclusive.unheld (h : Exclusive s) (hk : k ∈ s.used ∨ k ∉ s.taken) (j : ι) : s.holder j ≠ some k :=
  fun hj => hk.elim (h.unused hj) fun hfree => hfree (h.taken hj)

variable [DecidableEq ι]

theorem held_update (h : Function.update s.holder i (some k) j = some k') :
    (j = i ∧ k' = k) ∨ (j ≠ i ∧ s.holder j = some k') := by
  by_cases hj : j = i
  · rw [hj, Function.update_self] at h
    exact Or.inl ⟨hj, (Option.some.inj h).symm⟩
  · rw [Function.update_of_ne hj] at h
    exact Or.inr ⟨hj, h⟩

theorem held_forget (h : Function.update s.holder i none j = some k) : j ≠ i ∧ s.holder j = some k := by
  by_cases hj : j = i
  · rw [hj, Function.update_self] at h
    cases h
  · rw [Function.update_of_ne hj] at h
    exact ⟨hj, h⟩

/-- A party that held nothing holds a place that is taken, not in use and not held by others. -/
theorem Exclusive.hold {taken used : Set κ} (h : Exclusive s) (hother : ∀ j, s.holder j ≠ some k)
    (htaken : s.taken ⊆ taken) (hk : k ∈ taken) (hused : used ⊆ s.used) (hunused : k ∉ used) :
    Exclusive ⟨taken, used, Function.update s.holder i (some k)⟩ where
  taken {j k'} hj := by
    rcases held_update hj with ⟨-, rfl⟩ | ⟨-, hj⟩
    · exact hk
    · exact htaken (h.taken hj)
  unused {j k'} hj := by
    rcases held_update hj with ⟨-, rfl⟩ | ⟨-, hj⟩
    · exact hunused
    · exact fun hk' => h.unused hj (hused hk')
  sole {j j' k'} hj hj' := by
    rcases held_update hj with ⟨hji, hk'⟩ | ⟨-, hj⟩ <;> rcases held_update hj' with ⟨hji', he⟩ | ⟨-, hj'⟩
    · exact hji.trans hji'.symm
    · exact absurd (hk' ▸ hj') (hother j')
    · exact absurd (he ▸ hj) (hother j)
    · exact h.sole hj hj'
  used := (hused.trans h.used).trans htaken

/-- A party holds nothing any more; its place may be put to use or given up. -/
theorem Exclusive.drop {taken used : Set κ} (h : Exclusive s)
    (hkept : ∀ {j k}, j ≠ i → s.holder j = some k → k ∈ taken ∧ k ∉ used) (hused : used ⊆ taken) :
    Exclusive ⟨taken, used, Function.update s.holder i none⟩ where
  taken hj := (hkept (held_forget hj).1 (held_forget hj).2).1
  unused hj := (hkept (held_forget hj).1 (held_forget hj).2).2
  sole hj hj' := h.sole (held_forget hj).2 (held_forget hj').2
  used := hused

theorem Exclusive.step (h : Exclusive s) (hstep : Step i s s') : Exclusive s' := by
  cases hstep with
  | reserve hfree hi =>
    exact h.hold (h.unheld (Or.inr hfree)) (Set.subset_insert _ _) (Set.mem_insert _ _) subset_rfl
      fun hk => hfree (h.used hk)
  | @use k hi =>
    refine h.drop (fun {j k'} hj hk' => ⟨h.taken hk', ?_⟩) (Set.insert_subset (h.taken hi) h.used)
    rintro (rfl | hused)
    · exact hj (h.sole hk' hi)
    · exact h.unused hk' hused
  | vacate hk hi =>
    exact h.hold (h.unheld (Or.inl hk)) subset_rfl (h.used hk) Set.sdiff_subset fun hk' => hk'.2 rfl
  | @release k hi =>
    refine h.drop (fun {j k'} hj hk' => ⟨⟨h.taken hk', ?_⟩, h.unused hk'⟩) fun k' hk' => ⟨h.used hk', ?_⟩
    · rintro rfl
      exact hj (h.sole hk' hi)
    · rintro rfl
      exact h.unused hi hk'

theorem Exclusive.fault (h : Exclusive s) (hfault : Fault i s s') : Exclusive s' := by
  cases hfault with
  | reserve k =>
    exact ⟨fun hj => Set.mem_insert_of_mem _ (h.taken hj), h.unused, h.sole,
      h.used.trans (Set.subset_insert _ _)⟩
  | vacate k =>
    exact ⟨h.taken, fun hj hk => h.unused hj hk.1, h.sole, Set.sdiff_subset.trans h.used⟩
  | forget => exact h.drop (fun _ hk => ⟨h.taken hk, h.unused hk⟩) h.used

theorem Complete.step (h : Complete s) (hstep : Step i s s') : Complete s' := by
  have hkeep : ∀ {holder : Option κ} {k : κ}, s.holder i ≠ some k → (∃ j, s.holder j = some k) →
      ∃ j, Function.update s.holder i holder j = some k := by
    rintro holder k hi ⟨j, hj⟩
    refine ⟨j, ?_⟩
    rw [Function.update_of_ne]
    · exact hj
    · rintro rfl
      exact hi hj
  have hself : ∀ k, ∃ j, Function.update s.holder i (some k) j = some k :=
    fun k => ⟨i, Function.update_self _ _ _⟩
  cases hstep with
  | reserve hfree hi =>
    rintro k' (rfl | hk')
    · exact Or.inr (hself k')
    · exact (h k' hk').imp id (hkeep (by rw [hi]; exact nofun))
  | @use k hi =>
    intro k' hk'
    by_cases he : k' = k
    · exact Or.inl (Or.inl he)
    · exact (h k' hk').imp Or.inr (hkeep (by rw [hi]; exact fun hs => he (Option.some.inj hs).symm))
  | @vacate k hk hi =>
    intro k' hk'
    by_cases he : k' = k
    · exact Or.inr (he ▸ hself k')
    · exact (h k' hk').imp (fun hused => ⟨hused, he⟩) (hkeep (by rw [hi]; exact nofun))
  | @release k hi =>
    rintro k' ⟨hk', he⟩
    exact (h k' hk').imp id (hkeep (by rw [hi]; exact fun hs => he (Option.some.inj hs).symm))

end Invariants

end HFlat.Lib.Reservation
