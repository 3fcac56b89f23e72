/-
  Total correctness for programs with a memory that may fail (`StateT σ Option`): `Yields m Q s`
  says that `m`, started in `s`, returns a value and a memory that satisfy `Q`. The rules follow
  the program; a loop or a recursion is an induction on top of them.
-/
import Mathlib.Logic.Basic

namespace HFlat.Lib

variable {σ α β : Type} {s : σ}

/-- The computation returns, in `Q`. -/
def Yields (m : StateT σ Option α) (Q : α → σ → Prop) (s : σ) : Prop :=
  ∃ a s', m.run s = some (a, s') ∧ Q a s'

theorem Yields.pure {Q : α → σ → Prop} {a : α} (h : Q a s) :
    Yields (pure a : StateT σ Option α) Q s :=
  ⟨a, s, rfl, h⟩

theorem Yields.bind {m : StateT σ Option α} {f : α → StateT σ Option β} {Q : β → σ → Prop}
    (h : Yields m (fun a s => Yields (f a) Q s) s) : Yields (m >>= f) Q s := by
  obtain ⟨a, s1, h1, b, s2, h2, hQ⟩ := h
  refine ⟨b, s2, ?_, hQ⟩
  rw [StateT.run_bind, h1]
  exact h2

theorem Yields.mono {m : StateT σ Option α} {Q Q' : α → σ → Prop} (h : Yields m Q s)
    (hQ : ∀ a s, Q a s → Q' a s) : Yields m Q' s := by
  obtain ⟨a, s', hrun, ha⟩ := h
  exact ⟨a, s', hrun, hQ a s' ha⟩

/-- A program followed by `f`. -/
theorem Yields.then {m : StateT σ Option α} {f : α → StateT σ Option β} {Q : α → σ → Prop}
    {Q' : β → σ → Prop} (h : Yields m Q s) (hf : ∀ a s, Q a s → Yields (f a) Q' s) :
    Yields (m >>= f) Q' s :=
  Yields.bind (h.mono hf)

/-- A program whose run is known, followed by `f`. -/
theorem Yields.run_bind {m : StateT σ Option α} {f : α → StateT σ Option β} {Q : β → σ → Prop} {a : α}
    {s' : σ} (hrun : m.run s = some (a, s')) (h : Yields (f a) Q s') : Yields (m >>= f) Q s :=
  Yields.bind ⟨a, s', hrun, h⟩

theorem Yields.get_bind {f : σ → StateT σ Option β} {Q : β → σ → Prop} (h : Yields (f s) Q s) :
    Yields (get >>= f) Q s := h

theorem Yields.modify_bind {g : σ → σ} {f : Unit → StateT σ Option β} {Q : β → σ → Prop}
    (h : Yields (f ()) Q (g s)) : Yields (modify g >>= f) Q s := h

theorem Yields.modify {g : σ → σ} {Q : Unit → σ → Prop} (h : Q () (g s)) :
    Yields (modify g : StateT σ Option Unit) Q s :=
  ⟨(), g s, rfl, h⟩

/-- What a program that yields returns. -/
theorem Yields.of_run {m : StateT σ Option α} {Q : α → σ → Prop} (h : Yields m Q s) {a : α} {s' : σ}
    (hrun : m.run s = some (a, s')) : Q a s' := by
  obtain ⟨a1, s1, h1, hQ⟩ := h
  rw [hrun] at h1
  cases h1
  exact hQ

end HFlat.Lib
