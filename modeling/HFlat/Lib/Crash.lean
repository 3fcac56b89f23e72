/-
  Total correctness of a program that may be stopped on its way.

  `Survives` says of a program alone with a service that it returns, as `Completes` does, and that a crash
  condition holds of every state of the service on the way: if the program is stopped between two of its
  requests, the crash condition is what can be relied on (`runFrom_survives`). A program that survives under
  `(· = s)` only reads.
-/
import HFlat.Lib.Completion

namespace HFlat.Lib

section Survives

variable {Req : Type} {Res : Req → Type} {Choice S ι α β : Type} {sv : Service Req Res Choice S}
variable {C C' : S → Prop}

/-- Every run from state `s` ends, with an answer and a state that satisfy `Q`, and `C` holds all the time. -/
def Prog.Survives (sv : Service Req Res Choice S) (C : S → Prop) (Q : α → S → Prop) :
    Prog Req Res α → S → Prop
  | .ret a, s => C s ∧ Q a s
  | .stop, _ => False
  | .call r k, s => C s ∧ (∃ choice x s', sv.serve s r choice = some (x, s')) ∧
      ∀ choice x s', sv.serve s r choice = some (x, s') → (k x).Survives sv C Q s'

theorem Prog.Survives.mono {Q Q' : α → S → Prop} {m : Prog Req Res α} {s : S} (h : m.Survives sv C Q s)
    (hC : ∀ s, C s → C' s) (hQ : ∀ a s, C s → Q a s → Q' a s) : m.Survives sv C' Q' s := by
  induction m generalizing s with
  | ret a => exact ⟨hC s h.1, hQ a s h.1 h.2⟩
  | stop => exact h
  | call r k ih => exact ⟨hC s h.1, h.2.1, fun choice x s' hserve => ih x (h.2.2 choice x s' hserve)⟩

theorem Prog.Survives.bind {Q : β → S → Prop} {m : Prog Req Res α} {f : α → Prog Req Res β} {s : S}
    (h : m.Survives sv C (fun a s => (f a).Survives sv C Q s) s) : (m >>= f).Survives sv C Q s := by
  induction m generalizing s with
  | ret a => exact h.2
  | stop => exact h
  | call r k ih => exact ⟨h.1, h.2.1, fun choice x s' hserve => ih x (h.2.2 choice x s' hserve)⟩

/-- The crash condition holds at the start. -/
theorem Prog.Survives.start {Q : α → S → Prop} {m : Prog Req Res α} {s : S} (h : m.Survives sv C Q s) : C s := by
  cases m with
  | ret a => exact h.1
  | stop => exact h.elim
  | call r k => exact h.1

end Survives

/-! ## Programs with a memory of their own -/

section Survives

variable {Req : Type} {Res : Req → Type} {Choice S L α β : Type} {sv : Service Req Res Choice S}
variable {C C' : S → Prop} {l : L} {s : S}

/-- From memory `l` and state `s` every run of the program ends, `Q` holds of its answer, the memory and the
    state, and `C` holds of every state of the service on the way. -/
def Survives (sv : Service Req Res Choice S) (C : S → Prop) (m : StateT L (Prog Req Res) α)
    (Q : α → L → S → Prop) (l : L) (s : S) : Prop :=
  (m.run l).Survives sv C (fun x s => Q x.1 x.2 s) s

theorem Survives.pure {Q : α → L → S → Prop} {a : α} (hC : C s) (h : Q a l s) :
    Survives sv C (pure a : StateT L (Prog Req Res) α) Q l s := ⟨hC, h⟩

theorem Survives.mono {m : StateT L (Prog Req Res) α} {Q Q' : α → L → S → Prop} (h : Survives sv C m Q l s)
    (hC : ∀ s, C s → C' s) (hQ : ∀ a l s, C s → Q a l s → Q' a l s) : Survives sv C' m Q' l s :=
  Prog.Survives.mono h hC fun x s hs hx => hQ x.1 x.2 s hs hx

theorem Survives.bind {m : StateT L (Prog Req Res) α} {f : α → StateT L (Prog Req Res) β}
    {Q : β → L → S → Prop} (h : Survives sv C m (fun a l s => Survives sv C (f a) Q l s) l s) :
    Survives sv C (m >>= f) Q l s :=
  Prog.Survives.bind h

/-- A program followed by `f`. -/
theorem Survives.then {m : StateT L (Prog Req Res) α} {f : α → StateT L (Prog Req Res) β}
    {Q : α → L → S → Prop} {Q' : β → L → S → Prop} (h : Survives sv C m Q l s)
    (hf : ∀ a l s, C s → Q a l s → Survives sv C (f a) Q' l s) : Survives sv C (m >>= f) Q' l s :=
  Survives.bind (h.mono (fun _ hs => hs) hf)

/-- A program that only reads, followed by `f`. -/
theorem Survives.read {m : StateT L (Prog Req Res) α} {f : α → StateT L (Prog Req Res) β}
    {Q : α → L → S → Prop} {Q' : β → L → S → Prop} (h : Survives sv (· = s) m Q l s) (hC : C s)
    (hf : ∀ a l, Q a l s → Survives sv C (f a) Q' l s) : Survives sv C (m >>= f) Q' l s := by
  refine Survives.bind (h.mono (fun s' hs => hs ▸ hC) fun a l' s' hs hx => ?_)
  obtain rfl := hs
  exact hf a l' hx

theorem Survives.get_bind {f : L → StateT L (Prog Req Res) β} {Q : β → L → S → Prop}
    (h : Survives sv C (f l) Q l s) : Survives sv C (get >>= f) Q l s := h

theorem Survives.modify {g : L → L} {Q : Unit → L → S → Prop} (hC : C s) (h : Q () (g l) s) :
    Survives sv C (modify g : StateT L (Prog Req Res) Unit) Q l s := ⟨hC, h⟩

/-- One request. -/
theorem Survives.call {r : Req} {Q : Res r → L → S → Prop} (hC : C s)
    (hserved : ∃ choice x s', sv.serve s r choice = some (x, s'))
    (h : ∀ choice x s', sv.serve s r choice = some (x, s') → C s' ∧ Q x l s') :
    Survives sv C (StateT.lift (Prog.perform r) : StateT L (Prog Req Res) (Res r)) Q l s :=
  ⟨hC, hserved, h⟩

theorem Survives.ite {c : Prop} [Decidable c] {m m' : StateT L (Prog Req Res) α} {Q : α → L → S → Prop}
    (h : c → Survives sv C m Q l s) (h' : ¬ c → Survives sv C m' Q l s) :
    Survives sv C (if c then m else m') Q l s := by
  split
  · rename_i hc
    exact h hc
  · rename_i hc
    exact h' hc

end Survives

end HFlat.Lib
