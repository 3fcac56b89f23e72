/-
  Total correctness of one program that has a service to itself.

  `Prog.Completes` says that a program returns: each of its requests is served, and however it is
  served the rest returns as well. `Completes` is the same for programs with a memory of their own.
  `limit` takes away those runs of a service in which a choice that need not be made is made too often.
-/
import HFlat.Lib.Sequential

namespace HFlat.Lib

section Completes

variable {Req : Type} {Res : Req → Type} {Choice S α β : Type} {sv : Service Req Res Choice S}

/-- Every run from state `s` ends, with an answer and a state that satisfy `Q`. -/
def Prog.Completes (sv : Service Req Res Choice S) (Q : α → S → Prop) : Prog Req Res α → S → Prop
  | .ret a, s => Q a s
  | .stop, _ => False
  | .call r k, s => (∃ choice x s', sv.serve s r choice = some (x, s')) ∧
      ∀ choice x s', sv.serve s r choice = some (x, s') → (k x).Completes sv Q s'

theorem Prog.Completes.mono {Q Q' : α → S → Prop} {m : Prog Req Res α} {s : S}
    (h : m.Completes sv Q s) (hQ : ∀ a s, Q a s → Q' a s) : m.Completes sv Q' s := by
  induction m generalizing s with
  | ret a => exact hQ a s h
  | stop => exact h
  | call r k ih => exact ⟨h.1, fun choice x s' hserve => ih x (h.2 choice x s' hserve)⟩

theorem Prog.Completes.bind {Q : β → S → Prop} {m : Prog Req Res α} {f : α → Prog Req Res β} {s : S}
    (h : m.Completes sv (fun a s => (f a).Completes sv Q s) s) : (m >>= f).Completes sv Q s := by
  induction m generalizing s with
  | ret a => exact h
  | stop => exact h
  | call r k ih => exact ⟨h.1, fun choice x s' hserve => ih x (h.2 choice x s' hserve)⟩

/-- The first part of a program that completes does so, and then the rest does. -/
theorem Prog.Completes.unbind {Q : β → S → Prop} {m : Prog Req Res α} {f : α → Prog Req Res β} {s : S}
    (h : (m >>= f).Completes sv Q s) : m.Completes sv (fun a s => (f a).Completes sv Q s) s := by
  induction m generalizing s with
  | ret a => exact h
  | stop => exact h
  | call r k ih => exact ⟨h.1, fun choice x s' hserve => ih x (h.2 choice x s' hserve)⟩

theorem Prog.Completes.of_returns {Q : α → S → Prop} {m : Prog Req Res α} {s s' : S} {a : α}
    (h : m.Completes sv Q s) (hr : Returns sv m s a s') : Q a s' := by
  induction hr with
  | ret a s => exact h
  | call hserve _ ih => exact ih (h.2 _ _ _ hserve)

/-- A program that completes has a run. -/
theorem Prog.Completes.returns {Q : α → S → Prop} {m : Prog Req Res α} {s : S} (h : m.Completes sv Q s) :
    ∃ a s', Returns sv m s a s' := by
  induction m generalizing s with
  | ret a => exact ⟨a, s, Returns.ret a s⟩
  | stop => exact absurd h id
  | call r k ih =>
    obtain ⟨choice, x, s1, hserve⟩ := h.1
    obtain ⟨a, s', hr⟩ := ih x (h.2 choice x s1 hserve)
    exact ⟨a, s', Returns.call hserve hr⟩

theorem Prog.Completes.and_returns {Q Q' : α → S → Prop} {m : Prog Req Res α} {s : S}
    (h : m.Completes sv Q s) (h' : ∀ a s', Returns sv m s a s' → Q' a s') :
    m.Completes sv (fun a s => Q a s ∧ Q' a s) s := by
  induction m generalizing s with
  | ret a => exact ⟨h, h' a s (Returns.ret a s)⟩
  | stop => exact h
  | call r k ih =>
    refine ⟨h.1, fun choice x s1 hserve => ih x (h.2 choice x s1 hserve) fun a s' hr => ?_⟩
    exact h' a s' (Returns.call hserve hr)

/-- A program among further requests. -/
theorem Prog.Completes.embed {Req' : Type} {Res' : Req' → Type}
    {sv : Service (Req ⊕ Req') (SumRes Res Res') Choice S} {Q : α → S → Prop} {m : Prog Req Res α} {s : S}
    (h : m.Completes sv.left Q s) : m.embed.Completes sv Q s := by
  induction m generalizing s with
  | ret a => exact h
  | stop => exact h
  | call r k ih => exact ⟨h.1, fun choice x s' hserve => ih x (h.2 choice x s' hserve)⟩

end Completes

/-! ## Programs with a memory of their own -/

section Completes

variable {Req : Type} {Res : Req → Type} {Choice S L α β : Type} {sv : Service Req Res Choice S}
variable {l : L} {s : S}

/-- From memory `l` and state `s` every run of the program ends, and `Q` holds of its answer, the
    memory and the state. -/
def Completes (sv : Service Req Res Choice S) (m : StateT L (Prog Req Res) α) (Q : α → L → S → Prop)
    (l : L) (s : S) : Prop :=
  (m.run l).Completes sv (fun x s => Q x.1 x.2 s) s

theorem Completes.pure {Q : α → L → S → Prop} {a : α} (h : Q a l s) :
    Completes sv (pure a : StateT L (Prog Req Res) α) Q l s := h

theorem Completes.mono {m : StateT L (Prog Req Res) α} {Q Q' : α → L → S → Prop} (h : Completes sv m Q l s)
    (hQ : ∀ a l s, Q a l s → Q' a l s) : Completes sv m Q' l s :=
  Prog.Completes.mono h fun x s hx => hQ x.1 x.2 s hx

theorem Completes.bind {m : StateT L (Prog Req Res) α} {f : α → StateT L (Prog Req Res) β}
    {Q : β → L → S → Prop} (h : Completes sv m (fun a l s => Completes sv (f a) Q l s) l s) :
    Completes sv (m >>= f) Q l s :=
  Prog.Completes.bind h

theorem Completes.unbind {m : StateT L (Prog Req Res) α} {f : α → StateT L (Prog Req Res) β}
    {Q : β → L → S → Prop} (h : Completes sv (m >>= f) Q l s) :
    Completes sv m (fun a l s => Completes sv (f a) Q l s) l s :=
  Prog.Completes.unbind h

theorem Completes.post {m : StateT L (Prog Req Res) α} {Q : α → L → S → Prop} (h : Completes sv m Q l s) :
    Post sv m Q l s := by
  intro a l' s' hr
  have hm : (m.run l).Completes sv (fun x s => Q x.1 x.2 s) s := h
  exact hm.of_returns hr

/-- What every run that returns does, some run does. -/
theorem Completes.exists_of_post {m : StateT L (Prog Req Res) α} {Q Q' : α → L → S → Prop}
    (h : Completes sv m Q l s) (h' : Post sv m Q' l s) : ∃ a l' s', Q a l' s' ∧ Q' a l' s' := by
  have hm : (m.run l).Completes sv (fun x s => Q x.1 x.2 s) s := h
  obtain ⟨⟨a, l'⟩, s', hr⟩ := hm.returns
  exact ⟨a, l', s', h.post a l' s' hr, h' a l' s' hr⟩

/-- What holds of every run that returns holds of every run. -/
theorem Completes.and_post {m : StateT L (Prog Req Res) α} {Q Q' : α → L → S → Prop}
    (h : Completes sv m Q l s) (h' : Post sv m Q' l s) :
    Completes sv m (fun a l s => Q a l s ∧ Q' a l s) l s := by
  have hm : (m.run l).Completes sv (fun x s => Q x.1 x.2 s ∧ Q' x.1 x.2 s) s :=
    Prog.Completes.and_returns h fun x s' hr => h' x.1 x.2 s' hr
  exact hm

/-- A program followed by `f`. -/
theorem Completes.then {m : StateT L (Prog Req Res) α} {f : α → StateT L (Prog Req Res) β}
    {Q : α → L → S → Prop} {Q' : β → L → S → Prop} (h : Completes sv m Q l s)
    (hf : ∀ a l s, Q a l s → Completes sv (f a) Q' l s) : Completes sv (m >>= f) Q' l s :=
  Completes.bind (h.mono hf)

theorem Completes.get_bind {f : L → StateT L (Prog Req Res) β} {Q : β → L → S → Prop}
    (h : Completes sv (f l) Q l s) : Completes sv (get >>= f) Q l s := h

theorem Completes.of_get_bind {f : L → StateT L (Prog Req Res) β} {Q : β → L → S → Prop}
    (h : Completes sv (get >>= f) Q l s) : Completes sv (f l) Q l s := h

theorem Completes.modify_bind {g : L → L} {f : Unit → StateT L (Prog Req Res) β} {Q : β → L → S → Prop}
    (h : Completes sv (f ()) Q (g l) s) : Completes sv (modify g >>= f) Q l s := h

theorem Completes.modify {g : L → L} {Q : Unit → L → S → Prop} (h : Q () (g l) s) :
    Completes sv (modify g : StateT L (Prog Req Res) Unit) Q l s := h

/-- One request. -/
theorem Completes.call {r : Req} {Q : Res r → L → S → Prop}
    (hserved : ∃ choice x s', sv.serve s r choice = some (x, s'))
    (h : ∀ choice x s', sv.serve s r choice = some (x, s') → Q x l s') :
    Completes sv (StateT.lift (Prog.perform r) : StateT L (Prog Req Res) (Res r)) Q l s :=
  ⟨hserved, h⟩

/-- What follows a request ends for every way to serve it. -/
theorem Completes.served {r : Req} {f : Res r → StateT L (Prog Req Res) β} {Q : β → L → S → Prop}
    (h : Completes sv (StateT.lift (Prog.perform r) >>= f) Q l s) (choice : Choice) (x : Res r) {s' : S}
    (hserve : sv.serve s r choice = some (x, s')) : Completes sv (f x) Q l s' :=
  h.2 choice x s' hserve

theorem Completes.ite {c : Prop} [Decidable c] {m m' : StateT L (Prog Req Res) α} {Q : α → L → S → Prop}
    (h : c → Completes sv m Q l s) (h' : ¬ c → Completes sv m' Q l s) :
    Completes sv (if c then m else m') Q l s := by
  split
  · rename_i hc
    exact h hc
  · rename_i hc
    exact h' hc

theorem Completes.embed {Req' : Type} {Res' : Req' → Type}
    {sv : Service (Req ⊕ Req') (SumRes Res Res') Choice S} {m : StateT L (Prog Req Res) α}
    {Q : α → L → S → Prop} (h : Completes sv.left m Q l s) : Completes sv (embedded m) Q l s :=
  Prog.Completes.embed h

end Completes

/-! ## Choices that are not made for ever -/

section Limit

variable {Req : Type} {Res : Req → Type} {Choice S : Type}

/-- The service together with the number of times that a choice in `rare` may still be made. -/
def Service.limit (sv : Service Req Res Choice S) (rare : Choice → Bool) :
    Service Req Res Choice (S × Nat) where
  serve s r choice :=
    if rare choice then
      if s.2 = 0 then none else (sv.serve s.1 r choice).map fun x => (x.1, (x.2, s.2 - 1))
    else (sv.serve s.1 r choice).map fun x => (x.1, (x.2, s.2))

theorem serve_limit {sv : Service Req Res Choice S} {rare : Choice → Bool} {s s' : S × Nat} {r : Req}
    {choice : Choice} {x : Res r} (h : (sv.limit rare).serve s r choice = some (x, s')) :
    sv.serve s.1 r choice = some (x, s'.1) ∧
      (rare choice = true ∧ s'.2 + 1 = s.2 ∨ rare choice = false ∧ s'.2 = s.2) := by
  simp only [Service.limit] at h
  split at h
  · rename_i hrare
    split at h
    · cases h
    · rename_i hn
      obtain ⟨y, hy, he⟩ := Option.map_eq_some_iff.mp h
      cases he
      exact ⟨hy, Or.inl ⟨hrare, Nat.succ_pred hn⟩⟩
  · rename_i hrare
    obtain ⟨y, hy, he⟩ := Option.map_eq_some_iff.mp h
    cases he
    exact ⟨hy, Or.inr ⟨Bool.eq_false_iff.mpr hrare, rfl⟩⟩

/-- A choice that is not rare can always be made. -/
theorem limit_serves {sv : Service Req Res Choice S} {rare : Choice → Bool} {s s' : S} {n : Nat} {r : Req}
    {choice : Choice} {x : Res r} (hrare : rare choice = false) (h : sv.serve s r choice = some (x, s')) :
    (sv.limit rare).serve (s, n) r choice = some (x, (s', n)) := by
  simp [Service.limit, hrare, h]

end Limit

end HFlat.Lib
