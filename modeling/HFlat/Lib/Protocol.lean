/-
  Protocols: what a program may request, and what it is promised in return.

  A `Protocol` has a state that the program's own requests and their answers determine. A program
  conforms to the protocol (`Conforms`) if every request it makes is allowed, as long as every answer is
  one that the protocol promises. This is a statement about the program alone: the shared state
  and the other programs do not occur in it. If a step of the service that a protocol allows keeps
  an invariant of the shared state and all protocol states, and its answer is as promised, then the
  invariant holds along every run of programs that conform to their protocols (`runFrom_conforms`).

  `observe` lets a service keep a record of what happened.
-/
import HFlat.Lib.Sequential

namespace HFlat.Lib

/-- What a program may request, what answers it may rely on, and how its knowledge changes. -/
structure Protocol (Req : Type) (Res : Req → Type) (T : Type) where
  allowed : T → Req → Prop
  answers : T → (r : Req) → Res r → Prop
  next : T → (r : Req) → Res r → T

section Conforms

variable {Req : Type} {Res : Req → Type} {T L α β : Type} {A : Protocol Req Res T}

/-- The program keeps to the protocol as long as the answers do, and returns in `Q`. -/
def Prog.Conforms (A : Protocol Req Res T) (Q : α → T → Prop) : Prog Req Res α → T → Prop
  | .ret a, t => Q a t
  | .stop, _ => True
  | .call r k, t => A.allowed t r ∧ ∀ x, A.answers t r x → (k x).Conforms A Q (A.next t r x)

theorem Prog.Conforms.mono {Q Q' : α → T → Prop} {m : Prog Req Res α} {t : T} (h : m.Conforms A Q t)
    (hQ : ∀ a t, Q a t → Q' a t) : m.Conforms A Q' t := by
  induction m generalizing t with
  | ret a => exact hQ a t h
  | stop => trivial
  | call r k ih => exact ⟨h.1, fun x hx => ih x (h.2 x hx)⟩

theorem Prog.Conforms.and {Q Q' : α → T → Prop} {m : Prog Req Res α} {t : T} (h : m.Conforms A Q t)
    (h' : m.Conforms A Q' t) : m.Conforms A (fun a t => Q a t ∧ Q' a t) t := by
  induction m generalizing t with
  | ret a => exact ⟨h, h'⟩
  | stop => trivial
  | call r k ih => exact ⟨h.1, fun x hx => ih x (h.2 x hx) (h'.2 x hx)⟩

theorem Prog.Conforms.bind {Q : β → T → Prop} {m : Prog Req Res α} {f : α → Prog Req Res β} {t : T}
    (h : m.Conforms A (fun a t => (f a).Conforms A Q t) t) : (m >>= f).Conforms A Q t := by
  induction m generalizing t with
  | ret a => exact h
  | stop => trivial
  | call r k ih => exact ⟨h.1, fun x hx => ih x (h.2 x hx)⟩

/-- The next request of a program is allowed. -/
theorem Prog.Conforms.allowed {Q : α → T → Prop} {m : Prog Req Res α} {t : T} (h : m.Conforms A Q t) {r : Req}
    (hr : r ∈ m.request) : A.allowed t r := by
  cases m with
  | ret a => cases hr
  | stop => cases hr
  | call r' k =>
    obtain rfl : r' = r := Option.some.inj hr
    exact h.1

/-- From a state of the protocol that is never left and in which everything is allowed. -/
theorem Prog.Conforms.free {Q : α → T → Prop} {t : T} (ha : ∀ r, A.allowed t r)
    (hn : ∀ r x, A.next t r x = t) (hQ : ∀ a, Q a t) (m : Prog Req Res α) : m.Conforms A Q t := by
  induction m with
  | ret a => exact hQ a
  | stop => trivial
  | call r k ih =>
    refine ⟨ha r, fun x _ => ?_⟩
    rw [hn r x]
    exact ih x

/-- A program with memory `l`, from state `t` of the protocol; if it returns, `Q` holds of the
    answer, the memory and the state. -/
def Conforms (A : Protocol Req Res T) (m : StateT L (Prog Req Res) α) (Q : α → L → T → Prop)
    (l : L) (t : T) : Prop :=
  (m.run l).Conforms A (fun x t => Q x.1 x.2 t) t

variable {l : L} {t : T}

theorem Conforms.pure {Q : α → L → T → Prop} {a : α} (h : Q a l t) : Conforms A (pure a) Q l t := h

theorem Conforms.stop {Q : α → L → T → Prop} :
    Conforms A (StateT.lift Prog.stop : StateT L (Prog Req Res) α) Q l t := trivial

theorem Conforms.mono {m : StateT L (Prog Req Res) α} {Q Q' : α → L → T → Prop}
    (h : Conforms A m Q l t) (hQ : ∀ a l t, Q a l t → Q' a l t) : Conforms A m Q' l t :=
  Prog.Conforms.mono h fun x t hx => hQ x.1 x.2 t hx

theorem Conforms.and {m : StateT L (Prog Req Res) α} {Q Q' : α → L → T → Prop}
    (h : Conforms A m Q l t) (h' : Conforms A m Q' l t) :
    Conforms A m (fun a l t => Q a l t ∧ Q' a l t) l t :=
  Prog.Conforms.and h h'

theorem Conforms.bind {m : StateT L (Prog Req Res) α} {f : α → StateT L (Prog Req Res) β}
    {Q : β → L → T → Prop} (h : Conforms A m (fun a l t => Conforms A (f a) Q l t) l t) :
    Conforms A (m >>= f) Q l t :=
  Prog.Conforms.bind h

/-- A program followed by `f`. -/
theorem Conforms.then {m : StateT L (Prog Req Res) α} {f : α → StateT L (Prog Req Res) β}
    {Q : α → L → T → Prop} {Q' : β → L → T → Prop} (h : Conforms A m Q l t)
    (hf : ∀ a l t, Q a l t → Conforms A (f a) Q' l t) : Conforms A (m >>= f) Q' l t :=
  Conforms.bind (h.mono hf)

theorem Conforms.get_bind {f : L → StateT L (Prog Req Res) β} {Q : β → L → T → Prop}
    (h : Conforms A (f l) Q l t) : Conforms A (get >>= f) Q l t := h

theorem Conforms.modify_bind {g : L → L} {f : Unit → StateT L (Prog Req Res) β} {Q : β → L → T → Prop}
    (h : Conforms A (f ()) Q (g l) t) : Conforms A (modify g >>= f) Q l t := h

theorem Conforms.modify {g : L → L} {Q : Unit → L → T → Prop} (h : Q () (g l) t) :
    Conforms A (modify g : StateT L (Prog Req Res) Unit) Q l t := h

/-- One request. -/
theorem Conforms.call {r : Req} {Q : Res r → L → T → Prop} (ha : A.allowed t r)
    (h : ∀ x, A.answers t r x → Q x l (A.next t r x)) :
    Conforms A (StateT.lift (Prog.perform r) : StateT L (Prog Req Res) (Res r)) Q l t :=
  ⟨ha, h⟩

theorem Conforms.ite {c : Prop} [Decidable c] {m m' : StateT L (Prog Req Res) α}
    {Q : α → L → T → Prop} (h : c → Conforms A m Q l t) (h' : ¬ c → Conforms A m' Q l t) :
    Conforms A (if c then m else m') Q l t := by
  split
  · rename_i hc
    exact h hc
  · rename_i hc
    exact h' hc

end Conforms

/-! ## Protocols with further requests -/

section Extends

variable {Req Req' : Type} {Res : Req → Type} {Res' : Req' → Type} {T U L α : Type}
variable {A : Protocol Req Res T} {A' : Protocol (Req ⊕ Req') (SumRes Res Res') (T × U)}

/-- The protocol is the given one for the first kind of requests. -/
structure Protocol.Extends (A' : Protocol (Req ⊕ Req') (SumRes Res Res') (T × U)) (A : Protocol Req Res T) :
    Prop where
  allowed : ∀ t u r, A.allowed t r → A'.allowed (t, u) (.inl r)
  answers : ∀ t u r (x : Res r), A'.answers (t, u) (.inl r) x → A.answers t r x
  next : ∀ t u r (x : Res r), A'.next (t, u) (.inl r) x = (A.next t r x, u)

theorem Prog.Conforms.embed (hA : A'.Extends A) {Q : α → T → Prop} {m : Prog Req Res α} {t : T} (u : U)
    (h : m.Conforms A Q t) : m.embed.Conforms A' (fun a t' => Q a t'.1 ∧ t'.2 = u) (t, u) := by
  induction m generalizing t with
  | ret a => exact ⟨h, rfl⟩
  | stop => trivial
  | call r k ih =>
    refine ⟨hA.allowed t u r h.1, fun (x : Res r) hx => ?_⟩
    have hk := ih x (h.2 x (hA.answers t u r x hx))
    rw [← hA.next t u r x] at hk
    exact hk

theorem Conforms.embed (hA : A'.Extends A) {Q : α → L → T → Prop} {m : StateT L (Prog Req Res) α} {l : L}
    {t : T} (u : U) (h : Conforms A m Q l t) :
    Conforms A' (embedded m) (fun a l' t' => Q a l' t'.1 ∧ t'.2 = u) l (t, u) :=
  Prog.Conforms.embed hA u h

end Extends

/-! ## Programs that keep an invariant of memory and protocol state -/

section Maintains

variable {Req : Type} {Res : Req → Type} {T L α β : Type} {A : Protocol Req Res T} {I : L → T → Prop}
variable {R : α → Prop} {R' : β → Prop}

/-- The program follows the protocol, keeps the invariant, and `R` holds of what it returns. -/
def Maintains (A : Protocol Req Res T) (I : L → T → Prop) (R : α → Prop)
    (m : StateT L (Prog Req Res) α) : Prop :=
  ∀ l t, I l t → Conforms A m (fun a l' t' => R a ∧ I l' t') l t

theorem Maintains.pure {a : α} (ha : R a) : Maintains A I R (pure a : StateT L (Prog Req Res) α) :=
  fun _ _ h => Conforms.pure ⟨ha, h⟩

theorem Maintains.stop : Maintains A I R (StateT.lift Prog.stop : StateT L (Prog Req Res) α) :=
  fun _ _ _ => Conforms.stop

theorem Maintains.bind {m : StateT L (Prog Req Res) α} {f : α → StateT L (Prog Req Res) β}
    (hm : Maintains A I R m) (hf : ∀ a, R a → Maintains A I R' (f a)) : Maintains A I R' (m >>= f) :=
  fun l t h => (hm l t h).then fun a l' t' h' => hf a h'.1 l' t' h'.2

theorem Maintains.mono {R' : α → Prop} {m : StateT L (Prog Req Res) α} (hm : Maintains A I R m)
    (h : ∀ a, R a → R' a) : Maintains A I R' m :=
  fun l t hl => (hm l t hl).mono fun a _ _ h' => ⟨h a h'.1, h'.2⟩

theorem Maintains.get_bind {f : L → StateT L (Prog Req Res) β} (hf : ∀ l, Maintains A I R' (f l)) :
    Maintains A I R' (get >>= f) := fun l t h => hf l l t h

theorem Maintains.modify {g : L → L} (h : ∀ l t, I l t → I (g l) t) :
    Maintains A I (fun _ => True) (modify g : StateT L (Prog Req Res) Unit) :=
  fun l t hl => Conforms.modify ⟨trivial, h l t hl⟩

theorem Maintains.ite {c : Prop} [Decidable c] {m m' : StateT L (Prog Req Res) α}
    (h : c → Maintains A I R m) (h' : ¬ c → Maintains A I R m') :
    Maintains A I R (if c then m else m') := by
  split
  · rename_i hc
    exact h hc
  · rename_i hc
    exact h' hc

end Maintains

/-! ## Programs that make requests of one kind only -/

section Only

variable {Req : Type} {Res : Req → Type} {T L α β : Type} {P : Req → Prop}

/-- Whatever the answers, every request meets `P`. -/
def Prog.Only (P : Req → Prop) : Prog Req Res α → Prop
  | .ret _ => True
  | .stop => True
  | .call r k => P r ∧ ∀ x, (k x).Only P

theorem Prog.Only.bind {m : Prog Req Res α} {f : α → Prog Req Res β} (hm : m.Only P)
    (hf : ∀ a, (f a).Only P) : (m >>= f).Only P := by
  induction m with
  | ret a => exact hf a
  | stop => trivial
  | call r k ih => exact ⟨hm.1, fun x => ih x (hm.2 x)⟩

theorem Prog.Only.conforms {A : Protocol Req Res T} (hP : ∀ t r, P r → A.allowed t r)
    {m : Prog Req Res α} (h : m.Only P) (t : T) : m.Conforms A (fun _ _ => True) t := by
  induction m generalizing t with
  | ret a => trivial
  | stop => trivial
  | call r k ih => exact ⟨hP t r h.1, fun x _ => ih x (h.2 x) _⟩

/-- A program for the first kind of requests makes no others. -/
theorem Prog.Only.embed {Req' : Type} {Res' : Req' → Type} (m : Prog Req Res α) :
    (m.embed : Prog (Req ⊕ Req') (SumRes Res Res') α).Only (fun r => ∃ q, r = .inl q) := by
  induction m with
  | ret a => trivial
  | stop => trivial
  | call r k ih => exact ⟨⟨r, rfl⟩, ih⟩

/-- The program makes no other requests, from any local state. -/
def Only (P : Req → Prop) (m : StateT L (Prog Req Res) α) : Prop := ∀ l, (m.run l).Only P

theorem Only.pure (a : α) : Only P (pure a : StateT L (Prog Req Res) α) := fun _ => trivial

theorem Only.stop : Only P (StateT.lift Prog.stop : StateT L (Prog Req Res) α) := fun _ => trivial

theorem Only.bind {m : StateT L (Prog Req Res) α} {f : α → StateT L (Prog Req Res) β}
    (hm : Only P m) (hf : ∀ a, Only P (f a)) : Only P (m >>= f) :=
  fun l => Prog.Only.bind (hm l) fun x => hf x.1 x.2

theorem Only.get_bind {f : L → StateT L (Prog Req Res) β} (hf : ∀ l, Only P (f l)) :
    Only P (get >>= f) := fun l => hf l l

theorem Only.modify (g : L → L) : Only P (modify g : StateT L (Prog Req Res) Unit) := fun _ => trivial

theorem Only.call {r : Req} (hr : P r) :
    Only P (StateT.lift (Prog.perform r) : StateT L (Prog Req Res) (Res r)) :=
  fun _ => ⟨hr, fun _ => trivial⟩

theorem Only.ite {c : Prop} [Decidable c] {m m' : StateT L (Prog Req Res) α} (h : Only P m)
    (h' : Only P m') : Only P (if c then m else m') := by
  split
  · exact h
  · exact h'

end Only

/-! ## Runs of programs that follow their protocols -/

section Runs

variable {Req : Type} {Res : Req → Type} {Choice S ι T α : Type} [DecidableEq ι]
variable {sv : Service Req Res Choice S} {A : ι → Protocol Req Res T} {Q : ι → α → T → Prop}
variable {Inv : S → (ι → T) → Prop}

/-- A step that the protocol of its program allows keeps the invariant, and is answered as
    promised. -/
def Sound (sv : Service Req Res Choice S) (A : ι → Protocol Req Res T) (Inv : S → (ι → T) → Prop) :
    Prop :=
  ∀ s t i r choice x s', Inv s t → (A i).allowed (t i) r → sv.serve s r choice = some (x, s') →
    (A i).answers (t i) r x ∧ Inv s' (Function.update t i ((A i).next (t i) r x))

theorem step_conforms (hsound : Sound sv A Inv) {c c' : Config Req Res S ι α} {t : ι → T} {i : ι}
    {choice : Choice} (hinv : Inv c.shared t) (h : ∀ i, (c.prog i).Conforms (A i) (Q i) (t i))
    (hstep : c.step sv i choice = some c') :
    ∃ t', Inv c'.shared t' ∧ ∀ i, (c'.prog i).Conforms (A i) (Q i) (t' i) := by
  obtain ⟨r, k, x, s, hp, hs, rfl⟩ := Config.step_eq_some hstep
  have hi := h i
  rw [hp] at hi
  obtain ⟨hx, hinv'⟩ := hsound c.shared t i r choice x s hinv hi.1 hs
  refine ⟨_, hinv', fun j => ?_⟩
  show (Function.update c.prog i (k x) j).Conforms (A j) (Q j) (Function.update t i _ j)
  by_cases hj : j = i
  · subst hj
    rw [Function.update_self, Function.update_self]
    exact hi.2 x hx
  · rw [Function.update_of_ne hj, Function.update_of_ne hj]
    exact h j

/-- Programs that follow their protocols keep the invariant along every run. -/
theorem runFrom_conforms (hsound : Sound sv A Inv) {c c' : Config Req Res S ι α} {t : ι → T}
    {schedule : List (ι × Choice)} (hinv : Inv c.shared t)
    (h : ∀ i, (c.prog i).Conforms (A i) (Q i) (t i)) (hrun : runFrom sv c schedule = some c') :
    ∃ t', Inv c'.shared t' ∧ ∀ i, (c'.prog i).Conforms (A i) (Q i) (t' i) := by
  induction schedule generalizing c t with
  | nil =>
    obtain rfl : c = c' := by simpa [runFrom] using hrun
    exact ⟨t, hinv, h⟩
  | cons e schedule ih =>
    rw [runFrom, List.foldlM_cons] at hrun
    obtain ⟨c1, hc1, hrun⟩ := Option.bind_eq_some_iff.mp hrun
    obtain ⟨t1, hinv1, h1⟩ := step_conforms hsound hinv h hc1
    exact ih hinv1 h1 hrun

end Runs

/-! ## Services that keep a record -/

section Observe

variable {Req : Type} {Res : Req → Type} {Choice S H : Type}

/-- The service together with a record of what happened, which `note` extends at each step. -/
def Service.observe (sv : Service Req Res Choice S) (note : H → S → (r : Req) → Res r → S → H) :
    Service Req Res Choice (S × H) :=
  ⟨fun s r choice =>
    (sv.serve s.1 r choice).map fun result => (result.1, result.2, note s.2 s.1 r result.1 result.2)⟩

theorem serve_observe {sv : Service Req Res Choice S} {note : H → S → (r : Req) → Res r → S → H}
    {s s' : S × H} {r : Req} {choice : Choice} {x : Res r}
    (h : (sv.observe note).serve s r choice = some (x, s')) :
    sv.serve s.1 r choice = some (x, s'.1) ∧ s'.2 = note s.2 s.1 r x s'.1 := by
  obtain ⟨result, hr, he⟩ := Option.map_eq_some_iff.mp h
  cases he
  exact ⟨hr, rfl⟩

end Observe

end HFlat.Lib
