/-
  Programs that call a shared service, and runs of several such programs in any interleaving.

  A program (`Prog`) is a tree of calls; every call is one atomic step of the service, and the
  program goes on with its answer. A service (`Service`) answers a call in a state, given a choice
  that stands for everything the caller does not control. `runFrom` executes a schedule: the
  program to step next and the choice for its call.

  `Safe` is the rule for reasoning about one program while the others take steps: `Inv` is the
  invariant of the shared state, `R` (rely) relates the states before and after a step of another
  program, `G` (guarantee) those before and after a step of its own. Facts that `R` keeps survive
  interference. Programs that are all `Safe` at the start, the guarantee of each within the rely
  of the others, stay so along every run (`runFrom_safe`).
-/
import Mathlib.Logic.Relation
import Mathlib.Logic.Function.Basic

namespace HFlat.Lib

/-! ## Programs -/

/-- A program over calls `r` with answers `Res r`. `stop` is a program that takes no further
    step. -/
inductive Prog (Req : Type) (Res : Req → Type) (α : Type) : Type
  | ret (a : α) : Prog Req Res α
  | call (r : Req) (k : Res r → Prog Req Res α) : Prog Req Res α
  | stop : Prog Req Res α

namespace Prog

variable {Req : Type} {Res : Req → Type} {α β : Type}

/-- One program after the other. -/
def bind (m : Prog Req Res α) (f : α → Prog Req Res β) : Prog Req Res β :=
  match m with
  | ret a => f a
  | call r k => call r fun x => (k x).bind f
  | stop => stop

instance : Monad (Prog Req Res) where
  pure := ret
  bind := bind

/-- The program that makes one call. -/
def perform (r : Req) : Prog Req Res (Res r) := call r ret

/-- What a program that has ended returns. -/
def result : Prog Req Res α → Option α
  | ret a => some a
  | _ => none

/-- The call that a program makes next. -/
def request : Prog Req Res α → Option Req
  | call r _ => some r
  | _ => none

theorem result_eq_some {m : Prog Req Res α} {a : α} : m.result = some a ↔ m = ret a := by
  cases m with
  | ret b => simp [result]
  | call r k => simp [result]
  | stop => simp [result]

@[simp] theorem pure_eq (a : α) : (pure a : Prog Req Res α) = ret a := rfl

@[simp] theorem ret_bind (a : α) (f : α → Prog Req Res β) : (ret a : Prog Req Res α) >>= f = f a := rfl

@[simp] theorem stop_bind (f : α → Prog Req Res β) : (stop : Prog Req Res α) >>= f = stop := rfl

@[simp] theorem call_bind (r : Req) (k : Res r → Prog Req Res α) (f : α → Prog Req Res β) :
    (call r k : Prog Req Res α) >>= f = call r fun x => k x >>= f := rfl

@[simp] theorem perform_bind (r : Req) (f : Res r → Prog Req Res β) :
    (perform r : Prog Req Res (Res r)) >>= f = call r f := rfl

theorem bind_bind {γ : Type} (m : Prog Req Res α) (f : α → Prog Req Res β) (g : β → Prog Req Res γ) :
    (m.bind f).bind g = m.bind fun a => (f a).bind g := by
  induction m with
  | ret a => rfl
  | call r k ih => exact congrArg (call r) (funext ih)
  | stop => rfl

end Prog

/-! ## Services and runs -/

/-- A shared state that answers calls one at a time. -/
structure Service (Req : Type) (Res : Req → Type) (Choice S : Type) where
  serve : S → (r : Req) → Choice → Option (Res r × S)

/-- The shared state and the rest of every program. -/
structure Config (Req : Type) (Res : Req → Type) (S ι α : Type) where
  shared : S
  prog : ι → Prog Req Res α

section Runs

variable {Req : Type} {Res : Req → Type} {Choice S ι α : Type} [DecidableEq ι]

/-- One step of program `i`. -/
def Config.step (sv : Service Req Res Choice S) (c : Config Req Res S ι α) (i : ι)
    (choice : Choice) : Option (Config Req Res S ι α) :=
  match c.prog i with
  | .call r k =>
      match sv.serve c.shared r choice with
      | some (x, s) => some ⟨s, Function.update c.prog i (k x)⟩
      | none => none
  | _ => none

/-- A run along a schedule. -/
def runFrom (sv : Service Req Res Choice S) (c : Config Req Res S ι α) (schedule : List (ι × Choice)) :
    Option (Config Req Res S ι α) :=
  schedule.foldlM (fun c e => c.step sv e.1 e.2) c

/-- What a step did. -/
theorem Config.step_eq_some {sv : Service Req Res Choice S} {c c' : Config Req Res S ι α} {i : ι}
    {choice : Choice} (h : c.step sv i choice = some c') :
    ∃ r k x s, c.prog i = .call r k ∧ sv.serve c.shared r choice = some (x, s) ∧
      c' = ⟨s, Function.update c.prog i (k x)⟩ := by
  unfold Config.step at h
  split at h
  · rename_i r k hp
    split at h
    · rename_i x s hs
      exact ⟨r, k, x, s, hp, hs, (Option.some.inj h).symm⟩
    · simp at h
  · simp at h

/-- A program that is not scheduled does nothing. -/
theorem runFrom_prog_eq {sv : Service Req Res Choice S} {c c' : Config Req Res S ι α}
    {schedule : List (ι × Choice)} (h : runFrom sv c schedule = some c') {i : ι}
    (hi : ∀ e ∈ schedule, e.1 ≠ i) : c'.prog i = c.prog i := by
  induction schedule generalizing c with
  | nil =>
    obtain rfl : c = c' := by simpa [runFrom] using h
    rfl
  | cons e schedule ih =>
    rw [runFrom, List.foldlM_cons] at h
    obtain ⟨c1, hc1, h⟩ := Option.bind_eq_some_iff.mp h
    obtain ⟨r, k, x, s, -, -, rfl⟩ := Config.step_eq_some hc1
    refine (ih h fun e' he' => hi e' (List.mem_cons_of_mem _ he')).trans ?_
    exact Function.update_of_ne (hi e List.mem_cons_self).symm _ _

theorem runFrom_append {sv : Service Req Res Choice S} {c c' c'' : Config Req Res S ι α}
    {earlier later : List (ι × Choice)} (h : runFrom sv c earlier = some c')
    (h' : runFrom sv c' later = some c'') : runFrom sv c (earlier ++ later) = some c'' := by
  rw [runFrom, List.foldlM_append]
  exact Option.bind_eq_some_iff.mpr ⟨c', h, h'⟩

/-- Every step of the run meets `P`, a condition on the configuration before the step and the
    program that takes it. -/
def Along (sv : Service Req Res Choice S) (P : Config Req Res S ι α → ι → Prop) :
    Config Req Res S ι α → List (ι × Choice) → Prop
  | _, [] => True
  | c, e :: schedule => P c e.1 ∧ ∀ c', c' ∈ c.step sv e.1 e.2 → Along sv P c' schedule

instance Along.decidable {sv : Service Req Res Choice S} {P : Config Req Res S ι α → ι → Prop}
    [∀ c i, Decidable (P c i)] : ∀ c schedule, Decidable (Along sv P c schedule)
  | _, [] => isTrue trivial
  | c, e :: schedule =>
      have := fun c' => (Along.decidable c' schedule : Decidable (Along sv P c' schedule))
      inferInstanceAs (Decidable (P c e.1 ∧ ∀ c', c' ∈ c.step sv e.1 e.2 → Along sv P c' schedule))

/-- A property that every step of the run keeps holds at its end. -/
theorem Along.keeps {sv : Service Req Res Choice S} {P : Config Req Res S ι α → ι → Prop}
    {F : Config Req Res S ι α → Prop} {c c' : Config Req Res S ι α} {schedule : List (ι × Choice)}
    (h : Along sv P c schedule)
    (hstep : ∀ c i choice c', P c i → F c → c.step sv i choice = some c' → F c')
    (hc : F c) (hrun : runFrom sv c schedule = some c') : F c' := by
  induction schedule generalizing c with
  | nil =>
    obtain rfl : c = c' := by simpa [runFrom] using hrun
    exact hc
  | cons e schedule ih =>
    rw [runFrom, List.foldlM_cons] at hrun
    obtain ⟨c1, hc1, hrun⟩ := Option.bind_eq_some_iff.mp hrun
    exact ih (h.2 c1 hc1) (hstep c e.1 e.2 c1 h.1 hc hc1) hrun

end Runs

/-! ## Reasoning under interference -/

section Safe

variable {Req : Type} {Res : Req → Type} {Choice S ι α β : Type}
variable {sv : Service Req Res Choice S} {Inv : S → Prop} {R G : S → S → Prop}

/-- From state `s` on, whatever other programs do within `R`, every step of the program keeps `Inv`
    and stays within `G`, and if it returns `a` then `Q a` holds from there on. -/
def Safe (sv : Service Req Res Choice S) (Inv : S → Prop) (R G : S → S → Prop) (Q : α → S → Prop) :
    Prog Req Res α → S → Prop
  | .ret a, s => ∀ s', Relation.ReflTransGen R s s' → Inv s' → Q a s'
  | .stop, _ => True
  | .call r k, s => ∀ s', Relation.ReflTransGen R s s' → Inv s' → ∀ choice x s'',
      sv.serve s' r choice = some (x, s'') → Inv s'' ∧ G s' s'' ∧ Safe sv Inv R G Q (k x) s''

theorem Safe.stable {Q : α → S → Prop} {m : Prog Req Res α} {s s' : S}
    (h : Safe sv Inv R G Q m s) (hs : Relation.ReflTransGen R s s') : Safe sv Inv R G Q m s' := by
  cases m with
  | ret a => exact fun s'' hs'' => h s'' (hs.trans hs'')
  | stop => trivial
  | call r k => exact fun s'' hs'' => h s'' (hs.trans hs'')

theorem Safe.mono {Q Q' : α → S → Prop} {m : Prog Req Res α} {s : S}
    (h : Safe sv Inv R G Q m s) (hQ : ∀ a s, Inv s → Q a s → Q' a s) : Safe sv Inv R G Q' m s := by
  induction m generalizing s with
  | ret a => exact fun s' hs' hi => hQ a s' hi (h s' hs' hi)
  | stop => trivial
  | call r k ih =>
    intro s' hs' hi choice x s'' hserve
    obtain ⟨h1, h2, h3⟩ := h s' hs' hi choice x s'' hserve
    exact ⟨h1, h2, ih x h3⟩

theorem Safe.bind {Q : β → S → Prop} {m : Prog Req Res α} {f : α → Prog Req Res β} {s : S}
    (hi : Inv s) (h : Safe sv Inv R G (fun a s => Safe sv Inv R G Q (f a) s) m s) :
    Safe sv Inv R G Q (m >>= f) s := by
  induction m generalizing s with
  | ret a => exact h s Relation.ReflTransGen.refl hi
  | stop => trivial
  | call r k ih =>
    intro s' hs' hi' choice x s'' hserve
    obtain ⟨h1, h2, h3⟩ := h s' hs' hi' choice x s'' hserve
    exact ⟨h1, h2, ih x h1 h3⟩

/-- A fact that no step destroys. -/
def Stable (R : S → S → Prop) (F : S → Prop) : Prop := ∀ s s', R s s' → F s → F s'

theorem Stable.steps {F : S → Prop} (hF : Stable R F) {s s' : S} (hs : Relation.ReflTransGen R s s')
    (h : F s) : F s' := by
  induction hs with
  | refl => exact h
  | tail _ hr ih => exact hF _ _ hr ih

theorem Stable.and {F F' : S → Prop} (hF : Stable R F) (hG : Stable R F') :
    Stable R fun s => F s ∧ F' s :=
  fun s s' hr h => ⟨hF s s' hr h.1, hG s s' hr h.2⟩

theorem stable_true : Stable R fun _ => True := fun _ _ _ _ => trivial

theorem stable_unchanged (F : S → Prop) : Stable (fun s s' => s' = s) F :=
  fun s s' he h => by rw [he]; exact h

/-- Returning a value for which a stable fact is known. -/
theorem Safe.ret {Q : α → S → Prop} {a : α} {s : S} (hQ : Stable R (Q a)) (h : Q a s) :
    Safe sv Inv R G Q (.ret a) s :=
  fun _ hs' _ => hQ.steps hs' h

/-- A call made while the stable fact `F` is known. -/
theorem Safe.call {Q : α → S → Prop} {r : Req} {k : Res r → Prog Req Res α} {F : S → Prop} {s : S}
    (hF : Stable R F) (hs : F s)
    (h : ∀ s', Inv s' → F s' → ∀ choice x s'', sv.serve s' r choice = some (x, s'') →
      Inv s'' ∧ G s' s'' ∧ Safe sv Inv R G Q (k x) s'') : Safe sv Inv R G Q (.call r k) s :=
  fun s' hs' hi => h s' hi (hF.steps hs' hs)

/-- The program made by one call followed by `f`. -/
theorem Safe.perform_bind {Q : β → S → Prop} {r : Req} {f : Res r → Prog Req Res β} {F : S → Prop}
    {s : S} (hF : Stable R F) (hs : F s)
    (h : ∀ s', Inv s' → F s' → ∀ choice x s'', sv.serve s' r choice = some (x, s'') →
      Inv s'' ∧ G s' s'' ∧ Safe sv Inv R G Q (f x) s'') :
    Safe sv Inv R G Q (Prog.perform r >>= f) s :=
  Safe.call hF hs h

theorem Safe.weaken {G' : S → S → Prop} (hG : ∀ s s', G s s' → G' s s') {Q : α → S → Prop}
    {m : Prog Req Res α} {s : S} (h : Safe sv Inv R G Q m s) : Safe sv Inv R G' Q m s := by
  induction m generalizing s with
  | ret a => exact h
  | stop => trivial
  | call r k ih =>
    intro s' hs' hi choice x s'' hserve
    obtain ⟨h1, h2, h3⟩ := h s' hs' hi choice x s'' hserve
    exact ⟨h1, hG s' s'' h2, ih x h3⟩

/-- A fact that neither the program nor the others destroy holds to the end. -/
theorem Safe.frame {Q : α → S → Prop} {m : Prog Req Res α} {F : S → Prop} {s : S}
    (hF : Stable R F) (hG : Stable G F) (hs : F s) (h : Safe sv Inv R G Q m s) :
    Safe sv Inv R G (fun a s => F s ∧ Q a s) m s := by
  induction m generalizing s with
  | ret a => exact fun s' hs' hi => ⟨hF.steps hs' hs, h s' hs' hi⟩
  | stop => trivial
  | call r k ih =>
    intro s' hs' hi choice x s'' hserve
    obtain ⟨h1, h2, h3⟩ := h s' hs' hi choice x s'' hserve
    exact ⟨h1, h2, ih x (hG s' s'' h2 (hF.steps hs' hs)) h3⟩

/-- One step of a program keeps all programs safe. -/
theorem step_safe [DecidableEq ι] {Rely Guar : ι → S → S → Prop} {Q : ι → α → S → Prop}
    {c c' : Config Req Res S ι α} {i : ι} {choice : Choice} (hi : Inv c.shared)
    (hrely : ∀ i j s s', i ≠ j → Guar i s s' → Rely j s s')
    (h : ∀ i, Safe sv Inv (Rely i) (Guar i) (Q i) (c.prog i) c.shared)
    (hstep : c.step sv i choice = some c') :
    Inv c'.shared ∧ Guar i c.shared c'.shared ∧
      ∀ j, Safe sv Inv (Rely j) (Guar j) (Q j) (c'.prog j) c'.shared := by
  obtain ⟨r, k, x, s, hp, hs, rfl⟩ := Config.step_eq_some hstep
  have hsafe := h i
  rw [hp] at hsafe
  obtain ⟨h1, h2, h3⟩ := hsafe c.shared Relation.ReflTransGen.refl hi choice x s hs
  refine ⟨h1, h2, fun j => ?_⟩
  show Safe sv Inv (Rely j) (Guar j) (Q j) (Function.update c.prog i (k x) j) s
  by_cases hj : j = i
  · subst hj
    rw [Function.update_self]
    exact h3
  · rw [Function.update_of_ne hj]
    exact (h j).stable (Relation.ReflTransGen.single (hrely i j _ _ (Ne.symm hj) h2))

/-- Programs that are safe at the start of a run, each within what the others rely on, are safe at
    its end. -/
theorem runFrom_safe [DecidableEq ι] {Rely Guar : ι → S → S → Prop} {Q : ι → α → S → Prop}
    {c c' : Config Req Res S ι α} {schedule : List (ι × Choice)} (hi : Inv c.shared)
    (hrely : ∀ i j s s', i ≠ j → Guar i s s' → Rely j s s')
    (h : ∀ i, Safe sv Inv (Rely i) (Guar i) (Q i) (c.prog i) c.shared)
    (hrun : runFrom sv c schedule = some c') :
    Inv c'.shared ∧ Relation.ReflTransGen (fun s s' => ∃ i, Guar i s s') c.shared c'.shared ∧
      ∀ i, Safe sv Inv (Rely i) (Guar i) (Q i) (c'.prog i) c'.shared := by
  induction schedule generalizing c with
  | nil =>
    obtain rfl : c = c' := by simpa [runFrom] using hrun
    exact ⟨hi, Relation.ReflTransGen.refl, h⟩
  | cons e schedule ih =>
    rw [runFrom, List.foldlM_cons] at hrun
    obtain ⟨c1, hc1, hrun⟩ := Option.bind_eq_some_iff.mp hrun
    obtain ⟨h1, h2, h3⟩ := step_safe hi hrely h hc1
    obtain ⟨g1, g2, g3⟩ := ih h1 h3 hrun
    exact ⟨g1, (Relation.ReflTransGen.single ⟨e.1, h2⟩).trans g2, g3⟩

end Safe

/-! ## Programs with a memory of their own -/

section Tame

variable {Req : Type} {Res : Req → Type} {Choice S L α β : Type}
variable {sv : Service Req Res Choice S} {Inv : S → Prop} {R G : S → S → Prop}

/-- A program with memory `l`, started in shared state `s`: every step keeps `Inv` and stays within
    `G`, and what it returns, its memory and the shared state satisfy `Q` from then on. -/
def Ensures (sv : Service Req Res Choice S) (Inv : S → Prop) (R G : S → S → Prop)
    (m : StateT L (Prog Req Res) α) (Q : α → L → S → Prop) (l : L) (s : S) : Prop :=
  Safe sv Inv R G (fun x s => Q x.1 x.2 s) (m.run l) s

/-- Whatever the memory and the shared state, every step of the program keeps `Inv` and stays
    within `G`. -/
def Tame (sv : Service Req Res Choice S) (Inv : S → Prop) (R G : S → S → Prop)
    (m : StateT L (Prog Req Res) α) : Prop :=
  ∀ l s, Inv s → Ensures sv Inv R G m (fun _ _ _ => True) l s

theorem Ensures.pure {Q : α → L → S → Prop} {a : α} {l : L} {s : S} (hQ : Stable R (Q a l))
    (h : Q a l s) : Ensures sv Inv R G (pure a) Q l s :=
  fun _ hs' _ => hQ.steps hs' h

theorem Ensures.bind {m : StateT L (Prog Req Res) α} {f : α → StateT L (Prog Req Res) β}
    {Q : β → L → S → Prop} {l : L} {s : S} (hi : Inv s)
    (h : Ensures sv Inv R G m (fun a l s => Ensures sv Inv R G (f a) Q l s) l s) :
    Ensures sv Inv R G (m >>= f) Q l s :=
  Safe.bind hi h

theorem Ensures.mono {m : StateT L (Prog Req Res) α} {Q Q' : α → L → S → Prop} {l : L} {s : S}
    (h : Ensures sv Inv R G m Q l s) (hQ : ∀ a l s, Inv s → Q a l s → Q' a l s) :
    Ensures sv Inv R G m Q' l s :=
  Safe.mono h fun x s hi hx => hQ x.1 x.2 s hi hx

theorem Ensures.stop {Q : α → L → S → Prop} {l : L} {s : S} :
    Ensures sv Inv R G (StateT.lift Prog.stop : StateT L (Prog Req Res) α) Q l s := trivial

/-- Reading the memory. -/
theorem Ensures.get_bind {f : L → StateT L (Prog Req Res) β} {Q : β → L → S → Prop} {l : L} {s : S}
    (h : Ensures sv Inv R G (f l) Q l s) : Ensures sv Inv R G (get >>= f) Q l s := h

/-- Writing the memory. -/
theorem Ensures.modify_bind {g : L → L} {f : Unit → StateT L (Prog Req Res) β} {Q : β → L → S → Prop}
    {l : L} {s : S} (h : Ensures sv Inv R G (f ()) Q (g l) s) :
    Ensures sv Inv R G (modify g >>= f) Q l s := h

/-- A call followed by `f`, made while the stable fact `F` is known. -/
theorem Ensures.call_bind {r : Req} {f : Res r → StateT L (Prog Req Res) β} {Q : β → L → S → Prop}
    {F : S → Prop} {l : L} {s : S} (hF : Stable R F) (hs : F s)
    (h : ∀ s', Inv s' → F s' → ∀ choice x s'', sv.serve s' r choice = some (x, s'') →
      Inv s'' ∧ G s' s'' ∧ Ensures sv Inv R G (f x) Q l s'') :
    Ensures sv Inv R G (StateT.lift (Prog.perform r) >>= f) Q l s :=
  fun s' hs' hi => h s' hi (hF.steps hs' hs)

/-- A tame program followed by `f`, run while the stable fact `F` is known. -/
theorem Tame.then {m : StateT L (Prog Req Res) α} {f : α → StateT L (Prog Req Res) β}
    {Q : β → L → S → Prop} {F : S → Prop} {l : L} {s : S} (hm : Tame sv Inv R G m) (hi : Inv s)
    (hF : Stable R F) (hG : Stable G F) (hs : F s)
    (h : ∀ a l' s', Inv s' → F s' → Ensures sv Inv R G (f a) Q l' s') :
    Ensures sv Inv R G (m >>= f) Q l s :=
  Safe.bind hi ((Safe.frame hF hG hs (hm l s hi)).mono fun x s hi hx => h x.1 x.2 s hi hx.1)

theorem Tame.pure (a : α) : Tame sv Inv R G (pure a : StateT L (Prog Req Res) α) :=
  fun _ _ _ _ _ _ => trivial

theorem Tame.bind {m : StateT L (Prog Req Res) α} {f : α → StateT L (Prog Req Res) β}
    (hm : Tame sv Inv R G m) (hf : ∀ a, Tame sv Inv R G (f a)) : Tame sv Inv R G (m >>= f) :=
  fun _ _ hi => hm.then hi stable_true stable_true trivial fun a l s hi _ => hf a l s hi

theorem Tame.get : Tame sv Inv R G (get : StateT L (Prog Req Res) L) :=
  fun _ _ _ _ _ _ => trivial

theorem Tame.modify (f : L → L) : Tame sv Inv R G (modify f : StateT L (Prog Req Res) Unit) :=
  fun _ _ _ _ _ _ => trivial

theorem Tame.stop : Tame sv Inv R G (StateT.lift Prog.stop : StateT L (Prog Req Res) α) :=
  fun _ _ _ => trivial

theorem Tame.call (r : Req) (h : ∀ s, Inv s → ∀ choice x s', sv.serve s r choice = some (x, s') →
    Inv s' ∧ G s s') : Tame sv Inv R G (StateT.lift (Prog.perform r) : StateT L (Prog Req Res) (Res r)) := by
  intro l s _ s' _ hi' choice x s'' hserve
  obtain ⟨h1, h2⟩ := h s' hi' choice x s'' hserve
  exact ⟨h1, h2, fun _ _ _ => trivial⟩

theorem Tame.ite {c : Prop} [Decidable c] {m m' : StateT L (Prog Req Res) α} (h : Tame sv Inv R G m)
    (h' : Tame sv Inv R G m') : Tame sv Inv R G (if c then m else m') := by
  split
  · exact h
  · exact h'

end Tame

end HFlat.Lib
