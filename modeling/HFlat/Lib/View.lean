/-
  Partial correctness seen through a view.

  Of the memory of a program and the state of its service, a property may concern only a part.
  `view` takes that part out of both. `Shows` is `Post` with conditions on the view alone: whatever
  the rest of memory and state is, if the program starts with view `v` and returns, its answer and
  the view at the end satisfy `Q`. A program that `Stutters` leaves the view as it is, and is passed
  over in a proof (`Stutters.then`).
-/
import HFlat.Lib.Sequential

namespace HFlat.Lib

variable {Req : Type} {Res : Req → Type} {Choice S L V α β : Type} {sv : Service Req Res Choice S}
variable {view : L → S → V} {v : V}

/-- From every state with the view `v`, what the program returns and the view after it are in `Q`. -/
def Shows (sv : Service Req Res Choice S) (view : L → S → V) (m : StateT L (Prog Req Res) α)
    (Q : α → V → Prop) (v : V) : Prop :=
  ∀ l s, view l s = v → Post sv m (fun a l' s' => Q a (view l' s')) l s

theorem Shows.pure {Q : α → V → Prop} {a : α} (h : Q a v) :
    Shows sv view (pure a : StateT L (Prog Req Res) α) Q v := by
  rintro l s rfl
  exact Post.pure h

theorem Shows.stop {Q : α → V → Prop} :
    Shows sv view (StateT.lift Prog.stop : StateT L (Prog Req Res) α) Q v :=
  fun _ _ _ => Post.stop

/-- A program followed by `f`. -/
theorem Shows.then {m : StateT L (Prog Req Res) α} {f : α → StateT L (Prog Req Res) β}
    {Q : α → V → Prop} {Q' : β → V → Prop} (h : Shows sv view m Q v)
    (hf : ∀ a v, Q a v → Shows sv view (f a) Q' v) : Shows sv view (m >>= f) Q' v :=
  fun l s hv => (h l s hv).then fun a l' s' ha => hf a _ ha l' s' rfl

theorem Shows.mono {m : StateT L (Prog Req Res) α} {Q Q' : α → V → Prop} (h : Shows sv view m Q v)
    (hQ : ∀ a v, Q a v → Q' a v) : Shows sv view m Q' v :=
  fun l s hv => (h l s hv).mono fun a _ _ => hQ a _

theorem Shows.ite {c : Prop} [Decidable c] {m m' : StateT L (Prog Req Res) α} {Q : α → V → Prop}
    (h : c → Shows sv view m Q v) (h' : ¬ c → Shows sv view m' Q v) :
    Shows sv view (if c then m else m') Q v := by
  split
  · rename_i hc
    exact h hc
  · rename_i hc
    exact h' hc

/-- The program reads its memory. -/
theorem Shows.get_bind {f : L → StateT L (Prog Req Res) β} {Q : β → V → Prop}
    (h : ∀ l s, view l s = v → Shows sv view (f l) Q v) : Shows sv view (get >>= f) Q v :=
  fun l s hv => Post.get_bind (h l s hv l s hv)

/-- The program changes its memory, and the view accordingly. -/
theorem Shows.modify_bind {g : L → L} {v' : V} (hg : ∀ l s, view l s = v → view (g l) s = v')
    {f : Unit → StateT L (Prog Req Res) β} {Q : β → V → Prop} (h : Shows sv view (f ()) Q v') :
    Shows sv view (modify g >>= f) Q v :=
  fun l s hv => Post.modify_bind (h _ _ (hg l s hv))

theorem Shows.modify {g : L → L} {v' : V} (hg : ∀ l s, view l s = v → view (g l) s = v')
    {Q : Unit → V → Prop} (h : Q () v') :
    Shows sv view (modify g : StateT L (Prog Req Res) Unit) Q v := by
  intro l s hv
  have hQ : Q () (view (g l) s) := by
    rw [hg l s hv]
    exact h
  exact Post.modify hQ

/-- One request. -/
theorem Shows.call {r : Req} {Q : Res r → V → Prop}
    (h : ∀ l s choice x s', view l s = v → sv.serve s r choice = some (x, s') → Q x (view l s')) :
    Shows sv view (StateT.lift (Prog.perform r) : StateT L (Prog Req Res) (Res r)) Q v :=
  fun l s hv => Post.call fun choice x s' hserve => h l s choice x s' hv hserve

theorem Shows.and {m : StateT L (Prog Req Res) α} {Q Q' : α → V → Prop} (h : Shows sv view m Q v)
    (h' : Shows sv view m Q' v) : Shows sv view m (fun a v => Q a v ∧ Q' a v) v :=
  fun l s hv => (h l s hv).and (h' l s hv)

/-- Conditions on two views, as conditions on both together. -/
theorem Shows.pair {W : Type} {view' : L → S → W} {w : W} {m : StateT L (Prog Req Res) α}
    {Q : α → V → Prop} {Q' : α → W → Prop} (h : Shows sv view m Q v) (h' : Shows sv view' m Q' w) :
    Shows sv (fun l s => (view l s, view' l s)) m (fun a x => Q a x.1 ∧ Q' a x.2) (v, w) :=
  fun l s hv => (h l s (congrArg Prod.fst hv)).and (h' l s (congrArg Prod.snd hv))

/-- The program leaves the view as it is. -/
def Stutters (sv : Service Req Res Choice S) (view : L → S → V) (m : StateT L (Prog Req Res) α) : Prop :=
  ∀ v, Shows sv view m (fun _ v' => v' = v) v

theorem Stutters.shows {m : StateT L (Prog Req Res) α} {Q : α → V → Prop} (hm : Stutters sv view m)
    (h : ∀ a, Q a v) : Shows sv view m Q v :=
  (hm v).mono fun a v' hv => by
    rw [hv]
    exact h a

theorem Stutters.pure (a : α) : Stutters sv view (pure a : StateT L (Prog Req Res) α) :=
  fun _ => Shows.pure rfl

theorem Stutters.stop : Stutters sv view (StateT.lift Prog.stop : StateT L (Prog Req Res) α) :=
  fun _ => Shows.stop

/-- A program that leaves the view as it is, followed by `f`. -/
theorem Stutters.then {m : StateT L (Prog Req Res) α} {f : α → StateT L (Prog Req Res) β}
    {Q : β → V → Prop} (hm : Stutters sv view m) (hf : ∀ a, Shows sv view (f a) Q v) :
    Shows sv view (m >>= f) Q v := by
  refine (hm v).then fun a v' hv => ?_
  subst hv
  exact hf a

theorem Stutters.bind {m : StateT L (Prog Req Res) α} {f : α → StateT L (Prog Req Res) β}
    (hm : Stutters sv view m) (hf : ∀ a, Stutters sv view (f a)) : Stutters sv view (m >>= f) :=
  fun v => hm.then fun a => hf a v

theorem Stutters.ite {c : Prop} [Decidable c] {m m' : StateT L (Prog Req Res) α}
    (h : Stutters sv view m) (h' : Stutters sv view m') : Stutters sv view (if c then m else m') :=
  fun v => Shows.ite (fun _ => h v) fun _ => h' v

theorem Stutters.get_bind {f : L → StateT L (Prog Req Res) β} (h : ∀ l, Stutters sv view (f l)) :
    Stutters sv view (get >>= f) :=
  fun _ => Shows.get_bind fun l _ _ => h l _

theorem Stutters.modify {g : L → L} (hg : ∀ l s, view (g l) s = view l s) :
    Stutters sv view (modify g : StateT L (Prog Req Res) Unit) :=
  fun _ => Shows.modify (fun l s hv => (hg l s).trans hv) rfl

theorem Stutters.call {r : Req}
    (h : ∀ l s choice x s', sv.serve s r choice = some (x, s') → view l s' = view l s) :
    Stutters sv view (StateT.lift (Prog.perform r) : StateT L (Prog Req Res) (Res r)) :=
  fun _ => Shows.call fun l s choice x s' hv hserve => (h l s choice x s' hserve).trans hv

end HFlat.Lib
