/-
  One program that has a service to itself.

  `Returns sv m s a s'` is the big-step run of a program: from state `s` it returns `a` and leaves
  `s'`, for some choices of the service. `Post` is partial correctness for programs with a memory
  of their own; `Preserves F m` says that whatever `m` does, `F` stays true. `restrict` leaves a
  service only those steps that meet a condition, and `embed` lets a program written for one kind
  of requests run among requests of a second kind.
-/
import HFlat.Lib.Prog

namespace HFlat.Lib

/-! ## Runs -/

section Runs

variable {Req : Type} {Res : Req → Type} {Choice S α β : Type} {sv : Service Req Res Choice S}

/-- A program that runs alone returns `a`, from one state of the service to another. -/
inductive Returns (sv : Service Req Res Choice S) : Prog Req Res α → S → α → S → Prop
  | ret (a : α) (s : S) : Returns sv (.ret a) s a s
  | call {r : Req} {k : Res r → Prog Req Res α} {s s' s'' : S} {choice : Choice} {x : Res r} {a : α}
      (hserve : sv.serve s r choice = some (x, s')) (h : Returns sv (k x) s' a s'') :
      Returns sv (.call r k) s a s''

/-- The run for given choices. -/
def Prog.exec (sv : Service Req Res Choice S) : Prog Req Res α → S → List Choice → Option (α × S)
  | .ret a, s, _ => some (a, s)
  | .call r k, s, choice :: choices =>
      match sv.serve s r choice with
      | some (x, s') => (k x).exec sv s' choices
      | none => none
  | _, _, _ => none

theorem returns_of_exec {m : Prog Req Res α} {s s' : S} {choices : List Choice} {a : α}
    (h : m.exec sv s choices = some (a, s')) : Returns sv m s a s' := by
  induction m generalizing s choices with
  | ret b =>
    cases h
    exact Returns.ret _ _
  | stop => cases h
  | call r k ih =>
    cases choices with
    | nil => cases h
    | cons choice choices =>
      simp only [Prog.exec] at h
      split at h
      · rename_i x s1 hserve
        exact Returns.call hserve (ih x h)
      · cases h

theorem returns_ret {a b : α} {s s' : S} (h : Returns sv (.ret a) s b s') : b = a ∧ s' = s := by
  cases h
  exact ⟨rfl, rfl⟩

theorem returns_bind {m : Prog Req Res α} {f : α → Prog Req Res β} {s s' : S} {b : β}
    (h : Returns sv (m >>= f) s b s') : ∃ a s1, Returns sv m s a s1 ∧ Returns sv (f a) s1 b s' := by
  induction m generalizing s with
  | ret a => exact ⟨a, s, Returns.ret a s, h⟩
  | stop => cases h
  | call r k ih =>
    cases h with
    | call hserve h =>
      obtain ⟨a, s1, h1, h2⟩ := ih _ h
      exact ⟨a, s1, Returns.call hserve h1, h2⟩

theorem Returns.bind {m : Prog Req Res α} {f : α → Prog Req Res β} {s s1 s' : S} {a : α} {b : β}
    (h : Returns sv m s a s1) (hf : Returns sv (f a) s1 b s') : Returns sv (m >>= f) s b s' := by
  induction h with
  | ret a s => exact hf
  | call hserve _ ih => exact Returns.call hserve (ih hf)

/-- The service that takes only the steps that meet `ok`. -/
def Service.restrict (sv : Service Req Res Choice S) (ok : S → Req → Choice → Bool) :
    Service Req Res Choice S :=
  ⟨fun s r choice => if ok s r choice then sv.serve s r choice else none⟩

theorem serve_restrict {ok : S → Req → Choice → Bool} {s s' : S} {r : Req} {choice : Choice}
    {x : Res r} (h : (sv.restrict ok).serve s r choice = some (x, s')) :
    ok s r choice = true ∧ sv.serve s r choice = some (x, s') := by
  simp only [Service.restrict] at h
  split at h
  · rename_i hok
    exact ⟨hok, h⟩
  · cases h

/-- Every step of the first service is one of the second. -/
def Service.Within (sv sv' : Service Req Res Choice S) : Prop :=
  ∀ s r choice x s', sv.serve s r choice = some (x, s') → sv'.serve s r choice = some (x, s')

theorem Service.Within.refl (sv : Service Req Res Choice S) : sv.Within sv := fun _ _ _ _ _ h => h

theorem restrict_within (ok : S → Req → Choice → Bool) : (sv.restrict ok).Within sv :=
  fun _ _ _ _ _ h => (serve_restrict h).2

theorem Returns.within {sv sv' : Service Req Res Choice S} (hsv : sv.Within sv') {m : Prog Req Res α}
    {s s' : S} {a : α} (h : Returns sv m s a s') : Returns sv' m s a s' := by
  induction h with
  | ret a s => exact Returns.ret a s
  | call hserve _ ih => exact Returns.call (hsv _ _ _ _ _ hserve) ih

end Runs

/-! ## Programs with a memory of their own -/

section Post

variable {Req : Type} {Res : Req → Type} {Choice S L α β : Type} {sv : Service Req Res Choice S}
variable {l : L} {s : S}

/-- If the program returns, `Q` holds of the answer, the memory and the state. -/
def Post (sv : Service Req Res Choice S) (m : StateT L (Prog Req Res) α) (Q : α → L → S → Prop)
    (l : L) (s : S) : Prop :=
  ∀ a l' s', Returns sv (m.run l) s (a, l') s' → Q a l' s'

theorem Post.pure {Q : α → L → S → Prop} {a : α} (h : Q a l s) :
    Post sv (pure a : StateT L (Prog Req Res) α) Q l s := by
  intro b l' s' hr
  obtain ⟨he, rfl⟩ := returns_ret hr
  cases he
  exact h

theorem Post.bind {m : StateT L (Prog Req Res) α} {f : α → StateT L (Prog Req Res) β}
    {Q : β → L → S → Prop} (h : Post sv m (fun a l s => Post sv (f a) Q l s) l s) :
    Post sv (m >>= f) Q l s := by
  intro b l' s' hr
  obtain ⟨⟨a, l1⟩, s1, h1, h2⟩ := returns_bind hr
  exact h a l1 s1 h1 b l' s' h2

theorem Post.mono {m : StateT L (Prog Req Res) α} {Q Q' : α → L → S → Prop} (h : Post sv m Q l s)
    (hQ : ∀ a l s, Q a l s → Q' a l s) : Post sv m Q' l s :=
  fun a l' s' hr => hQ a l' s' (h a l' s' hr)

theorem Post.within {sv sv' : Service Req Res Choice S} (hsv : sv.Within sv')
    {m : StateT L (Prog Req Res) α} {Q : α → L → S → Prop} (h : Post sv' m Q l s) : Post sv m Q l s :=
  fun a l' s' hr => h a l' s' (hr.within hsv)

/-- A program followed by `f`. -/
theorem Post.then {m : StateT L (Prog Req Res) α} {f : α → StateT L (Prog Req Res) β}
    {Q : α → L → S → Prop} {Q' : β → L → S → Prop} (h : Post sv m Q l s)
    (hf : ∀ a l s, Q a l s → Post sv (f a) Q' l s) : Post sv (m >>= f) Q' l s :=
  Post.bind (h.mono hf)

theorem Post.and {m : StateT L (Prog Req Res) α} {Q Q' : α → L → S → Prop} (h : Post sv m Q l s)
    (h' : Post sv m Q' l s) : Post sv m (fun a l s => Q a l s ∧ Q' a l s) l s :=
  fun a l' s' hr => ⟨h a l' s' hr, h' a l' s' hr⟩

theorem Post.stop {Q : α → L → S → Prop} :
    Post sv (StateT.lift Prog.stop : StateT L (Prog Req Res) α) Q l s := by
  intro a l' s' hr
  cases hr

theorem Post.get_bind {f : L → StateT L (Prog Req Res) β} {Q : β → L → S → Prop}
    (h : Post sv (f l) Q l s) : Post sv (get >>= f) Q l s := h

theorem Post.modify_bind {g : L → L} {f : Unit → StateT L (Prog Req Res) β} {Q : β → L → S → Prop}
    (h : Post sv (f ()) Q (g l) s) : Post sv (modify g >>= f) Q l s := h

theorem Post.set_bind {l' : L} {f : PUnit → StateT L (Prog Req Res) β} {Q : β → L → S → Prop}
    (h : Post sv (f ⟨⟩) Q l' s) : Post sv (set l' >>= f) Q l s := h

theorem Post.modify {g : L → L} {Q : Unit → L → S → Prop} (h : Q () (g l) s) :
    Post sv (modify g : StateT L (Prog Req Res) Unit) Q l s := Post.pure h

/-- One request. -/
theorem Post.call {r : Req} {Q : Res r → L → S → Prop}
    (h : ∀ choice x s', sv.serve s r choice = some (x, s') → Q x l s') :
    Post sv (StateT.lift (Prog.perform r) : StateT L (Prog Req Res) (Res r)) Q l s := by
  intro a l' s' hr
  cases hr with
  | call hserve hr =>
    obtain ⟨he, rfl⟩ := returns_ret hr
    cases he
    exact h _ _ _ hserve

theorem Post.ite {c : Prop} [Decidable c] {m m' : StateT L (Prog Req Res) α} {Q : α → L → S → Prop}
    (h : c → Post sv m Q l s) (h' : ¬ c → Post sv m' Q l s) : Post sv (if c then m else m') Q l s := by
  split
  · rename_i hc
    exact h hc
  · rename_i hc
    exact h' hc

end Post

/-! ## Facts that a program keeps -/

section Preserves

variable {Req : Type} {Res : Req → Type} {Choice S L α β : Type} {sv : Service Req Res Choice S}
variable {F : L → S → Prop}

/-- `F` is true after the program if it was before. -/
def Preserves (sv : Service Req Res Choice S) (F : L → S → Prop) (m : StateT L (Prog Req Res) α) : Prop :=
  ∀ l s, F l s → Post sv m (fun _ l s => F l s) l s

theorem Preserves.pure (a : α) : Preserves sv F (pure a : StateT L (Prog Req Res) α) :=
  fun _ _ h => Post.pure h

theorem Preserves.bind {m : StateT L (Prog Req Res) α} {f : α → StateT L (Prog Req Res) β}
    (hm : Preserves sv F m) (hf : ∀ a, Preserves sv F (f a)) : Preserves sv F (m >>= f) :=
  fun l s h => (hm l s h).then fun a l s h => hf a l s h

theorem Preserves.get : Preserves sv F (get : StateT L (Prog Req Res) L) := fun _ _ h => Post.pure h

theorem Preserves.modify {g : L → L} (h : ∀ l s, F l s → F (g l) s) :
    Preserves sv F (modify g : StateT L (Prog Req Res) Unit) :=
  fun l s hF => Post.modify (h l s hF)

theorem Preserves.stop : Preserves sv F (StateT.lift Prog.stop : StateT L (Prog Req Res) α) :=
  fun _ _ _ => Post.stop

theorem Preserves.call {r : Req}
    (h : ∀ l s, F l s → ∀ choice x s', sv.serve s r choice = some (x, s') → F l s') :
    Preserves sv F (StateT.lift (Prog.perform r) : StateT L (Prog Req Res) (Res r)) :=
  fun l s hF => Post.call fun choice x s' hserve => h l s hF choice x s' hserve

theorem Preserves.within {sv sv' : Service Req Res Choice S} (hsv : sv.Within sv')
    {m : StateT L (Prog Req Res) α} (h : Preserves sv' F m) : Preserves sv F m :=
  fun l s hF => (h l s hF).within hsv

theorem Preserves.ite {c : Prop} [Decidable c] {m m' : StateT L (Prog Req Res) α} (h : Preserves sv F m)
    (h' : Preserves sv F m') : Preserves sv F (if c then m else m') := by
  split
  · exact h
  · exact h'

end Preserves

/-! ## Programs that say more -/

section Erases

variable {Req : Type} {Res : Req → Type} {Choice S L α β γ δ : Type} {sv : Service Req Res Choice S}

theorem returns_bind_iff {m : Prog Req Res α} {f : α → Prog Req Res β} {s s' : S} {b : β} :
    Returns sv (m >>= f) s b s' ↔ ∃ a s1, Returns sv m s a s1 ∧ Returns sv (f a) s1 b s' :=
  ⟨returns_bind, fun ⟨_, _, h1, h2⟩ => h1.bind h2⟩

/-- `m'` does what `m` does, and returns something besides. -/
def Erases (sv : Service Req Res Choice S) (m : StateT L (Prog Req Res) α)
    (m' : StateT L (Prog Req Res) (α × β)) : Prop :=
  ∀ l s a l' s', Returns sv (m.run l) s (a, l') s' ↔ ∃ b, Returns sv (m'.run l) s ((a, b), l') s'

theorem Erases.pure (a : α) (b : β) :
    Erases sv (pure a : StateT L (Prog Req Res) α) (pure (a, b) : StateT L (Prog Req Res) (α × β)) := by
  intro l s a' l' s'
  constructor
  · intro h
    obtain ⟨he, rfl⟩ := returns_ret h
    cases he
    exact ⟨b, Returns.ret _ _⟩
  · rintro ⟨b', h⟩
    obtain ⟨he, rfl⟩ := returns_ret h
    cases he
    exact Returns.ret _ _

theorem Erases.note (m : StateT L (Prog Req Res) α) (b : β) :
    Erases sv m (m >>= fun a => Pure.pure (a, b)) := by
  intro l s a l' s'
  simp only [StateT.run_bind, returns_bind_iff]
  constructor
  · intro h
    exact ⟨b, _, _, h, Returns.ret _ _⟩
  · rintro ⟨b', ⟨⟨a1, l1⟩, s1, hr, hret⟩⟩
    obtain ⟨he, rfl⟩ := returns_ret hret
    cases he
    exact hr

theorem Erases.stop : Erases sv (StateT.lift Prog.stop : StateT L (Prog Req Res) α)
    (StateT.lift Prog.stop : StateT L (Prog Req Res) (α × β)) := by
  intro l s a l' s'
  constructor
  · intro h
    cases h
  · rintro ⟨b, h⟩
    cases h

theorem Erases.bind {m : StateT L (Prog Req Res) γ} {f : γ → StateT L (Prog Req Res) α}
    {f' : γ → StateT L (Prog Req Res) (α × β)} (h : ∀ c, Erases sv (f c) (f' c)) :
    Erases sv (m >>= f) (m >>= f') := by
  intro l s a l' s'
  simp only [StateT.run_bind, returns_bind_iff]
  constructor
  · rintro ⟨⟨c, l1⟩, s1, h1, h2⟩
    obtain ⟨b, h2⟩ := (h c l1 s1 a l' s').mp h2
    exact ⟨b, ⟨c, l1⟩, s1, h1, h2⟩
  · rintro ⟨b, ⟨c, l1⟩, s1, h1, h2⟩
    exact ⟨⟨c, l1⟩, s1, h1, (h c l1 s1 a l' s').mpr ⟨b, h2⟩⟩

theorem Erases.ite {c : Prop} [Decidable c] {m m1 : StateT L (Prog Req Res) α}
    {m' m1' : StateT L (Prog Req Res) (α × β)} (h : Erases sv m m') (h1 : Erases sv m1 m1') :
    Erases sv (if c then m else m1) (if c then m' else m1') := by
  split
  · exact h
  · exact h1

/-- What is returned besides may be extended. -/
theorem Erases.extend {m : StateT L (Prog Req Res) α} {m' : StateT L (Prog Req Res) (α × β)} (g : β → δ)
    (h : Erases sv m m') : Erases sv m (m' >>= fun r => Pure.pure (r.1, g r.2)) := by
  intro l s a l' s'
  rw [h l s a l' s']
  simp only [StateT.run_bind, returns_bind_iff]
  constructor
  · rintro ⟨b, hr⟩
    exact ⟨g b, _, _, hr, Returns.ret _ _⟩
  · rintro ⟨d, ⟨⟨a1, b⟩, l1⟩, s1, hr, hret⟩
    obtain ⟨he, rfl⟩ := returns_ret hret
    cases he
    exact ⟨b, hr⟩

theorem Erases.then {m : StateT L (Prog Req Res) α} {m' : StateT L (Prog Req Res) (α × β)}
    {f : α → StateT L (Prog Req Res) γ} {f' : α × β → StateT L (Prog Req Res) (γ × δ)}
    (h : Erases sv m m') (hf : ∀ a b, Erases sv (f a) (f' (a, b))) : Erases sv (m >>= f) (m' >>= f') := by
  intro l s c l' s'
  simp only [StateT.run_bind, returns_bind_iff]
  constructor
  · rintro ⟨⟨a, l1⟩, s1, h1, h2⟩
    obtain ⟨b, h1⟩ := (h l s a l1 s1).mp h1
    obtain ⟨d, h2⟩ := (hf a b l1 s1 c l' s').mp h2
    exact ⟨d, ⟨(a, b), l1⟩, s1, h1, h2⟩
  · rintro ⟨d, ⟨⟨⟨a, b⟩, l1⟩, s1, h1, h2⟩⟩
    exact ⟨⟨a, l1⟩, s1, (h l s a l1 s1).mpr ⟨b, h1⟩, (hf a b l1 s1 c l' s').mpr ⟨d, h2⟩⟩

end Erases

/-! ## Programs among further requests -/

section Embed

variable {Req Req' : Type} {Res : Req → Type} {Res' : Req' → Type} {Choice S L α β : Type}

/-- Answers to requests of two kinds. -/
def SumRes (Res : Req → Type) (Res' : Req' → Type) : Req ⊕ Req' → Type
  | .inl r => Res r
  | .inr r => Res' r

/-- A program over fewer requests. -/
def Prog.embed : Prog Req Res α → Prog (Req ⊕ Req') (SumRes Res Res') α
  | .ret a => .ret a
  | .call r k => .call (.inl r) fun x => (k x).embed
  | .stop => .stop

/-- The first kind of requests alone. -/
def Service.left (sv : Service (Req ⊕ Req') (SumRes Res Res') Choice S) : Service Req Res Choice S :=
  ⟨fun s r choice => sv.serve s (.inl r) choice⟩

theorem returns_embed {sv : Service (Req ⊕ Req') (SumRes Res Res') Choice S} {m : Prog Req Res α}
    {s s' : S} {a : α} (h : Returns sv m.embed s a s') : Returns sv.left m s a s' := by
  induction m generalizing s with
  | ret b =>
    obtain ⟨rfl, rfl⟩ := returns_ret h
    exact Returns.ret _ _
  | stop => cases h
  | call r k ih =>
    cases h with
    | call hserve h => exact Returns.call hserve (ih _ h)

theorem returns_embed_iff {sv : Service (Req ⊕ Req') (SumRes Res Res') Choice S} {m : Prog Req Res α}
    {s s' : S} {a : α} : Returns sv m.embed s a s' ↔ Returns sv.left m s a s' := by
  refine ⟨returns_embed, fun h => ?_⟩
  induction h with
  | ret a s => exact Returns.ret a s
  | call hserve _ ih => exact Returns.call hserve ih

/-- A program with memory among further requests. -/
def embedded (m : StateT L (Prog Req Res) α) : StateT L (Prog (Req ⊕ Req') (SumRes Res Res')) α :=
  fun l => (m.run l).embed

theorem Post.embed {sv : Service (Req ⊕ Req') (SumRes Res Res') Choice S}
    {m : StateT L (Prog Req Res) α} {Q : α → L → S → Prop} {l : L} {s : S} (h : Post sv.left m Q l s) :
    Post sv (embedded m) Q l s :=
  fun a l' s' hr => h a l' s' (returns_embed hr)

theorem Erases.embed {sv : Service (Req ⊕ Req') (SumRes Res Res') Choice S}
    {m : StateT L (Prog Req Res) α} {m' : StateT L (Prog Req Res) (α × β)} (h : Erases sv.left m m') :
    Erases sv (embedded m) (embedded m') := by
  intro l s a l' s'
  have hleft := h l s a l' s'
  simp only [← returns_embed_iff] at hleft
  exact hleft

theorem Preserves.embed {sv : Service (Req ⊕ Req') (SumRes Res Res') Choice S}
    {m : StateT L (Prog Req Res) α} {F : L → S → Prop} (h : Preserves sv.left F m) :
    Preserves sv F (embedded m) :=
  fun l s hF => Post.embed (h l s hF)

theorem Service.Within.left {sv sv' : Service (Req ⊕ Req') (SumRes Res Res') Choice S}
    (h : sv.Within sv') : sv.left.Within sv'.left :=
  fun s r choice x s' hserve => h s (.inl r) choice x s' hserve

end Embed

end HFlat.Lib
