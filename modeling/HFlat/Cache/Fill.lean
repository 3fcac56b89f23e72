/-
  The threads of one client that fill a cache: `lookup` on the lookup cache, `do_rw` and
  `hflat_truncate` on the data cache, with the operations that invalidate or revalidate a key.

  Every cache operation is one step, and so is the load between `block` and `add`. A thread that
  has blocked a key is expected to add it, with `REQ_TRUE`. A block can be taken when another thread
  has added the key between this thread's `get` and its `block`, and it can be released by another
  thread's `invalidate`; without these two (`orderly`) every `add` succeeds.
-/
import HFlat.Lib.Protocol
import HFlat.Cache.Lru

namespace HFlat.Cache

open HFlat.Lib

variable {ι κ δ : Type}

/-! ## Threads -/

/-- What the load of a key leads to: an element to add (also for a key that does not exist, and for
    a hard link), an error, an inode that asks for a database update, or a record without inode
    number. -/
inductive Loaded (δ : Type) where
  | element (d : δ)
  | error
  | forceUpdate
  | noInode
  deriving DecidableEq, Repr

/-- Operations of thread `me`. -/
inductive Req (ι κ δ : Type) where
  | get (me : ι) (k : κ)
  | block (me : ι) (k : κ)
  | load (me : ι) (k : κ)
  | add (me : ι) (k : κ) (d : δ)
  | revalidate (me : ι) (k : κ)
  | invalidate (me : ι) (k : κ)

/-- What the service answers to a request. -/
def Res : Req ι κ δ → Type
  | .get _ _ => Option δ
  | .block _ _ => Bool
  | .load _ _ => Loaded δ
  | .add _ _ _ => Bool
  | .revalidate _ _ => Unit
  | .invalidate _ _ => Unit

/-- Computations of one thread. -/
abbrev Thread (ι κ δ α : Type) := Prog (Req ι κ δ) Res α

/-- One request. -/
def request (r : Req ι κ δ) : Thread ι κ δ (Res r) := Prog.perform r

/-- The cache fill of `lookup`, with a bound on the number of rounds. -/
def fillLookup (me : ι) (k : κ) : Nat → Thread ι κ δ Unit
  | 0 => .stop
  | rounds + 1 => do
      let found : Option δ ← request (.get me k)
      if found.isSome then return ()
      let blocked : Bool ← request (.block me k)
      if ¬ blocked then fillLookup me k rounds
      else
        let loaded : Loaded δ ← request (.load me k)
        match loaded with
        | .element d =>
            let added : Bool ← request (.add me k d)
            if added then return () else .stop
        | .error => request (.invalidate me k)
        | .forceUpdate => request (.invalidate me k)
        | .noInode => return ()

/-- The cache fill of `do_rw` and of `hflat_truncate`, with a bound on the number of rounds. -/
def fillData (me : ι) (k : κ) : Nat → Thread ι κ δ Unit
  | 0 => .stop
  | rounds + 1 => do
      let found : Option δ ← request (.get me k)
      if found.isSome then return ()
      let blocked : Bool ← request (.block me k)
      if ¬ blocked then fillData me k rounds
      else
        let loaded : Loaded δ ← request (.load me k)
        match loaded with
        | .element d =>
            let added : Bool ← request (.add me k d)
            if added then fillData me k rounds else .stop
        | _ => request (.invalidate me k)

/-- What a call does with a cache. The keys that it goes on to depend on what it has loaded: a
    session is any list of actions. -/
inductive Action (κ : Type) where
  | lookup (k : κ) (rounds : Nat)
  | rw (k : κ) (rounds : Nat)
  /-- `put_metadata`: revalidates the key if its `Put` succeeds, else invalidates it -/
  | putMetadata (k : κ) (ok : Bool)
  | deleteMetadata (k : κ)
  | putData (k : κ)
  | deleteData (k : κ)
  /-- `hflat_truncate` on a block past the end -/
  | dropBlock (k : κ)
  deriving DecidableEq, Repr

/-- The accesses of an action. -/
def act (me : ι) : Action κ → Thread ι κ δ Unit
  | .lookup k rounds => fillLookup me k rounds
  | .rw k rounds => fillData me k rounds
  | .putMetadata k ok => if ok then request (.revalidate me k) else request (.invalidate me k)
  | .deleteMetadata k => request (.invalidate me k)
  | .putData k => request (.revalidate me k)
  | .deleteData k => request (.invalidate me k)
  | .dropBlock k => do
      let found : Option δ ← request (.get me k)
      if found.isSome then
        let _ ← request (.invalidate me k)
        request (.invalidate me k)
      else request (.invalidate me k)

/-- One action after the other. -/
def session (me : ι) : List (Action κ) → Thread ι κ δ Unit
  | [] => return ()
  | a :: actions => do
      act me a
      session me actions

/-! ## Runs -/

/-- The time and the dirty elements at a call of the cache, and what a load finds. -/
structure Choice (δ : Type) where
  moment : Moment δ
  loaded : Loaded δ

section Service

variable [DecidableEq ι] [DecidableEq κ] (settings : Settings κ δ)

/-- One access of a thread. -/
def serve (c : LRUcache κ δ) : (r : Req ι κ δ) → Choice δ → Option (Res r × LRUcache κ δ)
  | .get _ k, choice => c.get settings choice.moment k
  | .block _ k, _ => some (c.block k)
  | .load _ _, choice => some (choice.loaded, c)
  | .add _ k d, choice => some (c.add settings choice.moment k d)
  | .revalidate _ k, choice => some ((), c.revalidate choice.moment k)
  | .invalidate _ k, _ => some ((), c.invalidate k)

/-- The thread that has blocked a key last. -/
def noteOwner (owner : κ → Option ι) (_ : LRUcache κ δ) : (r : Req ι κ δ) → Res r → LRUcache κ δ → κ → Option ι
  | .block me k, answer, _ =>
      let answer : Bool := answer
      if answer then Function.update owner k (some me) else owner
  | _, _, _ => owner

/-- The cache, and the thread that has blocked each key. -/
abbrev Observed (ι κ δ : Type) := LRUcache κ δ × (κ → Option ι)

/-- The cache that all threads access. -/
def service : Service (Req ι κ δ) Res (Choice δ) (Observed ι κ δ) :=
  (⟨serve settings⟩ : Service (Req ι κ δ) Res (Choice δ) (LRUcache κ δ)).observe noteOwner

/-- A key is not in the cache when a thread blocks it, and only that thread invalidates it while it
    is blocked. -/
def orderly (s : Observed ι κ δ) : Req ι κ δ → Choice δ → Bool
  | .block _ k, _ => k ∈ s.1.blockedKeys ∨ ¬ Cached s.1.cache k
  | .invalidate me k, _ => k ∈ s.1.blockedKeys → s.2 k = some me
  | _, _ => true

end Service

/-- Threads on an empty cache. -/
def start (actions : ι → List (Action κ)) : Config (Req ι κ δ) Res (Observed ι κ δ) ι Unit :=
  ⟨(⟨[], []⟩, fun _ => none), fun i => session i (actions i)⟩

/-! ## What a thread may do -/

/-- The state of a thread: the key that it fills. -/
def protocol (i : ι) : Protocol (Req ι κ δ) Res (Option κ) where
  allowed t
    | .get me _ => me = i ∧ t = none
    | .block me _ => me = i ∧ t = none
    | .load me _ => me = i
    | .add me k _ => me = i ∧ t = some k
    | .revalidate me _ => me = i ∧ t = none
    | .invalidate me k => me = i ∧ (t = none ∨ t = some k)
  answers _
    | .add _ _ _, answer =>
        let answer : Bool := answer
        answer = true
    | _, _ => True
  next t
    | .block _ k, answer =>
        let answer : Bool := answer
        if answer then some k else t
    | .load _ _, answer =>
        let answer : Loaded δ := answer
        match answer with
        | .noInode => none
        | _ => t
    | .add _ _ _, _ => none
    | .invalidate _ _, _ => none
    | _, _ => t

section Conforms

variable {i : ι}

theorem fillLookup_conforms (k : κ) (rounds : Nat) :
    (fillLookup i k rounds : Thread ι κ δ Unit).Conforms (protocol i) (fun _ t => t = none) none := by
  induction rounds with
  | zero => trivial
  | succ rounds ih =>
    refine ⟨⟨rfl, rfl⟩, fun (found : Option δ) _ => ?_⟩
    show Prog.Conforms (protocol i) _ (if found.isSome then _ else _) none
    split
    · rfl
    · refine ⟨⟨rfl, rfl⟩, fun (blocked : Bool) _ => ?_⟩
      cases blocked with
      | false => exact ih
      | true =>
        refine ⟨rfl, fun (loaded : Loaded δ) _ => ?_⟩
        cases loaded with
        | element d =>
          refine ⟨⟨rfl, rfl⟩, fun (added : Bool) (hadded : added = true) => ?_⟩
          subst hadded
          rfl
        | error => exact ⟨⟨rfl, Or.inr rfl⟩, fun _ _ => rfl⟩
        | forceUpdate => exact ⟨⟨rfl, Or.inr rfl⟩, fun _ _ => rfl⟩
        | noInode => rfl

theorem fillData_conforms (k : κ) (rounds : Nat) :
    (fillData i k rounds : Thread ι κ δ Unit).Conforms (protocol i) (fun _ t => t = none) none := by
  induction rounds with
  | zero => trivial
  | succ rounds ih =>
    refine ⟨⟨rfl, rfl⟩, fun (found : Option δ) _ => ?_⟩
    show Prog.Conforms (protocol i) _ (if found.isSome then _ else _) none
    split
    · rfl
    · refine ⟨⟨rfl, rfl⟩, fun (blocked : Bool) _ => ?_⟩
      cases blocked with
      | false => exact ih
      | true =>
        refine ⟨rfl, fun (loaded : Loaded δ) _ => ?_⟩
        cases loaded with
        | element d =>
          refine ⟨⟨rfl, rfl⟩, fun (added : Bool) (hadded : added = true) => ?_⟩
          subst hadded
          exact ih
        | error => exact ⟨⟨rfl, Or.inr rfl⟩, fun _ _ => rfl⟩
        | forceUpdate => exact ⟨⟨rfl, Or.inr rfl⟩, fun _ _ => rfl⟩
        | noInode => exact ⟨⟨rfl, Or.inl rfl⟩, fun _ _ => rfl⟩

theorem act_conforms (a : Action κ) :
    (act i a : Thread ι κ δ Unit).Conforms (protocol i) (fun _ t => t = none) none := by
  have hinvalidate : ∀ k, (request (.invalidate i k) : Thread ι κ δ Unit).Conforms (protocol i)
      (fun _ t => t = none) none := fun k => ⟨⟨rfl, Or.inl rfl⟩, fun _ _ => rfl⟩
  have hrevalidate : ∀ k, (request (.revalidate i k) : Thread ι κ δ Unit).Conforms (protocol i)
      (fun _ t => t = none) none := fun k => ⟨⟨rfl, rfl⟩, fun _ _ => rfl⟩
  cases a with
  | lookup k rounds => exact fillLookup_conforms k rounds
  | rw k rounds => exact fillData_conforms k rounds
  | putMetadata k ok =>
    cases ok with
    | true => exact hrevalidate k
    | false => exact hinvalidate k
  | deleteMetadata k => exact hinvalidate k
  | putData k => exact hrevalidate k
  | deleteData k => exact hinvalidate k
  | dropBlock k =>
    refine ⟨⟨rfl, rfl⟩, fun (found : Option δ) _ => ?_⟩
    cases found with
    | some d => exact ⟨⟨rfl, Or.inl rfl⟩, fun _ _ => hinvalidate k⟩
    | none => exact hinvalidate k

theorem session_conforms (actions : List (Action κ)) :
    (session i actions : Thread ι κ δ Unit).Conforms (protocol i) (fun _ t => t = none) none := by
  induction actions with
  | nil => rfl
  | cons a actions ih =>
    refine Prog.Conforms.bind ((act_conforms a).mono fun _ t ht => ?_)
    rw [ht]
    exact ih

end Conforms

/-! ## The invariant -/

section Invariant

variable [DecidableEq ι] [DecidableEq κ] {settings : Settings κ δ}

/-- A blocked key is not in the cache, and a thread that fills a key has blocked it. -/
structure FillInv (s : Observed ι κ δ) (t : ι → Option κ) : Prop where
  absent : ∀ k ∈ s.1.blockedKeys, ¬ Cached s.1.cache k
  filling : ∀ i k, t i = some k → k ∈ s.1.blockedKeys ∧ s.2 k = some i

variable {s s' : Observed ι κ δ} {t : ι → Option κ} {i : ι} {k : κ}

omit [DecidableEq ι] [DecidableEq κ] in
/-- A step that blocks and releases nothing and caches no key. -/
theorem FillInv.same (h : FillInv s t) (hblocked : s'.1.blockedKeys = s.1.blockedKeys)
    (hcached : ∀ k, Cached s'.1.cache k → Cached s.1.cache k) (howner : s'.2 = s.2) :
    FillInv s' t := by
  refine ⟨fun k hk hc => ?_, fun i k ht => ?_⟩
  · rw [hblocked] at hk
    exact h.absent k hk (hcached k hc)
  · rw [hblocked, howner]
    exact h.filling i k ht

omit [DecidableEq κ] in
/-- A thread stops filling. -/
theorem FillInv.leave (h : FillInv s t) : FillInv s (Function.update t i none) := by
  refine ⟨h.absent, fun j k hj => ?_⟩
  by_cases hji : j = i
  · subst hji
    rw [Function.update_self] at hj
    cases hj
  · rw [Function.update_of_ne hji] at hj
    exact h.filling j k hj

/-- Key `k` is released, by the thread that has blocked it or when no thread fills it, and no other
    key is cached. -/
theorem FillInv.release (h : FillInv s t)
    (hblocked : s'.1.blockedKeys = s.1.blockedKeys.filter fun x => x ≠ k)
    (hcached : ∀ k', Cached s'.1.cache k' → k' = k ∨ Cached s.1.cache k') (howner : s'.2 = s.2)
    (hmine : k ∈ s.1.blockedKeys → s.2 k = some i) : FillInv s' (Function.update t i none) := by
  refine ⟨fun k' hk' hc => ?_, fun j k' hj => ?_⟩
  · rw [hblocked] at hk'
    obtain ⟨hmem, hne⟩ := List.mem_filter.mp hk'
    obtain he | hc := hcached k' hc
    · exact of_decide_eq_true hne he
    · exact h.absent k' hmem hc
  · by_cases hji : j = i
    · subst hji
      rw [Function.update_self] at hj
      cases hj
    · rw [Function.update_of_ne hji] at hj
      obtain ⟨hmem, how⟩ := h.filling j k' hj
      have hne : k' ≠ k := by
        rintro rfl
        rw [hmine hmem] at how
        exact hji (Option.some.inj how).symm
      rw [hblocked, howner]
      exact ⟨List.mem_filter.mpr ⟨hmem, decide_eq_true hne⟩, how⟩

/-- A thread blocks a key that is not in the cache. -/
theorem FillInv.block (h : FillInv s t) (hk : k ∉ s.1.blockedKeys) (hc : ¬ Cached s.1.cache k) :
    FillInv ({ s.1 with blockedKeys := k :: s.1.blockedKeys }, Function.update s.2 k (some i))
      (Function.update t i (some k)) := by
  refine ⟨fun k' hk' => ?_, fun j k' hj => ?_⟩
  · obtain rfl | hk' := List.mem_cons.mp hk'
    · exact hc
    · exact h.absent k' hk'
  · by_cases hji : j = i
    · subst hji
      rw [Function.update_self] at hj
      cases hj
      exact ⟨List.mem_cons_self, Function.update_self _ _ _⟩
    · rw [Function.update_of_ne hji] at hj
      obtain ⟨hmem, how⟩ := h.filling j k' hj
      have hne : k' ≠ k := by
        rintro rfl
        exact hk hmem
      exact ⟨List.mem_cons_of_mem _ hmem, (Function.update_of_ne hne _ _).trans how⟩

theorem sound : Sound ((service settings).restrict orderly) (protocol (ι := ι) (κ := κ) (δ := δ)) FillInv := by
  intro s t i r choice x s' hinv hallowed hserve
  obtain ⟨hok, hserve⟩ := serve_restrict hserve
  obtain ⟨hserve, howner⟩ := serve_observe hserve
  obtain ⟨c', owner'⟩ := s'
  obtain rfl : owner' = noteOwner s.2 s.1 r x c' := howner
  cases r with
  | get me k =>
    obtain ⟨hcached, hblocked⟩ := get_spec hserve
    refine ⟨trivial, ?_⟩
    show FillInv _ (Function.update t i (t i))
    rw [Function.update_eq_self]
    exact hinv.same hblocked hcached rfl
  | block me k =>
    obtain ⟨rfl, ht⟩ := hallowed
    obtain ⟨rfl, rfl⟩ : (s.1.block k).1 = x ∧ (s.1.block k).2 = c' := Prod.ext_iff.mp (Option.some.inj hserve)
    refine ⟨trivial, ?_⟩
    by_cases hk : k ∈ s.1.blockedKeys
    · have hblock : s.1.block k = (false, s.1) := if_pos hk
      rw [hblock]
      show FillInv s (Function.update t me (t me))
      rw [Function.update_eq_self]
      exact hinv
    · have hblock : s.1.block k = (true, { s.1 with blockedKeys := k :: s.1.blockedKeys }) := if_neg hk
      have hc : ¬ Cached s.1.cache k := (of_decide_eq_true hok).resolve_left hk
      rw [hblock]
      exact hinv.block hk hc
  | load me k =>
    cases hserve
    refine ⟨trivial, ?_⟩
    cases hloaded : choice.loaded with
    | noInode => exact hinv.leave
    | element d =>
      show FillInv s (Function.update t i (t i))
      rw [Function.update_eq_self]
      exact hinv
    | error =>
      show FillInv s (Function.update t i (t i))
      rw [Function.update_eq_self]
      exact hinv
    | forceUpdate =>
      show FillInv s (Function.update t i (t i))
      rw [Function.update_eq_self]
      exact hinv
  | add me k d =>
    obtain ⟨rfl, ht⟩ := hallowed
    obtain ⟨rfl, rfl⟩ : (s.1.add settings choice.moment k d).1 = x ∧
      (s.1.add settings choice.moment k d).2 = c' := Prod.ext_iff.mp (Option.some.inj hserve)
    obtain ⟨hmem, how⟩ := hinv.filling me k ht
    obtain ⟨hadded, hcached, hblocked⟩ := add_spec settings choice.moment d (hinv.absent k hmem)
    exact ⟨hadded, hinv.release hblocked hcached rfl fun _ => how⟩
  | revalidate me k =>
    cases hserve
    refine ⟨trivial, ?_⟩
    show FillInv _ (Function.update t i (t i))
    rw [Function.update_eq_self]
    exact hinv.same rfl (fun _ => cached_revalidate) rfl
  | invalidate me k =>
    obtain ⟨rfl, -⟩ := hallowed
    cases hserve
    exact ⟨trivial, hinv.release rfl (fun _ hc => Or.inr (cached_remove hc)) rfl (of_decide_eq_true hok)⟩

end Invariant

/-! ## Every fill succeeds -/

/-- The key and element that a thread adds next. -/
def adding {α : Type} : Thread ι κ δ α → Option (κ × δ)
  | .call (.add _ k d) _ => some (k, d)
  | _ => none

theorem allowed_of_adding {α : Type} {i : ι} {Q : α → Option κ → Prop} {m : Thread ι κ δ α} {t : Option κ}
    {k : κ} {d : δ} (hm : m.Conforms (protocol i) Q t) (h : adding m = some (k, d)) : t = some k := by
  cases m with
  | ret a => cases h
  | stop => cases h
  | call r next =>
    cases r with
    | add me k' d' =>
      cases h
      exact hm.1.2
    | get me k' => cases h
    | block me k' => cases h
    | load me k' => cases h
    | revalidate me k' => cases h
    | invalidate me k' => cases h

section Fill

variable [DecidableEq ι] [DecidableEq κ]

/-- In an orderly run a thread that is about to add a key finds it absent, and succeeds. -/
theorem fills_never_collide (settings : Settings κ δ) (actions : ι → List (Action κ))
    {schedule : List (ι × Choice δ)} {c : Config (Req ι κ δ) Res (Observed ι κ δ) ι Unit}
    (hrun : runFrom ((service settings).restrict orderly) (start actions) schedule = some c) {i : ι} {k : κ}
    {d : δ} (hadd : adding (c.prog i) = some (k, d)) (moment : Moment δ) :
    ¬ Cached c.shared.1.cache k ∧ (c.shared.1.add settings moment k d).1 = true := by
  have hinv : FillInv (start actions : Config (Req ι κ δ) Res (Observed ι κ δ) ι Unit).shared
      fun _ => none := ⟨fun k hk => absurd hk List.not_mem_nil, fun i k hk => absurd hk (Option.some_ne_none k).symm⟩
  obtain ⟨t, hinv, hprog⟩ := runFrom_conforms sound hinv (fun i => session_conforms (actions i)) hrun
  have habsent := hinv.absent k (hinv.filling i k (allowed_of_adding (hprog i) hadd)).1
  exact ⟨habsent, (add_spec settings moment d habsent).1⟩

end Fill

/-- Elements that never expire within a run, in a cache that is large enough. -/
def largeCache : Settings Nat Nat := ⟨1000, 100, id⟩

/-- A load that finds element 7; the clock stands still and nothing is dirty. -/
def loads : Choice Nat := ⟨⟨0, fun _ => false⟩, .element 7⟩

/-- One thread looks key 7 up, another invalidates it and then looks it up too. -/
def lookupAfterInvalidate : Option (Config (Req Bool Nat Nat) Res (Observed Bool Nat Nat) Bool Unit) :=
  runFrom ((service largeCache).restrict orderly)
    (start fun i => if i then [.lookup 7 2] else [.deleteMetadata 7, .lookup 7 2])
    [(true, loads), (true, loads), (true, loads), (true, loads), (false, loads), (false, loads),
      (false, loads), (false, loads)]

theorem fills_never_collide_two_threads :
    ∃ c, lookupAfterInvalidate = some c ∧ adding (c.prog false) = some (7, 7) ∧
      (c.shared.1.add largeCache loads.moment 7 7).1 = true := by
  have hc : lookupAfterInvalidate.any fun c => adding (c.prog false) = some (7, 7) := by decide +kernel
  obtain ⟨c, hc, h⟩ := (Option.any_eq_true _ _).mp hc
  have hadd := of_decide_eq_true h
  exact ⟨c, hc, hadd, (fills_never_collide largeCache _ hc hadd loads.moment).2⟩

/-- Both threads miss key 7; the second one blocks it when the first one has added it. -/
def lookupTwice : Option (Config (Req Bool Nat Nat) Res (Observed Bool Nat Nat) Bool Unit) :=
  runFrom (service largeCache) (start fun _ => [.lookup 7 2])
    [(true, loads), (false, loads), (true, loads), (true, loads), (true, loads), (false, loads),
      (false, loads)]

theorem fills_collide_after_common_miss :
    ¬ ∀ (actions : Bool → List (Action Nat)) (schedule : List (Bool × Choice Nat))
      (c : Config (Req Bool Nat Nat) Res (Observed Bool Nat Nat) Bool Unit) (i : Bool) (k d : Nat)
      (moment : Moment Nat), runFrom (service largeCache) (start actions) schedule = some c →
        adding (c.prog i) = some (k, d) → (c.shared.1.add largeCache moment k d).1 = true := by
  intro h
  have hc : lookupTwice.any fun c => adding (c.prog false) = some (7, 7) ∧
      (c.shared.1.add largeCache loads.moment 7 7).1 = false := by decide +kernel
  obtain ⟨c, hc, hadd⟩ := (Option.any_eq_true _ _).mp hc
  obtain ⟨hadd, hfails⟩ := of_decide_eq_true hadd
  have hadds := h _ _ c false 7 7 loads.moment hc hadd
  rw [hfails] at hadds
  cases hadds

end HFlat.Cache
