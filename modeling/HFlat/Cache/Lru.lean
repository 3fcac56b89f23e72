/-
  The LRU cache (`lru_cache.h`): a list of elements, the most recently used first, and the set of
  blocked keys. Every operation holds the mutex and is one step. The clock and the elements that
  are dirty at the moment are given to every operation.

  An element carries the key under which `lookup` refers to it.
-/
import HFlat.Base

namespace HFlat.Cache

/-- An element of the cache: key, data and the time of its last use. -/
structure Entry (κ δ : Type) where
  key : κ
  data : δ
  time : Nat
  deriving DecidableEq, Repr

/-- `LRUcache`: its elements, the latest used first, and the blocked keys. -/
structure LRUcache (κ δ : Type) where
  cache : List (Entry κ δ)
  blockedKeys : List κ
  deriving DecidableEq, Repr

/-- What an operation finds outside the cache: the clock in milliseconds, and what is dirty. -/
structure Moment (δ : Type) where
  now : Nat
  dirty : δ → Bool

/-- The arguments of the constructor. -/
structure Settings (κ δ : Type) where
  expirationTime : Nat
  capacity : Nat
  getKey : δ → κ

variable {κ δ : Type} [DecidableEq κ]

section Operations

variable (settings : Settings κ δ) (moment : Moment δ)

/-- Dirty elements cannot expire. -/
def expired (e : Entry κ δ) : Bool :=
  ¬ moment.dirty e.data ∧ settings.expirationTime ≠ 0 ∧ moment.now - e.time > settings.expirationTime

/-- The element of a key. -/
def find (cache : List (Entry κ δ)) (k : κ) : Option (Entry κ δ) := cache.find? fun e => e.key = k

/-- `remove`. -/
def remove (cache : List (Entry κ δ)) (k : κ) : List (Entry κ δ) := cache.eraseP fun e => e.key = k

/-- The loop of `add` that makes room, with a bound on the number of rounds. The reverse iterator
    refers to the element before position `base`; once that element is erased, the increment of
    the iterator skips the next one, and wraps around at the front of the list. -/
def evict : Nat → Nat → List (Entry κ δ) → List (Entry κ δ)
  | 0, _, cache => cache
  | rounds + 1, base, cache =>
      if base = 0 ∨ cache.length < settings.capacity then cache
      else
        match cache[base - 1]? with
        | none => cache
        | some e =>
            if moment.dirty e.data then evict rounds (base - 1) cache
            else
              let rest := remove cache (settings.getKey e.data)
              evict rounds (if base - 1 = 0 then rest.length else base - 2) rest

/-- The eviction loop of `insert`. -/
def makeRoom (cache : List (Entry κ δ)) : List (Entry κ δ) :=
  evict settings moment ((cache.length + 1) * (cache.length + 1)) cache.length cache

namespace LRUcache

/-- `get`: the element found, and the cache. It waits while the key is blocked. -/
def get (c : LRUcache κ δ) (k : κ) : Option (Option δ × LRUcache κ δ) :=
  if k ∈ c.blockedKeys then none
  else
    match find c.cache k with
    | none => some (none, c)
    | some e =>
        if expired settings moment e then some (none, { c with cache := remove c.cache k })
        else some (some e.data, { c with cache := e :: remove c.cache k })

/-- The end of `add`. -/
def insert (c : LRUcache κ δ) (k : κ) (d : δ) : LRUcache κ δ :=
  ⟨⟨k, d, moment.now⟩ :: makeRoom settings moment c.cache, c.blockedKeys.filter fun x => x ≠ k⟩

/-- `add`; an element that has not expired stays. -/
def add (c : LRUcache κ δ) (k : κ) (d : δ) : Bool × LRUcache κ δ :=
  match find c.cache k with
  | none => (true, c.insert settings moment k d)
  | some e =>
      if expired settings moment e then
        (true, { c with cache := remove c.cache k }.insert settings moment k d)
      else (false, c)

/-- `block`, false if the key is blocked already. -/
def block (c : LRUcache κ δ) (k : κ) : Bool × LRUcache κ δ :=
  if k ∈ c.blockedKeys then (false, c) else (true, { c with blockedKeys := k :: c.blockedKeys })

/-- `revalidate`: the element is as of now. -/
def revalidate (c : LRUcache κ δ) (k : κ) : LRUcache κ δ :=
  { c with cache := c.cache.map fun e => if e.key = k then { e with time := moment.now } else e }

/-- `invalidate`, which also releases the key. -/
def invalidate (c : LRUcache κ δ) (k : κ) : LRUcache κ δ :=
  ⟨remove c.cache k, c.blockedKeys.filter fun x => x ≠ k⟩

end LRUcache

end Operations

/-! ## Keys in the cache -/

section Keys

variable {settings : Settings κ δ} {moment : Moment δ} {c : LRUcache κ δ} {k : κ}

/-- Some element is stored under the key. -/
def Cached (cache : List (Entry κ δ)) (k : κ) : Prop := ∃ e ∈ cache, e.key = k

theorem find_eq_none {cache : List (Entry κ δ)} : find cache k = none ↔ ¬ Cached cache k := by
  unfold find Cached
  rw [List.find?_eq_none]
  simp

instance (cache : List (Entry κ δ)) (k : κ) : Decidable (Cached cache k) :=
  decidable_of_iff (find cache k ≠ none) (by rw [Ne, find_eq_none, not_not])

theorem cached_remove {cache : List (Entry κ δ)} {k' : κ} (h : Cached (remove cache k') k) : Cached cache k := by
  obtain ⟨e, he, hk⟩ := h
  exact ⟨e, List.mem_of_mem_eraseP he, hk⟩

omit [DecidableEq κ] in
theorem cached_cons {cache : List (Entry κ δ)} {e : Entry κ δ} :
    Cached (e :: cache) k ↔ e.key = k ∨ Cached cache k := by
  unfold Cached
  rw [List.exists_mem_cons_iff]

/-- Making room adds nothing. -/
theorem cached_evict {rounds base : Nat} {cache : List (Entry κ δ)}
    (h : Cached (evict settings moment rounds base cache) k) : Cached cache k := by
  induction rounds generalizing base cache with
  | zero => exact h
  | succ rounds ih =>
    unfold evict at h
    split at h
    · exact h
    · split at h
      · exact h
      · split at h
        · exact ih h
        · exact cached_remove (ih h)

theorem find_key {cache : List (Entry κ δ)} {e : Entry κ δ} (h : find cache k = some e) :
    e ∈ cache ∧ e.key = k :=
  ⟨List.mem_of_find?_eq_some h, by simpa using List.find?_some h⟩

/-- `get` adds nothing and blocks nothing. -/
theorem get_spec {c' : LRUcache κ δ} {found : Option δ} (h : c.get settings moment k = some (found, c')) :
    (∀ k', Cached c'.cache k' → Cached c.cache k') ∧ c'.blockedKeys = c.blockedKeys := by
  unfold LRUcache.get at h
  split at h
  · cases h
  · split at h
    · cases h
      exact ⟨fun k' hk => hk, rfl⟩
    · rename_i e he
      split at h
      · cases h
        exact ⟨fun k' hk => cached_remove hk, rfl⟩
      · cases h
        refine ⟨fun k' hk => ?_, rfl⟩
        obtain hk | hk := cached_cons.mp hk
        · exact ⟨e, (find_key he).1, hk⟩
        · exact cached_remove hk

/-- `add` of a key that is not cached succeeds, caches nothing else and releases the key. -/
theorem add_spec (settings : Settings κ δ) (moment : Moment δ) (d : δ) (h : ¬ Cached c.cache k) :
    (c.add settings moment k d).1 = true ∧
      (∀ k', Cached (c.add settings moment k d).2.cache k' → k' = k ∨ Cached c.cache k') ∧
      (c.add settings moment k d).2.blockedKeys = c.blockedKeys.filter fun x => x ≠ k := by
  unfold LRUcache.add
  rw [find_eq_none.mpr h]
  refine ⟨rfl, fun k' hk => ?_, rfl⟩
  obtain hk | hk := cached_cons.mp hk
  · exact Or.inl hk.symm
  · exact Or.inr (cached_evict hk)

theorem cached_revalidate {k' : κ} (h : Cached (c.revalidate moment k').cache k) : Cached c.cache k := by
  obtain ⟨e, he, hk⟩ := h
  obtain ⟨e', he', rfl⟩ := List.mem_map.mp he
  refine ⟨e', he', ?_⟩
  split at hk
  · exact hk
  · exact hk

end Keys

end HFlat.Cache
