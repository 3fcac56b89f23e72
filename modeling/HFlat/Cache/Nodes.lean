/-
  The LRU cache (`lru_cache.h`) with the nodes of its list and the map `lookup` from keys to nodes.

  `Rep` relates list and map: they are in bijection, and every node is found under the key of its
  element. Along the operations it never happens that the end of the list or an iterator of an
  erased node is dereferenced (`Fault`), and they do to the list what the operations of `Lru` do
  (`toLRU`). The loop of `add` is followed by splitting the list at its reverse iterator, whose base
  is the first node behind the split.
-/
import Mathlib.Data.List.Induction
import Mathlib.Tactic.Ring
import HFlat.Lib.Ring
import HFlat.Cache.Lru

namespace HFlat.Cache

open HFlat.Lib

/-- `cache_entry`: data, and the time of the last validation. -/
abbrev CacheNode (δ : Type) := Node (δ × Nat)

/-- The fields of `LRUcache`: the circular list, the index and the blocked keys. -/
structure Nodes (κ δ : Type) where
  cache : List (CacheNode δ)
  lookup : κ → Option Nat
  blockedKeys : List κ
  /-- the address of the next new node -/
  next : Nat

/-- What goes wrong at an iterator: the end is dereferenced, its node is gone, or the loop has no round
    left. -/
inductive Fault where
  | endDereferenced
  | dangling
  | rounds
  deriving DecidableEq, Repr

variable {κ δ : Type} [DecidableEq κ]

namespace Nodes

/-- The cache after its construction. -/
def empty : Nodes κ δ := ⟨[], fun _ => none, [], 0⟩

/-- The node at an iterator; `none` is the end. -/
def deref (c : Nodes κ δ) : Option Nat → Except Fault (CacheNode δ)
  | none => .error .endDereferenced
  | some a =>
      match Ring.node c.cache a with
      | some n => .ok n
      | none => .error .dangling

/-- `lookup[k]->`. -/
def entry (c : Nodes κ δ) (k : κ) : Except Fault (CacheNode δ) :=
  match c.lookup k with
  | some a => c.deref (some a)
  | none => .error .dangling

/-- `remove`: the node leaves the list and the index. -/
def remove (c : Nodes κ δ) (k : κ) : Except Fault (Nodes κ δ) := do
  let n ← c.entry k
  return { c with
    cache := Ring.erase c.cache n.address
    lookup := Function.update c.lookup k none }

section Operations

variable (settings : Settings κ δ) (moment : Moment δ)

/-- The element in the model with keys. -/
def toEntry (n : CacheNode δ) : Entry κ δ := ⟨settings.getKey n.value.1, n.value.1, n.value.2⟩

/-- The loop of `add` that makes room, with a bound on the number of rounds. `base` is the base of
    the reverse iterator, which refers to the node before. -/
def evict : Nat → Option Nat → Nodes κ δ → Except Fault (Nodes κ δ)
  | 0, _, _ => .error .rounds
  | rounds + 1, base, c =>
      if base = Ring.first c.cache ∨ c.cache.length < settings.capacity then .ok c
      else do
        let n ← c.deref (Ring.prev c.cache base)
        if moment.dirty n.value.1 then evict rounds (Ring.prev c.cache base) c
        else
          let c ← c.remove (settings.getKey n.value.1)
          evict rounds (Ring.prev c.cache base) c

/-- The loop starts at `cache.rbegin()`. -/
def makeRoom (c : Nodes κ δ) : Except Fault (Nodes κ δ) :=
  evict settings moment ((c.cache.length + 1) * (c.cache.length + 1)) none c

/-- `get`: the element found, and the cache. It waits while the key is blocked. -/
def get (c : Nodes κ δ) (k : κ) : Option (Except Fault (Option δ × Nodes κ δ)) :=
  if k ∈ c.blockedKeys then none
  else if c.lookup k = none then some (.ok (none, c))
  else some do
    let n ← c.entry k
    if expired settings moment (toEntry settings n) then
      let c ← c.remove k
      return (none, c)
    else return (some n.value.1, { c with cache := n :: Ring.erase c.cache n.address })

/-- The end of `add`. -/
def insert (c : Nodes κ δ) (k : κ) (d : δ) : Except Fault (Nodes κ δ) := do
  let c ← makeRoom settings moment c
  return ⟨⟨c.next, (d, moment.now)⟩ :: c.cache, Function.update c.lookup k (some c.next),
    c.blockedKeys.filter fun x => x ≠ k, c.next + 1⟩

/-- `add`. -/
def add (c : Nodes κ δ) (k : κ) (d : δ) : Except Fault (Bool × Nodes κ δ) := do
  if c.lookup k = none then return (true, ← c.insert settings moment k d)
  else
    let n ← c.entry k
    if expired settings moment (toEntry settings n) then
      let c ← c.remove k
      return (true, ← c.insert settings moment k d)
    else return (false, c)

/-- `block`, false if the key is blocked already. -/
def block (c : Nodes κ δ) (k : κ) : Bool × Nodes κ δ :=
  if k ∈ c.blockedKeys then (false, c) else (true, { c with blockedKeys := k :: c.blockedKeys })

/-- `lookup[k]->second = steady_clock::now()`. -/
def revalidate (c : Nodes κ δ) (k : κ) : Except Fault (Nodes κ δ) :=
  if c.lookup k = none then .ok c
  else do
    let n ← c.entry k
    return { c with cache := c.cache.map fun m =>
      if m.address = n.address then { m with value := (m.value.1, moment.now) } else m }

/-- `invalidate`, which also releases the key. -/
def invalidate (c : Nodes κ δ) (k : κ) : Except Fault (Nodes κ δ) := do
  let c ← (if c.lookup k = none then .ok c else c.remove k)
  return { c with blockedKeys := c.blockedKeys.filter fun x => x ≠ k }

end Operations

/-! ## List and map -/

/-- The list and the map belong together. -/
structure Rep (settings : Settings κ δ) (c : Nodes κ δ) : Prop where
  distinct : Ring.Distinct c.cache
  used : ∀ n ∈ c.cache, n.address < c.next
  found : ∀ n ∈ c.cache, c.lookup (settings.getKey n.value.1) = some n.address
  listed : ∀ {k a}, c.lookup k = some a →
    ∃ n ∈ c.cache, n.address = a ∧ settings.getKey n.value.1 = k

/-- The list without addresses. -/
def toLRU (settings : Settings κ δ) (c : Nodes κ δ) : LRUcache κ δ :=
  ⟨c.cache.map (toEntry settings), c.blockedKeys⟩

section Rep

variable {settings : Settings κ δ} {moment : Moment δ} {c : Nodes κ δ} {k : κ} {n : CacheNode δ}
variable {xs ys : List (CacheNode δ)}

omit [DecidableEq κ] in
theorem Rep.empty (settings : Settings κ δ) : Rep settings Nodes.empty :=
  ⟨List.nodup_nil, fun _ h => absurd h List.not_mem_nil, fun _ h => absurd h List.not_mem_nil,
    fun h => nomatch h⟩

omit [DecidableEq κ] in
/-- No key occurs twice. -/
theorem Rep.key_injective (h : Rep settings c) {m : CacheNode δ} (hm : m ∈ c.cache) (hn : n ∈ c.cache)
    (hk : settings.getKey m.value.1 = settings.getKey n.value.1) : m = n := by
  have hlookup := h.found m hm
  rw [hk, h.found n hn] at hlookup
  exact Ring.eq_of_address h.distinct hm hn (Option.some.inj hlookup).symm

omit [DecidableEq κ] in
theorem Rep.keys_nodup (h : Rep settings c) : (c.cache.map fun n => settings.getKey n.value.1).Nodup :=
  h.distinct.of_map.map_on fun _ hm _ hn => h.key_injective hm hn

omit [DecidableEq κ] in
theorem Rep.entry (h : Rep settings c) (hn : n ∈ c.cache) (hk : settings.getKey n.value.1 = k) :
    c.entry k = .ok n := by
  unfold Nodes.entry
  rw [← hk, h.found n hn]
  unfold deref
  dsimp only
  rw [Ring.node_of_mem h.distinct hn]

omit [DecidableEq κ] in
theorem Rep.lookup_none (h : Rep settings c) :
    c.lookup k = none ↔ ∀ n ∈ c.cache, settings.getKey n.value.1 ≠ k := by
  constructor
  · rintro hnone n hn rfl
    rw [h.found n hn] at hnone
    cases hnone
  · intro hall
    cases hk : c.lookup k with
    | none => rfl
    | some a =>
      obtain ⟨n, hn, -, hkey⟩ := h.listed hk
      exact absurd hkey (hall n hn)

/-- A key is either in neither of both, or its node is. -/
theorem Rep.cases (h : Rep settings c) (k : κ) :
    (c.lookup k = none ∧ find (c.toLRU settings).cache k = none) ∨
      ∃ n ∈ c.cache, settings.getKey n.value.1 = k ∧ c.lookup k = some n.address ∧
        find (c.toLRU settings).cache k = some (toEntry settings n) := by
  have hfind : find (c.toLRU settings).cache k =
      (c.cache.find? fun n => settings.getKey n.value.1 = k).map (toEntry settings) := List.find?_map
  cases hk : c.lookup k with
  | none =>
    have hnone : (c.cache.find? fun n => settings.getKey n.value.1 = k) = none :=
      List.find?_eq_none.mpr fun n hn => by simpa using h.lookup_none.mp hk n hn
    rw [hfind, hnone]
    exact Or.inl ⟨rfl, rfl⟩
  | some a =>
    obtain ⟨n, hn, rfl, hkey⟩ := h.listed hk
    refine Or.inr ⟨n, hn, hkey, rfl, ?_⟩
    rw [hfind]
    cases hm : c.cache.find? fun n => settings.getKey n.value.1 = k with
    | none => exact absurd hkey (by simpa using List.find?_eq_none.mp hm n hn)
    | some m =>
      have hkm : settings.getKey m.value.1 = k := by simpa using List.find?_some hm
      rw [h.key_injective (List.mem_of_find?_eq_some hm) hn (hkm.trans hkey.symm)]
      rfl

/-- Erasing the node of a key is erasing the element with that key. -/
theorem Rep.erase_map (h : Rep settings c) (hn : n ∈ c.cache) (hk : settings.getKey n.value.1 = k) :
    (Ring.erase c.cache n.address).map (toEntry settings) = Cache.remove (c.toLRU settings).cache k := by
  obtain ⟨xs, ys, hsplit⟩ := List.append_of_mem hn
  have hdistinct := h.distinct
  rw [hsplit] at hdistinct
  have hxs : ∀ x ∈ xs, settings.getKey x.value.1 ≠ k := by
    intro x hx he
    have hxc : x ∈ c.cache := hsplit ▸ List.mem_append_left _ hx
    exact (Ring.apart_of_distinct hdistinct).1 x hx (congrArg _ (h.key_injective hxc hn (he.trans hk.symm)))
  unfold Cache.remove toLRU
  dsimp only
  rw [hsplit, Ring.erase_append hdistinct, List.map_append, List.map_append, List.map_cons,
    List.eraseP_append_right, List.eraseP_cons_of_pos]
  · exact decide_eq_true hk
  · intro e he
    obtain ⟨x, hx, rfl⟩ := List.mem_map.mp he
    exact (decide_eq_false (hxs x hx)).symm ▸ Bool.false_ne_true

theorem Rep.remove (h : Rep settings c) (hn : n ∈ c.cache) (hk : settings.getKey n.value.1 = k) :
    ∃ c', c.remove k = .ok c' ∧ Rep settings c' ∧ c'.cache = Ring.erase c.cache n.address ∧
      c'.blockedKeys = c.blockedKeys ∧ c'.next = c.next ∧ c'.lookup k = none := by
  let c' : Nodes κ δ := { c with
    cache := Ring.erase c.cache n.address
    lookup := Function.update c.lookup k none }
  have hremove : c.remove k = .ok c' := by
    unfold Nodes.remove
    rw [h.entry hn hk]
    rfl
  have hmem : ∀ m, m ∈ c'.cache ↔ m ∈ c.cache ∧ m ≠ n := fun m => Ring.mem_erase h.distinct hn
  refine ⟨c', hremove, ⟨h.distinct.erase _, fun m hm => h.used m ((hmem m).mp hm).1, fun m hm => ?_,
    fun {k' a} ha => ?_⟩, rfl, rfl, rfl, Function.update_self _ _ _⟩
  · obtain ⟨hmc, hne⟩ := (hmem m).mp hm
    have hkey : settings.getKey m.value.1 ≠ k := fun he => hne (h.key_injective hmc hn (he.trans hk.symm))
    exact (Function.update_of_ne hkey _ _).trans (h.found m hmc)
  · have ha : Function.update c.lookup k none k' = some a := ha
    by_cases hkk : k' = k
    · rw [hkk, Function.update_self] at ha
      cases ha
    · rw [Function.update_of_ne hkk] at ha
      obtain ⟨m, hm, hma, hmk⟩ := h.listed ha
      exact ⟨m, (hmem m).mpr ⟨hm, fun he => hkk (by rw [← hmk, he, hk])⟩, hma, hmk⟩

/-! ## The loop of `add` -/

/-- The part of the list that the loop leaves. -/
structure Makes (settings : Settings κ δ) (moment : Moment δ) (c c' : Nodes κ δ) : Prop where
  rep : Rep settings c'
  blocked : c'.blockedKeys = c.blockedKeys
  next : c'.next = c.next
  sub : ∀ n ∈ c'.cache, n ∈ c.cache
  dirty : ∀ n ∈ c.cache, moment.dirty n.value.1 = true → n ∈ c'.cache

omit [DecidableEq κ] in
theorem Makes.refl (h : Rep settings c) : Makes settings moment c c :=
  ⟨h, rfl, rfl, fun _ hn => hn, fun _ hn _ => hn⟩

omit [DecidableEq κ] in
theorem Makes.trans {c' c'' : Nodes κ δ} (h : Makes settings moment c c') (h' : Makes settings moment c' c'') :
    Makes settings moment c c'' :=
  ⟨h'.rep, h'.blocked.trans h.blocked, h'.next.trans h.next, fun n hn => h.sub n (h'.sub n hn),
    fun n hn hd => h'.dirty n (h.dirty n hn hd) hd⟩

/-- A clean element is removed. -/
theorem Rep.evict_one (h : Rep settings c) (hsplit : c.cache = xs ++ n :: ys)
    (hclean : ¬ moment.dirty n.value.1 = true) : ∃ c', c.remove (settings.getKey n.value.1) = .ok c' ∧
      Makes settings moment c c' ∧ c'.cache = xs ++ ys ∧
      (c'.toLRU settings).cache = Cache.remove (c.toLRU settings).cache (settings.getKey n.value.1) := by
  have hn : n ∈ c.cache := hsplit ▸ List.mem_append_right _ List.mem_cons_self
  obtain ⟨c', hremove, hrep, hcache, hblocked, hnext, -⟩ := h.remove hn rfl
  have hdistinct := h.distinct
  rw [hsplit] at hdistinct
  refine ⟨c', hremove, ⟨hrep, hblocked, hnext, fun m hm => ?_, fun m hm hd => ?_⟩, ?_, ?_⟩
  · rw [hcache] at hm
    exact ((Ring.mem_erase h.distinct hn).mp hm).1
  · rw [hcache]
    exact (Ring.mem_erase h.distinct hn).mpr ⟨hm, fun he => hclean (he ▸ hd)⟩
  · rw [hcache, hsplit, Ring.erase_append hdistinct]
  · rw [← h.erase_map hn rfl, ← hcache]
    rfl

/-- The loop ends after few rounds, and never dereferences the end of the list or a node that is
    gone. -/
theorem evict_refines (moment : Moment δ) (rounds : Nat) (h : Rep settings c) (hsplit : c.cache = xs ++ ys)
    (hrounds : c.cache.length * (c.cache.length + 1) + xs.length < rounds) :
    ∃ c', evict settings moment rounds (Ring.first ys) c = .ok c' ∧ Makes settings moment c c' ∧
      (c'.toLRU settings).cache = Cache.evict settings moment rounds xs.length (c.toLRU settings).cache := by
  induction rounds generalizing c xs ys with
  | zero => exact absurd hrounds (Nat.not_lt_zero _)
  | succ rounds ih =>
    have hdistinct := h.distinct
    rw [hsplit] at hdistinct
    have hlength : (c.toLRU settings).cache.length = c.cache.length := List.length_map _
    have hstop : Ring.first ys = Ring.first c.cache ↔ xs.length = 0 := by
      rw [hsplit, Ring.first_append_iff hdistinct, List.length_eq_zero_iff]
    unfold evict Cache.evict
    rw [hlength]
    by_cases hend : Ring.first ys = Ring.first c.cache ∨ c.cache.length < settings.capacity
    · rw [if_pos hend, if_pos (hend.imp_left hstop.mp)]
      exact ⟨c, rfl, Makes.refl h, rfl⟩
    · rw [if_neg hend, if_neg fun he => hend (he.imp_left hstop.mpr)]
      have hne : xs ≠ [] := fun he => hend (Or.inl (hstop.mpr (by rw [he]; rfl)))
      obtain ⟨xs, n, rfl⟩ := (List.eq_nil_or_concat' xs).resolve_left hne
      have hsplit' : c.cache = xs ++ n :: ys := by
        rw [hsplit, List.append_assoc]
        rfl
      have hdistinct' := h.distinct
      rw [hsplit'] at hdistinct'
      have hprev : Ring.prev c.cache (Ring.first ys) = some n.address := by
        rw [hsplit, Ring.prev_append hdistinct, Ring.last_concat]
      have hderef : c.deref (some n.address) = .ok n := by
        unfold deref
        dsimp only
        rw [hsplit', Ring.node_append hdistinct']
      have hindex : (xs ++ [n]).length - 1 = xs.length := by
        rw [List.length_append, List.length_singleton, Nat.add_sub_cancel]
      have hget : (c.toLRU settings).cache[xs.length]? = some (toEntry settings n) := by
        unfold toLRU
        dsimp only
        rw [List.getElem?_map, hsplit', List.getElem?_append_right le_rfl, Nat.sub_self]
        rfl
      have htotal : c.cache.length = xs.length + ys.length + 1 := by
        rw [hsplit', List.length_append, List.length_cons]
        omega
      rw [hprev, hderef, hindex, hget]
      dsimp only [bind, Except.bind]
      by_cases hdirty : moment.dirty n.value.1 = true
      · -- the iterator moves on
        have hdirty' : moment.dirty (toEntry settings n).data = true := hdirty
        rw [if_pos hdirty, if_pos hdirty']
        have hless : c.cache.length * (c.cache.length + 1) + xs.length < rounds := by
          rw [List.length_append, List.length_singleton] at hrounds
          omega
        exact ih h hsplit' hless
      · -- the node is erased, and the iterator moves past the node before
        have hdirty' : ¬ moment.dirty (toEntry settings n).data = true := hdirty
        rw [if_neg hdirty, if_neg hdirty']
        obtain ⟨c1, hremove, hmakes, hcache, hlru⟩ := h.evict_one hsplit' hdirty
        have hdistinct1 := hmakes.rep.distinct
        rw [hcache] at hdistinct1
        have hprev1 : Ring.prev c1.cache (Ring.first ys) = Ring.last xs := by
          rw [hcache, Ring.prev_append hdistinct1]
        have hlength1 : c1.cache.length + 1 = c.cache.length := by
          rw [hcache, List.length_append, htotal]
        have hsquare : (c1.cache.length + 1) * (c1.cache.length + 1 + 1) =
            c1.cache.length * (c1.cache.length + 1) + 2 * (c1.cache.length + 1) := by ring
        have hfew : ∀ p, p ≤ c1.cache.length → c1.cache.length * (c1.cache.length + 1) + p < rounds := by
          intro p hp
          rw [← hlength1, hsquare] at hrounds
          omega
        have hkey : settings.getKey (toEntry settings n).data = settings.getKey n.value.1 := rfl
        rw [hremove, hkey, ← hlru]
        dsimp only
        rw [hprev1]
        obtain rfl | ⟨xs, m, rfl⟩ := List.eq_nil_or_concat' xs
        · have hys : c1.cache = ys ++ [] := by
            rw [hcache, List.append_nil]
            rfl
          obtain ⟨c', hevict, hmakes', hlist⟩ := ih hmakes.rep hys (hfew _ (by rw [hys]; simp))
          refine ⟨c', hevict, hmakes.trans hmakes', ?_⟩
          rw [hlist, if_pos List.length_nil]
          unfold toLRU
          rw [List.length_map, hys, List.append_nil]
        · have hys : c1.cache = xs ++ m :: ys := by
            rw [hcache, List.append_assoc]
            rfl
          obtain ⟨c', hevict, hmakes', hlist⟩ := ih hmakes.rep hys (hfew _ (by rw [hys]; simp))
          refine ⟨c', ?_, hmakes.trans hmakes', ?_⟩
          · rw [Ring.last_concat]
            exact hevict
          · have hpos : (xs ++ [m]).length ≠ 0 := by simp
            have hback : (xs ++ [m] ++ [n]).length - 2 = xs.length := by simp
            rw [hlist, if_neg hpos, hback]

theorem makeRoom_refines (moment : Moment δ) (h : Rep settings c) : ∃ c', makeRoom settings moment c = .ok c' ∧
    Makes settings moment c c' ∧
      (c'.toLRU settings).cache = Cache.makeRoom settings moment (c.toLRU settings).cache := by
  have hsplit : c.cache = c.cache ++ [] := (List.append_nil _).symm
  have hsquare : (c.cache.length + 1) * (c.cache.length + 1) =
      c.cache.length * (c.cache.length + 1) + (c.cache.length + 1) := by ring
  obtain ⟨c', hevict, hmakes, hlist⟩ := evict_refines moment
    ((c.cache.length + 1) * (c.cache.length + 1)) h hsplit (by omega)
  refine ⟨c', hevict, hmakes, ?_⟩
  unfold Cache.makeRoom
  rw [hlist]
  unfold toLRU
  rw [List.length_map]

/-! ## The operations -/

/-- The operation has kept list and map together and lost no dirty element. -/
structure Kept (settings : Settings κ δ) (moment : Moment δ) (c c' : Nodes κ δ) : Prop where
  rep : Rep settings c'
  dirty : ∀ n ∈ c.cache, moment.dirty n.value.1 = true → n ∈ c'.cache

omit [DecidableEq κ] in
theorem Kept.refl (h : Rep settings c) : Kept settings moment c c := ⟨h, fun _ hn _ => hn⟩

omit [DecidableEq κ] in
/-- Dirty elements do not expire. -/
theorem expired_clean {e : Entry κ δ} (h : expired settings moment e = true) :
    ¬ moment.dirty e.data = true := by
  unfold expired at h
  exact (of_decide_eq_true h).1

/-- An expired element is removed. -/
theorem Rep.remove_expired (h : Rep settings c) (hn : n ∈ c.cache) (hk : settings.getKey n.value.1 = k)
    (hexpired : expired settings moment (toEntry settings n) = true) :
    ∃ c', c.remove k = .ok c' ∧ Kept settings moment c c' ∧ c'.lookup k = none ∧
      c'.toLRU settings = ⟨Cache.remove (c.toLRU settings).cache k, c.blockedKeys⟩ := by
  obtain ⟨c', hremove, hrep, hcache, hblocked, -, hgone⟩ := h.remove hn hk
  refine ⟨c', hremove, ⟨hrep, fun m hm hd => ?_⟩, hgone, ?_⟩
  · rw [hcache]
    refine (Ring.mem_erase h.distinct hn).mpr ⟨hm, ?_⟩
    rintro rfl
    exact expired_clean hexpired hd
  · rw [← h.erase_map hn hk, ← hcache, ← hblocked]
    rfl

omit [DecidableEq κ] in
/-- A node moves to the front. -/
theorem Rep.splice (h : Rep settings c) (hn : n ∈ c.cache) :
    Kept settings moment c { c with cache := n :: Ring.erase c.cache n.address } := by
  have hmem : ∀ m, m ∈ n :: Ring.erase c.cache n.address ↔ m ∈ c.cache := by
    intro m
    rw [List.mem_cons, Ring.mem_erase h.distinct hn]
    constructor
    · rintro (rfl | ⟨hm, -⟩)
      · exact hn
      · exact hm
    · intro hm
      by_cases he : m = n
      · exact Or.inl he
      · exact Or.inr ⟨hm, he⟩
  have hdistinct : Ring.Distinct (n :: Ring.erase c.cache n.address) := by
    refine Ring.distinct_cons.mpr ⟨fun m hm he => ?_, h.distinct.erase _⟩
    obtain ⟨hmc, hne⟩ := (Ring.mem_erase h.distinct hn).mp hm
    exact hne (Ring.eq_of_address h.distinct hmc hn he)
  refine ⟨⟨hdistinct, fun m hm => h.used m ((hmem m).mp hm), fun m hm => h.found m ((hmem m).mp hm),
    fun ha => ?_⟩, fun m hm _ => (hmem m).mpr hm⟩
  obtain ⟨m, hm, hma⟩ := h.listed ha
  exact ⟨m, (hmem m).mpr hm, hma⟩

theorem get_refines (moment : Moment δ) (h : Rep settings c) (k : κ) :
    (c.get settings moment k = none ∧ (c.toLRU settings).get settings moment k = none) ∨
      ∃ found c', c.get settings moment k = some (.ok (found, c')) ∧
        (c.toLRU settings).get settings moment k = some (found, c'.toLRU settings) ∧
        Kept settings moment c c' := by
  have hblocked : (c.toLRU settings).blockedKeys = c.blockedKeys := rfl
  unfold Nodes.get LRUcache.get
  rw [hblocked]
  by_cases hwait : k ∈ c.blockedKeys
  · rw [if_pos hwait, if_pos hwait]
    exact Or.inl ⟨rfl, rfl⟩
  · rw [if_neg hwait, if_neg hwait]
    refine Or.inr ?_
    obtain ⟨hnone, hfind⟩ | ⟨n, hn, hkey, hsome, hfind⟩ := h.cases k
    · rw [if_pos hnone, hfind]
      exact ⟨none, c, rfl, rfl, Kept.refl h⟩
    · rw [if_neg (by rw [hsome]; exact Option.some_ne_none _), hfind, h.entry hn hkey]
      dsimp only [bind, Except.bind]
      by_cases hexpired : expired settings moment (toEntry settings n) = true
      · obtain ⟨c', hremove, hkept, -, hlru⟩ := h.remove_expired hn hkey hexpired
        rw [if_pos hexpired, if_pos hexpired, hremove]
        refine ⟨none, c', rfl, ?_, hkept⟩
        rw [hlru]
      · rw [if_neg hexpired, if_neg hexpired]
        refine ⟨some n.value.1, _, rfl, ?_, h.splice hn⟩
        rw [← h.erase_map hn hkey]
        rfl

/-- The end of `add`, for a key that is not in the map. -/
theorem insert_refines (moment : Moment δ) (h : Rep settings c) {d : δ} (hd : settings.getKey d = k)
    (hk : c.lookup k = none) :
    ∃ c', c.insert settings moment k d = .ok c' ∧
      c'.toLRU settings = (c.toLRU settings).insert settings moment k d ∧ Kept settings moment c c' := by
  obtain ⟨c1, hroom, hmakes, hlist⟩ := makeRoom_refines moment h
  let n : CacheNode δ := ⟨c1.next, (d, moment.now)⟩
  let c' : Nodes κ δ := ⟨n :: c1.cache, Function.update c1.lookup k (some c1.next),
    c1.blockedKeys.filter fun x => x ≠ k, c1.next + 1⟩
  have hinsert : c.insert settings moment k d = .ok c' := by
    unfold Nodes.insert
    rw [hroom]
    rfl
  have hother : ∀ m ∈ c1.cache, settings.getKey m.value.1 ≠ k :=
    fun m hm => h.lookup_none.mp hk m (hmakes.sub m hm)
  have hrep : Rep settings c' := by
    refine ⟨?_, ?_, ?_, fun {k' a} ha => ?_⟩
    · exact Ring.distinct_cons.mpr ⟨fun m hm => ne_of_lt (hmakes.rep.used m hm), hmakes.rep.distinct⟩
    · exact List.forall_mem_cons.mpr ⟨Nat.lt_succ_self _, fun m hm =>
        (hmakes.rep.used m hm).trans (Nat.lt_succ_self _)⟩
    · refine List.forall_mem_cons.mpr ⟨?_, fun m hm => ?_⟩
      · show Function.update c1.lookup k (some c1.next) (settings.getKey d) = some c1.next
        rw [hd, Function.update_self]
      · exact (Function.update_of_ne (hother m hm) _ _).trans (hmakes.rep.found m hm)
    · have ha : Function.update c1.lookup k (some c1.next) k' = some a := ha
      by_cases hkk : k' = k
      · rw [hkk, Function.update_self] at ha
        exact ⟨n, List.mem_cons_self, Option.some.inj ha, hd.trans hkk.symm⟩
      · rw [Function.update_of_ne hkk] at ha
        obtain ⟨m, hm, hma⟩ := hmakes.rep.listed ha
        exact ⟨m, List.mem_cons_of_mem _ hm, hma⟩
  refine ⟨c', hinsert, ?_, hrep, fun m hm hdirty => List.mem_cons_of_mem _ (hmakes.dirty m hm hdirty)⟩
  have hentry : toEntry settings n = ⟨k, d, moment.now⟩ := by
    unfold toEntry
    rw [hd]
  have hcache : (c'.toLRU settings).cache =
      ⟨k, d, moment.now⟩ :: Cache.makeRoom settings moment (c.toLRU settings).cache := by
    rw [← hlist, ← hentry]
    rfl
  have hblocked : c'.blockedKeys = c.blockedKeys.filter fun x => x ≠ k := by
    rw [← hmakes.blocked]
  exact congrArg₂ LRUcache.mk hcache hblocked

theorem add_refines (moment : Moment δ) (h : Rep settings c) {d : δ} (hd : settings.getKey d = k) :
    ∃ added c', c.add settings moment k d = .ok (added, c') ∧
      (c.toLRU settings).add settings moment k d = (added, c'.toLRU settings) ∧
      Kept settings moment c c' := by
  unfold Nodes.add LRUcache.add
  obtain ⟨hnone, hfind⟩ | ⟨n, hn, hkey, hsome, hfind⟩ := h.cases k
  · obtain ⟨c', hinsert, hlru, hkept⟩ := insert_refines moment h hd hnone
    rw [if_pos hnone, hfind, hinsert]
    refine ⟨true, c', rfl, ?_, hkept⟩
    rw [hlru]
  · rw [if_neg (by rw [hsome]; exact Option.some_ne_none _), hfind, h.entry hn hkey]
    dsimp only [bind, Except.bind]
    by_cases hexpired : expired settings moment (toEntry settings n) = true
    · obtain ⟨c1, hremove, hkept1, hgone, hlru1⟩ := h.remove_expired hn hkey hexpired
      obtain ⟨c', hinsert, hlru, hkept⟩ := insert_refines moment hkept1.rep hd hgone
      rw [if_pos hexpired, if_pos hexpired, hremove]
      dsimp only
      rw [hinsert]
      refine ⟨true, c', rfl, ?_, hkept.rep, fun m hm hdirty =>
        hkept.dirty m (hkept1.dirty m hm hdirty) hdirty⟩
      rw [hlru, hlru1]
      rfl
    · rw [if_neg hexpired, if_neg hexpired]
      exact ⟨false, c, rfl, rfl, Kept.refl h⟩

theorem revalidate_refines (moment : Moment δ) (h : Rep settings c) (k : κ) :
    ∃ c', c.revalidate moment k = .ok c' ∧
      c'.toLRU settings = (c.toLRU settings).revalidate moment k ∧ Rep settings c' := by
  unfold Nodes.revalidate LRUcache.revalidate
  obtain ⟨hnone, -⟩ | ⟨n, hn, hkey, hsome, -⟩ := h.cases k
  · rw [if_pos hnone]
    refine ⟨c, rfl, congrArg₂ LRUcache.mk ?_ rfl, h⟩
    refine ((List.map_congr_left fun e he => ?_).trans (List.map_id _)).symm
    obtain ⟨m, hm, rfl⟩ := List.mem_map.mp he
    exact if_neg (h.lookup_none.mp hnone m hm)
  · rw [if_neg (by rw [hsome]; exact Option.some_ne_none _), h.entry hn hkey]
    let f (m : CacheNode δ) : CacheNode δ :=
      if m.address = n.address then { m with value := (m.value.1, moment.now) } else m
    have haddress : ∀ m, (f m).address = m.address := by
      intro m
      unfold f
      split <;> rfl
    have hdata : ∀ m, (f m).value.1 = m.value.1 := by
      intro m
      unfold f
      split <;> rfl
    refine ⟨{ c with cache := c.cache.map f }, rfl, congrArg₂ LRUcache.mk ?_ rfl, ?_⟩
    · show (c.cache.map f).map (toEntry settings) = (c.cache.map (toEntry settings)).map _
      rw [List.map_map, List.map_map]
      refine List.map_congr_left fun m hm => ?_
      have hiff : m.address = n.address ↔ settings.getKey m.value.1 = k := by
        constructor
        · intro he
          rw [Ring.eq_of_address h.distinct hm hn he]
          exact hkey
        · intro hk
          rw [h.key_injective hm hn (hk.trans hkey.symm)]
      show toEntry settings (f m) = if settings.getKey m.value.1 = k then _ else _
      unfold f
      by_cases he : m.address = n.address
      · rw [if_pos he, if_pos (hiff.mp he)]
        rfl
      · rw [if_neg he, if_neg fun hk => he (hiff.mpr hk)]
    · refine ⟨?_, fun m hm => ?_, fun m hm => ?_, fun ha => ?_⟩
      · unfold Ring.Distinct
        have hsame : (c.cache.map f).map Node.address = c.cache.map Node.address := by
          rw [List.map_map]
          exact List.map_congr_left fun m _ => haddress m
        rw [hsame]
        exact h.distinct
      · obtain ⟨m, hmc, rfl⟩ := List.mem_map.mp hm
        rw [haddress]
        exact h.used m hmc
      · obtain ⟨m, hmc, rfl⟩ := List.mem_map.mp hm
        rw [haddress, hdata]
        exact h.found m hmc
      · obtain ⟨m, hm, hma, hmk⟩ := h.listed ha
        exact ⟨f m, List.mem_map_of_mem hm, (haddress m).trans hma, (congrArg _ (hdata m)).trans hmk⟩

theorem invalidate_refines (h : Rep settings c) (k : κ) : ∃ c', c.invalidate k = .ok c' ∧
    c'.toLRU settings = (c.toLRU settings).invalidate k ∧ Rep settings c' := by
  unfold Nodes.invalidate LRUcache.invalidate
  obtain ⟨hnone, hfind⟩ | ⟨n, hn, hkey, hsome, -⟩ := h.cases k
  · rw [if_pos hnone]
    refine ⟨{ c with blockedKeys := c.blockedKeys.filter fun x => x ≠ k }, rfl, congrArg₂ LRUcache.mk ?_ rfl,
      ⟨h.distinct, h.used, h.found, h.listed⟩⟩
    refine (List.eraseP_of_forall_not fun e he => ?_).symm
    simpa using List.find?_eq_none.mp hfind e he
  · rw [if_neg (by rw [hsome]; exact Option.some_ne_none _)]
    obtain ⟨c', hremove, hrep, hcache, hblocked, -⟩ := h.remove hn hkey
    rw [hremove]
    refine ⟨{ c' with blockedKeys := c'.blockedKeys.filter fun x => x ≠ k }, rfl, congrArg₂ LRUcache.mk ?_ ?_,
      ⟨hrep.distinct, hrep.used, hrep.found, hrep.listed⟩⟩
    · rw [← h.erase_map hn hkey, ← hcache]
    · show c'.blockedKeys.filter _ = _
      rw [hblocked]
      rfl

omit [DecidableEq κ] in
theorem Rep.blocked (h : Rep settings c) (keys : List κ) : Rep settings { c with blockedKeys := keys } :=
  ⟨h.distinct, h.used, h.found, h.listed⟩

theorem block_refines (h : Rep settings c) (k : κ) :
    ((c.block k).1, (c.block k).2.toLRU settings) = (c.toLRU settings).block k ∧
      Rep settings (c.block k).2 := by
  have hblocked : (c.toLRU settings).blockedKeys = c.blockedKeys := rfl
  unfold Nodes.block LRUcache.block
  rw [hblocked]
  by_cases hk : k ∈ c.blockedKeys
  · rw [if_pos hk, if_pos hk]
    exact ⟨rfl, h⟩
  · rw [if_neg hk, if_neg hk]
    exact ⟨rfl, h.blocked _⟩

end Rep

end Nodes

/-! ## Sequences of calls -/

/-- The calls of the cache. -/
inductive Call (κ δ : Type) where
  | get (k : κ)
  | add (k : κ) (d : δ)
  | block (k : κ)
  | revalidate (k : κ)
  | invalidate (k : κ)

/-- An element is added under its own key. -/
def Call.Proper (settings : Settings κ δ) : Call κ δ → Prop
  | .add k d => settings.getKey d = k
  | _ => True

/-- The call keeps what is dirty. -/
def Call.keepsDirty : Call κ δ → Bool
  | .get _ => true
  | .add _ _ => true
  | _ => false

section Steps

variable (settings : Settings κ δ) (moment : Moment δ)

/-- One call. A `get` that waits has not done anything yet. -/
def Nodes.step (c : Nodes κ δ) : Call κ δ → Except Fault (Nodes κ δ)
  | .get k =>
      match c.get settings moment k with
      | some result => result.map Prod.snd
      | none => .ok c
  | .add k d => (c.add settings moment k d).map Prod.snd
  | .block k => .ok (c.block k).2
  | .revalidate k => c.revalidate moment k
  | .invalidate k => c.invalidate k

/-- The cache after a call. A `get` of a blocked key waits and changes nothing. -/
def LRUcache.step (c : LRUcache κ δ) : Call κ δ → LRUcache κ δ
  | .get k =>
      match c.get settings moment k with
      | some (_, c) => c
      | none => c
  | .add k d => (c.add settings moment k d).2
  | .block k => (c.block k).2
  | .revalidate k => c.revalidate moment k
  | .invalidate k => c.invalidate k

/-- Calls one after the other, with what they find outside the cache. -/
def Nodes.run (calls : List (Moment δ × Call κ δ)) : Except Fault (Nodes κ δ) :=
  calls.foldlM (fun c call => c.step settings call.1 call.2) Nodes.empty

/-- The cache after a sequence of calls, from an empty one. -/
def LRUcache.run (calls : List (Moment δ × Call κ δ)) : LRUcache κ δ :=
  calls.foldl (fun c call => c.step settings call.1 call.2) ⟨[], []⟩

end Steps

section Run

variable {settings : Settings κ δ} {moment : Moment δ} {c : Nodes κ δ}

theorem step_refines (moment : Moment δ) (h : c.Rep settings) {call : Call κ δ} (hcall : call.Proper settings) :
    ∃ c', c.step settings moment call = .ok c' ∧ c'.Rep settings ∧
      c'.toLRU settings = (c.toLRU settings).step settings moment call ∧
      (call.keepsDirty = true → ∀ n ∈ c.cache, moment.dirty n.value.1 = true → n ∈ c'.cache) := by
  cases call with
  | get k =>
    obtain ⟨hwait, hlru⟩ | ⟨found, c', hget, hlru, hkept⟩ := Nodes.get_refines moment h k
    · simp only [Nodes.step, LRUcache.step, hwait, hlru]
      exact ⟨c, rfl, h, rfl, fun _ n hn _ => hn⟩
    · simp only [Nodes.step, LRUcache.step, hget, hlru]
      exact ⟨c', rfl, hkept.rep, rfl, fun _ => hkept.dirty⟩
  | add k d =>
    obtain ⟨added, c', hadd, hlru, hkept⟩ := Nodes.add_refines moment h hcall
    simp only [Nodes.step, LRUcache.step, hadd, hlru]
    exact ⟨c', rfl, hkept.rep, rfl, fun _ => hkept.dirty⟩
  | block k =>
    obtain ⟨hlru, hrep⟩ := Nodes.block_refines h k
    exact ⟨_, rfl, hrep, congrArg Prod.snd hlru, Bool.false_ne_true.elim⟩
  | revalidate k =>
    obtain ⟨c', hrun, hlru, hrep⟩ := Nodes.revalidate_refines moment h k
    exact ⟨c', hrun, hrep, hlru, Bool.false_ne_true.elim⟩
  | invalidate k =>
    obtain ⟨c', hrun, hlru, hrep⟩ := Nodes.invalidate_refines h k
    exact ⟨c', hrun, hrep, hlru, Bool.false_ne_true.elim⟩

/-- Every sequence of calls. -/
theorem run_refines {calls : List (Moment δ × Call κ δ)} (h : ∀ call ∈ calls, call.2.Proper settings) :
    ∃ c, Nodes.run settings calls = .ok c ∧ c.Rep settings ∧
      c.toLRU settings = LRUcache.run settings calls := by
  induction calls using List.reverseRecOn with
  | nil => exact ⟨Nodes.empty, rfl, Nodes.Rep.empty settings, rfl⟩
  | append_singleton calls call ih =>
    obtain ⟨c, hrun, hrep, hlru⟩ := ih fun call hmem => h call (List.mem_append_left _ hmem)
    have hcall := h call (List.mem_append_right _ List.mem_cons_self)
    obtain ⟨c', hstep, hrep', hlru', -⟩ := step_refines call.1 hrep hcall
    refine ⟨c', ?_, hrep', ?_⟩
    · unfold Nodes.run at hrun ⊢
      rw [List.foldlM_append, hrun]
      show (c.step settings call.1 call.2 >>= fun c => pure c) = _
      rw [hstep]
      rfl
    · unfold LRUcache.run at hlru ⊢
      rw [List.foldl_append, ← hlru, hlru']
      rfl

/-- After every sequence of calls list and map are in bijection, no key occurs twice, and the next
    call returns; if it is a `get` or an `add`, it removes nothing that is dirty. -/
theorem lru_representation {calls : List (Moment δ × Call κ δ)} (h : ∀ call ∈ calls, call.2.Proper settings) :
    ∃ c, Nodes.run settings calls = .ok c ∧ c.Rep settings ∧
      (c.cache.map fun n => settings.getKey n.value.1).Nodup ∧
      ∀ (moment : Moment δ) (call : Call κ δ), call.Proper settings →
        ∃ c', c.step settings moment call = .ok c' ∧
          (call.keepsDirty = true → ∀ n ∈ c.cache, moment.dirty n.value.1 = true → n ∈ c'.cache) := by
  obtain ⟨c, hrun, hrep, -⟩ := run_refines h
  refine ⟨c, hrun, hrep, hrep.keys_nodup, fun moment call hcall => ?_⟩
  obtain ⟨c', hstep, -, -, hdirty⟩ := step_refines moment hrep hcall
  exact ⟨c', hstep, hdirty⟩

/-- A cache for two numbers that are their own keys, and expire after a second: both are dirty when
    the third one is added, and clean when the fourth one is. -/
theorem lru_representation_four :
    ∃ c, Nodes.run (⟨1000, 2, id⟩ : Settings Nat Nat)
        [(⟨0, fun _ => false⟩, .add 1 1), (⟨10, fun _ => false⟩, .add 2 2), (⟨20, fun _ => true⟩, .add 3 3),
          (⟨30, fun _ => false⟩, .get 1), (⟨40, fun _ => false⟩, .add 4 4)] = .ok c ∧
      c.Rep ⟨1000, 2, id⟩ ∧ (c.cache.map fun n => id n.value.1).Nodup ∧
      ∀ (moment : Moment Nat) (call : Call Nat Nat), call.Proper ⟨1000, 2, id⟩ →
        ∃ c', c.step ⟨1000, 2, id⟩ moment call = .ok c' ∧
          (call.keepsDirty = true → ∀ n ∈ c.cache, moment.dirty n.value.1 = true → n ∈ c'.cache) := by
  refine lru_representation fun call hcall => ?_
  simp only [List.mem_cons, List.not_mem_nil, or_false] at hcall
  obtain rfl | rfl | rfl | rfl | rfl := hcall
  all_goals simp [Call.Proper]

end Run

end HFlat.Cache
