/-
  What `add` of the LRU cache (`lru_cache.h`) evicts.

  The loop of `add` goes through the list from its back, that is, from the least recently used
  element. After an eviction the reverse iterator is incremented although it refers to the next
  element already, which is skipped; after an eviction at the front it wraps around. This is the
  iterator of `Sweep` (`makeRoom_clears`), and so it is known when the loop evicts the least recently
  used clean elements, as many as have to go (`add_frugal_iff`).
-/
import HFlat.Lib.Sweep
import HFlat.Cache.Nodes

namespace HFlat.Cache

open HFlat.Lib

variable {κ δ : Type} [DecidableEq κ]

/-- Elements carry their own keys, and no key occurs twice. -/
structure Keyed (settings : Settings κ δ) (cache : List (Entry κ δ)) : Prop where
  own : ∀ e ∈ cache, settings.getKey e.data = e.key
  nodup : (cache.map Entry.key).Nodup

/-- Number of elements that have to be evicted before one can be added. -/
def surplus (settings : Settings κ δ) (cache : List (Entry κ δ)) : Nat :=
  cache.length + 1 - settings.capacity

/-- The element is dirty. -/
def pinned (moment : Moment δ) (e : Entry κ δ) : Bool := moment.dirty e.data

section Evict

variable {settings : Settings κ δ} {moment : Moment δ} {cache xs ys : List (Entry κ δ)} {e f : Entry κ δ}
variable {k : κ}

omit [DecidableEq κ] in
theorem Keyed.sublist (h : Keyed settings cache) (hsub : xs.Sublist cache) : Keyed settings xs :=
  ⟨fun e he => h.own e (hsub.subset he), h.nodup.sublist (hsub.map _)⟩

theorem remove_append (h : Keyed settings (xs ++ e :: ys)) :
    remove (xs ++ e :: ys) (settings.getKey e.data) = xs ++ ys := by
  have hkey := h.own e (List.mem_append_right _ List.mem_cons_self)
  have hnodup := h.nodup
  rw [List.map_append, List.map_cons] at hnodup
  obtain ⟨-, -, hapart⟩ := List.nodup_append.mp hnodup
  have hxs : ∀ x ∈ xs, ¬ decide (x.key = e.key) = true := fun x hx he =>
    hapart _ (List.mem_map_of_mem hx) _ List.mem_cons_self (of_decide_eq_true he)
  unfold remove
  rw [hkey, List.eraseP_append_right _ hxs, List.eraseP_cons_of_pos]
  exact decide_eq_true rfl

theorem remove_eq_filter (h : Keyed settings cache) (k : κ) :
    remove cache k = cache.filter fun e => e.key ≠ k := by
  by_cases hk : ∃ e ∈ cache, e.key = k
  · obtain ⟨e, he, rfl⟩ := hk
    obtain ⟨xs, ys, rfl⟩ := List.append_of_mem he
    have hkey := h.own e he
    have hremove := remove_append h
    have hnodup := h.nodup
    rw [List.map_append, List.map_cons] at hnodup
    obtain ⟨-, hys, hapart⟩ := List.nodup_append.mp hnodup
    have hxs : ∀ x ∈ xs, decide (x.key ≠ e.key) = true := fun x hx =>
      decide_eq_true (hapart _ (List.mem_map_of_mem hx) _ List.mem_cons_self)
    have hys : ∀ y ∈ ys, decide (y.key ≠ e.key) = true := fun y hy =>
      decide_eq_true fun he => (List.nodup_cons.mp hys).1 (he ▸ List.mem_map_of_mem hy)
    rw [hkey] at hremove
    rw [hremove, List.filter_append, List.filter_cons_of_neg (by simp), List.filter_eq_self.mpr hxs,
      List.filter_eq_self.mpr hys]
  · have hall : ∀ e ∈ cache, e.key ≠ k := fun e he hek => hk ⟨e, he, hek⟩
    unfold remove
    rw [List.eraseP_of_forall_not fun e he => by simpa using hall e he]
    exact (List.filter_eq_self.mpr fun e he => decide_eq_true (hall e he)).symm

/-- A round of the loop that has room to make. -/
theorem evict_round (rounds : Nat) (hroom : settings.capacity ≤ (xs ++ e :: ys).length) :
    evict settings moment (rounds + 1) (xs.length + 1) (xs ++ e :: ys) =
      if moment.dirty e.data then evict settings moment rounds xs.length (xs ++ e :: ys)
      else
        let rest := remove (xs ++ e :: ys) (settings.getKey e.data)
        evict settings moment rounds (if xs.length = 0 then rest.length else xs.length - 1) rest := by
  have hgo : ¬ (xs.length + 1 = 0 ∨ (xs ++ e :: ys).length < settings.capacity) := by omega
  have hget : (xs ++ e :: ys)[xs.length + 1 - 1]? = some e := by
    rw [Nat.add_sub_cancel, List.getElem?_append_right le_rfl, Nat.sub_self]
    rfl
  rw [evict, if_neg hgo, hget]
  rfl

/-- A round of the loop at a dirty element. -/
theorem evict_dirty (rounds : Nat) (hroom : settings.capacity ≤ (xs ++ e :: ys).length)
    (hdirty : moment.dirty e.data = true) :
    evict settings moment (rounds + 1) (xs.length + 1) (xs ++ e :: ys) =
      evict settings moment rounds xs.length (xs ++ e :: ys) := by
  rw [evict_round rounds hroom, if_pos hdirty]

/-- A round of the loop at a clean element. -/
theorem evict_clean (rounds : Nat) (h : Keyed settings (xs ++ e :: ys))
    (hroom : settings.capacity ≤ (xs ++ e :: ys).length) (hclean : ¬ moment.dirty e.data = true) :
    evict settings moment (rounds + 1) (xs.length + 1) (xs ++ e :: ys) =
      evict settings moment rounds (if xs.length = 0 then (xs ++ ys).length else xs.length - 1) (xs ++ ys) := by
  rw [evict_round rounds hroom, if_neg hclean, remove_append h]

/-- What the loop makes of the elements before a position, given a sweep over them: it leaves those
    behind the position, or starts again. -/
def Leaves (moment : Moment δ) (ys : List (Entry κ δ)) (swept : Sweep.Swept (Entry κ δ))
    (left : List (Entry κ δ)) : Prop :=
  (swept.hit = false ∧ left = swept.rest.reverse ++ ys) ∨
    (swept.hit = true ∧
      ∃ r, Sweep.Clears (pinned moment) swept.left (ys.reverse ++ swept.rest) r ∧ left = r.reverse)

omit [DecidableEq κ] in
theorem Leaves.cons {swept : Sweep.Swept (Entry κ δ)} {left : List (Entry κ δ)}
    (h : Leaves moment (e :: ys) swept left) : Leaves moment ys (swept.cons e) left := by
  obtain ⟨hhit, hleft⟩ | ⟨hhit, r, hclears, hleft⟩ := h
  · refine Or.inl ⟨hhit, ?_⟩
    rw [hleft, Sweep.Swept.cons, List.reverse_cons, List.append_assoc]
    rfl
  · rw [List.reverse_cons, List.append_assoc] at hclears
    exact Or.inr ⟨hhit, r, hclears, hleft⟩

omit [DecidableEq κ] in
theorem Leaves.clears {b : Nat} {left : List (Entry κ δ)}
    (h : Leaves moment [] (Sweep.sweep (pinned moment) b xs) left) :
    ∃ r, Sweep.Clears (pinned moment) b xs r ∧ left = r.reverse := by
  obtain ⟨hhit, hleft⟩ | ⟨hhit, r, hclears, hleft⟩ := h
  · rw [List.append_nil] at hleft
    exact ⟨_, .done hhit, hleft⟩
  · exact ⟨r, .again hhit hclears, hleft⟩

/-- The loop from a position on. -/
theorem evict_leaves (moment : Moment δ) (rounds : Nat) (h : Keyed settings (xs ++ ys))
    (hrounds : (xs ++ ys).length * ((xs ++ ys).length + 1) + xs.length < rounds) :
    Leaves moment ys (Sweep.sweep (pinned moment) (surplus settings (xs ++ ys)) xs.reverse)
      (evict settings moment rounds xs.length (xs ++ ys)) := by
  induction rounds generalizing xs ys with
  | zero => exact absurd hrounds (Nat.not_lt_zero _)
  | succ rounds ih =>
    by_cases hroom : (xs ++ ys).length < settings.capacity
    · have hzero : surplus settings (xs ++ ys) = 0 := by
        unfold surplus
        omega
      rw [hzero, Sweep.sweep_zero]
      refine Or.inl ⟨rfl, ?_⟩
      rw [evict, if_pos (Or.inr hroom), List.reverse_reverse]
    · obtain rfl | ⟨xs, e, rfl⟩ := List.eq_nil_or_concat' xs
      · obtain ⟨b, hb⟩ : ∃ b, surplus settings ([] ++ ys) = b + 1 :=
          Nat.exists_eq_succ_of_ne_zero (by unfold surplus; omega)
        rw [hb]
        exact Or.inl ⟨rfl, if_pos (Or.inl rfl)⟩
      · have hcount : (xs ++ [e]).length = xs.length + 1 := List.length_append
        rw [List.append_assoc, List.singleton_append] at h hroom hrounds ⊢
        have htotal : (xs ++ e :: ys).length = (xs ++ ys).length + 1 := by
          rw [List.length_append, List.length_append, List.length_cons, Nat.add_assoc]
        rw [List.reverse_append, List.reverse_singleton, List.singleton_append, hcount]
        by_cases hdirty : moment.dirty e.data = true
        · -- the iterator moves on
          have hkeep : pinned moment e = true := hdirty
          rw [evict_dirty rounds (Nat.le_of_not_lt hroom) hdirty, Sweep.sweep_keep hkeep]
          exact (ih h (by omega)).cons
        · -- the element is evicted, and the one before it is skipped
          have hfree : pinned moment e = false := eq_false_of_ne_true hdirty
          have hsurplus : surplus settings (xs ++ e :: ys) = surplus settings (xs ++ ys) + 1 := by
            unfold surplus
            omega
          have hkeyed : Keyed settings (xs ++ ys) := h.sublist ((List.sublist_cons_self e ys).append_left xs)
          have hsquare : ((xs ++ ys).length + 1) * ((xs ++ ys).length + 1 + 1) =
              (xs ++ ys).length * ((xs ++ ys).length + 1) + 2 * ((xs ++ ys).length + 1) := by ring
          have hfew : ∀ p, p ≤ (xs ++ ys).length →
              (xs ++ ys).length * ((xs ++ ys).length + 1) + p < rounds := by
            intro p hp
            rw [htotal, hsquare] at hrounds
            omega
          rw [evict_clean rounds h (Nat.le_of_not_lt hroom) hdirty, hsurplus]
          obtain rfl | ⟨xs, f, rfl⟩ := List.eq_nil_or_concat' xs
          · -- back at the last element
            have hys : [] ++ ys = ys ++ [] := (List.append_nil ys).symm
            rw [hys] at hkeyed hfew ⊢
            obtain ⟨r, hclears, hleft⟩ := (ih hkeyed (hfew _ (by simp))).clears
            rw [List.reverse_nil, Sweep.sweep_single hfree]
            rw [List.append_nil] at hclears hleft ⊢
            exact Or.inr ⟨rfl, r, (List.append_nil ys.reverse).symm ▸ hclears, hleft⟩
          · have hpos : (xs ++ [f]).length ≠ 0 := by simp
            have hback : (xs ++ [f]).length - 1 = xs.length := by simp
            rw [List.append_assoc, List.singleton_append] at hkeyed hfew ⊢
            rw [if_neg hpos, hback, List.reverse_append, List.reverse_singleton, List.singleton_append,
              Sweep.sweep_skip hfree]
            exact (ih hkeyed (hfew _ (by simp))).cons

/-- The loop of `add`. -/
theorem makeRoom_clears (moment : Moment δ) (h : Keyed settings cache) :
    ∃ r, Sweep.Clears (pinned moment) (surplus settings cache) cache.reverse r ∧
      makeRoom settings moment cache = r.reverse := by
  have hsquare : (cache.length + 1) * (cache.length + 1) =
      cache.length * (cache.length + 1) + (cache.length + 1) := by ring
  rw [← List.append_nil cache] at h
  have hleaves := evict_leaves moment ((cache.length + 1) * (cache.length + 1)) h (by
    rw [List.append_nil]
    omega)
  rw [List.append_nil] at hleaves
  exact hleaves.clears

end Evict

/-! ## `add` -/

/-- The elements that are not stored under the key. -/
def others (cache : List (Entry κ δ)) (k : κ) : List (Entry κ δ) := cache.filter fun e => e.key ≠ k

/-- An element under the key is there and has not expired. -/
def Refuses (settings : Settings κ δ) (moment : Moment δ) (cache : List (Entry κ δ)) (k : κ) : Prop :=
  ∃ e ∈ cache, e.key = k ∧ ¬ expired settings moment e = true

/-- What `add` is to do with the other elements: beyond the capacity all of them are dirty, and of
    two clean ones the more recently used one, which is the first, only goes with the second. -/
structure Frugal (settings : Settings κ δ) (moment : Moment δ) (k : κ) (cache : List (Entry κ δ))
    (result : Bool × LRUcache κ δ) : Prop where
  full : result.1 = true → settings.capacity < result.2.cache.length →
    ∀ e ∈ result.2.cache, e.key ≠ k → moment.dirty e.data = true
  order : ∀ e f, [e, f].Sublist cache → e.key ≠ k → f.key ≠ k →
    moment.dirty e.data = false → moment.dirty f.data = false →
    e ∉ result.2.cache → f ∉ result.2.cache

section Add

variable {settings : Settings κ δ} {moment : Moment δ} {c : LRUcache κ δ} {cache : List (Entry κ δ)}
variable {k : κ} {d : δ}

/-- Reachable caches. -/
theorem run_keyed {calls : List (Moment δ × Call κ δ)} (h : ∀ call ∈ calls, call.2.Proper settings) :
    Keyed settings (LRUcache.run settings calls).cache := by
  obtain ⟨c, -, hrep, hlru⟩ := run_refines h
  rw [← hlru]
  refine ⟨fun e he => ?_, ?_⟩
  · obtain ⟨n, -, rfl⟩ := List.mem_map.mp he
    rfl
  · have hkeys := hrep.keys_nodup
    unfold Nodes.toLRU
    rw [List.map_map]
    exact hkeys

/-- The result of `add`. -/
theorem add_cases (h : Keyed settings c.cache) (moment : Moment δ) (k : κ) (d : δ) :
    (Refuses settings moment c.cache k ∧ c.add settings moment k d = (false, c)) ∨
      (¬ Refuses settings moment c.cache k ∧ ∃ blocked, c.add settings moment k d =
        (true, ⟨⟨k, d, moment.now⟩ :: makeRoom settings moment (others c.cache k), blocked⟩)) := by
  unfold LRUcache.add
  cases hfind : find c.cache k with
  | none =>
    have hnone := find_eq_none.mp hfind
    have hsame : others c.cache k = c.cache :=
      List.filter_eq_self.mpr fun e he => decide_eq_true fun hk => hnone ⟨e, he, hk⟩
    rw [hsame]
    exact Or.inr ⟨fun ⟨e, he, hk, _⟩ => hnone ⟨e, he, hk⟩, _, rfl⟩
  | some e =>
    obtain ⟨he, hk⟩ := find_key hfind
    dsimp only
    by_cases hexpired : expired settings moment e = true
    · rw [if_pos hexpired, remove_eq_filter h]
      refine Or.inr ⟨fun ⟨f, hf, hfk, hnot⟩ => hnot ?_, _, rfl⟩
      rw [List.inj_on_of_nodup_map h.nodup hf he (hfk.trans hk.symm)]
      exact hexpired
    · rw [if_neg hexpired]
      exact Or.inl ⟨⟨e, he, hk, hexpired⟩, rfl⟩

omit [DecidableEq κ] in
/-- Two elements in the order of the list, and backwards. -/
theorem pair_reverse {e f : Entry κ δ} : [f, e].Sublist cache.reverse ↔ [e, f].Sublist cache := by
  have hreverse : [f, e] = [e, f].reverse := rfl
  rw [hreverse, List.reverse_sublist]

theorem pair_others {e f : Entry κ δ} (he : e.key ≠ k) (hf : f.key ≠ k) :
    [e, f].Sublist (others cache k) ↔ [e, f].Sublist cache := by
  constructor
  · exact fun h => h.trans List.filter_sublist
  · intro h
    have hself : [e, f].filter (fun e => decide (e.key ≠ k)) = [e, f] := by simp [he, hf]
    exact hself ▸ h.filter fun e => e.key ≠ k

/-- `add` is frugal if and only if the sweep is orderly. -/
theorem frugal_iff_orderly {blocked : List κ} {r : List (Entry κ δ)}
    (hsub : r.Sublist (others cache k).reverse) :
    Frugal settings moment k cache (true, ⟨⟨k, d, moment.now⟩ :: r.reverse, blocked⟩) ↔
      Sweep.Orderly (pinned moment) (surplus settings (others cache k)) (others cache k).reverse r := by
  have hle := hsub.length_le
  have hmem : ∀ e : Entry κ δ, e.key ≠ k → (e ∈ (⟨k, d, moment.now⟩ : Entry κ δ) :: r.reverse ↔ e ∈ r) := by
    intro e he
    rw [List.mem_cons, List.mem_reverse]
    exact or_iff_right fun hx => he (congrArg Entry.key hx)
  have hother : ∀ e ∈ (others cache k).reverse, e.key ≠ k := fun e he =>
    of_decide_eq_true (List.mem_filter.mp (List.mem_reverse.mp he)).2
  rw [List.length_reverse] at hle
  constructor
  · intro h
    refine ⟨fun hless e he => ?_, fun f e hpair hf he hout => ?_⟩
    · have hek := hother e (hsub.subset he)
      refine h.full rfl ?_ e ((hmem e hek).mpr he) hek
      show settings.capacity < (_ :: r.reverse).length
      rw [List.length_cons, List.length_reverse]
      rw [List.length_reverse] at hless
      unfold surplus at hless
      omega
    · have hfk := hother f (hpair.subset List.mem_cons_self)
      have hek := hother e (hpair.subset (List.mem_cons_of_mem _ List.mem_cons_self))
      have horder := h.order e f ((pair_others hek hfk).mp (pair_reverse.mp hpair)) hek hfk he hf
      exact fun hmemf => horder ((hmem e hek).not.mpr hout) ((hmem f hfk).mpr hmemf)
  · intro h
    refine ⟨fun _ hless e he hek => ?_, fun e f hpair hek hfk he hf hout => ?_⟩
    · refine h.full ?_ e ((hmem e hek).mp he)
      have hless : settings.capacity < (_ :: r.reverse).length := hless
      rw [List.length_cons, List.length_reverse] at hless
      rw [List.length_reverse]
      unfold surplus
      omega
    · have horder := h.order f e (pair_reverse.mpr ((pair_others hek hfk).mpr hpair)) hf he
      exact (hmem f hfk).not.mpr (horder ((hmem e hek).not.mp hout))

/-- `add` evicts as few clean elements as it can, and the least recently used ones, if and only if it
    refuses, or the other elements, from the least recently used one on, are `Clearable`. -/
theorem add_frugal_iff {calls : List (Moment δ × Call κ δ)} (h : ∀ call ∈ calls, call.2.Proper settings)
    (moment : Moment δ) (k : κ) (d : δ) :
    Frugal settings moment k (LRUcache.run settings calls).cache
        ((LRUcache.run settings calls).add settings moment k d) ↔
      Refuses settings moment (LRUcache.run settings calls).cache k ∨
        Sweep.Clearable (pinned moment) (surplus settings (others (LRUcache.run settings calls).cache k))
          (others (LRUcache.run settings calls).cache k).reverse := by
  have hkeyed := run_keyed h
  generalize LRUcache.run settings calls = c at hkeyed
  obtain ⟨hrefuses, hadd⟩ | ⟨hgoes, blocked, hadd⟩ := add_cases hkeyed moment k d
  · rw [hadd]
    refine iff_of_true ⟨fun hfalse => (nomatch hfalse), fun e f hpair _ _ _ _ hout => ?_⟩ (Or.inl hrefuses)
    exact absurd (hpair.subset List.mem_cons_self) hout
  · have hothers : Keyed settings (others c.cache k) := hkeyed.sublist List.filter_sublist
    obtain ⟨r, hclears, hroom⟩ := makeRoom_clears moment hothers
    rw [hadd, hroom, frugal_iff_orderly hclears.sublist,
      Sweep.orderly_iff hclears (List.nodup_reverse.mpr hothers.nodup.of_map), or_iff_right hgoes]

end Add

/-! ## Elements that have become clean -/

/-- No expiration, and numbers that are their own keys. -/
def plain (capacity : Nat) : Settings Nat Nat := ⟨0, capacity, id⟩

/-- Everything is dirty. -/
def busy : Moment Nat := ⟨0, fun _ => true⟩

/-- Nothing is dirty. -/
def idle : Moment Nat := ⟨0, fun _ => false⟩

/-- The numbers up to `n` are added while everything is dirty. -/
def additions (n : Nat) : List (Moment Nat × Call Nat Nat) :=
  (List.range n).map fun i => (busy, .add (i + 1) (i + 1))

theorem additions_proper {n capacity : Nat} : ∀ call ∈ additions n, call.2.Proper (plain capacity) := by
  intro call hcall
  obtain ⟨i, -, rfl⟩ := List.mem_map.mp hcall
  rfl

/-- One of seven elements is still dirty. The three before it and the three after it are evicted. -/
theorem add_frugal_seven :
    let moment : Moment Nat := ⟨0, fun d => d = 4⟩
    let c := LRUcache.run (plain 1) (additions 7)
    let result := c.add (plain 1) moment 8 8
    Frugal (plain 1) moment 8 c.cache result ∧ result.2.cache.map Entry.key = [8, 4] := by
  refine ⟨(add_frugal_iff additions_proper _ 8 8).mpr (Or.inr (Or.inr ⟨?_, 2, rfl, ?_⟩)), ?_⟩
  · decide
  · decide
  · decide

/-- Of two elements the more recently used one is skipped and stays, beyond the capacity; of three
    it is the second, and the first is evicted instead. -/
theorem add_not_frugal :
    (¬ Frugal (plain 1) idle 3 (LRUcache.run (plain 1) (additions 2)).cache
      ((LRUcache.run (plain 1) (additions 2)).add (plain 1) idle 3 3)) ∧
    ¬ Frugal (plain 2) idle 4 (LRUcache.run (plain 2) (additions 3)).cache
      ((LRUcache.run (plain 2) (additions 3)).add (plain 2) idle 4 4) := by
  constructor
  · intro h
    have hdirty := h.full (by decide) (by decide) ⟨2, 2, 0⟩ (by decide) (by decide)
    cases hdirty
  · intro h
    exact h.order ⟨3, 3, 0⟩ ⟨2, 2, 0⟩ (by decide) (by decide) (by decide) rfl rfl (by decide) (by decide)

end HFlat.Cache
