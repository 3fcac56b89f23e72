/-
  What the prefix search of the path map finds. `IsHit` names the prefix at which
  `searchPathRecursive` stops: the longest component prefix whose entry remaps the path. On a
  path whose components all fit `NAME_MAX` the search returns that prefix, or `false` when there
  is none (`search_of_hit`, `search_of_no_hit`); whatever it returns, the time stamps of all
  prefixes it has visited are below its result (`search_true`, `search_false`).

  `Resolves` is the loop of `toSystemPath` on snapshots without symbolic links, as a relation
  between a path and the system path it ends at, and `Visits` the entries read on the way.
-/
import HFlat.PathMap.Model

namespace HFlat.PathMap

open HFlat.Lib

/-! ## The recursion of `searchPathRecursive` -/

theorem searchGo_fuel (snap : Snapshot) (fr : Bool) (n m : Nat) (p : Str) (ts : Int) (fs : Bool)
    (hn : p.length < n) (hm : p.length < m) :
    searchGo snap fr n p ts fs = searchGo snap fr m p ts fs := by
  induction n generalizing m p ts fs with
  | zero => omega
  | succ n ih =>
    cases m with
    | zero => omega
    | succ m =>
      unfold searchGo
      cases hpos : findLastOf '/' p with
      | none => rfl
      | some i =>
        have hi := (findLastOf_eq_some hpos).2.2
        have hlen : (p.take i).length = i := by simp; omega
        dsimp only
        rw [ih m (p.take i) _ true (by omega) (by omega)]

/-- The recursion of the source: one level of `searchPathRecursive`. -/
theorem searchPathRecursive_eq (snap : Snapshot) (p : Str) (ts : Int) (fr fs : Bool) :
    searchPathRecursive snap p ts fr fs =
      if found snap p fr fs then (true, p, seen snap p ts)
      else if lastComponentSize p > NAME_MAX then (false, p, -ENAMETOOLONG)
      else
        match findLastOf '/' p with
        | none => (false, p, seen snap p ts)
        | some i => searchPathRecursive snap (p.take i) (seen snap p ts) fr true := by
  unfold searchPathRecursive
  rw [searchGo]
  cases hpos : findLastOf '/' p with
  | none => rfl
  | some i =>
    have hi := (findLastOf_eq_some hpos).2.2
    have hlen : (p.take i).length = i := by simp; omega
    dsimp only
    rw [searchGo_fuel snap fr p.length ((p.take i).length + 1) (p.take i) _ true (by omega)
      (by omega)]

/-! ## Hits -/

/-- The entry at the component prefix `q` of `p` remaps `p`. Only at the end of the full path
    does `followSymlink` matter. -/
def Follows (snap : Snapshot) (fr fs : Bool) (p q : Str) : Prop :=
  found snap q fr (fs || decide (q ≠ p)) = true

/-- `q` is the longest component prefix of `p` that remaps it. -/
structure IsHit (snap : Snapshot) (fr fs : Bool) (p q : Str) : Prop where
  under : Under q p
  follows : Follows snap fr fs p q
  longest : ∀ k, Under k p → Follows snap fr fs p k → k.length ≤ q.length

/-- Every component of the path fits `NAME_MAX`. -/
def NamesFit (p : Str) : Prop := ∀ q, Under q p → lastComponentSize q ≤ NAME_MAX

/-- The permission time stamp stored for a path, `0` without an entry. -/
def stampOf (snap : Snapshot) (k : Str) : Nat :=
  ((snap.find k).map PMEntry.permissionTimeStamp).getD 0

theorem NamesFit.mono {p q : Str} (h : NamesFit p) (hq : Under q p) : NamesFit q :=
  fun k hk => h k (hk.trans hq)

theorem IsHit.unique {snap : Snapshot} {fr fs : Bool} {p q k : Str}
    (hq : IsHit snap fr fs p q) (hk : IsHit snap fr fs p k) : q = k := by
  have h1 := hq.longest k hk.under hk.follows
  have h2 := hk.longest q hq.under hq.follows
  exact (hq.under.of_le hk.under h2).eq_of_length h1

theorem le_seen (snap : Snapshot) (p : Str) (ts : Int) : ts ≤ seen snap p ts := by
  unfold seen
  split
  · exact le_max_left _ _
  · exact le_refl _

theorem stampOf_le_seen (snap : Snapshot) (p : Str) (ts : Int) (hts : 0 ≤ ts) :
    (stampOf snap p : Int) ≤ seen snap p ts := by
  unfold stampOf seen
  cases snap.find p with
  | none => simpa using hts
  | some e => simp

/-- Dropping the last component keeps the prefixes that remap the path. -/
theorem follows_take {snap : Snapshot} {fr fs : Bool} {p q : Str} {i : Nat}
    (hpos : findLastOf '/' p = some i) (hq : Under q (p.take i)) :
    Follows snap fr fs p q ↔ Follows snap fr true (p.take i) q := by
  have hne : q ≠ p := ((within_proper_iff hpos).mp hq).2
  simp [Follows, hne]

theorem follows_self {snap : Snapshot} {fr fs : Bool} {p : Str} :
    Follows snap fr fs p p ↔ found snap p fr fs = true := by
  simp [Follows]

theorem IsHit.self {snap : Snapshot} {fr fs : Bool} {p : Str} (h : found snap p fr fs = true) :
    IsHit snap fr fs p p :=
  ⟨within_refl p, follows_self.mpr h, fun _ hk _ => hk.length_le⟩

theorem isHit_take {snap : Snapshot} {fr fs : Bool} {p q : Str} {i : Nat}
    (hpos : findLastOf '/' p = some i) (hf : ¬ found snap p fr fs = true) :
    IsHit snap fr fs p q ↔ IsHit snap fr true (p.take i) q := by
  constructor
  · intro h
    have hne : q ≠ p := by
      rintro rfl
      exact hf (follows_self.mp h.follows)
    have hq : Under q (p.take i) := (within_proper_iff hpos).mpr ⟨h.under, hne⟩
    refine ⟨hq, (follows_take hpos hq).mp h.follows, fun k hk hkf => ?_⟩
    exact h.longest k (hk.trans (within_take_findLastOf hpos)) ((follows_take hpos hk).mpr hkf)
  · intro h
    refine ⟨h.under.trans (within_take_findLastOf hpos), (follows_take hpos h.under).mpr h.follows,
      fun k hk hkf => ?_⟩
    have hne : k ≠ p := by
      rintro rfl
      exact hf (follows_self.mp hkf)
    have hk' : Under k (p.take i) := (within_proper_iff hpos).mpr ⟨hk, hne⟩
    exact h.longest k hk' ((follows_take hpos hk').mp hkf)

/-! ## What the search returns -/

/-- A search that succeeds stops at the hit, and its time stamp covers every prefix from the
    whole path down to the hit. -/
theorem search_true {snap : Snapshot} {p q : Str} {ts ts' : Int} {fr fs : Bool} (hts : 0 ≤ ts)
    (h : searchPathRecursive snap p ts fr fs = (true, q, ts')) :
    IsHit snap fr fs p q ∧ ts ≤ ts' ∧
      ∀ k, Under k p → q.length ≤ k.length → (stampOf snap k : Int) ≤ ts' := by
  induction hl : p.length using Nat.strong_induction_on generalizing p ts fs with
  | _ n ih =>
    rw [searchPathRecursive_eq] at h
    split_ifs at h with hf hs
    · obtain ⟨rfl, rfl⟩ : p = q ∧ seen snap p ts = ts' := by simpa using h
      refine ⟨IsHit.self hf, le_seen snap p ts, fun k hk hlen => ?_⟩
      obtain rfl : k = p := hk.eq_of_length hlen
      exact stampOf_le_seen snap k ts hts
    · exact absurd h (by simp)
    · cases hpos : findLastOf '/' p with
      | none => rw [hpos] at h; simp at h
      | some i =>
        rw [hpos] at h
        have hi := (findLastOf_eq_some hpos).2.2
        have hlen : (p.take i).length = i := by simp; omega
        have hts' : 0 ≤ seen snap p ts := le_trans hts (le_seen snap p ts)
        obtain ⟨h1, h2, h3⟩ := ih (p.take i).length (by omega) hts' h rfl
        refine ⟨(isHit_take hpos hf).mpr h1, le_trans (le_seen snap p ts) h2, fun k hk hkl => ?_⟩
        by_cases hkp : k = p
        · subst hkp
          exact le_trans (stampOf_le_seen snap k ts hts) h2
        · exact h3 k ((within_proper_iff hpos).mpr ⟨hk, hkp⟩) hkl

/-- A search that fails on a path with fitting names has found no prefix that remaps it, and its
    time stamp covers every prefix. -/
theorem search_false {snap : Snapshot} {p q : Str} {ts ts' : Int} {fr fs : Bool} (hts : 0 ≤ ts)
    (hn : NamesFit p) (h : searchPathRecursive snap p ts fr fs = (false, q, ts')) :
    (∀ k, Under k p → ¬ Follows snap fr fs p k) ∧ ts ≤ ts' ∧
      ∀ k, Under k p → (stampOf snap k : Int) ≤ ts' := by
  induction hl : p.length using Nat.strong_induction_on generalizing p ts fs with
  | _ n ih =>
    rw [searchPathRecursive_eq] at h
    have hsize := hn p (within_refl p)
    split_ifs at h with hf hs
    · exact absurd h (by simp)
    · exact absurd hsize (by omega)
    · cases hpos : findLastOf '/' p with
      | none =>
        rw [hpos] at h
        obtain ⟨rfl, rfl⟩ : p = q ∧ seen snap p ts = ts' := by simpa using h
        refine ⟨fun k hk hkf => ?_, le_seen snap p ts, fun k hk => ?_⟩
        · obtain rfl := (within_iff_eq_of_none hpos).mp hk
          exact hf (follows_self.mp hkf)
        · obtain rfl := (within_iff_eq_of_none hpos).mp hk
          exact stampOf_le_seen snap k ts hts
      | some i =>
        rw [hpos] at h
        have hi := (findLastOf_eq_some hpos).2.2
        have hlen : (p.take i).length = i := by simp; omega
        have hts' : 0 ≤ seen snap p ts := le_trans hts (le_seen snap p ts)
        obtain ⟨h1, h2, h3⟩ := ih (p.take i).length (by omega) hts'
          (hn.mono (within_take_findLastOf hpos)) h rfl
        refine ⟨fun k hk hkf => ?_, le_trans (le_seen snap p ts) h2, fun k hk => ?_⟩
        · have hkp : k ≠ p := by
            rintro rfl
            exact hf (follows_self.mp hkf)
          have hk' := (within_proper_iff hpos).mpr ⟨hk, hkp⟩
          exact h1 k hk' ((follows_take hpos hk').mp hkf)
        · by_cases hkp : k = p
          · subst hkp
            exact le_trans (stampOf_le_seen snap k ts hts) h2
          · exact h3 k ((within_proper_iff hpos).mpr ⟨hk, hkp⟩)

theorem seen_le {snap : Snapshot} {p : Str} {ts bound : Int} (hts : ts ≤ bound)
    (hstamp : (stampOf snap p : Int) ≤ bound) : seen snap p ts ≤ bound := by
  unfold seen
  unfold stampOf at hstamp
  cases hf : snap.find p with
  | none => exact hts
  | some e =>
    rw [hf] at hstamp
    exact max_le hts hstamp

/-- The time stamp is an error or bounded by those at or above the path. -/
theorem search_le {snap : Snapshot} {p q : Str} {ts ts' bound : Int} {fr fs b : Bool} (hts : ts ≤ bound)
    (hstamp : ∀ k, Under k p → (stampOf snap k : Int) ≤ bound)
    (h : searchPathRecursive snap p ts fr fs = (b, q, ts')) :
    ts' = -ENAMETOOLONG ∨ ts ≤ ts' ∧ ts' ≤ bound := by
  induction hl : p.length using Nat.strong_induction_on generalizing p ts fs with
  | _ n ih =>
    rw [searchPathRecursive_eq] at h
    have hseen := seen_le hts (hstamp p (within_refl p))
    have hle := le_seen snap p ts
    split_ifs at h with hf hs
    · obtain ⟨-, -, rfl⟩ : true = b ∧ p = q ∧ seen snap p ts = ts' := by simpa using h
      exact Or.inr ⟨hle, hseen⟩
    · obtain ⟨-, -, rfl⟩ : false = b ∧ p = q ∧ -ENAMETOOLONG = ts' := by simpa using h
      exact Or.inl rfl
    · cases hpos : findLastOf '/' p with
      | none =>
        rw [hpos] at h
        obtain ⟨-, -, rfl⟩ : false = b ∧ p = q ∧ seen snap p ts = ts' := by simpa using h
        exact Or.inr ⟨hle, hseen⟩
      | some i =>
        rw [hpos] at h
        have hlt := (findLastOf_eq_some hpos).2.2
        have hunder := within_take_findLastOf hpos
        have hlen : (p.take i).length < n := by
          rw [List.length_take]
          omega
        rcases ih _ hlen hseen (fun k hk => hstamp k (hk.trans hunder)) h rfl with he | ⟨h1, h2⟩
        · exact Or.inl he
        · exact Or.inr ⟨hle.trans h1, h2⟩

theorem search_of_hit {snap : Snapshot} {p q : Str} {ts : Int} {fr fs : Bool} (hts : 0 ≤ ts)
    (hn : NamesFit p) (h : IsHit snap fr fs p q) :
    ∃ ts', searchPathRecursive snap p ts fr fs = (true, q, ts') := by
  rcases hs : searchPathRecursive snap p ts fr fs with ⟨_ | _, k, ts'⟩
  · exact absurd h.follows ((search_false hts hn hs).1 q h.under)
  · obtain rfl := (search_true hts hs).1.unique h
    exact ⟨ts', rfl⟩

theorem search_of_no_hit {snap : Snapshot} {p : Str} {ts : Int} {fr fs : Bool} (hts : 0 ≤ ts)
    (h : ∀ k, Under k p → ¬ Follows snap fr fs p k) :
    ∃ q ts', searchPathRecursive snap p ts fr fs = (false, q, ts') := by
  rcases hs : searchPathRecursive snap p ts fr fs with ⟨_ | _, k, ts'⟩
  · exact ⟨k, ts', rfl⟩
  · have hk := (search_true hts hs).1
    exact absurd hk.follows (h k hk.under)

theorem hit_or_none (snap : Snapshot) (fr fs : Bool) {p : Str} (hn : NamesFit p) :
    (∃ q, IsHit snap fr fs p q) ∨ ∀ k, Under k p → ¬ Follows snap fr fs p k := by
  rcases hs : searchPathRecursive snap p 0 fr fs with ⟨_ | _, q, ts'⟩
  · exact Or.inr (search_false (le_refl 0) hn hs).1
  · exact Or.inl ⟨q, (search_true (le_refl 0) hs).1⟩

/-- A search that reports no error on a snapshot whose keys have fitting names was given a path
    with fitting names. -/
theorem search_namesFit {snap : Snapshot} {p q : Str} {ts ts' : Int} {fr fs b : Bool}
    (hkeys : ∀ k, snap.find k ≠ none → NamesFit k) (hts' : 0 ≤ ts')
    (h : searchPathRecursive snap p ts fr fs = (b, q, ts')) : NamesFit p := by
  induction hl : p.length using Nat.strong_induction_on generalizing p ts fs with
  | _ n ih =>
    rw [searchPathRecursive_eq] at h
    split_ifs at h with hf hs
    · refine hkeys p fun hn => ?_
      simp [found, hn] at hf
    · obtain rfl : -ENAMETOOLONG = ts' := by simpa using congrArg (fun x => x.2.2) h
      exact absurd hts' (by decide)
    · cases hpos : findLastOf '/' p with
      | none =>
        intro k hk
        obtain rfl := (within_iff_eq_of_none hpos).mp hk
        omega
      | some i =>
        rw [hpos] at h
        have hi := (findLastOf_eq_some hpos).2.2
        have hlen : (p.take i).length = i := by simp; omega
        have hfit := ih (p.take i).length (by omega) h rfl
        intro k hk
        by_cases hkp : k = p
        · rw [hkp]; omega
        · exact hfit k ((within_proper_iff hpos).mpr ⟨hk, hkp⟩)

/-! ## Names under substitution -/

theorem lastComponentSize_append (q : Str) {r : Str} (hr : PathTail r) (hne : r ≠ []) :
    lastComponentSize (q ++ r) = lastComponentSize r := by
  unfold lastComponentSize
  cases h : findLastOf '/' r with
  | none =>
    rcases hr with rfl | ⟨r', rfl⟩
    · exact absurd rfl hne
    · exact absurd (by simp) (findLastOf_eq_none.mp h)
  | some i =>
    rw [findLastOf_append q h]
    simp only [List.length_append]
    omega

/-- Replacing the prefix `q` by a path with fitting names keeps all names fitting. -/
theorem NamesFit.replace {t q r : Str} (ht : NamesFit t) (hq : NamesFit (q ++ r))
    (hr : PathTail r) : NamesFit (t ++ r) := by
  intro k hk
  by_cases hw : Under t k
  · obtain ⟨w, hw, rfl⟩ := hw
    by_cases hnil : w = []
    · rw [hnil, List.append_nil]; exact ht t (within_refl t)
    · obtain ⟨v, hv, hkv⟩ := hk
      have hrv : r = w ++ v := by
        rw [List.append_assoc] at hkv
        exact List.append_cancel_left hkv
      rw [lastComponentSize_append t hw hnil, ← lastComponentSize_append q hw hnil]
      exact hq (q ++ w) ⟨v, hv, by rw [hrv, List.append_assoc]⟩
  · exact ht k (hk.of_append_left hr hw).1

/-! ## The loop of `toSystemPath` without symbolic links -/

/-- The snapshot has no symbolic links. -/
def NoSymlinks (snap : Snapshot) : Prop :=
  ∀ k e, snap.find k = some e → e.type ≠ .SYMLINK

/-- Every target of the snapshot has fitting names. -/
def TargetsFit (snap : Snapshot) : Prop :=
  ∀ k e, snap.find k = some e → NamesFit e.target

/-- The loop, from a path and the flag `followReuse`, ends at the system path. -/
inductive Resolves (snap : Snapshot) : Bool → Str → Str → Prop
  | done {fr : Bool} {p : Str} (h : ∀ k, Under k p → ¬ Follows snap fr false p k) :
      Resolves snap fr p p
  | hop {fr : Bool} {p q s : Str} {e : PMEntry} (hit : IsHit snap fr false p q)
      (he : snap.find q = some e)
      (h : Resolves snap (e.type ≠ .MOVE) (e.target ++ p.drop q.length) s) : Resolves snap fr p s

/-- The loop reads the entry of `k`: `k` is a prefix of a path the loop passes through, not
    shorter than the hit there. -/
inductive Visits (snap : Snapshot) : Bool → Str → Str → Prop
  | here {fr : Bool} {p k : Str} (hk : Under k p)
      (h : ∀ q, IsHit snap fr false p q → q.length ≤ k.length) : Visits snap fr p k
  | hop {fr : Bool} {p q k : Str} {e : PMEntry} (hit : IsHit snap fr false p q)
      (he : snap.find q = some e)
      (h : Visits snap (e.type ≠ .MOVE) (e.target ++ p.drop q.length) k) : Visits snap fr p k

theorem Resolves.det {snap : Snapshot} {fr : Bool} {p s t : Str}
    (hs : Resolves snap fr p s) (ht : Resolves snap fr p t) : s = t := by
  induction hs with
  | done h =>
    cases ht with
    | done => rfl
    | hop hit => exact absurd hit.follows (h _ hit.under)
  | hop hit he _ ih =>
    cases ht with
    | done h => exact absurd hit.follows (h _ hit.under)
    | hop hit' he' h' =>
      obtain rfl := hit.unique hit'
      obtain rfl := Option.some.inj (he.symm.trans he')
      exact ih h'

theorem IsHit.namesFit {snap : Snapshot} {fr fs : Bool} {p q : Str} {e : PMEntry}
    (hf : TargetsFit snap) (hit : IsHit snap fr fs p q) (he : snap.find q = some e)
    (hn : NamesFit p) : NamesFit (e.target ++ p.drop q.length) :=
  (hf q e he).replace (hit.under.drop_eq.symm ▸ hn) hit.under.tail_drop

theorem toSystemPathLoop_succ (snap : Snapshot) (fs : Bool) (fuel : Nat) (p : Str) (fr : Bool)
    (links : Nat) (ts : Int) {res : Str × Int}
    (h : toSystemPathLoop snap fs fuel p fr links ts = some res) :
    toSystemPathLoop snap fs (fuel + 1) p fr links ts = some res := by
  induction fuel generalizing p fr links ts with
  | zero => simp [toSystemPathLoop] at h
  | succ n ih =>
    rw [toSystemPathLoop] at h ⊢
    rcases hsr : searchPathRecursive snap p ts fr fs with ⟨_ | _, q, ts'⟩
    · rw [hsr] at h
      exact h
    · rw [hsr] at h
      cases hq : snap.find q with
      | none => simp [hq] at h
      | some e =>
        simp only [hq] at h ⊢
        split_ifs at h ⊢ with hl
        · exact h
        all_goals exact ih _ _ _ _ h

theorem toSystemPathLoop_le {snap : Snapshot} {fs fr : Bool} {p : Str} {links : Nat} {ts : Int}
    {n m : Nat} {res : Str × Int} (hnm : n ≤ m)
    (h : toSystemPathLoop snap fs n p fr links ts = some res) :
    toSystemPathLoop snap fs m p fr links ts = some res := by
  induction hnm with
  | refl => exact h
  | step _ ih => exact toSystemPathLoop_succ snap fs _ p fr links ts ih

theorem ToSystemPath.det {db : PathMapDB} {u : Str} {ctype : CallingType} {r1 r2 : Str × Int}
    (h1 : ToSystemPath db u ctype r1) (h2 : ToSystemPath db u ctype r2) : r1 = r2 := by
  obtain ⟨n, h1⟩ := h1
  obtain ⟨m, h2⟩ := h2
  unfold toSystemPath at h1 h2
  dsimp only at h1 h2
  split_ifs at h1 h2
  · exact Option.some.inj (h1.symm.trans h2)
  · have h1' := toSystemPathLoop_le (Nat.le_max_left n m) h1
    have h2' := toSystemPathLoop_le (Nat.le_max_right n m) h2
    exact Option.some.inj (h1'.symm.trans h2')

/-- A resolution is a run of the loop. -/
theorem Resolves.loop {snap : Snapshot} {fr : Bool} {p s : Str} (h : Resolves snap fr p s)
    (hs : NoSymlinks snap) (hf : TargetsFit snap) (hn : NamesFit p) (links : Nat) (ts : Int)
    (hts : 0 ≤ ts) :
    ∃ fuel ts', toSystemPathLoop snap false fuel p fr links ts = some (s, ts') ∧ ts ≤ ts' := by
  induction h generalizing ts with
  | done h =>
    obtain ⟨q, ts', hq⟩ := search_of_no_hit hts h
    exact ⟨1, ts', by rw [toSystemPathLoop, hq], (search_false hts hn hq).2.1⟩
  | @hop fr p q s e hit he _ ih =>
    obtain ⟨ts1, hq⟩ := search_of_hit hts hn hit
    have h1 := (search_true hts hq).2.1
    obtain ⟨fuel, ts', hl, hle⟩ := ih (hit.namesFit hf he hn) ts1 (le_trans hts h1)
    have hsym := hs q e he
    refine ⟨fuel + 1, ts', ?_, le_trans h1 hle⟩
    rw [toSystemPathLoop, hq]
    simpa [he, hsym] using hl

/-- The result of the loop is the resolution of the path, and its time stamp covers every entry
    the loop has read. -/
theorem loop_resolves {snap : Snapshot} {fr : Bool} {p s : Str} {fuel links : Nat} {ts ts' : Int}
    (hs : NoSymlinks snap) (hf : TargetsFit snap) (hn : NamesFit p) (hts : 0 ≤ ts)
    (h : toSystemPathLoop snap false fuel p fr links ts = some (s, ts')) :
    Resolves snap fr p s ∧ ts ≤ ts' ∧ ∀ k, Visits snap fr p k → (stampOf snap k : Int) ≤ ts' := by
  induction fuel generalizing p fr ts with
  | zero => simp [toSystemPathLoop] at h
  | succ n ih =>
    rw [toSystemPathLoop] at h
    rcases hq : searchPathRecursive snap p ts fr false with ⟨_ | _, q, ts1⟩
    · rw [hq] at h
      obtain ⟨rfl, rfl⟩ : p = s ∧ ts1 = ts' := by simpa using h
      obtain ⟨h1, h2, h3⟩ := search_false hts hn hq
      refine ⟨Resolves.done h1, h2, fun k hk => ?_⟩
      cases hk with
      | here hk _ => exact h3 k hk
      | hop hit => exact absurd hit.follows (h1 _ hit.under)
    · rw [hq] at h
      obtain ⟨hit, h2, h3⟩ := search_true hts hq
      cases he : snap.find q with
      | none => simp [he] at h
      | some e =>
        have hsym := hs q e he
        simp only [he, hsym, false_and, if_false] at h
        obtain ⟨h4, h5, h6⟩ := ih (hit.namesFit hf he hn) (le_trans hts h2) h
        refine ⟨Resolves.hop hit he h4, le_trans h2 h5, fun k hk => ?_⟩
        cases hk with
        | here hk hlen => exact le_trans (h3 k hk (hlen q hit)) h5
        | hop hit' he' hk =>
          obtain rfl := hit.unique hit'
          obtain rfl := Option.some.inj (he.symm.trans he')
          exact h6 k hk

end HFlat.PathMap
