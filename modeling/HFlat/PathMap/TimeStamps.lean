/-
  Permission changes and the time stamps of a lookup. A lookup collects the time stamps of the
  entries it reads, and it reads only part of the names above a path: the search stops at the first
  mapping it follows and restarts at the target. `Misses c` says that the loop ends without having
  read a stamp of at least `c`. In a run whose steps satisfy `StampRun` no lookup of an existing
  path misses the change of a directory at or above it (`timeStamp_covers_changes`).
-/
import HFlat.PathMap.Moves

namespace HFlat.PathMap

open HFlat.Lib

/-! ## Lookups that miss a change -/

/-- The loop ends and no entry it has read shows a change at version `c`. -/
inductive Misses (snap : Snapshot) (c : Nat) : Bool → Str → Prop
  | done {fr : Bool} {p : Str} (hn : ∀ k, Under k p → ¬ Follows snap fr false p k)
      (h : ∀ k, Under k p → stampOf snap k < c) : Misses snap c fr p
  | hop {fr : Bool} {p q : Str} {e : PMEntry} (hit : IsHit snap fr false p q)
      (he : snap.find q = some e) (h : ∀ k, Under k p → q.length ≤ k.length → stampOf snap k < c)
      (hm : Misses snap c (e.type ≠ .MOVE) (e.target ++ p.drop q.length)) : Misses snap c fr p

theorem Misses.mono {snap : Snapshot} {c c' : Nat} (hc : c ≤ c') {fr : Bool} {p : Str}
    (h : Misses snap c fr p) : Misses snap c' fr p := by
  induction h with
  | done hn h => exact Misses.done hn fun k hk => lt_of_lt_of_le (h k hk) hc
  | hop hit he h _ ih => exact Misses.hop hit he (fun k hk hl => lt_of_lt_of_le (h k hk hl) hc) ih

/-- A change that the entry of the path itself shows is not missed. -/
theorem Misses.self {snap : Snapshot} {c : Nat} {fr : Bool} {p : Str} (h : Misses snap c fr p) :
    stampOf snap p < c := by
  cases h with
  | done _ h => exact h p (within_refl p)
  | hop hit _ h _ => exact h p (within_refl p) hit.under.length_le

theorem Resolves.misses {snap : Snapshot} {c : Nat} {fr : Bool} {p s : Str}
    (h : Resolves snap fr p s) (hv : ∀ k, Visits snap fr p k → stampOf snap k < c) :
    Misses snap c fr p := by
  induction h with
  | done hn =>
    exact Misses.done hn fun k hk =>
      hv k (Visits.here hk fun q hq => absurd hq.follows (hn q hq.under))
  | hop hit he _ ih =>
    refine Misses.hop hit he (fun k hk hl => ?_) (ih fun k hk => hv k (Visits.hop hit he hk))
    exact hv k (Visits.here hk fun q hq => hq.unique hit ▸ hl)

/-- A lookup with a smaller time stamp has missed the change. -/
theorem misses_of_timeStamp {db : PathMapDB} {u sys : Str} {ts : Int} {c : Nat}
    (hs : NoSymlinks db.snapshot) (hf : TargetsFit db.snapshot) (hu : UserPath u)
    (h : ToSystemPath db u .LOOKUP (sys, ts)) (hts : 0 ≤ ts) (hc : ts < c) :
    Misses db.snapshot c true u := by
  obtain ⟨fuel, h⟩ := h
  have hlen : ¬ u.length > PATH_MAX := by
    intro hgt
    simp only [toSystemPath, hu.iointercept, hgt, if_true, Option.some.injEq, Prod.mk.injEq] at h
    rw [← h.2] at hts
    exact absurd hts (by decide)
  simp only [toSystemPath, hu.iointercept, hlen, if_false, reduceCtorEq, decide_false] at h
  obtain ⟨hres, -, hvis⟩ := loop_resolves hs hf hu.namesFit (le_refl 0) h
  refine hres.misses fun k hk => ?_
  have := hvis k hk
  omega

/-- What a lookup reads of `k` on the way along `p`, in two snapshots: `k` remaps the path in both
    or in neither, by the same entry, and shows no newer change in `S` than in `S'`. -/
structure SameRead (S' S : Snapshot) (fr' fr : Bool) (c : Nat) (p k : Str) : Prop where
  follows : Follows S' fr' false p k ↔ Follows S fr false p k
  mapping : Follows S' fr' false p k → SameMapping S' S k
  stamp : stampOf S' k < c → stampOf S k < c

/-- One round of the loop: a change missed in `S'` is missed in `S` if the same is read now and the
    change is missed from the target on. -/
theorem Misses.first {S S' : Snapshot} {c : Nat} {fr fr' : Bool} {p : Str}
    (hsame : ∀ k, Under k p → SameRead S' S fr' fr c p k)
    (hnext : ∀ q e, IsHit S fr false p q → S.find q = some e →
      Misses S' c (e.type ≠ .MOVE) (e.target ++ p.drop q.length) →
      Misses S c (e.type ≠ .MOVE) (e.target ++ p.drop q.length))
    (h : Misses S' c fr' p) : Misses S c fr p := by
  cases h with
  | done hn h =>
    exact Misses.done (fun k hk hf => hn k hk ((hsame k hk).follows.mpr hf))
      fun k hk => (hsame k hk).stamp (h k hk)
  | @hop _ _ q e hit he h hm =>
    have hq := hsame q hit.under
    obtain ⟨e', he', hty, htg⟩ := hq.mapping hit.follows e he
    have hit' : IsHit S fr false p q :=
      ⟨hit.under, hq.follows.mp hit.follows,
        fun k hk hf => hit.longest k hk ((hsame k hk).follows.mpr hf)⟩
    refine Misses.hop hit' he' (fun k hk hl => (hsame k hk).stamp (h k hk hl)) ?_
    refine hnext q e' hit' he' ?_
    rw [hty, htg]
    exact hm

/-- The whole loop: the rounds that satisfy `P` read the same. -/
theorem Misses.transfer {S S' : Snapshot} {c : Nat} (P : Bool → Str → Prop)
    (hsame : ∀ fr p, P fr p → ∀ k, Under k p → SameRead S' S fr fr c p k)
    (hnext : ∀ fr p q e, P fr p → IsHit S fr false p q → S.find q = some e →
      P (e.type ≠ .MOVE) (e.target ++ p.drop q.length))
    {fr : Bool} {p : Str} (h : Misses S' c fr p) (hp : P fr p) : Misses S c fr p := by
  induction h with
  | done hn h =>
    refine (Misses.done hn h).first (hsame _ _ hp) fun q e hit _ _ => ?_
    exact absurd ((hsame _ _ hp q hit.under).follows.mpr hit.follows) (hn q hit.under)
  | @hop fr p q e hit he h hm ih =>
    refine (Misses.hop hit he h hm).first (hsame _ _ hp) fun q' e' hit' he' _ => ?_
    obtain rfl : q = q' := by
      refine hit.unique ⟨hit'.under, (hsame _ _ hp q' hit'.under).follows.mpr hit'.follows, ?_⟩
      exact fun k hk hf => hit'.longest k hk ((hsame _ _ hp k hk).follows.mp hf)
    obtain ⟨e'', he'', hty, htg⟩ := (hsame _ _ hp q hit.under).mapping hit.follows e he
    obtain rfl := Option.some.inj (he'.symm.trans he'')
    rw [hty, htg]
    refine ih ?_
    rw [← hty, ← htg]
    exact hnext fr p q e' hp hit' he'

/-! ## The condition on a step -/

/-- No directory of the tree has had a permission change. -/
def Tree.Quiet (t : Tree) : Prop := ∀ a n, t a = some n → n.changed = 0

/-- No move entry lies strictly below the target of a mapping. -/
def TargetsBare (snap : Snapshot) : Prop :=
  ∀ k e, snap.find k = some e → Mapped snap k →
    ∀ x, typeAt snap x = some .MOVE → Under e.target x → x = e.target

/-- When a move of `o` to `d` keeps every recorded change in sight. -/
structure StampMove (s : State) (o d : Str) : Prop where
  /-- no mapped name lies below the destination -/
  destBelow : ∀ k, Mapped s.db.snapshot k → Under d k → k = d
  /-- no mapping leads through the destination, unless the move leads back to where `o` came from -/
  destTargets : moveTarget s.db.snapshot o ≠ d → ∀ k e, s.db.snapshot.find k = some e →
    Mapped s.db.snapshot k → ¬ Under d e.target ∧ ¬ Under e.target d
  /-- no mapping leads through an origin that is itself a moved name -/
  originTargets : typeAt s.db.snapshot o = some .MOVE → ∀ k e, s.db.snapshot.find k = some e →
    Mapped s.db.snapshot k → ¬ Under o e.target ∧ ¬ Under e.target o
  /-- no mapped name lies below a mapped origin -/
  originBelow : Mapped s.db.snapshot o → ∀ k, Mapped s.db.snapshot k → Under o k → k = o
  /-- no change recorded below a mapped origin is newer than the one recorded for it -/
  stampsBelow : Mapped s.db.snapshot o → ∀ k, Under o k →
    stampOf s.db.snapshot k ≤ stampOf s.db.snapshot o
  /-- a move back drops no recorded change and does not lead below a reused name -/
  back : moveTarget s.db.snapshot o = d → typeAt s.db.snapshot d = some .REUSE ∧
    stampOf s.db.snapshot d = 0 ∧ stampOf s.db.snapshot o = 0 ∧
    ∀ k, Under k d → k ≠ d → typeAt s.db.snapshot k ≠ some .REUSE
  /-- the latest change above the destination is not newer than the latest at or above `o` -/
  aboveDest : ∀ a n, Under a d → a ≠ d → s.tree a = some n →
    ∃ b m, Under b o ∧ s.tree b = some m ∧ n.changed ≤ m.changed

/-- The steps that keep every recorded change in sight. Before the first change every creation and
    every move does. -/
def StampRun (s : State) : Op → Prop
  | .create q _ =>
      (∀ a n, Under a q → a ≠ q → s.tree a = some n → n.changed ≤ stampOf s.db.snapshot q) ∨
        (¬ Mapped s.db.snapshot q ∧ TargetsBare s.db.snapshot)
  | .move o d => s.tree.Quiet ∨ StampMove s o d
  | .chmod p => p ≠ root ∧ ∀ k, Mapped s.db.snapshot k → Under p k → k ≠ p →
      (∃ e, s.db.snapshot.find k = some e ∧ e.type = .MOVE ∧ Under p e.target) ∨
        (typeAt s.db.snapshot k = some .REUSE ∧ s.tree k = none)
  | _ => False

/-- The snapshot is well formed, whatever moves have been made. -/
structure StampWf (s : State) : Prop where
  closed : s.tree.Closed
  rootUnchanged : ∀ n, s.tree root = some n → n.changed = 0
  noSymlinks : NoSymlinks s.db.snapshot
  version : s.db.snapshotVersion < 2 ^ 63
  keys : ∀ k, s.db.snapshot.find k ≠ none → UserPath k
  reuseTarget : ∀ k e, s.db.snapshot.find k = some e → e.type = .REUSE →
    ∃ n, e.target = reuseName n
  targetsFit : TargetsFit s.db.snapshot
  stamps : ∀ k, stampOf s.db.snapshot k ≤ s.db.snapshotVersion

/-- The invariant: no existing path misses a change at or above it. -/
structure StampInv (s : State) : Prop extends StampWf s where
  seen : ∀ q, s.tree q ≠ none → ∀ a n, Under a q → s.tree a = some n → n.changed ≠ 0 →
    ¬ Misses s.db.snapshot n.changed true q

/-! ## Paths past the first hop -/

/-- Where the loop can be after a hop. -/
def Past (snap : Snapshot) (fr : Bool) (p : Str) : Prop :=
  ∃ k e r, snap.find k = some e ∧ Mapped snap k ∧ PathTail r ∧ p = e.target ++ r ∧
    (fr = true → e.type = .REUSE)

theorem mapped_type {snap : Snapshot} {k : Str} {e : PMEntry} (he : snap.find k = some e)
    (hm : Mapped snap k) : e.type = .MOVE ∨ e.type = .REUSE := by
  unfold Mapped at hm
  rw [typeAt_eq he] at hm
  simpa using hm

theorem past_hop {snap : Snapshot} (hs : NoSymlinks snap) {fr : Bool} {p q : Str} {e : PMEntry}
    (hit : IsHit snap fr false p q) (he : snap.find q = some e) :
    Past snap (e.type ≠ .MOVE) (e.target ++ p.drop q.length) := by
  have hm : Mapped snap q := by
    rcases (follows_iff hs).mp hit.follows with h | ⟨-, h⟩
    · exact Or.inl h
    · exact Or.inr h
  refine ⟨q, e, p.drop q.length, he, hm, hit.under.tail_drop, rfl, fun hfr => ?_⟩
  exact (mapped_type he hm).resolve_left (by simpa using hfr)

theorem stampOf_none {snap : Snapshot} {k : Str} (h : snap.find k = none) : stampOf snap k = 0 := by
  simp [stampOf, h]

theorem not_follows_none {snap : Snapshot} {fr fs : Bool} {p k : Str} (h : snap.find k = none) :
    ¬ Follows snap fr fs p k := by
  simp [Follows, found, h]

theorem SameRead.of_eq {S' S : Snapshot} {fr : Bool} {c : Nat} {p k : Str}
    (h : S'.find k = S.find k) : SameRead S' S fr fr c p k := by
  refine ⟨?_, fun _ => SameMapping.of_eq h.symm, ?_⟩
  · simp only [Follows, found, h]
  · simp only [stampOf, h, imp_self]

theorem SameRead.of_not {S' S : Snapshot} {fr' fr : Bool} {c : Nat} {p k : Str}
    (h' : ¬ Follows S' fr' false p k) (h : ¬ Follows S fr false p k)
    (hst : stampOf S' k < c → stampOf S k < c) : SameRead S' S fr' fr c p k :=
  ⟨iff_of_false h' h, fun hf => absurd hf h', hst⟩

/-- No entry is read below a reuse name. -/
theorem StampWf.find_reuseName {s : State} (hI : StampWf s) {n : Nat} {r k : Str}
    (hk : Under k (reuseName n ++ r)) : s.db.snapshot.find k = none := by
  by_contra hn
  exact not_under_reuseName (hI.keys k hn) hk

theorem StampWf.misses_reuseName {s : State} (hI : StampWf s) {c : Nat} (hc : c ≠ 0) (fr : Bool)
    (n : Nat) (r : Str) : Misses s.db.snapshot c fr (reuseName n ++ r) := by
  refine Misses.done (fun k hk => not_follows_none (hI.find_reuseName hk)) fun k hk => ?_
  rw [stampOf_none (hI.find_reuseName hk)]
  exact Nat.pos_of_ne_zero hc

/-! ## Directory moves -/

/-- Every valid move keeps the snapshot well formed. -/
theorem StampWf.move {s : State} (hw : StampWf s) {o d : Str} {db' : PathMapDB}
    (hv : s.tree.ValidMove o d) (hfit : VersionFits s.db)
    (hdb : addDirectoryMove s.db o d = some db') : StampWf ⟨s.tree.move o d, db'⟩ := by
  have hop := hw.closed.path o hv.origin.ne_none
  obtain ⟨hver, t, ts, left, hm, hfind⟩ :=
    addDirectoryMove_find hop.iointercept hv.free.path.iointercept hv.ne hdb
  have hcases : ∀ {k e}, db'.snapshot.find k = some e → _ :=
    fun {k e} he => hm.find_cases ((hfind k).symm.trans he)
  have hfitv : s.db.snapshotVersion + 1 < 2 ^ 63 := hfit
  refine ⟨Tree.move_closed hw.closed hv, fun n hn => ?_, fun k e he hs => ?_, by rwa [hver],
    fun k hk => ?_, fun k e he hty => ?_, fun k e he => ?_, fun k => ?_⟩
  · have hor : ¬ Under o root := fun hu => hv.notRoot (under_root hu hop.ne_nil)
    dsimp only at hn
    rw [s.tree.move_outside hor (hv.free.not_under hw.closed hw.closed.root.ne_none)] at hn
    exact hw.rootUnchanged n hn
  · rcases hcases he with ⟨-, -, rfl⟩ | ⟨-, rfl⟩ | ⟨-, -, he'⟩
    · simp at hs
    · simp at hs
    · exact hw.noSymlinks k e he' hs
  · obtain ⟨e, he⟩ := Option.ne_none_iff_exists'.mp hk
    rcases hcases he with ⟨rfl, -⟩ | ⟨rfl, -⟩ | ⟨-, -, he'⟩
    · exact hv.free.path
    · exact hop
    · exact hw.keys k (by simp [he'])
  · rcases hcases he with ⟨-, -, rfl⟩ | ⟨-, rfl⟩ | ⟨-, -, he'⟩
    · simp at hty
    · exact ⟨_, rfl⟩
    · exact hw.reuseTarget k e he' hty
  · rcases hcases he with ⟨-, -, rfl⟩ | ⟨-, rfl⟩ | ⟨-, -, he'⟩
    · cases hm with
      | first _ => exact hop.namesFit
      | @reused e hl _ => exact hw.targetsFit o e hl
      | @again e hl _ => exact hw.targetsFit o e hl
    · exact namesFit_reuseName hfitv
    · exact hw.targetsFit k e he'
  · rw [hver]
    have ho := hw.stamps o
    cases he : db'.snapshot.find k with
    | none => simp [stampOf, he]
    | some e =>
      rcases hcases he with ⟨-, -, rfl⟩ | ⟨-, rfl⟩ | ⟨-, -, he'⟩
      · simp only [stampOf, he, Option.map_some, Option.getD_some] at ho ⊢
        omega
      · simp only [stampOf, he, Option.map_some, Option.getD_some] at ho ⊢
        omega
      · have := hw.stamps k
        simp only [stampOf, he, he', Option.map_some, Option.getD_some] at this ⊢
        omega

/-- A move that keeps the changes in sight, and its effect on the snapshot. -/
structure StampData (s : State) (o d : Str) (db' : PathMapDB) (t : Str) (ts : Nat)
    (left : Option PMEntry) : Prop where
  inv : StampInv s
  valid : s.tree.ValidMove o d
  good : StampMove s o d
  wf : StampWf ⟨s.tree.move o d, db'⟩
  moved : Moved s.db.snapshot (s.db.snapshotVersion + 1) o t ts left
  find : ∀ k, db'.snapshot.find k = movedFind s.db.snapshot o d t ts left k

namespace StampData

variable {s : State} {o d t : Str} {db' : PathMapDB} {ts c : Nat} {left : Option PMEntry}

theorem find_other (h : StampData s o d db' t ts left) {k : Str} (ho : k ≠ o) (hd : k ≠ d) :
    db'.snapshot.find k = s.db.snapshot.find k := by
  rw [h.find]
  simp [movedFind, ho, hd]

theorem find_dest (h : StampData s o d db' t ts left) (htd : t ≠ d) :
    db'.snapshot.find d = some ⟨.MOVE, t, ts⟩ := by
  rw [h.find]
  simp [movedFind, htd]

theorem find_back (h : StampData s o d db' t ts left) (htd : t = d) {k : Str}
    (hk : k = o ∨ k = d) : db'.snapshot.find k = none := by
  rw [h.find]
  simp [movedFind, htd, hk]

/-- The origin is no move entry after the move. -/
theorem typeAt_origin (h : StampData s o d db' t ts left) : typeAt db'.snapshot o ≠ some .MOVE := by
  intro hm
  obtain ⟨e, he, hty⟩ := find_of_typeAt hm
  rcases h.moved.find_cases ((h.find o).symm.trans he) with ⟨hod, -⟩ | ⟨-, rfl⟩ | ⟨hne, -⟩
  · exact h.valid.ne hod
  · simp at hty
  · exact hne rfl

/-- An origin that was no move entry keeps its time stamp. -/
theorem stamp_origin (h : StampData s o d db' t ts left) (htd : t ≠ d)
    (hm : typeAt s.db.snapshot o ≠ some .MOVE) :
    stampOf db'.snapshot o = stampOf s.db.snapshot o := by
  have hfind : db'.snapshot.find o = left := by
    rw [h.find]
    simp [movedFind, htd, h.valid.ne]
  cases h.moved with
  | first hl => simp [stampOf, hfind, hl]
  | reused hl _ => simp [stampOf, hfind, hl]
  | again hl ht => exact absurd (by rw [typeAt_eq hl, ht]) hm

/-- A move back undoes a move entry of the origin. -/
theorem back_move (h : StampData s o d db' t ts left) (htd : t = d) :
    typeAt s.db.snapshot o = some .MOVE := by
  cases h.moved with
  | first _ => exact absurd htd h.valid.ne
  | reused hl ht =>
    obtain ⟨n, hn⟩ := h.inv.reuseTarget o _ hl ht
    have hu : Under d (reuseName n ++ []) := by
      rw [List.append_nil, ← hn, htd]
      exact within_refl d
    exact absurd hu (not_under_reuseName h.valid.free.path)
  | again hl ht => rw [typeAt_eq hl, ht]

/-- Past the first hop the loop reads the same before and after the move. -/
theorem same_past (h : StampData s o d db' t ts left) (hc : c ≠ 0) {fr : Bool} {p : Str}
    (hp : Past s.db.snapshot fr p) (k : Str) (hk : Under k p) :
    SameRead db'.snapshot s.db.snapshot fr fr c p k := by
  obtain ⟨x, e, r, he, hm, hr, rfl, hfr⟩ := hp
  cases fr with
  | true =>
    obtain ⟨n, hn⟩ := h.inv.reuseTarget x e he (hfr rfl)
    rw [hn] at hk
    have hnone := h.inv.find_reuseName hk
    have hnone' : db'.snapshot.find k = none := by
      by_contra hne
      exact not_under_reuseName (h.wf.keys _ hne) hk
    exact SameRead.of_eq (hnone'.trans hnone.symm)
  | false =>
    by_cases hko : k = o
    · subst hko
      have hmo : typeAt s.db.snapshot k ≠ some .MOVE := by
        intro hmo
        obtain ⟨h1, h2⟩ := h.good.originTargets hmo x e he hm
        rcases hk.total (within_append e.target hr) with hu | hu
        · exact h1 hu
        · exact h2 hu
      have htd : t ≠ d := fun htd => hmo (h.back_move htd)
      refine SameRead.of_not ?_ ?_ (by rw [h.stamp_origin htd hmo]; exact id)
      · rw [follows_false_iff h.wf.noSymlinks]; exact h.typeAt_origin
      · rw [follows_false_iff h.inv.noSymlinks]; exact hmo
    · by_cases hkd : k = d
      · subst hkd
        by_cases htd : t = k
        · obtain ⟨h1, h2, -⟩ := h.good.back (h.moved.target_eq.trans htd)
          refine SameRead.of_not (not_follows_none (h.find_back htd (Or.inr rfl))) ?_ fun _ => ?_
          · rw [follows_false_iff h.inv.noSymlinks, h1]; decide
          · rw [h2]; exact Nat.pos_of_ne_zero hc
        · obtain ⟨h1, h2⟩ := h.good.destTargets (h.moved.target_eq.symm ▸ htd) x e he hm
          rcases hk.total (within_append e.target hr) with hu | hu
          · exact absurd hu h1
          · exact absurd hu h2
      · exact SameRead.of_eq (h.find_other hko hkd)

theorem misses_past (h : StampData s o d db' t ts left) (hc : c ≠ 0) {fr : Bool} {p : Str}
    (hm : Misses db'.snapshot c fr p) (hp : Past s.db.snapshot fr p) :
    Misses s.db.snapshot c fr p :=
  hm.transfer (Past s.db.snapshot) (fun _ _ hp k hk => h.same_past hc hp k hk)
    (fun _ _ _ _ _ hit he => past_hop h.inv.noSymlinks hit he) hp

theorem misses_first (h : StampData s o d db' t ts left) (hc : c ≠ 0) {fr fr' : Bool} {p : Str}
    (hsame : ∀ k, Under k p → SameRead db'.snapshot s.db.snapshot fr' fr c p k)
    (hm : Misses db'.snapshot c fr' p) : Misses s.db.snapshot c fr p :=
  hm.first hsame fun _ _ hit he hm => h.misses_past hc hm (past_hop h.inv.noSymlinks hit he)

theorem misses_outside (h : StampData s o d db' t ts left) (hc : c ≠ 0) {q : Str}
    (ho : ¬ Under o q) (hd : ¬ Under d q) (hm : Misses db'.snapshot c true q) :
    Misses s.db.snapshot c true q := by
  refine h.misses_first hc (fun k hk => SameRead.of_eq (h.find_other ?_ ?_)) hm
  · rintro rfl
    exact ho hk
  · rintro rfl
    exact hd hk

/-- A move entry after the move, other than the new one, was a move entry before. -/
theorem typeAt_move (h : StampData s o d db' t ts left) {k : Str} (hkd : k ≠ d)
    (hk : typeAt db'.snapshot k = some .MOVE) :
    k ≠ o ∧ typeAt s.db.snapshot k = some .MOVE := by
  have hko : k ≠ o := by
    rintro rfl
    exact h.typeAt_origin hk
  refine ⟨hko, ?_⟩
  unfold typeAt at hk ⊢
  rw [← h.find_other hko hkd]
  exact hk

theorem hit_dest (h : StampData s o d db' t ts left) (htd : t ≠ d) {r : Str} (hr : PathTail r) :
    IsHit db'.snapshot true false (d ++ r) d := by
  refine ⟨within_append d hr, ?_, fun k hk hf => ?_⟩
  · rw [follows_true_iff h.wf.noSymlinks]
    exact Or.inl (by rw [typeAt_eq (h.find_dest htd)])
  · by_cases hu : Under d k
    · by_cases hkd : k = d
      · rw [hkd]
      · have hko : k ≠ o := by
          rintro rfl
          exact h.valid.not_above h.inv.closed hu
        have hm : Mapped s.db.snapshot k := by
          rw [follows_true_iff h.wf.noSymlinks] at hf
          unfold Mapped typeAt at hf ⊢
          rw [← h.find_other hko hkd]
          exact hf
        rw [h.good.destBelow k hm hu]
    · exact (hk.of_append_left hr hu).1.length_le

/-- The origin is the hit of everything below it if it is mapped. -/
theorem hit_origin (h : StampData s o d db' t ts left) (hm : Mapped s.db.snapshot o) {r : Str}
    (hr : PathTail r) : IsHit s.db.snapshot true false (o ++ r) o := by
  refine ⟨within_append o hr, (follows_true_iff h.inv.noSymlinks).mpr hm, fun k hk hf => ?_⟩
  by_cases hu : Under o k
  · rw [h.good.originBelow hm k ((follows_true_iff h.inv.noSymlinks).mp hf) hu]
  · exact (hk.of_append_left hr hu).1.length_le

/-- Below a mapped origin a lookup reads no change newer than the one of the origin. -/
theorem misses_mapped (h : StampData s o d db' t ts left) {e : PMEntry}
    (he : s.db.snapshot.find o = some e) (hm : Mapped s.db.snapshot o)
    (hst : stampOf s.db.snapshot o < c) {r : Str} (hr : PathTail r)
    (hnext : Misses s.db.snapshot c (e.type ≠ .MOVE) (e.target ++ r)) :
    Misses s.db.snapshot c true (o ++ r) := by
  refine Misses.hop (h.hit_origin hm hr) he (fun k hk hl => ?_) (by simpa using hnext)
  have hok : Under o k := (within_append o hr).of_le hk hl
  exact lt_of_le_of_lt (h.good.stampsBelow hm k hok) hst

/-- The first move of a directory: its old name is read with reuse entries not followed, so at
    least as much is read as before. -/
theorem misses_unmapped (h : StampData s o d db' t ts left) (hc : c ≠ 0) (htd : t ≠ d)
    (hl : s.db.snapshot.find o = none) {r : Str} (hr : PathTail r) (hn : NamesFit (o ++ r))
    (hm : Misses db'.snapshot c false (o ++ r)) : Misses s.db.snapshot c true (o ++ r) := by
  have hkd : ∀ {k}, Under k (o ++ r) → k ≠ d := by
    rintro k hk rfl
    exact h.valid.disjoint h.inv.closed (within_append o hr) hk
  have hmo : typeAt s.db.snapshot o ≠ some .MOVE := by simp [typeAt, hl]
  have hst : ∀ {k}, Under k (o ++ r) → stampOf db'.snapshot k < c → stampOf s.db.snapshot k < c := by
    intro k hk hlt
    by_cases hko : k = o
    · rw [hko, stampOf_none hl]
      exact Nat.pos_of_ne_zero hc
    · rwa [stampOf, h.find_other hko (hkd hk)] at hlt
  have hmove : ∀ {k}, Under k (o ++ r) → Follows db'.snapshot false false (o ++ r) k →
      Follows s.db.snapshot true false (o ++ r) k := by
    intro k hk hf
    rw [follows_false_iff h.wf.noSymlinks] at hf
    rw [follows_true_iff h.inv.noSymlinks]
    exact Or.inl (h.typeAt_move (hkd hk) hf).2
  rcases hit_or_none s.db.snapshot true false hn with ⟨q, hit⟩ | hnone
  · have hqm := (follows_true_iff h.inv.noSymlinks).mp hit.follows
    have hqo : q ≠ o := by
      rintro rfl
      exact hqm.find_ne hl
    obtain ⟨e, he⟩ := Option.ne_none_iff_exists'.mp hqm.find_ne
    rcases mapped_type he hqm with hty | hty
    · -- a move entry above the origin: it is hit after the move as well
      have hit' : IsHit db'.snapshot false false (o ++ r) q := by
        refine ⟨hit.under, ?_, fun k hk hf => hit.longest k hk (hmove hk hf)⟩
        rw [follows_false_iff h.wf.noSymlinks, typeAt, h.find_other hqo (hkd hit.under), he]
        simp [hty]
      cases hm with
      | done hn' => exact absurd hit'.follows (hn' q hit'.under)
      | hop hit'' he'' hv hnext =>
        obtain rfl := hit'.unique hit''
        rw [h.find_other hqo (hkd hit.under)] at he''
        obtain rfl := Option.some.inj (he.symm.trans he'')
        exact Misses.hop hit he (fun k hk hlen => hst hk (hv k hk hlen))
          (h.misses_past hc hnext (past_hop h.inv.noSymlinks hit he))
    · -- a reuse entry: before the move the lookup stopped there
      obtain ⟨n, hn'⟩ := h.inv.reuseTarget q e he hty
      refine Misses.hop hit he (fun k hk hlen => hst hk ?_) ?_
      · cases hm with
        | done _ hv => exact hv k hk
        | hop hit' _ hv _ =>
          exact hv k hk (le_trans (hit.longest _ hit'.under (hmove hit'.under hit'.follows)) hlen)
      · rw [hn']
        exact h.inv.misses_reuseName hc _ n _
  · cases hm with
    | done _ hv => exact Misses.done hnone fun k hk => hst hk (hv k hk)
    | hop hit' _ _ _ => exact absurd (hmove hit'.under hit'.follows) (hnone _ hit'.under)

/-- A change that the new name misses was missed under the old one. -/
theorem misses_dest (h : StampData s o d db' t ts left) (hc : c ≠ 0) {r : Str} (hr : PathTail r)
    (hn : NamesFit (o ++ r)) (hm : Misses db'.snapshot c true (d ++ r)) :
    Misses s.db.snapshot c true (o ++ r) := by
  by_cases htd : t = d
  · obtain ⟨hdre, hsd, hso, habove⟩ := h.good.back (h.moved.target_eq.trans htd)
    have hmo := h.back_move htd
    obtain ⟨e, he, hty⟩ := find_of_typeAt hmo
    have hte : e.target = d := by
      have := h.moved.target_eq
      rw [moveTarget, he] at this
      exact this.trans htd
    refine h.misses_mapped he (Or.inl hmo) (by rw [hso]; exact Nat.pos_of_ne_zero hc) hr ?_
    rw [hte, hty]
    refine h.misses_first hc (fun k hk => ?_) hm
    have hko : k ≠ o := by
      rintro rfl
      exact h.valid.disjoint h.inv.closed hk (within_append d hr)
    by_cases hkd : k = d
    · refine SameRead.of_not (not_follows_none (h.find_back htd (Or.inr hkd))) ?_ fun _ => ?_
      · rw [hkd]
        simp [follows_iff h.inv.noSymlinks, hdre]
      · rw [hkd, hsd]
        exact Nat.pos_of_ne_zero hc
    · have hnr : typeAt s.db.snapshot k ≠ some .REUSE := by
        intro hre
        by_cases hu : Under d k
        · exact hkd (h.good.destBelow k (Or.inr hre) hu)
        · exact habove k (hk.of_append_left hr hu).1 hkd hre
      have heq := h.find_other hko hkd
      refine ⟨?_, fun _ => SameMapping.of_eq heq.symm, by simp only [stampOf, heq, imp_self]⟩
      rw [follows_true_iff h.wf.noSymlinks, follows_iff h.inv.noSymlinks]
      simp only [Mapped, typeAt, heq] at hnr ⊢
      simp [hnr]
  · have hst : ts < c := by
      cases hm with
      | done hn' _ => exact absurd (h.hit_dest htd hr).follows (hn' d (within_append d hr))
      | hop hit _ hv _ =>
        have := hv d (within_append d hr) (by rw [(h.hit_dest htd hr).unique hit])
        rwa [stampOf, h.find_dest htd] at this
    have hnext : Misses db'.snapshot c false (t ++ r) := by
      cases hm with
      | done hn' _ => exact absurd (h.hit_dest htd hr).follows (hn' d (within_append d hr))
      | hop hit he _ hnext =>
        obtain rfl := (h.hit_dest htd hr).unique hit
        obtain rfl := Option.some.inj ((h.find_dest htd).symm.trans he)
        simpa using hnext
    cases h.moved with
    | first hl => exact h.misses_unmapped hc htd hl hr hn hnext
    | @reused e hl ht =>
      obtain ⟨n, hn'⟩ := h.inv.reuseTarget o e hl ht
      have hm' : Mapped s.db.snapshot o := Or.inr (by rw [typeAt_eq hl, ht])
      refine h.misses_mapped hl hm' (by simpa [stampOf, hl] using hst) hr ?_
      rw [hn']
      exact h.inv.misses_reuseName hc _ n r
    | @again e hl ht =>
      have hm' : Mapped s.db.snapshot o := Or.inl (by rw [typeAt_eq hl, ht])
      refine h.misses_mapped hl hm' (by simpa [stampOf, hl] using hst) hr ?_
      have hpast : Past s.db.snapshot false (e.target ++ r) :=
        ⟨o, e, r, hl, hm', hr, rfl, by simp⟩
      rw [ht]
      exact h.misses_past hc hnext hpast

/-- No existing path misses a change at or above it after the move. -/
theorem seen (h : StampData s o d db' t ts left) {q a : Str} {n : Node}
    (hq : s.tree.move o d q ≠ none) (ha : Under a q) (hn : s.tree.move o d a = some n)
    (hc : n.changed ≠ 0) : ¬ Misses db'.snapshot n.changed true q := by
  intro hm
  rcases Tree.move_ne_none hq with ⟨r, hr, rfl, hx⟩ | ⟨hdq, hoq, hx⟩
  · have hfit := (h.inv.closed.path _ hx).namesFit
    have hm' := h.misses_dest hc hr hfit hm
    by_cases hda : Under d a
    · obtain ⟨x, hxt, rfl⟩ := hda
      rw [s.tree.move_inside o d hxt] at hn
      obtain ⟨v, hv, hrv⟩ := ha
      have hu : Under (o ++ x) (o ++ r) := by
        rw [List.append_assoc] at hrv
        exact ⟨v, hv, by rw [List.append_cancel_left hrv, List.append_assoc]⟩
      exact h.inv.seen _ hx _ n hu hn hc hm'
    · obtain ⟨had, hne⟩ := ha.of_append_left hr hda
      have hoa : ¬ Under o a := fun ho => h.valid.outside (ho.trans had)
      rw [s.tree.move_outside hoa hda] at hn
      obtain ⟨b, m, hb, hbm, hle⟩ := h.good.aboveDest a n had hne hn
      exact h.inv.seen _ hx b m (hb.trans (within_append o hr)) hbm (by omega) (hm'.mono hle)
  · have hoa : ¬ Under o a := fun ho => hoq (ho.trans ha)
    have hda : ¬ Under d a := fun hd => hdq (hd.trans ha)
    rw [s.tree.move_outside hoa hda] at hn
    exact h.inv.seen q hx a n ha hn hc (h.misses_outside hc hoq hdq hm)

end StampData

theorem StampInv.move {s : State} (hI : StampInv s) {o d : Str} {db' : PathMapDB}
    (hv : s.tree.ValidMove o d) (hg : s.tree.Quiet ∨ StampMove s o d) (hfit : VersionFits s.db)
    (hdb : addDirectoryMove s.db o d = some db') : StampInv ⟨s.tree.move o d, db'⟩ := by
  have hw := hI.toStampWf.move hv hfit hdb
  refine ⟨hw, fun q hq a n ha hn hc => ?_⟩
  rcases hg with hquiet | hgood
  · have hold : ∃ x, s.tree x = some n := by
      simp only [Tree.move] at hn
      split_ifs at hn
      · exact ⟨_, hn⟩
      · exact ⟨_, hn⟩
    obtain ⟨x, hx⟩ := hold
    exact absurd (hquiet x n hx) hc
  · obtain ⟨-, t, ts, left, hm, hfind⟩ := addDirectoryMove_find
      (hI.closed.path o hv.origin.ne_none).iointercept hv.free.path.iointercept hv.ne hdb
    have h : StampData s o d db' t ts left := ⟨hI, hv, hgood, hw, hm, hfind⟩
    exact h.seen hq ha hn hc

/-! ## Creations -/

/-- A name that is not mapped reads at least what its directory reads, as long as no move entry
    lies below a target. -/
theorem StampWf.misses_parent {s : State} (hw : StampWf s) (hbare : TargetsBare s.db.snapshot)
    {c : Nat} {fr : Bool} {p w : Str} (hwt : PathTail w)
    (hkeys : ∀ k, Under k (p ++ w) → Follows s.db.snapshot fr false (p ++ w) k → Under k p)
    (h : Misses s.db.snapshot c fr (p ++ w)) : Misses s.db.snapshot c fr p := by
  have hfollow : ∀ {fr p k}, Follows s.db.snapshot fr false p k ↔
      Follows s.db.snapshot fr false (p ++ w) k := by
    simp only [follows_iff hw.noSymlinks, implies_true]
  generalize hx : p ++ w = x at h
  induction h generalizing p with
  | done hn hv =>
    subst hx
    exact Misses.done (fun k hk hf => hn k (hk.append_right hwt) (hfollow.mp hf))
      fun k hk => hv k (hk.append_right hwt)
  | @hop fr x q e hit he hv hm ih =>
    subst hx
    have hq := hkeys q hit.under hit.follows
    have hit' : IsHit s.db.snapshot fr false p q :=
      ⟨hq, hfollow.mpr hit.follows,
        fun k hk hf => hit.longest k (hk.append_right hwt) (hfollow.mp hf)⟩
    have hdrop : (p ++ w).drop q.length = p.drop q.length ++ w := by
      rw [List.drop_append_of_le_length hq.length_le]
    refine Misses.hop hit' he (fun k hk hl => hv k (hk.append_right hwt) hl) ?_
    refine ih (fun k hk hf => ?_) (by rw [hdrop, List.append_assoc])
    have hmap : Mapped s.db.snapshot q := by
      rcases (follows_iff hw.noSymlinks).mp hit.follows with h | ⟨-, h⟩
      · exact Or.inl h
      · exact Or.inr h
    rcases mapped_type he hmap with hty | hty
    · rw [hty] at hf
      have hmv : typeAt s.db.snapshot k = some .MOVE := by
        simpa [follows_iff hw.noSymlinks] using hf
      by_cases hu : Under e.target k
      · rw [hbare q e he hmap k hmv hu]
        exact within_append _ hq.tail_drop
      · rw [List.append_assoc] at hk
        have := (hk.of_append_left (hq.tail_drop.append hwt) hu).1
        exact this.append_right hq.tail_drop
    · obtain ⟨n, hn⟩ := hw.reuseTarget q e he hty
      rw [hn, List.append_assoc] at hk
      exact absurd hf (not_follows_none (hw.find_reuseName hk))

theorem StampInv.create {s : State} (hI : StampInv s) {q : Str} {k : Kind} (hq : s.tree.Free q)
    (hg : StampRun s (.create q k)) : StampInv ⟨s.tree.create q k, s.db⟩ := by
  have hne : ∀ {x n}, s.tree.create q k x = some n → n.changed ≠ 0 → x ≠ q ∧ s.tree x = some n := by
    intro x n hx hn
    unfold Tree.create at hx
    split_ifs at hx with hxq
    · obtain rfl := Option.some.inj hx
      simp at hn
    · exact ⟨hxq, hx⟩
  refine ⟨{ hI.toStampWf with closed := Tree.create_closed hI.closed hq, rootUnchanged := ?_ }, ?_⟩
  · intro n hn
    by_contra hc
    exact hc (hI.rootUnchanged n (hne hn hc).2)
  · intro x hx a n ha hn hc hm
    obtain ⟨haq, hta⟩ := hne hn hc
    by_cases hxq : x = q
    · subst hxq
      rcases hg with hst | ⟨hmap, hbare⟩
      · have hle : n.changed ≤ stampOf s.db.snapshot x := hst a n ha haq hta
        exact absurd (Misses.self hm) (not_lt.mpr hle)
      · have hpar := under_parentPath ha haq (hI.closed.path a (by simp [hta])).ne_nil
        cases hpos : findLastOf '/' x with
        | none => exact absurd ((within_iff_eq_of_none hpos).mp ha) haq
        | some i =>
          cases i with
          | zero =>
            -- the directory of the new name is the root
            have hroot : parentPath x = root := by simp [parentPath, hpos]
            rw [hroot] at hpar
            have := under_root hpar (hI.closed.path a (by simp [hta])).ne_nil
            exact hc (hI.rootUnchanged n (this ▸ hta))
          | succ i =>
            have hpath : parentPath x = x.take (i + 1) := by simp [parentPath, hpos]
            have hu : Under (parentPath x) x := hpath ▸ within_take_findLastOf hpos
            obtain ⟨w, hwt, hxw⟩ := hu
            refine hI.seen (parentPath x) hq.parent.ne_none a n hpar hta hc ?_
            refine hI.toStampWf.misses_parent hbare hwt (fun y hy hf => ?_) (hxw ▸ hm)
            rw [← hxw] at hy
            rw [follows_true_iff hI.noSymlinks] at hf
            refine under_parentPath hy ?_ (hI.keys y hf.find_ne).ne_nil
            rintro rfl
            exact hmap hf
    · have hx' : s.tree x ≠ none := by simpa [Tree.create, hxq] using hx
      exact hI.seen x hx' a n ha hta hc hm

/-! ## Permission changes -/

theorem typeAt_addPermissionChange (db : PathMapDB) {p : Str} (hp : iointercept p = p) {k : Str}
    {ty : MappingType} (hty : ty ≠ .NONE) :
    typeAt (addPermissionChange db p).snapshot k = some ty ↔ typeAt db.snapshot k = some ty := by
  unfold typeAt
  rw [addPermissionChange_find db hp]
  split_ifs with hk
  · subst hk
    cases db.snapshot.find k with
    | none => simp [Ne.symm hty]
    | some e => simp
  · rfl

theorem addPermissionChange_follows (db : PathMapDB) {p : Str} (hp : iointercept p = p)
    (hs : NoSymlinks db.snapshot) (hs' : NoSymlinks (addPermissionChange db p).snapshot)
    {fr : Bool} {x k : Str} :
    Follows (addPermissionChange db p).snapshot fr false x k ↔ Follows db.snapshot fr false x k := by
  rw [follows_iff hs, follows_iff hs', typeAt_addPermissionChange db hp (by decide),
    typeAt_addPermissionChange db hp (by decide)]

theorem addPermissionChange_sameMapping (db : PathMapDB) {p : Str} (hp : iointercept p = p) {k : Str}
    (hk : Mapped db.snapshot k) : SameMapping (addPermissionChange db p).snapshot db.snapshot k := by
  intro e he
  rw [addPermissionChange_find db hp] at he
  obtain ⟨e', he'⟩ := Option.ne_none_iff_exists'.mp hk.find_ne
  split_ifs at he with hkp
  · subst hkp
    rw [he'] at he
    obtain rfl := Option.some.inj he
    exact ⟨e', he', rfl, rfl⟩
  · exact ⟨e, he, rfl, rfl⟩

theorem stampOf_addPermissionChange (db : PathMapDB) {p : Str} (hp : iointercept p = p) (k : Str) :
    stampOf (addPermissionChange db p).snapshot k =
      if k = p then db.snapshotVersion + 1 else stampOf db.snapshot k := by
  unfold stampOf
  rw [addPermissionChange_find db hp]
  split_ifs with hk
  · cases db.snapshot.find p with
    | none => rfl
    | some e => rfl
  · rfl

theorem StampWf.chmod {s : State} (hw : StampWf s) {p : Str} (hd : s.tree.IsDir p) (hr : p ≠ root)
    (hfit : VersionFits s.db) :
    StampWf ⟨s.tree.chmod p (s.db.snapshotVersion + 1), addPermissionChange s.db p⟩ := by
  have hp := hw.closed.path p hd.ne_none
  have hfind := addPermissionChange_find s.db hp.iointercept
  have hold : ∀ {k e}, (addPermissionChange s.db p).snapshot.find k = some e → e.type ≠ .NONE →
      ∃ e', s.db.snapshot.find k = some e' ∧ e'.type = e.type ∧ e'.target = e.target := by
    intro k e he hty
    rw [hfind] at he
    split_ifs at he with hk
    · subst hk
      cases hf : s.db.snapshot.find k with
      | none => rw [hf] at he; obtain rfl := Option.some.inj he; simp at hty
      | some e' => rw [hf] at he; obtain rfl := Option.some.inj he; exact ⟨e', rfl, rfl, rfl⟩
    · exact ⟨e, he, rfl, rfl⟩
  refine ⟨Tree.chmod_closed hw.closed _ _, fun n hn => ?_, fun k e he hs => ?_, hfit, fun k hk => ?_,
    fun k e he hty => ?_, fun k e he => ?_, fun k => ?_⟩
  · refine hw.rootUnchanged n ?_
    simpa [Tree.chmod, Ne.symm hr] using hn
  · obtain ⟨e', he', hty, -⟩ := hold he (by simp [hs])
    exact hw.noSymlinks k e' he' (hty.trans hs)
  · by_cases hkp : k = p
    · rw [hkp]; exact hp
    · refine hw.keys k ?_
      dsimp only at hk
      rwa [hfind, if_neg hkp] at hk
  · obtain ⟨e', he', hty', htg⟩ := hold he (by simp [hty])
    rw [← htg]
    exact hw.reuseTarget k e' he' (hty'.trans hty)
  · dsimp only at he
    rw [hfind] at he
    split_ifs at he with hkp
    · cases hf : s.db.snapshot.find p with
      | none => rw [hf] at he; obtain rfl := Option.some.inj he; show NamesFit []; decide
      | some e' =>
        rw [hf] at he
        obtain rfl := Option.some.inj he
        exact hw.targetsFit p e' hf
    · exact hw.targetsFit k e he
  · have hk := hw.stamps k
    show stampOf (addPermissionChange s.db p).snapshot k ≤ s.db.snapshotVersion + 1
    rw [stampOf_addPermissionChange s.db hp.iointercept]
    split_ifs <;> omega

/-- A lookup below `p` reads the entry of `p`: a move entry between leads to a name below `p`
    again. -/
theorem StampInv.reads_changed {s : State} (hw : StampWf s) {p : Str} {c : Nat}
    (hmoves : ∀ k, typeAt s.db.snapshot k = some .MOVE → Under p k → k ≠ p →
      ∃ e, s.db.snapshot.find k = some e ∧ e.type = .MOVE ∧ Under p e.target)
    (hst : c ≤ stampOf s.db.snapshot p) {fr : Bool} {x : Str} (hx : Under p x)
    (hreuse : fr = true → ∀ k, typeAt s.db.snapshot k = some .REUSE → Under k x → Under p k → k = p) :
    ¬ Misses s.db.snapshot c fr x := by
  intro h
  induction h with
  | done _ hv => exact absurd (hv p hx) (by omega)
  | @hop fr x q e hit he hv _ ih =>
    by_cases hpq : Under p q ∧ q ≠ p
    · have hmv : e.type = .MOVE := by
        rcases (follows_iff hw.noSymlinks).mp hit.follows with hm | ⟨hfr, hm⟩
        · simpa [typeAt_eq he] using hm
        · exact absurd (hreuse hfr q hm hit.under hpq.1) hpq.2
      obtain ⟨e', he', -, htg⟩ := hmoves q (by rw [typeAt_eq he, hmv]) hpq.1 hpq.2
      obtain rfl := Option.some.inj (he.symm.trans he')
      exact ih (htg.append_right hit.under.tail_drop) (by simp [hmv])
    · have hle : q.length ≤ p.length := by
        rcases hit.under.total hx with hu | hu
        · exact hu.length_le
        · by_cases hqp : q = p
          · rw [hqp]
          · exact absurd ⟨hu, hqp⟩ hpq
      exact absurd (hv p hx hle) (by omega)

theorem StampInv.chmod {s : State} (hI : StampInv s) {p : Str} (hd : s.tree.IsDir p)
    (hg : StampRun s (.chmod p)) (hfit : VersionFits s.db) :
    StampInv ⟨s.tree.chmod p (s.db.snapshotVersion + 1), addPermissionChange s.db p⟩ := by
  have hw := hI.toStampWf.chmod hd hg.1 hfit
  have hp := (hI.closed.path p hd.ne_none).iointercept
  refine ⟨hw, fun q hq a n ha hn hc hm => ?_⟩
  have hq' : s.tree q ≠ none := (s.tree.chmod_isSome p _ q).mp hq
  by_cases hap : a = p
  · subst hap
    obtain ⟨m, hm', rfl⟩ : ∃ m, s.tree a = some m ∧ n = { m with changed := s.db.snapshotVersion + 1 } := by
      simpa [Tree.chmod, eq_comm] using hn
    refine StampInv.reads_changed hw (fun k hk hu hne => ?_) ?_ ha (fun _ k hk hkq hu => ?_) hm
    · have hk' : typeAt s.db.snapshot k = some .MOVE :=
        (typeAt_addPermissionChange s.db hp (by decide)).mp hk
      rcases hg.2 k (Or.inl hk') hu hne with ⟨e, he, hty, htg⟩ | ⟨hre, -⟩
      · refine ⟨e, ?_, hty, htg⟩
        show (addPermissionChange s.db a).snapshot.find k = some e
        rw [addPermissionChange_find s.db hp, if_neg hne]
        exact he
      · rw [hk'] at hre
        exact absurd hre (by decide)
    · show s.db.snapshotVersion + 1 ≤ stampOf (addPermissionChange s.db a).snapshot a
      rw [stampOf_addPermissionChange s.db hp, if_pos rfl]
    · by_contra hne
      have hk' : typeAt s.db.snapshot k = some .REUSE :=
        (typeAt_addPermissionChange s.db hp (by decide)).mp hk
      rcases hg.2 k (Or.inr hk') hu hne with ⟨e, he, hty, -⟩ | ⟨-, hnone⟩
      · rw [typeAt_eq he, hty] at hk'
        exact absurd hk' (by decide)
      · have hkey : s.db.snapshot.find k ≠ none := Mapped.find_ne (Or.inr hk')
        exact hI.closed.of_under hq' hkq (hI.keys k hkey).ne_nil hnone
  · have hn' : s.tree a = some n := by simpa [Tree.chmod, hap] using hn
    refine hI.seen q hq' a n ha hn' hc (hm.transfer (fun _ _ => True) (fun fr x _ k _ => ?_)
      (fun _ _ _ _ _ _ _ => trivial) trivial)
    have hfol : Follows (addPermissionChange s.db p).snapshot fr false x k ↔
        Follows s.db.snapshot fr false x k :=
      addPermissionChange_follows s.db hp hI.noSymlinks hw.noSymlinks
    refine ⟨hfol, fun hf => addPermissionChange_sameMapping s.db hp ?_, fun hlt => ?_⟩
    · rcases (follows_iff hI.noSymlinks).mp (hfol.mp hf) with h | ⟨-, h⟩
      · exact Or.inl h
      · exact Or.inr h
    · have hlt' : stampOf (addPermissionChange s.db p).snapshot k < n.changed := hlt
      rw [stampOf_addPermissionChange s.db hp] at hlt'
      have := hI.stamps k
      split_ifs at hlt' <;> omega

/-! ## Runs -/

theorem stampInv_init : StampInv State.init where
  closed := Tree.init_closed
  rootUnchanged n hn := by
    simp only [State.init, Tree.init, if_true, Option.some.injEq] at hn
    rw [← hn]
  noSymlinks k e he := absurd he (by simp [State.init, PathMapDB.empty, find_empty])
  version := by decide
  keys k hk := absurd (find_empty k) hk
  reuseTarget k e he := absurd he (by simp [State.init, PathMapDB.empty, find_empty])
  targetsFit k e he := absurd he (by simp [State.init, PathMapDB.empty, find_empty])
  stamps k := le_of_eq (stampOf_none (find_empty k))
  seen q _ a n _ hn hc := by
    simp only [State.init, Tree.init] at hn
    split_ifs at hn
    exact absurd (congrArg Node.changed (Option.some.inj hn)).symm hc

theorem StampRun.inv {s : State} (h : Reachable StampRun s) : StampInv s := by
  refine Reachable.induction StampInv stampInv_init ?_ h
  intro s op s' _ hI hP hstep
  cases hstep with
  | create _ hq => exact hI.create hq hP
  | move hv hfit hdb => exact hI.move hv hP hfit hdb
  | chmod hd hfit => exact hI.chmod hd hP hfit
  | symlink => exact absurd hP id
  | remove => exact absurd hP id

/-- In every run whose steps keep the recorded changes in sight, the time stamp of every lookup of
    an existing path covers the latest change of the path, of every directory above it, and of
    the root. -/
theorem timeStamp_covers_changes {s : State} (hs : Reachable StampRun s) {q a : Str} {n : Node}
    (hq : s.tree q ≠ none) (ha : Under a q ∨ a = root) (hn : s.tree a = some n) {sys : Str}
    {ts : Int} (hres : ToSystemPath s.db q .LOOKUP (sys, ts)) (hts : 0 ≤ ts) :
    (n.changed : Int) ≤ ts := by
  have hI := StampRun.inv hs
  by_contra hlt
  have hc : n.changed ≠ 0 := by omega
  rcases ha with ha | rfl
  · refine hI.seen q hq a n ha hn hc ?_
    exact misses_of_timeStamp hI.noSymlinks hI.targetsFit (hI.closed.path q hq) hres hts (by omega)
  · exact hc (hI.rootUnchanged n hn)

/-- `mkdir /a`, `create /a/x`, `chmod /a` is such a run, and the lookup of `/a/x` shows the
    change. -/
theorem timeStamp_covers_changes_chmod_a :
    ∃ s, Reachable StampRun s ∧ s.tree (lit "/a") = some ⟨.dir, 1⟩ ∧
      ∃ ts : Int, ToSystemPath s.db (lit "/a/x") .LOOKUP (lit "/a/x", ts) ∧ (1 : Int) ≤ ts := by
  have hbare : ∀ q k t, StampRun ⟨t, .empty⟩ (.create q k) := by
    intro q k t
    refine Or.inr ⟨fun hm => hm.find_ne (find_empty q), fun x e he => ?_⟩
    exact absurd he (by simp [PathMapDB.empty, find_empty])
  let t : Tree := (Tree.init.create (lit "/a") .dir).create (lit "/a/x") .file
  have hs1 : Reachable StampRun ⟨Tree.init.create (lit "/a") .dir, .empty⟩ :=
    Reachable.init.step (hbare (lit "/a") .dir _) (Step.create (by decide) (by decide))
  have hs2 : Reachable StampRun ⟨t, .empty⟩ :=
    hs1.step (hbare (lit "/a/x") .file _) (Step.create (by decide) (by decide))
  have hs3 : Reachable StampRun ⟨t.chmod (lit "/a") 1, addPermissionChange .empty (lit "/a")⟩ :=
    hs2.step (show StampRun _ (.chmod (lit "/a")) from
      ⟨by decide, fun k hk => absurd (find_empty k) hk.find_ne⟩)
      (Step.chmod (by decide) (by decide))
  have hres : ToSystemPath (addPermissionChange .empty (lit "/a")) (lit "/a/x") .LOOKUP
      (lit "/a/x", 1) := ⟨1, by decide⟩
  have ha : t.chmod (lit "/a") 1 (lit "/a") = some ⟨.dir, 1⟩ := by decide
  have hx : t.chmod (lit "/a") 1 (lit "/a/x") ≠ none := by decide
  have hu : Under (lit "/a") (lit "/a/x") := by decide
  exact ⟨_, hs3, ha, 1, hres, timeStamp_covers_changes hs3 hx (Or.inl hu) ha hres (by decide)⟩

/-- Creations, directory moves and permission changes of any kind. -/
def AnyChange (_ : State) : Op → Prop
  | .create _ _ => True
  | .move _ _ => True
  | .chmod _ => True
  | _ => False

/-- Without the condition changes are missed: after `chmod /b` and `mv /a /b/a` the lookup of
    `/b/a` stops at its mapping and reads nothing of `/b`. -/
theorem not_timeStamp_covers_changes_move_below :
    ¬ ∀ s q a n sys ts, Reachable AnyChange s → s.tree q ≠ none → (Under a q ∨ a = root) →
      s.tree a = some n → ToSystemPath s.db q .LOOKUP (sys, ts) → 0 ≤ ts →
      (n.changed : Int) ≤ ts := by
  intro h
  let ops : List Op := [.create (lit "/a") .dir, .create (lit "/b") .dir, .chmod (lit "/b"),
    .move (lit "/a") (lit "/b/a")]
  obtain ⟨s, hs⟩ : ∃ s, runOps .init ops = some s := Option.isSome_iff_exists.mp (by decide)
  have hq : ((runOps .init ops).bind fun s => s.tree (lit "/b/a")) = some ⟨.dir, 0⟩ := by decide
  have ha : ((runOps .init ops).bind fun s => s.tree (lit "/b")) = some ⟨.dir, 1⟩ := by decide
  have hres : ((runOps .init ops).bind fun s => toSystemPath s.db 2 (lit "/b/a") .LOOKUP) =
      some (lit "/a", 0) := by decide
  rw [hs, Option.bind_some] at hq ha hres
  have hreach : Reachable AnyChange s := Reachable.init.runOps (by simp [ops, AnyChange]) hs
  have := h s (lit "/b/a") (lit "/b") _ _ _ hreach (by simp [hq]) (Or.inl (by decide)) ha
    ⟨2, hres⟩ (le_refl 0)
  exact absurd this (by decide)

end HFlat.PathMap
