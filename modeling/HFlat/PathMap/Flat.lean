/-
  Directory moves among names that do not contain each other.

  The snapshot then has only move and reuse entries (`FlatInv`): a move entry leads to a name that
  carries a reuse entry or to a reuse name, and no two entries lead to the same place. So a path is
  substituted at most once, and different paths have different system paths.
-/
import HFlat.PathMap.Moves

namespace HFlat.PathMap

open HFlat.Lib

/-- Names of which none contains another. -/
structure Flat (names : Set Str) : Prop where
  absolute : ∀ k ∈ names, ∃ r, k = '/' :: r
  colonFree : ∀ k ∈ names, ':' ∉ k
  apart : ∀ k ∈ names, ∀ x ∈ names, Under k x → k = x

/-- A move to a name that is not mapped, or back to where the origin was moved from. -/
structure FlatMove (names : Set Str) (snap : Snapshot) (o d : Str) : Prop where
  origin : o ∈ names
  dest : d ∈ names
  ne : o ≠ d
  free : snap.find d = none ∨ ∃ e, snap.find o = some e ∧ e.type = .MOVE ∧ e.target = d

/-- A move of one of the names. -/
def FlatStep (names : Set Str) (db db' : PathMapDB) : Prop :=
  ∃ o d, FlatMove names db.snapshot o d ∧ addDirectoryMove db o d = some db'

/-- Reachable from the empty snapshot. -/
def FlatReached (names : Set Str) : PathMapDB → Prop := Relation.ReflTransGen (FlatStep names) .empty

/-- The step creates the reuse name `n`. -/
def Issues (db db' : PathMapDB) (n : Nat) : Prop :=
  (∃ k e, db'.snapshot.find k = some e ∧ e.target = reuseName n) ∧
    ∀ k e, db.snapshot.find k = some e → e.target ≠ reuseName n

/-- The invariant: all entries are about the names, and a `MOVE` leads to the target of a `REUSE` or to a
    name that has one. -/
structure FlatInv (names : Set Str) (db : PathMapDB) : Prop where
  keys : ∀ k e, db.snapshot.find k = some e → k ∈ names
  types : ∀ k e, db.snapshot.find k = some e → e.type = .MOVE ∨ e.type = .REUSE
  reuseTarget : ∀ k e, db.snapshot.find k = some e → e.type = .REUSE →
    ∃ n ≤ db.snapshotVersion, e.target = reuseName n
  moveTarget : ∀ k e, db.snapshot.find k = some e → e.type = .MOVE →
    (∃ n ≤ db.snapshotVersion, e.target = reuseName n) ∨ typeAt db.snapshot e.target = some .REUSE
  distinct : ∀ k k' e e', db.snapshot.find k = some e → db.snapshot.find k' = some e' →
    e.target = e'.target → k = k'

section Invariant

variable {names : Set Str} {db db' : PathMapDB} {o d k t : Str} {e : PMEntry} {n : Nat}

theorem Flat.ne_reuseName (hflat : Flat names) (hk : k ∈ names) (n : Nat) : k ≠ reuseName n := by
  rintro rfl
  obtain ⟨r, hr⟩ := hflat.absolute _ hk
  obtain ⟨x, hx⟩ := reuseName_cons n
  rw [hx, List.cons.injEq] at hr
  exact absurd hr.1 (by decide)

namespace FlatInv

theorem empty (names : Set Str) : FlatInv names .empty where
  keys _ _ h := nomatch h
  types _ _ h := nomatch h
  reuseTarget _ _ h := nomatch h
  moveTarget _ _ h := nomatch h
  distinct _ _ _ _ h := nomatch h

/-- A target is a reuse name that has been issued, or a name with a reuse entry. -/
theorem target (h : FlatInv names db) (he : db.snapshot.find k = some e) :
    (∃ n ≤ db.snapshotVersion, e.target = reuseName n) ∨
      e.type = .MOVE ∧ typeAt db.snapshot e.target = some .REUSE := by
  obtain hty | hty := h.types k e he
  · exact (h.moveTarget k e he hty).imp_right fun hr => ⟨hty, hr⟩
  · exact Or.inl (h.reuseTarget k e he hty)

theorem mem_of_typeAt (h : FlatInv names db) {ty : MappingType} (hk : typeAt db.snapshot k = some ty) :
    k ∈ names := by
  obtain ⟨e, he, -⟩ := find_of_typeAt hk
  exact h.keys k e he

theorem reuse_le (hflat : Flat names) (h : FlatInv names db) (he : db.snapshot.find k = some e)
    (ht : e.target = reuseName n) : n ≤ db.snapshotVersion := by
  obtain ⟨m, hm, htm⟩ | ⟨-, hr⟩ := h.target he
  · rwa [reuseName_inj (ht.symm.trans htm)]
  · exact absurd ht (hflat.ne_reuseName (h.mem_of_typeAt hr) n)

/-- No target is moved on. -/
theorem target_ne_move (hflat : Flat names) (h : FlatInv names db) (he : db.snapshot.find k = some e) :
    typeAt db.snapshot e.target ≠ some .MOVE := by
  obtain ⟨n, -, htn⟩ | ⟨-, hr⟩ := h.target he
  · intro hm
    exact hflat.ne_reuseName (h.mem_of_typeAt hm) n htn
  · rw [hr]
    decide

/-! ## One move -/

theorem moved (hflat : Flat names) (hm : FlatMove names db.snapshot o d)
    (hdb : addDirectoryMove db o d = some db') :
    db'.snapshotVersion = db.snapshotVersion + 1 ∧
      ∃ t ts left, Moved db.snapshot (db.snapshotVersion + 1) o t ts left ∧
        ∀ k, db'.snapshot.find k = movedFind db.snapshot o d t ts left k :=
  addDirectoryMove_find (iointercept_of_colonFree (hflat.colonFree o hm.origin))
    (iointercept_of_colonFree (hflat.colonFree d hm.dest)) hm.ne hdb

/-- A move is possible, since the origin has no other entry. -/
theorem moves (h : FlatInv names db) (hflat : Flat names) (hm : FlatMove names db.snapshot o d) :
    ∃ db', addDirectoryMove db o d = some db' := by
  have ho := iointercept_of_colonFree (hflat.colonFree o hm.origin)
  have hsome : ∃ snap, moveMapping db.snapshot (db.snapshotVersion + 1) o (iointercept d) = some snap := by
    unfold moveMapping
    cases hl : db.snapshot.find o with
    | none => exact ⟨_, rfl⟩
    | some e =>
      dsimp only
      obtain hty | hty := h.types o e hl
      · rw [hty]
        exact ⟨_, rfl⟩
      · rw [hty]
        exact ⟨_, rfl⟩
  obtain ⟨snap, hsnap⟩ := hsome
  unfold addDirectoryMove
  dsimp only
  rw [ho, hsnap]
  dsimp only
  split
  · exact ⟨_, rfl⟩
  · exact ⟨_, rfl⟩

section Step

variable {t : Str} {ts : Nat} {left : Option PMEntry}
variable (hflat : Flat names) (h : FlatInv names db)
variable (hmoved : Moved db.snapshot (db.snapshotVersion + 1) o t ts left)

include hflat h hmoved

/-- What the new entry of the destination leads to is not the new reuse name. -/
theorem source_ne_fresh (ho : o ∈ names) : t ≠ reuseName (db.snapshotVersion + 1) := by
  cases hmoved with
  | first _ => exact hflat.ne_reuseName ho _
  | reused hl _ =>
    intro ht
    have hle := h.reuse_le hflat hl ht
    omega
  | again hl _ =>
    intro ht
    have hle := h.reuse_le hflat hl ht
    omega

/-- Only the origin has led there. -/
theorem source_apart (ho : o ∈ names) (he : db.snapshot.find k = some e) (hk : k ≠ o) : t ≠ e.target := by
  cases hmoved with
  | first hnone =>
    intro ht
    obtain ⟨n, -, htn⟩ | ⟨-, hr⟩ := h.target he
    · exact hflat.ne_reuseName ho n (ht.trans htn)
    · rw [← ht, typeAt, hnone] at hr
      cases hr
  | reused hl _ => exact fun ht => hk (h.distinct _ _ _ _ he hl ht.symm)
  | again hl _ => exact fun ht => hk (h.distinct _ _ _ _ he hl ht.symm)

variable (hm : FlatMove names db.snapshot o d)
variable (hfind : ∀ k, db'.snapshot.find k = movedFind db.snapshot o d t ts left k)

include hm hfind

/-- A reuse entry stays, unless the origin is moved back to it. -/
theorem typeAt_reuse (hd : k ≠ d) (hk : typeAt db.snapshot k = some .REUSE) :
    typeAt db'.snapshot k = some .REUSE := by
  by_cases ho : k = o
  · subst ho
    obtain ⟨e, he, hty⟩ := find_of_typeAt hk
    cases hmoved with
    | first hnone =>
      rw [hnone] at he
      cases he
    | @reused e' hl _ =>
      obtain ⟨n, -, htn⟩ := h.reuseTarget _ _ he hty
      obtain rfl := Option.some.inj (he.symm.trans hl)
      have htd : e.target ≠ d := fun htd => hflat.ne_reuseName hm.dest n (htd.symm.trans htn)
      rw [typeAt, hfind, movedFind, if_neg htd, if_neg hd, if_pos rfl]
      rfl
    | again hl hty' =>
      obtain rfl := Option.some.inj (he.symm.trans hl)
      rw [hty] at hty'
      cases hty'
  · have hsame : movedFind db.snapshot o d t ts left k = db.snapshot.find k := by
      unfold movedFind
      rw [if_neg (not_or.mpr ⟨ho, hd⟩), if_neg hd, if_neg ho]
      exact ite_self _
    rw [typeAt, hfind, hsame]
    exact hk

/-- Where the new entry of the destination leads to. -/
theorem source (htd : t ≠ d) :
    (∃ n ≤ db.snapshotVersion, t = reuseName n) ∨ typeAt db'.snapshot t = some .REUSE := by
  have hkeep := fun k => typeAt_reuse hflat h hmoved hm hfind (k := k)
  cases hmoved with
  | first hnone =>
    right
    rw [typeAt, hfind, movedFind, if_neg htd, if_neg htd, if_pos rfl]
    rfl
  | reused hl hty => exact Or.inl (h.reuseTarget _ _ hl hty)
  | again hl hty => exact (h.moveTarget _ _ hl hty).imp_right (hkeep _ htd)

end Step

theorem step (hflat : Flat names) (h : FlatInv names db) (hm : FlatMove names db.snapshot o d)
    (hdb : addDirectoryMove db o d = some db') : FlatInv names db' := by
  obtain ⟨hversion, t, ts, left, hmoved, hfind⟩ := moved hflat hm hdb
  have hcases : ∀ {k e}, db'.snapshot.find k = some e → _ := fun {k e} he =>
    hmoved.find_cases ((hfind k).symm.trans he)
  have hapart := fun {k e} => source_apart hflat h hmoved hm.origin (k := k) (e := e)
  have hfresh := source_ne_fresh hflat h hmoved hm.origin
  have hlate : ∀ {k e}, db.snapshot.find k = some e → e.target ≠ reuseName (db.snapshotVersion + 1) := by
    intro k e he ht
    have hle := h.reuse_le hflat he ht
    omega
  constructor
  · intro k e he
    obtain ⟨rfl, -⟩ | ⟨rfl, -⟩ | ⟨-, -, he⟩ := hcases he
    · exact hm.dest
    · exact hm.origin
    · exact h.keys k e he
  · intro k e he
    obtain ⟨-, -, rfl⟩ | ⟨-, rfl⟩ | ⟨-, -, he⟩ := hcases he
    · exact Or.inl rfl
    · exact Or.inr rfl
    · exact h.types k e he
  · intro k e he hty
    rw [hversion]
    obtain ⟨-, -, rfl⟩ | ⟨-, rfl⟩ | ⟨-, -, he⟩ := hcases he
    · cases hty
    · exact ⟨_, le_rfl, rfl⟩
    · obtain ⟨n, hn, ht⟩ := h.reuseTarget k e he hty
      exact ⟨n, Nat.le_succ_of_le hn, ht⟩
  · intro k e he hty
    rw [hversion]
    obtain ⟨-, htd, rfl⟩ | ⟨-, rfl⟩ | ⟨hko, -, he⟩ := hcases he
    · refine (source hflat h hmoved hm hfind htd).imp_left fun ⟨n, hn, ht⟩ => ?_
      exact ⟨n, Nat.le_succ_of_le hn, ht⟩
    · cases hty
    · refine (h.moveTarget k e he hty).imp (fun ⟨n, hn, ht⟩ => ⟨n, Nat.le_succ_of_le hn, ht⟩) fun hr => ?_
      refine typeAt_reuse hflat h hmoved hm hfind (fun hd => ?_) hr
      -- the destination is the target of the origin only
      obtain hnone | ⟨e', he', -, ht⟩ := hm.free
      · rw [hd, typeAt, hnone] at hr
        cases hr
      · exact hko (h.distinct _ _ _ _ he he' (hd.trans ht.symm))
  · intro k k' e e' he he' ht
    obtain ⟨rfl, -, rfl⟩ | ⟨rfl, rfl⟩ | ⟨hko, -, he⟩ := hcases he
    · obtain ⟨rfl, -⟩ | ⟨-, rfl⟩ | ⟨hko', -, he'⟩ := hcases he'
      · rfl
      · exact absurd ht hfresh
      · exact absurd ht (hapart he' hko')
    · obtain ⟨-, -, rfl⟩ | ⟨rfl, -⟩ | ⟨-, -, he'⟩ := hcases he'
      · exact absurd ht.symm hfresh
      · rfl
      · exact absurd ht.symm (hlate he')
    · obtain ⟨-, -, rfl⟩ | ⟨-, rfl⟩ | ⟨-, -, he'⟩ := hcases he'
      · exact absurd ht.symm (hapart he hko)
      · exact absurd ht (hlate he)
      · exact h.distinct _ _ _ _ he he' ht

end FlatInv

/-! ## Histories -/

theorem FlatReached.inv (hflat : Flat names) (h : FlatReached names db) : FlatInv names db := by
  induction h with
  | refl => exact FlatInv.empty names
  | tail _ hstep ih =>
    obtain ⟨o, d, hm, hdb⟩ := hstep
    exact ih.step hflat hm hdb

theorem version_le (hflat : Flat names) (h : Relation.ReflTransGen (FlatStep names) db db') :
    db.snapshotVersion ≤ db'.snapshotVersion := by
  induction h with
  | refl => exact le_rfl
  | tail _ hstep ih =>
    obtain ⟨o, d, hm, hdb⟩ := hstep
    rw [(FlatInv.moved hflat hm hdb).1]
    exact Nat.le_succ_of_le ih

/-- A reuse name that is created is that of the new version. -/
theorem Issues.version (hflat : Flat names) (hstep : FlatStep names db db') (h : Issues db db' n) :
    n = db'.snapshotVersion := by
  obtain ⟨o, d, hm, hdb⟩ := hstep
  obtain ⟨hversion, t, ts, left, hmoved, hfind⟩ := FlatInv.moved hflat hm hdb
  obtain ⟨⟨k, e, he, ht⟩, hnew⟩ := h
  obtain ⟨-, -, rfl⟩ | ⟨-, rfl⟩ | ⟨-, -, he⟩ := hmoved.find_cases ((hfind k).symm.trans he)
  · cases hmoved with
    | first _ => exact absurd ht (hflat.ne_reuseName hm.origin n)
    | reused hl _ => exact (hnew _ _ hl ht).elim
    | again hl _ => exact (hnew _ _ hl ht).elim
  · rw [hversion, reuseName_inj ht]
  · exact absurd ht (hnew k e he)

/-! ## System paths -/

/-- Nothing on the path is mapped, or the mapped name on it is replaced by its target. -/
def Image (snap : Snapshot) (u s : Str) : Prop :=
  ((∀ k, Under k u → snap.find k = none) ∧ s = u) ∨
    ∃ q e r, PathTail r ∧ snap.find q = some e ∧ u = q ++ r ∧ s = e.target ++ r

namespace FlatInv

theorem found_iff (h : FlatInv names db) {fr fs : Bool} :
    found db.snapshot k fr fs = true ↔
      typeAt db.snapshot k = some .MOVE ∨ fr = true ∧ typeAt db.snapshot k = some .REUSE := by
  unfold found typeAt
  cases he : db.snapshot.find k with
  | none => simp
  | some e =>
    obtain hty | hty := h.types k e he
    · simp [remaps, hty]
    · simp [remaps, hty]

theorem not_under_reuse (hflat : Flat names) (hk : k ∈ names) (n : Nat) (r : Str) :
    ¬ Under k (reuseName n ++ r) := by
  rintro ⟨w, -, hw⟩
  obtain ⟨k', rfl⟩ := hflat.absolute k hk
  obtain ⟨x, hx⟩ := reuseName_cons n
  rw [hx, List.cons_append, List.cons_append, List.cons.injEq] at hw
  exact absurd hw.1 (by decide)

/-- After one substitution nothing remaps the path. -/
theorem settled (hflat : Flat names) (h : FlatInv names db) {q r : Str} (hr : PathTail r)
    (he : db.snapshot.find q = some e) (hk : Under k (e.target ++ r)) (fs : Bool) :
    ¬ found db.snapshot k (e.type ≠ .MOVE) fs = true := by
  rw [h.found_iff]
  intro hfound
  have hkey : k ∈ names := hfound.elim h.mem_of_typeAt fun hreuse => h.mem_of_typeAt hreuse.2
  obtain ⟨n, -, hn⟩ | ⟨hty, hreuse⟩ := h.target he
  · rw [hn] at hk
    exact not_under_reuse hflat hkey n r hk
  · have htarget : Under e.target (e.target ++ r) := within_append _ hr
    have hsame : k = e.target := by
      obtain hu | hu := hk.total htarget
      · exact hflat.apart k hkey _ (h.mem_of_typeAt hreuse) hu
      · exact (hflat.apart _ (h.mem_of_typeAt hreuse) k hkey hu).symm
    rw [hsame, hreuse] at hfound
    obtain hmove | ⟨hfr, -⟩ := hfound
    · cases hmove
    · exact of_decide_eq_true hfr hty

/-- The loop ends in its second round at the latest. -/
theorem loop (hflat : Flat names) (h : FlatInv names db) (fs : Bool) (p : Str) (links : Nat) :
    (∃ q ts, searchPathRecursive db.snapshot p 0 true fs = (false, q, ts) ∧
        toSystemPathLoop db.snapshot fs 2 p true links 0 = some (p, ts)) ∨
      ∃ q e r ts, PathTail r ∧ db.snapshot.find q = some e ∧ p = q ++ r ∧
        toSystemPathLoop db.snapshot fs 2 p true links 0 = some (e.target ++ r, ts) := by
  cases hsearch : searchPathRecursive db.snapshot p 0 true fs with
  | mk b rest =>
    obtain ⟨q, ts⟩ := rest
    cases b with
    | false =>
      refine Or.inl ⟨q, ts, rfl, ?_⟩
      rw [toSystemPathLoop, hsearch]
    | true =>
      obtain ⟨hhit, hts, -⟩ := search_true le_rfl hsearch
      obtain ⟨r, hr, hp⟩ := hhit.under
      have hmapped := h.found_iff.mp hhit.follows
      obtain ⟨e, he⟩ : ∃ e, db.snapshot.find q = some e := by
        obtain hty | ⟨-, hty⟩ := hmapped
        · exact (find_of_typeAt hty).imp fun e he => he.1
        · exact (find_of_typeAt hty).imp fun e he => he.1
      have hdrop : p.drop q.length = r := by rw [hp, List.drop_left]
      have hnolink : e.type ≠ .SYMLINK := by
        obtain hty | hty := h.types q e he
        · rw [hty]
          decide
        · rw [hty]
          decide
      have hnone : ∀ k, Under k (e.target ++ r) →
          ¬ Follows db.snapshot (e.type ≠ .MOVE) fs (e.target ++ r) k := fun k hk => h.settled hflat hr he hk _
      obtain ⟨q', ts', hrest⟩ := search_of_no_hit hts hnone
      refine Or.inr ⟨q, e, r, ts', hr, he, hp, ?_⟩
      rw [toSystemPathLoop, hsearch]
      dsimp only
      rw [he]
      dsimp only
      rw [if_neg fun hlink => hnolink hlink.1, if_neg hnolink, hdrop, toSystemPathLoop, hrest]

/-- One substitution at most. -/
theorem once (hflat : Flat names) (h : FlatInv names db) (u : Str) (ctype : CallingType) :
    ∃ res, toSystemPath db 2 u ctype = some res := by
  unfold toSystemPath
  dsimp only
  split
  · exact ⟨_, rfl⟩
  · obtain ⟨q, ts, -, hloop⟩ | ⟨q, e, r, ts, -, -, -, hloop⟩ :=
      h.loop hflat (decide (ctype = .READLINK)) (iointercept u) 0
    · exact ⟨_, hloop⟩
    · exact ⟨_, hloop⟩

theorem image (hflat : Flat names) (h : FlatInv names db) {u s : Str} {ctype : CallingType} {ts : Int}
    (hu : UserPath u) (hlen : u.length ≤ PATH_MAX) (hs : ToSystemPath db u ctype (s, ts)) :
    Image db.snapshot u s := by
  obtain ⟨res, hres⟩ := h.once hflat u ctype
  obtain rfl := ToSystemPath.det hs ⟨2, hres⟩
  unfold toSystemPath at hres
  dsimp only at hres
  rw [hu.iointercept, if_neg (Nat.not_lt_of_le hlen)] at hres
  obtain ⟨q, ts, hsearch, hloop⟩ | ⟨q, e, r, ts, hr, he, hp, hloop⟩ :=
    h.loop hflat (decide (ctype = .READLINK)) u 0
  · obtain rfl := (Prod.mk.inj (Option.some.inj (hres.symm.trans hloop))).1
    refine Or.inl ⟨fun k hk => ?_, rfl⟩
    have hnot := (search_false le_rfl hu.namesFit hsearch).1 k hk
    cases hfind : db.snapshot.find k with
    | none => rfl
    | some e =>
      refine absurd (h.found_iff.mpr ?_) hnot
      rw [typeAt_eq hfind]
      exact (h.types k e hfind).imp (congrArg some) fun hty => ⟨rfl, congrArg some hty⟩
  · obtain rfl := (Prod.mk.inj (Option.some.inj (hres.symm.trans hloop))).1
    exact Or.inr ⟨q, e, r, hr, he, hp, rfl⟩

theorem not_image (h : FlatInv names db) {u q r : Str}
    (hnone : ∀ k, Under k u → db.snapshot.find k = none) (hu : ∃ x, u = '/' :: x) (hr : PathTail r)
    (he : db.snapshot.find q = some e) : u ≠ e.target ++ r := by
  rintro rfl
  obtain ⟨n, -, hn⟩ | ⟨-, hreuse⟩ := h.target he
  · obtain ⟨x, hx⟩ := hu
    obtain ⟨y, hy⟩ := reuseName_cons n
    rw [hn, hy, List.cons_append, List.cons.injEq] at hx
    exact absurd hx.1 (by decide)
  · rw [typeAt, hnone _ (within_append _ hr)] at hreuse
    cases hreuse

/-- Two targets are the same or apart. -/
theorem target_append_inj (hflat : Flat names) (h : FlatInv names db) {q q' r r' : Str} {e' : PMEntry}
    (hr : PathTail r) (hr' : PathTail r') (he : db.snapshot.find q = some e)
    (he' : db.snapshot.find q' = some e') (heq : e.target ++ r = e'.target ++ r') :
    e.target = e'.target ∧ r = r' := by
  have hsame : e.target = e'.target := by
    have hunder : Under e.target (e.target ++ r) := within_append _ hr
    have hunder' : Under e'.target (e.target ++ r) := heq ▸ within_append _ hr'
    obtain ⟨n, -, hn⟩ | ⟨-, hname⟩ := h.target he
    · obtain ⟨n', -, hn'⟩ | ⟨-, hname'⟩ := h.target he'
      · rw [hn, hn'] at heq
        rw [hn, hn', (reuseName_append_inj hr hr' heq).1]
      · rw [hn] at hunder'
        exact absurd hunder' (not_under_reuse hflat (h.mem_of_typeAt hname') n r)
    · have hkey := h.mem_of_typeAt hname
      obtain ⟨n', -, hn'⟩ | ⟨-, hname'⟩ := h.target he'
      · rw [heq, hn'] at hunder
        exact absurd hunder (not_under_reuse hflat hkey n' r')
      · have hkey' := h.mem_of_typeAt hname'
        obtain hu | hu := hunder.total hunder'
        · exact hflat.apart _ hkey _ hkey' hu
        · exact (hflat.apart _ hkey' _ hkey hu).symm
  rw [hsame] at heq
  exact ⟨hsame, List.append_cancel_left heq⟩

theorem image_injective (hflat : Flat names) (h : FlatInv names db) {u u' s : Str}
    (hu : ∃ x, u = '/' :: x) (hu' : ∃ x, u' = '/' :: x) (hs : Image db.snapshot u s)
    (hs' : Image db.snapshot u' s) : u = u' := by
  obtain ⟨hnone, rfl⟩ | ⟨q, e, r, hr, he, rfl, rfl⟩ := hs
  · obtain ⟨-, hsame⟩ | ⟨q', e', r', hr', he', rfl, ht⟩ := hs'
    · exact hsame
    · exact absurd ht (h.not_image hnone hu hr' he')
  · obtain ⟨hnone, ht⟩ | ⟨q', e', r', hr', he', rfl, ht⟩ := hs'
    · exact absurd ht.symm (h.not_image hnone hu' hr he)
    · obtain ⟨htarget, rfl⟩ := h.target_append_inj hflat hr hr' he he' ht
      rw [h.distinct _ _ _ _ he he' htarget]

end FlatInv

end Invariant

/-- After every sequence of moves the entries are as `FlatInv` says, no target is moved on, every
    reuse name is one of a version so far, and no reuse name is created twice; the next move is
    possible; two rounds of the loop are enough for every path, and different paths have different
    system paths. -/
theorem flat_snapshot {names : Set Str} (hflat : Flat names) {db : PathMapDB} (h : FlatReached names db) :
    FlatInv names db ∧
      (∀ k e, db.snapshot.find k = some e → typeAt db.snapshot e.target ≠ some .MOVE) ∧
      (∀ k e n, db.snapshot.find k = some e → e.target = reuseName n → n ≤ db.snapshotVersion) ∧
      (∀ db1 db2 db3 n, FlatStep names db db1 → Issues db db1 n →
        Relation.ReflTransGen (FlatStep names) db1 db2 → FlatStep names db2 db3 → ¬ Issues db2 db3 n) ∧
      (∀ o d, FlatMove names db.snapshot o d → ∃ db', addDirectoryMove db o d = some db') ∧
      (∀ u ctype, ∃ res, toSystemPath db 2 u ctype = some res) ∧
      ∀ u u' ctype ctype' s ts ts', UserPath u → u.length ≤ PATH_MAX → UserPath u' → u'.length ≤ PATH_MAX →
        ToSystemPath db u ctype (s, ts) → ToSystemPath db u' ctype' (s, ts') → u = u' := by
  have hinv := h.inv hflat
  refine ⟨hinv, fun k e he => hinv.target_ne_move hflat he, fun k e n he ht => hinv.reuse_le hflat he ht, ?_,
    fun o d hm => hinv.moves hflat hm, hinv.once hflat, ?_⟩
  · intro db1 db2 db3 n hstep hissues hrun hstep' hissues'
    have hversion := hissues.version hflat hstep
    have hversion' := hissues'.version hflat hstep'
    have hle := version_le hflat hrun
    obtain ⟨o, d, hm, hdb⟩ := hstep'
    have hnext := (FlatInv.moved hflat hm hdb).1
    omega
  · intro u u' ctype ctype' s ts ts' hu hlen hu' hlen' hs hs'
    exact hinv.image_injective hflat hu.absolute hu'.absolute (hinv.image hflat hu hlen hs)
      (hinv.image hflat hu' hlen' hs')

/-- Three names next to each other. -/
def abc : Set Str := {lit "/a", lit "/b", lit "/c"}

theorem flat_abc : Flat abc := by
  have hnames : ∀ {P : Str → Prop}, (∀ k ∈ [lit "/a", lit "/b", lit "/c"], P k) → ∀ k ∈ abc, P k := by
    intro P hall k hk
    exact hall k (by simpa [abc] using hk)
  refine ⟨hnames fun k hk => ?_, hnames (by decide), hnames fun k hk => hnames ?_⟩
  · simp only [List.mem_cons, List.not_mem_nil, or_false] at hk
    obtain rfl | rfl | rfl := hk
    · exact ⟨_, rfl⟩
    · exact ⟨_, rfl⟩
    · exact ⟨_, rfl⟩
  · simp only [List.mem_cons, List.not_mem_nil, or_false] at hk
    obtain rfl | rfl | rfl := hk
    · decide
    · decide
    · decide

/-- `mv /a /b`, `mv /a /c` for a new `/a`, and `mv /b /a` back. -/
theorem flat_snapshot_abc :
    ∃ db, FlatReached abc db ∧ db.snapshotVersion = 3 ∧
      db.snapshot.find (lit "/c") = some ⟨.MOVE, reuseName 1, 0⟩ ∧ FlatInv abc db ∧
      ∃ res, toSystemPath db 2 (lit "/c/x") .LOOKUP = some res := by
  have h1 : ((addDirectoryMove .empty (lit "/a") (lit "/b")).map fun db => db.snapshot.find (lit "/c")) =
      some none := by decide +kernel
  have h2 : (((addDirectoryMove .empty (lit "/a") (lit "/b")).bind
      (addDirectoryMove · (lit "/a") (lit "/c"))).map fun db => db.snapshot.find (lit "/b")) =
      some (some ⟨.MOVE, lit "/a", 0⟩) := by decide +kernel
  have h3 : ((((addDirectoryMove .empty (lit "/a") (lit "/b")).bind
      (addDirectoryMove · (lit "/a") (lit "/c"))).bind (addDirectoryMove · (lit "/b") (lit "/a"))).map fun db =>
        (db.snapshotVersion, db.snapshot.find (lit "/c"))) =
      some (3, some ⟨.MOVE, reuseName 1, 0⟩) := by decide +kernel
  obtain ⟨db1, hdb1, hc⟩ := Option.map_eq_some_iff.mp h1
  rw [hdb1, Option.bind_some] at h2 h3
  obtain ⟨db2, hdb2, hb⟩ := Option.map_eq_some_iff.mp h2
  rw [hdb2, Option.bind_some] at h3
  obtain ⟨db3, hdb3, hresult⟩ := Option.map_eq_some_iff.mp h3
  obtain ⟨hversion, hc3⟩ := Prod.mk.inj hresult
  have hstep1 : FlatStep abc .empty db1 :=
    ⟨_, _, ⟨by simp [abc], by simp [abc], by decide, Or.inl (find_empty _)⟩, hdb1⟩
  have hstep2 : FlatStep abc db1 db2 :=
    ⟨_, _, ⟨by simp [abc], by simp [abc], by decide, Or.inl hc⟩, hdb2⟩
  have hstep3 : FlatStep abc db2 db3 :=
    ⟨_, _, ⟨by simp [abc], by simp [abc], by decide, Or.inr ⟨_, hb, rfl, rfl⟩⟩, hdb3⟩
  have hreached : FlatReached abc db3 := ((Relation.ReflTransGen.single hstep1).tail hstep2).tail hstep3
  obtain ⟨hinv, -, -, -, -, honce, -⟩ := flat_snapshot flat_abc hreached
  exact ⟨db3, hreached, hversion, hc3, hinv, honce _ _⟩

end HFlat.PathMap
