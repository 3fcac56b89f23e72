/-
  The loop of `toSystemPath` ends. Symbolic links are bounded by `MAXSYMLINKS` and a reuse entry
  leads to a name that no move or reuse entry can match, so what has to end is a chain of move
  entries, each replacing a prefix of the path. `NoReturn` is the condition under which a new move
  entry closes no cycle: following the move entries of the snapshot from its target does not lead
  back to the destination, unless each round uses up some of the path. A run all of whose
  directory moves satisfy it keeps the loop ending for every path (`toSystemPath_terminates`).
-/
import HFlat.Lib.PrefixRewrite
import HFlat.PathMap.Updates

namespace HFlat.PathMap

open HFlat.Lib

/-! ## Move entries as rewriting rules -/

/-- The move entries, as rules for prefixes. -/
def moveRules (snap : Snapshot) (q t : Str) : Prop :=
  ∃ e, snap.find q = some e ∧ e.type = .MOVE ∧ e.target = t

/-- The move entries that a move of `o` to `d` leaves alone. -/
def otherMoves (snap : Snapshot) (o d q t : Str) : Prop := q ≠ o ∧ q ≠ d ∧ moveRules snap q t

/-- The move entry from `d` to the target of `o` closes no cycle: it is dropped at once because the
    target is `d` itself, or whatever the other entries make of a path below the target, it comes
    to lie below `d` with a shorter rest only. -/
def NoReturn (snap : Snapshot) (o d : Str) : Prop :=
  moveTarget snap o = d ∨ ∀ r r', PathTail r → PathTail r' →
    Relation.ReflTransGen (Hop '/' (otherMoves snap o d)) (moveTarget snap o ++ r) (d ++ r') →
      r'.length < r.length

/-- What the loop needs: move and reuse entries belong to absolute paths, reuse entries lead to
    reuse names, and the move entries terminate. -/
structure LoopInv (snap : Snapshot) : Prop where
  absolute : ∀ k e, snap.find k = some e → e.type = .MOVE ∨ e.type = .REUSE → ∃ r, k = '/' :: r
  reuseTarget : ∀ k e, snap.find k = some e → e.type = .REUSE → ∃ n, e.target = reuseName n
  moves : Terminates '/' (moveRules snap)

/-! ## The loop ends -/

section Loop

variable {snap : Snapshot} {fs : Bool} {links : Nat}

/-- From the path the loop returns, whatever the flag and the time stamp. -/
def Ends (snap : Snapshot) (fs : Bool) (links : Nat) (p : Str) : Prop :=
  ∀ fr ts, 0 ≤ ts → ∃ fuel res, toSystemPathLoop snap fs fuel p fr links ts = some res

/-- The loop ends at `p` if it ends after every hop from `p`. -/
theorem ends_of_hops {p : Str}
    (h : ∀ fr q e, IsHit snap fr fs p q → snap.find q = some e →
      ¬ (e.type = .SYMLINK ∧ links + 1 > MAXSYMLINKS) →
      Ends snap fs (if e.type = .SYMLINK then links + 1 else links)
        (e.target ++ p.drop q.length)) : Ends snap fs links p := by
  intro fr ts hts
  rcases hq : searchPathRecursive snap p ts fr fs with ⟨_ | _, q, ts'⟩
  · exact ⟨1, (p, ts'), by rw [toSystemPathLoop, hq]⟩
  · obtain ⟨hit, hle, -⟩ := search_true hts hq
    cases he : snap.find q with
    | none =>
      have hf := hit.follows
      simp [Follows, found, he] at hf
    | some e =>
      by_cases hmax : e.type = .SYMLINK ∧ links + 1 > MAXSYMLINKS
      · exact ⟨1, (p, -ELOOP), by simp [toSystemPathLoop, hq, he, hmax]⟩
      · obtain ⟨fuel, res, hl⟩ := h fr q e hit he hmax (e.type ≠ .MOVE) ts' (le_trans hts hle)
        refine ⟨fuel + 1, res, ?_⟩
        rw [toSystemPathLoop, hq]
        simp only [he, hmax, if_false]
        exact hl

/-- Below a reuse name only symbolic links can match. -/
theorem hit_reuseName_symlink (hI : LoopInv snap) {fr : Bool} {n : Nat} {r q : Str} {e : PMEntry}
    (hit : IsHit snap fr fs (reuseName n ++ r) q) (he : snap.find q = some e) :
    e.type = .SYMLINK := by
  have hne : ∀ ty, ty = .MOVE ∨ ty = .REUSE → e.type ≠ ty := by
    rintro ty hty rfl
    obtain ⟨x, rfl⟩ := hI.absolute q e he hty
    obtain ⟨w, -, hw⟩ := hit.under
    have hhead := congrArg List.head? hw
    simp [reuseName, lit] at hhead
  have hf := hit.follows
  cases hty : e.type with
  | SYMLINK => rfl
  | MOVE => exact absurd hty (hne _ (Or.inl rfl))
  | REUSE => exact absurd hty (hne _ (Or.inr rfl))
  | NONE => simp [Follows, found, he, remaps, hty] at hf

/-- The loop ends everywhere once it ends after one more symbolic link: induction along the move
    entries. -/
theorem LoopInv.ends_links (hI : LoopInv snap)
    (hnext : ¬ links + 1 > MAXSYMLINKS → ∀ x, Ends snap fs (links + 1) x) (p : Str) :
    Ends snap fs links p := by
  have hsym : ∀ {e : PMEntry}, e.type = .SYMLINK →
      ¬ (e.type = .SYMLINK ∧ links + 1 > MAXSYMLINKS) → ∀ x,
        Ends snap fs (if e.type = .SYMLINK then links + 1 else links) x := by
    intro e hty hmax x
    rw [if_pos hty]
    exact hnext (fun hgt => hmax ⟨hty, hgt⟩) x
  induction p using hI.moves.induction with
  | _ p ih =>
    refine ends_of_hops fun fr q e hit he hmax => ?_
    cases hty : e.type with
    | SYMLINK => exact hty ▸ hsym hty hmax _
    | MOVE =>
      rw [if_neg (by decide)]
      refine ih _ ?_
      have hrule : moveRules snap q e.target := ⟨e, he, hty, rfl⟩
      have hop := Hop.intro hrule hit.under.tail_drop
      rwa [hit.under.drop_eq] at hop
    | REUSE =>
      rw [if_neg (by decide)]
      obtain ⟨n, hn⟩ := hI.reuseTarget q e he hty
      rw [hn]
      refine ends_of_hops fun fr q e hit he hmax => ?_
      exact hsym (hit_reuseName_symlink hI hit he) hmax _
    | NONE =>
      have hf := hit.follows
      simp [Follows, found, he, remaps, hty] at hf

theorem LoopInv.ends (hI : LoopInv snap) (left : Nat) (hl : links + left = MAXSYMLINKS) (p : Str) :
    Ends snap fs links p := by
  induction left generalizing links p with
  | zero => exact hI.ends_links (fun h => absurd (by omega) h) p
  | succ left ih => exact hI.ends_links (fun _ x => ih (by omega) x) p

end Loop

theorem LoopInv.toSystemPath {db : PathMapDB} (hI : LoopInv db.snapshot) (u : Str)
    (ctype : CallingType) : ∃ res, ToSystemPath db u ctype res := by
  unfold ToSystemPath PathMap.toSystemPath
  by_cases hlen : (iointercept u).length > PATH_MAX
  · exact ⟨(iointercept u, -ENAMETOOLONG), 0, by simp [hlen]⟩
  · obtain ⟨fuel, res, h⟩ := hI.ends MAXSYMLINKS (Nat.zero_add MAXSYMLINKS)
      (iointercept u) true 0 (le_refl 0)
    exact ⟨res, fuel, by simpa [hlen] using h⟩

/-! ## Updates keep the invariant -/

theorem loopInv_empty : LoopInv ∅ where
  absolute k e he := by simp [find_empty] at he
  reuseTarget k e he := by simp [find_empty] at he
  moves := terminates_empty.mono fun q t h => by
    obtain ⟨e, he, -⟩ := h
    simp [find_empty] at he

/-- An update that neither adds nor redirects a move or reuse entry. -/
theorem LoopInv.mono {snap snap' : Snapshot} (hI : LoopInv snap)
    (h : ∀ k e, snap'.find k = some e → e.type = .MOVE ∨ e.type = .REUSE →
      ∃ e', snap.find k = some e' ∧ e'.type = e.type ∧ e'.target = e.target) : LoopInv snap' where
  absolute k e he hty := by
    obtain ⟨e', he', hty', -⟩ := h k e he hty
    exact hI.absolute k e' he' (hty' ▸ hty)
  reuseTarget k e he hty := by
    obtain ⟨e', he', hty', htg'⟩ := h k e he (Or.inr hty)
    rw [← htg']
    exact hI.reuseTarget k e' he' (hty'.trans hty)
  moves := hI.moves.mono fun q t hq => by
    obtain ⟨e, he, hty, htg⟩ := hq
    obtain ⟨e', he', hty', htg'⟩ := h q e he (Or.inl hty)
    exact ⟨e', he', hty'.trans hty, htg'.trans htg⟩

theorem LoopInv.addPermissionChange {db : PathMapDB} (hI : LoopInv db.snapshot) {p : Str}
    (hp : iointercept p = p) : LoopInv (addPermissionChange db p).snapshot := by
  refine hI.mono fun k e he hty => ?_
  rw [addPermissionChange_find db hp] at he
  split_ifs at he with hk
  · subst hk
    obtain rfl := Option.some.inj he
    cases hf : db.snapshot.find k with
    | none => simp [hf] at hty
    | some e' => exact ⟨e', rfl, by simp, by simp⟩
  · exact ⟨e, he, rfl, rfl⟩

theorem LoopInv.addUnlink {db : PathMapDB} (hI : LoopInv db.snapshot) (p : Str) :
    LoopInv (addUnlink db p).snapshot := by
  refine hI.mono fun k e he _ => ?_
  rw [addUnlink_find] at he
  split_ifs at he
  exact ⟨e, he, rfl, rfl⟩

theorem LoopInv.addSoftLink {db db' : PathMapDB} (hI : LoopInv db.snapshot) {o t : Str}
    (h : addSoftLink db o t = some db') : LoopInv db'.snapshot := by
  obtain ⟨-, key, -, hfind⟩ := addSoftLink_find h
  refine hI.mono fun k e he hty => ?_
  rw [hfind] at he
  split_ifs at he with hk
  · obtain rfl := Option.some.inj he
    simp at hty
  · exact ⟨e, he, rfl, rfl⟩

theorem LoopInv.addDirectoryMove {db db' : PathMapDB} (hI : LoopInv db.snapshot) {o d : Str}
    (ho : UserPath o) (hd : UserPath d) (hne : o ≠ d) (hret : NoReturn db.snapshot o d)
    (h : addDirectoryMove db o d = some db') : LoopInv db'.snapshot := by
  obtain ⟨-, t, ts, left, hm, hfind⟩ :=
    addDirectoryMove_find ho.iointercept hd.iointercept hne h
  refine ⟨fun k e he hty => ?_, fun k e he hty => ?_, ?_⟩
  · rcases hm.find_cases ((hfind k).symm.trans he) with ⟨rfl, -⟩ | ⟨rfl, -⟩ | ⟨-, -, he'⟩
    · exact hd.absolute
    · exact ho.absolute
    · exact hI.absolute k e he' hty
  · rcases hm.find_cases ((hfind k).symm.trans he) with ⟨-, -, rfl⟩ | ⟨-, rfl⟩ | ⟨-, -, he'⟩
    · simp at hty
    · exact ⟨_, rfl⟩
    · exact hI.reuseTarget k e he' hty
  · -- the move entries are the untouched ones and, unless this is a move back, the new one
    have hother : Terminates '/' (otherMoves db.snapshot o d) :=
      hI.moves.mono fun q t hq => hq.2.2
    have hrules : ∀ q x, moveRules db'.snapshot q x →
        otherMoves db.snapshot o d q x ∨ (q = d ∧ x = t ∧ t ≠ d) := by
      rintro q x ⟨e, he, hty, rfl⟩
      rcases hm.find_cases ((hfind q).symm.trans he) with
        ⟨hqd, htd, rfl⟩ | ⟨-, rfl⟩ | ⟨hqo, hqd, he'⟩
      · exact Or.inr ⟨hqd, rfl, htd⟩
      · simp at hty
      · exact Or.inl ⟨hqo, hqd, e, he', hty, rfl⟩
    unfold NoReturn at hret
    rw [hm.target_eq] at hret
    rcases hret with htd | hback
    · exact hother.mono fun q x hq => (hrules q x hq).resolve_right fun hx => hx.2.2 htd
    · exact hother.insert hback fun q x hq => (hrules q x hq).imp id fun hx => ⟨hx.1, hx.2.1⟩

/-! ## Runs -/

/-- Every operation, but no directory move that closes a cycle of mappings. -/
def AcyclicRun (s : State) : Op → Prop
  | .move o d => NoReturn s.db.snapshot o d
  | _ => True

theorem AcyclicRun.inv {s : State} (h : Reachable AcyclicRun s) :
    s.tree.Closed ∧ LoopInv s.db.snapshot := by
  refine Reachable.induction (fun s => s.tree.Closed ∧ LoopInv s.db.snapshot) ?_ ?_ h
  · exact ⟨Tree.init_closed, loopInv_empty⟩
  · rintro s op s' - ⟨hc, hI⟩ hP hstep
    cases hstep with
    | create _ hp => exact ⟨Tree.create_closed hc hp, hI⟩
    | @move o d _ hv _ hdb =>
      exact ⟨Tree.move_closed hc hv,
        hI.addDirectoryMove (hc.path o hv.origin.ne_none) hv.free.path hv.ne hP hdb⟩
    | @chmod p hd _ =>
      exact ⟨Tree.chmod_closed hc _ _,
        hI.addPermissionChange (hc.path p hd.ne_none).iointercept⟩
    | symlink hp _ hdb => exact ⟨Tree.create_closed hc hp, hI.addSoftLink hdb⟩
    | @remove p _ hr he _ =>
      refine ⟨Tree.remove_closed hc hr he, ?_⟩
      dsimp only
      split
      · exact hI.addUnlink p
      · exact hI

/-- In every run without a move that closes a cycle of mappings, `toSystemPath` returns for every
    path and both calling types. -/
theorem toSystemPath_terminates {s : State} (hs : Reachable AcyclicRun s) (u : Str)
    (ctype : CallingType) : ∃ res, ToSystemPath s.db u ctype res :=
  (AcyclicRun.inv hs).2.toSystemPath u ctype

/-- `mkdir /a`, `mv /a /b` is such a run. -/
theorem toSystemPath_terminates_mv_a_b :
    ∃ s, Reachable AcyclicRun s ∧ hasMapping s.db (lit "/b") = true ∧
      ∀ u ctype, ∃ res, ToSystemPath s.db u ctype res := by
  have hs1 : Reachable AcyclicRun ⟨Tree.init.create (lit "/a") .dir, .empty⟩ :=
    Reachable.init.step (show AcyclicRun _ (.create (lit "/a") .dir) from trivial)
      (Step.create (by decide) (by decide))
  have hempty : ∀ p p', ¬ Hop '/' (otherMoves ∅ (lit "/a") (lit "/b")) p p' := by
    rintro _ _ ⟨⟨-, -, e, he, -⟩, -⟩
    simp [find_empty] at he
  have hret : NoReturn ∅ (lit "/a") (lit "/b") := by
    refine Or.inr fun r r' _ _ hreach => ?_
    rcases Relation.ReflTransGen.cases_head hreach with heq | ⟨_, hop, -⟩
    · have hhead := congrArg (fun x : Str => x[1]?) heq
      simp [moveTarget, find_empty, lit] at hhead
    · exact absurd hop (hempty _ _)
  obtain ⟨db, hdb⟩ : ∃ db, addDirectoryMove .empty (lit "/a") (lit "/b") = some db :=
    Option.isSome_iff_exists.mp (by decide)
  have hmap : (addDirectoryMove .empty (lit "/a") (lit "/b")).map
      (fun db => hasMapping db (lit "/b")) = some true := by decide
  rw [hdb, Option.map_some, Option.some.injEq] at hmap
  have hs := hs1.step (show AcyclicRun _ (.move (lit "/a") (lit "/b")) from hret)
    (Step.move (by decide) (by decide) hdb)
  exact ⟨_, hs, hmap, toSystemPath_terminates hs⟩

/-! ## A cycle -/

/-- At a name with a move entry the loop continues at the target. -/
theorem toSystemPathLoop_move {snap : Snapshot} {p : Str} {e : PMEntry}
    (he : snap.find p = some e) (hty : e.type = .MOVE) (fs : Bool) (fuel : Nat) (fr : Bool)
    (links : Nat) (ts : Int) :
    toSystemPathLoop snap fs (fuel + 1) p fr links ts =
      toSystemPathLoop snap fs fuel e.target false links (seen snap p ts) := by
  have hf : found snap p fr fs = true := by simp [found, he, remaps, hty]
  rw [toSystemPathLoop, searchPathRecursive_eq, if_pos hf]
  simp [he, hty]

/-- Two names with move entries to each other keep the loop busy for ever. -/
theorem loop_none_of_swap {snap : Snapshot} {a b : Str} {ea eb : PMEntry}
    (ha : snap.find a = some ea) (hta : ea.type = .MOVE) (hab : ea.target = b)
    (hb : snap.find b = some eb) (htb : eb.type = .MOVE) (hba : eb.target = a) (fs : Bool)
    (links fuel : Nat) (fr : Bool) (ts : Int) :
    toSystemPathLoop snap fs fuel a fr links ts = none ∧
      toSystemPathLoop snap fs fuel b fr links ts = none := by
  induction fuel generalizing fr ts with
  | zero => exact ⟨rfl, rfl⟩
  | succ fuel ih =>
    rw [toSystemPathLoop_move ha hta, toSystemPathLoop_move hb htb, hab, hba]
    exact ⟨(ih _ _).2, (ih _ _).1⟩

/-- Swapping two directories, `mv /a /t`, `mv /b /a`, `mv /t /b`, makes a cycle: the lookup of
    `/a` does not return. -/
theorem not_toSystemPath_terminates_swap :
    ¬ ∀ s, Reachable (fun _ _ => True) s → ∀ u ctype, ∃ res, ToSystemPath s.db u ctype res := by
  intro h
  let ops : List Op := [.create (lit "/a") .dir, .create (lit "/b") .dir,
    .move (lit "/a") (lit "/t"), .move (lit "/b") (lit "/a"), .move (lit "/t") (lit "/b")]
  obtain ⟨s, hs⟩ : ∃ s, runOps .init ops = some s := Option.isSome_iff_exists.mp (by decide)
  have ha : ((runOps .init ops).bind fun s => s.db.snapshot.find (lit "/a")) =
      some ⟨.MOVE, lit "/b", 0⟩ := by decide
  have hb : ((runOps .init ops).bind fun s => s.db.snapshot.find (lit "/b")) =
      some ⟨.MOVE, lit "/a", 0⟩ := by decide
  rw [hs, Option.bind_some] at ha hb
  obtain ⟨res, fuel, hres⟩ := h s (Reachable.init.runOps (fun _ _ _ => trivial) hs) (lit "/a")
    .LOOKUP
  have hio : iointercept (lit "/a") = lit "/a" := by decide
  have hlen : ¬ (lit "/a").length > PATH_MAX := by decide
  simp only [toSystemPath, hio, hlen, if_false] at hres
  rw [(loop_none_of_swap ha rfl rfl hb rfl rfl _ 0 fuel true 0).1] at hres
  simp at hres

end HFlat.PathMap
