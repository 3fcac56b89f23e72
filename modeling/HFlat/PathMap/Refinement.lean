/-
  The path map refines the hierarchical namespace along every run of good moves and creations.
  `MoveRun` is the condition on a step: a creation is always fine, a move must be good
  (`GoodMove`) and the new names must fit `PATH_MAX`. `Refines` says what a step must keep:
  objects that exist and are not moved keep their system path, moved objects keep it under their
  new name, and no name that does not exist leads to an existing object.
-/
import HFlat.PathMap.MoveStep

namespace HFlat.PathMap

open HFlat.Lib

/-! ## System paths -/

/-- `toSystemPath` maps the user path to `sys` and reports no error. -/
def SysPath (db : PathMapDB) (u sys : Str) : Prop :=
  ∃ ts, 0 ≤ ts ∧ ToSystemPath db u .LOOKUP (sys, ts)

theorem SysPath.det {db : PathMapDB} {u x y : Str} (hx : SysPath db u x) (hy : SysPath db u y) :
    x = y := by
  obtain ⟨_, -, hx⟩ := hx
  obtain ⟨_, -, hy⟩ := hy
  exact (Prod.mk.inj (hx.det hy)).1

theorem MoveInv.sysPath {s : State} (hI : MoveInv s) {u sys : Str} (hu : UserPath u)
    (hlen : u.length ≤ PATH_MAX) (h : Resolves s.db.snapshot true u sys) :
    SysPath s.db u sys := by
  obtain ⟨fuel, ts, hl, hts⟩ :=
    h.loop hI.noSymlinks hI.targetsFit hu.namesFit 0 0 (le_refl 0)
  refine ⟨ts, hts, fuel, ?_⟩
  simpa [toSystemPath, hu.iointercept, Nat.not_lt.mpr hlen] using hl

/-- Only a path with fitting names is mapped without an error, and then to what it resolves to. -/
theorem MoveInv.resolves_of_sysPath {s : State} (hI : MoveInv s) {u sys : Str} (hc : ':' ∉ u)
    (h : SysPath s.db u sys) : Resolves s.db.snapshot true u sys := by
  obtain ⟨ts, hts, fuel, h⟩ := h
  have hlen : ¬ u.length > PATH_MAX := by
    intro hgt
    simp only [toSystemPath, iointercept_of_colonFree hc, hgt, if_true, Option.some.injEq,
      Prod.mk.injEq] at h
    rw [← h.2] at hts
    exact absurd hts (by decide)
  simp only [toSystemPath, iointercept_of_colonFree hc, hlen, if_false,
    reduceCtorEq, decide_false] at h
  have hkeys : ∀ k, s.db.snapshot.find k ≠ none → NamesFit k := fun k hk => (hI.keys k hk).namesFit
  have hn : NamesFit u := by
    cases fuel with
    | zero => simp [toSystemPathLoop] at h
    | succ n =>
      rw [toSystemPathLoop] at h
      rcases hq : searchPathRecursive s.db.snapshot u 0 true false with ⟨_ | _, q, ts1⟩
      · rw [hq] at h
        obtain ⟨-, rfl⟩ : u = sys ∧ ts1 = ts := by simpa using h
        exact search_namesFit hkeys hts hq
      · exact search_namesFit hkeys (search_true (le_refl 0) hq).2.1 hq
  exact (loop_resolves hI.noSymlinks hI.targetsFit hn (le_refl 0) h).1

/-! ## Runs -/

/-- A creation, or a good move after which all moved names fit `PATH_MAX`. -/
def MoveRun (s : State) : Op → Prop
  | .create _ _ => True
  | .move o d => GoodMove s.db.snapshot o d ∧
      ∀ r, PathTail r → s.tree (o ++ r) ≠ none → (d ++ r).length ≤ PATH_MAX
  | _ => False

/-- A creation or any move. -/
def AnyMove (_ : State) : Op → Prop
  | .create _ _ => True
  | .move _ _ => True
  | _ => False

/-- Every existing name fits `PATH_MAX`. -/
def PathsFit (t : Tree) : Prop := ∀ p, t p ≠ none → p.length ≤ PATH_MAX

theorem MoveRun.inv {s : State} (h : Reachable MoveRun s) : MoveInv s ∧ PathsFit s.tree := by
  refine Reachable.induction (fun s => MoveInv s ∧ PathsFit s.tree) ?_ ?_ h
  · refine ⟨moveInv_init, fun p hp => ?_⟩
    have : p = root := by
      by_contra hne
      exact hp (by simp [State.init, Tree.init, hne])
    rw [this]
    decide
  · rintro s op s' - ⟨hI, hfit⟩ hP hstep
    cases hstep with
    | @create p k hk hp =>
      refine ⟨hI.create hp, fun q hq => ?_⟩
      by_cases hqp : q = p
      · rw [hqp]; exact hp.fits
      · exact hfit q (by simpa [Tree.create, hqp] using hq)
    | @move o d db hv hver hdb =>
      refine ⟨hI.move hv hP.1 hver hdb, fun q hq => ?_⟩
      rcases Tree.move_ne_none hq with ⟨r, hr, rfl, hx⟩ | ⟨-, -, hx⟩
      · exact hP.2 r hr hx
      · exact hfit q hx
    | chmod => exact absurd hP id
    | symlink => exact absurd hP id
    | remove => exact absurd hP id

/-! ## Refinement -/

/-- A path of the tree keeps its system path. -/
def Keeps (s s' : State) (u u' : Str) : Prop := ∃ sys, SysPath s.db u sys ∧ SysPath s'.db u' sys

/-- What the path map owes to the namespace in a step. -/
structure Refines (s : State) (op : Op) (s' : State) : Prop where
  moved : ∀ o d, op = .move o d → ∀ r, PathTail r → s.tree (o ++ r) ≠ none →
    Keeps s s' (o ++ r) (d ++ r)
  outside : ∀ o d, op = .move o d → ∀ u, ¬ Under o u → ¬ Under d u → s.tree u ≠ none →
    Keeps s s' u u
  created : ∀ p k, op = .create p k → ∀ u, s.tree u ≠ none → Keeps s s' u u
  separate : ∀ p, (∃ r, p = '/' :: r) → ':' ∉ p → s'.tree p = none →
    ∀ q, s'.tree q ≠ none → ∀ sys, SysPath s'.db q sys → ¬ SysPath s'.db p sys

theorem MoveInv.exists_sysPath {s : State} (hI : MoveInv s) (hfit : PathsFit s.tree) {u : Str}
    (hu : s.tree u ≠ none) : ∃ sys, Resolves s.db.snapshot true u sys ∧ SysPath s.db u sys := by
  have hup := hI.closed.path u hu
  obtain ⟨sys, hres⟩ := hI.total (.path u) hup.absolute
  exact ⟨sys, hres, hI.sysPath hup (hfit u hu) hres⟩

theorem MoveInv.separate {s : State} (hI : MoveInv s) {p q sys : Str} (hp : ∃ r, p = '/' :: r)
    (hc : ':' ∉ p) (hpn : s.tree p = none) (hq : s.tree q ≠ none) (hsq : SysPath s.db q sys) :
    ¬ SysPath s.db p sys := by
  intro hsp
  have hqp := hI.closed.path q hq
  have h1 := hI.resolves_of_sysPath hqp.colonFree hsq
  have h2 := hI.resolves_of_sysPath hc hsp
  have := Src.path.inj (hI.inj (.path q) (.path p) sys hqp.absolute hp h1 h2)
  exact hq (this ▸ hpn)

/-- In every run of creations and good moves, every step refines the namespace. -/
theorem toSystemPath_refines_namespace {s s' : State} {op : Op} (hs : Reachable MoveRun s)
    (hop : MoveRun s op) (hstep : Step s op s') : Refines s op s' := by
  obtain ⟨hI, hfit⟩ := MoveRun.inv hs
  obtain ⟨hI', hfit'⟩ := MoveRun.inv (hs.step hop hstep)
  refine ⟨?_, ?_, ?_, fun p hp hc hpn q hq sys hsq => hI'.separate hp hc hpn hq hsq⟩
  · rintro o d rfl r hr hx
    cases hstep with
    | move hv hver hdb =>
      obtain ⟨t, ts, left, h⟩ := MoveData.of_step hI hv hop.1 hver hdb
      obtain ⟨sys, hres, hsys⟩ := hI.exists_sysPath hfit hx
      have hx' : s.tree.move o d (d ++ r) ≠ none := by
        rw [s.tree.move_inside o d hr]; exact hx
      exact ⟨sys, hsys, hI'.sysPath (hI'.closed.path _ hx') (hfit' _ hx') (h.resolves_dest hr hres)⟩
  · rintro o d rfl u ho hd hu
    cases hstep with
    | move hv hver hdb =>
      obtain ⟨t, ts, left, h⟩ := MoveData.of_step hI hv hop.1 hver hdb
      obtain ⟨sys, hres, hsys⟩ := hI.exists_sysPath hfit hu
      have hu' : s.tree.move o d u ≠ none := by
        rw [s.tree.move_outside ho hd]; exact hu
      exact ⟨sys, hsys, hI'.sysPath (hI'.closed.path _ hu') (hfit' _ hu')
        (h.resolves_outside ho hd hres)⟩
  · rintro p k rfl u hu
    cases hstep with
    | create hk hp =>
      obtain ⟨sys, -, hsys⟩ := hI.exists_sysPath hfit hu
      exact ⟨sys, hsys, hsys⟩

/-- `mkdir /a`, `create /a/x`, `mv /a /b` is such a run. -/
theorem toSystemPath_refines_namespace_mv_a_b :
    ∃ s s', Reachable MoveRun s ∧ s.tree (lit "/a/x") = some ⟨.file, 0⟩ ∧
      MoveRun s (.move (lit "/a") (lit "/b")) ∧ Step s (.move (lit "/a") (lit "/b")) s' ∧
      Refines s (.move (lit "/a") (lit "/b")) s' := by
  let t : Tree := (Tree.init.create (lit "/a") .dir).create (lit "/a/x") .file
  have hs1 : Reachable MoveRun ⟨Tree.init.create (lit "/a") .dir, .empty⟩ :=
    Reachable.init.step (show MoveRun _ (.create (lit "/a") .dir) from trivial)
      (Step.create (by decide) (by decide))
  have hs : Reachable MoveRun ⟨t, .empty⟩ :=
    hs1.step (show MoveRun _ (.create (lit "/a/x") .file) from trivial)
      (Step.create (by decide) (by decide))
  have hshort : ∀ q, t q ≠ none → q.length ≤ 4 := by
    intro q hq
    simp only [t, Tree.create, Tree.init] at hq
    split_ifs at hq with h1 h2 h3
    · rw [h1]; decide
    · rw [h2]; decide
    · rw [h3]; decide
    · exact absurd rfl hq
  have hop : MoveRun ⟨t, .empty⟩ (.move (lit "/a") (lit "/b")) := by
    refine ⟨⟨fun k hk => absurd (find_empty k) hk.find_ne,
      Or.inl fun hk => absurd (find_empty _) hk.find_ne, ?_, ?_⟩, fun r _ hr => ?_⟩
    · exact fun k _ _ hre => Mapped.find_ne (Or.inr hre) (find_empty k)
    · exact fun k _ _ hre => Mapped.find_ne (Or.inr hre) (find_empty k)
    · have hlen := hshort _ hr
      rw [List.length_append] at hlen ⊢
      have h2 : (lit "/b").length = 2 := by decide
      have hmax : PATH_MAX = 4096 := rfl
      omega
  obtain ⟨db, hdb⟩ : ∃ db, addDirectoryMove .empty (lit "/a") (lit "/b") = some db :=
    Option.isSome_iff_exists.mp (by decide)
  have hstep : Step ⟨t, .empty⟩ (.move (lit "/a") (lit "/b")) ⟨t.move (lit "/a") (lit "/b"), db⟩ :=
    Step.move (by decide) (by decide) hdb
  exact ⟨_, _, hs, by decide, hop, hstep, toSystemPath_refines_namespace hs hop hstep⟩

/-- Without the condition the refinement fails: `mv /a /b`, `mv /b/x /c`, `mv /b /d` changes the
    system path of `/c`, whose mapping runs through the name `/b`. -/
theorem not_refines_namespace_move_out :
    ¬ ∀ s op s', Reachable AnyMove s → AnyMove s op → Step s op s' → Refines s op s' := by
  intro h
  let ops : List Op := [.create (lit "/a") .dir, .create (lit "/a/x") .dir,
    .move (lit "/a") (lit "/b"), .move (lit "/b/x") (lit "/c")]
  obtain ⟨s, hs⟩ : ∃ s, runOps .init ops = some s := Option.isSome_iff_exists.mp (by decide)
  have happly : ((runOps .init ops).bind
      fun s => (Op.move (lit "/b") (lit "/d")).apply s).isSome = true := by decide
  rw [hs, Option.bind_some] at happly
  obtain ⟨s', hs'⟩ := Option.isSome_iff_exists.mp happly
  have hreach : Reachable AnyMove s :=
    Reachable.init.runOps (by simp [ops, AnyMove]) hs
  have hkeep := (h s (.move (lit "/b") (lit "/d")) s' hreach trivial
    (Op.apply_step hs')).outside _ _ rfl (lit "/c") (by decide) (by decide)
  have hbefore : ((runOps .init ops).bind fun s => toSystemPath s.db 3 (lit "/c") .LOOKUP) =
      some (lit "/a/x", 0) := by decide
  have hafter : ((runOps .init ops).bind fun s =>
      ((Op.move (lit "/b") (lit "/d")).apply s).bind fun s' =>
        toSystemPath s'.db 3 (lit "/c") .LOOKUP) = some (lit "/b/x", 0) := by decide
  have hexists : ((runOps .init ops).bind fun s => s.tree (lit "/c")).isSome = true := by decide
  rw [hs, Option.bind_some] at hbefore hafter hexists
  rw [hs', Option.bind_some] at hafter
  obtain ⟨sys, h1, h2⟩ := hkeep (Option.isSome_iff_ne_none.mp hexists)
  have e1 := h1.det ⟨0, le_refl 0, 3, hbefore⟩
  have e2 := h2.det ⟨0, le_refl 0, 3, hafter⟩
  exact absurd (e1.symm.trans e2) (by decide)

end HFlat.PathMap
