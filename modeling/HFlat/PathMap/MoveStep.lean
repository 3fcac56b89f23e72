/-
  One good move keeps the invariant. `MoveData` collects what is known about the step; `Src.pull`
  says for every path (and every hidden path) after the move which source before the move it
  stands for. The image of a source after the move is the image of its pull before
  (`MoveData.img_pull`), and `pull` is injective, so totality and injectivity carry over.
-/
import HFlat.PathMap.Moves

namespace HFlat.PathMap

open HFlat.Lib

/-- When `addDirectoryMove` does what a move of `o` to `d` should do: no mapped name lies inside
    `o`, `d` is not a mapped name unless `o` was moved from there, and nothing above `o` or `d`
    carries a reuse entry. -/
structure GoodMove (snap : Snapshot) (o d : Str) : Prop where
  below : ∀ k, Mapped snap k → Under o k → k = o
  dest : ¬ Mapped snap d ∨ ∃ e, snap.find o = some e ∧ e.type = .MOVE ∧ e.target = d
  aboveOrigin : ∀ k, Under k o → k ≠ o → typeAt snap k ≠ some .REUSE
  aboveDest : ∀ k, Under k d → k ≠ d → typeAt snap k ≠ some .REUSE

/-- A good, valid move and its effect on the snapshot. -/
structure MoveData (s : State) (o d : Str) (db' : PathMapDB) (t : Str) (ts : Nat)
    (left : Option PMEntry) : Prop where
  inv : MoveInv s
  valid : s.tree.ValidMove o d
  good : GoodMove s.db.snapshot o d
  fits : VersionFits s.db
  moved : Moved s.db.snapshot (s.db.snapshotVersion + 1) o t ts left
  version : db'.snapshotVersion = s.db.snapshotVersion + 1
  find : ∀ k, db'.snapshot.find k = movedFind s.db.snapshot o d t ts left k

theorem MoveData.of_step {s : State} {o d : Str} {db' : PathMapDB} (hI : MoveInv s)
    (hv : s.tree.ValidMove o d) (hg : GoodMove s.db.snapshot o d) (hf : VersionFits s.db)
    (hdb : addDirectoryMove s.db o d = some db') :
    ∃ t ts left, MoveData s o d db' t ts left := by
  have ho := (hI.closed.path o hv.origin.ne_none).iointercept
  obtain ⟨h1, t, ts, left, h2, h3⟩ :=
    addDirectoryMove_find ho hv.free.path.iointercept hv.ne hdb
  exact ⟨t, ts, left, hI, hv, hg, hf, h2, h1, h3⟩

namespace MoveData

variable {s : State} {o d t : Str} {db' : PathMapDB} {ts : Nat} {left : Option PMEntry}

/-! ## The two names -/

theorem originPath (h : MoveData s o d db' t ts left) : UserPath o :=
  h.inv.closed.path o h.valid.origin.ne_none

theorem destPath (h : MoveData s o d db' t ts left) : UserPath d := h.valid.free.path

theorem ne (h : MoveData s o d db' t ts left) : o ≠ d := h.valid.ne

theorem not_above (h : MoveData s o d db' t ts left) : ¬ Under d o :=
  h.valid.not_above h.inv.closed

theorem disjoint (h : MoveData s o d db' t ts left) {p : Str} (ho : Under o p) : ¬ Under d p :=
  h.valid.disjoint h.inv.closed ho

theorem none_below_dest (h : MoveData s o d db' t ts left) {k : Str} (hk : Mapped s.db.snapshot k)
    (hu : Under d k) : k = d := by
  by_contra hne
  have hd := h.inv.above k hk d hu (Ne.symm hne) h.destPath.ne_nil
  exact hd.ne_none h.valid.free.absent

/-- The origin is a move entry that points back to the destination. -/
theorem back (h : MoveData s o d db' t ts left) (htd : t = d) :
    left = none ∧ typeAt s.db.snapshot o = some .MOVE ∧ typeAt s.db.snapshot d = some .REUSE ∧
      ∃ e, s.db.snapshot.find o = some e ∧ e.type = .MOVE ∧ e.target = d := by
  have habs : ∀ n, d ≠ reuseName n := by
    intro n hd
    have := not_under_reuseName (n := n) (r := []) h.destPath
    rw [List.append_nil, ← hd] at this
    exact this (within_refl d)
  cases h.moved with
  | first _ => exact absurd htd h.ne
  | reused hl ht =>
    obtain ⟨n, -, hn⟩ := h.inv.reuseTarget o _ hl ht
    exact absurd (htd.symm.trans hn) (habs n)
  | @again e hl ht =>
    refine ⟨rfl, by rw [typeAt_eq hl, ht], ?_, e, hl, ht, htd⟩
    rcases h.inv.moveTarget o e hl ht with ⟨n, -, hn⟩ | hr
    · exact absurd (htd.symm.trans hn) (habs n)
    · rw [← htd]; exact hr

theorem dest_not_mapped (h : MoveData s o d db' t ts left) (htd : t ≠ d) :
    ¬ Mapped s.db.snapshot d := by
  rcases h.good.dest with hd | ⟨e, he, ht, hd⟩
  · exact hd
  · cases h.moved with
    | first hl => simp [hl] at he
    | reused hl ht' =>
      obtain rfl := Option.some.inj (he.symm.trans hl)
      exact absurd (ht.symm.trans ht') (by decide)
    | again hl _ =>
      obtain rfl := Option.some.inj (he.symm.trans hl)
      exact absurd hd htd

theorem typeAt_dest_ne_move (h : MoveData s o d db' t ts left) :
    typeAt s.db.snapshot d ≠ some .MOVE := by
  by_cases htd : t = d
  · rw [(h.back htd).2.2.1]; decide
  · exact fun hm => h.dest_not_mapped htd (Or.inl hm)

/-! ## Entries after the move -/

theorem find_other (h : MoveData s o d db' t ts left) {k : Str} (ho : k ≠ o) (hd : k ≠ d) :
    db'.snapshot.find k = s.db.snapshot.find k := by
  rw [h.find]
  simp [movedFind, ho, hd]

theorem find_dest (h : MoveData s o d db' t ts left) (htd : t ≠ d) :
    db'.snapshot.find d = some ⟨.MOVE, t, ts⟩ := by
  rw [h.find]
  simp [movedFind, htd]

theorem find_origin (h : MoveData s o d db' t ts left) : db'.snapshot.find o = left := by
  rw [h.find]
  by_cases htd : t = d
  · simp [movedFind, htd, (h.back htd).1]
  · simp [movedFind, htd, h.ne]

theorem find_dest_back (h : MoveData s o d db' t ts left) (htd : t = d) :
    db'.snapshot.find d = none := by
  rw [h.find]
  simp [movedFind, htd]

theorem typeAt_other (h : MoveData s o d db' t ts left) {k : Str} (ho : k ≠ o) (hd : k ≠ d) :
    typeAt db'.snapshot k = typeAt s.db.snapshot k := by
  simp [typeAt, h.find_other ho hd]

/-- What is left at the origin is a reuse entry with a new name, or nothing when the origin was a
    move entry. -/
theorem left_cases (h : MoveData s o d db' t ts left) :
    (∃ e, left = some e ∧ e.type = .REUSE ∧ e.target = reuseName (s.db.snapshotVersion + 1)) ∨
      (left = none ∧ typeAt s.db.snapshot o = some .MOVE) := by
  cases h.moved with
  | first _ => exact Or.inl ⟨_, rfl, rfl, rfl⟩
  | reused _ _ => exact Or.inl ⟨_, rfl, rfl, rfl⟩
  | again hl ht => exact Or.inr ⟨rfl, by rw [typeAt_eq hl, ht]⟩

theorem typeAt_origin_ne_move (h : MoveData s o d db' t ts left) :
    typeAt db'.snapshot o ≠ some .MOVE := by
  unfold typeAt
  rw [h.find_origin]
  rcases h.left_cases with ⟨e, rfl, ht, -⟩ | ⟨rfl, -⟩
  · simp [ht]
  · simp

/-- A move entry after the move is the new one or an old one elsewhere. -/
theorem typeAt_move (h : MoveData s o d db' t ts left) {k : Str}
    (hk : typeAt db'.snapshot k = some .MOVE) :
    (k = d ∧ t ≠ d) ∨ (k ≠ o ∧ k ≠ d ∧ typeAt s.db.snapshot k = some .MOVE) := by
  by_cases hd : k = d
  · refine Or.inl ⟨hd, fun htd => ?_⟩
    rw [hd, typeAt, h.find_dest_back htd] at hk
    simp at hk
  · have ho : k ≠ o := by
      rintro rfl
      exact h.typeAt_origin_ne_move hk
    exact Or.inr ⟨ho, hd, by rw [← h.typeAt_other ho hd]; exact hk⟩

theorem mapped_cases (h : MoveData s o d db' t ts left) {k : Str} (hk : Mapped db'.snapshot k) :
    (k = d ∧ t ≠ d) ∨ k = o ∨ (k ≠ o ∧ k ≠ d ∧ Mapped s.db.snapshot k) := by
  by_cases ho : k = o
  · exact Or.inr (Or.inl ho)
  · by_cases hd : k = d
    · refine Or.inl ⟨hd, fun htd => hk.find_ne ?_⟩
      rw [hd]
      exact h.find_dest_back htd
    · refine Or.inr (Or.inr ⟨ho, hd, ?_⟩)
      unfold Mapped at hk ⊢
      rw [← h.typeAt_other ho hd]
      exact hk

theorem noSymlinks (h : MoveData s o d db' t ts left) : NoSymlinks db'.snapshot := by
  intro k e he hs
  by_cases ho : k = o
  · rw [ho, h.find_origin] at he
    rcases h.left_cases with ⟨e', rfl, ht, -⟩ | ⟨rfl, -⟩
    · obtain rfl := Option.some.inj he
      exact absurd (ht.symm.trans hs) (by decide)
    · simp at he
  · by_cases hd : k = d
    · by_cases htd : t = d
      · rw [hd, h.find_dest_back htd] at he
        simp at he
      · rw [hd, h.find_dest htd] at he
        obtain rfl := Option.some.inj he
        simp at hs
    · rw [h.find_other ho hd] at he
      exact h.inv.noSymlinks k e he hs

theorem keys (h : MoveData s o d db' t ts left) {k : Str} (hk : db'.snapshot.find k ≠ none) :
    UserPath k := by
  by_cases ho : k = o
  · rw [ho]; exact h.originPath
  · by_cases hd : k = d
    · rw [hd]; exact h.destPath
    · exact h.inv.keys k (by rwa [h.find_other ho hd] at hk)

/-! ## Resolution after the move -/

/-- Past the first hop the loop meets neither name: the same prefixes remap the path before and
    after the move. -/
theorem same_atTarget (h : MoveData s o d db' t ts left) {fr : Bool} {p : Str}
    (hp : AtTarget s.db.snapshot fr p) (k : Str) (hk : Under k p) :
    (Follows s.db.snapshot fr false p k ↔ Follows db'.snapshot fr false p k) ∧
      (Follows s.db.snapshot fr false p k → db'.snapshot.find k = s.db.snapshot.find k) := by
  obtain ⟨t', r, hr, rfl, ⟨n, rfl⟩ | ⟨rfl, hre⟩⟩ := hp
  · -- no key is a prefix of a reuse name
    have hnone : ∀ snap : Snapshot, (∀ k, snap.find k ≠ none → UserPath k) →
        ¬ Follows snap fr false (reuseName n ++ r) k := by
      intro snap hkeys hf
      refine not_under_reuseName (hkeys k fun hn => ?_) hk
      simp [Follows, found, hn] at hf
    have h1 := hnone s.db.snapshot h.inv.keys
    have h2 := hnone db'.snapshot fun _ hk => h.keys hk
    exact ⟨⟨fun hf => absurd hf h1, fun hf => absurd hf h2⟩, fun hf => absurd hf h1⟩
  · rw [follows_false_iff h.inv.noSymlinks, follows_false_iff h.noSymlinks]
    by_cases ho : k = o
    · -- `o` was no move entry: it would lie below `t'`, or `t'` inside `o`
      have h1 : typeAt s.db.snapshot o ≠ some .MOVE := by
        intro hm
        by_cases hu : Under t' k
        · have := h.inv.noneBelow t' o hre (Or.inl hm) (ho ▸ hu)
          rw [this, hre] at hm
          exact absurd hm (by decide)
        · obtain ⟨hko, hne⟩ := hk.of_append_left hr hu
          exact hne (ho ▸ (h.good.below t' (Or.inr hre) (ho ▸ hko)).symm)
      rw [ho]
      exact ⟨⟨fun hm => absurd hm h1, fun hm => absurd hm h.typeAt_origin_ne_move⟩,
        fun hm => absurd hm h1⟩
    · by_cases hd : k = d
      · rw [hd]
        have h1 := h.typeAt_dest_ne_move
        refine ⟨⟨fun hm => absurd hm h1, fun hm => ?_⟩, fun hm => absurd hm h1⟩
        exfalso
        by_cases htd : t = d
        · simp [typeAt, h.find_dest_back htd] at hm
        · by_cases hu : Under t' k
          · by_cases hne : t' = d
            · rw [hne] at hre
              exact h.dest_not_mapped htd (Or.inr hre)
            · exact h.good.aboveDest t' (hd ▸ hu) hne hre
          · obtain ⟨hkd, hne⟩ := hk.of_append_left hr hu
            exact hne (hd ▸ (h.none_below_dest (Or.inr hre) (hd ▸ hkd)).symm)
      · rw [h.typeAt_other ho hd]
        exact ⟨Iff.rfl, fun _ => h.find_other ho hd⟩

theorem resolves_atTarget (h : MoveData s o d db' t ts left) {fr : Bool} {p sys : Str}
    (hr : Resolves s.db.snapshot fr p sys) (hp : AtTarget s.db.snapshot fr p) :
    Resolves db'.snapshot fr p sys :=
  Resolves.transfer (AtTarget s.db.snapshot)
    (fun _ _ hp k hk => (h.same_atTarget hp k hk).imp id fun hs hf => SameMapping.of_eq (hs hf))
    (fun _ _ _ _ _ hit he => h.inv.atTarget_hop hit he) hr hp

/-- If the same prefixes remap `p` before and after, `p` resolves to the same system path, even
    when the flag `followReuse` differs. -/
theorem resolves_first (h : MoveData s o d db' t ts left) {fr fr' : Bool} {p sys : Str}
    (hsame : ∀ k, Under k p → (Follows s.db.snapshot fr false p k ↔
        Follows db'.snapshot fr' false p k) ∧
      (Follows s.db.snapshot fr false p k → db'.snapshot.find k = s.db.snapshot.find k))
    (hr : Resolves s.db.snapshot fr p sys) : Resolves db'.snapshot fr' p sys := by
  cases hr with
  | done hn => exact Resolves.done fun k hk hf => hn k hk ((hsame k hk).1.mpr hf)
  | @hop _ _ q _ e hit he hr =>
    have hq := hsame q hit.under
    refine Resolves.hop (e := e) ⟨hit.under, hq.1.mp hit.follows, fun k hk hf => ?_⟩ ?_ ?_
    · exact hit.longest k hk ((hsame k hk).1.mpr hf)
    · rw [hq.2 hit.follows]; exact he
    · exact h.resolves_atTarget hr (h.inv.atTarget_hop hit he)

/-- Paths outside both names keep their system path. -/
theorem resolves_outside (h : MoveData s o d db' t ts left) {u sys : Str} (ho : ¬ Under o u)
    (hd : ¬ Under d u) (hr : Resolves s.db.snapshot true u sys) :
    Resolves db'.snapshot true u sys := by
  refine h.resolves_first (fun k hk => ?_) hr
  have hko : k ≠ o := fun he => ho (he ▸ hk)
  have hkd : k ≠ d := fun he => hd (he ▸ hk)
  rw [follows_iff h.inv.noSymlinks, follows_iff h.noSymlinks, h.typeAt_other hko hkd]
  exact ⟨Iff.rfl, fun _ => h.find_other hko hkd⟩

/-- The hit of a path below the origin is the origin, or lies above it. -/
theorem under_origin (h : MoveData s o d db' t ts left) {r k : Str} (hr : PathTail r)
    (hk : Under k (o ++ r)) (hm : Mapped s.db.snapshot k) : Under k o := by
  by_cases hu : Under o k
  · rw [h.good.below k hm hu]; exact within_refl o
  · exact (hk.of_append_left hr hu).1

/-- Below the destination the new entry is hit. -/
theorem hit_dest (h : MoveData s o d db' t ts left) (htd : t ≠ d) {r : Str} (hr : PathTail r) :
    IsHit db'.snapshot true false (d ++ r) d := by
  refine ⟨within_append d hr, ?_, fun k hk hf => ?_⟩
  · rw [follows_iff h.noSymlinks]
    exact Or.inl (by simp [typeAt, h.find_dest htd])
  · rw [follows_true_iff h.noSymlinks] at hf
    by_cases hu : Under d k
    · rcases h.mapped_cases hf with ⟨rfl, -⟩ | rfl | ⟨-, -, hm⟩
      · exact le_refl _
      · exact absurd hu h.not_above
      · rw [h.none_below_dest hm hu]
    · exact (hk.of_append_left hr hu).1.length_le

/-- What was below the origin is found below the destination. -/
theorem resolves_dest (h : MoveData s o d db' t ts left) {r sys : Str} (hr : PathTail r)
    (hres : Resolves s.db.snapshot true (o ++ r) sys) : Resolves db'.snapshot true (d ++ r) sys := by
  have hself : ∀ e, s.db.snapshot.find o = some e → (e.type = .MOVE ∨ e.type = .REUSE) →
      Resolves s.db.snapshot (e.type ≠ .MOVE) (e.target ++ r) sys := by
    intro e he hty
    have hm : Mapped s.db.snapshot o := by
      unfold Mapped
      rw [typeAt_eq he]
      simpa using hty
    have hit : IsHit s.db.snapshot true false (o ++ r) o :=
      ⟨within_append o hr, (follows_true_iff h.inv.noSymlinks).mpr hm, fun k hk hf =>
        (h.under_origin hr hk ((follows_true_iff h.inv.noSymlinks).mp hf)).length_le⟩
    cases hres with
    | done hn => exact absurd hit.follows (hn o hit.under)
    | hop hit' he' hr' =>
      obtain rfl := hit.unique hit'
      obtain rfl := Option.some.inj (he.symm.trans he')
      simpa using hr'
  by_cases htd : t = d
  · -- the move back: `d` resolves through the names above it, with reuse entries followed
    obtain ⟨-, -, hdre, e, he, hty, hte⟩ := h.back htd
    have hr' := hself e he (Or.inl hty)
    rw [hty, hte] at hr'
    refine h.resolves_first (fun k hk => ?_) hr'
    rw [show decide (MappingType.MOVE ≠ MappingType.MOVE) = false from by decide,
      follows_false_iff h.inv.noSymlinks, follows_true_iff h.noSymlinks]
    have hko : k ≠ o := by
      rintro rfl
      exact h.disjoint hk (within_append d hr)
    by_cases hkd : k = d
    · rw [hkd, hdre]
      simp [Mapped, typeAt, h.find_dest_back htd]
    · have hnr : typeAt s.db.snapshot k ≠ some .REUSE := by
        intro hre
        by_cases hu : Under d k
        · exact hkd (h.inv.noneBelow d k hdre (Or.inr hre) hu)
        · exact h.good.aboveDest k (hk.of_append_left hr hu).1 hkd hre
      simp only [Mapped, h.typeAt_other hko hkd, hnr, or_false]
      exact ⟨trivial, fun _ => h.find_other hko hkd⟩
  · refine Resolves.hop (h.hit_dest htd hr) (h.find_dest htd) ?_
    simp only [ne_eq, not_true_eq_false, decide_false, List.drop_left]
    cases h.moved with
    | first hl =>
      -- the origin had no entry: its hit lies above it and is no reuse entry
      refine h.resolves_first (fun k hk => ?_) hres
      rw [follows_true_iff h.inv.noSymlinks, follows_false_iff h.noSymlinks]
      have hkd : k ≠ d := by
        rintro rfl
        exact h.disjoint (within_append o hr) hk
      by_cases hko : k = o
      · rw [hko]
        simp [Mapped, typeAt, hl, h.find_origin]
      · rw [h.typeAt_other hko hkd]
        refine ⟨⟨fun hm => ?_, Or.inl⟩, fun _ => h.find_other hko hkd⟩
        have hku := h.under_origin hr hk hm
        exact hm.resolve_right (h.good.aboveOrigin k hku hko)
    | reused hl ht =>
      obtain ⟨n, -, hn⟩ := h.inv.reuseTarget o _ hl ht
      have hr' := hself _ hl (Or.inr ht)
      rw [hn] at hr' ⊢
      obtain rfl := hr'.det (h.inv.resolves_reuseName _ n r)
      exact h.resolves_atTarget (h.inv.resolves_reuseName false n r)
        ⟨_, r, hr, rfl, Or.inl ⟨n, rfl⟩⟩
    | @again e hl ht =>
      have hr' := hself e hl (Or.inl ht)
      simp only [ht, ne_eq, not_true_eq_false, decide_false] at hr'
      refine h.resolves_atTarget hr' ⟨e.target, r, hr, rfl, ?_⟩
      rcases h.inv.moveTarget o e hl ht with ⟨n, -, hn⟩ | hre
      · exact Or.inl ⟨n, hn⟩
      · exact Or.inr ⟨rfl, hre⟩

/-- A name that keeps the entries above it keeps what its hidden paths resolve to. -/
theorem above_keep (h : MoveData s o d db' t ts left) {k r sys : Str} (hr : PathTail r)
    (ho : Under o k → k = o) (hd : Under d k → k = d) (ha : Above s.db.snapshot k r sys) :
    Above db'.snapshot k r sys := by
  have hsame : ∀ q, Under q k → q ≠ k → db'.snapshot.find q = s.db.snapshot.find q := by
    intro q hq hne
    refine h.find_other ?_ ?_
    · rintro rfl
      exact hne (ho hq).symm
    · rintro rfl
      exact hne (hd hq).symm
  have hmap : ∀ q, Under q k → q ≠ k → (Mapped db'.snapshot q ↔ Mapped s.db.snapshot q) := by
    intro q hq hne
    unfold Mapped typeAt
    rw [hsame q hq hne]
  rcases ha with ⟨hn, hs⟩ | ⟨q, e, hq, he, hres⟩
  · exact Or.inl ⟨fun q hq hne hm => hn q hq hne ((hmap q hq hne).mp hm), hs⟩
  · refine Or.inr ⟨q, e, ⟨hq.under, hq.ne, (hmap q hq.under hq.ne).mpr hq.mapped, ?_⟩, ?_, ?_⟩
    · exact fun x hx hne hm => hq.longest x hx hne ((hmap x hx hne).mp hm)
    · rw [hsame q hq.under hq.ne]; exact he
    · exact h.resolves_atTarget hres
        (h.inv.atTarget he hq.mapped (hq.under.append_right hr).tail_drop)

/-- Once the move entry of the origin is erased its hidden paths come back. -/
theorem resolves_erased (h : MoveData s o d db' t ts left) (hl : left = none) {r sys : Str}
    (hr : PathTail r) (ha : Above s.db.snapshot o r sys) : Resolves db'.snapshot true (o ++ r) sys := by
  refine (resolves_iff_above h.noSymlinks hr fun x _ hx hm => ?_).mpr
    (h.above_keep hr (fun _ => rfl) (fun hu => absurd hu h.not_above) ha)
  rcases h.mapped_cases hm with ⟨rfl, -⟩ | rfl | ⟨hne, -, hm'⟩
  · exact h.valid.outside hx
  · exact hm.find_ne (h.find_origin.trans hl)
  · exact hne (h.good.below x hm' hx)

/-- The new entry of the destination hides what its name resolved to. -/
theorem above_dest (h : MoveData s o d db' t ts left) (htd : t ≠ d) {r sys : Str}
    (hr : PathTail r) (hres : Resolves s.db.snapshot true (d ++ r) sys) :
    Above db'.snapshot d r sys := by
  refine h.above_keep hr (fun hu => absurd hu h.valid.outside) (fun _ => rfl) ?_
  refine (resolves_iff_above h.inv.noSymlinks hr fun x _ hx hm => ?_).mp hres
  rw [h.none_below_dest hm hx] at hm
  exact h.dest_not_mapped htd hm

/-- Below an origin that is left with a reuse entry everything resolves below its new name. -/
theorem resolves_left (h : MoveData s o d db' t ts left) (hl : left ≠ none) {r : Str}
    (hr : PathTail r) :
    Resolves db'.snapshot true (o ++ r) (reuseName (s.db.snapshotVersion + 1) ++ r) := by
  rcases h.left_cases with ⟨e, hle, hty, htg⟩ | ⟨hn, -⟩
  · have hfo : db'.snapshot.find o = some e := h.find_origin.trans hle
    have hmo : Mapped db'.snapshot o := Or.inr (by rw [typeAt_eq hfo, hty])
    have hit : IsHit db'.snapshot true false (o ++ r) o := by
      refine ⟨within_append o hr, (follows_true_iff h.noSymlinks).mpr hmo, fun k hk hf => ?_⟩
      by_cases hu : Under o k
      · rcases h.mapped_cases ((follows_true_iff h.noSymlinks).mp hf) with ⟨rfl, -⟩ | rfl | hm
        · exact absurd hu h.valid.outside
        · exact le_refl _
        · exact absurd (h.good.below k hm.2.2 hu) hm.1
      · exact (hk.of_append_left hr hu).1.length_le
    refine Resolves.hop hit hfo ?_
    rw [htg, List.drop_left]
    refine Resolves.done fun k hk hf => ?_
    refine not_under_reuseName (h.keys (k := k) fun hn => ?_) hk
    simp [Follows, found, hn] at hf
  · exact absurd hn hl

/-! ## Sources before and after -/

/-- The source before the move that a source after it stands for. -/
def pull (o d : Str) (left : Option PMEntry) : Src → Src
  | .path u =>
      if Under d u then .path (o ++ u.drop d.length)
      else if Under o u then
        if left = none then .masked o (u.drop o.length) else .fresh (u.drop o.length)
      else .path u
  | .masked k r => if k = d then .path (d ++ r) else .masked k r
  | .fresh r => .fresh r

theorem img_pull (h : MoveData s o d db' t ts left) {src : Src} {sys : Str}
    (hok : src.Ok db'.snapshot)
    (himg : (pull o d left src).Img s.db.snapshot s.db.snapshotVersion sys) :
    src.Img db'.snapshot db'.snapshotVersion sys := by
  cases src with
  | path u =>
    simp only [pull] at himg
    split_ifs at himg with hd ho hl
    · obtain ⟨r, hr, rfl⟩ := hd
      rw [List.drop_left] at himg
      exact h.resolves_dest hr himg
    · obtain ⟨r, hr, rfl⟩ := ho
      rw [List.drop_left] at himg
      exact h.resolves_erased hl hr himg
    · obtain ⟨r, hr, rfl⟩ := ho
      obtain ⟨-, rfl⟩ := himg
      rw [List.drop_left]
      exact h.resolves_left hl hr
    · exact h.resolves_outside ho hd himg
  | masked k r =>
    simp only [pull] at himg
    obtain ⟨hk, hr⟩ := hok
    rcases h.typeAt_move hk with ⟨rfl, htd⟩ | ⟨hko, hkd, hm⟩
    · rw [if_pos rfl] at himg
      exact h.above_dest htd hr himg
    · rw [if_neg hkd] at himg
      refine h.above_keep hr (fun hu => ?_) (fun hu => ?_) himg
      · exact h.good.below k (Or.inl hm) hu
      · exact h.none_below_dest (Or.inl hm) hu
  | fresh r => exact absurd hok id

theorem pull_ok (h : MoveData s o d db' t ts left) {src : Src} (hok : src.Ok db'.snapshot) :
    (pull o d left src).Ok s.db.snapshot ∨
      ∃ r, PathTail r ∧ pull o d left src = .fresh r := by
  cases src with
  | path u =>
    simp only [pull]
    split_ifs with hd ho hl
    · obtain ⟨x, hx⟩ := h.originPath.absolute
      exact Or.inl ⟨x ++ u.drop d.length, by rw [hx, List.cons_append]⟩
    · rcases h.left_cases with ⟨e, he, -⟩ | ⟨-, hm⟩
      · simp [hl] at he
      · exact Or.inl ⟨hm, ho.tail_drop⟩
    · exact Or.inr ⟨_, ho.tail_drop, rfl⟩
    · exact Or.inl hok
  | masked k r =>
    simp only [pull]
    split_ifs with hd
    · obtain ⟨x, hx⟩ := h.destPath.absolute
      exact Or.inl ⟨x ++ r, by rw [hx, List.cons_append]⟩
    · rcases h.typeAt_move hok.1 with ⟨hkd, -⟩ | ⟨-, -, hm⟩
      · exact absurd hkd hd
      · exact Or.inl ⟨hm, hok.2⟩
  | fresh r => exact absurd hok id

theorem pull_path_ne_masked (h : MoveData s o d db' t ts left) {u k r : Str}
    (hok : (Src.masked k r).Ok db'.snapshot) :
    pull o d left (.path u) ≠ pull o d left (.masked k r) := by
  intro he
  simp only [pull] at he
  split_ifs at he with hd hkd ho hl hkd hkd hkd
  · have hu : Under d (o ++ u.drop d.length) := by
      rw [Src.path.inj he]
      exact within_append d hok.2
    exact h.disjoint (within_append o hd.tail_drop) hu
  · have hko : o = k := (Src.masked.inj he).1
    exact h.typeAt_origin_ne_move (hko ▸ hok.1)
  · rw [Src.path.inj he] at hd
    exact hd (within_append d hok.2)

theorem pull_path_inj {u u' : Str}
    (he : pull o d left (.path u) = pull o d left (.path u')) : u = u' := by
  have hback : ∀ {p x y : Str}, Under p x → Under p y → x.drop p.length = y.drop p.length →
      x = y := by
    intro p x y hx hy hxy
    rw [← hx.drop_eq, hxy, hy.drop_eq]
  have hcross : ∀ {x y : Str}, Under d x → ¬ Under o y → o ++ x.drop d.length ≠ y := by
    rintro x y hx hy rfl
    exact hy (within_append o hx.tail_drop)
  simp only [pull] at he
  by_cases hd : Under d u
  · by_cases hd' : Under d u'
    · simp only [hd, hd', if_true, Src.path.injEq] at he
      exact hback hd hd' (List.append_cancel_left he)
    · by_cases ho' : Under o u'
      · simp only [hd, hd', ho', if_true, if_false] at he
        split_ifs at he
      · simp only [hd, hd', ho', if_true, if_false, Src.path.injEq] at he
        exact absurd he (hcross hd ho')
  · by_cases hd' : Under d u'
    · by_cases ho : Under o u
      · simp only [hd, hd', ho, if_true, if_false] at he
        split_ifs at he
      · simp only [hd, hd', ho, if_true, if_false, Src.path.injEq] at he
        exact absurd he.symm (hcross hd' ho)
    · by_cases ho : Under o u <;> by_cases ho' : Under o u'
      · simp only [hd, hd', ho, ho', if_true, if_false] at he
        split_ifs at he with hl
        · exact hback ho ho' (Src.masked.inj he).2
        · exact hback ho ho' (Src.fresh.inj he)
      · simp only [hd, hd', ho, ho', if_true, if_false] at he
        split_ifs at he
      · simp only [hd, hd', ho, ho', if_true, if_false] at he
        split_ifs at he
      · simpa [hd, hd', ho, ho'] using he

theorem pull_inj (h : MoveData s o d db' t ts left) {src src' : Src} (hok : src.Ok db'.snapshot)
    (hok' : src'.Ok db'.snapshot) (he : pull o d left src = pull o d left src') : src = src' := by
  cases src with
  | path u =>
    cases src' with
    | path u' => rw [pull_path_inj he]
    | masked k r => exact absurd he (h.pull_path_ne_masked hok')
    | fresh r => exact absurd hok' id
  | masked k r =>
    cases src' with
    | path u' => exact absurd he.symm (h.pull_path_ne_masked hok)
    | masked k' r' =>
      simp only [pull] at he
      split_ifs at he with hk hk' hk'
      · rw [hk, hk', List.append_cancel_left (Src.path.inj he)]
      · exact he
    | fresh r' => exact absurd hok' id
  | fresh r => exact absurd hok id

theorem img_total (h : MoveData s o d db' t ts left) {src : Src} (hok : src.Ok db'.snapshot) :
    ∃ sys, (pull o d left src).Img s.db.snapshot s.db.snapshotVersion sys := by
  rcases h.pull_ok hok with hp | ⟨r, hr, hp⟩
  · exact h.inv.total _ hp
  · rw [hp]
    exact ⟨_, hr, rfl⟩

theorem img_inj (h : MoveData s o d db' t ts left) {src src' : Src} {sys : Str}
    (hok : src.Ok db'.snapshot) (hok' : src'.Ok db'.snapshot)
    (himg : src.Img db'.snapshot db'.snapshotVersion sys)
    (himg' : src'.Img db'.snapshot db'.snapshotVersion sys) : src = src' := by
  obtain ⟨x, hx⟩ := h.img_total hok
  obtain ⟨y, hy⟩ := h.img_total hok'
  obtain rfl := himg.det (h.img_pull hok hx)
  obtain rfl := himg'.det (h.img_pull hok' hy)
  refine h.pull_inj hok hok' ?_
  rcases h.pull_ok hok with hp | ⟨r, hr, hp⟩ <;> rcases h.pull_ok hok' with hp' | ⟨r', hr', hp'⟩
  · exact h.inv.inj _ _ _ hp hp' hx hy
  · rw [hp'] at hy
    exact absurd hy.2 ((h.inv.oldForm_img hp hx).ne_fresh hy.1)
  · rw [hp] at hx
    exact absurd hx.2 ((h.inv.oldForm_img hp' hy).ne_fresh hx.1)
  · rw [hp] at hx ⊢
    rw [hp'] at hy ⊢
    rw [List.append_cancel_left (hx.2.symm.trans hy.2)]

/-! ## The invariant after the move -/

/-- Two move entries have different targets. -/
theorem moveTarget_ne (h : MoveData s o d db' t ts left) {k : Str} {e e' : PMEntry}
    (he : s.db.snapshot.find o = some e) (hty : e.type = .MOVE)
    (he' : s.db.snapshot.find k = some e') (hty' : e'.type = .MOVE) (hne : k ≠ o) :
    e'.target ≠ e.target := by
  intro htg
  have hself : ∀ {x : Str} {f : PMEntry}, s.db.snapshot.find x = some f → f.type = .MOVE →
      ∀ {sys}, Resolves s.db.snapshot false f.target sys → Resolves s.db.snapshot true x sys := by
    intro x f hf hfty sys hres
    have hm : Mapped s.db.snapshot x := Or.inl (by rw [typeAt_eq hf, hfty])
    refine Resolves.hop (q := x) ⟨within_refl x, (follows_true_iff h.inv.noSymlinks).mpr hm,
      fun k hk _ => hk.length_le⟩ hf ?_
    simpa [hfty] using hres
  have hok : ∀ {x : Str} {f : PMEntry}, s.db.snapshot.find x = some f →
      (Src.path x).Ok s.db.snapshot := fun hf => (h.inv.keys _ (by simp [hf])).absolute
  obtain ⟨sys, hsys⟩ := h.inv.total (.path o) (hok he)
  have htarget : Resolves s.db.snapshot false e.target sys := by
    have hm : Mapped s.db.snapshot o := Or.inl (by rw [typeAt_eq he, hty])
    have hit : IsHit s.db.snapshot true false o o :=
      ⟨within_refl o, (follows_true_iff h.inv.noSymlinks).mpr hm, fun k hk _ => hk.length_le⟩
    cases hsys with
    | done hn => exact absurd hit.follows (hn o hit.under)
    | hop hit' he'' hr =>
      obtain rfl := hit.unique hit'
      obtain rfl := Option.some.inj (he.symm.trans he'')
      simpa [hty] using hr
  have h1 := hself he hty htarget
  have h2 := hself he' hty' (htg ▸ htarget)
  exact hne (Src.path.inj (h.inv.inj (.path k) (.path o) sys (hok he') (hok he) h2 h1))

theorem typeAt_origin_reuse (h : MoveData s o d db' t ts left) (hl : left ≠ none) :
    typeAt db'.snapshot o = some .REUSE := by
  rcases h.left_cases with ⟨e, he, hty, -⟩ | ⟨hn, -⟩
  · rw [typeAt_eq (h.find_origin.trans he), hty]
  · exact absurd hn hl

theorem moveTarget (h : MoveData s o d db' t ts left) {k : Str} {e : PMEntry}
    (he : db'.snapshot.find k = some e) (hty : e.type = .MOVE) :
    (∃ n ≤ db'.snapshotVersion, e.target = reuseName n) ∨
      typeAt db'.snapshot e.target = some .REUSE := by
  have hold : ∀ {x : Str}, (∃ n ≤ s.db.snapshotVersion, x = reuseName n) →
      ∃ n ≤ db'.snapshotVersion, x = reuseName n := by
    rintro x ⟨n, hn, hx⟩
    exact ⟨n, by rw [h.version]; omega, hx⟩
  have hty' : typeAt db'.snapshot k = some .MOVE := by rw [typeAt_eq he, hty]
  rcases h.typeAt_move hty' with ⟨rfl, htd⟩ | ⟨hko, hkd, hm⟩
  · rw [h.find_dest htd] at he
    obtain rfl := Option.some.inj he
    cases hmv : h.moved with
    | first _ => exact Or.inr (h.typeAt_origin_reuse (by simp))
    | @reused e hl ht => exact Or.inl (hold (h.inv.reuseTarget o e hl ht))
    | @again e hl ht =>
      refine (h.inv.moveTarget o e hl ht).imp hold fun hr => ?_
      rw [h.typeAt_other _ htd]
      · exact hr
      · intro hto
        rw [hto, typeAt_eq hl, ht] at hr
        exact absurd hr (by decide)
  · rw [h.find_other hko hkd] at he
    refine (h.inv.moveTarget k e he hty).imp hold fun hr => ?_
    by_cases hto : e.target = o
    · rw [hto] at hr ⊢
      refine h.typeAt_origin_reuse fun hl => ?_
      rcases h.left_cases with ⟨e', he', -⟩ | ⟨-, hmo⟩
      · simp [hl] at he'
      · rw [hmo] at hr
        exact absurd hr (by decide)
    · by_cases htd' : e.target = d
      · -- only a move back could take the entry of `d` away, but no other entry points there
        exfalso
        by_cases htd : t = d
        · obtain ⟨-, -, -, e', he', hty', htg'⟩ := h.back htd
          exact h.moveTarget_ne he' hty' he hty hko (htd'.trans htg'.symm)
        · exact h.dest_not_mapped htd (Or.inr (htd' ▸ hr))
      · rw [h.typeAt_other hto htd']
        exact hr

theorem noneBelow (h : MoveData s o d db' t ts left) {k x : Str}
    (hk : typeAt db'.snapshot k = some .REUSE) (hx : Mapped db'.snapshot x) (hu : Under k x) :
    x = k := by
  have hkd : k ≠ d := by
    rintro rfl
    by_cases htd : t = k
    · simp [typeAt, h.find_dest_back htd] at hk
    · simp [typeAt, h.find_dest htd] at hk
  by_cases hko : k = o
  · subst hko
    rcases h.mapped_cases hx with ⟨rfl, -⟩ | hxo | ⟨-, -, hm⟩
    · exact absurd hu h.valid.outside
    · exact hxo
    · exact h.good.below x hm hu
  · have hkS : typeAt s.db.snapshot k = some .REUSE := by rw [← h.typeAt_other hko hkd]; exact hk
    rcases h.mapped_cases hx with ⟨rfl, -⟩ | rfl | ⟨-, -, hm⟩
    · exact absurd hkS (h.good.aboveDest k hu hkd)
    · exact absurd hkS (h.good.aboveOrigin k hu hko)
    · exact h.inv.noneBelow k x hkS hm hu

theorem isDir_above (h : MoveData s o d db' t ts left) {k q : Str} (hk : Mapped db'.snapshot k)
    (hq : Under q k) (hne : q ≠ k) (h0 : q ≠ []) : (s.tree.move o d).IsDir q := by
  rcases h.mapped_cases hk with ⟨rfl, -⟩ | rfl | ⟨hko, hkd, hm⟩
  · refine Tree.isDir_move (fun ho => h.valid.outside (ho.trans hq)) (fun hd => ?_)
      (h.valid.free.above h.inv.closed hq hne h0)
    exact hne (hq.antisymm hd)
  · refine Tree.isDir_move (fun ho => ?_) (fun hd => h.not_above (hd.trans hq))
      (h.inv.closed.above k q h.valid.origin.ne_none hq hne h0)
    exact hne (hq.antisymm ho)
  · refine Tree.isDir_move (fun ho => ?_) (fun hd => ?_) (h.inv.above k hm q hq hne h0)
    · exact hko (h.good.below k hm (ho.trans hq))
    · exact hkd (h.none_below_dest hm (hd.trans hq))

theorem moveInv (h : MoveData s o d db' t ts left) : MoveInv ⟨s.tree.move o d, db'⟩ where
  closed := Tree.move_closed h.inv.closed h.valid
  noSymlinks := h.noSymlinks
  version := by
    have := h.fits
    unfold VersionFits at this
    rw [h.version]
    exact this
  keys _ hk := h.keys hk
  noneTarget k e he hty := by
    have hk : ¬ Mapped db'.snapshot k := by
      simp [Mapped, typeAt_eq he, hty]
    have hko : k ≠ o := by
      rintro rfl
      rcases h.left_cases with ⟨e', he', hty', -⟩ | ⟨hn, -⟩
      · obtain rfl := Option.some.inj ((h.find_origin.trans he').symm.trans he)
        exact absurd (hty'.symm.trans hty) (by decide)
      · simp [h.find_origin, hn] at he
    have hkd : k ≠ d := by
      rintro rfl
      by_cases htd : t = k
      · simp [h.find_dest_back htd] at he
      · rw [h.find_dest htd] at he
        obtain rfl := Option.some.inj he
        simp at hty
    exact h.inv.noneTarget k e (by rwa [h.find_other hko hkd] at he) hty
  reuseTarget k e he hty := by
    show ∃ n ≤ db'.snapshotVersion, e.target = reuseName n
    rw [h.version]
    by_cases hko : k = o
    · rw [hko, h.find_origin] at he
      rcases h.left_cases with ⟨e', he', -, htg⟩ | ⟨hn, -⟩
      · obtain rfl := Option.some.inj (he'.symm.trans he)
        exact ⟨_, le_refl _, htg⟩
      · simp [hn] at he
    · have hkd : k ≠ d := by
        rintro rfl
        by_cases htd : t = k
        · simp [h.find_dest_back htd] at he
        · rw [h.find_dest htd] at he
          obtain rfl := Option.some.inj he
          simp at hty
      obtain ⟨n, hn, htg⟩ := h.inv.reuseTarget k e (by rwa [h.find_other hko hkd] at he) hty
      exact ⟨n, by omega, htg⟩
  moveTarget _ _ he hty := h.moveTarget he hty
  noneBelow _ _ hk hx hu := h.noneBelow hk hx hu
  above _ hk _ hq hne h0 := h.isDir_above hk hq hne h0
  total src hok := (h.img_total hok).imp fun _ himg => h.img_pull hok himg
  inj _ _ _ hok hok' himg himg' := h.img_inj hok hok' himg himg'

end MoveData

/-! ## The other steps -/

theorem moveInv_init : MoveInv State.init where
  closed := Tree.init_closed
  noSymlinks _ _ he := by simp [State.init, PathMapDB.empty, find_empty] at he
  version := by decide
  keys _ hk := by simp [State.init, PathMapDB.empty, find_empty] at hk
  noneTarget _ _ he := by simp [State.init, PathMapDB.empty, find_empty] at he
  reuseTarget _ _ he := by simp [State.init, PathMapDB.empty, find_empty] at he
  moveTarget _ _ he := by simp [State.init, PathMapDB.empty, find_empty] at he
  noneBelow _ _ hk := by simp [State.init, PathMapDB.empty, typeAt, find_empty] at hk
  above _ hk := absurd (find_empty _) hk.find_ne
  total src hok := by
    cases src with
    | path u => exact ⟨u, Resolves.done fun k _ hf => by simp [Follows, found, State.init,
        PathMapDB.empty, find_empty] at hf⟩
    | masked k r => simp [Src.Ok, State.init, PathMapDB.empty, typeAt, find_empty] at hok
    | fresh r => exact absurd hok id
  inj src src' sys hok hok' himg himg' := by
    have hpath : ∀ {x : Src}, x.Ok State.init.db.snapshot →
        x.Img State.init.db.snapshot State.init.db.snapshotVersion sys → x = .path sys := by
      intro x hx hi
      cases x with
      | path u =>
        cases hi with
        | done _ => rfl
        | hop _ he _ => simp [State.init, PathMapDB.empty, find_empty] at he
      | masked k r => simp [Src.Ok, State.init, PathMapDB.empty, typeAt, find_empty] at hx
      | fresh r => exact absurd hx id
    rw [hpath hok himg, hpath hok' himg']

theorem MoveInv.create {s : State} (hI : MoveInv s) {p : Str} {k : Kind} (hp : s.tree.Free p) :
    MoveInv ⟨s.tree.create p k, s.db⟩ :=
  { hI with
    closed := Tree.create_closed hI.closed hp
    above := fun x hx q hq hne h0 => by
      have hd := hI.above x hx q hq hne h0
      have hqp : q ≠ p := by
        rintro rfl
        exact hd.ne_none hp.absent
      simpa [Tree.IsDir, Tree.create, hqp] using hd }

theorem MoveInv.move {s : State} (hI : MoveInv s) {o d : Str} {db' : PathMapDB}
    (hv : s.tree.ValidMove o d) (hg : GoodMove s.db.snapshot o d) (hf : VersionFits s.db)
    (hdb : addDirectoryMove s.db o d = some db') : MoveInv ⟨s.tree.move o d, db'⟩ := by
  obtain ⟨t, ts, left, h⟩ := MoveData.of_step hI hv hg hf hdb
  exact h.moveInv

end HFlat.PathMap
