/-
  Directory moves. `addDirectoryMove` keeps the promise of the path map under `GoodMove`: no mapped
  name lies inside the moved directory, the destination is not a mapped name unless it is the
  name the directory came from, and neither path runs through a name that a directory was moved
  away from.

  The invariant `MoveInv` says where mappings may sit (no mapping below a reuse entry, every move
  target is a reuse name or carries a reuse entry) and that the snapshot, read as a function on
  paths, is total and injective. For injectivity the names that a move entry hides are counted
  too: `Src.masked k r` is the path `k ++ r` resolved as if the move entry at `k` were not there,
  which is what it resolves to again once that entry is erased.
-/
import HFlat.PathMap.Updates

namespace HFlat.PathMap

open HFlat.Lib

/-! ## Mapped names -/

/-- The type of the entry at `k`. -/
def typeAt (snap : Snapshot) (k : Str) : Option MappingType := (snap.find k).map PMEntry.type

/-- `k` carries a move or a reuse entry. -/
def Mapped (snap : Snapshot) (k : Str) : Prop :=
  typeAt snap k = some .MOVE ∨ typeAt snap k = some .REUSE

instance (snap : Snapshot) (k : Str) : Decidable (Mapped snap k) :=
  inferInstanceAs (Decidable (_ ∨ _))

theorem typeAt_eq {snap : Snapshot} {k : Str} {e : PMEntry} (h : snap.find k = some e) :
    typeAt snap k = some e.type := by
  simp [typeAt, h]

theorem find_of_typeAt {snap : Snapshot} {k : Str} {ty : MappingType}
    (h : typeAt snap k = some ty) : ∃ e, snap.find k = some e ∧ e.type = ty := by
  unfold typeAt at h
  rw [Option.map_eq_some_iff] at h
  exact h

theorem Mapped.find_ne {snap : Snapshot} {k : Str} (h : Mapped snap k) : snap.find k ≠ none := by
  intro hn
  rcases h with h | h <;> simp [typeAt, hn] at h

/-- Without symbolic links a prefix remaps the path iff it is a move entry, or a reuse entry and
    reuse entries are followed. -/
theorem follows_iff {snap : Snapshot} (hs : NoSymlinks snap) {fr : Bool} {p k : Str} :
    Follows snap fr false p k ↔
      typeAt snap k = some .MOVE ∨ (fr = true ∧ typeAt snap k = some .REUSE) := by
  unfold Follows found typeAt
  cases h : snap.find k with
  | none => simp
  | some e =>
    have hse := hs k e h
    cases ht : e.type <;> simp_all [remaps]

theorem follows_true_iff {snap : Snapshot} (hs : NoSymlinks snap) {p k : Str} :
    Follows snap true false p k ↔ Mapped snap k := by
  simp [follows_iff hs, Mapped]

theorem follows_false_iff {snap : Snapshot} (hs : NoSymlinks snap) {p k : Str} :
    Follows snap false false p k ↔ typeAt snap k = some .MOVE := by
  simp [follows_iff hs]

/-! ## Reuse names -/

theorem reuseName_cons (n : Nat) : ∃ r, reuseName n = '|' :: r := ⟨lit "reuse_" ++ toStr n, rfl⟩

theorem not_mem_slash_reuseName (n : Nat) : '/' ∉ reuseName n := by
  unfold reuseName
  rw [List.mem_append]
  rintro (h | h)
  · exact absurd h (by decide)
  · exact not_mem_toStr (by decide) h

theorem reuseName_inj {n m : Nat} (h : reuseName n = reuseName m) : n = m :=
  toStr_inj (List.append_cancel_left h)

/-- Two paths that start with a reuse name agree only if name and rest agree. -/
theorem reuseName_append_inj {n m : Nat} {r w : Str} (hr : PathTail r) (hw : PathTail w)
    (h : reuseName n ++ r = reuseName m ++ w) : n = m ∧ r = w := by
  have hn : Under (reuseName n) (reuseName n ++ r) := within_append _ hr
  have hm : Under (reuseName m) (reuseName n ++ r) := ⟨w, hw, h⟩
  have hcmp : reuseName n = reuseName m := by
    have key : ∀ i j, Under (reuseName i) (reuseName j) → reuseName i = reuseName j := by
      intro i j hij
      obtain ⟨x, hx, he⟩ := hij
      rcases hx with rfl | ⟨x', rfl⟩
      · simpa using he.symm
      · exact absurd (he ▸ by simp) (not_mem_slash_reuseName j)
    rcases hn.total hm with hu | hu
    · exact key n m hu
    · exact (key m n hu).symm
  refine ⟨reuseName_inj hcmp, ?_⟩
  rw [hcmp] at h
  exact List.append_cancel_left h

theorem namesFit_reuseName {n : Nat} (h : n < 2 ^ 63) : NamesFit (reuseName n) := by
  have hlen : (toStr n).length ≤ 19 :=
    (Nat.length_toDigits_le_iff (by decide) (by decide)).mpr (by omega)
  intro q hq
  obtain ⟨r, hr, he⟩ := hq
  have hq' : q = reuseName n := by
    rcases hr with rfl | ⟨r', rfl⟩
    · simpa using he.symm
    · exact absurd (he ▸ by simp) (not_mem_slash_reuseName n)
  subst hq'
  unfold lastComponentSize
  rw [findLastOf_eq_none.mpr (not_mem_slash_reuseName n)]
  have h7 : (lit "|reuse_").length = 7 := by decide
  simp only [reuseName, List.length_append, h7, NAME_MAX]
  omega

/-- No user path is a prefix of a path that starts with a reuse name. -/
theorem not_under_reuseName {k : Str} {n : Nat} {r : Str} (hk : UserPath k) :
    ¬ Under k (reuseName n ++ r) := by
  rintro ⟨w, -, h⟩
  obtain ⟨k', rfl⟩ := hk.absolute
  obtain ⟨x, hx⟩ := reuseName_cons n
  rw [hx, List.cons_append, List.cons_append, List.cons.injEq] at h
  exact absurd h.1 (by decide)

/-! ## Paths, hidden paths and what they resolve to -/

/-- `q` is the longest mapped name strictly above `k`. -/
structure HitAbove (snap : Snapshot) (k q : Str) : Prop where
  under : Under q k
  ne : q ≠ k
  mapped : Mapped snap q
  longest : ∀ x, Under x k → x ≠ k → Mapped snap x → x.length ≤ q.length

/-- `k ++ r` resolves to `s` when the entries at and below `k` are ignored. -/
def Above (snap : Snapshot) (k r s : Str) : Prop :=
  ((∀ q, Under q k → q ≠ k → ¬ Mapped snap q) ∧ s = k ++ r) ∨
    ∃ q e, HitAbove snap k q ∧ snap.find q = some e ∧
      Resolves snap (e.type ≠ .MOVE) (e.target ++ (k ++ r).drop q.length) s

/-- What a system path can come from: a path, a path hidden by the move entry at `k`, or a path
    below the reuse name that the next move creates. -/
inductive Src where
  | path (u : Str)
  | masked (k r : Str)
  | fresh (r : Str)

/-- The source is a path, or a tail below an entry that is masked. -/
def Src.Ok (snap : Snapshot) : Src → Prop
  | .path u => ∃ r, u = '/' :: r
  | .masked k r => typeAt snap k = some .MOVE ∧ PathTail r
  | .fresh _ => False

/-- The system path of a source, for a snapshot at `version`. -/
def Src.Img (snap : Snapshot) (version : Nat) : Src → Str → Prop
  | .path u, s => Resolves snap true u s
  | .masked k r, s => Above snap k r s
  | .fresh r, s => PathTail r ∧ s = reuseName (version + 1) ++ r

/-- The invariant of the snapshot under good moves. -/
structure MoveInv (s : State) : Prop where
  closed : s.tree.Closed
  noSymlinks : NoSymlinks s.db.snapshot
  version : s.db.snapshotVersion < 2 ^ 63
  keys : ∀ k, s.db.snapshot.find k ≠ none → UserPath k
  noneTarget : ∀ k e, s.db.snapshot.find k = some e → e.type = .NONE → e.target = []
  reuseTarget : ∀ k e, s.db.snapshot.find k = some e → e.type = .REUSE →
    ∃ n ≤ s.db.snapshotVersion, e.target = reuseName n
  moveTarget : ∀ k e, s.db.snapshot.find k = some e → e.type = .MOVE →
    (∃ n ≤ s.db.snapshotVersion, e.target = reuseName n) ∨
      typeAt s.db.snapshot e.target = some .REUSE
  noneBelow : ∀ k x, typeAt s.db.snapshot k = some .REUSE → Mapped s.db.snapshot x →
    Under k x → x = k
  above : ∀ k, Mapped s.db.snapshot k → ∀ q, Under q k → q ≠ k → q ≠ [] → s.tree.IsDir q
  total : ∀ src : Src, src.Ok s.db.snapshot → ∃ sys, src.Img s.db.snapshot s.db.snapshotVersion sys
  inj : ∀ (src src' : Src) (sys : Str), src.Ok s.db.snapshot → src'.Ok s.db.snapshot →
    src.Img s.db.snapshot s.db.snapshotVersion sys →
    src'.Img s.db.snapshot s.db.snapshotVersion sys → src = src'

theorem HitAbove.unique {snap : Snapshot} {k q x : Str} (hq : HitAbove snap k q)
    (hx : HitAbove snap k x) : q = x := by
  have h1 := hq.longest x hx.under hx.ne hx.mapped
  have h2 := hx.longest q hq.under hq.ne hq.mapped
  exact (hq.under.of_le hx.under h2).eq_of_length h1

theorem Above.det {snap : Snapshot} {k r s t : Str} (hs : Above snap k r s)
    (ht : Above snap k r t) : s = t := by
  rcases hs with ⟨h1, rfl⟩ | ⟨q, e, hq, he, hr⟩
  · rcases ht with ⟨-, rfl⟩ | ⟨q, e, hq, -, -⟩
    · rfl
    · exact absurd hq.mapped (h1 q hq.under hq.ne)
  · rcases ht with ⟨h1, -⟩ | ⟨q', e', hq', he', hr'⟩
    · exact absurd hq.mapped (h1 q hq.under hq.ne)
    · obtain rfl := hq.unique hq'
      obtain rfl := Option.some.inj (he.symm.trans he')
      exact hr.det hr'

/-- Without an entry at or below `k` on the way to it, `k ++ r` resolves through the names
    above `k`. -/
theorem resolves_iff_above {snap : Snapshot} (hs : NoSymlinks snap) {k r sys : Str}
    (hr : PathTail r) (hnone : ∀ x, Under x (k ++ r) → Under k x → ¬ Mapped snap x) :
    Resolves snap true (k ++ r) sys ↔ Above snap k r sys := by
  have habove : ∀ x, Under x (k ++ r) → Mapped snap x → Under x k ∧ x ≠ k := by
    intro x hx hm
    exact hx.of_append_left hr fun hu => hnone x hx hu hm
  have hmapped : ∀ {x}, Follows snap true false (k ++ r) x ↔ Mapped snap x :=
    follows_true_iff hs
  constructor
  · intro h
    generalize hp : k ++ r = p at h
    cases h with
    | done hn =>
      subst hp
      exact Or.inl ⟨fun q hq _ hm => hn q (hq.append_right hr) (hmapped.mpr hm), rfl⟩
    | @hop _ _ q _ e hit he hres =>
      subst hp
      have hm := hmapped.mp hit.follows
      obtain ⟨hq, hne⟩ := habove q hit.under hm
      refine Or.inr ⟨q, e, ⟨hq, hne, hm, fun x hx _ hmx => ?_⟩, he, hres⟩
      exact hit.longest x (hx.append_right hr) (hmapped.mpr hmx)
  · rintro (⟨hn, rfl⟩ | ⟨q, e, hq, he, hres⟩)
    · refine Resolves.done fun x hx hf => ?_
      obtain ⟨h1, h2⟩ := habove x hx (hmapped.mp hf)
      exact hn x h1 h2 (hmapped.mp hf)
    · refine Resolves.hop ⟨hq.under.append_right hr, hmapped.mpr hq.mapped, fun x hx hf => ?_⟩
        he hres
      obtain ⟨h1, h2⟩ := habove x hx (hmapped.mp hf)
      exact hq.longest x h1 h2 (hmapped.mp hf)

theorem Src.Img.det {snap : Snapshot} {v : Nat} {src : Src} {s t : Str}
    (hs : src.Img snap v s) (ht : src.Img snap v t) : s = t := by
  cases src with
  | path u => exact Resolves.det hs ht
  | masked k r => exact Above.det hs ht
  | fresh r => exact hs.2.trans ht.2.symm

/-- The entry of `k` has the same type and target in both snapshots. -/
def SameMapping (S S' : Snapshot) (k : Str) : Prop :=
  ∀ e, S.find k = some e → ∃ e', S'.find k = some e' ∧ e'.type = e.type ∧ e'.target = e.target

theorem SameMapping.of_eq {S S' : Snapshot} {k : Str} (h : S'.find k = S.find k) :
    SameMapping S S' k :=
  fun e he => ⟨e, h.trans he, rfl, rfl⟩

/-- A resolution in one snapshot is one in another if, on every path the loop passes through, the
    same prefixes remap it in the same way. -/
theorem Resolves.transfer {S S' : Snapshot} (P : Bool → Str → Prop)
    (hsame : ∀ fr p, P fr p → ∀ k, Under k p →
      (Follows S fr false p k ↔ Follows S' fr false p k) ∧
        (Follows S fr false p k → SameMapping S S' k))
    (hnext : ∀ fr p q e, P fr p → IsHit S fr false p q → S.find q = some e →
      P (e.type ≠ .MOVE) (e.target ++ p.drop q.length))
    {fr : Bool} {p s : Str} (h : Resolves S fr p s) (hp : P fr p) : Resolves S' fr p s := by
  induction h with
  | done h =>
    exact Resolves.done fun k hk hf => h k hk ((hsame _ _ hp k hk).1.mpr hf)
  | @hop fr p q s e hit he _ ih =>
    have hq := hsame fr p hp q hit.under
    obtain ⟨e', he', hty, htg⟩ := hq.2 hit.follows e he
    refine Resolves.hop ⟨hit.under, hq.1.mp hit.follows, fun k hk hf => ?_⟩ he' ?_
    · exact hit.longest k hk ((hsame fr p hp k hk).1.mpr hf)
    · rw [hty, htg]
      exact ih (hnext fr p q e hp hit he)

/-- Where the loop can be after a hop: below a reuse name, or below a name with a reuse entry
    while reuse entries are not followed. -/
def AtTarget (snap : Snapshot) (fr : Bool) (p : Str) : Prop :=
  ∃ t r, PathTail r ∧ p = t ++ r ∧
    ((∃ n, t = reuseName n) ∨ (fr = false ∧ typeAt snap t = some .REUSE))

theorem MoveInv.atTarget {s : State} (hI : MoveInv s) {q r : Str} {e : PMEntry}
    (he : s.db.snapshot.find q = some e) (hm : Mapped s.db.snapshot q) (hr : PathTail r) :
    AtTarget s.db.snapshot (e.type ≠ .MOVE) (e.target ++ r) := by
  refine ⟨e.target, r, hr, rfl, ?_⟩
  rcases hm with h | h
  · have ht : e.type = .MOVE := by simpa [typeAt_eq he] using h
    rcases hI.moveTarget q e he ht with ⟨n, -, hn⟩ | hr
    · exact Or.inl ⟨n, hn⟩
    · exact Or.inr ⟨by simp [ht], hr⟩
  · have ht : e.type = .REUSE := by simpa [typeAt_eq he] using h
    obtain ⟨n, -, hn⟩ := hI.reuseTarget q e he ht
    exact Or.inl ⟨n, hn⟩

theorem MoveInv.mapped_hit {s : State} (hI : MoveInv s) {fr : Bool} {p q : Str}
    (hit : IsHit s.db.snapshot fr false p q) : Mapped s.db.snapshot q := by
  rcases (follows_iff hI.noSymlinks).mp hit.follows with h | ⟨-, h⟩
  · exact Or.inl h
  · exact Or.inr h

theorem MoveInv.atTarget_hop {s : State} (hI : MoveInv s) {fr : Bool} {p q : Str} {e : PMEntry}
    (hit : IsHit s.db.snapshot fr false p q) (he : s.db.snapshot.find q = some e) :
    AtTarget s.db.snapshot (e.type ≠ .MOVE) (e.target ++ p.drop q.length) :=
  hI.atTarget he (hI.mapped_hit hit) hit.under.tail_drop

/-- The loop stops at a path below a reuse name. -/
theorem MoveInv.resolves_reuseName {s : State} (hI : MoveInv s) (fr : Bool) (n : Nat) (r : Str) :
    Resolves s.db.snapshot fr (reuseName n ++ r) (reuseName n ++ r) := by
  refine Resolves.done fun k hk hf => ?_
  have hm : s.db.snapshot.find k ≠ none := by
    intro hnone
    simp [Follows, found, hnone] at hf
  exact not_under_reuseName (hI.keys k hm) hk

theorem MoveInv.targetsFit {s : State} (hI : MoveInv s) : TargetsFit s.db.snapshot := by
  intro k e he
  cases ht : e.type with
  | NONE =>
    rw [hI.noneTarget k e he ht]
    decide
  | SYMLINK => exact absurd ht (hI.noSymlinks k e he)
  | REUSE =>
    obtain ⟨n, hn, hr⟩ := hI.reuseTarget k e he ht
    rw [hr]
    exact namesFit_reuseName (lt_of_le_of_lt hn hI.version)
  | MOVE =>
    rcases hI.moveTarget k e he ht with ⟨n, hn, hr⟩ | hr
    · rw [hr]
      exact namesFit_reuseName (lt_of_le_of_lt hn hI.version)
    · obtain ⟨e', he', -⟩ := find_of_typeAt hr
      exact (hI.keys e.target (by simp [he'])).namesFit

/-- The form of system paths at `version`: absolute, or below a reuse name made so far. -/
def OldForm (version : Nat) (p : Str) : Prop :=
  (∃ r, p = '/' :: r) ∨ ∃ n ≤ version, ∃ r, PathTail r ∧ p = reuseName n ++ r

theorem OldForm.ne_fresh {v : Nat} {p r : Str} (h : OldForm v p) (hr : PathTail r) :
    p ≠ reuseName (v + 1) ++ r := by
  rintro rfl
  rcases h with ⟨x, hx⟩ | ⟨n, hn, w, hw, he⟩
  · obtain ⟨y, hy⟩ := reuseName_cons (v + 1)
    rw [hy, List.cons_append, List.cons.injEq] at hx
    exact absurd hx.1 (by decide)
  · have := (reuseName_append_inj hr hw he).1
    omega

theorem MoveInv.oldForm_target {s : State} (hI : MoveInv s) {q r : Str} {e : PMEntry}
    (he : s.db.snapshot.find q = some e) (hm : Mapped s.db.snapshot q) (hr : PathTail r) :
    OldForm s.db.snapshotVersion (e.target ++ r) := by
  rcases hm with h | h
  · have ht : e.type = .MOVE := by simpa [typeAt_eq he] using h
    rcases hI.moveTarget q e he ht with ⟨n, hn, hx⟩ | hre
    · exact Or.inr ⟨n, hn, r, hr, by rw [hx]⟩
    · obtain ⟨e', he', -⟩ := find_of_typeAt hre
      obtain ⟨x, hx⟩ := (hI.keys e.target (by simp [he'])).absolute
      exact Or.inl ⟨x ++ r, by rw [hx, List.cons_append]⟩
  · have ht : e.type = .REUSE := by simpa [typeAt_eq he] using h
    obtain ⟨n, hn, hx⟩ := hI.reuseTarget q e he ht
    exact Or.inr ⟨n, hn, r, hr, by rw [hx]⟩

theorem MoveInv.oldForm_resolves {s : State} (hI : MoveInv s) {fr : Bool} {p sys : Str}
    (h : Resolves s.db.snapshot fr p sys) (hp : OldForm s.db.snapshotVersion p) :
    OldForm s.db.snapshotVersion sys := by
  induction h with
  | done _ => exact hp
  | hop hit he _ ih => exact ih (hI.oldForm_target he (hI.mapped_hit hit) hit.under.tail_drop)

/-- No source has a system path below the next reuse name. -/
theorem MoveInv.oldForm_img {s : State} (hI : MoveInv s) {src : Src} {sys : Str}
    (hok : src.Ok s.db.snapshot) (h : src.Img s.db.snapshot s.db.snapshotVersion sys) :
    OldForm s.db.snapshotVersion sys := by
  cases src with
  | path u => exact hI.oldForm_resolves h (Or.inl hok)
  | masked k r =>
    have hk : Mapped s.db.snapshot k := Or.inl hok.1
    rcases h with ⟨-, rfl⟩ | ⟨q, e, hq, he, hr⟩
    · obtain ⟨x, hx⟩ := (hI.keys k hk.find_ne).absolute
      exact Or.inl ⟨x ++ r, by rw [hx, List.cons_append]⟩
    · have htail := (hq.under.append_right hok.2).tail_drop
      exact hI.oldForm_resolves hr (hI.oldForm_target he hq.mapped htail)
  | fresh r => exact absurd hok id

end HFlat.PathMap
