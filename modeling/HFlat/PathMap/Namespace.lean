/-
  The hierarchical namespace the path map stands for: a tree of user paths, its operations, and
  the runs in which every operation is valid against the tree and recorded in the database.

  A node carries its kind and the database version of the latest permission change made to it;
  both follow the node when it or a directory above it is moved. `Step` pairs each operation on
  the tree with the update of the path map that the file system issues for it.
-/
import Mathlib.Logic.Relation
import HFlat.PathMap.Search

namespace HFlat.PathMap

open HFlat.Lib

/-! ## User paths -/

/-- The path of the root directory. -/
def root : Str := ['/']

/-- An absolute path without `:`, all of whose names fit `NAME_MAX`. -/
structure UserPath (p : Str) : Prop where
  absolute : ∃ r, p = '/' :: r
  colonFree : ':' ∉ p
  namesFit : NamesFit p

/-- The directory that holds `p`, as `lookup_parent` cuts it from a path without `:`. -/
def parentPath (p : Str) : Str :=
  match findLastOf '/' p with
  | none => []
  | some 0 => root
  | some pos => p.take pos

theorem namesFit_iff (p : Str) : NamesFit p ↔
    ∀ n ∈ List.range (p.length + 1), Under (p.take n) p →
      lastComponentSize (p.take n) ≤ NAME_MAX := by
  constructor
  · intro h n _ hn
    exact h _ hn
  · intro h q hq
    obtain ⟨r, hr, rfl⟩ := hq
    have h1 := h q.length (by rw [List.mem_range, List.length_append]; omega)
    simp only [List.take_left'] at h1
    exact h1 (within_append q hr)

instance (p : Str) : Decidable (NamesFit p) := decidable_of_iff _ (namesFit_iff p).symm

theorem userPath_iff (p : Str) :
    UserPath p ↔ p.head? = some '/' ∧ ':' ∉ p ∧ NamesFit p := by
  constructor
  · rintro ⟨⟨r, rfl⟩, h1, h2⟩
    exact ⟨rfl, h1, h2⟩
  · rintro ⟨h0, h1, h2⟩
    cases p with
    | nil => simp at h0
    | cons c r => exact ⟨⟨r, by simpa using h0⟩, h1, h2⟩

instance (p : Str) : Decidable (UserPath p) := decidable_of_iff _ (userPath_iff p).symm

theorem findFirstOf_eq_none {c : Char} {p : Str} (h : c ∉ p) : findFirstOf c p 0 = none := by
  unfold findFirstOf
  rw [List.drop_zero, Option.map_eq_none_iff, List.findIdx?_eq_none_iff]
  intro x hx
  simp only [decide_eq_false_iff_not]
  rintro rfl
  exact h hx

theorem under_root {q : Str} (h : Under q root) (h0 : q ≠ []) : q = root := by
  obtain ⟨r, -, hr⟩ := h
  unfold root at hr ⊢
  rw [List.singleton_eq_append_iff] at hr
  rcases hr with ⟨hq, -⟩ | ⟨hq, -⟩
  · exact absurd hq h0
  · exact hq

/-- A path without `:` is its own decoding. -/
theorem iointercept_of_colonFree {p : Str} (h : ':' ∉ p) : iointercept p = p := by
  unfold iointercept
  rw [findFirstOf_eq_none h]

theorem UserPath.iointercept {p : Str} (h : UserPath p) : iointercept p = p :=
  iointercept_of_colonFree h.colonFree

/-- A proper component prefix of a path is the root of all names or lies at or above its
    parent. -/
theorem under_parentPath {p q : Str} (hq : Under q p) (hne : q ≠ p) (h0 : q ≠ []) :
    Under q (parentPath p) := by
  cases hpos : findLastOf '/' p with
  | none => exact absurd ((within_iff_eq_of_none hpos).mp hq) hne
  | some i =>
    have h := (within_proper_iff hpos).mpr ⟨hq, hne⟩
    cases i with
    | zero =>
      obtain ⟨r, -, hr⟩ := h
      rw [List.take_zero] at hr
      exact absurd (List.append_eq_nil_iff.mp hr.symm).1 h0
    | succ i => simpa [parentPath, hpos] using h

/-! ## The tree -/

/-- The kind of an object, as far as path mappings care. -/
inductive Kind where
  | dir | file | symlink
  deriving DecidableEq, Repr

/-- An object of the namespace. -/
structure Node where
  kind : Kind
  /-- Database version of the latest permission change, `0` for none. -/
  changed : Nat
  deriving DecidableEq, Repr

/-- The objects of the namespace by their paths. -/
abbrev Tree := Str → Option Node

/-- A new file system: the root directory. -/
def Tree.init : Tree := fun q => if q = root then some ⟨.dir, 0⟩ else none

/-- One more object. -/
def Tree.create (t : Tree) (p : Str) (k : Kind) : Tree :=
  fun q => if q = p then some ⟨k, 0⟩ else t q

/-- Everything at or below `o` is found under `d`. -/
def Tree.move (t : Tree) (o d : Str) : Tree := fun q =>
  if Under d q then t (o ++ q.drop d.length) else if Under o q then none else t q

/-- A permission change at a database version. -/
def Tree.chmod (t : Tree) (p : Str) (version : Nat) : Tree :=
  fun q => if q = p then (t q).map fun n => { n with changed := version } else t q

/-- One object less. -/
def Tree.remove (t : Tree) (p : Str) : Tree := fun q => if q = p then none else t q

/-- `p` is an existing directory. -/
def Tree.IsDir (t : Tree) (p : Str) : Prop := (t p).map Node.kind = some .dir

instance (t : Tree) (p : Str) : Decidable (t.IsDir p) :=
  inferInstanceAs (Decidable (_ = _))

/-- `p` is a name that a new object can get: it fits the limits, is free, and its parent is a
    directory. -/
structure Tree.Free (t : Tree) (p : Str) : Prop where
  path : UserPath p
  fits : p.length ≤ PATH_MAX
  named : 0 < lastComponentSize p
  absent : t p = none
  parent : t.IsDir (parentPath p)

instance (t : Tree) (p : Str) : Decidable (t.Free p) :=
  decidable_of_iff (UserPath p ∧ p.length ≤ PATH_MAX ∧ 0 < lastComponentSize p ∧ t p = none ∧
      t.IsDir (parentPath p))
    ⟨fun ⟨h1, h2, h3, h4, h5⟩ => ⟨h1, h2, h3, h4, h5⟩,
      fun ⟨h1, h2, h3, h4, h5⟩ => ⟨h1, h2, h3, h4, h5⟩⟩

/-- The move of `o` to `d` is valid: `o` is a directory, `d` is free and not inside `o`. -/
structure Tree.ValidMove (t : Tree) (o d : Str) : Prop where
  origin : t.IsDir o
  notRoot : o ≠ root
  free : t.Free d
  outside : ¬ Under o d

instance (t : Tree) (o d : Str) : Decidable (t.ValidMove o d) :=
  decidable_of_iff (t.IsDir o ∧ o ≠ root ∧ t.Free d ∧ ¬ Under o d)
    ⟨fun ⟨h1, h2, h3, h4⟩ => ⟨h1, h2, h3, h4⟩, fun ⟨h1, h2, h3, h4⟩ => ⟨h1, h2, h3, h4⟩⟩

/-- Every node has a user path as its name, and every path above it is a directory. -/
structure Tree.Closed (t : Tree) : Prop where
  root : t.IsDir root
  path : ∀ p, t p ≠ none → UserPath p
  above : ∀ p q, t p ≠ none → Under q p → q ≠ p → q ≠ [] → t.IsDir q

theorem Tree.IsDir.ne_none {t : Tree} {p : Str} (h : t.IsDir p) : t p ≠ none := by
  intro hn
  simp [Tree.IsDir, hn] at h

theorem UserPath.ne_nil {p : Str} (h : UserPath p) : p ≠ [] := by
  obtain ⟨r, rfl⟩ := h.absolute
  simp

/-- A path that has something existing below it exists. -/
theorem Tree.Closed.of_under {t : Tree} (ht : t.Closed) {p q : Str} (hp : t p ≠ none)
    (hq : Under q p) (h0 : q ≠ []) : t q ≠ none := by
  by_cases hqp : q = p
  · rw [hqp]; exact hp
  · exact (ht.above p q hp hq hqp h0).ne_none

theorem Tree.Free.not_under {t : Tree} (ht : t.Closed) {p d : Str} (hd : t.Free d)
    (hp : t p ≠ none) : ¬ Under d p :=
  fun h => ht.of_under hp h hd.path.ne_nil hd.absent

/-- The directories above a free name exist. -/
theorem Tree.Free.above {t : Tree} (ht : t.Closed) {d q : Str} (hd : t.Free d) (hq : Under q d)
    (hne : q ≠ d) (h0 : q ≠ []) : t.IsDir q := by
  have h := under_parentPath hq hne h0
  by_cases he : q = parentPath d
  · rw [he]; exact hd.parent
  · exact ht.above _ q hd.parent.ne_none h he h0

theorem Tree.init_closed : Tree.init.Closed where
  root := by simp [Tree.IsDir, Tree.init]
  path p hp := by
    have : p = HFlat.PathMap.root := by
      by_contra h
      exact hp (by simp [Tree.init, h])
    subst this
    decide
  above p q hp hq hne h0 := by
    have : p = HFlat.PathMap.root := by
      by_contra h
      exact hp (by simp [Tree.init, h])
    subst this
    exact absurd (under_root hq h0) hne

theorem Tree.create_closed {t : Tree} (ht : t.Closed) {p : Str} {k : Kind} (hp : t.Free p) :
    (t.create p k).Closed where
  root := by
    have h : HFlat.PathMap.root ≠ p := by
      rintro rfl
      exact ht.root.ne_none hp.absent
    simpa [Tree.IsDir, Tree.create, h] using ht.root
  path q hq := by
    by_cases h : q = p
    · rw [h]; exact hp.path
    · exact ht.path q (by simpa [Tree.create, h] using hq)
  above x q hx hq hne h0 := by
    have hqp : q ≠ p → t.IsDir q → (t.create p k).IsDir q := by
      intro h hd
      simpa [Tree.IsDir, Tree.create, h] using hd
    by_cases h : x = p
    · subst h
      exact hqp hne (hp.above ht hq hne h0)
    · have hx' : t x ≠ none := by simpa [Tree.create, h] using hx
      refine hqp ?_ (ht.above x q hx' hq hne h0)
      rintro rfl
      exact hp.not_under ht hx' hq

/-! ## Moves -/

theorem Tree.move_inside (t : Tree) (o d : Str) {r : Str} (hr : PathTail r) :
    t.move o d (d ++ r) = t (o ++ r) := by
  simp [Tree.move, within_append d hr]

theorem Tree.move_outside (t : Tree) {o d p : Str} (ho : ¬ Under o p) (hd : ¬ Under d p) :
    t.move o d p = t p := by
  simp [Tree.move, ho, hd]

theorem Tree.isDir_move {t : Tree} {o d q : Str} (ho : ¬ Under o q) (hd : ¬ Under d q)
    (hq : t.IsDir q) : (t.move o d).IsDir q := by
  unfold Tree.IsDir
  rw [t.move_outside ho hd]
  exact hq

theorem Tree.ValidMove.not_above {t : Tree} (ht : t.Closed) {o d : Str} (h : t.ValidMove o d) :
    ¬ Under d o := h.free.not_under ht h.origin.ne_none

theorem Tree.ValidMove.ne {t : Tree} {o d : Str} (h : t.ValidMove o d) : o ≠ d := by
  rintro rfl
  exact h.outside (within_refl o)

/-- Nothing is at or below both names. -/
theorem Tree.ValidMove.disjoint {t : Tree} (ht : t.Closed) {o d p : Str} (h : t.ValidMove o d)
    (ho : Under o p) : ¬ Under d p := by
  intro hd
  rcases ho.total hd with hu | hu
  · exact h.outside hu
  · exact h.not_above ht hu

/-- What exists after a move is below `d`, or existed outside `o` before. -/
theorem Tree.move_ne_none {t : Tree} {o d p : Str} (h : t.move o d p ≠ none) :
    (∃ r, PathTail r ∧ p = d ++ r ∧ t (o ++ r) ≠ none) ∨
      (¬ Under d p ∧ ¬ Under o p ∧ t p ≠ none) := by
  by_cases hd : Under d p
  · obtain ⟨r, hr, rfl⟩ := hd
    rw [t.move_inside o d hr] at h
    exact Or.inl ⟨r, hr, rfl, h⟩
  · by_cases ho : Under o p
    · simp [Tree.move, hd, ho] at h
    · rw [t.move_outside ho hd] at h
      exact Or.inr ⟨hd, ho, h⟩

theorem Tree.move_closed {t : Tree} (ht : t.Closed) {o d : Str} (h : t.ValidMove o d) :
    (t.move o d).Closed := by
  have hou : UserPath o := ht.path o h.origin.ne_none
  refine ⟨?_, ?_, ?_⟩
  · refine Tree.isDir_move ?_ ?_ ht.root
    · exact fun hu => h.notRoot (under_root hu hou.ne_nil)
    · exact h.free.not_under ht ht.root.ne_none
  · intro p hp
    rcases Tree.move_ne_none hp with ⟨r, hr, rfl, hx⟩ | ⟨-, -, hx⟩
    · have hor := ht.path _ hx
      refine ⟨?_, ?_, h.free.path.namesFit.replace hor.namesFit hr⟩
      · obtain ⟨d', hd'⟩ := h.free.path.absolute
        exact ⟨d' ++ r, by rw [hd', List.cons_append]⟩
      · intro hc
        rcases List.mem_append.mp hc with hc | hc
        · exact h.free.path.colonFree hc
        · exact hor.colonFree (List.mem_append_right o hc)
    · exact ht.path p hx
  · intro p q hp hq hne h0
    rcases Tree.move_ne_none hp with ⟨r, hr, rfl, hx⟩ | ⟨hdp, hop, hx⟩
    · by_cases hdq : Under d q
      · obtain ⟨w, hw, rfl⟩ := hdq
        obtain ⟨v, hv, hwv⟩ := hq
        have hrv : r = w ++ v := by
          rw [List.append_assoc] at hwv
          exact List.append_cancel_left hwv
        have hq' : Under (o ++ w) (o ++ r) := ⟨v, hv, by rw [hrv, List.append_assoc]⟩
        have hne' : o ++ w ≠ o ++ r := by
          intro he
          exact hne (by rw [List.append_cancel_left he])
        have hd := ht.above _ _ hx hq' hne' (by simp [hou.ne_nil])
        unfold Tree.IsDir
        rw [t.move_inside o d hw]
        exact hd
      · obtain ⟨hqd, hqne⟩ := hq.of_append_left hr hdq
        refine Tree.isDir_move ?_ hdq (h.free.above ht hqd hqne h0)
        intro ho
        exact h.outside (ho.trans hqd)
    · refine Tree.isDir_move (fun ho => hop (ho.trans hq)) (fun hd => hdp (hd.trans hq)) ?_
      exact ht.above p q hx hq hne h0

theorem Tree.chmod_isSome (t : Tree) (p : Str) (v : Nat) (q : Str) :
    t.chmod p v q ≠ none ↔ t q ≠ none := by
  unfold Tree.chmod
  split
  · cases t q <;> simp
  · rfl

theorem Tree.chmod_isDir (t : Tree) (p : Str) (v : Nat) (q : Str) :
    (t.chmod p v).IsDir q ↔ t.IsDir q := by
  unfold Tree.IsDir Tree.chmod
  split
  · cases t q <;> simp
  · rfl

theorem Tree.chmod_closed {t : Tree} (ht : t.Closed) (p : Str) (v : Nat) :
    (t.chmod p v).Closed where
  root := (t.chmod_isDir p v _).mpr ht.root
  path q hq := ht.path q ((t.chmod_isSome p v q).mp hq)
  above x q hx hq hne h0 :=
    (t.chmod_isDir p v q).mpr (ht.above x q ((t.chmod_isSome p v x).mp hx) hq hne h0)

theorem Tree.remove_closed {t : Tree} (ht : t.Closed) {p : Str} (hr : p ≠ PathMap.root)
    (he : ∀ q, Under p q → q ≠ p → t q = none) : (t.remove p).Closed := by
  have hold : ∀ {q}, t.remove p q ≠ none → q ≠ p ∧ t q ≠ none := by
    intro q hq
    by_cases h : q = p
    · simp [Tree.remove, h] at hq
    · exact ⟨h, by simpa [Tree.remove, h] using hq⟩
  have hkeep : ∀ {q}, q ≠ p → t.IsDir q → (t.remove p).IsDir q := by
    intro q h hd
    simpa [Tree.IsDir, Tree.remove, h] using hd
  refine ⟨hkeep (Ne.symm hr) ht.root, fun q hq => ht.path q (hold hq).2, ?_⟩
  intro x q hx hq hne h0
  obtain ⟨hxp, hx'⟩ := hold hx
  refine hkeep ?_ (ht.above x q hx' hq hne h0)
  rintro rfl
  exact hx' (he x hq hxp)

/-! ## Runs -/

/-- The namespace as the user sees it, and the snapshot of path mappings. -/
structure State where
  tree : Tree
  db : PathMapDB

/-- A root directory, and no mappings. -/
def State.init : State := ⟨Tree.init, PathMapDB.empty⟩

/-- The operations of a run. -/
inductive Op where
  /-- mkdir and create -/
  | create (p : Str) (k : Kind)
  /-- rename of a directory -/
  | move (o d : Str)
  /-- chmod or chown of a directory that changes its restrictions -/
  | chmod (p : Str)
  /-- symlink -/
  | symlink (origin target : Str)
  /-- unlink and rmdir -/
  | remove (p : Str)

/-- The database version is a `std::int64_t`. -/
def VersionFits (db : PathMapDB) : Prop := db.snapshotVersion + 1 < 2 ^ 63

instance (db : PathMapDB) : Decidable (VersionFits db) := inferInstanceAs (Decidable (_ < _))

/-- One valid operation and the entry it adds to the database. A removal is recorded when the
    name has a mapping (`hflat_unlink`). -/
inductive Step : State → Op → State → Prop
  | create {s : State} {p : Str} {k : Kind} (hk : k ≠ .symlink) (h : s.tree.Free p) :
      Step s (.create p k) ⟨s.tree.create p k, s.db⟩
  | move {s : State} {o d : Str} {db : PathMapDB} (h : s.tree.ValidMove o d)
      (hv : VersionFits s.db) (hdb : addDirectoryMove s.db o d = some db) :
      Step s (.move o d) ⟨s.tree.move o d, db⟩
  | chmod {s : State} {p : Str} (h : s.tree.IsDir p) (hv : VersionFits s.db) :
      Step s (.chmod p)
        ⟨s.tree.chmod p (s.db.snapshotVersion + 1), addPermissionChange s.db p⟩
  | symlink {s : State} {origin target : Str} {db : PathMapDB} (h : s.tree.Free origin)
      (hv : VersionFits s.db) (hdb : addSoftLink s.db origin target = some db) :
      Step s (.symlink origin target) ⟨s.tree.create origin .symlink, db⟩
  | remove {s : State} {p : Str} (h : s.tree p ≠ none) (hr : p ≠ root)
      (he : ∀ q, Under p q → q ≠ p → s.tree q = none) (hv : VersionFits s.db) :
      Step s (.remove p)
        ⟨s.tree.remove p, if hasMapping s.db p then addUnlink s.db p else s.db⟩

/-- The operations as a function. A removal needs an empty directory, which a tree that is a
    function cannot decide. -/
def Op.apply (s : State) : Op → Option State
  | .create p k =>
      if k ≠ .symlink ∧ s.tree.Free p then some ⟨s.tree.create p k, s.db⟩ else none
  | .move o d =>
      if s.tree.ValidMove o d ∧ VersionFits s.db then
        (addDirectoryMove s.db o d).map fun db => ⟨s.tree.move o d, db⟩
      else none
  | .chmod p =>
      if s.tree.IsDir p ∧ VersionFits s.db then
        some ⟨s.tree.chmod p (s.db.snapshotVersion + 1), addPermissionChange s.db p⟩
      else none
  | .symlink origin target =>
      if s.tree.Free origin ∧ VersionFits s.db then
        (addSoftLink s.db origin target).map fun db => ⟨s.tree.create origin .symlink, db⟩
      else none
  | .remove _ => none

theorem Op.apply_step {s s' : State} {op : Op} (h : op.apply s = some s') : Step s op s' := by
  cases op with
  | create p k =>
    simp only [Op.apply] at h
    split_ifs at h with hc
    obtain rfl := Option.some.inj h
    exact Step.create hc.1 hc.2
  | move o d =>
    simp only [Op.apply] at h
    split_ifs at h with hc
    obtain ⟨db, hdb, rfl⟩ := Option.map_eq_some_iff.mp h
    exact Step.move hc.1 hc.2 hdb
  | chmod p =>
    simp only [Op.apply] at h
    split_ifs at h with hc
    obtain rfl := Option.some.inj h
    exact Step.chmod hc.1 hc.2
  | symlink origin target =>
    simp only [Op.apply] at h
    split_ifs at h with hc
    obtain ⟨db, hdb, rfl⟩ := Option.map_eq_some_iff.mp h
    exact Step.symlink hc.1 hc.2 hdb
  | remove p => simp [Op.apply] at h

/-- A sequence of operations from a state. -/
def runOps (s : State) (ops : List Op) : Option State := ops.foldlM Op.apply s

/-- Reachable from the empty file system by steps that satisfy `P`. -/
def Reachable (P : State → Op → Prop) (s : State) : Prop :=
  Relation.ReflTransGen (fun s s' => ∃ op, P s op ∧ Step s op s') State.init s

/-- What holds initially and is kept by every step holds in every reachable state. -/
theorem Reachable.induction {P : State → Op → Prop} (Inv : State → Prop) (hinit : Inv State.init)
    (hstep : ∀ s op s', Reachable P s → Inv s → P s op → Step s op s' → Inv s') {s : State}
    (h : Reachable P s) : Inv s := by
  induction h with
  | refl => exact hinit
  | tail hr hs ih =>
    obtain ⟨op, hp, hst⟩ := hs
    exact hstep _ op _ hr ih hp hst

theorem Reachable.init {P : State → Op → Prop} : Reachable P State.init := Relation.ReflTransGen.refl

theorem Reachable.step {P : State → Op → Prop} {s s' : State} {op : Op} (h : Reachable P s)
    (hp : P s op) (hs : Step s op s') : Reachable P s' :=
  Relation.ReflTransGen.tail h ⟨op, hp, hs⟩

/-- Running operations that all satisfy `P` stays in the reachable states. -/
theorem Reachable.runOps {P : State → Op → Prop} {s s' : State} {ops : List Op}
    (h : Reachable P s) (hP : ∀ op ∈ ops, ∀ s, P s op) (hr : runOps s ops = some s') :
    Reachable P s' := by
  induction ops generalizing s with
  | nil =>
    obtain rfl : s = s' := by simpa [PathMap.runOps] using hr
    exact h
  | cons op ops ih =>
    rw [PathMap.runOps, List.foldlM_cons] at hr
    obtain ⟨s1, hs1, hr⟩ := Option.bind_eq_some_iff.mp hr
    exact ih (h.step (hP op List.mem_cons_self s) (Op.apply_step hs1))
      (fun x hx => hP x (List.mem_cons_of_mem op hx)) hr

end HFlat.PathMap
