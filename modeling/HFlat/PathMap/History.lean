/-
  Which histories can be replayed. `addDirectoryMove` asserts that the mapping of its origin is a
  move or reuse entry, `addSoftLink` that it is a reuse entry; the entry is in the log by then, so
  that every client which replays the log fails.

  A `Mark` says what the operations so far have left at a name. Marks are a function of the history
  alone. They stay behind when a directory above the name is moved, and decide both assertions: a
  history can be executed and replayed iff every directory move and every symbolic link meets the
  mark of its name (`history_replays_iff`).
-/
import HFlat.Database.Replay
import HFlat.PathMap.Updates

namespace HFlat.PathMap.History

open HFlat.Lib

/-! ## Operations -/

/-- An existing target of a rename is removed first, which is an operation of its own; so are the
    `hflat_create` and `hflat_unlink` at the end of `hflat_unlink`. -/
inductive Op where
  /-- mkdir and create -/
  | create (p : Str) (k : Kind)
  /-- chmod and chown; `noted` if the restrictions of a directory change -/
  | chmod (p : Str) (noted : Bool)
  | symlink (origin target : Str)
  /-- rename of a directory -/
  | move (o d : Str)
  /-- rename of a symbolic link for which `hflat_readlink` yields `target` -/
  | moveLink (o d target : Str)
  /-- unlink and rmdir -/
  | remove (p : Str)

/-- The operation is one that the handlers carry out in a tree. -/
def Op.Valid (t : Tree) : Op → Prop
  | .create p k => k ≠ .symlink ∧ t.Free p
  | .chmod p noted => t p ≠ none ∧ (noted = true → t.IsDir p)
  | .symlink origin _ => t.Free origin
  | .move o d => t.ValidMove o d
  | .moveLink o d _ => (t o).map Node.kind = some .symlink ∧ t.Free d
  | .remove p => t p ≠ none ∧ p ≠ root ∧ ∀ q, Under p q → q ≠ p → t q = none

/-- The tree after an operation. -/
def Op.tree (t : Tree) : Op → Tree
  | .create p k => t.create p k
  | .chmod _ _ => t
  | .symlink origin _ => t.create origin .symlink
  | .move o d => t.move o d
  | .moveLink o d _ => (t.remove o).create d .symlink
  | .remove p => t.remove p

/-- Every operation is valid when it is executed. -/
def Valid : Tree → List Op → Prop
  | _, [] => True
  | t, op :: ops => op.Valid t ∧ Valid (op.tree t) ops

/-- The entries that an operation adds to the log. -/
def Op.entries (db : PathMapDB) : Op → List DbEntry
  | .create _ _ => []
  | .chmod p noted => if noted then [⟨.NONE, p, []⟩] else []
  | .symlink origin target => [⟨.SYMLINK, origin, target⟩]
  | .move o d => [⟨.MOVE, o, d⟩]
  | .moveLink o d target => [⟨.REMOVED, o, []⟩, ⟨.SYMLINK, d, target⟩]
  | .remove p => if hasMapping db p then [⟨.REMOVED, p, []⟩] else []

/-- The log that the operations write and the snapshot of the client that executes them; `none` if
    an assertion fails. -/
def execute : PathMapDB → List Op → Option (List DbEntry × PathMapDB)
  | db, [] => some ([], db)
  | db, op :: ops => do
      let db1 ← (op.entries db).foldlM applyEntry db
      let (log, db2) ← execute db1 ops
      return (op.entries db ++ log, db2)

/-! ## Marks -/

/-- What the operations have left at a name: nothing; a permission change that was made when
    nothing had been left; a symbolic link; the departure of a directory; or the arrival of a
    directory whose first name was `source`, `none` for a name that had been left before. -/
inductive Mark where
  | clear
  | changed
  | linked
  | left
  | arrived (source : Option Str)
  deriving DecidableEq, Repr

/-- The mark of each path. -/
abbrev Marks := Str → Mark

/-- A permission change of a path. -/
def Marks.change (m : Marks) (p : Str) : Marks := if m p = .clear then Function.update m p .changed else m

/-- A symbolic link at a path. -/
def Marks.link (m : Marks) (p : Str) : Marks := if m p = .clear then Function.update m p .linked else m

/-- A move from one path to another. -/
def Marks.move (m : Marks) (o d : Str) : Marks :=
  match m o with
  | .clear => Function.update (Function.update m d (.arrived (some o))) o .left
  | .left => Function.update (Function.update m d (.arrived none)) o .left
  | .arrived source =>
      -- back to its first name
      if source = some d then Function.update (Function.update m d .clear) o .clear
      else Function.update (Function.update m d (.arrived source)) o .clear
  | _ => m

/-- The marks after an operation. -/
def Op.marks (m : Marks) : Op → Marks
  | .create _ _ => m
  | .chmod p noted => if noted then m.change p else m
  | .symlink origin _ => m.link origin
  | .move o d => m.move o d
  | .moveLink o d _ => Marks.link (Function.update m o .clear) d
  | .remove p => Function.update m p .clear

/-- A link can be made at the name. -/
def Mark.TakesLink (mark : Mark) : Prop := mark = .clear ∨ mark = .left

/-- A directory with the name can be moved. -/
def Mark.TakesMove (mark : Mark) : Prop := mark ≠ .changed ∧ mark ≠ .linked

instance (mark : Mark) : Decidable mark.TakesLink := inferInstanceAs (Decidable (_ ∨ _))
instance (mark : Mark) : Decidable mark.TakesMove := inferInstanceAs (Decidable (_ ∧ _))

/-- The marks allow the operation. -/
def Op.Meets (m : Marks) : Op → Prop
  | .symlink origin _ => (m origin).TakesLink
  | .move o _ => (m o).TakesMove
  | .moveLink _ d _ => (m d).TakesLink
  | _ => True

/-- Every operation meets the marks that the operations before it have left. -/
def Meets : Marks → List Op → Prop
  | _, [] => True
  | m, op :: ops => op.Meets m ∧ Meets (op.marks m) ops

instance (m : Marks) (op : Op) : Decidable (op.Meets m) :=
  match op with
  | .symlink origin _ => inferInstanceAs (Decidable (m origin).TakesLink)
  | .move o _ => inferInstanceAs (Decidable (m o).TakesMove)
  | .moveLink _ d _ => inferInstanceAs (Decidable (m d).TakesLink)
  | .create _ _ => isTrue trivial
  | .chmod _ _ => isTrue trivial
  | .remove _ => isTrue trivial

instance decidableMeets : (m : Marks) → (ops : List Op) → Decidable (Meets m ops)
  | _, [] => isTrue trivial
  | m, op :: ops =>
      have := decidableMeets (op.marks m) ops
      inferInstanceAs (Decidable (op.Meets m ∧ Meets (op.marks m) ops))

/-! ## Marks and snapshot -/

/-- The path begins with `/`. -/
def Absolute (p : Str) : Prop := ∃ r, p = '/' :: r

theorem not_absolute_reuseName (n : Nat) : ¬ Absolute (reuseName n) := by
  rintro ⟨r, hr⟩
  exact absurd (List.cons.inj hr).1 (by decide)

/-- The entry that a mark stands for. -/
def Recorded (e : Option PMEntry) : Mark → Prop
  | .clear => e = none
  | .changed => ∃ x, e = some x ∧ x.type = .NONE
  | .linked => ∃ x, e = some x ∧ x.type = .SYMLINK
  | .left => ∃ x, e = some x ∧ x.type = .REUSE ∧ ¬ Absolute x.target
  | .arrived source => ∃ x, e = some x ∧ x.type = .MOVE ∧
      ∀ d, Absolute d → (x.target = d ↔ source = some d)

/-- The snapshot holds what the marks say, at all user paths. -/
def Agree (db : PathMapDB) (m : Marks) : Prop := ∀ k, Absolute k → Recorded (db.snapshot.find k) (m k)

theorem agree_empty : Agree PathMapDB.empty fun _ => .clear := fun k _ => find_empty k

section Entries

variable {db db' : PathMapDB} {m : Marks} {p o d : Str}

/-- A change at one name. -/
theorem Agree.update {e : Option PMEntry} {mark : Mark} (h : Agree db m)
    (hfind : ∀ k, Absolute k → db'.snapshot.find k = if k = p then e else db.snapshot.find k)
    (he : Recorded e mark) : Agree db' (Function.update m p mark) := by
  intro k hk
  rw [hfind k hk]
  by_cases hkp : k = p
  · rw [if_pos hkp, hkp, Function.update_self]
    exact he
  · rw [if_neg hkp, Function.update_of_ne hkp]
    exact h k hk

theorem agree_addUnlink (hp : iointercept p = p) (h : Agree db m) :
    Agree (addUnlink db p) (Function.update m p .clear) := by
  refine h.update (fun k _ => ?_) rfl
  rw [addUnlink_find, hp]

/-- Of an entry that a mark stands for, the time stamp does not matter. -/
theorem Recorded.stamp {e : Option PMEntry} {mark : Mark} (h : Recorded e mark) (hmark : mark ≠ .clear)
    (version : Nat) : ∃ x, e = some x ∧ Recorded (some ⟨x.type, x.target, version⟩) mark := by
  cases mark with
  | clear => exact absurd rfl hmark
  | changed =>
    obtain ⟨x, hx, ht⟩ := h
    exact ⟨x, hx, _, rfl, ht⟩
  | linked =>
    obtain ⟨x, hx, ht⟩ := h
    exact ⟨x, hx, _, rfl, ht⟩
  | left =>
    obtain ⟨x, hx, ht⟩ := h
    exact ⟨x, hx, _, rfl, ht⟩
  | arrived source =>
    obtain ⟨x, hx, ht⟩ := h
    exact ⟨x, hx, _, rfl, ht⟩

theorem hasMapping_iff (hp : UserPath p) (h : Agree db m) : hasMapping db p = true ↔ m p ≠ .clear := by
  have hrec := h p hp.absolute
  unfold hasMapping
  rw [hp.iointercept]
  by_cases hm : m p = .clear
  · rw [hm] at hrec
    rw [show db.snapshot.find p = none from hrec, hm]
    simp
  · obtain ⟨x, hx, -⟩ := hrec.stamp hm 0
    rw [hx]
    simp [hm]

theorem agree_addPermissionChange (hp : UserPath p) (h : Agree db m) :
    Agree (addPermissionChange db p) (m.change p) := by
  have hfind : ∀ k, Absolute k → (addPermissionChange db p).snapshot.find k = if k = p then
      some (((db.snapshot.find p).map fun e =>
        ⟨e.type, e.target, db.snapshotVersion + 1⟩).getD ⟨.NONE, [], db.snapshotVersion + 1⟩)
      else db.snapshot.find k := fun k _ => addPermissionChange_find db hp.iointercept k
  have hrec := h p hp.absolute
  unfold Marks.change
  by_cases hm : m p = .clear
  · rw [hm] at hrec
    rw [if_pos hm]
    refine h.update hfind ?_
    rw [show db.snapshot.find p = none from hrec]
    exact ⟨_, rfl, rfl⟩
  · obtain ⟨x, hx, hstamp⟩ := hrec.stamp hm (db.snapshotVersion + 1)
    rw [if_neg hm, ← Function.update_eq_self p m]
    refine h.update hfind ?_
    rw [hx]
    exact hstamp

/-- A link is stored at a name without mark; at a name that a directory has left it is stored
    under the reuse name, which is no user path. -/
theorem addSoftLink_iff (hp : UserPath p) (h : Agree db m) (target : Str) :
    ((addSoftLink db p target).isSome ↔ (m p).TakesLink) ∧
      ∀ db', addSoftLink db p target = some db' → Agree db' (m.link p) := by
  have hrec := h p hp.absolute
  unfold addSoftLink
  dsimp only
  rw [hp.iointercept]
  cases hm : m p with
  | clear =>
    rw [hm] at hrec
    rw [show db.snapshot.find p = none from hrec]
    refine ⟨⟨fun _ => Or.inl rfl, fun _ => rfl⟩, fun db' hdb => ?_⟩
    cases hdb
    unfold Marks.link
    rw [if_pos hm]
    exact h.update (fun k _ => find_insert _ _ _ _) ⟨_, rfl, rfl⟩
  | left =>
    rw [hm] at hrec
    obtain ⟨x, hx, ht, htarget⟩ := hrec
    rw [hx]
    dsimp only
    rw [if_pos ht]
    refine ⟨⟨fun _ => Or.inr rfl, fun _ => rfl⟩, fun db' hdb => ?_⟩
    cases hdb
    unfold Marks.link
    rw [if_neg (by rw [hm]; decide)]
    intro k hk
    rw [find_insert, if_neg]
    · exact h k hk
    · rintro rfl
      exact htarget hk
  | changed =>
    rw [hm] at hrec
    obtain ⟨x, hx, ht⟩ := hrec
    rw [hx]
    simp [ht, Mark.TakesLink]
  | linked =>
    rw [hm] at hrec
    obtain ⟨x, hx, ht⟩ := hrec
    rw [hx]
    simp [ht, Mark.TakesLink]
  | arrived source =>
    rw [hm] at hrec
    obtain ⟨x, hx, ht, -⟩ := hrec
    rw [hx]
    simp [ht, Mark.TakesLink]

/-- What a move leaves at the two names. -/
theorem Agree.move {t : Str} {ts : Nat} {left : Option PMEntry} {source : Option Str} {mark : Mark}
    (h : Agree db m) (hne : o ≠ d) (htd : t ≠ d)
    (hfind : ∀ k, db'.snapshot.find k = movedFind db.snapshot o d t ts left k)
    (hsource : ∀ d, Absolute d → (t = d ↔ source = some d)) (hleft : Recorded left mark) :
    Agree db' (Function.update (Function.update m d (.arrived source)) o mark) := by
  intro k hk
  rw [hfind, movedFind, if_neg htd]
  by_cases hkd : k = d
  · rw [if_pos hkd, hkd, Function.update_of_ne (Ne.symm hne), Function.update_self]
    exact ⟨_, rfl, rfl, hsource⟩
  · rw [if_neg hkd]
    by_cases hko : k = o
    · rw [if_pos hko, hko, Function.update_self]
      exact hleft
    · rw [if_neg hko, Function.update_of_ne hko, Function.update_of_ne hkd]
      exact h k hk

/-- The mark of a name is read off its entry. -/
theorem Recorded.of_none {mark : Mark} (h : Recorded none mark) : mark = .clear := by
  by_contra hmark
  obtain ⟨x, hx, -⟩ := h.stamp hmark 0
  cases hx

theorem Recorded.of_reuse {e : PMEntry} {mark : Mark} (h : Recorded (some e) mark) (he : e.type = .REUSE) :
    mark = .left ∧ ¬ Absolute e.target := by
  cases mark with
  | clear => cases h
  | left =>
    obtain ⟨x, hx, -, ht⟩ := h
    cases hx
    exact ⟨rfl, ht⟩
  | changed =>
    obtain ⟨x, hx, ht⟩ := h
    cases hx
    rw [he] at ht
    cases ht
  | linked =>
    obtain ⟨x, hx, ht⟩ := h
    cases hx
    rw [he] at ht
    cases ht
  | arrived source =>
    obtain ⟨x, hx, ht, -⟩ := h
    cases hx
    rw [he] at ht
    cases ht

theorem Recorded.of_move {e : PMEntry} {mark : Mark} (h : Recorded (some e) mark) (he : e.type = .MOVE) :
    ∃ source, mark = .arrived source ∧ ∀ d, Absolute d → (e.target = d ↔ source = some d) := by
  cases mark with
  | clear => cases h
  | arrived source =>
    obtain ⟨x, hx, -, ht⟩ := h
    cases hx
    exact ⟨source, rfl, ht⟩
  | changed =>
    obtain ⟨x, hx, ht⟩ := h
    cases hx
    rw [he] at ht
    cases ht
  | linked =>
    obtain ⟨x, hx, ht⟩ := h
    cases hx
    rw [he] at ht
    cases ht
  | left =>
    obtain ⟨x, hx, ht, -⟩ := h
    cases hx
    rw [he] at ht
    cases ht

theorem addDirectoryMove_agree (ho : UserPath o) (hd : UserPath d) (hne : o ≠ d) (h : Agree db m)
    (hdb : addDirectoryMove db o d = some db') : Agree db' (m.move o d) := by
  obtain ⟨-, t, ts, left, hmoved, hfind⟩ := addDirectoryMove_find ho.iointercept hd.iointercept hne hdb
  have hrec := h o ho.absolute
  unfold Marks.move
  cases hmoved with
  | first hnone =>
    rw [hnone] at hrec
    rw [hrec.of_none]
    exact h.move hne hne hfind (fun d _ => ⟨congrArg some, Option.some.inj⟩)
      ⟨_, rfl, rfl, not_absolute_reuseName _⟩
  | @reused e he ht =>
    rw [he] at hrec
    obtain ⟨hmark, htarget⟩ := hrec.of_reuse ht
    have hnot : ∀ d, Absolute d → e.target ≠ d := fun d hd hc => htarget (hc ▸ hd)
    rw [hmark]
    exact h.move hne (hnot d hd.absolute) hfind
      (fun d hd => ⟨fun hc => absurd hc (hnot d hd), fun hc => by cases hc⟩)
      ⟨_, rfl, rfl, not_absolute_reuseName _⟩
  | @again e he ht =>
    rw [he] at hrec
    obtain ⟨source, hmark, htarget⟩ := hrec.of_move ht
    rw [hmark]
    dsimp only
    split
    · rename_i hsource
      have htd : e.target = d := (htarget d hd.absolute).mpr hsource
      intro k hk
      rw [hfind, movedFind, if_pos htd]
      by_cases hkd : k = d
      · rw [if_pos (Or.inr hkd), hkd, Function.update_of_ne (Ne.symm hne), Function.update_self]
        rfl
      · by_cases hko : k = o
        · rw [if_pos (Or.inl hko), hko, Function.update_self]
          rfl
        · rw [if_neg (by simp [hko, hkd]), Function.update_of_ne hko, Function.update_of_ne hkd]
          exact h k hk
    · rename_i hsource
      exact h.move hne (fun hc => hsource ((htarget d hd.absolute).mp hc)) hfind htarget rfl

theorem addDirectoryMove_iff (ho : UserPath o) (h : Agree db m) :
    (addDirectoryMove db o d).isSome ↔ (m o).TakesMove := by
  have hrec := h o ho.absolute
  have hmapping : (addDirectoryMove db o d).isSome ↔
      (moveMapping db.snapshot (db.snapshotVersion + 1) o (iointercept d)).isSome := by
    unfold addDirectoryMove
    dsimp only
    rw [ho.iointercept]
    split
    · rename_i hnone
      rw [hnone]
      exact ⟨fun hc => (by cases hc), fun hc => (by cases hc)⟩
    · rename_i hsome
      rw [hsome]
      split
      · simp
      · simp
  rw [hmapping]
  unfold moveMapping
  cases hm : m o with
  | clear =>
    rw [hm] at hrec
    rw [show db.snapshot.find o = none from hrec]
    simp [Mark.TakesMove]
  | changed =>
    rw [hm] at hrec
    obtain ⟨x, hx, ht⟩ := hrec
    simp [hx, ht, Mark.TakesMove]
  | linked =>
    rw [hm] at hrec
    obtain ⟨x, hx, ht⟩ := hrec
    simp [hx, ht, Mark.TakesMove]
  | left =>
    rw [hm] at hrec
    obtain ⟨x, hx, ht, -⟩ := hrec
    simp [hx, ht, Mark.TakesMove]
  | arrived source =>
    rw [hm] at hrec
    obtain ⟨x, hx, ht, -⟩ := hrec
    simp [hx, ht, Mark.TakesMove]

end Entries

/-! ## Operations and histories -/

theorem moveLink_free {t : Tree} {o d : Str} (ho : (t o).map Node.kind = some .symlink) (hd : t.Free d) :
    (t.remove o).Free d := by
  have hne : d ≠ o := by
    rintro rfl
    rw [hd.absent] at ho
    cases ho
  have hparent : parentPath d ≠ o := by
    intro he
    have hdir : (t (parentPath d)).map Node.kind = some .dir := hd.parent
    rw [he, ho] at hdir
    cases hdir
  refine ⟨hd.path, hd.fits, hd.named, ?_, ?_⟩
  · unfold Tree.remove
    rw [if_neg hne]
    exact hd.absent
  · unfold Tree.IsDir Tree.remove
    rw [if_neg hparent]
    exact hd.parent

/-- A symbolic link has nothing below it. -/
theorem below_link {t : Tree} (ht : t.Closed) {o q : Str}
    (ho : (t o).map Node.kind = some .symlink) (hq : Under o q) (hne : q ≠ o) : t q = none := by
  by_contra hc
  have hsome : t o ≠ none := by
    intro hn
    rw [hn] at ho
    cases ho
  have hdir : (t o).map Node.kind = some .dir := ht.above q o hc hq (Ne.symm hne) (ht.path o hsome).ne_nil
  rw [ho] at hdir
  cases hdir

theorem Op.tree_closed {t : Tree} {op : Op} (ht : t.Closed) (hop : op.Valid t) : (op.tree t).Closed := by
  cases op with
  | create p k => exact t.create_closed ht hop.2
  | chmod p noted => exact ht
  | symlink origin target => exact t.create_closed ht hop
  | move o d => exact t.move_closed ht hop
  | moveLink o d target =>
    obtain ⟨ho, hd⟩ := hop
    have hroot : o ≠ root := by
      rintro rfl
      have hdir : (t root).map Node.kind = some .dir := ht.root
      rw [ho] at hdir
      cases hdir
    exact Tree.create_closed (t.remove_closed ht hroot fun q hq hne => below_link ht ho hq hne)
      (moveLink_free ho hd)
  | remove p => exact t.remove_closed ht hop.2.1 hop.2.2

theorem foldlM_single (db : PathMapDB) (entry : DbEntry) : [entry].foldlM applyEntry db = applyEntry db entry := by
  rw [List.foldlM_cons]
  exact Option.bind_fun_some (applyEntry db entry)

/-- The entries of a valid operation can be applied iff it meets the marks, and leave those of the
    operation. -/
theorem Op.entries_iff {t : Tree} {op : Op} {db : PathMapDB} {m : Marks} (ht : t.Closed) (hop : op.Valid t)
    (h : Agree db m) : (((op.entries db).foldlM applyEntry db).isSome ↔ op.Meets m) ∧
      ∀ db', (op.entries db).foldlM applyEntry db = some db' → Agree db' (op.marks m) := by
  cases op with
  | create p k =>
    refine ⟨⟨fun _ => trivial, fun _ => rfl⟩, fun db' hdb => ?_⟩
    cases hdb
    exact h
  | chmod p noted =>
    have hp : UserPath p := ht.path p hop.1
    cases noted with
    | false =>
      refine ⟨⟨fun _ => trivial, fun _ => rfl⟩, fun db' hdb => ?_⟩
      cases hdb
      exact h
    | true =>
      refine ⟨⟨fun _ => trivial, fun _ => rfl⟩, fun db' hdb => ?_⟩
      cases hdb
      exact agree_addPermissionChange hp h
  | symlink origin target =>
    have hentries : ((Op.symlink origin target).entries db).foldlM applyEntry db =
      addSoftLink db origin target := foldlM_single db ⟨.SYMLINK, origin, target⟩
    rw [hentries]
    exact addSoftLink_iff hop.path h target
  | move o d =>
    have ho : UserPath o := ht.path o hop.origin.ne_none
    have hentries : ((Op.move o d).entries db).foldlM applyEntry db = addDirectoryMove db o d :=
      foldlM_single db ⟨.MOVE, o, d⟩
    rw [hentries]
    exact ⟨addDirectoryMove_iff ho h, fun db' hdb => addDirectoryMove_agree ho hop.free.path hop.ne h hdb⟩
  | moveLink o d target =>
    obtain ⟨hlink, hd⟩ := hop
    have hsome : t o ≠ none := by
      intro hn
      rw [hn] at hlink
      cases hlink
    have hne : d ≠ o := by
      rintro rfl
      exact hsome hd.absent
    have hentries : ((Op.moveLink o d target).entries db).foldlM applyEntry db =
      addSoftLink (addUnlink db o) d target := foldlM_single (addUnlink db o) ⟨.SYMLINK, d, target⟩
    have hunlink := agree_addUnlink (ht.path o hsome).iointercept h
    have hsoft := addSoftLink_iff hd.path hunlink target
    rw [Function.update_of_ne hne] at hsoft
    rw [hentries]
    exact hsoft
  | remove p =>
    have hp : UserPath p := ht.path p hop.1
    by_cases hm : m p = .clear
    · have hmapping : ¬ hasMapping db p = true := fun hc => (hasMapping_iff hp h).mp hc hm
      have hentries : ((Op.remove p).entries db).foldlM applyEntry db = some db := by
        show List.foldlM applyEntry db (if hasMapping db p then _ else []) = some db
        rw [if_neg hmapping]
        rfl
      rw [hentries]
      refine ⟨⟨fun _ => trivial, fun _ => rfl⟩, fun db' hdb => ?_⟩
      cases hdb
      show Agree db (Function.update m p .clear)
      rw [← hm, Function.update_eq_self]
      exact h
    · have hmapping : hasMapping db p = true := (hasMapping_iff hp h).mpr hm
      have hentries : ((Op.remove p).entries db).foldlM applyEntry db = some (addUnlink db p) := by
        show List.foldlM applyEntry db (if hasMapping db p then [⟨.REMOVED, p, []⟩] else []) = _
        rw [if_pos hmapping]
        rfl
      rw [hentries]
      refine ⟨⟨fun _ => trivial, fun _ => rfl⟩, fun db' hdb => ?_⟩
      cases hdb
      exact agree_addUnlink hp.iointercept h

theorem execute_iff {t : Tree} {ops : List Op} {db : PathMapDB} {m : Marks} (ht : t.Closed)
    (hops : Valid t ops) (h : Agree db m) : (execute db ops).isSome ↔ Meets m ops := by
  induction ops generalizing t db m with
  | nil => exact ⟨fun _ => trivial, fun _ => rfl⟩
  | cons op ops ih =>
    obtain ⟨hiff, hagree⟩ := op.entries_iff ht hops.1 h
    unfold execute Meets
    cases hdb : (op.entries db).foldlM applyEntry db with
    | none =>
      rw [hdb] at hiff
      refine ⟨fun hc => (by cases hc), fun hc => ?_⟩
      exact absurd (hiff.mpr hc.1) (by simp)
    | some db1 =>
      rw [hdb] at hiff
      have hrest := ih (op.tree_closed ht hops.1) hops.2 (hagree db1 hdb)
      have hmeets : op.Meets m := hiff.mp rfl
      rw [Option.bind_eq_bind, Option.bind_some, ← hrest]
      cases execute db1 ops with
      | none => simp
      | some result => simp [hmeets]

/-- The log that was written is replayed to the same snapshot. -/
theorem replay_execute {ops : List Op} {db db' : PathMapDB} {log : List DbEntry}
    (h : execute db ops = some (log, db')) : log.foldlM applyEntry db = some db' := by
  induction ops generalizing db log with
  | nil =>
    cases h
    rfl
  | cons op ops ih =>
    unfold execute at h
    obtain ⟨db1, h1, h⟩ := Option.bind_eq_some_iff.mp h
    obtain ⟨⟨log1, db2⟩, h2, h⟩ := Option.bind_eq_some_iff.mp h
    cases h
    rw [List.foldlM_append, h1]
    exact ih h2

/-- A valid history can be executed, and its log replayed from the empty snapshot, iff every
    operation meets the marks that the operations before it have left. -/
theorem history_replays_iff {ops : List Op} (hops : Valid Tree.init ops) :
    (∃ log db, execute PathMapDB.empty ops = some (log, db) ∧ replay log = some db) ↔
      Meets (fun _ => .clear) ops := by
  rw [← execute_iff Tree.init_closed hops agree_empty, Option.isSome_iff_exists]
  constructor
  · rintro ⟨log, db, h, -⟩
    exact ⟨_, h⟩
  · rintro ⟨⟨log, db⟩, h⟩
    exact ⟨log, db, h, replay_execute h⟩

/-- A directory is moved, its permissions are changed under the new name, and it is moved again; a
    link takes the name that it has left first. -/
def moveChangeMove : List Op :=
  [.create (lit "/a") .dir, .move (lit "/a") (lit "/b"), .chmod (lit "/b") true,
    .move (lit "/b") (lit "/c"), .symlink (lit "/a") (lit "/c")]

theorem history_replays_iff_move_change_move :
    Valid Tree.init moveChangeMove ∧ ∃ log db, execute PathMapDB.empty moveChangeMove = some (log, db) ∧
      replay log = some db := by
  have hvalid : Valid Tree.init moveChangeMove :=
    ⟨⟨by decide, show Tree.init.Free (lit "/a") by decide⟩,
      show (Tree.init.create (lit "/a") .dir).ValidMove (lit "/a") (lit "/b") by decide,
      ⟨by decide, fun _ => by decide⟩,
      show ((Tree.init.create (lit "/a") .dir).move (lit "/a") (lit "/b")).ValidMove (lit "/b") (lit "/c")
        by decide,
      show (((Tree.init.create (lit "/a") .dir).move (lit "/a") (lit "/b")).move (lit "/b") (lit "/c")).Free
        (lit "/a") by decide, trivial⟩
  exact ⟨hvalid, (history_replays_iff hvalid).mpr (by decide)⟩

/-- The permissions of a directory are changed under its first name, and then it is moved. -/
def changeMove : List Op :=
  [.create (lit "/a") .dir, .chmod (lit "/a") true, .move (lit "/a") (lit "/b")]

theorem history_fails_change_move :
    ¬ ∀ ops, Valid Tree.init ops →
      ∃ log db, execute PathMapDB.empty ops = some (log, db) ∧ replay log = some db := by
  intro h
  have hvalid : Valid Tree.init changeMove :=
    ⟨⟨by decide, show Tree.init.Free (lit "/a") by decide⟩, ⟨by decide, fun _ => by decide⟩,
      show (Tree.init.create (lit "/a") .dir).ValidMove (lit "/a") (lit "/b") by decide, trivial⟩
  obtain ⟨log, db, hexecute, -⟩ := h changeMove hvalid
  have hnone : (execute PathMapDB.empty changeMove).isNone = true := by decide
  rw [hexecute] at hnone
  cases hnone

end HFlat.PathMap.History
