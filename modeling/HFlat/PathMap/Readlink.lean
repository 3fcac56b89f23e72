/-
  What `hflat_readlink` (`fuseops/link.cc`) yields for a link that `hflat_symlink` has made, in the
  histories of `History.lean`.

  The mapping of a link stays where `addSoftLink` has stored it: at the name of the link, or at the
  reuse name that replaces it (`Stored`). `hflat_readlink` does not stop there: the loop of
  `toSystemPath` goes on with the target. So the target comes back as it was given if it has no `:`
  and no mapping applies to it (`Kept`), and this is also what a rename of the link relies on.
-/
import HFlat.PathMap.History
import HFlat.PathMap.Moves

namespace HFlat.PathMap.History

open HFlat.Lib

/-! ## Reading a link -/

/-- `hflat_readlink` with a buffer of `size` bytes, for at most `fuel` rounds of the loop. -/
def hflatReadlink (db : PathMapDB) (fuel : Nat) (userPath : Str) (size : Nat) : Option Str :=
  (toSystemPath db fuel userPath .READLINK).map fun (linkDestination, _) =>
    if linkDestination.length ≥ size then linkDestination.take (size - 1) else linkDestination

/-- `hflat_readlink` returns with `buffer`. -/
def Reads (db : PathMapDB) (userPath : Str) (size : Nat) (buffer : Str) : Prop :=
  ∃ fuel, hflatReadlink db fuel userPath size = some buffer

/-- `iointercept` leaves the target of a link as it is, and no mapping applies to it. -/
structure Kept (db : PathMapDB) (target : Str) : Prop where
  colonFree : ':' ∉ target
  unmapped : (searchPathRecursive db.snapshot target 0 true true).1 = false

instance (db : PathMapDB) (target : Str) : Decidable (Kept db target) :=
  decidable_of_iff (':' ∉ target ∧ (searchPathRecursive db.snapshot target 0 true true).1 = false)
    ⟨fun h => ⟨h.1, h.2⟩, fun h => ⟨h.1, h.2⟩⟩

/-! ## Histories with a link -/

/-- A valid operation and its entries. A link is renamed with what `hflat_readlink` has put into a
    buffer of `PATH_MAX` bytes. -/
structure Step (s : State) (op : Op) (s' : State) : Prop where
  valid : op.Valid s.tree
  tree : s'.tree = op.tree s.tree
  db : (op.entries s.db).foldlM applyEntry s.db = some s'.db
  reads : ∀ o d target, op = .moveLink o d target → Reads s.db o PATH_MAX target

/-- A history from the empty file system on. -/
inductive Run : State → Prop
  | init : Run State.init
  | step {s s' : State} {op : Op} (h : Run s) (hop : Step s op s') : Run s'

/-- The name of a link after an operation; `none` if the link is removed or a directory above it is
    renamed. -/
def nameAfter (name : Str) : Op → Option Str
  | .remove p => if p = name then none else some name
  | .move o _ => if Under o name then none else some name
  | .moveLink o d _ => if o = name then some d else some name
  | _ => some name

/-- Operations after the link has been made, with its name before and after. `P` holds whenever the
    link itself is renamed. -/
inductive Later (P : State → Prop) : State → Str → State → Str → Prop
  | refl (s : State) (name : Str) : Later P s name s name
  | step {s s1 s2 : State} {name name1 name2 : Str} {op : Op} (h : Later P s name s1 name1)
      (hop : Step s1 op s2) (hname : nameAfter name1 op = some name2) (hP : name2 ≠ name1 → P s1) :
      Later P s name s2 name2

/-! ## Reuse names -/

/-- Every reuse name replaces one name only. -/
structure ReuseInv (db : PathMapDB) : Prop where
  issued : ∀ k e, db.snapshot.find k = some e → e.type = .REUSE →
    ∃ n ≤ db.snapshotVersion, e.target = reuseName n
  unique : ∀ k k' e e', db.snapshot.find k = some e → e.type = .REUSE → db.snapshot.find k' = some e' →
    e'.type = .REUSE → e.target = e'.target → k = k'

theorem reuseInv_empty : ReuseInv PathMapDB.empty where
  issued k e h _ := by
    rw [show PathMapDB.empty.snapshot.find k = none from find_empty k] at h
    cases h
  unique k _ e _ h _ _ _ _ := by
    rw [show PathMapDB.empty.snapshot.find k = none from find_empty k] at h
    cases h

section Entries

variable {db db' : PathMapDB} {p o d t : Str}

/-- An update that adds no reuse entry. -/
theorem ReuseInv.mono (h : ReuseInv db) (hversion : db.snapshotVersion ≤ db'.snapshotVersion)
    (hold : ∀ k e', db'.snapshot.find k = some e' → e'.type = .REUSE →
      ∃ e, db.snapshot.find k = some e ∧ e.type = .REUSE ∧ e.target = e'.target) : ReuseInv db' where
  issued k e' he' ht := by
    obtain ⟨e, he, hte, htarget⟩ := hold k e' he' ht
    obtain ⟨n, hn, hname⟩ := h.issued k e he hte
    exact ⟨n, hn.trans hversion, htarget.symm.trans hname⟩
  unique k1 k2 e1 e2 h1 ht1 h2 ht2 heq := by
    obtain ⟨e1', h1', ht1', hr1⟩ := hold k1 e1 h1 ht1
    obtain ⟨e2', h2', ht2', hr2⟩ := hold k2 e2 h2 ht2
    exact h.unique k1 k2 e1' e2' h1' ht1' h2' ht2' (by rw [hr1, heq, hr2])

theorem ReuseInv.addUnlink (h : ReuseInv db) (p : Str) : ReuseInv (addUnlink db p) := by
  apply h.mono (Nat.le_succ _)
  intro k e he ht
  rw [addUnlink_find] at he
  split at he
  · cases he
  · exact ⟨e, he, ht, rfl⟩

theorem ReuseInv.addPermissionChange (h : ReuseInv db) (hp : iointercept p = p) :
    ReuseInv (addPermissionChange db p) := by
  apply h.mono (Nat.le_succ _)
  intro k e he ht
  rw [addPermissionChange_find db hp] at he
  split at he
  · rename_i hk
    subst hk
    cases hfind : db.snapshot.find k with
    | none =>
      rw [hfind] at he
      cases he
      cases ht
    | some x =>
      rw [hfind] at he
      cases he
      exact ⟨x, rfl, ht, rfl⟩
  · exact ⟨e, he, ht, rfl⟩

theorem ReuseInv.addSoftLink (h : ReuseInv db) (hdb : addSoftLink db o t = some db') : ReuseInv db' := by
  obtain ⟨hversion, key, -, hfind⟩ := addSoftLink_find hdb
  apply h.mono (by omega)
  intro k e he ht
  rw [hfind] at he
  split at he
  · cases he
    cases ht
  · exact ⟨e, he, ht, rfl⟩

theorem reuseName_inj {n m : Nat} (h : reuseName n = reuseName m) : n = m := by
  unfold reuseName at h
  exact toStr_inj (List.append_cancel_left h)

/-- The reuse name of a move is new. -/
theorem ReuseInv.addDirectoryMove (h : ReuseInv db) (ho : iointercept o = o) (hd : iointercept d = d)
    (hne : o ≠ d) (hdb : addDirectoryMove db o d = some db') : ReuseInv db' := by
  obtain ⟨hversion, t, ts, left, hmoved, hfind⟩ := addDirectoryMove_find ho hd hne hdb
  have hcases : ∀ k e, db'.snapshot.find k = some e → e.type = .REUSE →
      (k = o ∧ e.target = reuseName (db.snapshotVersion + 1)) ∨ (k ≠ o ∧ db.snapshot.find k = some e) := by
    intro k e he ht
    rw [hfind] at he
    rcases hmoved.find_cases he with ⟨-, -, rfl⟩ | ⟨hk, rfl⟩ | ⟨hk, -, hold⟩
    · cases ht
    · exact Or.inl ⟨hk, rfl⟩
    · exact Or.inr ⟨hk, hold⟩
  have hfresh : ∀ k e, db.snapshot.find k = some e → e.type = .REUSE →
      e.target ≠ reuseName (db.snapshotVersion + 1) := by
    intro k e he ht heq
    obtain ⟨n, hn, hname⟩ := h.issued k e he ht
    have hn' := reuseName_inj (hname.symm.trans heq)
    omega
  constructor
  · intro k e he ht
    rcases hcases k e he ht with ⟨-, hname⟩ | ⟨-, hold⟩
    · exact ⟨db.snapshotVersion + 1, hversion.ge, hname⟩
    · obtain ⟨n, hn, hname⟩ := h.issued k e hold ht
      exact ⟨n, by omega, hname⟩
  · intro k k' e e' he ht he' ht' heq
    rcases hcases k e he ht with ⟨hk, hname⟩ | ⟨-, hold⟩
    · rcases hcases k' e' he' ht' with ⟨hk', -⟩ | ⟨-, hold'⟩
      · rw [hk, hk']
      · exact absurd (heq.symm.trans hname) (hfresh k' e' hold' ht')
    · rcases hcases k' e' he' ht' with ⟨-, hname'⟩ | ⟨-, hold'⟩
      · exact absurd (heq.trans hname') (hfresh k e hold ht)
      · exact h.unique k k' e e' hold ht hold' ht' heq

end Entries

/-! ## Where a link is stored -/

/-- A symbolic link with its target. -/
def LinkAt (snap : Snapshot) (key target : Str) : Prop :=
  ∃ e, snap.find key = some e ∧ e.type = .SYMLINK ∧ e.target = target

/-- A reused name with its target. -/
def ReusedAt (snap : Snapshot) (key target : Str) : Prop :=
  ∃ e, snap.find key = some e ∧ e.type = .REUSE ∧ e.target = target

/-- The mapping of the link `name`: under its name, or under the reuse name for it. -/
def Stored (snap : Snapshot) (name target : Str) : Prop :=
  LinkAt snap name target ∨ ∃ key, ReusedAt snap name key ∧ LinkAt snap key target

theorem LinkAt.mono {snap snap' : Snapshot} {key target : Str} (h : LinkAt snap key target)
    (hsame : SameMapping snap snap' key) : LinkAt snap' key target := by
  obtain ⟨e, he, ht, htarget⟩ := h
  obtain ⟨e', he', ht', htarget'⟩ := hsame e he
  exact ⟨e', he', ht'.trans ht, htarget'.trans htarget⟩

theorem ReusedAt.mono {snap snap' : Snapshot} {key target : Str} (h : ReusedAt snap key target)
    (hsame : SameMapping snap snap' key) : ReusedAt snap' key target := by
  obtain ⟨e, he, ht, htarget⟩ := h
  obtain ⟨e', he', ht', htarget'⟩ := hsame e he
  exact ⟨e', he', ht'.trans ht, htarget'.trans htarget⟩

/-- A link stays stored if the entries of its name and of the reuse name for it stay. -/
theorem Stored.mono {snap snap' : Snapshot} {name target : Str} (h : Stored snap name target)
    (hname : SameMapping snap snap' name)
    (hkey : ∀ key, ReusedAt snap name key → SameMapping snap snap' key) : Stored snap' name target := by
  rcases h with h | ⟨key, hreuse, h⟩
  · exact Or.inl (h.mono hname)
  · exact Or.inr ⟨key, hreuse.mono hname, h.mono (hkey key hreuse)⟩

section Stay

variable {db db' : PathMapDB} {name target p o d t : Str}

theorem ReuseInv.not_absolute (h : ReuseInv db) {k key : Str} (hkey : ReusedAt db.snapshot k key) :
    ¬ Absolute key := by
  obtain ⟨e, he, ht, rfl⟩ := hkey
  obtain ⟨n, -, hname⟩ := h.issued k e he ht
  rw [hname]
  exact not_absolute_reuseName n

theorem ReuseInv.ne_absolute (h : ReuseInv db) {k key : Str} (hkey : ReusedAt db.snapshot k key)
    (hp : UserPath p) : key ≠ p := fun he => h.not_absolute hkey (he ▸ hp.absolute)

theorem stored_addUnlink (hs : Stored db.snapshot name target) (hI : ReuseInv db) (hp : UserPath p)
    (hne : p ≠ name) : Stored (addUnlink db p).snapshot name target := by
  have hsame : ∀ k, k ≠ p → SameMapping db.snapshot (addUnlink db p).snapshot k := by
    intro k hk
    apply SameMapping.of_eq
    rw [addUnlink_find, hp.iointercept, if_neg hk]
  exact hs.mono (hsame name hne.symm) fun key hkey => hsame key (hI.ne_absolute hkey hp)

theorem stored_addPermissionChange (hs : Stored db.snapshot name target) (hp : UserPath p) :
    Stored (addPermissionChange db p).snapshot name target := by
  have hsame : ∀ k, SameMapping db.snapshot (addPermissionChange db p).snapshot k := by
    intro k e he
    rw [addPermissionChange_find db hp.iointercept]
    split
    · rename_i hk
      rw [← hk, he]
      exact ⟨_, rfl, rfl, rfl⟩
    · exact ⟨e, he, rfl, rfl⟩
  exact hs.mono (hsame name) fun key _ => hsame key

theorem stored_addDirectoryMove (hs : Stored db.snapshot name target) (hI : ReuseInv db) (ho : UserPath o)
    (hd : UserPath d) (hne : o ≠ d) (hno : o ≠ name) (hnd : d ≠ name)
    (hdb : addDirectoryMove db o d = some db') : Stored db'.snapshot name target := by
  obtain ⟨-, t, ts, left, -, hfind⟩ := addDirectoryMove_find ho.iointercept hd.iointercept hne hdb
  have hsame : ∀ k, k ≠ o → k ≠ d → SameMapping db.snapshot db'.snapshot k := by
    intro k hko hkd
    apply SameMapping.of_eq
    rw [hfind, movedFind]
    simp [hko, hkd]
  exact hs.mono (hsame name hno.symm hnd.symm) fun key hkey =>
    hsame key (hI.ne_absolute hkey ho) (hI.ne_absolute hkey hd)

/-- Another link is stored elsewhere. -/
theorem stored_addSoftLink_other (hs : Stored db.snapshot name target) (hI : ReuseInv db) (hname : UserPath name)
    (ho : UserPath o) (hne : o ≠ name) (hdb : addSoftLink db o t = some db') :
    Stored db'.snapshot name target := by
  obtain ⟨-, key, hkey, hfind⟩ := addSoftLink_find hdb
  rw [ho.iointercept] at hkey
  have hsame : ∀ k, k ≠ key → SameMapping db.snapshot db'.snapshot k := by
    intro k hk
    apply SameMapping.of_eq
    rw [hfind, if_neg hk]
  rcases hkey with ⟨rfl, -⟩ | ⟨e, he, ht, rfl⟩
  · exact hs.mono (hsame name hne.symm) fun key hkey => hsame key (hI.ne_absolute hkey ho)
  · refine hs.mono (hsame name ?_) fun key hkey => hsame key ?_
    · exact (hI.ne_absolute ⟨e, he, ht, rfl⟩ hname).symm
    · obtain ⟨e', he', ht', rfl⟩ := hkey
      exact fun heq => hne (hI.unique name o e' e he' ht' he ht heq).symm

/-- The new link. -/
theorem stored_addSoftLink (hI : ReuseInv db) (ho : UserPath o) (hdb : addSoftLink db o t = some db') :
    Stored db'.snapshot o (iointercept t) := by
  obtain ⟨-, key, hkey, hfind⟩ := addSoftLink_find hdb
  rw [ho.iointercept] at hkey
  have hlink : LinkAt db'.snapshot key (iointercept t) := ⟨_, by rw [hfind, if_pos rfl], rfl, rfl⟩
  rcases hkey with ⟨rfl, -⟩ | ⟨e, he, ht, rfl⟩
  · exact Or.inl hlink
  · have hne : o ≠ e.target := (hI.ne_absolute ⟨e, he, ht, rfl⟩ ho).symm
    exact Or.inr ⟨e.target, ⟨e, by rw [hfind, if_neg hne, he], ht, rfl⟩, hlink⟩

end Stay

/-! ## The invariant of a link -/

/-- The link exists under its name and is stored with what `iointercept` makes of its target. -/
structure LinkInv (s : State) (name target : Str) : Prop where
  closed : s.tree.Closed
  reuse : ReuseInv s.db
  isLink : (s.tree name).map Node.kind = some .symlink
  path : UserPath name
  fits : name.length ≤ PATH_MAX
  stored : Stored s.db.snapshot name (iointercept target)

theorem LinkInv.ne_of_free {s : State} {name target p : Str} (hI : LinkInv s name target)
    (hp : s.tree.Free p) : p ≠ name := by
  rintro rfl
  have h := hI.isLink
  rw [hp.absent] at h
  cases h

/-- What an operation does to the snapshot. -/
def Op.Updates (db : PathMapDB) : Op → PathMapDB → Prop
  | .create _ _, db' => db' = db
  | .chmod p noted, db' => db' = if noted then addPermissionChange db p else db
  | .symlink origin target, db' => addSoftLink db origin target = some db'
  | .move o d, db' => addDirectoryMove db o d = some db'
  | .moveLink o d target, db' => addSoftLink (addUnlink db o) d target = some db'
  | .remove p, db' => db' = if hasMapping db p then addUnlink db p else db

theorem Step.updates {s s' : State} {op : Op} (hop : Step s op s') : op.Updates s.db s'.db := by
  have hdb := hop.db
  cases op with
  | create p k => exact (Option.some.inj hdb).symm
  | chmod p noted =>
    cases noted with
    | false => exact (Option.some.inj hdb).symm
    | true => exact (Option.some.inj hdb).symm
  | symlink origin target => exact (foldlM_single s.db ⟨.SYMLINK, origin, target⟩).symm.trans hdb
  | move o d => exact (foldlM_single s.db ⟨.MOVE, o, d⟩).symm.trans hdb
  | moveLink o d target => exact (foldlM_single (addUnlink s.db o) ⟨.SYMLINK, d, target⟩).symm.trans hdb
  | remove p =>
    show s'.db = if hasMapping s.db p then addUnlink s.db p else s.db
    have hdb : List.foldlM applyEntry s.db (if hasMapping s.db p then [⟨.REMOVED, p, []⟩] else []) =
      some s'.db := hdb
    split
    · rename_i hmapping
      rw [if_pos hmapping] at hdb
      exact (Option.some.inj hdb).symm
    · rename_i hmapping
      rw [if_neg hmapping] at hdb
      exact (Option.some.inj hdb).symm

theorem step_closed {s s' : State} {op : Op} (ht : s.tree.Closed) (hop : Step s op s') : s'.tree.Closed := by
  rw [hop.tree]
  exact Op.tree_closed ht hop.valid

theorem step_reuseInv {s s' : State} {op : Op} (ht : s.tree.Closed) (hI : ReuseInv s.db)
    (hop : Step s op s') : ReuseInv s'.db := by
  have hdb := hop.updates
  have hvalid := hop.valid
  cases op with
  | create p k =>
    rw [show s'.db = s.db from hdb]
    exact hI
  | chmod p noted =>
    rw [show s'.db = if noted then addPermissionChange s.db p else s.db from hdb]
    split
    · exact hI.addPermissionChange (ht.path p hvalid.1).iointercept
    · exact hI
  | symlink origin target => exact hI.addSoftLink hdb
  | move o d =>
    have ho : UserPath o := ht.path o hvalid.origin.ne_none
    exact hI.addDirectoryMove ho.iointercept hvalid.free.path.iointercept hvalid.ne hdb
  | moveLink o d target => exact (hI.addUnlink o).addSoftLink hdb
  | remove p =>
    rw [show s'.db = if hasMapping s.db p then addUnlink s.db p else s.db from hdb]
    split
    · exact hI.addUnlink p
    · exact hI

theorem Run.inv {s : State} (h : Run s) : s.tree.Closed ∧ ReuseInv s.db := by
  induction h with
  | init => exact ⟨Tree.init_closed, reuseInv_empty⟩
  | step h hop ih =>
    exact ⟨step_closed ih.1 hop, step_reuseInv ih.1 ih.2 hop⟩

/-- A link that has just been made. -/
theorem linkInv_symlink {s s' : State} {origin target : Str} (ht : s.tree.Closed) (hI : ReuseInv s.db)
    (hop : Step s (.symlink origin target) s') : LinkInv s' origin target := by
  have hvalid : s.tree.Free origin := hop.valid
  have hdb : addSoftLink s.db origin target = some s'.db := hop.updates
  have htree : s'.tree = s.tree.create origin .symlink := hop.tree
  refine ⟨step_closed ht hop, step_reuseInv ht hI hop, ?_, hvalid.path, hvalid.fits,
    stored_addSoftLink hI hvalid.path hdb⟩
  rw [htree, Tree.create, if_pos rfl]
  rfl

/-! ## The loop of `toSystemPath` -/

theorem search_fst (snap : Snapshot) (fr : Bool) (p : Str) (ts ts' : Int) (fs : Bool) :
    (searchPathRecursive snap p ts fr fs).1 = (searchPathRecursive snap p ts' fr fs).1 := by
  unfold searchPathRecursive
  generalize p.length + 1 = n
  induction n generalizing p ts ts' fs with
  | zero => rfl
  | succ n ih =>
    unfold searchGo
    dsimp only
    split
    · rfl
    · split
      · rfl
      · split
        · rfl
        · exact ih _ _ _ _

theorem search_found {snap : Snapshot} {p : Str} {fr fs : Bool} (h : found snap p fr fs = true) (ts : Int) :
    searchPathRecursive snap p ts fr fs = (true, p, seen snap p ts) := by
  rw [searchPathRecursive_eq, if_pos h]

/-- The loop ends with a path to which no mapping applies. -/
theorem loop_unmapped {snap : Snapshot} {p : Str} {ts : Int} {links : Nat}
    (h : (searchPathRecursive snap p 0 true true).1 = false) :
    ∃ ts', toSystemPathLoop snap true 1 p true links ts = some (p, ts') := by
  rw [search_fst snap true p 0 ts true] at h
  unfold toSystemPathLoop
  rcases hsearch : searchPathRecursive snap p ts true true with ⟨b, q, ts'⟩
  rw [hsearch] at h
  subst h
  exact ⟨ts', rfl⟩

/-- The loop goes on with the target of a link. -/
theorem loop_link {snap : Snapshot} {key target : Str} (h : LinkAt snap key target) (fuel : Nat) (ts : Int) :
    toSystemPathLoop snap true (fuel + 1) key true 0 ts =
      toSystemPathLoop snap true fuel target true 1 (seen snap key ts) := by
  obtain ⟨e, he, ht, rfl⟩ := h
  have hfound : found snap key true true = true := by
    unfold found
    rw [he]
    simp [remaps, ht]
  rw [toSystemPathLoop, search_found hfound]
  simp [he, ht, MAXSYMLINKS]

theorem loop_reused {snap : Snapshot} {name key : Str} (h : ReusedAt snap name key) (fuel : Nat) (ts : Int) :
    toSystemPathLoop snap true (fuel + 1) name true 0 ts =
      toSystemPathLoop snap true fuel key true 0 (seen snap name ts) := by
  obtain ⟨e, he, ht, rfl⟩ := h
  have hfound : found snap name true true = true := by
    unfold found
    rw [he]
    simp [remaps, ht]
  rw [toSystemPathLoop, search_found hfound]
  simp [he, ht]

/-- A link whose target is kept is read as it was stored. -/
theorem reads_of_stored {db : PathMapDB} {name target : Str} {size : Nat} (hpath : UserPath name)
    (hfits : name.length ≤ PATH_MAX) (hstored : Stored db.snapshot name target)
    (hunmapped : (searchPathRecursive db.snapshot target 0 true true).1 = false)
    (hsize : target.length < size) : Reads db name size target := by
  have hloop : ∃ fuel ts, toSystemPathLoop db.snapshot true fuel name true 0 0 = some (target, ts) := by
    rcases hstored with h | ⟨key, hreuse, h⟩
    · obtain ⟨ts, hts⟩ := loop_unmapped hunmapped
      exact ⟨2, ts, (loop_link h 1 0).trans hts⟩
    · obtain ⟨ts, hts⟩ := loop_unmapped hunmapped
      exact ⟨3, ts, (loop_reused hreuse 2 0).trans ((loop_link h 1 _).trans hts)⟩
  obtain ⟨fuel, ts, hloop⟩ := hloop
  refine ⟨fuel, ?_⟩
  unfold hflatReadlink toSystemPath
  rw [hpath.iointercept]
  dsimp only
  rw [if_neg (by omega), show decide (CallingType.READLINK = .READLINK) = true from rfl, hloop,
    Option.map_some]
  dsimp only
  rw [if_neg (by omega)]

theorem Reads.det {db : PathMapDB} {p a b : Str} {size : Nat} (ha : Reads db p size a) (hb : Reads db p size b) :
    a = b := by
  obtain ⟨n, ha⟩ := ha
  obtain ⟨m, hb⟩ := hb
  obtain ⟨x, hx, rfl⟩ := Option.map_eq_some_iff.mp ha
  obtain ⟨y, hy, rfl⟩ := Option.map_eq_some_iff.mp hb
  rw [ToSystemPath.det ⟨n, hx⟩ ⟨m, hy⟩]

theorem LinkInv.reads {s : State} {name target : Str} {size : Nat} (hI : LinkInv s name target)
    (hkept : Kept s.db target) (hsize : target.length < size) : Reads s.db name size target := by
  have hstored := hI.stored
  rw [iointercept_of_colonFree hkept.colonFree] at hstored
  exact reads_of_stored hI.path hI.fits hstored hkept.unmapped hsize

/-! ## Histories keep the target of a link -/

/-- An operation that does not rename the link. -/
theorem LinkInv.stay {s s' : State} {name target : Str} {op : Op} (hI : LinkInv s name target)
    (hop : Step s op s') (hname : nameAfter name op = some name)
    (hother : ∀ o d t, op = .moveLink o d t → o ≠ name) : LinkInv s' name target := by
  have hdb := hop.updates
  have hvalid := hop.valid
  have htree := hop.tree
  have hnot : s.tree name ≠ none := by
    intro hnone
    have h := hI.isLink
    rw [hnone] at h
    cases h
  suffices hsuff : (s'.tree name).map Node.kind = some .symlink ∧
      Stored s'.db.snapshot name (iointercept target) from
    ⟨step_closed hI.closed hop, step_reuseInv hI.closed hI.reuse hop, hsuff.1, hI.path, hI.fits, hsuff.2⟩
  cases op with
  | create p k =>
    have hne : name ≠ p := (hI.ne_of_free hvalid.2).symm
    rw [htree, show s'.db = s.db from hdb]
    refine ⟨?_, hI.stored⟩
    show ((if name = p then some ⟨k, 0⟩ else s.tree name).map Node.kind) = some .symlink
    rw [if_neg hne]
    exact hI.isLink
  | chmod p noted =>
    rw [htree, show s'.db = if noted then addPermissionChange s.db p else s.db from hdb]
    refine ⟨hI.isLink, ?_⟩
    split
    · exact stored_addPermissionChange hI.stored (hI.closed.path p hvalid.1)
    · exact hI.stored
  | symlink origin t =>
    have hfree : s.tree.Free origin := hvalid
    have hne : origin ≠ name := hI.ne_of_free hfree
    refine ⟨?_, stored_addSoftLink_other hI.stored hI.reuse hI.path hfree.path hne hdb⟩
    rw [htree]
    show ((if name = origin then some ⟨.symlink, 0⟩ else s.tree name).map Node.kind) = some .symlink
    rw [if_neg hne.symm]
    exact hI.isLink
  | move o d =>
    have hmove : s.tree.ValidMove o d := hvalid
    have hd : d ≠ name := hI.ne_of_free hmove.free
    have hunder : ¬ Under o name := by
      intro hu
      rw [nameAfter, if_pos hu] at hname
      cases hname
    have hdunder : ¬ Under d name := hmove.free.not_under hI.closed hnot
    have ho : o ≠ name := by
      rintro rfl
      exact hunder (within_refl _)
    refine ⟨?_, stored_addDirectoryMove hI.stored hI.reuse (hI.closed.path o hmove.origin.ne_none)
      hmove.free.path hmove.ne ho hd hdb⟩
    rw [htree]
    show (s.tree.move o d name).map Node.kind = some .symlink
    rw [s.tree.move_outside hunder hdunder]
    exact hI.isLink
  | moveLink o d t =>
    obtain ⟨hlink, hfree⟩ := hvalid
    have ho : o ≠ name := hother o d t rfl
    have hd : d ≠ name := hI.ne_of_free hfree
    have hop : UserPath o := hI.closed.path o fun hnone => by
      rw [hnone] at hlink
      cases hlink
    have hunlink := stored_addUnlink hI.stored hI.reuse hop ho
    refine ⟨?_, stored_addSoftLink_other hunlink (hI.reuse.addUnlink o) hI.path hfree.path hd hdb⟩
    rw [htree]
    show ((if name = d then some ⟨.symlink, 0⟩ else if name = o then none else s.tree name).map
      Node.kind) = some .symlink
    rw [if_neg hd.symm, if_neg ho.symm]
    exact hI.isLink
  | remove p =>
    have hp : p ≠ name := by
      intro hp
      rw [nameAfter, if_pos hp] at hname
      cases hname
    rw [htree, show s'.db = if hasMapping s.db p then addUnlink s.db p else s.db from hdb]
    constructor
    · show ((if name = p then none else s.tree name).map Node.kind) = some .symlink
      rw [if_neg hp.symm]
      exact hI.isLink
    · split
      · exact stored_addUnlink hI.stored hI.reuse (hI.closed.path p hvalid.1) hp
      · exact hI.stored

/-- A rename of the link stores the same target again. -/
theorem LinkInv.rename {s s' : State} {name d target t : Str} (hI : LinkInv s name target)
    (hop : Step s (.moveLink name d t) s') (hkept : Kept s.db target) (hfits : target.length < PATH_MAX) :
    LinkInv s' d target := by
  obtain ⟨hlink, hfree⟩ := hop.valid
  have hdb : addSoftLink (addUnlink s.db name) d t = some s'.db := hop.updates
  have htree : s'.tree = (s.tree.remove name).create d .symlink := hop.tree
  have ht : t = target := (hop.reads name d t rfl).det (hI.reads hkept hfits)
  subst ht
  refine ⟨step_closed hI.closed hop, step_reuseInv hI.closed hI.reuse hop, ?_, hfree.path, hfree.fits,
    stored_addSoftLink (hI.reuse.addUnlink name) hfree.path hdb⟩
  rw [htree, Tree.create, if_pos rfl]
  rfl

theorem nameAfter_eq {name name' : Str} {op : Op} (h : nameAfter name op = some name')
    (hother : ∀ o d t, op = .moveLink o d t → o ≠ name) : name' = name := by
  cases op with
  | create p k => exact (Option.some.inj h).symm
  | chmod p noted => exact (Option.some.inj h).symm
  | symlink origin t => exact (Option.some.inj h).symm
  | move o d =>
    rw [nameAfter] at h
    split at h
    · cases h
    · exact (Option.some.inj h).symm
  | moveLink o d t =>
    rw [nameAfter, if_neg (hother o d t rfl)] at h
    exact (Option.some.inj h).symm
  | remove p =>
    rw [nameAfter] at h
    split at h
    · cases h
    · exact (Option.some.inj h).symm

theorem LinkInv.later {s s' : State} {name name' target : Str} (hI : LinkInv s name target)
    (h : Later (fun s => Kept s.db target ∧ target.length < PATH_MAX) s name s' name') :
    LinkInv s' name' target := by
  induction h with
  | refl => exact hI
  | @step s1 s2 name name1 name2 op h hop hname hP ih =>
    have hI1 := ih hI
    by_cases hrename : ∃ d t, op = .moveLink name1 d t
    · obtain ⟨d, t, rfl⟩ := hrename
      rw [nameAfter, if_pos rfl] at hname
      have hd : d = name2 := Option.some.inj hname
      subst hd
      obtain ⟨hkept, hfits⟩ := hP (hI1.ne_of_free hop.valid.2)
      exact hI1.rename hop hkept hfits
    · have hother : ∀ o d t, op = .moveLink o d t → o ≠ name1 := by
        rintro o d t rfl rfl
        exact hrename ⟨d, t, rfl⟩
      have heq := nameAfter_eq hname hother
      rw [heq] at hname ⊢
      exact hI1.stay hop hname hother

/-- `hflat_readlink` yields the target that `hflat_symlink` was given, also after renames of the
    link, if the target is kept then and whenever the link was renamed. -/
theorem readlink_yields_target {s s1 s2 : State} {origin target name : Str} {size : Nat} (hrun : Run s)
    (hlink : Step s (.symlink origin target) s1)
    (hlater : Later (fun s => Kept s.db target ∧ target.length < PATH_MAX) s1 origin s2 name)
    (hkept : Kept s2.db target) (hsize : target.length < size) : Reads s2.db name size target := by
  have hI := linkInv_symlink hrun.inv.1 hrun.inv.2 hlink
  exact (hI.later hlater).reads hkept hsize

/-! ## Examples -/

/-- The snapshot after one entry that can be applied. -/
def applied (db : PathMapDB) (entries : List DbEntry) : PathMapDB := (entries.foldlM applyEntry db).getD db

theorem foldlM_applied {db : PathMapDB} {entries : List DbEntry}
    (h : (entries.foldlM applyEntry db).isSome = true) :
    entries.foldlM applyEntry db = some (applied db entries) := by
  obtain ⟨db', hdb⟩ := Option.isSome_iff_exists.mp h
  rw [applied, hdb]
  rfl

/-- The state after an operation whose entries can be applied. -/
def State.next (s : State) (op : Op) : State := ⟨op.tree s.tree, applied s.db (op.entries s.db)⟩

theorem step_next {s : State} {op : Op} (hvalid : op.Valid s.tree)
    (h : ((op.entries s.db).foldlM applyEntry s.db).isSome = true)
    (hreads : ∀ o d target, op = .moveLink o d target → Reads s.db o PATH_MAX target) :
    Step s op (State.next s op) := ⟨hvalid, rfl, foldlM_applied h, hreads⟩

/-- A link to a file that does not exist, renamed. -/
theorem readlink_yields_target_renamed :
    let s1 := State.next State.init (.symlink (lit "/l") (lit "/a"))
    let s2 := State.next s1 (.moveLink (lit "/l") (lit "/m") (lit "/a"))
    Reads s2.db (lit "/m") 3 (lit "/a") := by
  have hfree : Tree.init.Free (lit "/l") := by decide
  have hfree' : (Tree.init.create (lit "/l") .symlink).Free (lit "/m") := by decide
  intro s1 s2
  have h1 : Step State.init (.symlink (lit "/l") (lit "/a")) s1 :=
    step_next hfree (by decide) fun o d t h => by cases h
  have h2 : Step s1 (.moveLink (lit "/l") (lit "/m") (lit "/a")) s2 := by
    refine step_next ⟨by decide, hfree'⟩ (by decide) fun o d t h => ?_
    cases h
    exact ⟨2, by decide⟩
  exact readlink_yields_target Run.init h1
    ((Later.refl _ _).step h2 (by decide) fun _ => ⟨by decide, by decide⟩) (by decide) (by decide)

/-- The target of the link is a name that a directory has left. -/
theorem readlink_yields_reuse_name :
    ¬ ∀ (s s1 s2 : State) (origin target name : Str) (size : Nat), Run s →
      Step s (.symlink origin target) s1 → Later (fun _ => True) s1 origin s2 name →
      target.length < size → Reads s2.db name size target := by
  intro h
  let s1 := State.next State.init (.create (lit "/a") .dir)
  let s2 := State.next s1 (.move (lit "/a") (lit "/b"))
  have h1 : Step State.init (.create (lit "/a") .dir) s1 := by
    have hfree : Tree.init.Free (lit "/a") := by decide
    exact step_next ⟨by decide, hfree⟩ (by decide) fun o d t h => by cases h
  have h2 : Step s1 (.move (lit "/a") (lit "/b")) s2 := by
    have hmove : (Tree.init.create (lit "/a") .dir).ValidMove (lit "/a") (lit "/b") := by decide
    exact step_next hmove (by decide) fun o d t h => by cases h
  have h3 : Step s2 (.symlink (lit "/l") (lit "/a")) (State.next s2 (.symlink (lit "/l") (lit "/a"))) := by
    have hfree : ((Tree.init.create (lit "/a") .dir).move (lit "/a") (lit "/b")).Free (lit "/l") := by decide
    exact step_next hfree (by decide) fun o d t h => by cases h
  have hreads := h s2 _ _ (lit "/l") (lit "/a") (lit "/l") 64 ((Run.init.step h1).step h2) h3
    (Later.refl _ _) (by decide)
  have hreuse : Reads (State.next s2 (.symlink (lit "/l") (lit "/a"))).db (lit "/l") 64 (lit "|reuse_1") :=
    ⟨3, by decide⟩
  exact absurd (hreads.det hreuse) (by decide)

end HFlat.PathMap.History
