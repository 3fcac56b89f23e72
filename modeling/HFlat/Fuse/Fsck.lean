/-
  The file system check of a directory (`fsck/fsck.cc`).

  `fsck_directory` looks up every entry of the directory and starts again after each repair. The path
  of an entry is the path of the directory followed by the name, without a `/` between them
  (`scanDirentries`): for `/` that is the path of the entry, for `/d` and `f` it is `/df`. The check
  leaves a directory as it is exactly if all these paths are settled: a lookup finds their objects
  without storing anything.
-/
import HFlat.Fuse.Reading
import HFlat.Fuse.Scans

namespace HFlat.Fuse.Fsck

open HFlat.Lib HFlat.PathMap HFlat.Permission
open HFlat.Replication (KineticRecord StatusCode maxsize deleteSame)
open HFlat.Fuse.Readdir (filename filename_direntryKey)
open HFlat.Fuse.Termination (ends_getMdi_bind)
open HFlat.Fuse.Reading HFlat.Fuse.Scans

/-! ## The check -/

section Operations

variable (me : Nat) (env : Env) (ctx : Context)

/-- A mapping of the path is removed. -/
def unmap (fuel : Nat) (userPath : Str) : Client Int := do
  if hasMapping (← get).pmap userPath then databaseOperation ⟨.REMOVED, userPath, []⟩ fuel
  else return 0

/-- The path of a name in a directory. -/
def childPath (dirPath name : Str) : Str :=
  if dirPath.getLast? = some '/' then dirPath ++ name else dirPath ++ '/' :: name

/-- The new name in a recovery entry. -/
def recoveryTarget (dirPath entry : Str) : Str := childPath dirPath (entry.takeWhile (· ≠ '|'))

/-- The old path in a recovery entry. -/
def recoveryOrigin (entry : Str) : Str := entry.rtakeWhile (· ≠ '|')

/-- `get_metadata_userpath` for both paths; an object stays if its path cannot be resolved. -/
def reread (fuel : Nat) (target origin : Str) (mdis : Nat × Nat) : Client (Nat × Nat) := do
  let (_, targetMdi) ← getMetadataUserpath me fuel target
  let (_, originMdi) ← getMetadataUserpath me fuel origin
  return (targetMdi.getD mdis.1, originMdi.getD mdis.2)

/-- `p` is true of one of two objects, and that object exists. -/
def either (p : Inode → Bool) (mdis : Nat × Nat) : Client Bool := do
  let target := (← getMdi mdis.1).md
  let origin := (← getMdi mdis.2).md
  return (target.inodeNumber ≠ 0 && p target) || (origin.inodeNumber ≠ 0 && p origin)

/-- `recover_rename`: the names of a hard link instead of its target. -/
def recoverHardlink (fuel : Nat) (target origin : Str) (mdis : Nat × Nat) : Client (Nat × Nat) := do
  if ← either (fun md => md.type = .HARDLINK_T) mdis then reread me fuel target origin mdis
  else return mdis

/-- `recover_rename`: the keys of a directory without its mappings. -/
def recoverDirectory (fuel : Nat) (target origin : Str) (mdis : Nat × Nat) :
    Client (Except Int (Nat × Nat)) := do
  if ← either (fun md => S_ISDIR md.mode) mdis then
    let err ← unmap fuel target
    if err ≠ 0 then return .error err
    let err ← unmap fuel origin
    if err ≠ 0 then return .error err
    return .ok (← reread me fuel target origin mdis)
  else return .ok mdis

/-- `recover_rename`: the metadata is stored under the old name only. -/
def recoverMetadata (mdis : Nat × Nat) : Client Int := do
  let target ← getMdi mdis.1
  let origin ← getMdi mdis.2
  if origin.md.inodeNumber = 0 then
    if target.md.inodeNumber = 0 then exit
    if S_ISDIR target.md.mode then exit
    let status : StatusCode ←
      perform (.putVersion me .recover origin.systemPath ⟨target.md, target.keyVersion⟩)
    if status ≠ .OK then return - EIO
  if target.md.inodeNumber ≠ 0 then
    let status : StatusCode ← perform (.delete me .recover target.systemPath none)
    if status ≠ .OK then return - EIO
  return 0

/-- `recover_rename`. -/
def recoverRename (fuel : Nat) (dirPath : Str) (targetParent : Nat) (entry : Str) : Client Int := do
  let target := recoveryTarget dirPath entry
  let origin := recoveryOrigin entry
  let (_, targetMdi) ← lookup me env ctx fuel target none
  let (_, originMdi) ← lookup me env ctx fuel origin none
  let (_, originParent) ← lookupParent me env ctx fuel origin
  cacheInvalidate origin
  cacheInvalidate target
  let mdis ← recoverHardlink me fuel target origin (← deref targetMdi, ← deref originMdi)
  match ← recoverDirectory me fuel target origin mdis with
  | .error err => return err
  | .ok mdis =>
      let err ← recoverMetadata me mdis
      if err ≠ 0 then return err
      let err ← createDirectoryEntry me env (← deref originParent) (pathToFilename origin) fuel
      if err ≠ 0 ∧ err ≠ -EEXIST then return err
      deleteDirectoryEntry me env targetParent entry fuel

/-- What is done about an entry that was not found. -/
def repair (fuel : Nat) (userPath : Str) (mdi : Nat) (entry : Str) : Client Int := do
  if '|' ∈ entry then recoverRename me env ctx fuel userPath mdi entry
  else
    let err ← unmap fuel (userPath ++ entry)
    if err ≠ 0 then return err
    deleteDirectoryEntry me env mdi entry fuel

/-- The loop of `fsck_directory`, with a bound on the number of rounds. -/
def fsckRounds (fuel : Nat) (userPath : Str) (mdi : Nat) : Nat → Client Int
  | 0 => exit
  | rounds + 1 => do
      let (err, names) ← scanDirentries me env ctx fuel userPath mdi
      if err = 0 then return 0
      if err ≠ -ENOENT then return err
      let err ← repair me env ctx fuel userPath mdi (names.getLastD [])
      if err ≠ 0 then return err
      fsckRounds fuel userPath mdi rounds

/-- `fsck_directory`. -/
def fsckDirectory (fuel : Nat) (userPath : Str) (mdi : Nat) : Client Int := do
  if ¬ S_ISDIR (← getMdi mdi).md.mode then exit
  if ctx.uid ≠ 0 then exit
  fsckRounds me env ctx fuel userPath mdi fuel

end Operations

/-! ## The scan -/

section Scan

variable {uuid : Nat → Str} {me : Nat} {env : Env} {ctx : Context} {l : Local} {s : Store} {stop : Str}

theorem reliable_within (uuid : Nat → Str) : (reliable uuid).Within (scans uuid) := by
  intro s r choice x s' h
  obtain ⟨hc, hserve⟩ := reliable_serve h
  have hok : answered s r choice = true := by
    cases r with
    | entryRange start stop max =>
      cases choice with
      | done => rfl
      | unreachable => exact absurd rfl hc.1
      | lost => cases hserve
      | expired b => cases hserve
      | number n => cases hserve
    | _ => rfl
  show (if answered s r choice = true then serve uuid s r choice else none) = some (x, s')
  rw [if_pos hok]
  exact hserve

section Held

variable {S : Type} {sv : Service Req Res Choice S} {F : PathMapDB → S → Prop} {visit : Str → Client Int}

theorem held_visitPage (hvisit : ∀ name, Preserves sv (Held F) (visit name)) (keys : List Str) :
    Preserves sv (Held F) (visitPage visit keys) := by
  induction keys with
  | nil => exact Preserves.pure _
  | cons element keys ih =>
    refine (hvisit _).bind fun err => Preserves.ite (Preserves.pure _) ?_
    exact ih.bind fun x => Preserves.pure _

theorem held_scanPages (hrange : ∀ start stop max, Preserves sv (Held F) (perform (.entryRange start stop max)))
    (hvisit : ∀ name, Preserves sv (Held F) (visit name)) (fuel : Nat) (start : Str) (keys : List Str) :
    Preserves sv (Held F) (scanPages stop visit fuel start keys) := by
  induction fuel generalizing start keys with
  | zero => exact Preserves.stop
  | succ fuel ih =>
    refine (hrange _ _ _).bind fun page => (held_visitPage hvisit page).bind fun x => ?_
    refine Preserves.ite (Preserves.pure _) (Preserves.ite ?_ (Preserves.pure _))
    exact (ih _ _).bind fun x => Preserves.pure _

/-- The names that are visited are those of the page. -/
theorem visitPage_subset (keys : List Str) (l : Local) (s : S) :
    Post sv (visitPage visit keys) (fun x _ _ => ∀ name ∈ x.2, name ∈ keys.map filename) l s := by
  induction keys generalizing l s with
  | nil => exact Post.pure fun _ h => by cases h
  | cons element keys ih =>
    refine Post.bind fun err l1 s1 _ => ?_
    refine Post.ite (fun _ => Post.pure fun name h => ?_) fun _ => ?_
    · rw [List.mem_singleton.mp h]
      exact List.mem_map_of_mem List.mem_cons_self
    · refine (ih l1 s1).then fun x l2 s2 hx => Post.pure fun name h => ?_
      rcases List.mem_cons.mp h with rfl | h
      · exact List.mem_map_of_mem List.mem_cons_self
      · rw [List.map_cons]
        exact List.mem_cons_of_mem _ (hx name h)

end Held

/-- The lookup of one entry. -/
def visitEntry (me : Nat) (env : Env) (ctx : Context) (fuel : Nat) (userPath entry : Str) : Client Int := do
  return (← lookup me env ctx fuel (userPath ++ entry) none).1

theorem altered_perform {db0 : PathMapDB} {s0 : Store} {r : Req} (hr : Mends r) :
    Preserves (reliable uuid) (Held (Altered uuid db0 s0)) (perform r) :=
  Preserves.call fun _ _ h _ _ _ hserve => h.drift (serve_drift hr (reliable_serve hserve).2)

theorem altered_visitEntry {db0 : PathMapDB} {s0 : Store} (fuel : Nat) (userPath name : Str) :
    Preserves (reliable uuid) (Held (Altered uuid db0 s0)) (visitEntry me env ctx fuel userPath name) :=
  (steady_altered.lookup _ _ _).bind fun _ => Preserves.pure _

theorem later_visitEntry {db0 : PathMapDB} {s0 : Store} (fuel : Nat) (userPath name : Str) :
    Preserves (reliable uuid) (Held (Later db0 s0)) (visitEntry me env ctx fuel userPath name) :=
  (steady_later.lookup _ _ _).bind fun _ => Preserves.pure _

theorem visitPage_reads (fuel : Nat) (userPath : Str) (keys : List Str) (h : InStep l s) :
    Post (reliable uuid) (visitPage (visitEntry me env ctx fuel userPath) keys)
      (fun x l' s' => (Calm l s l' s' ∧
        (x.1 = 0 → ∀ k ∈ keys, Settled l s ctx (userPath ++ filename k))) ∨
          Altered uuid l.pmap s l'.pmap s') l s := by
  induction keys generalizing l with
  | nil => exact Post.pure (Or.inl ⟨calm_refl h, fun _ k hk => by cases hk⟩)
  | cons element keys ih =>
    refine Post.bind ((lookup_reads fuel _ none h).then fun x l1 s1 h1 => Post.pure ?_)
    refine Post.ite (fun herr => Post.pure ?_) fun herr => ?_
    · exact h1.imp_left fun hc => ⟨hc.1, fun h0 => absurd h0 herr⟩
    · rcases h1 with ⟨hcalm, hset⟩ | halt
      · obtain rfl := hcalm.store
        refine (ih hcalm.step).then fun y l2 s2 h2 => Post.pure ?_
        rw [hcalm.pmap] at h2
        refine h2.imp_left fun hc => ⟨hcalm.trans hc.1, fun h0 k hk => ?_⟩
        rcases List.mem_cons.mp hk with rfl | hk
        · exact hset (not_not.mp herr)
        · exact (hc.2 h0 k hk).mono hcalm.pmap hcalm.blocked
      · have hkeep : Preserves (reliable uuid) (Held (Altered uuid l.pmap s))
            (visitPage (visitEntry me env ctx fuel userPath) keys) :=
          held_visitPage (altered_visitEntry fuel userPath) keys
        exact (hkeep l1 s1 halt).then fun y l2 s2 h2 => Post.pure (Or.inr h2)

theorem altered_scanPages {db0 : PathMapDB} {s0 : Store} (fuel n : Nat) (userPath start : Str) (keys : List Str) :
    Preserves (reliable uuid) (Held (Altered uuid db0 s0))
      (scanPages stop (visitEntry me env ctx fuel userPath) n start keys) :=
  held_scanPages (fun start stop max => altered_perform (Or.inr (Or.inr (Or.inr ⟨start, stop, max, rfl⟩))))
    (altered_visitEntry fuel userPath) n start keys

theorem scanPages_reads (fuel n : Nat) (userPath start : Str) (keys : List Str) (h : InStep l s) :
    Post (reliable uuid) (scanPages stop (visitEntry me env ctx fuel userPath) n start keys)
      (fun x l' s' => (Calm l s l' s' ∧ (x.1 = 0 → ∃ out,
        Lib.scan (fun start => s.entries.openRange start stop maxsize) maxsize n (keys.getLastD start) = some out ∧
          ∀ k ∈ out, Settled l s ctx (userPath ++ filename k))) ∨
        Altered uuid l.pmap s l'.pmap s') l s := by
  induction n generalizing start keys l with
  | zero => exact Post.stop
  | succ n ih =>
    refine Post.bind (Post.call ?_)
    intro choice page s1 hserve
    obtain ⟨rfl, rfl⟩ := serve_entryRange (reliable_within uuid _ _ _ _ _ hserve)
    refine (visitPage_reads fuel userPath _ h).then fun x l2 s2 h2 => ?_
    refine Post.ite (fun herr => Post.pure (h2.imp_left fun hc => ⟨hc.1, fun h0 => absurd h0 herr⟩)) fun herr => ?_
    rcases h2 with ⟨hcalm, hset⟩ | halt
    · obtain rfl := hcalm.store
      have hset := hset (not_not.mp herr)
      unfold Lib.scan
      refine Post.ite (fun hfull => ?_) fun hfull => ?_
      · refine (ih _ _ hcalm.step).then fun y l3 s3 h3 => Post.pure ?_
        rw [hcalm.pmap] at h3
        refine h3.imp_left fun hc => ⟨hcalm.trans hc.1, fun h0 => ?_⟩
        obtain ⟨out, hout, hmore⟩ := hc.2 h0
        rw [if_pos hfull, hout]
        refine ⟨_, rfl, fun k hk => ?_⟩
        rcases List.mem_append.mp hk with hk | hk
        · exact hset k hk
        · exact (hmore k hk).mono hcalm.pmap hcalm.blocked
      · refine Post.pure (Or.inl ⟨hcalm, fun _ => ⟨_, if_neg hfull, hset⟩⟩)
    · refine Post.ite (fun _ => ?_) fun _ => Post.pure (Or.inr halt)
      exact (altered_scanPages fuel n userPath _ _ l2 s2 halt).then fun y l3 s3 h3 => Post.pure (Or.inr h3)

/-- No entry is a recovery entry. -/
def NoRecovery (s : Store) : Prop := ∀ key, s.entries.find key ≠ none → '|' ∉ filename key

/-- Only names of the store are visited. -/
theorem scanPages_names_plain {db0 : PathMapDB} {s0 : Store} (hplain : NoRecovery s0) (fuel n : Nat)
    (userPath start : Str) (keys : List Str) (h : Later db0 s0 l.pmap s) :
    Post (reliable uuid) (scanPages stop (visitEntry me env ctx fuel userPath) n start keys)
      (fun x _ _ => ∀ name ∈ x.2, '|' ∉ name) l s := by
  induction n generalizing start keys l s with
  | zero => exact Post.stop
  | succ n ih =>
    refine Post.bind (Post.call ?_)
    intro choice page s1 hserve
    obtain ⟨rfl, rfl⟩ := serve_entryRange (reliable_within uuid _ _ _ _ _ hserve)
    refine ((visitPage_subset _ l s1).and
      (held_visitPage (later_visitEntry fuel userPath) _ l s1 h)).then fun x l2 s2 h2 => ?_
    have hnames : ∀ name ∈ x.2, '|' ∉ name := by
      intro name hname
      obtain ⟨key, hkey, rfl⟩ := List.mem_map.mp (h2.1 name hname)
      refine hplain key fun hnone => ?_
      have hin := List.mem_filter.mp (List.mem_of_mem_take hkey)
      exact (s1.entries.mem_keys _).mp hin.1 (h.entries key hnone)
    refine Post.ite (fun _ => Post.pure hnames) fun _ => Post.ite (fun _ => ?_) fun _ => Post.pure hnames
    refine (ih _ _ h2.2).then fun y l3 s3 h3 => Post.pure fun name hname => ?_
    exact (List.mem_append.mp hname).elim (hnames name) (h3 name)

end Scan

/-! ## Repairs and rounds -/

section Repair

variable {uuid : Nat → Str} {me : Nat} {env : Env} {ctx : Context} {l : Local} {s : Store}
variable {db0 : PathMapDB} {s0 : Store}

theorem drift_append {version : Nat} {entry : DbEntry} {choice : Choice} {x : StatusCode} {s s' : Store}
    (h : (reliable uuid).serve s (.append version entry) choice = some (x, s')) : Drift uuid s s' :=
  serve_append_drift (reliable_serve h).2

theorem serve_deleteEntry_ok {key : Str} {choice : Choice} {s' : Store}
    (h : serve uuid s (.deleteEntry key) choice = some (.OK, s')) :
    s.entries.find key ≠ none ∧ s'.entries.find key = none := by
  have hr : answer s (s.deleteEntry key) choice = some (.OK, s') := h
  rcases answer_eq hr with he | he | he
  · have hstatus : (deleteSame (s.entries.find key) (lit "1")).1 = .OK := (congrArg Prod.fst he).symm
    obtain rfl : s' = (s.deleteEntry key).2 := congrArg Prod.snd he
    show s.entries.find key ≠ none ∧
      (s.entries.set key (deleteSame (s.entries.find key) (lit "1")).2).find key = none
    rw [Replication.Records.find_set, if_pos rfl]
    cases hf : s.entries.find key with
    | none =>
      rw [hf] at hstatus
      cases hstatus
    | some r =>
      rw [hf] at hstatus
      unfold deleteSame at hstatus ⊢
      dsimp only at hstatus ⊢
      split at hstatus
      · rename_i hv
        rw [if_pos hv]
        exact ⟨by simp, rfl⟩
      · cases hstatus
  · cases he
  · cases he

/-- The repair of a name that is no recovery entry removes its entry. -/
theorem repair_alters {entry userPath : Str} (hbar : '|' ∉ entry) (fuel mdi : Nat)
    (h : Later db0 s0 l.pmap s) : Post (reliable uuid) (repair me env ctx fuel userPath mdi entry)
      (fun err l' s' => err = 0 → Altered uuid db0 s0 l'.pmap s') l s := by
  refine Post.ite (fun hx => absurd hx hbar) fun _ => ?_
  have hunmap : Preserves (reliable uuid) (Held (Later db0 s0)) (unmap fuel (userPath ++ entry)) := by
    refine Preserves.get.bind fun l => Preserves.ite ?_ (Preserves.pure _)
    exact steady_later.databaseOperation (fun h hserve => h.drift (drift_append hserve)) _ fuel
  refine (hunmap l s h).then fun err l1 s1 h1 => ?_
  refine Post.ite (fun herr => Post.pure fun h0 => absurd h0 herr) fun _ => ?_
  refine post_getMdi_bind (Post.bind (Post.call ?_))
  intro choice (status : StatusCode) s2 hserve
  obtain ⟨-, hserve⟩ := reliable_serve hserve
  have h2 : Later db0 s0 l1.pmap s2 := Later.drift h1 (serve_deleteEntry_drift hserve)
  cases status with
  | OK =>
    obtain ⟨hthere, hgone⟩ := serve_deleteEntry_ok hserve
    have halt : Altered uuid db0 s0 l1.pmap s2 :=
      ⟨h2, Or.inr (Or.inr (Or.inl ⟨_, fun hnone => hthere (h1.entries _ hnone), hgone⟩))⟩
    exact (steady_altered.touchDirectory mdi fuel l1 s2 halt).mono fun err l3 s3 h3 _ => h3
  | _ => exact Post.pure fun h0 => absurd h0 (by decide)

theorem altered_repair {entry userPath : Str} (hbar : '|' ∉ entry) (fuel mdi : Nat) :
    Preserves (reliable uuid) (Held (Altered uuid db0 s0)) (repair me env ctx fuel userPath mdi entry) := by
  have hunmap : Preserves (reliable uuid) (Held (Altered uuid db0 s0)) (unmap fuel (userPath ++ entry)) := by
    refine Preserves.get.bind fun l => Preserves.ite ?_ (Preserves.pure _)
    exact steady_altered.databaseOperation (fun h hserve => h.drift (drift_append hserve)) _ fuel
  unfold repair
  rw [if_neg hbar]
  refine hunmap.bind fun err => Preserves.ite (Preserves.pure _) (held_getMdi_bind fun x => ?_)
  refine (altered_perform (Or.inr (Or.inl ⟨_, rfl⟩))).bind fun (status : StatusCode) => ?_
  cases status with
  | OK => exact steady_altered.touchDirectory mdi fuel
  | _ => exact Preserves.pure _

/-- The name that a scan ends with is none of a recovery entry. -/
theorem getLastD_plain {names : List Str} (h : ∀ name ∈ names, '|' ∉ name) : '|' ∉ names.getLastD [] := by
  cases names with
  | nil => simp
  | cons name names =>
    rw [List.getLastD_cons]
    exact h _ List.getLastD_mem_cons

/-- Rounds take no change back. -/
theorem fsckRounds_altered (hplain : NoRecovery s0) (fuel mdi : Nat) (userPath : Str) (rounds : Nat)
    (h : Altered uuid db0 s0 l.pmap s) : Post (reliable uuid) (fsckRounds me env ctx fuel userPath mdi rounds)
      (fun _ l' s' => Altered uuid db0 s0 l'.pmap s') l s := by
  induction rounds generalizing l s with
  | zero => exact Post.stop
  | succ rounds ih =>
    have hscan : Post (reliable uuid) (scanDirentries me env ctx fuel userPath mdi)
        (fun x l' s' => Altered uuid db0 s0 l'.pmap s' ∧ ∀ name ∈ x.2, '|' ∉ name) l s :=
      post_getMdi_bind ((altered_scanPages fuel fuel userPath _ [] l s h).and
        (scanPages_names_plain hplain fuel fuel userPath _ [] h.1))
    refine hscan.then fun x l1 s1 hx => ?_
    refine Post.ite (fun _ => Post.pure hx.1) fun _ => Post.ite (fun _ => Post.pure hx.1) fun _ => ?_
    refine (altered_repair (getLastD_plain hx.2) fuel mdi l1 s1 hx.1).then fun err l2 s2 h2 => ?_
    exact Post.ite (fun _ => Post.pure h2) fun _ => ih h2

/-- Every path of the directory that a scan looks up is settled. -/
def AllSettled (ctx : Context) (l : Local) (s : Store) (fuel inode : Nat) (userPath : Str) : Prop :=
  ∃ out, Lib.scan (fun start => s.entries.openRange start (keyend inode (Char.ofNat 254)) maxsize) maxsize fuel
    (direntryKey inode []) = some out ∧ ∀ k ∈ out, Settled l s ctx (userPath ++ filename k)

theorem scanDirentries_reads (hplain : NoRecovery s) (h : InStep l s) (fuel mdi : Nat) (userPath : Str) :
    Post (reliable uuid) (scanDirentries me env ctx fuel userPath mdi) (fun x l' s' =>
      ((Calm l s l' s' ∧ (x.1 = 0 → AllSettled ctx l s fuel (l.heap mdi).md.inodeNumber userPath)) ∨
        Altered uuid l.pmap s l'.pmap s') ∧ ∀ name ∈ x.2, '|' ∉ name) l s := by
  refine post_getMdi_bind ?_
  exact (scanPages_reads fuel fuel userPath _ [] h).and
    (scanPages_names_plain hplain fuel fuel userPath _ [] (later_refl l.pmap s))

/-- A check that ends well has changed something, or all that it looked up is settled. -/
theorem fsckRounds_reads (hplain : NoRecovery s) (h : InStep l s) (fuel mdi : Nat) (userPath : Str)
    (rounds : Nat) : Post (reliable uuid) (fsckRounds me env ctx fuel userPath mdi rounds)
      (fun err l' s' => err = 0 → AllSettled ctx l s fuel (l.heap mdi).md.inodeNumber userPath ∨
        Altered uuid l.pmap s l'.pmap s') l s := by
  cases rounds with
  | zero => exact Post.stop
  | succ rounds =>
    refine (scanDirentries_reads hplain h fuel mdi userPath).then fun x l1 s1 hx => ?_
    refine Post.ite (fun h0 => Post.pure fun _ => hx.1.imp_left fun hc => hc.2 h0) fun herr => ?_
    refine Post.ite (fun _ => Post.pure fun h0 => absurd h0 herr) fun _ => ?_
    have hlater : Later l.pmap s l1.pmap s1 := by
      rcases hx.1 with ⟨hcalm, -⟩ | halt
      · rw [hcalm.store, hcalm.pmap]
        exact later_refl _ _
      · exact halt.1
    have hrepair : Post (reliable uuid) (repair me env ctx fuel userPath mdi (x.2.getLastD []))
        (fun err l' s' => err = 0 → Altered uuid l.pmap s l'.pmap s') l1 s1 :=
      repair_alters (getLastD_plain hx.2) fuel mdi hlater
    refine hrepair.then fun err l2 s2 h2 => ?_
    refine Post.ite (fun herr => Post.pure fun h0 => absurd h0 herr) fun h0 => ?_
    exact (fsckRounds_altered hplain fuel mdi userPath rounds (h2 (not_not.mp h0))).mono
      fun err l3 s3 h3 _ => Or.inr h3

end Repair

/-! ## When the check leaves a directory as it is -/

/-- No key of the store and no mapping has changed. -/
structure Unchanged (l : Local) (s : Store) (l' : Local) (s' : Store) : Prop where
  metadata : s'.metadata = s.metadata
  entries : s'.entries = s.entries
  log : s'.log = s.log
  pmap : l'.pmap = l.pmap

/-- The check returns 0, with enough rounds, and leaves everything as it is. -/
def Harmless (uuid : Nat → Str) (me : Nat) (env : Env) (ctx : Context) (userPath : Str) (mdi : Nat) (l : Local)
    (s : Store) : Prop :=
  ∃ bound, ∀ fuel, bound ≤ fuel → Completes (reliable uuid) (fsckDirectory me env ctx fuel userPath mdi)
    (fun err l' s' => err = 0 ∧ Unchanged l s l' s') l s

/-- The versions to come are none of those that are stored. -/
def Fresh (uuid : Nat → Str) (s : Store) : Prop :=
  ∀ key r i, s.metadata key = some r → s.uuids ≤ i → r.version ≠ uuid i

/-- The scan gets to the entry: its first byte is below 254. -/
def Listed (s : Store) (inode : Nat) (name : Str) : Prop :=
  HasEntry s inode name ∧ ∃ x rest, name = x :: rest ∧ x < Char.ofNat 254

section Main

variable {uuid : Nat → Str} {me mdi : Nat} {env : Env} {ctx : Context} {l : Local} {s : Store} {userPath : Str}

theorem unchanged_of_calm {l' : Local} {s' : Store} (h : Calm l s l' s') : Unchanged l s l' s' := by
  obtain rfl := h.store
  exact ⟨rfl, rfl, rfl, h.pmap⟩

theorem not_unchanged_of_altered (hfresh : Fresh uuid s) {l' : Local} {s' : Store}
    (h : Altered uuid l.pmap s l'.pmap s') : ¬ Unchanged l s l' s' := by
  intro hsame
  rcases h.2 with hv | hlog | ⟨key, hkey, hgone⟩ | ⟨key, r, i, hr, hi, hversion⟩
  · rw [hsame.pmap] at hv
    exact Nat.lt_irrefl _ hv
  · rw [hsame.log] at hlog
    exact Nat.lt_irrefl _ hlog
  · rw [hsame.entries] at hgone
    exact hkey hgone
  · rw [hsame.metadata] at hr
    exact hfresh key r i hr hi hversion

/-- With enough fuel the scan gets to every listed name. -/
theorem allSettled_iff {fuel inode : Nat} (hfuel : s.entries.keys.length < fuel) (l : Local) :
    AllSettled ctx l s fuel inode userPath ↔
      ∀ name, Listed s inode name → Settled l s ctx (userPath ++ name) := by
  unfold AllSettled
  rw [scan_entries s inode _ hfuel]
  constructor
  · rintro ⟨out, hout, hall⟩ name hname
    obtain rfl := Option.some.inj hout
    obtain ⟨k, hk, rfl⟩ := List.mem_map.mp (mem_names_iff.mpr hname)
    exact hall k hk
  · exact fun hall => ⟨_, rfl, fun k hk => hall _ (mem_names_iff.mp (List.mem_map_of_mem hk))⟩

/-- What the check leaves as it is, it has found settled. -/
theorem settled_of_harmless (hplain : NoRecovery s) (hstep : InStep l s) (hfresh : Fresh uuid s)
    (h : Harmless uuid me env ctx userPath mdi l s) {name : Str}
    (hname : Listed s (l.heap mdi).md.inodeNumber name) : Settled l s ctx (userPath ++ name) := by
  obtain ⟨bound, hall⟩ := h
  have hdone := hall (bound + s.entries.keys.length + 1) (by omega)
  have hreads : Post (reliable uuid) (fsckDirectory me env ctx (bound + s.entries.keys.length + 1) userPath mdi)
      (fun err l' s' => err = 0 → AllSettled ctx l s (bound + s.entries.keys.length + 1)
        (l.heap mdi).md.inodeNumber userPath ∨ Altered uuid l.pmap s l'.pmap s') l s := by
    refine post_getMdi_bind (Post.ite (fun _ => Post.stop) fun _ => Post.ite (fun _ => Post.stop) fun _ => ?_)
    exact fsckRounds_reads hplain hstep _ mdi userPath _
  obtain ⟨err, l', s', ⟨herr, hsame⟩, hread⟩ := hdone.exists_of_post hreads
  rcases hread herr with hset | halt
  · exact (allSettled_iff (by omega) l).mp hset name hname
  · exact absurd hsame (not_unchanged_of_altered hfresh halt)

/-- The client has only read so far, and the same keys are blocked. -/
def Idle (l : Local) (s : Store) (l' : Local) (s' : Store) : Prop := Calm l s l' s' ∧ l'.blocked = l.blocked

theorem visitPage_settled {fuel : Nat} {keys : List Str} {l1 : Local} (hidle : Idle l s l1 s)
    (hset : ∀ k ∈ keys, ∀ l1, Idle l s l1 s → Completes (reliable uuid)
      (visitEntry me env ctx fuel userPath (filename k)) (fun err l' s' => err = 0 ∧ Idle l s l' s') l1 s) :
    Completes (reliable uuid) (visitPage (visitEntry me env ctx fuel userPath) keys)
      (fun x l' s' => x.1 = 0 ∧ Idle l s l' s') l1 s := by
  induction keys generalizing l1 with
  | nil => exact Completes.pure ⟨rfl, hidle⟩
  | cons element keys ih =>
    refine (hset element List.mem_cons_self l1 hidle).then ?_
    rintro err l2 s2 ⟨herr, hidle'⟩
    obtain rfl := hidle'.1.store
    refine Completes.ite (fun hx => absurd herr hx) fun _ => ?_
    refine (ih hidle' fun k hk => hset k (List.mem_cons_of_mem _ hk)).then ?_
    rintro x l3 s3 hx
    exact Completes.pure hx

theorem scanPages_settled {fuel n : Nat} {start stop : Str} {keys out : List Str} {l1 : Local}
    (hidle : Idle l s l1 s)
    (hout : Lib.scan (fun start => s.entries.openRange start stop maxsize) maxsize n (keys.getLastD start) =
      some out)
    (hset : ∀ k ∈ out, ∀ l1, Idle l s l1 s → Completes (reliable uuid)
      (visitEntry me env ctx fuel userPath (filename k)) (fun err l' s' => err = 0 ∧ Idle l s l' s') l1 s) :
    Completes (reliable uuid) (scanPages stop (visitEntry me env ctx fuel userPath) n start keys)
      (fun x l' s' => x.1 = 0 ∧ Idle l s l' s') l1 s := by
  induction n generalizing start keys out l1 with
  | zero => cases hout
  | succ n ih =>
    refine Completes.then (Q := fun (page : List Str) l' s' =>
      page = s.entries.openRange (keys.getLastD start) stop maxsize ∧ l' = l1 ∧ s' = s) ?_ ?_
    · refine Completes.call ⟨.done, _, s, rfl⟩ fun choice page s' hserve => ?_
      obtain ⟨rfl, rfl⟩ := serve_entryRange (reliable_within uuid _ _ _ _ _ hserve)
      exact ⟨rfl, rfl, rfl⟩
    · rintro page l2 s2 ⟨rfl, rfl, rfl⟩
      unfold Lib.scan at hout
      have hpage : ∀ k ∈ s2.entries.openRange (keys.getLastD start) stop maxsize, k ∈ out := by
        intro k hk
        split at hout
        · obtain ⟨more, -, rfl⟩ := Option.map_eq_some_iff.mp hout
          exact List.mem_append_left _ hk
        · cases hout
          exact hk
      refine (visitPage_settled hidle fun k hk => hset k (hpage k hk)).then ?_
      rintro x l3 s3 ⟨h0, hidle'⟩
      obtain rfl := hidle'.1.store
      refine Completes.ite (fun hx => absurd h0 hx) fun _ => Completes.ite (fun hfull => ?_) fun _ => ?_
      · rw [if_pos hfull] at hout
        obtain ⟨more, hmore, rfl⟩ := Option.map_eq_some_iff.mp hout
        refine (ih hidle' hmore fun k hk => hset k (List.mem_append_right _ hk)).then ?_
        rintro y l4 s4 hy
        exact Completes.pure hy
      · exact Completes.pure ⟨rfl, hidle'⟩

/-- `fsck_directory` returns 0 and leaves every key of the store and the path map as they are, if and only
    if for every entry that it lists, the path of the directory followed by the name, without a `/` between
    them, leads to an object that the caller may use and whose path permissions are up to date, past no
    key that the client blocks. -/
theorem fsckDirectory_harmless_iff (hdir : S_ISDIR (l.heap mdi).md.mode = true) (huid : ctx.uid = 0)
    (hplain : NoRecovery s) (hstep : InStep l s) (hfresh : Fresh uuid s) (me : Nat) (env : Env)
    (userPath : Str) : Harmless uuid me env ctx userPath mdi l s ↔
      ∀ name, Listed s (l.heap mdi).md.inodeNumber name → Settled l s ctx (userPath ++ name) := by
  refine ⟨fun h name hname => settled_of_harmless hplain hstep hfresh h hname, fun hall => ?_⟩
  have hlookups : ∀ᶠ fuel in Filter.atTop, ∀ k ∈ (scanned s (l.heap mdi).md.inodeNumber (Char.ofNat 254)).toFinset,
      ∀ l1 pointer, l1.pmap = l.pmap → l1.blocked = l.blocked → InStep l1 s → Completes (reliable uuid)
        (lookup me env ctx fuel (userPath ++ filename k) pointer)
          (fun x l' s' => x.1 = 0 ∧ Calm l1 s l' s' ∧ l'.blocked = l1.blocked) l1 s := by
    refine (Filter.eventually_all_finset _).mpr fun k hk => (hall _ ?_).lookup
    exact mem_names_iff.mp (List.mem_map_of_mem (List.mem_toFinset.mp hk))
  obtain ⟨bound, hbound⟩ := Filter.eventually_atTop.mp
    (hlookups.and (Filter.eventually_gt_atTop s.entries.keys.length))
  refine ⟨bound, fun fuel hfuel => ?_⟩
  obtain ⟨hvisit, hlength⟩ := hbound fuel hfuel
  refine ends_getMdi_bind (Completes.ite (fun hx => absurd hdir hx) fun _ => ?_)
  refine Completes.ite (fun hx => absurd huid hx) fun _ => ?_
  obtain ⟨rounds, rfl⟩ := Nat.exists_eq_succ_of_ne_zero (by omega : fuel ≠ 0)
  have hscan : Completes (reliable uuid) (scanDirentries me env ctx (rounds + 1) userPath mdi)
      (fun x l' s' => x.1 = 0 ∧ Idle l s l' s') l s := by
    refine ends_getMdi_bind (scanPages_settled ⟨calm_refl hstep, rfl⟩ (scan_entries s _ _ hlength) ?_)
    rintro k hk l1 ⟨hcalm, hsame⟩
    refine (hvisit k (List.mem_toFinset.mpr hk) l1 none hcalm.pmap hsame hcalm.step).then ?_
    rintro x l2 s2 ⟨h0, hcalm', hsame'⟩
    exact Completes.pure ⟨h0, hcalm.trans hcalm', hsame'.trans hsame⟩
  refine hscan.then ?_
  rintro x l1 s1 ⟨h0, hcalm, -⟩
  refine Completes.ite (fun _ => Completes.pure ⟨rfl, unchanged_of_calm hcalm⟩) fun hx => absurd h0 hx

end Main

/-! ## A directory below the root -/

/-- A file system with the directory `/d` and the file `/d/f`. -/
def nested : Store := { withFile (lit "f") with uuids := 3 }

/-- A client that has looked up `/`. -/
def atRoot : Local :=
  ⟨fun _ => ⟨root, counter 0, rootDirectory⟩, 1, fun key => if key = root then some 0 else none,
    fun _ => false, .empty⟩

theorem nested_entry {key : Str} (h : nested.entries.find key ≠ none) : key = lit "1|d" ∨ key = lit "2|f" := by
  have hkeys : nested.entries.keys = [lit "1|d", lit "2|f"] := by decide +kernel
  have hmem := (nested.entries.mem_keys key).mpr h
  rw [hkeys] at hmem
  simpa using hmem

/-- The names of a directory of this file system. -/
theorem nested_name {inode : Nat} {name : Str} (h : nested.entries.find (direntryKey inode name) ≠ none) :
    direntryKey inode name = lit "1|d" ∧ name = lit "d" ∨ direntryKey inode name = lit "2|f" ∧ name = lit "f" := by
  rcases nested_entry h with he | he
  · have hname := congrArg filename he
    rw [filename_direntryKey] at hname
    exact Or.inl ⟨he, hname⟩
  · have hname := congrArg filename he
    rw [filename_direntryKey] at hname
    exact Or.inr ⟨he, hname⟩

theorem nested_plain : NoRecovery nested := by
  intro key h
  rcases nested_entry h with rfl | rfl <;> decide +kernel

theorem nested_fresh : Fresh counter nested := by
  intro key r i hr hi hversion
  have hstored : r.version = counter 0 ∨ r.version = counter 1 ∨ r.version = counter 2 := by
    simp only [nested, withFile, addToDirectory, Store.set_metadata, withDirectory, Store.addFile,
      Store.mkfs] at hr
    split at hr
    · cases hr
      exact Or.inr (Or.inr rfl)
    · split at hr
      · cases hr
        exact Or.inr (Or.inl rfl)
      · split at hr
        · cases hr
          exact Or.inl rfl
        · cases hr
  have hi : 3 ≤ i := hi
  rw [hversion] at hstored
  rcases hstored with he | he | he <;> have := toStr_inj he <;> omega

/-- `/` with the directory `/d`. -/
theorem fsckDirectory_harmless_root : Harmless counter 0 relaxed superuser root 0 atRoot nested := by
  refine (fsckDirectory_harmless_iff (by decide) rfl nested_plain ?_ nested_fresh 0 relaxed root).mpr ?_
  · intro key a hk
    simp only [atRoot] at hk
    split at hk
    · rename_i hkey
      cases hk
      refine ⟨by decide, hkey.symm, ?_⟩
      exact Or.inl ⟨rfl, rfl⟩
    · cases hk
  · rintro name ⟨⟨-, hname⟩, -⟩
    obtain ⟨-, rfl⟩ | ⟨he, rfl⟩ := nested_name hname
    swap
    · exact absurd he (by decide)
    have hpath : ToSystemPath .empty (root ++ lit "d") .LOOKUP (lit "/d", 0) := ⟨5, by decide +kernel⟩
    exact .found hpath (by decide) rfl rfl (by decide) (Or.inl rfl) (by decide) rfl

/-- Every entry of `/d` has a metadata record, and the check removes the entry of `/d/f`, because there is
    no `/df`. -/
theorem fsckDirectory_removes_entry : ¬ ∀ (uuid : Nat → Str) (me mdi : Nat) (env : Env) (ctx : Context)
    (l : Local) (s : Store) (userPath : Str), S_ISDIR (l.heap mdi).md.mode = true → ctx.uid = 0 →
    NoRecovery s → InStep l s → l.Free → Fresh uuid s →
    (∀ name, HasEntry s (l.heap mdi).md.inodeNumber name → ∃ key stamp r,
      ToSystemPath l.pmap (childPath userPath name) .LOOKUP (key, stamp) ∧ s.metadata key = some r) →
    Harmless uuid me env ctx userPath mdi l s := by
  intro h
  have hstep : InStep Scans.found nested := by
    intro key a hk
    simp only [Scans.found] at hk
    split at hk
    · rename_i hkey
      cases hk
      exact ⟨by decide, hkey.symm, Or.inl ⟨rfl, rfl⟩⟩
    · cases hk
  have hharmless := h counter 0 0 relaxed superuser Scans.found nested (lit "/d") (by decide) rfl nested_plain hstep
    (fun _ => rfl) nested_fresh ?_
  · have hf : Listed nested (Scans.found.heap 0).md.inodeNumber (lit "f") :=
      ⟨⟨by decide, by decide +kernel⟩, 'f', [], rfl, by decide⟩
    have hset := settled_of_harmless nested_plain hstep nested_fresh hharmless hf
    have hpath : ToSystemPath .empty (lit "/d" ++ lit "f") .LOOKUP (lit "/df", 0) := ⟨5, by decide +kernel⟩
    cases hset with
    | found hpath' hstamp _ hr =>
      cases hpath'.det hpath
      cases hr
    | link hpath' hstamp _ hr =>
      cases hpath'.det hpath
      cases hr
  · rintro name ⟨-, hname⟩
    obtain ⟨he, rfl⟩ | ⟨-, rfl⟩ := nested_name hname
    · exact absurd he (by decide)
    exact ⟨lit "/d/f", 0, ⟨regularFile 3, lit "3"⟩, ⟨5, by decide +kernel⟩, by decide⟩

end HFlat.Fuse.Fsck
