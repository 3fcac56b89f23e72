/-
  What the file system check repairs (`fsck/fsck.cc`).

  `fsck_directory` scans the entries of a directory until all of them lead to metadata, and repairs the last
  one that it looked up whenever one leads to nothing. `Checkable` collects what this loop needs: an
  invariant under which the paths of all entries can be told (`Finds`), and repairs that keep it and come
  nearer to the end. The check then ends, whatever it has found, and crashes on the way leave the crash
  condition (`fsckDirectory_through`).

  Without recovery entries each repair removes an entry that leads to nothing, and the check removes exactly
  these (`fsckDirectory_removes_dangling`).
-/
import HFlat.Fuse.Contents
import HFlat.Fuse.Fsck
import Mathlib.Data.Finset.Card

namespace HFlat.Fuse.Recovery

open HFlat.Lib HFlat.PathMap HFlat.Permission
open HFlat.Replication (KineticRecord StatusCode maxsize)
open HFlat.Fuse.Reading (reliable)
open HFlat.Fuse.Readdir (filename filename_direntryKey)
open HFlat.Fuse.Scans HFlat.Fuse.Fsck

/-! ## Scans -/

section Scan

variable {uuid : Nat → Str} {me n : Nat} {env : Env} {ctx : Context} {l : Local} {s : Store}
variable {userPath name start stop : Str} {keys out : List Str} {err : Int}

/-- The code that a lookup of the entry returns. -/
def Code (db : PathMapDB) (stored : Str → Option Inode) (ctx : Context) (n : Nat) (userPath name : Str)
    (err : Int) : Prop := ∃ key, Finds db stored ctx n (userPath ++ name) err key

/-- A scan finds all keys, or ends with a name that it does not find. -/
def Verdict (code : Str → Int → Prop) (keys : List Str) (x : Int × List Str) : Prop :=
  (x.1 = 0 ∧ ∀ k ∈ keys, code (filename k) 0) ∨
    (x.1 ≠ 0 ∧ ∃ k ∈ keys, code (filename k) x.1 ∧ x.2.getLast? = some (filename k))

theorem visitEntry_finds (hc : Code l.pmap (value s) ctx n userPath name err) (h : Reflects l (value s)) :
    Survives (reliable uuid) (· = s) (visitEntry me env ctx n userPath name)
      (fun code l' _ => code = err ∧ Quiet (value s) l l') l s := by
  obtain ⟨key, hf⟩ := hc
  refine (hf.lookup rfl h me env none).then fun x l1 s1 hs1 h1 => ?_
  exact Survives.pure hs1 ⟨h1.code, h1.quiet⟩

theorem visitPage_finds (h : Reflects l (value s))
    (hc : ∀ k ∈ keys, ∃ err, Code l.pmap (value s) ctx n userPath (filename k) err) :
    Survives (reliable uuid) (· = s) (visitPage (visitEntry me env ctx n userPath) keys) (fun x l' _ =>
      Quiet (value s) l l' ∧ Verdict (Code l.pmap (value s) ctx n userPath) keys x) l s := by
  induction keys generalizing l with
  | nil => exact Survives.pure rfl ⟨Quiet.refl h, Or.inl ⟨rfl, fun _ hk => absurd hk List.not_mem_nil⟩⟩
  | cons element keys ih =>
    obtain ⟨err, herr⟩ := hc element List.mem_cons_self
    refine (visitEntry_finds herr h).then fun code l1 s1 hs1 h1 => ?_
    obtain rfl := hs1
    obtain ⟨rfl, hq⟩ := h1
    refine Survives.ite (fun hne => ?_) fun h0 => ?_
    · exact Survives.pure rfl ⟨hq, Or.inr ⟨hne, element, List.mem_cons_self, herr, rfl⟩⟩
    have hrest := ih hq.reflects fun k hk => by
      rw [hq.pmap]
      exact hc k (List.mem_cons_of_mem _ hk)
    refine hrest.then fun x l2 s2 hs2 h2 => Survives.pure hs2 ⟨hq.trans h2.1, ?_⟩
    obtain ⟨-, hv⟩ := h2
    rw [hq.pmap] at hv
    rcases hv with ⟨hx, hall⟩ | ⟨hx, k, hk, hcode, hlast⟩
    · refine Or.inl ⟨hx, fun k hk => ?_⟩
      rcases List.mem_cons.mp hk with rfl | hk
      · rw [← not_not.mp h0]
        exact herr
      · exact hall k hk
    · refine Or.inr ⟨hx, k, List.mem_cons_of_mem _ hk, hcode, ?_⟩
      show (filename element :: x.2).getLast? = _
      rw [List.getLast?_cons, hlast]
      rfl

theorem scanPages_finds (h : Reflects l (value s)) {fuel : Nat}
    (hout : Lib.scan (fun start => s.entries.openRange start stop maxsize) maxsize fuel (keys.getLastD start) =
      some out)
    (hc : ∀ k ∈ out, ∃ err, Code l.pmap (value s) ctx n userPath (filename k) err) :
    Survives (reliable uuid) (· = s) (scanPages stop (visitEntry me env ctx n userPath) fuel start keys)
      (fun x l' _ => Quiet (value s) l l' ∧ Verdict (Code l.pmap (value s) ctx n userPath) out x) l s := by
  induction fuel generalizing start keys out l with
  | zero => cases hout
  | succ fuel ih =>
    have hrange : Survives (reliable uuid) (· = s) (perform (.entryRange (keys.getLastD start) stop maxsize))
        (fun page l' _ => page = s.entries.openRange (keys.getLastD start) stop maxsize ∧ l' = l) l s := by
      refine Survives.call rfl ⟨.done, _, s, rfl⟩ fun choice page s' hserve => ?_
      obtain ⟨rfl, rfl⟩ := serve_entryRange (reliable_within uuid _ _ _ _ _ hserve)
      exact ⟨rfl, rfl, rfl⟩
    refine hrange.then fun page l1 s1 hs1 h1 => ?_
    obtain rfl := hs1
    obtain ⟨rfl, rfl⟩ := h1
    unfold Lib.scan at hout
    have hpage : ∀ k ∈ s1.entries.openRange (keys.getLastD start) stop maxsize, k ∈ out := by
      intro k hk
      split at hout
      · obtain ⟨more, -, rfl⟩ := Option.map_eq_some_iff.mp hout
        exact List.mem_append_left _ hk
      · cases hout
        exact hk
    refine (visitPage_finds h fun k hk => hc k (hpage k hk)).then fun x l2 s2 hs2 h2 => ?_
    obtain rfl := hs2
    obtain ⟨hq, hv⟩ := h2
    refine Survives.ite (fun hne => ?_) fun h0 => ?_
    · refine Survives.pure rfl ⟨hq, Or.inr ?_⟩
      obtain ⟨hx, -⟩ | ⟨hx, k, hk, hcode, hlast⟩ := hv
      · exact absurd hx hne
      · exact ⟨hx, k, hpage k hk, hcode, hlast⟩
    have hfound := (hv.resolve_right fun hx => hx.1 (not_not.mp h0)).2
    refine Survives.ite (fun hfull => ?_) fun hfull => ?_
    · rw [if_pos hfull] at hout
      obtain ⟨more, hmore, rfl⟩ := Option.map_eq_some_iff.mp hout
      have hrest := ih hq.reflects hmore fun k hk => by
        rw [hq.pmap]
        exact hc k (List.mem_append_right _ hk)
      refine hrest.then fun y l3 s3 hs3 h3 => Survives.pure hs3 ⟨hq.trans h3.1, ?_⟩
      obtain ⟨-, hw⟩ := h3
      rw [hq.pmap] at hw
      rcases hw with ⟨hy, hall⟩ | ⟨hy, k, hk, hcode, hlast⟩
      · refine Or.inl ⟨hy, fun k hk => ?_⟩
        exact (List.mem_append.mp hk).elim (hfound k) (hall k)
      · refine Or.inr ⟨hy, k, List.mem_append_right _ hk, hcode, ?_⟩
        show (x.2 ++ y.2).getLast? = _
        rw [List.getLast?_append, hlast]
        rfl
    · rw [if_neg hfull] at hout
      cases hout
      exact Survives.pure rfl ⟨hq, Or.inl ⟨rfl, hfound⟩⟩

end Scan

/-! ## Rounds -/

/-- Directory, client and bound of a check. -/
structure Check where
  uuid : Nat → Str
  me : Nat
  env : Env
  ctx : Context
  fuel : Nat
  userPath : Str
  mdi : Nat
  db : PathMapDB

/-- The inode number of the directory. -/
def Check.inode (c : Check) (l : Local) : Nat := (l.heap c.mdi).md.inodeNumber

/-- The code that the check gets for an entry. -/
def Check.Code (c : Check) (s : Store) (name : Str) (err : Int) : Prop :=
  Recovery.Code c.db (value s) c.ctx c.fuel c.userPath name err

/-- Under the invariant `I` all entries can be told, and the repair of an entry that leads to nothing keeps
    it, lowers `μ` and keeps to the crash condition `P`. -/
structure Checkable (c : Check) (P : Contents → Prop) (I : Local → Store → Prop) (μ : Store → Nat) : Prop where
  reflects : ∀ {l s}, I l s → Reflects l (value s)
  pmap : ∀ {l s}, I l s → l.pmap = c.db
  used : ∀ {l s}, I l s → c.mdi < l.next
  short : ∀ {l s}, I l s → s.entries.keys.length < c.fuel
  crash : ∀ {l s}, I l s → P (contents s)
  code : ∀ {l s}, I l s → ∀ name, Listed s (c.inode l) name → ∃ err, c.Code s name err
  quiet : ∀ {l l' s}, I l s → Quiet (value s) l l' → I l' s
  repair : ∀ {l s}, I l s → ∀ name, Listed s (c.inode l) name → c.Code s name (-ENOENT) →
    Through c.uuid P (repair c.me c.env c.ctx c.fuel c.userPath c.mdi name)
      (fun err l' s' => err = 0 ∧ I l' s' ∧ μ s' < μ s) l s

/-- How a check ends: all entries are found, or one of them is refused. -/
def Check.Ends (c : Check) (err : Int) (l : Local) (s : Store) : Prop :=
  (err = 0 ∧ ∀ name, Listed s (c.inode l) name → c.Code s name 0) ∨
    (err ≠ 0 ∧ err ≠ -ENOENT ∧ ∃ name, Listed s (c.inode l) name ∧ c.Code s name err)

section Rounds

variable {c : Check} {P : Contents → Prop} {I : Local → Store → Prop} {μ : Store → Nat} {l : Local} {s : Store}

theorem scanDirentries_finds (hc : Checkable c P I μ) (h : I l s) :
    Survives (reliable c.uuid) (· = s) (scanDirentries c.me c.env c.ctx c.fuel c.userPath c.mdi) (fun x l' _ =>
      Quiet (value s) l l' ∧ ((x.1 = 0 ∧ ∀ name, Listed s (c.inode l) name → c.Code s name 0) ∨
        (x.1 ≠ 0 ∧ ∃ name, Listed s (c.inode l) name ∧ c.Code s name x.1 ∧ x.2.getLast? = some name))) l s := by
  have hlisted : ∀ k ∈ scanned s (c.inode l) (Char.ofNat 254), Listed s (c.inode l) (filename k) := by
    intro k hk
    exact mem_names_iff.mp (List.mem_map_of_mem hk)
  have hscan := scan_entries s (c.inode l) (Char.ofNat 254) (hc.short h)
  refine survives_getMdi_bind ((scanPages_finds (hc.reflects h) hscan fun k hk => ?_).mono
    (fun _ h => h) fun x l1 s1 hs1 h1 => ⟨h1.1, ?_⟩)
  · rw [hc.pmap h]
    exact hc.code h _ (hlisted k hk)
  · obtain ⟨-, hv⟩ := h1
    rw [hc.pmap h] at hv
    rcases hv with ⟨hx, hall⟩ | ⟨hx, k, hk, hcode, hlast⟩
    · refine Or.inl ⟨hx, fun name hname => ?_⟩
      obtain ⟨k, hk, rfl⟩ := List.mem_map.mp (mem_names_iff.mpr hname)
      exact hall k hk
    · exact Or.inr ⟨hx, filename k, hlisted k hk, hcode, hlast⟩

theorem inode_quiet (hc : Checkable c P I μ) (h : I l s) {l' : Local} (hq : Quiet (value s) l l') :
    c.inode l' = c.inode l := by
  unfold Check.inode
  rw [hq.heap _ (hc.used h)]

/-- The check ends after at most `μ` repairs. -/
theorem fsckRounds_through (hc : Checkable c P I μ) (rounds : Nat) (h : I l s) (hr : μ s < rounds) :
    Through c.uuid P (fsckRounds c.me c.env c.ctx c.fuel c.userPath c.mdi rounds)
      (fun err l' s' => I l' s' ∧ c.Ends err l' s') l s := by
  induction rounds generalizing l s with
  | zero => exact absurd hr (Nat.not_lt_zero _)
  | succ rounds ih =>
    refine Survives.read (scanDirentries_finds hc h) (hc.crash h) fun x l1 hx => ?_
    obtain ⟨hq, hx⟩ := hx
    have h1 := hc.quiet h hq
    have hinode := inode_quiet hc h hq
    rw [← hinode] at hx
    refine Survives.ite (fun h0 => ?_) fun hne => ?_
    · refine Survives.pure (hc.crash h) ⟨h1, Or.inl ⟨rfl, ?_⟩⟩
      exact (hx.resolve_right fun hy => hy.1 h0).2
    obtain ⟨-, name, hname, hcode, hlast⟩ := hx.resolve_left fun hy => hne hy.1
    refine Survives.ite (fun hother => ?_) fun hmissing => ?_
    · exact Survives.pure (hc.crash h) ⟨h1, Or.inr ⟨hne, hother, name, hname, hcode⟩⟩
    rw [not_not.mp hmissing] at hcode
    rw [List.getLastD_eq_getLast?, hlast]
    refine (hc.repair h1 name hname hcode).then fun err l2 s2 _ h2 => ?_
    obtain ⟨rfl, h2, hlt⟩ := h2
    refine Survives.ite (fun hne => absurd rfl hne) fun _ => ?_
    exact ih h2 (Nat.lt_of_lt_of_le hlt (Nat.le_of_lt_succ hr))

theorem fsckDirectory_through (hc : Checkable c P I μ) (hdir : S_ISDIR (l.heap c.mdi).md.mode = true)
    (huid : c.ctx.uid = 0) (h : I l s) (hr : μ s < c.fuel) :
    Through c.uuid P (fsckDirectory c.me c.env c.ctx c.fuel c.userPath c.mdi)
      (fun err l' s' => I l' s' ∧ c.Ends err l' s') l s := by
  refine survives_getMdi_bind (Survives.ite (fun hx => absurd hdir hx) fun _ => ?_)
  exact Survives.ite (fun hx => absurd huid hx) fun _ => fsckRounds_through hc _ h hr

end Rounds

/-! ## Entries that lead to nothing -/

section Dangling

variable {uuid : Nat → Str} {P : Contents → Prop} {me mdi : Nat} {env : Env} {ctx : Context} {l : Local}
variable {s s0 : Store} {c : Check} {key userPath name : Str} {md : Inode}

/-- An entry that is no recovery entry is removed. -/
theorem repair_removes (hbar : '|' ∉ name) (hmap : hasMapping l.pmap (userPath ++ name) = false)
    (h : Holds l s mdi key md) (hs : Stamped s) (hthere : direntryKey md.inodeNumber name ∈ (contents s).listed)
    (hP : P (contents s)) (hP' : P ((contents s).removeEntry (direntryKey md.inodeNumber name))) (fuel : Nat) :
    Through uuid P (repair me env ctx (fuel + 2) userPath mdi name) (fun err l' s' =>
      Left l s ((contents s).removeEntry (direntryKey md.inodeNumber name)) err l' s') l s := by
  refine Survives.ite (fun hx => absurd hx hbar) fun _ => ?_
  have hunmap : Through uuid P (unmap (fuel + 2) (userPath ++ name)) (fun err l' s' =>
      err = 0 ∧ l' = l ∧ s' = s) l s := by
    refine Survives.get_bind (Survives.ite (fun hx => ?_) fun _ => Survives.pure hP ⟨rfl, rfl, rfl⟩)
    rw [hmap] at hx
    cases hx
  refine hunmap.then fun err l1 s1 _ h1 => ?_
  obtain ⟨rfl, rfl, rfl⟩ := h1
  refine Survives.ite (fun hne => absurd rfl hne) fun _ => ?_
  exact deleteDirectoryEntry_through h hs hthere hP hP' fuel

/-- The entry leads to nothing. -/
def Check.Dangling (c : Check) (s : Store) (inode : Nat) (k : Str) : Prop :=
  ∃ name, k = direntryKey inode name ∧ Listed s inode name ∧ c.Code s name (-ENOENT)

/-- Nothing but entries that lead to nothing has been removed. -/
structure Check.Cleaned (c : Check) (s : Store) (inode : Nat) (x : Contents) : Prop where
  stored : x.stored = value s
  log : x.log = s.log
  subset : x.listed ⊆ (contents s).listed
  removed : ∀ k ∈ (contents s).listed, k ∉ x.listed → c.Dangling s inode k

/-- The client of a check, with the directory at hand. -/
structure Check.Ready (c : Check) (dirKey : Str) (dir : Inode) (l : Local) (s : Store) : Prop where
  reflects : Reflects l (value s)
  pmap : l.pmap = c.db
  holds : Holds l s c.mdi dirKey dir
  stamped : Stamped s

theorem Check.Ready.quiet {dirKey : Str} {dir : Inode} {l' : Local} (h : c.Ready dirKey dir l s)
    (hq : Quiet (value s) l l') : c.Ready dirKey dir l' s :=
  ⟨hq.reflects, hq.pmap.trans h.pmap, h.holds.quiet hq, h.stamped⟩

/-- A store has at most as many entries as a set that they are in. -/
theorem keys_length_le {A : Finset Str} (h : ∀ k ∈ (contents s).listed, k ∈ A) :
    s.entries.keys.length ≤ A.card := by
  rw [← List.toFinset_card_of_nodup (s.entries.sorted.imp fun hlt => hlt.ne)]
  refine Finset.card_le_card fun k hk => h k ?_
  exact (s.entries.mem_keys k).mp (List.mem_toFinset.mp hk)

theorem keys_length_lt {s' : Store} (hkey : key ∈ (contents s).listed)
    (h : (contents s').listed = (contents s).listed \ {key}) :
    s'.entries.keys.length < s.entries.keys.length := by
  have hle : s'.entries.keys.length ≤ (s.entries.keys.toFinset.erase key).card := by
    refine keys_length_le fun k hk => ?_
    rw [h] at hk
    exact Finset.mem_erase.mpr ⟨hk.2, List.mem_toFinset.mpr ((s.entries.mem_keys k).mpr hk.1)⟩
  refine Nat.lt_of_le_of_lt hle ?_
  rw [← List.toFinset_card_of_nodup (s.entries.sorted.imp fun hlt => hlt.ne)]
  exact Finset.card_erase_lt_of_mem (List.mem_toFinset.mpr ((s.entries.mem_keys key).mpr hkey))

theorem listed_of_subset {inode : Nat} {s' : Store} (h : (contents s').listed ⊆ (contents s).listed)
    (hname : Listed s' inode name) : Listed s inode name :=
  ⟨⟨hname.1.1, h hname.1.2⟩, hname.2⟩

theorem checkable_dangling {dirKey : Str} {dir : Inode} (hshort : s0.entries.keys.length < c.fuel)
    (hfuel : 2 ≤ c.fuel)
    (hcode : ∀ name, Listed s0 dir.inodeNumber name → '|' ∉ name ∧ ∃ err, c.Code s0 name err ∧
      (err = -ENOENT → hasMapping c.db (c.userPath ++ name) = false)) :
    Checkable c (c.Cleaned s0 dir.inodeNumber) (fun l s => c.Ready dirKey dir l s ∧
      c.Cleaned s0 dir.inodeNumber (contents s)) (fun s => s.entries.keys.length) where
  reflects h := h.1.reflects
  pmap h := h.1.pmap
  used h := h.1.holds.used
  short {l s} h := by
    refine Nat.lt_of_le_of_lt ?_ hshort
    rw [← List.toFinset_card_of_nodup (s0.entries.sorted.imp fun hlt => hlt.ne)]
    refine keys_length_le fun k hk => ?_
    exact List.mem_toFinset.mpr ((s0.entries.mem_keys k).mpr (h.2.subset hk))
  crash h := h.2
  code {l s} h name hname := by
    unfold Check.inode at hname
    rw [h.1.holds.object] at hname
    obtain ⟨-, err, herr, -⟩ := hcode name (listed_of_subset h.2.subset hname)
    refine ⟨err, ?_⟩
    unfold Check.Code
    rw [show value s = value s0 from h.2.stored]
    exact herr
  quiet h hq := ⟨h.1.quiet hq, h.2⟩
  repair {l s} h name hname hmissing := by
    unfold Check.inode at hname
    rw [h.1.holds.object] at hname
    have hname0 := listed_of_subset h.2.subset hname
    obtain ⟨hbar, err, herr, hmap⟩ := hcode name hname0
    have hmissing0 : c.Code s0 name (-ENOENT) := by
      unfold Check.Code at hmissing
      rwa [show value s = value s0 from h.2.stored] at hmissing
    have hcleaned : c.Cleaned s0 dir.inodeNumber
        ((contents s).removeEntry (direntryKey dir.inodeNumber name)) := by
      refine ⟨h.2.stored, h.2.log, fun k hk => h.2.subset hk.1, fun k hk hgone => ?_⟩
      by_cases hkey : k = direntryKey dir.inodeNumber name
      · exact ⟨name, hkey, hname0, hmissing0⟩
      · exact h.2.removed k hk fun hin => hgone ⟨hin, hkey⟩
    obtain ⟨fuel, hfuel'⟩ := Nat.exists_eq_add_of_le' hfuel
    obtain ⟨_, hf⟩ := hmissing0
    obtain ⟨_, hf'⟩ := herr
    have herr' : err = -ENOENT := (hf'.det hf).1
    rw [hfuel']
    refine (repair_removes hbar (h.1.pmap ▸ hmap herr') h.1.holds h.1.stamped hname.1.2 h.2 hcleaned fuel).mono
      (fun _ h => h) fun err' l' s' _ hleft => ?_
    have hvalue : value s' = value s := congrArg Contents.stored hleft.contents
    refine ⟨hleft.code, ⟨⟨?_, hleft.keeps.pmap.trans h.1.pmap, ?_, hleft.stamped⟩, ?_⟩, ?_⟩
    · exact h.1.reflects.keeps hleft.keeps fun k _ _ => congrFun hvalue k
    · exact h.1.holds.keeps hleft.keeps (congrFun hvalue _)
    · rw [hleft.contents]
      exact hcleaned
    · exact keys_length_lt hname.1.2 (congrArg Contents.listed hleft.contents)

/-- A check of a directory without recovery entries ends with code 0, or with the code of a lookup that was
    refused. All along it removes nothing but entries that lead to nothing, and at the end of one with code 0
    all of these are gone. -/
theorem fsckDirectory_removes_dangling {dirKey : Str} {dir : Inode} (h : c.Ready dirKey dir l s)
    (hdir : S_ISDIR dir.mode = true) (huid : c.ctx.uid = 0) (hshort : s.entries.keys.length < c.fuel)
    (hfuel : 2 ≤ c.fuel)
    (hcode : ∀ name, Listed s dir.inodeNumber name → '|' ∉ name ∧ ∃ err, c.Code s name err ∧
      (err = -ENOENT → hasMapping c.db (c.userPath ++ name) = false)) :
    Through c.uuid (c.Cleaned s dir.inodeNumber) (fsckDirectory c.me c.env c.ctx c.fuel c.userPath c.mdi)
      (fun err l' s' => c.Ends err l' s' ∧ (err = 0 → ∀ k, s'.entries.find k ≠ none ↔
        s.entries.find k ≠ none ∧ ¬ c.Dangling s dir.inodeNumber k)) l s := by
  have hstart : c.Cleaned s dir.inodeNumber (contents s) :=
    ⟨rfl, rfl, Set.Subset.rfl, fun k hk hgone => absurd hk hgone⟩
  have hisdir : S_ISDIR (l.heap c.mdi).md.mode = true := by
    rw [h.holds.object]
    exact hdir
  refine (fsckDirectory_through (checkable_dangling hshort hfuel hcode) hisdir huid ⟨h, hstart⟩ hshort).mono
    (fun _ h => h) fun err l' s' _ h' => ⟨h'.2, fun h0 k => ?_⟩
  obtain ⟨⟨hready, hcleaned⟩, hends⟩ := h'
  constructor
  · rintro hk
    refine ⟨hcleaned.subset hk, ?_⟩
    rintro ⟨name, rfl, hname, _, hf⟩
    have hname' : Listed s' (c.inode l') name := by
      unfold Check.inode
      rw [hready.holds.object]
      exact ⟨⟨hname.1.1, hk⟩, hname.2⟩
    obtain ⟨-, hall⟩ | ⟨hne, -⟩ := hends
    · obtain ⟨_, hf'⟩ := hall name hname'
      rw [show value s' = value s from hcleaned.stored] at hf'
      exact absurd (hf'.det hf).1 (by decide)
    · exact absurd h0 hne
  · rintro ⟨hk, hd⟩
    by_contra hgone
    exact hd (hcleaned.removed k hk fun hin => hin hgone)

end Dangling

/-! ### A directory with an entry that leads to nothing -/

/-- A file system with the directory `/d`, and an entry of `/g` without metadata. -/
def withDangling : Store := setEntry nested (direntryKey 1 (lit "g")) (some ⟨[], lit "1"⟩)

/-- The check of `/` by a client that has looked it up. -/
def checkRoot : Check := ⟨counter, 0, relaxed, superuser, 10, root, 0, .empty⟩

theorem withDangling_find (key : Str) : withDangling.entries.find key =
    if key = direntryKey 1 (lit "g") then some ⟨[], lit "1"⟩ else nested.entries.find key :=
  Replication.Records.find_set _ _ _ _

theorem nested_stamped : Stamped nested := by
  intro key record hr
  rcases nested_entry (by rw [hr]; exact Option.some_ne_none _) with rfl | rfl
  · have hd : nested.entries.find (lit "1|d") = some ⟨[], lit "1"⟩ := by decide +kernel
    rw [← Option.some.inj (hd.symm.trans hr)]
  · have hf : nested.entries.find (lit "2|f") = some ⟨[], lit "1"⟩ := by decide +kernel
    rw [← Option.some.inj (hf.symm.trans hr)]

theorem withDangling_stamped : Stamped withDangling := by
  refine nested_stamped.entries fun r hr => ?_
  rw [← Option.some.inj hr]

theorem checkRoot_ready : checkRoot.Ready root rootDirectory atRoot withDangling where
  reflects := by
    refine ⟨fun key a hk => ?_, fun _ => rfl⟩
    simp only [atRoot] at hk
    split at hk
    · rename_i hkey
      cases hk
      have hmd : value withDangling root = some rootDirectory := rfl
      exact ⟨by decide, hkey.symm, shows_stored rfl hmd rfl⟩
    · cases hk
  pmap := rfl
  holds := ⟨by decide, rfl, rfl, rfl⟩
  stamped := withDangling_stamped

/-- `/d` is found, `/g` is not. -/
theorem withDangling_code {name : Str} (h : Listed withDangling 1 name) : '|' ∉ name ∧ ∃ err,
    checkRoot.Code withDangling name err ∧
      (err = -ENOENT → hasMapping checkRoot.db (checkRoot.userPath ++ name) = false) := by
  obtain ⟨⟨-, hname⟩, -⟩ := h
  rw [withDangling_find] at hname
  split at hname
  · rename_i hkey
    have hg := congrArg filename hkey
    rw [filename_direntryKey, filename_direntryKey] at hg
    obtain rfl := hg
    have hplain : Plain .empty 10 (root ++ lit "g") := by decide +kernel
    exact ⟨by decide, _, ⟨_, hplain.missing rfl⟩, fun _ => rfl⟩
  · obtain ⟨-, rfl⟩ | ⟨hkey, -⟩ := nested_name hname
    · have hplain : Plain .empty 10 (root ++ lit "d") := by decide +kernel
      have hmd : value withDangling (root ++ lit "d") = some (openDirectory 2) := rfl
      exact ⟨by decide, _, ⟨_, hplain.found hmd ⟨by decide, rfl⟩⟩, fun _ => rfl⟩
    · have hhead : some '1' = some '2' := congrArg List.head? hkey
      exact absurd hhead (by decide)

theorem fsckDirectory_removes_dangling_root : Through counter (checkRoot.Cleaned withDangling 1)
    (fsckDirectory 0 relaxed superuser 10 root 0) (fun err l' s' => checkRoot.Ends err l' s' ∧
      (err = 0 → ∀ k, s'.entries.find k ≠ none ↔
        withDangling.entries.find k ≠ none ∧ ¬ checkRoot.Dangling withDangling 1 k)) atRoot withDangling :=
  fsckDirectory_removes_dangling checkRoot_ready (by decide) rfl (by decide +kernel) (by decide)
    fun _ h => withDangling_code h

end HFlat.Fuse.Recovery
