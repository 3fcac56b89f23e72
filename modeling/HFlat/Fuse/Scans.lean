/-
  The three scans over the entries of a directory, on the `SimpleKineticNamespace`: the listing of
  `hflat_readdir`, the test for emptiness of `hflat_rmdir` (`fuseops/directory.cc`) and
  `scan_direntries` of the file system check (`fsck.cc`).

  An entry of directory 2 has the key `2|name`. Each scan asks for the keys between `2|` and `2|`
  with one more byte, and each has a last byte of its own: 251, 255 and 254. A name is in the range
  if its first byte is below the last byte (`lt_keyend_iff`), so the three scans agree exactly for
  names that begin with a byte below 251.
-/
import HFlat.Fuse.Readdir
import HFlat.Fuse.Steady
import HFlat.Fuse.Store

namespace HFlat.Fuse.Scans

open HFlat.Lib HFlat.PathMap HFlat.Permission
open HFlat.Replication (KineticRecord StatusCode maxsize)
open HFlat.Fuse.Readdir (filename filename_direntryKey eq_append_of_between keystart keystart_lt)

/-! ## The scans -/

/-- `access` for reading. -/
def R_OK : Nat := 4

/-- The end key of a scan. -/
def keyend (inode : Nat) (last : Char) : Str := direntryKey inode [] ++ [last]

/-- The loop over the keys of a page: error code and the names that were visited. -/
def visitPage (visit : Str → Client Int) : List Str → Client (Int × List Str)
  | [] => return (0, [])
  | element :: keys => do
      let entry := filename element
      let err ← visit entry
      if err ≠ 0 then return (err, [entry])
      let (err, names) ← visitPage visit keys
      return (err, entry :: names)

/-- The pages of a scan up to `stop`; `keys` is the page before. -/
def scanPages (stop : Str) (visit : Str → Client Int) : Nat → Str → List Str → Client (Int × List Str)
  | 0, _, _ => exit
  | fuel + 1, start, keys => do
      let start := keys.getLastD start
      let keys : List Str ← perform (.entryRange start stop maxsize)
      let (err, names) ← visitPage visit keys
      if err ≠ 0 then return (err, names)
      if keys.length = maxsize then
        let (err, more) ← scanPages stop visit fuel start keys
        return (err, names ++ more)
      return (0, names)

section Operations

variable (me : Nat) (env : Env) (ctx : Context)

/-- `hflat_readdir` after the lookup. -/
def readdirFound (fuel mdi : Nat) : Client (Int × List Str) := do
  let md := (← getMdi mdi).md
  if checkAccess ctx md.toMetadata R_OK ≠ 0 then return (-EACCES, [])
  scanPages (keyend md.inodeNumber (Char.ofNat 251)) (fun _ => return 0) fuel (direntryKey md.inodeNumber [])
    []

/-- Error code, and the names that are passed to `filldir`. -/
def hflatReaddir (fuel : Nat) (userPath : Str) : Client (Int × List Str) := do
  let (err, mdi) ← lookup me env ctx fuel userPath none
  if err ≠ 0 then return (err, [])
  readdirFound ctx fuel (← deref mdi)

/-- `scan_direntries`: error code and the entries that were looked up. The last of them is `entry`. -/
def scanDirentries (fuel : Nat) (userPath : Str) (dir : Nat) : Client (Int × List Str) := do
  let inode := (← getMdi dir).md.inodeNumber
  let visit := fun entry => do return (← lookup me env ctx fuel (userPath ++ entry) none).1
  scanPages (keyend inode (Char.ofNat 254)) visit fuel (direntryKey inode []) []

/-- `hflat_rmdir` after the lookup. -/
def rmdirFound (fuel : Nat) (userPath : Str) (mdi : Nat) : Client Int := do
  let inode := (← getMdi mdi).md.inodeNumber
  let keys : List Str ← perform (.entryRange (direntryKey inode []) (keyend inode (Char.ofNat 255)) 1)
  if keys ≠ [] then return -ENOTEMPTY
  let _ ← databaseUpdate
  hflatUnlink me env ctx fuel userPath

theorem hflatRmdir_eq (fuel : Nat) (userPath : Str) :
    hflatRmdir me env ctx fuel userPath = (do
      let (err, mdi) ← lookup me env ctx fuel userPath none
      if err ≠ 0 then return err
      rmdirFound me env ctx fuel userPath (← deref mdi)) := rfl

end Operations

/-! ## Ranges -/

/-- The directory has an entry of this name. -/
def HasEntry (s : Store) (inode : Nat) (name : Str) : Prop :=
  name ≠ [] ∧ s.entries.find (direntryKey inode name) ≠ none

/-- The keys that a scan is after, in their order. -/
def scanned (s : Store) (inode : Nat) (last : Char) : List Str :=
  above (direntryKey inode []) (s.entries.keys.filter (· < keyend inode last))

theorem append_lt_append_iff {d a b : Str} : d ++ a < d ++ b ↔ a < b := by
  induction d with
  | nil => exact Iff.rfl
  | cons x d ih =>
    rw [List.cons_append, List.cons_append, List.cons_lt_cons_iff, ih]
    simp

theorem direntryKey_eq (inode : Nat) (name : Str) : direntryKey inode name = direntryKey inode [] ++ name := by
  simp [direntryKey]

/-- A key is below the end of a scan if the first byte of the name is below its last byte. -/
theorem lt_keyend_iff {inode : Nat} {x last : Char} {name : Str} :
    direntryKey inode (x :: name) < keyend inode last ↔ x < last := by
  rw [direntryKey_eq, keyend, append_lt_append_iff, List.cons_lt_cons_iff]
  simp

theorem keys_lt_stop {s : Store} {stop : Str} : (s.entries.keys.filter (· < stop)).Pairwise (· < ·) :=
  s.entries.sorted.filter _

theorem openRange_eq (d : Replication.Records) (start stop : Str) (max : Nat) :
    d.openRange start stop max = (above start (d.keys.filter (· < stop))).take max := by
  unfold Replication.Records.openRange above
  rw [List.filter_filter]
  congr 1
  apply List.filter_congr
  intro k _
  exact Bool.eq_iff_iff.mpr (by simp)

/-- The scan finds an entry if and only if the first byte of its name is below the last byte. -/
theorem mem_scanned_iff {s : Store} {inode : Nat} {last : Char} {k : Str} :
    k ∈ scanned s inode last ↔
      ∃ x name, HasEntry s inode (x :: name) ∧ x < last ∧ k = direntryKey inode (x :: name) := by
  have hstart : direntryKey inode [] = keystart inode := by simp [direntryKey, keystart]
  unfold scanned
  rw [mem_above, List.mem_filter, decide_eq_true_iff, s.entries.mem_keys]
  constructor
  · rintro ⟨⟨hk, hlt⟩, hgt⟩
    obtain ⟨name, hname, rfl⟩ := eq_append_of_between hgt hlt
    obtain ⟨x, name, rfl⟩ := List.exists_cons_of_ne_nil hname
    rw [← direntryKey_eq] at hk hlt ⊢
    exact ⟨x, name, ⟨hname, hk⟩, lt_keyend_iff.mp hlt, rfl⟩
  · rintro ⟨x, name, ⟨hname, hk⟩, hlt, rfl⟩
    refine ⟨⟨hk, lt_keyend_iff.mpr hlt⟩, ?_⟩
    rw [hstart]
    exact keystart_lt hname

theorem pairwise_scanned (s : Store) (inode : Nat) (last : Char) :
    (scanned s inode last).Pairwise (· < ·) := pairwise_above keys_lt_stop

/-- The names are those of the entries, each of them once. -/
def Complete (s : Store) (inode : Nat) (names : List Str) : Prop :=
  names.Nodup ∧ ∀ name, name ∈ names ↔ HasEntry s inode name

theorem mem_names_iff {s : Store} {inode : Nat} {last : Char} {name : Str} :
    name ∈ (scanned s inode last).map filename ↔
      HasEntry s inode name ∧ ∃ x r, name = x :: r ∧ x < last := by
  rw [List.mem_map]
  constructor
  · rintro ⟨k, hk, rfl⟩
    obtain ⟨x, r, hname, hlt, rfl⟩ := mem_scanned_iff.mp hk
    rw [filename_direntryKey]
    exact ⟨hname, x, r, rfl, hlt⟩
  · rintro ⟨hname, x, r, rfl, hlt⟩
    exact ⟨direntryKey inode (x :: r), mem_scanned_iff.mpr ⟨x, r, hname, hlt, rfl⟩, filename_direntryKey _ _⟩

/-- A scan is complete if and only if every name begins with a byte below its last byte. -/
theorem complete_iff {s : Store} {inode : Nat} {last : Char} :
    Complete s inode ((scanned s inode last).map filename) ↔
      ∀ name, HasEntry s inode name → ∃ x r, name = x :: r ∧ x < last := by
  constructor
  · intro h name hname
    exact (mem_names_iff.mp ((h.2 name).mpr hname)).2
  · intro h
    refine ⟨List.Nodup.map_on ?_ ((pairwise_scanned s inode last).imp fun h => h.ne), fun name => ?_⟩
    · intro k hk k' hk' he
      obtain ⟨x, r, -, -, rfl⟩ := mem_scanned_iff.mp hk
      obtain ⟨x', r', -, -, rfl⟩ := mem_scanned_iff.mp hk'
      rw [filename_direntryKey, filename_direntryKey] at he
      rw [he]
    · rw [mem_names_iff]
      exact and_iff_left_of_imp (h name)

/-! ## Runs of the scans -/

/-- Every `GetKeyRange` is carried out. -/
def answered (_ : Store) : Req → Choice → Bool
  | .entryRange _ _ _, choice => choice = .done
  | _, _ => true

/-- The service without I/O errors. -/
def scans (uuid : Nat → Str) : Service Req Res Choice Store := (store uuid).restrict answered

section Runs

variable {uuid : Nat → Str} {d : Replication.Records} {stop : Str} {l : Local} {s : Store}

theorem serve_entryRange {start : Str} {max : Nat} {choice : Choice} {keys : List Str} {s' : Store}
    (h : (scans uuid).serve s (.entryRange start stop max) choice = some (keys, s')) :
    keys = s.entries.openRange start stop max ∧ s' = s := by
  obtain ⟨hok, hserve⟩ := serve_restrict h
  obtain rfl : choice = .done := of_decide_eq_true hok
  cases hserve
  exact ⟨rfl, rfl⟩

theorem serve_entryRange_done (start : Str) (max : Nat) :
    (scans uuid).serve s (.entryRange start stop max) .done =
      some (s.entries.openRange start stop max, s) := rfl

/-- The directory entries stay as they are. -/
def Still (d : Replication.Records) (_ : Local) (s : Store) : Prop := s.entries = d

theorem visitPage_names {visit : Str → Client Int}
    (hvisit : ∀ name, Preserves (scans uuid) (Still d) (visit name)) (keys : List Str) (h : Still d l s) :
    Post (scans uuid) (visitPage visit keys)
      (fun r l' s' => Still d l' s' ∧ (r.1 = 0 → r.2 = keys.map filename)) l s := by
  induction keys generalizing l s with
  | nil => exact Post.pure ⟨h, fun _ => rfl⟩
  | cons element keys ih =>
    refine (hvisit _ l s h).then fun err l1 s1 h1 => ?_
    refine Post.ite (fun herr => Post.pure ⟨h1, fun h0 => absurd h0 herr⟩) fun _ => ?_
    refine (ih h1).then fun r l2 s2 h2 => ?_
    exact Post.pure ⟨h2.1, fun h0 => by rw [h2.2 h0, List.map_cons]⟩

/-- A scan that ends without an error has visited the names of all pages. -/
theorem scanPages_names {visit : Str → Client Int}
    (hvisit : ∀ name, Preserves (scans uuid) (Still d) (visit name)) (fuel : Nat) (start : Str)
    (keys : List Str) (h : Still d l s) :
    Post (scans uuid) (scanPages stop visit fuel start keys)
      (fun r l' s' => Still d l' s' ∧ (r.1 = 0 → ∃ out,
        Lib.scan (fun start => d.openRange start stop maxsize) maxsize fuel (keys.getLastD start) = some out ∧
          r.2 = out.map filename)) l s := by
  induction fuel generalizing start keys l s with
  | zero => exact Post.stop
  | succ fuel ih =>
    have hrange : Post (scans uuid) (perform (.entryRange (keys.getLastD start) stop maxsize))
        (fun page l' s' => page = d.openRange (keys.getLastD start) stop maxsize ∧ Still d l' s') l s := by
      apply Post.call
      intro choice page s' hserve
      obtain ⟨rfl, rfl⟩ := serve_entryRange hserve
      exact ⟨by rw [h], h⟩
    refine hrange.then ?_
    rintro page l1 s1 ⟨rfl, h1⟩
    refine (visitPage_names hvisit _ h1).then fun r l2 s2 h2 => ?_
    refine Post.ite (fun herr => Post.pure ⟨h2.1, fun h0 => absurd h0 herr⟩) fun herr => ?_
    have hnames := h2.2 (not_not.mp herr)
    unfold Lib.scan
    refine Post.ite (fun hfull => ?_) fun hfull => ?_
    · refine (ih _ _ h2.1).then fun r' l3 s3 h3 => Post.pure ⟨h3.1, fun h0 => ?_⟩
      obtain ⟨out, hout, hr⟩ := h3.2 h0
      rw [if_pos hfull, hout]
      refine ⟨_, rfl, ?_⟩
      rw [hnames, hr, List.map_append]
    · refine Post.pure ⟨h2.1, fun _ => ⟨_, by rw [if_neg hfull], hnames⟩⟩

theorem returns_perform_bind {α : Type} {r : Req} {f : Res r → Client α} {choice : Choice} {x : Res r}
    {s' s'' : Store} {a : α × Local} (hserve : (scans uuid).serve s r choice = some (x, s'))
    (h : Returns (scans uuid) ((f x).run l) s' a s'') :
    Returns (scans uuid) ((perform r >>= f).run l) s a s'' := Returns.call hserve h

theorem visitPage_returns (keys : List Str) :
    Returns (scans uuid) ((visitPage (fun _ => return 0) keys).run l) s ((0, keys.map filename), l) s := by
  induction keys with
  | nil => exact Returns.ret _ _
  | cons element keys ih => exact Returns.bind (Returns.ret (0, l) s) (Returns.bind ih (Returns.ret _ _))

theorem scanPages_returns {fuel : Nat} {start : Str} {keys out : List Str}
    (hout : Lib.scan (fun start => s.entries.openRange start stop maxsize) maxsize fuel (keys.getLastD start) =
      some out) :
    Returns (scans uuid) ((scanPages stop (fun _ => return 0) fuel start keys).run l) s
      ((0, out.map filename), l) s := by
  induction fuel generalizing start keys out with
  | zero => cases hout
  | succ fuel ih =>
    unfold Lib.scan at hout
    refine returns_perform_bind (serve_entryRange_done _ _) ?_
    refine Returns.bind (visitPage_returns _) ?_
    split at hout
    · rename_i hfull
      obtain ⟨more, hmore, rfl⟩ := Option.map_eq_some_iff.mp hout
      simp only [ne_eq, not_true_eq_false, if_false, hfull, if_true]
      rw [List.map_append]
      exact Returns.bind (ih hmore) (Returns.ret _ _)
    · rename_i hfull
      cases hout
      simp only [ne_eq, not_true_eq_false, if_false, hfull]
      exact Returns.ret _ _

/-- `filldir` never ends the listing. -/
theorem scanPages_ok (fuel : Nat) (start : Str) (keys : List Str) :
    Post (scans uuid) (scanPages stop (fun _ => return 0) fuel start keys) (fun r _ _ => r.1 = 0) l s := by
  have hpage : ∀ (keys : List Str) l s,
      Post (scans uuid) (visitPage (fun _ => return 0) keys) (fun r _ _ => r.1 = 0) l s := by
    intro keys
    induction keys with
    | nil => exact fun l s => Post.pure rfl
    | cons element keys ih =>
      intro l s
      refine Post.bind (Post.pure ?_)
      refine Post.ite (fun herr => absurd rfl herr) fun _ => ?_
      exact (ih l s).then fun r l1 s1 h => Post.pure h
  induction fuel generalizing start keys l s with
  | zero => exact Post.stop
  | succ fuel ih =>
    apply Post.bind
    apply Post.call
    intro choice page s1 _
    refine (hpage page l s1).then fun r l2 s2 h2 => ?_
    refine Post.ite (fun herr => absurd h2 herr) fun _ => ?_
    refine Post.ite (fun _ => ?_) fun _ => Post.pure rfl
    exact (ih _ _).then fun r l3 s3 h3 => Post.pure h3

end Runs

/-! ## Lookups leave the entries as they are -/

section Lookup

variable {uuid : Nat → Str} {d : Replication.Records} {me : Nat} {env : Env} {ctx : Context}

theorem unnamed_of_lookup {r : Req} (hr : r.ofLookup = true) : r.names = false := by
  cases r with
  | createEntry key => cases hr
  | deleteEntry key => cases hr
  | append version entry => cases hr
  | _ => rfl

theorem steady_entries : Steady (scans uuid) fun _ s => s.entries = d where
  serve hr h hserve := (serve_unnamed (unnamed_of_lookup hr) (serve_restrict hserve).2).1.trans h
  update h _ := h

theorem still_lookup (fuel : Nat) (path : Str) (pointer : Option Nat) :
    Preserves (scans uuid) (Still d) (lookup me env ctx fuel path pointer) :=
  steady_entries.lookup fuel path pointer

end Lookup

/-! ## The scans of a directory -/

section Scans

variable {uuid : Nat → Str} {env : Env} {ctx : Context} {me fuel mdi : Nat} {userPath : Str}
  {l l' : Local} {s s' : Store}

theorem scan_entries (s : Store) (inode : Nat) (last : Char) (hfuel : s.entries.keys.length < fuel) :
    Lib.scan (fun start => s.entries.openRange start (keyend inode last) maxsize) maxsize fuel
      (direntryKey inode []) = some (scanned s inode last) := by
  have hpage : (fun start => s.entries.openRange start (keyend inode last) maxsize) =
      fun start => (above start (s.entries.keys.filter (· < keyend inode last))).take maxsize := by
    funext start
    exact openRange_eq _ _ _ _
  rw [hpage]
  apply scan_take _ (by decide) keys_lt_stop
  refine Nat.lt_of_le_of_lt ?_ hfuel
  exact (List.length_filter_le _ _).trans (List.length_filter_le _ _)

theorem readdirFound_eq (haccess : checkAccess ctx (l.heap mdi).md.toMetadata R_OK = 0) :
    (readdirFound ctx fuel mdi).run l =
      (scanPages (keyend (l.heap mdi).md.inodeNumber (Char.ofNat 251)) (fun _ => return 0) fuel
        (direntryKey (l.heap mdi).md.inodeNumber []) []).run l := by
  have hif : (readdirFound ctx fuel mdi).run l =
      ((if checkAccess ctx (l.heap mdi).md.toMetadata R_OK ≠ 0 then return (-EACCES, [])
        else scanPages (keyend (l.heap mdi).md.inodeNumber (Char.ofNat 251)) (fun _ => return 0) fuel
          (direntryKey (l.heap mdi).md.inodeNumber []) [] : Client (Int × List Str))).run l := rfl
  rw [hif, if_neg (not_not.mpr haccess)]

/-- What the scans are there for: a listing and a check that visit every entry once, and no removal of
    a directory that still has an entry. -/
structure Sound (uuid : Nat → Str) (env : Env) (ctx : Context) (me fuel mdi : Nat) (userPath : Str)
    (l : Local) (s : Store) : Prop where
  listed : ∃ names, Returns (scans uuid) ((readdirFound ctx fuel mdi).run l) s ((0, names), l) s
  readdir : ∀ err names l' s',
    Returns (scans uuid) ((readdirFound ctx fuel mdi).run l) s ((err, names), l') s' →
    err = 0 ∧ Complete s (l.heap mdi).md.inodeNumber names
  fsck : ∀ names l' s',
    Returns (scans uuid) ((scanDirentries me env ctx fuel userPath mdi).run l) s ((0, names), l') s' →
    Complete s (l.heap mdi).md.inodeNumber names
  rmdir : (∃ name, HasEntry s (l.heap mdi).md.inodeNumber name) → ∀ err l' s',
    Returns (scans uuid) ((rmdirFound me env ctx fuel userPath mdi).run l) s (err, l') s' →
    err = -ENOTEMPTY ∧ s' = s

theorem readdirFound_names {err : Int} {names : List Str} (hfuel : s.entries.keys.length < fuel)
    (haccess : checkAccess ctx (l.heap mdi).md.toMetadata R_OK = 0)
    (h : Returns (scans uuid) ((readdirFound ctx fuel mdi).run l) s ((err, names), l') s') :
    err = 0 ∧ names = (scanned s (l.heap mdi).md.inodeNumber (Char.ofNat 251)).map filename := by
  rw [readdirFound_eq haccess] at h
  have herr := scanPages_ok _ _ _ _ _ _ h
  obtain ⟨out, hout, hnames⟩ :=
    (scanPages_names (fun _ => Preserves.pure _) fuel _ [] (d := s.entries) rfl _ _ _ h).2 herr
  rw [List.getLastD_nil, scan_entries _ _ _ hfuel] at hout
  cases hout
  exact ⟨herr, hnames⟩

theorem scanDirentries_names {names : List Str} (hfuel : s.entries.keys.length < fuel)
    (h : Returns (scans uuid) ((scanDirentries me env ctx fuel userPath mdi).run l) s ((0, names), l') s') :
    names = (scanned s (l.heap mdi).md.inodeNumber (Char.ofNat 254)).map filename := by
  have hvisit : ∀ entry, Preserves (scans uuid) (Still s.entries)
      (do return (← lookup me env ctx fuel (userPath ++ entry) none).1) :=
    fun entry => Preserves.bind (still_lookup _ _ _) fun _ => Preserves.pure _
  obtain ⟨out, hout, hnames⟩ := (scanPages_names hvisit fuel _ [] rfl _ _ _ h).2 rfl
  rw [List.getLastD_nil, scan_entries _ _ _ hfuel] at hout
  cases hout
  exact hnames

/-- A directory with an entry below the last byte is not removed. -/
theorem rmdirFound_refuses {err : Int}
    (hentry : scanned s (l.heap mdi).md.inodeNumber (Char.ofNat 255) ≠ [])
    (h : Returns (scans uuid) ((rmdirFound me env ctx fuel userPath mdi).run l) s (err, l') s') :
    err = -ENOTEMPTY ∧ s' = s := by
  have hpost : Post (scans uuid) (rmdirFound me env ctx fuel userPath mdi)
      (fun err _ s' => err = -ENOTEMPTY ∧ s' = s) l s := by
    refine Post.bind (Post.pure ?_)
    apply Post.bind
    apply Post.call
    intro choice keys s1 hserve
    obtain ⟨rfl, rfl⟩ := serve_entryRange hserve
    have hkeys : s1.entries.openRange (direntryKey (l.heap mdi).md.inodeNumber [])
        (keyend (l.heap mdi).md.inodeNumber (Char.ofNat 255)) 1 ≠ [] := by
      rw [openRange_eq]
      intro hnil
      exact hentry ((List.take_eq_nil_iff.mp hnil).resolve_left (by decide))
    exact Post.ite (fun _ => Post.pure ⟨rfl, rfl⟩) fun h => absurd hkeys h
  exact hpost _ _ _ h

/-- The scans see all entries of a directory if and only if every name begins with a byte below 251. -/
theorem scans_sound_iff (haccess : checkAccess ctx (l.heap mdi).md.toMetadata R_OK = 0)
    (hfuel : s.entries.keys.length < fuel) :
    Sound uuid env ctx me fuel mdi userPath l s ↔
      ∀ name, HasEntry s (l.heap mdi).md.inodeNumber name → ∃ x r, name = x :: r ∧ x < Char.ofNat 251 := by
  have hrun : Returns (scans uuid) ((readdirFound ctx fuel mdi).run l) s
      ((0, (scanned s (l.heap mdi).md.inodeNumber (Char.ofNat 251)).map filename), l) s := by
    rw [readdirFound_eq haccess]
    apply scanPages_returns
    exact scan_entries _ _ _ hfuel
  constructor
  · intro h
    exact complete_iff.mp (h.readdir _ _ _ _ hrun).2
  · intro h
    have hbelow : ∀ last, Char.ofNat 251 ≤ last → ∀ name, HasEntry s (l.heap mdi).md.inodeNumber name →
        ∃ x r, name = x :: r ∧ x < last := by
      intro last hlast name hname
      obtain ⟨x, r, hx, hlt⟩ := h name hname
      exact ⟨x, r, hx, lt_of_lt_of_le hlt hlast⟩
    refine ⟨⟨_, hrun⟩, fun err names l' s' hr => ?_, fun names l' s' hr => ?_, ?_⟩
    · obtain ⟨rfl, rfl⟩ := readdirFound_names hfuel haccess hr
      exact ⟨rfl, complete_iff.mpr h⟩
    · rw [scanDirentries_names hfuel hr]
      exact complete_iff.mpr (hbelow _ (by decide))
    · rintro ⟨name, hname⟩ err l' s' hr
      obtain ⟨x, r, rfl, hlt⟩ := hbelow (Char.ofNat 255) (by decide) name hname
      apply rmdirFound_refuses _ hr
      exact List.ne_nil_of_mem (mem_scanned_iff.mpr ⟨x, r, hname, hlt, rfl⟩)

/-- The listing of a whole `hflat_readdir`. -/
theorem hflatReaddir_complete {names : List Str} (hfuel : s.entries.keys.length < fuel)
    (hnames : ∀ inode name, HasEntry s inode name → ∃ x r, name = x :: r ∧ x < Char.ofNat 251)
    (h : Returns (scans uuid) ((hflatReaddir me env ctx fuel userPath).run l) s ((0, names), l') s') :
    ∃ (l1 : Local) (mdi : Nat), Complete s (l1.heap mdi).md.inodeNumber names := by
  have hpost : Post (scans uuid) (hflatReaddir me env ctx fuel userPath)
      (fun r _ _ => r.1 = 0 → ∃ (l1 : Local) (mdi : Nat), Complete s (l1.heap mdi).md.inodeNumber r.2) l s := by
    refine (still_lookup (d := s.entries) fuel userPath none l s rfl).then fun r l1 s1 h1 => ?_
    refine Post.ite (fun herr => Post.pure fun h0 => absurd h0 herr) fun _ => ?_
    cases hr : r.2 with
    | none => exact Post.stop
    | some mdi =>
      intro x l2 s2 hx h0
      have haccess : checkAccess ctx (l1.heap mdi).md.toMetadata R_OK = 0 := by
        by_contra hne
        have hdenied : Post (scans uuid) (readdirFound ctx fuel mdi) (fun r _ _ => r.1 = -EACCES) l1 s1 :=
          Post.bind (Post.pure (Post.ite (fun _ => Post.pure rfl) fun h => absurd hne h))
        exact absurd ((hdenied _ _ _ hx).symm.trans h0) (by decide)
      have hfuel1 : s1.entries.keys.length < fuel := by rwa [h1]
      have hsame : ∀ inode name, HasEntry s1 inode name ↔ HasEntry s inode name := by
        intro inode name
        unfold HasEntry
        rw [h1]
      refine ⟨l1, mdi, ?_⟩
      rw [(readdirFound_names hfuel1 haccess hx).2]
      have hcomplete : Complete s1 (l1.heap mdi).md.inodeNumber _ :=
        complete_iff.mpr fun name hname => hnames _ name ((hsame _ name).mp hname)
      exact ⟨hcomplete.1, fun name => (hcomplete.2 name).trans (hsame _ name)⟩
  exact hpost _ _ _ h rfl

end Scans

/-! ## A directory with files -/

/-- One more file in `/d`. -/
def addToDirectory (s : Store) (inode : Nat) (name : Str) : Store :=
  { s.set (lit "/d/" ++ name) (some ⟨regularFile inode, lit "3"⟩) with
    entries := s.entries.set (direntryKey 2 name) (some ⟨[], lit "1"⟩) }

/-- `/d` with the file `name` in it. -/
def withFile (name : Str) : Store := addToDirectory withDirectory 3 name

/-- `/d` with these files in it. -/
def withFiles (names : List Str) : Store :=
  (names.zipIdx 3).foldl (fun s e => addToDirectory s e.2 e.1) withDirectory

/-- A client that has looked up `/d`. -/
def found : Local :=
  ⟨fun _ => ⟨lit "/d", counter 1, openDirectory 2⟩, 1, fun key => if key = lit "/d" then some 0 else none,
    fun _ => false, PathMapDB.empty⟩

/-- Two names that every scan sees, and one that only `hflat_rmdir` and `fsck` see. -/
theorem scans_sound_iff_files :
    let s := withFiles [lit "f", lit "g.txt", [Char.ofNat 252]]
    Sound counter relaxed superuser 0 5 0 (lit "/d") found s ↔
      ∀ name, HasEntry s 2 name → ∃ x r, name = x :: r ∧ x < Char.ofNat 251 :=
  scans_sound_iff (l := found) (by decide) (by decide +kernel)

/-- The only entry of the directory is `\xFF`: the range of `hflat_rmdir` is empty, and the directory is
    removed. -/
theorem scans_miss_entry : ¬ ∀ (uuid : Nat → Str) (env : Env) (ctx : Context) (me fuel mdi : Nat)
    (userPath : Str) (l : Local) (s : Store),
    checkAccess ctx (l.heap mdi).md.toMetadata R_OK = 0 → s.entries.keys.length < fuel →
    Sound uuid env ctx me fuel mdi userPath l s := by
  intro h
  have hrun : (((rmdirFound 0 relaxed superuser 5 (lit "/d") 0).run found).exec (scans counter)
      (withFile [Char.ofNat 255]) [.done, .number 1, .expired false, .done, .done, .done, .done, .done]).any
      (fun r => r.1.1 = 0 ∧ r.2.metadata (lit "/d") = none) = true := by decide +kernel
  obtain ⟨⟨⟨err, l'⟩, s'⟩, hexec, hr⟩ := (Option.any_eq_true _ _).mp hrun
  obtain ⟨rfl, -⟩ := of_decide_eq_true hr
  have hsound := h counter relaxed superuser 0 5 0 (lit "/d") found (withFile [Char.ofNat 255]) (by decide)
    (by decide +kernel)
  have hentry : HasEntry (withFile [Char.ofNat 255]) 2 [Char.ofNat 255] :=
    ⟨List.cons_ne_nil _ _, by decide +kernel⟩
  exact absurd (hsound.rmdir ⟨_, hentry⟩ _ _ _ (returns_of_exec hexec)).1 (by decide)

end HFlat.Fuse.Scans
