/-
  The versions that are stored under one metadata key.

  `put_metadata` and `create_metadata` store under a version that has just been generated.
  `rename_regular` stores under the version of the object that the lookup of the target has
  returned: `"0"`, the default of the constructor, if there was no target, else the version of the
  target that the rename has removed. So a key that a rename stores a second time, or one whose
  target existed, gets a version that it had before. In runs in which no rename does that, no
  version is stored twice under a key.
-/
import HFlat.Fuse.Lookup

namespace HFlat.Fuse.Versions

open HFlat.Lib HFlat.PathMap HFlat.Permission
open HFlat.Replication (KineticRecord StatusCode versionOf)

/-! ## What clients request -/

/-- Records that are stored have an inode number, and a rename without a target stores version
    `"0"`. -/
def Allowed : Req → Prop
  | .put _ _ _ _ _ md => md.inodeNumber ≠ 0
  | .putVersion _ (.copy _ replaced) _ record =>
      record.value.inodeNumber ≠ 0 ∧ (replaced = false → record.version = lit "0")
  | .putVersion _ _ _ _ => False
  | _ => True

/-- What a client relies on in an answer. -/
def Answered : (r : Req) → Res r → Prop
  | .get _ _ _, x => ∀ record, x = (.ok record : Except StatusCode (KineticRecord Inode)) →
      record.value.inodeNumber ≠ 0
  | .inodeNumber, n => n ≠ (0 : Nat)
  | _, _ => True

/-- Clients request what is `Allowed`; nothing has to be remembered. -/
def protocol : Protocol Req Res Unit := ⟨fun _ => Allowed, fun _ => Answered, fun _ _ _ => ()⟩

/-- An object without inode number has the version of the constructor. Those of `known` have an
    inode number. -/
def objects (me : Nat) (known : Set Nat) : ObjectInv protocol me where
  Ok a x _ := (x.md.inodeNumber = 0 → x.keyVersion = lit "0") ∧ (a ∈ known → x.md.inodeNumber ≠ 0)
  Free a _ := a ∉ known
  Storable x := x.md.inodeNumber ≠ 0
  storable h := h
  fresh h := ⟨fun _ => rfl, fun ha => absurd ha h⟩
  source h _ := ⟨fun _ => rfl, fun ha => absurd ha h⟩
  quiet := by
    intro t r hr
    refine ⟨?_, fun x => rfl⟩
    cases r with
    | get me mdi key => cases hr
    | put me mdi why key expected md => cases hr
    | putVersion me why key record => cases hr
    | delete me why key expected => cases hr
    | _ => exact trivial
  get_allowed _ _ _ := trivial
  get_self h hx := ⟨fun h0 => absurd h0 (hx _ rfl), fun ha => absurd ha h⟩
  get_error h _ := h
  get_other _ h _ := h
  get_free _ h := h
  put_allowed _ hn hc := by
    show _ ≠ 0
    rw [inode_of_core hc]
    exact hn
  put_self := by
    intro t a x md version _ hn hc
    have hmd : md.inodeNumber ≠ 0 := by
      rw [inode_of_core hc]
      exact hn
    exact ⟨fun h0 => absurd h0 hmd, fun _ => hmd⟩
  put_failed := by
    intro t a x md code version _ hn hc _
    have hmd : md.inodeNumber ≠ 0 := by
      rw [inode_of_core hc]
      exact hn
    exact ⟨fun h0 => absurd h0 hmd, fun _ => hmd⟩
  put_other _ h := h
  put_free _ h := h

/-- The memory of client `me`, with inode numbers for the objects of `known`. -/
abbrev Sane (me : Nat) (known : Set Nat) (l : Local) : Prop := Good (objects me known) l ()

section Memory

variable {me : Nat} {known : Set Nat} {l : Local}

theorem Sane.lt (h : Sane me known l) {a : Nat} (ha : a ∈ known) : a < l.next := by
  by_contra hlt
  exact h.free a (by omega) ha

theorem Sane.inode (h : Sane me known l) {a : Nat} (ha : a ∈ known) :
    (l.heap a).md.inodeNumber ≠ 0 := (h.objects a (h.lt ha)).2 ha

theorem Sane.mono (h : Sane me known l) {known' : Set Nat} (hsub : known' ⊆ known) : Sane me known' l :=
  ⟨fun a ha => ⟨(h.objects a ha).1, fun hk => (h.objects a ha).2 (hsub hk)⟩,
    fun a ha hk => h.free a ha (hsub hk), h.cache⟩

theorem Sane.insert (h : Sane me known l) {a : Nat} (ha : a < l.next)
    (hn : (l.heap a).md.inodeNumber ≠ 0) : Sane me (insert a known) l := by
  refine ⟨fun b hb => ⟨(h.objects b hb).1, fun hk => ?_⟩, fun b hb hk => ?_, h.cache⟩
  · rcases hk with rfl | hk
    · exact hn
    · exact (h.objects b hb).2 hk
  · rcases hk with rfl | hk
    · omega
    · exact h.free b hb hk

/-- An object in use gets an inode number, or keeps it. -/
theorem Sane.setObject (h : Sane me known l) {a : Nat} (ha : a < l.next) {x : MetadataInfo}
    (hx : x.md.inodeNumber ≠ 0) (hp : x.systemPath = (l.heap a).systemPath) :
    Sane me (Insert.insert a known) (l.setObject a x) := by
  refine ⟨fun b hb => ?_, fun b hb hk => ?_, fun key b hk => ?_⟩
  · rw [Local.setObject_heap]
    split
    · exact ⟨fun h0 => absurd h0 hx, fun _ => hx⟩
    · rename_i hne
      refine ⟨(h.objects b hb).1, fun hk => ?_⟩
      rcases hk with rfl | hk
      · exact absurd rfl hne
      · exact (h.objects b hb).2 hk
  · have hb' : l.next ≤ b := hb
    rcases hk with rfl | hk
    · omega
    · exact h.free b hb hk
  · refine ⟨(h.cache key b hk).1, ?_⟩
    rw [Local.setObject_heap]
    split
    · rename_i hne
      subst hne
      rw [hp]
      exact (h.cache key b hk).2
    · exact (h.cache key b hk).2

theorem Sane.setMD (h : Sane me known l) {a : Nat} (ha : a < l.next) {f : Inode → Inode}
    (hf : (f (l.heap a).md).inodeNumber ≠ 0) :
    Sane me (Insert.insert a known) (l.setObject a { l.heap a with md := f (l.heap a).md }) :=
  h.setObject ha hf rfl

/-- An object that has an inode number is changed. -/
theorem Sane.change (h : Sane me known l) {a : Nat} (ha : a ∈ known) {f : Inode → Inode}
    (hf : (f (l.heap a).md).inodeNumber ≠ 0) :
    Sane me known (l.setObject a { l.heap a with md := f (l.heap a).md }) :=
  (h.setMD (h.lt ha) hf).mono (Set.subset_insert _ _)

/-- It gets a new version. -/
theorem Sane.setVersion (h : Sane me known l) {a : Nat} (ha : a ∈ known) (version : Str) :
    Sane me known (l.setObject a { l.heap a with keyVersion := version }) := by
  have hn : ({ l.heap a with keyVersion := version } : MetadataInfo).md.inodeNumber ≠ 0 := h.inode ha
  exact (h.setObject (h.lt ha) hn rfl).mono (Set.subset_insert _ _)

theorem Sane.new (h : Sane me known l) (key : Str) : Sane me known (l.alloc key) := by
  obtain ⟨h1, h2, h3⟩ := h.alloc key
  refine ⟨fun a ha => ?_, fun a ha => h3 a ha, fun k a hk => ?_⟩
  · by_cases hne : a = l.next
    · subst hne
      rw [Local.alloc_heap, if_pos rfl]
      exact h1
    · have ha' : a < l.next + 1 := ha
      exact h2 a (by omega)
  · have hc := h.cache k a hk
    rw [Local.alloc_heap, if_neg (by omega)]
    exact ⟨Nat.lt_succ_of_lt hc.1, hc.2⟩

end Memory

/-! ## Metadata keys and directory entries -/

section Keys

variable {me : Nat} {known : Set Nat} {l : Local} {α β : Type}

/-- Sane memory, with the objects of `l` still in use. -/
def Kept (me : Nat) (known : Set Nat) (l l' : Local) : Prop := Sane me known l' ∧ l.next ≤ l'.next

/-- The program follows the protocol and keeps the memory sane. -/
def Keeps (me : Nat) (known : Set Nat) (m : Client α) : Prop :=
  ∀ l, Sane me known l → Conforms protocol m (fun _ l' _ => Kept me known l l') l ()

theorem Sane.kept (h : Sane me known l) : Kept me known l l := ⟨h, Nat.le_refl _⟩

theorem Kept.trans {l' l'' : Local} (h : Kept me known l l') (h' : Kept me known l' l'') :
    Kept me known l l'' := ⟨h'.1, h.2.trans h'.2⟩

theorem Keeps.pure (a : α) : Keeps me known (pure a : Client α) := fun _ h => Conforms.pure h.kept

theorem Keeps.exit : Keeps me known (exit : Client α) := fun _ _ => conforms_exit

/-- A program that keeps the memory sane, then one that does so from where the first ended. -/
theorem Keeps.then {m : Client α} {f : α → Client β} {Q : β → Local → Prop} (hm : Keeps me known m)
    (h : Sane me known l)
    (hf : ∀ a l', Kept me known l l' → Conforms protocol (f a) (fun b l'' _ => Q b l'') l' ()) :
    Conforms protocol (m >>= f) (fun b l'' _ => Q b l'') l () :=
  (hm l h).then fun a l' _ h' => hf a l' h'

/-- A program that keeps more objects known, from memory that a first part has left. -/
theorem Keeps.after {known' : Set Nat} {l1 : Local} {m : Client α} (h : Sane me known' l1)
    (hsub : known ⊆ known') (hle : l.next ≤ l1.next) (hm : Keeps me known' m) :
    Conforms protocol m (fun _ l' _ => Kept me known l l') l1 () :=
  (hm l1 h).mono fun _ _ _ h' => ⟨h'.1.mono hsub, hle.trans h'.2⟩

theorem Keeps.bind {m : Client α} {f : α → Client β} (hm : Keeps me known m)
    (hf : ∀ a, Keeps me known (f a)) : Keeps me known (m >>= f) :=
  fun _ h => hm.then h fun a l' h' => (hf a l' h'.1).mono fun _ _ _ h'' => h'.trans h''

theorem Keeps.get_bind {f : Local → Client β} (hf : ∀ l, Keeps me known (f l)) :
    Keeps me known (get >>= f) := fun l h => hf l l h

theorem Keeps.getMdi_bind {a : Nat} {f : MetadataInfo → Client β} (hf : ∀ x, Keeps me known (f x)) :
    Keeps me known (getMdi a >>= f) := fun l h => hf (l.heap a) l h

theorem Keeps.invalidate_bind {key : Str} {f : Unit → Client β} (hf : Keeps me known (f ())) :
    Keeps me known (cacheInvalidate key >>= f) := fun _ h => hf _ (h.invalidate key)

theorem Keeps.ite {c : Prop} [Decidable c] {m m' : Client α} (h : Keeps me known m)
    (h' : Keeps me known m') : Keeps me known (if c then m else m') :=
  fun l hl => Conforms.ite (fun _ => h l hl) fun _ => h' l hl

theorem Keeps.quiet {r : Req} (hr : r.quiet = true) : Keeps me known (perform r) :=
  fun _ h => conforms_quiet (objects me known) hr fun _ _ => h.kept

theorem Keeps.require {m : Client Int} (hm : Keeps me known m) : Keeps me known (require m) :=
  hm.bind fun _ => Keeps.ite Keeps.exit (Keeps.pure ())

theorem Keeps.deref (mdi : Option Nat) : Keeps me known (deref mdi) := by
  cases mdi with
  | none => exact Keeps.exit
  | some a => exact Keeps.pure a

/-- An object that has an inode number is changed, and then `f`. -/
theorem Keeps.setMD_bind {a : Nat} (ha : a ∈ known) {g : Inode → Inode} {f : Unit → Client β}
    (hg : ∀ md, md.inodeNumber ≠ 0 → (g md).inodeNumber ≠ 0) (hf : Keeps me known (f ())) :
    Keeps me known (setMD a g >>= f) :=
  fun _ h => conforms_setMdi_bind (hf _ (h.change ha (hg _ (h.inode ha))))

theorem putMetadata_keeps {a : Nat} (ha : a ∈ known) (why : Purpose) :
    Keeps me known (putMetadata me why a) := by
  intro l h
  refine conforms_getMdi_bind ?_
  refine (Conforms.call (Q := fun _ l' _ => l' = l) (h.inode ha) fun _ _ => rfl).then ?_
  rintro ⟨status, version⟩ l' _ rfl
  cases status with
  | OK => exact conforms_setMdi_bind (Conforms.pure ⟨h.setVersion ha version, Nat.le_refl _⟩)
  | _ => exact conforms_cacheInvalidate_bind (Conforms.pure ⟨h.invalidate _, Nat.le_refl _⟩)

theorem createMetadata_keeps {a : Nat} (ha : a ∈ known) (why : Purpose) :
    Keeps me known (createMetadata me why a) := by
  intro l h
  refine conforms_getMdi_bind ?_
  refine (Conforms.call (Q := fun _ l' _ => l' = l) (h.inode ha) fun _ _ => rfl).then ?_
  rintro ⟨status, version⟩ l' _ rfl
  cases status with
  | OK => exact conforms_setMdi_bind (Conforms.pure ⟨h.setVersion ha version, Nat.le_refl _⟩)
  | _ => exact Conforms.pure h.kept

theorem deleteMetadata_keeps (a : Nat) (why : Purpose) : Keeps me known (deleteMetadata me why a) := by
  refine Keeps.getMdi_bind fun x => Keeps.invalidate_bind fun l h => ?_
  refine (Conforms.call (Q := fun _ l' _ => l' = l) trivial fun _ _ => rfl).then ?_
  rintro (status : StatusCode) l' _ rfl
  cases status <;> exact Conforms.pure h.kept

/-- Reading a key into an object. -/
theorem getMetadata_sane (h : Sane me known l) {a : Nat} (ha : a < l.next) :
    Conforms protocol (getMetadata me a) (fun err l' _ => Sane me known l' ∧ l'.next = l.next ∧
      (err = 0 → (l'.heap a).md.inodeNumber ≠ 0)) l () := by
  refine conforms_getMdi_bind ?_
  refine (Conforms.call (Q := fun x l' _ => l' = l ∧ Answered (.get me a (l.heap a).systemPath) x) trivial
    fun _ hx => ⟨rfl, hx⟩).then ?_
  rintro (x : Except StatusCode (KineticRecord Inode)) l' _ ⟨rfl, hx⟩
  cases x with
  | ok record =>
    have hn : ({ l'.heap a with md := record.value, keyVersion := record.version } :
        MetadataInfo).md.inodeNumber ≠ 0 := hx record rfl
    refine conforms_setMdi_bind (Conforms.pure ⟨?_, rfl, fun _ => ?_⟩)
    · exact (h.setObject ha hn rfl).mono (Set.subset_insert _ _)
    · rw [Local.setObject_heap, if_pos rfl]
      exact hn
  | error code =>
    have hne : -ENOENT ≠ 0 ∧ - EIO ≠ 0 := by decide
    cases code <;> first
      | exact Conforms.pure ⟨h, rfl, fun h0 => absurd h0 hne.1⟩
      | exact Conforms.pure ⟨h, rfl, fun h0 => absurd h0 hne.2⟩

theorem putMetadataForced_keeps {a : Nat} (ha : a ∈ known) (fuel : Nat) :
    Keeps me known (putMetadataForced me a fuel) := by
  induction fuel with
  | zero => exact Keeps.exit
  | succ fuel ih =>
    refine (putMetadata_keeps ha .update).bind fun err => Keeps.ite (Keeps.pure err) fun l h => ?_
    refine (getMetadata_sane h (h.lt ha)).then ?_
    rintro err l' _ ⟨h', hnext, -⟩
    have hle : l.next ≤ l'.next := Nat.le_of_eq hnext.symm
    refine Conforms.ite (fun _ => Conforms.pure ⟨h', hle⟩) fun _ => ?_
    exact (ih l' h').mono fun _ _ _ h'' => ⟨h''.1, hle.trans h''.2⟩

theorem touchDirectory_keeps {env : Env} {a : Nat} (ha : a ∈ known) (fuel : Nat) :
    Keeps me known (touchDirectory me env a fuel) :=
  Keeps.ite ((putMetadataForced_keeps ha fuel).bind fun _ => Keeps.pure 0) (Keeps.pure 0)

theorem createDirectoryEntry_keeps {env : Env} {a : Nat} (ha : a ∈ known) (filename : Str) (fuel : Nat) :
    Keeps me known (createDirectoryEntry me env a filename fuel) := by
  refine Keeps.getMdi_bind fun x => (Keeps.quiet rfl).bind ?_
  intro (status : StatusCode)
  cases status with
  | OK => exact touchDirectory_keeps ha fuel
  | _ => exact Keeps.pure _

theorem deleteDirectoryEntry_keeps {env : Env} {a : Nat} (ha : a ∈ known) (filename : Str) (fuel : Nat) :
    Keeps me known (deleteDirectoryEntry me env a filename fuel) := by
  refine Keeps.getMdi_bind fun x => (Keeps.quiet rfl).bind ?_
  intro (status : StatusCode)
  cases status with
  | OK => exact touchDirectory_keeps ha fuel
  | _ => exact Keeps.pure _

theorem databaseUpdate_keeps : Keeps me known databaseUpdate :=
  fun _ h => (databaseUpdate_good h).mono fun _ _ _ h' => ⟨h'.2.1, Nat.le_of_eq h'.2.2.1.symm⟩

theorem databaseOperation_keeps (entry : DbEntry) (fuel : Nat) :
    Keeps me known (databaseOperation entry fuel) := by
  induction fuel with
  | zero => exact Keeps.exit
  | succ fuel ih =>
    refine Keeps.get_bind fun l => (Keeps.quiet rfl).bind ?_
    intro (status : StatusCode)
    cases status with
    | OK =>
      dsimp only
      split
      · exact Keeps.exit
      · exact fun l h => Conforms.modify_bind (Conforms.pure
          ⟨⟨h.objects, h.free, h.cache⟩, Nat.le_refl _⟩)
    | REMOTE_VERSION_MISMATCH =>
      exact databaseUpdate_keeps.bind fun err => Keeps.ite (Keeps.pure err) ih
    | _ => exact Keeps.pure _

end Keys

/-! ## Operations -/

section Operations

variable {me : Nat} {known : Set Nat} {l : Local} {env : Env} {ctx : Context}

theorem lookup_sane (h : Sane me known l) (fuel : Nat) (path : Str) :
    Conforms protocol (lookup me env ctx fuel path none) (fun r l' _ => Kept me known l l' ∧ Found r l') l () :=
  ((lookup_good protocol me env ctx fuel).extends h (by simp) path).mono
    fun _ _ _ h' => ⟨⟨h'.1, h'.2.2.next_le⟩, h'.2.1⟩

theorem lookupParent_sane (h : Sane me known l) (fuel : Nat) (path : Str) :
    Conforms protocol (lookupParent me env ctx fuel path)
      (fun r l' _ => Kept me known l l' ∧ Found r l') l () :=
  (lookupParent_good h fuel path).mono fun _ _ _ h' => ⟨⟨h'.1, h'.2.2.1.next_le⟩, h'.2.1⟩

/-- The object that was found joins those that have an inode number. -/
theorem Sane.found (h : Sane me known l) {r : Int × Option Nat} (hf : Found r l) (h0 : r.1 = 0) :
    ∃ a, r.2 = some a ∧ Sane me (Insert.insert a known) l := by
  obtain ⟨a, ha, hn, -, -⟩ := hf.found h0
  exact ⟨a, ha, h.insert (hf.bound a ha) hn⟩

theorem getMetadataUserpath_sane (h : Sane me known l) (fuel : Nat) (path : Str) :
    Conforms protocol (getMetadataUserpath me fuel path) (fun r l' _ => Kept me known l l' ∧
      (r.1 = 0 → ∃ a, r.2 = some a ∧ Sane me (Insert.insert a known) l')) l () := by
  refine Conforms.get_bind ?_
  split
  · exact conforms_exit
  · rename_i key stamp _
    refine Conforms.ite (fun hneg => ?_) fun _ => ?_
    · exact Conforms.pure ⟨h.kept, fun h0 => absurd h0 (by omega)⟩
    · refine conforms_newMetadataInfo_bind ?_
      refine (getMetadata_sane (h.new key) (Nat.lt_succ_self _)).then ?_
      rintro err l' _ ⟨h', hnext, hn⟩
      have hnext' : l'.next = l.next + 1 := hnext
      refine Conforms.pure ⟨⟨h', by omega⟩, fun h0 => ⟨l.next, rfl, ?_⟩⟩
      exact h'.insert (by omega) (hn h0)

theorem createIn_keeps (h : Sane me known l) {mdi mdiDir : Nat} (hm : mdi < l.next)
    (hd : mdiDir ∈ known) (fuel : Nat) (path : Str) (mode : Nat) :
    Conforms protocol (createIn me env ctx fuel path mode mdi mdiDir)
      (fun _ l' _ => Kept me known l l') l () := by
  refine conforms_getMdi_bind (Conforms.ite (fun _ => Conforms.pure h.kept) fun _ => ?_)
  refine (createDirectoryEntry_keeps hd _ fuel).then h fun err l1 h1 => ?_
  refine Conforms.ite (fun _ => Conforms.pure h1) fun _ => ?_
  refine Conforms.bind ?_
  refine (conforms_quiet (objects me known) (r := .inodeNumber) rfl
    (Q := fun n l' _ => l' = l1 ∧ Answered .inodeNumber n) fun n hn => ⟨rfl, hn⟩).then ?_
  rintro (n : Nat) l1 _ ⟨rfl, hn⟩
  refine conforms_getMdi_bind ?_
  have hm1 : mdi < l1.next := Nat.lt_of_lt_of_le hm h1.2
  have hinherit : ∀ md parent : Inode,
      (inheritPathPermissions env md parent).inodeNumber = md.inodeNumber :=
    fun md parent => inode_of_core (core_inherit env md parent)
  -- the object of the new name gets its inode number here
  have h2 := h1.1.setMD hm1 (f := fun md => inheritPathPermissions env
    { md with type := .POSIX, gid := ctx.gid, uid := ctx.uid, mode := mode, inodeNumber := n }
    (l1.heap mdiDir).md) (by rw [hinherit]; exact hn)
  refine Conforms.modify ?_
  refine Keeps.after h2 (Set.subset_insert _ _) h1.2 ?_
  exact (createMetadata_keeps (Set.mem_insert _ _) .create).require.bind fun _ => Keeps.pure 0

theorem hflatCreate_keeps (fuel : Nat) (path : Str) (mode : Nat) :
    Keeps me known (hflatCreate me env ctx fuel path mode) := by
  intro l h
  refine (lookup_sane h fuel path).then ?_
  rintro ⟨err, mdi⟩ l1 _ ⟨h1, hf1⟩
  refine Conforms.ite (fun _ => Conforms.pure h1) fun _ => Conforms.ite (fun _ => Conforms.pure h1) fun _ => ?_
  refine (lookupParent_sane h1.1 fuel path).then ?_
  rintro ⟨err, mdiDir⟩ l2 _ ⟨h2, hf2⟩
  have h12 : Kept me known l l2 := h1.trans h2
  refine Conforms.ite (fun _ => Conforms.pure h12) fun _ => Conforms.ite (fun _ => Conforms.pure h12) fun herr => ?_
  obtain ⟨dir, hdir, h3⟩ := h2.1.found hf2 (not_not.mp herr)
  obtain rfl : mdiDir = some dir := hdir
  cases mdi with
  | none => exact conforms_exit
  | some mdi =>
    have hm : mdi < l2.next := Nat.lt_of_lt_of_le (hf1.bound mdi rfl) h2.2
    exact (createIn_keeps h3 hm (Set.mem_insert _ _) fuel path mode).mono fun _ _ _ h4 =>
      ⟨h4.1.mono (Set.subset_insert _ _), h12.2.trans h4.2⟩

theorem hflatUpdate_keeps (path : Str) (change : Change) (fuel : Nat) :
    Keeps me known (hflatUpdate me env ctx path change fuel) := by
  induction fuel generalizing known with
  | zero => exact Keeps.exit
  | succ fuel ih =>
    intro l h
    refine (lookup_sane h (fuel + 1) path).then ?_
    rintro ⟨err, mdi⟩ l1 _ ⟨h1, hf1⟩
    refine Conforms.ite (fun _ => Conforms.pure h1) fun herr => ?_
    obtain ⟨a, ha, h2⟩ := h1.1.found hf1 (not_not.mp herr)
    obtain rfl : mdi = some a := ha
    refine conforms_deref_bind (conforms_getMdi_bind ?_)
    cases hc : change.apply (l1.heap a).md with
    | error err => exact Conforms.pure h1
    | ok md =>
      have hn : md.inodeNumber ≠ 0 := by
        rw [(change.keeps _ _ hc).2]
        exact h2.inode (Set.mem_insert _ _)
      refine conforms_setMdi_bind ?_
      have h3 := h2.change (f := fun _ => md) (Set.mem_insert _ _) hn
      refine Keeps.after h3 (Set.subset_insert _ _) h1.2 ?_
      exact (putMetadata_keeps (Set.mem_insert _ _) .update).bind fun err => Keeps.ite ih (Keeps.pure err)

theorem removeMapping_keeps (path : Str) (fuel : Nat) : Keeps me known (removeMapping path fuel) :=
  (databaseOperation_keeps _ fuel).require

theorem unlinkForceUpdate_keeps (fuel : Nat) (path : Str) :
    Keeps me known (unlinkForceUpdate me fuel path) := by
  intro l h
  refine (getMetadataUserpath_sane h fuel path).then ?_
  rintro ⟨err, mdi⟩ l1 _ ⟨h1, -⟩
  refine Conforms.ite (fun _ => Conforms.pure h1) fun _ => Conforms.ite (fun _ => Conforms.pure h1) fun _ => ?_
  refine Keeps.after h1.1 (Set.Subset.refl _) h1.2 ((Keeps.deref mdi).bind fun mdi => ?_)
  have hdelete : Keeps me known (deleteMetadata me .delete mdi) := deleteMetadata_keeps mdi .delete
  exact Keeps.getMdi_bind fun _ => Keeps.ite (Keeps.exit.bind fun _ => hdelete) hdelete

/-- Both objects of `unlink_lookup` have an inode number. -/
theorem unlinkLookup_sane (h : Sane me known l) (fuel : Nat) (path : Str) :
    Conforms protocol (unlinkLookup me env ctx fuel path) (fun r l' _ => Kept me known l l' ∧
      (r.1 = 0 → Sane me (insert r.2.2 (insert r.2.1 known)) l')) l () := by
  have hne : -EACCES ≠ 0 := by decide
  refine (lookup_sane h fuel path).then ?_
  rintro ⟨err, mdi⟩ l1 _ ⟨h1, hf1⟩
  refine Conforms.ite (fun herr => Conforms.pure ⟨h1, fun h0 => absurd h0 herr⟩) fun herr => ?_
  obtain ⟨a, ha, h2⟩ := h1.1.found hf1 (not_not.mp herr)
  obtain rfl : mdi = some a := ha
  refine conforms_deref_bind ?_
  refine (lookupParent_sane h2 fuel path).then ?_
  rintro ⟨err, mdiDir⟩ l2 _ ⟨h3, hf3⟩
  have h13 : Kept me known l l2 := ⟨h3.1.mono (Set.subset_insert _ _), h1.2.trans h3.2⟩
  refine Conforms.ite (fun herr => Conforms.pure ⟨h13, fun h0 => absurd h0 herr⟩) fun herr => ?_
  obtain ⟨dir, hdir, h4⟩ := h3.1.found hf3 (not_not.mp herr)
  obtain rfl : mdiDir = some dir := hdir
  refine conforms_deref_bind (conforms_getMdi_bind ?_)
  refine Conforms.ite (fun _ => Conforms.pure ⟨h13, fun h0 => absurd h0 hne⟩) fun _ => ?_
  refine conforms_getMdi_bind ?_
  refine Conforms.ite (fun _ => Conforms.pure ⟨h13, fun h0 => absurd h0 hne⟩) fun _ => ?_
  exact Conforms.pure ⟨h13, fun _ => h4⟩

theorem finishUnlink_keeps {mdiS : Nat} (hS : mdiS ∈ known) (err : Int) :
    Keeps me known (finishUnlink me mdiS err) := by
  refine Keeps.ite ?_ ?_
  · exact Keeps.setMD_bind hS (fun _ h => h)
      ((putMetadata_keeps hS .restore).require.bind fun _ => Keeps.pure err)
  · exact (deleteMetadata_keeps mdiS .deleteLink).require.bind fun _ => Keeps.pure 0

theorem unlinkHardlink_keeps {mdiT : Nat} (hT : mdiT ∈ known) (fuel : Nat) (path : Str) :
    Keeps me known (unlinkHardlink me fuel path mdiT) := by
  intro l h
  refine (getMetadataUserpath_sane h fuel path).then ?_
  rintro ⟨err, mdi⟩ l1 _ ⟨h1, hf1⟩
  refine Conforms.ite (fun _ => Conforms.pure h1) fun herr => ?_
  obtain ⟨a, ha, h2⟩ := hf1 (not_not.mp herr)
  obtain rfl : mdi = some a := ha
  have hS : a ∈ insert a known := Set.mem_insert _ _
  have hT' : mdiT ∈ insert a known := Set.mem_insert_of_mem _ hT
  refine conforms_deref_bind (conforms_getMdi_bind ?_)
  refine Conforms.ite (fun _ => conforms_exit) fun _ => ?_
  refine Conforms.ite (fun _ => Conforms.pure h1) fun _ => ?_
  refine Keeps.after h2 (Set.subset_insert _ _) h1.2 (Keeps.setMD_bind hS (fun _ h => h) ?_)
  refine (putMetadata_keeps hS .reserve).bind fun err => Keeps.ite (Keeps.pure err) ?_
  refine Keeps.setMD_bind hT' (fun _ h => h) (Keeps.getMdi_bind fun _ => Keeps.ite ?_ ?_)
  · exact (deleteMetadata_keeps mdiT .dropLink).bind fun err => finishUnlink_keeps hS err
  · exact (putMetadata_keeps hT' .dropLink).bind fun err => finishUnlink_keeps hS err

theorem unlinkNames_keeps {unlink : Str → Client Int} (hunlink : ∀ path, Keeps me known (unlink path))
    {mdiDir : Nat} (hd : mdiDir ∈ known) (fuel : Nat) (path : Str) (mdi : Nat) (directory : Bool) :
    Keeps me known (unlinkNames me env ctx unlink fuel path mdi mdiDir directory) := by
  have hreuse : ∀ x : MetadataInfo, Keeps me known (do
      if hasMapping (← get).pmap x.systemPath then
        let err ← hflatCreate me env ctx fuel x.systemPath S_IFREG
        if err = 0 then
          let _ ← unlink x.systemPath
          return 0
        return 0
      return (0 : Int)) := fun x => by
    refine Keeps.get_bind fun _ => Keeps.ite ?_ (Keeps.pure 0)
    refine (hflatCreate_keeps fuel _ S_IFREG).bind fun _ => Keeps.ite ?_ (Keeps.pure 0)
    exact (hunlink _).bind fun _ => Keeps.pure 0
  have hentry : Keeps me known (require (deleteDirectoryEntry me env mdiDir (pathToFilename path) fuel)) :=
    (deleteDirectoryEntry_keeps hd (pathToFilename path) fuel).require
  have hforce : Keeps me known (require (unlinkForceUpdate me fuel path)) :=
    (unlinkForceUpdate_keeps fuel path).require
  refine Keeps.get_bind fun _ => Keeps.ite ?_ ?_
  · refine (removeMapping_keeps path fuel).bind fun _ => Keeps.ite ?_ ?_
    · exact hforce.bind fun _ => hentry.bind fun _ => Keeps.getMdi_bind hreuse
    · exact hentry.bind fun _ => Keeps.getMdi_bind hreuse
  · refine Keeps.ite ?_ ?_
    · exact hforce.bind fun _ => hentry.bind fun _ => Keeps.getMdi_bind hreuse
    · exact hentry.bind fun _ => Keeps.getMdi_bind hreuse

theorem hflatUnlink_keeps (fuel : Nat) (path : Str) : Keeps me known (hflatUnlink me env ctx fuel path) := by
  induction fuel generalizing known path with
  | zero => exact Keeps.exit
  | succ fuel ih =>
    intro l h
    refine (unlinkLookup_sane h (fuel + 1) path).then ?_
    rintro ⟨err, mdi, mdiDir⟩ l1 _ ⟨h1, hf1⟩
    refine Conforms.ite (fun _ => Conforms.pure h1) fun herr => ?_
    have h2 := hf1 (not_not.mp herr)
    have hdir : mdiDir ∈ insert mdiDir (insert mdi known) := Set.mem_insert _ _
    have hmdi : mdi ∈ insert mdiDir (insert mdi known) := Set.mem_insert_of_mem _ (Set.mem_insert _ _)
    have hsub : known ⊆ insert mdiDir (insert mdi known) :=
      fun a ha => Set.mem_insert_of_mem _ (Set.mem_insert_of_mem _ ha)
    refine conforms_getMdi_bind (Keeps.after h2 hsub h1.2 ?_)
    have hrest : ∀ err : Int, Keeps me (insert mdiDir (insert mdi known)) (
        if err = -EAGAIN then hflatUnlink me env ctx fuel path
        else if err ≠ 0 then pure err
        else unlinkNames me env ctx (hflatUnlink me env ctx fuel) (fuel + 1) path mdi mdiDir
          (S_ISDIR (l1.heap mdi).md.mode)) := fun err =>
      Keeps.ite (ih path) (Keeps.ite (Keeps.pure err)
        (unlinkNames_keeps (fun path => ih path) hdir (fuel + 1) path mdi _))
    refine Keeps.ite ?_ ?_
    · exact (unlinkHardlink_keeps hmdi (fuel + 1) path).bind hrest
    · exact (deleteMetadata_keeps mdi .delete).bind hrest

theorem hflatRmdir_keeps (fuel : Nat) (path : Str) : Keeps me known (hflatRmdir me env ctx fuel path) := by
  intro l h
  refine (lookup_sane h fuel path).then ?_
  rintro ⟨err, mdi⟩ l1 _ ⟨h1, -⟩
  refine Conforms.ite (fun _ => Conforms.pure h1) fun _ => ?_
  refine Keeps.after h1.1 (Set.Subset.refl _) h1.2 ((Keeps.deref mdi).bind fun mdi => ?_)
  refine Keeps.getMdi_bind fun x => (Keeps.quiet rfl).bind ?_
  intro (keys : List Str)
  refine Keeps.ite (Keeps.pure _) ?_
  exact databaseUpdate_keeps.bind fun _ => hflatUnlink_keeps fuel path

/-- The objects that `rename_lookup` returns; that of the target may have no inode number. -/
theorem renameLookup_sane (h : Sane me known l) (fuel : Nat) (pathFrom pathTo : Str) :
    Conforms protocol (renameLookup me env ctx fuel pathFrom pathTo) (fun r l' _ => Kept me known l l' ∧
      ∀ x, r = .ok x → Sane me ({x.dirFrom, x.dirTo, x.mdiFrom} ∪ known) l' ∧ x.mdiTo < l'.next) l () := by
  have herror : ∀ {err : Int} {l' : Local}, Kept me known l l' → Conforms protocol
      (pure (.error err) : Client (Except Int Renaming)) (fun r l' _ => Kept me known l l' ∧
      ∀ x, r = .ok x → Sane me ({x.dirFrom, x.dirTo, x.mdiFrom} ∪ known) l' ∧ x.mdiTo < l'.next) l' () :=
    fun h => Conforms.pure ⟨h, fun _ hx => by cases hx⟩
  refine Conforms.ite (fun _ => herror h.kept) fun _ => ?_
  refine (lookupParent_sane h fuel pathFrom).then ?_
  rintro ⟨err, dirFrom⟩ l1 _ ⟨h1, hf1⟩
  refine Conforms.ite (fun _ => herror h1) fun herr1 => ?_
  obtain ⟨dirFrom, rfl, h1'⟩ := h1.1.found hf1 (not_not.mp herr1)
  refine (lookupParent_sane h1' fuel pathTo).then ?_
  rintro ⟨err, dirTo⟩ l2 _ ⟨h2, hf2⟩
  have hk2 : Kept me known l l2 := ⟨h2.1.mono (Set.subset_insert _ _), h1.2.trans h2.2⟩
  refine Conforms.ite (fun _ => herror hk2) fun herr2 => ?_
  obtain ⟨dirTo, rfl, h2'⟩ := h2.1.found hf2 (not_not.mp herr2)
  refine (lookup_sane h2' fuel pathFrom).then ?_
  rintro ⟨err, mdiFrom⟩ l3 _ ⟨h3, hf3⟩
  have hsub : known ⊆ insert dirTo (insert dirFrom known) :=
    fun a ha => Set.mem_insert_of_mem _ (Set.mem_insert_of_mem _ ha)
  have hk3 : Kept me known l l3 := ⟨h3.1.mono hsub, hk2.2.trans h3.2⟩
  refine Conforms.ite (fun _ => herror hk3) fun herr3 => ?_
  obtain ⟨mdiFrom, rfl, h3'⟩ := h3.1.found hf3 (not_not.mp herr3)
  refine conforms_deref_bind (conforms_deref_bind (conforms_deref_bind ?_))
  refine conforms_getMdi_bind (conforms_getMdi_bind (Conforms.ite (fun _ => herror hk3) fun _ => ?_))
  refine (lookup_sane h3' fuel pathTo).then ?_
  rintro ⟨err, mdiTo⟩ l4 _ ⟨h4, hf4⟩
  have hk4 : Kept me known l l4 :=
    ⟨h4.1.mono fun a ha => Set.mem_insert_of_mem _ (hsub ha), hk3.2.trans h4.2⟩
  refine Conforms.ite (fun _ => herror hk4) fun _ => ?_
  cases mdiTo with
  | none => exact conforms_exit
  | some mdiTo =>
    refine conforms_deref_bind (conforms_getMdi_bind (conforms_getMdi_bind (conforms_getMdi_bind ?_)))
    refine Conforms.ite (fun _ => herror hk4) fun _ => Conforms.pure ⟨hk4, fun x hx => ?_⟩
    cases hx
    refine ⟨h4.1.mono fun a ha => ?_, hf4.bound mdiTo rfl⟩
    rcases ha with (rfl | rfl | rfl) | ha
    · exact Set.mem_insert_of_mem _ (Set.mem_insert_of_mem _ (Set.mem_insert _ _))
    · exact Set.mem_insert_of_mem _ (Set.mem_insert _ _)
    · exact Set.mem_insert _ _
    · exact Set.mem_insert_of_mem _ (hsub ha)

/-- The version under which a rename stores is that of the target's object. -/
theorem renameRegular_sane (h : Sane me known l) {mdiTo mdiFrom : Nat} (hf : mdiFrom ∈ known)
    (ht : mdiTo < l.next) :
    Conforms protocol (renameRegular me mdiTo mdiFrom) (fun _ l' _ => Kept me known l l') l () := by
  have hallowed : Allowed (.putVersion me (.copy mdiFrom ((l.heap mdiTo).md.inodeNumber ≠ 0))
      (l.heap mdiTo).systemPath ⟨(l.heap mdiFrom).md, (l.heap mdiTo).keyVersion⟩) :=
    ⟨h.inode hf, fun hr => (h.objects mdiTo ht).1 (by simpa using hr)⟩
  refine conforms_getMdi_bind (conforms_getMdi_bind ?_)
  refine (Conforms.call (Q := fun _ l' _ => l' = l) hallowed fun _ _ => rfl).then ?_
  rintro (status : StatusCode) l' _ rfl
  refine Conforms.ite (fun _ => Conforms.pure h.kept) fun _ => ?_
  refine (Conforms.call (Q := fun _ l'' _ => l'' = l') trivial fun _ _ => rfl).then ?_
  rintro (status : StatusCode) l' _ rfl
  exact Conforms.ite (fun _ => Conforms.pure h.kept) fun _ => Conforms.pure h.kept

theorem require_sane {m : Client Int} (hm : Conforms protocol m (fun _ l' _ => Kept me known l l') l ()) :
    Conforms protocol (require m) (fun _ l' _ => Kept me known l l') l () :=
  hm.then fun _ _ _ h' => Conforms.ite (fun _ => conforms_exit) fun _ => Conforms.pure h'

theorem renameSoftlink_sane (h : Sane me known l) {mdiTo mdiFrom : Nat} (hf : mdiFrom ∈ known)
    (ht : mdiTo < l.next) (fuel : Nat) (pathFrom pathTo : Str) :
    Conforms protocol (renameSoftlink me fuel pathFrom pathTo mdiTo mdiFrom)
      (fun _ l' _ => Kept me known l l') l () := by
  have hread : Keeps me known (hflatReadlink fuel pathFrom) := by
    refine Keeps.get_bind fun l => ?_
    split
    · exact Keeps.exit
    · exact Keeps.pure _
  refine hread.then h fun buffer l1 h1 => ?_
  refine (removeMapping_keeps pathFrom fuel).then h1.1 fun _ l2 h2 => ?_
  refine (databaseOperation_keeps _ fuel).require.then h2.1 fun _ l3 h3 => ?_
  have hle : l.next ≤ l3.next := (h1.2.trans h2.2).trans h3.2
  exact (renameRegular_sane h3.1 hf (Nat.lt_of_lt_of_le ht hle)).mono fun _ _ _ h4 =>
    ⟨h4.1, hle.trans h4.2⟩

theorem renameHardlink_sane (h : Sane me known l) {mdiTo : Nat} (ht : mdiTo < l.next) (fuel : Nat)
    (pathFrom : Str) :
    Conforms protocol (renameHardlink me fuel pathFrom mdiTo) (fun _ l' _ => Kept me known l l') l () := by
  refine (getMetadataUserpath_sane h fuel pathFrom).then ?_
  rintro ⟨err, mdi⟩ l1 _ ⟨h1, hf1⟩
  refine Conforms.ite (fun _ => conforms_exit) fun herr => ?_
  obtain ⟨mdiFrom, rfl, h2⟩ := hf1 (not_not.mp herr)
  refine conforms_deref_bind (conforms_getMdi_bind ?_)
  refine Conforms.ite (fun _ => conforms_exit) fun _ => ?_
  have hregular := renameRegular_sane h2 (Set.mem_insert mdiFrom known) (Nat.lt_of_lt_of_le ht h1.2)
  refine (require_sane hregular).then fun _ l2 _ h3 => ?_
  refine conforms_getMdi_bind (conforms_cacheInvalidate_bind (Conforms.pure ⟨?_, h1.2.trans h3.2⟩))
  exact (h3.1.mono (Set.subset_insert _ _)).invalidate _

theorem renameDirectory_sane (h : Sane me known l) {r : Renaming} (hf : r.mdiFrom ∈ known)
    (ht : r.mdiTo < l.next) (fuel : Nat) (pathFrom pathTo : Str) :
    Conforms protocol (renameDirectory me env fuel pathFrom pathTo r)
      (fun _ l' _ => Kept me known l l') l () := by
  refine (databaseOperation_keeps _ fuel).require.then h fun _ l1 h1 => ?_
  refine conforms_getMdi_bind (conforms_newMetadataInfo_bind ?_)
  refine (getMetadata_sane (h1.1.new _) (Nat.lt_succ_self _)).then ?_
  rintro err l2 _ ⟨h2, hnext, -⟩
  have hle : l.next ≤ l2.next := by
    have hnext' : l2.next = l1.next + 1 := hnext
    have := h1.2
    omega
  have hforce : ∀ mdiFu : Nat, Keeps me known (require (deleteMetadata me .delete mdiFu)) :=
    fun mdiFu => (deleteMetadata_keeps mdiFu .delete).require
  -- what is left after the old `FORCE_UPDATE` inode is gone
  have hrest : ∀ l3 : Local, Sane me known l3 → l.next ≤ l3.next → Conforms protocol (do
      let inode : Nat ← perform .inodeNumber
      setMD r.mdiTo fun md => { md with type := .FORCE_UPDATE, inodeNumber := inode }
      require (createMetadata me .create r.mdiTo)
      if env.posixFull then require (putMetadataForced me r.mdiFrom fuel)
      return (0 : Int)) (fun _ l' _ => Kept me known l l') l3 () := by
    intro l3 h3 hle3
    refine (conforms_quiet (objects me known) (r := .inodeNumber) rfl
      (Q := fun n l' _ => l' = l3 ∧ Answered .inodeNumber n) fun n hn => ⟨rfl, hn⟩).then ?_
    rintro (n : Nat) l3 _ ⟨rfl, hn⟩
    have h4 := h3.setMD (Nat.lt_of_lt_of_le ht hle3)
      (f := fun md => { md with type := .FORCE_UPDATE, inodeNumber := n }) hn
    refine conforms_setMdi_bind (Keeps.after h4 (Set.subset_insert _ _) hle3 ?_)
    refine (createMetadata_keeps (Set.mem_insert _ _) .create).require.bind fun _ => Keeps.ite ?_ (Keeps.pure 0)
    exact (putMetadataForced_keeps (Set.mem_insert_of_mem _ hf) fuel).require.bind fun _ => Keeps.pure 0
  refine conforms_getMdi_bind (Conforms.ite (fun _ => ?_) fun _ => hrest l2 h2 hle)
  exact (hforce l1.next).then h2 fun _ l3 h3 => hrest l3 h3.1 (hle.trans h3.2)

theorem renameObject_sane (h : Sane me known l) {r : Renaming} (hf : r.mdiFrom ∈ known)
    (ht : r.mdiTo < l.next) (fuel : Nat) (pathFrom pathTo : Str) :
    Conforms protocol (renameObject me env fuel pathFrom pathTo r) (fun _ l' _ => Kept me known l l') l () := by
  refine conforms_getMdi_bind ?_
  have hlt : ∀ {l' : Local}, Kept me known l l' → r.mdiTo < l'.next := fun h' => Nat.lt_of_lt_of_le ht h'.2
  -- each of the four moves that is made starts from sane memory
  have hlast : ∀ {c : Prop} [Decidable c] {l' : Local}, Kept me known l l' → Conforms protocol
      (if c then require (renameRegular me r.mdiTo r.mdiFrom) else pure ())
      (fun _ l'' _ => Kept me known l l'') l' () := fun h' => Conforms.ite
    (fun _ => (require_sane (renameRegular_sane h'.1 hf (hlt h'))).mono fun _ _ _ h'' => h'.trans h'')
    fun _ => Conforms.pure h'
  have hhard : ∀ {c c' : Prop} [Decidable c] [Decidable c'] {l' : Local}, Kept me known l l' → Conforms protocol (do
      if c then require (renameHardlink me fuel pathFrom r.mdiTo)
      if c' then require (renameRegular me r.mdiTo r.mdiFrom))
      (fun _ l'' _ => Kept me known l l'') l' () := fun h' => Conforms.ite
    (fun _ => (require_sane (renameHardlink_sane h'.1 (hlt h') fuel pathFrom)).then
      fun _ _ _ h'' => hlast (h'.trans h''))
    fun _ => hlast h'
  have hsoft : ∀ {c c' c'' : Prop} [Decidable c] [Decidable c'] [Decidable c''] {l' : Local},
      Kept me known l l' → Conforms protocol (do
      if c then require (renameSoftlink me fuel pathFrom pathTo r.mdiTo r.mdiFrom)
      if c' then require (renameHardlink me fuel pathFrom r.mdiTo)
      if c'' then require (renameRegular me r.mdiTo r.mdiFrom))
      (fun _ l'' _ => Kept me known l l'') l' () := fun h' => Conforms.ite
    (fun _ => (require_sane (renameSoftlink_sane h'.1 hf (hlt h') fuel pathFrom pathTo)).then
      fun _ _ _ h'' => hhard (h'.trans h''))
    fun _ => hhard h'
  refine Conforms.ite (fun _ => ?_) fun _ => hsoft h.kept
  exact (require_sane (renameDirectory_sane h hf ht fuel pathFrom pathTo)).then fun _ _ _ h' => hsoft h'

theorem renameEntries_sane (h : Sane me known l) {r : Renaming} (hd : r.dirFrom ∈ known)
    (hd' : r.dirTo ∈ known) (hf : r.mdiFrom ∈ known) (ht : r.mdiTo < l.next) (fuel : Nat)
    (pathFrom pathTo : Str) :
    Conforms protocol (renameEntries me env fuel pathFrom pathTo r) (fun _ l' _ => Kept me known l l') l () := by
  refine (createDirectoryEntry_keeps hd' _ fuel).then h fun err l1 h1 => ?_
  refine Conforms.ite (fun _ => Conforms.pure h1) fun _ => ?_
  refine (createDirectoryEntry_keeps hd' _ fuel).require.then h1.1 fun _ l2 h2 => ?_
  refine (deleteDirectoryEntry_keeps hd _ fuel).then h2.1 fun err l3 h3 => ?_
  have hk3 : Kept me known l l3 := (h1.trans h2).trans h3
  refine Conforms.ite (fun _ => ?_) fun _ => ?_
  · refine Keeps.after h3.1 (Set.Subset.refl _) hk3.2 ?_
    refine (deleteDirectoryEntry_keeps hd' _ fuel).require.bind fun _ => ?_
    exact (deleteDirectoryEntry_keeps hd' _ fuel).require.bind fun _ => Keeps.pure err
  · refine (renameObject_sane h3.1 hf (Nat.lt_of_lt_of_le ht hk3.2) fuel pathFrom pathTo).then
      fun _ l4 _ h4 => ?_
    refine Keeps.after h4.1 (Set.Subset.refl _) (hk3.2.trans h4.2) ?_
    refine (deleteDirectoryEntry_keeps hd' _ fuel).require.bind fun _ => Keeps.getMdi_bind fun _ => ?_
    exact Keeps.invalidate_bind (Keeps.getMdi_bind fun _ => Keeps.invalidate_bind (Keeps.pure 0))

theorem targetAfterUnlink_sane (h : Sane me known l) {mdiTo : Nat} (ht : mdiTo < l.next) (fuel : Nat)
    (pathTo : Str) :
    Conforms protocol (targetAfterUnlink me env ctx fuel pathTo mdiTo)
      (fun a l' _ => Kept me known l l' ∧ a < l'.next) l () := by
  refine conforms_getMdi_bind (Conforms.ite (fun _ => ?_) fun _ => Conforms.pure ⟨h.kept, ht⟩)
  have hp : ∀ a, some mdiTo = some a → a < l.next := fun a ha => by
    cases ha
    exact ht
  refine ((lookup_good protocol me env ctx fuel).extends h hp pathTo).then ?_
  rintro ⟨err, mdi⟩ l1 _ ⟨h1, hf1, he1⟩
  cases mdi with
  | none => exact conforms_exit
  | some a => exact Conforms.pure ⟨⟨h1, he1.next_le⟩, hf1.bound a rfl⟩

theorem hflatRename_keeps (fuel : Nat) (pathFrom pathTo : Str) :
    Keeps me known (hflatRename me env ctx fuel pathFrom pathTo) := by
  intro l h
  refine (renameLookup_sane h fuel pathFrom pathTo).then ?_
  rintro (err | r) l1 _ ⟨h1, hr⟩
  · exact Conforms.pure h1
  obtain ⟨h2, ht⟩ := hr r rfl
  have hd : r.dirFrom ∈ {r.dirFrom, r.dirTo, r.mdiFrom} ∪ known := Or.inl (Or.inl rfl)
  have hd' : r.dirTo ∈ {r.dirFrom, r.dirTo, r.mdiFrom} ∪ known := Or.inl (Or.inr (Or.inl rfl))
  have hf : r.mdiFrom ∈ {r.dirFrom, r.dirTo, r.mdiFrom} ∪ known := Or.inl (Or.inr (Or.inr rfl))
  have hsub : known ⊆ {r.dirFrom, r.dirTo, r.mdiFrom} ∪ known := Set.subset_union_right
  have hentries : ∀ {mdiTo : Nat} {l' : Local}, Kept me ({r.dirFrom, r.dirTo, r.mdiFrom} ∪ known) l1 l' →
      mdiTo < l'.next → Conforms protocol (renameEntries me env fuel pathFrom pathTo { r with mdiTo := mdiTo })
      (fun _ l'' _ => Kept me known l l'') l' () := by
    intro mdiTo l' h' ht'
    refine (renameEntries_sane (r := { r with mdiTo := mdiTo }) h'.1 hd hd' hf ht' fuel pathFrom pathTo).mono ?_
    exact fun _ _ _ h'' => ⟨h''.1.mono hsub, (h1.2.trans h'.2).trans h''.2⟩
  refine conforms_getMdi_bind (Conforms.ite (fun _ => ?_) fun _ => @hentries r.mdiTo _ h2.kept ht)
  have hrest : ∀ (err : Int) (l2 : Local), Kept me ({r.dirFrom, r.dirTo, r.mdiFrom} ∪ known) l1 l2 →
      Conforms protocol (do
        if err ≠ 0 then return err
        let mdiTo ← targetAfterUnlink me env ctx fuel pathTo r.mdiTo
        renameEntries me env fuel pathFrom pathTo { r with mdiTo := mdiTo })
      (fun _ l' _ => Kept me known l l') l2 () := by
    intro err l2 h3
    refine Conforms.ite (fun _ => Conforms.pure ⟨h3.1.mono hsub, h1.2.trans h3.2⟩) fun _ => ?_
    refine (targetAfterUnlink_sane h3.1 (Nat.lt_of_lt_of_le ht h3.2) fuel pathTo).then ?_
    rintro a l3 _ ⟨h4, ha⟩
    exact hentries (h3.trans h4) ha
  refine Conforms.ite (fun _ => ?_) fun _ => ?_
  · exact (hflatRmdir_keeps fuel pathTo).then h2 hrest
  · exact (hflatUnlink_keeps fuel pathTo).then h2 hrest

theorem operation_keeps {op : Operation} (hop : op.links = false) (fuel : Nat) :
    Keeps me known (op.run me env fuel) := by
  cases op with
  | create ctx path mode => exact hflatCreate_keeps fuel path mode
  | update ctx path change => exact hflatUpdate_keeps path change fuel
  | unlink ctx path => exact hflatUnlink_keeps fuel path
  | rmdir ctx path => exact hflatRmdir_keeps fuel path
  | link ctx target origin => cases hop
  | rename ctx pathFrom pathTo => exact hflatRename_keeps fuel pathFrom pathTo

theorem session_keeps (fuel : Nat) (ops : List Operation) (hops : ∀ op ∈ ops, op.links = false) :
    Keeps me known (session me env fuel ops) := by
  induction ops with
  | nil => exact Keeps.pure ()
  | cons op ops ih =>
    refine (operation_keeps (hops op (by simp)) fuel).bind fun _ => ?_
    exact ih fun op hop => hops op (by simp [hop])

theorem mounted_sane (me : Nat) (pmap : PathMapDB) : Sane me ∅ (Local.mounted pmap) :=
  ⟨fun a ha => absurd ha (Nat.not_lt_zero a), fun _ _ h => h, fun _ _ h => by cases h⟩

end Operations

/-! ## The history of a key -/

/-- What was stored under every key, the newest record first, and the keys that renames stored. -/
structure History where
  records : Str → List (KineticRecord Inode)
  renamed : List Str

/-- The history after one more access: a key whose record differs has been stored or deleted. -/
def History.note (h : History) (s : Store) (r : Req) (s' : Store) : History where
  records key :=
    if s'.metadata key = s.metadata key then h.records key
    else (s'.metadata key).toList ++ h.records key
  renamed :=
    match r with
    | .putVersion _ (.copy _ _) key _ =>
        if s'.metadata key = s.metadata key then h.renamed else key :: h.renamed
    | _ => h.renamed

/-- The service, noting what has been stored under each key. -/
def observed (uuid : Nat → Str) : Service Req Res Choice (Store × History) :=
  (store uuid).observe fun h s r _ s' => h.note s r s'

/-- A store at the start of its history. -/
def History.start (s : Store) : Store × History := (s, ⟨fun key => (s.metadata key).toList, []⟩)

/-- A rename that stores a key replaces no target, and no rename has stored the key before. -/
def newName (s : Store × History) (r : Req) (_ : Choice) : Bool :=
  match r with
  | .putVersion _ (.copy _ replaced) key _ =>
      (s.1.metadata key).isSome || (!replaced && !s.2.renamed.contains key)
  | _ => true

/-- `generate_uuid` never returns a string twice, nor one that the code uses itself. -/
structure Unique (uuid : Nat → Str) : Prop where
  injective : Function.Injective uuid
  ne_zero : ∀ n, uuid n ≠ lit "0"
  ne_empty : ∀ n, uuid n ≠ []

/-- Every stored record has an inode number and a generated version. -/
def Fresh (uuid : Nat → Str) (s : Store) : Prop :=
  ∀ key r, s.metadata key = some r → r.value.inodeNumber ≠ 0 ∧ ∃ n, n < s.uuids ∧ r.version = uuid n

/-- The invariant: the versions under a key differ, and each has been generated or is that of a rename. -/
structure Inv (uuid : Nat → Str) (s : Store × History) : Prop where
  nodup : ∀ key, ((s.2.records key).map KineticRecord.version).Nodup
  current : ∀ key r, s.1.metadata key = some r → r ∈ s.2.records key
  versions : ∀ key, ∀ r ∈ s.2.records key, (∃ n, n < s.1.uuids ∧ r.version = uuid n) ∨
    (r.version = lit "0" ∧ key ∈ s.2.renamed)
  inode : ∀ key r, s.1.metadata key = some r → r.value.inodeNumber ≠ 0

section Runs

variable {uuid : Nat → Str} {s s' : Store} {h : History} {r : Req} {key : Str}

theorem start_inv (hs : Fresh uuid s) : Inv uuid (History.start s) := by
  refine ⟨fun key => ?_, fun key r hr => ?_, fun key r hr => ?_, fun key r hr => (hs key r hr).1⟩
  · show ((s.metadata key).toList.map KineticRecord.version).Nodup
    cases s.metadata key <;> simp
  · show r ∈ (s.metadata key).toList
    simp [show s.metadata key = some r from hr]
  · have hr' : r ∈ (s.metadata key).toList := hr
    exact Or.inl (hs key r (Option.mem_toList.mp hr')).2

theorem renamed_subset (h : History) (s : Store) (r : Req) (s' : Store) :
    h.renamed ⊆ (h.note s r s').renamed := by
  intro key hk
  unfold History.note
  dsimp only
  split
  · split
    · exact hk
    · exact List.mem_cons_of_mem _ hk
  · exact hk

/-- A key that is not stored keeps its history; records keep where their versions come from. -/
theorem Inv.versions_mono (hinv : Inv uuid (s, h)) (hu : s.uuids ≤ s'.uuids) {record : KineticRecord Inode}
    (hr : record ∈ h.records key) : (∃ n, n < s'.uuids ∧ record.version = uuid n) ∨
      (record.version = lit "0" ∧ key ∈ (h.note s r s').renamed) := by
  rcases hinv.versions key record hr with ⟨n, hn, hv⟩ | ⟨hv, hk⟩
  · exact Or.inl ⟨n, Nat.lt_of_lt_of_le hn hu, hv⟩
  · exact Or.inr ⟨hv, renamed_subset h s r s' hk⟩

/-- An access that stores nothing. -/
theorem Inv.removed (hinv : Inv uuid (s, h)) (hu : s.uuids ≤ s'.uuids)
    (hm : ∀ key, s'.metadata key = s.metadata key ∨ s'.metadata key = none) :
    Inv uuid (s', h.note s r s') := by
  have hrecords : ∀ key, (h.note s r s').records key = h.records key := by
    intro key
    show (if _ then _ else _) = _
    split
    · rfl
    · rename_i hne
      rcases hm key with he | he
      · exact absurd he hne
      · rw [he]
        rfl
  refine ⟨fun key => ?_, fun key record hr => ?_, fun key record hr => ?_, fun key record hr => ?_⟩
  · show (((h.note s r s').records key).map _).Nodup
    rw [hrecords]
    exact hinv.nodup key
  · show record ∈ (h.note s r s').records key
    rw [hrecords]
    rcases hm key with he | he
    · exact hinv.current key record (he ▸ hr)
    · rw [show s'.metadata key = some record from hr] at he
      cases he
  · have hr' : record ∈ (h.note s r s').records key := hr
    rw [hrecords] at hr'
    exact hinv.versions_mono hu hr'
  · rcases hm key with he | he
    · exact hinv.inode key record (he ▸ hr)
    · rw [show s'.metadata key = some record from hr] at he
      cases he

/-- A record is stored under a version that the key never had. -/
theorem Inv.stored (hinv : Inv uuid (s, h)) (hu : s.uuids ≤ s'.uuids) {record : KineticRecord Inode}
    (hm : ∀ k, s'.metadata k = if k = key then some record else s.metadata k)
    (hnew : record.version ∉ (h.records key).map KineticRecord.version)
    (hversion : (∃ n, n < s'.uuids ∧ record.version = uuid n) ∨
      (record.version = lit "0" ∧ key ∈ (h.note s r s').renamed))
    (hn : record.value.inodeNumber ≠ 0) : Inv uuid (s', h.note s r s') := by
  have hself : s'.metadata key = some record := by
    rw [hm, if_pos rfl]
  have hother : ∀ k, k ≠ key → s'.metadata k = s.metadata k := fun k hk => by
    rw [hm, if_neg hk]
  have hne : s'.metadata key ≠ s.metadata key := fun he => by
    rw [hself] at he
    exact hnew (List.mem_map_of_mem (hinv.current key record he.symm))
  have hrecords : ∀ k, (h.note s r s').records k =
      if k = key then record :: h.records key else h.records k := by
    intro k
    show (if _ then _ else _) = _
    by_cases hk : k = key
    · subst hk
      rw [if_neg hne, if_pos rfl, hself]
      rfl
    · rw [if_pos (hother k hk), if_neg hk]
  refine ⟨fun k => ?_, fun k r' hr => ?_, fun k r' hr => ?_, fun k r' hr => ?_⟩
  · show (((h.note s r s').records k).map _).Nodup
    rw [hrecords]
    split
    · rw [List.map_cons]
      exact List.nodup_cons.mpr ⟨hnew, hinv.nodup key⟩
    · exact hinv.nodup k
  · show r' ∈ (h.note s r s').records k
    have hr' : s'.metadata k = some r' := hr
    rw [hm] at hr'
    rw [hrecords]
    split
    · rename_i hk
      rw [if_pos hk] at hr'
      cases hr'
      exact List.mem_cons_self
    · rename_i hk
      rw [if_neg hk] at hr'
      exact hinv.current k r' hr'
  · have hr' : r' ∈ (h.note s r s').records k := hr
    rw [hrecords] at hr'
    split at hr'
    · rename_i hk
      subst hk
      rcases List.mem_cons.mp hr' with rfl | hr'
      · exact hversion
      · exact hinv.versions_mono hu hr'
    · exact hinv.versions_mono hu hr'
  · have hr' : s'.metadata k = some r' := hr
    rw [hm] at hr'
    split at hr'
    · cases hr'
      exact hn
    · exact hinv.inode k r' hr'

/-- A stored version is not empty. -/
theorem Inv.metadata_none (huuid : Unique uuid) (hinv : Inv uuid (s, h))
    (hv : versionOf (s.metadata key) = []) : s.metadata key = none := by
  cases hm : s.metadata key with
  | none => rfl
  | some record =>
    rw [hm] at hv
    have hv' : record.version = [] := hv
    rcases hinv.versions key record (hinv.current key record hm) with ⟨n, _, hn⟩ | ⟨hn, _⟩
    · rw [hn] at hv'
      exact absurd hv' (huuid.ne_empty n)
    · rw [hn] at hv'
      cases hv'

/-- A version that has just been generated is new to every key. -/
theorem Inv.uuid_new (huuid : Unique uuid) (hinv : Inv uuid (s, h)) :
    uuid s.uuids ∉ (h.records key).map KineticRecord.version := by
  intro hmem
  obtain ⟨record, hr, hv⟩ := List.mem_map.mp hmem
  rcases hinv.versions key record hr with ⟨n, hn, he⟩ | ⟨he, _⟩
  · have hn' : n < s.uuids := hn
    have := huuid.injective (he.symm.trans hv)
    omega
  · exact huuid.ne_zero _ (hv.symm.trans he)

/-- The default version is new to a key that no rename has stored. -/
theorem Inv.zero_new (huuid : Unique uuid) (hinv : Inv uuid (s, h)) (hk : key ∉ h.renamed) :
    lit "0" ∉ (h.records key).map KineticRecord.version := by
  intro hmem
  obtain ⟨record, hr, hv⟩ := List.mem_map.mp hmem
  rcases hinv.versions key record hr with ⟨n, _, he⟩ | ⟨_, hk'⟩
  · exact huuid.ne_zero n (he.symm.trans hv)
  · exact hk hk'

/-- What a rename stores. -/
theorem Inv.copied (huuid : Unique uuid) (hinv : Inv uuid (s, h)) {me mdi : Nat} {replaced : Bool}
    {record : KineticRecord Inode} (hallowed : Allowed (.putVersion me (.copy mdi replaced) key record))
    {choice : Choice} (hnew : newName (s, h) (.putVersion me (.copy mdi replaced) key record) choice = true)
    (hv : versionOf (s.metadata key) = []) :
    Inv uuid (s.set key (some record),
      h.note s (.putVersion me (.copy mdi replaced) key record) (s.set key (some record))) := by
  have hnone := hinv.metadata_none huuid hv
  obtain ⟨hr, hk⟩ : replaced = false ∧ key ∉ h.renamed := by
    simpa [newName, hnone] using hnew
  have hzero : record.version = lit "0" := hallowed.2 hr
  refine hinv.stored (Nat.le_refl _) (fun k => Store.set_metadata s key k _) ?_ (Or.inr ⟨hzero, ?_⟩) hallowed.1
  · rw [hzero]
    exact hinv.zero_new huuid hk
  · have hne : (s.set key (some record)).metadata key ≠ s.metadata key := by
      rw [Store.set_metadata, if_pos rfl, hnone]
      simp
    show key ∈ (if _ then _ else _)
    rw [if_neg hne]
    exact List.mem_cons_self

/-- Every step that the protocol allows and that stores under a new name keeps the invariant. -/
theorem sound (huuid : Unique uuid) :
    Sound ((observed uuid).restrict newName) (fun _ : Nat => protocol) fun s _ => Inv uuid s := by
  rintro ⟨s, h⟩ t i r choice x ⟨s', h'⟩ hinv hallowed hstep
  obtain ⟨hok, hobserve⟩ := serve_restrict hstep
  obtain ⟨hserve, hnote⟩ := serve_observe hobserve
  change serve uuid s r choice = some (x, s') at hserve
  change h' = h.note s r s' at hnote
  clear hstep hobserve
  subst hnote
  have hsame : ∀ s'' : Store, s''.metadata = s.metadata → s.uuids ≤ s''.uuids →
      Inv uuid (s'', h.note s r s'') := fun s'' hm hu =>
    hinv.removed hu fun key => Or.inl (congrFun hm key)
  cases r with
  | get me mdi key =>
    obtain ⟨rfl, hget, -⟩ := serve_get (x := x) hserve
    exact ⟨fun record hx => hinv.inode key record (hget record hx), hsame s' rfl (Nat.le_refl _)⟩
  | put me mdi why key expected md =>
    obtain ⟨status, version⟩ : StatusCode × Str := x
    refine ⟨trivial, ?_⟩
    obtain ⟨rfl, ⟨-, -, rfl⟩ | ⟨-, -, rfl⟩⟩ := serve_put hserve
    · exact hinv.stored (Nat.le_succ _) (fun k => Store.set_metadata s key k _) (hinv.uuid_new huuid)
        (Or.inl ⟨s.uuids, Nat.lt_succ_self _, rfl⟩) hallowed
    · exact hsame _ rfl (Nat.le_succ _)
  | putVersion me why key record =>
    obtain ⟨status, hx⟩ : ∃ status : StatusCode, status = x := ⟨x, rfl⟩
    subst hx
    refine ⟨trivial, ?_⟩
    rcases serve_putVersion hserve with ⟨hv, -, rfl⟩ | ⟨-, rfl⟩
    · cases why with
      | copy mdi replaced => exact hinv.copied huuid hallowed hok hv
      | _ => exact absurd hallowed id
    · exact hsame _ rfl (Nat.le_refl _)
  | delete me why key expected =>
    obtain ⟨status, hx⟩ : ∃ status : StatusCode, status = x := ⟨x, rfl⟩
    subst hx
    refine ⟨trivial, ?_⟩
    rcases serve_delete hserve with ⟨-, -, rfl⟩ | ⟨-, rfl⟩
    · refine hinv.removed (Nat.le_refl _) fun k => ?_
      rw [Store.set_metadata]
      split
      · exact Or.inr rfl
      · exact Or.inl rfl
    · exact hsame _ rfl (Nat.le_refl _)
  | inodeNumber =>
    obtain ⟨hm, hu⟩ := serve_quiet rfl hserve
    exact ⟨serve_inodeNumber (n := x) hserve, hsame s' hm (Nat.le_of_eq hu.symm)⟩
  | _ =>
    obtain ⟨hm, hu⟩ := serve_quiet rfl hserve
    exact ⟨trivial, hsame s' hm (Nat.le_of_eq hu.symm)⟩

/-- In every run in which renames store under new names only, no version is stored twice under a
    key. So a version that a client knows is that of one record, and if it is the stored one then
    that record is the one stored. -/
theorem versions_never_repeat (huuid : Unique uuid) (env : Env) (fuel : Nat) (ops : Nat → List Operation)
    (hops : ∀ i, ∀ op ∈ ops i, op.links = false) (pmap : Nat → PathMapDB) (hs : Fresh uuid s)
    {schedule : List (Nat × Choice)} {c : Config Req Res (Store × History) Nat (Unit × Local)}
    (hrun : runFrom ((observed uuid).restrict newName)
      (sessions env fuel ops pmap (History.start s)) schedule = some c) (key : Str) :
    ((c.shared.2.records key).map KineticRecord.version).Nodup ∧
      ∀ record ∈ c.shared.2.records key, ∀ record', c.shared.1.metadata key = some record' →
        record'.version = record.version → record' = record := by
  have hconforms : ∀ i : Nat, ((session i env fuel (ops i)).run (Local.mounted (pmap i))).Conforms protocol
      (fun _ _ => True) () := fun i =>
    Prog.Conforms.mono (session_keeps fuel (ops i) (hops i) _ (mounted_sane i (pmap i))) fun _ _ _ => trivial
  obtain ⟨_, hinv, -⟩ := runFrom_conforms (sound huuid) (t := fun _ => ()) (start_inv hs) hconforms hrun
  refine ⟨hinv.nodup key, fun record hr record' hr' hv => ?_⟩
  exact List.inj_on_of_nodup_map (hinv.nodup key) (hinv.current key record' hr') hr hv

end Runs

theorem counter_unique : Unique counter := by
  refine ⟨fun m n h => ?_, fun n h => ?_, fun n h => ?_⟩
  · have := toStr_inj h
    omega
  · have := toStr_inj (m := 0) h
    omega
  · have hlen : (toStr (n + 1)).length = 0 := by
      rw [show toStr (n + 1) = [] from h]
      rfl
    exact absurd hlen (Nat.ne_of_gt Nat.length_toDigits_pos)

theorem mkfs_fresh : Fresh counter (Store.mkfs counter) := by
  intro key r hr
  have hr' : (if key = root then some _ else none) = some r := hr
  split at hr'
  · cases hr'
    exact ⟨by decide, 0, by decide, rfl⟩
  · cases hr'

theorem addFile_fresh {uuid : Nat → Str} {s : Store} (hs : Fresh uuid s) (name : Str) {md : Inode}
    (hmd : md.inodeNumber ≠ 0) : Fresh uuid (s.addFile uuid name md) := by
  intro key r hr
  have hr' : (s.set ('/' :: name) (some ⟨md, uuid s.uuids⟩)).metadata key = some r := hr
  rw [Store.set_metadata] at hr'
  split at hr'
  · cases hr'
    exact ⟨hmd, s.uuids, Nat.lt_succ_self _, rfl⟩
  · obtain ⟨hn, n, hlt, hv⟩ := hs key r hr'
    exact ⟨hn, n, Nat.lt_succ_of_lt hlt, hv⟩

/-- A file is created, gets an attribute, is renamed to a name that is new and gets another one. The new
    name is stored twice. -/
theorem versions_never_repeat_new_name : ∃ c, runFrom ((observed counter).restrict newName)
    (sessions relaxed 5 (onlyFirst
      [.create superuser (lit "/a") (S_IFREG ||| 0o644), .update superuser (lit "/a") (.setxattr (lit "x") [] 0),
        .rename superuser (lit "/a") (lit "/b"), .update superuser (lit "/b") (.setxattr (lit "y") [] 0)])
      (fun _ => PathMapDB.empty) (History.start (Store.mkfs counter)))
    ([.done, .done, .done, .number 7, .done, .expired false, .done, .expired false, .expired false,
      .expired false, .done, .done, .done, .done, .done, .done, .done, .done, .done].map
        fun choice => (0, choice)) = some c ∧
    (c.shared.2.records (lit "/b")).map KineticRecord.version = [lit "4", lit "0"] ∧
    ((c.shared.2.records (lit "/b")).map KineticRecord.version).Nodup := by
  have hrun : (runFrom ((observed counter).restrict newName)
      (sessions relaxed 5 (onlyFirst
        [.create superuser (lit "/a") (S_IFREG ||| 0o644), .update superuser (lit "/a") (.setxattr (lit "x") [] 0),
          .rename superuser (lit "/a") (lit "/b"), .update superuser (lit "/b") (.setxattr (lit "y") [] 0)])
        (fun _ => PathMapDB.empty) (History.start (Store.mkfs counter)))
      ([.done, .done, .done, .number 7, .done, .expired false, .done, .expired false, .expired false,
        .expired false, .done, .done, .done, .done, .done, .done, .done, .done, .done].map
          fun choice => (0, choice))).any
      (fun c => (c.shared.2.records (lit "/b")).map KineticRecord.version = [lit "4", lit "0"]) = true := by
    decide +kernel
  obtain ⟨c, hc, hversions⟩ := (Option.any_eq_true _ _).mp hrun
  have hops := @onlyFirst_links [.create superuser (lit "/a") (S_IFREG ||| 0o644),
    .update superuser (lit "/a") (.setxattr (lit "x") [] 0), .rename superuser (lit "/a") (lit "/b"),
    .update superuser (lit "/b") (.setxattr (lit "y") [] 0)] (by simp [Operation.links])
  exact ⟨c, hc, of_decide_eq_true hversions,
    (versions_never_repeat counter_unique relaxed 5 _ hops _ mkfs_fresh hc (lit "/b")).1⟩

/-- Renaming `/a` to the name of a file `/b` stores the old version of `/b` again. -/
theorem versions_repeat_replaced : ¬ ∀ (uuid : Nat → Str) (env : Env) (fuel : Nat)
    (ops : Nat → List Operation) (pmap : Nat → PathMapDB) (s : Store) (schedule : List (Nat × Choice))
    (c : Config Req Res (Store × History) Nat (Unit × Local)) (key : Str), Unique uuid →
    (∀ i, ∀ op ∈ ops i, op.links = false) → Fresh uuid s →
    runFrom (observed uuid) (sessions env fuel ops pmap (History.start s)) schedule = some c →
    ((c.shared.2.records key).map KineticRecord.version).Nodup := by
  intro h
  have hops := @onlyFirst_links [.rename superuser (lit "/a") (lit "/b")] (by simp [Operation.links])
  have hrun : ((runFrom (observed counter) (sessions relaxed 5
      (onlyFirst [.rename superuser (lit "/a") (lit "/b")]) (fun _ => PathMapDB.empty)
      (History.start (((Store.mkfs counter).addFile counter (lit "a") (regularFile 2)).addFile counter
        (lit "b") (regularFile 3))))
      ([.done, .expired false, .done, .done, .expired false, .expired false, .done, .done, .done, .done,
        .done, .done, .done, .done].map fun choice => (0, choice))).any fun c =>
      ¬ ((c.shared.2.records (lit "/b")).map KineticRecord.version).Nodup) = true := by decide +kernel
  obtain ⟨c, hc, hdup⟩ := (Option.any_eq_true _ _).mp hrun
  exact of_decide_eq_true hdup (h counter relaxed 5 _ _ _ _ c (lit "/b") counter_unique hops
    (addFile_fresh (addFile_fresh mkfs_fresh _ (by decide)) _ (by decide)) hc)

end HFlat.Fuse.Versions
