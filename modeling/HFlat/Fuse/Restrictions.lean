/-
  The restrictions that a directory stores for its children (`path_permission_children`), when any
  number of clients change permissions and update metadata.

  A permission change first stores the new mode and only then the restrictions that follow from
  it. A record between the two writes is half-changed. Another client may read it and store it
  again, with new time stamps; then `put_metadata_forced` finds another version, reads the record
  that the other client has stored, and the new restrictions are lost. In runs in which no other
  client stores a half-changed record, all restrictions are up to date once nothing is in progress.
-/
import HFlat.Fuse.Memory
import HFlat.Fuse.Permissions
import HFlat.Fuse.Versions
import HFlat.Permission.Inherit

namespace HFlat.Fuse.Restrictions

open HFlat.Lib HFlat.PathMap HFlat.Permission
open HFlat.Replication (KineticRecord StatusCode versionOf)

/-! ## Restrictions that match the mode -/

/-- What `computePathPermissionChildren` yields for mode, user, group and path permissions. -/
def restrictions (env : Env) (md : Inode) : List ReachabilityEntry :=
  env.removeDuplicates md.pathPermission (derivedEntries md.toMetadata)

/-- If this is a directory, the restrictions for its children are, as a set, those of its mode. -/
def Matching (env : Env) (md : Inode) : Prop :=
  md.type = .POSIX → S_ISDIR md.mode = true →
    ∀ e, e ∈ md.pathPermissionChildren ↔ e ∈ restrictions env md

theorem matching_iff (env : Env) (md : Inode) : (md.type ≠ .POSIX ∨ S_ISDIR md.mode = false ∨
    md.pathPermissionChildren ⊆ restrictions env md ∧ restrictions env md ⊆ md.pathPermissionChildren) ↔
      Matching env md := by
  constructor
  · intro h ht hd e
    rcases h with h | h | h
    · exact absurd ht h
    · rw [hd] at h
      cases h
    · exact ⟨fun he => h.1 he, fun he => h.2 he⟩
  · intro h
    by_cases ht : md.type = .POSIX
    · by_cases hd : S_ISDIR md.mode = true
      · exact Or.inr (Or.inr ⟨fun e he => (h ht hd e).mp he, fun e he => (h ht hd e).mpr he⟩)
      · exact Or.inr (Or.inl (by simpa using hd))
    · exact Or.inl ht

instance (env : Env) (md : Inode) : Decidable (Matching env md) :=
  decidable_of_iff _ (matching_iff env md)

section Matching

variable {env : Env} {md md' : Inode}

theorem matching_of_type (h : md.type ≠ .POSIX) : Matching env md := fun ht => absurd ht h

theorem matching_of_mode (h : S_ISDIR md.mode = false) : Matching env md := fun _ hd => by
  rw [h] at hd
  cases hd

theorem Matching.congr (h : Matching env md) (he : md'.toMetadata = md.toMetadata) : Matching env md' := by
  unfold Matching restrictions
  rw [he]
  exact h

theorem matching_compute (henv : RemovesPresent env.removeDuplicates) (md : Inode) :
    Matching env (Inode.computePathPermissionChildren env md).1 := by
  intro _ _ e
  obtain ⟨es, hes⟩ : ∃ es, (Permission.computePathPermissionChildren env md.toMetadata).1 =
      { md.toMetadata with pathPermissionChildren := es } := compute_attributes md.toMetadata
  have hsame : restrictions env (Inode.computePathPermissionChildren env md).1 = restrictions env md := by
    show env.removeDuplicates (Permission.computePathPermissionChildren env md.toMetadata).1.pathPermission
      (derivedEntries (Permission.computePathPermissionChildren env md.toMetadata).1) = _
    rw [hes]
    exact congrArg (env.removeDuplicates md.pathPermission) (derivedEntries_congr rfl rfl rfl)
  rw [hsame]
  exact mem_compute henv md.toMetadata e

/-- Without a change there was nothing to compute. -/
theorem matching_of_unchanged (henv : RemovesPresent env.removeDuplicates)
    (h : (Inode.computePathPermissionChildren env md).2 = false) : Matching env md := by
  have hmd := matching_compute henv md
  have hsame : (Permission.computePathPermissionChildren env md.toMetadata).1 = md.toMetadata :=
    compute_unchanged h
  exact hmd.congr hsame.symm

theorem matching_inherit (henv : RemovesPresent env.removeDuplicates) (md parent : Inode) :
    Matching env (inheritPathPermissions env md parent) := by
  by_cases hd : S_ISDIR md.mode = true
  · have hmd := matching_compute henv
      { md with toMetadata := copyPathPermissions md.toMetadata parent.toMetadata }
    refine hmd.congr ?_
    show Permission.inheritPathPermissions env md.toMetadata parent.toMetadata = _
    exact if_pos hd
  · apply matching_of_mode
    show S_ISDIR (Permission.inheritPathPermissions env md.toMetadata parent.toMetadata).mode = false
    obtain ⟨es, hes⟩ := inherit_eq env md.toMetadata parent.toMetadata
    rw [hes]
    show S_ISDIR md.mode = false
    simpa using hd

theorem matching_empty : Matching env Inode.empty := matching_of_mode (by decide)

end Matching

/-! ## What clients request -/

/-- What client `me` has done: the key and version of the half-changed record it has stored last, if it
    has not stored the restrictions yet, and keys and versions of the half-changed records it has read. -/
structure Stage where
  half : Option (Str × Str)
  seen : List (Str × Str)

section Protocol

variable (env : Env) (me : Nat)

/-- After a half-changed record the restrictions are stored, under the version of that record. -/
def Allowed (t : Stage) : Req → Prop
  | .put i _ _ key expected md =>
      i = me ∧ ∀ v, t.half = some v → (key, expected) = v ∧ Matching env md
  | .putVersion _ _ _ record => Matching env record.value
  | _ => True

/-- A half-changed record of another client is not replaced. -/
def Answered (t : Stage) : (r : Req) → Res r → Prop
  | .put _ _ _ key expected _, x => x.1 ≠ StatusCode.REMOTE_NOT_FOUND ∧
      (t.half = none → (key, expected) ∈ t.seen → x.1 ≠ StatusCode.OK)
  | _, _ => True

/-- A record has been read. -/
def Stage.read (t : Stage) (key : Str) : Except StatusCode (KineticRecord Inode) → Stage
  | .ok record => if Matching env record.value then t else { t with seen := (key, record.version) :: t.seen }
  | .error _ => t

/-- A record has been stored, or refused. -/
def Stage.stored (t : Stage) (key : Str) (md : Inode) (x : StatusCode × Str) : Stage :=
  if x.1 = .OK then { t with half := if Matching env md then none else some (key, x.2) }
  else if x.1 = .REMOTE_VERSION_MISMATCH then { t with half := none }
  else t

/-- What a client knows after an answer. -/
def next (t : Stage) : (r : Req) → Res r → Stage
  | .get _ _ key, x => t.read env key x
  | .put _ _ _ key _ md, x => t.stored env key md x
  | _, _ => t

/-- A client stores a half-changed record only between the two halves of its permission change. -/
def protocol : Protocol Req Res Stage := ⟨Allowed env me, Answered, next env⟩

end Protocol

/-! ## Memory -/

/-- An object that a client may store: its restrictions match, or it was read half-changed. -/
def Safe (env : Env) (x : MetadataInfo) (t : Stage) : Prop :=
  Matching env x.md ∨ (x.systemPath, x.keyVersion) ∈ t.seen

theorem Safe.mono {env : Env} {x : MetadataInfo} {t t' : Stage} (h : Safe env x t) (hseen : t.seen ⊆ t'.seen) :
    Safe env x t' := h.imp id fun hs => hseen hs

theorem Stage.read_half (env : Env) (t : Stage) (key : Str) (x : Except StatusCode (KineticRecord Inode)) :
    (t.read env key x).half = t.half := by
  cases x with
  | error code => rfl
  | ok record =>
    unfold Stage.read
    dsimp only
    split <;> rfl

theorem Stage.read_subset (env : Env) (t : Stage) (key : Str) (x : Except StatusCode (KineticRecord Inode)) :
    t.seen ⊆ (t.read env key x).seen := by
  cases x with
  | error code => exact List.Subset.refl _
  | ok record =>
    unfold Stage.read
    dsimp only
    split
    · exact List.Subset.refl _
    · exact List.subset_cons_self _ _

theorem Stage.read_safe (env : Env) (t : Stage) (key : Str) (record : KineticRecord Inode) :
    Safe env ⟨key, record.version, record.value⟩ (t.read env key (.ok record)) := by
  unfold Stage.read
  dsimp only
  split
  · rename_i hm
    exact Or.inl hm
  · exact Or.inr List.mem_cons_self

@[simp] theorem Stage.stored_seen (env : Env) (t : Stage) (key : Str) (md : Inode) (x : StatusCode × Str) :
    (t.stored env key md x).seen = t.seen := by
  unfold Stage.stored
  split
  · rfl
  · split <;> rfl

/-- What is stored with matching restrictions is not half-changed. -/
theorem Stage.stored_idle {env : Env} {t : Stage} {key : Str} {md : Inode} {x : StatusCode × Str}
    (hidle : t.half = none) (hm : x.1 = .OK → Matching env md) : (t.stored env key md x).half = none := by
  unfold Stage.stored
  split
  · rename_i hs
    simp [hm hs]
  · split
    · rfl
    · exact hidle

/-- Between permission changes, a client keeps safe objects. -/
def discipline {env : Env} (henv : RemovesPresent env.removeDuplicates) (me : Nat) :
    Discipline (protocol env me) me env where
  Idle t := t.half = none
  Snapshot _ := True
  Ok x t := Safe env x t
  Leads _ _ := True
  fresh _ := Or.inl matching_empty
  source _ _ _ _ := Or.inl (matching_of_type (by simp))
  expired _ := ⟨trivial, fun _ => rfl⟩
  refresh _ := ⟨trivial, fun _ => rfl⟩
  update _ _ _ _ := trivial
  get_allowed _ := trivial
  get := by
    intro t a key x hidle _
    refine ⟨(t.read_half env key x).trans hidle, fun y hy => hy.mono (t.read_subset env key x), fun record hx => ?_⟩
    rw [hx]
    exact t.read_safe env key record
  put_allowed := by
    intro t a x parent hidle _ _ _
    refine ⟨rfl, fun v hv => ?_⟩
    rw [hidle] at hv
    cases hv
  put := by
    intro t a x parent status version hidle _ _ _ _
    have hm := matching_inherit henv x.md parent.md
    refine ⟨Stage.stored_idle hidle fun _ => hm, fun y hy => ?_, Or.inl hm⟩
    exact hy.mono (by simp [protocol, next])
  resolve _ _ _ := trivial
  link _ _ _ _ _ := trivial

/-- No permission change is half done, and all objects but those of `lost` are safe. Objects whose
    permission change was refused are lost. -/
abbrev Sane {env : Env} (henv : RemovesPresent env.removeDuplicates) (me : Nat) (lost : Set Nat) (l : Local)
    (t : Stage) : Prop := Memory.Sane (discipline henv me) lost l t

/-- A pointer to an object that is not lost. -/
def Live (lost : Set Nat) (mdi : Option Nat) : Prop := ∀ a, mdi = some a → a ∉ lost

section Memory

variable {env : Env} {henv : RemovesPresent env.removeDuplicates} {me : Nat} {lost : Set Nat} {l : Local}
variable {t : Stage}

theorem live_none : Live lost none := by
  intro a ha
  cases ha

theorem live_some {a : Nat} (ha : a ∉ lost) : Live lost (some a) := by
  intro b hb
  cases hb
  exact ha

/-- A change that leaves the restrictions matching. -/
theorem sane_setMD (h : Sane henv me lost l t) (a : Nat) {f : Inode → Inode}
    (hf : Matching env (l.heap a).md → Matching env (f (l.heap a).md)) :
    Sane henv me lost (l.setObject a { l.heap a with md := f (l.heap a).md }) t :=
  h.setObject (fun ha => (h.ok a ha).imp hf id) (Or.inl rfl)

/-- The protocol goes on without a half-changed record. -/
theorem sane_stage (h : Sane henv me lost l t) {t' : Stage} (hidle : t'.half = none) (hseen : t.seen ⊆ t'.seen) :
    Sane henv me lost l t' := h.stage hidle fun _ hx => hx.mono hseen

end Memory

/-! ## Metadata keys and directory entries -/

/-- The program leaves memory sane, and `R` holds of what it returns. -/
abbrev Keeps {α : Type} {env : Env} (henv : RemovesPresent env.removeDuplicates) (me : Nat) (lost : Set Nat)
    (R : α → Prop) (m : Client α) : Prop :=
  Maintains (protocol env me) (Sane henv me lost) R m

/-- What programs return that return nothing of interest here. -/
abbrev Any {α : Type} (_ : α) : Prop := True

/-- A lookup returns an object that is not lost. -/
abbrev Finds {env : Env} (henv : RemovesPresent env.removeDuplicates) (me : Nat) (lost : Set Nat)
    (m : Client (Int × Option Nat)) : Prop :=
  Keeps henv me lost (fun r => Live lost r.2) m

section Keys

variable {env : Env} {henv : RemovesPresent env.removeDuplicates} {me : Nat} {lost : Set Nat} {l : Local}
variable {t : Stage} {α β : Type}
variable {R : α → Prop} {R' : β → Prop}

theorem Keeps.exit : Keeps henv me lost R (exit : Client α) := Maintains.stop

theorem Keeps.done {a : α} : Keeps henv me lost Any (pure a : Client α) := Maintains.pure trivial

theorem Keeps.getMdi_bind {a : Nat} {f : MetadataInfo → Client β} (hf : ∀ x, Keeps henv me lost R' (f x)) :
    Keeps henv me lost R' (getMdi a >>= f) := fun l t h => hf (l.heap a) l t h

theorem Keeps.setMD_bind {a : Nat} {g : Inode → Inode} {f : Unit → Client β}
    (hg : ∀ md, Matching env md → Matching env (g md)) (hf : Keeps henv me lost R' (f ())) :
    Keeps henv me lost R' (setMD a g >>= f) := fun _ t h => hf _ t (sane_setMD h a (hg _))

theorem Keeps.new_bind {key : Str} {f : Nat → Client β} (hf : ∀ a, a ∉ lost → Keeps henv me lost R' (f a)) :
    Keeps henv me lost R' (newMetadataInfo key >>= f) :=
  fun l t h => hf l.next h.next_live _ t (h.alloc key)

theorem Keeps.invalidate_bind {key : Str} {f : Unit → Client β} (hf : Keeps henv me lost R' (f ())) :
    Keeps henv me lost R' (cacheInvalidate key >>= f) := fun _ t h => hf _ t (h.invalidate key)

theorem Keeps.require {m : Client Int} (hm : Keeps henv me lost Any m) : Keeps henv me lost Any (require m) :=
  hm.bind fun _ _ => Maintains.ite (fun _ => Keeps.exit) fun _ => Keeps.done

theorem Keeps.deref_bind {mdi : Option Nat} (h : Live lost mdi) {f : Nat → Client β}
    (hf : ∀ a, a ∉ lost → Keeps henv me lost R' (f a)) : Keeps henv me lost R' (deref mdi >>= f) := by
  cases mdi with
  | none => exact fun _ _ _ => trivial
  | some a => exact hf a (h a rfl)

theorem Keeps.quiet {r : Req} (hr : r.quiet = true) : Keeps henv me lost Any (perform r) := by
  intro l t h
  cases r with
  | get me mdi key => cases hr
  | put me mdi why key expected md => cases hr
  | putVersion me why key record => cases hr
  | delete me why key expected => cases hr
  | _ => exact Conforms.call trivial fun x _ => ⟨trivial, h⟩

theorem getMetadata_keeps (a : Nat) : Keeps henv me lost Any (getMetadata me a) :=
  fun _ _ h => (Memory.getMetadata_sane h a).mono fun _ _ _ h' => ⟨trivial, h'.1⟩

theorem conforms_put {a : Nat} {why : Purpose} {key expected : Str} {md : Inode}
    {Q : StatusCode × Str → Local → Stage → Prop}
    (hallowed : Allowed env me t (.put me a why key expected md))
    (h : ∀ x : StatusCode × Str, x.1 ≠ .REMOTE_NOT_FOUND →
      (t.half = none → (key, expected) ∈ t.seen → x.1 ≠ .OK) → Q x l (t.stored env key md x)) :
    Conforms (protocol env me) (perform (.put me a why key expected md)) Q l t :=
  Conforms.call hallowed fun x hx => h x hx.1 hx.2

/-- `put_metadata` of an object that is safe. -/
theorem putMetadata_sane (h : Sane henv me lost l t) {a : Nat} (ha : a ∉ lost) (why : Purpose) :
    Conforms (protocol env me) (putMetadata me why a) (fun _ l' t' => Sane henv me lost l' t' ∧
      (∀ b, (l'.heap b).md = (l.heap b).md) ∧ l'.next = l.next ∧ Memory.Shrunk l l') l t := by
  have hallowed : Allowed env me t (.put me a why (l.heap a).systemPath (l.heap a).keyVersion (l.heap a).md) :=
    ⟨rfl, fun v hv => by rw [h.idle] at hv; cases hv⟩
  refine conforms_getMdi_bind ?_
  refine (conforms_put (Q := fun x l' t' => l' = l ∧
    (((l.heap a).systemPath, (l.heap a).keyVersion) ∈ t.seen → x.1 ≠ .OK) ∧
    t' = t.stored env (l.heap a).systemPath (l.heap a).md x)
    hallowed fun x _ hx => ⟨rfl, hx h.idle, rfl⟩).then ?_
  rintro ⟨status, version⟩ l' t' ⟨rfl, hx, rfl⟩
  by_cases hs : status = .OK
  · subst hs
    have hm : Matching env (l'.heap a).md := (h.ok a ha).resolve_right fun hs => hx hs rfl
    have ht : t.stored env (l'.heap a).systemPath (l'.heap a).md (.OK, version) = { t with half := none } := by
      simp [Stage.stored, hm]
    rw [ht]
    refine conforms_setMdi_bind (Conforms.pure ⟨?_, fun b => ?_, rfl, fun _ _ ha => ha⟩)
    · have h' : Sane henv me lost l' { t with half := none } := sane_stage h rfl (List.Subset.refl _)
      exact h'.setObject (fun _ => Or.inl hm) (Or.inl rfl)
    · rw [Local.setObject_heap]
      split
      · rename_i he
        rw [he]
      · rfl
  · have ht : Sane henv me lost l' (t.stored env (l'.heap a).systemPath (l'.heap a).md (status, version)) := by
      unfold Stage.stored
      rw [if_neg hs]
      split
      · exact sane_stage h rfl (List.Subset.refl _)
      · exact h
    cases status <;> first
      | exact absurd rfl hs
      | exact conforms_cacheInvalidate_bind (Conforms.pure ⟨ht.invalidate _, fun _ => rfl, rfl,
          Memory.shrunk_invalidate _ _⟩)

theorem putMetadata_keeps {a : Nat} (ha : a ∉ lost) (why : Purpose) :
    Keeps henv me lost Any (putMetadata me why a) :=
  fun _ _ h => (putMetadata_sane h ha why).mono fun _ _ _ h' => ⟨trivial, h'.1⟩

/-- `create_metadata` of an object with matching restrictions. -/
theorem createMetadata_sane (h : Sane henv me lost l t) {a : Nat} (hm : Matching env (l.heap a).md)
    (why : Purpose) : Conforms (protocol env me) (createMetadata me why a)
      (fun _ l' t' => Any () ∧ Sane henv me lost l' t') l t := by
  have hallowed : Allowed env me t (.put me a why (l.heap a).systemPath [] (l.heap a).md) :=
    ⟨rfl, fun v hv => by rw [h.idle] at hv; cases hv⟩
  refine conforms_getMdi_bind ?_
  refine (conforms_put (Q := fun x l' t' => l' = l ∧ Sane henv me lost l t') hallowed fun x _ _ => ⟨rfl, ?_⟩).then ?_
  · unfold Stage.stored
    rw [if_pos hm]
    split
    · exact sane_stage h rfl (List.Subset.refl _)
    · split
      · exact sane_stage h rfl (List.Subset.refl _)
      · exact h
  · rintro ⟨status, version⟩ l' t' ⟨rfl, h'⟩
    cases status with
    | OK => exact conforms_setMdi_bind (Conforms.pure ⟨trivial, h'.setObject (fun _ => Or.inl hm) (Or.inl rfl)⟩)
    | _ => exact Conforms.pure ⟨trivial, h'⟩

theorem deleteMetadata_keeps (a : Nat) (why : Purpose) : Keeps henv me lost Any (deleteMetadata me why a) := by
  refine Keeps.getMdi_bind fun x => Keeps.invalidate_bind fun l t h => ?_
  refine (Conforms.call (Q := fun _ l' t' => l' = l ∧ t' = t) trivial fun _ _ => ⟨rfl, rfl⟩).then ?_
  rintro (status : StatusCode) l' t' ⟨rfl, rfl⟩
  cases status <;> exact Conforms.pure ⟨trivial, h⟩

theorem putMetadataForced_keeps {a : Nat} (ha : a ∉ lost) (fuel : Nat) :
    Keeps henv me lost Any (putMetadataForced me a fuel) := by
  induction fuel with
  | zero => exact Keeps.exit
  | succ fuel ih =>
    refine (putMetadata_keeps ha .update).bind fun err _ => Maintains.ite (fun _ => Keeps.done) fun _ => ?_
    exact (getMetadata_keeps a).bind fun err _ => Maintains.ite (fun _ => Keeps.done) fun _ => ih

theorem touchDirectory_keeps {a : Nat} (ha : a ∉ lost) (fuel : Nat) :
    Keeps henv me lost Any (touchDirectory me env a fuel) :=
  Maintains.ite (fun _ => (putMetadataForced_keeps ha fuel).bind fun _ _ => Keeps.done) fun _ => Keeps.done

theorem createDirectoryEntry_keeps {a : Nat} (ha : a ∉ lost) (filename : Str) (fuel : Nat) :
    Keeps henv me lost Any (createDirectoryEntry me env a filename fuel) := by
  refine Keeps.getMdi_bind fun x => (Keeps.quiet rfl).bind ?_
  intro (status : StatusCode) _
  cases status with
  | OK => exact touchDirectory_keeps ha fuel
  | _ => exact Keeps.done

theorem deleteDirectoryEntry_keeps {a : Nat} (ha : a ∉ lost) (filename : Str) (fuel : Nat) :
    Keeps henv me lost Any (deleteDirectoryEntry me env a filename fuel) := by
  refine Keeps.getMdi_bind fun x => (Keeps.quiet rfl).bind ?_
  intro (status : StatusCode) _
  cases status with
  | OK => exact touchDirectory_keeps ha fuel
  | _ => exact Keeps.done

/-- Updates of a directory put nothing into the cache. -/
abbrev Hides {env : Env} (henv : RemovesPresent env.removeDuplicates) (me : Nat) (lost : Set Nat) (a : Nat)
    (m : Client Int) : Prop :=
  Maintains (protocol env me) (fun l t => Sane henv me lost l t ∧ Memory.Uncached l a) Any m

theorem putMetadataForced_hides (a : Nat) {mdi : Nat} (hm : mdi ∉ lost) (fuel : Nat) :
    Hides henv me lost a (putMetadataForced me mdi fuel) := by
  induction fuel with
  | zero => exact Maintains.stop
  | succ fuel ih =>
    have hput : Hides henv me lost a (putMetadata me .update mdi) := fun l t h =>
      (putMetadata_sane h.1 hm .update).mono fun _ _ _ h' =>
        ⟨trivial, h'.1, fun key hk => h.2 key (h'.2.2.2 key a hk)⟩
    have hget : Hides henv me lost a (getMetadata me mdi) := fun l t h =>
      (Memory.getMetadata_sane h.1 mdi).mono fun _ _ _ h' =>
        ⟨trivial, h'.1, fun key hk => h.2 key (h'.2.2.2.2 key a hk)⟩
    refine hput.bind fun err _ => Maintains.ite (fun _ => Maintains.pure trivial) fun _ => ?_
    exact hget.bind fun err _ => Maintains.ite (fun _ => Maintains.pure trivial) fun _ => ih

theorem createDirectoryEntry_hides (a : Nat) {mdi : Nat} (hm : mdi ∉ lost) (filename : Str) (fuel : Nat) :
    Hides henv me lost a (createDirectoryEntry me env mdi filename fuel) := by
  intro l t h
  refine conforms_getMdi_bind ?_
  refine (Conforms.call (Q := fun _ l' t' => l' = l ∧ t' = t) trivial fun _ _ => ⟨rfl, rfl⟩).then ?_
  rintro (status : StatusCode) l' t' ⟨rfl, rfl⟩
  cases status with
  | OK =>
    refine Conforms.ite (fun _ => ?_) fun _ => Conforms.pure ⟨trivial, h⟩
    exact (putMetadataForced_hides a hm fuel l' t' h).then fun _ _ _ h' => Conforms.pure h'
  | _ => exact Conforms.pure ⟨trivial, h⟩

/-- Programs that change nothing but the snapshot of the path map. -/
def Frame (env : Env) (me : Nat) (m : Client α) : Prop :=
  ∀ l t, Conforms (protocol env me) m (fun _ l' t' => t' = t ∧ ∃ db, l' = { l with pmap := db }) l t

theorem Frame.keeps {m : Client α} (hm : Frame env me m) : Keeps henv me lost Any m := by
  intro l t h
  refine (hm l t).mono ?_
  rintro _ _ _ ⟨rfl, db, rfl⟩
  exact ⟨trivial, h.setPmap trivial⟩

theorem databaseUpdate_frame : Frame env me databaseUpdate := by
  intro l t
  refine Conforms.get_bind ?_
  refine (Conforms.call (Q := fun _ l' t' => l' = l ∧ t' = t) trivial fun _ _ => ⟨rfl, rfl⟩).then ?_
  rintro (entries : Except Int (List DbEntry)) l' t' ⟨rfl, rfl⟩
  cases entries with
  | error err => exact Conforms.pure ⟨rfl, l'.pmap, rfl⟩
  | ok entries =>
    dsimp only
    split
    · exact conforms_exit
    · exact Conforms.modify_bind (Conforms.pure ⟨rfl, _, rfl⟩)

theorem databaseOperation_frame (entry : DbEntry) (fuel : Nat) :
    Frame env me (databaseOperation entry fuel) := by
  induction fuel with
  | zero => exact fun _ _ => conforms_exit
  | succ fuel ih =>
    intro l t
    refine Conforms.get_bind ?_
    refine (Conforms.call (Q := fun _ l' t' => l' = l ∧ t' = t) trivial fun _ _ => ⟨rfl, rfl⟩).then ?_
    rintro (status : StatusCode) l' t' ⟨rfl, rfl⟩
    cases status with
    | OK =>
      dsimp only
      split
      · exact conforms_exit
      · exact Conforms.modify_bind (Conforms.pure ⟨rfl, _, rfl⟩)
    | REMOTE_VERSION_MISMATCH =>
      refine (databaseUpdate_frame l' t').then ?_
      rintro err l1 t1 ⟨rfl, db, rfl⟩
      exact Conforms.ite (fun _ => Conforms.pure ⟨rfl, db, rfl⟩) fun _ => ih { l' with pmap := db } t1
    | _ => exact Conforms.pure ⟨rfl, l'.pmap, rfl⟩

theorem require_frame {m : Client Int} (hm : Frame env me m) : Frame env me (require m) :=
  fun l t => (hm l t).then fun _ _ _ h' => Conforms.ite (fun _ => conforms_exit) fun _ => Conforms.pure h'

end Keys

/-! ## Lookups -/

section Lookups

variable {env : Env} {henv : RemovesPresent env.removeDuplicates} {me : Nat} {lost : Set Nat} {ctx : Context}

theorem lookup_finds (fuel : Nat) (path : Str) :
    Finds henv me lost (Fuse.lookup me env ctx fuel path none) :=
  fun _ _ h => (Memory.lookup_found h ctx fuel path).mono
    fun _ _ _ h' => ⟨fun a ha => (h'.inUse a ha).1, h'.sane⟩

theorem lookupParent_finds (fuel : Nat) (path : Str) :
    Finds henv me lost (lookupParent me env ctx fuel path) :=
  fun _ _ h => (Memory.lookupParent_found h ctx fuel path).mono
    fun _ _ _ h' => ⟨fun a ha => (h'.inUse a ha).1, h'.sane⟩

theorem getMetadataUserpath_finds (fuel : Nat) (path : Str) :
    Finds henv me lost (getMetadataUserpath me fuel path) := by
  refine Maintains.get_bind fun l => ?_
  split
  · exact Keeps.exit
  · refine Maintains.ite (fun _ => Maintains.pure live_none) fun _ => Keeps.new_bind fun mdi hm => ?_
    exact (getMetadata_keeps mdi).bind fun err _ => Maintains.pure (live_some hm)

end Lookups

/-! ## Operations -/

/-- Changes of metadata that have nothing to do with permissions. -/
def Plain (change : Change) : Prop :=
  ∀ md md', change.apply md = .ok md' → md'.toMetadata = md.toMetadata

/-- Updates of metadata in place leave permissions alone. -/
def PlainOperation : Operation → Prop
  | .update _ _ change => Plain change
  | _ => True

section Operations

variable {env : Env} {henv : RemovesPresent env.removeDuplicates} {me : Nat} {lost : Set Nat} {ctx : Context}
variable {l : Local} {t : Stage}

/-- `REQ_0(create_metadata(mdi))` and what follows. -/
theorem createMetadata_then {α : Type} {R : α → Prop} (h : Sane henv me lost l t) {a : Nat}
    (hm : Matching env (l.heap a).md) (why : Purpose) {f : Unit → Client α} (hf : Keeps henv me lost R (f ())) :
    Conforms (protocol env me) (require (createMetadata me why a) >>= f)
      (fun b l' t' => R b ∧ Sane henv me lost l' t') l t := by
  refine Conforms.bind (Conforms.then (createMetadata_sane h hm why) ?_)
  rintro err l' t' ⟨-, h'⟩
  exact Conforms.ite (fun _ => conforms_exit) fun _ => Conforms.pure (hf l' t' h')

theorem initializeMetadata_sane (h : Sane henv me lost l t)
    (mdi mdiParent mode : Nat) : Conforms (protocol env me) (initializeMetadata env ctx mdi mdiParent mode)
      (fun _ l' t' => Sane henv me lost l' t' ∧ Matching env (l'.heap mdi).md) l t := by
  refine (Conforms.call (Q := fun _ l' t' => l' = l ∧ t' = t) trivial fun _ _ => ⟨rfl, rfl⟩).then ?_
  rintro (inode : Nat) l' t' ⟨rfl, rfl⟩
  have hm := matching_inherit henv { (l'.heap mdi).md with
    type := .POSIX, gid := ctx.gid, uid := ctx.uid, mode := mode, inodeNumber := inode } (l'.heap mdiParent).md
  refine conforms_getMdi_bind (Conforms.modify ⟨h.setObject (fun _ => Or.inl hm) (Or.inl rfl), ?_⟩)
  rw [Local.setObject_heap, if_pos rfl]
  exact hm

theorem createIn_keeps (fuel : Nat) (path : Str) (mode mdi : Nat)
    {mdiDir : Nat} (hdir : mdiDir ∉ lost) :
    Keeps henv me lost Any (createIn me env ctx fuel path mode mdi mdiDir) := by
  refine Keeps.getMdi_bind fun dir => Maintains.ite (fun _ => Keeps.done) fun _ => ?_
  refine (createDirectoryEntry_keeps hdir _ fuel).bind fun err _ => Maintains.ite (fun _ => Keeps.done) fun _ => ?_
  intro l t h
  refine (initializeMetadata_sane h mdi mdiDir mode).then ?_
  rintro _ l' t' ⟨h', hm⟩
  exact createMetadata_then h' hm .create Keeps.done

theorem hflatCreate_keeps (fuel : Nat) (path : Str) (mode : Nat) :
    Keeps henv me lost Any (hflatCreate me env ctx fuel path mode) := by
  refine (lookup_finds fuel path).bind ?_
  rintro ⟨err, mdi⟩ hmdi
  refine Maintains.ite (fun _ => Keeps.done) fun _ => Maintains.ite (fun _ => Keeps.done) fun _ => ?_
  refine (lookupParent_finds fuel path).bind ?_
  rintro ⟨err, mdiDir⟩ hdir
  refine Maintains.ite (fun _ => Keeps.done) fun _ => Maintains.ite (fun _ => Keeps.done) fun _ => ?_
  exact Keeps.deref_bind hmdi fun a _ => Keeps.deref_bind hdir fun b hb => createIn_keeps fuel path mode a hb

theorem hflatUpdate_keeps (path : Str) {change : Change}
    (hplain : Plain change) (fuel : Nat) : Keeps henv me lost Any (hflatUpdate me env ctx path change fuel) := by
  induction fuel with
  | zero => exact Keeps.exit
  | succ fuel ih =>
    refine (lookup_finds (fuel + 1) path).bind ?_
    rintro ⟨err, mdi⟩ hmdi
    refine Maintains.ite (fun _ => Keeps.done) fun _ => Keeps.deref_bind hmdi fun a ha l t h => ?_
    refine conforms_getMdi_bind ?_
    cases hc : change.apply (l.heap a).md with
    | error err => exact Conforms.pure ⟨trivial, h⟩
    | ok md =>
      refine conforms_setMdi_bind ?_
      have h' := sane_setMD h a (f := fun _ => md) fun hm => hm.congr (hplain _ _ hc)
      refine Maintains.bind (putMetadata_keeps ha .update) (fun err _ => ?_) _ t h'
      exact Maintains.ite (fun _ => ih) fun _ => Keeps.done

/-! ### Unlink -/

theorem unlinkForceUpdate_keeps (fuel : Nat) (path : Str) :
    Keeps henv me lost Any (unlinkForceUpdate me fuel path) := by
  refine (getMetadataUserpath_finds fuel path).bind ?_
  rintro ⟨err, mdiFu⟩ hfu
  refine Maintains.ite (fun _ => Keeps.done) fun _ => Maintains.ite (fun _ => Keeps.done) fun _ => ?_
  refine Keeps.deref_bind hfu fun a _ => Keeps.getMdi_bind fun x => ?_
  exact Maintains.ite (fun _ => fun _ _ _ => trivial) fun _ => deleteMetadata_keeps a .delete

theorem unlinkLookup_keeps (fuel : Nat) (path : Str) :
    Keeps henv me lost (fun r => r.1 = 0 → r.2.1 ∉ lost ∧ r.2.2 ∉ lost) (unlinkLookup me env ctx fuel path) := by
  have hacces : -EACCES ≠ 0 := by decide
  refine (lookup_finds fuel path).bind ?_
  rintro ⟨err, mdi⟩ hmdi
  refine Maintains.ite (fun herr => Maintains.pure fun h0 => absurd h0 herr) fun _ => ?_
  refine Keeps.deref_bind hmdi fun a ha => (lookupParent_finds fuel path).bind ?_
  rintro ⟨err, mdiDir⟩ hdir
  refine Maintains.ite (fun herr => Maintains.pure fun h0 => absurd h0 herr) fun _ => ?_
  refine Keeps.deref_bind hdir fun b hb => Keeps.getMdi_bind fun dir => ?_
  refine Maintains.ite (fun _ => Maintains.pure fun h0 => absurd h0 hacces) fun _ => Keeps.getMdi_bind fun x => ?_
  exact Maintains.ite (fun _ => Maintains.pure fun h0 => absurd h0 hacces) fun _ => Maintains.pure fun _ => ⟨ha, hb⟩

theorem finishUnlink_keeps {mdiS : Nat} (hs : mdiS ∉ lost) (err : Int) :
    Keeps henv me lost Any (finishUnlink me mdiS err) := by
  refine Maintains.ite (fun _ => ?_) fun _ => ?_
  · refine Keeps.setMD_bind (fun md h => h.congr rfl) ?_
    exact (putMetadata_keeps hs .restore).require.bind fun _ _ => Keeps.done
  · exact (deleteMetadata_keeps mdiS .deleteLink).require.bind fun _ _ => Keeps.done

theorem unlinkHardlink_keeps (fuel : Nat) (path : Str) {mdiT : Nat} (ht : mdiT ∉ lost) :
    Keeps henv me lost Any (unlinkHardlink me fuel path mdiT) := by
  refine (getMetadataUserpath_finds fuel path).bind ?_
  rintro ⟨err, mdiS⟩ hmdi
  refine Maintains.ite (fun _ => Keeps.done) fun _ => Keeps.deref_bind hmdi fun a ha => ?_
  refine Keeps.getMdi_bind fun source => Maintains.ite (fun _ => fun _ _ _ => trivial) fun _ => ?_
  refine Maintains.ite (fun _ => Keeps.done) fun _ => Keeps.setMD_bind (fun md h => h.congr rfl) ?_
  refine (putMetadata_keeps ha .reserve).bind fun err _ => Maintains.ite (fun _ => Keeps.done) fun _ => ?_
  refine Keeps.setMD_bind (fun md h => h.congr rfl) (Keeps.getMdi_bind fun x => ?_)
  refine Maintains.ite (fun _ => ?_) fun _ => ?_
  · exact (deleteMetadata_keeps mdiT .dropLink).bind fun err _ => finishUnlink_keeps ha err
  · exact (putMetadata_keeps ht .dropLink).bind fun err _ => finishUnlink_keeps ha err

theorem unlinkNames_keeps {unlink : Str → Client Int}
    (hu : ∀ path, Keeps henv me lost Any (unlink path)) (fuel : Nat) (path : Str) (mdi : Nat) {mdiDir : Nat}
    (hdir : mdiDir ∉ lost) (directory : Bool) :
    Keeps henv me lost Any (unlinkNames me env ctx unlink fuel path mdi mdiDir directory) := by
  have hend : Keeps henv me lost Any (do
      require (deleteDirectoryEntry me env mdiDir (pathToFilename path) fuel)
      let reuse := (← getMdi mdi).systemPath
      if hasMapping (← get).pmap reuse then
        let err ← hflatCreate me env ctx fuel reuse S_IFREG
        if err = 0 then
          let _ ← unlink reuse
          return 0
        return 0
      return (0 : Int)) := by
    refine (deleteDirectoryEntry_keeps hdir _ fuel).require.bind fun _ _ => Keeps.getMdi_bind fun x => ?_
    refine Maintains.get_bind fun l => Maintains.ite (fun _ => ?_) fun _ => Keeps.done
    refine (hflatCreate_keeps fuel x.systemPath S_IFREG).bind fun err _ => ?_
    exact Maintains.ite (fun _ => (hu x.systemPath).bind fun _ _ => Keeps.done) fun _ => Keeps.done
  have hforce : Keeps henv me lost Any (do
      if directory then require (unlinkForceUpdate me fuel path)
      require (deleteDirectoryEntry me env mdiDir (pathToFilename path) fuel)
      let reuse := (← getMdi mdi).systemPath
      if hasMapping (← get).pmap reuse then
        let err ← hflatCreate me env ctx fuel reuse S_IFREG
        if err = 0 then
          let _ ← unlink reuse
          return 0
        return 0
      return (0 : Int)) :=
    Maintains.ite (fun _ => (unlinkForceUpdate_keeps fuel path).require.bind fun _ _ => hend) fun _ => hend
  refine Maintains.get_bind fun l => Maintains.ite (fun _ => ?_) fun _ => hforce
  exact (databaseOperation_frame _ fuel).keeps.require.bind fun _ _ => hforce

theorem hflatUnlink_keeps (fuel : Nat) (path : Str) :
    Keeps henv me lost Any (hflatUnlink me env ctx fuel path) := by
  induction fuel generalizing path with
  | zero => exact Keeps.exit
  | succ fuel ih =>
    refine (unlinkLookup_keeps (fuel + 1) path).bind ?_
    rintro ⟨err, mdi, mdiDir⟩ hlive
    refine Maintains.ite (fun _ => Keeps.done) fun herr => ?_
    obtain ⟨hm, hdir⟩ := hlive (not_not.mp herr)
    refine Keeps.getMdi_bind fun x => ?_
    have hend : ∀ err : Int, Keeps henv me lost Any (if err = -EAGAIN then hflatUnlink me env ctx fuel path
        else if err ≠ 0 then return err
        else unlinkNames me env ctx (hflatUnlink me env ctx fuel) (fuel + 1) path mdi mdiDir
          (S_ISDIR x.md.mode)) := fun err =>
      Maintains.ite (fun _ => ih path) fun _ => Maintains.ite (fun _ => Keeps.done) fun _ =>
        unlinkNames_keeps ih (fuel + 1) path mdi hdir _
    exact Maintains.ite (fun _ => (unlinkHardlink_keeps (fuel + 1) path hm).bind fun err _ => hend err)
      fun _ => (deleteMetadata_keeps mdi .delete).bind fun err _ => hend err

theorem hflatRmdir_keeps (fuel : Nat) (path : Str) :
    Keeps henv me lost Any (hflatRmdir me env ctx fuel path) := by
  refine (lookup_finds fuel path).bind ?_
  rintro ⟨err, mdi⟩ hmdi
  refine Maintains.ite (fun _ => Keeps.done) fun _ => Keeps.deref_bind hmdi fun a _ => ?_
  refine Keeps.getMdi_bind fun x => (Keeps.quiet rfl).bind ?_
  intro (keys : List Str) _
  refine Maintains.ite (fun _ => Keeps.done) fun _ => databaseUpdate_frame.keeps.bind fun _ _ => ?_
  exact hflatUnlink_keeps fuel path

/-! ### Hard links -/

/-- The target of a link moves to its own key, so nothing may refer to it under the old one. -/
theorem toHardlinkT_sane (h : Sane henv me lost l t) {mdiTarget : Nat} (hu : Memory.Uncached l mdiTarget) :
    Conforms (protocol env me) (toHardlinkT me mdiTarget) (fun _ l' t' => Any () ∧ Sane henv me lost l' t') l t := by
  refine conforms_getMdi_bind (Conforms.ite (fun _ => trivial) fun _ => ?_)
  refine conforms_newMetadataInfo_bind (conforms_setMdi_bind (conforms_setMdi_bind ?_))
  have hsource : ∀ md : Inode, ∀ inode, Matching env (hardlinkS md inode) :=
    fun _ _ => matching_of_type (by simp [hardlinkS])
  have htarget : ∀ md : Inode, Matching env { md with type := .HARDLINK_T } :=
    fun _ => matching_of_type (by simp)
  have h1 := Memory.Sane.setObject (h.alloc (l.heap mdiTarget).systemPath) (a := l.next)
    (x := { (l.alloc (l.heap mdiTarget).systemPath).heap l.next with
      keyVersion := (l.heap mdiTarget).keyVersion
      md := hardlinkS ((l.alloc (l.heap mdiTarget).systemPath).heap l.next).md
        (l.heap mdiTarget).md.inodeNumber }) (fun _ => Or.inl (hsource _ _)) (Or.inl rfl)
  refine (putMetadata_sane (h1.setObject (fun _ => Or.inl (htarget _)) (Or.inr hu)) h.next_live .convert).then ?_
  rintro err l' t' ⟨h', hmd, -⟩
  refine Conforms.ite (fun _ => Conforms.pure ⟨trivial, h'⟩) fun _ => ?_
  refine createMetadata_then h' ?_ .target Keeps.done
  rw [hmd, Local.setObject_heap, if_pos rfl]
  exact htarget _

theorem hardlinkFailed_keeps {retry : Client Int} (hr : Keeps henv me lost Any retry) {mdiDir : Nat}
    (hdir : mdiDir ∉ lost) (origin : Str) (err : Int) (fuel : Nat) :
    Keeps henv me lost Any (hardlinkFailed me env retry mdiDir origin err fuel) :=
  (deleteDirectoryEntry_keeps hdir _ fuel).require.bind fun _ _ =>
    Maintains.ite (fun _ => hr) fun _ => Keeps.done

theorem addLink_keeps {retry : Client Int} (hr : Keeps henv me lost Any retry) {mdiTarget mdiDir : Nat}
    (ht : mdiTarget ∉ lost) (mdiOrigin : Nat) (hdir : mdiDir ∉ lost) (origin : Str) (fuel : Nat) :
    Keeps henv me lost Any (addLink me env retry mdiTarget mdiOrigin mdiDir origin fuel) := by
  refine Keeps.setMD_bind (fun md h => h.congr rfl) ?_
  refine (putMetadata_keeps ht .addLink).bind fun err _ => Maintains.ite (fun _ => ?_) fun _ => ?_
  · exact hardlinkFailed_keeps hr hdir origin err fuel
  · intro l t h
    have hm : Matching env (hardlinkS (l.heap mdiOrigin).md (l.heap mdiTarget).md.inodeNumber) :=
      matching_of_type (by simp [hardlinkS])
    refine conforms_getMdi_bind (conforms_setMdi_bind ?_)
    have h' : Sane henv me lost (l.setObject mdiOrigin { l.heap mdiOrigin with
        md := hardlinkS (l.heap mdiOrigin).md (l.heap mdiTarget).md.inodeNumber }) t :=
      h.setObject (fun _ => Or.inl hm) (Or.inl rfl)
    refine createMetadata_then h' ?_ .newLink Keeps.done
    rw [Local.setObject_heap, if_pos rfl]
    exact hm

theorem linkTo_keeps {retry : Client Int} (hr : Keeps henv me lost Any retry) {mdiTarget mdiDir : Nat}
    (ht : mdiTarget ∉ lost) (mdiOrigin : Nat) (hdir : mdiDir ∉ lost) (origin : Str) (fuel : Nat) :
    Keeps henv me lost Any (linkTo me env retry mdiTarget mdiOrigin mdiDir origin fuel) := by
  have hadd := addLink_keeps hr ht mdiOrigin hdir origin fuel
  refine Keeps.getMdi_bind fun target => Maintains.ite (fun _ => fun _ _ _ => trivial) fun _ => ?_
  refine Keeps.getMdi_bind fun _ => Keeps.invalidate_bind fun l t h => ?_
  refine conforms_getMdi_bind (conforms_cacheInvalidate_bind ?_)
  have hu : Memory.Uncached (l.setCache (l.heap mdiTarget).systemPath none) mdiTarget := by
    intro key hk
    rw [Local.setCache_lookupCache] at hk
    split at hk
    · cases hk
    · rename_i hne
      exact hne (h.cache key mdiTarget hk).2.2.symm
  refine (createDirectoryEntry_hides mdiTarget hdir _ fuel _ t ⟨h.invalidate _, hu⟩).then ?_
  rintro err l1 t1 ⟨-, h1, hu1⟩
  refine Conforms.ite (fun _ => Conforms.pure ⟨trivial, h1⟩) fun _ => conforms_getMdi_bind ?_
  refine Conforms.ite (fun _ => ?_) fun _ => hadd l1 t1 h1
  refine (toHardlinkT_sane h1 hu1).then ?_
  rintro err l2 t2 ⟨-, h2⟩
  refine Conforms.ite (fun _ => ?_) fun _ => hadd l2 t2 h2
  exact hardlinkFailed_keeps hr hdir origin err fuel l2 t2 h2

theorem hflatHardlink_keeps (target origin : Str) (fuel : Nat) :
    Keeps henv me lost Any (hflatHardlink me env ctx target origin fuel) := by
  induction fuel with
  | zero => exact Keeps.exit
  | succ fuel ih =>
    refine (lookup_finds (fuel + 1) target).bind ?_
    rintro ⟨err, mdiTarget⟩ htarget
    refine Maintains.ite (fun _ => Keeps.done) fun _ => (lookupParent_finds (fuel + 1) origin).bind ?_
    rintro ⟨err, mdiOriginDir⟩ hdir
    refine Maintains.ite (fun _ => Keeps.done) fun _ => (lookupParent_finds (fuel + 1) target).bind ?_
    rintro ⟨err, mdiTargetDir⟩ hdir'
    refine Maintains.ite (fun _ => Keeps.done) fun _ => Keeps.deref_bind hdir fun dir hd => ?_
    refine Keeps.getMdi_bind fun _ => Maintains.ite (fun _ => Keeps.done) fun _ => ?_
    refine Keeps.deref_bind hdir' fun _ _ => Keeps.getMdi_bind fun _ => ?_
    refine Maintains.ite (fun _ => Keeps.done) fun _ => ?_
    refine (lookup_finds (fuel + 1) origin).bind ?_
    rintro ⟨err, mdiOrigin⟩ horigin
    refine Maintains.ite (fun _ => Keeps.done) fun _ => Maintains.ite (fun _ => Keeps.done) fun _ => ?_
    refine Keeps.deref_bind htarget fun a ha => Keeps.deref_bind horigin fun b _ => ?_
    exact linkTo_keeps ih ha b hd origin (fuel + 1)

/-! ### Rename -/

theorem renameLookup_keeps (fuel : Nat) (pathFrom pathTo : Str) :
    Keeps henv me lost (fun x => ∀ r, x = .ok r → r.dirFrom ∉ lost ∧ r.dirTo ∉ lost ∧ r.mdiFrom ∉ lost)
      (renameLookup me env ctx fuel pathFrom pathTo) := by
  have herror : ∀ err : Int, ∀ r, (Except.error err : Except Int Renaming) = .ok r → r.dirFrom ∉ lost ∧
      r.dirTo ∉ lost ∧ r.mdiFrom ∉ lost := fun _ r hr => by cases hr
  refine Maintains.ite (fun _ => Maintains.pure (herror _)) fun _ => ?_
  refine (lookupParent_finds fuel pathFrom).bind ?_
  rintro ⟨err, dirFrom⟩ hdirFrom
  refine Maintains.ite (fun _ => Maintains.pure (herror _)) fun _ => (lookupParent_finds fuel pathTo).bind ?_
  rintro ⟨err, dirTo⟩ hdirTo
  refine Maintains.ite (fun _ => Maintains.pure (herror _)) fun _ => (lookup_finds fuel pathFrom).bind ?_
  rintro ⟨err, mdiFrom⟩ hmdiFrom
  refine Maintains.ite (fun _ => Maintains.pure (herror _)) fun _ => ?_
  refine Keeps.deref_bind hdirFrom fun a ha => Keeps.deref_bind hdirTo fun b hb => ?_
  refine Keeps.deref_bind hmdiFrom fun c hc => Keeps.getMdi_bind fun _ => Keeps.getMdi_bind fun _ => ?_
  refine Maintains.ite (fun _ => Maintains.pure (herror _)) fun _ => (lookup_finds fuel pathTo).bind ?_
  rintro ⟨err, mdiTo⟩ hmdiTo
  refine Maintains.ite (fun _ => Maintains.pure (herror _)) fun _ => Keeps.deref_bind hmdiTo fun d _ => ?_
  refine Keeps.getMdi_bind fun _ => Keeps.getMdi_bind fun _ => Keeps.getMdi_bind fun _ => ?_
  refine Maintains.ite (fun _ => Maintains.pure (herror _)) fun _ => Maintains.pure fun r hr => ?_
  cases hr
  exact ⟨ha, hb, hc⟩

/-- What is copied to the new name has matching restrictions. -/
theorem renameRegular_sane (h : Sane henv me lost l t) (mdiTo : Nat) {mdiFrom : Nat}
    (hm : Matching env (l.heap mdiFrom).md) : Conforms (protocol env me) (renameRegular me mdiTo mdiFrom)
      (fun _ l' t' => Any () ∧ Sane henv me lost l' t') l t := by
  refine conforms_getMdi_bind (conforms_getMdi_bind ?_)
  refine (Conforms.call (Q := fun _ l' t' => l' = l ∧ t' = t) hm fun _ _ => ⟨rfl, rfl⟩).then ?_
  rintro (status : StatusCode) l' t' ⟨rfl, rfl⟩
  refine Conforms.ite (fun _ => Conforms.pure ⟨trivial, h⟩) fun _ => ?_
  refine (Conforms.call (Q := fun _ l'' t'' => l'' = l' ∧ t'' = t') trivial fun _ _ => ⟨rfl, rfl⟩).then ?_
  rintro (status : StatusCode) l'' t'' ⟨rfl, rfl⟩
  exact Conforms.ite (fun _ => Conforms.pure ⟨trivial, h⟩) fun _ => Conforms.pure ⟨trivial, h⟩

theorem renameSoftlink_sane (h : Sane henv me lost l t) (fuel : Nat) (pathFrom pathTo : Str) (mdiTo : Nat)
    {mdiFrom : Nat} (hm : Matching env (l.heap mdiFrom).md) :
    Conforms (protocol env me) (renameSoftlink me fuel pathFrom pathTo mdiTo mdiFrom)
      (fun _ l' t' => Any () ∧ Sane henv me lost l' t') l t := by
  have hread : Conforms (protocol env me) (hflatReadlink fuel pathFrom) (fun _ l' t' => l' = l ∧ t' = t) l t := by
    refine Conforms.get_bind ?_
    split
    · exact conforms_exit
    · exact Conforms.pure ⟨rfl, rfl⟩
  refine hread.then ?_
  rintro buffer l' t' ⟨rfl, rfl⟩
  refine (require_frame (databaseOperation_frame ⟨.REMOVED, pathFrom, []⟩ fuel) l' t').then ?_
  rintro _ _ _ ⟨rfl, db, rfl⟩
  refine (require_frame (databaseOperation_frame ⟨.SYMLINK, pathTo, buffer⟩ fuel) _ _).then ?_
  rintro _ _ _ ⟨rfl, db', rfl⟩
  have h' : Sane henv me lost { l' with pmap := db' } _ := h.setPmap trivial
  exact renameRegular_sane h' mdiTo hm

theorem require_sane {m : Client Int}
    (h : Conforms (protocol env me) m (fun _ l' t' => Any () ∧ Sane henv me lost l' t') l t) :
    Conforms (protocol env me) (require m) (fun _ l' t' => Any () ∧ Sane henv me lost l' t') l t :=
  h.then fun _ _ _ h' => Conforms.ite (fun _ => conforms_exit) fun _ => Conforms.pure h'

theorem renameHardlink_keeps (fuel : Nat) (pathFrom : Str) (mdiTo : Nat) :
    Keeps henv me lost Any (renameHardlink me fuel pathFrom mdiTo) := by
  refine (getMetadataUserpath_finds fuel pathFrom).bind ?_
  rintro ⟨err, mdiFrom⟩ hfrom
  refine Maintains.ite (fun _ => fun _ _ _ => trivial) fun _ => Keeps.deref_bind hfrom fun a _ l t h => ?_
  refine conforms_getMdi_bind (Conforms.ite (fun _ => trivial) fun htype => ?_)
  have hm : Matching env (l.heap a).md := matching_of_type (by simp [not_not.mp htype])
  refine (require_sane (renameRegular_sane h mdiTo hm)).then fun _ l' t' h' => ?_
  exact conforms_getMdi_bind (conforms_cacheInvalidate_bind
    (Conforms.pure ⟨trivial, h'.2.invalidate _⟩))

theorem renameDirectory_keeps (fuel : Nat) (pathFrom pathTo : Str) {r : Renaming}
    (hfrom : r.mdiFrom ∉ lost) : Keeps henv me lost Any (renameDirectory me env fuel pathFrom pathTo r) := by
  have hend : Keeps henv me lost Any (do
      let inode : Nat ← perform .inodeNumber
      setMD r.mdiTo fun md => { md with type := .FORCE_UPDATE, inodeNumber := inode }
      require (createMetadata me .create r.mdiTo)
      if env.posixFull then require (putMetadataForced me r.mdiFrom fuel)
      return (0 : Int)) := by
    refine (Keeps.quiet rfl).bind ?_
    intro (inode : Nat) _ l t h
    have hm : Matching env { (l.heap r.mdiTo).md with type := .FORCE_UPDATE, inodeNumber := inode } :=
      matching_of_type (by simp)
    have h' : Sane henv me lost (l.setObject r.mdiTo { l.heap r.mdiTo with
        md := { (l.heap r.mdiTo).md with type := .FORCE_UPDATE, inodeNumber := inode } }) t :=
      h.setObject (fun _ => Or.inl hm) (Or.inl rfl)
    refine conforms_setMdi_bind (createMetadata_then h' ?_ .create ?_)
    · rw [Local.setObject_heap, if_pos rfl]
      exact hm
    · exact Maintains.ite (fun _ => (putMetadataForced_keeps hfrom fuel).require.bind fun _ _ => Keeps.done)
        fun _ => Keeps.done
  refine (databaseOperation_frame _ fuel).keeps.require.bind fun _ _ => Keeps.getMdi_bind fun dir => ?_
  refine Keeps.new_bind fun mdiFu _ => (getMetadata_keeps mdiFu).bind fun err _ => Keeps.getMdi_bind fun fu => ?_
  exact Maintains.ite (fun _ => (deleteMetadata_keeps mdiFu .delete).require.bind fun _ _ => hend) fun _ => hend

theorem renameObject_keeps (fuel : Nat) (pathFrom pathTo : Str) {r : Renaming} (hfrom : r.mdiFrom ∉ lost) :
    Keeps henv me lost Any (renameObject me env fuel pathFrom pathTo r) := by
  intro l t h
  have hhard : Keeps henv me lost Any (renameHardlink me fuel pathFrom r.mdiTo) :=
    renameHardlink_keeps fuel pathFrom r.mdiTo
  refine conforms_getMdi_bind ?_
  by_cases hd : S_ISDIR (l.heap r.mdiFrom).md.mode = true
  · have hsoft : ¬ S_ISLNK (l.heap r.mdiFrom).md.mode = true := by
      intro hs
      have hdir : fileType (l.heap r.mdiFrom).md.mode = S_IFDIR := by simpa [S_ISDIR] using hd
      have hlnk : fileType (l.heap r.mdiFrom).md.mode = S_IFLNK := by simpa [S_ISLNK] using hs
      exact absurd (hdir.symm.trans hlnk) (by decide)
    have hlast : Keeps henv me lost Any (if ¬ S_ISDIR (l.heap r.mdiFrom).md.mode = true ∧
        ¬ decide ((l.heap r.mdiFrom).md.type = .HARDLINK_T) = true ∧ ¬ S_ISLNK (l.heap r.mdiFrom).md.mode = true
        then require (renameRegular me r.mdiTo r.mdiFrom) else pure ()) :=
      Maintains.ite (fun hc => absurd hd hc.1) fun _ => Keeps.done
    refine Conforms.ite (fun _ => ?_) fun hn => absurd hd hn
    refine Maintains.bind (renameDirectory_keeps fuel pathFrom pathTo hfrom).require (fun _ _ => ?_) l t h
    refine Maintains.ite (fun hs => absurd hs hsoft) fun _ => ?_
    exact Maintains.ite (fun _ => hhard.require.bind fun _ _ => hlast) fun _ => hlast
  · have hm : Matching env (l.heap r.mdiFrom).md := matching_of_mode (by simpa using hd)
    refine Conforms.ite (fun hc => absurd hc hd) fun _ => Conforms.ite (fun hs => ?_) fun hs => ?_
    · -- the last branch is not taken for a soft link
      refine (require_sane (renameSoftlink_sane h fuel pathFrom pathTo r.mdiTo hm)).then fun _ l' t' h' => ?_
      refine Maintains.ite (fun _ => hhard.require.bind fun _ _ => ?_) (fun _ => ?_) l' t' h'.2
      · exact Maintains.ite (fun hc => absurd hs hc.2.2) fun _ => Keeps.done
      · exact Maintains.ite (fun hc => absurd hs hc.2.2) fun _ => Keeps.done
    · refine Conforms.ite (fun hh => ?_) fun _ => Conforms.ite (fun _ => ?_) fun _ => ?_
      · refine Maintains.bind hhard.require (fun _ _ => ?_) l t h
        exact Maintains.ite (fun hc => absurd hh hc.2.1) fun _ => Keeps.done
      · exact require_sane (renameRegular_sane h r.mdiTo hm)
      · exact Conforms.pure ⟨trivial, h⟩

theorem renameEntries_keeps (fuel : Nat) (pathFrom pathTo : Str) {r : Renaming} (hdirFrom : r.dirFrom ∉ lost)
    (hdirTo : r.dirTo ∉ lost) (hfrom : r.mdiFrom ∉ lost) :
    Keeps henv me lost Any (renameEntries me env fuel pathFrom pathTo r) := by
  have hdelete : ∀ name, Keeps henv me lost Any (require (deleteDirectoryEntry me env r.dirTo name fuel)) :=
    fun name => (deleteDirectoryEntry_keeps hdirTo name fuel).require
  refine (createDirectoryEntry_keeps hdirTo _ fuel).bind fun err _ => Maintains.ite (fun _ => Keeps.done) fun _ => ?_
  refine (createDirectoryEntry_keeps hdirTo _ fuel).require.bind fun _ _ => ?_
  refine (deleteDirectoryEntry_keeps hdirFrom _ fuel).bind fun err _ => Maintains.ite (fun _ => ?_) fun _ => ?_
  · exact (hdelete _).bind fun _ _ => (hdelete _).bind fun _ _ => Keeps.done
  · refine (renameObject_keeps fuel pathFrom pathTo hfrom).bind fun _ _ => (hdelete _).bind fun _ _ => ?_
    refine Keeps.getMdi_bind fun _ => Keeps.invalidate_bind ?_
    exact Keeps.getMdi_bind fun _ => Keeps.invalidate_bind Keeps.done

theorem hflatRename_keeps (fuel : Nat) (pathFrom pathTo : Str) :
    Keeps henv me lost Any (hflatRename me env ctx fuel pathFrom pathTo) := by
  refine (renameLookup_keeps fuel pathFrom pathTo).bind fun x hx => ?_
  cases x with
  | error err => exact Keeps.done
  | ok r =>
    obtain ⟨hdirFrom, hdirTo, hfrom⟩ := hx r rfl
    have hentries : ∀ mdiTo, Keeps henv me lost Any (renameEntries me env fuel pathFrom pathTo
        { r with mdiTo := mdiTo }) := fun mdiTo => renameEntries_keeps fuel pathFrom pathTo hdirFrom hdirTo hfrom
    have htarget : Keeps henv me lost Any (targetAfterUnlink me env ctx fuel pathTo r.mdiTo) := by
      refine Keeps.getMdi_bind fun _ => Maintains.ite (fun _ => ?_) fun _ => Keeps.done
      refine Maintains.bind (R := Any) (fun l t h => ?_) ?_
      · refine (Memory.lookup_looks (discipline henv me) lost ctx fuel pathTo (some r.mdiTo) l t h).mono ?_
        rintro ⟨err, mdi⟩ l' t' (⟨-, -, h', -⟩ | h')
        · exact ⟨trivial, h'⟩
        · exact ⟨trivial, h'.sane⟩
      · rintro ⟨err, mdi⟩ -
        cases mdi with
        | none => exact Keeps.exit
        | some a => exact Keeps.done
    have hafter : ∀ err : Int, Keeps henv me lost Any (do
        if err ≠ 0 then return err
        let mdiTo ← targetAfterUnlink me env ctx fuel pathTo r.mdiTo
        renameEntries me env fuel pathFrom pathTo { r with mdiTo := mdiTo }) := fun err =>
      Maintains.ite (fun _ => Keeps.done) fun _ => htarget.bind fun mdiTo _ => hentries mdiTo
    refine Keeps.getMdi_bind fun md => Maintains.ite (fun _ => ?_) fun _ => hentries r.mdiTo
    refine Maintains.ite (fun _ => ?_) fun _ => ?_
    · exact (hflatRmdir_keeps fuel pathTo).bind fun err _ => hafter err
    · exact (hflatUnlink_keeps fuel pathTo).bind fun err _ => hafter err

theorem Operation.run_keeps (fuel : Nat) {op : Operation}
    (hop : PlainOperation op) : Keeps henv me lost Any (op.run me env fuel) := by
  cases op with
  | create ctx path mode => exact hflatCreate_keeps fuel path mode
  | update ctx path change => exact hflatUpdate_keeps path hop fuel
  | unlink ctx path => exact hflatUnlink_keeps fuel path
  | rmdir ctx path => exact hflatRmdir_keeps fuel path
  | link ctx target origin => exact hflatHardlink_keeps target origin fuel
  | rename ctx pathFrom pathTo => exact hflatRename_keeps fuel pathFrom pathTo

end Operations

/-! ## Permission changes -/

section Changes

variable {env : Env} {henv : RemovesPresent env.removeDuplicates} {me : Nat} {lost : Set Nat} {ctx : Context}
variable {l : Local} {t : Stage}

/-- The object `mdi` holds what was stored half-changed. -/
structure Half (env : Env) (lost : Set Nat) (mdi : Nat) (l : Local) (t : Stage) : Prop where
  half : t.half = some ((l.heap mdi).systemPath, (l.heap mdi).keyVersion)
  live : mdi ∉ lost
  safe : ∀ a, a ∉ lost → a ≠ mdi → Safe env (l.heap a) t
  cache : ∀ key a, l.lookupCache key = some a → a ∉ lost ∧ a < l.next ∧ (l.heap a).systemPath = key
  used : ∀ a ∈ lost, a < l.next

theorem Half.setMD {mdi : Nat} (h : Half env lost mdi l t) (f : Inode → Inode) :
    Half env lost mdi (l.setObject mdi { l.heap mdi with md := f (l.heap mdi).md }) t := by
  refine ⟨?_, h.live, fun a ha hne => ?_, fun key a ha => ?_, h.used⟩
  · rw [Local.setObject_heap, if_pos rfl]
    exact h.half
  · rw [Local.setObject_heap, if_neg hne]
    exact h.safe a ha hne
  · obtain ⟨hlive, hlt, hpath⟩ := h.cache key a ha
    refine ⟨hlive, hlt, ?_⟩
    rw [Local.setObject_heap]
    split
    · rename_i he
      rw [← he]
      exact hpath
    · exact hpath

/-- The permission change is done. -/
theorem Half.finish {mdi : Nat} (h : Half env lost mdi l t) {t' : Stage} (hidle : t'.half = none)
    (hseen : t.seen ⊆ t'.seen) (hm : Matching env (l.heap mdi).md) : Sane henv me lost l t' := by
  refine ⟨hidle, trivial, fun a ha => ?_, h.cache, h.used⟩
  by_cases he : a = mdi
  · rw [he]
    exact Or.inl hm
  · exact (h.safe a ha he).imp id fun hs => hseen hs

theorem matching_verified {md : Inode} (h : Matching env md) (version : Nat) :
    Matching env { md with pathPermissionVerified := version } := by
  intro ht hd e
  have hr : restrictions env { md with pathPermissionVerified := version } = restrictions env md :=
    congrArg (env.removeDuplicates md.pathPermission) (derivedEntries_congr rfl rfl rfl)
  rw [hr]
  exact h ht hd e

theorem putMetadataForcedWith_keeps (version : Nat) {mdi : Nat} (hm : mdi ∉ lost) (fuel : Nat) :
    Keeps henv me lost Any
      (putMetadataForcedWith me (fun md => { md with pathPermissionVerified := version }) mdi fuel) := by
  induction fuel with
  | zero => exact Keeps.exit
  | succ fuel ih =>
    refine Keeps.setMD_bind (fun md h => matching_verified h version) ?_
    refine (putMetadata_keeps hm .update).bind fun err _ => Maintains.ite (fun _ => Keeps.done) fun _ => ?_
    exact (getMetadata_keeps mdi).bind fun err _ => Maintains.ite (fun _ => Keeps.done) fun _ => ih

/-- The restrictions are stored after a half-changed record, or the record is no longer there, or the
    client ends. -/
theorem putMetadata_half (henv : RemovesPresent env.removeDuplicates) {mdi : Nat}
    (h : Half env lost mdi l t) (hm : Matching env (l.heap mdi).md) :
    Conforms (protocol env me) (putMetadata me .update mdi) (fun err l' t' =>
      Sane henv me lost l' t' ∨ err ≠ 0 ∧ err ≠ -ENOENT ∧ err ≠ -EAGAIN) l t := by
  have hallowed : Allowed env me t (.put me mdi .update (l.heap mdi).systemPath (l.heap mdi).keyVersion
      (l.heap mdi).md) := by
    refine ⟨rfl, fun v hv => ?_⟩
    rw [h.half] at hv
    exact ⟨Option.some.inj hv, hm⟩
  refine conforms_getMdi_bind ?_
  refine (conforms_put (Q := fun x l' t' => l' = l ∧ x.1 ≠ .REMOTE_NOT_FOUND ∧
    t' = t.stored env (l.heap mdi).systemPath (l.heap mdi).md x)
    hallowed fun x hx _ => ⟨rfl, hx, rfl⟩).then ?_
  rintro ⟨status, version⟩ l' t' ⟨rfl, hx, rfl⟩
  have hio : - EIO ≠ 0 ∧ - EIO ≠ -ENOENT ∧ - EIO ≠ -EAGAIN := by decide
  cases status with
  | OK =>
    have ht : t.stored env (l'.heap mdi).systemPath (l'.heap mdi).md (.OK, version) = { t with half := none } := by
      simp [Stage.stored, hm]
    rw [ht]
    have h' : Sane henv me lost l' { t with half := none } := h.finish rfl (List.Subset.refl _) hm
    exact conforms_setMdi_bind (Conforms.pure (Or.inl (h'.setObject (fun _ => Or.inl hm) (Or.inl rfl))))
  | REMOTE_VERSION_MISMATCH =>
    have h' : Sane henv me lost l' (t.stored env (l'.heap mdi).systemPath (l'.heap mdi).md
        (.REMOTE_VERSION_MISMATCH, version)) := h.finish (by simp [Stage.stored]) (by simp [Stage.stored]) hm
    exact conforms_cacheInvalidate_bind (Conforms.pure (Or.inl (h'.invalidate _)))
  | REMOTE_NOT_FOUND => exact absurd rfl hx
  | _ => exact conforms_cacheInvalidate_bind (Conforms.pure (Or.inr hio))

/-- The second write of a permission change. -/
theorem storeRestrictions_half {mdi : Nat} (h : Half env lost mdi l t) (hm : Matching env (l.heap mdi).md)
    (fuel : Nat) : Conforms (protocol env me) (storeRestrictions me fuel mdi)
      (fun _ l' t' => Any () ∧ Sane henv me lost l' t') l t := by
  refine Conforms.get_bind ?_
  have hforced : Conforms (protocol env me) (putMetadataForcedWith me
      (fun md => { md with pathPermissionVerified := l.pmap.snapshotVersion }) mdi fuel)
      (fun err l' t' => Sane henv me lost l' t' ∨ err ≠ 0 ∧ err ≠ -ENOENT) l t := by
    cases fuel with
    | zero => exact conforms_exit
    | succ fuel =>
      refine conforms_setMdi_bind ?_
      have hset := h.setMD fun md => { md with pathPermissionVerified := l.pmap.snapshotVersion }
      refine (putMetadata_half henv hset ?_).then ?_
      · rw [Local.setObject_heap, if_pos rfl]
        exact matching_verified hm _
      · rintro err l' t' (h' | ⟨h0, hnoent, hagain⟩)
        · refine Conforms.ite (fun _ => Conforms.pure (Or.inl h')) fun _ => ?_
          refine (Memory.getMetadata_sane h' mdi).then ?_
          rintro err l1 t1 ⟨h1, -⟩
          refine Conforms.ite (fun _ => Conforms.pure (Or.inl h1)) fun _ => ?_
          exact (putMetadataForcedWith_keeps _ h.live fuel l1 t1 h1).mono fun _ _ _ h2 => Or.inl h2.2
        · refine Conforms.ite (fun _ => Conforms.pure (Or.inr ⟨h0, hnoent⟩)) fun hne => ?_
          exact absurd (not_not.mp hne) hagain
  refine hforced.then ?_
  rintro err l' t' h'
  refine Conforms.ite (fun _ => trivial) fun herr => ?_
  rcases h' with h' | h'
  · exact Conforms.pure ⟨trivial, h'⟩
  · exact absurd h' herr

theorem storeRestrictions_keeps {mdi : Nat} (hm : mdi ∉ lost) (fuel : Nat) :
    Keeps henv me lost Any (storeRestrictions me fuel mdi) :=
  Maintains.get_bind fun l => (putMetadataForcedWith_keeps l.pmap.snapshotVersion hm fuel).bind
    fun _ _ => Maintains.ite (fun _ => fun _ _ _ => trivial) fun _ => Keeps.done

/-- Nothing is half-changed: the mode that was stored has not changed the restrictions. -/
theorem notePermissionChange_keeps {mdi : Nat} (hm : mdi ∉ lost)
    (fuel : Nat) (path : Str) : Keeps henv me lost Any (notePermissionChange me env fuel path mdi) := by
  refine Keeps.getMdi_bind fun x => Maintains.ite (fun _ => ?_) fun _ => Keeps.done
  refine Keeps.setMD_bind (fun _ _ => matching_compute henv x.md) (Maintains.ite (fun _ => ?_) fun _ => Keeps.done)
  exact (databaseOperation_frame _ fuel).keeps.require.bind fun _ _ => storeRestrictions_keeps hm fuel

theorem notePermissionChange_half {mdi : Nat}
    (h : Half env lost mdi l t) (hm : ¬ Matching env (l.heap mdi).md) (fuel : Nat) (path : Str) :
    Conforms (protocol env me) (notePermissionChange me env fuel path mdi)
      (fun _ l' t' => Any () ∧ Sane henv me lost l' t') l t := by
  refine conforms_getMdi_bind (Conforms.ite (fun _ => ?_) fun hd => ?_)
  · refine conforms_setMdi_bind (Conforms.ite (fun _ => ?_) fun hc => ?_)
    · have hset := h.setMD fun _ => (Inode.computePathPermissionChildren env (l.heap mdi).md).1
      refine (require_frame (databaseOperation_frame ⟨.NONE, path, []⟩ fuel) _ _).then ?_
      rintro _ _ _ ⟨rfl, db, rfl⟩
      refine storeRestrictions_half (l := { l.setObject mdi _ with pmap := db })
        ⟨hset.half, hset.live, hset.safe, hset.cache, hset.used⟩ ?_ fuel
      show Matching env ((l.setObject mdi _).heap mdi).md
      rw [Local.setObject_heap, if_pos rfl]
      exact matching_compute henv _
    · exact absurd (matching_of_unchanged henv (Bool.eq_false_iff.mpr hc)) hm
  · exact absurd (matching_of_mode (by simpa using hd)) hm

/-- A permission change was refused: the object is lost. -/
theorem sane_lose (h : Sane henv me lost l t) {mdi : Nat} (hm : Memory.InUse lost l mdi) (md : Inode) :
    Sane henv me (insert mdi lost)
      ((l.setObject mdi { l.heap mdi with md := md }).setCache (l.heap mdi).systemPath none) t := by
  refine ⟨h.idle, trivial, fun a ha => ?_, fun key a ha => ?_, fun a ha => ?_⟩
  · rw [Set.mem_insert_iff, not_or] at ha
    rw [Local.setCache_heap, Local.setObject_heap, if_neg ha.1]
    exact h.ok a ha.2
  · rw [Local.setCache_lookupCache] at ha
    split at ha
    · cases ha
    · rename_i hne
      obtain ⟨hlive, hlt, hpath⟩ := h.cache key a ha
      have ha' : a ≠ mdi := fun he => hne (by rw [← hpath, he])
      refine ⟨fun hmem => ?_, hlt, ?_⟩
      · rcases hmem with hmem | hmem
        · exact ha' hmem
        · exact hlive hmem
      · rw [Local.setCache_heap, Local.setObject_heap, if_neg ha']
        exact hpath
  · rcases ha with rfl | ha
    · exact hm.2
    · exact h.used a ha

/-- The first write of a permission change. -/
theorem putMetadata_change (h : Sane henv me lost l t) {mdi : Nat} (hm : Memory.InUse lost l mdi) (md : Inode) :
    Conforms (protocol env me) (putMetadata me .update mdi) (fun err l' t' =>
      if err = 0 then Sane henv me lost l' t' ∨ Half env lost mdi l' t' ∧ ¬ Matching env (l'.heap mdi).md
      else Sane henv me (insert mdi lost) l' t') (l.setObject mdi { l.heap mdi with md := md }) t := by
  have hself : (l.setObject mdi { l.heap mdi with md := md }).heap mdi = { l.heap mdi with md := md } := by
    rw [Local.setObject_heap, if_pos rfl]
  refine conforms_getMdi_bind ?_
  rw [hself]
  have hallowed : Allowed env me t (.put me mdi .update (l.heap mdi).systemPath (l.heap mdi).keyVersion md) :=
    ⟨rfl, fun v hv => by rw [h.idle] at hv; cases hv⟩
  refine (conforms_put (Q := fun x l' t' => l' = l.setObject mdi { l.heap mdi with md := md } ∧
    t' = t.stored env (l.heap mdi).systemPath md x) hallowed fun x _ _ => ⟨rfl, rfl⟩).then ?_
  rintro ⟨status, version⟩ l' t' ⟨rfl, rfl⟩
  by_cases hs : status = .OK
  · subst hs
    refine conforms_setMdi_bind (Conforms.pure ?_)
    rw [if_pos rfl, hself]
    have htwice : (l.setObject mdi { l.heap mdi with md := md }).setObject mdi
        { l.heap mdi with md := md, keyVersion := version } =
        l.setObject mdi ⟨(l.heap mdi).systemPath, version, md⟩ := by
      unfold Local.setObject
      rw [Function.update_idem]
    rw [htwice]
    by_cases hmatch : Matching env md
    · have ht : t.stored env (l.heap mdi).systemPath md (.OK, version) = { t with half := none } := by
        simp [Stage.stored, hmatch]
      rw [ht]
      have h' : Sane henv me lost l { t with half := none } := sane_stage h rfl (List.Subset.refl _)
      exact Or.inl (h'.setObject (fun _ => Or.inl hmatch) (Or.inl rfl))
    · have ht : t.stored env (l.heap mdi).systemPath md (.OK, version) =
          { t with half := some ((l.heap mdi).systemPath, version) } := by
        simp [Stage.stored, hmatch]
      rw [ht]
      have hset := Local.setObject_heap l mdi mdi ⟨(l.heap mdi).systemPath, version, md⟩
      rw [if_pos rfl] at hset
      refine Or.inr ⟨⟨?_, hm.1, fun a ha hne => ?_, fun key a ha => ?_, h.used⟩, ?_⟩
      · rw [hset]
      · rw [Local.setObject_heap, if_neg hne]
        exact h.ok a ha
      · obtain ⟨hlive, hlt, hpath⟩ := h.cache key a ha
        refine ⟨hlive, hlt, ?_⟩
        rw [Local.setObject_heap]
        split
        · rename_i he
          rw [← he]
          exact hpath
        · exact hpath
      · rw [hset]
        exact hmatch
  · have ht : Sane henv me lost l (t.stored env (l.heap mdi).systemPath md (status, version)) := by
      unfold Stage.stored
      rw [if_neg hs]
      split
      · exact sane_stage h rfl (List.Subset.refl _)
      · exact h
    have hlose := sane_lose ht hm md
    have hne : -EAGAIN ≠ 0 ∧ -ENOENT ≠ 0 ∧ - EIO ≠ 0 := by decide
    cases status <;> first
      | exact absurd rfl hs
      | exact conforms_cacheInvalidate_bind (Conforms.pure (by rw [if_neg hne.1]; exact hlose))
      | exact conforms_cacheInvalidate_bind (Conforms.pure (by rw [if_neg hne.2.1]; exact hlose))
      | exact conforms_cacheInvalidate_bind (Conforms.pure (by rw [if_neg hne.2.2]; exact hlose))

/-- Nothing is half-changed, whatever is lost. -/
def Settled {env : Env} (henv : RemovesPresent env.removeDuplicates) (me : Nat) (l : Local) (t : Stage) : Prop :=
  ∃ lost, Sane henv me lost l t

/-- The program leaves no permission change half done. -/
abbrev Settles {env : Env} (henv : RemovesPresent env.removeDuplicates) (me : Nat) (m : Client Int) : Prop :=
  Maintains (protocol env me) (Settled henv me) Any m

theorem Keeps.settles {m : Client Int} (hm : ∀ lost, Keeps henv me lost Any m) : Settles henv me m := by
  rintro l t ⟨lost, h⟩
  exact (hm lost l t h).mono fun _ _ _ h' => ⟨trivial, lost, h'.2⟩

theorem permissionLookup_found (h : Sane henv me lost l t) (fuel : Nat) (path : Str) (gid : Option Nat) :
    Conforms (protocol env me) (permissionLookup me env ctx fuel path gid) (fun r l' t' =>
      Sane henv me lost l' t' ∧ ∀ a, r.2 = some a → Memory.InUse lost l' a) l t := by
  refine (Memory.lookup_found h ctx fuel path).then ?_
  rintro ⟨err, mdi⟩ l' t' hf
  have hsame : ∀ err : Int, Sane henv me lost l' t' ∧ ∀ a, (err, mdi).2 = some a → Memory.InUse lost l' a :=
    fun _ => ⟨hf.sane, hf.inUse⟩
  refine Conforms.ite (fun _ => Conforms.pure (hsame err)) fun _ => ?_
  refine Conforms.ite (fun _ => Conforms.pure (hsame 0)) fun _ => ?_
  cases mdi with
  | none => exact conforms_exit
  | some p =>
    refine conforms_deref_bind (conforms_getMdi_bind (Conforms.ite (fun _ => Conforms.pure (hsame _)) fun _ => ?_))
    exact Conforms.ite (fun _ => Conforms.pure (hsame _)) fun _ => Conforms.pure (hsame 0)

theorem doPermissionChange_settles (path : Str) (fuel : Nat)
    (mode uid gid : Option Nat) : Settles henv me (doPermissionChange me env ctx path fuel mode uid gid) := by
  induction fuel generalizing mode with
  | zero => exact fun _ _ _ => conforms_exit
  | succ fuel ih =>
    rintro l t ⟨lost, h⟩
    refine (permissionLookup_found h (fuel + 1) path gid).then ?_
    rintro ⟨err, mdi⟩ l' t' ⟨hsane, hmdi⟩
    refine Conforms.ite (fun _ => Conforms.pure ⟨trivial, lost, hsane⟩) fun _ => ?_
    cases mdi with
    | none => exact conforms_exit
    | some a =>
      refine conforms_deref_bind (conforms_getMdi_bind (Conforms.ite (fun _ => trivial) fun _ => ?_))
      refine conforms_setMdi_bind ((putMetadata_change hsane (hmdi a rfl) _).then ?_)
      intro err l1 t1 h1
      have hagain : -EAGAIN ≠ 0 := by decide
      refine Conforms.ite (fun he => ?_) fun _ => Conforms.ite (fun he => ?_) fun he => ?_
      · rw [he, if_neg hagain] at h1
        exact ih _ l1 t1 ⟨_, h1⟩
      · rw [if_neg he] at h1
        exact Conforms.pure ⟨trivial, _, h1⟩
      · rw [if_pos (not_not.mp he)] at h1
        rcases h1 with h1 | ⟨h1, hm⟩
        · exact (notePermissionChange_keeps (hmdi a rfl).1 (fuel + 1) path l1 t1 h1).mono
            fun _ _ _ h' => ⟨trivial, lost, h'.2⟩
        · exact (notePermissionChange_half h1 hm (fuel + 1) path).mono
            fun _ _ _ h' => ⟨trivial, lost, h'.2⟩

/-- Updates of metadata in place leave permissions alone. -/
def PlainAction : Action → Prop
  | .other op => PlainOperation op
  | _ => True

theorem Action.run_settles (fuel : Nat) {action : Action}
    (ha : PlainAction action) : Settles henv me (action.run me env fuel) := by
  cases action with
  | chmod ctx path mode => exact doPermissionChange_settles path fuel _ _ _
  | chown ctx path uid gid => exact doPermissionChange_settles path fuel _ _ _
  | lookup ctx path =>
    exact Keeps.settles fun lost => (lookup_finds fuel path).bind fun _ _ => Keeps.done
  | other op => exact Keeps.settles fun lost => Operation.run_keeps fuel ha

theorem actions_settle (fuel : Nat) (todo : List Action)
    (ha : ∀ a ∈ todo, PlainAction a) :
    Maintains (protocol env me) (Settled henv me) Any (actions me env fuel todo) := by
  induction todo with
  | nil => exact Maintains.pure trivial
  | cons a todo ih =>
    refine (Action.run_settles fuel (ha a List.mem_cons_self)).bind fun err _ => ?_
    exact (ih fun b hb => ha b (List.mem_cons_of_mem _ hb)).bind fun _ _ => Maintains.pure trivial

theorem mounted_settled (pmap : PathMapDB) : Settled henv me (Local.mounted pmap) ⟨none, []⟩ := by
  refine ⟨∅, rfl, trivial, fun a _ => Or.inl matching_empty, fun key a ha => ?_, fun a ha => ?_⟩
  · cases ha
  · exact absurd ha (Set.notMem_empty a)

end Changes

/-! ## Runs -/

/-- Who has stored a key last, and keys and versions of all half-changed records. -/
structure Writers where
  writer : Str → Option Nat
  halves : List (Str × Str)

/-- No client has stored anything. -/
def Writers.start : Writers := ⟨fun _ => none, []⟩

/-- What has been stored, after an access. -/
def note (env : Env) (h : Writers) (_ : Store) : (r : Req) → Res r → Store → Writers
  | .put me _ _ key _ md, x, _ =>
      if x.1 = StatusCode.OK then
        ⟨Function.update h.writer key (some me), if Matching env md then h.halves else (key, x.2) :: h.halves⟩
      else h
  | _, _, _ => h

/-- A `Put` with this expected version is carried out: it reaches the store and is not refused. -/
def carriedOut (s : Store) (key expected : Str) (choice : Choice) : Bool :=
  choice ≠ .unreachable ∧ versionOf (s.metadata key) = expected

/-- A half-changed record is only replaced by the client that has stored it, the answer to a `Put`
    of one is not lost, and no rename stores a record under its version. A `Put` that is not carried
    out is always allowed. -/
def undisturbed (env : Env) (s : Store × Writers) : Req → Choice → Bool
  | .put me _ _ key expected md, choice =>
      !carriedOut s.1 key expected choice ||
        ((s.1.metadata key).all (fun r => Matching env r.value) || s.2.writer key == some me) &&
          (choice != .lost || Matching env md)
  | .putVersion _ _ key record, choice =>
      !carriedOut s.1 key [] choice || (key, record.version) ∉ s.2.halves
  | _, _ => true

/-- The service, noting who has stored what. -/
def observed (uuid : Nat → Str) (env : Env) : Service Req Res Choice (Store × Writers) :=
  (store uuid).observe (note env)

/-- The invariant: a half-changed record is one that a client is about to complete, and the versions of
    such records are those noted. -/
structure Inv (env : Env) (uuid : Nat → Str) (s : Store × Writers) (t : Nat → Stage) : Prop where
  half : ∀ key r, s.1.metadata key = some r → ¬ Matching env r.value →
    ∃ i, s.2.writer key = some i ∧ (t i).half = some (key, r.version)
  seen : ∀ i v, v ∈ (t i).seen → v ∈ s.2.halves
  current : ∀ key r, s.1.metadata key = some r → (¬ Matching env r.value ↔ (key, r.version) ∈ s.2.halves)
  old : ∀ v ∈ s.2.halves, ∃ n, n < s.1.uuids ∧ v.2 = uuid n

section Runs

variable {env : Env} {uuid : Nat → Str} {s s' : Store} {h : Writers} {t : Nat → Stage} {i : Nat}

theorem serve_put_status {me mdi : Nat} {why : Purpose} {key expected version : Str} {md : Inode}
    {choice : Choice} {status : StatusCode}
    (hs : serve uuid s (.put me mdi why key expected md) choice = some ((status, version), s')) :
    status ≠ .REMOTE_NOT_FOUND ∧
      (choice ≠ .lost → status ≠ .OK → s' = { s with uuids := s.uuids + 1 }) ∧
      (status = .OK → choice ≠ .unreachable) := by
  have hx : (answer { s with uuids := s.uuids + 1 } (s.put uuid key expected md) choice).map
      (fun result => ((result.1, uuid s.uuids), result.2)) = some ((status, version), s') := hs
  obtain ⟨result, hr, he⟩ := Option.map_eq_some_iff.mp hx
  cases he
  by_cases hv : versionOf (s.metadata key) = expected
  · have hput : s.put uuid key expected md =
        (.OK, { s.set key (some ⟨md, uuid s.uuids⟩) with uuids := s.uuids + 1 }) := by
      simp [Store.put, Replication.putSame, hv]
    rw [hput] at hr
    cases choice with
    | done =>
      cases hr
      simp
    | unreachable =>
      cases hr
      simp
    | lost =>
      cases hr
      simp
    | expired b => cases hr
    | number n => cases hr
  · have hput : s.put uuid key expected md =
        (.REMOTE_VERSION_MISMATCH, { s with uuids := s.uuids + 1 }) := by
      simp [Store.put, Replication.putSame, hv, Store.set_self]
    rw [hput] at hr
    rcases answer_eq hr with rfl | rfl | rfl <;> simp

/-- A version that has just been generated is not one of a half-changed record. -/
theorem Inv.uuid_new (huuid : Versions.Unique uuid) (hinv : Inv env uuid (s, h) t) (key : Str) :
    (key, uuid s.uuids) ∉ h.halves := by
  intro hmem
  obtain ⟨n, hn, he⟩ := hinv.old _ hmem
  have hn' : n < s.uuids := hn
  have := huuid.injective he
  omega

/-- An access that stores nothing, after which the clients may have read more. -/
theorem Inv.removed (hinv : Inv env uuid (s, h) t) (hu : s.uuids ≤ s'.uuids)
    (hm : ∀ key, s'.metadata key = s.metadata key ∨ s'.metadata key = none) {t' : Nat → Stage}
    (hhalf : ∀ key r, s.metadata key = some r → ¬ Matching env r.value → ∀ j,
      (t j).half = some (key, r.version) → (t' j).half = some (key, r.version))
    (hseen : ∀ j v, v ∈ (t' j).seen → v ∈ h.halves) : Inv env uuid (s', h) t' := by
  have hold : ∀ key r, s'.metadata key = some r → s.metadata key = some r := by
    intro key r hr
    rcases hm key with he | he
    · rw [← he]
      exact hr
    · rw [he] at hr
      cases hr
  refine ⟨fun key r hr hn => ?_, hseen, fun key r hr => hinv.current key r (hold key r hr), fun v hv => ?_⟩
  · obtain ⟨j, hw, hj⟩ := hinv.half key r (hold key r hr) hn
    exact ⟨j, hw, hhalf key r (hold key r hr) hn j hj⟩
  · obtain ⟨n, hn, he⟩ := hinv.old v hv
    exact ⟨n, Nat.lt_of_lt_of_le hn hu, he⟩

/-- A record with matching restrictions is stored, under a version of no half-changed one. -/
theorem Inv.storedMatching (hinv : Inv env uuid (s, h) t) (hu : s.uuids ≤ s'.uuids) {key : Str}
    {record : KineticRecord Inode} (hm : ∀ k, s'.metadata k = if k = key then some record else s.metadata k)
    (hmatch : Matching env record.value) (hnew : (key, record.version) ∉ h.halves)
    {writer : Str → Option Nat} (hw : ∀ k, k ≠ key → writer k = h.writer k) {t' : Nat → Stage}
    (hhalf : ∀ k, k ≠ key → ∀ v j, (t j).half = some (k, v) → (t' j).half = some (k, v))
    (hseen : ∀ j, (t' j).seen = (t j).seen) : Inv env uuid (s', ⟨writer, h.halves⟩) t' := by
  refine ⟨fun k r hr hn => ?_, fun j v hv => ?_, fun k r hr => ?_, fun v hv => ?_⟩
  · have hr' : s'.metadata k = some r := hr
    rw [hm] at hr'
    split at hr'
    · cases hr'
      exact absurd hmatch hn
    · rename_i hk
      obtain ⟨j, hj, hh⟩ := hinv.half k r hr' hn
      exact ⟨j, (hw k hk).trans hj, hhalf k hk _ j hh⟩
  · rw [hseen] at hv
    exact hinv.seen j v hv
  · have hr' : s'.metadata k = some r := hr
    rw [hm] at hr'
    split at hr'
    · rename_i hk
      cases hr'
      subst hk
      exact ⟨fun hn => absurd hmatch hn, fun hmem => absurd hmem hnew⟩
    · exact hinv.current k r hr'
  · obtain ⟨n, hn, he⟩ := hinv.old v hv
    exact ⟨n, Nat.lt_of_lt_of_le hn hu, he⟩

/-- A half-changed record is stored. -/
theorem Inv.storedHalf (hinv : Inv env uuid (s, h) t) {key : Str} {md : Inode}
    (hmatch : ¬ Matching env md)
    (hm : ∀ k, s'.metadata k = if k = key then some ⟨md, uuid s.uuids⟩ else s.metadata k)
    (hu : s'.uuids = s.uuids + 1) {writer : Str → Option Nat} (hw : writer key = some i)
    (hother : ∀ k, k ≠ key → writer k = h.writer k) {t' : Nat → Stage}
    (hi : (t' i).half = some (key, uuid s.uuids))
    (hhalf : ∀ k, k ≠ key → ∀ v j, (t j).half = some (k, v) → (t' j).half = some (k, v))
    (hseen : ∀ j, (t' j).seen = (t j).seen) :
    Inv env uuid (s', ⟨writer, (key, uuid s.uuids) :: h.halves⟩) t' := by
  refine ⟨fun k r hr hn => ?_, fun j v hv => ?_, fun k r hr => ?_, fun v hv => ?_⟩
  · have hr' : s'.metadata k = some r := hr
    rw [hm] at hr'
    split at hr'
    · rename_i hk
      cases hr'
      exact ⟨i, by rw [hk]; exact hw, by rw [hk]; exact hi⟩
    · rename_i hk
      obtain ⟨j, hj, hh⟩ := hinv.half k r hr' hn
      exact ⟨j, (hother k hk).trans hj, hhalf k hk _ j hh⟩
  · rw [hseen] at hv
    exact List.mem_cons_of_mem _ (hinv.seen j v hv)
  · have hr' : s'.metadata k = some r := hr
    rw [hm] at hr'
    split at hr'
    · rename_i hk
      cases hr'
      subst hk
      exact ⟨fun _ => List.mem_cons_self, fun _ => hmatch⟩
    · rename_i hk
      refine (hinv.current k r hr').trans ⟨fun hmem => List.mem_cons_of_mem _ hmem, fun hmem => ?_⟩
      rcases List.mem_cons.mp hmem with he | hmem
      · exact absurd (congrArg Prod.fst he) hk
      · exact hmem
  · have hu' : s'.uuids = s.uuids + 1 := hu
    rcases List.mem_cons.mp hv with rfl | hv
    · exact ⟨s.uuids, by show s.uuids < s'.uuids; omega, rfl⟩
    · obtain ⟨n, hn, he⟩ := hinv.old v hv
      have hn' : n < s.uuids := hn
      exact ⟨n, by show n < s'.uuids; omega, he⟩

/-- What is allowed of a `Put` that is carried out. -/
theorem undisturbed_put {mdi : Nat} {why : Purpose} {key expected : Str} {md : Inode} {choice : Choice}
    (hok : undisturbed env (s, h) (.put i mdi why key expected md) choice = true)
    (hreach : choice ≠ .unreachable) (hv : versionOf (s.metadata key) = expected) :
    ((s.metadata key).all (fun r => Matching env r.value) = true ∨ h.writer key = some i) ∧
      (choice ≠ .lost ∨ Matching env md) := by
  have hc : carriedOut s key expected choice = true := decide_eq_true ⟨hreach, hv⟩
  simpa [undisturbed, hc] using hok

/-- A client that has nothing half-changed does not replace a half-changed record. -/
theorem Inv.refused (huuid : Versions.Unique uuid) (hinv : Inv env uuid (s, h) t) {mdi : Nat} {why : Purpose}
    {key expected : Str} {md : Inode} {choice : Choice}
    (hok : undisturbed env (s, h) (.put i mdi why key expected md) choice = true)
    (hreach : choice ≠ .unreachable) (hidle : (t i).half = none)
    (hseen : (key, expected) ∈ (t i).seen) : versionOf (s.metadata key) ≠ expected := by
  intro hv
  have hok' := undisturbed_put hok hreach hv
  have hmem := hinv.seen i _ hseen
  cases hm : s.metadata key with
  | none =>
    rw [hm] at hv
    obtain ⟨n, -, he⟩ := hinv.old _ hmem
    have hempty : uuid n = [] := he.symm.trans hv.symm
    exact huuid.ne_empty n hempty
  | some r =>
    rw [hm] at hv
    have hr : ¬ Matching env r.value := (hinv.current key r hm).mpr (by
      rw [show r.version = expected from hv]
      exact hmem)
    obtain ⟨j, hw, hj⟩ := hinv.half key r hm hr
    rcases hok'.1 with hall | hwi
    · rw [hm] at hall
      exact hr (by simpa using hall)
    · have hji : j = i := Option.some.inj (hw.symm.trans hwi)
      rw [hji, hidle] at hj
      cases hj

/-- One `Put`. -/
theorem Inv.put (huuid : Versions.Unique uuid) (hinv : Inv env uuid (s, h) t) {mdi : Nat} {why : Purpose}
    {key expected version : Str} {md : Inode} {choice : Choice} {status : StatusCode}
    (hallowed : ∀ v, (t i).half = some v → (key, expected) = v ∧ Matching env md)
    (hok : undisturbed env (s, h) (.put i mdi why key expected md) choice = true)
    (hs : serve uuid s (.put i mdi why key expected md) choice = some ((status, version), s')) :
    Inv env uuid (s', note env h s (.put i mdi why key expected md) (status, version) s')
      (Function.update t i ((t i).stored env key md (status, version))) := by
  obtain ⟨rfl, hcases⟩ := serve_put hs
  have hother : ∀ k, k ≠ key → ∀ v j, (t j).half = some (k, v) →
      (Function.update t i ((t i).stored env key md (status, uuid s.uuids)) j).half = some (k, v) := by
    intro k hk v j hj
    by_cases hji : j = i
    · rw [hji] at hj
      exact absurd (congrArg Prod.fst (hallowed _ hj).1).symm hk
    · rw [Function.update_of_ne hji]
      exact hj
  have hseen : ∀ j, (Function.update t i ((t i).stored env key md (status, uuid s.uuids)) j).seen = (t j).seen := by
    intro j
    by_cases hji : j = i
    · subst hji
      rw [Function.update_self]
      unfold Stage.stored
      split
      · rfl
      · split <;> rfl
    · rw [Function.update_of_ne hji]
  have hwriter : ∀ k, k ≠ key → Function.update h.writer key (some i) k = h.writer k :=
    fun k hk => Function.update_of_ne hk _ _
  rcases hcases with ⟨hv, hmis, rfl⟩ | ⟨hne, hmis, rfl⟩
  · have hm : ∀ k, ({ s.set key (some ⟨md, uuid s.uuids⟩) with uuids := s.uuids + 1 } : Store).metadata k =
        if k = key then some ⟨md, uuid s.uuids⟩ else s.metadata k := fun k => Store.set_metadata s key k _
    by_cases hstatus : status = .OK
    · subst hstatus
      by_cases hmatch : Matching env md
      · have hnote : note env h s (.put i mdi why key expected md) (.OK, uuid s.uuids)
            { s.set key (some ⟨md, uuid s.uuids⟩) with uuids := s.uuids + 1 } =
            ⟨Function.update h.writer key (some i), h.halves⟩ := by
          simp [note, hmatch]
        rw [hnote]
        exact hinv.storedMatching (Nat.le_succ _) hm hmatch (hinv.uuid_new huuid key) hwriter hother hseen
      · have hnote : note env h s (.put i mdi why key expected md) (.OK, uuid s.uuids)
            { s.set key (some ⟨md, uuid s.uuids⟩) with uuids := s.uuids + 1 } =
            ⟨Function.update h.writer key (some i), (key, uuid s.uuids) :: h.halves⟩ := by
          simp [note, hmatch]
        rw [hnote]
        refine hinv.storedHalf hmatch hm rfl (Function.update_self _ _ _) hwriter ?_ hother hseen
        rw [Function.update_self]
        simp [Stage.stored, hmatch]
    · have hmatch : Matching env md := by
        by_cases hc : choice = .lost
        · have hreach : choice ≠ .unreachable := by simp [hc]
          exact (undisturbed_put hok hreach hv).2.resolve_left fun hne => hne hc
        · -- the store has not changed, so the record would not be new
          have he := (serve_put_status hs).2.1 hc hstatus
          have hmeta := congrFun (congrArg Store.metadata he) key
          rw [hm, if_pos rfl] at hmeta
          have hv' := hinv.current key ⟨md, uuid s.uuids⟩ hmeta.symm
          by_contra hn
          exact hinv.uuid_new huuid key (hv'.mp hn)
      have hnote : note env h s (.put i mdi why key expected md) (status, uuid s.uuids)
          { s.set key (some ⟨md, uuid s.uuids⟩) with uuids := s.uuids + 1 } = ⟨h.writer, h.halves⟩ :=
        if_neg hstatus
      rw [hnote]
      exact hinv.storedMatching (Nat.le_succ _) hm hmatch (hinv.uuid_new huuid key) (fun _ _ => rfl) hother hseen
  · have hnote : note env h s (.put i mdi why key expected md) (status, uuid s.uuids)
        { s with uuids := s.uuids + 1 } = h := if_neg hne
    rw [hnote]
    have hu : s.uuids ≤ ({ s with uuids := s.uuids + 1 } : Store).uuids := Nat.le_succ _
    refine hinv.removed hu (fun _ => Or.inl rfl) (fun k r hr hn j hj => ?_) fun j v hv => ?_
    · by_cases hji : j = i
      · subst hji
        rw [Function.update_self]
        unfold Stage.stored
        rw [if_neg hne]
        split
        · -- the half-changed record is not stored any more
          rename_i hmismatch
          have he := (hallowed _ hj).1
          refine absurd ?_ (hmis hmismatch)
          rw [show key = k from congrArg Prod.fst he, hr]
          exact (congrArg Prod.snd he).symm
        · exact hj
      · rw [Function.update_of_ne hji]
        exact hj
    · rw [hseen] at hv
      exact hinv.seen j v hv

/-- Every step that the protocol allows and that disturbs no half-changed record keeps the invariant. -/
theorem sound (huuid : Versions.Unique uuid) : Sound ((observed uuid env).restrict (undisturbed env))
    (fun i : Nat => protocol env i) fun s t => Inv env uuid s t := by
  rintro ⟨s, h⟩ t i r choice x ⟨s', h'⟩ hinv hallowed hstep
  obtain ⟨hok, hobserve⟩ := serve_restrict hstep
  obtain ⟨hserve, hnote⟩ := serve_observe hobserve
  change serve uuid s r choice = some (x, s') at hserve
  change h' = note env h s r x s' at hnote
  clear hstep hobserve
  subst hnote
  have hsame : ∀ s'' : Store, s''.uuids = s.uuids →
      (∀ key, s''.metadata key = s.metadata key ∨ s''.metadata key = none) →
      Inv env uuid (s'', h) (Function.update t i (t i)) := by
    intro s'' hu hm
    rw [Function.update_eq_self]
    exact hinv.removed (Nat.le_of_eq hu.symm) hm (fun _ _ _ _ _ hj => hj) hinv.seen
  cases r with
  | get me mdi key =>
    obtain ⟨rfl, hget, -⟩ := serve_get (x := x) hserve
    refine ⟨trivial, ?_⟩
    show Inv env uuid (s', h) (Function.update t i ((t i).read env key x))
    obtain ⟨result, hx⟩ : ∃ result : Except StatusCode (KineticRecord Inode), result = x := ⟨x, rfl⟩
    subst hx
    have hread : ((t i).read env key result).half = (t i).half ∧
        ∀ v ∈ ((t i).read env key result).seen, v ∈ h.halves := by
      cases result with
      | error code => exact ⟨rfl, hinv.seen i⟩
      | ok record =>
        unfold Stage.read
        dsimp only
        split
        · exact ⟨rfl, hinv.seen i⟩
        · rename_i hn
          refine ⟨rfl, fun v hv => ?_⟩
          rcases List.mem_cons.mp hv with rfl | hv
          · exact (hinv.current key record (hget record rfl)).mp hn
          · exact hinv.seen i v hv
    refine hinv.removed (Nat.le_refl _) (fun _ => Or.inl rfl) (fun k r _ _ j hj => ?_) fun j v hv => ?_
    · by_cases hji : j = i
      · subst hji
        rw [Function.update_self, hread.1]
        exact hj
      · rw [Function.update_of_ne hji]
        exact hj
    · by_cases hji : j = i
      · subst hji
        rw [Function.update_self] at hv
        exact hread.2 v hv
      · rw [Function.update_of_ne hji] at hv
        exact hinv.seen j v hv
  | put me mdi why key expected md =>
    obtain ⟨status, version⟩ : StatusCode × Str := x
    obtain ⟨rfl, hallowed⟩ := hallowed
    refine ⟨⟨(serve_put_status hserve).1, fun hidle hseen hs => ?_⟩, hinv.put huuid hallowed hok hserve⟩
    have hs' : status = .OK := hs
    obtain ⟨-, ⟨hv, -, -⟩ | ⟨hne, -, -⟩⟩ := serve_put hserve
    · exact hinv.refused huuid hok ((serve_put_status hserve).2.2 hs') hidle hseen hv
    · exact hne hs'
  | putVersion me why key record =>
    obtain ⟨status, hx⟩ : ∃ status : StatusCode, status = x := ⟨x, rfl⟩
    subst hx
    refine ⟨trivial, ?_⟩
    show Inv env uuid (s', h) (Function.update t i (t i))
    by_cases hreach : choice = .unreachable
    · subst hreach
      cases hserve
      exact hsame _ rfl fun _ => Or.inl rfl
    rcases serve_putVersion hserve with ⟨hv, -, rfl⟩ | ⟨-, rfl⟩
    · rw [Function.update_eq_self]
      have hc : carriedOut s key [] choice = true := decide_eq_true ⟨hreach, hv⟩
      have hnew : (key, record.version) ∉ h.halves := by simpa [undisturbed, hc] using hok
      have hu : s.uuids ≤ (s.set key (some record)).uuids := Nat.le_refl _
      exact hinv.storedMatching hu (fun k => Store.set_metadata s key k _) hallowed hnew
        (fun _ _ => rfl) (fun _ _ _ _ hj => hj) fun _ => rfl
    · exact hsame _ rfl fun _ => Or.inl rfl
  | delete me why key expected =>
    obtain ⟨status, hx⟩ : ∃ status : StatusCode, status = x := ⟨x, rfl⟩
    subst hx
    refine ⟨trivial, ?_⟩
    show Inv env uuid (s', h) (Function.update t i (t i))
    rcases serve_delete hserve with ⟨-, -, rfl⟩ | ⟨-, rfl⟩
    · refine hsame _ rfl fun k => ?_
      rw [Store.set_metadata]
      split
      · exact Or.inr rfl
      · exact Or.inl rfl
    · exact hsame _ rfl fun _ => Or.inl rfl
  | _ =>
    obtain ⟨hm, hu⟩ := serve_quiet rfl hserve
    exact ⟨trivial, hsame s' hu fun k => Or.inl (congrFun hm k)⟩

/-- Every directory's restrictions match its mode. -/
def AllMatching (env : Env) (s : Store) : Prop := ∀ key r, s.metadata key = some r → Matching env r.value

theorem start_inv (hs : AllMatching env s) : Inv env uuid (s, Writers.start) fun _ => ⟨none, []⟩ := by
  refine ⟨fun key r hr hn => absurd (hs key r hr) hn, fun i v hv => ?_, fun key r hr => ?_, fun v hv => ?_⟩
  · cases hv
  · exact ⟨fun hn => absurd (hs key r hr) hn, fun hmem => by cases hmem⟩
  · cases hv

/-- In every run in which no other client stores a half-changed record, once all clients have returned
    the restrictions that each directory stores for its children are those of its mode, user, group
    and path permissions. -/
theorem restrictions_match_mode (huuid : Versions.Unique uuid) (henv : RemovesPresent env.removeDuplicates)
    (fuel : Nat) (todo : Nat → List Action) (htodo : ∀ i, ∀ a ∈ todo i, PlainAction a)
    (pmap : Nat → PathMapDB) (hs : AllMatching env s) {schedule : List (Nat × Choice)}
    {c : Config Req Res (Store × Writers) Nat (List Int × Local)}
    (hrun : runFrom ((observed uuid env).restrict (undisturbed env))
      (actors env fuel todo pmap (s, Writers.start)) schedule = some c)
    (hdone : ∀ i, ∃ result, c.prog i = .ret result) : AllMatching env c.shared.1 := by
  have hconforms : ∀ i : Nat, ((actions i env fuel (todo i)).run (Local.mounted (pmap i))).Conforms
      (protocol env i) (fun x t => Any x.1 ∧ Settled henv i x.2 t) ⟨none, []⟩ := fun i =>
    actions_settle fuel (todo i) (htodo i) _ _ (mounted_settled (pmap i))
  obtain ⟨t, hinv, hprog⟩ := runFrom_conforms (sound huuid) (start_inv hs) hconforms hrun
  intro key r hr
  by_contra hn
  obtain ⟨i, -, hi⟩ := hinv.half key r hr hn
  obtain ⟨result, hresult⟩ := hdone i
  have hi' := hprog i
  rw [hresult] at hi'
  obtain ⟨-, lost, hsane⟩ := hi'
  rw [hsane.idle] at hi
  cases hi

end Runs

/-! ## A directory with two clients -/

theorem withDirectory_matching : AllMatching posix withDirectory := by
  have hopen : ∀ inode, Matching posix (openDirectory inode) := by
    intro inode _ _ e
    have hnone : restrictions posix (openDirectory inode) = [] := by
      show derivedEntries (openDirectory inode).toMetadata = []
      simp [derivedEntries, openDirectory, S_IXUSR, S_IXGRP, S_IXOTH, S_IFDIR]
    rw [hnone]
    rfl
  intro key r hr
  have hr' : ((Store.mkfs counter).set (lit "/d") (some ⟨openDirectory 2, counter 1⟩)).metadata key = some r := hr
  rw [Store.set_metadata] at hr'
  split at hr'
  · cases hr'
    exact hopen 2
  · have hroot : (if key = root then some _ else none) = some r := hr'
    split at hroot
    · cases hroot
      exact hopen 1
    · cases hroot

/-- Client `0` changes the mode of `/d` while client `1` creates a file in it. -/
def twoClients (i : Nat) : List Action :=
  if i = 0 then [.chmod superuser (lit "/d") (S_IFDIR ||| 0o700)]
  else if i = 1 then [.other (.create superuser (lit "/d/f") (S_IFREG ||| 0o644))]
  else []

theorem twoClients_plain : ∀ i, ∀ a ∈ twoClients i, PlainAction a := by
  intro i a ha
  unfold twoClients at ha
  split at ha
  · rw [List.mem_singleton.mp ha]
    trivial
  · split at ha
    · rw [List.mem_singleton.mp ha]
      trivial
    · cases ha

/-- Two clients have returned 0; the others had nothing to do. -/
theorem twoClients_done {sv : Service Req Res Choice (Store × Writers)} {schedule : List (Nat × Choice)}
    {c : Config Req Res (Store × Writers) Nat (List Int × Local)}
    (hrun : runFrom sv (actors posix 5 twoClients (fun _ => PathMapDB.empty) (withDirectory, Writers.start))
      schedule = some c) (hs : ∀ e ∈ schedule, e.1 = 0 ∨ e.1 = 1)
    (h0 : (c.prog 0).result.map Prod.fst = some [0]) (h1 : (c.prog 1).result.map Prod.fst = some [0]) (i : Nat) :
    ∃ result, c.prog i = .ret result ∧ ∀ err ∈ result.1, err = 0 := by
  have hreturned : ∀ i, (c.prog i).result.map Prod.fst = some [0] →
      ∃ result, c.prog i = .ret result ∧ ∀ err ∈ result.1, err = 0 := by
    intro i hi
    obtain ⟨result, hresult, he⟩ := Option.map_eq_some_iff.mp hi
    refine ⟨result, Prog.result_eq_some.mp hresult, fun err herr => ?_⟩
    rw [he] at herr
    exact List.mem_singleton.mp herr
  by_cases hi0 : i = 0
  · rw [hi0]
    exact hreturned 0 h0
  · by_cases hi1 : i = 1
    · rw [hi1]
      exact hreturned 1 h1
    · have hprog := runFrom_prog_eq hrun (i := i) fun e he hei => by
        rcases hs e he with h | h
        · exact hi0 (hei.symm.trans h)
        · exact hi1 (hei.symm.trans h)
      refine ⟨([], Local.mounted PathMapDB.empty), ?_, by simp⟩
      rw [hprog]
      show (actions i posix 5 (twoClients i)).run _ = _
      rw [show twoClients i = [] from by simp [twoClients, hi0, hi1]]
      rfl

/-- The first `Put` of the new time stamps meets the half-changed record and is refused; client `1` reads
    `/d` again when client `0` has stored the restrictions. -/
theorem restrictions_match_mode_two_clients : ∃ c, runFrom ((observed counter posix).restrict (undisturbed posix))
    (actors posix 5 twoClients (fun _ => PathMapDB.empty) (withDirectory, Writers.start))
    [(1, .done), (1, .done), (1, .done), (0, .done), (0, .done), (1, .done), (0, .done), (0, .done),
      (1, .done), (1, .done), (1, .number 7), (1, .done)] = some c ∧ AllMatching posix c.shared.1 := by
  have hrun : ((runFrom ((observed counter posix).restrict (undisturbed posix))
      (actors posix 5 twoClients (fun _ => PathMapDB.empty) (withDirectory, Writers.start))
      [(1, .done), (1, .done), (1, .done), (0, .done), (0, .done), (1, .done), (0, .done), (0, .done),
        (1, .done), (1, .done), (1, .number 7), (1, .done)]).any fun c => (c.prog 0).result.map Prod.fst = some [0] ∧
        (c.prog 1).result.map Prod.fst = some [0]) = true := by decide +kernel
  obtain ⟨c, hc, hresults⟩ := (Option.any_eq_true _ _).mp hrun
  obtain ⟨h0, h1⟩ := of_decide_eq_true hresults
  have hdone := twoClients_done hc (by simp) h0 h1
  refine ⟨c, hc, restrictions_match_mode Versions.counter_unique withoutDuplicates_removesPresent 5 twoClients
    twoClients_plain _ withDirectory_matching hc fun i => ?_⟩
  obtain ⟨result, hresult, -⟩ := hdone i
  exact ⟨result, hresult⟩

/-- Client `1` stores the new time stamps of `/d` between the two writes of client `0`: both return 0, and
    `/d` has mode `0700` without any restriction for its children. -/
theorem restrictions_lost_to_time_stamps : ¬ ∀ (uuid : Nat → Str) (env : Env) (fuel : Nat)
    (todo : Nat → List Action) (pmap : Nat → PathMapDB) (s : Store) (schedule : List (Nat × Choice))
    (c : Config Req Res (Store × Writers) Nat (List Int × Local)), Versions.Unique uuid →
    RemovesPresent env.removeDuplicates → (∀ i, ∀ a ∈ todo i, PlainAction a) → AllMatching env s →
    runFrom (observed uuid env) (actors env fuel todo pmap (s, Writers.start)) schedule = some c →
    (∀ i, ∃ result, c.prog i = .ret result ∧ ∀ err ∈ result.1, err = 0) → AllMatching env c.shared.1 := by
  intro h
  have hrun : ((runFrom (observed counter posix)
      (actors posix 5 twoClients (fun _ => PathMapDB.empty) (withDirectory, Writers.start))
      [(1, .done), (1, .done), (1, .done), (0, .done), (0, .done), (1, .done), (1, .done), (1, .done),
        (0, .done), (0, .done), (0, .done), (0, .done), (1, .number 7), (1, .done)]).any fun c =>
      (c.prog 0).result.map Prod.fst = some [0] ∧ (c.prog 1).result.map Prod.fst = some [0] ∧
        (c.shared.1.metadata (lit "/d")).any fun r => ¬ Matching posix r.value) = true := by decide +kernel
  obtain ⟨c, hc, hresults⟩ := (Option.any_eq_true _ _).mp hrun
  obtain ⟨h0, h1, hd⟩ := of_decide_eq_true hresults
  obtain ⟨r, hr, hn⟩ := (Option.any_eq_true _ _).mp hd
  have hall := h counter posix 5 twoClients _ _ _ c Versions.counter_unique withoutDuplicates_removesPresent
    twoClients_plain withDirectory_matching hc (twoClients_done hc (by simp) h0 h1)
  exact of_decide_eq_true hn (hall _ r hr)

end HFlat.Fuse.Restrictions
