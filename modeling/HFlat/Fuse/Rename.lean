/-
  A rename against updates of other clients.

  `rename_regular` stores the metadata of an object that `rename_lookup` has read, or that the
  client had in its cache, and then deletes the old name whatever its version. An update of the old
  name that another client stores in between is deleted with it. `Watch` follows what became of the
  objects of one client: as long as nobody has written the key of an object since the client last
  read or stored it, the object is what is stored. In runs in which this holds for the object of the
  old name when it is deleted, the rename has copied exactly the record that it removes.
-/
import HFlat.Fuse.Lookup

namespace HFlat.Fuse.Renames

open HFlat.Lib HFlat.PathMap HFlat.Permission
open HFlat.Replication (KineticRecord StatusCode versionOf)

/-! ## What became of objects and names -/

/-- The key and the record of an object. -/
abbrev Source := Str × KineticRecord Inode

/-- The old name of a file has been removed. -/
structure Move where
  source : Str
  target : Str
  copied : Inode
  removed : KineticRecord Inode

/-- What has been seen of the accesses of the client that renames. -/
structure Watch where
  /-- where an object was last read from or stored, unless the key was written since -/
  clean : Nat → Option Source
  /-- the new name and what was stored there -/
  copied : Option (Str × Inode)
  moves : List Move
  /-- a target was unlinked, or a directory was moved -/
  special : Bool

namespace Watch

variable (h : Watch)

/-- Keys that were written are no longer clean. -/
def cleared (s s' : Store) : Watch :=
  { h with clean := fun a => (h.clean a).filter fun x => s'.metadata x.1 = s.metadata x.1 }

/-- After a `Get` the object is as read. -/
def noteGet (a : Nat) (key : Str) (x : Except StatusCode (KineticRecord Inode)) : Watch :=
  match x with
  | .ok record => { h with clean := Function.update h.clean a (some (key, record)) }
  | .error _ => h

/-- After a `Put` the object is as stored, or no longer known. -/
def notePut (a : Nat) (why : Purpose) (key : Str) (md : Inode) (x : StatusCode × Str) : Watch :=
  { h with
    clean := Function.update h.clean a (if x.1 = .OK then some (key, ⟨md, x.2⟩) else none)
    special := h.special || why = .create || why = .reserve }

/-- The new name has been stored. -/
def noteCopy (why : Purpose) (key : Str) (record : KineticRecord Inode) (x : StatusCode) : Watch :=
  match why with
  | .copy _ _ => if x = .OK then { h with copied := some (key, record.value) } else h
  | _ => h

/-- The old name is deleted: the move is complete. -/
def noteRemove (s : Store) (key : Str) (x : StatusCode) : Watch :=
  match h.copied, s.metadata key with
  | some (target, md), some record =>
      if x = .OK ∧ ¬ h.special then { h with moves := ⟨key, target, md, record⟩ :: h.moves } else h
  | _, _ => h

/-- A deletion, of the old name or of another object. -/
def noteDelete (s : Store) (why : Purpose) (key : Str) (x : StatusCode) : Watch :=
  match why with
  | .remove _ => h.noteRemove s key x
  | .delete => { h with special := true }
  | _ => h

/-- One more access; those of client `me` are followed. -/
def note (me : Nat) (s : Store) (r : Req) (x : Res r) (s' : Store) : Watch :=
  if r.owner = some me then
    match r, x with
    | .get _ a key, x => (h.cleared s s').noteGet a key x
    | .put _ a why key _ md, x => (h.cleared s s').notePut a why key md x
    | .putVersion _ why key record, x => (h.cleared s s').noteCopy why key record x
    | .delete _ why key _, x => (h.cleared s s').noteDelete s why key x
    | _, _ => h.cleared s s'
  else h.cleared s s'

end Watch

/-- The service, watching one client. -/
def observed (uuid : Nat → Str) (me : Nat) : Service Req Res Choice (Store × Watch) :=
  (store uuid).observe fun h s r x s' => h.note me s r x s'

/-- When the old name is removed, nobody has written it since the client read or stored it. -/
def untouched (me : Nat) (s : Store × Watch) (r : Req) (_ : Choice) : Bool :=
  match r with
  | .delete i (.remove a) _ _ => i ≠ me || s.2.special || (s.2.clean a).isSome
  | _ => true

/-! ## What the client requests -/

/-- How far a rename is. -/
inductive Phase where
  | idle
  /-- the metadata of object `a` was stored at `target` -/
  | copied (a : Nat) (target : Str) (md : Inode)
  | moved

/-- Where the client's objects come from, as far as its own accesses tell. -/
structure Track where
  clean : Nat → Option Source
  phase : Phase

namespace Track

variable (t : Track)

/-- After a `Get`. -/
def get (a : Nat) (key : Str) (x : Except StatusCode (KineticRecord Inode)) : Track :=
  match x with
  | .ok record => { t with clean := Function.update t.clean a (some (key, record)) }
  | .error _ => t

/-- After a `Put`; objects that are created are not followed. -/
def put (a : Nat) (why : Purpose) (key : Str) (md : Inode) (x : StatusCode × Str) : Option Track :=
  if why = .create ∨ why = .reserve then none
  else some { t with clean := Function.update t.clean a (if x.1 = .OK then some (key, ⟨md, x.2⟩) else none) }

/-- After the `Put` of the new name. -/
def copy (why : Purpose) (key : Str) (record : KineticRecord Inode) (x : StatusCode) : Track :=
  match why with
  | .copy a _ => if x = .OK then { t with phase := .copied a key record.value } else t
  | _ => t

/-- After a deletion. -/
def delete (why : Purpose) (x : StatusCode) : Option Track :=
  match why with
  | .remove _ => if x = .OK then some { t with phase := .moved } else some t
  | .delete => none
  | _ => some t

/-- What is known after an answer. -/
def next : (r : Req) → Res r → Option Track
  | .get _ a key, x => some (t.get a key x)
  | .put _ a why key _ md, x => t.put a why key md x
  | .putVersion _ why key record, x => some (t.copy why key record x)
  | .delete _ why _ _, x => t.delete why x
  | _, _ => some t

/-- An object that is stored under a new name, or whose old name is removed, is what the client
    has read. -/
def Allowed (me : Nat) : Req → Prop
  | .get i _ _ => i = me
  | .put i _ _ _ _ _ => i = me
  | .putVersion i why _ record => i = me ∧ ∃ a replaced, why = .copy a replaced ∧
      ∀ x, t.clean a = some x → record.value = x.2.value
  | .delete i why key _ => i = me ∧ ∀ a, why = .remove a → ∃ target md, t.phase = .copied a target md ∧
      ∀ x, t.clean a = some x → x.1 = key ∧ x.2.value = md
  | _ => True

end Track

/-- The protocol of the client that renames; `none` once it has unlinked a target or moved a
    directory. -/
def renamer (me : Nat) : Protocol Req Res (Option Track) where
  allowed t r := ∀ tr, t = some tr → tr.Allowed me r
  answers _ _ _ := True
  next t r x := t.bind fun tr => tr.next r x

/-- The protocol of the other clients. -/
def others (me : Nat) : Protocol Req Res (Option Track) :=
  ⟨fun _ r => r.owner ≠ some me, fun _ _ _ => True, fun t _ _ => t⟩

/-- An object that the client has read or stored is as it was then. -/
def objects (me : Nat) (p : Phase) : ObjectInv (renamer me) me where
  Ok a x t := ∀ tr, t = some tr → ∀ k record, tr.clean a = some (k, record) →
    x = ⟨k, record.version, record.value⟩
  Free a t := ∀ tr, t = some tr → tr.phase = p ∧ tr.clean a = none
  Storable _ := True
  storable _ := trivial
  fresh := by
    intro a key t h tr ht k record hc
    rw [(h tr ht).2] at hc
    cases hc
  source := by
    intro a key t inode h _ tr ht k record hc
    rw [(h tr ht).2] at hc
    cases hc
  quiet := by
    intro t r hr
    cases r with
    | get me mdi key => cases hr
    | put me mdi why key expected md => cases hr
    | putVersion me why key record => cases hr
    | delete me why key expected => cases hr
    | _ => exact ⟨fun _ _ => trivial, fun _ => by cases t <;> rfl⟩
  get_allowed t a key tr _ := rfl
  get_self := by
    intro t a key record _ _ tr ht k record' hc
    cases t with
    | none => cases ht
    | some t =>
      cases ht
      have hc' : Function.update t.clean a (some (key, record)) a = some (k, record') := hc
      rw [Function.update_self] at hc'
      cases hc'
      rfl
  get_error := by
    intro t a key x code h _ tr ht
    cases t with
    | none => cases ht
    | some t =>
      cases ht
      exact h t rfl
  get_other := by
    intro t a b key x answer hne h _ tr ht k record hc
    cases t with
    | none => cases ht
    | some t =>
      cases ht
      cases answer with
      | error code => exact h t rfl k record hc
      | ok record' =>
        have hc' : Function.update t.clean a (some (key, record')) b = some (k, record) := hc
        rw [Function.update_of_ne hne] at hc'
        exact h t rfl k record hc'
  get_free := by
    intro t a b key answer hne h tr ht
    cases t with
    | none => cases ht
    | some t =>
      cases ht
      cases answer with
      | error code => exact h t rfl
      | ok record =>
        refine ⟨(h t rfl).1, ?_⟩
        show Function.update t.clean a (some (key, record)) b = none
        rw [Function.update_of_ne hne]
        exact (h t rfl).2
  put_allowed _ _ _ _ _ := rfl
  put_self := by
    intro t a x md version _ _ _ tr ht k record hc
    cases t with
    | none => cases ht
    | some t =>
      cases ht
      have hc' : Function.update t.clean a (some (x.systemPath, ⟨md, version⟩)) a = some (k, record) := hc
      rw [Function.update_self] at hc'
      cases hc'
      rfl
  put_failed := by
    intro t a x md code version _ _ _ hcode tr ht k record hc
    cases t with
    | none => cases ht
    | some t =>
      cases ht
      have hc' : Function.update t.clean a (if code = .OK then _ else none) a = some (k, record) := hc
      rw [Function.update_self, if_neg hcode] at hc'
      cases hc'
  put_other := by
    intro t a b x key expected md answer hne h tr ht k record hc
    cases t with
    | none => cases ht
    | some t =>
      cases ht
      have hc' : Function.update t.clean a _ b = some (k, record) := hc
      rw [Function.update_of_ne hne] at hc'
      exact h t rfl k record hc'
  put_free := by
    intro t a b key expected md answer hne h tr ht
    cases t with
    | none => cases ht
    | some t =>
      cases ht
      refine ⟨(h t rfl).1, ?_⟩
      show Function.update t.clean a _ b = none
      rw [Function.update_of_ne hne]
      exact (h t rfl).2

/-! ## Renames follow the protocol -/

section Local

variable {me : Nat} {p : Phase} {l : Local} {t : Option Track} {α β : Type} {env : Env} {ctx : Context}

/-- Memory as the protocol knows it, with the objects of `l` still in use. -/
def Kept (me : Nat) (p : Phase) (l l' : Local) (t' : Option Track) : Prop :=
  Good (objects me p) l' t' ∧ l.next ≤ l'.next

/-- The computation conforms to the protocol and keeps the objects in step with `Track`. -/
def Keeps (me : Nat) (p : Phase) (m : Client α) : Prop :=
  ∀ l t, Good (objects me p) l t → Conforms (renamer me) m (fun _ l' t' => Kept me p l l' t') l t

theorem Kept.refl (h : Good (objects me p) l t) : Kept me p l l t := ⟨h, Nat.le_refl _⟩

theorem Kept.trans {l' l'' : Local} {t' t'' : Option Track} (h : Kept me p l l' t')
    (h' : Kept me p l' l'' t'') : Kept me p l l'' t'' := ⟨h'.1, h.2.trans h'.2⟩

theorem Keeps.pure (a : α) : Keeps me p (pure a : Client α) := fun _ _ h => Conforms.pure (Kept.refl h)

theorem Keeps.exit : Keeps me p (exit : Client α) := fun _ _ _ => conforms_exit

theorem Keeps.bind {m : Client α} {f : α → Client β} (hm : Keeps me p m) (hf : ∀ a, Keeps me p (f a)) :
    Keeps me p (m >>= f) := fun l t h => (hm l t h).then fun a l' t' h' =>
  (hf a l' t' h'.1).mono fun _ _ _ h'' => h'.trans h''

theorem Keeps.ite {c : Prop} [Decidable c] {m m' : Client α} (h : Keeps me p m) (h' : Keeps me p m') :
    Keeps me p (if c then m else m') :=
  fun l t hl => Conforms.ite (fun _ => h l t hl) fun _ => h' l t hl

theorem Keeps.quiet {r : Req} (hr : r.quiet = true) : Keeps me p (perform r) :=
  fun _ _ h => conforms_quiet (objects me p) hr fun _ _ => Kept.refl h

theorem Keeps.require {m : Client Int} (hm : Keeps me p m) : Keeps me p (require m) :=
  hm.bind fun _ => Keeps.ite Keeps.exit (Keeps.pure ())

theorem Keeps.databaseUpdate : Keeps me p databaseUpdate :=
  fun _ _ h => (databaseUpdate_good h).mono fun _ _ t' h' => by
    rw [h'.1]
    exact ⟨h'.2.1, Nat.le_of_eq h'.2.2.1.symm⟩

theorem Keeps.databaseOperation (entry : DbEntry) (fuel : Nat) :
    Keeps me p (databaseOperation entry fuel) := by
  induction fuel with
  | zero => exact Keeps.exit
  | succ fuel ih =>
    intro l t h
    refine Conforms.get_bind ((Keeps.quiet rfl).bind ?_ l t h)
    intro (status : StatusCode)
    cases status with
    | OK =>
      dsimp only
      split
      · exact Keeps.exit
      · exact fun l t h => Conforms.modify_bind (Conforms.pure ⟨⟨h.objects, h.free, h.cache⟩, Nat.le_refl _⟩)
    | REMOTE_VERSION_MISMATCH => exact Keeps.databaseUpdate.bind fun err => Keeps.ite (Keeps.pure err) ih
    | _ => exact Keeps.pure _

/-- Storing an object as it is. -/
theorem putMetadata_kept (h : Good (objects me p) l t) {a : Nat} (ha : a < l.next) :
    Conforms (renamer me) (putMetadata me .update a) (fun _ l' t' => Kept me p l l' t') l t := by
  have hself : l.setObject a { l.heap a with md := (l.heap a).md } = l := by
    show ({ l with heap := Function.update l.heap a (l.heap a) } : Local) = l
    rw [Function.update_eq_self]
  have hput := putMetadata_good h ha (show (objects me p).Storable (l.heap a) from trivial)
    (Eq.refl (l.heap a).md.core)
  rw [hself] at hput
  exact hput.mono fun _ _ _ h' => ⟨h'.1, Nat.le_of_eq h'.2.1.symm⟩

/-- Reading a key into an object in use. -/
theorem getMetadata_kept (h : Good (objects me p) l t) {a : Nat} (ha : a < l.next) :
    Conforms (renamer me) (getMetadata me a) (fun _ l' t' => Kept me p l l' t') l t := by
  refine conforms_getMdi_bind ?_
  refine (Conforms.call (Q := fun x l' t' => l' = l ∧
    t' = (renamer me).next t (.get me a (l.heap a).systemPath) x) (fun _ _ => rfl) fun _ _ => ⟨rfl, rfl⟩).then ?_
  rintro (x : Except StatusCode (KineticRecord Inode)) l' t' ⟨rfl, rfl⟩
  cases x with
  | error code =>
    have hsame : (renamer me).next t (.get me a (l'.heap a).systemPath)
        (.error code : Except StatusCode (KineticRecord Inode)) = t := by cases t <;> rfl
    rw [hsame]
    cases code <;> exact Conforms.pure (Kept.refl h)
  | ok record =>
    refine conforms_setMdi_bind (Conforms.pure ⟨⟨fun b hb => ?_, fun b hb => ?_, fun k b hk => ?_⟩, Nat.le_refl _⟩)
    · rw [Local.setObject_heap]
      split
      · rename_i hne
        subst hne
        intro tr ht k record' hc
        cases t with
        | none => cases ht
        | some t =>
          cases ht
          have hc' : Function.update t.clean b (some ((l'.heap b).systemPath, record)) b =
              some (k, record') := hc
          rw [Function.update_self] at hc'
          cases hc'
          rfl
      · rename_i hne
        exact (objects me p).get_other hne (h.objects b hb) trivial
    · have hb' : l'.next ≤ b := hb
      exact (objects me p).get_free (by omega) (h.free b hb)
    · refine ⟨(h.cache k b hk).1, ?_⟩
      rw [Local.setObject_heap]
      split
      · rename_i hne
        subst hne
        exact (h.cache k b hk).2
      · exact (h.cache k b hk).2

theorem putMetadataForced_kept (h : Good (objects me p) l t) {a : Nat} (ha : a < l.next) (fuel : Nat) :
    Conforms (renamer me) (putMetadataForced me a fuel) (fun _ l' t' => Kept me p l l' t') l t := by
  induction fuel generalizing l t with
  | zero => exact conforms_exit
  | succ fuel ih =>
    refine (putMetadata_kept h ha).then fun err l1 t1 h1 => ?_
    refine Conforms.ite (fun _ => Conforms.pure h1) fun _ => ?_
    have ha1 : a < l1.next := Nat.lt_of_lt_of_le ha h1.2
    refine (getMetadata_kept h1.1 ha1).then fun err l2 t2 h2 => ?_
    refine Conforms.ite (fun _ => Conforms.pure (h1.trans h2)) fun _ => ?_
    exact (ih h2.1 (Nat.lt_of_lt_of_le ha1 h2.2)).mono fun _ _ _ h3 => (h1.trans h2).trans h3

theorem touchDirectory_kept (h : Good (objects me p) l t) {a : Nat} (ha : a < l.next) (fuel : Nat) :
    Conforms (renamer me) (touchDirectory me env a fuel) (fun _ l' t' => Kept me p l l' t') l t :=
  Conforms.ite (fun _ => (putMetadataForced_kept h ha fuel).then fun _ _ _ h' => Conforms.pure h')
    fun _ => Conforms.pure (Kept.refl h)

theorem createDirectoryEntry_kept (h : Good (objects me p) l t) {a : Nat} (ha : a < l.next) (filename : Str)
    (fuel : Nat) : Conforms (renamer me) (createDirectoryEntry me env a filename fuel)
      (fun _ l' t' => Kept me p l l' t') l t := by
  refine conforms_getMdi_bind ?_
  refine (conforms_quiet (objects me p) (r := .createEntry _) rfl
    (Q := fun _ l' t' => l' = l ∧ t' = t) fun _ _ => ⟨rfl, rfl⟩).then ?_
  rintro (status : StatusCode) l' t' ⟨rfl, rfl⟩
  cases status with
  | OK => exact touchDirectory_kept h ha fuel
  | _ => exact Conforms.pure (Kept.refl h)

theorem deleteDirectoryEntry_kept (h : Good (objects me p) l t) {a : Nat} (ha : a < l.next) (filename : Str)
    (fuel : Nat) : Conforms (renamer me) (deleteDirectoryEntry me env a filename fuel)
      (fun _ l' t' => Kept me p l l' t') l t := by
  refine conforms_getMdi_bind ?_
  refine (conforms_quiet (objects me p) (r := .deleteEntry _) rfl
    (Q := fun _ l' t' => l' = l ∧ t' = t) fun _ _ => ⟨rfl, rfl⟩).then ?_
  rintro (status : StatusCode) l' t' ⟨rfl, rfl⟩
  cases status with
  | OK => exact touchDirectory_kept h ha fuel
  | _ => exact Conforms.pure (Kept.refl h)

theorem require_kept {m : Client Int} (hm : Conforms (renamer me) m (fun _ l' t' => Kept me p l l' t') l t) :
    Conforms (renamer me) (require m) (fun _ l' t' => Kept me p l l' t') l t :=
  hm.then fun _ _ _ h' => Conforms.ite (fun _ => conforms_exit) fun _ => Conforms.pure h'

/-! ### Targets that exist, and directories -/

/-- Once the protocol has ended, the program may do what it likes. -/
theorem conforms_ended (m : Client α) : Conforms (renamer me) m (fun _ _ t => t = none) l none := by
  have hallowed : ∀ r, (renamer me).allowed none r := fun r tr h => by cases h
  exact Prog.Conforms.free (Q := fun _ t => t = none) hallowed (fun _ _ => rfl) (fun _ => rfl) (m.run l)

theorem conforms_special {Q : α → Local → Option Track → Prop} (m : Client α) :
    Conforms (renamer me) m (fun a l t => t = none ∨ Q a l t) l none :=
  (conforms_ended m).mono fun _ _ _ h => Or.inl h

theorem Conforms.ended {m : Client α} {f : α → Client β}
    (h : Conforms (renamer me) m (fun _ _ t => t = none) l t) :
    Conforms (renamer me) (m >>= f) (fun _ _ t => t = none) l t :=
  h.then fun a l' t' ht => by
    rw [ht]
    exact conforms_ended (f a)

theorem Conforms.orSpecial {m : Client α} {f : α → Client β} {P : α → Local → Option Track → Prop}
    {Q : β → Local → Option Track → Prop}
    (h : Conforms (renamer me) m (fun a l t => t = none ∨ P a l t) l t)
    (hf : ∀ a l t, P a l t → Conforms (renamer me) (f a) (fun b l t => t = none ∨ Q b l t) l t) :
    Conforms (renamer me) (m >>= f) (fun b l t => t = none ∨ Q b l t) l t :=
  h.then fun a l' t' h' => by
    rcases h' with rfl | h'
    · exact conforms_special (f a)
    · exact hf a l' t' h'

/-- `delete_metadata` of a name ends the protocol. -/
theorem deleteMetadata_special (a : Nat) :
    Conforms (renamer me) (deleteMetadata me .delete a) (fun _ _ t => t = none) l t := by
  refine conforms_getMdi_bind (conforms_cacheInvalidate_bind ?_)
  refine (Conforms.call (Q := fun _ _ t' => t' = none) (fun tr _ => ⟨rfl, fun b hb => by cases hb⟩)
    fun x _ => ?_).then ?_
  · cases t <;> rfl
  · rintro (status : StatusCode) l' t' h'
    cases status <;> exact Conforms.pure h'

/-- `put_metadata` that reserves a hard link, and `create_metadata`, end it too. -/
theorem put_special {why : Purpose} (hwhy : why = .create ∨ why = .reserve) (a : Nat) (key expected : Str)
    (md : Inode) : Conforms (renamer me) (perform (.put me a why key expected md)) (fun _ _ t => t = none) l t := by
  refine Conforms.call (fun _ _ => rfl) fun x _ => ?_
  cases t with
  | none => rfl
  | some t => exact if_pos hwhy

theorem getMetadataUserpath_kept (h : Good (objects me p) l t) (fuel : Nat) (path : Str) :
    Conforms (renamer me) (getMetadataUserpath me fuel path) (fun r l' t' => Kept me p l l' t' ∧
      ∀ a, r.2 = some a → a < l'.next) l t := by
  refine Conforms.get_bind ?_
  split
  · exact conforms_exit
  · rename_i key stamp _
    refine Conforms.ite (fun _ => Conforms.pure ⟨Kept.refl h, fun _ ha => by cases ha⟩) fun _ => ?_
    refine conforms_newMetadataInfo_bind ((load_good h key).then ?_)
    rintro err l' t' ⟨h', hnext, -⟩
    refine Conforms.pure ⟨⟨h', by omega⟩, fun a ha => ?_⟩
    cases ha
    omega

/-- `unlink_hardlink` fails, or has reserved the name. -/
theorem unlinkHardlink_special (h : Good (objects me p) l t) (fuel : Nat) (path : Str) (mdiT : Nat) :
    Conforms (renamer me) (unlinkHardlink me fuel path mdiT)
      (fun err l' t' => t' = none ∨ (err ≠ 0 ∧ Kept me p l l' t')) l t := by
  refine (getMetadataUserpath_kept h fuel path).then ?_
  rintro ⟨err, mdiS⟩ l1 t1 ⟨h1, -⟩
  refine Conforms.ite (fun herr => Conforms.pure (Or.inr ⟨herr, h1⟩)) fun _ => ?_
  cases mdiS with
  | none => exact conforms_exit
  | some mdiS =>
    have hne : -EINVAL ≠ 0 := by decide
    refine conforms_deref_bind (conforms_getMdi_bind (Conforms.ite (fun _ => conforms_exit) fun _ => ?_))
    refine Conforms.ite (fun _ => Conforms.pure (Or.inr ⟨hne, h1⟩)) fun _ => ?_
    have hreserve : ∀ l t, Conforms (renamer me) (putMetadata me .reserve mdiS) (fun _ _ t => t = none) l t :=
      fun l t => conforms_getMdi_bind (Conforms.ended (put_special (Or.inr rfl) _ _ _ _))
    exact conforms_setMdi_bind ((Conforms.ended (hreserve _ _)).mono fun _ _ _ h => Or.inl h)

theorem unlinkLookup_kept (h : Good (objects me p) l t) (fuel : Nat) (path : Str) :
    Conforms (renamer me) (unlinkLookup me env ctx fuel path) (fun _ l' t' => Kept me p l l' t') l t := by
  refine ((lookup_good (renamer me) me env ctx fuel).extends h (by simp) path).then ?_
  rintro ⟨err, mdi⟩ l1 t1 ⟨h1, hf1, he1⟩
  have hk1 : Kept me p l l1 t1 := ⟨h1, he1.next_le⟩
  refine Conforms.ite (fun _ => Conforms.pure hk1) fun _ => ?_
  cases mdi with
  | none => exact conforms_exit
  | some mdi =>
    refine conforms_deref_bind ((lookupParent_good h1 fuel path).then ?_)
    rintro ⟨err, mdiDir⟩ l2 t2 ⟨h2, hf2, he2, -⟩
    have hk2 : Kept me p l l2 t2 := ⟨h2, he1.next_le.trans he2.next_le⟩
    refine Conforms.ite (fun _ => Conforms.pure hk2) fun _ => ?_
    cases mdiDir with
    | none => exact conforms_exit
    | some dir =>
      refine conforms_deref_bind (conforms_getMdi_bind (Conforms.ite (fun _ => Conforms.pure hk2) fun _ => ?_))
      refine conforms_getMdi_bind (Conforms.ite (fun _ => Conforms.pure hk2) fun _ => Conforms.pure hk2)

/-- `hflat_unlink` fails, or the protocol has ended. -/
theorem hflatUnlink_special (h : Good (objects me p) l t) (fuel : Nat) (path : Str) :
    Conforms (renamer me) (hflatUnlink me env ctx fuel path)
      (fun err l' t' => t' = none ∨ (err ≠ 0 ∧ Kept me p l l' t')) l t := by
  induction fuel generalizing l t with
  | zero => exact conforms_exit
  | succ fuel ih =>
    refine (unlinkLookup_kept h (fuel + 1) path).then ?_
    rintro ⟨err, mdi, mdiDir⟩ l1 t1 h1
    refine Conforms.ite (fun herr => Conforms.pure (Or.inr ⟨herr, h1⟩)) fun _ => ?_
    refine conforms_getMdi_bind (Conforms.ite (fun _ => ?_) fun _ => ?_)
    · refine Conforms.orSpecial (unlinkHardlink_special h1.1 (fuel + 1) path mdi) fun err l2 t2 h2 => ?_
      have hk2 : Kept me p l l2 t2 := h1.trans h2.2
      refine Conforms.ite (fun _ => ?_) fun _ => Conforms.ite (fun _ => ?_) fun herr => absurd h2.1 herr
      · refine (ih h2.2.1).mono fun err l3 t3 h3 => ?_
        exact h3.imp id fun h3 => ⟨h3.1, hk2.trans h3.2⟩
      · exact Conforms.pure (Or.inr ⟨h2.1, hk2⟩)
    · refine (deleteMetadata_special mdi).then ?_
      rintro err l2 t2 rfl
      exact conforms_special _

theorem hflatRmdir_special (h : Good (objects me p) l t) (fuel : Nat) (path : Str) :
    Conforms (renamer me) (hflatRmdir me env ctx fuel path)
      (fun err l' t' => t' = none ∨ (err ≠ 0 ∧ Kept me p l l' t')) l t := by
  refine ((lookup_good (renamer me) me env ctx fuel).extends h (by simp) path).then ?_
  rintro ⟨err, mdi⟩ l1 t1 ⟨h1, hf1, he1⟩
  have hk1 : Kept me p l l1 t1 := ⟨h1, he1.next_le⟩
  refine Conforms.ite (fun herr => Conforms.pure (Or.inr ⟨herr, hk1⟩)) fun _ => ?_
  cases mdi with
  | none => exact conforms_exit
  | some mdi =>
    have hne : -ENOTEMPTY ≠ 0 := by decide
    refine conforms_deref_bind (conforms_getMdi_bind ?_)
    refine (Keeps.quiet (r := .entryRange _ _ _) rfl l1 t1 h1).then ?_
    rintro (keys : List Str) l2 t2 h2
    refine Conforms.ite (fun _ => Conforms.pure (Or.inr ⟨hne, hk1.trans h2⟩)) fun _ => ?_
    refine (Keeps.databaseUpdate l2 t2 h2.1).then fun _ l3 t3 h3 => ?_
    refine (hflatUnlink_special h3.1 fuel path).mono fun err l4 t4 h4 => ?_
    exact h4.imp id fun h4 => ⟨h4.1, ((hk1.trans h2).trans h3).trans h4.2⟩

/-! ### The rename itself -/

theorem renameLookup_kept (h : Good (objects me p) l t) (fuel : Nat) (pathFrom pathTo : Str) :
    Conforms (renamer me) (renameLookup me env ctx fuel pathFrom pathTo) (fun r l' t' => Kept me p l l' t' ∧
      (∀ err, r = .error err → err ≠ 0) ∧
      ∀ x, r = .ok x → x.dirFrom < l'.next ∧ x.dirTo < l'.next ∧ x.mdiFrom < l'.next) l t := by
  have herror : ∀ {err : Int} {l' : Local} {t' : Option Track}, Kept me p l l' t' → err ≠ 0 →
      Conforms (renamer me) (pure (.error err) : Client (Except Int Renaming)) (fun r l' t' =>
        Kept me p l l' t' ∧ (∀ err, r = .error err → err ≠ 0) ∧
        ∀ x, r = .ok x → x.dirFrom < l'.next ∧ x.dirTo < l'.next ∧ x.mdiFrom < l'.next) l' t' :=
    fun h herr => Conforms.pure ⟨h, fun _ hx => (by cases hx; exact herr), fun _ hx => (by cases hx)⟩
  have hinval : -EINVAL ≠ 0 := by decide
  have haccess : -EACCES ≠ 0 := by decide
  refine Conforms.ite (fun _ => herror (Kept.refl h) hinval) fun _ => ?_
  refine (lookupParent_good h fuel pathFrom).then ?_
  rintro ⟨err, dirFrom⟩ l1 t1 ⟨h1, hf1, he1, -⟩
  have hk1 : Kept me p l l1 t1 := ⟨h1, he1.next_le⟩
  refine Conforms.ite (fun herr => herror hk1 herr) fun herr1 => ?_
  obtain ⟨dirFrom, rfl, -⟩ := hf1.found (not_not.mp herr1)
  refine (lookupParent_good h1 fuel pathTo).then ?_
  rintro ⟨err, dirTo⟩ l2 t2 ⟨h2, hf2, he2, -⟩
  have hk2 : Kept me p l l2 t2 := ⟨h2, hk1.2.trans he2.next_le⟩
  refine Conforms.ite (fun herr => herror hk2 herr) fun herr2 => ?_
  obtain ⟨dirTo, rfl, -⟩ := hf2.found (not_not.mp herr2)
  have hlookup := lookup_good (renamer me) me env ctx fuel
  refine (hlookup.extends h2 (by simp) pathFrom).then ?_
  rintro ⟨err, mdiFrom⟩ l3 t3 ⟨h3, hf3, he3⟩
  have hk3 : Kept me p l l3 t3 := ⟨h3, hk2.2.trans he3.next_le⟩
  refine Conforms.ite (fun herr => herror hk3 herr) fun herr3 => ?_
  obtain ⟨mdiFrom, rfl, -⟩ := hf3.found (not_not.mp herr3)
  refine conforms_deref_bind (conforms_deref_bind (conforms_deref_bind ?_))
  refine conforms_getMdi_bind (conforms_getMdi_bind (Conforms.ite (fun _ => herror hk3 haccess) fun _ => ?_))
  refine (hlookup.extends h3 (by simp) pathTo).then ?_
  rintro ⟨err, mdiTo⟩ l4 t4 ⟨h4, hf4, he4⟩
  have hk4 : Kept me p l l4 t4 := ⟨h4, hk3.2.trans he4.next_le⟩
  refine Conforms.ite (fun herr => herror hk4 herr.1) fun _ => ?_
  cases mdiTo with
  | none => exact conforms_exit
  | some mdiTo =>
    refine conforms_deref_bind (conforms_getMdi_bind (conforms_getMdi_bind (conforms_getMdi_bind ?_)))
    refine Conforms.ite (fun herr => herror hk4 herr) fun _ =>
      Conforms.pure ⟨hk4, fun _ hx => (by cases hx), fun x hx => ?_⟩
    cases hx
    have h1' := hf1.bound dirFrom rfl
    have h2' := hf2.bound dirTo rfl
    have h3' := hf3.bound mdiFrom rfl
    have := he2.next_le
    have := he3.next_le
    have := he4.next_le
    show dirFrom < l4.next ∧ dirTo < l4.next ∧ mdiFrom < l4.next
    omega

/-- The phase changes, the memory does not. -/
theorem Good.setPhase {t' : Option Track} {p' : Phase} (h : Good (objects me p) l t)
    (ht : ∀ tr, t' = some tr → tr.phase = p' ∧ ∃ tr0, t = some tr0 ∧ tr0.clean = tr.clean) :
    Good (objects me p') l t' := by
  refine ⟨fun a ha tr htr k record hc => ?_, fun a ha tr htr => ?_, h.cache⟩
  · obtain ⟨-, tr0, ht0, hclean⟩ := ht tr htr
    rw [← hclean] at hc
    exact h.objects a ha tr0 ht0 k record hc
  · obtain ⟨hp, tr0, ht0, hclean⟩ := ht tr htr
    rw [← hclean]
    exact ⟨hp, (h.free a ha tr0 ht0).2⟩

/-- `rename_regular` copies what the client has read, and removes the key it was read from. -/
theorem renameRegular_moved (h : Good (objects me p) l t) {mdiTo mdiFrom : Nat} (hf : mdiFrom < l.next) :
    Conforms (renamer me) (renameRegular me mdiTo mdiFrom)
      (fun err l' t' => err = 0 → Kept me .moved l l' t') l t := by
  have hne : - EIO ≠ 0 := by decide
  have hread : ∀ tr, t = some tr → ∀ x, tr.clean mdiFrom = some x →
      x.1 = (l.heap mdiFrom).systemPath ∧ x.2.value = (l.heap mdiFrom).md := by
    rintro tr ht ⟨k, record⟩ hx
    rw [h.objects mdiFrom hf tr ht k record hx]
    exact ⟨rfl, rfl⟩
  refine conforms_getMdi_bind (conforms_getMdi_bind ?_)
  refine (Conforms.call (Q := fun x l' t' => l' = l ∧ t' = (renamer me).next t (.putVersion me
    (.copy mdiFrom ((l.heap mdiTo).md.inodeNumber ≠ 0)) (l.heap mdiTo).systemPath
    ⟨(l.heap mdiFrom).md, (l.heap mdiTo).keyVersion⟩) x) ?_ fun _ _ => ⟨rfl, rfl⟩).then ?_
  · exact fun tr ht => ⟨rfl, mdiFrom, _, rfl, fun x hx => (hread tr ht x hx).2.symm⟩
  rintro (status : StatusCode) l' t' ⟨rfl, rfl⟩
  refine Conforms.ite (fun _ => Conforms.pure fun h0 => absurd h0 hne) fun hok => ?_
  obtain rfl : status = .OK := not_not.mp hok
  -- the copy was stored, so the phase is `copied`
  have hphase : ∀ tr, (renamer me).next t (.putVersion me (.copy mdiFrom ((l'.heap mdiTo).md.inodeNumber ≠ 0))
      (l'.heap mdiTo).systemPath ⟨(l'.heap mdiFrom).md, (l'.heap mdiTo).keyVersion⟩) .OK = some tr →
      ∃ tr0, t = some tr0 ∧ tr = { tr0 with
        phase := .copied mdiFrom (l'.heap mdiTo).systemPath (l'.heap mdiFrom).md } := by
    intro tr htr
    cases t with
    | none => cases htr
    | some tr0 =>
      cases htr
      exact ⟨tr0, rfl, rfl⟩
  refine (Conforms.call (Q := fun x l'' t'' => l'' = l' ∧ t'' = (renamer me).next _
    (.delete me (.remove mdiFrom) (l'.heap mdiFrom).systemPath none) x) ?_ fun _ _ => ⟨rfl, rfl⟩).then ?_
  · intro tr htr
    obtain ⟨tr0, ht0, rfl⟩ := hphase tr htr
    refine ⟨rfl, fun a ha => ?_⟩
    cases ha
    exact ⟨_, _, rfl, fun x hx => hread tr0 ht0 x hx⟩
  rintro (status : StatusCode) l'' t'' ⟨rfl, rfl⟩
  refine Conforms.ite (fun _ => Conforms.pure fun h0 => absurd h0 hne) fun hok => ?_
  obtain rfl : status = .OK := not_not.mp hok
  refine Conforms.pure fun _ => ⟨Good.setPhase h fun tr htr => ?_, Nat.le_refl _⟩
  cases t with
  | none => cases htr
  | some tr0 =>
    cases htr
    exact ⟨rfl, tr0, rfl, rfl⟩

theorem require_moved {m : Client Int}
    (hm : Conforms (renamer me) m (fun err l' t' => err = 0 → Kept me .moved l l' t') l t) :
    Conforms (renamer me) (require m) (fun _ l' t' => Kept me .moved l l' t') l t :=
  hm.then fun _ _ _ h' => Conforms.ite (fun _ => conforms_exit) fun herr => Conforms.pure (h' (not_not.mp herr))

theorem renameSoftlink_moved (h : Good (objects me p) l t) {mdiTo mdiFrom : Nat} (hf : mdiFrom < l.next)
    (fuel : Nat) (pathFrom pathTo : Str) :
    Conforms (renamer me) (renameSoftlink me fuel pathFrom pathTo mdiTo mdiFrom)
      (fun err l' t' => err = 0 → Kept me .moved l l' t') l t := by
  have hread : Keeps me p (hflatReadlink fuel pathFrom) := by
    intro l t h
    refine Conforms.get_bind ?_
    split
    · exact conforms_exit
    · exact Conforms.pure (Kept.refl h)
  refine (hread l t h).then fun buffer l1 t1 h1 => ?_
  refine ((Keeps.databaseOperation _ fuel).require l1 t1 h1.1).then fun _ l2 t2 h2 => ?_
  refine ((Keeps.databaseOperation _ fuel).require l2 t2 h2.1).then fun _ l3 t3 h3 => ?_
  have hle : l.next ≤ l3.next := (h1.2.trans h2.2).trans h3.2
  exact (renameRegular_moved h3.1 (Nat.lt_of_lt_of_le hf hle)).mono fun _ _ _ h4 h0 =>
    ⟨(h4 h0).1, hle.trans (h4 h0).2⟩

theorem renameHardlink_moved (h : Good (objects me p) l t) (fuel : Nat) (pathFrom : Str) (mdiTo : Nat) :
    Conforms (renamer me) (renameHardlink me fuel pathFrom mdiTo)
      (fun err l' t' => err = 0 → Kept me .moved l l' t') l t := by
  refine (getMetadataUserpath_kept h fuel pathFrom).then ?_
  rintro ⟨err, mdi⟩ l1 t1 ⟨h1, hb⟩
  refine Conforms.ite (fun _ => conforms_exit) fun _ => ?_
  cases mdi with
  | none => exact conforms_exit
  | some mdiFrom =>
    refine conforms_deref_bind (conforms_getMdi_bind (Conforms.ite (fun _ => conforms_exit) fun _ => ?_))
    refine (require_moved (renameRegular_moved h1.1 (hb mdiFrom rfl))).then fun _ l2 t2 h2 => ?_
    exact conforms_getMdi_bind (conforms_cacheInvalidate_bind (Conforms.pure fun _ =>
      ⟨h2.1.invalidate _, h1.2.trans h2.2⟩))

/-- A directory is moved in the path map, not by copying its key. -/
theorem renameDirectory_special (h : Good (objects me p) l t) (r : Renaming) (fuel : Nat)
    (pathFrom pathTo : Str) :
    Conforms (renamer me) (renameDirectory me env fuel pathFrom pathTo r) (fun _ _ t' => t' = none) l t := by
  refine ((Keeps.databaseOperation _ fuel).require l t h).then fun _ l1 t1 h1 => ?_
  refine conforms_getMdi_bind (conforms_newMetadataInfo_bind ((load_good h1.1 _).then ?_))
  rintro err l2 t2 -
  refine conforms_getMdi_bind (Conforms.ite (fun _ => ?_) fun _ => ?_)
  · exact Conforms.ended (Conforms.ended (deleteMetadata_special l1.next))
  · refine (conforms_quiet (objects me p) (r := .inodeNumber) rfl
      (Q := fun _ _ _ => True) fun _ _ => trivial).then fun (inode : Nat) l3 t3 _ => ?_
    refine conforms_setMdi_bind (Conforms.ended (Conforms.ended (conforms_getMdi_bind ?_)))
    exact Conforms.ended (put_special (Or.inl rfl) _ _ _ _)

/-- The object is moved; a directory or an existing target ends the protocol. -/
theorem renameObject_moved (h : Good (objects me p) l t) {r : Renaming} (hf : r.mdiFrom < l.next)
    (fuel : Nat) (pathFrom pathTo : Str) :
    Conforms (renamer me) (renameObject me env fuel pathFrom pathTo r)
      (fun _ l' t' => t' = none ∨ Kept me .moved l l' t') l t := by
  refine conforms_getMdi_bind (Conforms.ite (fun _ => ?_) fun hdir => ?_)
  · refine (Conforms.ended (Conforms.ended (renameDirectory_special h r fuel pathFrom pathTo))).mono ?_
    exact fun _ _ _ h => Or.inl h
  -- a hard link to a symbolic link is moved twice
  have hhard : ∀ {p' : Phase} {l' : Local} {t' : Option Track}, Kept me p' l l' t' → Conforms (renamer me)
      (require (renameHardlink me fuel pathFrom r.mdiTo)) (fun _ l'' t'' => Kept me .moved l l'' t'') l' t' :=
    fun h' => (require_moved (renameHardlink_moved h'.1 fuel pathFrom r.mdiTo)).mono fun _ _ _ h'' =>
      ⟨h''.1, h'.2.trans h''.2⟩
  refine Conforms.ite (fun hsoft => ?_) fun hsoft => ?_
  · refine (require_moved (renameSoftlink_moved h hf fuel pathFrom pathTo)).then fun _ l1 t1 h1 => ?_
    refine Conforms.ite (fun _ => ?_) fun _ => Conforms.ite (fun hall => absurd hsoft hall.2.2) fun _ =>
      Conforms.pure (Or.inr h1)
    refine (hhard h1).then fun _ l2 t2 h2 => ?_
    exact Conforms.ite (fun hall => absurd hsoft hall.2.2) fun _ => Conforms.pure (Or.inr h2)
  · refine Conforms.ite (fun hlink => ?_) fun hlink => ?_
    · refine (hhard (Kept.refl h)).then fun _ l2 t2 h2 => ?_
      exact Conforms.ite (fun hall => absurd hlink hall.2.1) fun _ => Conforms.pure (Or.inr h2)
    · refine Conforms.ite (fun _ => ?_) fun hall => absurd ⟨hdir, hlink, hsoft⟩ hall
      exact (require_moved (renameRegular_moved h hf)).mono fun _ _ _ h' => Or.inr h'

theorem renameEntries_moved (h : Good (objects me p) l t) {r : Renaming} (hd : r.dirFrom < l.next)
    (hd' : r.dirTo < l.next) (hf : r.mdiFrom < l.next) (fuel : Nat) (pathFrom pathTo : Str) :
    Conforms (renamer me) (renameEntries me env fuel pathFrom pathTo r)
      (fun err l' t' => t' = none ∨ (err = 0 → Kept me .moved l l' t')) l t := by
  refine (createDirectoryEntry_kept h hd' _ fuel).then fun err l1 t1 h1 => ?_
  refine Conforms.ite (fun herr => Conforms.pure (Or.inr fun h0 => absurd h0 herr)) fun _ => ?_
  have hlt : ∀ {a : Nat} {l' : Local} {t' : Option Track}, a < l.next → Kept me p l l' t' → a < l'.next :=
    fun ha h' => Nat.lt_of_lt_of_le ha h'.2
  refine (require_kept (createDirectoryEntry_kept h1.1 (hlt hd' h1) _ fuel)).then fun _ l2 t2 h2 => ?_
  have hk2 := h1.trans h2
  refine (deleteDirectoryEntry_kept h2.1 (hlt hd hk2) _ fuel).then fun err l3 t3 h3 => ?_
  have hk3 := hk2.trans h3
  refine Conforms.ite (fun herr => ?_) fun _ => ?_
  · refine (require_kept (deleteDirectoryEntry_kept h3.1 (hlt hd' hk3) _ fuel)).then fun _ l4 t4 h4 => ?_
    refine (require_kept (deleteDirectoryEntry_kept h4.1 (hlt hd' (hk3.trans h4)) _ fuel)).then ?_
    exact fun _ _ _ _ => Conforms.pure (Or.inr fun h0 => absurd h0 herr)
  · refine Conforms.orSpecial (renameObject_moved h3.1 (hlt hf hk3) fuel pathFrom pathTo) fun _ l4 t4 h4 => ?_
    have hle4 : l.next ≤ l4.next := hk3.2.trans h4.2
    refine (require_kept (deleteDirectoryEntry_kept h4.1 (Nat.lt_of_lt_of_le hd' hle4) _ fuel)).then
      fun _ l5 t5 h5 => ?_
    refine conforms_getMdi_bind (conforms_cacheInvalidate_bind (conforms_getMdi_bind
      (conforms_cacheInvalidate_bind (Conforms.pure (Or.inr fun _ => ⟨?_, hle4.trans h5.2⟩)))))
    exact (h5.1.invalidate _).invalidate _

theorem hflatRename_moved (h : Good (objects me p) l t) (fuel : Nat) (pathFrom pathTo : Str) :
    Conforms (renamer me) (hflatRename me env ctx fuel pathFrom pathTo)
      (fun err l' t' => t' = none ∨ (err = 0 → Kept me .moved l l' t')) l t := by
  refine (renameLookup_kept h fuel pathFrom pathTo).then ?_
  rintro (err | r) l1 t1 ⟨h1, herr, hr⟩
  · exact Conforms.pure (Or.inr fun h0 => absurd h0 (herr err rfl))
  obtain ⟨hd, hd', hf⟩ := hr r rfl
  have hentries : ∀ {mdiTo : Nat}, Conforms (renamer me) (renameEntries me env fuel pathFrom pathTo
      { r with mdiTo := mdiTo }) (fun err l' t' => t' = none ∨ (err = 0 → Kept me .moved l l' t')) l1 t1 := by
    intro mdiTo
    refine (renameEntries_moved (r := { r with mdiTo := mdiTo }) h1.1 hd hd' hf fuel pathFrom pathTo).mono ?_
    exact fun _ _ _ h' => h'.imp id fun h' h0 => ⟨(h' h0).1, h1.2.trans (h' h0).2⟩
  refine conforms_getMdi_bind (Conforms.ite (fun _ => ?_) fun _ => @hentries r.mdiTo)
  -- an existing target is unlinked, or the rename fails
  refine Conforms.ite (fun _ => ?_) fun _ => ?_
  · refine Conforms.orSpecial (hflatRmdir_special h1.1 fuel pathTo) fun err l2 t2 h2 => ?_
    exact Conforms.ite (fun _ => Conforms.pure (Or.inr fun h0 => absurd h0 h2.1)) fun h0 => absurd h2.1 h0
  · refine Conforms.orSpecial (hflatUnlink_special h1.1 fuel pathTo) fun err l2 t2 h2 => ?_
    exact Conforms.ite (fun _ => Conforms.pure (Or.inr fun h0 => absurd h0 h2.1)) fun h0 => absurd h2.1 h0

end Local

/-! ## Runs -/

/-- What is known of the store, the watched client and its protocol. -/
structure Inv (s : Store × Watch) (t : Option Track) : Prop where
  current : ∀ a x, s.2.clean a = some x → s.1.metadata x.1 = some x.2
  moves : ∀ m ∈ s.2.moves, m.copied = m.removed.value
  special : t = none → s.2.special = true
  ordinary : ∀ tr, t = some tr → s.2.special = false
  view : ∀ tr, t = some tr → ∀ a x, s.2.clean a = some x → tr.clean a = some x
  copied : ∀ tr a target md, t = some tr → tr.phase = .copied a target md → s.2.copied = some (target, md)
  moved : ∀ tr, t = some tr → tr.phase = .moved → s.2.moves ≠ []

section Runs

variable {uuid : Nat → Str} {me : Nat} {s s' : Store} {h : Watch} {t : Option Track} {choice : Choice}

theorem noteRemove_special {key : Str} {x : StatusCode} (hs : h.special = true) :
    h.noteRemove s key x = h := by
  unfold Watch.noteRemove
  split
  · rw [if_neg (by rw [hs]; simp)]
  · rfl

theorem noteRemove_ordinary {key target : Str} {md : Inode} {record : KineticRecord Inode} {x : StatusCode}
    (hs : h.special = false) (hc : h.copied = some (target, md)) (hm : s.metadata key = some record) :
    h.noteRemove s key x =
      if x = .OK then { h with moves := ⟨key, target, md, record⟩ :: h.moves } else h := by
  unfold Watch.noteRemove
  rw [hc, hm, hs]
  simp

theorem clean_cleared {a : Nat} {x : Source} (hx : (h.cleared s s').clean a = some x) :
    h.clean a = some x ∧ s'.metadata x.1 = s.metadata x.1 := by
  have hf : (h.clean a).filter (fun x => s'.metadata x.1 = s.metadata x.1) = some x := hx
  obtain ⟨hc, hs⟩ := Option.filter_eq_some_iff.mp hf
  exact ⟨hc, of_decide_eq_true hs⟩

/-- An access that writes keys makes their objects unclean. -/
theorem Inv.cleared (hinv : Inv (s, h) t) : Inv (s', h.cleared s s') t := by
  refine ⟨fun a x hx => ?_, hinv.moves, hinv.special, hinv.ordinary, fun tr ht a x hx => ?_, hinv.copied,
    hinv.moved⟩
  · obtain ⟨hc, hs⟩ := clean_cleared hx
    exact hs.trans (hinv.current a x hc)
  · exact hinv.view tr ht a x (clean_cleared hx).1

/-- An object of the client is set, on both sides. -/
theorem Inv.setClean (hinv : Inv (s, h) (t := t)) {a : Nat} {x : Option Source}
    (hx : ∀ y, x = some y → s.metadata y.1 = some y.2) :
    Inv (s, { h with clean := Function.update h.clean a x })
      (t.map fun tr => { tr with clean := Function.update tr.clean a x }) := by
  have hmap : ∀ {tr : Track}, (t.map fun tr => { tr with clean := Function.update tr.clean a x }) = some tr →
      ∃ tr0, t = some tr0 ∧ tr = { tr0 with clean := Function.update tr0.clean a x } := by
    intro tr htr
    obtain ⟨tr0, ht0, he⟩ := Option.map_eq_some_iff.mp htr
    exact ⟨tr0, ht0, he.symm⟩
  refine ⟨fun b y hy => ?_, hinv.moves, fun hn => hinv.special (Option.map_eq_none_iff.mp hn),
    fun tr htr => ?_, fun tr htr b y hy => ?_, fun tr b target md htr hp => ?_, fun tr htr hp => ?_⟩
  · have hy' : Function.update h.clean a x b = some y := hy
    by_cases hb : b = a
    · subst hb
      rw [Function.update_self] at hy'
      exact hx y hy'
    · rw [Function.update_of_ne hb] at hy'
      exact hinv.current b y hy'
  · obtain ⟨tr0, ht0, -⟩ := hmap htr
    exact hinv.ordinary tr0 ht0
  · obtain ⟨tr0, ht0, rfl⟩ := hmap htr
    have hy' : Function.update h.clean a x b = some y := hy
    show Function.update tr0.clean a x b = some y
    by_cases hb : b = a
    · subst hb
      rw [Function.update_self] at hy' ⊢
      exact hy'
    · rw [Function.update_of_ne hb] at hy' ⊢
      exact hinv.view tr0 ht0 b y hy'
  · obtain ⟨tr0, ht0, rfl⟩ := hmap htr
    exact hinv.copied tr0 b target md ht0 hp
  · obtain ⟨tr0, ht0, rfl⟩ := hmap htr
    exact hinv.moved tr0 ht0 hp

/-- The protocol ends. -/
theorem Inv.ends (hinv : Inv (s, h) t) : Inv (s, { h with special := true }) none :=
  ⟨hinv.current, hinv.moves, fun _ => rfl, fun _ ht => (by cases ht), fun _ ht => (by cases ht),
    fun _ _ _ _ ht => (by cases ht), fun _ ht => (by cases ht)⟩

theorem Inv.get (hinv : Inv (s, h) t) {a : Nat} {key : Str} {x : Except StatusCode (KineticRecord Inode)}
    (hx : ∀ record, x = .ok record → s.metadata key = some record) :
    Inv (s, h.noteGet a key x) (t.bind fun tr => some (tr.get a key x)) := by
  cases x with
  | error code =>
    have he : (t.bind fun tr => some (tr.get a key (.error code))) = t := by cases t <;> rfl
    rw [he]
    exact hinv
  | ok record =>
    have he : (t.bind fun tr => some (tr.get a key (.ok record))) =
        t.map fun tr => { tr with clean := Function.update tr.clean a (some (key, record)) } := by
      cases t <;> rfl
    rw [he]
    refine hinv.setClean fun y hy => ?_
    cases hy
    exact hx record rfl

theorem Inv.put (hinv : Inv (s, h) t) {a : Nat} {why : Purpose} {key : Str} {md : Inode}
    {x : StatusCode × Str} (hx : x.1 = .OK → s.metadata key = some ⟨md, x.2⟩) :
    Inv (s, h.notePut a why key md x) (t.bind fun tr => tr.put a why key md x) := by
  have hset := hinv.setClean (a := a) (x := if x.1 = .OK then some (key, ⟨md, x.2⟩) else none) fun y hy => by
    split at hy
    · rename_i hok
      cases hy
      exact hx hok
    · cases hy
  by_cases hwhy : why = .create ∨ why = .reserve
  · have he : (t.bind fun tr => tr.put a why key md x) = none := by
      cases t with
      | none => rfl
      | some tr => exact if_pos hwhy
    have hn : h.notePut a why key md x = { h with
        clean := Function.update h.clean a (if x.1 = .OK then some (key, ⟨md, x.2⟩) else none),
        special := true } := by
      rcases hwhy with rfl | rfl
      · simp [Watch.notePut]
      · simp [Watch.notePut]
    rw [he, hn]
    exact hset.ends
  · have he : (t.bind fun tr => tr.put a why key md x) = t.map fun tr => { tr with
        clean := Function.update tr.clean a (if x.1 = .OK then some (key, ⟨md, x.2⟩) else none) } := by
      cases t with
      | none => rfl
      | some tr => exact if_neg hwhy
    have hn : h.notePut a why key md x = { h with
        clean := Function.update h.clean a (if x.1 = .OK then some (key, ⟨md, x.2⟩) else none) } := by
      obtain ⟨h1, h2⟩ := not_or.mp hwhy
      simp [Watch.notePut, h1, h2]
    rw [he, hn]
    exact hset

theorem Inv.copy (hinv : Inv (s, h) t) {why : Purpose} {key : Str} {record : KineticRecord Inode}
    {x : StatusCode} : Inv (s, h.noteCopy why key record x) (t.bind fun tr => some (tr.copy why key record x)) := by
  have hsame : ∀ {f : Track → Track}, (∀ tr, f tr = tr) → Inv (s, h) (t.bind fun tr => some (f tr)) := by
    intro f hf
    have he : (t.bind fun tr => some (f tr)) = t := by
      cases t with
      | none => rfl
      | some tr => exact congrArg some (hf tr)
    rw [he]
    exact hinv
  cases why with
  | copy a replaced =>
    by_cases hx : x = .OK
    · subst hx
      refine ⟨hinv.current, hinv.moves, fun hn => ?_, fun tr htr => ?_, fun tr htr b y hy => ?_,
        fun tr b target md htr hp => ?_, fun tr htr hp => ?_⟩
      · exact hinv.special (by cases t with
          | none => rfl
          | some tr => cases hn)
      · obtain ⟨tr0, ht0, he⟩ := Option.bind_eq_some_iff.mp htr
        exact hinv.ordinary tr0 ht0
      · obtain ⟨tr0, ht0, he⟩ := Option.bind_eq_some_iff.mp htr
        cases he
        exact hinv.view tr0 ht0 b y hy
      · obtain ⟨tr0, ht0, he⟩ := Option.bind_eq_some_iff.mp htr
        cases he
        cases hp
        rfl
      · obtain ⟨tr0, ht0, he⟩ := Option.bind_eq_some_iff.mp htr
        cases he
        cases hp
    · have hn : h.noteCopy (.copy a replaced) key record x = h := if_neg hx
      rw [hn]
      exact hsame fun tr => if_neg hx
  | _ => exact hsame fun tr => rfl

/-- The old name is removed: it is what was copied. -/
theorem Inv.remove (hinv : Inv (s, h) t) {a : Nat} {key : Str} {x : StatusCode}
    (hallowed : ∀ tr, t = some tr → ∃ target md, tr.phase = .copied a target md ∧
      ∀ y, tr.clean a = some y → y.1 = key ∧ y.2.value = md)
    (hok : h.special = true ∨ (h.clean a).isSome) :
    Inv (s', (h.cleared s s').noteDelete s (.remove a) key x) (t.bind fun tr => tr.delete (.remove a) x) := by
  have hcl : Inv (s', h.cleared s s') t := hinv.cleared
  change Inv (s', (h.cleared s s').noteRemove s key x) _
  cases t with
  | none =>
    rw [noteRemove_special (h := h.cleared s s') (hinv.special rfl)]
    exact hcl
  | some tr =>
    have hspecial : h.special = false := hinv.ordinary tr rfl
    obtain ⟨y, hy⟩ : ∃ y, h.clean a = some y := by
      rcases hok with hok | hok
      · rw [hspecial] at hok
        cases hok
      · exact Option.isSome_iff_exists.mp hok
    obtain ⟨target, md, hphase, hread⟩ := hallowed tr rfl
    obtain ⟨rfl, hvalue⟩ := hread y (hinv.view tr rfl a y hy)
    rw [noteRemove_ordinary (h := h.cleared s s') hspecial (hinv.copied tr a target md rfl hphase)
      (hinv.current a y hy)]
    by_cases hx : x = .OK
    · subst hx
      rw [if_pos rfl]
      refine ⟨hcl.current, fun m hm => ?_, fun he => (by cases he), fun tr' htr => ?_,
        fun tr' htr b z hz => ?_, fun tr' b target' md' htr hp => ?_, fun _ _ _ => List.cons_ne_nil _ _⟩
      · rcases List.mem_cons.mp hm with rfl | hm
        · exact hvalue.symm
        · exact hinv.moves m hm
      · exact hspecial
      · cases htr
        exact hcl.view tr rfl b z hz
      · cases htr
        cases hp
    · rw [if_neg hx]
      have he : ((some tr : Option Track).bind fun tr => tr.delete (.remove a) x) = some tr := if_neg hx
      rw [he]
      exact hcl

theorem Inv.delete (hinv : Inv (s, h) t) {why : Purpose} {key : Str} {x : StatusCode}
    (hallowed : ∀ tr, t = some tr → ∀ a, why = .remove a → ∃ target md, tr.phase = .copied a target md ∧
      ∀ y, tr.clean a = some y → y.1 = key ∧ y.2.value = md)
    (hok : ∀ a, why = .remove a → h.special = true ∨ (h.clean a).isSome) :
    Inv (s', (h.cleared s s').noteDelete s why key x) (t.bind fun tr => tr.delete why x) := by
  have hcl : Inv (s', h.cleared s s') t := hinv.cleared
  cases why with
  | remove a => exact hinv.remove (fun tr ht => hallowed tr ht a rfl) (hok a rfl)
  | delete =>
    have he : (t.bind fun tr => tr.delete .delete x) = none := by cases t <;> rfl
    rw [he]
    exact hcl.ends
  | _ => cases t <;> exact hcl

/-- Every step that meets the condition keeps the invariant. -/
theorem sound (uuid : Nat → Str) (me : Nat) :
    Sound ((observed uuid me).restrict (untouched me)) (fun i => if i = me then renamer me else others me)
      fun s t => Inv s (t me) := by
  rintro ⟨s, h⟩ t i r choice x ⟨s', h'⟩ hinv hallowed hstep
  obtain ⟨hok, hobserve⟩ := serve_restrict hstep
  obtain ⟨hserve, hnote⟩ := serve_observe hobserve
  change serve uuid s r choice = some (x, s') at hserve
  change h' = h.note me s r x s' at hnote
  clear hstep hobserve
  subst hnote
  by_cases hi : i = me
  · subst hi
    simp only [if_true] at hallowed ⊢
    refine ⟨trivial, ?_⟩
    rw [Function.update_self]
    change Inv (s', h.note i s r x s') ((t i).bind fun tr => tr.next r x)
    by_cases howner : r.owner = some i
    · cases r with
      | get j a key =>
        obtain ⟨rfl, hget, -⟩ := serve_get (x := x) hserve
        have hn : h.note i s' (.get j a key) x s' = (h.cleared s' s').noteGet a key x := if_pos howner
        rw [hn]
        exact hinv.cleared.get hget
      | put j a why key expected md =>
        have hn : h.note i s (.put j a why key expected md) x s' =
          (h.cleared s s').notePut a why key md x := if_pos howner
        rw [hn]
        refine hinv.cleared.put fun hx => ?_
        obtain ⟨status, version⟩ : StatusCode × Str := x
        obtain ⟨rfl, ⟨-, -, rfl⟩ | ⟨hne, -, -⟩⟩ := serve_put hserve
        · show (s.set key _).metadata key = _
          rw [Store.set_metadata, if_pos rfl]
        · exact absurd hx hne
      | putVersion j why key record =>
        have hn : h.note i s (.putVersion j why key record) x s' =
          (h.cleared s s').noteCopy why key record x := if_pos howner
        rw [hn]
        exact hinv.cleared.copy
      | delete j why key expected =>
        have hn : h.note i s (.delete j why key expected) x s' =
          (h.cleared s s').noteDelete s why key x := if_pos howner
        rw [hn]
        refine hinv.delete (fun tr ht => (hallowed tr ht).2) fun a ha => ?_
        subst ha
        obtain rfl : j = i := Option.some.inj howner
        simpa [untouched] using hok
      | _ => cases howner
    · have hn : h.note i s r x s' = h.cleared s s' := if_neg howner
      have ht : ((t i).bind fun tr => tr.next r x) = t i := by
        cases ht : t i with
        | none => rfl
        | some tr =>
          have hr := hallowed tr ht
          cases r with
          | get j a key => exact absurd (congrArg some hr) howner
          | put j a why key expected md => exact absurd (congrArg some hr) howner
          | putVersion j why key record => exact absurd (congrArg some hr.1) howner
          | delete j why key expected => exact absurd (congrArg some hr.1) howner
          | _ => rfl
      rw [hn, ht]
      exact hinv.cleared
  · simp only [if_neg hi] at hallowed ⊢
    refine ⟨trivial, ?_⟩
    rw [Function.update_of_ne (Ne.symm hi)]
    have hn : h.note me s r x s' = h.cleared s s' := if_neg hallowed
    rw [hn]
    exact hinv.cleared

/-- The objects that are up to date at the start: `clean` says where each was read from. -/
structure Cached (s : Store) (l : Local) (clean : Nat → Option Source) : Prop where
  object : ∀ a x, clean a = some x → a < l.next ∧ l.heap a = ⟨x.1, x.2.version, x.2.value⟩ ∧
    s.metadata x.1 = some x.2
  cache : ∀ key a, l.lookupCache key = some a → a < l.next ∧ (l.heap a).systemPath = key

theorem Cached.good {l : Local} {clean : Nat → Option Source} (h : Cached s l clean) :
    Good (objects me .idle) l (some ⟨clean, .idle⟩) := by
  refine ⟨fun a _ tr ht k record hc => ?_, fun a ha tr ht => ?_, h.cache⟩
  · cases ht
    exact (h.object a (k, record) hc).2.1
  · cases ht
    refine ⟨rfl, ?_⟩
    show clean a = none
    cases hc : clean a with
    | none => rfl
    | some x =>
      have := (h.object a x hc).1
      omega

/-- Client `me` starts a rename; the other clients do anything. -/
def startRename (me : Nat) (env : Env) (ctx : Context) (fuel : Nat) (pathFrom pathTo : Str) (l : Local)
    (clean : Nat → Option Source) (other : Nat → Prog Req Res (Int × Local)) (s : Store) :
    Config Req Res (Store × Watch) Nat (Int × Local) :=
  ⟨(s, ⟨clean, none, [], false⟩),
    Function.update other me ((hflatRename me env ctx fuel pathFrom pathTo).run l)⟩

/-- In every run in which the old name is removed only while the object of the client is what is
    stored there, what a rename has copied to the new name is what it has removed; and a rename that
    returns 0, has unlinked no target and moved no directory, has done so. -/
theorem rename_copies_removed (uuid : Nat → Str) (me : Nat) (env : Env) (ctx : Context) (fuel : Nat)
    (pathFrom pathTo : Str) {l : Local} {clean : Nat → Option Source}
    {other : Nat → Prog Req Res (Int × Local)} (hl : Cached s l clean)
    (hother : ∀ i, i ≠ me → (other i).Only fun r => r.owner ≠ some me)
    {schedule : List (Nat × Choice)} {c : Config Req Res (Store × Watch) Nat (Int × Local)}
    (hrun : runFrom ((observed uuid me).restrict (untouched me))
      (startRename me env ctx fuel pathFrom pathTo l clean other s) schedule = some c) :
    (∀ m ∈ c.shared.2.moves, m.copied = m.removed.value) ∧
      ∀ l', c.prog me = .ret (0, l') → c.shared.2.special = false → c.shared.2.moves ≠ [] := by
  have hstart : Inv (s, ⟨clean, none, [], false⟩) (some ⟨clean, .idle⟩) := by
    refine ⟨fun a x hx => (hl.object a x hx).2.2, fun m hm => (by cases hm), fun he => (by cases he),
      fun _ _ => rfl, fun tr ht a x hx => ?_, fun tr a target md ht hp => ?_, fun tr ht hp => ?_⟩
    · cases ht
      exact hx
    · cases ht
      cases hp
    · cases ht
      cases hp
  have hconforms : ∀ i, ((startRename me env ctx fuel pathFrom pathTo l clean other s).prog i).Conforms
      (if i = me then renamer me else others me) (fun x t => i = me → t = none ∨
        (x.1 = 0 → ∀ tr, t = some tr → tr.phase = .moved)) (some ⟨clean, .idle⟩) := by
    intro i
    show (Function.update other me _ i).Conforms _ _ _
    by_cases hi : i = me
    · subst hi
      rw [Function.update_self, if_pos rfl]
      refine Prog.Conforms.mono (hflatRename_moved hl.good fuel pathFrom pathTo) fun x t h _ => ?_
      exact h.imp id fun h h0 tr ht => ((h h0).1.free _ (Nat.le_refl _) tr ht).1
    · rw [Function.update_of_ne hi, if_neg hi]
      refine Prog.Conforms.mono (Prog.Only.conforms (A := others me) (fun _ _ hr => hr) (hother i hi) _) ?_
      exact fun _ _ _ hme => absurd hme hi
  obtain ⟨t, hinv, hprog⟩ := runFrom_conforms (sound uuid me) (t := fun _ => some ⟨clean, .idle⟩) hstart
    hconforms hrun
  refine ⟨hinv.moves, fun l' hret hspecial => ?_⟩
  have hme := hprog me
  rw [hret, if_pos rfl] at hme
  cases ht : t me with
  | none =>
    rw [hinv.special ht] at hspecial
    cases hspecial
  | some tr =>
    have hdone : t me = none ∨ ((0 : Int) = 0 → ∀ tr, t me = some tr → tr.phase = .moved) := hme rfl
    rcases hdone with hnone | hdone
    · rw [ht] at hnone
      cases hnone
    · exact hinv.moved tr ht (hdone rfl tr ht)

end Runs

/-! ## Updates of other clients -/

section Owner

variable {me i : Nat} {env : Env} {ctx : Context} {lookup : Str → Option Nat → Client (Int × Option Nat)}

/-- Requests that are not those of client `me`. -/
abbrev Foreign (me : Nat) (r : Req) : Prop := r.owner ≠ some me

theorem quiet_only {r : Req} (hr : r.owner = none) : Only (Foreign me) (perform r) :=
  Only.call (by rw [Foreign, hr]; simp)

theorem getMetadata_only (hi : i ≠ me) (a : Nat) : Only (Foreign me) (getMetadata i a) := by
  refine Only.get_bind fun l => (Only.call (by simpa [Foreign, Req.owner] using hi)).bind ?_
  intro (x : Except StatusCode (KineticRecord Inode))
  cases x with
  | ok record => exact (Only.modify _).bind fun _ => Only.pure _
  | error code => cases code <;> exact Only.pure _

theorem putMetadata_only (hi : i ≠ me) (why : Purpose) (a : Nat) : Only (Foreign me) (putMetadata i why a) := by
  refine Only.get_bind fun l => (Only.call (by simpa [Foreign, Req.owner] using hi)).bind ?_
  rintro ⟨status, version⟩
  cases status <;> exact (Only.modify _).bind fun _ => Only.pure _

theorem newMetadataInfo_only (key : Str) : Only (Foreign me) (newMetadataInfo key) :=
  Only.get_bind fun _ => (Only.modify _).bind fun _ => Only.pure _

theorem databaseUpdate_only : Only (Foreign me) databaseUpdate := by
  refine Only.get_bind fun l => (quiet_only rfl).bind ?_
  intro (entries : Except Int (List DbEntry))
  cases entries with
  | error err => exact Only.pure _
  | ok entries =>
    dsimp only
    split
    · exact Only.stop
    · exact (Only.modify _).bind fun _ => Only.pure _

theorem cacheGet_only (key : Str) : Only (Foreign me) (cacheGet key) := by
  refine Only.get_bind fun l => Only.ite Only.stop ?_
  split
  · exact Only.pure _
  · refine (quiet_only rfl).bind fun (expired : Bool) => Only.ite ?_ (Only.pure _)
    exact (Only.modify _).bind fun _ => Only.pure _

theorem cacheAdd_only (key : Str) (a : Nat) : Only (Foreign me) (cacheAdd key a) := by
  refine Only.get_bind fun l => ?_
  split
  · exact Only.stop
  · exact Only.modify _

theorem lookupParentWith_only (hl : ∀ path pointer, Only (Foreign me) (lookup path pointer)) (path : Str) :
    Only (Foreign me) (lookupParentWith ctx lookup path) := by
  unfold lookupParentWith
  split
  · exact Only.pure _
  · refine (hl _ _).bind ?_
    rintro ⟨err, parent⟩
    refine Only.ite (Only.pure _) ?_
    cases parent with
    | none => exact Only.stop
    | some parent => exact Only.get_bind fun l => Only.ite (Only.pure _) (Only.pure _)

theorem checkStale_only (hi : i ≠ me) (hl : ∀ path pointer, Only (Foreign me) (lookup path pointer))
    (path : Str) (stamp : Int) (a : Nat) : Only (Foreign me) (checkStale i env ctx lookup path stamp a) := by
  refine Only.get_bind fun l => Only.ite ?_ (Only.get_bind fun l => Only.pure _)
  refine (lookupParentWith_only hl path).bind ?_
  rintro ⟨err, parent⟩
  refine Only.ite (Only.pure _) ?_
  cases parent with
  | none => exact Only.stop
  | some parent =>
    refine Only.get_bind fun l => (Only.modify _).bind fun _ => (putMetadata_only hi .update a).bind fun err => ?_
    exact Only.ite (hl _ _) (Only.ite (Only.pure _) (Only.get_bind fun l => Only.pure _))

theorem lookupFound_only (hi : i ≠ me) (hl : ∀ path pointer, Only (Foreign me) (lookup path pointer))
    (path key : Str) (stamp : Int) (a : Nat) (cached : Bool) :
    Only (Foreign me) (lookupFound i env ctx lookup path key stamp a cached) := by
  refine Only.get_bind fun l => Only.ite (Only.pure _) ?_
  have hstale : Only (Foreign me) (do cacheAdd key a; checkStale i env ctx lookup path stamp a) :=
    (cacheAdd_only key a).bind fun _ => checkStale_only hi hl path stamp a
  cases (l.heap a).md.type with
  | HARDLINK_S =>
    refine Only.ite ?_ (hl _ _)
    refine (newMetadataInfo_only key).bind fun _ => (Only.modify _).bind fun _ => ?_
    exact (cacheAdd_only key _).bind fun _ => hl _ _
  | FORCE_UPDATE =>
    refine databaseUpdate_only.bind fun err => (Only.modify _).bind fun _ => Only.ite (Only.pure _) (hl _ _)
  | POSIX => exact Only.ite hstale (checkStale_only hi hl path stamp a)
  | HARDLINK_T => exact Only.ite hstale (checkStale_only hi hl path stamp a)

theorem lookup_only (hi : i ≠ me) (fuel : Nat) (path : Str) (pointer : Option Nat) :
    Only (Foreign me) (Fuse.lookup i env ctx fuel path pointer) := by
  induction fuel generalizing path pointer with
  | zero => exact Only.stop
  | succ fuel ih =>
    refine Only.get_bind fun l => ?_
    split
    · exact Only.stop
    · refine Only.ite (Only.pure _) ((cacheGet_only _).bind fun found => ?_)
      cases found with
      | some a => exact lookupFound_only hi ih _ _ _ a true
      | none =>
        refine (Only.modify _).bind fun _ => (newMetadataInfo_only _).bind fun _ => ?_
        refine (getMetadata_only hi _).bind fun err => ?_
        refine Only.ite ((cacheAdd_only _ _).bind fun _ => lookupFound_only hi ih _ _ _ _ false) ?_
        exact Only.ite ((Only.modify _).bind fun _ => Only.pure _) (lookupFound_only hi ih _ _ _ _ false)

/-- The requests of an update are those of the client that makes it. -/
theorem hflatUpdate_only (hi : i ≠ me) (path : Str) (change : Change) (fuel : Nat) :
    Only (Foreign me) (hflatUpdate i env ctx path change fuel) := by
  induction fuel with
  | zero => exact Only.stop
  | succ fuel ih =>
    refine (lookup_only hi _ path none).bind ?_
    rintro ⟨err, mdi⟩
    refine Only.ite (Only.pure _) ?_
    cases mdi with
    | none => exact Only.stop
    | some a =>
      refine Only.bind (Only.pure a) fun a => Only.get_bind fun l => ?_
      split
      · exact Only.pure _
      · refine (Only.modify _).bind fun _ => (putMetadata_only hi .update a).bind fun err => ?_
        exact Only.ite ih (Only.pure _)

end Owner

/-! ## A rename and `setxattr` of another client -/

/-- A file system with one file. -/
def oneFile : Store := (Store.mkfs counter).addFile counter (lit "a") (regularFile 2)

/-- Client 1 sets an attribute of `/a`. -/
def setsAttribute (i : Nat) : Prog Req Res (Int × Local) :=
  if i = 1 then (hflatUpdate 1 relaxed superuser (lit "/a") (.setxattr (lit "user.k") (lit "v") 0) 5).run
    (Local.mounted PathMapDB.empty)
  else .ret (0, Local.mounted PathMapDB.empty)

theorem setsAttribute_only (i : Nat) (_ : i ≠ 0) : (setsAttribute i).Only (Foreign 0) := by
  unfold setsAttribute
  split
  · exact hflatUpdate_only (by decide) _ _ 5 _
  · trivial

theorem mounted_cached (s : Store) (pmap : PathMapDB) : Cached s (Local.mounted pmap) fun _ => none :=
  ⟨fun _ _ h => (by cases h), fun _ _ h => (by cases h)⟩

/-- Client 0 renames `/a` to `/b` with the given choices around those of client 1. -/
def aroundUpdate (earlier later : List Choice) : List (Nat × Choice) :=
  earlier.map (fun choice => (0, choice)) ++ [(1, .done), (1, .done)] ++
    later.map fun choice => (0, choice)

/-- The attribute was set before the rename started. -/
theorem rename_copies_removed_earlier_update : ∃ c,
    runFrom ((observed counter 0).restrict (untouched 0)) (startRename 0 relaxed superuser 5 (lit "/a")
      (lit "/b") (Local.mounted PathMapDB.empty) (fun _ => none) setsAttribute oneFile)
      (aroundUpdate [] [.done, .expired false, .done, .done, .done, .done, .done, .done, .done, .done]) = some c ∧
    (∀ m ∈ c.shared.2.moves, m.copied = m.removed.value) ∧ c.shared.2.moves ≠ [] := by
  have hrun : ((runFrom ((observed counter 0).restrict (untouched 0)) (startRename 0 relaxed superuser 5
      (lit "/a") (lit "/b") (Local.mounted PathMapDB.empty) (fun _ => none) setsAttribute oneFile)
      (aroundUpdate [] [.done, .expired false, .done, .done, .done, .done, .done, .done, .done, .done])).any
      fun c => (c.prog 0).result.map Prod.fst = some 0 ∧ c.shared.2.special = false) = true := by
    decide +kernel
  obtain ⟨c, hc, hdone⟩ := (Option.any_eq_true _ _).mp hrun
  obtain ⟨hret, hspecial⟩ := of_decide_eq_true hdone
  obtain ⟨⟨err, l'⟩, hresult, rfl⟩ := Option.map_eq_some_iff.mp hret
  have hall := rename_copies_removed counter 0 relaxed superuser 5 (lit "/a") (lit "/b")
    (mounted_cached oneFile PathMapDB.empty) setsAttribute_only hc
  exact ⟨c, hc, hall.1, hall.2 l' (Prog.result_eq_some.mp hresult) hspecial⟩

/-- If it is set after the rename has read `/a`, then it is lost. -/
theorem rename_loses_update : ¬ ∀ (uuid : Nat → Str) (me : Nat) (env : Env) (ctx : Context) (fuel : Nat)
    (pathFrom pathTo : Str) (s : Store) (l : Local) (clean : Nat → Option Source)
    (other : Nat → Prog Req Res (Int × Local)) (schedule : List (Nat × Choice))
    (c : Config Req Res (Store × Watch) Nat (Int × Local)) (l' : Local), Cached s l clean →
    (∀ i, i ≠ me → (other i).Only (Foreign me)) →
    runFrom (observed uuid me) (startRename me env ctx fuel pathFrom pathTo l clean other s) schedule = some c →
    c.prog me = .ret (0, l') → c.shared.2.special = false →
    ∀ m ∈ c.shared.2.moves, m.copied = m.removed.value := by
  intro h
  have hrun : ((runFrom (observed counter 0) (startRename 0 relaxed superuser 5
      (lit "/a") (lit "/b") (Local.mounted PathMapDB.empty) (fun _ => none) setsAttribute oneFile)
      (aroundUpdate [.done, .expired false, .done, .done] [.done, .done, .done, .done, .done, .done])).any
      fun c => (c.prog 0).result.map Prod.fst = some 0 ∧ c.shared.2.special = false ∧
        ∃ m ∈ c.shared.2.moves, m.copied ≠ m.removed.value) = true := by
    decide +kernel
  obtain ⟨c, hc, hdone⟩ := (Option.any_eq_true _ _).mp hrun
  obtain ⟨hret, hspecial, m, hm, hne⟩ := of_decide_eq_true hdone
  obtain ⟨⟨err, l'⟩, hresult, rfl⟩ := Option.map_eq_some_iff.mp hret
  exact hne (h counter 0 relaxed superuser 5 (lit "/a") (lit "/b") oneFile _ _ _ _ c l'
    (mounted_cached oneFile PathMapDB.empty) setsAttribute_only hc (Prog.result_eq_some.mp hresult) hspecial m hm)

end HFlat.Fuse.Renames
