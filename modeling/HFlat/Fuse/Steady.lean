/-
  Facts that no lookup destroys, whatever the service.

  A lookup reads metadata keys, takes over entries of the log and stores objects whose path permissions
  it has brought up to date. `Steady` is a fact about the snapshot of a client and the shared state that
  these requests keep; `Steady.lookup` says that every lookup keeps it.
-/
import HFlat.Fuse.Operations
import HFlat.Lib.Sequential

namespace HFlat.Fuse

open HFlat.Lib HFlat.PathMap HFlat.Permission
open HFlat.Replication (KineticRecord StatusCode)

/-- The requests of lookups. -/
def Req.ofLookup : Req → Bool
  | .get _ _ _ => true
  | .put _ _ why _ _ _ => why = .update
  | .expired _ => true
  | .databaseUpdate _ => true
  | _ => false

variable {S : Type} {sv : Service Req Res Choice S} {F : PathMapDB → S → Prop}

/-- The requests of lookups keep `F`, and so do newer snapshots. -/
structure Steady (sv : Service Req Res Choice S) (F : PathMapDB → S → Prop) : Prop where
  serve : ∀ {db s r choice x s'}, r.ofLookup = true → F db s → sv.serve s r choice = some (x, s') → F db s'
  update : ∀ {db s entries version db'}, F db s →
    updateSnapshot db entries db.snapshotVersion version = some db' → F db' s

/-- `F` is true of the snapshot of the client and the shared state. -/
def Held (F : PathMapDB → S → Prop) (l : Local) (s : S) : Prop := F l.pmap s

section Lookup

variable {me : Nat} {env : Env} {ctx : Context} {α : Type}

theorem held_modify {f : Local → Local} (hf : ∀ l, (f l).pmap = l.pmap) :
    Preserves sv (Held F) (modify f : Client Unit) := by
  apply Preserves.modify
  intro l s h
  unfold Held
  rw [hf]
  exact h

theorem held_setMdi (mdi : Nat) (f : MetadataInfo → MetadataInfo) : Preserves sv (Held F) (setMdi mdi f) :=
  held_modify fun _ => rfl

theorem held_setMD (mdi : Nat) (f : Inode → Inode) : Preserves sv (Held F) (setMD mdi f) :=
  held_setMdi mdi _

theorem held_cacheInvalidate (key : Str) : Preserves sv (Held F) (cacheInvalidate key) :=
  held_modify fun _ => rfl

theorem held_cacheBlock (key : Str) : Preserves sv (Held F) (cacheBlock key) := held_modify fun _ => rfl

theorem held_getMdi_bind {mdi : Nat} {f : MetadataInfo → Client α}
    (h : ∀ x, Preserves sv (Held F) (f x)) : Preserves sv (Held F) (getMdi mdi >>= f) :=
  fun l s hs => h (l.heap mdi) l s hs

theorem held_newMetadataInfo (key : Str) : Preserves sv (Held F) (newMetadataInfo key) :=
  Preserves.bind Preserves.get fun _ => Preserves.bind (held_modify fun _ => rfl) fun _ => Preserves.pure _

theorem held_cacheAdd (key : Str) (mdi : Nat) : Preserves sv (Held F) (cacheAdd key mdi) := by
  apply Preserves.bind Preserves.get
  intro l
  split
  · exact Preserves.stop
  · exact held_modify fun _ => rfl

theorem Steady.perform (hF : Steady sv F) {r : Req} (hr : r.ofLookup = true) :
    Preserves sv (Held F) (perform r) :=
  Preserves.call fun _ _ h _ _ _ hserve => hF.serve hr h hserve

theorem Steady.cacheGet (hF : Steady sv F) (key : Str) : Preserves sv (Held F) (cacheGet key) := by
  apply Preserves.bind Preserves.get
  intro l
  apply Preserves.ite Preserves.stop
  split
  · exact Preserves.pure _
  · apply Preserves.bind (hF.perform rfl)
    intro (b : Bool)
    exact Preserves.ite (Preserves.bind (held_cacheInvalidate _) fun _ => Preserves.pure _) (Preserves.pure _)

theorem Steady.getMetadata (hF : Steady sv F) (mdi : Nat) : Preserves sv (Held F) (getMetadata me mdi) := by
  apply held_getMdi_bind
  intro x
  apply Preserves.bind (hF.perform rfl)
  intro (record : Except StatusCode (KineticRecord Inode))
  split
  · exact Preserves.bind (held_setMdi _ _) fun _ => Preserves.pure _
  · exact Preserves.pure _
  · exact Preserves.pure _

theorem Steady.putMetadata (hF : Steady sv F) (mdi : Nat) :
    Preserves sv (Held F) (putMetadata me .update mdi) := by
  apply held_getMdi_bind
  intro x
  apply Preserves.bind (hF.perform rfl)
  rintro ⟨status, version⟩
  dsimp only
  split
  · exact Preserves.bind (held_setMdi _ _) fun _ => Preserves.pure _
  · exact Preserves.bind (held_cacheInvalidate _) fun _ =>
      Preserves.ite (Preserves.pure _) (Preserves.ite (Preserves.pure _) (Preserves.pure _))

theorem Steady.databaseUpdate (hF : Steady sv F) : Preserves sv (Held F) databaseUpdate := by
  intro l s h
  apply Post.get_bind
  apply Post.bind
  apply Post.call
  intro choice (entries : Except Int (List DbEntry)) s1 hserve
  have h1 : F l.pmap s1 := hF.serve rfl h hserve
  cases entries with
  | error err => exact Post.pure h1
  | ok entries =>
    dsimp only
    split
    · exact Post.stop
    · rename_i db hdb
      exact Post.modify_bind (Post.pure (hF.update h1 hdb))

section Parts

variable {lookup : Str → Option Nat → Client (Int × Option Nat)}

theorem held_lookupParentWith
    (hl : ∀ path pointer, Preserves sv (Held F) (lookup path pointer)) (path : Str) :
    Preserves sv (Held F) (lookupParentWith ctx lookup path) := by
  unfold Fuse.lookupParentWith
  split
  · exact Preserves.pure _
  · apply Preserves.bind (hl _ _)
    intro r
    apply Preserves.ite (Preserves.pure _)
    split
    · exact Preserves.stop
    · apply held_getMdi_bind
      intro x
      exact Preserves.ite (Preserves.pure _) (Preserves.pure _)

theorem Steady.inheritFromParent (hF : Steady sv F)
    (hl : ∀ path pointer, Preserves sv (Held F) (lookup path pointer)) (path : Str) (mdi parent : Nat) :
    Preserves sv (Held F) (inheritFromParent me env ctx lookup path mdi parent) := by
  apply held_getMdi_bind
  intro x
  apply Preserves.bind (held_setMD _ _)
  intro _
  apply Preserves.bind (hF.putMetadata _)
  intro err
  exact Preserves.ite (hl _ _)
    (Preserves.ite (Preserves.pure _) (held_getMdi_bind fun _ => Preserves.pure _))

theorem Steady.checkStale (hF : Steady sv F)
    (hl : ∀ path pointer, Preserves sv (Held F) (lookup path pointer)) (path : Str) (stamp : Int) (mdi : Nat) :
    Preserves sv (Held F) (checkStale me env ctx lookup path stamp mdi) := by
  apply held_getMdi_bind
  intro x
  refine Preserves.ite ?_ (held_getMdi_bind fun _ => Preserves.pure _)
  apply Preserves.bind (held_lookupParentWith hl path)
  intro r
  apply Preserves.ite (Preserves.pure _)
  split
  · exact Preserves.stop
  · exact hF.inheritFromParent hl _ _ _

theorem Steady.lookupFound (hF : Steady sv F)
    (hl : ∀ path pointer, Preserves sv (Held F) (lookup path pointer)) (path key : Str) (stamp : Int)
    (mdi : Nat) (cached : Bool) :
    Preserves sv (Held F) (lookupFound me env ctx lookup path key stamp mdi cached) := by
  apply held_getMdi_bind
  intro x
  apply Preserves.ite (Preserves.pure _)
  split
  · refine Preserves.ite ?_ (hl _ _)
    apply Preserves.bind (held_newMetadataInfo _)
    intro source
    apply Preserves.bind (held_setMD _ _)
    intro _
    exact Preserves.bind (held_cacheAdd _ _) fun _ => hl _ _
  · apply Preserves.bind hF.databaseUpdate
    intro err
    apply Preserves.bind (held_cacheInvalidate _)
    intro _
    exact Preserves.ite (Preserves.pure _) (hl _ _)
  · exact Preserves.ite (Preserves.bind (held_cacheAdd _ _) fun _ => hF.checkStale hl _ _ _)
      (hF.checkStale hl _ _ _)

theorem Steady.lookupStored (hF : Steady sv F)
    (hl : ∀ path pointer, Preserves sv (Held F) (lookup path pointer)) (path key : Str) (stamp : Int) :
    Preserves sv (Held F) (lookupStored me env ctx lookup path key stamp) := by
  apply Preserves.bind (held_cacheBlock _)
  intro _
  apply Preserves.bind (held_newMetadataInfo _)
  intro mdi
  apply Preserves.bind (hF.getMetadata _)
  intro err
  apply Preserves.ite
  · exact Preserves.bind (held_cacheAdd _ _) fun _ => hF.lookupFound hl _ _ _ _ _
  · exact Preserves.ite (Preserves.bind (held_cacheInvalidate _) fun _ => Preserves.pure _)
      (hF.lookupFound hl _ _ _ _ _)

end Parts

/-- Lookups keep what is steady. -/
theorem Steady.lookup (hF : Steady sv F) (fuel : Nat) (path : Str) (pointer : Option Nat) :
    Preserves sv (Held F) (lookup me env ctx fuel path pointer) := by
  induction fuel generalizing path pointer with
  | zero => exact Preserves.stop
  | succ fuel ih =>
    apply Preserves.bind Preserves.get
    intro l
    split
    · exact Preserves.stop
    · apply Preserves.ite (Preserves.pure _)
      apply Preserves.bind (hF.cacheGet _)
      intro o
      split
      · exact hF.lookupFound ih _ _ _ _ _
      · exact hF.lookupStored ih _ _ _

/-! ## Further parts of operations -/

theorem Steady.putMetadataForced (hF : Steady sv F) (mdi fuel : Nat) :
    Preserves sv (Held F) (putMetadataForced me mdi fuel) := by
  induction fuel with
  | zero => exact Preserves.stop
  | succ fuel ih =>
    refine (hF.putMetadata mdi).bind fun err => Preserves.ite (Preserves.pure _) ?_
    exact (hF.getMetadata mdi).bind fun err => Preserves.ite (Preserves.pure _) ih

theorem Steady.touchDirectory (hF : Steady sv F) (mdi fuel : Nat) :
    Preserves sv (Held F) (touchDirectory me env mdi fuel) :=
  Preserves.ite ((hF.putMetadataForced mdi fuel).bind fun _ => Preserves.pure _) (Preserves.pure _)

theorem Steady.databaseOperation (hF : Steady sv F)
    (happend : ∀ {db s version entry choice x s'}, F db s →
      sv.serve s (.append version entry) choice = some (x, s') → F db s') (entry : DbEntry) (fuel : Nat) :
    Preserves sv (Held F) (databaseOperation entry fuel) := by
  induction fuel with
  | zero => exact Preserves.stop
  | succ fuel ih =>
    intro l s h
    refine Post.get_bind (Post.bind (Post.call ?_))
    intro choice (status : StatusCode) s1 hserve
    have h1 : F l.pmap s1 := happend h hserve
    cases status with
    | OK =>
      dsimp only
      split
      · exact Post.stop
      · rename_i db hdb
        exact Post.modify_bind (Post.pure (hF.update h1 hdb))
    | REMOTE_VERSION_MISMATCH =>
      refine (hF.databaseUpdate l s1 h1).then fun err l2 s2 h2 => ?_
      exact Post.ite (fun _ => Post.pure h2) fun _ => ih l2 s2 h2
    | _ => exact Post.pure h1

end Lookup

end HFlat.Fuse
