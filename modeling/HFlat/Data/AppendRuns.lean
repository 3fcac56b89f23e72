/-
  Appends that do not overwrite each other, along every run.

  `Inv` says that the claims of all clients are apart from each other and end within the stored size,
  and that every block is the first one with the writes of claims. A `Put` of the metadata key that
  is `serialized` adds a claim past all others, a `Put` of a block takes effect for the pending claim
  of its client.
-/
import HFlat.Data.Append
import HFlat.Fuse.Operations

namespace HFlat.Data.File.Append

open HFlat.Lib HFlat.Lib.Block
open HFlat.Permission (Env Context)
open HFlat.Fuse (Inode posix superuser)
open HFlat.Replication (KineticRecord StatusCode versionOf putSame)

/-! ## The invariant -/

/-- No byte belongs to both claims. -/
def ClaimsApart (c c' : Claim) : Prop := c.1 = c'.1 → Apart c.2 c'.2

theorem ClaimsApart.symm {c c' : Claim} (h : ClaimsApart c c') : ClaimsApart c' c :=
  fun he u hu v hv i hi hi' => h he.symm v hv u hu i hi' hi

instance : Std.Symm ClaimsApart := ⟨fun _ _ h => h.symm⟩

/-- The first version of the metadata key, or one generated before. -/
def SeenBefore (uuid : Nat → Str) (first : Str) (n : Nat) (version : Str) : Prop :=
  version = first ∨ ∃ m < n, version = uuid m

/-- The versions that `generate_uuid` returns for the metadata key are all different, and not the first. -/
structure Fresh (uuid : Nat → Str) (first : Str) : Prop where
  injective : Function.Injective uuid
  ne_first : ∀ n, uuid n ≠ first

variable {ι : Type} {uuid : Nat → Str} {dataUuid : Nat → Nat → Str} {record : Option (KineticRecord Inode)}
variable {blocks : Nat → Option (KineticRecord Str)} {blocksize : Nat} {s : Store} {t : ι → Stage}

theorem SeenBefore.mono {first version : Str} {n m : Nat} (h : SeenBefore uuid first n version) (hle : n ≤ m) :
    SeenBefore uuid first m version := by
  obtain h | ⟨k, hk, h⟩ := h
  · exact Or.inl h
  · exact Or.inr ⟨k, by omega, h⟩

theorem Fresh.ne {first version : Str} {n : Nat} (hf : Fresh uuid first) (h : SeenBefore uuid first n version) :
    version ≠ uuid n := by
  rintro rfl
  obtain h | ⟨k, hk, h⟩ := h
  · exact hf.ne_first n h
  · exact absurd (hf.injective h) (by omega)

/-- A version of the metadata key with the size that was stored under it. -/
structure SizeSeen (uuid : Nat → Str) (first : Str) (s : Store) (version : Str) (size : Nat) : Prop where
  current : version = versionOf s.record → size = storedSize s.record
  before : SeenBefore uuid first s.uuids version

/-- The claims of the clients, and the size of the file. -/
structure ClaimsInv (blocksize size : Nat) (t : ι → Stage) : Prop where
  within : ∀ i, ∀ c ∈ (t i).all, ∀ u ∈ c.2, blocksize * c.1 + u.stop ≤ size
  own : ∀ i, (t i).all.Pairwise ClaimsApart
  across : ∀ i j, i ≠ j → ∀ c ∈ (t i).all, ∀ c' ∈ (t j).all, ClaimsApart c c'

/-- What was written to the blocks belongs to claims. -/
structure FlushedInv (states : Nat → Data.State) (t : ι → Stage) : Prop where
  claimed : ∀ b, ∀ calls ∈ (states b).flushed, ∃ i, (b, calls) ∈ (t i).all
  stored : ∀ i, ∀ c ∈ (t i).stored, c.2 ∈ (states c.1).flushed

/-- The invariant: what the clients know is true, and nobody's block ends beyond the size that is stored
    or still to be stored. -/
structure Inv (uuid : Nat → Str) (dataUuid : Nat → Nat → Str) (record : Option (KineticRecord Inode))
    (blocks : Nat → Option (KineticRecord Str)) (blocksize : Nat) (s : Store) (t : ι → Stage) : Prop where
  block : ∀ b, BlockInv (dataUuid b) (blocks b) (s.blocks b) fun i => (t i).known b
  version : SeenBefore uuid (versionOf record) s.uuids (versionOf s.record)
  seen : ∀ i, ∀ p ∈ (t i).seen, SizeSeen uuid (versionOf record) s p.1 p.2
  claims : ClaimsInv blocksize (storedSize s.record) t
  flushed : FlushedInv s.blocks t

theorem ClaimsInv.mono {size size' : Nat} (h : ClaimsInv blocksize size t) (hle : size ≤ size') :
    ClaimsInv blocksize size' t :=
  ⟨fun j c hc u hu => (h.within j c hc u hu).trans hle, h.own, h.across⟩

theorem ClaimsInv.congr {size : Nat} (h : ClaimsInv blocksize size t) {t1 : ι → Stage}
    (he : ∀ j, (t1 j).all = (t j).all) : ClaimsInv blocksize size t1 := by
  refine ⟨fun j => ?_, fun j => ?_, fun j k hjk => ?_⟩
  · rw [he]
    exact h.within j
  · rw [he]
    exact h.own j
  · rw [he, he]
    exact h.across j k hjk

/-! ### The metadata key -/

/-- A version is generated and not used. -/
theorem Inv.skip (h : Inv uuid dataUuid record blocks blocksize s t) :
    Inv uuid dataUuid record blocks blocksize { s with uuids := s.uuids + 1 } t :=
  ⟨h.block, h.version.mono (Nat.le_succ _),
    fun j p hp => ⟨(h.seen j p hp).current, (h.seen j p hp).before.mono (Nat.le_succ _)⟩, h.claims, h.flushed⟩

/-- The metadata key is stored. -/
theorem Inv.stored (hf : Fresh uuid (versionOf record)) (h : Inv uuid dataUuid record blocks blocksize s t)
    {md : Inode} (hsize : storedSize s.record ≤ md.size) : Inv uuid dataUuid record blocks blocksize
      { s with record := some ⟨md, uuid s.uuids⟩, uuids := s.uuids + 1 } t ∧
    SizeSeen uuid (versionOf record) { s with record := some ⟨md, uuid s.uuids⟩, uuids := s.uuids + 1 }
      (uuid s.uuids) md.size := by
  have hnew : SeenBefore uuid (versionOf record) (s.uuids + 1) (uuid s.uuids) :=
    Or.inr ⟨s.uuids, Nat.lt_succ_self _, rfl⟩
  refine ⟨⟨h.block, hnew, fun j p hp => ?_, h.claims.mono hsize, h.flushed⟩, fun _ => rfl, hnew⟩
  have hseen := h.seen j p hp
  exact ⟨fun he => absurd he (hf.ne hseen.before), hseen.before.mono (Nat.le_succ _)⟩

theorem put_eq_of_version {expected : Str} {md : Inode} (h : versionOf s.record = expected) :
    s.put uuid expected md = (.OK, { s with record := some ⟨md, uuid s.uuids⟩, uuids := s.uuids + 1 }) := by
  unfold Store.put putSame
  rw [if_pos h]

theorem put_eq_of_ne_version {expected : Str} {md : Inode} (h : versionOf s.record ≠ expected) :
    s.put uuid expected md = (.REMOTE_VERSION_MISMATCH, { s with uuids := s.uuids + 1 }) := by
  unfold Store.put putSame
  rw [if_neg h]

/-- What a `Put` of the metadata key that is carried out leaves, whether or not it is answered. -/
theorem Inv.put (hf : Fresh uuid (versionOf record)) (h : Inv uuid dataUuid record blocks blocksize s t)
    {expected : Str} {md : Inode} (hsize : versionOf s.record = expected → storedSize s.record ≤ md.size) :
    Inv uuid dataUuid record blocks blocksize (s.put uuid expected md).2 t ∧
      ((s.put uuid expected md).1 = .OK → versionOf s.record = expected ∧
        storedSize (s.put uuid expected md).2.record = md.size ∧
        SizeSeen uuid (versionOf record) (s.put uuid expected md).2 (uuid s.uuids) md.size) := by
  by_cases hversion : versionOf s.record = expected
  · obtain ⟨hinv, hseen⟩ := h.stored hf (hsize hversion)
    rw [put_eq_of_version hversion]
    exact ⟨hinv, fun _ => ⟨hversion, rfl, hseen⟩⟩
  · rw [put_eq_of_ne_version hversion]
    exact ⟨h.skip, fun hok => by cases hok⟩

theorem put_failed {t : Stage} {md : Inode} {status : StatusCode} {version : Str} (h : status ≠ .OK)
    (why : Purpose) : t.put md (status, version) why = t := by
  cases why with
  | inherit dirty => exact if_neg h
  | flush block calls newsize => exact if_neg h

/-- Of a `Put` of the metadata key that is carried out: how the stored size compares, and the claim. -/
theorem size_of_allowed {i : ι} (h : Inv uuid dataUuid record blocks blocksize s t) {why : Purpose} {expected : Str}
    {md : Inode} {choice : Choice} (hallowed : Allowed blocksize (t i) (.put why expected md))
    (hserialized : serialized blocksize s (.put why expected md) choice = true)
    (hchoice : choice ≠ .access .unreachable) (hversion : versionOf s.record = expected) :
    storedSize s.record ≤ md.size ∧ ∀ block calls newsize, why = .flush block calls newsize →
      (∀ u ∈ calls, storedSize s.record ≤ blocksize * block + u.offset) ∧
        ∀ u ∈ calls, blocksize * block + u.stop ≤ md.size := by
  cases why with
  | inherit dirty =>
    have hsize : md.size = storedSize s.record := (h.seen i _ hallowed).current hversion.symm
    exact ⟨hsize.ge, fun _ _ _ he => by cases he⟩
  | flush block calls newsize =>
    obtain ⟨hmd, ⟨size, hseen, hle⟩, hstop⟩ := hallowed
    have hsize : size = storedSize s.record := (h.seen i _ hseen).current hversion.symm
    have hcondition : (∀ u ∈ calls, storedSize s.record ≤ blocksize * block + u.offset) ∧ newsize < 2 ^ 32 := by
      have hall : decide (versionOf s.record = expected → (∀ u ∈ calls,
          storedSize s.record ≤ blocksize * block + u.offset) ∧ newsize < 2 ^ 32) = true := by
        unfold serialized at hserialized
        split at hserialized
        all_goals grind
      exact of_decide_eq_true hall hversion
    rw [Nat.mod_eq_of_lt hcondition.2] at hmd
    refine ⟨by omega, fun block' calls' newsize' he => ?_⟩
    cases he
    rw [hmd]
    exact ⟨hcondition.1, hstop⟩

/-! ### The blocks -/

/-- What an access adds to the writes of a block. -/
theorem flushed_of_serve {uuid : Nat → Str} {d d' : Data.State} {choice : Data.Choice} :
    ∀ {r : Data.Req} {x : Data.Res r}, Data.serve uuid d r choice = some (x, d') →
      match r, x with
      | .get, _ => d'.flushed = d.flushed
      | .put _ _ calls, x => d'.flushed = d.flushed ++ [calls] ∨ d'.flushed = d.flushed ∧ x.1 ≠ StatusCode.OK := by
  intro r x hserve
  cases r with
  | get =>
    cases choice with
    | done =>
      simp only [Data.serve] at hserve
      split at hserve
      all_goals
        cases hserve
        rfl
    | unreachable =>
      cases hserve
      rfl
    | lost => cases hserve
  | put expected data calls =>
    have hput : (d.put uuid expected data calls).2.flushed = d.flushed ++ [calls] ∨
        (d.put uuid expected data calls).2.flushed = d.flushed ∧ (d.put uuid expected data calls).1 ≠ .OK := by
      by_cases hok : (d.put uuid expected data calls).1 = .OK
      · exact Or.inl (if_pos hok)
      · exact Or.inr ⟨if_neg hok, hok⟩
    cases choice with
    | done =>
      cases hserve
      exact hput
    | unreachable =>
      cases hserve
      exact Or.inr ⟨rfl, fun he => by cases he⟩
    | lost =>
      cases hserve
      exact hput.imp_right fun h => ⟨h.1, fun he => by cases he⟩

/-! ### Steps of one client -/

section Update

variable [DecidableEq ι] {i : ι} {t' : Stage}

/-- What a client knows of a block after a step. -/
theorem known_update {b : Nat} : (fun j => (Function.update t i t' j).known b) =
    Function.update (fun j => (t j).known b) i (t'.known b) := by
  funext j
  by_cases hj : j = i
  · subst hj
    rw [Function.update_self, Function.update_self]
  · rw [Function.update_of_ne hj, Function.update_of_ne hj]

theorem all_update (h : t'.all = (t i).all) (j : ι) : (Function.update t i t' j).all = (t j).all := by
  by_cases hj : j = i
  · subst hj
    rw [Function.update_self, h]
  · rw [Function.update_of_ne hj]

theorem all_mono_update (h : ∀ c ∈ (t i).all, c ∈ t'.all) (j : ι) :
    ∀ c ∈ (t j).all, c ∈ (Function.update t i t' j).all := by
  by_cases hj : j = i
  · subst hj
    rw [Function.update_self]
    exact h
  · rw [Function.update_of_ne hj]
    exact fun _ hc => hc

/-- A claim past all others. -/
theorem ClaimsInv.claim {size size' : Nat} (h : ClaimsInv blocksize size t) {c : Claim}
    (hstart : ∀ u ∈ c.2, size ≤ blocksize * c.1 + u.offset) (hstop : ∀ u ∈ c.2, blocksize * c.1 + u.stop ≤ size')
    (hle : size ≤ size') (ht' : t'.all = c :: (t i).all) : ClaimsInv blocksize size' (Function.update t i t') := by
  have hpast : ∀ j, ∀ c' ∈ (t j).all, ClaimsApart c c' := by
    intro j c' hc' he u hu v hv k hk hk'
    have hend := h.within j c' hc' v hv
    have hbegin := hstart u hu
    rw [← he] at hend
    have h1 : u.offset ≤ k := hk.1
    have h2 : k < v.stop := hk'.2
    omega
  refine ⟨?_, ?_, fun j k hjk => ?_⟩
  · refine (Function.forall_update_iff t fun _ x => ∀ c' ∈ x.all, ∀ u ∈ c'.2, blocksize * c'.1 + u.stop ≤ size').mpr
      ⟨?_, fun j _ => (h.mono hle).within j⟩
    rw [ht']
    exact List.forall_mem_cons.mpr ⟨hstop, (h.mono hle).within i⟩
  · refine (Function.forall_update_iff t fun _ x => x.all.Pairwise ClaimsApart).mpr ⟨?_, fun j _ => h.own j⟩
    rw [ht']
    exact List.pairwise_cons.mpr ⟨hpast i, h.own i⟩
  · by_cases hj : j = i
    · subst hj
      rw [Function.update_self, Function.update_of_ne (Ne.symm hjk), ht']
      exact List.forall_mem_cons.mpr ⟨hpast k, h.across j k hjk⟩
    · rw [Function.update_of_ne hj]
      by_cases hk : k = i
      · subst hk
        rw [Function.update_self, ht']
        intro c' hc'
        exact List.forall_mem_cons.mpr ⟨(hpast j c' hc').symm, h.across j k hjk c' hc'⟩
      · rw [Function.update_of_ne hk]
        exact h.across j k hjk

/-- A step of a client that stores no block. -/
theorem Inv.update (h : Inv uuid dataUuid record blocks blocksize s t) (hknown : t'.known = (t i).known)
    (hseen : ∀ p ∈ t'.seen, SizeSeen uuid (versionOf record) s p.1 p.2)
    (hclaims : ClaimsInv blocksize (storedSize s.record) (Function.update t i t'))
    (hall : ∀ c ∈ (t i).all, c ∈ t'.all) (hstored : t'.stored = (t i).stored) :
    Inv uuid dataUuid record blocks blocksize s (Function.update t i t') := by
  refine ⟨fun b => ?_, h.version, ?_, hclaims, ⟨fun b calls hcalls => ?_, ?_⟩⟩
  · rw [known_update, hknown, Function.update_eq_self i fun j => (t j).known b]
    exact h.block b
  · exact (Function.forall_update_iff t fun _ x => ∀ p ∈ x.seen, SizeSeen uuid (versionOf record) s p.1 p.2).mpr
      ⟨hseen, fun j _ => h.seen j⟩
  · obtain ⟨j, hj⟩ := h.flushed.claimed b calls hcalls
    exact ⟨j, all_mono_update hall j _ hj⟩
  · refine (Function.forall_update_iff t fun _ x => ∀ c ∈ x.stored, c.2 ∈ (s.blocks c.1).flushed).mpr
      ⟨?_, fun j _ => h.flushed.stored j⟩
    rw [hstored]
    exact h.flushed.stored i

theorem Inv.saw (h : Inv uuid dataUuid record blocks blocksize s t) {version : Str} {size : Nat}
    (hp : SizeSeen uuid (versionOf record) s version size) : Inv uuid dataUuid record blocks blocksize s
      (Function.update t i { t i with seen := (version, size) :: (t i).seen }) :=
  h.update rfl (List.forall_mem_cons.mpr ⟨hp, h.seen i⟩) (h.claims.congr (all_update rfl)) (fun _ hc => hc) rfl

/-- The client learns that its `Put` of the metadata key was carried out. -/
theorem Inv.put_ok (h : Inv uuid dataUuid record blocks blocksize s t) {why : Purpose} {md : Inode} {version : Str}
    {size : Nat} (hsize : storedSize s.record = md.size) (hle : size ≤ md.size)
    (hold : ClaimsInv blocksize size t)
    (hseen : SizeSeen uuid (versionOf record) s version md.size)
    (hclaim : ∀ block calls newsize, why = .flush block calls newsize →
      (∀ u ∈ calls, size ≤ blocksize * block + u.offset) ∧ ∀ u ∈ calls, blocksize * block + u.stop ≤ md.size) :
    Inv uuid dataUuid record blocks blocksize s (Function.update t i ((t i).put md (.OK, version) why)) := by
  cases why with
  | inherit dirty => exact h.saw hseen
  | flush block calls newsize =>
    obtain ⟨hstart, hstop⟩ := hclaim block calls newsize rfl
    refine h.update rfl (List.forall_mem_cons.mpr ⟨hseen, h.seen i⟩) ?_ (fun c hc => List.mem_cons_of_mem _ hc) rfl
    rw [hsize]
    exact hold.claim (c := (block, calls)) hstart hstop hle rfl

theorem sound_put (hf : Fresh uuid (versionOf record)) (h : Inv uuid dataUuid record blocks blocksize s t)
    {why : Purpose} {expected : Str} {md : Inode} {choice : Choice} {x : StatusCode × Str} {s' : Store}
    (hallowed : Allowed blocksize (t i) (.put why expected md))
    (hserialized : serialized blocksize s (.put why expected md) choice = true)
    (hserve : serve uuid dataUuid s (.put why expected md) choice = some (x, s')) :
    Answered (t i) (.put why expected md) x ∧
      Inv uuid dataUuid record blocks blocksize s' (Function.update t i ((t i).put md x why)) := by
  have hsame : ∀ {s1 : Store} {version : Str}, Inv uuid dataUuid record blocks blocksize s1 t →
      Inv uuid dataUuid record blocks blocksize s1
        (Function.update t i ((t i).put md (.REMOTE_REMOTE_CONNECTION_ERROR, version) why)) := by
    intro s1 version h1
    rw [put_failed (by decide), Function.update_eq_self]
    exact h1
  have hunanswered : ∀ version : Str,
      Answered (t i) (.put why expected md) (StatusCode.REMOTE_REMOTE_CONNECTION_ERROR, version) := by
    intro version
    cases why with
    | inherit dirty =>
      cases dirty with
      | false => trivial
      | true => exact fun he => by cases he
    | flush block calls newsize => trivial
  have hcarried : choice ≠ .access .unreachable → versionOf s.record = expected →
      storedSize s.record ≤ md.size ∧ ∀ block calls newsize, why = .flush block calls newsize →
        (∀ u ∈ calls, storedSize s.record ≤ blocksize * block + u.offset) ∧
          ∀ u ∈ calls, blocksize * block + u.stop ≤ md.size :=
    size_of_allowed h hallowed hserialized
  cases choice with
  | expired b => cases hserve
  | stamp n => cases hserve
  | parent y => cases hserve
  | access choice =>
    cases choice with
    | unreachable =>
      cases hserve
      exact ⟨hunanswered _, hsame h.skip⟩
    | lost =>
      cases hserve
      exact ⟨hunanswered _, hsame (h.put hf fun hv => (hcarried (fun he => by cases he) hv).1).1⟩
    | done =>
      cases hserve
      have hdone : Choice.access .done ≠ .access .unreachable := fun he => by cases he
      obtain ⟨hinv, hok⟩ := h.put hf fun hv => (hcarried hdone hv).1
      by_cases hversion : versionOf s.record = expected
      · obtain ⟨hle, hclaim⟩ := hcarried hdone hversion
        have hstatus : (s.put uuid expected md).1 = .OK := by rw [put_eq_of_version hversion]
        obtain ⟨-, hsize, hseen⟩ := hok hstatus
        rw [hstatus]
        refine ⟨?_, hinv.put_ok hsize hle h.claims hseen hclaim⟩
        cases why with
        | inherit dirty =>
          cases dirty with
          | false => trivial
          | true => exact fun he => by cases he
        | flush block calls newsize => trivial
      · have hstatus : (s.put uuid expected md).1 = .REMOTE_VERSION_MISMATCH := by
          rw [put_eq_of_ne_version hversion]
        rw [hstatus, put_failed (by decide), Function.update_eq_self]
        refine ⟨?_, hinv⟩
        cases why with
        | inherit dirty =>
          cases dirty with
          | false => trivial
          | true => exact absurd (of_decide_eq_true hserialized rfl) hversion
        | flush block calls newsize => trivial

/-- An access to a block, which leaves the claims alone. -/
theorem Inv.data (h : Inv uuid dataUuid record blocks blocksize s t) {block : Nat} {d : Data.State} {known : Known}
    (hblock : BlockInv (dataUuid block) (blocks block) d (Function.update (fun j => (t j).known block) i known))
    (hknown : t'.known = Function.update (t i).known block known) (hseen : t'.seen = (t i).seen)
    (hall : t'.all = (t i).all)
    (hflushed : FlushedInv (Function.update s.blocks block d) (Function.update t i t')) :
    Inv uuid dataUuid record blocks blocksize { s with blocks := Function.update s.blocks block d }
      (Function.update t i t') := by
  refine ⟨fun b => ?_, h.version, ?_, h.claims.congr (all_update hall), hflushed⟩
  · rw [known_update, hknown]
    show BlockInv (dataUuid b) (blocks b) (Function.update s.blocks block d b) _
    by_cases hb : b = block
    · subst hb
      rw [Function.update_self, Function.update_self]
      exact hblock
    · rw [Function.update_of_ne hb, Function.update_of_ne hb, Function.update_eq_self i fun j => (t j).known b]
      exact h.block b
  · refine (Function.forall_update_iff t fun _ x => ∀ p ∈ x.seen, SizeSeen uuid (versionOf record) _ p.1 p.2).mpr
      ⟨?_, fun j _ p hp => ⟨(h.seen j p hp).current, (h.seen j p hp).before⟩⟩
    rw [hseen]
    exact fun p hp => ⟨(h.seen i p hp).current, (h.seen i p hp).before⟩

/-- Nothing is written. -/
theorem FlushedInv.same (h : FlushedInv s.blocks t) {block : Nat} {d : Data.State}
    (hd : d.flushed = (s.blocks block).flushed) (hall : t'.all = (t i).all) (hstored : t'.stored = (t i).stored) :
    FlushedInv (Function.update s.blocks block d) (Function.update t i t') := by
  have hflushed : ∀ b, (Function.update s.blocks block d b).flushed = (s.blocks b).flushed := by
    intro b
    by_cases hb : b = block
    · subst hb
      rw [Function.update_self, hd]
    · rw [Function.update_of_ne hb]
  refine ⟨fun b calls hcalls => ?_, ?_⟩
  · rw [hflushed] at hcalls
    obtain ⟨j, hj⟩ := h.claimed b calls hcalls
    exact ⟨j, (all_update hall j).symm ▸ hj⟩
  · refine (Function.forall_update_iff t fun _ x => ∀ c ∈ x.stored,
      c.2 ∈ (Function.update s.blocks block d c.1).flushed).mpr ⟨?_, fun j _ c hc => ?_⟩
    · intro c hc
      rw [hstored] at hc
      rw [hflushed]
      exact h.stored i c hc
    · rw [hflushed]
      exact h.stored j c hc

/-- The pending claim is written, and maybe acknowledged. -/
theorem FlushedInv.write (h : FlushedInv s.blocks t) {block : Nat} {calls : List (Update Char)} {d : Data.State}
    (hd : d.flushed = (s.blocks block).flushed ++ [calls]) (hmem : (block, calls) ∈ (t i).all)
    (hall : t'.all = (t i).all) (hstored : ∀ c ∈ t'.stored, c = (block, calls) ∨ c ∈ (t i).stored) :
    FlushedInv (Function.update s.blocks block d) (Function.update t i t') := by
  have hkeep : ∀ b, ∀ us ∈ (s.blocks b).flushed, us ∈ (Function.update s.blocks block d b).flushed := by
    intro b us hus
    by_cases hb : b = block
    · subst hb
      rw [Function.update_self, hd]
      exact List.mem_append_left _ hus
    · rw [Function.update_of_ne hb]
      exact hus
  refine ⟨fun b us hus => ?_, ?_⟩
  · have hold : us ∈ (s.blocks b).flushed ∨ b = block ∧ us = calls := by
      by_cases hb : b = block
      · subst hb
        rw [Function.update_self, hd] at hus
        exact (List.mem_append.mp hus).imp_right fun hus => ⟨rfl, List.mem_singleton.mp hus⟩
      · rw [Function.update_of_ne hb] at hus
        exact Or.inl hus
    rcases hold with hold | ⟨rfl, rfl⟩
    · obtain ⟨j, hj⟩ := h.claimed b us hold
      exact ⟨j, (all_update hall j).symm ▸ hj⟩
    · exact ⟨i, (all_update hall i).symm ▸ hmem⟩
  · refine (Function.forall_update_iff t fun _ x => ∀ c ∈ x.stored,
      c.2 ∈ (Function.update s.blocks block d c.1).flushed).mpr ⟨?_, fun j _ c hc => hkeep _ _ (h.stored j c hc)⟩
    intro c hc
    rcases hstored c hc with rfl | hc
    · show calls ∈ (Function.update s.blocks block d block).flushed
      rw [Function.update_self, hd]
      exact List.mem_append_right _ (List.mem_singleton_self _)
    · exact hkeep _ _ (h.stored i c hc)

theorem sound_data (hu : ∀ b, Unique (dataUuid b) (blocks b)) (h : Inv uuid dataUuid record blocks blocksize s t)
    {block : Nat} {serial : Bool} {r : Data.Req} {choice : Choice} {x : Data.Res r} {s' : Store}
    (hallowed : Allowed blocksize (t i) (.data block serial r))
    (hserialized : serialized blocksize s (.data block serial r) choice = true)
    (hserve : serve uuid dataUuid s (.data block serial r) choice = some (x, s')) :
    Answered (t i) (.data block serial r) x ∧
      Inv uuid dataUuid record blocks blocksize s' (Function.update t i (next (t i) (.data block serial r) x)) := by
  cases choice with
  | expired b => cases hserve
  | stamp n => cases hserve
  | parent y => cases hserve
  | access choice =>
    obtain ⟨⟨y, d⟩, hd, he⟩ := Option.map_eq_some_iff.mp hserve
    obtain ⟨rfl, rfl⟩ : y = x ∧ { s with blocks := Function.update s.blocks block d } = s' := Prod.ext_iff.mp he
    have hflushed := flushed_of_serve hd
    cases r with
    | get =>
      obtain ⟨hanswers, hblock⟩ := Data.sound (hu block) _ _ i .get _ _ _ (h.block block) trivial hd
      exact ⟨hanswers, h.data hblock rfl rfl rfl (h.flushed.same hflushed rfl rfl)⟩
    | put expected data calls =>
      obtain ⟨hput, hpending⟩ := hallowed
      obtain ⟨-, hblock⟩ := Data.sound (hu block) _ _ i _ _ _ _ (h.block block) hput hd
      have hserial : serial = true := hserialized
      have hp : (t i).pending = some (block, calls) := hpending hserial
      have hmem : (block, calls) ∈ (t i).all := by
        unfold Stage.all
        rw [hp]
        exact List.mem_cons_self
      have hall : ((t i).putData block serial calls y).all = (t i).all := by
        unfold Stage.putData Stage.all
        split
        · rw [hp]
          rfl
        · rfl
      have hseen : ((t i).putData block serial calls y).seen = (t i).seen := by
        unfold Stage.putData
        split <;> rfl
      have hknown : ((t i).putData block serial calls y).known = (t i).known := by
        unfold Stage.putData
        split <;> rfl
      refine ⟨hserial, h.data hblock (congrArg (Function.update · block _) hknown) hseen hall ?_⟩
      rcases hflushed with hflushed | ⟨hflushed, hne⟩
      · refine h.flushed.write hflushed hmem hall fun c hc => ?_
        have hc' : c ∈ ((t i).putData block serial calls y).stored := hc
        unfold Stage.putData at hc'
        split at hc'
        · exact List.mem_cons.mp hc'
        · exact Or.inr hc'
      · refine h.flushed.same hflushed hall ?_
        show ((t i).putData block serial calls y).stored = (t i).stored
        unfold Stage.putData
        rw [if_neg fun hok => hne hok.1]

theorem sound (hf : Fresh uuid (versionOf record)) (hu : ∀ b, Unique (dataUuid b) (blocks b)) :
    Sound ((service uuid dataUuid).restrict (serialized blocksize)) (fun _ : ι => protocol blocksize)
      (Inv uuid dataUuid record blocks blocksize) := by
  intro s t i r choice x s' h hallowed hserve
  obtain ⟨hserialized, hserve⟩ := serve_restrict hserve
  have hsame : Inv uuid dataUuid record blocks blocksize s (Function.update t i (t i)) := by
    rw [Function.update_eq_self]
    exact h
  cases r with
  | put why expected md => exact sound_put hf h hallowed hserialized hserve
  | data block serial r => exact sound_data hu h hallowed hserialized hserve
  | get =>
    cases choice with
    | access choice =>
      cases choice with
      | done =>
        simp only [service, serve] at hserve
        split at hserve
        · rename_i r hr
          cases hserve
          refine ⟨trivial, h.saw ⟨fun _ => ?_, ?_⟩⟩
          · rw [hr]
            rfl
          · have hversion := h.version
            rw [hr] at hversion
            exact hversion
        · cases hserve
          exact ⟨trivial, hsame⟩
      | unreachable =>
        cases hserve
        exact ⟨trivial, hsame⟩
      | lost => cases hserve
    | _ => cases hserve
  | parent =>
    cases choice with
    | parent y =>
      cases y with
      | ok md =>
        cases hserve
        exact ⟨fun err he => (by cases he), hsame⟩
      | error err =>
        obtain ⟨hneg, he⟩ := Option.ite_none_right_eq_some.mp hserve
        cases he
        refine ⟨fun err' he => ?_, hsame⟩
        cases he
        exact hneg.1
    | _ => cases hserve
  | stamp =>
    cases choice with
    | stamp n =>
      cases hserve
      exact ⟨trivial, hsame⟩
    | _ => cases hserve
  | expired =>
    cases choice with
    | expired b =>
      cases hserve
      exact ⟨trivial, hsame⟩
    | _ => cases hserve
  | dataExpired block =>
    cases choice with
    | expired b =>
      cases hserve
      exact ⟨trivial, hsame⟩
    | _ => cases hserve

end Update

theorem inv_start (hu : ∀ b, Unique (dataUuid b) (blocks b)) :
    Inv uuid dataUuid record blocks blocksize (Store.start record blocks) fun _ : ι => Stage.start := by
  refine ⟨fun b => Data.blockInv_start (hu b) fun _ => [], Or.inl rfl, fun i p hp => (by cases hp), ⟨fun i c hc => ?_,
    fun i => List.Pairwise.nil, fun i j _ c hc => ?_⟩, ⟨fun b calls hcalls => (by cases hcalls), fun i c hc => ?_⟩⟩
  all_goals cases hc

/-! ## Acknowledged appends -/

/-- The bytes of the append are in the stored block. -/
def Present (blocksize : Nat) (s : Store) (ack : Ack) : Prop :=
  ((blockOf (s.blocks (ack.1 / blocksize)).record).drop (ack.1 % blocksize)).take ack.2.length = ack.2

/-- The byte ranges of the two appends are disjoint. -/
def Separate (a b : Ack) : Prop := a.1 + a.2.length ≤ b.1 ∨ b.1 + b.2.length ≤ a.1

theorem separate_of_lt {a b : Ack} {c : Claim} (h : AckOf blocksize a c) (hlt : a.1 / blocksize < b.1 / blocksize) :
    a.1 + a.2.length ≤ b.1 := by
  have ha := Nat.div_add_mod a.1 blocksize
  have hb := Nat.div_mul_le_self b.1 blocksize
  have hnext : (a.1 / blocksize + 1) * blocksize ≤ b.1 / blocksize * blocksize := Nat.mul_le_mul_right _ hlt
  have hinside := h.inside
  rw [start_eq_mod] at hinside
  rw [Nat.mul_comm] at ha
  rw [Nat.add_mul, Nat.one_mul] at hnext
  omega

theorem separate_of_apart {a b : Ack} {c d : Claim} (ha : AckOf blocksize a c) (hb : AckOf blocksize b d)
    (h : ClaimsApart c d) : Separate a b := by
  rcases Nat.lt_trichotomy (a.1 / blocksize) (b.1 / blocksize) with hlt | heq | hlt
  · exact Or.inl (separate_of_lt ha hlt)
  · -- in one block: a byte of both ranges would be one of both claims
    obtain ⟨calls, hcalls⟩ := ha.last
    obtain ⟨calls', hcalls'⟩ := hb.last
    have hu : ⟨a.1 - a.1 / blocksize * blocksize, a.2⟩ ∈ c.2 := by
      rw [hcalls]
      exact List.mem_append_right _ (List.mem_singleton_self _)
    have hv : ⟨b.1 - b.1 / blocksize * blocksize, b.2⟩ ∈ d.2 := by
      rw [hcalls']
      exact List.mem_append_right _ (List.mem_singleton_self _)
    have hblock : c.1 = d.1 := by rw [ha.block, hb.block, heq]
    have hapart := h hblock _ hu _ hv (max (a.1 % blocksize) (b.1 % blocksize))
    have hdiv := Nat.div_add_mod a.1 blocksize
    have hdiv' := Nat.div_add_mod b.1 blocksize
    have hpos : 0 < a.2.length := List.length_pos_iff.mpr ha.nonempty
    have hpos' : 0 < b.2.length := List.length_pos_iff.mpr hb.nonempty
    unfold Update.Covers Update.stop at hapart
    simp only [start_eq_mod] at hapart
    unfold Separate
    rw [heq] at hdiv
    omega
  · exact Or.inr (separate_of_lt hb hlt)

theorem present_of_stored (h : Inv uuid dataUuid record blocks blocksize s t) {i : ι} (hsub : (t i).stored ⊆ (t i).all)
    {ack : Ack} {c : Claim} (hack : AckOf blocksize ack c) (hc : c ∈ (t i).stored) : Present blocksize s ack := by
  have hwritten : c.2 ∈ (s.blocks c.1).flushed := h.flushed.stored i c hc
  -- what else was written to the block is apart from the claim
  have hothers : ∀ us ∈ (s.blocks c.1).flushed, us = c.2 ∨ Apart c.2 us := by
    intro us hus
    obtain ⟨j, hj⟩ := h.flushed.claimed c.1 us hus
    by_cases hne : c = (c.1, us)
    · exact Or.inl (congrArg Prod.snd hne).symm
    · refine Or.inr ?_
      by_cases hji : i = j
      · subst hji
        exact (h.claims.own i).forall (hsub hc) hj hne rfl
      · exact h.claims.across i j hji c (hsub hc) _ hj rfl
  obtain ⟨calls, hcalls⟩ := hack.last
  obtain ⟨u, hu⟩ : ∃ u : Update Char, u = ⟨ack.1 - ack.1 / blocksize * blocksize, ack.2⟩ := ⟨_, rfl⟩
  rw [← hu] at hcalls
  have hmem : u ∈ c.2 := by
    rw [hcalls]
    exact List.mem_append_right _ (List.mem_singleton_self _)
  have hoffset : u.offset = ack.1 % blocksize := by
    rw [hu]
    exact start_eq_mod ack.1
  have hbytes : u.bytes = ack.2 := by rw [hu]
  unfold Present
  rw [← hack.block, ← hoffset, ← hbytes, (h.block c.1).block]
  refine take_drop_of_getD nul ?_ fun k hk => ?_
  · rw [length_overlay]
    refine le_trans ?_ (le_max_right _ _)
    exact stop_le_reach (List.mem_flatten.mpr ⟨c.2, hwritten, hmem⟩)
  · have hcovers : u.Covers (u.offset + k) := by
      unfold Update.Covers Update.stop
      omega
    rw [getD_overlay, latest_flatten nul hwritten hothers ⟨u, hmem, hcovers⟩, hcalls, latest_append, latest,
      if_pos hcovers, Nat.add_sub_cancel_left]
    rfl

theorem exists_claim {acks : List Ack} {claims : List Claim} (h : List.Forall₂ (AckOf blocksize) acks claims)
    {ack : Ack} (hack : ack ∈ acks) : ∃ c ∈ claims, AckOf blocksize ack c := by
  induction h with
  | nil => cases hack
  | cons hfirst _ ih =>
    rcases List.mem_cons.mp hack with rfl | hack
    · exact ⟨_, List.mem_cons_self, hfirst⟩
    · obtain ⟨c, hc, hackof⟩ := ih hack
      exact ⟨c, List.mem_cons_of_mem _ hc, hackof⟩

theorem pairwise_of_forall₂ {acks : List Ack} {claims : List Claim} (h : List.Forall₂ (AckOf blocksize) acks claims)
    (hclaims : claims.Pairwise ClaimsApart) : acks.Pairwise Separate := by
  induction h with
  | nil => exact List.Pairwise.nil
  | cons hack hrest ih =>
    obtain ⟨hfirst, hclaims⟩ := List.pairwise_cons.mp hclaims
    refine List.pairwise_cons.mpr ⟨fun b hb => ?_, ih hclaims⟩
    obtain ⟨d, hd, hbd⟩ := exists_claim hrest hb
    exact separate_of_apart hack hbd (hfirst d hd)

/-- What the sessions of the clients that have finished have returned. -/
def returned (c : Config Req Res Store ι (List Ack × Local)) (i : ι) : Option (List Ack) :=
  (c.prog i).result.map Prod.fst

/-- Acknowledged appends are present and do not overlap. -/
structure Kept (blocksize : Nat) (c : Config Req Res Store ι (List Ack × Local)) : Prop where
  present : ∀ i acks, returned c i = some acks → ∀ ack ∈ acks, Present blocksize c.shared ack
  own : ∀ i acks, returned c i = some acks → acks.Pairwise Separate
  across : ∀ i j acks acks', i ≠ j → returned c i = some acks → returned c j = some acks' →
    ∀ a ∈ acks, ∀ b ∈ acks', Separate a b

/-- The acknowledged appends of a client belong to claims that it has stored. -/
theorem claims_of_returned {c : Config Req Res Store ι (List Ack × Local)}
    (h : ∀ i, (c.prog i).Conforms (protocol blocksize) (fun x t => Acked blocksize Stage.start x.1 x.2 t) (t i))
    {i : ι} {acks : List Ack} (hr : returned c i = some acks) : (t i).stored ⊆ (t i).all ∧
      ∃ claims, claims.Sublist (t i).stored.reverse ∧ claims.reverse.Sublist (t i).all ∧
        List.Forall₂ (AckOf blocksize) acks claims := by
  obtain ⟨x, hx, rfl⟩ := Option.map_eq_some_iff.mp hr
  have hi := h i
  rw [Prog.result_eq_some.mp hx] at hi
  obtain ⟨hmem, n, hn, claims, hsub, hall⟩ := hi
  have hn' : (t i).stored = n := by
    rw [hn]
    exact List.append_nil n
  have hstored : (t i).stored.Sublist (t i).all := hmem.sublist.trans (List.sublist_append_right _ _)
  rw [← hn'] at hsub
  refine ⟨hstored.subset, claims, hsub, ?_, hall⟩
  exact (List.reverse_sublist.mp (by rwa [List.reverse_reverse])).trans hstored

/-- Any number of clients that append to one file, in any interleaving of their accesses. If appends begin
    below 2 GiB, and whenever the metadata key is stored for one the file ends at or before it, acknowledged
    appends stay. -/
theorem serialized_appends_kept [DecidableEq ι] (hb : BlockSize blocksize) (hf : Fresh uuid (versionOf record))
    (hu : ∀ b, Unique (dataUuid b) (blocks b)) (env : ι → Env) (fuel : Nat) {actions : ι → List Action}
    (hactions : ∀ i, ∀ a ∈ actions i, a.NonEmpty) (hbelow : ∀ i, ∀ a ∈ actions i, a.Below)
    {schedule : List (ι × Choice)}
    {c : Config Req Res Store ι (List Ack × Local)}
    (hrun : runFrom ((service uuid dataUuid).restrict (serialized blocksize))
      (sessions env blocksize fuel actions record blocks) schedule = some c) : Kept blocksize c := by
  have hprog : ∀ i, ((sessions env blocksize fuel actions record blocks).prog i).Conforms (protocol blocksize)
      (fun x t => Acked blocksize Stage.start x.1 x.2 t) Stage.start := fun i =>
    session_acked hb fuel (hactions i) (hbelow i) mem_mounted
  obtain ⟨t, hinv, hfinal⟩ := runFrom_conforms (sound hf hu) (inv_start hu) hprog hrun
  refine ⟨fun i acks hi ack hack => ?_, fun i acks hi => ?_, fun i j acks acks' hij hi hj a ha b hb => ?_⟩
  · obtain ⟨hsub, claims, hclaims, -, hall⟩ := claims_of_returned hfinal hi
    obtain ⟨d, hd, hackof⟩ := exists_claim hall hack
    exact present_of_stored hinv hsub hackof (List.mem_reverse.mp (hclaims.subset hd))
  · obtain ⟨-, claims, -, hsub, hall⟩ := claims_of_returned hfinal hi
    have hpairwise := (hinv.claims.own i).sublist hsub
    rw [List.pairwise_reverse] at hpairwise
    exact pairwise_of_forall₂ hall (hpairwise.imp fun h => h.symm)
  · obtain ⟨-, claims, -, hsub, hall⟩ := claims_of_returned hfinal hi
    obtain ⟨-, claims', -, hsub', hall'⟩ := claims_of_returned hfinal hj
    obtain ⟨d, hd, hackof⟩ := exists_claim hall ha
    obtain ⟨d', hd', hackof'⟩ := exists_claim hall' hb
    exact separate_of_apart hackof hackof' (hinv.claims.across i j hij d (hsub.subset (List.mem_reverse.mpr hd)) d'
      (hsub'.subset (List.mem_reverse.mpr hd')))

/-! ## Two clients -/

/-- The record of a file without bytes. -/
def emptyFile : Option (KineticRecord Inode) :=
  some ⟨{ Inode.empty with mode := Permission.S_IFREG ||| 0o666, inodeNumber := 2 }, lit "0"⟩

/-- Both clients look up the file and append to it; `offset` is that of the second one. -/
def appendBoth (offset : Nat) : Bool → List Action
  | true => [.lookup superuser, .append superuser (lit "AA") 0]
  | false => [.lookup superuser, .append superuser (lit "BB") offset]

/-- Two clients append to an empty file. -/
def bothAppend (offset : Nat) : Config Req Res Store Bool (List Ack × Local) :=
  sessions (fun _ => posix) blockLimit 3 (appendBoth offset) emptyFile fun _ => none

/-- One append after the other. -/
def inTurn : List (Bool × Choice) :=
  [(true, .access .done), (true, .stamp 0), (true, .expired false), (true, .stamp 0), (true, .stamp 0),
    (true, .access .done), (true, .access .done), (false, .access .done), (false, .stamp 0),
    (false, .expired false), (false, .stamp 0), (false, .stamp 0), (false, .access .done),
    (false, .access .done), (false, .access .done), (false, .access .done)]

/-- Both clients have seen the empty file when the second one appends; the first one is refused, and writes
    again at its offset. -/
def atOnce : List (Bool × Choice) :=
  [(true, .access .done), (true, .stamp 0), (false, .access .done), (false, .stamp 0), (true, .expired false),
    (true, .stamp 0), (false, .expired false), (false, .stamp 0), (false, .stamp 0), (false, .access .done),
    (false, .access .done), (true, .stamp 0), (true, .access .done), (true, .access .done), (true, .stamp 0),
    (true, .access .done), (true, .stamp 0), (true, .access .done), (true, .access .done)]

theorem numbered_fresh : Fresh numbered (lit "0") := by
  refine ⟨fun n m h => toStr_inj (List.cons.inj h).2, fun n h => ?_⟩
  exact absurd (List.cons.inj h).1 (by decide)

theorem numbered_unique : Unique numbered none := by
  refine ⟨fun n m h => toStr_inj (List.cons.inj h).2, fun n => List.cons_ne_nil _ _, fun n => List.cons_ne_nil _ _, ?_⟩
  rintro r hr
  cases hr

theorem serialized_appends_kept_in_turn :
    ∃ c, runFrom ((service numbered fun _ => numbered).restrict (serialized blockLimit)) (bothAppend 2) inTurn =
      some c ∧ returned c true = some [(0, lit "AA")] ∧ returned c false = some [(2, lit "BB")] ∧
      Kept blockLimit c := by
  have hrun : ((runFrom ((service numbered fun _ => numbered).restrict (serialized blockLimit)) (bothAppend 2)
      inTurn).any fun c =>
        returned c true = some [(0, lit "AA")] ∧ returned c false = some [(2, lit "BB")]) = true := by
    decide +kernel
  obtain ⟨c, hc, hreturned⟩ := (Option.any_eq_true _ _).mp hrun
  obtain ⟨h1, h2⟩ := of_decide_eq_true hreturned
  exact ⟨c, hc, h1, h2, serialized_appends_kept (by decide) numbered_fresh (fun _ => numbered_unique) _ 3
    (by decide) (by decide) hc⟩

/-- Every access is carried out and answered, and both appends are acknowledged, at the same bytes. -/
theorem appends_overwritten : ¬ ∀ (uuid : Nat → Str) (dataUuid : Nat → Nat → Str) (blocksize : Nat)
    (record : Option (KineticRecord Inode)) (blocks : Nat → Option (KineticRecord Str)) (env : Bool → Env)
    (fuel : Nat) (actions : Bool → List Action) (schedule : List (Bool × Choice))
    (c : Config Req Res Store Bool (List Ack × Local)), BlockSize blocksize → Fresh uuid (versionOf record) →
    (∀ b, Unique (dataUuid b) (blocks b)) → (∀ i, ∀ a ∈ actions i, a.NonEmpty) →
    (∀ i, ∀ a ∈ actions i, ∀ ctx buf offset, a = .append ctx buf offset → offset = storedSize record) →
    (∀ e ∈ schedule, e.2 ≠ .access .unreachable ∧ e.2 ≠ .access .lost) →
    runFrom (service uuid dataUuid) (sessions env blocksize fuel actions record blocks) schedule = some c →
    Kept blocksize c := by
  intro h
  have hrun : ((runFrom (service numbered fun _ => numbered) (bothAppend 0) atOnce).any fun c =>
      returned c true = some [(0, lit "AA")] ∧ returned c false = some [(0, lit "BB")]) = true := by decide +kernel
  obtain ⟨c, hc, hreturned⟩ := (Option.any_eq_true _ _).mp hrun
  obtain ⟨h1, h2⟩ := of_decide_eq_true hreturned
  have hoffset : ∀ i, ∀ a ∈ appendBoth 0 i, ∀ ctx buf offset, a = .append ctx buf offset →
      offset = storedSize emptyFile := by
    intro i a ha ctx buf offset he
    subst he
    cases i <;> simp [appendBoth] at ha <;> exact ha.2.2
  have hreliable : ∀ e ∈ atOnce, e.2 ≠ .access .unreachable ∧ e.2 ≠ .access .lost := by
    simp [atOnce]
  have hkept := h numbered (fun _ => numbered) blockLimit emptyFile (fun _ => none) (fun _ => posix) 3 (appendBoth 0)
    atOnce c (by decide) numbered_fresh (fun _ => numbered_unique) (by decide) hoffset hreliable hc
  have hseparate : Separate (0, lit "AA") (0, lit "BB") :=
    hkept.across true false _ _ (by decide) h1 h2 _ List.mem_cons_self _ List.mem_cons_self
  exact absurd hseparate (by unfold Separate; decide)

end HFlat.Data.File.Append
