/-
  The files of a lone client: `hflat_read`, and what the blocks in the store and in the cache hold.

  A file is a sequence of bytes. Its blocks are the stored ones, with the writes that have not been
  flushed yet (`us`) on top. `Blocks` says that cached blocks are stored blocks with those writes, and
  that all of them together hold the files. A block that a write has created without fetching what is
  stored (`do_rw`) only has the writes; it gets the rest when it is flushed.
-/
import HFlat.Lib.Blocked
import HFlat.Data.Writers
import HFlat.Fuse.LoneLookup

namespace HFlat.Fuse.Lone

open HFlat.Lib HFlat.Lib.Block HFlat.PathMap HFlat.Permission
open HFlat.Data (DataInfo Place nul blockOf place)
open HFlat.Fuse.Attributes (FileMetadata)
open HFlat.Replication (KineticRecord StatusCode versionOf putSame)

/-! ## Read (`fuseops/data.cc`) -/

section Read

variable (env : Env) (ctx : Context) (blocksize : Nat)

/-- `do_rw` for a read of `size` bytes from a place: number of bytes, and the buffer. What the block does
    not have is zero. -/
def doReadAt (size mdi : Nat) : Option Place → Client (Int × Str)
  -- an `int` overflows
  | none => exit
  | some place => do
      let md := (← getMdi mdi).md
      let di ← cachedBlock (md.inodeNumber, place.block) (getData (md.inodeNumber, place.block))
      let inblockstart := place.inblockstart.toNat
      let x ← getDi di
      let copysize := min place.inblocksize.toNat (x.d.length - inblockstart)
      return (place.inblocksize,
        replace (List.replicate size nul) 0 copysize ((x.d.drop inblockstart).take copysize))

/-- `do_rw` for a read. -/
def doRead (size offset mdi : Nat) : Client (Int × Str) :=
  doReadAt size mdi (place blocksize size offset)

/-- `hflat_read`: number of bytes or error code, and the buffer. -/
def hflatRead (fuel : Nat) (userPath : Str) (size offset : Nat) : Client (Int × Str) := do
  let (err, mdi) ← lookup env ctx fuel [] userPath none
  if err ≠ 0 then return (err, [])
  let mdi ← deref mdi
  let (inblocksize, buf) ← doRead blocksize size offset mdi
  return (inblocksize, buf)

end Read

/-! ## Changes of the cached and the stored blocks -/

namespace Part

/-- The part with another block at an address. -/
def setBlock (p : Part) (di : Nat) (x : BlockInfo) : Part :=
  { p with data := Function.update p.data di x }

/-- A new block object in the cache. -/
def opened (p : Part) (key : DataKey) (x : BlockInfo) : Part :=
  { p with
    data := Function.update p.data p.nextData x
    nextData := p.nextData + 1
    dataCache := Function.update p.dataCache key (some p.nextData) }

/-- The block of an object is stored as `d` under version `new`. -/
def flushed (p : Part) (di : Nat) (d new : Str) : Part :=
  { p.setBlock di ⟨⟨new, d, []⟩, (p.data di).key⟩ with
    block := Function.update p.block (p.data di).key (some ⟨d, new⟩) }

/-- The block under a key is neither cached nor stored. -/
def removed (p : Part) (key : DataKey) : Part :=
  { p with
    dataCache := Function.update p.dataCache key none
    block := Function.update p.block key none }

end Part

section Steps

variable {uuid : Nat → Str} {p : Part} {α β : Type} {key : DataKey} {di : Nat}

theorem part_getDi {f : BlockInfo → Client β} {Q : β → Part → Prop}
    (h : Shows (careful uuid) part (f (p.data di)) Q p) :
    Shows (careful uuid) part (getDi di >>= f) Q p := by
  refine Shows.get_bind fun l s hp => ?_
  have hdata : l.data = p.data := congrArg Part.data hp
  show Shows (careful uuid) part (f (l.data di)) Q p
  rw [hdata]
  exact h

theorem part_setDi {x : BlockInfo} {f : Unit → Client β} {Q : β → Part → Prop}
    (h : Shows (careful uuid) part (f ()) Q (p.setBlock di x)) :
    Shows (careful uuid) part (setDi di x >>= f) Q p := by
  refine Shows.modify_bind (fun l s hp => ?_) h
  subst hp
  rfl

theorem part_setDataCache (l : Local) (s : Store) (key : DataKey) (entry : Option Nat) :
    part (l.setDataCache key entry) s =
      { part l s with dataCache := Function.update (part l s).dataCache key entry } := rfl

theorem part_dataInvalidate {f : Unit → Client β} {Q : β → Part → Prop}
    (h : Shows (careful uuid) part (f ()) Q { p with dataCache := Function.update p.dataCache key none }) :
    Shows (careful uuid) part (dataInvalidate key >>= f) Q p := by
  refine Shows.modify_bind (fun l s hp => ?_) h
  subst hp
  rfl

theorem part_allocBlock (l : Local) (s : Store) (x : BlockInfo) :
    part (l.allocBlock x) s = { part l s with
      data := Function.update (part l s).data (part l s).nextData x
      nextData := (part l s).nextData + 1 } := rfl

theorem part_exit {Q : α → Part → Prop} : Shows (careful uuid) part (exit : Client α) Q p := Shows.stop

/-- A block with unflushed writes does not expire. -/
theorem dataCacheGet_shows (p : Part) (key : DataKey) :
    Shows (careful uuid) part (dataCacheGet key) (fun r p' =>
      (∃ di, r = some di ∧ p.dataCache key = some di ∧ p' = p) ∨
      (r = none ∧ p' = { p with dataCache := Function.update p.dataCache key none } ∧
        ∀ di, p.dataCache key = some di → (p.data di).hasUpdates = false)) p := by
  refine Shows.get_bind fun l s hp => ?_
  have hcache : l.dataCache = p.dataCache := congrArg Part.dataCache hp
  rw [hcache]
  cases hkey : p.dataCache key with
  | none =>
    have hsame : Function.update p.dataCache key none = p.dataCache := by
      rw [← hkey, Function.update_eq_self]
    refine Shows.pure (Or.inr ⟨rfl, ?_, fun di hdi => nomatch hdi⟩)
    rw [hsame]
  | some di =>
    refine part_getDi (Shows.ite (fun _ => Shows.pure (Or.inl ⟨di, rfl, rfl, rfl⟩)) fun hclean => ?_)
    refine Shows.then (perform_keeps (r := .dataExpired key) trivial) ?_
    intro expired p1 hp1
    rw [hp1]
    refine Shows.ite (fun _ => ?_) fun _ => Shows.pure (Or.inl ⟨di, rfl, rfl, rfl⟩)
    refine part_dataInvalidate (Shows.pure (Or.inr ⟨rfl, rfl, ?_⟩))
    intro di' hdi'
    obtain rfl := Option.some.inj hdi'
    exact eq_false_of_ne_true hclean

/-- What `cachedBlock` yields: a cached block, or a new one in place of one without unflushed writes. -/
structure Opened (p : Part) (key : DataKey) (P : BlockInfo → Prop) (di : Nat) (p' : Part) : Prop where
  cached : p'.dataCache key = some di
  either : p.dataCache key = some di ∧ p' = p ∨
    di = p.nextData ∧ (∀ di', p.dataCache key = some di' → (p.data di').hasUpdates = false) ∧
      ∃ x, P x ∧ p' = p.opened key x

theorem cachedBlock_shows {P : BlockInfo → Prop} {load : Client BlockInfo}
    (hload : ∀ p', p'.block = p.block → Shows (careful uuid) part load (fun x p'' => P x ∧ p'' = p') p') :
    Shows (careful uuid) part (cachedBlock key load) (Opened p key P) p := by
  refine (dataCacheGet_shows p key).then ?_
  rintro r p1 (⟨di, rfl, hdi, hp1⟩ | ⟨rfl, hp1, hclean⟩)
  · rw [hp1]
    exact Shows.pure ⟨hdi, Or.inl ⟨hdi, rfl⟩⟩
  · rw [hp1]
    refine Shows.then (hload { p with dataCache := Function.update p.dataCache key none } rfl) ?_
    rintro x p2 ⟨hx, hp2⟩
    rw [hp2]
    have hnew : Shows (careful uuid) part (newDataInfo x) (fun di p' => di = p.nextData ∧
        p' = { p with
          data := Function.update p.data p.nextData x
          nextData := p.nextData + 1
          dataCache := Function.update p.dataCache key none })
        { p with dataCache := Function.update p.dataCache key none } := by
      refine Shows.get_bind fun l s hp => ?_
      have hnext : l.nextData = p.nextData := congrArg Part.nextData hp
      refine Shows.modify_bind (fun l s hp => ?_) (Shows.pure ⟨hnext, rfl⟩)
      rw [part_allocBlock, hp]
    refine hnew.then ?_
    rintro di _ ⟨rfl, rfl⟩
    have hadd : Shows (careful uuid) part (dataAdd key p.nextData) (fun _ p' => p' = p.opened key x)
        { p with
          data := Function.update p.data p.nextData x
          nextData := p.nextData + 1
          dataCache := Function.update p.dataCache key none } := by
      refine Shows.get_bind fun l s hp => ?_
      split
      · exact part_exit
      · refine Shows.modify (fun l s hp => ?_) rfl
        rw [part_setDataCache, hp]
        dsimp only
        rw [Function.update_idem]
        rfl
    refine hadd.then ?_
    rintro _ _ rfl
    exact Shows.pure ⟨Function.update_self _ _ _, Or.inr ⟨rfl, hclean, x, hx, rfl⟩⟩

theorem getData_shows (p : Part) (key : DataKey) :
    Shows (careful uuid) part (getData key)
      (fun x p' => x = ⟨⟨versionOf (p.block key), blockOf (p.block key), []⟩, key⟩ ∧ p' = p) p := by
  have hget : Shows (careful uuid) part (perform (.getData key))
      (fun x p' => x = lookupRecord (p.block key) ∧ p' = p) p := by
    refine Shows.call fun l s choice x s' hp hserve => ?_
    have hserve : serve uuid s (.getData key) choice = some (x, s') := (serve_restrict hserve).2
    cases choice with
    | done =>
      cases hserve
      refine ⟨?_, hp⟩
      rw [← hp]
      rfl
    | _ => cases hserve
  refine hget.then ?_
  rintro _ p1 ⟨rfl, hp1⟩
  rw [hp1]
  cases p.block key with
  | none => exact Shows.pure ⟨rfl, rfl⟩
  | some r => exact Shows.pure ⟨rfl, rfl⟩

theorem perform_putData (hne : ∀ n, uuid n ≠ []) (p : Part) (key : DataKey) (expected d : Str) :
    Shows (careful uuid) part (perform (.putData key expected d)) (fun x p' => x.2 ≠ [] ∧
      (versionOf (p.block key) = expected ∧ x.1 = .OK ∧
          p' = { p with block := Function.update p.block key (some ⟨d, x.2⟩) } ∨
        versionOf (p.block key) ≠ expected ∧ x.1 = .REMOTE_VERSION_MISMATCH ∧ p' = p)) p := by
  refine Shows.call fun l s choice x s' hp hserve => ?_
  have hserve : serve uuid s (.putData key expected d) choice = some (x, s') := (serve_restrict hserve).2
  cases choice with
  | done =>
    cases hserve
    subst hp
    refine ⟨hne _, ?_⟩
    by_cases hversion : versionOf (s.block key) = expected
    · have hput : putSame (s.block key) expected ⟨d, uuid s.uuids⟩ = (.OK, some ⟨d, uuid s.uuids⟩) :=
        if_pos hversion
      refine Or.inl ⟨hversion, congrArg Prod.fst hput, ?_⟩
      show Part.mk _ _ _ (Function.update s.block key (putSame _ _ _).2) _ _ = _
      rw [hput]
      rfl
    · have hput : putSame (s.block key) expected ⟨d, uuid s.uuids⟩ = (.REMOTE_VERSION_MISMATCH, s.block key) :=
        if_neg hversion
      refine Or.inr ⟨hversion, congrArg Prod.fst hput, ?_⟩
      show Part.mk _ _ _ (Function.update s.block key (putSame _ _ _).2) _ _ = _
      rw [hput, Function.update_eq_self]
      rfl
  | _ => cases hserve

/-- A block with the version of the store is stored as it is. -/
theorem putData_current (hne : ∀ n, uuid n ≠ [])
    (hversion : versionOf (p.block (p.data di).key) = (p.data di).keyVersion) (fuel : Nat) :
    Shows (careful uuid) part (putData di fuel)
      (fun err p' => err = 0 ∧ ∃ new, new ≠ [] ∧ p' = p.flushed di (p.data di).d new) p := by
  cases fuel with
  | zero => exact part_exit
  | succ fuel =>
    refine part_getDi ((perform_putData hne p _ _ _).then ?_)
    rintro ⟨status, new⟩ p1 ⟨hnew, ⟨-, hstatus, rfl⟩ | ⟨hother, -, -⟩⟩
    · obtain rfl : status = .OK := hstatus
      exact part_setDi (Shows.pure ⟨rfl, new, hnew, rfl⟩)
    · exact absurd hversion hother

/-- Any other block gets the stored bytes first. -/
theorem putData_merge (hne : ∀ n, uuid n ≠ []) {r : KineticRecord Str} {us : List (Update Char)}
    (hr : p.block (p.data di).key = some r) (hversion : r.version ≠ (p.data di).keyVersion)
    (hx : (p.data di).toDataInfo.Holds [] us) (fuel : Nat) :
    Shows (careful uuid) part (putData di fuel)
      (fun err p' => err = 0 ∧ ∃ new, new ≠ [] ∧ p' = p.flushed di (overlay nul r.value us) new) p := by
  cases fuel with
  | zero => exact part_exit
  | succ fuel =>
    refine part_getDi ((perform_putData hne p _ _ _).then ?_)
    rintro ⟨status, new⟩ p1 ⟨-, ⟨hsame, -, -⟩ | ⟨-, hstatus, hp1⟩⟩
    · rw [hr] at hsame
      exact absurd hsame hversion
    · obtain rfl : status = .REMOTE_VERSION_MISMATCH := hstatus
      have hget : Shows (careful uuid) part (perform (.getData (p.data di).key))
          (fun x p' => x = .ok r ∧ p' = p) p := by
        refine Shows.call fun l s choice x s' hp hserve => ?_
        have hserve : serve uuid s (.getData (p.data di).key) choice = some (x, s') :=
          (serve_restrict hserve).2
        cases choice with
        | done =>
          cases hserve
          have hblock : s.block (p.data di).key = some r := by
            rw [← hr, ← hp]
            rfl
          refine ⟨?_, hp⟩
          rw [hblock]
          rfl
        | _ => cases hserve
      rw [hp1]
      refine hget.then ?_
      rintro _ p2 ⟨rfl, hp2⟩
      rw [hp2]
      dsimp only
      split
      · exact part_exit
      · rename_i merged hmerged
        obtain ⟨hholds, -⟩ := DataInfo.mergeDataChanges_holds hx (Nat.zero_le _) hmerged
        refine part_setDi ?_
        have hself : (p.setBlock di ⟨{ merged with keyVersion := r.version }, (p.data di).key⟩).data di =
            ⟨{ merged with keyVersion := r.version }, (p.data di).key⟩ := Function.update_self _ _ _
        have hcurrent : versionOf ((p.setBlock di ⟨{ merged with keyVersion := r.version },
            (p.data di).key⟩).block (((p.setBlock di ⟨{ merged with keyVersion := r.version },
            (p.data di).key⟩).data di).key)) = r.version := by
          rw [hself]
          show versionOf (p.block (p.data di).key) = r.version
          rw [hr]
          rfl
        refine (putData_current hne (hcurrent.trans (by rw [hself])) fuel).mono ?_
        rintro err p3 ⟨rfl, new', hnew', rfl⟩
        refine ⟨rfl, new', hnew', ?_⟩
        unfold Part.flushed
        rw [hself, ← hholds.d]
        unfold Part.setBlock
        rw [Function.update_idem]

end Steps

/-! ## What the blocks hold -/

/-- The copy of a block has the version that is stored. -/
def Current (stored : Option (KineticRecord Str)) (base : Str) (x : DataInfo) : Prop :=
  x.keyVersion = versionOf stored ∧ base = blockOf stored

/-- The copy was created empty instead of being fetched. -/
def Blind (base : Str) (x : DataInfo) : Prop := x.keyVersion = [] ∧ base = []

/-- The copy is the stored block with the writes `us`, or, if it was created empty, those writes alone. -/
def Copies (stored : Option (KineticRecord Str)) (us : List (Update Char)) (x : DataInfo) : Prop :=
  ∃ base, x.Holds base us ∧ (Current stored base x ∨ us ≠ [] ∧ Blind base x)

/-- Cached blocks are the stored ones with the writes `us`, and all blocks with these writes hold the
    files. -/
structure Blocks (blocksize : Nat) (us : DataKey → List (Update Char)) (flat : Nat → Str) (p : Part) :
    Prop where
  versions : ∀ {key r}, p.block key = some r → r.version ≠ []
  used : ∀ {key di}, p.dataCache key = some di → di < p.nextData
  key : ∀ {key di}, p.dataCache key = some di → (p.data di).key = key
  copy : ∀ {key di}, p.dataCache key = some di → Copies (p.block key) (us key) (p.data di).toDataInfo
  pending : ∀ {key}, us key ≠ [] → ∃ di, p.dataCache key = some di
  file : ∀ n, Assembles nul blocksize (fun b => overlay nul (blockOf (p.block (n, b))) (us (n, b))) (flat n)

section Blocks

variable {uuid : Nat → Str} {blocksize : Nat} {us : DataKey → List (Update Char)} {flat : Nat → Str}
  {p p' : Part} {key : DataKey} {di n : Nat}

theorem hasUpdates_iff {x : DataInfo} {base : Str} {us : List (Update Char)} (h : x.Holds base us) :
    x.hasUpdates = true ↔ us ≠ [] := by
  unfold DataInfo.hasUpdates
  rw [h.updates]
  cases us with
  | nil => simp
  | cons u us => simp

theorem Blocks.hasUpdates (h : Blocks blocksize us flat p) (hdi : p.dataCache key = some di) :
    (p.data di).hasUpdates = true ↔ us key ≠ [] := by
  obtain ⟨base, hholds, -⟩ := h.copy hdi
  exact hasUpdates_iff hholds

/-- Without writes to be flushed the copy is the stored block. -/
theorem Blocks.clean (h : Blocks blocksize us flat p) (hdi : p.dataCache key = some di) (hus : us key = []) :
    (p.data di).keyVersion = versionOf (p.block key) ∧ (p.data di).d = blockOf (p.block key) ∧
      (p.data di).updates = [] := by
  obtain ⟨base, hholds, hcurrent | ⟨hne, -⟩⟩ := h.copy hdi
  · rw [hus] at hholds
    refine ⟨hcurrent.1, ?_, hholds.updates⟩
    rw [hholds.d, ← hcurrent.2]
    rfl
  · exact absurd hus hne

/-- Different keys have different objects. -/
theorem Blocks.inj (h : Blocks blocksize us flat p) {key' : DataKey} (hdi : p.dataCache key = some di)
    (hdi' : p.dataCache key' = some di) : key = key' :=
  (h.key hdi).symm.trans (h.key hdi')

/-! ### Opening a block -/

variable {P : BlockInfo → Prop}

/-- A block whose object is replaced has no writes to be flushed. -/
theorem Opened.nothing (h : Blocks blocksize us flat p)
    (hclean : ∀ di', p.dataCache key = some di' → (p.data di').hasUpdates = false) : us key = [] := by
  by_contra hne
  obtain ⟨di', hdi'⟩ := h.pending hne
  have hdirty := (h.hasUpdates hdi').mpr hne
  rw [hclean di' hdi'] at hdirty
  cases hdirty

theorem Opened.block (h : Opened p key P di p') : p'.block = p.block := by
  obtain ⟨-, rfl⟩ | ⟨-, -, x, -, rfl⟩ := h.either
  · rfl
  · rfl

theorem Opened.database (h : Opened p key P di p') : p'.pmap = p.pmap ∧ p'.log = p.log := by
  obtain ⟨-, rfl⟩ | ⟨-, -, x, -, rfl⟩ := h.either
  · exact ⟨rfl, rfl⟩
  · exact ⟨rfl, rfl⟩

theorem Opened.next (h : Opened p key P di p') : p.nextData ≤ p'.nextData := by
  obtain ⟨-, rfl⟩ | ⟨-, -, x, -, rfl⟩ := h.either
  · exact le_refl _
  · exact Nat.le_succ _

theorem Opened.data (h : Opened p key P di p') {di' : Nat} (hdi' : di' < p.nextData) :
    p'.data di' = p.data di' := by
  obtain ⟨-, rfl⟩ | ⟨-, -, x, -, rfl⟩ := h.either
  · rfl
  · exact Function.update_of_ne (ne_of_lt hdi') _ _

theorem Opened.other (h : Opened p key P di p') {k : DataKey} (hk : k ≠ key) :
    p'.dataCache k = p.dataCache k := by
  obtain ⟨-, rfl⟩ | ⟨-, -, x, -, rfl⟩ := h.either
  · rfl
  · exact Function.update_of_ne hk _ _

/-- A block with writes to be flushed keeps its object. -/
theorem Opened.kept (h : Opened p key P di p') {k : DataKey} {di' : Nat} (hdi' : p.dataCache k = some di')
    (hdirty : (p.data di').hasUpdates = true) : p'.dataCache k = some di' := by
  obtain ⟨-, rfl⟩ | ⟨-, hclean, x, -, rfl⟩ := h.either
  · exact hdi'
  · refine (Function.update_of_ne ?_ _ _).trans hdi'
    rintro rfl
    rw [hclean di' hdi'] at hdirty
    cases hdirty

/-- The block as `get_data` fetches it. -/
def Loaded (p : Part) (key : DataKey) (x : BlockInfo) : Prop :=
  x = ⟨⟨versionOf (p.block key), blockOf (p.block key), []⟩, key⟩

/-- The block as a write creates it. -/
def Created (key : DataKey) (x : BlockInfo) : Prop := x = ⟨⟨[], [], []⟩, key⟩

/-- The object of the block that was opened. -/
theorem Opened.object (h : Opened p key P di p') (hb : Blocks blocksize us flat p)
    (hP : ∀ x, P x → Loaded p key x ∨ Created key x) :
    di < p'.nextData ∧ (p'.data di).key = key ∧ ∃ base, (p'.data di).toDataInfo.Holds base (us key) ∧
      (Current (p.block key) base (p'.data di).toDataInfo ∨ Blind base (p'.data di).toDataInfo) := by
  obtain ⟨hdi, rfl⟩ | ⟨rfl, hclean, x, hx, rfl⟩ := h.either
  · obtain ⟨base, hholds, hbase⟩ := hb.copy hdi
    exact ⟨hb.used hdi, hb.key hdi, base, hholds, hbase.imp_right And.right⟩
  · have hself : (p.opened key x).data p.nextData = x := Function.update_self _ _ _
    rw [hself, Opened.nothing hb hclean]
    refine ⟨Nat.lt_succ_self _, ?_⟩
    obtain rfl | rfl := hP x hx
    · exact ⟨rfl, _, ⟨rfl, rfl, fun _ hu => nomatch hu⟩, Or.inl ⟨rfl, rfl⟩⟩
    · exact ⟨rfl, _, ⟨rfl, rfl, fun _ hu => nomatch hu⟩, Or.inr ⟨rfl, rfl⟩⟩

/-! ### One block changes -/

/-- Only the block under `key` differs. -/
structure Elsewhere (key : DataKey) (us us' : DataKey → List (Update Char)) (p p' : Part) : Prop where
  used : ∀ {k di}, p'.dataCache k = some di → di < p'.nextData
  cache : ∀ {k}, k ≠ key → p'.dataCache k = p.dataCache k
  block : ∀ {k}, k ≠ key → p'.block k = p.block k
  writes : ∀ {k}, k ≠ key → us' k = us k
  data : ∀ {k di}, k ≠ key → p.dataCache k = some di → p'.data di = p.data di

theorem Blocks.change {us' : DataKey → List (Update Char)} {flat' : Nat → Str}
    (h : Blocks blocksize us flat p) (he : Elsewhere key us us' p p')
    (hversion : ∀ r, p'.block key = some r → r.version ≠ [])
    (hcopy : ∀ di, p'.dataCache key = some di →
      (p'.data di).key = key ∧ Copies (p'.block key) (us' key) (p'.data di).toDataInfo)
    (hpending : us' key ≠ [] → ∃ di, p'.dataCache key = some di)
    (hfile : ∀ n, Assembles nul blocksize
      (fun b => overlay nul (blockOf (p'.block (n, b))) (us' (n, b))) (flat' n)) :
    Blocks blocksize us' flat' p' where
  versions {k r} hr := by
    by_cases hk : k = key
    · exact hversion r (hk ▸ hr)
    · exact h.versions ((he.block hk).symm.trans hr)
  used := he.used
  key {k di} hdi := by
    by_cases hk : k = key
    · subst hk
      exact (hcopy di hdi).1
    · rw [he.cache hk] at hdi
      rw [he.data hk hdi]
      exact h.key hdi
  copy {k di} hdi := by
    by_cases hk : k = key
    · subst hk
      exact (hcopy di hdi).2
    · rw [he.cache hk] at hdi
      rw [he.data hk hdi, he.block hk, he.writes hk]
      exact h.copy hdi
  pending {k} hne := by
    by_cases hk : k = key
    · subst hk
      exact hpending hne
    · rw [he.cache hk]
      rw [he.writes hk] at hne
      exact h.pending hne
  file := hfile

/-- What the blocks of a file hold, if only one of them changes. -/
theorem Elsewhere.blocks {us' : DataKey → List (Update Char)} (he : Elsewhere key us us' p p') (n : Nat) :
    (fun b => overlay nul (blockOf (p'.block (n, b))) (us' (n, b))) =
      if n = key.1 then Function.update (fun b => overlay nul (blockOf (p.block (n, b))) (us (n, b))) key.2
        (overlay nul (blockOf (p'.block key)) (us' key))
      else fun b => overlay nul (blockOf (p.block (n, b))) (us (n, b)) := by
  funext b
  by_cases hk : (n, b) = key
  · subst hk
    rw [if_pos rfl, Function.update_self]
  · rw [he.block hk, he.writes hk]
    split
    · rename_i hn
      rw [Function.update_of_ne]
      rintro rfl
      exact hk (Prod.ext hn rfl)
    · rfl

/-- A block that holds what it held before. -/
theorem Elsewhere.file {us' : DataKey → List (Update Char)} (he : Elsewhere key us us' p p')
    (h : Blocks blocksize us flat p)
    (hsame : overlay nul (blockOf (p'.block key)) (us' key) = overlay nul (blockOf (p.block key)) (us key))
    (n : Nat) : Assembles nul blocksize
      (fun b => overlay nul (blockOf (p'.block (n, b))) (us' (n, b))) (flat n) := by
  rw [he.blocks n]
  split
  · rename_i hn
    rw [hsame]
    refine (h.file n).congr fun b => ?_
    by_cases hb : b = key.2
    · rw [hb, Function.update_self, hn]
    · rw [Function.update_of_ne hb]
  · exact h.file n

/-- A block was fetched, if it was not in the cache. -/
theorem Opened.blocks (h : Opened p key P di p') (hb : Blocks blocksize us flat p)
    (hP : ∀ x, P x → Loaded p key x) : Blocks blocksize us flat p' := by
  obtain ⟨hdi, hkey, base, hholds, hbase⟩ := h.object hb fun x hx => Or.inl (hP x hx)
  obtain ⟨-, rfl⟩ | ⟨rfl, hclean, x, hx, rfl⟩ := h.either
  · exact hb
  · have hself : (p.opened key x).data p.nextData = x := Function.update_self _ _ _
    have hcache : (p.opened key x).dataCache key = some p.nextData := Function.update_self _ _ _
    have he : Elsewhere key us us p (p.opened key x) := by
      refine ⟨fun {k di} hdi => ?_, fun hk => h.other hk, fun _ => rfl, fun _ => rfl, fun _ hdi => ?_⟩
      · by_cases hk : k = key
        · rw [hk, hcache] at hdi
          rw [← Option.some.inj hdi]
          exact Nat.lt_succ_self _
        · rw [h.other hk] at hdi
          exact (hb.used hdi).trans (Nat.lt_succ_self _)
      · exact h.data (hb.used hdi)
    refine hb.change he (fun r hr => hb.versions hr) (fun di hdi => ?_) (fun _ => ⟨_, hcache⟩)
      (he.file hb rfl)
    rw [hcache] at hdi
    obtain rfl := Option.some.inj hdi
    refine ⟨hkey, ?_⟩
    have hus := Opened.nothing hb hclean
    rw [hself, hP x hx, hus]
    exact ⟨_, ⟨rfl, rfl, fun _ hu => nomatch hu⟩, Or.inl ⟨rfl, rfl⟩⟩

/-- A write within one block. -/
theorem Opened.write (h : Opened p key P di p') (hb : Blocks blocksize us flat p)
    (hP : ∀ x, P x → Loaded p key x ∨ Created key x) {bytes : Str} {offset : Nat} (hbytes : bytes ≠ [])
    (hkey2 : key.2 = offset / blocksize) (hfit : offset % blocksize + bytes.length ≤ blocksize)
    {info : DataInfo}
    (hinfo : (p'.data di).toDataInfo.updateData bytes (offset % blocksize) = some info) :
    Blocks blocksize (Function.update us key (us key ++ [⟨offset % blocksize, bytes⟩]))
      (Function.update flat key.1 (write nul (flat key.1) ⟨offset, bytes⟩))
      (p'.setBlock di ⟨info, (p'.data di).key⟩) := by
  obtain ⟨hdi, hkey, base, hholds, hbase⟩ := h.object hb hP
  obtain ⟨hholds', hversion⟩ := DataInfo.updateData_holds hholds hbytes hinfo
  have hus : Function.update us key (us key ++ [⟨offset % blocksize, bytes⟩]) key = _ :=
    Function.update_self _ _ _
  have hself : (p'.setBlock di ⟨info, (p'.data di).key⟩).data di = ⟨info, (p'.data di).key⟩ :=
    Function.update_self _ _ _
  have hne : ∀ {k di'}, k ≠ key → p.dataCache k = some di' → di' ≠ di := by
    rintro k di' hk hdi' rfl
    have hk' : (p'.data di').key = k := by
      rw [h.data (hb.used hdi')]
      exact hb.key hdi'
    exact hk (hk'.symm.trans hkey)
  have he : Elsewhere key us (Function.update us key (us key ++ [⟨offset % blocksize, bytes⟩])) p
      (p'.setBlock di ⟨info, (p'.data di).key⟩) := by
    refine ⟨fun {k di'} hdi' => ?_, fun hk => h.other hk, fun {k} _ => ?_,
      fun hk => Function.update_of_ne hk _ _, fun hk hdi' => ?_⟩
    · by_cases hk : k = key
      · have hcache : p'.dataCache k = some di' := hdi'
        rw [hk, h.cached] at hcache
        rw [← Option.some.inj hcache]
        exact hdi
      · exact (hb.used ((h.other hk).symm.trans hdi')).trans_le h.next
    · exact congrFun h.block k
    · exact (Function.update_of_ne (hne hk hdi') _ _).trans (h.data (hb.used hdi'))
  have hblock : (p'.setBlock di ⟨info, (p'.data di).key⟩).block key = p.block key := congrFun h.block key
  refine hb.change he (fun r hr => hb.versions (hblock.symm.trans hr)) (fun di' hdi' => ?_)
    (fun _ => ⟨di, h.cached⟩) fun n => ?_
  · obtain rfl : di = di' := Option.some.inj (h.cached.symm.trans hdi')
    rw [hself, hblock, hus]
    refine ⟨hkey, base, hholds', hbase.imp (fun hc => ?_) fun hblind => ?_⟩
    · exact ⟨hversion.trans hc.1, hc.2⟩
    · exact ⟨by simp, hversion.trans hblind.1, hblind.2⟩
  · rw [he.blocks n, hblock, hus]
    by_cases hn : n = key.1
    · subst hn
      rw [if_pos rfl, Function.update_self, overlay_append]
      have hwrite := (hb.file key.1).write (u := ⟨offset, bytes⟩) hfit
      rw [← hkey2] at hwrite
      exact hwrite
    · rw [if_neg hn, Function.update_of_ne hn]
      exact hb.file n

/-- A block is stored with its writes. -/
theorem Blocks.flushed (h : Blocks blocksize us flat p) (hdi : p.dataCache key = some di) {new : Str}
    (hnew : new ≠ []) :
    Blocks blocksize (Function.update us key []) flat
      (p.flushed di (overlay nul (blockOf (p.block key)) (us key)) new) := by
  have hkey := h.key hdi
  have hself : (p.flushed di (overlay nul (blockOf (p.block key)) (us key)) new).data di =
      ⟨⟨new, overlay nul (blockOf (p.block key)) (us key), []⟩, (p.data di).key⟩ := Function.update_self _ _ _
  have hblock : (p.flushed di (overlay nul (blockOf (p.block key)) (us key)) new).block key =
      some ⟨overlay nul (blockOf (p.block key)) (us key), new⟩ := by
    show Function.update p.block (p.data di).key _ key = _
    rw [hkey, Function.update_self]
  have hus : Function.update us key [] key = [] := Function.update_self _ _ _
  have he : Elsewhere key us (Function.update us key []) p
      (p.flushed di (overlay nul (blockOf (p.block key)) (us key)) new) := by
    refine ⟨h.used, fun _ => rfl, fun hk => ?_, fun hk => Function.update_of_ne hk _ _, fun hk hdi' => ?_⟩
    · show Function.update p.block (p.data di).key _ _ = _
      rw [hkey, Function.update_of_ne hk]
    · refine Function.update_of_ne ?_ _ _
      rintro rfl
      exact hk (h.inj hdi' hdi)
  refine h.change he (fun r hr => ?_) (fun di' hdi' => ?_) (fun hne => absurd hus hne) (he.file h ?_)
  · rw [hblock] at hr
    cases hr
    exact hnew
  · obtain rfl : di = di' := Option.some.inj (hdi.symm.trans hdi')
    rw [hself, hblock, hus]
    exact ⟨hkey, _, ⟨rfl, rfl, fun _ hu => nomatch hu⟩, Or.inl ⟨rfl, rfl⟩⟩
  · rw [hblock, hus]
    rfl

/-- `put_data` stores the block with its writes. -/
theorem Blocks.putData (h : Blocks blocksize us flat p) (hne : ∀ n, uuid n ≠ [])
    (hdi : p.dataCache key = some di) (fuel : Nat) :
    Shows (careful uuid) part (putData di fuel) (fun err p' => err = 0 ∧ ∃ new, new ≠ [] ∧
      p' = p.flushed di (overlay nul (blockOf (p.block key)) (us key)) new) p := by
  have hkey := h.key hdi
  obtain ⟨base, hholds, hbase⟩ := h.copy hdi
  have hcurrent : Current (p.block key) base (p.data di).toDataInfo →
      Shows (careful uuid) part (Lone.putData di fuel) (fun err p' => err = 0 ∧ ∃ new, new ≠ [] ∧
        p' = p.flushed di (overlay nul (blockOf (p.block key)) (us key)) new) p := by
    rintro ⟨hversion, rfl⟩
    rw [← hholds.d]
    refine putData_current hne ?_ fuel
    rw [hkey]
    exact hversion.symm
  obtain hc | ⟨-, hversion, rfl⟩ := hbase
  · exact hcurrent hc
  · cases hr : p.block key with
    | none =>
      rw [← hr]
      refine hcurrent ⟨?_, ?_⟩
      · rw [hr, hversion]
        rfl
      · rw [hr]
        rfl
    | some r =>
      have hr' : p.block (p.data di).key = some r := by rw [hkey, hr]
      refine putData_merge hne hr' ?_ hholds fuel
      rw [hversion]
      exact h.versions hr

/-! ### Truncation -/

/-- The blocks `blocknums` of inode `n` are neither cached nor stored. -/
def Part.removedAll (p : Part) (n : Nat) (blocknums : List Nat) : Part :=
  blocknums.foldl (fun p b => p.removed (n, b)) p

theorem removedAll_data (p : Part) (n : Nat) (blocknums : List Nat) :
    (p.removedAll n blocknums).data = p.data ∧ (p.removedAll n blocknums).nextData = p.nextData ∧
      (p.removedAll n blocknums).pmap = p.pmap ∧ (p.removedAll n blocknums).log = p.log := by
  induction blocknums generalizing p with
  | nil => exact ⟨rfl, rfl, rfl, rfl⟩
  | cons b blocknums ih => exact ih (p.removed (n, b))

theorem removedAll_of_mem {blocknums : List Nat} {b : Nat} (hb : b ∈ blocknums) (p : Part) (n : Nat) :
    (p.removedAll n blocknums).dataCache (n, b) = none ∧ (p.removedAll n blocknums).block (n, b) = none := by
  induction blocknums generalizing p with
  | nil => cases hb
  | cons c blocknums ih =>
    by_cases hmem : b ∈ blocknums
    · exact ih hmem _
    · obtain rfl : b = c := (List.mem_cons.mp hb).resolve_right hmem
      have hkept : ∀ q : Part, q.dataCache (n, b) = none ∧ q.block (n, b) = none →
          (q.removedAll n blocknums).dataCache (n, b) = none ∧
            (q.removedAll n blocknums).block (n, b) = none := by
        clear ih hb hmem
        induction blocknums with
        | nil => exact fun _ hq => hq
        | cons c blocknums ih =>
          refine fun q hq => ih _ ⟨?_, ?_⟩
          · show Function.update q.dataCache (n, c) none (n, b) = none
            rw [Function.update_apply, hq.1, ite_self]
          · show Function.update q.block (n, c) none (n, b) = none
            rw [Function.update_apply, hq.2, ite_self]
      exact hkept _ ⟨Function.update_self _ _ _, Function.update_self _ _ _⟩

theorem removedAll_of_not_mem {blocknums : List Nat} {k : DataKey} (p : Part) {n : Nat}
    (hk : k.1 = n → k.2 ∉ blocknums) :
    (p.removedAll n blocknums).dataCache k = p.dataCache k ∧
      (p.removedAll n blocknums).block k = p.block k := by
  induction blocknums generalizing p with
  | nil => exact ⟨rfl, rfl⟩
  | cons c blocknums ih =>
    have hne : k ≠ (n, c) := by
      rintro rfl
      exact hk rfl List.mem_cons_self
    obtain ⟨hcache, hblock⟩ := ih (p.removed (n, c)) fun hn hmem => hk hn (List.mem_cons_of_mem _ hmem)
    exact ⟨hcache.trans (Function.update_of_ne hne _ _), hblock.trans (Function.update_of_ne hne _ _)⟩

/-- The last block that stays is cut and stored. -/
theorem Blocks.truncateBlock (h : Blocks blocksize us flat p) (hne : ∀ n, uuid n ≠ []) (hus : us key = [])
    (offset fuel : Nat) :
    Shows (careful uuid) part (truncateBlock key offset fuel) (fun _ p' => ∃ di p1 new,
      Opened p key (Loaded p key) di p1 ∧ new ≠ [] ∧
      p' = p1.flushed di (resize nul offset (blockOf (p.block key))) new) p := by
  have hload : ∀ p', p'.block = p.block →
      Shows (careful uuid) part (getData key) (fun x p'' => Loaded p key x ∧ p'' = p') p' := by
    intro p' hblock
    refine (getData_shows p' key).mono ?_
    rintro x p'' ⟨hx, hp''⟩
    rw [hblock] at hx
    exact ⟨hx, hp''⟩
  refine (cachedBlock_shows hload).then fun di p1 h1 => part_getDi ?_
  have hb1 := h1.blocks h fun _ hx => hx
  obtain ⟨hversion, hd, -⟩ := hb1.clean h1.cached hus
  have hkey := hb1.key h1.cached
  rw [congrFun h1.block key] at hversion hd
  split
  · exact part_exit
  · rename_i info hinfo
    unfold DataInfo.truncate at hinfo
    split at hinfo
    · cases hinfo
      refine part_setDi ?_
      have hself : ∀ x, (p1.setBlock di x).data di = x := fun x => Function.update_self _ _ _
      refine (putData_current hne ?_ fuel).then ?_
      · rw [hself]
        show versionOf (p1.block (p1.data di).key) = (p1.data di).keyVersion
        rw [hkey, hversion, congrFun h1.block key]
      · rintro _ p2 ⟨-, new, hnew, rfl⟩
        refine Shows.pure ⟨di, p1, new, h1, hnew, ?_⟩
        unfold Part.flushed
        rw [hself, ← hd]
        unfold Part.setBlock
        rw [Function.update_idem]
    · cases hinfo

/-- The file is cut: its last block is, and the blocks past it are gone. -/
theorem Blocks.cut (h : Blocks blocksize us flat p) (hsize : 0 < blocksize) (hus : ∀ b, us (n, b) = [])
    {offset : Nat} (hoffset : offset < (flat n).length) {p1 : Part} {new : Str} (hnew : new ≠ [])
    (h1 : Opened p (n, offset / blocksize) (Loaded p (n, offset / blocksize)) di p1) :
    Blocks blocksize us (Function.update flat n (resize nul offset (flat n)))
      ((p1.flushed di (resize nul (offset % blocksize) (blockOf (p.block (n, offset / blocksize)))) new).removedAll n
        (List.range' (offset / blocksize + 1)
          ((flat n).length / blocksize + 1 - (offset / blocksize + 1)))) := by
  have hb1 := h1.blocks h fun _ hx => hx
  have hkey := hb1.key h1.cached
  generalize hlist : List.range' (offset / blocksize + 1)
    ((flat n).length / blocksize + 1 - (offset / blocksize + 1)) = blocknums
  have hmem : ∀ b, b ∈ blocknums ↔ offset / blocksize < b ∧ b ≤ (flat n).length / blocksize := by
    intro b
    rw [← hlist, List.mem_range'_1]
    omega
  have hstored : ∀ d, (p1.flushed di d new).block (n, offset / blocksize) = some ⟨d, new⟩ := by
    intro d
    show Function.update p1.block (p1.data di).key _ _ = _
    rw [hkey, Function.update_self]
  have hother : ∀ d k, k ≠ (n, offset / blocksize) → (p1.flushed di d new).block k = p.block k := by
    intro d k hk
    show Function.update p1.block (p1.data di).key _ _ = _
    rw [hkey, Function.update_of_ne hk, h1.block]
  generalize hd : resize nul (offset % blocksize) (blockOf (p.block (n, offset / blocksize))) = d
  obtain ⟨hdata, hnext, -, -⟩ := removedAll_data (p1.flushed di d new) n blocknums
  -- what is still cached
  have hcached : ∀ {k di'}, ((p1.flushed di d new).removedAll n blocknums).dataCache k = some di' →
      (k.1 = n → k.2 ∉ blocknums) ∧ p1.dataCache k = some di' := by
    intro k di' hdi'
    have hnot : k.1 = n → k.2 ∉ blocknums := by
      intro hk hin
      have hnone := (removedAll_of_mem hin (p1.flushed di d new) n).1
      rw [← hk, Prod.eta] at hnone
      rw [hk] at hnone
      rw [hnone] at hdi'
      cases hdi'
    exact ⟨hnot, (removedAll_of_not_mem (p1.flushed di d new) hnot).1.symm.trans hdi'⟩
  have hself : (p1.flushed di d new).data di = ⟨⟨new, d, []⟩, (p1.data di).key⟩ := Function.update_self _ _ _
  have hsame : ∀ {k di'}, p1.dataCache k = some di' → k ≠ (n, offset / blocksize) →
      (p1.flushed di d new).data di' = p1.data di' := by
    intro k di' hdi' hk
    refine Function.update_of_ne ?_ _ _
    rintro rfl
    exact hk (hb1.inj hdi' h1.cached)
  have hnot : (n, offset / blocksize).2 ∉ blocknums := by
    rw [hmem]
    exact fun hb => absurd hb.1 (lt_irrefl _)
  refine ⟨fun {k r} hr => ?_, fun {k di'} hdi' => ?_, fun {k di'} hdi' => ?_, fun {k di'} hdi' => ?_,
    fun {k} hpending => ?_, fun m => ?_⟩
  · by_cases hk : k.1 = n ∧ k.2 ∈ blocknums
    · have hnone := (removedAll_of_mem hk.2 (p1.flushed di d new) n).2
      rw [← hk.1, Prod.eta, hk.1] at hnone
      rw [hnone] at hr
      cases hr
    · rw [(removedAll_of_not_mem (p1.flushed di d new) fun hn hb => hk ⟨hn, hb⟩).2] at hr
      by_cases hk0 : k = (n, offset / blocksize)
      · rw [hk0, hstored] at hr
        cases hr
        exact hnew
      · rw [hother d k hk0] at hr
        exact h.versions hr
  · rw [hnext]
    exact hb1.used (hcached hdi').2
  · rw [hdata]
    obtain ⟨-, hdi1⟩ := hcached hdi'
    by_cases hk0 : k = (n, offset / blocksize)
    · subst hk0
      obtain rfl := Option.some.inj (h1.cached.symm.trans hdi1)
      rw [hself]
      exact hkey
    · rw [hsame hdi1 hk0]
      exact hb1.key hdi1
  · obtain ⟨hnotin, hdi1⟩ := hcached hdi'
    rw [hdata, (removedAll_of_not_mem (p1.flushed di d new) hnotin).2]
    by_cases hk0 : k = (n, offset / blocksize)
    · subst hk0
      obtain rfl := Option.some.inj (h1.cached.symm.trans hdi1)
      rw [hself, hstored, hus]
      exact ⟨d, ⟨rfl, rfl, fun _ hu => nomatch hu⟩, Or.inl ⟨rfl, rfl⟩⟩
    · rw [hsame hdi1 hk0, hother d k hk0, ← congrFun h1.block k]
      exact hb1.copy hdi1
  · have hkn : k.1 ≠ n := by
      rintro rfl
      exact hpending (hus k.2)
    obtain ⟨di', hdi'⟩ := hb1.pending hpending
    exact ⟨di', (removedAll_of_not_mem (p1.flushed di d new) fun hn => absurd hn hkn).1.trans hdi'⟩
  · by_cases hm : m = n
    · subst hm
      rw [Function.update_self]
      have hfile : Assembles nul blocksize (fun b => blockOf (p.block (m, b))) (flat m) := by
        refine (h.file m).congr fun b => ?_
        rw [hus]
        rfl
      refine (hfile.cut hsize offset).congr fun b => ?_
      rw [hus]
      show blockOf _ = if b < offset / blocksize then blockOf (p.block (m, b)) else
        if b = offset / blocksize then resize nul (offset % blocksize) (blockOf (p.block (m, b))) else []
      by_cases hb : b ∈ blocknums
      · rw [(removedAll_of_mem hb (p1.flushed di d new) m).2]
        have hb := (hmem b).mp hb
        rw [if_neg (by omega), if_neg (by omega)]
        rfl
      · rw [(removedAll_of_not_mem (p1.flushed di d new) (k := (m, b)) fun _ => hb).2]
        by_cases hb0 : b = offset / blocksize
        · subst hb0
          rw [hstored, if_neg (lt_irrefl _), if_pos rfl]
          exact hd.symm
        · rw [hother d _ fun he => hb0 (congrArg Prod.snd he)]
          by_cases hlt : b < offset / blocksize
          · rw [if_pos hlt]
          · -- past the end
            rw [if_neg hlt, if_neg hb0]
            refine hfile.eq_nil ?_
            have hlast : (flat m).length / blocksize < b := by
              by_contra hle
              exact hb ((hmem b).mpr ⟨by omega, not_lt.mp hle⟩)
            rw [Nat.mul_comm]
            exact (Nat.lt_mul_of_div_lt hlast hsize).le
    · rw [Function.update_of_ne hm]
      refine (h.file m).congr fun b => ?_
      rw [(removedAll_of_not_mem (p1.flushed di d new) (k := (m, b)) fun hn => absurd hn hm).2,
        hother d _ fun he => hm (congrArg Prod.fst he)]

/-- A file that gets longer has no new blocks. -/
theorem Blocks.extend (h : Blocks blocksize us flat p) {offset : Nat} (hoffset : (flat n).length ≤ offset) :
    Blocks blocksize us (Function.update flat n (resize nul offset (flat n))) p :=
  { h with
    file := fun m => by
      by_cases hm : m = n
      · subst hm
        rw [Function.update_self]
        exact (h.file m).extend hoffset
      · rw [Function.update_of_ne hm]
        exact h.file m }

end Blocks

end HFlat.Fuse.Lone
