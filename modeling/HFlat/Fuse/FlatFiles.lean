/-
  The operations of a lone client on files that are flat sequences of bytes.

  `Files` relates the client and the store to the files: the blocks hold them (`Blocks`), writes to be
  flushed belong to the object of their file in the lookup cache, and the size in the store is that of
  the file but for such writes. Lookups and changes of attributes keep it (`Files.quiet`), a flush stores
  the writes of one block (`flush_files`), and a write and a truncation do to the file what they say.

  While `hflat_write` holds a block that no object knows of yet, this block is exempt (`but`).
-/
import HFlat.Fuse.LoneFiles

namespace HFlat.Fuse.Lone

open HFlat.Lib HFlat.Lib.Block HFlat.PathMap HFlat.Permission
open HFlat.Data (BlockSize DataInfo Place nul blockOf place_of_lt)
open HFlat.Fuse.Attributes (FileMetadata)
open HFlat.Replication (KineticRecord StatusCode versionOf putSame)

/-! ## The invariant -/

/-- The metadata of a file or directory, not of a forwarding name. -/
def Proper (md : FileMetadata) : Prop :=
  md.inodeNumber ≠ 0 ∧ md.type ≠ .HARDLINK_S ∧ md.type ≠ .FORCE_UPDATE

/-- A size in the store: all stored bytes lie below it, and past it there are only writes that are not
    flushed yet. -/
structure Sized (blocksize : Nat) (us : DataKey → List (Update Char)) (flat : Nat → Str) (p : Part)
    (n size : Nat) : Prop where
  stored : ∀ b, blockOf (p.block (n, b)) ≠ [] → blocksize * b + (blockOf (p.block (n, b))).length ≤ size
  le : size ≤ (flat n).length
  ends : (flat n).length = size ∨
    ∃ b, us (n, b) ≠ [] ∧ (flat n).length = blocksize * b + reach (us (n, b))

/-- The invariant of a session: caches that agree with the drives, and blocks that together are the flat
    files. -/
structure Files (blocksize : Nat) (but : Option DataKey) (us : DataKey → List (Update Char))
    (flat : Nat → Str) (v : View) (p : Part) : Prop where
  coherent : Coherent none v
  honest : Honest v
  step : p.InStep
  blocks : Blocks blocksize us flat p
  owns : ∀ {path a di}, v.lookupCache path = some a → (v.heap a).dirtyData = some di →
    di < p.nextData ∧ (p.data di).key.1 = (v.heap a).md.inodeNumber ∧
      ((p.data di).hasUpdates = true → p.dataCache (p.data di).key = some di)
  owned : ∀ {key}, but ≠ some key → us key ≠ [] → ∃ di path a, p.dataCache key = some di ∧
    v.lookupCache path = some a ∧ (v.heap a).dirtyData = some di
  sized : ∀ {path r}, v.record path = some r → Proper r.value →
    Sized blocksize us flat p r.value.inodeNumber r.value.size
  unique : ∀ {path path' r r'}, v.record path = some r → v.record path' = some r' → Proper r.value →
    Proper r'.value → r.value.inodeNumber = r'.value.inodeNumber → path = path'
  small : ∀ n, (flat n).length ≤ UINT32_MAX

section Files

variable {uuid : Nat → Str} {blocksize : Nat} {but : Option DataKey} {us us' : DataKey → List (Update Char)}
  {flat flat' : Nat → Str} {v v' : View} {p p' : Part} {key : DataKey} {a di n : Nat} {path : Str}

theorem Found.proper {x : MetadataInfo} (h : Found x) : Proper x.md := ⟨h.1.1, h.1.2, h.2⟩

theorem proper_congr {md md' : FileMetadata} (htype : md'.type = md.type)
    (hinode : md'.inodeNumber = md.inodeNumber) : Proper md' ↔ Proper md := by
  unfold Proper
  rw [htype, hinode]

/-- A record of the same nature was there before. -/
theorem Calm.record (h : Calm p.data v v') {r' : KineticRecord FileMetadata} (hr' : v'.record path = some r') :
    ∃ r, v.record path = some r ∧ r'.value.type = r.value.type ∧
      r'.value.inodeNumber = r.value.inodeNumber := by
  have hnature := congrFun h.nature path
  unfold View.nature at hnature
  rw [hr'] at hnature
  obtain ⟨r, hr, heq⟩ := Option.map_eq_some_iff.mp hnature.symm
  exact ⟨r, hr, (congrArg Prod.fst heq).symm, (congrArg Prod.snd heq).symm⟩

/-- Objects and records change, and blocks, but none of them gets new writes to be flushed. -/
theorem Files.advance (h : Files blocksize but us flat v p) (hcalm : Calm p.data v v')
    (hc : Coherent none v') (hstep : p'.InStep) (hblocks : Blocks blocksize us' flat' p')
    (hnext : p.nextData ≤ p'.nextData)
    (hdata : ∀ di < p.nextData, (p'.data di).key = (p.data di).key ∧
      ((p'.data di).hasUpdates = true → (p.data di).hasUpdates = true))
    (hcache : ∀ {key di}, p.dataCache key = some di → (p.data di).hasUpdates = true →
      p'.dataCache key = some di)
    (hus : ∀ {key}, us' key ≠ [] → us key ≠ [])
    (hsized : ∀ {path r}, v'.record path = some r → Proper r.value →
      Sized blocksize us' flat' p' r.value.inodeNumber r.value.size)
    (hsmall : ∀ n, (flat' n).length ≤ UINT32_MAX) : Files blocksize but us' flat' v' p' where
  coherent := hc
  honest := hcalm.honest h.coherent h.honest
  step := hstep
  blocks := hblocks
  owns {path a di} ha hdi := by
    obtain hold | ⟨hnone, -⟩ := hcalm.added ha
    · obtain ⟨hid, hdirty⟩ := hcalm.same a (h.coherent.used hold)
      have hinode : (v'.heap a).md.inodeNumber = (v.heap a).md.inodeNumber := congrArg (fun i => i.2.2.1) hid
      obtain ⟨hused, hkey, hcached⟩ := h.owns hold (hdirty.symm.trans hdi)
      obtain ⟨hkey', hup⟩ := hdata di hused
      rw [hinode, hkey']
      exact ⟨hused.trans_le hnext, hkey, fun hup' => hcache (hcached (hup hup')) (hup hup')⟩
    · rw [hnone] at hdi
      cases hdi
  owned {key} hbut hus' := by
    obtain ⟨di, path, a, hcached, ha, hdi⟩ := h.owned hbut (hus hus')
    have hused := h.coherent.used ha
    have hup := (h.blocks.hasUpdates hcached).mpr (hus hus')
    refine ⟨di, path, a, hcache hcached hup, hcalm.kept hused ha ?_, (hcalm.same a hused).2.trans hdi⟩
    rw [unflushed_of hdi]
    exact hup
  sized := hsized
  unique {path path' r r'} hr hr' hp hp' heq := by
    obtain ⟨r0, hr0, htype, hinode⟩ := hcalm.record hr
    obtain ⟨r0', hr0', htype', hinode'⟩ := hcalm.record hr'
    refine h.unique hr0 hr0' ((proper_congr htype hinode).mp hp) ((proper_congr htype' hinode').mp hp') ?_
    rw [← hinode, ← hinode', heq]
  small := hsmall

theorem Files.quiet (h : Files blocksize but us flat v p) (hquiet : Quiet p.data v v') (hc : Coherent none v') :
    Files blocksize but us flat v' p := by
  refine h.advance hquiet.toCalm hc h.step h.blocks (le_refl _) (fun _ _ => ⟨rfl, id⟩)
    (fun hdi _ => hdi) id (fun {path r'} hr' hp => ?_) h.small
  obtain ⟨r, hr, htype, hinode⟩ := hquiet.record hr'
  have hsize := hquiet.size path
  rw [hr, hr'] at hsize
  have hsize : r'.value.size = r.value.size := Option.some.inj hsize
  rw [hinode, hsize]
  exact h.sized hr ((proper_congr htype hinode).mp hp)

/-- The file of a cached object. -/
theorem Files.record (h : Files blocksize but us flat v p) (hc : Cached a v) :
    v.record (v.heap a).systemPath = some ⟨(v.heap a).md, (v.heap a).keyVersion⟩ :=
  h.coherent.stored hc.1 (by simp) hc.2.1

/-- There is one cached object for a file. -/
theorem Files.sole (h : Files blocksize but us flat v p) (hc : Cached a v) {a' : Nat} (hc' : Cached a' v)
    (hinode : (v.heap a').md.inodeNumber = (v.heap a).md.inodeNumber) : a' = a := by
  have hpath := h.unique (h.record hc') (h.record hc) hc'.2.proper hc.2.proper hinode
  have ha := hc'.1
  rw [hpath, hc.1] at ha
  exact (Option.some.inj ha).symm

theorem Files.cached (h : Files blocksize but us flat v p) (ha : v.lookupCache path = some a)
    (hdi : (v.heap a).dirtyData = some di) : Cached a v := by
  refine ⟨?_, h.honest.owners ha (by rw [hdi]; simp)⟩
  rw [h.coherent.path ha]
  exact ha

/-- Writes to be flushed are known to the object of their file. -/
theorem Files.owner (h : Files blocksize none us flat v p) (hc : Cached a v) {b : Nat}
    (hus : us ((v.heap a).md.inodeNumber, b) ≠ []) : ∃ di, (v.heap a).dirtyData = some di ∧
      p.dataCache ((v.heap a).md.inodeNumber, b) = some di := by
  obtain ⟨di, path, a', hcache, ha', hdi⟩ := h.owned (by simp) hus
  have hinode := (h.owns ha' hdi).2.1
  rw [h.blocks.key hcache] at hinode
  obtain rfl := h.sole hc (h.cached ha' hdi) hinode.symm
  exact ⟨di, hdi, hcache⟩

/-- Without unflushed data in its object a file has no writes to be flushed. -/
theorem Files.nothing (h : Files blocksize none us flat v p) (hc : Cached a v)
    (hclean : unflushed p.data (v.heap a) = false) (b : Nat) : us ((v.heap a).md.inodeNumber, b) = [] := by
  by_contra hus
  obtain ⟨di, hdi, hcache⟩ := h.owner hc hus
  rw [unflushed_of hdi, (h.blocks.hasUpdates hcache).mpr hus] at hclean
  cases hclean

/-! ### Sizes -/

theorem overlay_nil (b : Str) : overlay nul b [] = b := rfl

theorem Sized.congr {size : Nat} (h : Sized blocksize us flat p n size)
    (hblock : ∀ b, p'.block (n, b) = p.block (n, b)) (hus : ∀ b, us' (n, b) = us (n, b))
    (hflat : flat' n = flat n) : Sized blocksize us' flat' p' n size where
  stored b := by
    rw [hblock]
    exact h.stored b
  le := by
    rw [hflat]
    exact h.le
  ends := by
    rw [hflat]
    refine h.ends.imp_right ?_
    rintro ⟨b, hb⟩
    exact ⟨b, by rwa [hus]⟩

/-- Where nothing is to be flushed, the size of a file is its length. -/
theorem Blocks.sized (h : Blocks blocksize us flat p) (hus : ∀ b, us (n, b) = []) :
    Sized blocksize us flat p n (flat n).length where
  stored b hb := by
    have hwithin := (h.file n).within b
    rw [hus, overlay_nil] at hwithin
    exact hwithin hb
  le := le_refl _
  ends := Or.inl rfl

theorem Sized.eq_length {size : Nat} (h : Sized blocksize us flat p n size) (hus : ∀ b, us (n, b) = []) :
    size = (flat n).length := by
  obtain heq | ⟨b, hne, -⟩ := h.ends
  · exact heq.symm
  · exact absurd (hus b) hne

/-- Writes lie within the file. -/
theorem Blocks.reach_le (h : Blocks blocksize us flat p) {b : Nat} (hus : us (n, b) ≠ []) :
    blocksize * b + (overlay nul (blockOf (p.block (n, b))) (us (n, b))).length ≤ (flat n).length := by
  refine (h.file n).within b fun hnil => ?_
  obtain ⟨di, hdi⟩ := h.pending hus
  obtain ⟨base, hholds, -⟩ := h.copy hdi
  have hlength := congrArg List.length hnil
  rw [length_overlay, List.length_nil] at hlength
  obtain ⟨u, hu⟩ := List.exists_mem_of_ne_nil _ hus
  have hstop := stop_le_reach hu
  have hbytes := List.length_pos_iff.mpr (hholds.nonempty u hu)
  unfold Update.stop at hstop
  omega

/-! ### Lookup -/

/-- The size that a flush computes: it covers what is stored of the block and its writes, and it does not
    exceed the file. -/
theorem Files.newSize (h : Files blocksize but us flat v p) (hc : Cached a v)
    (hkey : (p.data di).key = key) (hcache : p.dataCache key = some di) (hus : us key ≠ [])
    (hinode : key.1 = (v.heap a).md.inodeNumber) (new : Str) :
    newSize blocksize (p.data di) (v.heap a).md ≤ (flat key.1).length ∧
      (v.heap a).md.size ≤ newSize blocksize (p.data di) (v.heap a).md ∧
      Sized blocksize (Function.update us key []) flat
        (p.flushed di (overlay nul (blockOf (p.block key)) (us key)) new) key.1
        (newSize blocksize (p.data di) (v.heap a).md) := by
  have hsized : Sized blocksize us flat p (v.heap a).md.inodeNumber (v.heap a).md.size :=
    h.sized (h.record hc) hc.2.proper
  rw [← hinode] at hsized
  obtain ⟨base, hholds, hbase⟩ := h.blocks.copy hcache
  have hlength : (p.data di).d.length = max base.length (reach (us key)) := by
    rw [hholds.d, length_overlay]
  have hbase : base.length ≤ (blockOf (p.block key)).length ∧
      (base ≠ [] → blocksize * key.2 + base.length ≤ (v.heap a).md.size) := by
    obtain ⟨-, rfl⟩ | ⟨-, -, rfl⟩ := hbase
    · exact ⟨le_refl _, hsized.stored key.2⟩
    · exact ⟨Nat.zero_le _, fun hn => absurd rfl hn⟩
  have hreach : blocksize * key.2 + (overlay nul (blockOf (p.block key)) (us key)).length ≤ (flat key.1).length :=
    h.blocks.reach_le hus
  rw [length_overlay] at hreach
  have hblock : (p.flushed di (overlay nul (blockOf (p.block key)) (us key)) new).block =
      Function.update p.block key (some ⟨overlay nul (blockOf (p.block key)) (us key), new⟩) := by
    rw [← hkey]
    rfl
  have hle := hsized.le
  unfold Lone.newSize
  rw [hkey, hlength]
  refine ⟨?_, le_max_right _ _, fun b hb => ?_, ?_, ?_⟩
  · exact max_le (by omega) hle
  · rw [hblock] at hb ⊢
    by_cases hk : (key.1, b) = key
    · rw [hk, Function.update_self]
      have hb2 : b = key.2 := congrArg Prod.snd hk
      show blocksize * b + (overlay nul (blockOf (p.block key)) (us key)).length ≤ _
      rw [length_overlay, hb2]
      by_cases hnil : blockOf (p.block key) = []
      · rw [hnil, List.length_nil]
        omega
      · have hstored : blocksize * key.2 + (blockOf (p.block key)).length ≤ (v.heap a).md.size :=
          hsized.stored key.2 hnil
        omega
    · rw [Function.update_of_ne hk] at hb ⊢
      exact (hsized.stored b hb).trans (le_max_right _ _)
  · exact max_le (by omega) hle
  · obtain heq | ⟨b, hne, heq⟩ := hsized.ends
    · exact Or.inl (le_antisymm (heq.le.trans (le_max_right _ _)) (max_le (by omega) hle))
    · by_cases hk : (key.1, b) = key
      · have hb2 : b = key.2 := congrArg Prod.snd hk
        rw [hk, hb2] at heq
        exact Or.inl (le_antisymm (by omega) (max_le (by omega) hle))
      · exact Or.inr ⟨b, by rw [Function.update_of_ne hk]; exact hne, by rw [Function.update_of_ne hk]; exact heq⟩

/-- What `hflat_fsync` does to blocks, objects and cache. -/
structure Flush (us' : DataKey → List (Update Char)) (flat : Nat → Str) (blocksize : Nat)
    (but : Option DataKey) (v : View) (p : Part) (w : View × Part) : Prop where
  files : Files blocksize but us' flat w.1 w.2
  calm : Calm p.data v w.1
  cache : w.2.dataCache = p.dataCache
  pmap : w.2.pmap = p.pmap

/-- Size first, then the block. -/
theorem Files.flushed (h : Files blocksize but us flat v p) (hcalm : Calm p.data v v')
    (hc' : Coherent none v') (hcache : p.dataCache key = some di) {new : Str} (hnew : new ≠ [])
    (hsized : ∀ {path r}, v'.record path = some r → Proper r.value →
      Sized blocksize (Function.update us key []) flat
        (p.flushed di (overlay nul (blockOf (p.block key)) (us key)) new) r.value.inodeNumber r.value.size) :
    Files blocksize but (Function.update us key []) flat v'
      (p.flushed di (overlay nul (blockOf (p.block key)) (us key)) new) := by
  refine h.advance hcalm hc' h.step (h.blocks.flushed hcache hnew) (le_refl _) (fun di' _ => ?_)
    (fun hdi _ => hdi) (fun {k} hus => ?_) hsized h.small
  · by_cases hd : di' = di
    · subst hd
      have hself : (p.flushed di' (overlay nul (blockOf (p.block key)) (us key)) new).data di' =
        ⟨⟨new, overlay nul (blockOf (p.block key)) (us key), []⟩, (p.data di').key⟩ := Function.update_self _ _ _
      rw [hself]
      exact ⟨rfl, fun hup => nomatch hup⟩
    · have hother : (p.flushed di (overlay nul (blockOf (p.block key)) (us key)) new).data di' = p.data di' :=
        Function.update_of_ne hd _ _
      rw [hother]
      exact ⟨rfl, id⟩
  · have hk : k ≠ key := by
      rintro rfl
      exact hus (Function.update_self _ _ _)
    rwa [Function.update_of_ne hk] at hus

/-- Sizes of other files do not change. -/
theorem Files.elsewhere (h : Files blocksize but us flat v p) (hc : Cached a v)
    (hblock : ∀ k : DataKey, k.1 ≠ (v.heap a).md.inodeNumber → p'.block k = p.block k)
    (hus : ∀ k : DataKey, k.1 ≠ (v.heap a).md.inodeNumber → us' k = us k)
    (hflat : ∀ m, m ≠ (v.heap a).md.inodeNumber → flat' m = flat m)
    {r : KineticRecord FileMetadata} (hr : v.record path = some r) (hp : Proper r.value)
    (hpath : path ≠ (v.heap a).systemPath) :
    Sized blocksize us' flat' p' r.value.inodeNumber r.value.size := by
  have hn : r.value.inodeNumber ≠ (v.heap a).md.inodeNumber := fun heq =>
    hpath (h.unique hr (h.record hc) hp hc.2.proper heq)
  exact (h.sized hr hp).congr (fun b => hblock _ hn) (fun b => hus _ hn) (hflat _ hn)

/-- What `hflat_fsync` ensures. If it succeeds, its file has nothing left to be flushed. -/
structure Synced (blocksize : Nat) (but : Option DataKey) (us us' : DataKey → List (Update Char))
    (flat : Nat → Str) (held : List Str) (target : Option Nat) (v : View) (p : Part) (err : Int)
    (w : View × Part) : Prop extends Flush us' flat blocksize but v p w where
  exempt : ∀ {key}, but = some key → us' key = us key
  within : Within held v w.1
  code : err ≤ 0 ∧ err ≠ -EAGAIN
  done : err = 0 → ∃ a, Cached a w.1 ∧ target = some (w.1.heap a).md.inodeNumber ∧
    unflushed w.2.data (w.1.heap a) = false

/-- The writes to be flushed, with a new one. -/
def written (blocksize : Nat) (us : DataKey → List (Update Char)) (n offset : Nat) (bytes : Str) :
    DataKey → List (Update Char) :=
  Function.update us (n, offset / blocksize) (us (n, offset / blocksize) ++ [⟨offset % blocksize, bytes⟩])

/-- The files, one of them with new bytes. -/
def overwritten (flat : Nat → Str) (n offset : Nat) (bytes : Str) : Nat → Str :=
  Function.update flat n (write nul (flat n) ⟨offset, bytes⟩)

theorem Sized.write {size : Nat} (h : Sized blocksize us flat p n size) (hb : Blocks blocksize us flat p)
    (hblock : p'.block = p.block) (offset : Nat) (bytes : Str) :
    Sized blocksize (written blocksize us n offset bytes) (overwritten flat n offset bytes) p' n size := by
  have hdiv := Nat.div_add_mod offset blocksize
  have hlength : (overwritten flat n offset bytes n).length = max (flat n).length (offset + bytes.length) := by
    unfold overwritten
    rw [Function.update_self, length_write]
    rfl
  have hself : written blocksize us n offset bytes (n, offset / blocksize) =
      us (n, offset / blocksize) ++ [⟨offset % blocksize, bytes⟩] := Function.update_self _ _ _
  have hreach : reach (us (n, offset / blocksize) ++ [⟨offset % blocksize, bytes⟩]) =
      max (reach (us (n, offset / blocksize))) (offset % blocksize + bytes.length) := by
    rw [reach_append]
    unfold reach reach Update.stop
    rw [Nat.max_zero]
  -- writes that are there already end before the file does
  have hold : us (n, offset / blocksize) ≠ [] →
      blocksize * (offset / blocksize) + reach (us (n, offset / blocksize)) ≤ (flat n).length := by
    intro hne
    have hle := hb.reach_le hne
    rw [length_overlay] at hle
    omega
  refine ⟨fun b => ?_, ?_, ?_⟩
  · rw [hblock]
    exact h.stored b
  · rw [hlength]
    exact h.le.trans (le_max_left _ _)
  · rw [hlength]
    by_cases hlt : (flat n).length < offset + bytes.length
    · refine Or.inr ⟨offset / blocksize, ?_, ?_⟩
      · rw [hself]
        simp
      · rw [hself, hreach]
        by_cases hnil : us (n, offset / blocksize) = []
        · rw [hnil]
          unfold reach
          omega
        · have := hold hnil
          omega
    · obtain heq | ⟨b, hne, heq⟩ := h.ends
      · exact Or.inl (by omega)
      · refine Or.inr ⟨b, ?_, ?_⟩
        · by_cases hkey : (n, b) = (n, offset / blocksize)
          · rw [hkey, hself]
            simp
          · unfold written
            rw [Function.update_of_ne hkey]
            exact hne
        · by_cases hkey : (n, b) = (n, offset / blocksize)
          · obtain rfl : b = offset / blocksize := congrArg Prod.snd hkey
            rw [hself, hreach]
            omega
          · unfold written
            rw [Function.update_of_ne hkey]
            omega

/-- The block that a write goes to has been opened and changed. -/
theorem Opened.files {P : BlockInfo → Prop} (h : Opened p key P di p') (hf : Files blocksize none us flat v p)
    (hP : ∀ x, P x → Loaded p key x ∨ Created key x) {bytes : Str} {offset : Nat} (hbytes : bytes ≠ [])
    (hkey2 : key.2 = offset / blocksize) (hfit : offset % blocksize + bytes.length ≤ blocksize)
    (hend : offset + bytes.length ≤ UINT32_MAX) {info : DataInfo}
    (hinfo : (p'.data di).toDataInfo.updateData bytes (offset % blocksize) = some info) :
    Files blocksize (some key) (written blocksize us key.1 offset bytes) (overwritten flat key.1 offset bytes) v
      (p'.setBlock di ⟨info, (p'.data di).key⟩) := by
  have hkey : (key.1, offset / blocksize) = key := by
    rw [← hkey2]
  obtain ⟨-, hdikey, -⟩ := h.object hf.blocks hP
  have hself : (p'.setBlock di ⟨info, (p'.data di).key⟩).data di = ⟨info, (p'.data di).key⟩ :=
    Function.update_self _ _ _
  have hother : ∀ {k}, k ≠ key → written blocksize us key.1 offset bytes k = us k := by
    intro k hk
    refine Function.update_of_ne ?_ _ _
    rw [hkey]
    exact hk
  refine ⟨hf.coherent, hf.honest, ?_, ?_, fun {path a di'} ha hdi' => ?_, fun {k} hbut hus => ?_,
    fun {path r} hr hp => ?_, hf.unique, fun n => ?_⟩
  · obtain ⟨hpmap, hlog⟩ := h.database
    show p'.log.length = p'.pmap.snapshotVersion
    rw [hpmap, hlog]
    exact hf.step
  · unfold written overwritten
    rw [hkey]
    exact h.write hf.blocks hP hbytes hkey2 hfit hinfo
  · obtain ⟨hused, hinode, hcached⟩ := hf.owns ha hdi'
    refine ⟨hused.trans_le h.next, ?_⟩
    by_cases hd : di' = di
    · subst hd
      have hsame : (p'.data di').key = (p.data di').key := congrArg BlockInfo.key (h.data hused)
      rw [hself, hsame]
      refine ⟨hinode, fun _ => ?_⟩
      rw [← hsame, hdikey]
      exact h.cached
    · have hdata : (p'.setBlock di ⟨info, (p'.data di).key⟩).data di' = p.data di' :=
        (Function.update_of_ne hd _ _).trans (h.data hused)
      rw [hdata]
      exact ⟨hinode, fun hup => h.kept (hcached hup) hup⟩
  · have hk : k ≠ key := fun he => hbut (congrArg some he.symm)
    rw [hother hk] at hus
    obtain ⟨di', path, a, hcached, ha, hdi'⟩ := hf.owned (by simp) hus
    exact ⟨di', path, a, (h.other hk).trans hcached, ha, hdi'⟩
  · have hsized := hf.sized hr hp
    by_cases hn : r.value.inodeNumber = key.1
    · rw [hn] at hsized ⊢
      have hblock : (p'.setBlock di ⟨info, (p'.data di).key⟩).block = p.block := h.block
      exact hsized.write hf.blocks hblock offset bytes
    · refine hsized.congr (fun b => congrFun h.block _) (fun b => hother ?_) (Function.update_of_ne hn _ _)
      rintro rfl
      exact hn rfl
  · unfold overwritten
    by_cases hn : n = key.1
    · rw [hn, Function.update_self, length_write]
      exact max_le (hf.small _) hend
    · rw [Function.update_of_ne hn]
      exact hf.small n

/-- What `do_rw` ensures. -/
structure Written (blocksize : Nat) (us : DataKey → List (Update Char)) (flat : Nat → Str) (v : View)
    (p : Part) (n offset : Nat) (buf : Str) (r : Nat × Nat) (w : View × Part) : Prop where
  view : w.1 = v
  size : r.1 = min buf.length (blocksize - offset % blocksize)
  cached : w.2.dataCache (n, offset / blocksize) = some r.2
  pmap : w.2.pmap = p.pmap
  files : Files blocksize (some (n, offset / blocksize)) (written blocksize us n offset (buf.take r.1))
    (overwritten flat n offset (buf.take r.1)) v w.2

/-- The block belongs to its object. -/
theorem Files.known (h : Files blocksize (some key) us flat v p) (hc : Cached a v)
    (hcached : p.dataCache key = some di) (hdi : (v.heap a).dirtyData = some di) :
    Files blocksize none us flat v p :=
  { h with
    owned := fun {k} _ hus => by
      by_cases hk : key = k
      · subst hk
        exact ⟨di, _, a, hcached, hc.1, hdi⟩
      · exact h.owned (fun he => hk (Option.some.inj he)) hus }

/-- The block gets to belong to its object, which has nothing else to be flushed. -/
theorem Files.own (h : Files blocksize (some key) us flat v p) (hc : Cached a v)
    (hcached : p.dataCache key = some di) (hinode : key.1 = (v.heap a).md.inodeNumber)
    (hclean : unflushed p.data (v.heap a) = false) :
    Files blocksize none us flat (v.setObject a { v.heap a with dirtyData := some di }) p where
  coherent := h.coherent.same rfl rfl rfl
  honest := by
    refine ⟨fun {path b} hb => ?_, fun {path b} hb hdirty => ?_⟩
    · refine (h.honest.linked hb).congr ?_ rfl
      by_cases hba : b = a
      · rw [hba, setObject_heap_self]
        rfl
      · rw [setObject_heap_of_ne _ _ hba]
    · by_cases hba : b = a
      · rw [hba, setObject_heap_self]
        exact hc.2
      · rw [setObject_heap_of_ne _ _ hba] at hdirty ⊢
        exact h.honest.owners hb hdirty
  step := h.step
  blocks := h.blocks
  owns {path b di'} hb hdi' := by
    by_cases hba : b = a
    · rw [hba, setObject_heap_self] at hdi' ⊢
      obtain rfl := Option.some.inj hdi'
      rw [h.blocks.key hcached]
      exact ⟨h.blocks.used hcached, hinode, fun _ => hcached⟩
    · rw [setObject_heap_of_ne _ _ hba] at hdi' ⊢
      exact h.owns hb hdi'
  owned {k} _ hus := by
    by_cases hk : key = k
    · subst hk
      refine ⟨di, _, a, hcached, hc.1, ?_⟩
      rw [setObject_heap_self]
    · obtain ⟨di', path, b, hdi', hb, hdirty⟩ := h.owned (fun he => hk (Option.some.inj he)) hus
      refine ⟨di', path, b, hdi', hb, ?_⟩
      rw [setObject_heap_of_ne _ _ ?_]
      · exact hdirty
      · rintro rfl
        rw [unflushed_of hdirty, (h.blocks.hasUpdates hdi').mpr hus] at hclean
        cases hclean
  sized := h.sized
  unique := h.unique
  small := h.small

/-- The files after an operation. The path map stays as it is, and so do types and inode numbers. -/
structure After (blocksize : Nat) (us : DataKey → List (Update Char)) (flat : Nat → Str) (v : View)
    (p : Part) (w : View × Part) : Prop where
  files : Files blocksize none us flat w.1 w.2
  nature : w.1.nature = v.nature
  pmap : w.2.pmap = p.pmap

/-- After a flush that succeeds the file has no writes to be flushed. -/
theorem Synced.nothing {held : List Str} {target : Option Nat} {err : Int} {w : View × Part}
    (h : Synced blocksize none us us' flat held target v p err w) (h0 : err = 0) (ht : target = some n)
    (b : Nat) : us' (n, b) = [] := by
  obtain ⟨a, hc, htarget, hclean⟩ := h.done h0
  obtain rfl := Option.some.inj (ht.symm.trans htarget)
  exact h.files.nothing hc hclean b

theorem Synced.after {held : List Str} {target : Option Nat} {err : Int} {w : View × Part}
    (h : Synced blocksize none us us' flat held target v p err w) : After blocksize us' flat v p w :=
  ⟨h.files, h.calm.nature, h.pmap⟩

theorem After.trans {w w' : View × Part} (h : After blocksize us flat v p w)
    (h' : After blocksize us' flat' w.1 w.2 w') : After blocksize us' flat' v p w' :=
  ⟨h'.files, h'.nature.trans h.nature, h'.pmap.trans h.pmap⟩

/-- A write that does not fail: as many bytes as there is room in the block are in the file. They are
    stored if the block is full or the file was opened with `O_APPEND`. -/
structure Wrote (blocksize : Nat) (append : Bool) (offset : Nat) (buf : Str) (flat : Nat → Str)
    (target : Option Nat) (v : View) (p : Part) (r : Int) (w : View × Part) : Prop where
  size : r = min buf.length (blocksize - offset % blocksize)
  file : ∃ n us', target = some n ∧ After blocksize us' (overwritten flat n offset (buf.take r.toNat)) v p w ∧
    (append = true ∨ (offset + r.toNat) % blocksize = 0 → ∀ b, us' (n, b) = [])

end Files

end HFlat.Fuse.Lone
