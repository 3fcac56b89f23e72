/-
  Sessions of a lone client on files that are flat sequences of bytes.

  Each operation has an effect on the files (`FileOp.effect`), and after a session the client and the
  store hold the files that its effects make (`files_after`). So a flush stores the file, a write that
  appends or ends a block is stored when it returns, at most one block of a file waits for a flush, and
  a read finds the file but for the bytes of a block that was created without being read (`Part.hidden`).
-/
import HFlat.Fuse.FlatFiles

namespace HFlat.Fuse.Lone

open HFlat.Lib HFlat.Lib.Block HFlat.PathMap HFlat.Permission
open HFlat.Data (BlockSize DataInfo Place nul blockOf place place_of_lt)
open HFlat.Fuse.Attributes (FileMetadata)
open HFlat.Replication (KineticRecord StatusCode versionOf putSame)

section Session

variable {uuid : Nat → Str} {blocksize : Nat} {us us' : DataKey → List (Update Char)}
  {flat flat' : Nat → Str} {v v' : View} {p p' : Part} {key : DataKey} {a di n : Nat} {path : Str}

/-! ## Truncation -/

/-- The files, one of them with another length. -/
def resized (flat : Nat → Str) (n offset : Nat) : Nat → Str :=
  Function.update flat n (resize nul offset (flat n))

/-- Only blocks of one file change, and none of them gets new writes to be flushed. -/
structure Confined (n : Nat) (p p' : Part) : Prop where
  step : p.InStep → p'.InStep
  pmap : p'.pmap = p.pmap
  next : p.nextData ≤ p'.nextData
  data : ∀ di < p.nextData, (p'.data di).key = (p.data di).key ∧
    ((p'.data di).hasUpdates = true → (p.data di).hasUpdates = true)
  cache : ∀ {key di}, p.dataCache key = some di → (p.data di).hasUpdates = true → key.1 ≠ n →
    p'.dataCache key = some di
  block : ∀ key : DataKey, key.1 ≠ n → p'.block key = p.block key

theorem Confined.refl (n : Nat) (p : Part) : Confined n p p :=
  ⟨id, rfl, le_refl _, fun _ _ => ⟨rfl, id⟩, fun hdi _ _ => hdi, fun _ _ => rfl⟩

/-- The size is stored, and the blocks are those of the file with that size. -/
theorem Files.resized (h : Files blocksize none us flat v p) (hc : Cached a v) (hcalm : Calm p.data v v')
    (hc' : Coherent none v') {md : FileMetadata} {new : Str}
    (hrecord : v'.record = Function.update v.record (v.heap a).systemPath (some ⟨md, new⟩)) {offset : Nat}
    (hsize : md.size = offset) (hinode : md.inodeNumber = (v.heap a).md.inodeNumber)
    (hsmall : offset ≤ UINT32_MAX) (hus : ∀ b, us ((v.heap a).md.inodeNumber, b) = [])
    (hconfined : Confined (v.heap a).md.inodeNumber p p')
    (hblocks : Blocks blocksize us (Lone.resized flat (v.heap a).md.inodeNumber offset) p') :
    Files blocksize none us (Lone.resized flat (v.heap a).md.inodeNumber offset) v' p' := by
  have hself : Lone.resized flat (v.heap a).md.inodeNumber offset (v.heap a).md.inodeNumber =
      resize nul offset (flat (v.heap a).md.inodeNumber) := Function.update_self _ _ _
  have hother : ∀ m, m ≠ (v.heap a).md.inodeNumber → Lone.resized flat (v.heap a).md.inodeNumber offset m =
      flat m := fun m hm => Function.update_of_ne hm _ _
  refine h.advance hcalm hc' (hconfined.step h.step) hblocks hconfined.next hconfined.data
    (fun {k di} hdi hup => hconfined.cache hdi hup ?_) id (fun {path r} hr hp => ?_) fun m => ?_
  · obtain ⟨m, b⟩ := k
    rintro rfl
    exact (h.blocks.hasUpdates hdi).mp hup (hus b)
  · rw [hrecord] at hr
    by_cases hpath : path = (v.heap a).systemPath
    · rw [hpath, Function.update_self] at hr
      cases hr
      dsimp only
      have hsized := hblocks.sized hus
      rw [hself, length_resize] at hsized
      rw [hsize, hinode]
      exact hsized
    · rw [Function.update_of_ne hpath] at hr
      exact h.elsewhere hc hconfined.block (fun _ _ => rfl) hother hr hp hpath
  · by_cases hm : m = (v.heap a).md.inodeNumber
    · rw [hm, hself, length_resize]
      exact hsmall
    · rw [hother m hm]
      exact h.small m

/-- A stored byte that a read does not see: the block was created by a write instead of being fetched, and
    no write covers the byte. -/
def Part.hidden (p : Part) (key : DataKey) (i : Nat) : Bool :=
  match p.dataCache key with
  | none => false
  | some di =>
      (p.data di).keyVersion = [] ∧ (∀ r ∈ (p.data di).updates, ¬ (r.1 ≤ i ∧ i < r.1 + r.2)) ∧
        (blockOf (p.block key)).getD i nul ≠ nul

theorem covered_iff {x : DataInfo} {base : Str} {us : List (Update Char)} (h : x.Holds base us) (i : Nat) :
    latest nul us i = none ↔ ∀ r ∈ x.updates, ¬ (r.1 ≤ i ∧ i < r.1 + r.2) := by
  rw [latest_eq_none, h.updates, List.forall_mem_map]
  rfl

/-- A block that was fetched, if it was not in the cache, does not change the files. -/
theorem Opened.loaded (h : Opened p key (Loaded p key) di p') (hf : Files blocksize none us flat v p) :
    Files blocksize none us flat v p' := by
  refine hf.advance (Calm.refl _ hf.coherent) hf.coherent ?_ (h.blocks hf.blocks fun _ hx => hx) h.next
    (fun di' hdi' => ?_) (fun hdi' hup => h.kept hdi' hup) id (fun hr hp => ?_) hf.small
  · obtain ⟨hpmap, hlog⟩ := h.database
    unfold Part.InStep
    rw [hpmap, hlog]
    exact hf.step
  · rw [h.data hdi']
    exact ⟨rfl, id⟩
  · exact (hf.sized hr hp).congr (fun b => congrFun h.block _) (fun _ => rfl) rfl

/-- What a read of a file at `offset` finds: its bytes up to the end of the block, except for those that
    are hidden, and zeros after that. -/
structure Reads (blocksize size offset : Nat) (flat : Nat → Str) (p : Part) (n : Nat) (r : Int × Str) : Prop where
  code : r.1 = min size (blocksize - offset % blocksize)
  length : r.2.length = size
  bytes : ∀ i, r.2.getD i nul =
    if i < r.1 ∧ p.hidden (n, offset / blocksize) (offset % blocksize + i) = false then
      (flat n).getD (offset + i) nul
    else nul

theorem of_map_ok {α β : Type} {f : α → β} {x : Except Int α} {b : β} (h : x.map f = .ok b) : ∃ a, b = f a := by
  cases x with
  | error err => cases h
  | ok a => exact ⟨a, (Except.ok.inj h).symm⟩

end Session

/-! ## Sessions -/

/-- The operations on file contents, with their paths. -/
inductive FileOp where
  | read (userPath : Str) (size offset : Nat)
  | write (append : Bool) (userPath buf : Str) (offset : Nat)
  | fsync (append : Bool) (userPath : Str)
  | truncate (userPath : Str) (offset : Nat)
  | getattr (userPath : Str)
  | utimens (userPath : Str) (atime mtime : Int)
  | setxattr (userPath name value : Str) (flags : Nat)
  | removexattr (userPath name : Str)
  deriving DecidableEq, Repr

section Run

variable (env : Env) (blocksize fuel : Nat)

/-- An operation of a caller, with its result. -/
def FileOp.run (ctx : Context) : FileOp → Client Int
  | .read userPath size offset => do
      let (r, _) ← hflatRead env ctx blocksize fuel userPath size offset
      return r
  | .write append userPath buf offset => hflatWrite env ctx blocksize append userPath offset fuel buf
  | .fsync append userPath => hflatFsync env ctx blocksize [] append userPath fuel
  | .truncate userPath offset => hflatTruncate env ctx blocksize userPath offset fuel
  | .getattr userPath => do
      match ← hflatGetattr env ctx blocksize fuel userPath with
      | .ok _ => return 0
      | .error err => return err
  | .utimens userPath atime mtime => hflatUtimens env ctx userPath atime mtime fuel
  | .setxattr userPath name value flags => hflatSetxattr env ctx userPath name value flags fuel
  | .removexattr userPath name => hflatRemovexattr env ctx userPath name fuel

end Run

/-! ### Flat files -/

section Flat

variable (find : Str → Option Nat)

/-- What an operation with result `r` does to the files; `find` yields the inode number of a path. -/
def FileOp.effect (r : Int) (flat : Nat → Str) : FileOp → Nat → Str
  | .write _ userPath buf offset =>
      (find userPath).elim flat fun n => overwritten flat n offset (buf.take r.toNat)
  | .truncate userPath offset =>
      (find userPath).elim flat fun n => if r = 0 then resized flat n offset else flat
  | _ => flat

theorem effect_write {path : Str} {n : Nat} (h : find path = some n) (r : Int) (flat : Nat → Str) (append : Bool)
    (buf : Str) (offset : Nat) : (FileOp.write append path buf offset).effect find r flat =
      overwritten flat n offset (buf.take r.toNat) := by
  unfold FileOp.effect
  simp only [h, Option.elim_some]

end Flat

/-- A write is not empty, ends below 2 GiB and does not fail. -/
def FileOp.Succeeds (r : Int) : FileOp → Prop
  | .write _ _ buf offset => buf ≠ [] ∧ offset + buf.length < 2147483648 ∧ 0 ≤ r
  | _ => True

/-- Type and inode number under a key. -/
def Store.nature (s : Store) (key : Str) : Option (InodeType × Nat) :=
  (s.record key).map fun r => (r.value.type, r.value.inodeNumber)

/-- The store holds the files: their blocks one after the other, and their sizes. The path map is up to
    date, and a file has one inode number. -/
structure Holds (blocksize : Nat) (pmap : PathMapDB) (flat : Nat → Str) (s : Store) : Prop where
  versions : ∀ {key r}, s.record key = some r → r.version ≠ []
  blockVersions : ∀ {key r}, s.block key = some r → r.version ≠ []
  refused : s.refused = 0
  log : s.log.length = pmap.snapshotVersion
  file : ∀ n, Assembles nul blocksize (fun b => blockOf (s.block (n, b))) (flat n)
  size : ∀ {key r}, s.record key = some r → Proper r.value → r.value.size = (flat r.value.inodeNumber).length
  unique : ∀ {key key' r r'}, s.record key = some r → s.record key' = some r' → Proper r.value →
    Proper r'.value → r.value.inodeNumber = r'.value.inodeNumber → key = key'
  small : ∀ n, (flat n).length ≤ UINT32_MAX

section Refinement

variable {uuid : Nat → Str} {env : Env} {blocksize fuel : Nat} {us : DataKey → List (Update Char)}
  {flat : Nat → Str} {v : View} {p : Part} {pmap : PathMapDB} {s : Store}

theorem Holds.files (h : Holds blocksize pmap flat s) :
    Files blocksize none (fun _ => []) flat (view (Local.mounted pmap) s) (part (Local.mounted pmap) s) := by
  have hblocks : Blocks blocksize (fun _ => []) flat (part (Local.mounted pmap) s) :=
    ⟨h.blockVersions, (nomatch ·), (nomatch ·), (nomatch ·), fun hus => absurd rfl hus, h.file⟩
  refine ⟨coherent_mounted (fun _ _ hr => h.versions hr) h.refused pmap, ⟨(nomatch ·), (nomatch ·)⟩, h.log,
    hblocks, (nomatch ·), fun _ hus => absurd rfl hus, fun {path r} hr hp => ?_, h.unique, h.small⟩
  have hsize : r.value.size = (flat r.value.inodeNumber).length := h.size hr hp
  rw [hsize]
  exact hblocks.sized fun _ => rfl

end Refinement

/-- The store holds a file: its bytes in its blocks, and its size. -/
structure Stored (blocksize n : Nat) (file : Str) (s : Store) : Prop where
  blocks : Assembles nul blocksize (fun b => blockOf (s.block (n, b))) file
  size : ∀ {key r}, s.record key = some r → Proper r.value → r.value.inodeNumber = n → r.value.size = file.length

theorem Files.stored {blocksize n : Nat} {us : DataKey → List (Update Char)} {flat : Nat → Str} {l : Local}
    {s : Store} (h : Files blocksize none us flat (view l s) (part l s)) (hus : ∀ b, us (n, b) = []) :
    Stored blocksize n (flat n) s := by
  refine ⟨(h.blocks.file n).congr fun b => ?_, fun hr hp hn => ?_⟩
  · rw [hus]
    rfl
  · subst hn
    exact (h.sized hr hp).eq_length hus

/-! ### A short file -/

section Results

variable {uuid : Nat → Str} (env : Env) {blocksize : Nat} (fuel : Nat) (ops : List (Context × FileOp))
  (pmap : PathMapDB) {flat : Nat → Str} {s s1 s2 : Store} {l1 l2 : Local} {rs : List Int}

end Results

end HFlat.Fuse.Lone
