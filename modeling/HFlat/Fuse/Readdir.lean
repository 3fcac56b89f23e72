/-
  Directory listings of the `DistributedKineticNamespace`: `keyToPartition` and `GetKeyRange` of
  `distributed_kinetic_namespace.cc`, and the loop of `hflat_readdir` (`fuseops/directory.cc`)
  after `lookup` and `check_access` have let the caller in. All drives are reachable, and the
  index of a partition is its id.

  An entry goes to one of `direntry_clustersize` partitions, beginning with the one of its
  directory. A listing reads as many partitions, beginning with the one of its start key. On the
  first page that is the key of the directory, on a later page the last key of the page before,
  which is an entry and may itself be in a later partition (`readdir_once_iff`). With a
  `direntry_clustersize` of one all entries are in the same partition (`covered_of_one`).
-/
import Mathlib.Data.List.Iterate
import Mathlib.Data.Nat.ModEq
import HFlat.Lib.Paging
import HFlat.Replication.Namespace
import HFlat.Fuse.Model

namespace HFlat.Fuse.Readdir

open HFlat.Lib
open HFlat.Replication (Records KineticRecord StatusCode WriteOp maxsize)

/-! ## Partitions of a namespace -/

/-- What the constructor of `DistributedKineticNamespace` is given, and the hash function of the
    platform. -/
structure Config where
  hash : Str → UInt64
  size : Nat
  clustersize : Nat
  size_pos : 0 < size
  clustersize_pos : 0 < clustersize

/-- `keyToPartition`: the partition of the directory, and for an entry an offset by the hash of its key. -/
def keyToPartition (c : Config) (key : Str) : Nat :=
  let dirslash := key.idxOf '|'
  let keyhash := (c.hash (key.take dirslash)).toNat
  let keyhash :=
    if dirslash ≠ key.length ∧ dirslash ≠ key.length - 1 then
      (keyhash + (c.hash key).toNat % c.clustersize) % UInt64.size
    else keyhash
  keyhash % c.size

/-- The records of each partition; every key is where `keyToPartition` puts it. -/
structure Cluster (c : Config) where
  partition : Nat → Records
  placed : ∀ p k, k ∈ (partition p).keys → keyToPartition c k = p

namespace Cluster

variable {c : Config}

/-- A cluster without keys. -/
def empty (c : Config) : Cluster c := ⟨fun _ => Records.empty, fun _ _ h => absurd h List.not_mem_nil⟩

/-- `Get` of a key. -/
def get (s : Cluster c) (key : Str) : Option (KineticRecord Str) :=
  (s.partition (keyToPartition c key)).find key

/-- The record of `key` becomes `r`. -/
def set (s : Cluster c) (key : Str) (r : Option (KineticRecord Str)) : Cluster c where
  partition := Function.update s.partition (keyToPartition c key)
    ((s.partition (keyToPartition c key)).set key r)
  placed := by
    intro p k hk
    by_cases hp : p = keyToPartition c key
    · subst hp
      rw [Function.update_self, Records.mem_keys, Records.find_set] at hk
      by_cases hkey : k = key
      · rw [hkey]
      · rw [if_neg hkey, ← Records.mem_keys] at hk
        exact s.placed _ k hk
    · rw [Function.update_of_ne hp] at hk
      exact s.placed p k hk

/-- `Put` and `Delete`. -/
def write (s : Cluster c) (key : Str) (op : WriteOp) : StatusCode × Cluster c :=
  let (status, r) := op.apply (s.get key)
  (status, s.set key r)

end Cluster

/-! ## Listing a directory -/

variable {c : Config}

/-- The partitions that `GetKeyRange` reads, in their order. -/
def visited (c : Config) (startKey : Str) : List Nat :=
  List.iterate (fun p => (p + 1) % c.size) (keyToPartition c startKey) c.clustersize

/-- `GetKeyRange`: the keys of the partitions that are visited, in order, and the first of them. -/
def getKeyRange (s : Cluster c) (startKey endKey : Str) (maxResults : Nat) : List Str :=
  let keys := (visited c startKey).flatMap fun p => (s.partition p).openRange startKey endKey maxResults
  (keys.insertionSort (· ≤ ·)).take maxResults

/-- The key before all entries of a directory. -/
def keystart (inode : Nat) : Str := toStr inode ++ ['|']

/-- The key after the entries that `hflat_readdir` reads. -/
def keyend (inode : Nat) : Str := toStr inode ++ ['|'] ++ [Char.ofNat 251]

/-- The name in the key of an entry. -/
def filename (element : Str) : Str := element.drop (element.idxOf '|' + 1)

/-- The pages of `hflat_readdir`; `keys` is the page before. -/
def readPages (s : Cluster c) (stop : Str) : Nat → Str → List Str → Option (List Str)
  | 0, _, _ => none
  | fuel + 1, start, keys =>
      let start := keys.getLastD start
      let keys := getKeyRange s start stop maxsize
      let names := keys.map filename
      if keys.length = maxsize then (readPages s stop fuel start keys).map (names ++ ·)
      else some names

/-- The names that `hflat_readdir` passes to `filldir`. -/
def hflatReaddir (s : Cluster c) (inode fuel : Nat) : Option (List Str) :=
  readPages s (keyend inode) fuel (keystart inode) []

/-- An entry has the key `inode|name`. -/
def Cluster.HasEntry (s : Cluster c) (inode : Nat) (name : Str) : Prop :=
  name ≠ [] ∧ s.get (direntryKey inode name) ≠ none

/-! ## The keys of a directory -/

/-- All keys below `stop`, in byte order. -/
def Cluster.keysBelow (s : Cluster c) (stop : Str) : List Str :=
  ((List.range c.size).flatMap fun p => (s.partition p).keys.filter (· < stop)).insertionSort (· ≤ ·)

/-- The keys of the entries of a directory, in byte order. -/
def Cluster.directory (s : Cluster c) (inode : Nat) : List Str :=
  above (keystart inode) (s.keysBelow (keyend inode))

/-- On every page the partition of each entry is read once, that of the hundredth entry at least
    once. A page starts with the partition of the directory or of the last entry before it. -/
def Cluster.Covered (s : Cluster c) (inode : Nat) : Prop :=
  Paged (fun start key => (visited c start).count (keyToPartition c key)) maxsize (keystart inode) 0
    (s.directory inode)

theorem keyToPartition_lt (key : Str) : keyToPartition c key < c.size := Nat.mod_lt _ c.size_pos

theorem Cluster.mem_partition_iff (s : Cluster c) {p : Nat} {k : Str} :
    k ∈ (s.partition p).keys ↔ p = keyToPartition c k ∧ s.get k ≠ none := by
  constructor
  · intro h
    obtain rfl := s.placed p k h
    exact ⟨rfl, (Records.mem_keys _ k).mp h⟩
  · rintro ⟨rfl, h⟩
    exact (Records.mem_keys _ k).mpr h

theorem Cluster.mem_keysBelow_iff (s : Cluster c) {stop k : Str} :
    k ∈ s.keysBelow stop ↔ s.get k ≠ none ∧ k < stop := by
  unfold Cluster.keysBelow
  rw [List.mem_insertionSort, List.mem_flatMap]
  constructor
  · rintro ⟨p, -, hk⟩
    obtain ⟨hk, hstop⟩ := List.mem_filter.mp hk
    exact ⟨(s.mem_partition_iff.mp hk).2, of_decide_eq_true hstop⟩
  · rintro ⟨hk, hstop⟩
    refine ⟨keyToPartition c k, List.mem_range.mpr (keyToPartition_lt k), List.mem_filter.mpr ?_⟩
    exact ⟨s.mem_partition_iff.mpr ⟨rfl, hk⟩, decide_eq_true hstop⟩

theorem Cluster.pairwise_keysBelow (s : Cluster c) (stop : Str) : (s.keysBelow stop).Pairwise (· < ·) := by
  have hnodup : (s.keysBelow stop).Nodup := by
    unfold Cluster.keysBelow
    rw [(List.perm_insertionSort (· ≤ ·) _).nodup_iff, List.nodup_flatMap]
    constructor
    · intro p _
      exact ((s.partition p).sorted.imp fun h => h.ne).filter _
    · apply List.nodup_range.imp
      intro p q hpq k hp hq
      apply hpq
      rw [← s.placed p k (List.mem_of_mem_filter hp), ← s.placed q k (List.mem_of_mem_filter hq)]
  have hsorted : (s.keysBelow stop).Pairwise (· ≤ ·) := List.pairwise_insertionSort _ _
  exact (hsorted.and hnodup).imp fun h => lt_of_le_of_ne h.1 h.2

/-- A key between `d` and `d` with one more character begins with `d`. -/
theorem eq_append_of_between {d k : Str} {x : Char} (h : d < k) (h' : k < d ++ [x]) :
    ∃ r, r ≠ [] ∧ k = d ++ r := by
  induction d generalizing k with
  | nil =>
    refine ⟨k, ?_, rfl⟩
    rintro rfl
    exact absurd h (lt_irrefl _)
  | cons y d ih =>
    cases k with
    | nil => exact absurd h (List.not_lt_nil _)
    | cons z k =>
      rw [List.cons_append] at h'
      rcases List.cons_lt_cons_iff.mp h with hlt | ⟨rfl, hlt⟩
      · rcases List.cons_lt_cons_iff.mp h' with hlt' | ⟨rfl, -⟩
        · exact absurd hlt (lt_asymm hlt')
        · exact absurd hlt (lt_irrefl _)
      · rcases List.cons_lt_cons_iff.mp h' with hlt' | ⟨-, hlt'⟩
        · exact absurd hlt' (lt_irrefl _)
        · obtain ⟨r, hr, rfl⟩ := ih hlt hlt'
          exact ⟨r, hr, rfl⟩

theorem keystart_lt {inode : Nat} {name : Str} (h : name ≠ []) :
    keystart inode < direntryKey inode name := by
  obtain ⟨x, name, rfl⟩ := List.exists_cons_of_ne_nil h
  have hlt : keystart inode ++ [] < keystart inode ++ (x :: name) :=
    List.append_left_lt (List.nil_lt_cons _ _)
  simpa [keystart, direntryKey] using hlt

theorem idxOf_bar (inode : Nat) (name : Str) : (direntryKey inode name).idxOf '|' = (toStr inode).length := by
  have hbar : '|' ∉ toStr inode := not_mem_toStr (by decide)
  unfold direntryKey
  rw [List.append_assoc, List.idxOf_append_of_notMem hbar]
  simp

theorem filename_direntryKey (inode : Nat) (name : Str) : filename (direntryKey inode name) = name := by
  unfold filename
  rw [idxOf_bar]
  unfold direntryKey
  rw [List.append_assoc, List.drop_append]
  simp

theorem Cluster.mem_directory_iff (s : Cluster c) {inode : Nat} {k : Str} :
    k ∈ s.directory inode ↔
      ∃ name, s.HasEntry inode name ∧ k = direntryKey inode name ∧ k < keyend inode := by
  unfold Cluster.directory
  rw [mem_above, s.mem_keysBelow_iff]
  constructor
  · rintro ⟨⟨hget, hlt⟩, hgt⟩
    obtain ⟨name, hname, rfl⟩ := eq_append_of_between hgt hlt
    exact ⟨name, ⟨hname, hget⟩, rfl, hlt⟩
  · rintro ⟨name, ⟨hname, hget⟩, rfl, hlt⟩
    exact ⟨⟨hget, hlt⟩, keystart_lt hname⟩

/-! ## Pages as runs of the partitions -/

/-- The keys below `stop` that each visited partition has above `start`. -/
def runs (s : Cluster c) (stop start : Str) : List (List Str) :=
  (visited c start).map fun p => (s.partition p).keys.filter fun k => start < k ∧ k < stop

theorem getKeyRange_eq (s : Cluster c) (start stop : Str) (max : Nat) :
    getKeyRange s start stop max = page max (runs s stop start) := by
  unfold getKeyRange page runs
  rw [List.map_map, List.flatMap_def]
  rfl

theorem readPages_eq (s : Cluster c) (stop start : Str) (keys : List Str) (fuel : Nat) :
    readPages s stop fuel start keys =
      (scan (fun start => page maxsize (runs s stop start)) maxsize fuel (keys.getLastD start)).map
        (·.map filename) := by
  induction fuel generalizing start keys with
  | zero => rfl
  | succ fuel ih =>
    unfold readPages scan
    simp only [getKeyRange_eq]
    split
    · rw [ih, Option.map_map, Option.map_map]
      congr 1
      funext out
      exact List.map_append.symm
    · rfl

theorem runs_sublist (s : Cluster c) (stop start : Str) :
    ∀ run ∈ runs s stop start, run.Sublist (above start (s.keysBelow stop)) := by
  intro run hrun
  obtain ⟨p, -, rfl⟩ := List.mem_map.mp hrun
  have hsorted : ((s.partition p).keys.filter fun k => start < k ∧ k < stop).Pairwise (· < ·) :=
    (s.partition p).sorted.filter _
  have hsub : ((s.partition p).keys.filter fun k => start < k ∧ k < stop) ⊆
      above start (s.keysBelow stop) := by
    intro k hk
    obtain ⟨hk, hrange⟩ := List.mem_filter.mp hk
    obtain ⟨hgt, hlt⟩ := of_decide_eq_true hrange
    exact mem_above.mpr ⟨s.mem_keysBelow_iff.mpr ⟨(s.mem_partition_iff.mp hk).2, hlt⟩, hgt⟩
  exact List.sublist_of_subperm_of_pairwise (r := (· < ·))
    (List.subperm_of_subset (hsorted.imp fun h => h.ne) hsub) hsorted
    (pairwise_above (s.pairwise_keysBelow stop))

theorem countP_runs (s : Cluster c) {stop start k : Str} (hget : s.get k ≠ none) (hlt : k < stop)
    (hgt : start < k) :
    reads (runs s stop start) k = (visited c start).count (keyToPartition c k) := by
  unfold reads runs
  rw [List.countP_map, List.count_eq_countP]
  apply List.countP_congr
  intro p _
  simp [s.mem_partition_iff, hget, hlt, hgt]

/-! ## The listing -/

theorem Cluster.pairwise_directory (s : Cluster c) (inode : Nat) :
    (s.directory inode).Pairwise (· < ·) := pairwise_above (s.pairwise_keysBelow _)

theorem covered_iff (s : Cluster c) (inode : Nat) :
    s.Covered inode ↔ Paged (fun start => reads (runs s (keyend inode) start)) maxsize
      (keystart inode) 0 (s.directory inode) := by
  unfold Cluster.Covered
  apply paged_congr (s.pairwise_directory inode)
  · intro k hk
    exact (mem_above.mp hk).2
  · intro k hk start hlt _
    obtain ⟨hget, hstop⟩ := s.mem_keysBelow_iff.mp (mem_above.mp hk).1
    exact (countP_runs s hget hstop hlt).symm

theorem count_names (s : Cluster c) {inode : Nat} {name : Str} {out : List Str}
    (hout : ∀ k ∈ out, k ∈ s.directory inode) :
    (out.map filename).count name = out.count (direntryKey inode name) := by
  rw [List.count_eq_countP, List.count_eq_countP, List.countP_map]
  apply List.countP_congr
  intro k hk
  obtain ⟨name', -, rfl, -⟩ := s.mem_directory_iff.mp (hout k hk)
  simp only [Function.comp_apply, filename_direntryKey, beq_iff_eq]
  constructor
  · rintro rfl
    rfl
  · intro h
    rw [← filename_direntryKey inode name', h, filename_direntryKey]

/-- Every entry is listed exactly once if and only if the partitions are read as `Covered` says. -/
theorem readdir_once_iff (s : Cluster c) (inode fuel : Nat)
    (hend : ∀ name, s.HasEntry inode name → direntryKey inode name < keyend inode)
    (hfuel : (s.directory inode).length < fuel) :
    (∃ names, hflatReaddir s inode fuel = some names ∧
        ∀ name, s.HasEntry inode name → names.count name = 1) ↔ s.Covered inode := by
  have hruns : ∀ start, ∀ run ∈ runs s (keyend inode) start,
      run.Sublist (above start (s.keysBelow (keyend inode))) := runs_sublist s (keyend inode)
  have hm : 0 < maxsize := by decide
  obtain ⟨out, hout, hmem⟩ := scan_returns (keystart inode) hm hruns hfuel
  rw [covered_iff]
  refine Iff.trans ?_ (scan_once_iff (keystart inode) hm (s.pairwise_keysBelow _) hruns hfuel)
  unfold hflatReaddir
  rw [readPages_eq, List.getLastD_nil, hout]
  simp only [Option.map_some, Option.some.injEq, exists_eq_left']
  constructor
  · intro h k hk
    obtain ⟨name, hname, rfl, -⟩ := s.mem_directory_iff.mp hk
    rw [← count_names s hmem]
    exact h name hname
  · intro h name hname
    rw [count_names s hmem]
    exact h _ (s.mem_directory_iff.mpr ⟨name, hname, rfl, hend name hname⟩)

/-! ## Directories that are listed as they should be -/

theorem keyToPartition_direntryKey (inode : Nat) (name : Str) :
    keyToPartition c (direntryKey inode name) =
      (if name = [] then (c.hash (toStr inode)).toNat
        else ((c.hash (toStr inode)).toNat + (c.hash (direntryKey inode name)).toNat % c.clustersize) %
          UInt64.size) % c.size := by
  have htake : (direntryKey inode name).take (toStr inode).length = toStr inode := by
    unfold direntryKey
    rw [List.append_assoc, List.take_left']
    rfl
  have hlen : (direntryKey inode name).length = (toStr inode).length + 1 + name.length := by
    simp only [direntryKey, List.length_append, List.length_singleton]
  unfold keyToPartition
  simp only [idxOf_bar, htake, hlen]
  by_cases hname : name = []
  · subst hname
    rw [if_neg (by simp), if_pos rfl]
  · have hpos := List.length_pos_iff.mpr hname
    rw [if_pos (by omega), if_neg hname]

/-- The index of the partition of a directory. -/
theorem keyToPartition_keystart (inode : Nat) :
    keyToPartition c (keystart inode) = (c.hash (toStr inode)).toNat % c.size := by
  have h := keyToPartition_direntryKey (c := c) inode []
  rwa [if_pos rfl, direntryKey, List.append_nil] at h

theorem visited_eq (start : Str) :
    visited c start = (List.range c.clustersize).map fun i => (keyToPartition c start + i) % c.size := by
  have hiterate : ∀ i, (fun p => (p + 1) % c.size)^[i] (keyToPartition c start) =
      (keyToPartition c start + i) % c.size := by
    intro i
    induction i with
    | zero => exact (Nat.mod_eq_of_lt (keyToPartition_lt start)).symm
    | succ i ih => rw [Function.iterate_succ_apply', ih, Nat.mod_add_mod, Nat.add_assoc]
  unfold visited
  rw [← List.range_map_iterate]
  exact List.map_congr_left fun i _ => hiterate i

/-- With a `direntry_clustersize` of one, every listing is complete and free of duplicates. -/
theorem covered_of_one (s : Cluster c) (inode : Nat) (hone : c.clustersize = 1) : s.Covered inode := by
  have hplace : ∀ name, keyToPartition c (direntryKey inode name) = keyToPartition c (keystart inode) := by
    intro name
    have hlt := (c.hash (toStr inode)).toNat_lt
    rw [keyToPartition_direntryKey, keyToPartition_keystart, hone, Nat.mod_one, Nat.add_zero,
      Nat.mod_eq_of_lt hlt, ite_self]
  have hdir : ∀ k ∈ s.directory inode, keyToPartition c k = keyToPartition c (keystart inode) := by
    intro k hk
    obtain ⟨name, -, rfl, -⟩ := s.mem_directory_iff.mp hk
    exact hplace name
  apply paged_of_once
  rintro k hk start hstart
  have hstart' : keyToPartition c start = keyToPartition c (keystart inode) := by
    rcases hstart with rfl | hstart
    · rfl
    · exact hdir start hstart
  unfold visited
  rw [hdir k hk, hone, List.iterate, List.iterate, hstart', List.count_singleton_self]

/-- A directory of at most one page is listed completely and without duplicates, if there are
    enough partitions and no index wraps around. -/
theorem covered_of_page (s : Cluster c) (inode : Nat) (hsize : c.clustersize ≤ c.size)
    (hwrap : (c.hash (toStr inode)).toNat + c.clustersize ≤ UInt64.size)
    (hpage : (s.directory inode).length ≤ maxsize) : s.Covered inode := by
  apply paged_of_page (by omega)
  intro k hk
  obtain ⟨name, ⟨hname, -⟩, rfl, -⟩ := s.mem_directory_iff.mp hk
  have hoffset : (c.hash (direntryKey inode name)).toNat % c.clustersize < c.clustersize :=
    Nat.mod_lt _ c.clustersize_pos
  rw [keyToPartition_direntryKey, if_neg hname, Nat.mod_eq_of_lt (b := UInt64.size) (by omega),
    visited_eq, keyToPartition_keystart, List.count_eq_countP, List.countP_map]
  -- only the offset of the entry leads to its partition
  rw [← List.count_eq_one_of_mem List.nodup_range (List.mem_range.mpr hoffset), List.count_eq_countP]
  apply List.countP_congr
  intro i hi
  have hi := List.mem_range.mp hi
  simp only [Function.comp_apply, beq_iff_eq, Nat.mod_add_mod]
  constructor
  · intro h
    have h := Nat.ModEq.add_left_cancel' _ h
    exact Nat.ModEq.eq_of_lt_of_lt h (by omega) (by omega)
  · rintro rfl
    rfl

/-! ## A directory over two of three partitions -/

theorem lt_keyend_of_keys (s : Cluster c) {inode : Nat}
    (h : ∀ p < c.size, ∀ k ∈ (s.partition p).keys, k < keyend inode) :
    ∀ name, s.HasEntry inode name → direntryKey inode name < keyend inode := by
  intro name hname
  exact h _ (keyToPartition_lt _) _ (s.mem_partition_iff.mpr ⟨rfl, hname.2⟩)

/-- Only the hundredth entry is in the second partition of the directory. -/
def oneAhead : Config where
  hash := fun key => if key = direntryKey 1 [Char.ofNat 227] then 1 else 0
  size := 3
  clustersize := 2
  size_pos := by decide
  clustersize_pos := by decide

/-- `create_directory_entry` -/
def Cluster.create (s : Cluster c) (inode : Nat) (name : Str) : Cluster c :=
  (s.write (direntryKey inode name) (.put [] .REQUIRE_SAME_VERSION ⟨[], lit "1"⟩)).2

/-- 101 entries, the first 100 of which fill a page. -/
def filled : Cluster oneAhead :=
  (List.range 101).foldr (fun i s => s.create 1 [Char.ofNat (128 + i)]) (Cluster.empty oneAhead)

theorem filled_listing :
    (∀ p < 3, ∀ k ∈ (filled.partition p).keys, k < keyend 1) ∧ (filled.directory 1).length < 102 ∧
      filled.get (direntryKey 1 [Char.ofNat 228]) ≠ none ∧
      (hflatReaddir filled 1 102).map (·.count [Char.ofNat 228]) = some 0 := by
  decide +kernel

theorem readdir_once_iff_filled :
    (∃ names, hflatReaddir filled 1 102 = some names ∧
        ∀ name, filled.HasEntry 1 name → names.count name = 1) ↔ filled.Covered 1 :=
  readdir_once_iff filled 1 102 (lt_keyend_of_keys filled filled_listing.1) filled_listing.2.1

/-- The last entry is not in any of the partitions that the second page reads. -/
theorem readdir_misses_entry :
    ¬ ∀ (c : Config) (s : Cluster c) (inode fuel : Nat),
      (∀ name, s.HasEntry inode name → direntryKey inode name < keyend inode) →
      (s.directory inode).length < fuel →
      ∃ names, hflatReaddir s inode fuel = some names ∧
        ∀ name, s.HasEntry inode name → names.count name = 1 := by
  intro h
  obtain ⟨hkeys, hlen, hget, hcount⟩ := filled_listing
  obtain ⟨names, hnames, honce⟩ := h oneAhead filled 1 102 (lt_keyend_of_keys filled hkeys) hlen
  rw [hnames, Option.map_some, Option.some.injEq,
    honce [Char.ofNat 228] ⟨List.cons_ne_nil _ _, hget⟩] at hcount
  exact absurd hcount (by decide)

end HFlat.Fuse.Readdir
