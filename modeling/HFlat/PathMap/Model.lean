/-
  The path map database (`pathmap_db.cc`): the in-memory snapshot of directory moves, symbolic
  links and permission changes, the prefix search over it, and the operations that replay
  database entries. `unordered_map` is a finite map up to order (`Finmap`). An operation whose
  `assert` fails returns `none`. Locks and reader counts do not occur: every operation here is
  one critical section of the source.
-/
import Mathlib.Data.Finmap
import HFlat.Base

namespace HFlat.PathMap

open HFlat.Lib

/-! ## Data (`database.proto`, `pathmap_db.h`) -/

/-- `MappingType`. -/
inductive MappingType where
  | MOVE | SYMLINK | NONE | REUSE
  deriving DecidableEq, Repr

/-- `CallingType`: `READLINK` also follows a symbolic link at the end of the path. -/
inductive CallingType where
  | LOOKUP | READLINK
  deriving DecidableEq, Repr

/-- `PMEntry`: where a path leads, and since when its permissions are as they are. -/
structure PMEntry where
  type : MappingType
  target : Str
  permissionTimeStamp : Nat
  deriving DecidableEq, Repr

/-- The mappings of the paths. -/
abbrev Snapshot := Finmap (fun _ : Str => PMEntry)

/-- The entry of a path (`snapshot.count`, `snapshot.at`). -/
def Snapshot.find (snap : Snapshot) (k : Str) : Option PMEntry := Finmap.lookup k snap

/-- `PathMapDB`: the snapshot and its version. -/
structure PathMapDB where
  snapshotVersion : Nat
  snapshot : Snapshot

/-- `PathMapDB::PathMapDB`. -/
def PathMapDB.empty : PathMapDB := ⟨0, ∅⟩

/-- `hflat::db_entry_Type`. -/
inductive EntryType where
  | MOVE | SYMLINK | NONE | REMOVED
  deriving DecidableEq, Repr

/-- `db_entry`: one record of the log. -/
structure DbEntry where
  type : EntryType
  origin : Str
  target : Str
  deriving DecidableEq, Repr

/-- `db_snapshot`: a serialized snapshot, its entries in the order they were added. -/
structure DbSnapshot where
  snapshotVersion : Nat
  entries : List (Str × PMEntry)
  deriving DecidableEq, Repr

/-! ## Search -/

/-- The entry found for a prefix remaps the path. `NONE` has no destination, a symbolic link at
    the end of the full path is only followed for `readlink`, and a reuse entry is not followed
    after a move entry. -/
def remaps (e : PMEntry) (followReuse followSymlink : Bool) : Bool :=
  match e.type with
  | .NONE => false
  | .SYMLINK => followSymlink
  | .REUSE => followReuse
  | .MOVE => true

/-- Size of the last component, `path.size() - 1 - pos` in `size_t` arithmetic. -/
def lastComponentSize (path : Str) : Nat :=
  match findLastOf '/' path with
  | some pos => path.length - 1 - pos
  | none => path.length

/-- Highest time stamp seen after reading the entry of `path`. -/
def seen (snap : Snapshot) (path : Str) (maxTimeStamp : Int) : Int :=
  match snap.find path with
  | some e => max maxTimeStamp e.permissionTimeStamp
  | none => maxTimeStamp

/-- The path has an entry that remaps it. -/
def found (snap : Snapshot) (path : Str) (followReuse followSymlink : Bool) : Bool :=
  match snap.find path with
  | some e => remaps e followReuse followSymlink
  | none => false

/-- `searchPathRecursive`, with the recursion depth as fuel: result, remaining prefix and
    highest time stamp. Every call drops a component, so `path.length + 1` levels are enough. -/
def searchGo (snap : Snapshot) (followReuse : Bool) : Nat → Str → Int → Bool → Bool × Str × Int
  | 0, path, maxTimeStamp, _ => (false, path, maxTimeStamp)
  | n + 1, path, maxTimeStamp, followSymlink =>
      let maxTimeStamp := seen snap path maxTimeStamp
      if found snap path followReuse followSymlink then (true, path, maxTimeStamp)
      else if lastComponentSize path > NAME_MAX then (false, path, -ENAMETOOLONG)
      else
        match findLastOf '/' path with
        | none => (false, path, maxTimeStamp)
        | some pos => searchGo snap followReuse n (path.take pos) maxTimeStamp true

/-- `searchPathRecursive`: whether a component is remapped, the path, and the latest time stamp. -/
def searchPathRecursive (snap : Snapshot) (path : Str) (maxTimeStamp : Int)
    (followReuse followSymlink : Bool) : Bool × Str × Int :=
  searchGo snap followReuse (path.length + 1) path maxTimeStamp followSymlink

/-! ## From user path to system path -/

/-- Position of the first `c` at or after position `pos`. -/
def findFirstOf (c : Char) (path : Str) (pos : Nat) : Option Nat :=
  ((path.drop pos).findIdx? (· = c)).map (pos + ·)

/-- `iointercept`: undo the path manipulation of the interception library. The virtual directory
    is erased together with the slash that ends it. Without such a slash the erased length is
    `npos - pos + 1`, which is `0` for `pos = 0` and runs to the end otherwise. -/
def iointercept (path : Str) : Str :=
  match findFirstOf ':' path 0 with
  | none => path
  | some pos =>
      let cut :=
        match findFirstOf '/' path pos with
        | some last => path.take pos ++ path.drop (last + 1)
        | none => if pos = 0 then path else path.take pos
      cut.map fun c => if c = ':' then '/' else c

/-- The loop of `toSystemPath`; `none` when the fuel is used up. `snapshot.at(temp)` is the entry
    the search has just found. -/
def toSystemPathLoop (snap : Snapshot) (followSymlink : Bool) :
    Nat → Str → Bool → Nat → Int → Option (Str × Int)
  | 0, _, _, _, _ => none
  | fuel + 1, systemPath, followReuse, numLinksFollowed, maxTimeStamp =>
      match searchPathRecursive snap systemPath maxTimeStamp followReuse followSymlink with
      | (false, _, maxTimeStamp) => some (systemPath, maxTimeStamp)
      | (true, temp, maxTimeStamp) =>
          match snap.find temp with
          | none => none
          | some e =>
              if e.type = .SYMLINK ∧ numLinksFollowed + 1 > MAXSYMLINKS then
                some (systemPath, -ELOOP)
              else
                toSystemPathLoop snap followSymlink fuel
                  (e.target ++ systemPath.drop temp.length)
                  (e.type ≠ .MOVE)
                  (if e.type = .SYMLINK then numLinksFollowed + 1 else numLinksFollowed)
                  maxTimeStamp

/-- `toSystemPath`, run for at most `fuel` rounds of its loop: system path and time stamp. -/
def toSystemPath (db : PathMapDB) (fuel : Nat) (userPath : Str) (ctype : CallingType) :
    Option (Str × Int) :=
  let systemPath := iointercept userPath
  if systemPath.length > PATH_MAX then some (systemPath, -ENAMETOOLONG)
  else toSystemPathLoop db.snapshot (ctype = .READLINK) fuel systemPath true 0 0

/-- `toSystemPath` returns `res`: some number of rounds is enough. -/
def ToSystemPath (db : PathMapDB) (userPath : Str) (ctype : CallingType) (res : Str × Int) :
    Prop :=
  ∃ fuel, toSystemPath db fuel userPath ctype = some res

/-! ## Updates -/

/-- The name that replaces a reused origin. -/
def reuseName (version : Nat) : Str := lit "|reuse_" ++ toStr version

/-- `addSoftLink`, `none` if its assertion fails. -/
def addSoftLink (db : PathMapDB) (origin destination : Str) : Option PathMapDB :=
  let origin := iointercept origin
  let destination := iointercept destination
  let link (key : Str) : PathMapDB :=
    ⟨db.snapshotVersion + 1, db.snapshot.insert key ⟨.SYMLINK, destination, 0⟩⟩
  match db.snapshot.find origin with
  | none => some (link origin)
  | some e => if e.type = .REUSE then some (link e.target) else none

/-- `addPermissionChange`. -/
def addPermissionChange (db : PathMapDB) (path : Str) : PathMapDB :=
  let path := iointercept path
  let version := db.snapshotVersion + 1
  let entry : PMEntry :=
    match db.snapshot.find path with
    | some e => ⟨e.type, e.target, version⟩
    | none => ⟨.NONE, [], version⟩
  ⟨version, db.snapshot.insert path entry⟩

/-- The mappings of `addDirectoryMove` before the circular case. -/
def moveMapping (snap : Snapshot) (version : Nat) (origin destination : Str) : Option Snapshot :=
  match snap.find origin with
  | none => some ((snap.insert destination ⟨.MOVE, origin, 0⟩).insert origin
      ⟨.REUSE, reuseName version, 0⟩)
  | some e =>
      let moved := snap.insert destination ⟨.MOVE, e.target, e.permissionTimeStamp⟩
      match e.type with
      | .REUSE => some (moved.insert origin ⟨.REUSE, reuseName version, e.permissionTimeStamp⟩)
      | .MOVE => some (moved.erase origin)
      | _ => none

/-- `addDirectoryMove`. The caller has checked that origin and destination differ
    (`rename_lookup`), so the destination is mapped when its target is compared. -/
def addDirectoryMove (db : PathMapDB) (origin destination : Str) : Option PathMapDB :=
  let origin := iointercept origin
  let destination := iointercept destination
  let version := db.snapshotVersion + 1
  match moveMapping db.snapshot version origin destination with
  | none => none
  | some snap =>
      if (snap.find destination).map PMEntry.target = some destination then
        some ⟨version, (snap.erase destination).erase origin⟩
      else some ⟨version, snap⟩

/-- `addUnlink`. -/
def addUnlink (db : PathMapDB) (path : Str) : PathMapDB :=
  ⟨db.snapshotVersion + 1, db.snapshot.erase (iointercept path)⟩

/-- `hasMapping`. -/
def hasMapping (db : PathMapDB) (path : Str) : Bool :=
  (db.snapshot.find (iointercept path)).isSome

/-- One entry of the log, applied to the snapshot: the `switch` of `updateSnapshot`. -/
def applyEntry (db : PathMapDB) (entry : DbEntry) : Option PathMapDB :=
  match entry.type with
  | .MOVE => addDirectoryMove db entry.origin entry.target
  | .SYMLINK => addSoftLink db entry.origin entry.target
  | .NONE => some (addPermissionChange db entry.origin)
  | .REMOVED => some (addUnlink db entry.origin)

/-- The loop of `updateSnapshot`: entries up to `fromVersion` are skipped. -/
def updateLoop (fromVersion : Nat) : PathMapDB → Nat → List DbEntry → Option PathMapDB
  | db, _, [] => some db
  | db, currentVersion, entry :: entries =>
      if currentVersion + 1 < fromVersion then updateLoop fromVersion db (currentVersion + 1) entries
      else
        match applyEntry db entry with
        | none => none
        | some db => updateLoop fromVersion db (currentVersion + 1) entries

/-- `updateSnapshot`. Both assertions are checked first: `entries.size() == toVersion -
    fromVersion` and `fromVersion <= snapshotVersion`. -/
def updateSnapshot (db : PathMapDB) (entries : List DbEntry) (fromVersion toVersion : Nat) :
    Option PathMapDB :=
  if fromVersion + entries.length ≠ toVersion ∨ db.snapshotVersion < fromVersion then none
  else if toVersion ≤ db.snapshotVersion then some db
  else
    match updateLoop fromVersion db db.snapshotVersion entries with
    | none => none
    | some db => some { db with snapshotVersion := toVersion }

/-- `serializeSnapshot`, with the order in which the hash map is iterated; `none` for a list that
    is no such order. -/
def serializeSnapshot (db : PathMapDB) (order : List Str) : Option DbSnapshot :=
  if order.Nodup ∧ order.toFinset = db.snapshot.keys then
    some ⟨db.snapshotVersion, order.filterMap fun k => (db.snapshot.find k).map fun e => (k, e)⟩
  else none

/-- `loadSnapshot`: a stored snapshot that is newer replaces the present one. -/
def loadSnapshot (db : PathMapDB) (s : DbSnapshot) : PathMapDB :=
  if s.snapshotVersion ≤ db.snapshotVersion then db
  else ⟨s.snapshotVersion, s.entries.foldl (fun snap e => snap.insert e.1 e.2) ∅⟩

end HFlat.PathMap
