/-
  Data blocks (`data_info.cc`): the local copy of a data key, and the list of byte ranges changed
  since it was last flushed. An entry of size 0 in this list stands for a truncation.

  Where the copy is the fetched block with writes applied to it and the list holds the ranges of
  these writes (`Holds`), merging them into a fresh block that is not shorter than the fetched one
  gives the fresh block with the same writes (`mergeDataChanges_holds`).
-/
import HFlat.Base
import HFlat.Lib.Overlay

namespace HFlat.Data

open HFlat.Lib HFlat.Lib.Block

/-- The byte that a growing `std::string::resize` appends. -/
def nul : Char := '\x00'

/-- Size of the largest block that the assertions of `data_info.cc` admit. -/
def blockLimit : Nat := 1024 * 1024

/-- `DataInfo`: version, data and the updates since the block was stored. -/
structure DataInfo where
  keyVersion : Str
  d : Str
  updates : List (Nat × Nat)
  deriving DecidableEq, Repr

namespace DataInfo

/-- One round of the loop of `mergeDataChanges`; `std::string::replace` throws if the position is
    past the end of either string. -/
def mergeUpdate (d fresh : Str) (update : Nat × Nat) : Option Str :=
  if update.2 ≠ 0 then
    if update.1 ≤ fresh.length ∧ update.1 ≤ d.length then some (copyRange d fresh update) else none
  else some (resize nul update.1 fresh)

/-- `mergeDataChanges`, `none` for an exception or an assertion that fails. -/
def mergeDataChanges (x : DataInfo) (fresh : Str) : Option DataInfo := do
  let fresh ← x.updates.foldlM (mergeUpdate x.d) (resize nul (max fresh.length x.d.length) fresh)
  if fresh.length ≤ blockLimit then some { x with d := fresh } else none

/-- `updateData`, `none` if its assertion fails. The resize rules out the exception that the
    source catches. -/
def updateData (x : DataInfo) (data : Str) (offset : Nat) : Option DataInfo :=
  if offset + data.length ≤ blockLimit then
    let d := resize nul (max (offset + data.length) x.d.length) x.d
    some { x with
      d := replace d offset data.length data
      updates := x.updates ++ [(offset, data.length)] }
  else none

/-- `truncate`, `none` if its assertion fails. -/
def truncate (x : DataInfo) (offset : Nat) : Option DataInfo :=
  if offset ≤ blockLimit then
    some { x with
      d := resize nul offset x.d
      updates := x.updates ++ [(offset, 0)] }
  else none

/-- `hasUpdates`. -/
def hasUpdates (x : DataInfo) : Bool := ¬ x.updates.isEmpty

/-- `forgetUpdates`. -/
def forgetUpdates (x : DataInfo) : DataInfo := { x with updates := [] }

/-! ## What a copy holds -/

/-- The copy is block `base` with the writes `us`, none of them empty. -/
structure Holds (x : DataInfo) (base : Str) (us : List (Update Char)) : Prop where
  d : x.d = overlay nul base us
  updates : x.updates = us.map Update.range
  nonempty : ∀ u ∈ us, u.bytes ≠ []

variable {x x' : DataInfo} {base fresh : Str} {us : List (Update Char)}

theorem updateData_holds (h : x.Holds base us) {data : Str} {offset : Nat} (hdata : data ≠ [])
    (hx : x.updateData data offset = some x') :
    x'.Holds base (us ++ [⟨offset, data⟩]) ∧ x'.keyVersion = x.keyVersion := by
  unfold updateData at hx
  split at hx
  · cases hx
    refine ⟨⟨?_, ?_, ?_⟩, rfl⟩
    · rw [overlay_append, ← h.d]
      rfl
    · rw [List.map_append, ← h.updates]
      rfl
    · intro u hu
      obtain hu | hu := List.mem_append.mp hu
      · exact h.nonempty u hu
      · rw [List.mem_singleton.mp hu]
        exact hdata
  · cases hx

/-- Ranges that are not empty and lie within the copy are copied, one after the other. -/
theorem foldlM_mergeUpdate {d b : Str} {rs : List (Nat × Nat)}
    (hrs : ∀ r ∈ rs, r.2 ≠ 0 ∧ r.1 + r.2 ≤ d.length) (hb : d.length ≤ b.length) :
    rs.foldlM (mergeUpdate d) b = some (copyRanges d b rs) := by
  induction rs generalizing b with
  | nil => rfl
  | cons r rs ih =>
    obtain ⟨hsize, hstop⟩ := hrs r List.mem_cons_self
    have hmerge : mergeUpdate d b r = some (copyRange d b r) := by
      unfold mergeUpdate
      rw [if_pos hsize, if_pos ⟨by omega, by omega⟩]
    rw [List.foldlM_cons, hmerge]
    exact ih (fun r hr => hrs r (List.mem_cons_of_mem _ hr)) (hb.trans (length_copyRange hstop hb).ge)

theorem mergeDataChanges_holds (h : x.Holds base us) (hlen : base.length ≤ fresh.length)
    (hx : x.mergeDataChanges fresh = some x') :
    x'.Holds fresh us ∧ x'.keyVersion = x.keyVersion := by
  have hranges : ∀ r ∈ x.updates, r.2 ≠ 0 ∧ r.1 + r.2 ≤ x.d.length := by
    intro r hr
    rw [h.updates] at hr
    obtain ⟨u, hu, rfl⟩ := List.mem_map.mp hr
    refine ⟨fun hzero => h.nonempty u hu (List.length_eq_zero_iff.mp hzero), ?_⟩
    rw [h.d, length_overlay]
    exact (stop_le_reach hu).trans (le_max_right _ _)
  have hb : x.d.length ≤ (resize nul (max fresh.length x.d.length) fresh).length := by
    rw [length_resize]
    exact le_max_right _ _
  unfold mergeDataChanges at hx
  rw [foldlM_mergeUpdate hranges hb, h.updates, h.d, copyRanges_overlay nul hlen] at hx
  obtain ⟨-, hx⟩ := Option.ite_none_right_eq_some.mp hx
  cases hx
  exact ⟨⟨rfl, rfl, h.nonempty⟩, rfl⟩

end DataInfo

end HFlat.Data
