/-
  `mergeDataChanges` after writes and truncations (`data_info.cc`, `put_data` in
  `kinetic_helper.cc`).

  The list of updates records a truncation as a range of size 0, the same as a write of no bytes,
  and for a write its range only: the bytes are taken from the local block as it is at the merge.
  `Call.asked` is what a call asks for, `Call.made` what it does to the local block and
  `Call.kept` what the merge reads from the list. For the bytes this makes no difference: where a
  range is copied and nothing later has an effect, the local block still has the bytes of the
  write (`mergeLoop`). It makes one for the length the merge starts from, for writes past a
  truncation (`Starts`), and for what a write of no bytes cuts off; `Mergeable` says where none of
  these matters.
-/
import HFlat.Lib.Edits
import HFlat.Data.DataInfo

namespace HFlat.Data.Merge

open HFlat.Lib HFlat.Lib.Block
open DataInfo (mergeUpdate)

/-! ## Calls -/

/-- The calls that change a block. -/
inductive Call where
  | updateData (data : Str) (offset : Nat)
  | truncate (offset : Nat)
  deriving DecidableEq, Repr

namespace Call

/-- The block after a call, `none` if an assertion fails or a position is out of range. -/
def run (x : DataInfo) : Call → Option DataInfo
  | updateData data offset => x.updateData data offset
  | truncate offset => x.truncate offset

/-- The call, applied to a block. -/
def replay (b : Str) : Call → Str
  | updateData data offset => if data = [] then b else write nul b ⟨offset, data⟩
  | truncate offset => resize nul offset b

/-- The edits that a call asks for. -/
def asked : Call → List (Edit Char)
  | updateData data offset => if data = [] then [] else [.write ⟨offset, data⟩]
  | truncate offset => [.cut offset]

/-- The edit that a call makes of the data. -/
def made : Call → Edit Char
  | updateData data offset => .write ⟨offset, data⟩
  | truncate offset => .cut offset

/-- The edit that a call leaves among the updates. -/
def kept : Call → Edit Char
  | updateData data offset => if data = [] then .cut offset else .write ⟨offset, data⟩
  | truncate offset => .cut offset

/-- The entry of the list of updates. -/
def range : Call → Nat × Nat
  | updateData data offset => (offset, data.length)
  | truncate offset => (offset, 0)

end Call

/-- The calls on a `DataInfo`, `none` where an assertion fails. -/
def runCalls (x : DataInfo) (calls : List Call) : Option DataInfo := calls.foldlM Call.run x

/-- The calls applied to a block. -/
def replay (b : Str) (calls : List Call) : Str := calls.foldl Call.replay b

theorem replay_eq (b : Str) (calls : List Call) : replay b calls = edited nul b (calls.flatMap Call.asked) := by
  induction calls generalizing b with
  | nil => rfl
  | cons c calls ih =>
    rw [List.flatMap_cons, edited_append, ← ih]
    show replay (c.replay b) calls = replay (edited nul b c.asked) calls
    congr 1
    cases c with
    | truncate n => rfl
    | updateData data offset =>
      by_cases hdata : data = []
      · rw [Call.replay, Call.asked, if_pos hdata, if_pos hdata]
        rfl
      · rw [Call.replay, Call.asked, if_neg hdata, if_neg hdata]
        rfl

theorem Call.run_eq {x x' : DataInfo} {c : Call} (h : c.run x = some x') :
    x'.d = c.made.apply nul x.d ∧ x'.updates = x.updates ++ [c.range] := by
  cases c with
  | truncate offset =>
    obtain ⟨-, h⟩ := Option.ite_none_right_eq_some.mp h
    cases h
    exact ⟨rfl, rfl⟩
  | updateData data offset =>
    obtain ⟨-, h⟩ := Option.ite_none_right_eq_some.mp h
    cases h
    exact ⟨rfl, rfl⟩

theorem runCalls_eq {x x' : DataInfo} {calls : List Call} (h : runCalls x calls = some x') :
    x'.d = edited nul x.d (calls.map Call.made) ∧ x'.updates = x.updates ++ calls.map Call.range := by
  induction calls generalizing x with
  | nil =>
    cases h
    exact ⟨rfl, (List.append_nil _).symm⟩
  | cons c calls ih =>
    obtain ⟨y, hy, h⟩ := Option.bind_eq_some_iff.mp h
    obtain ⟨hd, hu⟩ := Call.run_eq hy
    obtain ⟨hd', hu'⟩ := ih h
    refine ⟨?_, ?_⟩
    · rw [hd', hd]
      rfl
    · rw [hu', hu, List.append_assoc]
      rfl

/-! ## What the merge reads from the list -/

/-- A call without an entry of the list that has an effect at a place has none itself. -/
theorem made_none {calls : List Call} {i : Nat} (h : lastEffect nul (calls.map Call.kept) i = none) :
    lastEffect nul (calls.map Call.made) i = none := by
  induction calls with
  | nil => rfl
  | cons c calls ih =>
    obtain ⟨hrest, hc⟩ := Option.or_eq_none_iff.mp h
    refine Option.or_eq_none_iff.mpr ⟨ih hrest, ?_⟩
    cases c with
    | truncate n => exact hc
    | updateData data offset =>
      by_cases hdata : data = []
      · subst hdata
        refine if_neg ?_
        unfold Update.Covers Update.stop
        simp
      · rw [Call.kept, if_neg hdata] at hc
        exact hc

theorem asked_none {calls : List Call} {i : Nat} (h : lastEffect nul (calls.map Call.kept) i = none) :
    lastEffect nul (calls.flatMap Call.asked) i = none := by
  induction calls with
  | nil => rfl
  | cons c calls ih =>
    obtain ⟨hrest, hc⟩ := Option.or_eq_none_iff.mp h
    rw [List.flatMap_cons, lastEffect_append, ih hrest, Option.none_or]
    cases c with
    | truncate n => exact hc
    | updateData data offset =>
      by_cases hdata : data = []
      · subst hdata
        rfl
      · rw [Call.kept, if_neg hdata] at hc
        rw [Call.asked, if_neg hdata]
        exact hc

/-- A write of at least one byte starts within the local block, which has `limit` bytes in the
    end, and within the merged block, which has `l` bytes so far. -/
def Call.StartsWithin (limit l : Nat) : Call → Prop
  | updateData data offset => data ≠ [] → offset ≤ limit ∧ offset ≤ l
  | truncate _ => True

/-- Every call starts within the data as it is then, and within the limit. -/
def Starts (limit : Nat) : Nat → List Call → Prop
  | _, [] => True
  | l, c :: calls => c.StartsWithin limit l ∧ Starts limit (c.kept.length l) calls

/-! ## The loop -/

/-- The merged block `cur` against the block `ideal` to which the entries read so far have been
    applied as edits. A range that ends past the local block `d` makes the lengths differ; a
    truncation that is still to come has cut `d` there. -/
structure Follows (d : Str) (calls : List Call) (cur ideal : Str) : Prop where
  places : ∀ i, lastEffect nul (calls.map Call.kept) i = none → cur.getD i nul = ideal.getD i nul
  length : cur.length = ideal.length ∨
    d.length ≤ cur.length ∧ d.length ≤ ideal.length ∧ ∃ n ≤ d.length, .truncate n ∈ calls

section Loop

variable {d b cur ideal : Str} {calls : List Call} {c : Call}

theorem Follows.eq_of_nil (h : Follows d [] cur ideal) : cur = ideal := by
  refine ext_getD nul (h.length.resolve_right ?_) fun i => h.places i rfl
  rintro ⟨-, -, n, -, hmem⟩
  cases hmem

theorem Follows.starts_iff (h : Follows d calls cur ideal) {offset : Nat} :
    offset ≤ cur.length ∧ offset ≤ d.length ↔ offset ≤ d.length ∧ offset ≤ ideal.length := by
  obtain heq | ⟨hle, hle', -⟩ := h.length
  · omega
  · omega

theorem truncate_mem_of_cut {n : Nat} (h : .cut n ∈ calls.map Call.made) : .truncate n ∈ calls := by
  obtain ⟨c, hmem, hc⟩ := List.mem_map.mp h
  cases c with
  | updateData data offset => cases hc
  | truncate m =>
    cases hc
    exact hmem

theorem lastEffect_of_truncate {n i : Nat} (h : .truncate n ∈ calls) (hi : n ≤ i) :
    lastEffect nul (calls.map Call.kept) i ≠ none :=
  lastEffect_ne_none_of_cut nul (List.mem_map_of_mem h) hi

/-- An entry of size 0 sets the length. -/
theorem Follows.cut (h : Follows d (c :: calls) cur ideal) {n : Nat} (hc : c.kept = .cut n) :
    Follows d calls (resize nul n cur) (c.kept.apply nul ideal) := by
  rw [hc]
  refine ⟨fun i hi => ?_, Or.inl ((length_resize nul n cur).trans (length_resize nul n ideal).symm)⟩
  show (resize nul n cur).getD i nul = (resize nul n ideal).getD i nul
  rw [getD_resize_ite, getD_resize_ite]
  split
  · rfl
  · refine h.places i (Or.elim (Nat.lt_or_ge i n) (fun hlt => ?_) fun hge => by contradiction)
    show (lastEffect nul (calls.map Call.kept) i).or (c.kept.effect nul i) = none
    rw [hi, hc, Edit.effect_cut, if_neg (by omega)]
    rfl

/-- A range is copied from the local block, where it still has the bytes of the write unless a
    later entry has an effect. -/
theorem Follows.write {u : Update Char} (h : Follows d (c :: calls) cur ideal) (hc : c.kept = .write u)
    (hd : d = edited nul (write nul b u) (calls.map Call.made))
    (hcur : u.offset ≤ cur.length) (hlocal : u.offset ≤ d.length) :
    Follows d calls (copyRange d cur u.range) (c.kept.apply nul ideal) := by
  -- the range ends within the local block or a truncation has cut it
  have hcut : u.stop ≤ d.length ∨ ∃ n ≤ d.length, .truncate n ∈ calls := by
    have hlength : d.length = lengthAfter (max b.length u.stop) (calls.map Call.made) := by
      rw [hd, length_edited, length_write]
    obtain hle | ⟨n, hn, hmem⟩ := le_lengthAfter_or_cut (max b.length u.stop) (calls.map Call.made)
    · exact Or.inl (by omega)
    · exact Or.inr ⟨n, by omega, truncate_mem_of_cut hmem⟩
  have hrest : ∀ n ≤ d.length, .truncate n ∈ c :: calls → .truncate n ∈ calls := by
    intro n _ hmem
    obtain rfl | hmem := List.mem_cons.mp hmem
    · cases hc
    · exact hmem
  rw [hc]
  refine ⟨fun i hi => ?_, ?_⟩
  · have hplace : u.range.1 + u.range.2 ≤ d.length ∨ i < d.length := by
      obtain hstop | ⟨n, hn, hmem⟩ := hcut
      · exact Or.inl hstop
      · refine Or.inr (Nat.lt_of_not_le fun hle => ?_)
        exact lastEffect_of_truncate hmem (hn.trans hle) hi
    have hcopied : (copyRange d cur u.range).getD i nul = if u.Covers i then d.getD i nul else cur.getD i nul :=
      getD_copyRange i hlocal hcur hplace
    show (copyRange d cur u.range).getD i nul = (Block.write nul ideal u).getD i nul
    rw [hcopied, getD_write]
    by_cases hcov : u.Covers i
    · have hlast : d.getD i nul = (Block.write nul b u).getD i nul := by
        rw [hd, getD_edited, made_none hi]
        rfl
      rw [if_pos hcov, if_pos hcov, hlast, getD_write, if_pos hcov]
    · rw [if_neg hcov, if_neg hcov]
      refine h.places i ?_
      show (lastEffect nul (calls.map Call.kept) i).or (c.kept.effect nul i) = none
      rw [hi, hc, Edit.effect_write, if_neg hcov]
      rfl
  · have hlen := length_copyRange_eq (r := u.range) hlocal hcur
    have hideal : ((Edit.write u).apply nul ideal).length = max ideal.length u.stop := length_write nul ideal u
    have hstop : u.range.1 + u.range.2 = u.stop := rfl
    obtain heq | ⟨hle, hle', n, hn, hmem⟩ := h.length
    · obtain hin | hout := hcut
      · left
        omega
      · by_cases hin : u.stop ≤ d.length
        · left
          omega
        · exact Or.inr ⟨by omega, by omega, hout⟩
    · exact Or.inr ⟨by omega, by omega, n, hn, hrest n hn hmem⟩

theorem Call.kept_eq (c : Call) :
    c.range.2 = 0 ∧ c.kept = .cut c.range.1 ∨
      c.range.2 ≠ 0 ∧ ∃ u, u.range = c.range ∧ c.kept = .write u ∧ c.made = .write u := by
  cases c with
  | truncate n => exact Or.inl ⟨rfl, rfl⟩
  | updateData data offset =>
    by_cases hdata : data = []
    · subst hdata
      exact Or.inl ⟨rfl, rfl⟩
    · refine Or.inr ⟨fun hzero => hdata (List.length_eq_zero_iff.mp hzero), ⟨offset, data⟩, rfl, ?_, rfl⟩
      exact if_neg hdata

theorem Call.startsWithin_iff {limit l : Nat} :
    c.StartsWithin limit l ↔ (c.range.2 ≠ 0 → c.range.1 ≤ limit ∧ c.range.1 ≤ l) := by
  cases c with
  | truncate n => exact ⟨fun _ h => absurd rfl h, fun _ => trivial⟩
  | updateData data offset =>
    show (data ≠ [] → _) ↔ (data.length ≠ 0 → _)
    rw [ne_eq, ne_eq, List.length_eq_zero_iff]
    rfl

/-- The loop of `mergeDataChanges` ends exactly if every write starts where there are bytes, and
    then the entries have the effect of edits. -/
theorem mergeLoop (hd : d = edited nul b (calls.map Call.made)) (h : Follows d calls cur ideal) (res : Str) :
    (calls.map Call.range).foldlM (mergeUpdate d) cur = some res ↔
      Starts d.length ideal.length calls ∧ res = edited nul ideal (calls.map Call.kept) := by
  induction calls generalizing cur ideal b with
  | nil =>
    rw [h.eq_of_nil]
    exact ⟨fun heq => ⟨trivial, (Option.some.inj heq).symm⟩, fun heq => congrArg some heq.2.symm⟩
  | cons c calls ih =>
    have hlength : (c.kept.apply nul ideal).length = c.kept.length ideal.length :=
      Edit.length_apply nul ideal c.kept
    show (mergeUpdate d cur c.range).bind _ = some res ↔
      (_ ∧ Starts d.length (c.kept.length ideal.length) calls) ∧
        res = edited nul (c.kept.apply nul ideal) (calls.map Call.kept)
    rw [Call.startsWithin_iff, ← hlength]
    obtain ⟨hzero, hc⟩ | ⟨hsize, u, hu, hc, hmade⟩ := c.kept_eq
    · have hmerge : mergeUpdate d cur c.range = some (resize nul c.range.1 cur) := if_neg (not_not.mpr hzero)
      rw [hmerge, Option.bind_some, ih hd (h.cut hc)]
      exact and_congr_left' ⟨fun hs => ⟨fun hne => absurd hzero hne, hs⟩, fun hs => hs.2⟩
    · by_cases hstart : c.range.1 ≤ cur.length ∧ c.range.1 ≤ d.length
      · have hmerge : mergeUpdate d cur c.range = some (copyRange d cur c.range) := by
          unfold mergeUpdate
          rw [if_pos hsize, if_pos hstart]
        have hstart' : u.offset ≤ cur.length ∧ u.offset ≤ d.length := by
          rwa [← hu] at hstart
        have hd' : d = edited nul (write nul b u) (calls.map Call.made) := by
          rw [List.map_cons, hmade] at hd
          exact hd
        have hnext := h.write hc hd' hstart'.1 hstart'.2
        rw [hu] at hnext
        rw [hmerge, Option.bind_some, ih hd' hnext]
        refine and_congr_left' ⟨fun hs => ⟨fun _ => h.starts_iff.mp hstart, hs⟩, fun hs => hs.2⟩
      · have hmerge : mergeUpdate d cur c.range = none := by
          unfold mergeUpdate
          rw [if_pos hsize, if_neg hstart]
        rw [hmerge, Option.bind_none]
        refine iff_of_false (fun hnone => by cases hnone) ?_
        rintro ⟨⟨hs, -⟩, -⟩
        exact hstart (h.starts_iff.mpr (hs hsize))

end Loop

/-! ## What a write of no bytes cuts off -/

/-- The entry of the call has an effect at place `i`. -/
def Call.Touches (i : Nat) : Call → Prop
  | updateData data offset => offset ≤ i ∧ (data ≠ [] → i < offset + data.length)
  | truncate offset => offset ≤ i

/-- Where a write of no bytes is the last entry with an effect, the block holds zero. -/
def CutsZeros (fresh : Str) (calls : List Call) : Prop :=
  ∀ pre offset post, calls = pre ++ .updateData [] offset :: post →
    ∀ i ≥ offset, (∀ c ∈ post, ¬ c.Touches i) → (replay fresh pre).getD i nul = nul

theorem Call.effect_eq_none {c : Call} {i : Nat} : c.kept.effect nul i = none ↔ ¬ c.Touches i := by
  cases c with
  | truncate n =>
    show (if n ≤ i then some nul else none) = none ↔ ¬ n ≤ i
    simp
  | updateData data offset =>
    by_cases hdata : data = []
    · subst hdata
      show (if offset ≤ i then some nul else none) = none ↔ ¬ (offset ≤ i ∧ _)
      simp
    · rw [kept, if_neg hdata, Edit.effect_write]
      simp [Touches, hdata, Update.Covers, Update.stop]

theorem lastEffect_eq_none {calls : List Call} {i : Nat} :
    lastEffect nul (calls.map Call.kept) i = none ↔ ∀ c ∈ calls, ¬ c.Touches i := by
  induction calls with
  | nil => exact ⟨fun _ c hc => (by cases hc), fun _ => rfl⟩
  | cons c calls ih =>
    show (lastEffect nul (calls.map Call.kept) i).or (c.kept.effect nul i) = none ↔ _
    rw [Option.or_eq_none_iff, ih, Call.effect_eq_none, List.forall_mem_cons, and_comm]

/-- A call that is no write of no bytes leaves what its entry leaves. -/
theorem Call.getD_replay {c : Call} (b : Str) (i : Nat)
    (h : ∀ offset, c = .updateData [] offset → ¬ offset ≤ i) :
    (c.replay b).getD i nul = (c.kept.effect nul i).getD (b.getD i nul) := by
  cases c with
  | truncate n => exact Edit.getD_apply nul b (.cut n) i
  | updateData data offset =>
    by_cases hdata : data = []
    · subst hdata
      show b.getD i nul = (if offset ≤ i then some nul else none).getD (b.getD i nul)
      rw [if_neg (h offset rfl)]
      rfl
    · rw [replay, kept, if_neg hdata, if_neg hdata]
      exact Edit.getD_apply nul b (.write ⟨offset, data⟩) i

theorem kept_eq_asked_iff (b : Str) (calls : List Call) (i : Nat) :
    (lastEffect nul (calls.map Call.kept) i).getD (b.getD i nul) = (replay b calls).getD i nul ↔
      ∀ pre offset post, calls = pre ++ .updateData [] offset :: post →
        offset ≤ i → (∀ c ∈ post, ¬ c.Touches i) → (replay b pre).getD i nul = nul := by
  induction calls generalizing b with
  | nil =>
    refine ⟨fun _ pre offset post h => ?_, fun _ => rfl⟩
    cases pre with
    | nil => cases h
    | cons c pre => cases h
  | cons c calls ih =>
    show ((lastEffect nul (calls.map Call.kept) i).or (c.kept.effect nul i)).getD (b.getD i nul) =
      (replay (c.replay b) calls).getD i nul ↔ _
    cases hrest : lastEffect nul (calls.map Call.kept) i with
    | some y =>
      -- a later entry has an effect
      have ih := ih (c.replay b)
      rw [hrest] at ih
      show (some y).getD ((c.replay b).getD i nul) = _ ↔ _
      rw [ih]
      refine ⟨fun h pre offset post heq hi hpost => ?_, fun h pre offset post heq => ?_⟩
      · cases pre with
        | nil =>
          cases heq
          rw [lastEffect_eq_none.mpr hpost] at hrest
          cases hrest
        | cons c' pre =>
          cases heq
          exact h pre offset post rfl hi hpost
      · exact h (c :: pre) offset post (congrArg (c :: ·) heq)
    | none =>
      have huntouched := lastEffect_eq_none.mp hrest
      have hreplay : (replay (c.replay b) calls).getD i nul = (c.replay b).getD i nul := by
        rw [replay_eq, getD_edited, asked_none hrest]
        rfl
      have hlater : ∀ pre offset post, calls = pre ++ .updateData [] offset :: post → ¬ offset ≤ i := by
        intro pre offset post heq hi
        refine huntouched (.updateData [] offset) ?_ ⟨hi, fun hne => absurd rfl hne⟩
        rw [heq]
        exact List.mem_append_right _ List.mem_cons_self
      rw [hreplay, Option.none_or]
      by_cases hempty : ∃ offset, c = .updateData [] offset ∧ offset ≤ i
      · obtain ⟨offset, rfl, hi⟩ := hempty
        have heffect : (Call.updateData [] offset).kept.effect nul i = some nul := if_pos hi
        rw [heffect]
        show nul = b.getD i nul ↔ _
        refine ⟨fun h pre offset' post heq hi' _ => ?_, fun h => (h [] offset calls rfl hi huntouched).symm⟩
        cases pre with
        | nil => exact h.symm
        | cons c' pre =>
          cases heq
          exact absurd hi' (hlater pre offset' post rfl)
      · have hc : ∀ offset, c = .updateData [] offset → ¬ offset ≤ i :=
          fun offset h hi => hempty ⟨offset, h, hi⟩
        refine iff_of_true (Call.getD_replay b i hc).symm fun pre offset post heq hi _ => ?_
        cases pre with
        | nil =>
          cases heq
          exact absurd hi (hc offset rfl)
        | cons c' pre =>
          cases heq
          exact absurd hi (hlater pre offset post rfl)

/-! ## The merge -/

/-- Merging the calls, made on block `base`, into block `fresh` has the effect of the calls. -/
structure Mergeable (base : Str) (calls : List Call) (fresh : Str) : Prop where
  starts : Starts (lengthAfter base.length (calls.map Call.made))
    (max fresh.length (lengthAfter base.length (calls.map Call.made))) calls
  length : lengthAfter (max fresh.length (lengthAfter base.length (calls.map Call.made)))
    (calls.map Call.kept) = (replay fresh calls).length
  zeros : CutsZeros fresh calls
  fits : (replay fresh calls).length ≤ blockLimit

theorem merged_eq_iff (fresh : Str) (n : Nat) (calls : List Call) :
    edited nul (resize nul (max fresh.length n) fresh) (calls.map Call.kept) = replay fresh calls ↔
      lengthAfter (max fresh.length n) (calls.map Call.kept) = (replay fresh calls).length ∧
        CutsZeros fresh calls := by
  have hlength : (edited nul (resize nul (max fresh.length n) fresh) (calls.map Call.kept)).length =
      lengthAfter (max fresh.length n) (calls.map Call.kept) := by
    rw [length_edited, length_resize]
  have hplace : ∀ i, (edited nul (resize nul (max fresh.length n) fresh) (calls.map Call.kept)).getD i nul =
      (lastEffect nul (calls.map Call.kept) i).getD (fresh.getD i nul) := by
    intro i
    rw [getD_edited, getD_resize nul i (le_max_left _ _)]
  rw [← hlength]
  refine ⟨fun h => ⟨congrArg List.length h, fun pre offset post heq i hi hpost => ?_⟩, fun ⟨hlen, hzeros⟩ => ?_⟩
  · refine (kept_eq_asked_iff fresh calls i).mp ?_ pre offset post heq hi hpost
    rw [← hplace, h]
  · refine ext_getD nul hlen fun i => ?_
    rw [hplace]
    exact (kept_eq_asked_iff fresh calls i).mpr fun pre offset post heq hi => hzeros pre offset post heq i hi

theorem mergeDataChanges_iff {v base fresh : Str} {calls : List Call} {x : DataInfo}
    (h : runCalls ⟨v, base, []⟩ calls = some x) :
    (∃ x', x.mergeDataChanges fresh = some x' ∧ x'.d = replay fresh calls) ↔ Mergeable base calls fresh := by
  obtain ⟨hd, hu⟩ := runCalls_eq h
  have hlocal : x.d.length = lengthAfter base.length (calls.map Call.made) := by
    rw [hd, length_edited]
  have hfollows : Follows x.d calls (resize nul (max fresh.length x.d.length) fresh)
      (resize nul (max fresh.length x.d.length) fresh) := ⟨fun _ _ => rfl, Or.inl rfl⟩
  have hloop := mergeLoop hd hfollows
  rw [length_resize] at hloop
  have hupdates : x.updates = calls.map Call.range := hu
  unfold DataInfo.mergeDataChanges
  rw [hupdates]
  constructor
  · rintro ⟨x', hx, heq⟩
    obtain ⟨res, hres, hx⟩ := Option.bind_eq_some_iff.mp hx
    obtain ⟨hfits, hx⟩ := Option.ite_none_right_eq_some.mp hx
    obtain ⟨hstarts, hedited⟩ := (hloop res).mp hres
    cases hx
    have hres : res = replay fresh calls := heq
    rw [hres] at hfits hedited
    obtain ⟨hlength, hzeros⟩ := (merged_eq_iff fresh x.d.length calls).mp hedited.symm
    rw [hlocal] at hstarts hlength
    exact ⟨hstarts, hlength, hzeros, hfits⟩
  · rintro ⟨hstarts, hlength, hzeros, hfits⟩
    rw [← hlocal] at hstarts hlength
    have hedited := (merged_eq_iff fresh x.d.length calls).mpr ⟨hlength, hzeros⟩
    refine ⟨⟨x.keyVersion, replay fresh calls, calls.map Call.range⟩, ?_, rfl⟩
    refine Option.bind_eq_some_iff.mpr ⟨replay fresh calls, (hloop _).mpr ⟨hstarts, hedited.symm⟩, ?_⟩
    exact if_pos hfits

/-- Fetched as `ab`, locally `axcd`, fresh `wxyz12`. -/
theorem mergeDataChanges_iff_writes :
    (∃ x', DataInfo.mergeDataChanges ⟨[], lit "axcd", [(1, 2), (3, 1)]⟩ (lit "wxyz12") = some x' ∧
        x'.d = replay (lit "wxyz12") [.updateData (lit "xc") 1, .updateData (lit "d") 3]) ↔
      Mergeable (lit "ab") [.updateData (lit "xc") 1, .updateData (lit "d") 3] (lit "wxyz12") :=
  mergeDataChanges_iff (v := []) (by decide)

/-- A truncation to 0 and a write of one byte at 2: the fresh block is cut to 0 bytes, and the
    position of the write is past its end. -/
theorem merge_throws :
    ¬ ∀ (base fresh : Str) (calls : List Call) (x : DataInfo), runCalls ⟨[], base, []⟩ calls = some x →
      ∃ x', x.mergeDataChanges fresh = some x' ∧ x'.d = replay fresh calls := by
  intro h
  obtain ⟨x', hx, -⟩ := h [] [] [.truncate 0, .updateData (lit "x") 2] ⟨[], [nul, nul, 'x'], [(0, 0), (2, 1)]⟩
    (by decide)
  have hnone : DataInfo.mergeDataChanges ⟨[], [nul, nul, 'x'], [(0, 0), (2, 1)]⟩ [] = none := by decide
  rw [hnone] at hx
  cases hx

/-! ## Without writes of no bytes -/

section NonEmpty

variable {calls : List Call} (hne : ∀ c ∈ calls, ∀ offset, c ≠ .updateData [] offset)

include hne

theorem kept_eq_asked : calls.map Call.kept = calls.flatMap Call.asked := by
  induction calls with
  | nil => rfl
  | cons c calls ih =>
    rw [List.map_cons, List.flatMap_cons, ih fun c hc => hne c (List.mem_cons_of_mem _ hc)]
    cases c with
    | truncate n => rfl
    | updateData data offset =>
      have hdata : data ≠ [] := by
        rintro rfl
        exact hne _ List.mem_cons_self offset rfl
      rw [Call.kept, Call.asked, if_neg hdata, if_neg hdata]
      rfl

/-- Without writes of no bytes, a truncation makes the length the merge starts from irrelevant;
    otherwise the local block must not have been fetched longer than the fresh block ends up. -/
theorem mergeable_iff (base fresh : Str) :
    Mergeable base calls fresh ↔
      Starts (lengthAfter base.length (calls.map Call.made))
        (max fresh.length (lengthAfter base.length (calls.map Call.made))) calls ∧
      ((∃ n, .truncate n ∈ calls) ∨ base.length ≤ (replay fresh calls).length) ∧
      (replay fresh calls).length ≤ blockLimit := by
  have hmade : calls.map Call.made = calls.map Call.kept := by
    refine List.map_congr_left fun c hc => ?_
    cases c with
    | truncate n => rfl
    | updateData data offset =>
      refine (if_neg ?_).symm
      rintro rfl
      exact hne _ hc offset rfl
  have hreplay : (replay fresh calls).length = lengthAfter fresh.length (calls.map Call.kept) := by
    rw [replay_eq, length_edited, kept_eq_asked hne]
  have hzeros : CutsZeros fresh calls := by
    rintro pre offset post rfl
    exact absurd rfl (hne _ (List.mem_append_right _ List.mem_cons_self) offset)
  have hlength : lengthAfter (max fresh.length (lengthAfter base.length (calls.map Call.made)))
      (calls.map Call.kept) = (replay fresh calls).length ↔
      (∃ n, .truncate n ∈ calls) ∨ base.length ≤ (replay fresh calls).length := by
    rw [hmade, hreplay]
    by_cases hcut : ∃ n, .truncate n ∈ calls
    · obtain ⟨n, hn⟩ := hcut
      have hmem : .cut n ∈ calls.map Call.kept := List.mem_map.mpr ⟨_, hn, rfl⟩
      exact iff_of_true (lengthAfter_of_cut hmem _ _) (Or.inl ⟨n, hn⟩)
    · have hwrites : ∀ n, .cut n ∉ calls.map Call.kept := by
        intro n hn
        rw [← hmade] at hn
        exact hcut ⟨n, truncate_mem_of_cut hn⟩
      rw [lengthAfter_writes hwrites (max _ _), lengthAfter_writes hwrites fresh.length,
        lengthAfter_writes hwrites base.length, or_iff_right hcut]
      omega
  exact ⟨fun h => ⟨h.starts, hlength.mp h.length, h.fits⟩, fun ⟨hs, hl, hf⟩ => ⟨hs, hlength.mpr hl, hzeros, hf⟩⟩

end NonEmpty

end HFlat.Data.Merge
