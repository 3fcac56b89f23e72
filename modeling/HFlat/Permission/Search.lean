/-
  What the entries for children say about one directory (`computePathPermissionChildren` in
  `metadata_info.cc`, read by `check_path_permissions`), against POSIX search permission: the
  execute bit of the class the caller belongs to.

  The loop that removes duplicates (`removeDuplicates`) erases from the vector it runs over and
  then increments the same iterator: the entry after an erased one is skipped, and the iterator
  passes the end if the erased entry was the last one (`scan_eq_none`). The derived entries
  themselves are right for all modes but one: without any execute bit only the owner and the group
  are excluded (`allows_derivedEntries`).
-/
import HFlat.Permission.Inherit

namespace HFlat.Permission

/-! ## The loop -/

/-- `computePathPermissionChildren`: the metadata, and whether it has changed. -/
def computeChildren (md : Metadata) : Option (Metadata × Bool) := do
  let v ← removeDuplicates md.pathPermission (derivedEntries md)
  if md.pathPermissionChildren.length ≠ v.length ∨ ∃ e ∈ v, e ∉ md.pathPermissionChildren then
    some ({ md with pathPermissionChildren := v }, true)
  else some (md, false)

variable {p e : ReachabilityEntry} {v w present : List ReachabilityEntry}

/-- The iterator passes the end exactly if the last entry is a duplicate. -/
theorem scan_eq_none (hv : v.Nodup) : scan p v = none ↔ v.getLast? = some p := by
  fun_induction scan p v with
  | case1 => exact ⟨fun h => (by cases h), fun h => (by cases h)⟩
  | case2 => exact ⟨fun _ => rfl, fun _ => rfl⟩
  | case3 e hne => exact ⟨fun h => (by cases h), fun h => absurd (Option.some.inj h).symm hne⟩
  | case4 e' es ih =>
    obtain ⟨hhead, htail⟩ := List.nodup_cons.mp hv
    rw [Option.map_eq_none_iff, ih (List.nodup_cons.mp htail).2, List.getLast?_cons_cons]
    refine iff_of_false (fun h => ?_) (fun h => hhead (List.mem_of_getLast? h))
    exact hhead (List.mem_cons_of_mem _ (List.mem_of_getLast? h))
  | case5 e e' es hne ih =>
    rw [Option.map_eq_none_iff, ih (List.nodup_cons.mp hv).2, List.getLast?_cons_cons]

theorem removeDuplicates_eq_none (hv : v.Nodup) :
    removeDuplicates present v = none ↔ ∃ e ∈ present, v.getLast? = some e := by
  induction present generalizing v with
  | nil => exact ⟨fun h => (by cases h), fun ⟨e, he, _⟩ => absurd he List.not_mem_nil⟩
  | cons p present ih =>
    show (scan p v).bind (removeDuplicates present) = none ↔ _
    rw [List.exists_mem_cons_iff]
    cases hscan : scan p v with
    | none => exact iff_of_true rfl (Or.inl ((scan_eq_none hv).mp hscan))
    | some u =>
      obtain ⟨hsub, -, hlast⟩ := scan_spec hscan
      have hne : ¬ v.getLast? = some p := by
        rw [← scan_eq_none hv, hscan]
        exact fun h => by cases h
      rw [Option.bind_some, ih (hv.sublist hsub), hlast, or_iff_right hne]

/-- The searched entry is gone, the others are left. -/
theorem scan_eq_filter (hv : v.Nodup) (h : scan p v = some w) : w = v.filter fun e => e ≠ p := by
  fun_induction scan p v generalizing w with
  | case1 =>
    cases h
    rfl
  | case2 => cases h
  | case3 e hne =>
    cases h
    rw [List.filter_cons_of_pos (by simp [Ne.symm hne]), List.filter_nil]
  | case4 e' es ih =>
    -- what is skipped is another entry
    obtain ⟨hhead, htail⟩ := List.nodup_cons.mp hv
    obtain ⟨hne, hes⟩ := not_or.mp (List.mem_cons.not.mp hhead)
    obtain ⟨w, hw, rfl⟩ := Option.map_eq_some_iff.mp h
    rw [List.filter_cons_of_neg (by simp), List.filter_cons_of_pos (by simp [Ne.symm hne]),
      ih (List.nodup_cons.mp htail).2 hw]
  | case5 e e' es hne ih =>
    obtain ⟨w, hw, rfl⟩ := Option.map_eq_some_iff.mp h
    rw [List.filter_cons_of_pos (by simp [Ne.symm hne]), ih (List.nodup_cons.mp hv).2 hw]

theorem removeDuplicates_eq_filter (hv : v.Nodup) (h : removeDuplicates present v = some w) :
    w = v.filter fun e => e ∉ present := by
  induction present generalizing v with
  | nil =>
    cases h
    exact (List.filter_eq_self.mpr fun e _ => decide_eq_true List.not_mem_nil).symm
  | cons p present ih =>
    obtain ⟨u, hu, h⟩ := Option.bind_eq_some_iff.mp h
    obtain rfl := scan_eq_filter hv hu
    rw [ih (hv.filter _) h, List.filter_filter]
    refine List.filter_congr fun e _ => ?_
    rw [← Bool.decide_and, decide_eq_decide, List.mem_cons, not_or, and_comm]

/-! ## The derived entries -/

/-- The execute bit of the class the caller belongs to is set. -/
def Searchable (ctx : Context) (md : Metadata) : Prop :=
  if ctx.uid = md.uid then md.mode &&& S_IXUSR ≠ 0
  else if ctx.gid = md.gid then md.mode &&& S_IXGRP ≠ 0
  else md.mode &&& S_IXOTH ≠ 0

/-- No execute bit is set, and the caller is neither the owner nor in the group. -/
def Unnamed (ctx : Context) (md : Metadata) : Prop :=
  (md.mode &&& S_IXUSR = 0 ∧ md.mode &&& S_IXGRP = 0 ∧ md.mode &&& S_IXOTH = 0) ∧
    ctx.uid ≠ md.uid ∧ ctx.gid ≠ md.gid

variable {ctx : Context} {md : Metadata}

/-- The class of the caller decides, except for a caller that no entry names. -/
theorem allows_derivedEntries : Allows ctx (derivedEntries md) ↔ Searchable ctx md ∨ Unnamed ctx md := by
  unfold Allows derivedEntries Searchable Unnamed
  by_cases huid : ctx.uid = md.uid
  · by_cases hu : md.mode &&& S_IXUSR = 0
    · by_cases hg : md.mode &&& S_IXGRP = 0 <;> by_cases ho : md.mode &&& S_IXOTH = 0 <;>
        simp [huid, hu, hg, ho, passes]
    · by_cases hg : md.mode &&& S_IXGRP = 0 <;> by_cases ho : md.mode &&& S_IXOTH = 0 <;>
        simp [huid, hu, hg, ho, passes]
  · by_cases hgid : ctx.gid = md.gid
    · by_cases hg : md.mode &&& S_IXGRP = 0
      · by_cases hu : md.mode &&& S_IXUSR = 0 <;> by_cases ho : md.mode &&& S_IXOTH = 0 <;>
          simp [huid, hgid, hu, hg, ho, passes]
      · by_cases hu : md.mode &&& S_IXUSR = 0 <;> by_cases ho : md.mode &&& S_IXOTH = 0 <;>
          simp [huid, hgid, hu, hg, ho, passes]
    · by_cases ho : md.mode &&& S_IXOTH = 0
      · by_cases hu : md.mode &&& S_IXUSR = 0 <;> by_cases hg : md.mode &&& S_IXGRP = 0 <;>
          simp [huid, hgid, hu, hg, ho, passes]
      · by_cases hu : md.mode &&& S_IXUSR = 0 <;> by_cases hg : md.mode &&& S_IXGRP = 0 <;>
          simp [huid, hgid, hu, hg, ho, passes]

/-! ## The function -/

/-- Environment with the loop as it is written, as long as it stays in range. -/
def loopEnv : Env where
  uuid _ := []
  drops _ _ := false
  removeDuplicates := withoutDuplicates
  posixFull := false

theorem computeChildren_eq :
    computeChildren md = (removeDuplicates md.pathPermission (derivedEntries md)).map
      fun _ => computePathPermissionChildren loopEnv md := by
  unfold computeChildren computePathPermissionChildren
  show (removeDuplicates md.pathPermission (derivedEntries md)).bind _ = _
  cases h : removeDuplicates md.pathPermission (derivedEntries md) with
  | none => rfl
  | some v =>
    have hloop : loopEnv.removeDuplicates md.pathPermission (derivedEntries md) = v := by
      show (removeDuplicates md.pathPermission (derivedEntries md)).getD _ = v
      rw [h, Option.getD_some]
    rw [hloop, Option.bind_some, Option.map_some]
    dsimp only
    split
    · rfl
    · rfl

/-- A caller passes the entries of a directory and those for its children if it passes the entries
    of the directory and all derived ones. -/
theorem allows_children :
    Allows ctx ((computePathPermissionChildren loopEnv md).1.pathPermission ++
        (computePathPermissionChildren loopEnv md).1.pathPermissionChildren) ↔
      Allows ctx md.pathPermission ∧ (Searchable ctx md ∨ Unnamed ctx md) := by
  obtain ⟨es, hes⟩ : ∃ es, (computePathPermissionChildren loopEnv md).1 =
      { md with pathPermissionChildren := es } := compute_attributes md
  have hpresent : (computePathPermissionChildren loopEnv md).1.pathPermission = md.pathPermission := by
    rw [hes]
  rw [allows_append, hpresent]
  refine and_congr_right fun h => ?_
  rw [allows_compute withoutDuplicates_removesPresent h, allows_derivedEntries]

theorem not_searchable (h : Unnamed ctx md) : ¬ Searchable ctx md := by
  obtain ⟨⟨-, -, hother⟩, huid, hgid⟩ := h
  unfold Searchable
  rw [if_neg huid, if_neg hgid]
  exact not_not.mpr hother

/-- The loop stays in range and a caller passes exactly if it may search the directory, unless the
    last derived entry is a duplicate or no entry names the caller. -/
theorem computeChildren_iff_searchable (ctx : Context) (md : Metadata) :
    (∃ md' changed, computeChildren md = some (md', changed) ∧
      (checkPathPermissions ctx (md'.pathPermission ++ md'.pathPermissionChildren) = 0 ↔
        checkPathPermissions ctx md.pathPermission = 0 ∧ Searchable ctx md)) ↔
      (∀ e ∈ md.pathPermission, (derivedEntries md).getLast? ≠ some e) ∧
        ¬ (Unnamed ctx md ∧ checkPathPermissions ctx md.pathPermission = 0) := by
  have hrange : (∀ e ∈ md.pathPermission, (derivedEntries md).getLast? ≠ some e) ↔
      removeDuplicates md.pathPermission (derivedEntries md) ≠ none := by
    rw [ne_eq, removeDuplicates_eq_none (derivedEntries_nodup md)]
    push Not
    rfl
  rw [computeChildren_eq, hrange]
  cases h : removeDuplicates md.pathPermission (derivedEntries md) with
  | none =>
    refine iff_of_false ?_ fun hc => hc.1 rfl
    rintro ⟨md', changed, heq, -⟩
    cases heq
  | some v =>
    have hresult : (∃ md' changed, some (computePathPermissionChildren loopEnv md) = some (md', changed) ∧
        (checkPathPermissions ctx (md'.pathPermission ++ md'.pathPermissionChildren) = 0 ↔
          checkPathPermissions ctx md.pathPermission = 0 ∧ Searchable ctx md)) ↔
        (Allows ctx md.pathPermission ∧ (Searchable ctx md ∨ Unnamed ctx md) ↔
          Allows ctx md.pathPermission ∧ Searchable ctx md) := by
      simp only [checkPathPermissions_eq_zero]
      rw [← allows_children]
      constructor
      · rintro ⟨md', changed, heq, hiff⟩
        rw [Option.some_inj.mp heq]
        exact hiff
      · intro hiff
        exact ⟨_, _, rfl, hiff⟩
    have hsome : some v ≠ none := Option.some_ne_none v
    rw [Option.map_some, hresult, checkPathPermissions_eq_zero, and_iff_right hsome]
    constructor
    · rintro hiff ⟨hunnamed, hpass⟩
      exact not_searchable hunnamed (hiff.mp ⟨hpass, Or.inr hunnamed⟩).2
    · intro hnot
      refine and_congr_right fun hpass => or_iff_left fun hunnamed => hnot ⟨hunnamed, hpass⟩

/-- A directory without any execute bit, and a caller who is neither its owner nor in its group. -/
theorem unnamed_caller_passes :
    ¬ ∀ (ctx : Context) (md : Metadata), ∃ md' changed, computeChildren md = some (md', changed) ∧
      (checkPathPermissions ctx (md'.pathPermission ++ md'.pathPermissionChildren) = 0 ↔
        checkPathPermissions ctx md.pathPermission = 0 ∧ Searchable ctx md) := by
  intro h
  obtain ⟨md', changed, heq, hiff⟩ := h ⟨1001, 1001⟩ ⟨.POSIX, 1000, 1000, 0o40600, 1, 0, [], []⟩
  have hresult : computeChildren ⟨.POSIX, 1000, 1000, 0o40600, 1, 0, [], []⟩ =
      some (⟨.POSIX, 1000, 1000, 0o40600, 1, 0, [],
        [⟨.NOT_UID, 1000, 1000⟩, ⟨.NOT_GID, 1000, 1000⟩]⟩, true) := by
    decide
  rw [hresult] at heq
  cases heq
  exact absurd (hiff.mp (by decide)).2 (not_searchable (by unfold Unnamed; decide))

/-! ## Duplicates -/

/-- The assertion where an entry is derived. -/
theorem derivedEntries_length (md : Metadata) : (derivedEntries md).length ≤ 2 := by
  unfold derivedEntries
  by_cases hu : md.mode &&& S_IXUSR ≠ 0 <;> by_cases hg : md.mode &&& S_IXGRP ≠ 0 <;>
    by_cases ho : md.mode &&& S_IXOTH ≠ 0 <;> simp [hu, hg, ho]

/-- The iterator stays in range, and what is left are the entries that do not occur in
    `path_permission`, if and only if the last entry does not occur there. -/
theorem removeDuplicates_iff (md : Metadata) :
    (∃ v, removeDuplicates md.pathPermission (derivedEntries md) = some v ∧
      v = (derivedEntries md).filter fun e => e ∉ md.pathPermission) ↔
    ∀ e, (derivedEntries md).getLast? = some e → e ∉ md.pathPermission := by
  have hnodup := derivedEntries_nodup md
  constructor
  · rintro ⟨v, hv, -⟩ e he hpresent
    rw [(removeDuplicates_eq_none hnodup).mpr ⟨e, hpresent, he⟩] at hv
    cases hv
  · intro h
    obtain ⟨v, hv⟩ := Option.ne_none_iff_exists'.mp fun hnone => by
      obtain ⟨e, hpresent, he⟩ := (removeDuplicates_eq_none hnodup).mp hnone
      exact h e he hpresent
    exact ⟨v, hv, removeDuplicates_eq_filter hnodup hv⟩

/-- A directory of mode `0700` in a directory of mode `0700` with the same owner. -/
theorem removeDuplicates_past_end : ¬ ∀ md : Metadata,
    ∃ v, removeDuplicates md.pathPermission (derivedEntries md) = some v ∧
      v = (derivedEntries md).filter fun e => e ∉ md.pathPermission := by
  intro h
  let private700 : Metadata := { Metadata.empty with mode := S_IFDIR ||| 0o700, uid := 1000, gid := 1000 }
  let parent : Metadata := { private700 with pathPermissionChildren := derivedEntries private700 }
  obtain ⟨v, hv, -⟩ := h (copyPathPermissions private700 parent)
  have hnone : removeDuplicates (copyPathPermissions private700 parent).pathPermission
      (derivedEntries (copyPathPermissions private700 parent)) = none := by decide
  rw [hnone] at hv
  cases hv

end HFlat.Permission
