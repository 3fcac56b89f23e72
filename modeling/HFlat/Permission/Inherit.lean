/-
  Inherited path permissions as a property of the stored metadata. A record holds the restrictions
  of all directories above it, without duplicates, as of the database version it was verified
  against; a database entry of a directory marks the version of its latest change. `PathInv` ties
  the two together: a record that is verified up to every change above it restricts the callers
  that the modes, users and groups of these directories restrict.
-/
import HFlat.PathMap.Updates
import HFlat.Permission.Model

namespace HFlat.Permission

open HFlat.Lib HFlat.PathMap

/-! ## Reachability entries -/

/-- The caller meets every entry. -/
def Allows (ctx : Context) (es : List ReachabilityEntry) : Prop := ∀ e ∈ es, passes ctx e = true

theorem allows_append {ctx : Context} {es es' : List ReachabilityEntry} :
    Allows ctx (es ++ es') ↔ Allows ctx es ∧ Allows ctx es' := by
  unfold Allows
  simp only [List.mem_append, or_imp, forall_and]

theorem checkPathPermissions_cases (ctx : Context) (es : List ReachabilityEntry) :
    (Allows ctx es ∧ checkPathPermissions ctx es = 0) ∨
      (¬ Allows ctx es ∧ checkPathPermissions ctx es = -EACCES) := by
  induction es with
  | nil => exact Or.inl ⟨fun e he => absurd he List.not_mem_nil, rfl⟩
  | cons e es ih =>
    unfold checkPathPermissions
    split
    · rename_i hp
      have hcons : Allows ctx (e :: es) ↔ Allows ctx es := by
        unfold Allows
        simp [hp]
      rw [hcons]
      exact ih
    · rename_i hp
      exact Or.inr ⟨fun h => hp (h e List.mem_cons_self), rfl⟩

theorem checkPathPermissions_eq_zero {ctx : Context} {es : List ReachabilityEntry} :
    checkPathPermissions ctx es = 0 ↔ Allows ctx es := by
  rcases checkPathPermissions_cases ctx es with ⟨ha, hc⟩ | ⟨ha, hc⟩
  · exact ⟨fun _ => ha, fun _ => hc⟩
  · refine ⟨fun h => ?_, fun h => absurd h ha⟩
    rw [hc] at h
    exact absurd h (by decide)

/-- The derived entries differ in their type. -/
theorem derivedEntries_nodup (md : Metadata) : (derivedEntries md).Nodup := by
  unfold derivedEntries
  by_cases hu : md.mode &&& S_IXUSR = 0
  · by_cases hg : md.mode &&& S_IXGRP = 0
    · by_cases ho : md.mode &&& S_IXOTH = 0
      · simp [hu, hg, ho]
      · simp [hu, hg, ho]
    · by_cases ho : md.mode &&& S_IXOTH = 0
      · simp [hu, hg, ho]
      · simp [hu, hg, ho]
  · by_cases hg : md.mode &&& S_IXGRP = 0
    · by_cases ho : md.mode &&& S_IXOTH = 0
      · simp [hu, hg, ho]
      · simp [hu, hg, ho]
    · by_cases ho : md.mode &&& S_IXOTH = 0
      · simp [hu, hg, ho]
      · simp [hu, hg, ho]

/-- The derived entries are those of mode, user and group. -/
theorem derivedEntries_congr {md md' : Metadata} (hm : md'.mode = md.mode) (hu : md'.uid = md.uid)
    (hg : md'.gid = md.gid) : derivedEntries md' = derivedEntries md := by
  unfold derivedEntries
  rw [hm, hu, hg]

/-- The loop removes some of the entries that are present. -/
def RemovesPresent
    (f : List ReachabilityEntry → List ReachabilityEntry → List ReachabilityEntry) : Prop :=
  ∀ present v, (f present v).Sublist v ∧ ∀ e ∈ v, e ∉ f present v → e ∈ present

section Loop

variable {p : ReachabilityEntry} {v w present : List ReachabilityEntry}

/-- Only the searched entry is removed, and never the last one. -/
theorem scan_spec (h : scan p v = some w) :
    w.Sublist v ∧ (∀ e ∈ v, e ∉ w → e = p) ∧ w.getLast? = v.getLast? := by
  fun_induction scan p v generalizing w with
  | case1 =>
    cases h
    exact ⟨List.Sublist.refl _, fun e he => absurd he List.not_mem_nil, rfl⟩
  | case2 => cases h
  | case3 e hne =>
    cases h
    exact ⟨List.Sublist.refl _, fun e he hne => absurd he hne, rfl⟩
  | case4 e' es ih =>
    obtain ⟨w, hw, rfl⟩ := Option.map_eq_some_iff.mp h
    obtain ⟨hsub, hmem, hlast⟩ := ih hw
    refine ⟨(hsub.cons_cons e').cons p, fun x hx hnot => ?_, ?_⟩
    · obtain rfl | hx := List.mem_cons.mp hx
      · rfl
      · obtain rfl | hx := List.mem_cons.mp hx
        · exact absurd List.mem_cons_self hnot
        · exact hmem x hx fun hw => hnot (List.mem_cons_of_mem _ hw)
    · rw [List.getLast?_cons_cons, List.getLast?_cons, List.getLast?_cons, hlast]
  | case5 e e' es hne ih =>
    obtain ⟨w, hw, rfl⟩ := Option.map_eq_some_iff.mp h
    obtain ⟨hsub, hmem, hlast⟩ := ih hw
    refine ⟨hsub.cons_cons e, fun x hx hnot => ?_, ?_⟩
    · obtain rfl | hx := List.mem_cons.mp hx
      · exact absurd List.mem_cons_self hnot
      · exact hmem x hx fun hw => hnot (List.mem_cons_of_mem _ hw)
    · rw [List.getLast?_cons, hlast, List.getLast?_cons_cons, List.getLast?_cons]
      rfl

theorem removeDuplicates_spec (h : removeDuplicates present v = some w) :
    w.Sublist v ∧ ∀ e ∈ v, e ∉ w → e ∈ present := by
  induction present generalizing v with
  | nil =>
    cases h
    exact ⟨List.Sublist.refl _, fun e he hne => absurd he hne⟩
  | cons p present ih =>
    obtain ⟨u, hu, h⟩ := Option.bind_eq_some_iff.mp h
    obtain ⟨hsub, hmem, -⟩ := scan_spec hu
    obtain ⟨hsub', hmem'⟩ := ih h
    refine ⟨hsub'.trans hsub, fun e he hne => ?_⟩
    by_cases heu : e ∈ u
    · exact List.mem_cons_of_mem _ (hmem' e heu hne)
    · rw [hmem e he heu]
      exact List.mem_cons_self

/-- The loop of the code does. -/
theorem withoutDuplicates_removesPresent : RemovesPresent withoutDuplicates := by
  intro present v
  unfold withoutDuplicates
  cases h : removeDuplicates present v with
  | none => exact ⟨List.Sublist.refl v, fun e he hne => absurd he hne⟩
  | some w => exact removeDuplicates_spec h

end Loop

section Compute

variable {env : Env}

theorem compute_attributes (md : Metadata) :
    ∃ es, (computePathPermissionChildren env md).1 = { md with pathPermissionChildren := es } := by
  unfold computePathPermissionChildren
  dsimp only
  split
  · exact ⟨_, rfl⟩
  · exact ⟨md.pathPermissionChildren, rfl⟩

theorem compute_unchanged {md : Metadata} (h : (computePathPermissionChildren env md).2 = false) :
    (computePathPermissionChildren env md).1 = md := by
  unfold computePathPermissionChildren at h ⊢
  dsimp only at h ⊢
  split
  · rename_i hc
    simp [hc] at h
  · rfl

/-- The stored entries for children are, as a set, the derived ones without duplicates. -/
theorem mem_compute (henv : RemovesPresent env.removeDuplicates) (md : Metadata)
    (e : ReachabilityEntry) :
    e ∈ (computePathPermissionChildren env md).1.pathPermissionChildren ↔
      e ∈ env.removeDuplicates md.pathPermission (derivedEntries md) := by
  have hnodup := (derivedEntries_nodup md).sublist (henv md.pathPermission (derivedEntries md)).1
  unfold computePathPermissionChildren
  dsimp only
  split
  · rfl
  · rename_i hsame
    rw [not_or, not_not] at hsame
    have hsub : env.removeDuplicates md.pathPermission (derivedEntries md) ⊆
        md.pathPermissionChildren := by
      intro e he
      by_contra hne
      exact hsame.2 ⟨e, he, hne⟩
    have hperm := (List.subperm_of_subset hnodup hsub).perm_of_length_le (le_of_eq hsame.1)
    exact hperm.symm.mem_iff

/-- For a caller that meets the path permissions of a directory, the entries for its children
    restrict as the derived entries do. -/
theorem allows_compute (henv : RemovesPresent env.removeDuplicates) {ctx : Context} {md : Metadata}
    (h : Allows ctx md.pathPermission) :
    Allows ctx (computePathPermissionChildren env md).1.pathPermissionChildren ↔
      Allows ctx (derivedEntries md) := by
  obtain ⟨hsub, hpresent⟩ := henv md.pathPermission (derivedEntries md)
  constructor
  · intro hc e he
    by_cases hkept : e ∈ env.removeDuplicates md.pathPermission (derivedEntries md)
    · exact hc e ((mem_compute henv md e).mpr hkept)
    · exact h e (hpresent e he hkept)
  · intro hd e he
    exact hd e (hsub.subset ((mem_compute henv md e).mp he))

end Compute

/-! ## The invariant -/

/-- `a` is a proper ancestor directory of `p`. -/
inductive Above (a : Str) : Str → Prop
  | parent {p : Str} (hp : p ≠ root) (ha : a = parentPath p) : Above a p
  | up {p : Str} (hp : p ≠ root) (ha : Above a (parentPath p)) : Above a p

theorem above_iff {a p : Str} : Above a p ↔ p ≠ root ∧ (a = parentPath p ∨ Above a (parentPath p)) := by
  constructor
  · intro h
    cases h with
    | parent hp ha => exact ⟨hp, Or.inl ha⟩
    | up hp ha => exact ⟨hp, Or.inr ha⟩
  · rintro ⟨hp, ha | ha⟩
    · exact Above.parent hp ha
    · exact Above.up hp ha

/-- The metadata that is stored under each key. -/
abbrev Records := Str → Option Metadata

/-- The caller meets the entries derived from every directory above `p`. -/
def Reaches (t : Records) (ctx : Context) (p : Str) : Prop :=
  ∀ a md, Above a p → t a = some md → Allows ctx (derivedEntries md)

/-- The record at `p` is verified up to every change at or above `p`. -/
def Fresh (db : PathMapDB) (p : Str) (md : Metadata) : Prop :=
  ∀ a, Under a p → stampOf db.snapshot a ≤ md.pathPermissionVerified

/-- A record that operations on a path without renames and links can meet. -/
structure RecordOk (db : PathMapDB) (p : Str) (md : Metadata) : Prop where
  absolute : ∃ r, p = '/' :: r
  namesFit : NamesFit p
  fits : p.length ≤ PATH_MAX
  type : md.type = .POSIX
  inode : md.inodeNumber ≠ 0
  verified : md.pathPermissionVerified ≤ db.snapshotVersion
  stamp : stampOf db.snapshot p ≤ md.pathPermissionVerified

/-- The invariant of the stored tree: every record is `RecordOk`, every object has its directories, and
    the snapshot has permission changes of existing paths only. -/
structure PathInv (t : Records) (db : PathMapDB) : Prop where
  rootDir : ∃ md, t root = some md ∧ S_ISDIR md.mode = true
  record : ∀ p md, t p = some md → RecordOk db p md
  parent : ∀ p md, t p = some md → p ≠ root →
    ∃ parent, t (parentPath p) = some parent ∧ S_ISDIR parent.mode = true
  snapshot : ∀ k e, db.snapshot.find k = some e →
    e.type = .NONE ∧ e.permissionTimeStamp ≤ db.snapshotVersion ∧ k ≠ root ∧ t k ≠ none
  permission : ∀ p md, t p = some md →
    (∀ a, Under a p → a ≠ p → stampOf db.snapshot a ≤ md.pathPermissionVerified) →
    ∀ ctx, Allows ctx md.pathPermission ↔ Reaches t ctx p
  children : ∀ p md, t p = some md → S_ISDIR md.mode = true →
    ∀ ctx, Allows ctx md.pathPermission →
      (Allows ctx md.pathPermissionChildren ↔ Allows ctx (derivedEntries md))

/-! ## What the invariant gives -/

section Facts

variable {t : Records} {db : PathMapDB} {p q : Str} {md : Metadata}

theorem PathInv.stamp_absent (h : PathInv t db) (hp : t p = none) : stampOf db.snapshot p = 0 := by
  unfold stampOf
  cases hf : db.snapshot.find p with
  | none => rfl
  | some e => exact absurd hp (h.snapshot p e hf).2.2.2

theorem PathInv.nil (h : PathInv t db) : t [] = none := by
  by_contra hne
  obtain ⟨md, hmd⟩ := Option.ne_none_iff_exists'.mp hne
  obtain ⟨r, hr⟩ := (h.record [] md hmd).absolute
  exact List.cons_ne_nil _ _ hr.symm

/-- A change above a path is a change above its parent. -/
theorem PathInv.stamp_parent (h : PathInv t db) {a : Str} {parent : Metadata}
    (hfresh : Fresh db (parentPath p) parent) (ha : Under a p) (hne : a ≠ p) :
    stampOf db.snapshot a ≤ parent.pathPermissionVerified := by
  by_cases h0 : a = []
  · rw [h0, h.stamp_absent h.nil]
    omega
  · exact hfresh a (under_parentPath ha hne h0)

/-- Every directory above an existing path exists. -/
theorem PathInv.above (h : PathInv t db) {a : Str} (ha : Above a p) :
    ∀ md, t p = some md → ∃ dir, t a = some dir ∧ S_ISDIR dir.mode = true := by
  induction ha with
  | parent hp ha =>
    intro md hmd
    rw [ha]
    exact h.parent _ md hmd hp
  | up hp _ ih =>
    intro md hmd
    obtain ⟨dir, hdir, -⟩ := h.parent _ md hmd hp
    exact ih dir hdir

theorem reaches_iff_parent {ctx : Context} {parent : Metadata} (hp : p ≠ root)
    (hparent : t (parentPath p) = some parent) :
    Reaches t ctx p ↔ Reaches t ctx (parentPath p) ∧ Allows ctx (derivedEntries parent) := by
  constructor
  · intro h
    exact ⟨fun a md ha hmd => h a md (Above.up hp ha) hmd, h _ parent (Above.parent hp rfl) hparent⟩
  · rintro ⟨h1, h2⟩ a md ha hmd
    rcases (above_iff.mp ha).2 with rfl | ha
    · rw [hparent] at hmd
      cases hmd
      exact h2
    · exact h1 a md ha hmd

/-- A record with the same derived entries restricts as before. -/
theorem reaches_update {ctx : Context} {md' : Metadata} (hq : t q = some md)
    (hsame : derivedEntries md' = derivedEntries md) :
    Reaches (Function.update t q (some md')) ctx p ↔ Reaches t ctx p := by
  constructor
  · intro h a md1 ha hmd1
    by_cases haq : a = q
    · subst haq
      rw [hq] at hmd1
      cases hmd1
      rw [← hsame]
      exact h a md' ha (Function.update_self _ _ _)
    · exact h a md1 ha (by rw [Function.update_of_ne haq]; exact hmd1)
  · intro h a md1 ha hmd1
    by_cases haq : a = q
    · subst haq
      rw [Function.update_self] at hmd1
      cases hmd1
      rw [hsame]
      exact h a md ha hq
    · rw [Function.update_of_ne haq] at hmd1
      exact h a md1 ha hmd1

/-- A path below no record `q` restricts as before, whatever happens to `q`. -/
theorem reaches_update_of_not_above {ctx : Context} {r : Option Metadata} (hq : ¬ Above q p) :
    Reaches (Function.update t q r) ctx p ↔ Reaches t ctx p := by
  have hne : ∀ a, Above a p → Function.update t q r a = t a := fun a ha =>
    Function.update_of_ne (fun he => hq (by rw [← he]; exact ha)) _ _
  constructor
  · intro h a md ha hmd
    exact h a md ha (by rw [hne a ha]; exact hmd)
  · intro h a md ha hmd
    exact h a md ha (by rw [← hne a ha]; exact hmd)

/-- A verified record restricts as the directories above it. -/
theorem PathInv.allows_iff (h : PathInv t db) (hp : t p = some md) (hfresh : Fresh db p md)
    (ctx : Context) : Allows ctx md.pathPermission ↔ Reaches t ctx p :=
  h.permission p md hp (fun a ha _ => hfresh a ha) ctx

end Facts

/-! ## Inheritance -/

section Inheritance

variable {env : Env} {t : Records} {db : PathMapDB} {p : Str}

theorem inherit_eq (env : Env) (md parent : Metadata) :
    ∃ es, inheritPathPermissions env md parent =
      { copyPathPermissions md parent with pathPermissionChildren := es } := by
  unfold inheritPathPermissions
  dsimp only
  split
  · exact compute_attributes (copyPathPermissions md parent)
  · exact ⟨md.pathPermissionChildren, rfl⟩

theorem derivedEntries_inherit (md parent : Metadata) :
    derivedEntries (inheritPathPermissions env md parent) = derivedEntries md := by
  obtain ⟨es, hes⟩ := inherit_eq env md parent
  rw [hes]
  exact derivedEntries_congr rfl rfl rfl

/-- A directory that has inherited restricts its children as its mode says. -/
theorem inherit_children (henv : RemovesPresent env.removeDuplicates) {md parent : Metadata}
    (hdir : S_ISDIR md.mode = true) {ctx : Context}
    (h : Allows ctx (parent.pathPermission ++ parent.pathPermissionChildren)) :
    Allows ctx (inheritPathPermissions env md parent).pathPermissionChildren ↔
      Allows ctx (derivedEntries md) := by
  have hmd : inheritPathPermissions env md parent =
      (computePathPermissionChildren env (copyPathPermissions md parent)).1 := if_pos hdir
  have hderived : derivedEntries (copyPathPermissions md parent) = derivedEntries md :=
    derivedEntries_congr rfl rfl rfl
  rw [hmd, ← hderived]
  exact allows_compute henv h

/-- The restrictions that a verified directory hands down. -/
theorem PathInv.allows_inherited (h : PathInv t db) {parent : Metadata} (hp : p ≠ root)
    (hparent : t (parentPath p) = some parent) (hdir : S_ISDIR parent.mode = true)
    (hfresh : Fresh db (parentPath p) parent) (ctx : Context) :
    Allows ctx (parent.pathPermission ++ parent.pathPermissionChildren) ↔ Reaches t ctx p := by
  rw [allows_append, reaches_iff_parent hp hparent, ← h.allows_iff hparent hfresh]
  constructor
  · rintro ⟨h1, h2⟩
    exact ⟨h1, (h.children _ parent hparent hdir ctx h1).mp h2⟩
  · rintro ⟨h1, h2⟩
    exact ⟨h1, (h.children _ parent hparent hdir ctx h1).mpr h2⟩

/-- A record that takes over the path permissions of its verified parent. -/
theorem recordOk_inherit (h : PathInv t db) {md parent : Metadata}
    (hparent : t (parentPath p) = some parent) (hok : RecordOk db p md)
    (hstamp : stampOf db.snapshot p ≤ parent.pathPermissionVerified) :
    RecordOk db p (inheritPathPermissions env md parent) := by
  obtain ⟨es, hes⟩ := inherit_eq env md parent
  rw [hes]
  exact ⟨hok.absolute, hok.namesFit, hok.fits, hok.type, hok.inode,
    (h.record _ parent hparent).verified, hstamp⟩

theorem fresh_inherit (h : PathInv t db) {md parent : Metadata}
    (hfresh : Fresh db (parentPath p) parent)
    (hstamp : stampOf db.snapshot p ≤ parent.pathPermissionVerified) :
    Fresh db p (inheritPathPermissions env md parent) := by
  obtain ⟨es, hes⟩ := inherit_eq env md parent
  rw [hes]
  intro a ha
  by_cases hne : a = p
  · rw [hne]
    exact hstamp
  · exact h.stamp_parent hfresh ha hne

/-- Another record at an existing path: a directory stays a directory. -/
theorem PathInv.replace (h : PathInv t db) {md md' : Metadata} (hmd : t p = some md) (hp : p ≠ root)
    (hdir : S_ISDIR md'.mode = S_ISDIR md.mode) (hok : RecordOk db p md')
    (hpermission : ∀ q r, Function.update t p (some md') q = some r →
      (∀ a, Under a q → a ≠ q → stampOf db.snapshot a ≤ r.pathPermissionVerified) →
      ∀ ctx, Allows ctx r.pathPermission ↔ Reaches (Function.update t p (some md')) ctx q)
    (hchildren : S_ISDIR md'.mode = true → ∀ ctx, Allows ctx md'.pathPermission →
      (Allows ctx md'.pathPermissionChildren ↔ Allows ctx (derivedEntries md'))) :
    PathInv (Function.update t p (some md')) db := by
  refine ⟨?_, fun q r hq => ?_, fun q r hq hroot => ?_, fun k e hk => ?_, hpermission,
    fun q r hq hd ctx ha => ?_⟩
  · obtain ⟨r, hr, hrd⟩ := h.rootDir
    exact ⟨r, by rw [Function.update_of_ne (Ne.symm hp)]; exact hr, hrd⟩
  · by_cases hqp : q = p
    · subst hqp
      rw [Function.update_self] at hq
      cases hq
      exact hok
    · rw [Function.update_of_ne hqp] at hq
      exact h.record q r hq
  · have hold : ∃ r', t q = some r' := by
      by_cases hqp : q = p
      · exact ⟨md, by rw [hqp]; exact hmd⟩
      · rw [Function.update_of_ne hqp] at hq
        exact ⟨r, hq⟩
    obtain ⟨r', hr'⟩ := hold
    obtain ⟨dir, hd, hisdir⟩ := h.parent q r' hr' hroot
    by_cases hpar : parentPath q = p
    · rw [hpar] at hd ⊢
      rw [hmd] at hd
      cases hd
      exact ⟨_, Function.update_self _ _ _, hdir.trans hisdir⟩
    · exact ⟨dir, by rw [Function.update_of_ne hpar]; exact hd, hisdir⟩
  · obtain ⟨h1, h2, h3, h4⟩ := h.snapshot k e hk
    refine ⟨h1, h2, h3, ?_⟩
    by_cases hkp : k = p
    · rw [hkp, Function.update_self]
      exact Option.some_ne_none _
    · rw [Function.update_of_ne hkp]
      exact h4
  · by_cases hqp : q = p
    · subst hqp
      rw [Function.update_self] at hq
      cases hq
      exact hchildren hd ctx ha
    · rw [Function.update_of_ne hqp] at hq
      exact h.children q r hq hd ctx ha

/-- `lookup` of a stale path: the record inherits again. -/
theorem PathInv.refresh (henv : RemovesPresent env.removeDuplicates) (h : PathInv t db)
    {md parent : Metadata} (hmd : t p = some md) (hp : p ≠ root)
    (hparent : t (parentPath p) = some parent) (hdir : S_ISDIR parent.mode = true)
    (hfresh : Fresh db (parentPath p) parent)
    (hstamp : stampOf db.snapshot p ≤ parent.pathPermissionVerified) :
    PathInv (Function.update t p (some (inheritPathPermissions env md parent))) db := by
  obtain ⟨es, hes⟩ := inherit_eq env md parent
  have hmode : (inheritPathPermissions env md parent).mode = md.mode := by rw [hes]; rfl
  refine h.replace hmd hp (by rw [hmode]) (recordOk_inherit h hparent (h.record p md hmd) hstamp)
    (fun q r hq hver ctx => ?_) fun hd ctx ha => ?_
  · rw [reaches_update hmd (derivedEntries_inherit md parent)]
    by_cases hqp : q = p
    · subst hqp
      rw [Function.update_self] at hq
      cases hq
      rw [hes]
      exact h.allows_inherited hp hparent hdir hfresh ctx
    · rw [Function.update_of_ne hqp] at hq
      exact h.permission q r hq hver ctx
  · rw [derivedEntries_inherit]
    rw [hmode] at hd
    rw [hes] at ha
    exact inherit_children henv hd ha

/-- A new object inherits from its verified directory. -/
theorem PathInv.create (henv : RemovesPresent env.removeDuplicates) (h : PathInv t db)
    {md parent : Metadata} (hmd : t p = none) (hp : p ≠ root)
    (hparent : t (parentPath p) = some parent) (hdir : S_ISDIR parent.mode = true)
    (hfresh : Fresh db (parentPath p) parent) (hok : RecordOk db p md) :
    PathInv (Function.update t p (some (inheritPathPermissions env md parent))) db := by
  obtain ⟨es, hes⟩ := inherit_eq env md parent
  have hmode : (inheritPathPermissions env md parent).mode = md.mode := by rw [hes]; rfl
  have hstamp : stampOf db.snapshot p ≤ parent.pathPermissionVerified := by
    rw [h.stamp_absent hmd]
    omega
  -- no existing path lies below the new one
  have hnot : ∀ q r, t q = some r → ¬ Above p q := by
    intro q r hq ha
    obtain ⟨dir, hd, -⟩ := h.above ha r hq
    rw [hmd] at hd
    cases hd
  have hself : ¬ Above p p := by
    intro ha
    rcases (above_iff.mp ha).2 with he | ha
    · rw [← he, hmd] at hparent
      cases hparent
    · exact hnot _ parent hparent ha
  refine ⟨?_, fun q r hq => ?_, fun q r hq hroot => ?_, fun k e hk => ?_, fun q r hq hver ctx => ?_,
    fun q r hq hd ctx ha => ?_⟩
  · obtain ⟨r, hr, hrd⟩ := h.rootDir
    exact ⟨r, by rw [Function.update_of_ne (Ne.symm hp)]; exact hr, hrd⟩
  · by_cases hqp : q = p
    · subst hqp
      rw [Function.update_self] at hq
      cases hq
      exact recordOk_inherit h hparent hok hstamp
    · rw [Function.update_of_ne hqp] at hq
      exact h.record q r hq
  · have hdirq : ∃ dir, t (parentPath q) = some dir ∧ S_ISDIR dir.mode = true := by
      by_cases hqp : q = p
      · exact ⟨parent, by rw [hqp]; exact hparent, hdir⟩
      · rw [Function.update_of_ne hqp] at hq
        exact h.parent q r hq hroot
    obtain ⟨dir, hd, hisdir⟩ := hdirq
    refine ⟨dir, ?_, hisdir⟩
    rw [Function.update_of_ne]
    · exact hd
    · intro he
      rw [he, hmd] at hd
      cases hd
  · obtain ⟨h1, h2, h3, h4⟩ := h.snapshot k e hk
    refine ⟨h1, h2, h3, ?_⟩
    rw [Function.update_of_ne]
    · exact h4
    · rintro rfl
      exact h4 hmd
  · by_cases hqp : q = p
    · subst hqp
      rw [Function.update_self] at hq
      cases hq
      rw [reaches_update_of_not_above hself, hes]
      exact h.allows_inherited hp hparent hdir hfresh ctx
    · rw [Function.update_of_ne hqp] at hq
      rw [reaches_update_of_not_above (hnot q r hq)]
      exact h.permission q r hq hver ctx
  · by_cases hqp : q = p
    · subst hqp
      rw [Function.update_self] at hq
      cases hq
      rw [derivedEntries_inherit]
      rw [hmode] at hd
      rw [hes] at ha
      exact inherit_children henv hd ha
    · rw [Function.update_of_ne hqp] at hq
      exact h.children q r hq hd ctx ha

end Inheritance

/-! ## Permission changes -/

section Changes

variable {env : Env} {t : Records} {db : PathMapDB} {p q : Str}

/-- The parent of an absolute path is shorter, and a component prefix unless it is `/`. -/
theorem parentPath_absolute {r : Str} (hp : p = '/' :: r) (hroot : p ≠ root) :
    (parentPath p).length < p.length ∧ (parentPath p ≠ root → Under (parentPath p) p) := by
  have hslash : findLastOf '/' p ≠ none := by
    rw [ne_eq, findLastOf_eq_none]
    simp [hp]
  obtain ⟨i, hi⟩ := Option.ne_none_iff_exists'.mp hslash
  obtain ⟨-, -, hlt⟩ := findLastOf_eq_some hi
  cases i with
  | zero =>
    have hpar : parentPath p = root := by simp [parentPath, hi]
    rw [hpar]
    refine ⟨?_, fun hne => absurd rfl hne⟩
    cases r with
    | nil => exact absurd hp hroot
    | cons c r => simp [hp, root]
  | succ i =>
    have hpar : parentPath p = p.take (i + 1) := by simp [parentPath, hi]
    rw [hpar]
    refine ⟨?_, fun _ => within_take_findLastOf hi⟩
    rw [List.length_take]
    omega

theorem PathInv.above_under (h : PathInv t db) {a : Str} (ha : Above a p) :
    ∀ md, t p = some md → a.length < p.length ∧ (a ≠ root → Under a p) := by
  induction ha with
  | @parent p hp ha =>
    intro md hmd
    obtain ⟨r, hr⟩ := (h.record p md hmd).absolute
    rw [ha]
    exact parentPath_absolute hr hp
  | @up p hp ha ih =>
    intro md hmd
    obtain ⟨r, hr⟩ := (h.record p md hmd).absolute
    obtain ⟨dir, hdir, -⟩ := h.parent p md hmd hp
    obtain ⟨h1, h2⟩ := ih dir hdir
    obtain ⟨h3, h4⟩ := parentPath_absolute hr hp
    refine ⟨by omega, fun hroot => (h2 hroot).trans (h4 ?_)⟩
    exact (above_iff.mp ha).1

theorem Above.trans {a : Str} (ha : Above a p) (hq : Above p q) : Above a q := by
  induction hq with
  | parent hne he => exact Above.up hne (by rw [← he]; exact ha)
  | up hne _ ih => exact Above.up hne ih

theorem PathInv.not_above_self (h : PathInv t db) {md : Metadata} (hmd : t p = some md) :
    ¬ Above p p := by
  intro ha
  have := (h.above_under ha md hmd).1
  omega

/-- A change that does not concern what callers reach: `chmod` without a database entry. -/
theorem PathInv.keepReach (h : PathInv t db) {md md' : Metadata} (hmd : t p = some md)
    (hsame : ∀ ctx, Reaches t ctx p →
      (Allows ctx (derivedEntries md') ↔ Allows ctx (derivedEntries md)))
    (ctx : Context) :
    Reaches (Function.update t p (some md')) ctx q ↔ Reaches t ctx q := by
  by_cases hpq : Above p q
  · have hne : ∀ a, Above a p → a ≠ p := fun a ha he =>
      h.not_above_self hmd (by rw [← he] at ha ⊢; exact ha)
    constructor
    · intro hr
      have hp : Reaches t ctx p := fun a md1 ha hmd1 =>
        hr a md1 (ha.trans hpq) (by rw [Function.update_of_ne (hne a ha)]; exact hmd1)
      intro a md1 ha hmd1
      by_cases hap : a = p
      · subst hap
        rw [hmd] at hmd1
        cases hmd1
        exact (hsame ctx hp).mp (hr a md' ha (Function.update_self _ _ _))
      · exact hr a md1 ha (by rw [Function.update_of_ne hap]; exact hmd1)
    · intro hr
      have hp : Reaches t ctx p := fun a md1 ha hmd1 => hr a md1 (ha.trans hpq) hmd1
      intro a md1 ha hmd1
      by_cases hap : a = p
      · subst hap
        rw [Function.update_self] at hmd1
        cases hmd1
        exact (hsame ctx hp).mpr (hr a md ha hmd)
      · rw [Function.update_of_ne hap] at hmd1
        exact hr a md1 ha hmd1
  · exact reaches_update_of_not_above hpq

/-- A change of mode, user or group that leaves the entries for the children as they are. -/
theorem PathInv.changeQuietly (h : PathInv t db) {md md' : Metadata} (hmd : t p = some md)
    (hp : p ≠ root) (hfresh : Fresh db p md) (hdir : S_ISDIR md'.mode = S_ISDIR md.mode)
    (htype : md'.type = md.type) (hinode : md'.inodeNumber = md.inodeNumber)
    (hverified : md'.pathPermissionVerified = md.pathPermissionVerified)
    (hpp : md'.pathPermission = md.pathPermission)
    (hppc : md'.pathPermissionChildren = md.pathPermissionChildren)
    (hchildren : S_ISDIR md'.mode = true → ∀ ctx, Allows ctx md'.pathPermission →
      (Allows ctx md'.pathPermissionChildren ↔ Allows ctx (derivedEntries md'))) :
    PathInv (Function.update t p (some md')) db := by
  have hok := h.record p md hmd
  -- a directory hands down the same restrictions; below a file there is nothing
  have hkeep : ∀ ctx q r, t q = some r →
      (Reaches (Function.update t p (some md')) ctx q ↔ Reaches t ctx q) := by
    intro ctx q r hq
    by_cases hd : S_ISDIR md.mode = true
    · refine h.keepReach hmd (fun ctx hr => ?_) ctx
      have ha := (h.allows_iff hmd hfresh ctx).mpr hr
      rw [← h.children p md hmd hd ctx ha, ← hppc]
      exact (hchildren (hdir.trans hd) ctx (by rw [hpp]; exact ha)).symm
    · refine reaches_update_of_not_above fun habove => hd ?_
      obtain ⟨dir, hdir', hisdir⟩ := h.above habove r hq
      rw [hmd] at hdir'
      cases hdir'
      exact hisdir
  refine h.replace hmd hp hdir ⟨hok.absolute, hok.namesFit, hok.fits, htype.trans hok.type,
    by rw [hinode]; exact hok.inode, by rw [hverified]; exact hok.verified,
    by rw [hverified]; exact hok.stamp⟩ (fun q r hq hver ctx => ?_) hchildren
  by_cases hqp : q = p
  · subst hqp
    rw [Function.update_self] at hq
    cases hq
    rw [hkeep ctx q md hmd, hpp]
    exact h.allows_iff hmd hfresh ctx
  · rw [Function.update_of_ne hqp] at hq
    rw [hkeep ctx q r hq]
    exact h.permission q r hq hver ctx

theorem addPermissionChange_stamp {u : Str} (hu : iointercept u = p) (k : Str) :
    stampOf (addPermissionChange db u).snapshot k =
      if k = p then db.snapshotVersion + 1 else stampOf db.snapshot k := by
  unfold stampOf
  rw [addPermissionChange_find db hu]
  split
  · cases db.snapshot.find p with
    | none => rfl
    | some e => rfl
  · rfl

/-- What is verified up to the noted change does not lie below it. -/
theorem PathInv.not_below (h : PathInv t db) {u : Str} (hu : iointercept u = p) {r : Metadata}
    (hq : t q = some r) (hne : q ≠ p)
    (hver : ∀ a, Under a q → a ≠ q →
      stampOf (addPermissionChange db u).snapshot a ≤ r.pathPermissionVerified) : ¬ Under p q := by
  intro hunder
  have h1 := hver p hunder (Ne.symm hne)
  rw [addPermissionChange_stamp hu, if_pos rfl] at h1
  have h2 := (h.record q r hq).verified
  omega

/-- A change noted in the database, before the record changes: only what lies below is stale. -/
theorem PathInv.note (h : PathInv t db) {md : Metadata} {u : Str} (hu : iointercept u = p)
    (hmd : t p = some md) (hp : p ≠ root) (hfresh : Fresh db p md) :
    PathInv (Function.update t p (some { md with
      pathPermissionVerified := db.snapshotVersion + 1 })) (addPermissionChange db u) := by
  have hreaches : ∀ ctx q, Reaches (Function.update t p (some { md with
      pathPermissionVerified := db.snapshotVersion + 1 })) ctx q ↔ Reaches t ctx q :=
    fun ctx q => reaches_update hmd (derivedEntries_congr rfl rfl rfl)
  have hrec : ∀ q r, Function.update t p (some { md with
      pathPermissionVerified := db.snapshotVersion + 1 }) q = some r → q ≠ p → t q = some r := by
    intro q r hq hne
    rwa [Function.update_of_ne hne] at hq
  have hself : ∀ r, Function.update t p (some { md with
      pathPermissionVerified := db.snapshotVersion + 1 }) p = some r →
      r = { md with pathPermissionVerified := db.snapshotVersion + 1 } := by
    intro r hq
    rw [Function.update_self] at hq
    exact (Option.some.inj hq).symm
  refine ⟨?_, fun q r hq => ?_, fun q r hq hroot => ?_, fun k e hk => ?_, fun q r hq hver ctx => ?_,
    fun q r hq hd ctx ha => ?_⟩
  · obtain ⟨r, hr, hrd⟩ := h.rootDir
    exact ⟨r, by rw [Function.update_of_ne (Ne.symm hp)]; exact hr, hrd⟩
  · by_cases hqp : q = p
    · subst hqp
      have hok := h.record q md hmd
      rw [hself r hq]
      refine ⟨hok.absolute, hok.namesFit, hok.fits, hok.type, hok.inode, le_refl _, ?_⟩
      rw [addPermissionChange_stamp hu, if_pos rfl]
    · have hok := h.record q r (hrec q r hq hqp)
      refine ⟨hok.absolute, hok.namesFit, hok.fits, hok.type, hok.inode,
        Nat.le_succ_of_le hok.verified, ?_⟩
      rw [addPermissionChange_stamp hu, if_neg hqp]
      exact hok.stamp
  · have hold : ∃ r', t q = some r' := by
      by_cases hqp : q = p
      · exact ⟨md, by rw [hqp]; exact hmd⟩
      · exact ⟨r, hrec q r hq hqp⟩
    obtain ⟨r', hr'⟩ := hold
    obtain ⟨dir, hd, hisdir⟩ := h.parent q r' hr' hroot
    by_cases hpar : parentPath q = p
    · rw [hpar] at hd ⊢
      rw [hmd] at hd
      cases hd
      exact ⟨_, Function.update_self _ _ _, hisdir⟩
    · exact ⟨dir, by rw [Function.update_of_ne hpar]; exact hd, hisdir⟩
  · rw [addPermissionChange_find db hu] at hk
    split at hk
    · rename_i hkp
      subst hkp
      refine ⟨?_, ?_, hp, by rw [Function.update_self]; exact Option.some_ne_none _⟩
      · cases hf : db.snapshot.find k with
        | none =>
          rw [hf] at hk
          cases hk
          rfl
        | some e' =>
          rw [hf] at hk
          cases hk
          exact (h.snapshot k e' hf).1
      · cases hf : db.snapshot.find k with
        | none =>
          rw [hf] at hk
          cases hk
          exact le_refl _
        | some e' =>
          rw [hf] at hk
          cases hk
          exact le_refl _
    · rename_i hkp
      obtain ⟨h1, h2, h3, h4⟩ := h.snapshot k e hk
      exact ⟨h1, Nat.le_succ_of_le h2, h3, by rw [Function.update_of_ne hkp]; exact h4⟩
  · rw [hreaches]
    by_cases hqp : q = p
    · subst hqp
      rw [hself r hq]
      exact h.allows_iff hmd hfresh ctx
    · have hqr := hrec q r hq hqp
      refine h.permission q r hqr (fun a ha hne => ?_) ctx
      have hap : a ≠ p := fun he => h.not_below hu hqr hqp hver (by rw [← he]; exact ha)
      have := hver a ha hne
      rwa [addPermissionChange_stamp hu, if_neg hap] at this
  · by_cases hqp : q = p
    · subst hqp
      rw [hself r hq] at hd ha ⊢
      rw [derivedEntries_congr rfl rfl rfl]
      exact h.children q md hmd hd ctx ha
    · exact h.children q r (hrec q r hq hqp) hd ctx ha

/-- A change that is noted in the database. -/
theorem PathInv.change (h : PathInv t db) {md md' : Metadata} {u : Str} (hu : iointercept u = p)
    (hmd : t p = some md) (hp : p ≠ root) (hfresh : Fresh db p md)
    (hdir : S_ISDIR md'.mode = S_ISDIR md.mode)
    (htype : md'.type = md.type) (hinode : md'.inodeNumber = md.inodeNumber)
    (hverified : md'.pathPermissionVerified = db.snapshotVersion + 1)
    (hpp : md'.pathPermission = md.pathPermission)
    (hchildren : S_ISDIR md'.mode = true → ∀ ctx, Allows ctx md'.pathPermission →
      (Allows ctx md'.pathPermissionChildren ↔ Allows ctx (derivedEntries md'))) :
    PathInv (Function.update t p (some md')) (addPermissionChange db u) := by
  have hnoted := h.note hu hmd hp hfresh
  have hok := hnoted.record p _ (Function.update_self _ _ _)
  have hupdate : Function.update t p (some md') = Function.update (Function.update t p (some { md with
      pathPermissionVerified := db.snapshotVersion + 1 })) p (some md') := by
    rw [Function.update_idem]
  rw [hupdate]
  refine hnoted.replace (Function.update_self _ _ _) hp hdir ⟨hok.absolute, hok.namesFit, hok.fits,
    htype.trans hok.type, by rw [hinode]; exact hok.inode, by rw [hverified]; exact le_refl _,
    by rw [hverified]; exact hok.stamp⟩ (fun q r hq hver ctx => ?_) hchildren
  rw [← hupdate] at hq ⊢
  by_cases hqp : q = p
  · subst hqp
    rw [Function.update_self] at hq
    cases hq
    rw [reaches_update_of_not_above (h.not_above_self hmd), hpp]
    exact h.allows_iff hmd hfresh ctx
  · rw [Function.update_of_ne hqp] at hq
    have hbelow := h.not_below hu hq hqp hver
    have hnot : ¬ Above p q := fun ha => hbelow ((h.above_under ha r hq).2 hp)
    rw [reaches_update_of_not_above hnot]
    refine h.permission q r hq (fun a ha hne => ?_) ctx
    have hap : a ≠ p := fun he => hbelow (by rw [← he]; exact ha)
    have := hver a ha hne
    rwa [addPermissionChange_stamp hu, if_neg hap] at this

end Changes

end HFlat.Permission
