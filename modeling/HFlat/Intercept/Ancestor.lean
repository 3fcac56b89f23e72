/-
  The ancestor check of `rename_lookup` (`fuseops/rename.cc`) against the directories that the two
  paths decode to.

  The check compares the paths as they are passed, character by character. The paths of two names
  are a prefix of each other if the names are, or if the last name of the first path is continued in
  the second one (`flatMap_prefix_iff`). Encoded paths begin with their virtual directories, so they
  are compared further only if these are the same.
-/
import HFlat.Intercept.PathChange
import HFlat.Fuse.Operations

namespace HFlat.Intercept

open HFlat.PathMap

/-! ## The check -/

/-- The comparison at the start of `rename_lookup`. -/
def ancestorCheck (pathFrom pathTo : Str) : Int := if pathFrom.isPrefixOf pathTo then -EINVAL else 0

theorem ancestorCheck_iff_le {pathFrom pathTo : Str} :
    ancestorCheck pathFrom pathTo = -EINVAL ↔ pathFrom <+: pathTo := by
  unfold ancestorCheck
  rw [← List.isPrefixOf_iff_prefix]
  by_cases h : pathFrom.isPrefixOf pathTo = true
  · rw [if_pos h]
    exact iff_of_true rfl h
  · rw [if_neg h]
    exact iff_of_false (by decide) h

/-- `rename_lookup` returns the error of the check. -/
theorem renameLookup_rejects (me : Nat) (env : Permission.Env) (ctx : Permission.Context) (fuel : Nat)
    {pathFrom pathTo : Str} (h : ancestorCheck pathFrom pathTo = -EINVAL) :
    Fuse.renameLookup me env ctx fuel pathFrom pathTo = pure (.error (ancestorCheck pathFrom pathTo)) := by
  have hle : pathFrom.isPrefixOf pathTo = true :=
    List.isPrefixOf_iff_prefix.mpr (ancestorCheck_iff_le.mp h)
  rw [h]
  unfold Fuse.renameLookup
  rw [if_pos hle]

/-! ## Paths below the mount point -/

/-- The path that the file system is given for some names: the plain path, or what `_substitute`
    makes of a path below the mount point `m`. The kernel drops the slash after the virtual directory
    of the root. -/
inductive UserPath (hash : Str → UInt64) (m : Str) (names : List Str) : Str → Prop
  | plain : UserPath hash m names (absolute names)
  | encoded {path f : Str} (hpath : Calls m names path)
      (hf : substitute hash path (m.length + 1) = some (m ++ f)) :
      UserPath hash m names (f.rdropWhile (· = '/'))

/-- The number in the virtual directory that a path begins with. -/
def virtualId : Str → Option Str
  | '/' :: ':' :: rest => some (rest.takeWhile (· ≠ ':'))
  | _ => none

/-- The path with virtual directory `id`. -/
def encodedPath (id : Str) (names : List Str) : Str :=
  '/' :: ':' :: (id ++ ':' :: below (encode (relative names)))

theorem rdropWhile_slash {names : List Str} (h : Names names) (a : Str) :
    (a ++ ':' :: '/' :: encode (relative names)).rdropWhile (· = '/') =
      a ++ ':' :: below (encode (relative names)) := by
  by_cases hnil : names = []
  · subst hnil
    have hroot : a ++ ':' :: '/' :: encode (relative []) = (a ++ [':']) ++ ['/'] := by
      rw [List.append_assoc]
      rfl
    rw [hroot, List.rdropWhile_concat_pos _ _ _ (by decide), List.rdropWhile_concat_neg _ _ _ (by decide)]
    rfl
  · have hne : encode (relative names) ≠ [] := fun he => relative_ne_nil h hnil (List.map_eq_nil_iff.mp he)
    have hbelow : below (encode (relative names)) = '/' :: encode (relative names) := if_neg hne
    obtain ⟨b, c, hc⟩ := (List.eq_nil_or_concat' (encode (relative names))).resolve_left hne
    have hslash : c ≠ '/' := by
      rintro rfl
      have hmem : '/' ∈ encode (relative names) := by
        rw [hc]
        exact List.mem_append_right _ List.mem_cons_self
      obtain ⟨d, -, hd⟩ := List.mem_map.mp hmem
      split at hd
      · cases hd
      · rename_i hd'
        exact hd' hd
    have hsplit : a ++ ':' :: '/' :: encode (relative names) = (a ++ ':' :: '/' :: b) ++ [c] := by
      rw [hc, List.append_assoc]
      rfl
    rw [hbelow, hsplit]
    exact List.rdropWhile_concat_neg _ _ _ (by simpa using hslash)

/-- An encoded path has a number in its virtual directory. -/
theorem userPath_cases {hash : Str → UInt64} {m f : Str} {names : List Str} (hm : ':' ∉ m)
    (hnames : Names names) (h : UserPath hash m names f) :
    f = absolute names ∨ ∃ id, f = encodedPath (toStr id) names := by
  cases h with
  | plain => exact Or.inl rfl
  | encoded hpath hf =>
    obtain ⟨id, hid⟩ := substitute_calls hash hm hnames hpath
    rw [hf] at hid
    obtain rfl := List.append_cancel_left (Option.some.inj hid)
    refine Or.inr ⟨id, ?_⟩
    have hsplit : '/' :: (':' :: (toStr id ++ [':']) ++ '/' :: encode (relative names)) =
        ('/' :: ':' :: toStr id) ++ ':' :: '/' :: encode (relative names) := by simp
    rw [hsplit, rdropWhile_slash hnames]
    rfl

theorem virtualId_absolute {names : List Str} (h : Names names) : virtualId (absolute names) = none := by
  have hfree := colonFree_relative h
  unfold absolute virtualId
  split
  · rename_i rest hrest
    rw [(List.cons.inj hrest).2] at hfree
    exact absurd List.mem_cons_self hfree
  · rfl

theorem virtualId_encodedPath {id : Str} (h : ':' ∉ id) (names : List Str) :
    virtualId (encodedPath id names) = some id := by
  have htake : (id ++ ':' :: below (encode (relative names))).takeWhile (· ≠ ':') = id := by
    rw [List.takeWhile_append_of_pos]
    · simp
    · intro c hc
      exact decide_eq_true fun he => h (he ▸ hc)
  exact congrArg some htake

theorem iointercept_encodedPath (id : Nat) {names : List Str} (h : Names names) :
    iointercept (encodedPath (toStr id) names) = absolute names := by
  have hid : '/' ∉ toStr id := not_mem_toStr (by decide)
  unfold encodedPath below
  split
  · rename_i hnil
    have hrelative : relative names = [] := List.map_eq_nil_iff.mp hnil
    unfold absolute
    rw [hrelative]
    exact iointercept_virtual_root hid
  · have hsplit : '/' :: ':' :: (toStr id ++ ':' :: '/' :: encode (relative names)) =
        '/' :: (':' :: (toStr id ++ [':'])) ++ '/' :: encode (relative names) := by simp
    rw [hsplit, iointercept_virtual hid, decode_encode (colonFree_relative h)]
    rfl

/-! ## Prefixes -/

/-- The last name of `as` is a proper prefix of the name that `bs` has in its place. -/
def Continues (as bs : List Str) : Prop :=
  ∃ ds n s rest, s ≠ [] ∧ as = ds ++ [n] ∧ bs = ds ++ (n ++ s) :: rest

/-- Prefixes of what is divided by the first `c`. -/
theorem divided_prefix_iff {c : Char} {k l x y : Str} (hk : c ∉ k) (hl : c ∉ l) :
    k ++ c :: x <+: l ++ c :: y ↔ k = l ∧ x <+: y := by
  induction k generalizing l with
  | nil =>
    cases l with
    | nil => simp
    | cons b l =>
      have hb : c ≠ b := fun he => hl (he ▸ List.mem_cons_self)
      simp [hb]
  | cons a k ih =>
    cases l with
    | nil =>
      have ha : a ≠ c := fun he => hk (he ▸ List.mem_cons_self)
      simp [ha]
    | cons b l =>
      have ih := ih (fun h => hk (List.mem_cons_of_mem _ h)) fun h => hl (List.mem_cons_of_mem _ h)
      simp only [List.cons_append, List.cons_prefix_cons, List.cons.injEq, ih]
      exact and_assoc.symm

/-- Prefix of a name and what follows it. -/
theorem prefix_name_iff {a b : Str} {bs : List Str} (ha : '/' ∉ a) :
    a <+: b ++ bs.flatMap ('/' :: ·) ↔ a <+: b := by
  constructor
  · intro h
    by_contra hnot
    obtain hab | hba := List.prefix_or_prefix_of_prefix h (List.prefix_append b _)
    · exact hnot hab
    · obtain ⟨s, rfl⟩ := hba
      have hs : s <+: bs.flatMap ('/' :: ·) := (List.prefix_append_right_inj b).mp h
      cases s with
      | nil => exact hnot (by simp)
      | cons c s =>
        cases bs with
        | nil => exact absurd (List.prefix_nil.mp hs) (List.cons_ne_nil _ _)
        | cons d bs =>
          obtain ⟨rfl, -⟩ := List.cons_prefix_cons.mp hs
          exact ha (List.mem_append_right _ List.mem_cons_self)
  · intro h
    exact h.trans (List.prefix_append b _)

theorem not_continues_nil {as : List Str} : ¬ Continues as [] := by
  rintro ⟨ds, n, s, rest, -, -, h⟩
  exact List.append_ne_nil_of_right_ne_nil _ (List.cons_ne_nil _ _) h.symm

theorem continues_cons {a b : Str} {as bs : List Str} (has : as ≠ []) :
    Continues (a :: as) (b :: bs) ↔ a = b ∧ Continues as bs := by
  constructor
  · rintro ⟨ds, n, s, rest, hs, hds, hbs⟩
    cases ds with
    | nil =>
      rw [List.nil_append] at hds
      exact absurd (List.cons.inj hds).2 has
    | cons d ds =>
      have ha : a = d := (List.cons.inj hds).1
      have hb : b = d := (List.cons.inj hbs).1
      exact ⟨ha.trans hb.symm, ds, n, s, rest, hs, (List.cons.inj hds).2, (List.cons.inj hbs).2⟩
  · rintro ⟨rfl, ds, n, s, rest, hs, rfl, rfl⟩
    exact ⟨a :: ds, n, s, rest, hs, rfl, rfl⟩

theorem continues_singleton {a b : Str} {bs : List Str} :
    Continues [a] (b :: bs) ↔ ∃ s, s ≠ [] ∧ b = a ++ s := by
  constructor
  · rintro ⟨ds, n, s, rest, hs, hds, hbs⟩
    cases ds with
    | nil =>
      obtain ⟨rfl, -⟩ := List.cons.inj hds
      exact ⟨s, hs, (List.cons.inj hbs).1⟩
    | cons d ds => simp at hds
  · rintro ⟨s, hs, rfl⟩
    exact ⟨[], a, s, bs, hs, rfl, rfl⟩

/-- The names written one after the other. -/
theorem flatMap_prefix_iff {as bs : List Str} (has : ∀ n ∈ as, '/' ∉ n) (hbs : ∀ n ∈ bs, '/' ∉ n) :
    as.flatMap ('/' :: ·) <+: bs.flatMap ('/' :: ·) ↔ as <+: bs ∨ Continues as bs := by
  induction as generalizing bs with
  | nil => simp
  | cons a as ih =>
    have ha := has a List.mem_cons_self
    cases bs with
    | nil => exact iff_of_false (by simp) (not_or.mpr ⟨by simp, not_continues_nil⟩)
    | cons b bs =>
      rw [List.flatMap_cons, List.flatMap_cons, List.cons_append, List.cons_append, List.cons_prefix_cons]
      by_cases hnil : as = []
      · subst hnil
        rw [List.flatMap_nil, List.append_nil, prefix_name_iff ha, continues_singleton]
        constructor
        · rintro ⟨-, s, rfl⟩
          by_cases hs : s = []
          · subst hs
            exact Or.inl (by simp)
          · exact Or.inr ⟨s, hs, rfl⟩
        · rintro (h | ⟨s, -, rfl⟩)
          · obtain ⟨rfl, -⟩ := List.cons_prefix_cons.mp h
            exact ⟨rfl, List.prefix_rfl⟩
          · exact ⟨rfl, List.prefix_append _ _⟩
      · have ih := ih (fun n hn => has n (List.mem_cons_of_mem _ hn))
          fun n hn => hbs n (List.mem_cons_of_mem _ hn)
        have hb := hbs b List.mem_cons_self
        obtain ⟨d, ds, rfl⟩ := List.exists_cons_of_ne_nil hnil
        rw [continues_cons hnil, List.cons_prefix_cons, ← and_or_left, ← ih]
        cases bs with
        | nil =>
          refine iff_of_false ?_ fun h => absurd h.2 (by simp)
          rintro ⟨-, h⟩
          rw [List.flatMap_nil, List.append_nil] at h
          exact hb (h.subset (List.mem_append_right _ List.mem_cons_self))
        | cons e es =>
          rw [List.flatMap_cons, List.flatMap_cons, List.cons_append, List.cons_append,
            divided_prefix_iff ha hb, List.cons_prefix_cons]
          simp

/-- Plain paths. -/
theorem absolute_prefix_iff {as bs : List Str} (has : Names as) (hbs : Names bs) :
    absolute as <+: absolute bs ↔ as <+: bs ∨ Continues as bs := by
  by_cases hnil : as = []
  · subst hnil
    exact iff_of_true (by simp [absolute, relative]) (Or.inl (List.nil_prefix))
  · have hwrite : ∀ {names}, Names names → names ≠ [] → absolute names = names.flatMap ('/' :: ·) := by
      intro names h hne
      rw [← below_relative h]
      exact (if_neg (relative_ne_nil h hne)).symm
    by_cases hnil' : bs = []
    · subst hnil'
      have hne := relative_ne_nil has hnil
      refine iff_of_false ?_ (not_or.mpr ⟨by simpa using hnil, not_continues_nil⟩)
      simpa [absolute, relative_nil] using hne
    · rw [hwrite has hnil, hwrite hbs hnil']
      exact flatMap_prefix_iff (fun n hn => (has n hn).2.1) fun n hn => (hbs n hn).2.1

theorem absolute_eq_root {names : List Str} (h : Names names) : absolute names = ['/'] ↔ names = [] := by
  constructor
  · intro hroot
    by_contra hne
    exact relative_ne_nil h hne (List.cons.inj hroot).2
  · rintro rfl
    rfl

/-- A plain path before an encoded one. -/
theorem absolute_prefix_encodedPath {names bs : List Str} {id : Str} (h : ':' ∉ absolute names) :
    absolute names <+: encodedPath id bs ↔ absolute names = ['/'] := by
  unfold absolute encodedPath at *
  rw [List.cons_prefix_cons]
  cases hrelative : relative names with
  | nil => simp
  | cons c s =>
    rw [hrelative] at h
    have hc : c ≠ ':' := fun he => h (he ▸ List.mem_cons_of_mem _ List.mem_cons_self)
    simp [hc]

theorem encode_prefix_iff {s t : Str} (hs : ':' ∉ s) (ht : ':' ∉ t) : encode s <+: encode t ↔ s <+: t := by
  constructor
  · intro h
    have hmap := h.map fun c => if c = ':' then '/' else c
    rwa [decode_encode hs, decode_encode ht] at hmap
  · intro h
    exact h.map _

/-- Encoded paths. -/
theorem encodedPath_prefix_iff {k l : Nat} {as bs : List Str} (has : Names as) (hbs : Names bs) :
    encodedPath (toStr k) as <+: encodedPath (toStr l) bs ↔
      toStr k = toStr l ∧ (as <+: bs ∨ Continues as bs) := by
  have hfree : ∀ n : Nat, ':' ∉ toStr n := fun n => not_mem_toStr (by decide)
  unfold encodedPath
  rw [List.cons_prefix_cons, List.cons_prefix_cons, divided_prefix_iff (hfree k) (hfree l),
    ← absolute_prefix_iff has hbs]
  have hrest : below (encode (relative as)) <+: below (encode (relative bs)) ↔ absolute as <+: absolute bs := by
    unfold absolute
    rw [List.cons_prefix_cons, ← encode_prefix_iff (colonFree_relative has) (colonFree_relative hbs)]
    unfold below
    by_cases hnil : encode (relative as) = []
    · rw [if_pos hnil, hnil]
      simp
    · rw [if_neg hnil]
      by_cases hnil' : encode (relative bs) = []
      · rw [if_pos hnil', hnil']
        simp [hnil]
      · rw [if_neg hnil', List.cons_prefix_cons]
  rw [hrest]
  simp

/-! ## The check decides -/

/-- Both paths are plain or in the same virtual directory, and the last name of the first is not
    continued in the second; or they are not, and the first is `/` or no ancestor of the second. -/
def Comparable (pathFrom pathTo : Str) (as bs : List Str) : Prop :=
  if virtualId pathFrom = virtualId pathTo then ¬ Continues as bs else pathFrom = ['/'] ∨ ¬ as <+: bs

theorem not_continues_of_prefix {as bs : List Str} (h : as <+: bs) : ¬ Continues as bs := by
  rintro ⟨ds, n, s, rest, hs, rfl, rfl⟩
  rw [List.prefix_append_right_inj] at h
  have hn := (List.cons_prefix_cons.mp h).1
  exact hs (List.self_eq_append_right.mp hn)

/-- Where the paths are in the same form. -/
theorem same_form_iff {p : Prop} {as bs : List Str} (hp : p ↔ as <+: bs ∨ Continues as bs) :
    (p ↔ as <+: bs) ↔ ¬ Continues as bs := by
  rw [hp]
  constructor
  · intro h hcontinues
    exact not_continues_of_prefix (h.mp (Or.inr hcontinues)) hcontinues
  · intro h
    exact or_iff_left h

/-- The check returns an error exactly for the moves into oneself if and only if the paths are
    comparable as they are passed. -/
theorem ancestorCheck_decides_iff (hash : Str → UInt64) {m pathFrom pathTo : Str} {as bs : List Str}
    (hm : ':' ∉ m) (has : Names as) (hbs : Names bs) (hfrom : UserPath hash m as pathFrom)
    (hto : UserPath hash m bs pathTo) :
    iointercept pathFrom = absolute as ∧ iointercept pathTo = absolute bs ∧
      ((ancestorCheck pathFrom pathTo = -EINVAL ↔ as <+: bs) ↔ Comparable pathFrom pathTo as bs) := by
  have hplain : ∀ {names}, Names names → iointercept (absolute names) = absolute names :=
    fun h => iointercept_of_colonFree (colonFree_absolute h)
  have hid : ∀ (n : Nat) (names : List Str), virtualId (encodedPath (toStr n) names) = some (toStr n) :=
    fun n names => virtualId_encodedPath (not_mem_toStr (by decide)) names
  unfold Comparable
  rw [ancestorCheck_iff_le]
  obtain rfl | ⟨k, rfl⟩ := userPath_cases hm has hfrom
  · obtain rfl | ⟨l, rfl⟩ := userPath_cases hm hbs hto
    · refine ⟨hplain has, hplain hbs, ?_⟩
      rw [virtualId_absolute has, virtualId_absolute hbs, if_pos rfl]
      exact same_form_iff (absolute_prefix_iff has hbs)
    · refine ⟨hplain has, iointercept_encodedPath l hbs, ?_⟩
      rw [virtualId_absolute has, hid, if_neg (by simp)]
      have hroot : absolute as = ['/'] ↔ as = [] := absolute_eq_root has
      have hle : absolute as <+: encodedPath (toStr l) bs ↔ as = [] := by
        rw [← hroot]
        exact absolute_prefix_encodedPath (colonFree_absolute has)
      rw [hle, hroot]
      by_cases hnil : as = []
      · subst hnil
        simp
      · simp [hnil]
  · have hroot : encodedPath (toStr k) as ≠ ['/'] := by simp [encodedPath]
    obtain rfl | ⟨l, rfl⟩ := userPath_cases hm hbs hto
    · refine ⟨iointercept_encodedPath k has, hplain hbs, ?_⟩
      have hle : ¬ encodedPath (toStr k) as <+: absolute bs := by
        intro h
        exact colonFree_absolute hbs (h.subset (List.mem_cons_of_mem _ List.mem_cons_self))
      rw [virtualId_absolute hbs, hid, if_neg (by simp)]
      simp [hle, hroot]
    · refine ⟨iointercept_encodedPath k has, iointercept_encodedPath l hbs, ?_⟩
      rw [hid, hid, encodedPath_prefix_iff has hbs]
      by_cases hkl : toStr k = toStr l
      · rw [if_pos (congrArg some hkl)]
        exact same_form_iff (and_iff_right hkl)
      · rw [if_neg fun he => hkl (Option.some.inj he)]
        simp [hkl, hroot]

/-- The short name `/ab` continues `/a`, and a path is not compared with an encoded one; two paths
    below one directory are encoded with different numbers. -/
theorem ancestorCheck_not_exact :
    (∀ (hash : Str → UInt64) (m : Str), UserPath hash m [lit "a"] (lit "/a") ∧
      UserPath hash m [lit "ab"] (lit "/ab") ∧ ancestorCheck (lit "/a") (lit "/ab") = -EINVAL ∧
      ¬ [lit "a"] <+: [lit "ab"]) ∧
    ∃ hash : Str → UInt64, UserPath hash (lit "/m") [lit "a"] (lit "/:1:/a") ∧
      UserPath hash (lit "/m") [lit "a", lit "b"] (lit "/:3:/a:b") ∧
      ancestorCheck (lit "/:1:/a") (lit "/:3:/a:b") = 0 ∧ [lit "a"] <+: [lit "a", lit "b"] := by
  refine ⟨fun hash m => ⟨UserPath.plain, UserPath.plain, by decide, by decide⟩,
    fun path => if path = lit "/m/a" then 1 else 3, ?_, ?_, by decide, by decide⟩
  · exact UserPath.encoded (f := lit "/:1:/a") Calls.plain (by decide)
  · exact UserPath.encoded (f := lit "/:3:/a:b") Calls.plain (by decide)

/-- A plain path and one with the working directory's virtual directory. -/
theorem ancestorCheck_decides_iff_nested :
    ancestorCheck (lit "/a/b") (lit "/a/b/c") = -EINVAL ∧ Comparable (lit "/a/b") (lit "/a/b/c")
      [lit "a", lit "b"] [lit "a", lit "b", lit "c"] := by
  have hnames : Names [lit "a", lit "b", lit "c"] := by
    unfold Names
    decide
  have hle : [lit "a", lit "b"] <+: [lit "a", lit "b", lit "c"] := by decide
  have h := (ancestorCheck_decides_iff (fun _ => 0) (m := lit "/m") (by decide)
    (fun n hn => hnames n (hle.subset hn)) hnames UserPath.plain UserPath.plain).2.2
  refine ⟨by decide, h.mp (iff_of_true ?_ hle)⟩
  decide

end HFlat.Intercept
