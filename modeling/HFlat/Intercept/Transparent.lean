/-
  Which paths the interception leaves alone (`change` of `iointercept/pathchange.cc` and
  `iointercept` of `pathmap_db.cc`).

  `change` rewrites the path for every mount point that is a prefix of the string, also if the
  prefix ends within a name (`Continues`); and before that `_realpath` takes a name that begins with
  `..` for the parent directory. Either the path is unchanged, or the last rewriting was one of
  `_substitute` (`intercept_cases`), whose results are recognizable by their virtual directory. The
  file system in turn takes every path with a `:` for such a result.
-/
import HFlat.Intercept.Ancestor
import HFlat.Intercept.Realpath

namespace HFlat.Intercept

open HFlat.Lib HFlat.PathMap

/-! ## `change` -/

section Change

variable (hash : Str → UInt64)

/-- The loop of `change` over the mount points: a path is substituted if it begins with the
    characters of the mount point. -/
def intercept (mountpoints : List Str) (path : Str) : Option Str :=
  mountpoints.foldlM (fun p mnt => if mnt <+: p then substitute hash p (mnt.length + 1) else some p) path

/-- `change`, where `cwd` is what `getcwd` returns. -/
def change (cwd : Str) (fuel : Nat) (mountpoints : List Str) (path : Str) : Except Fault (Option Str) :=
  (realpath cwd fuel path).map (intercept hash mountpoints)

/-- The path is the result of a substitution. -/
def Produced (path : Str) : Prop := ∃ q pos, substitute hash q pos = some path

end Change

/-- `change` returns the path that it got. -/
def Unchanged (hash : Str → UInt64) (cwd : Str) (mountpoints : List Str) (path : Str) : Prop :=
  ∃ fuel, change hash cwd fuel mountpoints path = .ok (some path)

/-- Names of a mount point. -/
def Mounted (m : List Str) : Prop := ∀ n ∈ m, n ≠ [] ∧ '/' ∉ n

/-- Outside the mount point, by names. -/
def Elsewhere (m names : List Str) : Prop := Mounted m ∧ ¬ m <+: names

instance (m names : List Str) : Decidable (Elsewhere m names) :=
  inferInstanceAs (Decidable ((∀ n ∈ m, n ≠ [] ∧ '/' ∉ n) ∧ ¬ m <+: names))

instance : DecidablePred Component := fun c =>
  decidable_of_iff (c ≠ [] ∧ c ≠ lit "." ∧ c ≠ lit ".." ∧ '/' ∉ c)
    ⟨fun ⟨h1, h2, h3, h4⟩ => ⟨h1, h2, h3, h4⟩, fun ⟨h1, h2, h3, h4⟩ => ⟨h1, h2, h3, h4⟩⟩

/-- No name begins with `..`, and no mount point ends within a name. -/
structure Clear (mounts : List (List Str)) (names : List Str) : Prop where
  dots : ∀ c ∈ names, ¬ lit ".." <+: c
  mounts : ∀ m ∈ mounts, ¬ Continues m names

section Change

variable {hash : Str → UInt64} {cwd path p r : Str} {mountpoints : List Str} {m names : List Str} {n : Nat}

theorem intercept_cons (hash : Str → UInt64) (mnt : Str) (mountpoints : List Str) (p : Str) :
    intercept hash (mnt :: mountpoints) p =
      (if mnt <+: p then substitute hash p (mnt.length + 1) else some p).bind (intercept hash mountpoints) :=
  List.foldlM_cons

/-- Without a prefix among the mount points nothing happens; otherwise the last substitution has
    produced the result. -/
theorem intercept_cases (h : intercept hash mountpoints p = some r) :
    (r = p ∧ ∀ mnt ∈ mountpoints, ¬ mnt <+: p) ∨ Produced hash r := by
  induction mountpoints generalizing p with
  | nil => exact Or.inl ⟨(Option.some.inj h).symm, fun _ hmnt => absurd hmnt List.not_mem_nil⟩
  | cons mnt mountpoints ih =>
    rw [intercept_cons] at h
    obtain ⟨q, hq, hr⟩ := Option.bind_eq_some_iff.mp h
    by_cases hprefix : mnt <+: p
    · rw [if_pos hprefix] at hq
      obtain ⟨rfl, -⟩ | hproduced := ih hr
      · exact Or.inr ⟨p, _, hq⟩
      · exact Or.inr hproduced
    · rw [if_neg hprefix] at hq
      obtain rfl := Option.some.inj hq
      obtain ⟨rfl, hnone⟩ | hproduced := ih hr
      · refine Or.inl ⟨rfl, fun mnt' hmnt => ?_⟩
        obtain rfl | hmnt := List.mem_cons.mp hmnt
        · exact hprefix
        · exact hnone mnt' hmnt
      · exact Or.inr hproduced

theorem intercept_none (h : ∀ mnt ∈ mountpoints, ¬ mnt <+: p) : intercept hash mountpoints p = some p := by
  induction mountpoints with
  | nil => rfl
  | cons mnt mountpoints ih =>
    rw [intercept_cons, if_neg (h mnt List.mem_cons_self)]
    exact ih fun mnt' hmnt => h mnt' (List.mem_cons_of_mem _ hmnt)

/-! ## Names -/

theorem handled_components (hnames : ∀ c ∈ names, Component c) (h : 0 < n ∨ names ≠ []) :
    Handled n names ↔ ∀ c ∈ names, ¬ lit ".." <+: c := by
  induction names generalizing n with
  | nil => exact iff_of_true (h.resolve_right fun hne => hne rfl) fun _ hc => absurd hc List.not_mem_nil
  | cons c names ih =>
    have hc := hnames c List.mem_cons_self
    rw [Handled, if_neg hc.ne_nil, if_neg hc.ne_dot, List.forall_mem_cons]
    by_cases hdots : lit ".." <+: c
    · rw [if_pos hdots]
      exact iff_of_false (fun hend => hc.ne_dots hend.1) fun hall => hall.1 hdots
    · rw [if_neg hdots, ih (fun d hd => hnames d (List.mem_cons_of_mem c hd)) (Or.inl (Nat.succ_pos n)),
        and_iff_right hdots]

theorem foldl_push (hnames : ∀ c ∈ names, Component c) (stack : List Str) :
    names.foldl push stack = stack ++ names := by
  induction names generalizing stack with
  | nil => exact (List.append_nil stack).symm
  | cons c names ih =>
    rw [List.foldl_cons, push_component (hnames c List.mem_cons_self),
      ih fun d hd => hnames d (List.mem_cons_of_mem c hd), List.append_assoc]
    rfl

/-- `_realpath` leaves a normalized path alone if and only if no name begins with `..`. -/
theorem realpath_self_iff (cwd : Str) (hnames : ∀ c ∈ names, Component c) :
    (∃ fuel, realpath cwd fuel (absolute names) = .ok (absolute names)) ↔ ∀ c ∈ names, ¬ lit ".." <+: c := by
  have hslash : ∀ c ∈ names, '/' ∉ c := fun c hc => (hnames c hc).slashFree
  have hnormal : normalForm (absolute names) = absolute names := by
    unfold normalForm
    cases names with
    | nil => rfl
    | cons c names =>
      have hsplit := @normalFrom_slashed [] (c :: names) [] List.not_mem_nil hslash
      rw [push_nil, foldl_push hnames] at hsplit
      exact congrArg absolute hsplit
  have habs : (absolute names).head? = some '/' := rfl
  have hiff := realpath_normal_iff cwd habs
  rw [hnormal] at hiff
  refine hiff.trans ?_
  cases names with
  | nil => exact iff_of_true ⟨rfl, rfl⟩ fun _ hc => absurd hc List.not_mem_nil
  | cons c names =>
    have hsplit : (absolute (c :: names)).tail.splitOn '/' = c :: names :=
      splitOn_slashed (hslash c List.mem_cons_self) fun d hd => hslash d (List.mem_cons_of_mem c hd)
    rw [hsplit]
    exact handled_components hnames (Or.inr (List.cons_ne_nil c names))

/-- A mount point is a prefix of the string if the prefix ends with a name or within one. -/
theorem absolute_prefix_mounted (hne : m ≠ []) (hm : Mounted m) (hnames : ∀ c ∈ names, '/' ∉ c) :
    absolute m <+: absolute names ↔ m <+: names ∨ Continues m names := by
  rw [absolute_eq m, if_neg hne, absolute_eq]
  by_cases hnil : names = []
  · rw [if_pos hnil, hnil]
    obtain ⟨x, m, rfl⟩ := List.exists_cons_of_ne_nil hne
    refine iff_of_false (fun h => ?_) (not_or.mpr ⟨fun h => (nomatch List.prefix_nil.mp h), not_continues_nil⟩)
    have hprefix : x ++ slashed m <+: [] := (List.cons_prefix_cons.mp h).2
    exact (hm x List.mem_cons_self).1 (List.append_eq_nil_iff.mp (List.prefix_nil.mp hprefix)).1
  · rw [if_neg hnil]
    exact flatMap_prefix_iff (fun n hn => (hm n hn).2) hnames

/-! ## The decoding -/

/-- No `:` survives the decoding. -/
theorem iointercept_colonFree (path : Str) : ':' ∉ iointercept path := by
  by_cases hfree : ':' ∈ path
  · have hsome : findFirstOf ':' path 0 ≠ none := by
      unfold findFirstOf
      rw [List.drop_zero, Ne, Option.map_eq_none_iff, List.findIdx?_eq_none_iff]
      exact fun hall => absurd (hall ':' hfree) (by decide)
    obtain ⟨pos, hpos⟩ := Option.ne_none_iff_exists'.mp hsome
    unfold iointercept
    rw [hpos]
    intro hmem
    obtain ⟨c, -, hc⟩ := List.mem_map.mp hmem
    by_cases hcolon : c = ':'
    · rw [if_pos hcolon] at hc
      cases hc
    · rw [if_neg hcolon] at hc
      exact hcolon hc
  · rw [iointercept_of_colonFree hfree]
    exact hfree

theorem iointercept_self_iff (path : Str) : iointercept path = path ↔ ':' ∉ path :=
  ⟨fun h => h ▸ iointercept_colonFree path, iointercept_of_colonFree⟩

theorem rdropWhile_append_slash (a e : Str) : ∃ b, (a ++ '/' :: e).rdropWhile (· = ':') = a ++ '/' :: b := by
  have hstop : ('/' :: a.reverse).dropWhile (· = ':') = '/' :: a.reverse :=
    List.dropWhile_cons_of_neg (by decide)
  unfold List.rdropWhile
  rw [List.reverse_append, List.reverse_cons, List.append_assoc, List.singleton_append,
    List.dropWhile_append, hstop]
  by_cases hempty : (e.reverse.dropWhile (· = ':')).isEmpty = true
  · rw [if_pos hempty, List.reverse_cons, List.reverse_reverse]
    exact ⟨[], rfl⟩
  · rw [if_neg hempty, List.reverse_append, List.reverse_cons, List.reverse_reverse, List.append_assoc]
    exact ⟨_, rfl⟩

/-- The result of a substitution has a virtual directory with a slash behind it. -/
theorem Produced.shape (h : Produced hash path) : ∃ a b, path = a ++ ':' :: '/' :: b := by
  obtain ⟨q, pos, hq⟩ := h
  unfold substitute virtualDirectory at hq
  generalize clean (if q.length < pos then q ++ ['/'] else q) pos = cleaned at hq
  dsimp only at hq
  by_cases hlt : cleaned.length < pos
  · rw [if_pos hlt] at hq
    cases hq
  · rw [if_neg hlt] at hq
    obtain rfl := Option.some.inj hq
    generalize toStr ((hash cleaned).toNat % 100) = id
    have hsplit : cleaned.take pos ++ (lit ":" ++ id ++ lit ":" ++ ['/']) ++ encode (cleaned.drop pos) =
        (cleaned.take pos ++ lit ":" ++ id ++ [':']) ++ '/' :: encode (cleaned.drop pos) := by simp [lit]
    obtain ⟨b, hb⟩ :=
      rdropWhile_append_slash (cleaned.take pos ++ lit ":" ++ id ++ [':']) (encode (cleaned.drop pos))
    refine ⟨cleaned.take pos ++ lit ":" ++ id, b, ?_⟩
    rw [hsplit, hb, List.append_assoc _ [':']]
    rfl

/-! ## Transparency -/

theorem absolute_prefix_elsewhere (hm : Elsewhere m names) (hnames : ∀ c ∈ names, Component c) :
    absolute m <+: absolute names ↔ Continues m names := by
  have hne : m ≠ [] := by
    rintro rfl
    exact hm.2 List.nil_prefix
  rw [absolute_prefix_mounted hne hm.1 fun c hc => (hnames c hc).slashFree, or_iff_right hm.2]

theorem Clear.unchanged {mounts : List (List Str)} (h : Clear mounts names) (hash : Str → UInt64) (cwd : Str)
    (hmounts : ∀ m ∈ mounts, Elsewhere m names) (hnames : ∀ c ∈ names, Component c) :
    Unchanged hash cwd (mounts.map absolute) (absolute names) := by
  obtain ⟨fuel, hfuel⟩ := (realpath_self_iff cwd hnames).mpr h.dots
  refine ⟨fuel, ?_⟩
  unfold change
  rw [hfuel, Except.map, intercept_none]
  intro mnt hmnt
  obtain ⟨m, hm, rfl⟩ := List.mem_map.mp hmnt
  exact (absolute_prefix_elsewhere (hmounts m hm) hnames).not.mpr (h.mounts m hm)

theorem clear_of_unchanged {mounts : List (List Str)} (hmounts : ∀ m ∈ mounts, Elsewhere m names)
    (hnames : ∀ c ∈ names, Component c) (hplain : ¬ Produced hash (absolute names))
    (h : Unchanged hash cwd (mounts.map absolute) (absolute names)) : Clear mounts names := by
  obtain ⟨fuel, hfuel⟩ := h
  unfold change at hfuel
  cases hreal : realpath cwd fuel (absolute names) with
  | error fault =>
    rw [hreal] at hfuel
    cases hfuel
  | ok p =>
    rw [hreal] at hfuel
    obtain ⟨hp, hnone⟩ := (intercept_cases (Except.ok.inj hfuel)).resolve_right hplain
    rw [← hp] at hreal hnone
    exact ⟨(realpath_self_iff cwd hnames).mp ⟨fuel, hreal⟩, fun m hm =>
      (absolute_prefix_elsewhere (hmounts m hm) hnames).not.mp (hnone _ (List.mem_map_of_mem hm))⟩

theorem not_produced (hfree : ':' ∉ path) : ¬ Produced hash path := by
  intro h
  obtain ⟨a, b, rfl⟩ := h.shape
  exact hfree (List.mem_append_right a List.mem_cons_self)

end Change

/-- Elsewhere `change` leaves a normalized path unchanged if it is `Clear`, and, unless it is the
    result of a substitution itself, only if it is. The decoding leaves a path unchanged if and
    only if it has no `:`, and two such paths have different decodings; a path with a `:` has the
    decoding of another path, which is no result of a substitution. -/
theorem transparent_iff (hash : Str → UInt64) (cwd : Str) :
    (∀ (mounts : List (List Str)) (names : List Str), (∀ m ∈ mounts, Elsewhere m names) →
      (∀ c ∈ names, Component c) →
        (Clear mounts names → Unchanged hash cwd (mounts.map absolute) (absolute names)) ∧
        (¬ Produced hash (absolute names) →
          (Unchanged hash cwd (mounts.map absolute) (absolute names) ↔ Clear mounts names))) ∧
      (∀ path, iointercept path = path ↔ ':' ∉ path) ∧
      (∀ p q, ':' ∉ p → ':' ∉ q → iointercept p = iointercept q → p = q) ∧
      ∀ p, ':' ∈ p → ∃ q, ¬ Produced hash q ∧ q ≠ p ∧ iointercept q = iointercept p := by
  refine ⟨fun mounts names hmounts hnames => ?_, iointercept_self_iff, fun p q hp hq h => ?_, fun p hp => ?_⟩
  · have hclear : Clear mounts names → Unchanged hash cwd (mounts.map absolute) (absolute names) :=
      fun h => h.unchanged hash cwd hmounts hnames
    exact ⟨hclear, fun hplain => ⟨clear_of_unchanged hmounts hnames hplain, hclear⟩⟩
  · rwa [iointercept_of_colonFree hp, iointercept_of_colonFree hq] at h
  · have hfree := iointercept_colonFree p
    refine ⟨iointercept p, not_produced hfree, fun he => ?_, iointercept_of_colonFree hfree⟩
    rw [he] at hfree
    exact hfree hp

/-- Next to the mount point `/mnt/h`. -/
theorem transparent_mnt_x :
    Unchanged (fun _ => 0) [] ([[lit "mnt", lit "h"]].map absolute) (absolute [lit "mnt", lit "x"]) := by
  have hclear : Clear [[lit "mnt", lit "h"]] [lit "mnt", lit "x"] := by
    refine ⟨by decide, fun m hm => ?_⟩
    obtain rfl := List.mem_singleton.mp hm
    rw [continues_cons (by decide), continues_singleton]
    rintro ⟨-, s, -, hs⟩
    cases hs
  exact ((transparent_iff (fun _ => 0) []).1 _ _ (by decide) (by decide)).1 hclear

/-- With the mount point `/mnt/h`, the path `/mnt/home` is rewritten; and `/a:b` and `/a` have the
    same decoding. -/
theorem not_transparent :
    ¬ Unchanged (fun _ => 0) [] ([[lit "mnt", lit "h"]].map absolute) (absolute [lit "mnt", lit "home"]) ∧
      ¬ Produced (fun _ => 0) (lit "/a:b") ∧ iointercept (lit "/a:b") = iointercept (lit "/a") := by
  refine ⟨fun h => ?_, fun h => ?_, by decide⟩
  · have hclear := clear_of_unchanged (by decide) (by decide) (not_produced (by decide)) h
    exact hclear.mounts _ List.mem_cons_self ⟨[lit "mnt"], lit "h", lit "ome", [], by decide, rfl, rfl⟩
  · obtain ⟨a, b, hab⟩ := h.shape
    have hinfix : [':', '/'] <:+: lit "/a:b" := ⟨a, b, by rw [hab, List.append_assoc]; rfl⟩
    exact absurd hinfix (by decide)

end HFlat.Intercept
