/-
  The interception library (`iointercept/pathchange.cc`) against the decoding in the file system.

  `_substitute` puts a virtual directory `:id:` in front of the path below the mount point and
  writes `:` for the slashes of the path, so that the kernel sees one directory with one entry.
  Three pieces of the file system take such a path apart again: `iointercept`, `lookup_parent`
  and `path_to_filename`. Here a path is a list of names; `relative` writes it without and
  `absolute` with a leading slash. The work is in two facts about positions: where the first
  separator after a known part is (`findFirstOf_append`), and where the last one is
  (`findLastSeparator_append`).
-/
import Mathlib.Data.List.DropRight
import HFlat.Permission.Model

namespace HFlat.Intercept

open HFlat.Lib HFlat.PathMap
open HFlat.Permission (findLastSeparator cutParent pathToFilename)

/-! ## `_substitute` -/

/-- `:` for every slash. -/
def encode (s : Str) : Str := s.map fun c => if c = '/' then ':' else c

/-- Step 0: a virtual directory left over from the working directory is removed. As in
    `iointercept`, the erased length runs to the end where the subtraction wraps around. -/
def clean (path : Str) (pos : Nat) : Str :=
  match findFirstOf ':' path 0 with
  | none => path
  | some first =>
      match findFirstOf '/' path pos with
      | some last => if first ≤ last + 1 then path.take first ++ path.drop (last + 1) else path.take first
      | none => if first = 0 then path else path.take first

section Substitute

-- `std::hash<std::string>`
variable (hash : Str → UInt64)

/-- The virtual directory of a path. -/
def virtualDirectory (path : Str) : Str := lit ":" ++ toStr ((hash path).toNat % 100) ++ lit ":"

/-- `_substitute`, `none` where `insert` throws. The substitution of step 2 runs from the end of
    the virtual directory, which is where the rest of the path was. -/
def substitute (path : Str) (pos : Nat) : Option Str :=
  let path := clean (if path.length < pos then path ++ ['/'] else path) pos
  if path.length < pos then none
  else
    some <| (path.take pos ++ (virtualDirectory hash path ++ ['/']) ++ encode (path.drop pos)).rdropWhile
      (· = ':')

end Substitute

/-! ## Paths -/

/-- `a/b` for the names `a` and `b`. -/
def relative (names : List Str) : Str := (names.flatMap ('/' :: ·)).tail

/-- `/a/b` for the names `a` and `b`. -/
def absolute (names : List Str) : Str := '/' :: relative names

/-- Names of a normalized path without `:`. -/
def Names (names : List Str) : Prop := ∀ n ∈ names, n ≠ [] ∧ '/' ∉ n ∧ ':' ∉ n

/-- `/` and the path, nothing for the empty path. -/
def below (path : Str) : Str := if path = [] then [] else '/' :: path

theorem relative_nil : relative [] = [] := rfl

theorem below_relative {names : List Str} (h : Names names) :
    below (relative names) = names.flatMap ('/' :: ·) := by
  cases names with
  | nil => rfl
  | cons n names =>
    have hne : relative (n :: names) ≠ [] := fun hnil =>
      (h n List.mem_cons_self).1 (List.append_eq_nil_iff.mp hnil).1
    unfold below
    rw [if_neg hne]
    rfl

theorem relative_append {as : List Str} (has : as ≠ []) (bs : List Str) :
    relative (as ++ bs) = relative as ++ bs.flatMap ('/' :: ·) := by
  cases as with
  | nil => exact absurd rfl has
  | cons a as =>
    unfold relative
    rw [List.flatMap_append]
    rfl

theorem colonFree_relative {names : List Str} (h : Names names) : ':' ∉ relative names := by
  intro hmem
  obtain ⟨n, hn, hc⟩ := List.mem_flatMap.mp (List.mem_of_mem_tail hmem)
  obtain hc | hc := List.mem_cons.mp hc
  · cases hc
  · exact (h n hn).2.2 hc

theorem decode_encode {s : Str} (h : ':' ∉ s) : (encode s).map (fun c => if c = ':' then '/' else c) = s := by
  unfold encode
  rw [List.map_map]
  refine (List.map_congr_left fun c hc => ?_).trans (List.map_id s)
  show (if (if c = '/' then ':' else c) = ':' then '/' else if c = '/' then ':' else c) = c
  by_cases hslash : c = '/'
  · rw [if_pos hslash, if_pos rfl, hslash]
  · rw [if_neg hslash, if_neg fun hcolon : c = ':' => h (hcolon ▸ hc)]

theorem encode_encode (s : Str) : encode (encode s) = encode s := by
  unfold encode
  rw [List.map_map]
  refine List.map_congr_left fun c _ => ?_
  show (if (if c = '/' then ':' else c) = '/' then ':' else if c = '/' then ':' else c) = _
  by_cases hslash : c = '/'
  · rw [if_pos hslash]
    rfl
  · rw [if_neg hslash, if_neg hslash]

theorem encode_append (s t : Str) : encode (s ++ t) = encode s ++ encode t := List.map_append

theorem encode_slashFree {s : Str} (h : '/' ∉ s) : encode s = s := by
  refine (List.map_congr_left fun c hc => ?_).trans (List.map_id s)
  exact if_neg fun hslash : c = '/' => h (hslash ▸ hc)

/-! ## Positions -/

theorem findFirstOf_append {c : Char} {a s : Str} (t : Str) (h : c ∉ s) :
    findFirstOf c (a ++ (s ++ c :: t)) a.length = some (a.length + s.length) := by
  have hidx : (s ++ c :: t).findIdx? (· = c) = some s.length := by
    induction s with
    | nil =>
      rw [List.nil_append, List.findIdx?_cons, if_pos (by simp)]
      rfl
    | cons b s ih =>
      obtain ⟨hb, hs⟩ := not_or.mp (List.mem_cons.not.mp h)
      rw [List.cons_append, List.findIdx?_cons, ih hs, if_neg (by simpa using Ne.symm hb)]
      rfl
  unfold findFirstOf
  rw [List.drop_left, hidx]
  rfl

theorem findFirstOf_absent {c : Char} {a s : Str} (h : c ∉ s) : findFirstOf c (a ++ s) a.length = none := by
  unfold findFirstOf
  rw [List.drop_left, Option.map_eq_none_iff, List.findIdx?_eq_none_iff]
  intro x hx
  exact decide_eq_false fun he => h (he ▸ hx)

/-- What is left after the separator. -/
theorem drop_append_succ (a s : Str) (c : Char) (t : Str) :
    (a ++ (s ++ c :: t)).drop (a.length + s.length + 1) = t := by
  have hsplit : a ++ (s ++ c :: t) = (a ++ s ++ [c]) ++ t := by simp
  have hlength : a.length + s.length + 1 = (a ++ s ++ [c]).length := by simp [Nat.add_assoc]
  rw [hsplit, hlength, List.drop_left]

theorem findLastSeparator_free {s : Str} (h : '/' ∉ s ∧ ':' ∉ s) : findLastSeparator s = none := by
  induction s with
  | nil => rfl
  | cons c s ih =>
    obtain ⟨h1, h2⟩ := not_or.mp (List.mem_cons.not.mp h.1)
    obtain ⟨h3, h4⟩ := not_or.mp (List.mem_cons.not.mp h.2)
    unfold findLastSeparator
    rw [ih ⟨h2, h4⟩]
    exact if_neg (not_or.mpr ⟨Ne.symm h1, Ne.symm h3⟩)

theorem findLastSeparator_append {c : Char} (a : Str) {s : Str} (hc : c = '/' ∨ c = ':')
    (h : '/' ∉ s ∧ ':' ∉ s) : findLastSeparator (a ++ c :: s) = some a.length := by
  induction a with
  | nil =>
    show (match findLastSeparator s with | some i => some (i + 1) | none => _) = some 0
    rw [findLastSeparator_free h]
    exact if_pos hc
  | cons b a ih =>
    rw [List.cons_append, findLastSeparator, ih]
    rfl

/-! ## Decoding -/

section Decode

variable {k : Str} (hk : '/' ∉ k)

include hk

theorem slashFree_colons : '/' ∉ ':' :: (k ++ [':']) := by
  simp [hk]

/-- The virtual directory is dropped and the slashes are put back. -/
theorem iointercept_virtual (e : Str) :
    iointercept ('/' :: (':' :: (k ++ [':'])) ++ '/' :: e) =
      '/' :: e.map fun c => if c = ':' then '/' else c := by
  have hfirst : findFirstOf ':' ('/' :: (':' :: (k ++ [':'])) ++ '/' :: e) 0 = some 1 :=
    findFirstOf_append (a := []) (s := ['/']) (k ++ [':'] ++ '/' :: e) (by decide)
  have hlast : findFirstOf '/' ('/' :: (':' :: (k ++ [':'])) ++ '/' :: e) 1 =
      some (1 + (':' :: (k ++ [':'])).length) :=
    findFirstOf_append (a := ['/']) e (slashFree_colons hk)
  have hdrop : ('/' :: (':' :: (k ++ [':'])) ++ '/' :: e).drop (1 + (':' :: (k ++ [':'])).length + 1) = e :=
    drop_append_succ ['/'] (':' :: (k ++ [':'])) '/' e
  unfold iointercept
  rw [hfirst]
  dsimp only
  rw [hlast]
  dsimp only
  rw [hdrop]
  rfl

/-- Without a slash after it the virtual directory is dropped as well. -/
theorem iointercept_virtual_root : iointercept ('/' :: ':' :: (k ++ [':'])) = ['/'] := by
  have hfirst : findFirstOf ':' ('/' :: ':' :: (k ++ [':'])) 0 = some 1 :=
    findFirstOf_append (a := []) (s := ['/']) (k ++ [':']) (by decide)
  have hlast : findFirstOf '/' ('/' :: ':' :: (k ++ [':'])) 1 = none :=
    findFirstOf_absent (a := ['/']) (slashFree_colons hk)
  unfold iointercept
  rw [hfirst]
  dsimp only
  rw [hlast]
  rfl

end Decode

/-! ## Encoding -/

section Encode

variable {m p : Str} {hash : Str → UInt64}

/-- The virtual directory of the working directory is removed. -/
theorem clean_virtual (hp : ':' ∉ p) {id : Str} (hid : '/' ∉ id) (y : Str) :
    clean (p ++ ((':' :: (id ++ [':'])) ++ '/' :: y)) p.length = p ++ y := by
  have hfirst : findFirstOf ':' (p ++ ((':' :: (id ++ [':'])) ++ '/' :: y)) 0 = some p.length := by
    have h := findFirstOf_append (a := []) (id ++ [':'] ++ '/' :: y) hp
    rwa [List.nil_append, List.length_nil, Nat.zero_add] at h
  have hlast : findFirstOf '/' (p ++ ((':' :: (id ++ [':'])) ++ '/' :: y)) p.length =
      some (p.length + (':' :: (id ++ [':'])).length) :=
    findFirstOf_append y (slashFree_colons hid)
  unfold clean
  rw [hfirst]
  dsimp only
  rw [hlast]
  dsimp only
  rw [if_pos (by omega), drop_append_succ, List.take_left]

theorem clean_virtual_root (hp : ':' ∉ p) (hne : p ≠ []) {id : Str} (hid : '/' ∉ id) :
    clean (p ++ ':' :: (id ++ [':'])) p.length = p := by
  have hfirst : findFirstOf ':' (p ++ ':' :: (id ++ [':'])) 0 = some p.length := by
    have h := findFirstOf_append (a := []) (id ++ [':']) hp
    rwa [List.nil_append, List.length_nil, Nat.zero_add] at h
  unfold clean
  rw [hfirst]
  dsimp only
  rw [findFirstOf_absent (slashFree_colons hid)]
  dsimp only
  rw [if_neg (by rwa [List.length_eq_zero_iff]), List.take_left]

theorem clean_colonFree (h : ':' ∉ p) (pos : Nat) : clean p pos = p := by
  unfold clean
  rw [findFirstOf_eq_none h]

/-- The last name of an encoded path follows a separator. -/
theorem encode_relative_concat {ds : List Str} {n : Str} (h : Names (ds ++ [n])) (hds : ds ≠ []) :
    encode (relative (ds ++ [n])) = encode (relative ds) ++ ':' :: n := by
  have hn := encode_slashFree (h n (List.mem_append_right _ List.mem_cons_self)).2.1
  rw [relative_append hds, encode_append, List.flatMap_singleton]
  show encode (relative ds) ++ ':' :: encode n = _
  rw [hn]

theorem encode_relative_singleton {n : Str} (h : Names [n]) : encode (relative [n]) = n := by
  have hrelative : relative [n] = n := List.append_nil n
  rw [hrelative]
  exact encode_slashFree (h n List.mem_cons_self).2.1

theorem rdropWhile_colonFree {s : Str} (hne : s ≠ []) (h : ':' ∉ s) (a : Str) :
    (a ++ s).rdropWhile (· = ':') = a ++ s := by
  obtain ⟨b, c, rfl⟩ := (List.eq_nil_or_concat' s).resolve_left hne
  have hc : ¬ decide (c = ':') = true := by
    intro hc
    exact h (List.mem_append_right _ (List.mem_singleton.mpr (of_decide_eq_true hc).symm))
  rw [← List.append_assoc]
  exact List.rdropWhile_concat_neg _ _ _ hc

/-- The last name of a path does not end in `:`, so nothing is cut off at the end. -/
theorem rdropWhile_relative {names : List Str} (h : Names names) (a : Str) :
    (a ++ '/' :: encode (relative names)).rdropWhile (· = ':') = a ++ '/' :: encode (relative names) := by
  cases names using List.reverseRecOn with
  | nil => exact rdropWhile_colonFree (List.cons_ne_nil _ _) (by decide) a
  | append_singleton ds n =>
    obtain ⟨hne, -, hcolon⟩ := h n (List.mem_append_right _ List.mem_cons_self)
    by_cases hds : ds = []
    · subst hds
      rw [List.nil_append, encode_relative_singleton h, List.append_cons]
      exact rdropWhile_colonFree hne hcolon _
    · have hsplit : a ++ '/' :: (encode (relative ds) ++ ':' :: n) =
          (a ++ '/' :: encode (relative ds) ++ [':']) ++ n := by simp
      rw [encode_relative_concat h hds, hsplit]
      exact rdropWhile_colonFree hne hcolon _

/-- `_substitute` of a path that is clean after step 0. -/
theorem substitute_eq {names : List Str} (h : Names names) {path y : Str}
    (hclean : clean (if path.length < m.length + 1 then path ++ ['/'] else path) (m.length + 1) = m ++ '/' :: y)
    (hy : encode y = encode (relative names)) :
    substitute hash path (m.length + 1) =
      some (m ++ '/' :: (virtualDirectory hash (m ++ '/' :: y) ++ '/' :: encode (relative names))) := by
  have hsplit : m ++ '/' :: y = (m ++ ['/']) ++ y := List.append_cons m '/' y
  have hlength : m.length + 1 = (m ++ ['/']).length := by simp
  have htake : (m ++ '/' :: y).take (m.length + 1) = m ++ ['/'] := by
    rw [hsplit, hlength, List.take_left]
  have hdrop : (m ++ '/' :: y).drop (m.length + 1) = y := by
    rw [hsplit, hlength, List.drop_left]
  unfold substitute
  rw [hclean]
  dsimp only
  rw [if_neg (by simp), htake, hdrop, hy]
  have hassoc : m ++ ['/'] ++ (virtualDirectory hash (m ++ '/' :: y) ++ ['/']) ++ encode (relative names) =
      (m ++ '/' :: virtualDirectory hash (m ++ '/' :: y)) ++ '/' :: encode (relative names) := by simp
  rw [hassoc, rdropWhile_relative h]
  simp

end Encode

/-! ## Agreement -/

/-- The paths that are passed to `_substitute` for the names below the mount point `m`: the mount
    point itself, a path below it, and a path relative to a working directory that was entered
    through an encoded path. -/
inductive Calls (m : Str) (names : List Str) : Str → Prop
  | mountPoint (h : names = []) : Calls m names m
  | plain : Calls m names (m ++ '/' :: relative names)
  | encoded {id : Str} {as bs : List Str} (h : names = as ++ bs) (hid : '/' ∉ id) :
      Calls m names (m ++ lit "/:" ++ id ++ lit ":" ++ below (encode (relative as)) ++ below (relative bs))

theorem relative_ne_nil {names : List Str} (h : Names names) (hne : names ≠ []) : relative names ≠ [] := by
  cases names with
  | nil => exact absurd rfl hne
  | cons n names => exact fun hnil => (h n List.mem_cons_self).1 (List.append_eq_nil_iff.mp hnil).1

/-- What follows the virtual directory of the working directory: nothing, or a slash and a path
    that encodes the names. -/
theorem encoded_rest {as bs : List Str} (h : Names (as ++ bs)) :
    (as ++ bs = [] ∧ below (encode (relative as)) ++ below (relative bs) = []) ∨
      ∃ y, below (encode (relative as)) ++ below (relative bs) = '/' :: y ∧
        encode y = encode (relative (as ++ bs)) := by
  have has : Names as := fun n hn => h n (List.mem_append_left _ hn)
  have hbs : Names bs := fun n hn => h n (List.mem_append_right _ hn)
  by_cases hnil : as = []
  · subst hnil
    by_cases hnil : bs = []
    · subst hnil
      exact Or.inl ⟨rfl, rfl⟩
    · exact Or.inr ⟨relative bs, if_neg (relative_ne_nil hbs hnil), rfl⟩
  · have hne : encode (relative as) ≠ [] := fun h => relative_ne_nil has hnil (List.map_eq_nil_iff.mp h)
    refine Or.inr ⟨encode (relative as) ++ below (relative bs), ?_, ?_⟩
    · unfold below
      rw [if_neg hne]
      rfl
    · rw [encode_append, encode_encode, relative_append hnil, encode_append, below_relative hbs]

theorem substitute_calls (hash : Str → UInt64) {m path : Str} {names : List Str} (hm : ':' ∉ m)
    (hnames : Names names) (hpath : Calls m names path) :
    ∃ id, substitute hash path (m.length + 1) =
      some (m ++ '/' :: (':' :: (toStr id ++ [':']) ++ '/' :: encode (relative names))) := by
  have hvirtual : ∀ y, encode y = encode (relative names) →
      clean (if path.length < m.length + 1 then path ++ ['/'] else path) (m.length + 1) = m ++ '/' :: y →
      ∃ id, substitute hash path (m.length + 1) =
        some (m ++ '/' :: (':' :: (toStr id ++ [':']) ++ '/' :: encode (relative names))) :=
    fun y hy hclean => ⟨_, substitute_eq hnames hclean hy⟩
  have hlength : m.length + 1 = (m ++ ['/']).length := by simp
  have hslash : ':' ∉ m ++ ['/'] := by simp [hm]
  cases hpath with
  | mountPoint h =>
    subst h
    refine hvirtual [] rfl ?_
    rw [if_pos (Nat.lt_succ_self _), clean_colonFree hslash]
  | plain =>
    refine hvirtual _ rfl ?_
    rw [if_neg (by simp), clean_colonFree]
    simp [hm, colonFree_relative hnames]
  | @encoded id as bs h hid =>
    subst h
    have hsplit : m ++ lit "/:" ++ id ++ lit ":" ++ below (encode (relative as)) ++ below (relative bs) =
        (m ++ ['/']) ++ ((':' :: (id ++ [':'])) ++ (below (encode (relative as)) ++ below (relative bs))) := by
      simp [lit]
    rw [hsplit] at hvirtual ⊢
    obtain ⟨hnil, hrest⟩ | ⟨y, hrest, hy⟩ := encoded_rest hnames
    · refine hvirtual [] (by rw [hnil]; rfl) ?_
      rw [hrest, List.append_nil, if_neg (by simp), hlength]
      exact clean_virtual_root hslash (by simp) hid
    · refine hvirtual y hy ?_
      rw [hrest, if_neg (by simp), hlength, clean_virtual hslash hid]
      exact (List.append_cons m '/' y).symm

/-- `lookup_parent` and `path_to_filename` cut at the last separator. -/
theorem parse_append {c : Char} (a : Str) {n : Str} (hc : c = '/' ∨ c = ':') (hn : '/' ∉ n ∧ ':' ∉ n) :
    cutParent (a ++ c :: n) = some (if a = [] then [c] else a) ∧ pathToFilename (a ++ c :: n) = n := by
  have hlast := findLastSeparator_append a hc hn
  refine ⟨?_, ?_⟩
  · unfold cutParent
    rw [hlast]
    cases a with
    | nil => rfl
    | cons b a =>
      have htake : ((b :: a) ++ c :: n).take (b :: a).length = b :: a := List.take_left
      exact congrArg some htake
  · unfold pathToFilename
    rw [hlast]
    exact drop_append_succ a [] c n

/-- An encoded path with at least one name. -/
theorem parse_encoded {id : Str} (hid : '/' ∉ id) {ds : List Str} {n : Str} (h : Names (ds ++ [n])) :
    (∃ u, cutParent ('/' :: (':' :: (id ++ [':']) ++ '/' :: encode (relative (ds ++ [n])))) = some u ∧
        iointercept u = absolute ds) ∧
      pathToFilename ('/' :: (':' :: (id ++ [':']) ++ '/' :: encode (relative (ds ++ [n])))) = n := by
  have hn := (h n (List.mem_append_right _ List.mem_cons_self)).2
  by_cases hds : ds = []
  · subst hds
    obtain ⟨hcut, hname⟩ := parse_append ('/' :: ':' :: (id ++ [':'])) (Or.inl rfl) hn
    rw [List.nil_append, encode_relative_singleton h]
    exact ⟨⟨_, hcut, iointercept_virtual_root hid⟩, hname⟩
  · obtain ⟨hcut, hname⟩ := parse_append
      ('/' :: (':' :: (id ++ [':'])) ++ '/' :: encode (relative ds)) (Or.inr rfl) hn
    have hsplit : '/' :: (':' :: (id ++ [':']) ++ '/' :: encode (relative (ds ++ [n]))) =
        '/' :: (':' :: (id ++ [':'])) ++ '/' :: encode (relative ds) ++ ':' :: n := by
      rw [encode_relative_concat h hds]
      simp
    have hds : Names ds := fun n hn => h n (List.mem_append_left _ hn)
    rw [hsplit]
    refine ⟨⟨_, hcut, ?_⟩, hname⟩
    exact (iointercept_virtual hid _).trans (congrArg ('/' :: ·) (decode_encode (colonFree_relative hds)))

theorem colonFree_absolute {names : List Str} (h : Names names) : ':' ∉ absolute names := by
  simp [absolute, colonFree_relative h]

theorem parse_plain {ds : List Str} {n : Str} (h : Names (ds ++ [n])) :
    (∃ u, cutParent (absolute (ds ++ [n])) = some u ∧ iointercept u = absolute ds) ∧
      pathToFilename (absolute (ds ++ [n])) = n := by
  have hn := (h n (List.mem_append_right _ List.mem_cons_self)).2
  by_cases hds : ds = []
  · subst hds
    obtain ⟨hcut, hname⟩ := parse_append [] (Or.inl rfl : '/' = '/' ∨ '/' = ':') hn
    have hsingle : absolute ([] ++ [n]) = [] ++ '/' :: n := congrArg ('/' :: ·) (List.append_nil n)
    rw [hsingle]
    exact ⟨⟨_, hcut, by decide⟩, hname⟩
  · obtain ⟨hcut, hname⟩ := parse_append (absolute ds) (Or.inl rfl : '/' = '/' ∨ '/' = ':') hn
    have hsplit : absolute (ds ++ [n]) = absolute ds ++ '/' :: n := by
      unfold absolute
      rw [relative_append hds, List.flatMap_singleton]
      rfl
    have hfree : ':' ∉ absolute ds := colonFree_absolute fun n hn => h n (List.mem_append_left _ hn)
    rw [hsplit]
    exact ⟨⟨_, hcut, iointercept_of_colonFree hfree⟩, hname⟩

/-- Encoding and decoding agree, and the two independent parsers with them. -/
theorem interception_agrees (hash : Str → UInt64) {m path : Str} {names : List Str} (hm : ':' ∉ m)
    (hnames : Names names) (hpath : Calls m names path) :
    (∃ f, substitute hash path (m.length + 1) = some (m ++ f) ∧ iointercept f = absolute names ∧
      ∀ ds n, names = ds ++ [n] →
        (∃ u, cutParent f = some u ∧ iointercept u = absolute ds) ∧ pathToFilename f = n) ∧
      ∀ ds n, names = ds ++ [n] →
        (∃ u, cutParent (absolute names) = some u ∧ iointercept u = absolute ds) ∧
          pathToFilename (absolute names) = n := by
  obtain ⟨id, hsubst⟩ := substitute_calls hash hm hnames hpath
  have hid : '/' ∉ toStr id := not_mem_toStr (by decide)
  refine ⟨⟨_, hsubst, ?_, ?_⟩, ?_⟩
  · exact (iointercept_virtual hid _).trans (congrArg ('/' :: ·) (decode_encode (colonFree_relative hnames)))
  · rintro ds n rfl
    exact parse_encoded hid hnames
  · rintro ds n rfl
    exact parse_plain hnames

/-- `/mnt/fs`, relative to the directory `a/b` that was entered as `/mnt/fs/:7:/a:b`. -/
theorem interception_agrees_relative :
    ∃ f, substitute (fun _ => 142) (lit "/mnt/fs/:7:/a:b/c") 8 = some (lit "/mnt/fs" ++ f) ∧
      f = lit "/:42:/a:b:c" ∧ iointercept f = lit "/a/b/c" := by
  have hnames : Names [lit "a", lit "b", lit "c"] := by
    unfold Names
    decide
  have hpath : Calls (lit "/mnt/fs") [lit "a", lit "b", lit "c"] (lit "/mnt/fs/:7:/a:b/c") :=
    @Calls.encoded _ _ (lit "7") [lit "a", lit "b"] [lit "c"] rfl (by decide)
  obtain ⟨⟨f, hf, hdecode, -⟩, -⟩ := interception_agrees (fun _ => 142) (by decide) hnames hpath
  have hresult : substitute (fun _ => 142) (lit "/mnt/fs/:7:/a:b/c") 8 =
      some (lit "/mnt/fs" ++ lit "/:42:/a:b:c") := by
    decide
  refine ⟨f, hf, ?_, hdecode⟩
  exact List.append_cancel_left (Option.some.inj (hf.symm.trans hresult))

end HFlat.Intercept
