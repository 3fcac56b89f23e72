/-
  `_realpath` of the interception library (`iointercept/pathchange.cc`) against the lexical normal
  form of a path.

  The loop keeps a position on a slash of the string and rewrites the text around it. When it takes
  out a `..` together with the component before it, the position stays where it is, which is no
  longer a slash but further on in the text; so what follows a `..` is not treated as it should be.
  `Handled` says which paths the loop gets right: those in which nothing begins with `..` except a
  last component `..` with at most one component before it, and that do not end in a slash unless
  that is all there is (`realpath_normal_iff`).

  Up to the first `..` the string is a list of finished components and the rest of the path
  (`loop_finished_iff`). From then on two stacks of components are compared, that in the string and
  that of the normal form, both waiting for the same text. `Doomed` lists the ways in which they
  have come apart for good; every iteration keeps it (`Doomed.loop`).
-/
import Mathlib.Data.List.GetD
import HFlat.Intercept.PathChange

namespace HFlat.Intercept

open HFlat.Lib HFlat.PathMap

/-! ## `_realpath` -/

/-- Why there is no result: an access past the end of the string, or the fuel is used up. -/
inductive Fault where
  | range | fuel
  deriving DecidableEq, Repr

/-- `a - b`. Below zero it wraps around, to a number of characters that no string has. -/
def minus (a b : Nat) : Option Nat := if b ≤ a then some (a - b) else none

/-- `path[pos]`, which is a NUL at the end of the string. -/
def charAt (path : Str) (pos : Nat) : Except Fault Char :=
  if path.length < pos then .error .range else .ok (path.getD pos (Char.ofNat 0))

/-- `path.erase(pos, n)`. -/
def erase (path : Str) (pos : Nat) (n : Option Nat) : Except Fault Str :=
  if path.length < pos then .error .range
  else
    match n with
    | some n => .ok (path.take pos ++ path.drop (pos + n))
    | none => .ok (path.take pos)

/-- `path.find_first_not_of('/', pos)`. -/
def findNoSlash (path : Str) (pos : Nat) : Option Nat := ((path.drop pos).findIdx? (· ≠ '/')).map (pos + ·)

/-- One past the last slash of the string, 0 without a slash. -/
def afterLastSlash (path : Str) : Nat := path.length - (path.reverse.takeWhile (· ≠ '/')).length

/-- `path.find_last_of('/', pos - 1) + 1`: for position 0 the whole string is searched. -/
def previous (path : Str) (pos : Nat) : Nat := afterLastSlash (if pos = 0 then path else path.take pos)

/-- Erase multiple slashes. -/
def eraseSlashes (path : Str) (pos : Nat) : Except Fault Str := do
  if (← charAt path (pos + 1)) = '/' then
    erase path pos ((findNoSlash path pos).bind fun q => minus q (pos + 1))
  else return path

/-- Handle `.` and `..`, then go on with the next iteration. There is a `path[pos + 2]` whenever
    `path[pos + 1]` is not the end of the string. -/
def handleDots (next : Str → Option Nat → Except Fault Str) (path : Str) (pos : Nat) : Except Fault Str := do
  if (← charAt path (pos + 1)) = '.' then
    if path.length ≤ pos + 2 ∨ (← charAt path (pos + 2)) = '/' then
      next (← erase path pos (some 2)) (some pos)
    else if (← charAt path (pos + 2)) = '.' then
      let start := previous path pos
      next (← erase path start (minus (pos + 3) start)) (some pos)
    else next path (findFirstOf '/' path (pos + 1))
  else next path (findFirstOf '/' path (pos + 1))

/-- The loop of `_realpath`; `none` is the position `npos`. -/
def realpathLoop : Nat → Str → Option Nat → Except Fault Str
  | 0, _, _ => .error .fuel
  | _ + 1, path, none => .ok path
  | fuel + 1, path, some pos =>
      if path ≠ [] ∧ path.length ≤ pos + 1 then .ok path
      else do handleDots (realpathLoop fuel) (← eraseSlashes path pos) pos

/-- `_realpath`, where `cwd` is what `getcwd` returns. -/
def realpath (cwd : Str) (fuel : Nat) (path : Str) : Except Fault Str :=
  let path := if path.head? = some '/' then path else cwd ++ lit "/" ++ path
  realpathLoop fuel path (findFirstOf '/' path 0)

/-! ## The normal form -/

/-- One component more. -/
def push (stack : List Str) (c : Str) : List Str :=
  if c = [] ∨ c = lit "." then stack else if c = lit ".." then stack.dropLast else stack ++ [c]

/-- The stack of components after `path`. -/
def normalFrom (stack : List Str) (path : Str) : List Str := (path.splitOn '/').foldl push stack

/-- The lexical normal form of an absolute path. -/
def normalForm (path : Str) : Str := absolute (normalFrom [] path)

/-- The components that the loop gets right after `n` finished ones. -/
def Handled : Nat → List Str → Prop
  | n, [] => 0 < n
  | n, c :: comps =>
      if c = [] then if ∀ c ∈ comps, c = [] then n = 0 ∧ comps = [] else Handled n comps
      else if c = lit "." then Handled n comps
      else if lit ".." <+: c then c = lit ".." ∧ comps = [] ∧ n ≤ 1
      else Handled (n + 1) comps

/-! ## Strings from a position on -/

section Positions

variable (p t : Str) {pos : Nat}

theorem charAt_append (i : Nat) : charAt (p ++ t) (p.length + i) = charAt t i := by
  unfold charAt
  rw [List.length_append, List.getD_append_right _ _ _ _ (Nat.le_add_right _ _), Nat.add_sub_cancel_left]
  simp only [Nat.add_lt_add_iff_left]

theorem erase_append (i : Nat) (n : Option Nat) :
    erase (p ++ t) (p.length + i) n = (erase t i n).map (p ++ ·) := by
  unfold erase
  rw [List.length_append]
  simp only [Nat.add_lt_add_iff_left]
  split
  · rfl
  · cases n with
    | none =>
      rw [List.take_length_add_append]
      rfl
    | some n =>
      simp only [List.take_length_add_append, Nat.add_assoc, List.drop_length_add_append, Except.map,
        List.append_assoc]

theorem findNoSlash_append : findNoSlash (p ++ t) p.length = (findNoSlash t 0).map (p.length + ·) := by
  unfold findNoSlash
  rw [List.drop_left, List.drop_zero, Option.map_map]
  congr 1
  funext i
  exact congrArg _ (Nat.zero_add i).symm

theorem eraseSlashes_append : eraseSlashes (p ++ t) p.length = (eraseSlashes t 0).map (p ++ ·) := by
  have hn : ((findNoSlash (p ++ t) p.length).bind fun q => minus q (p.length + 1)) =
      (findNoSlash t 0).bind fun q => minus q (0 + 1) := by
    rw [findNoSlash_append]
    cases findNoSlash t 0 with
    | none => rfl
    | some q =>
      simp only [Option.map_some, Option.bind_some, minus, Nat.zero_add]
      by_cases h : 1 ≤ q
      · rw [if_pos (by omega), if_pos h]
        congr 1
        omega
      · rw [if_neg (by omega), if_neg h]
  have herase := erase_append p t 0 ((findNoSlash t 0).bind fun q => minus q (0 + 1))
  unfold eraseSlashes
  rw [charAt_append, hn, Nat.zero_add]
  rw [Nat.add_zero] at herase
  cases charAt t 1 with
  | error e => rfl
  | ok c =>
    simp only [bind, Except.bind]
    split
    · exact herase
    · rfl

end Positions

/-! ## One iteration -/

section Iteration

variable {p t : Str} {fuel : Nat} {c : Char}

theorem charAt_zero (c : Char) (t : Str) : charAt (c :: t) 0 = .ok c := rfl

theorem charAt_succ (c : Char) (t : Str) (i : Nat) : charAt (c :: t) (i + 1) = charAt t i := by
  unfold charAt
  simp only [List.length_cons, Nat.add_lt_add_iff_right, List.getD_cons_succ]

/-- The end of the string, or its last character. -/
theorem loop_end (hp : p ≠ []) (ht : t.length ≤ 1) :
    realpathLoop (fuel + 1) (p ++ t) (some p.length) = .ok (p ++ t) := by
  unfold realpathLoop
  rw [if_pos]
  refine ⟨fun h => hp (List.append_eq_nil_iff.mp h).1, ?_⟩
  rw [List.length_append]
  omega

theorem loop_body (h : 1 < t.length) :
    realpathLoop (fuel + 1) (p ++ t) (some p.length) =
      (eraseSlashes t 0).bind fun t => handleDots (realpathLoop fuel) (p ++ t) p.length := by
  unfold realpathLoop
  rw [if_neg, eraseSlashes_append]
  · cases eraseSlashes t 0 with
    | error e => rfl
    | ok t => rfl
  · rintro ⟨-, hlen⟩
    rw [List.length_append] at hlen
    omega

/-- `.` -/
theorem handleDots_dot {next : Str → Option Nat → Except Fault Str} (ht : t = [] ∨ t.head? = some '/') :
    handleDots next (p ++ c :: '.' :: t) p.length = next (p ++ t) (some p.length) := by
  have herase : erase (p ++ c :: '.' :: t) p.length (some 2) = .ok (p ++ t) := erase_append p _ 0 (some 2)
  unfold handleDots
  rw [charAt_append, charAt_append, charAt_succ, charAt_zero, charAt_succ, charAt_succ, herase,
    List.length_append]
  rcases ht with rfl | ht
  · simp [charAt, bind, Except.bind]
  · obtain ⟨t, rfl⟩ := List.head?_eq_some_iff.mp ht
    simp [charAt_zero, bind, Except.bind]

/-- Something that begins with `..`. -/
theorem handleDots_dots {next : Str → Option Nat → Except Fault Str} :
    handleDots next (p ++ c :: '.' :: '.' :: t) p.length =
      (erase (p ++ c :: '.' :: '.' :: t) (previous (p ++ c :: '.' :: '.' :: t) p.length)
        (minus (p.length + 3) (previous (p ++ c :: '.' :: '.' :: t) p.length))).bind fun path =>
          next path (some p.length) := by
  unfold handleDots
  rw [charAt_append, charAt_append, charAt_succ, charAt_zero, charAt_succ, charAt_succ, charAt_zero,
    List.length_append]
  simp [bind, Except.bind]

/-- Anything else. -/
theorem handleDots_other {next : Str → Option Nat → Except Fault Str} {d : Char}
    (h : d ≠ '.' ∨ ∃ e u, t = e :: u ∧ e ≠ '/' ∧ e ≠ '.') :
    handleDots next (p ++ c :: d :: t) p.length =
      next (p ++ c :: d :: t) (findFirstOf '/' (p ++ c :: d :: t) (p.length + 1)) := by
  unfold handleDots
  rw [charAt_append, charAt_append, charAt_succ, charAt_zero, charAt_succ, charAt_succ, List.length_append]
  by_cases hd : d = '.'
  · obtain ⟨e, u, rfl, hslash, hdot⟩ := h.resolve_left fun h => h hd
    simp [hd, hslash, hdot, charAt_zero, bind, Except.bind]
  · simp [hd, bind, Except.bind]

theorem eraseSlashes_single {d : Char} (hd : d ≠ '/') : eraseSlashes (c :: d :: t) 0 = .ok (c :: d :: t) := by
  unfold eraseSlashes
  rw [Nat.zero_add, charAt_succ, charAt_zero]
  exact if_neg hd

theorem exists_slashes {t : Str} (h : ∃ d ∈ t, d ≠ '/') :
    ∃ n d u, d ≠ '/' ∧ t = List.replicate n '/' ++ d :: u := by
  induction t with
  | nil => simp at h
  | cons c t ih =>
    by_cases hc : c = '/'
    · obtain ⟨d, hd, hne⟩ := h
      obtain ⟨n, e, u, he, rfl⟩ := ih ⟨d, (List.mem_cons.mp hd).resolve_left fun h => hne (h.trans hc), hne⟩
      exact ⟨n + 1, e, u, he, by rw [hc, List.replicate_succ, List.cons_append]⟩
    · exact ⟨0, c, t, hc, rfl⟩

theorem findNoSlash_replicate (n : Nat) {d : Char} (hd : d ≠ '/') (u : Str) :
    findNoSlash (List.replicate n '/' ++ d :: u) 0 = some n := by
  have hidx : (List.replicate n '/' ++ d :: u).findIdx? (· ≠ '/') = some n := by
    induction n with
    | zero => simp [List.findIdx?_cons, hd]
    | succ n ih =>
      rw [List.replicate_succ, List.cons_append, List.findIdx?_cons, if_neg (by simp), ih]
      rfl
  unfold findNoSlash
  rw [List.drop_zero, hidx, Option.map_some, Nat.zero_add]

/-- Several slashes become one. -/
theorem eraseSlashes_replicate (n : Nat) {d : Char} (hd : d ≠ '/') (u : Str) :
    eraseSlashes (List.replicate (n + 1) '/' ++ d :: u) 0 = .ok ('/' :: d :: u) := by
  cases n with
  | zero => exact eraseSlashes_single hd
  | succ n =>
    have hshift : List.replicate (n + 1 + 1) '/' ++ d :: u = List.replicate (n + 1) '/' ++ '/' :: d :: u := by
      rw [List.replicate_succ', List.append_assoc]
      rfl
    have hchar : charAt (List.replicate (n + 1 + 1) '/' ++ d :: u) 1 = .ok '/' := rfl
    unfold eraseSlashes
    rw [Nat.zero_add, hchar, findNoSlash_replicate _ hd]
    simp only [bind, Except.bind, if_true, Option.bind_some, minus, Nat.le_add_left, if_true,
      Nat.add_sub_cancel, erase, Nat.not_lt_zero, if_false, List.take_zero, List.nil_append, Nat.zero_add]
    rw [hshift, List.drop_left' (List.length_replicate ..)]

theorem eraseSlashes_none (c : Char) (t : Str)
    (h : ((findNoSlash (c :: '/' :: t) 0).bind fun q => minus q 1) = none) :
    eraseSlashes (c :: '/' :: t) 0 = .ok [] := by
  unfold eraseSlashes
  rw [Nat.zero_add, h]
  rfl

theorem handleDots_range {next : Str → Option Nat → Except Fault Str} :
    handleDots next p p.length = .error .range := by
  unfold handleDots charAt
  rw [if_pos (Nat.lt_succ_self _)]
  rfl

theorem loop_slashes {t : Str} (h : ∃ d ∈ t, d ≠ '/') :
    realpathLoop (fuel + 1) (p ++ '/' :: '/' :: t) (some p.length) =
      realpathLoop (fuel + 1) (p ++ '/' :: t) (some p.length) := by
  obtain ⟨n, d, u, hd, rfl⟩ := exists_slashes h
  have h2 := eraseSlashes_replicate (n + 1) hd u
  have h1 := eraseSlashes_replicate n hd u
  rw [List.replicate_succ, List.cons_append] at h1
  rw [List.replicate_succ, List.replicate_succ, List.cons_append, List.cons_append] at h2
  have hlen : 0 < (List.replicate n '/' ++ d :: u).length :=
    List.length_pos_iff.mpr (List.append_ne_nil_of_right_ne_nil _ (List.cons_ne_nil _ _))
  rw [loop_body (by simp), loop_body (t := '/' :: (List.replicate n '/' ++ d :: u)) (Nat.succ_lt_succ hlen),
    h1, h2]

/-- Nothing but slashes is erased together with the slash at the position. -/
theorem loop_only_slashes {t : Str} (h : ∀ d ∈ t, d = '/') :
    realpathLoop (fuel + 1) (p ++ '/' :: '/' :: t) (some p.length) = .error .range := by
  have hnone : findNoSlash ('/' :: '/' :: t) 0 = none := by
    unfold findNoSlash
    rw [List.drop_zero, List.findIdx?_eq_none_iff.mpr]
    · rfl
    · intro d hd
      simp only [List.mem_cons] at hd
      rcases hd with rfl | rfl | hd
      · rfl
      · rfl
      · rw [h d hd]
        rfl
  rw [loop_body (by simp), eraseSlashes_none _ _ (by rw [hnone]; rfl)]
  exact (congrArg (handleDots _ · _) (List.append_nil p)).trans handleDots_range

/-- The position is not on a slash, but the next one is. -/
theorem loop_stray {t : Str} (hc : c ≠ '/') :
    realpathLoop (fuel + 1) (p ++ c :: '/' :: t) (some p.length) = .error .range := by
  have hzero : findNoSlash (c :: '/' :: t) 0 = some 0 := findNoSlash_replicate 0 hc _
  rw [loop_body (by simp), eraseSlashes_none _ _ (by rw [hzero]; rfl)]
  exact (congrArg (handleDots _ · _) (List.append_nil p)).trans handleDots_range

theorem loop_dot (ht : t = [] ∨ t.head? = some '/') :
    realpathLoop (fuel + 1) (p ++ c :: '.' :: t) (some p.length) =
      realpathLoop fuel (p ++ t) (some p.length) := by
  rw [loop_body (by simp), eraseSlashes_single (by decide)]
  exact handleDots_dot ht

theorem afterLastSlash_append (a : Str) {w : Str} (hw : '/' ∉ w) :
    afterLastSlash (a ++ '/' :: w) = a.length + 1 := by
  have htake : ((a ++ '/' :: w).reverse.takeWhile (· ≠ '/')).length = w.length := by
    rw [List.reverse_append, List.reverse_cons, List.append_assoc, List.takeWhile_append_of_pos]
    · simp
    · intro d hd
      have hd := List.mem_reverse.mp hd
      simp only [decide_eq_true_iff]
      rintro rfl
      exact hw hd
  unfold afterLastSlash
  rw [htake, List.length_append, List.length_cons]
  omega

/-- The component before a `..` is taken out, but the position stays where it was. -/
theorem loop_dots {a w : Str} (hw : '/' ∉ w) :
    realpathLoop (fuel + 1) (a ++ '/' :: w ++ c :: '.' :: '.' :: t) (some (a ++ '/' :: w).length) =
      realpathLoop fuel (a ++ '/' :: t) (some (a ++ '/' :: w).length) := by
  have hprev : previous (a ++ '/' :: w ++ c :: '.' :: '.' :: t) (a ++ '/' :: w).length =
      (a ++ ['/']).length := by
    unfold previous
    rw [if_neg (by simp), List.take_left, afterLastSlash_append a hw, List.length_append, List.length_singleton]
  have hminus : minus ((a ++ '/' :: w).length + 3) (a ++ ['/']).length = some (w.length + 3) := by
    unfold minus
    simp only [List.length_append, List.length_cons, List.length_nil]
    rw [if_pos (by omega)]
    congr 1
    omega
  have hsplit : a ++ '/' :: w ++ c :: '.' :: '.' :: t = a ++ ['/'] ++ (w ++ c :: '.' :: '.' :: t) := by simp
  have hdrop : (w ++ c :: '.' :: '.' :: t).drop (w.length + 3) = t := by
    rw [List.drop_length_add_append]
    rfl
  have herase : erase (a ++ '/' :: w ++ c :: '.' :: '.' :: t) (a ++ ['/']).length (some (w.length + 3)) =
      .ok (a ++ '/' :: t) := by
    have h := erase_append (a ++ ['/']) (w ++ c :: '.' :: '.' :: t) 0 (some (w.length + 3))
    rw [Nat.add_zero, ← hsplit] at h
    rw [h, erase, if_neg (Nat.not_lt_zero _)]
    simp only [List.take_zero, List.nil_append, Nat.zero_add, hdrop]
    simp [Except.map]
  rw [loop_body (by simp), eraseSlashes_single (by decide)]
  refine handleDots_dots.trans ?_
  rw [hprev, hminus, herase]
  rfl

/-- Any other component: on to the next slash. -/
theorem loop_next {d : Char} {s u : Str} (hs : '/' ∉ d :: s)
    (h : d ≠ '.' ∨ ∃ e v, s = e :: v ∧ e ≠ '.') :
    realpathLoop (fuel + 1) (p ++ c :: (d :: s ++ '/' :: u)) (some p.length) =
      realpathLoop fuel (p ++ c :: d :: s ++ '/' :: u) (some (p ++ c :: d :: s).length) := by
  have hd : d ≠ '/' := fun h => hs (h ▸ List.mem_cons_self)
  have hfind : findFirstOf '/' (p ++ c :: (d :: s ++ '/' :: u)) (p.length + 1) =
      some (p ++ c :: d :: s).length := by
    have h := findFirstOf_append (a := p ++ [c]) u hs
    rw [List.append_assoc, List.singleton_append, List.length_append, List.length_singleton] at h
    rw [h]
    simp only [List.length_append, List.length_cons]
    congr 1
    omega
  rw [loop_body (by simp), List.cons_append, eraseSlashes_single hd]
  refine (handleDots_other (h.imp_right ?_)).trans ?_
  · rintro ⟨e, v, rfl, he⟩
    refine ⟨e, v ++ '/' :: u, rfl, ?_, he⟩
    rintro rfl
    exact hs (List.mem_cons_of_mem _ List.mem_cons_self)
  · rw [← List.cons_append, hfind]
    simp

/-- The last component. -/
theorem loop_last {d : Char} {s : Str} (hs : '/' ∉ d :: s)
    (h : d ≠ '.' ∨ ∃ e v, s = e :: v ∧ e ≠ '.') :
    realpathLoop (fuel + 1) (p ++ c :: d :: s) (some p.length) =
      realpathLoop fuel (p ++ c :: d :: s) none := by
  have hd : d ≠ '/' := fun h => hs (h ▸ List.mem_cons_self)
  have hfind : findFirstOf '/' (p ++ c :: d :: s) (p.length + 1) = none := by
    have h := findFirstOf_absent (a := p ++ [c]) hs
    rwa [List.append_assoc, List.singleton_append, List.length_append, List.length_singleton] at h
  rw [loop_body (by simp), eraseSlashes_single hd]
  refine (handleDots_other (h.imp_right ?_)).trans (by rw [hfind])
  rintro ⟨e, v, rfl, he⟩
  refine ⟨e, v, rfl, ?_, he⟩
  rintro rfl
  exact hs (List.mem_cons_of_mem _ List.mem_cons_self)

end Iteration

/-! ## Stacks of components -/

/-- `/a/b` for the components `a` and `b`. -/
def slashed (comps : List Str) : Str := comps.flatMap ('/' :: ·)

/-- A component of a normal form. -/
structure Component (c : Str) : Prop where
  ne_nil : c ≠ []
  ne_dot : c ≠ lit "."
  ne_dots : c ≠ lit ".."
  slashFree : '/' ∉ c

section Stacks

variable {stack comps : List Str} {v w : Str}

@[simp] theorem slashed_nil : slashed [] = [] := rfl

theorem slashed_concat (comps : List Str) (w : Str) : slashed (comps ++ [w]) = slashed comps ++ '/' :: w := by
  simp [slashed]

theorem slashed_ne_nil (h : comps ≠ []) : slashed comps ≠ [] := by
  obtain ⟨c, comps, rfl⟩ := List.exists_cons_of_ne_nil h
  exact List.cons_ne_nil _ _

theorem splitOn_slashed (hw : '/' ∉ w) (hcomps : ∀ c ∈ comps, '/' ∉ c) :
    (w ++ slashed comps).splitOn '/' = w :: comps := by
  induction comps generalizing w with
  | nil => rw [slashed, List.flatMap_nil, List.append_nil, List.splitOn_eq_singleton hw]
  | cons c comps ih =>
    have hshape : w ++ slashed (c :: comps) = w ++ '/' :: (c ++ slashed comps) := rfl
    rw [hshape, List.splitOn_append_cons_self_of_not_mem hw, ih (hcomps c List.mem_cons_self)]
    exact fun d hd => hcomps d (List.mem_cons_of_mem _ hd)

theorem slashed_injective {as bs : List Str} (has : ∀ c ∈ as, '/' ∉ c) (hbs : ∀ c ∈ bs, '/' ∉ c)
    (h : slashed as = slashed bs) : as = bs := by
  have h' := congrArg (fun s => ([] ++ s : Str).splitOn '/') h
  simp only [splitOn_slashed List.not_mem_nil has, splitOn_slashed List.not_mem_nil hbs] at h'
  exact (List.cons.inj h').2

theorem absolute_eq (stack : List Str) : absolute stack = slashed (if stack = [] then [[]] else stack) := by
  cases stack with
  | nil => rfl
  | cons c stack => rfl

theorem normalFrom_slash (hv : '/' ∉ v) (t : Str) :
    normalFrom stack (v ++ '/' :: t) = normalFrom (push stack v) t := by
  unfold normalFrom
  rw [List.splitOn_append_cons_self_of_not_mem hv]
  rfl

theorem normalFrom_slashFree (hv : '/' ∉ v) : normalFrom stack v = push stack v := by
  unfold normalFrom
  rw [List.splitOn_eq_singleton hv]
  rfl

theorem normalFrom_slashed (hv : '/' ∉ v) (hcomps : ∀ c ∈ comps, '/' ∉ c) :
    normalFrom stack (v ++ slashed comps) = comps.foldl push (push stack v) := by
  unfold normalFrom
  rw [splitOn_slashed hv hcomps]
  rfl

theorem push_nil (stack : List Str) : push stack [] = stack := if_pos (Or.inl rfl)

theorem push_dot (stack : List Str) : push stack (lit ".") = stack := if_pos (Or.inr rfl)

theorem push_dots (stack : List Str) : push stack (lit "..") = stack.dropLast := rfl

theorem push_component (h : Component v) : push stack v = stack ++ [v] := by
  unfold push
  rw [if_neg (not_or.mpr ⟨h.ne_nil, h.ne_dot⟩), if_neg h.ne_dots]

theorem component_of_length (hv : '/' ∉ v) (hlen : 2 < v.length) : Component v where
  ne_nil := by
    rintro rfl
    cases hlen
  ne_dot := by
    rintro rfl
    exact absurd hlen (by decide)
  ne_dots := by
    rintro rfl
    exact absurd hlen (by decide)
  slashFree := hv

theorem components_push (hstack : ∀ c ∈ stack, Component c) (hv : '/' ∉ v) :
    ∀ c ∈ push stack v, Component c := by
  unfold push
  split
  · exact hstack
  · rename_i h
    split
    · exact fun c hc => hstack c (List.mem_of_mem_dropLast hc)
    · rename_i h'
      intro c hc
      rcases List.mem_append.mp hc with hc | hc
      · exact hstack c hc
      · obtain rfl := List.mem_singleton.mp hc
        exact ⟨fun h0 => h (Or.inl h0), fun h1 => h (Or.inr h1), h', hv⟩

/-- The string of components that are not all those of a normal form is not a normal form. -/
theorem slashed_ne_absolute (hstack : ∀ c ∈ stack, Component c) (hcomps : ∀ c ∈ comps, '/' ∉ c)
    (hroot : comps ≠ [[]]) (h : comps ≠ stack) : slashed comps ≠ absolute stack := by
  rw [absolute_eq]
  split
  · intro he
    apply hroot
    exact slashed_injective hcomps (by simp) he
  · intro he
    apply h
    exact slashed_injective hcomps (fun c hc => (hstack c hc).slashFree) he

theorem absolute_ne_root (hstack : ∀ c ∈ stack, Component c) (h : stack ≠ []) :
    absolute stack ≠ lit "/" := by
  rw [absolute_eq, if_neg h]
  intro he
  have hroot : stack = [[]] :=
    @slashed_injective stack [[]] (fun c hc => (hstack c hc).slashFree) (by simp) he
  exact (hstack [] (hroot ▸ List.mem_singleton_self [])).ne_nil rfl

end Stacks

/-! ## After the first `..` -/

/-- Two stacks with different components at the same depth. -/
def Differ (stack stack' : List Str) : Prop :=
  ∃ as a rest bs b rest', stack = as ++ a :: rest ∧ stack' = bs ++ b :: rest' ∧
    rest.length = rest'.length ∧ a ≠ b

theorem Differ.push {stack stack' : List Str} (h : Differ stack stack') (c : Str) :
    Differ (stack ++ [c]) (stack' ++ [c]) := by
  obtain ⟨as, a, rest, bs, b, rest', rfl, rfl, hlen, hab⟩ := h
  refine ⟨as, a, rest ++ [c], bs, b, rest' ++ [c], by simp, by simp, ?_, hab⟩
  rw [List.length_append, List.length_append, hlen]

theorem Differ.ne {stack stack' : List Str} (h : Differ stack stack') : stack ≠ stack' := by
  obtain ⟨as, a, rest, bs, b, rest', rfl, rfl, hlen, hab⟩ := h
  intro he
  exact hab (List.cons.inj (List.append_inj_right' he (by rw [List.length_cons, List.length_cons, hlen]))).1

theorem Differ.ne_nil {stack stack' : List Str} (h : Differ stack stack') : stack ≠ [] := by
  obtain ⟨as, a, rest, bs, b, rest', rfl, -, -, -⟩ := h
  exact List.append_ne_nil_of_right_ne_nil _ (List.cons_ne_nil _ _)

/-- The string up to the position is `done` and the text `w` after the last slash, and `t` comes after
    it. The normal form is that of `stack` and of the text `v` before `t`. -/
inductive Doomed (done : List Str) (w : Str) : Str → List Str → Str → Prop
  /-- The string has `//`, `/./` or `/../` before the position. -/
  | broken {t stack v} (h : ∃ c ∈ done, ¬ Component c) : Doomed done w t stack v
  /-- The last component has lost a part. -/
  | longer {t stack v} (hw : w ≠ []) (hlen : w.length + 2 ≤ v.length) (hroot : done = [] → stack ≠ []) :
      Doomed done w t stack v
  /-- The last component is about to lose its dots. -/
  | headless {t stack v} (hw : w = []) (hdone : done ≠ []) (ht : ∃ c u, t = c :: u ∧ c ≠ '/')
      (hlen : 2 ≤ v.length) : Doomed done w t stack v
  /-- A component before the last one has lost a part. -/
  | differ {t stack v} (hwv : w = v) (h : Differ done stack) : Doomed done w t stack v
  /-- The string ends in a slash or has `//` at the position. -/
  | trailing {t stack v} (hdone : done ≠ []) (hw : w = []) (ht : t = [] ∨ t.head? = some '/') :
      Doomed done w t stack v
  /-- The string is not the normal form. -/
  | outside {stack v} (h : slashed (done ++ [w]) ≠ absolute (push stack v)) : Doomed done w [] stack v

/-- `Doomed`, and there are no slashes in what has been read. -/
structure Apart (done : List Str) (w t : Str) (stack : List Str) (v : Str) : Prop where
  slashFree : ∀ c ∈ done, '/' ∉ c
  text : '/' ∉ w
  other : '/' ∉ v
  components : ∀ c ∈ stack, Component c
  doomed : Doomed done w t stack v

section Apart

variable {done stack : List Str} {w t v : Str} {c : Char}

theorem Apart.char (h : Apart done w (c :: t) stack v) (hc : c ≠ '/') :
    Apart done (w ++ [c]) t stack (v ++ [c]) := by
  refine ⟨h.slashFree, by simp [h.text, hc.symm], by simp [h.other, hc.symm], h.components, ?_⟩
  cases h.doomed with
  | broken h => exact Doomed.broken h
  | longer hw hlen hroot =>
    refine Doomed.longer (by simp) ?_ hroot
    rw [List.length_append, List.length_append]
    omega
  | headless hw hdone ht hlen =>
    subst hw
    refine Doomed.longer (by simp) ?_ fun h => absurd h hdone
    rw [List.length_append, List.length_append, List.length_nil]
    omega
  | differ hwv h => exact Doomed.differ (by rw [hwv]) h
  | trailing hdone hw ht => exact absurd (Option.some.inj (ht.resolve_left (List.cons_ne_nil _ _))) hc

theorem Apart.slash (h : Apart done w ('/' :: t) stack v) : Apart (done ++ [w]) [] t (push stack v) [] := by
  refine ⟨?_, List.not_mem_nil, List.not_mem_nil, components_push h.components h.other, ?_⟩
  · intro c hc
    rcases List.mem_append.mp hc with hc | hc
    · exact h.slashFree c hc
    · rw [List.mem_singleton.mp hc]
      exact h.text
  by_cases hw : Component w
  · cases h.doomed with
    | broken h =>
      obtain ⟨c, hc, hnot⟩ := h
      exact Doomed.broken ⟨c, List.mem_append_left _ hc, hnot⟩
    | longer hne hlen hroot =>
      have hpos := List.length_pos_iff.mpr hne
      rw [push_component (component_of_length h.other (by omega))]
      refine Doomed.differ rfl ⟨done, w, [], stack, v, [], rfl, rfl, rfl, ?_⟩
      rintro rfl
      omega
    | headless hw hdone ht hlen =>
      obtain ⟨c, u, hcu, hc⟩ := ht
      exact absurd (List.cons.inj hcu).1.symm hc
    | differ hwv hdiffer =>
      subst hwv
      rw [push_component hw]
      exact Doomed.differ rfl (hdiffer.push w)
    | trailing hdone hnil ht => exact absurd hnil hw.ne_nil
  · exact Doomed.broken ⟨w, List.mem_append_right _ (List.mem_singleton_self w), hw⟩

/-- Reading a part of the text. -/
theorem Apart.read (u : Str) (h : Apart done w (u ++ t) stack v) :
    ∃ done' w' stack' v', Apart done' w' t stack' v' ∧
      slashed (done' ++ [w']) = slashed (done ++ [w]) ++ u ∧
      ∀ t, normalFrom stack' (v' ++ t) = normalFrom stack (v ++ (u ++ t)) := by
  induction u generalizing done w stack v with
  | nil => exact ⟨done, w, stack, v, h, (List.append_nil _).symm, fun t => rfl⟩
  | cons c u ih =>
    by_cases hc : c = '/'
    · subst hc
      obtain ⟨done', w', stack', v', h', hpath, hnormal⟩ := ih h.slash
      refine ⟨done', w', stack', v', h', ?_, fun t => ?_⟩
      · rw [hpath, slashed_concat (done ++ [w]), List.append_assoc, List.singleton_append]
      · rw [hnormal, List.nil_append, List.cons_append, normalFrom_slash h.other]
    · obtain ⟨done', w', stack', v', h', hpath, hnormal⟩ := ih (h.char hc)
      refine ⟨done', w', stack', v', h', ?_, fun t => ?_⟩
      · rw [hpath, slashed_concat, slashed_concat]
        simp
      · rw [hnormal]
        simp

theorem Apart.stop (h : Apart done w [] stack v) : slashed (done ++ [w]) ≠ absolute (push stack v) := by
  have hstack := components_push h.components h.other
  have hslash : ∀ c ∈ done ++ [w], '/' ∉ c := by
    intro c hc
    rcases List.mem_append.mp hc with hc | hc
    · exact h.slashFree c hc
    · rw [List.mem_singleton.mp hc]
      exact h.text
  have hroot : done ≠ [] → done ++ [w] ≠ [[]] := by
    intro hdone he
    have hlen := congrArg List.length he
    rw [List.length_append, List.length_singleton, List.length_singleton] at hlen
    exact hdone (List.length_eq_zero_iff.mp (by omega))
  have hnot : (∃ c ∈ done ++ [w], ¬ Component c) → done ++ [w] ≠ push stack v := by
    rintro ⟨c, hc, hnot⟩ he
    exact hnot (hstack c (he ▸ hc))
  cases h.doomed with
  | broken h =>
    obtain ⟨c, hc, hc'⟩ := h
    exact slashed_ne_absolute hstack hslash (hroot (List.ne_nil_of_mem hc))
      (hnot ⟨c, List.mem_append_left _ hc, hc'⟩)
  | longer hw hlen hroot' =>
    have hpos := List.length_pos_iff.mpr hw
    refine slashed_ne_absolute hstack hslash ?_ ?_
    · intro he
      exact hw (List.singleton_inj.mp (List.append_inj_right' (he.trans (List.nil_append [[]]).symm) rfl))
    · rw [push_component (component_of_length h.other (by omega))]
      intro he
      have hwv := List.singleton_inj.mp (List.append_inj_right' he rfl)
      rw [hwv] at hlen
      omega
  | headless hw hdone ht hlen =>
    obtain ⟨c, u, hcu, -⟩ := ht
    cases hcu
  | differ hwv hdiffer =>
    subst hwv
    refine slashed_ne_absolute hstack hslash (hroot hdiffer.ne_nil) ?_
    by_cases hw : Component w
    · rw [push_component hw]
      intro he
      exact hdiffer.ne (List.append_inj_left' he rfl)
    · exact hnot ⟨w, List.mem_append_right _ (List.mem_singleton_self w), hw⟩
  | trailing hdone hw ht =>
    refine slashed_ne_absolute hstack hslash (hroot hdone) (hnot ⟨w, ?_, fun h => h.ne_nil hw⟩)
    exact List.mem_append_right _ (List.mem_singleton_self w)
  | outside h => exact h

/-- Whatever is still to be read, the string is not the normal form. -/
theorem Apart.final (h : Apart done w t stack v) :
    slashed (done ++ [w]) ++ t ≠ absolute (normalFrom stack (v ++ t)) := by
  have h' : Apart done w (t ++ []) stack v := by rwa [List.append_nil]
  obtain ⟨done', w', stack', v', h', hpath, hnormal⟩ := h'.read t
  have hstop := h'.stop
  rw [hpath, ← normalFrom_slashFree h'.other] at hstop
  have hn := hnormal []
  rw [List.append_nil, List.append_nil] at hn
  rwa [hn] at hstop

/-- A `.` is taken out. -/
theorem Apart.dot (h : Apart done w (c :: '.' :: t) stack v) (ht : t = [] ∨ t.head? = some '/') :
    ∃ v', Apart done w t stack v' ∧ normalFrom stack (v' ++ t) = normalFrom stack (v ++ c :: '.' :: t) := by
  by_cases hc : c = '/'
  · subst hc
    refine ⟨v, ⟨h.slashFree, h.text, h.other, h.components, ?_⟩, ?_⟩
    · cases h.doomed with
      | broken h => exact Doomed.broken h
      | longer hw hlen hroot => exact Doomed.longer hw hlen hroot
      | headless hw hdone ht hlen =>
        obtain ⟨c, u, hcu, hc⟩ := ht
        exact absurd (List.cons.inj hcu).1.symm hc
      | differ hwv h => exact Doomed.differ hwv h
      | trailing hdone hw _ => exact Doomed.trailing hdone hw ht
    · rw [normalFrom_slash h.other]
      rcases ht with rfl | ht
      · rw [List.append_nil, normalFrom_slashFree h.other, normalFrom_slashFree (by decide)]
        exact (push_dot _).symm
      · obtain ⟨t, rfl⟩ := List.head?_eq_some_iff.mp ht
        have hdot : normalFrom (push stack v) ('.' :: '/' :: t) =
            normalFrom (push (push stack v) (lit ".")) t :=
          normalFrom_slash (v := lit ".") (by decide) t
        rw [normalFrom_slash h.other, hdot, push_dot]
  · have h2 := (h.char hc).char (by decide : '.' ≠ '/')
    refine ⟨v ++ [c] ++ ['.'], ⟨h.slashFree, h.text, h2.other, h.components, ?_⟩, by simp⟩
    have htrailing : done ≠ [] → w = [] → Doomed done w t stack (v ++ [c] ++ ['.']) :=
      fun hdone hw => Doomed.trailing hdone hw ht
    cases h.doomed with
    | broken h => exact Doomed.broken h
    | longer hw hlen hroot =>
      refine Doomed.longer hw ?_ hroot
      rw [List.length_append, List.length_append]
      omega
    | headless hw hdone _ _ => exact htrailing hdone hw
    | differ hwv hdiffer =>
      by_cases hw : w = []
      · exact htrailing hdiffer.ne_nil hw
      · refine Doomed.longer hw ?_ fun hdone => absurd hdone hdiffer.ne_nil
        rw [List.length_append, List.length_append, ← hwv, List.length_singleton, List.length_singleton]
    | trailing hdone hw ht => exact absurd (Option.some.inj (ht.resolve_left (List.cons_ne_nil _ _))) hc

/-- Something that begins with `..`, and the text `w` before it, have been taken out, and as many
    characters as `w` had are skipped: the text `u`. -/
theorem exists_apart {u : Str} (hslash : ∀ c ∈ done, '/' ∉ c) (hv : '/' ∉ v) (hlen : 2 ≤ v.length)
    (hstack : ∀ c ∈ stack, Component c) (hu : u.length = w.length ∨ t = []) (hle : u.length ≤ w.length)
    (hdone : w = [] → (∃ c ∈ done, ¬ Component c) ∨ done ≠ [])
    (hroot : done = [] → stack ≠ [] ∧ (u ++ t = [] → absolute (push stack v) ≠ lit "/")) :
    ∃ done' w' stack' v', Apart done' w' t stack' v' ∧
      slashed (done' ++ [w']) = slashed done ++ '/' :: u ∧
      normalFrom stack' (v' ++ t) = normalFrom stack (v ++ (u ++ t)) := by
  have hread : ∀ {done1 : List Str} {w1 u1 : Str} {stack1 : List Str} {v1 : Str},
      Apart done1 w1 (u1 ++ t) stack1 v1 → slashed (done1 ++ [w1]) ++ u1 = slashed done ++ '/' :: u →
      (∀ t, normalFrom stack1 (v1 ++ (u1 ++ t)) = normalFrom stack (v ++ (u ++ t))) →
      ∃ done' w' stack' v', Apart done' w' t stack' v' ∧
        slashed (done' ++ [w']) = slashed done ++ '/' :: u ∧
        normalFrom stack' (v' ++ t) = normalFrom stack (v ++ (u ++ t)) := by
    intro done1 w1 u1 stack1 v1 h1 hpath1 hnormal1
    obtain ⟨done', w', stack', v', h', hpath, hn⟩ := h1.read u1
    exact ⟨done', w', stack', v', h', hpath.trans hpath1, by rw [hn, hnormal1]⟩
  have hstart : slashed (done ++ [[]]) ++ u = slashed done ++ '/' :: u := by rw [slashed_concat]; simp
  by_cases hbroken : ∃ c ∈ done, ¬ Component c
  · exact hread ⟨hslash, List.not_mem_nil, hv, hstack, Doomed.broken hbroken⟩ hstart fun _ => rfl
  cases u with
  | nil =>
    refine hread ⟨hslash, List.not_mem_nil, hv, hstack, ?_⟩ hstart fun _ => rfl
    by_cases hnil : done = []
    · have hw : w ≠ [] := fun hw => (hdone hw).elim hbroken fun hne => hne hnil
      obtain rfl : t = [] := hu.resolve_left fun hzero => hw (List.length_eq_zero_iff.mp hzero.symm)
      refine Doomed.outside ?_
      rw [hnil]
      exact ((hroot hnil).2 rfl).symm
    · cases t with
      | nil => exact Doomed.trailing hnil rfl (Or.inl rfl)
      | cons d t =>
        by_cases hd : d = '/'
        · exact Doomed.trailing hnil rfl (Or.inr (congrArg some hd))
        · exact Doomed.headless rfl hnil ⟨d, t, rfl, hd⟩ hlen
  | cons d u =>
    by_cases hd : d = '/'
    · subst hd
      refine @hread (done ++ [[]]) [] u (push stack v) []
        ⟨?_, List.not_mem_nil, List.not_mem_nil, components_push hstack hv, ?_⟩ ?_ ?_
      · intro c hc
        rcases List.mem_append.mp hc with hc | hc
        · exact hslash c hc
        · rw [List.mem_singleton.mp hc]
          exact List.not_mem_nil
      · exact Doomed.broken ⟨[], List.mem_append_right _ (List.mem_singleton_self _), fun h => h.ne_nil rfl⟩
      · rw [slashed_concat, slashed_concat]
        simp
      · exact fun t => (normalFrom_slash hv _).symm
    · refine @hread done [d] u stack (v ++ [d])
        ⟨hslash, ?_, ?_, hstack, ?_⟩ ?_ ?_
      · simp [Ne.symm hd]
      · simp [hv, Ne.symm hd]
      · refine Doomed.longer (List.cons_ne_nil _ _) ?_ fun hnil => (hroot hnil).1
        rw [List.length_append, List.length_singleton]
        omega
      · rw [slashed_concat]
        simp
      · simp

/-- The stack and the text of the normal form after something that begins with `..`. -/
theorem Apart.dots (h : Apart done w (c :: '.' :: '.' :: t) stack v) :
    ∃ stack' v', 2 ≤ v'.length ∧ '/' ∉ v' ∧ (∀ c ∈ stack', Component c) ∧
      (w = [] → (∃ c ∈ done, ¬ Component c) ∨ done ≠ []) ∧
      (done = [] → stack' ≠ [] ∧ absolute (push stack' v') ≠ lit "/") ∧
      normalFrom stack' (v' ++ t) = normalFrom stack (v ++ c :: '.' :: '.' :: t) := by
  have hlonger : done = [] → w ≠ [] ∧ stack ≠ [] ∧ Component v := by
    intro hdone
    cases h.doomed with
    | broken h =>
      obtain ⟨c, hc, -⟩ := h
      exact absurd hc (hdone ▸ List.not_mem_nil)
    | longer hw hlen hroot =>
      have hpos := List.length_pos_iff.mpr hw
      exact ⟨hw, hroot hdone, component_of_length h.other (by omega)⟩
    | headless _ hne _ _ => exact absurd hdone hne
    | differ _ hdiffer => exact absurd hdone hdiffer.ne_nil
    | trailing hne _ _ => exact absurd hdone hne
  have hnil : w = [] → (∃ c ∈ done, ¬ Component c) ∨ done ≠ [] :=
    fun hw => Or.inr fun hdone => (hlonger hdone).1 hw
  by_cases hc : c = '/'
  · subst hc
    refine ⟨push stack v, lit "..", le_rfl, by decide, components_push h.components h.other, hnil, ?_,
      (normalFrom_slash h.other _).symm⟩
    intro hdone
    obtain ⟨-, hne, hv⟩ := hlonger hdone
    rw [push_component hv, push_dots, List.dropLast_concat]
    exact ⟨List.append_ne_nil_of_right_ne_nil _ (List.cons_ne_nil _ _), absolute_ne_root h.components hne⟩
  · have h3 := ((h.char hc).char (by decide : '.' ≠ '/')).char (by decide : '.' ≠ '/')
    refine ⟨stack, v ++ [c] ++ ['.'] ++ ['.'], by simp, h3.other, h.components, hnil, ?_, by simp⟩
    intro hdone
    have hpush := components_push h.components h3.other
    rw [push_component (component_of_length h3.other (by simp))] at hpush ⊢
    refine ⟨(hlonger hdone).2.1, absolute_ne_root hpush ?_⟩
    exact List.append_ne_nil_of_right_ne_nil _ (List.cons_ne_nil _ _)

theorem Apart.slashes (h : Apart done w ('/' :: '/' :: t) stack v) :
    Apart done w ('/' :: t) stack v ∧
      normalFrom stack (v ++ '/' :: t) = normalFrom stack (v ++ '/' :: '/' :: t) := by
  refine ⟨⟨h.slashFree, h.text, h.other, h.components, ?_⟩, ?_⟩
  · cases h.doomed with
    | broken h => exact Doomed.broken h
    | longer hw hlen hroot => exact Doomed.longer hw hlen hroot
    | headless hw hdone ht hlen =>
      obtain ⟨c, u, hcu, hc⟩ := ht
      exact absurd (List.cons.inj hcu).1.symm hc
    | differ hwv h => exact Doomed.differ hwv h
    | trailing hdone hw _ => exact Doomed.trailing hdone hw (Or.inr rfl)
  · have hempty : normalFrom (push stack v) ('/' :: t) = normalFrom (push (push stack v) []) t :=
      normalFrom_slash (v := []) List.not_mem_nil t
    rw [normalFrom_slash h.other, normalFrom_slash h.other, hempty, push_nil]

/-- The iterations after something that begins with `..` was taken out, given all shorter ones. -/
theorem loop_skip_ne {fuel : Nat} (hslash : ∀ c ∈ done, '/' ∉ c) (hv : '/' ∉ v) (hlen : 2 ≤ v.length)
    (hstack : ∀ c ∈ stack, Component c) (hdone : w = [] → (∃ c ∈ done, ¬ Component c) ∨ done ≠ [])
    (hroot : done = [] → stack ≠ [] ∧ (t = [] → absolute (push stack v) ≠ lit "/"))
    (hloop : ∀ {done' : List Str} {w' t' : Str} {stack' : List Str} {v' : Str}, t'.length ≤ t.length →
      Apart done' w' t' stack' v' →
      realpathLoop fuel (slashed (done' ++ [w']) ++ t') (some (slashed (done' ++ [w'])).length) ≠
        .ok (absolute (normalFrom stack' (v' ++ t')))) :
    realpathLoop fuel (slashed done ++ '/' :: t) (some (slashed done ++ '/' :: w).length) ≠
      .ok (absolute (normalFrom stack (v ++ t))) := by
  obtain ⟨u, rest, rfl, hu, hle⟩ : ∃ u rest, t = u ++ rest ∧ (u.length = w.length ∨ rest = []) ∧
      u.length ≤ w.length := by
    refine ⟨t.take w.length, t.drop w.length, (List.take_append_drop _ _).symm, ?_, List.length_take_le _ _⟩
    by_cases hshort : w.length ≤ t.length
    · exact Or.inl (List.length_take_of_le hshort)
    · exact Or.inr (List.drop_eq_nil_of_le (by omega))
  obtain ⟨done', w', stack', v', h', hpath, hnormal⟩ :=
    exists_apart hslash hv hlen hstack hu hle hdone hroot
  have hshape : slashed done ++ '/' :: (u ++ rest) = slashed (done' ++ [w']) ++ rest := by
    rw [hpath]
    simp
  rw [hshape, ← hnormal]
  rcases hu with hu | rfl
  · have hpos : (slashed done ++ '/' :: w).length = (slashed (done' ++ [w'])).length := by
      rw [hpath]
      simp [hu]
    rw [hpos]
    exact hloop (by simp) h'
  · obtain _ | fuel := fuel
    · exact fun he => by cases he
    · have hend : slashed (done' ++ [w']) ++ [] ≠ [] ∧
          (slashed (done' ++ [w']) ++ []).length ≤ (slashed done ++ '/' :: w).length + 1 := by
        rw [List.append_nil, hpath]
        refine ⟨List.append_ne_nil_of_right_ne_nil _ (List.cons_ne_nil _ _), ?_⟩
        simp only [List.length_append, List.length_cons]
        omega
      rw [realpathLoop, if_pos hend]
      exact fun he => h'.final (Except.ok.inj he)

/-- Once it has come apart from the normal form, the string does not become the normal form. -/
theorem Apart.loop (h : Apart done w t stack v) (fuel : Nat) :
    realpathLoop fuel (slashed (done ++ [w]) ++ t) (some (slashed (done ++ [w])).length) ≠
      .ok (absolute (normalFrom stack (v ++ t))) := by
  induction hn : t.length using Nat.strong_induction_on generalizing done w t stack v fuel with
  | _ n ih =>
  subst hn
  have hp : slashed (done ++ [w]) ≠ [] :=
    slashed_ne_nil (List.append_ne_nil_of_right_ne_nil _ (List.cons_ne_nil _ _))
  have hfinal := h.final
  obtain _ | fuel := fuel
  · exact fun he => by cases he
  by_cases hshort : t.length ≤ 1
  · rw [loop_end hp hshort]
    exact fun he => hfinal (Except.ok.inj he)
  obtain ⟨c, d, t, rfl⟩ : ∃ c d u, t = c :: d :: u := by
    match t, hshort with
    | c :: d :: u, _ => exact ⟨c, d, u, rfl⟩
    | [_], hshort => exact absurd (Nat.le_refl 1) hshort
    | [], hshort => exact absurd (Nat.zero_le 1) hshort
  by_cases hslash : d = '/'
  · subst hslash
    by_cases hc : c = '/'
    · subst hc
      by_cases hne : ∃ d ∈ t, d ≠ '/'
      · obtain ⟨h', hnormal⟩ := h.slashes
        rw [loop_slashes hne, ← hnormal]
        exact ih _ (Nat.lt_succ_self _) h' _ rfl
      · rw [loop_only_slashes fun d hd => by_contra fun hd' => hne ⟨d, hd, hd'⟩]
        exact fun he => by cases he
    · rw [loop_stray hc]
      exact fun he => by cases he
  -- the rest of a component that is left as it is
  have hnext : (d ≠ '.' ∨ ∃ e v, t = e :: v ∧ e ≠ '/' ∧ e ≠ '.') →
      realpathLoop (fuel + 1) (slashed (done ++ [w]) ++ c :: d :: t) (some (slashed (done ++ [w])).length) ≠
        .ok (absolute (normalFrom stack (v ++ c :: d :: t))) := by
    intro hother
    by_cases hmem : '/' ∈ d :: t
    · obtain ⟨s, u, hsu, hs⟩ := List.eq_append_cons_of_mem hmem
      obtain ⟨s, rfl⟩ : ∃ s', s = d :: s' := by
        cases s with
        | nil => exact absurd (List.cons.inj hsu).1 hslash
        | cons d' s => exact ⟨s, by rw [(List.cons.inj hsu).1]⟩
      obtain rfl : t = s ++ '/' :: u := (List.cons.inj hsu).2
      have hother' : d ≠ '.' ∨ ∃ e v, s = e :: v ∧ e ≠ '.' := by
        refine hother.imp_right ?_
        rintro ⟨e, v, hev, he, hdot⟩
        cases s with
        | nil => exact absurd (List.cons.inj hev).1.symm he
        | cons e' s =>
          obtain rfl := (List.cons.inj hev).1
          exact ⟨e', s, rfl, hdot⟩
      have hshape : c :: d :: (s ++ '/' :: u) = (c :: d :: s) ++ '/' :: u := rfl
      rw [hshape] at h
      obtain ⟨done', w', stack', v', h', hpath, hnormal⟩ := h.read (c :: d :: s)
      have hloop := ih _ (by simp; omega) h' fuel rfl
      rw [hpath, hnormal] at hloop
      rw [hshape, List.cons_append, loop_next hs hother']
      exact hloop
    · rw [loop_last hmem (hother.imp_right fun ⟨e, v, hev, _, hdot⟩ => ⟨e, v, hev, hdot⟩)]
      obtain _ | fuel := fuel
      · exact fun he => by cases he
      · exact fun he => hfinal (Except.ok.inj he)
  by_cases hdot : d = '.'
  · subst hdot
    by_cases ht : t = [] ∨ t.head? = some '/'
    · obtain ⟨v', h', hnormal⟩ := h.dot ht
      rw [loop_dot ht, ← hnormal]
      exact ih _ (Nat.lt_add_of_pos_right (n := t.length) Nat.zero_lt_two) h' _ rfl
    · obtain ⟨e, t, rfl⟩ := List.exists_cons_of_ne_nil fun hnil => ht (Or.inl hnil)
      have he : e ≠ '/' := fun he => ht (Or.inr (congrArg some he))
      by_cases hdots : e = '.'
      · subst hdots
        obtain ⟨stack', v', hlen, hv, hstack, hdone, hroot, hnormal⟩ := h.dots
        rw [slashed_concat, loop_dots h.text, ← hnormal]
        refine loop_skip_ne h.slashFree hv hlen hstack hdone (fun hd => (hroot hd).imp_right fun h _ => h) ?_
        intro done' w' t' stack' v' hshort h'
        exact ih _ (by simp only [List.length_cons]; omega) h' _ rfl
      · exact hnext (Or.inr ⟨e, t, rfl, he, hdots⟩)
  · exact hnext (Or.inl hdot)

end Apart

/-! ## Before the first `..` -/

section Start

variable {done comps : List Str} {c : Str} {fuel : Nat}

theorem slashed_head (comps : List Str) : slashed comps = [] ∨ (slashed comps).head? = some '/' := by
  cases comps with
  | nil => exact Or.inl rfl
  | cons c comps => exact Or.inr rfl

theorem slashed_only_slashes (h : ∀ c ∈ comps, c = []) : ∀ d ∈ slashed comps, d = '/' := by
  intro d hd
  obtain ⟨c, hc, hd⟩ := List.mem_flatMap.mp hd
  rw [h c hc] at hd
  exact List.mem_singleton.mp hd

theorem exists_not_slash (hcomps : ∀ c ∈ comps, '/' ∉ c) (h : ¬ ∀ c ∈ comps, c = []) :
    ∃ t, slashed comps = '/' :: t ∧ ∃ d ∈ t, d ≠ '/' := by
  obtain ⟨c, hc, hne⟩ : ∃ c ∈ comps, c ≠ [] := by simpa using h
  obtain ⟨d, c', rfl⟩ := List.exists_cons_of_ne_nil hne
  have hd : d ∈ slashed comps := List.mem_flatMap.mpr ⟨_, hc, by simp⟩
  have hslash : d ≠ '/' := by
    rintro rfl
    exact hcomps _ hc List.mem_cons_self
  cases comps with
  | nil => cases hc
  | cons a comps =>
    refine ⟨a ++ slashed comps, rfl, d, ?_, hslash⟩
    exact (List.mem_cons.mp hd).resolve_left hslash

theorem loop_le {path r : Str} {pos : Option Nat} (h : realpathLoop fuel path pos = .ok r) :
    r.length ≤ path.length := by
  have herase : ∀ {path q : Str} {pos : Nat} {n : Option Nat}, erase path pos n = .ok q →
      q.length ≤ path.length := by
    intro path q pos n h
    unfold erase at h
    split at h
    · cases h
    · split at h
      · cases h
        rw [List.length_append, List.length_take, List.length_drop]
        omega
      · cases h
        rw [List.length_take]
        omega
  have hslashes : ∀ {path q : Str} {pos : Nat}, eraseSlashes path pos = .ok q → q.length ≤ path.length := by
    intro path q pos h
    unfold eraseSlashes at h
    cases hc : charAt path (pos + 1) with
    | error e =>
      rw [hc] at h
      cases h
    | ok c =>
      rw [hc] at h
      simp only [bind, Except.bind] at h
      split at h
      · exact herase h
      · cases h
        exact le_rfl
  have hdots : ∀ {next : Str → Option Nat → Except Fault Str} {path q : Str} {pos : Nat},
      (∀ path q pos, next path pos = .ok q → q.length ≤ path.length) →
      handleDots next path pos = .ok q → q.length ≤ path.length := by
    intro next path q pos hnext h
    have hcut : ∀ {start : Nat} {n : Option Nat},
        ((erase path start n).bind fun path => next path (some pos)) = .ok q → q.length ≤ path.length := by
      intro start n h
      cases hq : erase path start n with
      | error e =>
        rw [hq] at h
        cases h
      | ok path' =>
        rw [hq] at h
        exact (hnext _ _ _ h).trans (herase hq)
    unfold handleDots at h
    cases h1 : charAt path (pos + 1) with
    | error e =>
      rw [h1] at h
      cases h
    | ok c =>
      rw [h1] at h
      cases h2 : charAt path (pos + 2) with
      | error e =>
        rw [h2] at h
        simp only [bind, Except.bind] at h
        split at h
        · cases h
        · exact hnext _ _ _ h
      | ok d =>
        rw [h2] at h
        simp only [bind, Except.bind] at h
        split at h
        · split at h
          · exact hcut h
          · split at h
            · exact hcut h
            · exact hnext _ _ _ h
        · exact hnext _ _ _ h
  induction fuel generalizing path pos r with
  | zero => cases h
  | succ fuel ih =>
    cases pos with
    | none =>
      cases h
      exact le_rfl
    | some pos =>
      unfold realpathLoop at h
      split at h
      · cases h
        exact le_rfl
      · cases hq : eraseSlashes path pos with
        | error e =>
          rw [hq] at h
          cases h
        | ok path' =>
          rw [hq] at h
          have h : handleDots (realpathLoop fuel) path' pos = .ok r := h
          exact (hdots (fun path q pos hq => ih hq) h).trans (hslashes hq)

/-- `/..` with more to come: the string is cut after its last slash, again and again. -/
theorem loop_endless {x y : Str} (hy : '/' ∉ y) (r : Str) :
    realpathLoop fuel ('/' :: '.' :: '.' :: x ++ '/' :: y) (some 0) ≠ .ok r := by
  induction fuel generalizing y with
  | zero => exact fun he => by cases he
  | succ fuel ih =>
    have hprev : previous ('/' :: '.' :: '.' :: (x ++ '/' :: y)) 0 = ('/' :: '.' :: '.' :: x).length + 1 :=
      afterLastSlash_append ('/' :: '.' :: '.' :: x) hy
    have herase : erase ('/' :: '.' :: '.' :: (x ++ '/' :: y)) (('/' :: '.' :: '.' :: x).length + 1) none =
        .ok ('/' :: '.' :: '.' :: x ++ '/' :: []) := by
      have h := erase_append ('/' :: '.' :: '.' :: x ++ ['/']) y 0 none
      rw [List.append_assoc, Nat.add_zero, List.length_append] at h
      refine h.trans ?_
      simp [erase, Except.map]
    have hminus : minus 3 (('/' :: '.' :: '.' :: x).length + 1) = none := by
      unfold minus
      rw [if_neg]
      simp only [List.length_cons]
      omega
    have hbody := @loop_body [] ('/' :: '.' :: '.' :: (x ++ '/' :: y)) fuel (by simp)
    rw [eraseSlashes_single (by decide)] at hbody
    have hloop := hbody.trans (handleDots_dots (p := []) (c := '/') (t := x ++ '/' :: y))
    simp only [List.nil_append, List.length_nil, Nat.zero_add] at hloop
    rw [hprev, hminus, herase] at hloop
    intro he
    exact ih List.not_mem_nil (hloop.symm.trans he)

theorem exists_fuel_succ {path path' r : Str} {pos pos' : Option Nat}
    (h : ∀ fuel, realpathLoop (fuel + 1) path pos = realpathLoop fuel path' pos') :
    (∃ fuel, realpathLoop fuel path pos = .ok r) ↔ ∃ fuel, realpathLoop fuel path' pos' = .ok r := by
  constructor
  · rintro ⟨fuel, hr⟩
    cases fuel with
    | zero => cases hr
    | succ fuel => exact ⟨fuel, (h fuel).symm.trans hr⟩
  · rintro ⟨fuel, hr⟩
    exact ⟨fuel + 1, (h fuel).trans hr⟩

/-- Nothing but slashes is left. -/
theorem loop_slashes_iff (hdone : ∀ c ∈ done, Component c) (hall : ∀ c ∈ comps, c = []) :
    (∃ fuel, realpathLoop fuel (slashed done ++ '/' :: slashed comps) (some (slashed done).length) =
        .ok (absolute done)) ↔ done.length = 0 ∧ comps = [] := by
  cases comps with
  | nil =>
    by_cases hnil : done = []
    · subst hnil
      exact iff_of_true ⟨1, rfl⟩ ⟨rfl, rfl⟩
    · refine iff_of_false ?_ fun h => hnil (List.length_eq_zero_iff.mp h.1)
      rintro ⟨fuel, h⟩
      cases fuel with
      | zero => cases h
      | succ fuel =>
        rw [loop_end (slashed_ne_nil hnil) (by simp)] at h
        have hslash : ∀ c ∈ done ++ [[]], '/' ∉ c := by
          intro c hc
          rcases List.mem_append.mp hc with hc | hc
          · exact (hdone c hc).slashFree
          · rw [List.mem_singleton.mp hc]
            exact List.not_mem_nil
        refine slashed_ne_absolute hdone hslash ?_ (by simp) ((slashed_concat done []).trans (Except.ok.inj h))
        simpa using hnil
  | cons c comps =>
    refine iff_of_false ?_ fun h => List.cons_ne_nil _ _ h.2
    rintro ⟨fuel, h⟩
    obtain rfl := hall c List.mem_cons_self
    have hslashes := slashed_only_slashes fun d hd => hall d (List.mem_cons_of_mem _ hd)
    cases fuel with
    | zero => cases h
    | succ fuel =>
      have hloop := @loop_only_slashes (slashed done) fuel _ hslashes
      cases hloop.symm.trans h

/-- A component that begins with `..`. -/
theorem loop_dots_iff {x : Str} (hdone : ∀ c ∈ done, Component c) (hx : '/' ∉ x)
    (hcomps : ∀ c ∈ comps, '/' ∉ c) :
    (∃ fuel, realpathLoop fuel (slashed done ++ '/' :: '.' :: '.' :: (x ++ slashed comps))
          (some (slashed done).length) =
        .ok (absolute (comps.foldl push (push done ('.' :: '.' :: x))))) ↔
      '.' :: '.' :: x = lit ".." ∧ comps = [] ∧ done.length ≤ 1 := by
  have hv : '/' ∉ '.' :: '.' :: x := by simp [hx]
  have hnormal : comps.foldl push (push done ('.' :: '.' :: x)) =
      normalFrom done (lit ".." ++ (x ++ slashed comps)) := (normalFrom_slashed hv hcomps).symm
  rcases List.eq_nil_or_concat done with rfl | ⟨done, w, rfl⟩
  · rcases List.eq_nil_or_concat comps with rfl | ⟨comps, y, rfl⟩
    · by_cases hnil : x = []
      · subst hnil
        exact iff_of_true ⟨2, rfl⟩ ⟨rfl, rfl, Nat.zero_le 1⟩
      · refine iff_of_false ?_ fun h => hnil (List.cons.inj (List.cons.inj h.1).2).2
        rintro ⟨fuel, h⟩
        cases fuel with
        | zero => cases h
        | succ fuel =>
          have hloop : realpathLoop (fuel + 1) ('/' :: '.' :: '.' :: x) (some 0) =
              realpathLoop fuel ('/' :: x) (some 0) := by
            have hprev : previous ('/' :: '.' :: '.' :: x) 0 = 1 := afterLastSlash_append [] hv
            have hbody := @loop_body [] ('/' :: '.' :: '.' :: x) fuel (by simp)
            rw [eraseSlashes_single (by decide)] at hbody
            have h := hbody.trans (handleDots_dots (p := []) (c := '/') (t := x))
            simp only [List.nil_append, List.length_nil, Nat.zero_add] at h
            rw [hprev] at h
            exact h
          have hpos := List.length_pos_iff.mpr hnil
          have hc : Component ('.' :: '.' :: x) :=
            component_of_length hv (by simp only [List.length_cons]; omega)
          rw [push_component hc] at h
          simp only [slashed_nil, List.nil_append, List.append_nil, List.length_nil] at h
          have hle := loop_le (hloop.symm.trans h)
          have hlen : (slashed ['.' :: '.' :: x]).length = x.length + 3 := by simp [slashed]
          rw [List.foldl_nil, absolute_eq, if_neg (List.cons_ne_nil _ _), hlen,
            List.length_cons] at hle
          omega
    · refine iff_of_false ?_ (by simp)
      rintro ⟨fuel, h⟩
      have hy : '/' ∉ y := hcomps y (by simp)
      have hpath : slashed [] ++ '/' :: '.' :: '.' :: (x ++ slashed (comps ++ [y])) =
          '/' :: '.' :: '.' :: (x ++ slashed comps) ++ '/' :: y := by
        rw [slashed_concat]
        simp
      rw [List.concat_eq_append, hpath] at h
      exact loop_endless hy _ h
  · rw [List.concat_eq_append] at hdone hnormal ⊢
    have hdone0 : ∀ c ∈ done, Component c := fun c hc => hdone c (List.mem_append_left _ hc)
    have hw : Component w := hdone w (List.mem_append_right _ (List.mem_singleton_self w))
    rw [hnormal, slashed_concat, exists_fuel_succ fun fuel => loop_dots hw.slashFree]
    by_cases hok : '.' :: '.' :: x = lit ".." ∧ comps = [] ∧ (done ++ [w]).length ≤ 1
    · obtain ⟨hx, rfl, hlen⟩ := hok
      obtain rfl : x = [] := (List.cons.inj (List.cons.inj hx).2).2
      obtain rfl : done = [] := by
        rw [List.length_append, List.length_singleton] at hlen
        exact List.length_eq_zero_iff.mp (by omega)
      refine iff_of_true ⟨1, ?_⟩ ⟨rfl, rfl, le_rfl⟩
      rw [← hnormal]
      rfl
    · refine iff_of_false ?_ hok
      rintro ⟨fuel, h⟩
      refine @loop_skip_ne done (done ++ [w]) w _ (lit "..") fuel
        (fun c hc => (hdone0 c hc).slashFree) (by decide) le_rfl hdone (fun h => absurd h hw.ne_nil) ?_
        (fun _ h => h.loop fuel) h
      rintro rfl
      refine ⟨List.cons_ne_nil _ _, fun ht => absurd ?_ hok⟩
      obtain ⟨rfl, hcomps⟩ := List.append_eq_nil_iff.mp ht
      exact ⟨rfl, by_contra fun h => slashed_ne_nil h hcomps, le_rfl⟩

/-- A component that stays. -/
theorem loop_component {d : Char} {s : Str} (hs : '/' ∉ d :: s) (h : d ≠ '.' ∨ ∃ e v, s = e :: v ∧ e ≠ '.')
    (hcomps : comps ≠ []) (fuel : Nat) :
    realpathLoop (fuel + 1) (slashed done ++ '/' :: (d :: s ++ slashed comps)) (some (slashed done).length) =
      realpathLoop fuel (slashed (done ++ [d :: s]) ++ slashed comps)
        (some (slashed (done ++ [d :: s])).length) := by
  obtain ⟨b, comps, rfl⟩ := List.exists_cons_of_ne_nil hcomps
  rw [slashed_concat]
  exact loop_next hs h

/-- The string is the components `done` and, from the position on, the components `comps`. -/
theorem loop_iff (hdone : ∀ c ∈ done, Component c) (hcomps : ∀ c ∈ comps, '/' ∉ c) :
    (∃ fuel, realpathLoop fuel (slashed done ++ slashed comps) (some (slashed done).length) =
        .ok (absolute (comps.foldl push done))) ↔ Handled done.length comps := by
  induction comps generalizing done with
  | nil =>
    by_cases hnil : done = []
    · subst hnil
      refine iff_of_false ?_ (lt_irrefl 0)
      rintro ⟨fuel, h⟩
      cases fuel with
      | zero => cases h
      | succ fuel => cases h
    · refine iff_of_true ⟨1, ?_⟩ (List.length_pos_iff.mpr hnil)
      rw [loop_end (slashed_ne_nil hnil) (by simp), slashed_nil, List.append_nil, List.foldl_nil,
        absolute_eq, if_neg hnil]
  | cons c comps ih =>
    have hc : '/' ∉ c := hcomps c List.mem_cons_self
    have hrest : ∀ d ∈ comps, '/' ∉ d := fun d hd => hcomps d (List.mem_cons_of_mem c hd)
    have hshape : slashed done ++ slashed (c :: comps) = slashed done ++ '/' :: (c ++ slashed comps) := rfl
    rw [hshape, List.foldl_cons, Handled]
    by_cases hempty : c = []
    · subst hempty
      rw [if_pos rfl, push_nil, List.nil_append]
      by_cases hall : ∀ c ∈ comps, c = []
      · have hfold : comps.foldl push done = done := by
          clear ih hcomps hrest hshape
          induction comps with
          | nil => rfl
          | cons c comps ih =>
            rw [List.foldl_cons, hall c List.mem_cons_self, push_nil]
            exact ih fun d hd => hall d (List.mem_cons_of_mem _ hd)
        rw [if_pos hall, hfold]
        exact loop_slashes_iff hdone hall
      · obtain ⟨t, ht, hne⟩ := exists_not_slash hrest hall
        rw [if_neg hall, ← ih hdone hrest, ht]
        apply exists_congr
        intro fuel
        cases fuel with
        | zero => exact Iff.rfl
        | succ fuel => rw [loop_slashes hne]
    rw [if_neg hempty]
    by_cases hdot : c = lit "."
    · subst hdot
      rw [if_pos rfl, push_dot, ← ih hdone hrest]
      exact exists_fuel_succ fun fuel => loop_dot (slashed_head comps)
    rw [if_neg hdot]
    by_cases hdots : lit ".." <+: c
    · rw [if_pos hdots]
      obtain ⟨x, rfl⟩ := hdots
      exact loop_dots_iff hdone (fun hx => hc (List.mem_append_right _ hx)) hrest
    · rw [if_neg hdots]
      have hcomp : Component c := ⟨hempty, hdot, fun h => hdots (h ▸ List.prefix_rfl), hc⟩
      obtain ⟨d, s, rfl⟩ := List.exists_cons_of_ne_nil hempty
      have hother : d ≠ '.' ∨ ∃ e v, s = e :: v ∧ e ≠ '.' := by
        by_cases hd : d = '.'
        · subst hd
          cases s with
          | nil => exact absurd rfl hdot
          | cons e v =>
            refine Or.inr ⟨e, v, rfl, ?_⟩
            rintro rfl
            exact hdots (List.prefix_append (lit "..") v)
        · exact Or.inl hd
      have hdone' : ∀ c ∈ done ++ [d :: s], Component c := by
        rw [← push_component hcomp]
        exact components_push hdone hc
      rw [push_component hcomp]
      by_cases hnil : comps = []
      · subst hnil
        refine iff_of_true ⟨2, ?_⟩ (Nat.succ_pos _)
        rw [slashed_nil, List.append_nil, loop_last hc hother, List.foldl_nil, absolute_eq,
          if_neg (by simp), slashed_concat]
        rfl
      · rw [exists_fuel_succ (loop_component hc hother hnil), ih hdone' hrest, List.length_append,
          List.length_singleton]

end Start

/-! ## Whole paths -/

theorem slashed_splitOn (rest : Str) : slashed (rest.splitOn '/') = '/' :: rest := by
  induction rest with
  | nil => rfl
  | cons c rest ih =>
    rw [List.splitOn_cons_eq_if_modifyHead]
    by_cases hc : c = '/'
    · subst hc
      rw [if_pos (beq_self_eq_true _)]
      exact congrArg ('/' :: ·) ih
    · obtain ⟨w, comps, hsplit⟩ := List.exists_cons_of_ne_nil (List.splitOn_ne_nil '/' rest)
      rw [hsplit] at ih
      rw [if_neg (by simpa using hc), hsplit, List.modifyHead_cons]
      exact congrArg (fun s => '/' :: c :: s) (List.cons.inj ih).2

theorem slashFree_splitOn (rest : Str) : ∀ c ∈ rest.splitOn '/', '/' ∉ c := by
  induction rest with
  | nil => simp
  | cons c rest ih =>
    rw [List.splitOn_cons_eq_if_modifyHead]
    by_cases hc : c = '/'
    · rw [if_pos (by simpa using hc)]
      intro w hw
      rcases List.mem_cons.mp hw with rfl | hw
      · exact List.not_mem_nil
      · exact ih w hw
    · obtain ⟨w, comps, hsplit⟩ := List.exists_cons_of_ne_nil (List.splitOn_ne_nil '/' rest)
      rw [hsplit] at ih
      rw [if_neg (by simpa using hc), hsplit, List.modifyHead_cons]
      intro w' hw'
      rcases List.mem_cons.mp hw' with rfl | hw'
      · simp [Ne.symm hc, ih w List.mem_cons_self]
      · exact ih w' (List.mem_cons_of_mem _ hw')

/-- `_realpath` gives the normal form of an absolute path if and only if the components are as
    `Handled` says. -/
theorem realpath_normal_iff (cwd : Str) {path : Str} (habs : path.head? = some '/') :
    (∃ fuel, realpath cwd fuel path = .ok (normalForm path)) ↔ Handled 0 (path.tail.splitOn '/') := by
  obtain ⟨rest, rfl⟩ := List.head?_eq_some_iff.mp habs
  have hslash := slashFree_splitOn rest
  have hnormal : normalForm ('/' :: rest) = absolute ((rest.splitOn '/').foldl push []) := by
    have h := @normalFrom_slash [] [] List.not_mem_nil rest
    exact congrArg absolute h
  have hiff := @loop_iff [] _ (by simp) hslash
  rw [slashed_nil, List.nil_append, slashed_splitOn, ← hnormal] at hiff
  exact hiff

theorem realpath_normal_iff_dots :
    (∃ fuel, realpath [] fuel (lit "/a//./b") = .ok (normalForm (lit "/a//./b"))) ↔
      Handled 0 [lit "a", [], lit ".", lit "b"] :=
  realpath_normal_iff [] rfl

/-- In `/a/../b` the position is past the second slash when the first component is gone: the result
    is `//b`. -/
theorem realpath_not_normal : ¬ ∀ (cwd path : Str), path.head? = some '/' →
    ∃ fuel, realpath cwd fuel path = .ok (normalForm path) := by
  intro h
  obtain ⟨fuel, hfuel⟩ := h [] (lit "/a/../b") rfl
  match fuel, hfuel with
  | 0, hfuel => cases hfuel
  | 1, hfuel => cases hfuel
  | 2, hfuel => cases hfuel
  | fuel + 3, hfuel =>
    have hrun : realpath [] (fuel + 3) (lit "/a/../b") = .ok (lit "//b") := rfl
    have hnormal : normalForm (lit "/a/../b") = lit "/b" := by decide +kernel
    rw [hrun, hnormal] at hfuel
    exact absurd (Except.ok.inj hfuel) (by decide)

end HFlat.Intercept
