/-
  Reading a sorted set page by page from several sources. A page collects the first `m` keys above
  the start key from each source, sorts them and keeps the first `m`; the last key of a full page
  is the start key of the next one.

  A source may be read once, several times or not at all. `Paged` says how often each key has to
  be read for the pages to give every key exactly once (`scan_once_iff`): once, and for the last
  key of a full page at least once, since the copies after it are cut off.
-/
import Mathlib.Data.List.Sort

namespace HFlat.Lib

variable {α : Type*}

/-! ## Definitions -/

/-- How many sources have the key. -/
def reads [LinearOrder α] (runs : List (List α)) (k : α) : Nat := runs.countP (k ∈ ·)

/-- The first `m` keys of the sources together. -/
def page [LinearOrder α] (m : Nat) (runs : List (List α)) : List α :=
  ((runs.map (List.take m)).flatten.insertionSort (· ≤ ·)).take m

/-- The keys above `start`. -/
def above [LinearOrder α] (start : α) (keys : List α) : List α := keys.filter (start < ·)

/-- All pages from `start` on, until one is not full. -/
def scan (pages : α → List α) (m : Nat) : Nat → α → Option (List α)
  | 0, _ => none
  | fuel + 1, start =>
      if (pages start).length = m then
        (scan pages m fuel ((pages start).getLastD start)).map (pages start ++ ·)
      else some (pages start)

/-- The counts of the next `n` keys: one for each, and at least one for the last of them. -/
def First (c : α → Nat) : Nat → List α → Prop
  | 0, _ => True
  | _, [] => True
  | n + 1, k :: ks => (if n = 0 then 0 < c k else c k = 1) ∧ First c n ks

/-- `First` for every page of `m` keys. The page begins above `start` and already has `i` keys. -/
def Paged (c : α → α → Nat) (m : Nat) : α → Nat → List α → Prop
  | _, _, [] => True
  | start, i, k :: ks =>
      if i + 1 = m then 0 < c start k ∧ Paged c m k 0 ks
      else c start k = 1 ∧ Paged c m start (i + 1) ks

/-! ## Counts -/

theorem getLastD_mem {l : List α} {d : α} (h : 0 < l.length) : l.getLastD d ∈ l := by
  rw [List.getLastD_eq_getLast?, List.getLast?_eq_getLast_of_ne_nil (List.ne_nil_of_length_pos h)]
  exact List.getLast_mem _

theorem mem_take_of_sublist {n : Nat} {k : α} {run ks : List α} (h : run.Sublist ks) (hks : ks.Nodup)
    (hk : k ∈ ks.take n) (hrun : k ∈ run) : k ∈ run.take n := by
  induction h generalizing n with
  | slnil => simp at hrun
  | @cons run ks x h ih =>
    obtain ⟨hx, hks⟩ := List.nodup_cons.mp hks
    cases n with
    | zero => simp at hk
    | succ n =>
      rw [List.take_succ_cons] at hk
      rcases List.mem_cons.mp hk with rfl | hk
      · exact absurd (h.subset hrun) hx
      · exact List.take_subset_take_left _ (Nat.le_succ n) (ih hks hk hrun)
  | @cons_cons run ks x h ih =>
    obtain ⟨hx, hks⟩ := List.nodup_cons.mp hks
    cases n with
    | zero => simp at hk
    | succ n =>
      rw [List.take_succ_cons] at hk ⊢
      rcases List.mem_cons.mp hk with rfl | hk
      · exact List.mem_cons_self
      · rcases List.mem_cons.mp hrun with rfl | hrun
        · exact List.mem_cons_self
        · exact List.mem_cons_of_mem _ (ih hks hk hrun)

@[simp] theorem first_nil (c : α → Nat) (n : Nat) : First c n [] := by
  cases n with
  | zero => trivial
  | succ n => trivial

theorem first_congr {c c' : α → Nat} {n : Nat} {ks : List α} (h : ∀ k ∈ ks.take n, c k = c' k) :
    First c n ks ↔ First c' n ks := by
  induction ks generalizing n with
  | nil => simp
  | cons k ks ih =>
    cases n with
    | zero => exact Iff.rfl
    | succ n =>
      rw [List.take_succ_cons] at h
      unfold First
      rw [h k List.mem_cons_self, ih fun k' hk' => h k' (List.mem_cons_of_mem _ hk')]

theorem paged_iff {c : α → α → Nat} {m n i : Nat} {start d : α} {ks : List α} (hn : 0 < n)
    (hi : i + n = m) :
    Paged c m start i ks ↔ First (c start) n ks ∧
      (n ≤ ks.length → Paged c m ((ks.take n).getLastD d) 0 (ks.drop n)) := by
  induction ks generalizing n i d with
  | nil => simp [Paged]
  | cons k ks ih =>
    obtain ⟨n, rfl⟩ := Nat.exists_eq_succ_of_ne_zero hn.ne'
    rw [Paged, First, List.take_succ_cons, List.drop_succ_cons, List.getLastD_cons]
    by_cases h0 : n = 0
    · subst h0
      rw [if_pos hi, if_pos rfl]
      simp [First]
    · rw [if_neg (by omega), if_neg h0, @ih n (i + 1) k (by omega) (by omega), and_assoc]
      simp only [List.length_cons, Nat.succ_eq_add_one, Nat.add_le_add_iff_right]

theorem paged_congr [Preorder α] {c c' : α → α → Nat} {m i : Nat} {start : α} {ks : List α}
    (hks : ks.Pairwise (· < ·)) (hstart : ∀ k ∈ ks, start < k)
    (h : ∀ k ∈ ks, ∀ s, s < k → s = start ∨ s ∈ ks → c s k = c' s k) :
    Paged c m start i ks ↔ Paged c' m start i ks := by
  induction ks generalizing start i with
  | nil => exact Iff.rfl
  | cons k ks ih =>
    obtain ⟨hk, hks⟩ := List.pairwise_cons.mp hks
    have htail : ∀ s, s = start ∨ s = k → ∀ k' ∈ ks, ∀ s', s' < k' → s' = s ∨ s' ∈ ks → c s' k' = c' s' k' := by
      rintro s hs k' hk' s' hlt (rfl | hs')
      · apply h k' (List.mem_cons_of_mem _ hk') s' hlt
        rcases hs with rfl | rfl
        · exact Or.inl rfl
        · exact Or.inr List.mem_cons_self
      · exact h k' (List.mem_cons_of_mem _ hk') s' hlt (Or.inr (List.mem_cons_of_mem _ hs'))
    unfold Paged
    rw [h k List.mem_cons_self start (hstart k List.mem_cons_self) (Or.inl rfl),
      ih hks hk (htail k (Or.inr rfl)),
      ih hks (fun k' hk' => hstart k' (List.mem_cons_of_mem _ hk')) (htail start (Or.inl rfl))]

/-- Keys that are always read once are read as often as needed. -/
theorem paged_of_once {c : α → α → Nat} {m i : Nat} {start : α} {ks : List α}
    (h : ∀ k ∈ ks, ∀ s, s = start ∨ s ∈ ks → c s k = 1) : Paged c m start i ks := by
  induction ks generalizing start i with
  | nil => trivial
  | cons k ks ih =>
    have hk := h k List.mem_cons_self start (Or.inl rfl)
    unfold Paged
    split
    · refine ⟨by omega, ih fun k' hk' s hs => h k' (List.mem_cons_of_mem _ hk') s ?_⟩
      exact Or.inr (List.mem_cons.mpr hs)
    · refine ⟨hk, ih fun k' hk' s hs => h k' (List.mem_cons_of_mem _ hk') s ?_⟩
      exact hs.imp_right (List.mem_cons_of_mem _)

/-- On the first page only its own start key counts. -/
theorem paged_of_page {c : α → α → Nat} {m i : Nat} {start : α} {ks : List α} (hm : i + ks.length ≤ m)
    (h : ∀ k ∈ ks, c start k = 1) : Paged c m start i ks := by
  induction ks generalizing i with
  | nil => trivial
  | cons k ks ih =>
    have hk := h k List.mem_cons_self
    rw [List.length_cons] at hm
    unfold Paged
    split
    · have hnil : ks = [] := List.eq_nil_of_length_eq_zero (by omega)
      subst hnil
      exact ⟨by omega, trivial⟩
    · exact ⟨hk, ih (by omega) fun k' hk' => h k' (List.mem_cons_of_mem _ hk')⟩

/-! ## Pages and the keys above them -/

section Order

variable [LinearOrder α] {m fuel : Nat} {keys ks : List α} {start : α} {runs : List (List α)}
  {sources : α → List (List α)}

theorem mem_above {s k : α} : k ∈ above s keys ↔ k ∈ keys ∧ s < k := by
  simp [above]

theorem pairwise_above (hkeys : keys.Pairwise (· < ·)) : (above start keys).Pairwise (· < ·) :=
  hkeys.filter _

theorem above_above {last : α} (h : start ≤ last) :
    above last (above start keys) = above last keys := by
  unfold above
  rw [List.filter_filter]
  apply List.filter_congr
  intro x _
  by_cases hx : last < x
  · simp [hx, lt_of_le_of_lt h hx]
  · simp [hx]

theorem above_last {n : Nat} {d : α} {ks : List α} (hks : ks.Pairwise (· < ·)) (hn : 0 < n)
    (hle : n ≤ ks.length) : above ((ks.take n).getLastD d) ks = ks.drop n := by
  induction ks generalizing n d with
  | nil => simp [above]
  | cons k ks ih =>
    obtain ⟨hk, hks⟩ := List.pairwise_cons.mp hks
    obtain ⟨n, rfl⟩ := Nat.exists_eq_succ_of_ne_zero hn.ne'
    rw [List.take_succ_cons, List.drop_succ_cons, List.getLastD_cons, above]
    rw [List.length_cons] at hle
    by_cases h0 : n = 0
    · subst h0
      rw [List.take_zero, List.getLastD_nil, List.filter_cons_of_neg (by simp), List.drop_zero]
      exact List.filter_eq_self.mpr fun x hx => decide_eq_true (hk x hx)
    · have hlast : k < (ks.take n).getLastD k :=
        hk _ (List.mem_of_mem_take (getLastD_mem (by rw [List.length_take]; omega)))
      rw [List.filter_cons_of_neg (by rw [decide_eq_true_iff]; exact hlast.not_gt)]
      exact ih hks (by omega) (by omega)

/-- What is above a key is less than what is above everything below that key. -/
theorem length_above_lt {last : α} (hlast : last ∈ above start keys) :
    (above last keys).length < (above start keys).length := by
  have hlt : start < last := (mem_above.mp hlast).2
  rw [← above_above hlt.le]
  apply List.length_filter_lt_length_iff_exists.mpr
  exact ⟨last, hlast, by simp⟩

theorem le_getLastD {l : List α} {d x : α} (hl : l.Pairwise (· ≤ ·)) (hx : x ∈ l) : x ≤ l.getLastD d := by
  induction l generalizing d with
  | nil => exact absurd hx List.not_mem_nil
  | cons y l ih =>
    obtain ⟨hy, hl⟩ := List.pairwise_cons.mp hl
    rw [List.getLastD_cons]
    rcases List.mem_cons.mp hx with rfl | hx
    · cases l with
      | nil => exact le_rfl
      | cons z l => exact hy _ (getLastD_mem (Nat.succ_pos _))
    · exact ih hl hx

theorem pairwise_page : (page m runs).Pairwise (· ≤ ·) :=
  (List.pairwise_insertionSort (· ≤ ·) _).sublist (List.take_sublist _ _)

theorem length_page_le : (page m runs).length ≤ m := List.length_take_le _ _

theorem mem_of_mem_page {k : α} (hruns : ∀ run ∈ runs, run.Sublist ks) (hk : k ∈ page m runs) :
    k ∈ ks := by
  have h := (List.mem_insertionSort (· ≤ ·)).mp (List.mem_of_mem_take hk)
  obtain ⟨l, hl, hk⟩ := List.mem_flatten.mp h
  obtain ⟨run, hrun, rfl⟩ := List.mem_map.mp hl
  exact (hruns run hrun).subset (List.mem_of_mem_take hk)

/-- Enough fuel reads all pages. -/
theorem scan_returns (start : α) (hm : 0 < m) (hruns : ∀ s, ∀ run ∈ sources s, run.Sublist (above s keys))
    (hfuel : (above start keys).length < fuel) :
    ∃ out, scan (fun s => page m (sources s)) m fuel start = some out ∧
      ∀ k ∈ out, k ∈ above start keys := by
  induction fuel generalizing start with
  | zero => omega
  | succ fuel ih =>
    have hpage : ∀ k ∈ page m (sources start), k ∈ above start keys :=
      fun k hk => mem_of_mem_page (hruns start) hk
    unfold scan
    split
    · rename_i hfull
      have hlast := hpage _ (getLastD_mem (d := start) (hfull.symm ▸ hm))
      have hlt := length_above_lt hlast
      obtain ⟨out, hout, hmem⟩ := ih ((page m (sources start)).getLastD start) (by omega)
      refine ⟨page m (sources start) ++ out, by rw [hout]; rfl, ?_⟩
      intro k hk
      rcases List.mem_append.mp hk with hk | hk
      · exact hpage k hk
      · have hle : start ≤ (page m (sources start)).getLastD start := by
          have h := (mem_above.mp hlast).2
          exact h.le
        have hk := hmem k hk
        rw [← above_above hle] at hk
        exact List.mem_of_mem_filter hk
    · exact ⟨_, rfl, hpage⟩

/-- A single source gives all its keys in their order. -/
theorem scan_take (start : α) (hm : 0 < m) (hkeys : keys.Pairwise (· < ·))
    (hfuel : (above start keys).length < fuel) :
    scan (fun s => (above s keys).take m) m fuel start = some (above start keys) := by
  induction fuel generalizing start with
  | zero => omega
  | succ fuel ih =>
    unfold scan
    split
    · rename_i hfull
      have hlen : m ≤ (above start keys).length := by
        rw [List.length_take] at hfull
        omega
      have hlast : ((above start keys).take m).getLastD start ∈ above start keys :=
        List.mem_of_mem_take (getLastD_mem (hfull.symm ▸ hm))
      have hlt := length_above_lt hlast
      have hrest : above (((above start keys).take m).getLastD start) keys = (above start keys).drop m := by
        rw [← above_above (mem_above.mp hlast).2.le]
        exact above_last (pairwise_above hkeys) hm hlen
      rw [ih _ (by omega), hrest, Option.map_some, List.take_append_drop]
    · rename_i hnot
      rw [List.length_take] at hnot
      rw [List.take_of_length_le (by omega)]

end Order

/-! ## One page -/

section Count

variable [LinearOrder α] [BEq α] [LawfulBEq α] {m fuel : Nat} {keys ks : List α}
  {runs : List (List α)} {sources : α → List (List α)}

/-- A sorted list begins with `k` if `k` is in it and none of its keys is below `k`. -/
theorem exists_eq_cons {k : α} {l : List α} (hl : l.Pairwise (· ≤ ·)) (hk : 0 < l.count k)
    (hle : ∀ x ∈ l, k ≤ x) : ∃ l', l = k :: l' := by
  cases l with
  | nil => simp at hk
  | cons x l =>
    have hx : x ≤ k := by
      rcases List.mem_cons.mp (List.count_pos_iff.mp hk) with rfl | hmem
      · exact le_rfl
      · exact (List.pairwise_cons.mp hl).1 k hmem
    exact ⟨l, by rw [le_antisymm hx (hle x List.mem_cons_self)]⟩

theorem take_eq_take_iff {n : Nat} {l ks : List α} (hl : l.Pairwise (· ≤ ·))
    (hks : ks.Pairwise (· < ·)) (hsub : ∀ x ∈ l, x ∈ ks) :
    l.take n = ks.take n ↔ First l.count n ks := by
  induction ks generalizing n l with
  | nil =>
    have hnil : l = [] := List.eq_nil_iff_forall_not_mem.mpr fun x hx => List.not_mem_nil (hsub x hx)
    simp [hnil]
  | cons k ks ih =>
    cases n with
    | zero => simp [First]
    | succ n =>
      obtain ⟨hk, hks⟩ := List.pairwise_cons.mp hks
      have hle : ∀ x ∈ l, k ≤ x := by
        intro x hx
        rcases List.mem_cons.mp (hsub x hx) with rfl | hx
        · exact le_rfl
        · exact (hk x hx).le
      by_cases hmem : 0 < l.count k
      · obtain ⟨l, rfl⟩ := exists_eq_cons hl hmem hle
        rw [List.take_succ_cons, List.take_succ_cons, List.cons_inj_right, First]
        by_cases h0 : n = 0
        · subst h0
          simp [First]
        · rw [if_neg h0, List.count_cons_self]
          by_cases hcount : l.count k = 0
          · -- the key once, the rest by induction
            have hsub' : ∀ x ∈ l, x ∈ ks := by
              intro x hx
              rcases List.mem_cons.mp (hsub x (List.mem_cons_of_mem _ hx)) with rfl | hx'
              · exact absurd (List.count_pos_iff.mpr hx) (by omega)
              · exact hx'
            have hcongr : First (fun x => (k :: l).count x) n ks ↔ First l.count n ks := by
              apply first_congr
              intro x hx
              exact List.count_cons_of_ne (hk x (List.mem_of_mem_take hx)).ne
            rw [ih (List.pairwise_cons.mp hl).2 hks hsub', hcount, hcongr]
            simp
          · -- the key twice: the second copy is where the next key should be
            have hnot : ¬ l.take n = ks.take n := by
              intro h
              obtain ⟨l', rfl⟩ := exists_eq_cons (List.pairwise_cons.mp hl).2 (Nat.pos_of_ne_zero hcount)
                fun x hx => hle x (List.mem_cons_of_mem _ hx)
              obtain ⟨n, rfl⟩ := Nat.exists_eq_succ_of_ne_zero h0
              have hmem : k ∈ ks.take (n + 1) := by
                rw [← h]
                exact List.mem_cons_self
              exact absurd (hk k (List.mem_of_mem_take hmem)) (lt_irrefl k)
            constructor
            · intro h
              exact absurd h hnot
            · rintro ⟨h, -⟩
              omega
      · -- the key is missing
        constructor
        · intro h
          have hk' : k ∈ l.take (n + 1) := by
            rw [h]
            exact List.mem_cons_self
          exact absurd (List.count_pos_iff.mpr (List.mem_of_mem_take hk')) hmem
        · intro h
          have h1 := h.1
          split at h1
          · exact absurd h1 hmem
          · exact absurd (Nat.lt_of_lt_of_eq Nat.zero_lt_one h1.symm) hmem

theorem count_flatten_take {n : Nat} {k : α} {runs : List (List α)} {ks : List α} (hks : ks.Nodup)
    (hruns : ∀ run ∈ runs, run.Sublist ks) (hk : k ∈ ks.take n) :
    (runs.map (List.take n)).flatten.count k = reads runs k := by
  unfold reads
  induction runs with
  | nil => rfl
  | cons run runs ih =>
    have hrun := hruns run List.mem_cons_self
    have hnodup : (run.take n).Nodup := (hrun.nodup hks).sublist (List.take_sublist _ _)
    rw [List.map_cons, List.flatten_cons, List.count_append,
      ih fun r hr => hruns r (List.mem_cons_of_mem _ hr), List.countP_cons, Nat.add_comm]
    by_cases hmem : k ∈ run
    · rw [List.count_eq_one_of_mem hnodup (mem_take_of_sublist hrun hks hk hmem), if_pos (by simpa)]
    · rw [List.count_eq_zero_of_not_mem fun h => hmem (List.mem_of_mem_take h), if_neg (by simpa)]

/-- A page is right if its keys are read as often as `First` says. -/
theorem page_eq_iff (hks : ks.Pairwise (· < ·)) (hruns : ∀ run ∈ runs, run.Sublist ks) :
    page m runs = ks.take m ↔ First (reads runs) m ks := by
  unfold page
  rw [take_eq_take_iff (List.pairwise_insertionSort _ _) hks, first_congr fun k hk => ?_]
  · rw [(List.perm_insertionSort _ _).count_eq,
      count_flatten_take (hks.imp fun h => h.ne) hruns hk]
  · intro x hx
    obtain ⟨l, hl, hx⟩ := List.mem_flatten.mp ((List.mem_insertionSort (· ≤ ·)).mp hx)
    obtain ⟨run, hrun, rfl⟩ := List.mem_map.mp hl
    exact (hruns run hrun).subset (List.mem_of_mem_take hx)

/-! ## All pages -/

/-- A sorted first part of a list that has every key of `ks` once is a prefix of `ks`. -/
theorem eq_take_of_count {l rest ks : List α} (hl : l.Pairwise (· ≤ ·)) (hks : ks.Pairwise (· < ·))
    (hsub : ∀ x ∈ l, x ∈ ks) (hrest : ∀ x ∈ l, ∀ y ∈ rest, x < y)
    (hcount : ∀ k ∈ ks, (l ++ rest).count k = 1) : l = ks.take l.length := by
  induction l generalizing ks with
  | nil => rfl
  | cons x l ih =>
    obtain ⟨hx, hl'⟩ := List.pairwise_cons.mp hl
    cases ks with
    | nil => exact absurd (hsub x List.mem_cons_self) List.not_mem_nil
    | cons k ks =>
      obtain ⟨hk, hks⟩ := List.pairwise_cons.mp hks
      have hkx : k ≤ x := by
        rcases List.mem_cons.mp (hsub x List.mem_cons_self) with rfl | h
        · exact le_rfl
        · exact (hk x h).le
      have hxk : x ≤ k := by
        have hmem := List.count_pos_iff.mp (Nat.lt_of_lt_of_eq Nat.zero_lt_one
          (hcount k List.mem_cons_self).symm)
        rcases List.mem_append.mp hmem with hmem | hmem
        · rcases List.mem_cons.mp hmem with rfl | hmem
          · exact le_rfl
          · exact hx k hmem
        · exact (hrest x List.mem_cons_self k hmem).le
      have hxk := le_antisymm hkx hxk
      subst hxk
      have hnot : (l ++ rest).count k = 0 := by
        have h := hcount k List.mem_cons_self
        rw [List.cons_append, List.count_cons_self] at h
        omega
      rw [List.length_cons, List.take_succ_cons, ← ih hl' hks]
      · intro y hy
        rcases List.mem_cons.mp (hsub y (List.mem_cons_of_mem _ hy)) with rfl | h
        · exact absurd (List.mem_append_left rest hy) (List.count_eq_zero.mp hnot)
        · exact h
      · intro y hy
        exact hrest y (List.mem_cons_of_mem _ hy)
      · intro y hy
        rw [← hcount y (List.mem_cons_of_mem _ hy), List.cons_append,
          List.count_cons_of_ne (hk y hy).ne]

omit [LinearOrder α] in
theorem count_append_iff {n : Nat} {rest : List α} (hks : ks.Nodup) (hrest : ∀ x ∈ rest, x ∈ ks.drop n) :
    (∀ k ∈ ks, (ks.take n ++ rest).count k = 1) ↔ ∀ k ∈ ks.drop n, rest.count k = 1 := by
  have hdisj : ∀ k ∈ ks.take n, k ∉ ks.drop n := by
    intro k hk hk'
    exact List.disjoint_take_drop hks le_rfl hk hk'
  constructor
  · intro h k hk
    rw [← h k (List.mem_of_mem_drop hk), List.count_append,
      List.count_eq_zero_of_not_mem fun hk' => hdisj k hk' hk, Nat.zero_add]
  · intro h k hk
    rw [List.count_append]
    rw [← List.take_append_drop n ks] at hk
    rcases List.mem_append.mp hk with hk | hk
    · rw [List.count_eq_one_of_mem (hks.sublist (List.take_sublist _ _)) hk,
        List.count_eq_zero_of_not_mem fun hk' => hdisj k hk (hrest k hk')]
    · rw [List.count_eq_zero_of_not_mem fun hk' => hdisj k hk' hk, h k hk]

/-- If every key comes exactly once, the first page is right. -/
theorem page_eq_of_once (start : α) {out : List α} (hkeys : keys.Pairwise (· < ·)) (hm : 0 < m)
    (hruns : ∀ s, ∀ run ∈ sources s, run.Sublist (above s keys))
    (hfuel : (above start keys).length < fuel)
    (hout : scan (fun s => page m (sources s)) m fuel start = some out)
    (hcount : ∀ k ∈ above start keys, out.count k = 1) :
    page m (sources start) = (above start keys).take m := by
  have hks : (above start keys).Pairwise (· < ·) := pairwise_above hkeys
  have hpage : ∀ k ∈ page m (sources start), k ∈ above start keys :=
    fun k hk => mem_of_mem_page (hruns start) hk
  obtain ⟨fuel, rfl⟩ := Nat.exists_eq_succ_of_ne_zero (Nat.ne_zero_of_lt hfuel)
  unfold scan at hout
  split at hout
  · rename_i hfull
    have hlast := hpage _ (getLastD_mem (d := start) (hfull.symm ▸ hm))
    have hlt := length_above_lt hlast
    obtain ⟨rest, hrest, hmem⟩ := scan_returns ((page m (sources start)).getLastD start) hm hruns
      (Nat.lt_of_lt_of_le hlt (Nat.le_of_lt_succ hfuel))
    rw [hrest] at hout
    cases hout
    have h := eq_take_of_count pairwise_page hks hpage ?_ hcount
    · rwa [hfull] at h
    · intro x hx y hy
      exact lt_of_le_of_lt (le_getLastD pairwise_page hx)
        ((mem_above.mp (hmem y hy)).2)
  · cases hout
    have h := @eq_take_of_count _ _ _ _ _ [] _ pairwise_page hks hpage (by simp) (by simpa using hcount)
    have hsub : above start keys ⊆ page m (sources start) := by
      intro k hk
      exact List.count_pos_iff.mp (Nat.lt_of_lt_of_eq Nat.zero_lt_one (hcount k hk).symm)
    have hlen := (List.subperm_of_subset (hks.imp fun h => h.ne) hsub).length_le
    rw [List.take_of_length_le hlen] at h
    rw [List.take_of_length_le (hlen.trans length_page_le)]
    exact h

/-- Read page by page, every key above `start` comes exactly once if and only if the keys are read
    as often as `Paged` says. -/
theorem scan_once_iff (start : α) (hm : 0 < m) (hkeys : keys.Pairwise (· < ·))
    (hruns : ∀ s, ∀ run ∈ sources s, run.Sublist (above s keys))
    (hfuel : (above start keys).length < fuel) :
    (∃ out, scan (fun s => page m (sources s)) m fuel start = some out ∧
        ∀ k ∈ above start keys, out.count k = 1) ↔
      Paged (fun s => reads (sources s)) m start 0 (above start keys) := by
  induction fuel generalizing start with
  | zero => omega
  | succ fuel ih =>
    have hks : (above start keys).Pairwise (· < ·) := pairwise_above hkeys
    have hnodup : (above start keys).Nodup := hks.imp fun h => h.ne
    rw [paged_iff (d := start) hm (Nat.zero_add m), ← page_eq_iff hks (hruns start)]
    by_cases hpage : page m (sources start) = (above start keys).take m
    · by_cases hlen : m ≤ (above start keys).length
      · -- a full page: the rest by induction
        have hfull : (page m (sources start)).length = m := by
          rw [hpage, List.length_take]
          omega
        have hlast := mem_of_mem_page (hruns start) (getLastD_mem (d := start) (hfull.symm ▸ hm))
        have hle : start ≤ (page m (sources start)).getLastD start :=
          ((mem_above.mp hlast).2).le
        have hlt := length_above_lt hlast
        have hdrop : above ((page m (sources start)).getLastD start) keys =
            (above start keys).drop m := by
          rw [← above_above hle, hpage]
          exact above_last hks hm hlen
        have hfuel' : (above ((page m (sources start)).getLastD start) keys).length < fuel := by
          omega
        obtain ⟨rest, hrest, hmem⟩ := scan_returns ((page m (sources start)).getLastD start) hm hruns hfuel'
        have hrec := ih ((page m (sources start)).getLastD start) hfuel'
        rw [hdrop, hpage] at hrec
        rw [hdrop] at hmem
        unfold scan
        rw [if_pos hfull, hrest, hpage]
        rw [← hpage, hrest, hpage] at hrec
        simp only [hlen, true_and, forall_true_left, ← hrec, Option.map_some, Option.some.injEq,
          exists_eq_left']
        exact count_append_iff hnodup hmem
      · -- the last page
        have hall : (above start keys).take m = above start keys :=
          List.take_of_length_le (by omega)
        have hfull : ¬ (page m (sources start)).length = m := by
          rw [hpage, hall]
          omega
        unfold scan
        rw [if_neg hfull, hpage, hall]
        simp only [Option.some.injEq, exists_eq_left', hlen, false_imp_iff, and_true, iff_true]
        intro k hk
        exact List.count_eq_one_of_mem hnodup hk
    · constructor
      · rintro ⟨out, hout, hcount⟩
        exact absurd (page_eq_of_once start hkeys hm hruns hfuel hout hcount) hpage
      · rintro ⟨h, -⟩
        exact absurd h hpage

end Count

end HFlat.Lib
