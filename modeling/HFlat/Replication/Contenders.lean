/-
  Clients that create one absent key at the same time with records of equal version and different
  values, as the log entries, directory entries and inode generation tokens do.

  A record that is once on a drive stays there: every drive is won by the first client that writes
  it, and `readRepair`, which compares versions only, finds nothing to repair. So a client returns
  OK exactly if it has won some drive (`Outcome`), and only one client returns OK exactly if one
  client wins every drive.
-/
import HFlat.Replication.ReadRepair

namespace HFlat.Replication.Write

open HFlat.Lib

variable {V ι : Type} {statuses : List KineticDrive.Status} {version : Str} {value : ι → V}

/-- What client `i` writes. -/
def contender (version : Str) (value : ι → V) (i : ι) : KineticRecord V := ⟨value i, version⟩

/-- Clients that create the same absent key. -/
def contend (statuses : List KineticDrive.Status) (version : Str) (value : ι → V) :
    Config (Req V) Res (Store V) ι StatusCode :=
  ⟨⟨fun _ => none, [[]], [], false⟩, fun i => put statuses [] (contender version value i)⟩

/-! ## Drives are won once -/

/-- Every drive is empty or holds the record of a client. -/
def Contended (version : Str) (value : ι → V) (s : Store V) : Prop :=
  ∀ d, s.drive d = none ∨ ∃ i, s.drive d = some (contender version value i)

theorem version_of_contended {s : Store V} (h : Contended version value s) {d : Nat}
    {r : KineticRecord V} (hr : s.drive d = some r) : r.version = version := by
  rcases h d with hn | ⟨j, hj⟩
  · rw [hn] at hr
    cases hr
  · rw [hj] at hr
    cases hr
    rfl

/-- A step that may put records of the clients in `own` on empty drives. -/
def Wins (version : Str) (value : ι → V) (own : ι → Prop) (s s' : Store V) : Prop :=
  ∀ d, s'.drive d = s.drive d ∨
    s.drive d = none ∧ ∃ i, own i ∧ s'.drive d = some (contender version value i)

theorem wins_refl (own : ι → Prop) (s : Store V) : Wins version value own s s := fun _ => Or.inl rfl

theorem stable_drive (own : ι → Prop) (d : Nat) (r : KineticRecord V) :
    Stable (Wins version value own) fun s => s.drive d = some r := by
  intro s s' hs h
  rcases hs d with he | ⟨hnone, -⟩
  · rw [he]
    exact h
  · rw [hnone] at h
    cases h

theorem stable_not_mine {own : ι → Prop} (hinj : Function.Injective value) {i : ι} (hi : ¬ own i)
    (d : Nat) :
    Stable (Wins version value own) fun s => s.drive d ≠ some (contender version value i) := by
  intro s s' hs h
  rcases hs d with he | ⟨-, j, hj, he⟩
  · rw [he]
    exact h
  · rw [he]
    intro heq
    have hv : value j = value i := congrArg KineticRecord.value (Option.some.inj heq)
    exact hi (hinj hv ▸ hj)

/-- The result of client `i` on drive `d`, once its thread has run. -/
def Settled (version : Str) (value : ι → V) (i : ι) (d : Nat) (code : StatusCode) (s : Store V) :
    Prop :=
  code = .OK ∧ s.drive d = some (contender version value i) ∨
    code = .REMOTE_VERSION_MISMATCH ∧ ∃ r, s.drive d = some r ∧ r ≠ contender version value i

theorem stable_settled (own : ι → Prop) (i : ι) (d : Nat) (code : StatusCode) :
    Stable (Wins version value own) (Settled version value i d code) := by
  intro s s' hs h
  rcases h with ⟨hc, hd⟩ | ⟨hc, r, hd, hne⟩
  · exact Or.inl ⟨hc, stable_drive own d _ s s' hs hd⟩
  · exact Or.inr ⟨hc, r, stable_drive own d r s s' hs hd, hne⟩

/-- A write of client `i` whose threads for the drives in `todo` have not run. -/
def Contending (statuses : List KineticDrive.Status) (version : Str) (value : ι → V) (i : ι)
    (todo : List Nat) (results : Nat → StatusCode) (s : Store V) : Prop :=
  ∀ d ∈ nonRed statuses, (d ∈ todo → s.drive d ≠ some (contender version value i)) ∧
    (d ∉ todo → Settled version value i d (results d) s)

theorem stable_contending {own : ι → Prop} (hinj : Function.Injective value) {i : ι} (hi : ¬ own i)
    (todo : List Nat) (results : Nat → StatusCode) :
    Stable (Wins version value own) (Contending statuses version value i todo results) :=
  fun s s' hs h d hd => ⟨fun hm => stable_not_mine hinj hi d s s' hs ((h d hd).1 hm),
    fun hm => stable_settled own i d _ s s' hs ((h d hd).2 hm)⟩

/-- What a client that returns has met. -/
def Outcome (statuses : List KineticDrive.Status) (version : Str) (value : ι → V) (i : ι)
    (code : StatusCode) (s : Store V) : Prop :=
  (∀ d ∈ nonRed statuses, ∃ r, s.drive d = some r) ∧
    (code = .OK ∧ (∃ d ∈ nonRed statuses, s.drive d = some (contender version value i)) ∨
      code = .REMOTE_VERSION_MISMATCH ∧
        ∀ d ∈ nonRed statuses, ∃ r, s.drive d = some r ∧ r ≠ contender version value i)

theorem stable_outcome (own : ι → Prop) (i : ι) (code : StatusCode) :
    Stable (Wins version value own) (Outcome statuses version value i code) := by
  rintro s s' hs ⟨hall, h⟩
  refine ⟨fun d hd => ?_, ?_⟩
  · obtain ⟨r, hr⟩ := hall d hd
    exact ⟨r, stable_drive own d r s s' hs hr⟩
  · rcases h with ⟨hc, d, hd, hr⟩ | ⟨hc, h⟩
    · exact Or.inl ⟨hc, d, hd, stable_drive own d _ s s' hs hr⟩
    · refine Or.inr ⟨hc, fun d hd => ?_⟩
      obtain ⟨r, hr, hne⟩ := h d hd
      exact ⟨r, stable_drive own d r s s' hs hr, hne⟩

/-! ## One client -/

section Client

variable {ref : Nat} {i : ι}

theorem versionOf_contended (hv : version ≠ []) {s : Store V} (hs : Contended version value s) (d : Nat) :
    versionOf (s.drive d) = [] ↔ s.drive d = none := by
  rcases hs d with h | ⟨j, h⟩
  · rw [h]
    exact ⟨fun _ => rfl, fun _ => rfl⟩
  · rw [h]
    exact ⟨fun he => absurd he hv, fun he => nomatch he⟩

/-- One thread of a client: it wins an empty drive and fails on any other. -/
theorem contending_step (ref : Nat) (hv : version ≠ []) {s : Store V} (hs : Contended version value s)
    {todo : List Nat} {results : Nat → StatusCode} (hnodup : todo.Nodup) {d : Nat} (hmem : d ∈ todo)
    (hd : d ∈ nonRed statuses) (h : Contending statuses version value i todo results s) :
    let result := putSame (s.drive d) [] (contender version value i)
    let s' := s.write ref .write d result
    Contended version value s' ∧ Wins version value (· = i) s s' ∧
      Contending statuses version value i (todo.erase d) (Function.update results d result.1) s' := by
  dsimp only
  by_cases hnone : s.drive d = none
  · -- an empty drive takes the record
    have hput : putSame (s.drive d) [] (contender version value i) =
        (.OK, some (contender version value i)) := by simp [putSame, hnone, versionOf]
    rw [hput]
    have hdrive : ∀ d', (s.write ref .write d (.OK, some (contender version value i))).drive d' =
        if d' = d then some (contender version value i) else s.drive d' :=
      fun d' => Function.update_apply _ _ _ _
    refine ⟨fun d' => ?_, fun d' => ?_, fun d' hd' => ?_⟩
    · rw [hdrive]
      split
      · exact Or.inr ⟨i, rfl⟩
      · exact hs d'
    · rw [hdrive]
      split
      · rename_i he
        exact Or.inr ⟨by rw [he]; exact hnone, i, rfl, rfl⟩
      · exact Or.inl rfl
    · unfold Settled
      rw [hdrive]
      by_cases he : d' = d
      · subst he
        rw [if_pos rfl, Function.update_self]
        exact ⟨fun hm => absurd hm hnodup.not_mem_erase, fun _ => Or.inl ⟨rfl, rfl⟩⟩
      · rw [if_neg he, Function.update_of_ne he, List.mem_erase_of_ne he]
        exact h d' hd'
  · -- any other drive has another version
    have hput : putSame (s.drive d) [] (contender version value i) =
        (.REMOTE_VERSION_MISMATCH, s.drive d) := by
      simp [putSame, (versionOf_contended hv hs d).not.mpr hnone]
    rw [hput]
    have hdrive : (s.write ref .write d (.REMOTE_VERSION_MISMATCH, s.drive d)).drive = s.drive :=
      Function.update_eq_self _ _
    refine ⟨fun d' => ?_, fun d' => Or.inl (by rw [hdrive]), fun d' hd' => ?_⟩
    · rw [hdrive]
      exact hs d'
    · unfold Settled
      rw [hdrive]
      by_cases he : d' = d
      · subst he
        rw [Function.update_self]
        refine ⟨fun hm => absurd hm hnodup.not_mem_erase, fun _ => Or.inr ⟨rfl, ?_⟩⟩
        obtain ⟨r, hr⟩ := Option.ne_none_iff_exists'.mp hnone
        exact ⟨r, hr, fun heq => (h d' hd').1 hmem (by rw [hr, heq])⟩
      · rw [Function.update_of_ne he, List.mem_erase_of_ne he]
        exact h d' hd'

/-- Client `i` among others, from a state where the fact `Q` of its result is known later. -/
abbrev Contends (ref : Nat) (version : Str) (value : ι → V) (i : ι) {α : Type} (m : Client V α)
    (Q : α → Store V → Prop) (s : Store V) : Prop :=
  Safe (service ref) (Contended version value) (Wins version value (· ≠ i))
    (Wins version value (· = i)) Q m s

theorem contends_writeDrives (hinj : Function.Injective value) (hv : version ≠ []) {n : Nat}
    {todo : List Nat} {results : Nat → StatusCode} {s : Store V} (hn : n = todo.length)
    (hnodup : todo.Nodup) (hsub : ∀ d ∈ todo, d ∈ nonRed statuses)
    (h : Contending statuses version value i todo results s) :
    Contends ref version value i (writeDrives [] (contender version value i) n todo results)
      (fun results s => ∀ d ∈ nonRed statuses, Settled version value i d (results d) s) s := by
  induction n generalizing todo results s with
  | zero =>
    have hempty : todo = [] := List.length_eq_zero_iff.mp hn.symm
    refine Safe.ret (fun s s' hs h d hd => stable_settled _ i d _ s s' hs (h d hd)) fun d hd => ?_
    exact (h d hd).2 (by rw [hempty]; exact List.not_mem_nil)
  | succ n ih =>
    have hstable : Stable (Wins version value (· ≠ i))
        (Contending statuses version value i todo results) :=
      stable_contending hinj (not_not.mpr rfl) todo results
    refine Safe.perform_bind hstable h fun s1 hi h1 choice (d : Nat) s2 hpick => ?_
    obtain ⟨hmem, rfl⟩ : d ∈ todo ∧ s1 = s2 := by
      obtain ⟨j, hj, he⟩ := Option.map_eq_some_iff.mp hpick
      cases he
      exact ⟨List.mem_of_getElem? hj, rfl⟩
    refine ⟨hi, wins_refl _ s1, ?_⟩
    refine Safe.perform_bind hstable h1 fun s2 hi h2 choice code s3 hput => ?_
    cases hput
    obtain ⟨h3, h4, h5⟩ := contending_step ref hv hi hnodup hmem (hsub d hmem) h2
    refine ⟨h3, h4, ih ?_ (hnodup.erase d) (fun d' hd' => hsub d' (List.mem_of_mem_erase hd')) h5⟩
    rw [List.length_erase_of_mem hmem]
    omega

/-- `readRepair` once every drive holds a record: all versions are equal, so nothing is written. -/
theorem contends_repairDrives {index : Nat} {r : KineticRecord V} (hr : r.version = version)
    {ds : List Nat} {s : Store V} {F : Store V → Prop} (hF : Stable (Wins version value (· ≠ i)) F)
    (hs : F s) (hheld : ∀ s, F s → ∀ d ∈ ds, ∃ r, s.drive d = some r) :
    Contends ref version value i (repairDrives index (some r) ds)
      (fun code s => F s ∧ code = .OK) s := by
  induction ds generalizing s with
  | nil => exact Safe.ret (hF.and fun _ _ _ h => h) ⟨hs, rfl⟩
  | cons d ds ih =>
    refine Safe.perform_bind hF hs fun s1 hi h1 choice answer s2 hserve => ?_
    obtain ⟨rd, hrd⟩ := hheld s1 h1 d List.mem_cons_self
    have hversion := version_of_contended hi hrd
    simp only [service, serve, hrd] at hserve
    cases hserve
    refine ⟨hi, wins_refl _ s1, ?_⟩
    simp only [repairDrive, hversion, hr, and_self, if_true, Prog.pure_eq, Prog.ret_bind]
    exact ih h1 fun s hs d hd => hheld s hs d (List.mem_cons_of_mem _ hd)

theorem contends_readRepair (hgreen : firstGreen statuses ∈ nonRed statuses) {s : Store V}
    (hall : ∀ d ∈ nonRed statuses, ∃ r, s.drive d = some r) {F : Store V → Prop}
    (hF : Stable (Wins version value (· ≠ i)) F) (hs : F s) :
    Contends ref version value i (readRepair statuses)
      (fun answer s => F s ∧ answer.1 = .OK ∧ answer.2.map KineticRecord.version = some version) s := by
  have hheld : Stable (Wins version value (· ≠ i)) fun s : Store V =>
      ∀ d ∈ nonRed statuses, ∃ r, s.drive d = some r := by
    intro s s' hs h d hd
    obtain ⟨r, hr⟩ := h d hd
    exact ⟨r, stable_drive _ d r s s' hs hr⟩
  refine Safe.perform_bind (hF.and hheld) ⟨hs, hall⟩ fun s1 hi h1 choice answer s2 hserve => ?_
  obtain ⟨r, hr⟩ := h1.2 _ hgreen
  have hversion := version_of_contended hi hr
  simp only [service, serve, hr] at hserve
  cases hserve
  refine ⟨hi, wins_refl _ s1, ?_⟩
  rw [if_neg (by simp)]
  refine Safe.bind hi ((contends_repairDrives hversion (hF.and hheld) h1 fun s hs => hs.2).mono
    fun code s3 _ h3 => ?_)
  exact Safe.ret (hF.and fun _ _ _ h => h) ⟨h3.1.1, h3.2, congrArg some hversion⟩

/-- `writeOperation` of a contender, where a partial write counts as success. -/
theorem contends_writeOperation (hinj : Function.Injective value) (hv : version ≠ [])
    (hgreen : firstGreen statuses ∈ nonRed statuses) {s : Store V} (hi : Contended version value s)
    (hs : ∀ d, s.drive d ≠ some (contender version value i)) :
    Contends ref version value i (writeOperation statuses [] (contender version value i))
      (fun code s => Outcome statuses version value i
        (if code = .REMOTE_OTHER_ERROR then .OK else code) s) s := by
  have hstart : Contending statuses version value i (nonRed statuses)
      (fun _ => .REMOTE_REMOTE_CONNECTION_ERROR) s := fun d hd => ⟨fun _ => hs d, fun hm => absurd hd hm⟩
  refine Safe.bind hi ((contends_writeDrives hinj hv rfl (nodup_nonRed statuses) (fun d hd => hd)
    hstart).mono fun results s1 _ hsettled => ?_)
  have hall : ∀ d ∈ nonRed statuses, ∃ r, s1.drive d = some r := by
    intro d hd
    rcases hsettled d hd with ⟨-, h⟩ | ⟨-, r, h, -⟩
    · exact ⟨_, h⟩
    · exact ⟨r, h⟩
  unfold evaluateWriteOperation
  split
  · -- the same result on all drives
    rename_i hequal
    refine Safe.ret (stable_outcome _ i _) ⟨hall, ?_⟩
    rcases hsettled _ hgreen with ⟨hc, h⟩ | ⟨hc, -⟩
    · rw [hc]
      exact Or.inl ⟨rfl, _, hgreen, h⟩
    · rw [hc]
      refine Or.inr ⟨rfl, fun d hd => ?_⟩
      rcases hsettled d hd with ⟨hd', -⟩ | ⟨-, h⟩
      · rw [hequal d hd, hc] at hd'
        cases hd'
      · exact h
  · rename_i hequal
    split
    · -- different results: some drive is won
      refine Safe.ret (stable_outcome _ i _) ⟨hall, Or.inl ⟨rfl, ?_⟩⟩
      by_contra hnone
      refine hequal fun d hd => ?_
      have hlost : ∀ d ∈ nonRed statuses, results d = .REMOTE_VERSION_MISMATCH := by
        intro d hd
        rcases hsettled d hd with ⟨-, h⟩ | ⟨hc, -⟩
        · exact absurd ⟨d, hd, h⟩ hnone
        · exact hc
      rw [hlost d hd, hlost _ hgreen]
    · trivial

/-- `Put` of a contender: OK exactly if it has won a drive. -/
theorem contends_put (hinj : Function.Injective value) (hv : version ≠ [])
    (hgreen : firstGreen statuses ∈ nonRed statuses) {s : Store V} (hi : Contended version value s)
    (hs : ∀ d, s.drive d ≠ some (contender version value i)) :
    Contends ref version value i (put statuses [] (contender version value i))
      (Outcome statuses version value i) s := by
  have hresult : Contends ref version value i (putResult statuses [] (contender version value i))
      (Outcome statuses version value i) s := by
    refine Safe.bind hi ((contends_writeOperation hinj hv hgreen hi hs).mono fun code s1 h1 hw => ?_)
    split
    · rename_i hpartial
      rw [if_pos hpartial] at hw
      refine Safe.bind h1 ((contends_readRepair hgreen hw.1 (stable_outcome _ i _) hw).mono
        fun answer s2 _ h2 => ?_)
      obtain ⟨status, repairRecord⟩ := answer
      obtain ⟨hout, hstatus, hversion⟩ := h2
      dsimp only at hstatus hversion ⊢
      rw [if_pos hstatus, if_pos (show repairRecord.map (fun x => x.version) =
        some (contender version value i).version from hversion)]
      exact Safe.ret (stable_outcome _ i _) hout
    · rename_i hfull
      rw [if_neg hfull] at hw
      exact Safe.ret (stable_outcome _ i _) hw
  refine Safe.bind hi (hresult.mono fun code s1 h1 hout => ?_)
  split
  · refine Safe.perform_bind (stable_outcome _ i _) hout fun s2 h2 hout2 choice x s3 hack => ?_
    cases hack
    exact ⟨h2, wins_refl _ s2, Safe.ret (stable_outcome _ i _) hout2⟩
  · exact Safe.ret (stable_outcome _ i _) hout

end Client

/-! ## Runs -/

section Runs

/-- If the next request of client `i` creates the key on a drive, the drives that hold the key
    hold the record of this client. -/
def Undisputed (statuses : List KineticDrive.Status) (c : Config (Req V) Res (Store V) ι StatusCode)
    (i : ι) : Prop :=
  match c.prog i with
  | .call (.put _ d expected record) _ => d ∈ nonRed statuses → c.shared.drive d = none →
      expected = [] → ∀ d' ∈ nonRed statuses, ∀ r ∈ c.shared.drive d', r = record
  | _ => True

instance [DecidableEq V] (c : Config (Req V) Res (Store V) ι StatusCode) (i : ι) :
    Decidable (Undisputed statuses c i) :=
  match hp : c.prog i with
  | .call (.put _ d expected record) _ =>
      decidable_of_iff (d ∈ nonRed statuses → c.shared.drive d = none → expected = [] →
        ∀ d' ∈ nonRed statuses, ∀ r ∈ c.shared.drive d', r = record) (by simp [Undisputed, hp])
  | .call (.get _) _ => isTrue (by simp [Undisputed, hp])
  | .call (.getVersion _) _ => isTrue (by simp [Undisputed, hp])
  | .call (.delete _ _) _ => isTrue (by simp [Undisputed, hp])
  | .call (.pick _) _ => isTrue (by simp [Undisputed, hp])
  | .call (.acked _ _) _ => isTrue (by simp [Undisputed, hp])
  | .ret _ => isTrue (by simp [Undisputed, hp])
  | .stop => isTrue (by simp [Undisputed, hp])

/-- All drives that hold the key hold the same record. -/
def Agree (statuses : List KineticDrive.Status) (s : Store V) : Prop :=
  ∀ d ∈ nonRed statuses, ∀ d' ∈ nonRed statuses, ∀ r r',
    s.drive d = some r → s.drive d' = some r' → r = r'

/-- The configurations that runs of contenders reach. -/
structure Contest (statuses : List KineticDrive.Status) (version : Str) (value : ι → V)
    (c : Config (Req V) Res (Store V) ι StatusCode) : Prop where
  contended : Contended version value c.shared
  safe : ∀ i, Contends (firstGreen statuses) version value i (c.prog i)
    (Outcome statuses version value i) c.shared

theorem contest_start (hinj : Function.Injective value) (hv : version ≠ [])
    (hgreen : firstGreen statuses ∈ nonRed statuses) :
    Contest statuses version value (contend statuses version value) :=
  ⟨fun _ => Or.inl rfl, fun _ => contends_put hinj hv hgreen (fun _ => Or.inl rfl) fun _ h => nomatch h⟩

/-- What a client that has returned has met. -/
theorem Contest.outcome {c : Config (Req V) Res (Store V) ι StatusCode}
    (h : Contest statuses version value c) {i : ι} {code : StatusCode} (hret : c.prog i = .ret code) :
    Outcome statuses version value i code c.shared := by
  have hsafe := h.safe i
  rw [hret] at hsafe
  exact hsafe c.shared Relation.ReflTransGen.refl h.contended

/-- At most one client has returned OK, and once all have returned every drive holds the same. -/
def OneWinner (statuses : List KineticDrive.Status) (c : Config (Req V) Res (Store V) ι StatusCode) :
    Prop :=
  (∀ i j, c.prog i = .ret .OK → c.prog j = .ret .OK → i = j) ∧
    ((∀ i, ∃ code, c.prog i = .ret code) →
      ∀ d ∈ nonRed statuses, ∀ d' ∈ nonRed statuses, c.shared.drive d = c.shared.drive d')

theorem firstGreen_mem (h : .GREEN ∈ statuses) : firstGreen statuses ∈ nonRed statuses := by
  have hex : ∃ x ∈ statuses, decide (x = .GREEN) = true := ⟨_, h, by simp⟩
  have hlt : firstGreen statuses < statuses.length := List.findIdx_lt_length.mpr hex
  have hget : statuses[firstGreen statuses] = .GREEN :=
    of_decide_eq_true (List.findIdx_getElem (w := hlt))
  refine List.mem_filter.mpr ⟨List.mem_range.mpr hlt, ?_⟩
  rw [List.getElem?_eq_getElem hlt, hget]
  decide

/-- Drives that agree, where one client has won each drive. -/
theorem Contest.oneWinner {c : Config (Req V) Res (Store V) ι StatusCode}
    (hinj : Function.Injective value) (h : Contest statuses version value c)
    (hc : Agree statuses c.shared) : OneWinner statuses c := by
  refine ⟨fun i j hi hj => ?_, fun hdone d hd d' hd' => ?_⟩
  · obtain ⟨-, ⟨-, d, hd, hr⟩ | ⟨hc, -⟩⟩ := h.outcome hi
    · obtain ⟨-, ⟨-, d', hd', hr'⟩ | ⟨hc, -⟩⟩ := h.outcome hj
      · exact hinj (congrArg KineticRecord.value (hc d hd d' hd' _ _ hr hr'))
      · cases hc
    · cases hc
  · rcases h.contended d with hn | ⟨i, hr⟩
    · rcases h.contended d' with hn' | ⟨j, hr'⟩
      · rw [hn, hn']
      · obtain ⟨code, hret⟩ := hdone j
        obtain ⟨r, hr⟩ := (h.outcome hret).1 d hd
        rw [hn] at hr
        cases hr
    · obtain ⟨code, hret⟩ := hdone i
      obtain ⟨r', hr'⟩ := (h.outcome hret).1 d' hd'
      rw [hr, hr', hc d hd d' hd' _ _ hr hr']

variable [DecidableEq ι]

/-- A step of client `i`. -/
theorem Contest.step {c c' : Config (Req V) Res (Store V) ι StatusCode}
    (h : Contest statuses version value c) {i : ι} {choice : Nat}
    (hstep : c.step (service (firstGreen statuses)) i choice = some c') :
    Contest statuses version value c' ∧ Wins version value (· = i) c.shared c'.shared := by
  have hrely : ∀ (i j : ι) (s s' : Store V), i ≠ j → Wins version value (· = i) s s' →
      Wins version value (· ≠ j) s s' := by
    intro i j s s' hne hs d
    rcases hs d with he | ⟨hn, k, rfl, he⟩
    · exact Or.inl he
    · exact Or.inr ⟨hn, k, hne, he⟩
  obtain ⟨h1, h2, h3⟩ := step_safe h.contended hrely h.safe hstep
  exact ⟨⟨h1, h3⟩, h2⟩

theorem write_drive (ref : Nat) (s : Store V) (origin : Origin) (i : Nat)
    (result : StatusCode × Option (KineticRecord V)) (d : Nat) :
    (s.write ref origin i result).drive d = if d = i then result.2 else s.drive d :=
  Function.update_apply _ _ _ _

/-- A drive that is empty before the step and holds a record after it was written by a `Put`. -/
theorem put_of_filled {ref : Nat} {s s' : Store V} {r : Req V} {choice d : Nat} {x : Res r}
    {record : KineticRecord V} (hserve : (service ref).serve s r choice = some (x, s'))
    (hnone : s.drive d = none) (hsome : s'.drive d = some record) :
    ∃ origin, r = .put origin d [] record := by
  have hchanged : s'.drive d ≠ s.drive d := by
    rw [hsome, hnone]
    exact Option.some_ne_none _
  cases r with
  | get i | getVersion i =>
    simp only [service, serve] at hserve
    split at hserve <;> cases hserve <;> exact absurd rfl hchanged
  | pick candidates =>
    obtain ⟨i, -, he⟩ := Option.map_eq_some_iff.mp hserve
    cases he
    exact absurd rfl hchanged
  | acked expected version =>
    cases hserve
    exact absurd rfl hchanged
  | put origin i expected new =>
    cases hserve
    rw [write_drive] at hsome hchanged
    split at hsome
    · rename_i hi
      subst hi
      rw [if_pos rfl] at hchanged
      by_cases hok : (putSame (s.drive d) expected new).1 = .OK
      · have hnew : (putSame (s.drive d) expected new).2 = some new := by
          simp [putSame, putSame_ok hok]
        have hexpected : expected = [] := by
          rw [← putSame_ok hok, hnone]
          rfl
        rw [hnew] at hsome
        exact ⟨origin, by rw [Option.some.inj hsome, hexpected]⟩
      · exact absurd (putSame_failed hok) hchanged
    · rename_i hi
      rw [if_neg hi] at hchanged
      exact absurd rfl hchanged
  | delete i expected =>
    cases hserve
    rw [write_drive, hnone] at hsome
    split at hsome
    · rename_i hi
      subst hi
      rw [hnone] at hsome
      cases hsome
    · cases hsome

/-- Undisputed steps keep the drives in agreement. -/
theorem Contest.agree {c c' : Config (Req V) Res (Store V) ι StatusCode}
    (h : Contest statuses version value c) {i : ι} {choice : Nat} (hc : Agree statuses c.shared)
    (hP : Undisputed statuses c i)
    (hstep : c.step (service (firstGreen statuses)) i choice = some c') : Agree statuses c'.shared := by
  obtain ⟨-, hwins⟩ := h.step hstep
  obtain ⟨request, k, x, s, hp, hserve, rfl⟩ := Config.step_eq_some hstep
  -- what was on a drive before agrees with what comes to another
  have hnew : ∀ d ∈ nonRed statuses, ∀ r, c.shared.drive d = none → s.drive d = some r →
      ∀ d' ∈ nonRed statuses, ∀ r', c.shared.drive d' = some r' → r' = r := by
    intro d hd r hnone hr d' hd' r' hr'
    obtain ⟨origin, rfl⟩ := put_of_filled hserve hnone hr
    rw [Undisputed, hp] at hP
    exact hP hd hnone rfl d' hd' r' hr'
  intro d hd d' hd' r r' hr hr'
  rcases hwins d with he | ⟨hn, j, rfl, he⟩
  · rcases hwins d' with he' | ⟨hn', j', rfl, he'⟩
    · exact hc d hd d' hd' r r' (he ▸ hr) (he' ▸ hr')
    · exact hnew d' hd' r' hn' hr' d hd r (he ▸ hr)
  · rcases hwins d' with he' | ⟨hn', j', rfl, he'⟩
    · exact (hnew d hd r hn hr d' hd' r' (he' ▸ hr')).symm
    · rw [he] at hr
      rw [he'] at hr'
      exact (Option.some.inj hr).symm.trans (Option.some.inj hr')

/-- What a drive holds it holds to the end of the run. -/
theorem Contest.keeps {c c' : Config (Req V) Res (Store V) ι StatusCode}
    (h : Contest statuses version value c) {schedule : List (ι × Nat)}
    (hrun : runFrom (service (firstGreen statuses)) c schedule = some c') {d : Nat}
    {r : KineticRecord V} (hd : c.shared.drive d = some r) : c'.shared.drive d = some r := by
  induction schedule generalizing c with
  | nil =>
    obtain rfl : c = c' := by simpa [runFrom] using hrun
    exact hd
  | cons e schedule ih =>
    rw [runFrom, List.foldlM_cons] at hrun
    obtain ⟨c1, hc1, hrun⟩ := Option.bind_eq_some_iff.mp hrun
    obtain ⟨h1, hwins⟩ := h.step hc1
    exact ih h1 hrun (stable_drive _ d r _ _ hwins hd)

/-- A disputed step leaves different records on two drives. -/
theorem disputed_step {c c' : Config (Req V) Res (Store V) ι StatusCode} {i : ι} {choice : Nat}
    (hP : ¬ Undisputed statuses c i)
    (hstep : c.step (service (firstGreen statuses)) i choice = some c') :
    ∃ d ∈ nonRed statuses, ∃ d' ∈ nonRed statuses, ∃ r r', c'.shared.drive d = some r ∧
      c'.shared.drive d' = some r' ∧ r ≠ r' := by
  obtain ⟨request, k, x, s, hp, hserve, rfl⟩ := Config.step_eq_some hstep
  rw [Undisputed, hp] at hP
  cases request with
  | put origin d expected record =>
    simp only [not_forall] at hP
    obtain ⟨hd, hnone, rfl, d', hd', r', hr', hne⟩ := hP
    have hne' : d' ≠ d := by
      rintro rfl
      rw [hnone] at hr'
      cases hr'
    cases hserve
    refine ⟨d, hd, d', hd', record, r', ?_, ?_, Ne.symm hne⟩
    · show (c.shared.write _ origin d (putSame (c.shared.drive d) [] record)).drive d = _
      rw [write_drive, if_pos rfl, hnone]
      rfl
    · show (c.shared.write _ origin d (putSame (c.shared.drive d) [] record)).drive d' = _
      rw [write_drive, if_neg hne']
      exact hr'
  | get d | getVersion d | delete d expected | pick candidates | acked expected version =>
    exact absurd trivial hP

/-- After a disputed step the drives never agree again. -/
theorem Contest.disagree {c c' : Config (Req V) Res (Store V) ι StatusCode}
    (h : Contest statuses version value c) {schedule : List (ι × Nat)}
    (hnot : ¬ Along (service (firstGreen statuses)) (Undisputed statuses) c schedule)
    (hrun : runFrom (service (firstGreen statuses)) c schedule = some c') :
    ∃ d ∈ nonRed statuses, ∃ d' ∈ nonRed statuses, ∃ r r', c'.shared.drive d = some r ∧
      c'.shared.drive d' = some r' ∧ r ≠ r' := by
  induction schedule generalizing c with
  | nil => exact absurd trivial hnot
  | cons e schedule ih =>
    rw [runFrom, List.foldlM_cons] at hrun
    obtain ⟨c1, hc1, hrun⟩ := Option.bind_eq_some_iff.mp hrun
    obtain ⟨h1, -⟩ := h.step hc1
    by_cases hP : Undisputed statuses c e.1
    · refine ih h1 (fun hlater => hnot ⟨hP, fun c2 hc2 => ?_⟩) hrun
      cases hc1.symm.trans hc2
      exact hlater
    · obtain ⟨d, hd, d', hd', r, r', hr, hr', hne⟩ := disputed_step hP hc1
      exact ⟨d, hd, d', hd', r, r', h1.keeps hrun hr, h1.keeps hrun hr', hne⟩

/-- The drives agree along a run of undisputed steps. -/
theorem Contest.agree_run {c c' : Config (Req V) Res (Store V) ι StatusCode}
    (h : Contest statuses version value c) (hc : Agree statuses c.shared) {schedule : List (ι × Nat)}
    (halong : Along (service (firstGreen statuses)) (Undisputed statuses) c schedule)
    (hrun : runFrom (service (firstGreen statuses)) c schedule = some c') :
    Contest statuses version value c' ∧ Agree statuses c'.shared := by
  have hstep : ∀ (c : Config (Req V) Res (Store V) ι StatusCode) (i : ι) (choice : Nat) c',
      Undisputed statuses c i → Contest statuses version value c ∧ Agree statuses c.shared →
      c.step (service (firstGreen statuses)) i choice = some c' →
      Contest statuses version value c' ∧ Agree statuses c'.shared :=
    fun _ _ _ _ hP hF hstep => ⟨(hF.1.step hstep).1, hF.1.agree hF.2 hP hstep⟩
  exact halong.keeps hstep ⟨h, hc⟩ hrun

/-- Creation has one winner in every run in which a client that creates the key on a drive finds
    only its own record on the others. In a finished run a single disputed creation breaks it. -/
theorem creation_one_winner (hinj : Function.Injective value) (hv : version ≠ [])
    (hgreen : .GREEN ∈ statuses) {schedule : List (ι × Nat)}
    {c : Config (Req V) Res (Store V) ι StatusCode}
    (hrun : runFrom (service (firstGreen statuses)) (contend statuses version value) schedule = some c) :
    (Along (service (firstGreen statuses)) (Undisputed statuses) (contend statuses version value)
      schedule → OneWinner statuses c) ∧
    ((∀ i, ∃ code, c.prog i = .ret code) → OneWinner statuses c →
      Along (service (firstGreen statuses)) (Undisputed statuses) (contend statuses version value)
        schedule) := by
  have hstart := contest_start hinj hv (firstGreen_mem hgreen)
  constructor
  · intro halong
    obtain ⟨h, hc⟩ := hstart.agree_run (fun d _ d' _ r r' hr => nomatch hr) halong hrun
    exact h.oneWinner hinj hc
  · intro hdone hone
    by_contra hnot
    obtain ⟨d, hd, d', hd', r, r', hr, hr', hne⟩ := hstart.disagree hnot hrun
    have he := hone.2 hdone d hd d' hd'
    rw [hr, hr'] at he
    exact hne (Option.some.inj he)

end Runs

/-! ## Two clients on two drives -/

/-- Two clients that create the key with version `1`. -/
def twoCreations : Config (Req Nat) Res (Store Nat) (Fin 2) StatusCode :=
  contend twoGreen ['1'] Fin.val

/-- Client 0 writes both drives before client 1. -/
def inTurn : List (Fin 2 × Nat) := List.replicate 5 (0, 0) ++ List.replicate 4 (1, 0)

theorem creation_one_winner_in_turn : ∃ c, runFrom (service 0) twoCreations inTurn = some c ∧
    c.prog 0 = .ret .OK ∧ c.prog 1 = .ret .REMOTE_VERSION_MISMATCH ∧ OneWinner twoGreen c := by
  have hrun : (runFrom (service 0) twoCreations inTurn).any (fun c =>
      (c.prog 0).result = some .OK ∧ (c.prog 1).result = some .REMOTE_VERSION_MISMATCH) := by decide
  obtain ⟨c, hc, h⟩ := (Option.any_eq_true _ _).mp hrun
  obtain ⟨h0, h1⟩ := of_decide_eq_true h
  refine ⟨c, hc, Prog.result_eq_some.mp h0, Prog.result_eq_some.mp h1, ?_⟩
  have hinj : Function.Injective (Fin.val : Fin 2 → Nat) := fun _ _ => Fin.ext
  have hc' : runFrom (service (firstGreen twoGreen)) (contend twoGreen ['1'] (Fin.val : Fin 2 → Nat))
      inTurn = some c := hc
  exact (creation_one_winner hinj (by decide) (by decide) hc').1 (by decide)

/-- Each client writes another drive first. Both see a partial write, find nothing to repair and
    return OK; the drives hold different values. -/
theorem not_one_winner_crossed : ∃ c, runFrom (service 0) twoCreations
      ([(0, 0), (0, 0), (1, 1), (1, 0)] ++ List.replicate 6 (0, 0) ++ List.replicate 6 (1, 0)) = some c ∧
    c.prog 0 = .ret .OK ∧ c.prog 1 = .ret .OK ∧
    c.shared.drive 0 = some ⟨0, ['1']⟩ ∧ c.shared.drive 1 = some ⟨1, ['1']⟩ := by
  have hrun : (runFrom (service 0) twoCreations
      ([(0, 0), (0, 0), (1, 1), (1, 0)] ++ List.replicate 6 (0, 0) ++ List.replicate 6 (1, 0))).any (fun c =>
      (c.prog 0).result = some .OK ∧ (c.prog 1).result = some .OK ∧
      c.shared.drive 0 = some ⟨0, ['1']⟩ ∧ c.shared.drive 1 = some ⟨1, ['1']⟩) := by decide
  obtain ⟨c, hc, h⟩ := (Option.any_eq_true _ _).mp hrun
  obtain ⟨h0, h1, hd⟩ := of_decide_eq_true h
  exact ⟨c, hc, Prog.result_eq_some.mp h0, Prog.result_eq_some.mp h1, hd⟩

end HFlat.Replication.Write
