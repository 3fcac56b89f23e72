/-
  Metadata and directory entries while any number of clients create and remove names.

  The store is an instance of the reservation of places: a name is taken while it has its entry, in use
  while it has metadata, and the protocol state of a client is the name that it holds. Every access is a step
  of the reservation, a fault, or neither (`refines`). So at any moment of any run, also after crashes and
  failed accesses, metadata have their entry, and a client is not disturbed between the two accesses by which
  it creates or removes a name. If no access fails and no client stops in between, names and metadata are the
  same in the end.
-/
import HFlat.Fuse.Reserved

namespace HFlat.Fuse.Reserved

open HFlat.Lib HFlat.PathMap HFlat.Permission
open HFlat.Lib.Reservation (State Step Fault Exclusive Complete)
open HFlat.Replication (KineticRecord StatusCode versionOf putSame deleteSame)
open OneWinner (Name carriedOut undisturbed)

/-! ## Names as places -/

section Places

variable {p : Folders} {f : Name → Str} {P P' : Str → Prop} {n : Name}

/-- The names whose key or entry meets `P`. -/
def Folders.selected (p : Folders) (f : Name → Str) (P : Str → Prop) : Set Name := {n | n ∈ p.names ∧ P (f n)}

theorem selected_congr (h : ∀ k, P' k ↔ P k) : p.selected f P' = p.selected f P :=
  Set.ext fun _ => and_congr_right fun _ => h _

theorem selected_insert (hf : Set.InjOn f p.names) (hn : n ∈ p.names) (h : ∀ k, P' k ↔ k = f n ∨ P k) :
    p.selected f P' = insert n (p.selected f P) := by
  ext m
  constructor
  · rintro ⟨hm, hP⟩
    exact ((h _).mp hP).imp (hf hm hn) fun hP => ⟨hm, hP⟩
  · rintro (rfl | ⟨hm, hP⟩)
    · exact ⟨hn, (h _).mpr (Or.inl rfl)⟩
    · exact ⟨hm, (h _).mpr (Or.inr hP)⟩

theorem selected_remove (hf : Set.InjOn f p.names) (hn : n ∈ p.names) (h : ∀ k, P' k ↔ k ≠ f n ∧ P k) :
    p.selected f P' = p.selected f P \ {n} := by
  ext m
  constructor
  · rintro ⟨hm, hP⟩
    obtain ⟨hne, hP⟩ := (h _).mp hP
    exact ⟨⟨hm, hP⟩, fun he => hne (congrArg f he)⟩
  · rintro ⟨⟨hm, hP⟩, hne⟩
    exact ⟨hm, (h _).mpr ⟨fun he => hne (hf hm hn he), hP⟩⟩

end Places

section Refinement

variable {ι : Type} {p : Folders} {s s' : Store} {t : ι → Option Name} {i : ι} {uuid : Nat → Str} {n : Name}
variable {choice : Choice} {held : Option Name}

/-- The names as places: those with an entry are taken, those with metadata are in use. -/
def Folders.places (p : Folders) (s : Store) (t : ι → Option Name) : State ι Name :=
  ⟨p.selected Name.entry fun k => (s.entries.find k).isSome = true,
    p.selected Name.key fun k => (s.metadata k).isSome = true, t⟩

theorem places_eq (he : ∀ k, (s'.entries.find k).isSome = (s.entries.find k).isSome)
    (hm : ∀ k, (s'.metadata k).isSome = (s.metadata k).isSome) : p.places s' t = p.places s t := by
  have htaken : p.selected Name.entry (fun k => (s'.entries.find k).isSome = true) =
      p.selected Name.entry fun k => (s.entries.find k).isSome = true :=
    selected_congr fun k => by rw [he k]
  have hused : p.selected Name.key (fun k => (s'.metadata k).isSome = true) =
      p.selected Name.key fun k => (s.metadata k).isSome = true :=
    selected_congr fun k => by rw [hm k]
  unfold Folders.places
  rw [htaken, hused]

/-- Entries of the names, and those that were there at the start. -/
def Folders.Known (p : Folders) (key : Str) : Prop :=
  p.store.entries.find key ≠ none ∨ ∃ n ∈ p.names, key = n.entry

/-- What holds besides. -/
structure Inv (p : Folders) (s : Store) (t : ι → Option Name) : Prop where
  stored : ∀ {key record}, s.metadata key = some record → p.Fits key record.value ∧ record.version ≠ []
  entries : ∀ {key record}, s.entries.find key = some record → record.version = lit "1"
  known : ∀ {key}, s.entries.find key ≠ none → p.Known key
  log : s.log = p.store.log
  names : ∀ {i n}, t i = some n → n ∈ p.names
  exclusive : Exclusive (p.places s t)

/-- A name that is held is taken and not in use. -/
theorem Inv.of_held (h : Inv p s t) (hi : t i = some n) :
    (s.entries.find n.entry).isSome = true ∧ s.metadata n.key = none := by
  obtain ⟨-, htaken⟩ := h.exclusive.taken hi
  refine ⟨htaken, Option.not_isSome_iff_eq_none.mp fun hsome => ?_⟩
  exact h.exclusive.unused hi ⟨h.names hi, hsome⟩

theorem createEntry_ok {key : Str} (h : s.entries.find key = none) : (s.createEntry key).1 = .OK := by
  simp [Store.createEntry, putSame, versionOf, h]

/-- An entry is not created again. -/
theorem Inv.createEntry_exists (h : Inv p s t) {key : Str} (hkey : s.entries.find key ≠ none) :
    (s.createEntry key).1 ≠ .OK := by
  obtain ⟨record, hr⟩ := Option.ne_none_iff_exists'.mp hkey
  have hversion : versionOf (s.entries.find key) ≠ [] := by
    rw [hr]
    show record.version ≠ []
    rw [h.entries hr]
    decide
  simp [Store.createEntry, putSame, hversion]

/-- An entry that exists can be deleted. -/
theorem Inv.deleteEntry_ok (h : Inv p s t) {key : Str} (hkey : (s.entries.find key).isSome = true) :
    (s.deleteEntry key).1 = .OK := by
  obtain ⟨record, hr⟩ := Option.isSome_iff_exists.mp hkey
  simp [Store.deleteEntry, deleteSame, hr, h.entries hr]

/-- An access that is not carried out as it should be fails. -/
theorem answer_failed {result : StatusCode × Store} {x : StatusCode} {r : Req}
    (h : answer s result choice = some (x, s')) :
    (x, s') = result ∨ (carriedOut s r choice = false ∧ x ≠ .OK ∧ (s' = s ∨ s' = result.2)) := by
  cases choice with
  | done => exact Or.inl (Option.some.inj h).symm
  | unreachable =>
    cases h
    exact Or.inr ⟨rfl, by decide, Or.inl rfl⟩
  | lost =>
    cases h
    exact Or.inr ⟨rfl, by decide, Or.inr rfl⟩
  | expired b => cases h
  | number k => cases h

variable [DecidableEq ι]

/-- What an access does to the names: one step, a fault if it fails, or nothing. -/
def Refines (p : Folders) (s : Store) (t : ι → Option Name) (i : ι) (r : Req) (choice : Choice) (s' : Store)
    (held : Option Name) : Prop :=
  p.places s' (Function.update t i held) = p.places s t ∨
    Step i (p.places s t) (p.places s' (Function.update t i held)) ∨
    (carriedOut s r choice = false ∧ Fault i (p.places s t) (p.places s' (Function.update t i held)))

theorem refines_same {r : Req} (hheld : held = t i)
    (he : ∀ k, (s'.entries.find k).isSome = (s.entries.find k).isSome)
    (hm : ∀ k, (s'.metadata k).isSome = (s.metadata k).isSome) : Refines p s t i r choice s' held := by
  refine Or.inl ?_
  rw [hheld, Function.update_eq_self]
  exact places_eq he hm

/-- An entry is created: a free name is reserved. -/
theorem refines_createEntry (hs : p.Start) (h : Inv p s t) {status : StatusCode} {key : Str}
    (hallowed : Allowed p (t i) (.createEntry key))
    (hserve : serve uuid s (.createEntry key) choice = some (status, s')) :
    Refines p s t i (.createEntry key) choice s' (taken (t i) (p.named Name.entry key) status) := by
  obtain ⟨hi, n, hn, rfl⟩ := hallowed
  have hsome := OneWinner.createEntry_isSome s n.entry
  have hanswer := answer_failed (r := .createEntry n.entry) hserve
  rw [named_eq hs.entry hn]
  by_cases hfree : s.entries.find n.entry = none
  · have hok := createEntry_ok hfree
    have hnew : ∀ k, ((s.createEntry n.entry).2.entries.find k).isSome = true ↔
        k = n.entry ∨ (s.entries.find k).isSome = true := by
      intro k
      rw [hsome k, hok]
      by_cases hk : k = n.entry <;> simp [hk]
    have hplaces : ∀ holder : ι → Option Name, p.places (s.createEntry n.entry).2 holder =
        ⟨insert n (p.places s t).taken, (p.places s t).used, holder⟩ := by
      intro holder
      unfold Folders.places
      rw [selected_insert hs.entry hn hnew]
      rfl
    have hfree' : n ∉ (p.places s t).taken := by
      rintro ⟨-, hfound⟩
      rw [hfree] at hfound
      cases hfound
    rcases hanswer with he | ⟨hfailed, hstatus, rfl | rfl⟩
    · obtain rfl : status = .OK := (congrArg Prod.fst he).trans hok
      obtain rfl : s' = (s.createEntry n.entry).2 := congrArg Prod.snd he
      refine Or.inr (Or.inl ?_)
      rw [hplaces]
      exact Step.reserve hfree' hi
    · exact refines_same (if_neg hstatus) (fun _ => rfl) fun _ => rfl
    · refine Or.inr (Or.inr ⟨hfailed, ?_⟩)
      rw [hplaces, show taken (t i) (some n) status = t i from if_neg hstatus, Function.update_eq_self]
      exact Fault.reserve n
  · have hexists := h.createEntry_exists hfree
    have hsame : ∀ k, ((s.createEntry n.entry).2.entries.find k).isSome = (s.entries.find k).isSome := by
      intro k
      rw [hsome k, if_neg fun hand => hexists hand.2]
    rcases hanswer with he | ⟨-, hstatus, rfl | rfl⟩
    · obtain rfl : status = (s.createEntry n.entry).1 := congrArg Prod.fst he
      obtain rfl : s' = (s.createEntry n.entry).2 := congrArg Prod.snd he
      exact refines_same (if_neg hexists) hsame fun _ => rfl
    · exact refines_same (if_neg hstatus) (fun _ => rfl) fun _ => rfl
    · exact refines_same (if_neg hstatus) hsame fun _ => rfl

/-- The entry of the name that is held is deleted: the name is released. -/
theorem refines_deleteEntry (hs : p.Start) (h : Inv p s t) {status : StatusCode} {key : Str}
    (hallowed : Allowed p (t i) (.deleteEntry key))
    (hserve : serve uuid s (.deleteEntry key) choice = some (status, s')) :
    Refines p s t i (.deleteEntry key) choice s' none := by
  obtain ⟨n, hi, rfl⟩ := hallowed
  have hok := h.deleteEntry_ok (h.of_held hi).1
  have hgone : ∀ k, ((s.deleteEntry n.entry).2.entries.find k).isSome = true ↔
      k ≠ n.entry ∧ (s.entries.find k).isSome = true := by
    intro k
    rw [OneWinner.deleteEntry_isSome s n.entry k, hok]
    by_cases hk : k = n.entry <;> simp [hk]
  have hstep : Step i (p.places s t) (p.places (s.deleteEntry n.entry).2 (Function.update t i none)) := by
    have hplaces : p.places (s.deleteEntry n.entry).2 (Function.update t i none) =
        ⟨(p.places s t).taken \ {n}, (p.places s t).used, Function.update t i none⟩ := by
      unfold Folders.places
      rw [selected_remove hs.entry (h.names hi) hgone]
      rfl
    rw [hplaces]
    exact Step.release hi
  rcases answer_failed (r := .deleteEntry n.entry) hserve with he | ⟨hfailed, -, rfl | rfl⟩
  · obtain rfl : s' = (s.deleteEntry n.entry).2 := congrArg Prod.snd he
    exact Or.inr (Or.inl hstep)
  · exact Or.inr (Or.inr ⟨hfailed, Fault.forget⟩)
  · exact Or.inr (Or.inl hstep)

/-- Metadata are stored: under the name that is held, which is put to use, or in place of others. -/
theorem refines_put (hs : p.Start) (h : Inv p s t) {me mdi : Nat} {why : Purpose} {key expected version : Str}
    {md : Inode} {status : StatusCode} (hallowed : Allowed p (t i) (.put me mdi why key expected md))
    (hserve : serve uuid s (.put me mdi why key expected md) choice = some ((status, version), s')) :
    Refines p s t i (.put me mdi why key expected md) choice s' (if expected = [] then none else t i) := by
  obtain ⟨-, hcases⟩ := serve_put hserve
  by_cases hexpected : expected = []
  · obtain ⟨n, hi, rfl⟩ := hallowed.2 hexpected
    have hnone := (h.of_held hi).2
    have hversion : versionOf (s.metadata n.key) = expected := by
      rw [hnone, hexpected]
      rfl
    rw [if_pos hexpected]
    rcases hcases with ⟨-, -, rfl⟩ | ⟨hstatus, hmismatch, rfl⟩
    · have hnew : ∀ k,
          (if k = n.key then some (⟨md, version⟩ : KineticRecord Inode) else s.metadata k).isSome = true ↔
            k = n.key ∨ (s.metadata k).isSome = true := by
        intro k
        by_cases hk : k = n.key <;> simp [hk]
      have hplaces : p.places { s.set n.key (some ⟨md, version⟩) with uuids := s.uuids + 1 }
          (Function.update t i none) =
          ⟨(p.places s t).taken, insert n (p.places s t).used, Function.update t i none⟩ := by
        unfold Folders.places
        rw [← selected_insert hs.key (h.names hi) hnew]
        simp only [Store.set_metadata]
        rfl
      refine Or.inr (Or.inl ?_)
      rw [hplaces]
      exact Step.use hi
    · refine Or.inr (Or.inr ⟨?_, Fault.forget⟩)
      by_contra hc
      obtain ⟨result, hresult, he⟩ := Option.map_eq_some_iff.mp hserve
      obtain rfl := OneWinner.answer_carriedOut (eq_true_of_ne_false hc) hresult
      have hok : (s.put uuid n.key expected md).1 = status :=
        congrArg (fun x : (StatusCode × Str) × Store => x.1.1) he
      apply hstatus
      rw [← hok]
      simp [Store.put, putSame, hversion]
  · rw [if_neg hexpected]
    rcases hcases with ⟨hversion, -, rfl⟩ | ⟨-, -, rfl⟩
    · refine refines_same rfl (fun _ => rfl) fun k => ?_
      show ((s.set key (some ⟨md, version⟩)).metadata k).isSome = _
      rw [Store.set_metadata]
      split
      · rename_i hk
        rw [hk]
        cases hm : s.metadata key with
        | none =>
          rw [hm] at hversion
          exact absurd hversion.symm hexpected
        | some r => rfl
      · rfl
    · exact refines_same rfl (fun _ => rfl) fun _ => rfl

/-- Metadata are deleted: the name is taken out of use. -/
theorem refines_delete (hs : p.Start) {me : Nat} {why : Purpose} {key : Str} {expected : Option Str}
    {status : StatusCode} (hallowed : Allowed p (t i) (.delete me why key expected))
    (hserve : serve uuid s (.delete me why key expected) choice = some (status, s')) :
    Refines p s t i (.delete me why key expected) choice s' (taken (t i) (p.named Name.key key) status) := by
  obtain ⟨hi, n, hn, rfl⟩ := hallowed
  rw [named_eq hs.key hn]
  rcases serve_delete hserve with ⟨⟨record, hr, hversion⟩, -, rfl⟩ | ⟨hstatus, rfl⟩
  · have hgone : ∀ k, (if k = n.key then none else s.metadata k).isSome = true ↔
        k ≠ n.key ∧ (s.metadata k).isSome = true := by
      intro k
      by_cases hk : k = n.key <;> simp [hk]
    have hplaces : ∀ holder : ι → Option Name, p.places (s.set n.key none) holder =
        ⟨(p.places s t).taken, (p.places s t).used \ {n}, holder⟩ := by
      intro holder
      unfold Folders.places
      rw [← selected_remove hs.key hn hgone]
      simp only [Store.set_metadata]
      rfl
    have hused : n ∈ (p.places s t).used := ⟨hn, Option.isSome_iff_exists.mpr ⟨record, hr⟩⟩
    by_cases hok : status = .OK
    · subst hok
      refine Or.inr (Or.inl ?_)
      rw [hplaces]
      exact Step.vacate hused hi
    · refine Or.inr (Or.inr ⟨?_, ?_⟩)
      · by_contra hc
        have he := OneWinner.answer_carriedOut (x := (status, s.set n.key none)) (eq_true_of_ne_false hc) hserve
        apply hok
        rw [show status = (s.delete n.key expected).1 from congrArg Prod.fst he]
        cases expected with
        | none => simp [Store.delete, hr]
        | some version => simp [Store.delete, deleteSame, hr, hversion version rfl]
      · rw [hplaces, show taken (t i) (some n) status = t i from if_neg hok, Function.update_eq_self]
        exact Fault.vacate n
  · exact refines_same (if_neg hstatus) (fun _ => rfl) fun _ => rfl

/-- Every access that the protocol allows refines the reservation of names. -/
theorem refines (hs : p.Start) (h : Inv p s t) {r : Req} {x : Res r} (hallowed : Allowed p (t i) r)
    (hserve : serve uuid s r choice = some (x, s')) : Refines p s t i r choice s' (next p (t i) r x) := by
  have hquiet : r.quiet = true → r.names = false → next p (t i) r x = t i →
      Refines p s t i r choice s' (next p (t i) r x) := by
    intro hq hn hnext
    obtain ⟨hmeta, -⟩ := serve_quiet hq hserve
    obtain ⟨hentries, -⟩ := serve_unnamed hn hserve
    exact refines_same hnext (fun k => by rw [hentries]) fun k => by rw [hmeta]
  cases r with
  | get me mdi key =>
    obtain ⟨rfl, -, -⟩ := serve_get (x := x) hserve
    exact refines_same rfl (fun _ => rfl) fun _ => rfl
  | put me mdi why key expected md =>
    obtain ⟨status, version⟩ : StatusCode × Str := x
    exact refines_put hs h hallowed hserve
  | delete me why key expected => exact refines_delete hs hallowed hserve
  | createEntry key => exact refines_createEntry hs h hallowed hserve
  | deleteEntry key => exact refines_deleteEntry hs h hallowed hserve
  | putVersion me why key record => exact hallowed.elim
  | append version entry => exact hallowed.elim
  | entryRange start stop max => exact hquiet rfl rfl rfl
  | inodeNumber => exact hquiet rfl rfl rfl
  | expired key => exact hquiet rfl rfl rfl
  | databaseUpdate version => exact hquiet rfl rfl rfl

/-! ### The invariant -/

theorem named_mem {f : Name → Str} {key : Str} (h : p.named f key = some n) : n ∈ p.names := by
  unfold Folders.named at h
  split at h
  · rename_i hn
    rw [← Option.some.inj h]
    exact hn.choose_spec.1
  · cases h

theorem taken_names {f : Name → Str} {key : Str} {status : StatusCode} (h : ∀ n, held = some n → n ∈ p.names)
    (hn : taken held (p.named f key) status = some n) : n ∈ p.names := by
  unfold taken at hn
  split at hn
  · exact named_mem hn
  · exact h n hn

theorem next_names (h : ∀ n, held = some n → n ∈ p.names) {r : Req} {x : Res r} (hn : next p held r x = some n) :
    n ∈ p.names := by
  cases r with
  | put me mdi why key expected md =>
    have hput : (if expected = [] then none else held) = some n := hn
    split at hput
    · cases hput
    · exact h n hput
  | delete me why key expected => exact taken_names h hn
  | createEntry key => exact taken_names h hn
  | deleteEntry key => cases hn
  | _ => exact h n hn

theorem log_kept {r : Req} {x : Res r} (hallowed : Allowed p held r)
    (hserve : serve uuid s r choice = some (x, s')) : s'.log = s.log := by
  cases r with
  | createEntry key =>
    change StatusCode at x
    exact (serve_createEntry hserve).2.1
  | deleteEntry key =>
    rcases answer_failed (r := .deleteEntry key) (x := x) hserve with he | ⟨-, -, rfl | rfl⟩
    · obtain rfl : s' = (s.deleteEntry key).2 := congrArg Prod.snd he
      rfl
    · rfl
    · rfl
  | append version entry => exact hallowed.elim
  | _ => exact (serve_unnamed rfl hserve).2

/-- Entries are all of version 1. -/
theorem entries_kept (h : ∀ {key record}, s.entries.find key = some record → record.version = lit "1") {r : Req}
    {x : Res r} (hallowed : Allowed p held r) (hserve : serve uuid s r choice = some (x, s')) {key : Str}
    {record : KineticRecord Str} (hr : s'.entries.find key = some record) : record.version = lit "1" := by
  have hcreate : ∀ {k}, (s.createEntry k).2.entries.find key = some record → record.version = lit "1" := by
    intro k hr
    have hfind : (s.entries.set k (putSame (s.entries.find k) [] ⟨[], lit "1"⟩).2).find key = some record := hr
    rw [Replication.Records.find_set] at hfind
    split at hfind
    · unfold putSame at hfind
      split at hfind
      · cases hfind
        rfl
      · exact h hfind
    · exact h hfind
  have hdelete : ∀ {k}, (s.deleteEntry k).2.entries.find key = some record → record.version = lit "1" := by
    intro k hr
    have hfind : (s.entries.set k (deleteSame (s.entries.find k) (lit "1")).2).find key = some record := hr
    rw [Replication.Records.find_set] at hfind
    split at hfind
    · cases hf : s.entries.find k with
      | none =>
        rw [hf] at hfind
        cases hfind
      | some old =>
        rw [hf] at hfind
        unfold deleteSame at hfind
        dsimp only at hfind
        split at hfind
        · cases hfind
        · cases hfind
          exact h hf
    · exact h hfind
  cases r with
  | createEntry k =>
    rcases answer_failed (r := .createEntry k) (x := x) hserve with he | ⟨-, -, rfl | rfl⟩
    · obtain rfl : s' = (s.createEntry k).2 := congrArg Prod.snd he
      exact hcreate hr
    · exact h hr
    · exact hcreate hr
  | deleteEntry k =>
    rcases answer_failed (r := .deleteEntry k) (x := x) hserve with he | ⟨-, -, rfl | rfl⟩
    · obtain rfl : s' = (s.deleteEntry k).2 := congrArg Prod.snd he
      exact hdelete hr
    · exact h hr
    · exact hdelete hr
  | append version entry => exact hallowed.elim
  | _ =>
    rw [(serve_unnamed rfl hserve).1] at hr
    exact h hr

/-- Entries are created for the names. -/
theorem known_kept (h : ∀ {key}, s.entries.find key ≠ none → p.Known key) {r : Req} {x : Res r}
    (hallowed : Allowed p held r) (hserve : serve uuid s r choice = some (x, s')) {key : Str}
    (hkey : s'.entries.find key ≠ none) : p.Known key := by
  by_cases hk : s.entries.find key = none
  · by_cases hr : r = .createEntry key
    · subst hr
      exact Or.inr hallowed.2
    · exact absurd (serve_absent hserve hk hr) hkey
  · exact h hk

theorem stored_kept (huuid : ∀ n, uuid n ≠ [])
    (h : ∀ {key record}, s.metadata key = some record → p.Fits key record.value ∧ record.version ≠ []) {r : Req}
    {x : Res r} (hallowed : Allowed p held r) (hserve : serve uuid s r choice = some (x, s')) {key : Str}
    {record : KineticRecord Inode} (hr : s'.metadata key = some record) :
    p.Fits key record.value ∧ record.version ≠ [] := by
  cases r with
  | get me mdi k =>
    obtain ⟨rfl, -, -⟩ := serve_get (x := x) hserve
    exact h hr
  | put me mdi why k expected md =>
    obtain ⟨status, version⟩ : StatusCode × Str := x
    obtain ⟨rfl, ⟨-, -, rfl⟩ | ⟨-, -, rfl⟩⟩ := serve_put hserve
    · have hset : (s.set k (some ⟨md, uuid s.uuids⟩)).metadata key = some record := hr
      rw [Store.set_metadata] at hset
      split at hset
      · rename_i hk
        cases hset
        rw [hk]
        exact ⟨hallowed.1, huuid _⟩
      · exact h hset
    · exact h hr
  | delete me why k expected =>
    change StatusCode at x
    rcases serve_delete hserve with ⟨-, -, rfl⟩ | ⟨-, rfl⟩
    · rw [Store.set_metadata] at hr
      split at hr
      · cases hr
      · exact h hr
    · exact h hr
  | putVersion me why k record => exact hallowed.elim
  | _ =>
    rw [(serve_quiet rfl hserve).1] at hr
    exact h hr

theorem nextInodeNumber_ne {n : Nat} (h : nextInodeNumber choice = some n) : n ≠ 0 := by
  cases choice with
  | number m =>
    have hm : (if m = 0 then none else some m) = some n := h
    split at hm
    · cases hm
    · rename_i hne
      exact Option.some.inj hm ▸ hne
  | done => cases h
  | unreachable => cases h
  | lost => cases h
  | expired b => cases h

theorem Inv.exclusive_of_refines (h : Inv p s t) {r : Req} (href : Refines p s t i r choice s' held) :
    Exclusive (p.places s' (Function.update t i held)) := by
  rcases href with he | hstep | ⟨-, hfault⟩
  · rw [he]
    exact h.exclusive
  · exact h.exclusive.step hstep
  · exact h.exclusive.fault hfault

/-- Every access that the protocol allows is answered as promised and keeps the invariant. -/
theorem listing_sound (hs : p.Start) (huuid : ∀ n, uuid n ≠ []) :
    Sound (store uuid) (fun _ : ι => protocol p) (Inv p) := by
  intro s t i r choice x s' h hallowed hserve
  change serve uuid s r choice = some (x, s') at hserve
  refine ⟨?_, stored_kept huuid h.stored hallowed hserve, entries_kept h.entries hallowed hserve,
    known_kept h.known hallowed hserve, (log_kept hallowed hserve).trans h.log, fun {j n} hj => ?_,
    h.exclusive_of_refines (refines hs h hallowed hserve)⟩
  · cases r with
    | get me mdi key =>
      obtain ⟨-, hget, -⟩ := serve_get (x := x) hserve
      exact fun record hx => h.stored (hget record hx)
    | put me mdi why key expected md =>
      obtain ⟨status, version⟩ : StatusCode × Str := x
      obtain ⟨rfl, -⟩ := serve_put hserve
      exact huuid s.uuids
    | inodeNumber =>
      obtain ⟨n, hn, he⟩ := Option.map_eq_some_iff.mp hserve
      cases he
      exact nextInodeNumber_ne hn
    | databaseUpdate version =>
      intro entries hx
      rw [← h.log]
      rw [hx] at hserve
      exact serve_databaseUpdate hserve
    | _ => exact trivial
  · by_cases hji : j = i
    · rw [hji, Function.update_self] at hj
      exact next_names (fun n hn => h.names hn) hj
    · rw [Function.update_of_ne hji] at hj
      exact h.names hj

/-- If no access fails, every name with an entry also has metadata or is held. -/
theorem listing_complete (hs : p.Start) (huuid : ∀ n, uuid n ≠ []) : Sound (undisturbed uuid)
    (fun _ : ι => protocol p) (fun s t => Inv p s t ∧ Complete (p.places s t)) := by
  rintro s t i r choice x s' ⟨h, hcomplete⟩ hallowed hserve
  obtain ⟨hc, hserve⟩ := serve_restrict hserve
  obtain ⟨hanswer, h'⟩ := listing_sound hs huuid s t i r choice x s' h hallowed hserve
  refine ⟨hanswer, h', ?_⟩
  have href := refines hs h hallowed hserve
  change Complete (p.places s' (Function.update t i (next p (t i) r x)))
  rcases href with he | hstep | ⟨hfailed, -⟩
  · rw [he]
    exact hcomplete
  · exact hcomplete.step hstep
  · rw [hc] at hfailed
    cases hfailed

end Refinement

/-! ### Two names in the root directory -/

/-- The names `/a` and `/f`; there is a file `/f`. -/
def twoNames : Folders := ⟨{OneWinner.inRoot (lit "a"), OneWinner.inRoot (lit "f")}, OneWinner.withFile⟩

/-- Client `1` removes `/f`, and both it and client `0` create `/a`. -/
def contend (i : Nat) : List Operation :=
  if i = 0 then [.create superuser (lit "/a") S_IFREG]
  else if i = 1 then [.unlink superuser (lit "/f"), .create superuser (lit "/a") S_IFREG] else []

/-- Client `0` is about to store the metadata of `/a`. -/
def entryCreated : List (Nat × Choice) :=
  [(1, .done), (1, .done), (1, .done), (1, .done), (0, .done), (0, .done), (0, .done), (0, .number 7)]

/-- Client `1` finds the entry of `/a`, and then client `0` stores the metadata. -/
def bothDone : List (Nat × Choice) :=
  entryCreated ++ [(1, .done), (1, .expired false), (1, .done), (0, .done)]

theorem twoNames_cases {n : Name} (h : n ∈ twoNames.names) :
    n = OneWinner.inRoot (lit "a") ∨ n = OneWinner.inRoot (lit "f") := h

theorem twoNames_injective {f : Name → Str} (h : f (OneWinner.inRoot (lit "a")) ≠ f (OneWinner.inRoot (lit "f"))) :
    Set.InjOn f twoNames.names := by
  intro n hn m hm he
  rcases twoNames_cases hn with rfl | rfl <;> rcases twoNames_cases hm with rfl | rfl
  · rfl
  · exact absurd he h
  · exact absurd he.symm h
  · rfl

theorem twoNames_start : twoNames.Start where
  valid n hn := by
    rcases twoNames_cases hn with rfl | rfl
    · exact OneWinner.inRoot_valid (lit "a") (by decide +kernel)
    · exact OneWinner.inRoot_valid (lit "f") (by decide +kernel)
  key := twoNames_injective (by decide)
  entry := twoNames_injective (by decide +kernel)
  directory n hn m hm := by
    rcases twoNames_cases hn with rfl | rfl <;> rcases twoNames_cases hm with rfl | rfl <;> decide
  key_ne n hn := by
    rcases twoNames_cases hn with rfl | rfl <;> exact List.cons_ne_nil _ _
  stored {key record} hr := by
    have hdirectory : ∀ n ∈ twoNames.names, n.dirKey = lit "/" ∧ n.dirInode = 1 := by
      intro n hn
      rcases twoNames_cases hn with rfl | rfl <;> exact ⟨rfl, rfl⟩
    rcases OneWinner.withFile_metadata hr with ⟨rfl, rfl⟩ | ⟨rfl, rfl⟩
    · refine ⟨⟨rfl, by decide, fun n hn hkey => ?_⟩, Versions.counter_unique.ne_empty 1⟩
      rw [(hdirectory n hn).1] at hkey
      cases hkey
    · exact ⟨⟨rfl, by decide, fun n hn _ => (hdirectory n hn).2.symm⟩, Versions.counter_unique.ne_empty 0⟩
  entries {key record} hr := by
    have hfind : OneWinner.withFile.entries.find key =
        if key = direntryKey 1 (lit "f") then some ⟨[], lit "1"⟩ else none :=
      Replication.Records.find_set _ _ _ _
    change OneWinner.withFile.entries.find key = some record at hr
    rw [hfind] at hr
    split at hr
    · cases hr
      rfl
    · cases hr
  listed n hn := by
    rcases twoNames_cases hn with rfl | rfl <;> decide +kernel

theorem twoNames_sees (i : Nat) : twoNames.Sees ((fun _ => PathMapDB.empty : Nat → PathMapDB) i) where
  led n hn := by
    rcases twoNames_cases hn with rfl | rfl
    · exact OneWinner.inRoot_led ⟨1, by decide +kernel⟩
    · exact OneWinner.inRoot_led ⟨1, by decide +kernel⟩
  unmapped n hn db hdb := by
    obtain rfl := Rmdir.refreshed_empty hdb
    rcases twoNames_cases hn with rfl | rfl <;> decide +kernel

theorem contend_on : ∀ i, ∀ op ∈ contend i, On twoNames.names op := by
  have ha : OneWinner.inRoot (lit "a") ∈ twoNames.names := Or.inl rfl
  have hf : OneWinner.inRoot (lit "f") ∈ twoNames.names := Or.inr rfl
  intro i op hop
  unfold contend at hop
  split at hop
  · rw [List.mem_singleton.mp hop]
    exact ⟨_, ha, rfl⟩
  · split at hop
    · rcases List.mem_cons.mp hop with rfl | hop
      · exact ⟨_, hf, rfl⟩
      · rw [List.mem_singleton.mp hop]
        exact ⟨_, ha, rfl⟩
    · cases hop

/-- Clients that contend for two names. -/
def contending : Config Req Res Store Nat (Unit × Local) :=
  sessions relaxed 5 contend (fun _ => PathMapDB.empty) OneWinner.withFile

/-! ## Runs -/

section Runs

variable {p : Folders} {uuid : Nat → Str} {env : Env} {fuel : Nat} {ops : Nat → List Operation}
variable {pmap : Nat → PathMapDB} {schedule : List (Nat × Choice)}
variable {c : Config Req Res Store Nat (Unit × Local)}

theorem inv_start (hs : p.Start) : Inv p p.store fun _ : Nat => none where
  stored := hs.stored
  entries := hs.entries
  known := Or.inl
  log := rfl
  names := nofun
  exclusive := by
    refine ⟨nofun, nofun, nofun, ?_⟩
    rintro n ⟨hn, hstored⟩
    exact ⟨hn, Option.isSome_iff_ne_none.mpr (hs.listed n hn (Option.isSome_iff_ne_none.mp hstored))⟩

theorem sessions_conform (hs : p.Start) (hsee : ∀ i, p.Sees (pmap i)) (hops : ∀ i, ∀ op ∈ ops i, On p.names op)
    (i : Nat) : ((sessions env fuel ops pmap p.store).prog i).Conforms (protocol p) (fun _ t => t = none) none := by
  have hmounted : Memory.Sane (discipline (hsee i) i env none) ∅ (Local.mounted (pmap i)) none :=
    ⟨rfl, Rmdir.Refreshed.start, fun _ _ => ⟨fun _ => ⟨rfl, rfl⟩, rfl, fun hn => absurd rfl hn⟩, nofun, nofun⟩
  exact (session_idle hs (hops i) fuel _ none hmounted).mono fun _ _ _ h => h.2.idle

theorem sessions_inv (hs : p.Start) (huuid : ∀ n, uuid n ≠ []) (hsee : ∀ i, p.Sees (pmap i))
    (hops : ∀ i, ∀ op ∈ ops i, On p.names op)
    (hrun : runFrom (store uuid) (sessions env fuel ops pmap p.store) schedule = some c) :
    ∃ t, Inv p c.shared t ∧ ∀ i, (c.prog i).Conforms (protocol p) (fun _ t => t = none) (t i) :=
  runFrom_conforms (listing_sound hs huuid) (inv_start hs) (sessions_conform hs hsee hops) hrun

/-- At any moment of any run, whatever fails and wherever a client stops: metadata under a name have their
    directory entry. -/
theorem metadata_listed (hs : p.Start) (huuid : ∀ n, uuid n ≠ []) (hsee : ∀ i, p.Sees (pmap i))
    (hops : ∀ i, ∀ op ∈ ops i, On p.names op)
    (hrun : runFrom (store uuid) (sessions env fuel ops pmap p.store) schedule = some c) :
    ∀ n ∈ p.names, c.shared.metadata n.key ≠ none → c.shared.entries.find n.entry ≠ none := by
  obtain ⟨t, h, -⟩ := sessions_inv hs huuid hsee hops hrun
  intro n hn hstored
  exact Option.isSome_iff_ne_none.mp (h.exclusive.used ⟨hn, Option.isSome_iff_ne_none.mpr hstored⟩).2

theorem metadata_listed_contending : ∃ c, runFrom (store counter) contending bothDone = some c ∧
    ∀ n ∈ twoNames.names, c.shared.metadata n.key ≠ none → c.shared.entries.find n.entry ≠ none := by
  have hrun : (runFrom (store counter) contending bothDone).isSome = true := by decide +kernel
  obtain ⟨c, hc⟩ := Option.isSome_iff_exists.mp hrun
  exact ⟨c, hc, metadata_listed twoNames_start Versions.counter_unique.ne_empty twoNames_sees contend_on hc⟩

/-- The second of the two accesses by which a client creates or removes a name: the metadata are stored, or
    the entry is deleted. -/
def Completes (n : Name) : Req → Prop
  | .put _ _ _ key expected _ => key = n.key ∧ expected = []
  | .deleteEntry key => key = n.entry
  | _ => False

instance (n : Name) : (r : Req) → Decidable (Completes n r)
  | .put _ _ _ key expected _ => inferInstanceAs (Decidable (key = n.key ∧ expected = []))
  | .deleteEntry key => inferInstanceAs (Decidable (key = n.entry))
  | .get _ _ _ => inferInstanceAs (Decidable False)
  | .putVersion _ _ _ _ => inferInstanceAs (Decidable False)
  | .delete _ _ _ _ => inferInstanceAs (Decidable False)
  | .createEntry _ => inferInstanceAs (Decidable False)
  | .entryRange _ _ _ => inferInstanceAs (Decidable False)
  | .inodeNumber => inferInstanceAs (Decidable False)
  | .expired _ => inferInstanceAs (Decidable False)
  | .databaseUpdate _ => inferInstanceAs (Decidable False)
  | .append _ _ => inferInstanceAs (Decidable False)

/-- The store carries out an access without an error. -/
def Succeeds (uuid : Nat → Str) (s : Store) : Req → Prop
  | .put _ _ _ key expected md => (s.put uuid key expected md).1 = .OK
  | .deleteEntry key => (s.deleteEntry key).1 = .OK
  | _ => True

/-- Nobody interferes with a client that is about to complete the creation or removal of a name: the access
    cannot fail for what others have done, and no other client is about to do the same. -/
theorem completes_undisturbed (hs : p.Start) (huuid : ∀ n, uuid n ≠ []) (hsee : ∀ i, p.Sees (pmap i))
    (hops : ∀ i, ∀ op ∈ ops i, On p.names op)
    (hrun : runFrom (store uuid) (sessions env fuel ops pmap p.store) schedule = some c) {n : Name}
    (hn : n ∈ p.names) {i : Nat} {r : Req} (hr : r ∈ (c.prog i).request) (hc : Completes n r) :
    Succeeds uuid c.shared r ∧ ∀ j, ∀ r' ∈ (c.prog j).request, Completes n r' → j = i := by
  obtain ⟨t, h, hprog⟩ := sessions_inv hs huuid hsee hops hrun
  have hheld : ∀ {j r}, r ∈ (c.prog j).request → Completes n r → t j = some n := by
    intro j r hr hc
    have hallowed : Allowed p (t j) r := (hprog j).allowed hr
    cases r with
    | put me mdi why key expected md =>
      obtain ⟨m, hm, hkey⟩ := hallowed.2 hc.2
      rw [hm, hs.key (h.names hm) hn (hkey.symm.trans hc.1)]
    | deleteEntry key =>
      obtain ⟨m, hm, hkey⟩ := hallowed
      have hkey' : key = n.entry := hc
      rw [hm, hs.entry (h.names hm) hn (hkey.symm.trans hkey')]
    | _ => exact hc.elim
  have hi := hheld hr hc
  refine ⟨?_, fun j r' hr' hc' => h.exclusive.sole (hheld hr' hc') hi⟩
  obtain ⟨hentry, hfree⟩ := h.of_held hi
  cases r with
  | put me mdi why key expected md =>
    obtain ⟨rfl, rfl⟩ := hc
    show (c.shared.put uuid n.key [] md).1 = .OK
    simp [Store.put, putSame, versionOf, hfree]
  | deleteEntry key =>
    obtain rfl : key = n.entry := hc
    exact h.deleteEntry_ok hentry
  | _ => exact hc.elim

theorem completes_undisturbed_entry_created : ∃ c, runFrom (store counter) contending entryCreated = some c ∧
    ∃ r ∈ (c.prog 0).request, Succeeds counter c.shared r ∧
      ∀ j, ∀ r' ∈ (c.prog j).request, Completes (OneWinner.inRoot (lit "a")) r' → j = 0 := by
  have hrun : ((runFrom (store counter) contending entryCreated).any fun c =>
      (c.prog 0).request.any fun r => Completes (OneWinner.inRoot (lit "a")) r) = true := by decide +kernel
  obtain ⟨c, hc, hr⟩ := (Option.any_eq_true _ _).mp hrun
  obtain ⟨r, hr, hcompletes⟩ := (Option.any_eq_true _ _).mp hr
  exact ⟨c, hc, r, hr, completes_undisturbed twoNames_start Versions.counter_unique.ne_empty twoNames_sees
    contend_on hc (Or.inl rfl) hr (of_decide_eq_true hcompletes)⟩

/-- If no access fails, then once all clients have finished, the names with an entry are those with metadata. -/
theorem entries_match_metadata (hs : p.Start) (huuid : ∀ n, uuid n ≠ [])
    (hmatch : ∀ n ∈ p.names, p.store.entries.find n.entry ≠ none → p.store.metadata n.key ≠ none)
    (hsee : ∀ i, p.Sees (pmap i)) (hops : ∀ i, ∀ op ∈ ops i, On p.names op)
    (hrun : runFrom (undisturbed uuid) (sessions env fuel ops pmap p.store) schedule = some c)
    (hdone : ∀ i, (c.prog i).result.isSome = true) :
    ∀ n ∈ p.names, c.shared.entries.find n.entry ≠ none ↔ c.shared.metadata n.key ≠ none := by
  have hstart : Complete (p.places p.store fun _ : Nat => none) := by
    rintro n ⟨hn, hentry⟩
    exact Or.inl ⟨hn, Option.isSome_iff_ne_none.mpr (hmatch n hn (Option.isSome_iff_ne_none.mp hentry))⟩
  obtain ⟨t, ⟨h, hcomplete⟩, hprog⟩ := runFrom_conforms (listing_complete hs huuid) ⟨inv_start hs, hstart⟩
    (sessions_conform hs hsee hops) hrun
  have hidle : ∀ i, t i = none := by
    intro i
    obtain ⟨x, hx⟩ := Option.isSome_iff_exists.mp (hdone i)
    have hi := hprog i
    rw [Prog.result_eq_some.mp hx] at hi
    exact hi
  intro n hn
  simp only [← Option.isSome_iff_ne_none]
  constructor
  · intro hentry
    rcases hcomplete n ⟨hn, hentry⟩ with hused | ⟨i, hi⟩
    · exact hused.2
    · exact absurd ((hidle i).symm.trans hi) nofun
  · exact fun hstored => (h.exclusive.used ⟨hn, hstored⟩).2

/-- Client `0` has created `/a`, client `1` has removed `/f`. -/
theorem entries_match_metadata_both_done : ∃ c, runFrom (undisturbed counter) contending bothDone = some c ∧
    ∀ n ∈ twoNames.names, c.shared.entries.find n.entry ≠ none ↔ c.shared.metadata n.key ≠ none := by
  have hrun : ((runFrom (undisturbed counter) contending bothDone).any fun c =>
      (c.prog 0).result.isSome ∧ (c.prog 1).result.isSome) = true := by decide +kernel
  obtain ⟨c, hc, hresults⟩ := (Option.any_eq_true _ _).mp hrun
  obtain ⟨h0, h1⟩ := of_decide_eq_true hresults
  refine ⟨c, hc, entries_match_metadata twoNames_start Versions.counter_unique.ne_empty ?_ twoNames_sees
    contend_on hc fun i => ?_⟩
  · intro n hn
    rcases twoNames_cases hn with rfl | rfl <;> decide +kernel
  · by_cases hi0 : i = 0
    · rw [hi0]
      exact h0
    by_cases hi1 : i = 1
    · rw [hi1]
      exact h1
    have hclients : ∀ e ∈ bothDone, e.1 = 0 ∨ e.1 = 1 := by decide
    have hprog := runFrom_prog_eq hc (i := i) fun e he hei =>
      (hclients e he).elim (fun h => hi0 (hei.symm.trans h)) fun h => hi1 (hei.symm.trans h)
    rw [hprog]
    show ((session i relaxed 5 (contend i)).run (Local.mounted PathMapDB.empty)).result.isSome = true
    rw [show contend i = [] from by simp [contend, hi0, hi1]]
    rfl

end Runs

end HFlat.Fuse.Reserved
