/-
What the report of several passes tells of a document. Each pass lists a
document at most once, and so says one thing of it (`verdict?`); passes
one after another make a history of what has been said (`history`). A
merge takes back what was said before only if the later pass has
completed the document, and then all of it but the completions. So what
the merged report lists is what stands of the history: every completion,
and of the rest what comes behind the last of them (`standing`).

The induction is on the reports from the last one back, since that is
how a merge works on a history (`standing_concat`). What has been said
last always stands. Nothing else does exactly if the document was not
completed before it was mentioned for the last time, and has been
completed then unless it was the only time (`Settled`); a document that
fails twice, or is completed and then fails, is listed twice
(`not_tidy_mergeAll`).
-/
import Mathlib.Data.List.Count
import Mathlib.Data.List.Induction
import Mathlib.Data.List.Nodup
import Purview.Build.Report

namespace Purview

/-- What a pass may say of a document. -/
inductive Verdict where
  | processed
  | failed
  | deferred
deriving DecidableEq

namespace Verdict

-- ============================================================ histories

/-- What stands of the verdicts on a document: a completion always does,
and another verdict unless a completion follows it. -/
def standing : List Verdict → List Verdict
  | [] => []
  | v :: later =>
    if v = .processed ∨ .processed ∉ later then v :: standing later
    else standing later

/-- Only the last verdict stands: none before it is a completion, and it
is one itself if there are any before it. -/
structure Settled (vs : List Verdict) : Prop where
  before : .processed ∉ vs.dropLast
  last : 1 < vs.length → vs.getLast? = some .processed

/-- A completion takes back all verdicts but completions, and another
verdict takes back none. -/
theorem standing_concat (vs : List Verdict) (v : Verdict) :
    standing (vs ++ [v])
      = (if v = .processed then (standing vs).filter (· = .processed)
        else standing vs) ++ [v] := by
  induction vs with
  | nil => cases v <;> rfl
  | cons w vs ih =>
    rw [List.cons_append, standing, standing, ih]
    by_cases hv : v = .processed
    · -- what does not stand behind `w` is no completion either way
      subst hv
      by_cases hw : w = .processed
      · simp [hw]
      · by_cases hlater : .processed ∈ vs <;> simp [hw, hlater]
    · have hlater : .processed ∉ vs ++ [v] ↔ .processed ∉ vs := by
        simp [Ne.symm hv]
      simp only [hlater, if_neg hv]
      split
      · rfl
      · rfl

theorem processed_mem_standing {vs : List Verdict} :
    .processed ∈ standing vs ↔ .processed ∈ vs := by
  induction vs using List.reverseRecOn with
  | nil => exact Iff.rfl
  | append_singleton vs v ih =>
    rw [standing_concat, List.mem_append, List.mem_append]
    by_cases hv : v = .processed
    · simp [hv]
    · rw [if_neg hv, ih]

theorem standing_eq_nil {vs : List Verdict} : standing vs = [] ↔ vs = [] := by
  rcases List.eq_nil_or_concat vs with rfl | ⟨init, v, rfl⟩
  · exact Iff.rfl
  · simp [standing_concat]

/-- What has been said last stands. -/
theorem mem_standing_of_getLast? {vs : List Verdict} {v : Verdict}
    (h : vs.getLast? = some v) : v ∈ standing vs := by
  obtain ⟨init, rfl⟩ := List.getLast?_eq_some_iff.1 h
  simp [standing_concat]

/-- Behind a completion no other verdict stands. -/
theorem eq_processed_of_mem_standing {vs : List Verdict} {v : Verdict}
    (h : vs.getLast? = some .processed) (hv : v ∈ standing vs) :
    v = .processed := by
  obtain ⟨init, rfl⟩ := List.getLast?_eq_some_iff.1 h
  rw [standing_concat, if_pos rfl, List.mem_append] at hv
  rcases hv with hv | hv
  · simpa using (List.mem_filter.1 hv).2
  · exact List.mem_singleton.1 hv

theorem length_standing_le_one {vs : List Verdict} :
    (standing vs).length ≤ 1 ↔ Settled vs := by
  rcases List.eq_nil_or_concat vs with rfl | ⟨init, v, rfl⟩
  · exact ⟨fun _ => ⟨List.not_mem_nil, fun h => absurd h (by decide)⟩,
      fun _ => Nat.zero_le _⟩
  rw [List.concat_eq_append, standing_concat, List.length_append,
    List.length_singleton, Nat.succ_le_succ_iff, Nat.le_zero,
    List.length_eq_zero_iff]
  by_cases hv : v = .processed
  · subst hv
    rw [if_pos rfl, List.filter_eq_nil_iff]
    constructor
    · intro hnone
      refine ⟨?_, fun _ => List.getLast?_concat⟩
      rw [List.dropLast_concat, ← processed_mem_standing]
      exact fun hmem => hnone _ hmem (decide_eq_true rfl)
    · intro hsettled w hw heq
      have hbefore := hsettled.before
      rw [List.dropLast_concat, ← processed_mem_standing] at hbefore
      exact hbefore (of_decide_eq_true heq ▸ hw)
  · rw [if_neg hv, standing_eq_nil]
    constructor
    · rintro rfl
      exact ⟨List.not_mem_nil, fun h => absurd h (Nat.lt_irrefl 1)⟩
    · intro hsettled
      by_contra hne
      have hlast := hsettled.last (by
        rw [List.length_append]
        exact Nat.succ_lt_succ (List.length_pos_iff.2 hne))
      rw [List.getLast?_concat] at hlast
      exact hv (Option.some.inj hlast)

/-- A settled document has its last verdict and no other. -/
theorem standing_of_settled {vs : List Verdict} (h : Settled vs) :
    standing vs = vs.getLast?.toList := by
  rcases List.eq_nil_or_concat vs with rfl | ⟨init, v, rfl⟩
  · rfl
  · have hlength := length_standing_le_one.2 h
    rw [List.concat_eq_append, standing_concat, List.length_append,
      List.length_singleton] at hlength
    rw [List.concat_eq_append, standing_concat,
      List.length_eq_zero_iff.1 (Nat.le_zero.1 (Nat.le_of_succ_le_succ
        hlength)), List.getLast?_concat]
    rfl

end Verdict

namespace BuildReport

open Verdict (standing Settled)

-- ============================================================== reports

/-- The documents of which a report says something in particular. -/
def listed (r : BuildReport) : Verdict → List Uri
  | .processed => r.processed
  | .failed => r.failed
  | .deferred => r.deferred

/-- A report that mentions each document at most once: no list of it has
a document twice, and no two lists have one in common. -/
structure Tidy (r : BuildReport) : Prop where
  nodup (v : Verdict) : (r.listed v).Nodup
  disjoint {v v' : Verdict} (h : v ≠ v') :
    (r.listed v).Disjoint (r.listed v')

/-- What a report says of a document. -/
def verdict? (r : BuildReport) (u : Uri) : Option Verdict :=
  if u ∈ r.processed then some .processed
  else if u ∈ r.failed then some .failed
  else if u ∈ r.deferred then some .deferred
  else none

/-- What reports say of a document, one after another. -/
def history (rs : List BuildReport) (u : Uri) : List Verdict :=
  rs.filterMap (·.verdict? u)

/-- The report of passes that follow one another. -/
def mergeAll (rs : List BuildReport) : BuildReport :=
  rs.foldl merge empty

variable {r : BuildReport} {rs : List BuildReport}

theorem tidy_iff : r.Tidy
    ↔ (r.processed ++ (r.failed ++ r.deferred)).Nodup := by
  constructor
  · intro h
    have hpf := h.disjoint (show Verdict.processed ≠ .failed by decide)
    have hpd := h.disjoint (show Verdict.processed ≠ .deferred by decide)
    have hfd := h.disjoint (show Verdict.failed ≠ .deferred by decide)
    exact (h.nodup .processed).append
      ((h.nodup .failed).append (h.nodup .deferred) hfd)
      (List.disjoint_append_right.2 ⟨hpf, hpd⟩)
  · intro h
    obtain ⟨hp, hrest, hout⟩ := List.nodup_append'.1 h
    obtain ⟨hf, hd, hfd⟩ := List.nodup_append'.1 hrest
    obtain ⟨hpf, hpd⟩ := List.disjoint_append_right.1 hout
    refine ⟨fun v => ?_, fun {v v'} hne => ?_⟩
    · cases v with
      | processed => exact hp
      | failed => exact hf
      | deferred => exact hd
    · cases v <;> cases v' <;> first
        | exact absurd rfl hne
        | exact hpf | exact hpd | exact hfd
        | exact List.disjoint_symm ‹_›

instance : Decidable r.Tidy := decidable_of_iff' _ tidy_iff

/-- A tidy report lists a document where it says so, and once. -/
theorem Tidy.count (h : r.Tidy) (u : Uri) (v : Verdict) :
    (r.listed v).count u = if r.verdict? u = some v then 1 else 0 := by
  have hmem : u ∈ r.listed v ↔ r.verdict? u = some v := by
    have hpf := @h.disjoint .processed .failed (by decide) u
    have hpd := @h.disjoint .processed .deferred (by decide) u
    have hfd := @h.disjoint .failed .deferred (by decide) u
    unfold verdict?
    cases v <;> simp only [listed] at * <;> grind
  rw [(h.nodup v).count]
  exact if_congr hmem rfl rfl

-- =============================================================== merges

/-- A merge takes documents out of the failed and the deferred that the
later pass has processed, and adds what that pass lists. -/
theorem count_merge (r later : BuildReport) (u : Uri) (v : Verdict) :
    ((r.merge later).listed v).count u
      = (if v ≠ .processed ∧ u ∈ later.processed then 0
        else (r.listed v).count u) + (later.listed v).count u := by
  have hkept : ∀ us : List Uri,
      (us.filter (· ∉ later.processed)).count u
        = if u ∈ later.processed then 0 else us.count u := by
    intro us
    split
    · next hu =>
      exact List.count_eq_zero.2 fun hmem =>
        absurd hu (of_decide_eq_true (List.mem_filter.1 hmem).2)
    · next hu => exact List.count_filter (decide_eq_true hu)
  cases v with
  | processed =>
    rw [if_neg fun h => h.1 rfl]
    exact List.count_append
  | failed | deferred =>
    simp only [listed, merge, List.count_append, hkept, ne_eq, reduceCtorEq,
      not_false_eq_true, true_and]

theorem history_concat (rs : List BuildReport) (r : BuildReport)
    (u : Uri) :
    history (rs ++ [r]) u = history rs u ++ (r.verdict? u).toList := by
  unfold history
  rw [List.filterMap_append]
  congr 1

theorem mergeAll_concat (rs : List BuildReport) (r : BuildReport) :
    mergeAll (rs ++ [r]) = (mergeAll rs).merge r :=
  List.foldl_append

/-- A merged report lists a document as often as is left standing of
what its passes say. -/
theorem count_mergeAll (h : ∀ r ∈ rs, r.Tidy) (u : Uri) (v : Verdict) :
    ((mergeAll rs).listed v).count u
      = (standing (history rs u)).count v := by
  induction rs using List.reverseRecOn with
  | nil => cases v <;> rfl
  | append_singleton rs r ih =>
    have hr : r.Tidy := h r (by simp)
    have hprocessed : u ∈ r.processed
        ↔ r.verdict? u = some .processed := by
      unfold verdict?
      split
      · simp [*]
      · split
        · simp [*]
        · split <;> simp [*]
    simp only [mergeAll_concat, count_merge, hr.count, hprocessed,
      ih fun r' hr' => h r' (List.mem_append_left _ hr')]
    rw [history_concat]
    cases r.verdict? u with
    | none => simp
    | some w =>
      rw [Option.toList_some, Verdict.standing_concat, List.count_append]
      by_cases hw : w = .processed
      · subst hw
        by_cases hv : v = .processed
        · subst hv
          simp
        · have hgone : ((standing (history rs u)).filter
              (· = .processed)).count v = 0 :=
            List.count_eq_zero.2 fun hmem =>
              hv (of_decide_eq_true (List.mem_filter.1 hmem).2)
          simp [hv, hgone, Ne.symm hv]
      · simp [hw, List.count_singleton]

/-- The request of some passes has been withdrawn if that of one of them
has. -/
theorem cancelled_mergeAll :
    (mergeAll rs).cancelled = true ↔ ∃ r ∈ rs, r.cancelled = true := by
  induction rs using List.reverseRecOn with
  | nil => simp [mergeAll, empty]
  | append_singleton rs r ih =>
    rw [mergeAll_concat]
    simp [merge, ih, or_and_right, exists_or]

/-- A merged report is tidy if of no document more than one verdict is
left standing. -/
theorem tidy_mergeAll (h : ∀ r ∈ rs, r.Tidy) :
    (mergeAll rs).Tidy ↔ ∀ u, Settled (history rs u) := by
  simp only [← Verdict.length_standing_le_one]
  constructor
  · intro htidy u
    match hstanding : standing (history rs u) with
    | [] | [_] => exact Nat.le_of_ble_eq_true rfl
    | v :: w :: vs =>
      have hcount := count_mergeAll h u
      simp only [hstanding] at hcount
      have hmem : ∀ x, x ∈ v :: w :: vs → u ∈ (mergeAll rs).listed x := by
        intro x hx
        rw [← List.count_pos_iff, hcount]
        exact List.count_pos_iff.2 hx
      by_cases hvw : v = w
      · subst hvw
        have hone := List.nodup_iff_count_le_one.1 (htidy.nodup v) u
        rw [hcount, List.count_cons_self, List.count_cons_self] at hone
        omega
      · exact absurd (hmem w (by simp))
          (htidy.disjoint hvw (hmem v (by simp)))
  · intro hone
    refine ⟨fun v => List.nodup_iff_count_le_one.2 fun u => ?_,
      fun {v v'} hne u hu hu' => ?_⟩
    · rw [count_mergeAll h]
      exact Nat.le_trans List.count_le_length (hone u)
    · rw [← List.count_pos_iff, count_mergeAll h, List.count_pos_iff]
        at hu hu'
      match hstanding : standing (history rs u), hone u with
      | [], _ => rw [hstanding] at hu; cases hu
      | [w], _ =>
        rw [hstanding, List.mem_singleton] at hu hu'
        exact hne (hu.trans hu'.symm)

/-- The report of passes that each mention a document at most once lists
every document as often as is left standing of what they say of it. What
is said last is left standing, and nothing but completions is if that is
one. All else has gone exactly if the document is settled, and the
report is tidy if all documents are. -/
theorem mergeAll_standing (rs : List BuildReport)
    (h : ∀ r ∈ rs, r.Tidy) :
    (∀ u v, ((mergeAll rs).listed v).count u
      = (standing (history rs u)).count v)
    ∧ (∀ u v, (history rs u).getLast? = some v →
      u ∈ (mergeAll rs).listed v
      ∧ (v = .processed → ∀ v' ≠ v, u ∉ (mergeAll rs).listed v'))
    ∧ (∀ u, Settled (history rs u) ↔
      ∀ v, ((mergeAll rs).listed v).count u
        = if (history rs u).getLast? = some v then 1 else 0)
    ∧ ((mergeAll rs).Tidy ↔ ∀ u, Settled (history rs u))
    ∧ ((mergeAll rs).cancelled = true ↔ ∃ r ∈ rs, r.cancelled = true) := by
  have hcount := count_mergeAll h
  have hmem : ∀ u v, u ∈ (mergeAll rs).listed v
      ↔ v ∈ standing (history rs u) := by
    intro u v
    rw [← List.count_pos_iff, hcount, List.count_pos_iff]
  refine ⟨hcount, fun u v hlast => ⟨?_, ?_⟩, fun u => ?_,
    tidy_mergeAll h, cancelled_mergeAll⟩
  · exact (hmem u v).2 (Verdict.mem_standing_of_getLast? hlast)
  · rintro rfl v' hne hv'
    exact hne (Verdict.eq_processed_of_mem_standing hlast
      ((hmem u v').1 hv'))
  · have hlast : ∀ v, (history rs u).getLast?.toList.count v
        = if (history rs u).getLast? = some v then 1 else 0 := by
      intro v
      cases (history rs u).getLast? <;> simp [List.count_singleton]
    simp only [hcount, ← hlast]
    constructor
    · intro hsettled v
      rw [Verdict.standing_of_settled hsettled]
    · intro hcounts
      rw [← Verdict.length_standing_le_one,
        (List.perm_iff_count.2 hcounts).length_eq]
      cases (history rs u).getLast? with
      | none => exact Nat.zero_le 1
      | some v => exact Nat.le_refl 1

/-- A document that fails, and one that is put off and completed by the
next pass. -/
theorem mergeAll_standing_caught_up :
    let a := Uri.ofString "/a"
    let b := Uri.ofString "/b"
    let rs : List BuildReport :=
      [⟨[], [a], [b], true⟩, ⟨[b], [], [], false⟩]
    (∀ r ∈ rs, r.Tidy)
    ∧ ((mergeAll rs).listed .deferred).count b = 0
    ∧ a ∈ (mergeAll rs).listed .failed
    ∧ (mergeAll rs).cancelled = true := by
  intro a b rs
  have htidy : ∀ r ∈ rs, r.Tidy := by decide +kernel
  obtain ⟨hcount, hlast, -, -, hcancelled⟩ := mergeAll_standing rs htidy
  refine ⟨htidy, ?_, ?_, hcancelled.2 ⟨_, List.mem_cons_self, rfl⟩⟩
  · rw [hcount]
    decide +kernel
  · exact (hlast a .failed (by decide +kernel)).1

/-- A document that is completed and then fails is listed as both. -/
theorem not_tidy_mergeAll :
    let a := Uri.ofString "/a.sysw"
    let rs : List BuildReport :=
      [⟨[a], [], [], false⟩, ⟨[], [a], [], false⟩]
    (∀ r ∈ rs, r.Tidy)
    ∧ ¬ (mergeAll rs).Tidy
    ∧ (history rs a).getLast? = some .failed
    ∧ a ∈ (mergeAll rs).listed .processed := by
  decide +kernel

end BuildReport

end Purview
