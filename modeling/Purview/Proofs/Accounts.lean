/-
What a pass reports. Every document that a pass has to work on has a
place: it is still to be worked on, or it has been processed, has failed
or has been deferred (`Place`). With its place go the stage that it
stands at and the diagnostics that it has (`Document.Placed`). A phase
that ends on a document leaves it where it is or takes it to the place
that belongs to how the phase ended (`Placed.ends`); it moves nobody
else, so the accounts of a pass stay right (`Accounts.move`), and a run
that is not withdrawn leaves none of its documents over
(`runAll_accounts`). Hence the report of a pass that is not cancelled
has each of its documents once, and in the right place
(`accounted_buildBatch`).

Whether a document waits for its owner is settled when it is about to be
linked, but it can be said by what is there at the end: projects wait for
nobody, and by the time the others are linked no project moves any more
(`Course.accounts`).
-/
import Purview.Proofs.Course
import Purview.Proofs.Stages

namespace Purview

theorem Phase.base_lt_validated (phase : Phase) :
    phase.base < .validated := by
  cases phase <;> decide

/-- Only the last phase validates, and it takes linked documents. -/
theorem Phase.base_of_validated {phase : Phase}
    (h : phase.goal = .validated) : phase.base = .linked := by
  cases phase <;> first | rfl | cases h

/-- There is no phase behind the one that validates. -/
theorem Phase.Follow.lt_validated {stage : Stage} {phases : List Phase}
    (h : Follow stage phases) (hne : phases ≠ []) : stage < .validated := by
  cases phases with
  | nil => exact absurd rfl hne
  | cons phase phases => exact h.1 ▸ phase.base_lt_validated

/-- Where a pass has got with a document. -/
inductive Place where
  | todo
  | processed
  | failed
  | deferred

/-- Some documents, all of them in one place. -/
def Place.holding (place : Place) (us : List Uri) : List (Uri × Place) :=
  us.map fun u => (u, place)

/-- Where a document gets by a phase that ends on it. -/
def Outcome.place : Outcome → Place
  | .advanced => .todo
  | .deferred => .deferred
  | .failed _ => .failed

-- ========================================================= one document

namespace Document

/-- What failed steps have left on a document. -/
def failures (d : Document) : List Diagnostic :=
  d.diagnostics.filter fun x => x.origin = .build

/-- Whether a phase has failed on a document. -/
def FailedIn (d : Document) (phase : Phase) : Prop :=
  ∃ error, Pass.stepFailure phase error ∈ d.diagnostics

theorem failedIn_of_failures {d : Document} {phase : Phase}
    {error : StepError} (h : d.failures = [Pass.stepFailure phase error]) :
    d.FailedIn phase :=
  ⟨error, (List.mem_filter.1 (h ▸ List.mem_singleton_self _)).1⟩

theorem failures_eq_nil {d : Document} (hd : d.clearFailures = d) :
    d.failures = [] :=
  List.filter_eq_nil_iff.2 fun x hx h =>
    clearFailures_eq_self.1 hd x hx (of_decide_eq_true h)

/-- A failure is the only one on a document that had none. -/
theorem failures_report {d : Document} (hd : d.clearFailures = d)
    (phase : Phase) (error : StepError) :
    (d.report (Pass.stepFailure phase error)).failures
      = [Pass.stepFailure phase error] := by
  show (d.diagnostics ++ [_]).filter _ = _
  rw [List.filter_append]
  exact congrArg (· ++ _) (failures_eq_nil hd)

/-- A step of a phase has failed on a document, and what it has left
stands last. -/
def FailedWith (d : Document) (phase : Phase) (error : StepError) : Prop :=
  d = d.clearFailures.report (Pass.stepFailure phase error)

theorem failedWith_report {d : Document} (hd : d.clearFailures = d)
    (phase : Phase) (error : StepError) :
    (d.report (Pass.stepFailure phase error)).FailedWith phase error :=
  (congrArg (report · _) (clearFailures_report hd phase error)).symm

theorem FailedWith.failures {d : Document} {phase : Phase}
    {error : StepError} (h : d.FailedWith phase error) :
    d.failures = [Pass.stepFailure phase error] :=
  (congrArg Document.failures h).trans
    (failures_report d.clearFailures_clearFailures phase error)

/-- How a phase ends on a document that has come as far as it starts,
with what becomes of the document. -/
inductive Ends (ready : Bool) (phase : Phase) (d : Document) :
    Outcome → Document → Prop where
  | past (hpast : phase.goal ≤ d.stage) : Ends ready phase d .advanced d
  | advanced {d' : Document} (hstage : d.stage = phase.base)
    (hready : phase = .link → ready = true)
    (hgoal : d'.stage = phase.goal) (hclean : d'.clearFailures = d') :
    Ends ready phase d .advanced d'
  | deferred (hstage : d.stage = .surveyed) (hready : ready = false) :
    Ends ready phase d .deferred d
  | failed {d' : Document} (error : StepError)
    (hstage : d.stage = phase.base) (hready : phase = .link → ready = true)
    (hsame : d'.stage = phase.base)
    (hfailure : d'.FailedWith phase error) :
    Ends ready phase d (.failed error) d'

/-- A phase leaves a document at its stage or takes it to the goal. -/
theorem Ends.stage {ready : Bool} {phase : Phase} {d d' : Document}
    {outcome : Outcome} (h : d.Ends ready phase outcome d') :
    d'.stage = d.stage ∨ d'.stage = phase.goal := by
  cases h with
  | past | deferred => exact .inl rfl
  | advanced _ _ hgoal => exact .inr hgoal
  | failed _ hstage _ hsame => exact .inl (hsame.trans hstage.symm)

/-- What a place says of a document: how far it has come, whether a step
has failed on it, and, if it had not been linked before, that its owner
was ready if it has come so far now. -/
def Placed (early : Prop) (ready : Bool) (d : Document) : Place → Prop
  | .todo =>
    d.clearFailures = d ∧ (early → .linked ≤ d.stage → ready = true)
  | .processed => d.stage = .validated ∧ (early → ready = true)
  | .failed => ∃ phase error, d.stage = phase.base
    ∧ d.FailedWith phase error
    ∧ (early → .surveyed ≤ d.stage → ready = true)
  | .deferred => d.stage = .surveyed ∧ ready = false ∧ d.clearFailures = d

variable {early : Prop} {ready : Bool} {d d' : Document}

/-- Only linking takes a document to where its owner has to be ready. -/
theorem linked_of_goal {phase : Phase} (hstage : d.stage = phase.base)
    (hlinked : early → .linked ≤ d.stage → ready = true)
    (hready : phase = .link → ready = true) (he : early)
    (hgoal : .linked ≤ phase.goal) : ready = true := by
  cases phase with
  | index => exact absurd hgoal (by decide)
  | scope => exact absurd hgoal (by decide)
  | link => exact hready rfl
  | validate => exact hlinked he (hstage ▸ Nat.le_refl _)

/-- A phase takes a document to the place that belongs to its outcome. -/
theorem Placed.ends {phase : Phase} {outcome : Outcome}
    (h : d.Placed early ready .todo) (hends : d.Ends ready phase outcome d') :
    d'.Placed early ready outcome.place := by
  obtain ⟨hclean, hlinked⟩ := h
  cases hends with
  | past _ => exact ⟨hclean, hlinked⟩
  | advanced hstage hready hgoal hclean' =>
    refine ⟨hclean', fun he hle => ?_⟩
    rw [hgoal] at hle
    exact linked_of_goal hstage hlinked hready he hle
  | deferred hstage hready => exact ⟨hstage, hready, hclean⟩
  | failed error hstage hready hsame hfailure =>
    refine ⟨phase, error, hsame, hfailure, fun he hle => ?_⟩
    refine linked_of_goal hstage hlinked hready he ?_
    rw [hsame] at hle
    cases phase <;> first | decide | exact absurd hle (by decide)

/-- A document that is read stays to be worked on. -/
theorem Placed.reread (h : d.Placed early ready .todo) :
    d.reread.Placed early ready .todo := by
  obtain ⟨hclean, hlinked⟩ := h
  refine ⟨clearFailures_reread hclean, fun he hle => ?_⟩
  by_cases hchanged : d.stage = .changed
  · have hparsed : d.reread.stage = .parsed := by
      rw [reread_of_changed hchanged]
      rfl
    rw [hparsed] at hle
    exact absurd hle (by decide)
  · have hsame : d.reread = d := if_neg hchanged
    rw [hsame] at hle
    exact hlinked he hle

/-- Who has gone through all phases has been processed. -/
theorem Placed.finish (h : d.Placed early ready .todo)
    (hstage : .validated ≤ d.stage) :
    d.Placed early ready .processed :=
  ⟨Stage.eq_validated hstage, fun he =>
    h.2 he (Nat.le_trans (by decide) hstage)⟩

end Document

namespace Scene

variable (host : Host)

/-- How a phase ends on a document on which nothing has failed. -/
theorem carry_ends {s : Scene} {phase : Phase} {u : Uri} {d : Document}
    (hd : s.store.get? u = some d) (hbase : phase.base ≤ d.stage)
    (hclean : d.clearFailures = d) :
    ∃ d', (s.close host phase u).store = s.store.modify u (fun _ => d')
      ∧ d.Ends (s.ownerReady u) phase (s.carry host phase u).2 d' := by
  have hself := (Store.modify_self hd).symm
  by_cases hgoal : phase.goal ≤ d.stage
  · refine ⟨d, ?_, ?_⟩
    · rw [close_past host hd hgoal]
      exact hself
    · rw [carry_past host hd hgoal]
      exact .past hgoal
  have hstage := Phase.eq_base hbase hgoal
  by_cases hready : phase = .link ∧ ¬ s.ownerReady u
  · refine ⟨d, ?_, ?_⟩
    · rw [close_deferred host hd hgoal hready]
      exact hself
    · have hout : (s.carry host phase u).2 = .deferred := by
        unfold carry
        simp only [hd, if_neg hgoal, if_pos hready]
      obtain ⟨rfl, hnot⟩ := hready
      rw [hout]
      exact .deferred hstage (Bool.eq_false_iff.2 hnot)
  obtain ⟨hstore, hcarry⟩ := close_of_call host hd hgoal hready
  refine ⟨_, hstore, ?_⟩
  have hready : phase = .link → s.ownerReady u = true := fun hlink =>
    not_not.1 fun hnot => hready ⟨hlink, hnot⟩
  have hwork : ∀ x, (host.attempt phase.step u (phase.work u
      (phase.handed s.index s.store u) d)).result? = some x →
      x.stage = phase.base ∧ x.clearFailures = x := fun x hx =>
    have hok := result?_attempt host hx
    ⟨(Document.worked_of_work hok).stage.trans hstage,
      Document.clearFailures_work hclean hok⟩
  rw [hcarry]
  cases hattempt : host.attempt phase.step u (phase.work u
      (phase.handed s.index s.store u) d) with
  | succeeded x =>
    obtain ⟨hx, hxclean⟩ := hwork x (by rw [hattempt]; rfl)
    refine .advanced hstage hready ?_
      (Document.clearFailures_advance hxclean)
    show (x.advance phase.goal).stage = _
    rw [Document.advance_goal hx]
  | failedBefore error =>
    exact .failed error hstage hready hstage
      (Document.failedWith_report hclean phase error)
  | failedAfter x error =>
    obtain ⟨hx, hxclean⟩ := hwork x (by rw [hattempt]; rfl)
    refine .failed error hstage hready ?_ ?_ <;>
      simp only [Document.ended] <;> split
    · exact hstage
    · exact hx
    · exact Document.failedWith_report hclean phase error
    · exact Document.failedWith_report hxclean phase error

end Scene

namespace Pass

-- ============================================================ the ledger

/-- The places of the documents of a pass, by its report and by what is
still to be worked on. -/
def ledger (r : BuildReport) (todo : List Uri) : List (Uri × Place) :=
  Place.holding .processed r.processed ++ Place.holding .failed r.failed
    ++ Place.holding .deferred r.deferred ++ Place.holding .todo todo

/-- The accounts of a pass over some documents are right: each of them
has one place, and what the place says of it. -/
structure Accounts (us : List Uri) (early : Uri → Prop)
    (ready : Uri → Bool) (places : List (Uri × Place)) (s : Store) :
    Prop where
  each : (places.map Prod.fst).Perm us
  right : ∀ e ∈ places, ∃ d, s.get? e.1 = some d
    ∧ d.Placed (early e.1) (ready e.1) e.2

theorem fst_ledger (r : BuildReport) (todo : List Uri) :
    (ledger r todo).map Prod.fst
      = r.processed ++ r.failed ++ r.deferred ++ todo := by
  simp [ledger, Place.holding, Function.comp_def]

theorem ledger_perm (r : BuildReport) {todo todo' : List Uri}
    (h : todo.Perm todo') : (ledger r todo).Perm (ledger r todo') :=
  (h.map _).append_left _

theorem ledger_cons (r : BuildReport) (u : Uri) (todo : List Uri) :
    (ledger r (u :: todo)).Perm ((u, .todo) :: ledger r todo) :=
  List.perm_middle

/-- Only a document that has advanced is still to be worked on. -/
theorem ledger_record (r : BuildReport) (u : Uri) (outcome : Outcome)
    (todo : List Uri) :
    (ledger (record r u outcome)
        (if outcome = .advanced then u :: todo else todo)).Perm
      ((u, outcome.place) :: ledger r todo) := by
  cases outcome with
  | advanced => exact ledger_cons r u todo
  | deferred =>
    have h := @List.perm_middle _ (u, Place.deferred)
      (Place.holding .processed r.processed
        ++ Place.holding .failed r.failed
        ++ Place.holding .deferred r.deferred) (Place.holding .todo todo)
    simpa [ledger, record, Outcome.place, Place.holding] using h
  | failed error =>
    have h := @List.perm_middle _ (u, Place.failed)
      (Place.holding .processed r.processed
        ++ Place.holding .failed r.failed)
      (Place.holding .deferred r.deferred ++ Place.holding .todo todo)
    simpa [ledger, record, Outcome.place, Place.holding] using h

variable {us : List Uri} {early : Uri → Prop} {ready : Uri → Bool}
  {places places' : List (Uri × Place)} {s : Store}

theorem Accounts.todo_subset {r : BuildReport} {todo : List Uri}
    (h : Accounts us early ready (ledger r todo) s) : todo ⊆ us := by
  intro u hu
  have heach := h.each
  rw [fst_ledger] at heach
  exact heach.subset (List.mem_append_right _ hu)

/-- All documents of a pass are there. -/
theorem Accounts.loaded (h : Accounts us early ready places s) {u : Uri}
    (hu : u ∈ us) : ∃ d, s.get? u = some d := by
  obtain ⟨e, he, rfl⟩ := List.mem_map.1 (h.each.mem_iff.2 hu)
  obtain ⟨d, hd, -⟩ := h.right e he
  exact ⟨d, hd⟩

theorem Accounts.todo_nodup {r : BuildReport} {todo : List Uri}
    (h : Accounts us early ready (ledger r todo) s) (hnd : us.Nodup) :
    todo.Nodup := by
  have heach := h.each
  rw [fst_ledger] at heach
  exact (List.nodup_append.1 (heach.nodup_iff.2 hnd)).2.1

theorem Accounts.perm (h : Accounts us early ready places s)
    (hperm : places'.Perm places) : Accounts us early ready places' s :=
  ⟨(hperm.map _).trans h.each, fun e he => h.right e (hperm.subset he)⟩

/-- Moving a document moves nobody else. -/
theorem Accounts.move (hnd : us.Nodup) {u : Uri} {place place' : Place}
    (h : Accounts us early ready ((u, place) :: places) s)
    {d' : Document} (hd' : d'.Placed (early u) (ready u) place') :
    Accounts us early ready ((u, place') :: places)
      (s.modify u fun _ => d') := by
  obtain ⟨d, hd, -⟩ := h.right _ List.mem_cons_self
  have hother : ∀ e ∈ places, e.1 ≠ u := by
    have hnodup := h.each.nodup_iff.2 hnd
    rw [List.map_cons, List.nodup_cons] at hnodup
    intro e he heq
    exact hnodup.1 (List.mem_map.2 ⟨e, he, heq⟩)
  refine ⟨h.each, fun e he => ?_⟩
  rw [Store.get?_modify_const hd]
  rcases List.mem_cons.1 he with rfl | he
  · exact ⟨d', if_pos rfl, hd'⟩
  · rw [if_neg (hother e he)]
    exact h.right e (List.mem_cons_of_mem _ he)

/-- Reading moves no document that is not to be worked on. -/
theorem Accounts.reread (host : Host) (hnd : us.Nodup) {p : Pass}
    {todo vs : List Uri} (hvs : vs ⊆ todo)
    (h : Accounts us early ready (ledger p.report todo) p.scene.store) :
    Accounts us early ready (ledger (p.reread host vs).report todo)
      (p.reread host vs).scene.store := by
  refine ⟨h.each, fun e he => ?_⟩
  obtain ⟨d, hd, hplaced⟩ := h.right e he
  rw [store_reread, Store.get?_alter, hd, Option.map_some]
  refine ⟨_, rfl, ?_⟩
  split
  · next hread =>
    -- who is read has no other place than the one to be worked on
    have htodo : (e.1, Place.todo) ∈ ledger p.report todo :=
      List.mem_append_right _ (List.mem_map_of_mem (hvs hread))
    have hone : e = (e.1, .todo) :=
      List.inj_on_of_nodup_map (h.each.nodup_iff.2 hnd) he htodo rfl
    rw [hone] at hplaced ⊢
    exact hplaced.reread
  · exact hplaced

/-- Documents that have gone through all phases have been processed. -/
theorem Accounts.finish {r : BuildReport} {active rest : List Uri}
    (h : Accounts us early ready (ledger r (active ++ rest)) s)
    (hstanding : Standing active .validated s) :
    Accounts us early ready
      (ledger { r with processed := r.processed ++ active } rest) s := by
  refine ⟨?_, fun e he => ?_⟩
  · have heach := h.each
    rw [fst_ledger] at heach ⊢
    refine List.Perm.trans (List.perm_iff_count.2 fun u => ?_) heach
    simp only [List.count_append]
    omega
  · have hcase : e ∈ ledger r (active ++ rest)
        ∨ ∃ u ∈ active, (u, Place.processed) = e := by
      simp only [ledger, Place.holding, List.map_append, List.mem_append,
        List.mem_map] at he ⊢
      rcases he with (((h | h) | h) | h) | h
      · exact .inl (.inl (.inl (.inl h)))
      · exact .inr h
      · exact .inl (.inl (.inl (.inr h)))
      · exact .inl (.inl (.inr h))
      · exact .inl (.inr (.inr h))
    rcases hcase with he | ⟨u, hu, rfl⟩
    · exact h.right e he
    · obtain ⟨d, hd, hplaced⟩ := h.right (u, .todo)
        (List.mem_append_right _ (List.mem_map_of_mem
          (List.mem_append_left rest hu)))
      exact ⟨d, hd, hplaced.finish (hstanding u hu d hd)⟩

-- ============================================================ the report

section Report

variable {r : BuildReport} {u : Uri} {todo : List Uri}

theorem Accounts.of_processed
    (h : Accounts us early ready (ledger r todo) s)
    (hu : u ∈ r.processed) : ∃ d, s.get? u = some d
      ∧ d.Placed (early u) (ready u) .processed :=
  h.right (u, .processed) (by simp [ledger, Place.holding, hu])

theorem Accounts.of_failed (h : Accounts us early ready (ledger r todo) s)
    (hu : u ∈ r.failed) : ∃ d, s.get? u = some d
      ∧ d.Placed (early u) (ready u) .failed :=
  h.right (u, .failed) (by simp [ledger, Place.holding, hu])

theorem Accounts.of_deferred
    (h : Accounts us early ready (ledger r todo) s)
    (hu : u ∈ r.deferred) : ∃ d, s.get? u = some d
      ∧ d.Placed (early u) (ready u) .deferred :=
  h.right (u, .deferred) (by simp [ledger, Place.holding, hu])

/-- Everybody is in the report or still to be worked on, and nobody is
there twice. -/
theorem Accounts.shared (h : Accounts us early ready (ledger r todo) s) :
    (r.processed ++ r.failed ++ r.deferred ++ todo).Perm us :=
  fst_ledger r todo ▸ h.each

/-- Who is still to be worked on is not in the report. -/
theorem Accounts.unreported
    (h : Accounts us early ready (ledger r todo) s) (hnd : us.Nodup)
    (hu : u ∈ todo) : u ∉ r.processed ∧ u ∉ r.failed := by
  have hapart := List.disjoint_of_nodup_append (h.shared.nodup_iff.2 hnd)
  refine ⟨fun hin => hapart ?_ hu, fun hin => hapart ?_ hu⟩ <;>
    simp [hin]

end Report

-- ==================================================== nothing left to do

section Done

variable {r : BuildReport} {u : Uri}

/-- If nothing is left to do, everybody is in the report. -/
theorem Accounts.reported (h : Accounts us early ready (ledger r []) s) :
    (r.processed ++ r.failed ++ r.deferred).Perm us := by
  have hshared := h.shared
  rwa [List.append_nil] at hshared

/-- So everybody is in one of its lists. -/
theorem Accounts.listed (h : Accounts us early ready (ledger r []) s)
    (hu : u ∈ us) : u ∈ r.processed ∨ u ∈ r.failed ∨ u ∈ r.deferred := by
  have hplace := h.reported.mem_iff.2 hu
  simpa only [List.mem_append, or_assoc] using hplace

/-- Who had not been linked, and has not failed before linking, waits if
and only if the owner is not ready. -/
theorem Accounts.deferred_iff (h : Accounts us early ready (ledger r []) s)
    (hu : u ∈ us) (he : early u) {d : Document} (hd : s.get? u = some d)
    (hindex : ¬ d.FailedIn .index) (hscope : ¬ d.FailedIn .scope) :
    u ∈ r.deferred ↔ ready u = false := by
  refine ⟨fun hin => ?_, fun hnot => ?_⟩
  · obtain ⟨-, -, -, hready, -⟩ := h.of_deferred hin
    exact hready
  rcases h.listed hu with hin | hin | hin
  · obtain ⟨-, -, -, hready⟩ := h.of_processed hin
    rw [hready he] at hnot
    cases hnot
  · obtain ⟨x, hx, phase, error, hstage, hfailure, hready⟩ :=
      h.of_failed hin
    obtain rfl : x = d := Option.some.inj (hx.symm.trans hd)
    have hfailed := Document.failedIn_of_failures hfailure.failures
    have hbase : Stage.surveyed ≤ phase.base := by
      cases phase with
      | index => exact absurd hfailed hindex
      | scope => exact absurd hfailed hscope
      | link => decide
      | validate => decide
    rw [hready he (hstage ▸ hbase)] at hnot
    cases hnot
  · exact hin

/-- Who is in one of the lists stands where the list says. -/
theorem Accounts.stage_of (h : Accounts us early ready (ledger r []) s)
    {d : Document} (hd : s.get? u = some d) :
    (u ∈ r.processed → d.stage = .validated)
      ∧ (u ∈ r.failed → d.stage < .validated ∧ d.failures ≠ [])
      ∧ (u ∈ r.deferred → d.stage < .validated ∧ d.failures = []) := by
  refine ⟨fun hin => ?_, fun hin => ?_, fun hin => ?_⟩
  · obtain ⟨x, hx, hstage, -⟩ := h.of_processed hin
    exact Option.some.inj (hx.symm.trans hd) ▸ hstage
  · obtain ⟨x, hx, phase, error, hbase, hfailure, -⟩ := h.of_failed hin
    obtain rfl : x = d := Option.some.inj (hx.symm.trans hd)
    exact ⟨hbase ▸ phase.base_lt_validated,
      hfailure.failures ▸ List.cons_ne_nil _ _⟩
  · obtain ⟨x, hx, hstage, -, hclean⟩ := h.of_deferred hin
    obtain rfl : x = d := Option.some.inj (hx.symm.trans hd)
    rw [hstage]
    exact ⟨by decide, Document.failures_eq_nil hclean⟩

/-- Who has been processed can be told from the documents. -/
theorem Accounts.mem_processed
    (h : Accounts us early ready (ledger r []) s) (hu : u ∈ us)
    {d : Document} (hd : s.get? u = some d) :
    u ∈ r.processed ↔ d.stage = .validated := by
  obtain ⟨hprocessed, hfailed, hdeferred⟩ := h.stage_of hd
  refine ⟨hprocessed, fun hstage => ?_⟩
  have hnot : ¬ d.stage < .validated := by
    rw [hstage]
    decide
  rcases h.listed hu with hin | hin | hin
  · exact hin
  · exact absurd (hfailed hin).1 hnot
  · exact absurd (hdeferred hin).1 hnot

/-- And so can who has failed. -/
theorem Accounts.mem_failed (h : Accounts us early ready (ledger r []) s)
    (hu : u ∈ us) {d : Document} (hd : s.get? u = some d) :
    u ∈ r.failed ↔ d.stage < .validated ∧ d.failures ≠ [] := by
  obtain ⟨hprocessed, hfailed, hdeferred⟩ := h.stage_of hd
  refine ⟨hfailed, fun ⟨hstage, hfailures⟩ => ?_⟩
  rcases h.listed hu with hin | hin | hin
  · rw [hprocessed hin] at hstage
    exact absurd hstage (by decide)
  · exact hin
  · exact absurd (hdeferred hin).2 hfailures

/-- The others are put off. -/
theorem Accounts.mem_deferred
    (h : Accounts us early ready (ledger r []) s) (hu : u ∈ us)
    {d : Document} (hd : s.get? u = some d) :
    u ∈ r.deferred ↔ d.stage < .validated ∧ d.failures = [] := by
  obtain ⟨hprocessed, hfailed, hdeferred⟩ := h.stage_of hd
  refine ⟨hdeferred, fun ⟨hstage, hfailures⟩ => ?_⟩
  rcases h.listed hu with hin | hin | hin
  · rw [hprocessed hin] at hstage
    exact absurd hstage (by decide)
  · exact absurd hfailures (hfailed hin).2
  · exact hin

/-- Nobody has failed or waits if and only if everybody is complete. -/
theorem Accounts.complete_iff
    (h : Accounts us early ready (ledger r []) s) :
    r.failed = [] ∧ r.deferred = [] ↔
      ∀ u ∈ us, ∀ d, s.get? u = some d → d.stage = .validated := by
  constructor
  · rintro ⟨hfailed, hdeferred⟩ u hu d hd
    have hin := h.reported.mem_iff.2 hu
    rw [hfailed, hdeferred, List.append_nil, List.append_nil] at hin
    exact (h.mem_processed hu hd).1 hin
  · intro hall
    have hnot : ∀ u ∈ us, ∀ d, s.get? u = some d →
        ¬ d.stage < .validated := fun u hu d hd => by
      rw [hall u hu d hd]
      decide
    refine ⟨List.eq_nil_iff_forall_not_mem.2 fun u hin => ?_,
      List.eq_nil_iff_forall_not_mem.2 fun u hin => ?_⟩
    · have hu := h.reported.subset
        (List.mem_append_left _ (List.mem_append_right _ hin))
      obtain ⟨d, hd⟩ := h.loaded hu
      exact hnot u hu d hd ((h.mem_failed hu hd).1 hin).1
    · have hu := h.reported.subset (List.mem_append_right _ hin)
      obtain ⟨d, hd⟩ := h.loaded hu
      exact hnot u hu d hd ((h.mem_deferred hu hd).1 hin).1

end Done

-- ================================================================= a run

variable (host : Host)

open Scene (Advance)

/-- What a phase leaves to be worked on of some documents, and whether it
has gone through all of them. If it has not, it has stopped before one
of those that are left. -/
structure Remains (phase : Phase) (active : List Uri) (p : Pass)
    (r : Pass × Option (List Uri)) (left : List Uri) : Prop where
  sub : left ⊆ active
  next : ∀ vs, r.2 = some vs → left = vs
  processed : r.1.report.processed = p.report.processed
  stage : ∀ v ∈ left, r.1.scene.store.stageOf v = p.scene.store.stageOf v
    ∨ r.1.scene.store.stageOf v = some phase.goal
  stopped : r.2 = none → r.1.report.cancelled = true
    ∧ ∃ v ∈ left, r.1.scene.store.get? v = p.scene.store.get? v

namespace Remains

variable {phase : Phase} {active left : List Uri} {p p' : Pass}
  {r : Pass × Option (List Uri)} {u : Uri}

/-- The same is left, seen from before what the documents have not
noticed. -/
theorem back (h : Remains phase active p' r left)
    (hprocessed : p'.report.processed = p.report.processed)
    (hsame : ∀ v ∈ active,
      p'.scene.store.get? v = p.scene.store.get? v) :
    Remains phase active p r left where
  sub := h.sub
  next := h.next
  processed := h.processed.trans hprocessed
  stage v hv := by
    refine (h.stage v hv).imp_left fun hstage => hstage.trans ?_
    unfold Store.stageOf
    rw [hsame v (h.sub hv)]
  stopped hnone := by
    obtain ⟨hcancelled, v, hv, hstay⟩ := h.stopped hnone
    exact ⟨hcancelled, v, hv, hstay.trans (hsame v (h.sub hv))⟩

/-- Somebody who has advanced is left as well. -/
theorem cons (h : Remains phase active p r left)
    (hu : r.1.scene.store.stageOf u = p.scene.store.stageOf u
      ∨ r.1.scene.store.stageOf u = some phase.goal) :
    Remains phase (u :: active) p (r.1, r.2.map (u :: ·)) (u :: left) where
  sub := List.cons_subset_cons u h.sub
  next vs hvs := by
    obtain ⟨ws, hws, rfl⟩ := Option.map_eq_some_iff.1 hvs
    rw [h.next ws hws]
  processed := h.processed
  stage := List.forall_mem_cons.2 ⟨hu, h.stage⟩
  stopped hnone := by
    obtain ⟨hcancelled, v, hv, hstay⟩ :=
      h.stopped (Option.map_eq_none_iff.1 hnone)
    exact ⟨hcancelled, v, List.mem_cons_of_mem u hv, hstay⟩

/-- Somebody who has not is not. -/
theorem skip (h : Remains phase active p r left) :
    Remains phase (u :: active) p r left :=
  ⟨fun _ hv => List.mem_cons_of_mem u (h.sub hv), h.next, h.processed,
    h.stage, h.stopped⟩

end Remains

/-- A phase takes a document that is to go on to the place that it belongs
to, and nobody else anywhere. -/
theorem close_accounts (hnd : us.Nodup) {phase : Phase} {u : Uri}
    {later : List Uri} {p : Pass}
    (hbase : ∀ d, p.scene.store.get? u = some d → phase.base ≤ d.stage)
    (hready : p.scene.ownerReady u = ready u)
    (h : Accounts us early ready (ledger p.report (u :: later))
      p.scene.store) :
    let outcome := (p.scene.carry host phase u).2
    let s := (p.scene.close host phase u).store
    Accounts us early ready (ledger (record p.poll.report u outcome)
        (if outcome = .advanced then u :: later else later)) s
      ∧ (s.stageOf u = p.scene.store.stageOf u
        ∨ s.stageOf u = some phase.goal)
      ∧ ∀ v, v ≠ u → s.get? v = p.scene.store.get? v := by
  have h := h.perm (ledger_cons p.report u later).symm
  obtain ⟨d, hd, hplaced⟩ := h.right _ List.mem_cons_self
  obtain ⟨d', hclose, hends⟩ :=
    Scene.carry_ends host hd (hbase d hd) hplaced.1
  rw [hready] at hends
  have hmoved := (h.move hnd (hplaced.ends hends)).perm
    (ledger_record p.poll.report u _ later)
  have hget : ∀ v, (p.scene.close host phase u).store.get? v
      = if v = u then some d' else p.scene.store.get? v := fun v => by
    rw [hclose, Store.get?_modify_const hd]
  refine ⟨hclose ▸ hmoved, ?_, fun v hv => by rw [hget, if_neg hv]⟩
  unfold Store.stageOf
  rw [hget, if_pos rfl, hd, Option.map_some, Option.map_some,
    Option.some_inj, Option.some_inj]
  exact hends.stage

/-- A phase takes documents to the places that they belong to. -/
theorem runPhase_accounts (hnd : us.Nodup) {phase : Phase}
    {active rest : List Uri} {p : Pass}
    (hbase : Standing active phase.base p.scene.store)
    (hready : ∀ s, Advance active p.scene s →
      ∀ u ∈ active, s.ownerReady u = ready u)
    (h : Accounts us early ready (ledger p.report (active ++ rest))
      p.scene.store) :
    let r := runPhase host phase active p
    ∃ left, Remains phase active p r left
      ∧ Accounts us early ready (ledger r.1.report (left ++ rest))
        r.1.scene.store := by
  induction active generalizing rest p with
  | nil =>
    exact ⟨[], ⟨List.Subset.refl _, fun vs hvs => Option.some.inj hvs, rfl,
      List.forall_mem_nil _, fun hno => absurd hno (Option.some_ne_none _)⟩,
      h⟩
  | cons u active ih =>
    cases hgo : p.poll.report.cancelled with
    | true =>
      rw [runPhase]
      simp only [hgo, if_true]
      exact ⟨u :: active, ⟨List.Subset.refl _,
        fun vs hvs => absurd hvs.symm (Option.some_ne_none vs), rfl,
        fun v _ => .inl rfl,
        fun _ => ⟨hgo, u, List.mem_cons_self, rfl⟩⟩, h⟩
    | false =>
      have hu : u ∉ active := fun hin => (List.nodup_cons.1
        (h.todo_nodup hnd)).1 (List.mem_append_left rest hin)
      obtain ⟨hmoved, hstage, hothers⟩ := close_accounts host hnd
        (hbase u List.mem_cons_self)
        (hready p.scene (.refl _ _) u List.mem_cons_self) h
      have hadv : Advance (u :: active) p.scene
          (p.scene.close host phase u) :=
        p.scene.close_advance host phase List.mem_cons_self
      have hbase' : Standing active phase.base
          (p.scene.close host phase u).store :=
        Standing.advance (fun v hv =>
          hbase v (List.mem_cons_of_mem u hv)) hadv
      have hready' : ∀ s, Advance active (p.scene.close host phase u) s →
          ∀ v ∈ active, s.ownerReady v = ready v := fun s hs v hv =>
        hready s (hadv.trans (hs.mono (List.subset_cons_self u active))) v
          (List.mem_cons_of_mem u hv)
      rw [runPhase_record host phase u active p hgo]
      dsimp only at hmoved ⊢
      have hback := fun {r left} (h : Remains phase active
        ⟨p.scene.close host phase u, record p.poll.report u
          (p.scene.carry host phase u).2⟩ r left) =>
        h.back (p := p) (processed_record _ _ _)
          fun v hv => hothers v fun heq => hu (heq ▸ hv)
      split
      · next hon =>
        rw [if_pos hon] at hmoved
        -- it waits with the rest until the others have been through
        obtain ⟨left, hleft, htaken⟩ := ih
          (p := ⟨p.scene.close host phase u, record p.poll.report u
            (p.scene.carry host phase u).2⟩) hbase' hready'
          (hmoved.perm (ledger_perm _ List.perm_middle))
        refine ⟨u :: left, (hback hleft).cons ?_,
          htaken.perm (ledger_perm _ List.perm_middle.symm)⟩
        have hlast := (runPhase_advance host phase active
          (List.Subset.refl active)
          ⟨p.scene.close host phase u, record p.poll.report u
            (p.scene.carry host phase u).2⟩).get?_of_not_mem hu
        unfold Store.stageOf at hstage ⊢
        rw [hlast]
        exact hstage
      · next hoff =>
        rw [if_neg hoff] at hmoved
        obtain ⟨left, hleft, htaken⟩ := ih
          (p := ⟨p.scene.close host phase u, record p.poll.report u
            (p.scene.carry host phase u).2⟩) hbase' hready' hmoved
        exact ⟨left, (hback hleft).skip, htaken⟩

/-- Some documents that are all below the last stage. -/
def Below (us : List Uri) (s : Store) : Prop :=
  ∀ u ∈ us, ∀ d, s.get? u = some d → d.stage < .validated

/-- A document that is below the last stage has not been validated. -/
theorem Below.stageOf_ne (h : Below us s)
    {u : Uri} (hu : u ∈ us) : s.stageOf u ≠ some .validated := by
  intro hstage
  obtain ⟨d, hd, hvalidated⟩ := Option.map_eq_some_iff.1 hstage
  exact absurd (hvalidated ▸ h u hu d hd) (by decide)

theorem Below.reread {p : Pass} (h : Below us p.scene.store)
    (vs : List Uri) : Below us (p.reread host vs).scene.store := by
  intro u hu d hd
  rw [store_reread, Store.get?_alter] at hd
  obtain ⟨x, hx, rfl⟩ := Option.map_eq_some_iff.1 hd
  have hlt := h u hu x hx
  split
  · exact Document.stage_reread_lt hlt
  · exact hlt

/-- What a run leaves to be worked on of its documents: nothing, unless
the pass is cancelled within it. Then nobody has been processed, and if
somebody has been validated, somebody is left behind who was about to
be. -/
structure Leftover (active : List Uri) (p : Pass) (r : Pass × Bool)
    (left : List Uri) : Prop where
  sub : left ⊆ active
  nobody : r.2 = true → left = []
  cancelled : r.2 = false → r.1.report.cancelled = true
  processed : r.2 = false → r.1.report.processed = p.report.processed
  halted : r.2 = false → ∀ u ∈ left,
    r.1.scene.store.stageOf u = some .validated →
      ∃ v ∈ left, r.1.scene.store.stageOf v = some .linked

/-- Only the last phase validates. -/
theorem Remains.below {phase : Phase} {active left : List Uri} {p : Pass}
    {r : Pass × Option (List Uri)} (h : Remains phase active p r left)
    (hgoal : phase.goal < .validated) (hbelow : Below active p.scene.store) :
    Below left r.1.scene.store := by
  intro u hu d hd
  have hstage : r.1.scene.store.stageOf u = some d.stage := by
    rw [Store.stageOf, hd, Option.map_some]
  rcases h.stage u hu with hsame | hsame
  · obtain ⟨x, hx, heq⟩ := Option.map_eq_some_iff.1
      (hsame.symm.trans hstage)
    exact heq ▸ hbelow u (h.sub hu) x hx
  · rw [Option.some.inj (hstage.symm.trans hsame)]
    exact hgoal

/-- If a phase has validated somebody who is left, it has stopped before
somebody who was about to be: the phase that validates starts with linked
documents. -/
theorem Remains.halted {phase : Phase} {active left : List Uri} {p : Pass}
    {r : Pass × Option (List Uri)} (h : Remains phase active p r left)
    (hnone : r.2 = none) (hloaded : active ⊆ p.scene.store.uris)
    (hbase : Standing active phase.base p.scene.store)
    (hbelow : Below active p.scene.store) {u : Uri} (hu : u ∈ left)
    (hstage : r.1.scene.store.stageOf u = some .validated) :
    ∃ v ∈ left, r.1.scene.store.stageOf v = some .linked := by
  have hgoal : phase.goal = .validated := by
    rcases h.stage u hu with hsame | hsame
    · exact absurd (hsame.symm.trans hstage) (hbelow.stageOf_ne (h.sub hu))
    · exact Option.some.inj (hsame.symm.trans hstage)
  obtain ⟨-, v, hv, hstay⟩ := h.stopped hnone
  obtain ⟨d, hd⟩ := Option.isSome_iff_exists.1
    ((p.scene.store.isSome_get? v).2 (hloaded (h.sub hv)))
  have hat : d.stage = phase.base := Phase.eq_base
    (hbase v (h.sub hv) d hd)
    (Nat.not_le.2 (hgoal ▸ hbelow v (h.sub hv) d hd))
  refine ⟨v, hv, ?_⟩
  rw [Store.stageOf, hstay, hd, Option.map_some, hat,
    Phase.base_of_validated hgoal]

/-- Phases that follow one another up to the last stage leave none of the
documents over that they are given. -/
theorem runPhases_accounts (hnd : us.Nodup) {phases : List Phase}
    {stage : Stage} (hfollow : Phase.Follow stage phases)
    (hlast : phases.foldl (fun _ phase => phase.goal) stage = .validated)
    {active rest : List Uri} {p : Pass}
    (hstanding : Standing active stage p.scene.store)
    (hbelow : phases ≠ [] → Below active p.scene.store)
    (hready : ∀ s, Advance active p.scene s →
      ∀ u ∈ active, s.ownerReady u = ready u)
    (h : Accounts us early ready (ledger p.report (active ++ rest))
      p.scene.store) :
    let r := runPhases host phases active p
    ∃ left, Leftover active p r left
      ∧ Accounts us early ready (ledger r.1.report (left ++ rest))
        r.1.scene.store := by
  induction phases generalizing stage active p with
  | nil =>
    obtain rfl : stage = .validated := hlast
    exact ⟨[], ⟨List.nil_subset _, fun _ => rfl, nofun, nofun, nofun⟩,
      h.finish hstanding⟩
  | cons phase phases ih =>
    obtain ⟨rfl, hfollow⟩ := hfollow
    have hbelow := hbelow (List.cons_ne_nil phase phases)
    rw [runPhases_elim]
    dsimp only
    split
    · next hgo =>
      exact ⟨active, ⟨List.Subset.refl _, nofun, fun _ => hgo,
        fun _ => rfl,
        fun _ u hu hstage => absurd hstage (hbelow.stageOf_ne hu)⟩, h⟩
    obtain ⟨left, hleft, htaken⟩ := runPhase_accounts host hnd (p := p.poll)
      hstanding hready h
    cases hnext : (runPhase host phase active p.poll).2 with
    | none =>
      have hloaded : active ⊆ p.scene.store.uris := by
        intro v hv
        obtain ⟨d, hd⟩ := h.loaded
          (h.todo_subset (List.mem_append_left rest hv))
        exact (p.scene.store.isSome_get? v).1 (hd ▸ rfl)
      exact ⟨left, ⟨hleft.sub, nofun, fun _ => (hleft.stopped hnext).1,
        fun _ => hleft.processed, fun _ u hu hstage =>
          hleft.halted hnext hloaded hstanding hbelow hu hstage⟩, htaken⟩
    | some next =>
      obtain rfl := hleft.next next hnext
      have hadv := runPhase_advance host phase active
        (List.Subset.refl active) p.poll
      obtain ⟨behind, hover, hend⟩ := ih hfollow hlast
        (runPhase_reached host phase active _ hnext)
        (fun hne => hleft.below (hfollow.lt_validated hne) hbelow)
        (fun s hs u hu => hready s (hadv.trans (hs.mono hleft.sub)) u
          (hleft.sub hu)) htaken
      exact ⟨behind, ⟨fun v hv => hleft.sub (hover.sub hv), hover.nobody,
        hover.cancelled,
        fun hoff => (hover.processed hoff).trans hleft.processed,
        hover.halted⟩, hend⟩

/-- A run goes through all phases; what it forgets then is in neither the
report nor the store. -/
theorem runAll_phases {us : List Uri} (hne : us ≠ []) (p : Pass) :
    let q := runAll host us p
    let r := runPhases host Phase.all us p
    q.2 = r.2 ∧ q.1.report = r.1.report
      ∧ q.1.scene.store = r.1.scene.store := by
  unfold runAll
  rw [if_neg (by simpa using hne)]
  dsimp only
  split <;> exact ⟨rfl, rfl, rfl⟩

/-- A run leaves none of its documents over unless it is cancelled. -/
theorem runAll_accounts (hnd : us.Nodup) {vs rest : List Uri} {p q : Pass}
    (hstarts : Starts vs p q) (hbelow : Below vs p.scene.store)
    (h : Accounts us early q.scene.ownerReady
      (ledger p.report (vs ++ rest)) p.scene.store) :
    let r := runAll host vs p
    ∃ left, Leftover vs p r left
      ∧ Accounts us early q.scene.ownerReady
        (ledger r.1.report (left ++ rest)) r.1.scene.store := by
  have hstanding : Standing vs .parsed p.scene.store :=
    fun u hu d hd => Stage.parsed_le.2 (hstarts.read u d hd hu)
  by_cases hvs : vs = []
  · subst hvs
    exact ⟨[], ⟨List.Subset.refl _, fun _ => rfl, nofun, nofun, nofun⟩, h⟩
  · obtain ⟨hmore, hreport, hstore⟩ := runAll_phases host hvs p
    obtain ⟨left, hleft, htaken⟩ := runPhases_accounts host hnd
      Phase.follow_all rfl hstanding (fun _ => hbelow) hstarts.ready h
    dsimp only at hleft htaken ⊢
    rw [← hreport, ← hstore] at htaken
    obtain ⟨hsub, hnobody, hcancelled, hprocessed, hhalted⟩ := hleft
    rw [← hmore] at hnobody hcancelled hprocessed hhalted
    rw [← hreport] at hcancelled hprocessed
    rw [← hstore] at hhalted
    exact ⟨left, ⟨hsub, hnobody, hcancelled, hprocessed, hhalted⟩, htaken⟩

-- ================================================================ a pass

/-- What a pass leaves to be worked on of its runs: nothing, unless it is
cancelled. Nobody is left of a run of which somebody has been processed,
and if somebody who is left has been validated all the same, somebody of
that run is left behind who was about to be. -/
structure Unreached (runs : List (List Uri)) (q : Pass)
    (left : List Uri) : Prop where
  nobody : q.report.cancelled = false → left = []
  finished : ∀ us ∈ runs, ∀ u ∈ us, u ∈ q.report.processed →
    ∀ v ∈ us, v ∉ left
  halted : ∀ u ∈ left, q.scene.store.stageOf u = some .validated →
    ∃ us ∈ runs, u ∈ us ∧ ∃ v ∈ us, v ∈ left
      ∧ q.scene.store.stageOf v = some .linked

variable {host}

/-- The accounts of a pass are right on all of its course. -/
theorem Course.accounts (hnd : us.Nodup) {p q : Pass}
    {runs : List (List Uri)} (h : Course host p runs q)
    (hbelow : Below runs.flatten p.scene.store)
    (haccounts : Accounts us early q.scene.ownerReady
      (ledger p.report runs.flatten) p.scene.store) :
    ∃ left, left ⊆ runs.flatten ∧ Unreached runs q left
      ∧ Accounts us early q.scene.ownerReady (ledger q.report left)
        q.scene.store := by
  induction h with
  | done =>
    exact ⟨[], List.Subset.refl _,
      ⟨fun _ => rfl, nofun, nofun⟩, haccounts⟩
  | @stopped p runs hcancelled =>
    refine ⟨runs.flatten, List.Subset.refl _, ⟨fun hgo => ?_,
      fun vs hvs u hu hin => ?_,
      fun u hu hstage => absurd hstage (hbelow.stageOf_ne hu)⟩, haccounts⟩
    · rw [hcancelled] at hgo
      cases hgo
    · exact absurd hin (haccounts.unreported hnd
        (List.mem_flatten.2 ⟨vs, hvs, hu⟩)).1
  | polled _ ih => exact ih hbelow haccounts
  | @read p q vs runs hsub _ ih =>
    exact ih (hbelow.reread host vs) (haccounts.reread host hnd hsub)
  | @run p q vs runs hstarts hmore _ ih =>
    have hdistinct := haccounts.todo_nodup hnd
    rw [List.flatten_cons] at hdistinct haccounts hbelow
    obtain ⟨left, hleft, htaken⟩ := runAll_accounts host hnd hstarts
      (fun u hu => hbelow u (List.mem_append_left _ hu)) haccounts
    rw [hleft.nobody hmore, List.nil_append] at htaken
    have hadv := runAll_advance host vs p
    obtain ⟨left, hsub, hover, hend⟩ := ih (fun u hu d hd =>
      hbelow u (List.mem_append_right _ hu) d ((hadv.get?_of_not_mem
        fun hin => List.disjoint_of_nodup_append hdistinct hin hu) ▸ hd))
      htaken
    refine ⟨left, fun u hu => List.mem_append_right _ (hsub hu),
      ⟨hover.nobody, ?_, fun u hu hstage => ?_⟩, hend⟩
    · intro ws hws u hu hin v hv hleft'
      rcases List.mem_cons.1 hws with rfl | hws
      · exact List.disjoint_of_nodup_append hdistinct hv (hsub hleft')
      · exact hover.finished ws hws u hu hin v hv hleft'
    · obtain ⟨ws, hws, hbehind⟩ := hover.halted u hu hstage
      exact ⟨ws, List.mem_cons_of_mem vs hws, hbehind⟩
  | @broken p vs runs hstarts hstop =>
    have hdistinct := haccounts.todo_nodup hnd
    have htodo := fun {u} => haccounts.unreported hnd (u := u)
    rw [List.flatten_cons] at hdistinct haccounts hbelow
    obtain ⟨left, hleft, htaken⟩ := runAll_accounts host hnd hstarts
      (fun u hu => hbelow u (List.mem_append_left _ hu)) haccounts
    have hadv := runAll_advance host vs p
    have hlater : Below runs.flatten (p.runAll host vs).1.scene.store :=
      fun u hu d hd => hbelow u (List.mem_append_right _ hu) d
        ((hadv.get?_of_not_mem fun hin =>
          List.disjoint_of_nodup_append hdistinct hin hu) ▸ hd)
    refine ⟨left ++ runs.flatten, fun u hu => ?_, ⟨fun hgo => ?_,
      fun ws hws u hu hin => ?_, fun u hu hstage => ?_⟩, htaken⟩
    · exact (List.mem_append.1 hu).elim
        (fun hu => List.mem_append_left _ (hleft.sub hu))
        (List.mem_append_right _)
    · rw [hleft.cancelled hstop] at hgo
      cases hgo
    · rw [hleft.processed hstop] at hin
      exact absurd hin (htodo (List.mem_flatten.2 ⟨ws, hws, hu⟩)).1
    · rcases List.mem_append.1 hu with hu | hu
      · obtain ⟨v, hv, hlinked⟩ := hleft.halted hstop u hu hstage
        exact ⟨vs, List.mem_cons_self, hleft.sub hu, v, hleft.sub hv,
          List.mem_append_left _ hv, hlinked⟩
      · exact absurd hstage (hlater.stageOf_ne hu)

end Pass

-- ========================================================== whole builds

/-- The report of a build over a batch has every document that the build
had to work on once, and in the right place. -/
structure Store.Accounted (s : Store) (batch : List Uri) (t : Store)
    (r : BuildReport) : Prop where
  once : (r.processed ++ r.failed ++ r.deferred).Nodup
  all : ∀ u, u ∈ r.processed ++ r.failed ++ r.deferred
    ↔ u ∈ batch ∧ ∃ d, s.get? u = some d ∧ d.stage < .validated
  processed : ∀ u ∈ r.processed, t.stageOf u = some .validated
  failed : ∀ u ∈ r.failed, ∃ d x, t.get? u = some d
    ∧ d.stage < .validated ∧ d.failures = [x]
    ∧ x.code = some Diagnostic.Code.failedStep
  deferred : ∀ u ∈ r.deferred, t.stageOf u = some .surveyed
  waits : ∀ u ∈ batch, ∀ d d', s.get? u = some d → d.stage < .linked →
    t.get? u = some d' → d'.isProject = false →
    ¬ d'.FailedIn .index → ¬ d'.FailedIn .scope →
    (u ∈ r.deferred ↔ ∃ owner, t.projects.ownerOf? u = some owner
      ∧ owner.stage < .surveyed)
  complete : r.isComplete = true ↔
    ∀ u ∈ batch, ∀ d, t.get? u = some d → d.stage = .validated

/-- Whether a document is loaded and has not been linked. -/
def Store.Early (s : Store) (u : Uri) : Prop :=
  ∃ d, s.get? u = some d ∧ d.stage < .linked

namespace Scene

open Pass (Accounts ledger)

variable (host : Host) {s : Scene} {batch : List Uri}

/-- When the pass of a build starts, all that is unfinished is to be
worked on. -/
theorem accounts_opened (s : Scene) (batch : List Uri)
    (ready : Uri → Bool) :
    let us := s.store.unfinished batch
    Accounts us s.store.Early ready (ledger .empty us)
      (s.opened host us).store := by
  intro us
  have hwiped : Accounts us s.store.Early ready (ledger .empty us)
      (s.wiped us).store := by
    refine ⟨.of_eq ((Pass.fst_ledger _ _).trans (List.nil_append us)),
      fun e he => ?_⟩
    obtain ⟨u, hu, rfl⟩ := List.mem_map.1 (show e ∈ us.map _ from he)
    obtain ⟨-, d, hd, -⟩ := Store.mem_unfinished.1 hu
    refine ⟨d.clearFailures, ?_, d.clearFailures_clearFailures, ?_⟩
    · rw [wiped, Store.get?_alter, hd, Option.map_some, if_pos hu]
    · rintro ⟨x, hx, hlt⟩ hle
      obtain rfl : x = d := Option.some.inj (hx.symm.trans hd)
      exact absurd hle (Nat.not_le.2 hlt)
  exact hwiped.reread host (s.store.nodup_unfinished batch)
    (p := ⟨s.wiped us, .empty⟩) (s.unread_subset us)

/-- What is unfinished has still to be validated when the pass starts. -/
theorem below_opened (s : Scene) (batch : List Uri) :
    let us := s.store.unfinished batch
    Pass.Below us (s.opened host us).store := by
  intro us
  have hwiped : Pass.Below us (s.wiped us).store := by
    intro u hu d hd
    obtain ⟨-, x, hx, hlt⟩ := Store.mem_unfinished.1 hu
    rw [wiped, Store.get?_alter, hx, Option.map_some, if_pos hu] at hd
    exact Option.some.inj hd ▸ hlt
  exact hwiped.reread host (p := ⟨s.wiped us, .empty⟩) (s.unread us)

/-- The accounts of a build are right on its course, cancelled or not. -/
theorem accounts_course {kept found rest : List Uri} {q : Scene × BuildReport}
    (hdivided : Pass.Divided (s.store.unfinished batch)
      (s.opened host (s.store.unfinished batch)).store q.1.store
      kept found rest)
    (hcourse : Pass.Course host
      ⟨s.opened host (s.store.unfinished batch), .empty⟩
      [kept, found, rest] ⟨q.1, q.2⟩) :
    ∃ left, Pass.Unreached [kept, found, rest] ⟨q.1, q.2⟩ left
      ∧ Accounts (s.store.unfinished batch) s.store.Early q.1.ownerReady
        (ledger q.2 left) q.1.store := by
  have hperm : [kept, found, rest].flatten.Perm
      (s.store.unfinished batch) := by
    simpa using hdivided.perm
  have hopened := (s.accounts_opened host batch q.1.ownerReady).perm
    (Pass.ledger_perm .empty hperm)
  obtain ⟨left, -, hunreached, haccounts⟩ := hcourse.accounts
    (s.store.nodup_unfinished batch) (fun u hu =>
      s.below_opened host batch u (hperm.subset hu)) hopened
  exact ⟨left, hunreached, haccounts⟩

/-- A build that is not cancelled leaves nothing over. -/
theorem accounts_buildBatch
    (hgo : (s.buildBatch host batch).2.cancelled = false) :
    let q := s.buildBatch host batch
    Accounts (s.store.unfinished batch) s.store.Early q.1.ownerReady
      (ledger q.2 []) q.1.store := by
  obtain ⟨kept, found, rest, hdivided, hcourse⟩ :=
    s.course_buildBatch host batch
  obtain ⟨left, hunreached, haccounts⟩ :=
    accounts_course host hdivided hcourse
  exact hunreached.nobody hgo ▸ haccounts

/-- An ordinary document is ready unless its owner has still to be
surveyed. -/
theorem ownerReady_eq_false {u : Uri} (h : s.store.isProject u = false) :
    s.ownerReady u = false ↔ ∃ owner,
      s.store.projects.ownerOf? u = some owner ∧ owner.stage < .surveyed := by
  unfold ownerReady
  rw [h, Bool.false_or]
  cases s.store.projects.ownerOf? u with
  | none => simp
  | some owner =>
    simp only [Option.all_some, decide_eq_false_iff_not,
      Option.some.injEq, exists_eq_left']
    exact Nat.not_le

/-- A build that is not cancelled accounts for every document once, and
rightly, from any scene and whatever steps fail. -/
theorem accounted_buildBatch
    (h : (s.buildBatch host batch).2.cancelled = false) :
    s.store.Accounted batch (s.buildBatch host batch).1.store
      (s.buildBatch host batch).2 := by
  have haccounts := accounts_buildBatch host h
  have hwithin := s.within_buildBatch host batch
  generalize s.buildBatch host batch = q at h haccounts hwithin
  obtain ⟨t, r⟩ := q
  dsimp only at h haccounts hwithin ⊢
  have hreported := haccounts.reported
  refine ⟨hreported.nodup_iff.2 (s.store.nodup_unfinished batch),
    fun u => hreported.mem_iff.trans Store.mem_unfinished,
    fun u hu => ?_, fun u hu => ?_, fun u hu => ?_, ?_, ?_⟩
  · obtain ⟨d, hd, hstage, -⟩ := haccounts.of_processed hu
    rw [Store.stageOf, hd, Option.map_some, hstage]
  · obtain ⟨d, hd, phase, error, hstage, hfailure, -⟩ :=
      haccounts.of_failed hu
    exact ⟨d, _, hd, hstage ▸ phase.base_lt_validated, hfailure.failures,
      rfl⟩
  · obtain ⟨d, hd, hstage, -⟩ := haccounts.of_deferred hu
    rw [Store.stageOf, hd, Option.map_some, hstage]
  · intro u hu d d' hd hlt hd' hord hindex hscope
    rw [← ownerReady_eq_false ((Store.isProject_of_get? hd').trans hord)]
    exact haccounts.deferred_iff (Store.mem_unfinished.2
      ⟨hu, d, hd, Nat.lt_trans hlt (by decide)⟩) ⟨d, hd, hlt⟩ hd' hindex
      hscope
  · have hcomplete : r.isComplete = true
        ↔ r.failed = [] ∧ r.deferred = [] := by
      simp [BuildReport.isComplete, h]
    rw [hcomplete, haccounts.complete_iff]
    refine ⟨fun hall u hu d hd => ?_, fun hall u hu =>
      hall u (Store.mem_unfinished.1 hu).1⟩
    -- who was complete when the build started has not been touched
    by_cases hin : u ∈ s.store.unfinished batch
    · exact hall u hin d hd
    · rw [hwithin.others u hin] at hd
      exact Stage.eq_validated (Nat.not_lt.1 fun hlt =>
        hin (Store.mem_unfinished.2 ⟨hu, d, hd, hlt⟩))

/-- A document that has been read. -/
def known (content : Content) : Document :=
  { Document.unread "" with stage := .parsed, content := some content }

/-- A project, a document that it owns and one that nobody owns. -/
def owning : Scene where
  store :=
    { entries :=
        [(Uri.ofString "/m/M.sysw", known (.descriptor
            ⟨.project, "M", .empty 0, [], ["src"]⟩)),
          (Uri.ofString "/m/src/a.sysw", known (.ordinary ⟨[], []⟩)),
          (Uri.ofString "/b.sysw", known (.ordinary ⟨[], []⟩))]
      nodup := by decide +kernel }
  index := .empty []
  trace := .start false

/-- A host under which the project cannot be surveyed. -/
def barring : Host where
  fault? step u :=
    if step = .scope ∧ u = Uri.ofString "/m/M.sysw" then
      some ⟨true, .failed "out of order"⟩
    else none
  withdrawAt := none

/-- The documents, one of them twice, and one that is not loaded. -/
def scattered : List Uri :=
  [Uri.ofString "/b.sysw", Uri.ofString "/m/src/a.sysw",
    Uri.ofString "/x.sysw", Uri.ofString "/m/M.sysw",
    Uri.ofString "/b.sysw"]

/-- The project fails, the document that it owns is put off, and the
other one is processed. -/
theorem accounted_buildBatch_owning :
    (owning.buildBatch barring scattered).2.cancelled = false
      ∧ owning.store.Accounted scattered
        (owning.buildBatch barring scattered).1.store
        ⟨[Uri.ofString "/b.sysw"], [Uri.ofString "/m/M.sysw"],
          [Uri.ofString "/m/src/a.sysw"], false⟩ := by
  have hreport : (owning.buildBatch barring scattered).2
      = ⟨[Uri.ofString "/b.sysw"], [Uri.ofString "/m/M.sysw"],
          [Uri.ofString "/m/src/a.sysw"], false⟩ := by decide +kernel
  have hgo : (owning.buildBatch barring scattered).2.cancelled = false := by
    rw [hreport]
  have haccounted := @accounted_buildBatch barring owning scattered hgo
  rw [hreport] at haccounted
  exact ⟨hgo, haccounted⟩

end Scene

end Purview
