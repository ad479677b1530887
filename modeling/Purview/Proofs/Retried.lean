/-
A build that is made again. Nobody gets any further: whoever has been
put off is put off again, and whoever has failed fails again at the same
step (`journey_again`). So nothing changes for others, and the second
build reports the documents that the first one has left over, each in
the same place.

The documents themselves stay as they are, but for one thing. A step may
fail when it has done its work. What it has then reported of references
or of the document as a whole stays, since only the failure itself is
wiped when the document is taken up again; and the step, which does its
work anew, reports it once more (`Document.retried`). Such diagnostics
pile up, build after build (`build_retried`).
-/
import Purview.Proofs.Recorded
import Purview.Proofs.Resumed

namespace Purview

-- ============================================================== one step

/-- The phase that starts at a stage. -/
def Stage.next? (stage : Stage) : Option Phase :=
  Phase.all.find? (·.base = stage)

theorem Phase.next?_base (phase : Phase) :
    phase.base.next? = some phase := by
  cases phase <;> rfl

/-- The diagnostics that the work of a phase adds: one for each reference
that leads nowhere, and what is wrong with the document as a whole, where
these are the facts about a project. -/
def Phase.reports (phase : Phase) (facts : DependencyFacts)
    (c : Content) : List Diagnostic :=
  phase.findings ⟨[], some facts⟩ c

namespace Document

/-- Whether the step of a phase is made to fail on a document when it has
done its work. -/
def spoiled (faults : Faults) (phase : Phase) (u : Uri) (d : Document) :
    Bool :=
  (faults phase.step u).any (·.after) && (phase.work u .empty d).isOk

/-- What is reported of a document once more when the step that has
failed on it is tried again. It is nothing unless the step fails when it
has done its work. -/
def again (faults : Faults) (u : Uri) (facts : DependencyFacts)
    (d : Document) : List Diagnostic :=
  d.stage.next?.elim [] fun phase =>
    if d.spoiled faults phase u then
      d.content.elim [] (phase.reports facts)
    else []

/-- A document on which a step has failed, and has been tried again. -/
def retried (faults : Faults) (u : Uri) (facts : DependencyFacts)
    (d : Document) : Document :=
  { d with diagnostics := d.clearFailures.diagnostics
      ++ d.again faults u facts ++ d.failures }

variable {c c' : Conditions} {u : Uri} {d x : Document} {phase : Phase}
  {phases : List Phase} {facts : DependencyFacts} {scope scope' : LinkScope}

/-- Retrying adds diagnostics and nothing else. -/
theorem looks_retried (faults : Faults) (u : Uri) (facts : DependencyFacts)
    (d : Document) : d.Looks (d.retried faults u facts) := ⟨rfl, rfl, rfl⟩

theorem linkBody_linkBody (u : Uri) (own : List String)
    (scope : LinkScope) (b : Body) :
    linkBody u own scope (linkBody u own scope b)
      = linkBody u own scope b := by
  simp [linkBody]

/-- Of a scope only the facts about a project bear on what is wrong. -/
theorem complaints_facts (content : Content)
    (h : content.descriptor?.isSome → scope.facts = some facts) :
    complaints content scope = complaints content ⟨[], some facts⟩ := by
  cases content with
  | ordinary b => rfl
  | descriptor y =>
    unfold complaints
    rw [h rfl]

/-- Of what a phase has to say, too, a scope only bears on a project. -/
theorem findings_facts (phase : Phase) (content : Content)
    (h : content.descriptor?.isSome → scope.facts = some facts) :
    phase.findings scope content = phase.reports facts content := by
  cases phase with
  | validate => exact complaints_facts content h
  | index | scope | link => rfl

/-- References that have been looked up are found where they were. -/
theorem turn_turn (phase : Phase) (u : Uri) (own : Option (List String))
    (c : Content) (h : c.descriptor? = none → scope' = scope) :
    phase.turn u own scope' (phase.turn u own scope c)
      = phase.turn u own scope c := by
  unfold Phase.turn
  split
  · cases c with
    | descriptor y => rfl
    | ordinary b =>
      obtain rfl := h rfl
      exact congrArg Content.ordinary (linkBody_linkBody u _ scope' b)
  · rfl

/-- Work that is done anew comes to the same, and reports it once more. -/
theorem work_again (h : phase.work u scope d = .ok x)
    (hphase : phase ≠ .index)
    (hscope : d.isProject = false → scope' = scope)
    (hfacts : d.isProject = true → scope'.facts = some facts) :
    ∃ content, x.content = some content
      ∧ phase.work u scope' x = .ok { x with
        diagnostics := x.diagnostics ++ phase.reports facts content } := by
  obtain ⟨hlack, rfl⟩ := Phase.work_eq_ok h
  obtain ⟨hcontent, hown⟩ := Phase.lack?_eq_none_iff.1 hlack
  obtain ⟨c, hc⟩ := Option.isSome_iff_exists.1 hcontent
  unfold isProject descriptor? at hscope hfacts
  rw [hc, Option.bind_some] at hscope hfacts
  have hdone : (phase.done u scope d).content
      = some (phase.turn u d.own scope c) := by
    show d.content.map _ = _
    rw [hc, Option.map_some]
  have hturn : phase.turn u (phase.done u scope d).own scope'
      (phase.turn u d.own scope c) = phase.turn u d.own scope c := by
    have hsame : phase.turn u (phase.done u scope d).own scope'
        = phase.turn u d.own scope' := by
      cases phase <;> rfl
    rw [hsame]
    exact turn_turn phase u d.own c fun hnone => hscope (by rw [hnone]; rfl)
  have hlisted : (if phase = .scope then (phase.done u scope d).listed
      else (phase.done u scope d).own) = (phase.done u scope d).own := by
    unfold listed
    rw [hdone, Option.map_some, Phase.names_turn]
    split
    · next hphase =>
      show _ = if phase = .scope then d.content.map _ else d.own
      rw [if_pos hphase, hc]
      rfl
    · rfl
  have hsaid : phase.findings scope' (phase.turn u d.own scope c)
      = phase.reports facts (phase.turn u d.own scope c) := by
    refine findings_facts phase _ ?_
    rw [Phase.descriptor?_turn]
    exact hfacts
  have hagain : phase.lack? u (phase.done u scope d) = none := by
    refine Phase.lack?_eq_none_iff.2 ⟨by rw [hdone]; rfl, fun hlink => ?_⟩
    subst hlink
    exact hown rfl
  refine ⟨_, hdone, ?_⟩
  rw [Phase.work_eq, hagain, Option.elim_none, Phase.done, hdone,
    Option.map_some, hturn, hlisted, if_neg hphase, Option.elim_some,
    hsaid, ← hdone]

-- ========================================================== dropping out

variable {faults : Faults}

theorem again_report (hstage : d.stage = phase.base)
    (faults : Faults) (facts : DependencyFacts) (error : StepError) :
    (d.report (Pass.stepFailure phase error)).again faults u facts
      = if d.spoiled faults phase u then
          d.content.elim [] (phase.reports facts)
        else [] := by
  have hspoiled : (d.report (Pass.stepFailure phase error)).spoiled
      faults phase u = d.spoiled faults phase u := by
    unfold spoiled
    rw [isOk_work, isOk_work]
    rfl
  unfold again
  rw [show (d.report _).stage = phase.base from hstage, Phase.next?_base,
    Option.elim_some, hspoiled]
  rfl

/-- What is reported once more stands before the failure. -/
theorem retried_report (hd : d.clearFailures = d) (phase : Phase)
    (faults : Faults) (facts : DependencyFacts) (error : StepError) :
    (d.report (Pass.stepFailure phase error)).retried faults u facts
      = Document.report { d with diagnostics := d.diagnostics
        ++ (d.report (Pass.stepFailure phase error)).again faults u facts }
          (Pass.stepFailure phase error) := by
  unfold retried
  rw [clearFailures_report hd, failures_report hd]
  rfl

/-- A call that fails does so in any scope, before the work or when it is
done. -/
theorem attempt_dropped
    (h : (Host.attempt ⟨faults, none⟩ phase.step u
      (phase.work u scope d)).error?.isNone = false) :
    (d.spoiled faults phase u = false ∧ ∃ error, ∀ scope',
        Host.attempt ⟨faults, none⟩ phase.step u (phase.work u scope' d)
          = .failedBefore error)
      ∨ d.spoiled faults phase u = true
        ∧ ∃ error, faults phase.step u = some ⟨true, error⟩ := by
  unfold Host.attempt at h ⊢
  unfold spoiled
  have hok : (phase.work u .empty d).isOk = (phase.work u scope d).isOk := by
    rw [isOk_work, isOk_work]
  rw [hok]
  dsimp only at h ⊢
  cases hwork : phase.work u scope d with
  | error error =>
    have hall := work_error_congr hwork
    rcases hfault : faults phase.step u with _ | ⟨_ | _, error'⟩
    · exact .inl ⟨rfl, error, fun scope' => by rw [hall scope']⟩
    · exact .inl ⟨rfl, error', fun _ => rfl⟩
    · exact .inl ⟨rfl, error, fun scope' => by rw [hall scope']⟩
  | ok x =>
    rcases hfault : faults phase.step u with _ | ⟨_ | _, error'⟩
    · rw [hfault, hwork] at h
      cases h
    · exact .inl ⟨rfl, error', fun _ => rfl⟩
    · exact .inr ⟨rfl, error', rfl⟩

/-- A call that is made to fail when the work is done. -/
theorem attempt_spoiled {error : StepError}
    (hfault : faults phase.step u = some ⟨true, error⟩)
    (h : phase.work u scope d = .ok x) :
    Host.attempt ⟨faults, none⟩ phase.step u (phase.work u scope d)
      = .failedAfter x error := by
  unfold Host.attempt
  simp only [hfault, h]

/-- What becomes of a document on which a step is called. -/
theorem taken_call (hgoal : ¬ phase.goal ≤ d.stage)
    (hready : ¬ (phase = .link ∧ c.ready = false)) :
    let attempt := Host.attempt ⟨c.faults, none⟩ phase.step u
      (phase.work u c.scope d)
    d.taken c u phase = (d.ended phase attempt, attempt.error?.isNone) := by
  unfold taken
  rw [if_neg hgoal, if_neg hready]

/-- Who has failed without any work having been done fails again. -/
theorem taken_failed (hd : d.clearFailures = d)
    (hfaults : c'.faults = c.faults) (hgoal : ¬ phase.goal ≤ d.stage)
    (hready : ¬ (phase = .link ∧ c.ready = false))
    (hready' : ¬ (phase = .link ∧ c'.ready = false))
    (error : StepError) (hagain : (d.report
      (Pass.stepFailure phase error)).again c.faults u facts = [])
    (h : ∀ scope,
      d.ended phase (Host.attempt ⟨c.faults, none⟩ phase.step u
        (phase.work u scope d)) = d.report (Pass.stepFailure phase error)
      ∧ (Host.attempt ⟨c.faults, none⟩ phase.step u
        (phase.work u scope d)).error?.isNone = false) :
    let y := (d.taken c u phase).1
    y.clearFailures.taken c' u phase = (if y.failures = [] then y
      else y.retried c.faults u facts, false) := by
  rw [taken_call hgoal hready, (h c.scope).1]
  dsimp only
  rw [clearFailures_report hd, taken_call hgoal hready', hfaults,
    (h c'.scope).1, (h c'.scope).2, failures_report hd,
    if_neg (List.cons_ne_nil _ _), retried_report hd, hagain,
    List.append_nil]

theorem work_of_spoiled {faults : Faults}
    (h : d.spoiled faults phase u = true) (scope : LinkScope) :
    ∃ x, phase.work u scope d = .ok x := by
  have hok := (Bool.and_eq_true_iff.1 h).2
  rw [isOk_work, ← isOk_work phase u scope] at hok
  cases hwork : phase.work u scope d with
  | ok x => exact ⟨x, rfl⟩
  | error error =>
    rw [hwork] at hok
    cases hok

/-- Who has failed when the work was done has it done once more, and
fails again. -/
theorem taken_spoiled (hd : d.clearFailures = d)
    (hstage : d.stage = phase.base) (hphase : phase ≠ .index)
    (hfaults : c'.faults = c.faults)
    (hready : ¬ (phase = .link ∧ c.ready = false))
    (hready' : ¬ (phase = .link ∧ c'.ready = false))
    (hscope : d.isProject = false → c'.scope = c.scope)
    (hfacts : d.isProject = true → c'.scope.facts = some facts)
    (hlate : d.spoiled c.faults phase u = true) {error : StepError}
    (hfault : c.faults phase.step u = some ⟨true, error⟩) :
    let y := (d.taken c u phase).1
    y.clearFailures.taken c' u phase = (if y.failures = [] then y
      else y.retried c.faults u facts, false) := by
  obtain ⟨x, hx⟩ := work_of_spoiled hlate c.scope
  obtain ⟨content, hcontent, hagain⟩ := work_again hx hphase hscope hfacts
  have hclean := clearFailures_work hd hx
  have hstage' := (worked_of_work hx).stage.trans hstage
  have hgoal : ∀ {y : Document}, y.stage = phase.base →
      ¬ phase.goal ≤ y.stage := fun h => by
    rw [h]
    cases phase <;> decide
  have hlate' : x.spoiled c.faults phase u = true := by
    unfold spoiled
    rw [hfault, isOk_work, ← isOk_work phase u c'.scope, hagain]
    rfl
  have hy : d.taken c u phase
      = (x.report (Pass.stepFailure phase error), false) := by
    rw [taken_call (hgoal hstage) hready, attempt_spoiled hfault hx]
    simp only [ended, if_neg hphase]
    rfl
  rw [hy]
  dsimp only
  rw [clearFailures_report hclean, taken_call (hgoal hstage') hready',
    hfaults, attempt_spoiled hfault hagain, failures_report hclean,
    if_neg (List.cons_ne_nil _ _), retried_report hclean,
    again_report hstage', if_pos hlate', hcontent]
  simp only [ended, if_neg hphase]
  rfl

/-- A document that has dropped out at a phase drops out there again. If
a step has failed on it, it fails again, and reports once more what it
reports before that. -/
theorem taken_again (hd : d.clearFailures = d)
    (hbase : phase.base ≤ d.stage)
    (hfaults : c'.faults = c.faults) (hready : c'.ready = c.ready)
    (hscope : d.isProject = false → c'.scope = c.scope)
    (hfacts : d.isProject = true → c'.scope.facts = some facts)
    (hoff : (d.taken c u phase).2 = false) :
    let y := (d.taken c u phase).1
    y.clearFailures.taken c' u phase = (if y.failures = [] then y
      else y.retried c.faults u facts, false) := by
  by_cases hgoal : phase.goal ≤ d.stage
  · rw [taken_past hgoal] at hoff
    cases hoff
  have hstage := Phase.eq_base hbase hgoal
  by_cases hwait : phase = .link ∧ c.ready = false
  · have hstays : ∀ b : Conditions, b.ready = c.ready →
        d.taken b u phase = (d, false) := fun b hb => by
      unfold taken
      rw [if_neg hgoal, if_pos (hb ▸ hwait)]
    rw [hstays c rfl]
    dsimp only
    rw [hd, hstays c' hready, if_pos (failures_eq_nil hd)]
  have hwait' : ¬ (phase = .link ∧ c'.ready = false) := hready ▸ hwait
  rw [taken_call hgoal hwait] at hoff
  rcases attempt_dropped hoff with
    ⟨hfirst, error, herror⟩ | ⟨hlate, error, hfault⟩
  · refine taken_failed hd hfaults hgoal hwait hwait' error ?_
      fun scope => ?_
    · rw [again_report hstage, hfirst]
      rfl
    · rw [herror scope]
      exact ⟨rfl, rfl⟩
  by_cases hphase : phase = .index
  · -- the names that indexing has found are lost
    subst hphase
    refine taken_failed hd hfaults hgoal hwait hwait' error ?_
      fun scope => ?_
    · rw [again_report hstage, if_pos hlate]
      cases d.content <;> rfl
    · obtain ⟨x, hx⟩ := work_of_spoiled hlate scope
      rw [attempt_spoiled hfault hx]
      exact ⟨rfl, rfl⟩
  · exact taken_spoiled hd hstage hphase hfaults hwait hwait' hscope hfacts
      hlate hfault

/-- A document that has dropped out drops out again at the same step. -/
theorem journey_again (hd : d.clearFailures = d) {stage : Stage}
    (hfollow : Phase.Follow stage phases) (hstage : stage ≤ d.stage)
    (hfaults : c'.faults = c.faults) (hready : c'.ready = c.ready)
    (hscope : d.isProject = false → c'.scope = c.scope)
    (hfacts : d.isProject = true → c'.scope.facts = some facts)
    (hoff : (d.journey c u phases).2 = false) (later : List Phase) :
    let y := (d.journey c u phases).1
    y.clearFailures.journey c' u (phases ++ later)
      = (if y.failures = [] then y
        else y.retried c.faults u facts, false) := by
  induction phases generalizing d stage with
  | nil => cases hoff
  | cons phase phases ih =>
    obtain ⟨rfl, hfollow⟩ := hfollow
    rw [journey] at hoff ⊢
    cases hon : (d.taken c u phase).2 with
    | true =>
      simp only [hon, if_true] at hoff ⊢
      have hkind := (forward_taken c u phase d).isProject
      have hgoal := goal_le_taken hon
      have hpast : phase.goal ≤ ((d.taken c u phase).1.journey c u
          phases).1.clearFailures.stage :=
        Nat.le_trans hgoal (forward_journey c u phases _).stage
      rw [List.cons_append, journey, taken_past hpast]
      exact ih (clearFailures_taken hd hon) hfollow hgoal
        (fun h => hscope (hkind ▸ h)) (fun h => hfacts (hkind ▸ h)) hoff
    | false =>
      simp only [Bool.false_eq_true, if_false]
      rw [List.cons_append, journey, taken_again hd hstage hfaults hready
        hscope hfacts hon]
      rfl

end Document

-- =========================================================== second builds

namespace Scene

variable {s t : Scene} {faults : Faults} {far : Uri → Option (List Phase)}

theorem faults_meets (s : Scene) (faults : Faults) (u : Uri) :
    (s.meets faults u).faults = faults := by
  unfold meets
  split <;> rfl

/-- A build has left every pending document at the end of its way. -/
structure Exhausts (s : Scene) (faults : Faults) (t : Scene) : Prop where
  faithful : s.store.Faithful
  keyed : (s.index.horizons.map Prod.fst).Nodup
  leaves : ∃ far, s.Leaves faults far t
    ∧ ∀ u ∈ s.store.pending, far u = some Phase.all

namespace Exhausts

variable {u : Uri} {d x : Document} {c : Conditions}

theorem pending (h : s.Exhausts faults t) (hu : u ∈ t.store.pending) :
    u ∈ s.store.pending := by
  obtain ⟨far, hleaves, -⟩ := h.leaves
  exact hleaves.pending hu

theorem get? (h : s.Exhausts faults t) (hd : s.store.get? u = some d)
    (hu : u ∈ s.store.pending) : t.store.get? u
      = some (d.renew.journey (s.meets faults u) u Phase.all).1 := by
  obtain ⟨far, hleaves, hend⟩ := h.leaves
  rw [hleaves.get? hd hu, hend u hu]
  rfl

/-- Whoever is still pending drops out again. -/
theorem journey_again (h : s.Exhausts faults t)
    (hd : s.store.get? u = some d) (hx : t.store.get? u = some x)
    (hu : u ∈ t.store.pending) (facts : DependencyFacts)
    (hfaults : c.faults = faults)
    (hready : c.ready = (s.meets faults u).ready)
    (hscope : s.store.announces u = false →
      c.scope = (s.meets faults u).scope)
    (hfacts : s.store.announces u = true → c.scope.facts = some facts) :
    x.renew.journey c u Phase.all = (if x.failures = [] then x
      else x.retried faults u facts, false) := by
  obtain ⟨far, hleaves, hend⟩ := h.leaves
  have hfar := hend u (hleaves.pending hu)
  have hget := h.get? hd (hleaves.pending hu)
  rw [hx, Option.some_inj] at hget
  have hkind : d.renew.isProject = s.store.announces u := by
    rw [Document.isProject_renew (h.faithful u d hd),
      Store.announces_of_get? hd]
  have hrenew : x.renew = x.clearFailures := by
    rw [hget]
    exact Document.renew_underway _ u d Phase.all
  have hagain := Document.journey_again d.clearFailures_renew
    Phase.follow_all (Stage.parsed_le.2 d.stage_renew_ne)
    (hfaults.trans (s.faults_meets faults u).symm) hready
    (hkind ▸ hscope) (hkind ▸ hfacts) (hleaves.dropped hd hu hfar) []
  rw [← hget, List.append_nil, faults_meets] at hagain
  rw [hrenew, hagain]

theorem looks_again (faults : Faults) (u : Uri) (facts : DependencyFacts)
    (x : Document) :
    x.Looks (if x.failures = [] then x else x.retried faults u facts) := by
  split
  · exact .refl x
  · exact x.looks_retried faults u facts

/-- What a project is checked against when it is built again. -/
theorem checks (h : s.Exhausts faults t) (u : Uri) : t.checks faults u
    = ⟨faults, true, ⟨[], some (t.store.projects.facts u)⟩⟩ := by
  obtain ⟨far, hleaves, hend⟩ := h.leaves
  have hread : ∀ u ∈ s.store.pending, far u ≠ none := fun u hu => by
    rw [hend u hu]
    exact nofun
  have hplan : t.store.plan = s.allRead.plan := by
    rw [hleaves.store]
    exact plan_placed hread
  rw [Projects.facts_of_plan hplan]
  unfold Scene.checks
  split
  · rw [Projects.facts_of_plan
      (hleaves.plan_firstRead_late h.faithful hread)]
  · rw [Projects.facts_of_plan (hleaves.plan_allRead h.faithful)]

theorem recurs (h : s.Exhausts faults t) : s.Recurs faults t where
  done hd hu _ := h.get? hd hu
  project {u d x} hd hx hu hann := by
    have hget := h.get? hd (h.pending hu)
    rw [hx, Option.some_inj, meets, if_pos hann] at hget
    rw [h.checks, h.journey_again hd hx hu _ rfl
      (by rw [meets, if_pos hann]; rfl) (fun hord => by
        rw [hann] at hord
        cases hord) fun _ => rfl, ← hget]
    exact looks_again faults u _ x
  ordinary {u d x} hd hx hu hord := by
    have hget := h.get? hd (h.pending hu)
    rw [hx, Option.some_inj] at hget
    rw [h.journey_again hd hx hu ⟨[], none⟩
      (s.faults_meets faults u) rfl (fun _ => rfl) (fun hann => by
        rw [hann] at hord
        cases hord), ← hget]
    exact (looks_again faults u _ x).offered

/-- Another build tries again what has failed, and nothing else. -/
theorem final (h : s.Exhausts faults t) : t.final faults
    = t.store.alter fun u d =>
      if u ∈ t.store.pending ∧ d.failures ≠ [] then
        d.retried faults u (t.store.projects.facts u)
      else d := by
  obtain ⟨far, hleaves, -⟩ := h.leaves
  unfold Scene.final placed
  refine Store.alter_congr fun u x hx => ?_
  by_cases hu : u ∈ t.store.pending
  · obtain ⟨d, hd, -⟩ := Store.mem_pending.1 (h.pending hu)
    have hann := hleaves.alike.announces u
    have hproject : s.store.announces u = true → t.meets faults u
        = ⟨faults, true, ⟨[], some (t.store.projects.facts u)⟩⟩ :=
      fun hyes => (if_pos (hann.trans hyes)).trans (h.checks u)
    have hordinary : s.store.announces u = false →
        t.meets faults u = s.meets faults u :=
      hleaves.meets_ordinary h.faithful h.recurs h.keyed (h.pending hu)
    have hready : (t.meets faults u).ready = (s.meets faults u).ready := by
      cases hkind : s.store.announces u with
      | true => rw [hproject hkind, meets, if_pos hkind]; rfl
      | false => rw [hordinary hkind]
    have hagain := h.journey_again hd hx hu _
      (t.faults_meets faults u) hready
      (fun hno => by rw [hordinary hno]) (fun hyes => by rw [hproject hyes])
    rw [if_pos hu, Document.underway, hagain]
    by_cases hnone : x.failures = []
    · rw [if_pos hnone, if_neg (fun hand => hand.2 hnone)]
    · rw [if_neg hnone, if_pos ⟨hu, hnone⟩]
  · rw [if_neg hu, if_neg (fun hand => hu hand.1)]

theorem begin (h : s.Exhausts faults t) (withdrawn : Bool) :
    s.Exhausts faults (t.begin withdrawn) := by
  obtain ⟨far, hleaves, hend⟩ := h.leaves
  exact ⟨h.faithful, h.keyed, far, hleaves.begin withdrawn, hend⟩

end Exhausts

end Scene

-- ============================================================== reports

/-- A pass that nobody withdraws is not cancelled. -/
theorem Pass.Course.undisturbed {host : Host}
    (hhost : host.withdrawAt = none) {p q : Pass} {runs : List (List Uri)}
    (h : Course host p runs q) (hp : p.Undisturbed) : q.Undisturbed := by
  induction h with
  | done => exact hp
  | stopped hcancelled =>
    rw [hp.cancelled] at hcancelled
    cases hcancelled
  | polled _ ih => exact ih (hp.poll.symm ▸ hp)
  | @read p _ us _ _ _ ih => exact ih (hp.reread hhost us)
  | @run p _ us _ _ _ _ ih => exact ih (hp.runAll hhost us).1
  | @broken p us _ _ hstop =>
    rw [(hp.runAll hhost us).2] at hstop
    cases hstop

namespace Scene

variable {s : Scene} {faults : Faults}

/-- A build that nobody withdraws takes everybody to the end of the way,
and is not cancelled. -/
theorem exhausts_build (faults : Faults) (hs : s.store.Faithful)
    (hkeyed : (s.index.horizons.map Prod.fst).Nodup)
    (hw : s.trace.withdrawn = false) :
    s.Exhausts faults (s.build ⟨faults, none⟩).1
      ∧ (s.build ⟨faults, none⟩).2.cancelled = false := by
  constructor
  · obtain ⟨far, hleaves, hend⟩ := build_leaves ⟨faults, none⟩ hs hkeyed
    exact ⟨hs, hkeyed, far, hleaves, hend rfl hw⟩
  · obtain ⟨_, _, _, -, hcourse⟩ :=
      s.course_buildBatch ⟨faults, none⟩ s.store.pending
    have hopened : (s.opened ⟨faults, none⟩
        (s.store.unfinished s.store.pending)).trace.withdrawn = false :=
      (withdrawn_reread rfl _ _).trans hw
    exact (hcourse.undisturbed rfl ⟨rfl, hopened⟩).cancelled

/-- What a build that is not cancelled reports can be told from what it
leaves. -/
structure Tallies (s t : Store) (r : BuildReport) : Prop where
  nodup : (r.processed ++ r.failed ++ r.deferred).Nodup
  processed : ∀ u, u ∈ r.processed ↔ u ∈ s.pending ∧ u ∉ t.pending
  failed : ∀ u, u ∈ r.failed
    ↔ u ∈ t.pending ∧ ∃ d, t.get? u = some d ∧ d.failures ≠ []
  deferred : ∀ u, u ∈ r.deferred
    ↔ u ∈ t.pending ∧ ∃ d, t.get? u = some d ∧ d.failures = []
  last : ∀ u ∈ r.failed, ∀ d, t.get? u = some d →
    ∃ phase error, d.FailedWith phase error

theorem tallies_build (host : Host)
    (hgo : (s.build host).2.cancelled = false)
    (hpending : (s.build host).1.store.pending ⊆ s.store.pending) :
    Tallies s.store (s.build host).1.store (s.build host).2 := by
  have h := @accounts_buildBatch host s s.store.pending hgo
  have hnd := s.store.nodup_unfinished s.store.pending
  rw [Store.unfinished_pending] at h hnd
  have hreported := fun {u} => (h.reported.mem_iff (a := u)).1
  simp only [List.mem_append] at hreported
  refine ⟨h.reported.nodup_iff.2 hnd, fun u =>
    ⟨fun hin => ?_, fun ⟨hu, hdone⟩ => ?_⟩, fun u =>
    ⟨fun hin => ?_, fun ⟨hu, d, hd, hfailures⟩ => ?_⟩, fun u =>
    ⟨fun hin => ?_, fun ⟨hu, d, hd, hfailures⟩ => ?_⟩,
    fun u hin d hd => ?_⟩
  · have hu := hreported (.inl (.inl hin))
    obtain ⟨d, hd⟩ := h.loaded hu
    refine ⟨hu, fun hu' => absurd ((Store.pending_iff hd).1 hu') ?_⟩
    rw [(h.mem_processed hu hd).1 hin]
    decide
  · obtain ⟨d, hd⟩ := h.loaded hu
    exact (h.mem_processed hu hd).2
      (Stage.eq_validated (Nat.not_lt.1 (mt (Store.pending_iff hd).2 hdone)))
  · have hu := hreported (.inl (.inr hin))
    obtain ⟨d, hd⟩ := h.loaded hu
    obtain ⟨hstage, hfailures⟩ := (h.mem_failed hu hd).1 hin
    exact ⟨(Store.pending_iff hd).2 hstage, d, hd, hfailures⟩
  · exact (h.mem_failed (hpending hu) hd).2
      ⟨(Store.pending_iff hd).1 hu, hfailures⟩
  · have hu := hreported (.inr hin)
    obtain ⟨d, hd⟩ := h.loaded hu
    obtain ⟨hstage, hfailures⟩ := (h.mem_deferred hu hd).1 hin
    exact ⟨(Store.pending_iff hd).2 hstage, d, hd, hfailures⟩
  · exact (h.mem_deferred (hpending hu) hd).2
      ⟨(Store.pending_iff hd).1 hu, hfailures⟩
  · obtain ⟨x, hx, phase, error, -, hfailure, -⟩ := h.of_failed hin
    exact ⟨phase, error, Option.some.inj (hx.symm.trans hd) ▸ hfailure⟩

end Scene

namespace Document

variable {faults : Faults} {u : Uri} {facts : DependencyFacts}
  {d : Document}

/-- A document that has failed stays as it is if and only if nothing is
reported once more. -/
theorem retried_eq_self {phase : Phase} {error : StepError}
    (h : d.FailedWith phase error) :
    d.retried faults u facts = d ↔ d.again faults u facts = [] := by
  have hlast : d.diagnostics = d.clearFailures.diagnostics ++ d.failures := by
    rw [h.failures]
    exact congrArg Document.diagnostics h
  constructor
  · intro hsame
    have hdiagnostics := (congrArg Document.diagnostics hsame).trans hlast
    rw [retried, List.append_assoc] at hdiagnostics
    exact List.append_left_eq_self.1
      (List.append_cancel_left hdiagnostics)
  · intro hnone
    unfold retried
    rw [hnone, List.append_nil, ← hlast]

theorem failures_retried (h : d.failures ≠ []) :
    (d.retried faults u facts).failures ≠ [] := by
  obtain ⟨x, hx⟩ := List.exists_mem_of_ne_nil _ h
  refine List.ne_nil_of_mem (List.mem_filter.2 ⟨?_,
    (List.mem_filter.1 hx).2⟩ : x ∈ _)
  exact List.mem_append_right _ hx

end Document

namespace Scene

variable {s : Scene} {faults : Faults}

/-- What a build comes to that repeats another. It fails on the same
documents and puts off the same, and what it leaves differs from what it
has found in what is reported once more. -/
structure Repeats (faults : Faults) (t t' : Store) (r r' : BuildReport) :
    Prop where
  cancelled : r.cancelled = false ∧ r'.cancelled = false
  failed : r'.failed.Perm r.failed
  deferred : r'.deferred.Perm r.deferred
  processed : r'.processed = []
  store : t' = t.alter fun u d =>
    if u ∈ r.failed then d.retried faults u (t.projects.facts u) else d
  same : t' = t ↔ ∀ u ∈ r.failed, ∀ d, t.get? u = some d →
    d.again faults u (t.projects.facts u) = []

/-- What two builds tell is the same if everybody stands where he stood,
and has failed if he had. -/
theorem Tallies.again {s t t' : Store} {r r' : BuildReport}
    (h : Tallies s t r) (h' : Tallies t t' r')
    (hsub : t'.pending ⊆ t.pending)
    (hsame : ∀ u d, t.get? u = some d → ∃ d', t'.get? u = some d'
      ∧ d'.stage = d.stage ∧ (d'.failures = [] ↔ d.failures = [])) :
    r'.failed.Perm r.failed ∧ r'.deferred.Perm r.deferred
      ∧ r'.processed = [] := by
  have hpending : ∀ u, u ∈ t'.pending ↔ u ∈ t.pending := by
    refine fun u => ⟨@hsub u, fun hu => ?_⟩
    obtain ⟨d, hd, hlt⟩ := Store.mem_pending.1 hu
    obtain ⟨d', hd', hstage, -⟩ := hsame u d hd
    exact (Store.pending_iff hd').2 (hstage ▸ hlt)
  have hmoved : ∀ (P : Document → Prop),
      (∀ d d' : Document, (d'.failures = [] ↔ d.failures = []) →
        (P d' ↔ P d)) → ∀ u,
      u ∈ t'.pending ∧ (∃ d, t'.get? u = some d ∧ P d)
        ↔ u ∈ t.pending ∧ ∃ d, t.get? u = some d ∧ P d := by
    intro P hP u
    rw [hpending]
    refine and_congr_right fun hu => ?_
    obtain ⟨d, hd, -⟩ := Store.mem_pending.1 hu
    obtain ⟨d', hd', -, hfailures⟩ := hsame u d hd
    rw [hd, hd']
    simp only [Option.some.injEq, exists_eq_left']
    exact hP d d' hfailures
  have hnd := List.nodup_append.1 h.nodup
  have hnd' := List.nodup_append.1 h'.nodup
  refine ⟨(List.perm_ext_iff_of_nodup (List.nodup_append.1 hnd'.1).2.1
      (List.nodup_append.1 hnd.1).2.1).2 fun u => ?_,
    (List.perm_ext_iff_of_nodup hnd'.2.1 hnd.2.1).2 fun u => ?_,
    List.eq_nil_iff_forall_not_mem.2 fun u hu => ?_⟩
  · rw [h'.failed, h.failed]
    exact hmoved (·.failures ≠ []) (fun _ _ => not_congr) u
  · rw [h'.deferred, h.deferred]
    exact hmoved (·.failures = []) (fun _ _ => id) u
  · obtain ⟨hin, hnot⟩ := (h'.processed u).1 hu
    exact hnot ((hpending u).2 hin)

/-- What two builds do to a store if what the first leaves is what the
second retries. -/
theorem Tallies.repeats {s t t' : Store} {r r' : BuildReport}
    (h : Tallies s t r) (h' : Tallies t t' r')
    (hgo : r.cancelled = false ∧ r'.cancelled = false)
    (hsub : t'.pending ⊆ t.pending)
    (hstore : t' = t.alter fun u d => if u ∈ r.failed then
      d.retried faults u (t.projects.facts u) else d) :
    Repeats faults t t' r r' := by
  have hget : ∀ u d, t.get? u = some d → t'.get? u
      = some (if u ∈ r.failed then
          d.retried faults u (t.projects.facts u) else d) := by
    intro u d hd
    rw [hstore, Store.get?_alter, hd]
    rfl
  have hfailures : ∀ u ∈ r.failed, ∀ d, t.get? u = some d →
      d.failures ≠ [] := by
    intro u hu d hd
    obtain ⟨-, x, hx, hne⟩ := (h.failed u).1 hu
    exact Option.some.inj (hx.symm.trans hd) ▸ hne
  obtain ⟨hfailed, hdeferred, hprocessed⟩ := h.again h' hsub
    fun u d hd => by
      refine ⟨_, hget u d hd, ?_, ?_⟩
      · split <;> rfl
      · split
        · next hu =>
          have hne := hfailures u hu d hd
          exact iff_of_false (Document.failures_retried hne) hne
        · exact Iff.rfl
  refine ⟨hgo, hfailed, hdeferred, hprocessed, hstore,
    fun hsame u hu d hd => ?_, fun hnone => ?_⟩
  · obtain ⟨phase, error, hlast⟩ := h.last u hu d hd
    have hd' := hget u d hd
    rw [hsame, hd, if_pos hu, Option.some_inj] at hd'
    exact (Document.retried_eq_self hlast).1 hd'.symm
  · rw [hstore]
    refine Store.alter_id fun u d hd => ?_
    split
    · next hu =>
      obtain ⟨phase, error, hlast⟩ := h.last u hu d hd
      exact (Document.retried_eq_self hlast).2 (hnone u hu d hd)
    · rfl

/-- A build, built again. -/
theorem build_again (faults : Faults) (hs : s.store.Faithful)
    (hkeyed : (s.index.horizons.map Prod.fst).Nodup)
    (hw : s.trace.withdrawn = false) :
    let host : Host := ⟨faults, none⟩
    let one := s.build host
    let two := (one.1.begin false).build host
    Repeats faults one.1.store two.1.store one.2 two.2 := by
  intro host one two
  have hintact : one.1.Intact := Intact.build host ⟨hs, hkeyed⟩
  obtain ⟨hone, hgo⟩ := exhausts_build faults hs hkeyed hw
  obtain ⟨htwo, hgo'⟩ := exhausts_build (s := one.1.begin false) faults
    hintact.faithful hintact.keyed rfl
  have htallies : Tallies s.store one.1.store one.2 :=
    tallies_build host hgo fun _ => hone.pending
  have htallies' : Tallies one.1.store two.1.store two.2 :=
    tallies_build (s := one.1.begin false) host hgo' fun _ => htwo.pending
  refine htallies.repeats htallies' ⟨hgo, hgo'⟩ (fun _ => htwo.pending) ?_
  refine ((build_final host hintact.faithful hintact.keyed rfl
    (s := one.1.begin false) rfl).trans (hone.begin false).final).trans
    (Store.alter_congr fun u d hd => ?_)
  have hfailed : u ∈ one.2.failed
      ↔ u ∈ one.1.store.pending ∧ d.failures ≠ [] := by
    rw [htallies.failed]
    refine and_congr_right fun _ => ?_
    rw [show one.1.store.get? u = some d from hd]
    simp
  simp only [hfailed]
  rfl

end Scene

/-- A build works on the scene of a workspace. -/
theorem Workspace.build_scene (w : Workspace) (host : Host) :
    w.build host = ({ w with scene := (w.scene.build host).1 },
      (w.scene.build host).2) := rfl

/-- Wherever requests have led a workspace, whichever steps fail in a
build, and whether they do before their work or when it is done: another
build under the same failures completes nobody, fails on the same
documents and puts off the same, and reports once more of those on which
it fails what a step reports before it is made to fail. -/
theorem Workspace.build_retried (host : Host) (builtins : List SourceFile)
    (rs : List Request) (faults : Faults) :
    let w := (create host builtins).run rs
    let one := (w.begin false).build ⟨faults, none⟩
    let two := (one.1.begin false).build ⟨faults, none⟩
    Scene.Repeats faults one.1.store two.1.store one.2 two.2 := by
  intro w
  have hw : w.scene.Intact := intact_run host builtins rs
  clear_value w
  simp only [build_scene]
  exact Scene.build_again (s := w.scene.begin false) faults hw.faithful
    hw.keyed rfl

/-- A document with a reference that leads nowhere. -/
def Workspace.dangling : Workspace :=
  (create .calm []).run
    [⟨.calm, false, .put ⟨Uri.ofString "/a.sysw", "ref X;"⟩⟩]

/-- Linking fails on every document when its work is done. -/
def Faults.afterLink : Faults := fun step _ =>
  if step = .link then some ⟨true, .failed "out of order"⟩ else none

/-- The reference is reported once by the first build, and twice when the
second is over. -/
theorem Workspace.not_repeated_dangling :
    let one := (dangling.begin false).build ⟨Faults.afterLink, none⟩
    let two := (one.1.begin false).build ⟨Faults.afterLink, none⟩
    let codes := fun w : Workspace =>
      (w.store.get? (Uri.ofString "/a.sysw")).map
        fun d => d.diagnostics.map (·.code)
    codes one.1 = some [some Diagnostic.Code.unresolvedReference,
        some Diagnostic.Code.failedStep]
      ∧ codes two.1 = some [some Diagnostic.Code.unresolvedReference,
        some Diagnostic.Code.unresolvedReference,
        some Diagnostic.Code.failedStep] := by
  intro one two codes
  have hcodes : (fun w : Workspace × BuildReport =>
      (codes w.1, codes ((w.1.begin false).build
        ⟨Faults.afterLink, none⟩).1))
          ((dangling.begin false).build ⟨Faults.afterLink, none⟩)
      = (some [some Diagnostic.Code.unresolvedReference,
          some Diagnostic.Code.failedStep],
        some [some Diagnostic.Code.unresolvedReference,
          some Diagnostic.Code.unresolvedReference,
          some Diagnostic.Code.failedStep]) := by
    decide +kernel
  exact ⟨congrArg Prod.fst hcodes, congrArg Prod.snd hcodes⟩

end Purview
