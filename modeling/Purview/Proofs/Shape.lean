/-
The shapes of documents while steps may fail. A document that has been
read is in the form of its stage, and a step that fails before its work
adds a diagnostic at the end and nothing else (`Shaped`). A journey
keeps documents in shape (`shaped_journey`): each phase either takes a
form to the next one or leaves what a failed step leaves, and that ends
the journey. Without failures it ends with the complete form
(`journey_calm`).

The scope that a form is linked in is the one that the document meets,
except for an ordinary document that has been linked already: it keeps
its links, and what it is checked for does not hang on the scope
(`journey_relinked`).
-/
import Purview.Proofs.Resumed

namespace Purview.Document

variable {c : Conditions} {u : Uri} {d : Document} {phase : Phase}
  {phases : List Phase} {scope scope' : LinkScope} {stage : Stage}

-- =============================================================== forms

/-- A document is in the form of its stage. -/
def InForm (u : Uri) (scope : LinkScope) (d : Document) : Prop :=
  d.stage ≠ .changed ∧ d = d.atStage u scope d.stage

/-- The form of a stage is in its form. -/
theorem inForm_atStage (d : Document) (u : Uri) (scope : LinkScope)
    (hstage : stage ≠ .changed) : (d.atStage u scope stage).InForm u scope := by
  constructor
  · rwa [stage_atStage hstage]
  · rw [stage_atStage hstage,
      atStage_congr (d.alike_atStage u scope stage) hstage]

/-- The work of a phase takes a document from one form to the next. -/
theorem work_atStage (d : Document) (u : Uri) (scope : LinkScope)
    (phase : Phase) :
    (phase.work u scope (d.atStage u scope phase.base)).map
      (·.advance phase.goal) = .ok (d.atStage u scope phase.goal) := by
  cases phase with
  | index => exact d.work_index u scope
  | scope => exact d.work_scope u scope
  | link => exact d.work_link u scope
  | validate => exact d.work_validate u scope

/-- Below linking, the scope is nothing to a form. -/
theorem atStage_of_lt (h : stage < .linked) (d : Document) (u : Uri)
    (scope scope' : LinkScope) :
    d.atStage u scope stage = d.atStage u scope' stage := by
  cases stage with
  | linked => exact absurd h (by decide)
  | validated => exact absurd h (by decide)
  | _ => rfl

/-- A document that has not been linked is in its form in any scope. -/
theorem InForm.of_lt (h : d.InForm u scope) (hlt : d.stage < .linked)
    (scope' : LinkScope) : d.InForm u scope' :=
  ⟨h.1, h.2.trans (atStage_of_lt hlt d u scope scope')⟩

/-- A project only meets its scope when it is checked. -/
theorem InForm.of_announces (h : d.InForm u scope)
    (hann : d.announces = true) (hlt : d.stage < .validated)
    (scope' : LinkScope) : d.InForm u scope' := by
  refine ⟨h.1, h.2.trans ?_⟩
  cases hstage : d.stage with
  | linked => exact linked_of_announces hann u scope scope'
  | validated => rw [hstage] at hlt; exact absurd hlt (by decide)
  | _ => rfl

/-- A form has nothing left of a failed step. -/
theorem InForm.clearFailures (h : d.InForm u scope) :
    d.clearFailures = d := by
  rw [clearFailures_eq_self, h.2]
  exact d.origin_atStage u scope h.1

/-- In the forms, references are looked up from linking on. -/
theorem content_atStage (d : Document) (u : Uri) (scope : LinkScope)
    (hstage : stage ≠ .changed) : (d.atStage u scope stage).content
      = some (if Stage.linked ≤ stage then d.reading.link u scope
        else d.reading) := by
  cases stage with
  | changed => exact absurd rfl hstage
  | _ => rfl

/-- Names are offered from indexing on. -/
theorem offered_atStage (d : Document) (u : Uri) (scope : LinkScope)
    (hstage : stage ≠ .changed) : (d.atStage u scope stage).offered
      = if Stage.indexed ≤ stage then some d.names else none := by
  cases stage with
  | changed => exact absurd rfl hstage
  | _ => rfl

/-- Names resolve within from scoping on. -/
theorem own_atStage (d : Document) (u : Uri) (scope : LinkScope)
    (hstage : stage ≠ .changed) : (d.atStage u scope stage).own
      = if Stage.surveyed ≤ stage then some d.names else none := by
  cases stage with
  | changed => exact absurd rfl hstage
  | _ => rfl

/-- Each stage adds its diagnostics to those of the reading. -/
theorem diagnostics_atStage (d : Document) (u : Uri) (scope : LinkScope)
    (hstage : stage ≠ .changed) : (d.atStage u scope stage).diagnostics
      = (Content.ofText d.text).2
        ++ (if Stage.linked ≤ stage then
          (d.reading.link u scope).dangling else [])
        ++ (if Stage.validated ≤ stage then
          complaints (d.reading.link u scope) scope else []) := by
  cases stage with
  | changed => exact absurd rfl hstage
  | validated => rfl
  | linked => exact (List.append_nil _).symm
  | _ =>
    show (Content.ofText d.text).2 = (Content.ofText d.text).2 ++ [] ++ []
    rw [List.append_nil, List.append_nil]

/-- Documents in their forms have what belongs to their stage. -/
theorem InForm.content (h : d.InForm u scope) : d.content
    = some (if Stage.linked ≤ d.stage then d.reading.link u scope
      else d.reading) :=
  (congrArg Document.content h.2).trans (d.content_atStage u scope h.1)

theorem InForm.offered (h : d.InForm u scope) : d.offered
    = if Stage.indexed ≤ d.stage then some d.names else none :=
  (congrArg Document.offered h.2).trans (d.offered_atStage u scope h.1)

theorem InForm.own (h : d.InForm u scope) : d.own
    = if Stage.surveyed ≤ d.stage then some d.names else none :=
  (congrArg Document.own h.2).trans (d.own_atStage u scope h.1)

/-- A document that has been read is in its form whatever the scope. -/
theorem inForm_fresh (h : d = d.fresh) (u : Uri) (scope : LinkScope) :
    d.InForm u scope := by
  rw [h]
  exact d.inForm_atStage u scope (show Stage.parsed ≠ .changed by decide)

theorem InForm.renew_eq (h : d.InForm u scope) : d.renew = d := by
  unfold renew
  rw [h.clearFailures, reread_of_ne h.1]

-- ============================================================== shapes

/-- A document in the form of its stage, or with what a step left that
failed on it there. -/
inductive Shaped (u : Uri) (scope : LinkScope) (d : Document) : Prop where
  | clean (h : d.InForm u scope)
  | failed (x : Document) (hx : x.InForm u scope) (phase : Phase)
    (hlt : x.stage < phase.goal) (error : StepError)
    (h : d = x.report (Pass.stepFailure phase error))

/-- Whoever is in shape has been read. -/
theorem Shaped.stage_ne (h : d.Shaped u scope) : d.stage ≠ .changed := by
  cases h with
  | clean h => exact h.1
  | failed x hx phase hlt error h =>
    rw [h]
    exact hx.1

/-- Without what failed steps left, a document is in its form. -/
theorem Shaped.clearFailures (h : d.Shaped u scope) :
    d.clearFailures.InForm u scope := by
  cases h with
  | clean h => rwa [h.clearFailures]
  | failed x hx phase hlt error h =>
    rwa [h, clearFailures_report hx.clearFailures]

/-- A complete document has nothing left of a failed step. -/
theorem Shaped.of_validated (h : d.Shaped u scope)
    (hstage : ¬ d.stage < .validated) : d.InForm u scope := by
  cases h with
  | clean h => exact h
  | failed x hx phase hlt error h =>
    refine absurd (Nat.lt_of_lt_of_le ?_ (?_ : phase.goal ≤ .validated))
      hstage
    · rw [h]
      exact hlt
    · cases phase <;> decide

theorem Shaped.stage_renew (h : d.Shaped u scope) :
    d.renew.stage = d.stage := by
  rw [Document.renew, reread_of_ne (d := d.clearFailures) h.stage_ne]
  rfl

/-- A build takes a document up in the form of its stage. -/
theorem Shaped.renew (h : d.Shaped u scope) : d.renew.InForm u scope := by
  rw [Document.renew, reread_of_ne (d := d.clearFailures) h.stage_ne]
  exact h.clearFailures

-- ============================================================ journeys

/-- A phase that a document does not drop out of takes it to the next
form; otherwise the document stays in its form, or has failed there. -/
theorem taken_inForm (hup : c.faults.Upfront) (hd : d.InForm u c.scope)
    (hbase : phase.base ≤ d.stage) :
    ((d.taken c u phase).2 = true → (d.taken c u phase).1.InForm u c.scope)
      ∧ (d.taken c u phase).1.Shaped u c.scope := by
  by_cases hgoal : phase.goal ≤ d.stage
  · rw [taken_past hgoal]
    exact ⟨fun _ => hd, .clean hd⟩
  have hstage := Phase.eq_base hbase hgoal
  have hchanged : phase.goal ≠ .changed := by cases phase <;> decide
  have hwork := d.work_atStage u c.scope phase
  rw [← hstage, ← hd.2] at hwork
  unfold taken
  rw [if_neg hgoal]
  split_ifs
  · exact ⟨fun _ => hd, .clean hd⟩
  · dsimp only
    cases hfault : c.faults phase.step u with
    | none =>
      cases hwork' : phase.work u c.scope d with
      | error error =>
        rw [hwork'] at hwork
        cases hwork
      | ok y =>
        rw [hwork'] at hwork
        have hy : y.advance phase.goal = d.atStage u c.scope phase.goal :=
          Except.ok.inj hwork
        have hattempt : Host.attempt ⟨c.faults, none⟩ phase.step u (.ok y)
            = .succeeded y := by
          unfold Host.attempt
          simp only [hfault]
        have hform := d.inForm_atStage u c.scope hchanged
        rw [hattempt]
        show (_ → (y.advance phase.goal).InForm u c.scope)
          ∧ (y.advance phase.goal).Shaped u c.scope
        rw [hy]
        exact ⟨fun _ => hform, .clean hform⟩
    | some fault =>
      obtain ⟨after, error⟩ := fault
      obtain rfl : after = false := hup phase.step u _ hfault
      have hattempt : Host.attempt ⟨c.faults, none⟩ phase.step u
          (phase.work u c.scope d) = .failedBefore error := by
        unfold Host.attempt
        simp only [hfault]
      rw [hattempt]
      exact ⟨nofun, .failed d hd phase (Nat.lt_of_not_le hgoal) error rfl⟩

/-- A journey keeps documents in shape. -/
theorem shaped_journey (hup : c.faults.Upfront) (hd : d.InForm u c.scope)
    (hphases : Phase.Follow stage phases) (hstage : stage ≤ d.stage) :
    (d.journey c u phases).1.Shaped u c.scope := by
  induction phases generalizing d stage with
  | nil => exact .clean hd
  | cons phase phases ih =>
    obtain ⟨rfl, hphases⟩ := hphases
    obtain ⟨hform, hshaped⟩ := taken_inForm hup hd hstage
    rw [journey]
    split
    · next hon => exact ih (hform hon) hphases (goal_le_taken hon)
    · exact hshaped

/-- Without failures and with its owner ready, a document gets to the
end. -/
theorem journey_calm (hcalm : c.faults = fun _ _ => none)
    (hready : c.ready = true) (hd : d.InForm u c.scope)
    (hphases : Phase.Follow stage phases) (hstage : stage ≤ d.stage) :
    (d.journey c u phases).2 = true
      ∧ (d.journey c u phases).1.InForm u c.scope := by
  have hup : c.faults.Upfront := by
    rw [hcalm]
    exact nofun
  induction phases generalizing d stage with
  | nil => exact ⟨rfl, hd⟩
  | cons phase phases ih =>
    obtain ⟨rfl, hphases⟩ := hphases
    have hon : (d.taken c u phase).2 = true := by
      by_cases hgoal : phase.goal ≤ d.stage
      · rw [taken_past hgoal]
      have hwork := d.work_atStage u c.scope phase
      rw [← Phase.eq_base hstage hgoal, ← hd.2] at hwork
      unfold taken
      rw [if_neg hgoal, if_neg (by simp [hready]), hcalm]
      cases hwork' : phase.work u c.scope d with
      | error error =>
        rw [hwork'] at hwork
        cases hwork
      | ok y => rfl
    obtain ⟨hform, -⟩ := taken_inForm hup hd hstage
    rw [journey, if_pos hon]
    exact ih (hform hon) hphases (goal_le_taken hon)

/-- What an ordinary document is checked for does not hang on the
scope. -/
theorem taken_relinked (hord : d.isProject = false)
    (hstage : Stage.linked ≤ d.stage) (scope : LinkScope) :
    d.taken c u phase = d.taken { c with scope := scope } u phase := by
  by_cases hphase : phase.goal ≤ .linked
  · rw [taken_past (Nat.le_trans hphase hstage),
      taken_past (Nat.le_trans hphase hstage)]
  cases phase with
  | validate =>
    have hwork : Phase.validate.work u c.scope d
        = Phase.validate.work u scope d := by
      show d.validate u c.scope = d.validate u scope
      unfold validate
      cases hcontent : d.content with
      | none => rfl
      | some content =>
        cases content with
        | ordinary b => rfl
        | descriptor x =>
          unfold isProject descriptor? at hord
          rw [hcontent] at hord
          cases hord
    unfold taken
    rw [hwork]
  | _ => exact absurd (by decide) hphase

/-- An ordinary document only meets its scope when it is linked. -/
theorem journey_relinked (hord : d.isProject = false)
    (hstage : Stage.linked ≤ d.stage) (scope : LinkScope) :
    d.journey c u phases = d.journey { c with scope := scope } u phases := by
  induction phases generalizing d with
  | nil => rfl
  | cons phase phases ih =>
    have hforward := forward_taken c u phase d
    have hrest := ih (hforward.isProject.trans hord)
      (Nat.le_trans hstage hforward.stage)
    rw [journey, journey, ← taken_relinked hord hstage scope, hrest]

end Purview.Document
