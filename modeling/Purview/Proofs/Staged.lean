/-
Documents have what belongs to their stage. Names are offered from
`indexed` on and resolve from `surveyed` on, references have targets
from `linked` on, and the diagnostics are those of the parts of the
pipeline that have been passed, followed by at most one that a failed
step left (`Document.Staged`).

Between requests a document is either stale, which is what a change
leaves of it, or in shape (`Settled`). Changes keep documents settled:
whoever goes back loses what belongs to the stages above. So does a
build, wherever it is withdrawn, as long as failing steps have done no
work: it leaves every pending document somewhere on its journey. It
follows that all documents are staged wherever requests lead
(`staged_run`).
-/
import Purview.Proofs.Shape

namespace Purview

-- ============================================================== settled

namespace Document

variable {c : Conditions} {u : Uri} {d : Document} {scope : LinkScope}
  {l : List Phase} {far : Option (List Phase)}

/-- A document that has not been read since it changed: all that was
found before is gone, but for its content, which leads nowhere. -/
structure Stale (d : Document) : Prop where
  stage : d.stage = .changed
  unlinked : d.content.map Content.unlink = d.content
  diagnostics : d.diagnostics = []
  offered : d.offered = none
  own : d.own = none

/-- A document as requests leave it: stale, or in shape. -/
inductive Settled (u : Uri) (d : Document) : Prop where
  | stale (h : d.Stale)
  | shaped (scope : LinkScope) (h : d.Shaped u scope)

/-- Whoever goes back to the very start is stale. -/
theorem Settled.outdated (h : d.Settled u) : d.outdated.Settled u := by
  have hunlinked : d.unlink.content.map Content.unlink
      = d.unlink.content := by
    unfold unlink
    simp only [Option.map_map, Function.comp_def, Content.unlink_unlink]
  refine .stale ?_
  unfold Document.outdated demote
  by_cases hstage : d.stage = .changed
  · cases h with
    | stale h =>
      rw [if_neg (by rw [show d.unlink.stage = _ from hstage]; decide)]
      exact ⟨hstage, hunlinked, h.diagnostics, h.offered, h.own⟩
    | shaped scope h => exact absurd hstage h.stage_ne
  · have hlt : Stage.changed < d.unlink.stage :=
      Nat.lt_of_lt_of_le (by decide) (Stage.parsed_le.2 hstage)
    rw [if_pos hlt]
    refine ⟨rfl, hunlinked, ?_, rfl, rfl⟩
    exact List.filter_eq_nil_iff.2 fun x _ => by
      rw [survives_changed]
      exact Bool.false_ne_true

/-- What failed steps left does not outlive any way back. -/
theorem sentBack_clearFailures (h : Stage.surveyed < d.stage) :
    d.clearFailures.sentBack = d.sentBack := by
  have hclear : Stage.surveyed < d.clearFailures.stage := h
  have hlt : Stage.surveyed < d.unlink.stage := h
  have hlt' : Stage.surveyed < d.clearFailures.unlink.stage := h
  have hfilter : d.clearFailures.unlink.diagnostics.filter
      (survives .surveyed) = d.unlink.diagnostics.filter
        (survives .surveyed) := by
    show (d.diagnostics.filter _).filter _ = d.diagnostics.filter _
    rw [List.filter_filter]
    refine List.filter_congr fun x _ => ?_
    unfold survives
    cases x.origin <;> rfl
  unfold Document.sentBack demote
  rw [if_pos hclear, if_pos h, if_pos hlt, if_pos hlt', hfilter]
  rfl

/-- Whoever goes back to where linking starts is in the form that he had
there. -/
theorem Settled.sentBack (h : d.Settled u) : d.sentBack.Settled u := by
  by_cases hlt : Stage.surveyed < d.stage
  · cases h with
    | stale h =>
      rw [h.stage] at hlt
      exact absurd hlt (by decide)
    | shaped scope h =>
      have hform := h.clearFailures.2
      have hsurveyed : d.clearFailures.sentBack
          = d.clearFailures.atStage u scope .surveyed :=
        (congrArg Document.sentBack hform).trans
          (sentBack_atStage _ u scope hlt)
      refine .shaped scope (.clean ?_)
      rw [← sentBack_clearFailures hlt, hsurveyed]
      exact inForm_atStage _ u scope (by decide)
  · rwa [Document.sentBack, if_neg hlt]

/-- Whoever is to be read anew can be given any text. -/
theorem Settled.setText (h : d.Settled u) (text : String)
    (hstage : d.stage = .changed) : (d.setText text).Settled u := by
  cases h with
  | stale h =>
    exact .stale ⟨h.stage, h.unlinked, h.diagnostics, h.offered, h.own⟩
  | shaped scope h => exact absurd hstage h.stage_ne

/-- A document that has just been read is settled. -/
theorem settled_fresh (h : d = d.fresh) (u : Uri) : d.Settled u :=
  .shaped .empty (.clean (inForm_fresh h u .empty))

-- =============================================================== builds

/-- What failed steps left can be dropped. -/
theorem Settled.clearFailures (h : d.Settled u) :
    d.clearFailures.Settled u := by
  cases h with
  | stale h =>
    refine .stale ⟨h.stage, h.unlinked, ?_, h.offered, h.own⟩
    show d.diagnostics.filter _ = []
    rw [h.diagnostics]
    rfl
  | shaped scope h => exact .shaped scope (.clean h.clearFailures)

/-- A pending document that has been read is in its form. -/
theorem Settled.renew (h : d.Settled u) :
    ∃ scope, d.renew.InForm u scope := by
  cases h with
  | stale h =>
    refine ⟨.empty, inForm_fresh ?_ u .empty⟩
    have hread : d.renew = d.fresh := by
      have hchanged : d.clearFailures.stage = .changed := h.stage
      unfold Document.renew reread advance
      rw [if_pos hchanged, if_pos]
      · rfl
      · rw [show (d.clearFailures.applyRead _).stage = _ from hchanged]
        decide
    rw [hread]
    rfl
  | shaped scope h => exact ⟨scope, h.renew⟩

/-- On its journey a document keeps in shape, whatever scope it meets. -/
theorem exists_shaped_journey (hup : c.faults.Upfront)
    (hd : d.InForm u scope) (hlt : d.stage < .validated)
    (hl : l <+: Phase.all) :
    ∃ scope, (d.journey c u l).1.Shaped u scope := by
  obtain ⟨rest, hrest⟩ := hl
  have hfollow : Phase.Follow .parsed l :=
    Phase.Follow.of_append (hrest ▸ Phase.follow_all)
  have hstage : Stage.parsed ≤ d.stage := Stage.parsed_le.2 hd.1
  by_cases hscope : d.InForm u c.scope
  · exact ⟨c.scope, shaped_journey hup hscope hfollow hstage⟩
  · -- It is ordinary and has been linked in another scope.
    have hle : Stage.linked ≤ d.stage := by
      by_contra hle
      exact hscope (hd.of_lt (Nat.lt_of_not_le hle) _)
    have hord : d.isProject = false := by
      by_contra hproject
      have hann : d.announces = true := by
        rw [← d.isProject_atStage u scope hd.1, ← hd.2]
        exact eq_true_of_ne_false hproject
      exact hscope (hd.of_announces hann hlt _)
    rw [journey_relinked hord hle scope]
    exact ⟨scope, shaped_journey (c := { c with scope := scope }) hup hd
      hfollow hstage⟩

/-- A document on its way is settled wherever it stops. -/
theorem Settled.underway (hup : c.faults.Upfront) (h : d.Settled u)
    (hlt : d.stage < .validated)
    (hfar : ∀ l, far = some l → l <+: Phase.all) :
    (d.underway c u far).Settled u := by
  cases far with
  | none => exact h.clearFailures
  | some l =>
    obtain ⟨scope, hform⟩ := h.renew
    obtain ⟨scope', hshaped⟩ := exists_shaped_journey hup hform
      (stage_renew_lt hlt) (hfar l rfl)
    exact .shaped scope' hshaped

end Document

-- ============================================================= requests

namespace Scene

variable (host : Host) {s : Scene}

/-- All documents are settled. -/
structure Settled (s : Scene) : Prop where
  intact : s.Intact
  each : ∀ u d, s.store.get? u = some d → d.Settled u

/-- So settling lasts through changes. -/
theorem lasting_settled : Lasting fun u => (·.Settled u) where
  read u _ := Document.settled_fresh rfl u
  sentBack := Document.Settled.sentBack
  outdated := Document.Settled.outdated
  setText text h := h.setText text

namespace Settled

theorem invalidate (h : s.Settled) (u : Uri) :
    (s.invalidate host u).1.Settled :=
  ⟨h.intact.invalidate host u,
    lasting_invalidate host lasting_settled h.each u⟩

theorem apply (h : s.Settled) (c : Change) :
    (s.apply host c).1.Settled :=
  ⟨h.intact.apply host c, lasting_apply host lasting_settled h.each c⟩

/-- Whatever a batch does before the build, documents are settled. -/
theorem prepared (h : s.Settled) (changes : List Change) :
    (s.prepared host changes).Settled := by
  have hchanged : (s.changed host changes).Settled :=
    applyAll_induction host ⟨h.intact.relinkCandidates _, h.each⟩
      fun _ c _ h => h.apply host c
  refine ⟨h.intact.prepared host changes, fun u x hx => ?_⟩
  rw [store_prepared, Store.get?_alter] at hx
  obtain ⟨d, hd, rfl⟩ := Option.map_eq_some_iff.1 hx
  split
  · exact (hchanged.each u d hd).sentBack
  · exact hchanged.each u d hd

/-- A build leaves pending documents on their way, and the others as they
were. -/
theorem build (h : s.Settled) (hup : Faults.Upfront host.fault?) :
    (s.build host).1.Settled := by
  refine ⟨h.intact.build host, fun u x hx => ?_⟩
  obtain ⟨far, hleaves, -⟩ :=
    build_leaves host h.intact.faithful h.intact.keyed
  by_cases hu : u ∈ s.store.pending
  · obtain ⟨d, hd, hlt⟩ := Store.mem_pending.1 hu
    rw [hleaves.get? hd hu] at hx
    cases hx
    exact (h.each u d hd).underway (upfront_meets hup s u) hlt
      (hleaves.phases u hu)
  · rw [hleaves.get?_of_not_mem hu] at hx
    exact h.each u x hx

end Settled

end Scene

namespace Workspace

/-- Requests, each with the steps that fail before their work, the call
during which it is withdrawn, and whether it has been withdrawn before. -/
def failing (requests : List ((Step → Uri → Option StepError)
    × Option (Step × Uri) × Bool × Action)) : List Request :=
  requests.map fun (error?, cut, withdrawn, action) =>
    ⟨.failing error? cut, withdrawn, action⟩

/-- Every request leaves documents settled, if no step fails after its
work. -/
theorem settled_serve {w : Workspace} (h : w.scene.Settled) (r : Request)
    (hup : Faults.Upfront r.host.fault?) : (w.serve r).scene.Settled :=
  have hbegin : (w.scene.begin r.withdrawn).Settled :=
    ⟨⟨h.intact.faithful, h.intact.keyed⟩, h.each⟩
  serve_induction r hbegin (fun _ _ h hi => ⟨h.intact.look hi, h.each⟩)
    (fun _ files =>
      ⟨⟨faithful_loaded (w := w.begin r.withdrawn) h.intact.faithful
        r.host files, List.nodup_nil⟩,
      documents_loaded (w := w.begin r.withdrawn) r.host files
        Scene.lasting_settled.read h.each⟩)
    (fun _ u h => h.invalidate r.host u) (fun _ c h => h.apply r.host c)
    (fun _ changes h => h.prepared r.host changes)
    fun _ _ h => h.build r.host hup

theorem settled_run (host : Host) (builtins : List SourceFile)
    (requests : List ((Step → Uri → Option StepError)
      × Option (Step × Uri) × Bool × Action)) :
    ((create host builtins).run (failing requests)).scene.Settled := by
  have hcreate : (create host builtins).scene.Settled :=
    ⟨⟨(sound_create host builtins).faithful, List.nodup_nil⟩,
      documents_create host builtins fun u _ =>
        Document.settled_fresh rfl u⟩
  generalize create host builtins = w at hcreate
  induction requests generalizing w with
  | nil => exact hcreate
  | cons r requests ih =>
    exact ih _ (settled_serve hcreate _ (Host.upfront_failing r.1 r.2.1))

end Workspace

-- =============================================================== staged

namespace Document

variable {u : Uri} {d : Document} {scope : LinkScope}

/-- The diagnostics that belong to a document of some content at its
stage: the parser's, then one for each reference that leads nowhere, and
then the validator's. -/
def due (d : Document) (content : Content) (scope : LinkScope) :
    List Diagnostic :=
  (Content.ofText d.text).2
    ++ (if Stage.linked ≤ d.stage then content.dangling else [])
    ++ (if Stage.validated ≤ d.stage then complaints content scope else [])

/-- In its form a document has the diagnostics that are due. -/
theorem InForm.due (h : d.InForm u scope) : ∃ content,
    d.content = some content ∧ d.diagnostics = d.due content scope := by
  have hdiagnostics := (congrArg Document.diagnostics h.2).trans
    (d.diagnostics_atStage u scope h.1)
  refine ⟨_, h.content, ?_⟩
  rw [hdiagnostics, Document.due]
  by_cases hle : Stage.linked ≤ d.stage
  · simp only [if_pos hle]
  · have hlt : ¬ Stage.validated ≤ d.stage := fun hle' =>
      hle (Nat.le_trans (by decide) hle')
    simp only [if_neg hle, if_neg hlt]

/-- A document that has what belongs to its stage, and nothing else. -/
structure Staged (d : Document) : Prop where
  /-- What has changed keeps nothing but its content. -/
  stale : d.stage = .changed →
    d.offered = none ∧ d.own = none ∧ d.diagnostics = []
  /-- What has been read has the content of its text, up to targets. -/
  content : d.stage ≠ .changed →
    d.content.map Content.unlink = some (Content.ofText d.text).1
  offered : d.offered
    = if Stage.indexed ≤ d.stage then some d.names else none
  own : d.own = if Stage.surveyed ≤ d.stage then some d.names else none
  /-- References have no targets before they have been linked. -/
  targets : d.stage < .linked → ∀ body, d.body? = some body →
    ∀ r ∈ body.references, r.target = none
  /-- A failed step leaves one diagnostic, and none once the document is
  complete. -/
  diagnostics : d.stage ≠ .changed → ∃ content scope,
    d.content = some content ∧ ∃ failure : Option Diagnostic,
      (∀ x ∈ failure, x.origin = .build)
        ∧ (d.stage = .validated → failure = none)
        ∧ d.diagnostics = d.due content scope ++ failure.toList

theorem Stale.staged (h : d.Stale) : d.Staged where
  stale _ := ⟨h.offered, h.own, h.diagnostics⟩
  content hstage := absurd h.stage hstage
  offered := by
    rw [h.stage]
    exact h.offered
  own := by
    rw [h.stage]
    exact h.own
  targets _ _ hbody := targets_of_unlinked h.unlinked hbody
  diagnostics hstage := absurd h.stage hstage

/-- Whoever is in shape has what his stage asks for. -/
theorem Shaped.staged (h : d.Shaped u scope) : d.Staged := by
  have hform := h.clearFailures
  have hcontent : d.content = some (if Stage.linked ≤ d.stage then
      d.reading.link u scope else d.reading) := hform.content
  have hunlink := Content.unlink_ofText d.text
  refine ⟨fun hstage => absurd hstage h.stage_ne, fun _ => ?_,
    hform.offered, hform.own, fun hlt body hbody => ?_, fun _ => ?_⟩
  · rw [hcontent, Option.map_some]
    split
    · exact congrArg some ((Content.unlink_link u scope _).trans hunlink)
    · exact congrArg some hunlink
  · have hnot : ¬ Stage.linked ≤ d.stage := Nat.not_le.2 hlt
    refine targets_of_unlinked ?_ hbody
    rw [hcontent, if_neg hnot]
    exact congrArg some hunlink
  · cases h with
    | clean h =>
      obtain ⟨content, hc, hdue⟩ := h.due
      refine ⟨content, scope, hc, none, nofun, fun _ => rfl, ?_⟩
      rw [hdue]
      exact (List.append_nil _).symm
    | failed x hx phase hlt error h =>
      obtain ⟨content, hc, hdue⟩ := hx.due
      rw [h]
      refine ⟨content, scope, hc, some (Pass.stepFailure phase error),
        fun y hy => ?_, fun hdone => ?_, ?_⟩
      · cases hy
        rfl
      · rw [show x.stage = .validated from hdone] at hlt
        exact absurd hlt (by cases phase <;> decide)
      · show x.diagnostics ++ _ = _
        rw [hdue]
        rfl

/-- In any case a settled document does. -/
theorem Settled.staged (h : d.Settled u) : d.Staged := by
  cases h with
  | stale h => exact h.staged
  | shaped scope h => exact h.staged

end Document

/-- Every document has what belongs to its stage. -/
def Store.Staged (s : Store) : Prop :=
  ∀ u d, s.get? u = some d → d.Staged

/-- Wherever requests lead a workspace whose failing steps have done no
work, every document has what belongs to its stage, whichever steps fail
and wherever the requests are withdrawn. -/
theorem Workspace.staged_run (host : Host) (builtins : List SourceFile)
    (requests : List ((Step → Uri → Option StepError)
      × Option (Step × Uri) × Bool × Action)) :
    ((create host builtins).run (failing requests)).store.Staged :=
  fun u d hd => ((settled_run host builtins requests).each u d hd).staged

end Purview
