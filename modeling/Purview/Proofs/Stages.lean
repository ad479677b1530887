/-
How far projects get. A project has no references, so the scopes in
which it is linked and checked leave no trace in it but its complaints;
at each stage it has one form, which its text says all about
(`Document.Formed`). Whatever a build without failures leaves behind, a
withdrawn one too, has its projects in these forms, and in these forms
no step of a project can fail (`work_of_formed`) and none is put off.

So a build that is not withdrawn itself completes all of them, wherever
the builds before it stopped (`validated_build`): the projects that are
still to be completed are among the documents that the next run takes
up (`Store.Finished`), and behind it none is left.
-/
import Purview.Proofs.Arrival

namespace Purview

-- ================================================================ forms

/-- A host that imposes no failures, and withdraws at a call. -/
def Host.until (cut : Option (Step × Uri)) : Host := ⟨fun _ _ => none, cut⟩

theorem Stage.linked_or_validated {stage : Stage}
    (h : Stage.surveyed < stage) : stage = .linked ∨ stage = .validated := by
  revert h
  cases stage <;> decide

namespace Document

/-- The form of a document at a stage, read and linked in a scope. -/
def atStage (d : Document) (u : Uri) (scope : LinkScope) : Stage → Document
  | .changed => d
  | .parsed => d.fresh
  | .indexed => d.indexed
  | .surveyed => d.surveyed
  | .linked => d.linked u scope
  | .validated => d.built u scope

/-- A project that has been read is in the form of its stage. -/
def Formed (u : Uri) (d : Document) : Prop :=
  d.isProject = true → ∃ scope, d = d.atStage u scope d.stage

variable {d d' : Document} {u : Uri} {scope : LinkScope} {stage : Stage}

theorem alike_atStage (d : Document) (u : Uri) (scope : LinkScope)
    (stage : Stage) : d.Alike (d.atStage u scope stage) := by
  cases stage <;> exact ⟨rfl, rfl, rfl⟩

theorem stage_atStage (h : stage ≠ .changed) :
    (d.atStage u scope stage).stage = stage := by
  cases stage <;> first | rfl | exact absurd rfl h

/-- A form only hangs on what no work changes. -/
theorem atStage_congr (h : d.Alike d') (hstage : stage ≠ .changed) :
    d'.atStage u scope stage = d.atStage u scope stage := by
  cases stage with
  | changed => exact absurd rfl hstage
  | parsed => exact fresh_congr h
  | indexed => exact indexed_congr h
  | surveyed => exact surveyed_congr h
  | linked => exact linked_congr h u scope
  | validated => exact built_congr h u scope

theorem formed_atStage (d : Document) (u : Uri) (scope : LinkScope)
    {stage : Stage} (hstage : stage ≠ .changed) :
    (d.atStage u scope stage).Formed u := by
  intro _
  refine ⟨scope, ?_⟩
  rw [stage_atStage hstage,
    atStage_congr (d.alike_atStage u scope stage) hstage]

theorem formed_of_changed (h : d.stage = .changed) : d.Formed u := by
  intro _
  refine ⟨.empty, ?_⟩
  rw [h]
  rfl

/-- Whether a text describes a project, a document in its form shows. -/
theorem isProject_atStage (d : Document) (u : Uri) (scope : LinkScope)
    {stage : Stage} (hstage : stage ≠ .changed) :
    (d.atStage u scope stage).isProject = d.announces := by
  cases stage with
  | changed => exact absurd rfl hstage
  | parsed => rfl
  | indexed => rfl
  | surveyed => rfl
  | linked =>
    unfold isProject announces
    exact congrArg Option.isSome (d.reading.descriptor?_link u scope)
  | validated => exact d.isProject_built u scope

/-- A project has no references, so that linking it does nothing. -/
theorem linked_of_announces (h : d.announces = true) (u : Uri)
    (scope scope' : LinkScope) : d.linked u scope = d.linked u scope' := by
  have hlink : d.reading.link u scope = d.reading.link u scope' := by
    unfold announces at h
    change d.reading.descriptor?.isSome = true at h
    cases hreading : d.reading with
    | descriptor x => rfl
    | ordinary b =>
      rw [hreading] at h
      cases h
  unfold linked
  rw [hlink]

/-- Whoever is past where linking starts is sent back to the form that he
had there. -/
theorem sentBack_atStage (d : Document) (u : Uri) (scope : LinkScope)
    {stage : Stage} (h : .surveyed < stage) :
    (d.atStage u scope stage).sentBack = d.surveyed := by
  rcases Stage.linked_or_validated h with rfl | rfl
  · exact d.sentBack_linked u scope
  · exact d.sentBack_built u scope

/-- A project that is sent back is in its form again. -/
theorem Formed.sentBack (h : d.Formed u) : d.sentBack.Formed u := by
  by_cases hlinked : Stage.surveyed < d.stage
  · intro hproject
    unfold isProject at hproject
    rw [descriptor?_sentBack] at hproject
    obtain ⟨scope, hform⟩ := h hproject
    have hback : d.sentBack = d.surveyed :=
      (congrArg Document.sentBack hform).trans
        (d.sentBack_atStage u scope hlinked)
    refine ⟨.empty, ?_⟩
    rw [hback]
    exact (surveyed_congr d.alike_surveyed).symm
  · rw [Document.sentBack, if_neg hlinked]
    exact h

/-- In its form a document holds nothing that a failed step left. -/
theorem origin_atStage (d : Document) (u : Uri) (scope : LinkScope)
    {stage : Stage} (hstage : stage ≠ .changed) :
    ∀ x ∈ (d.atStage u scope stage).diagnostics, x.origin ≠ .build := by
  have hbuilt : ∀ x ∈ (d.built u scope).diagnostics, x.origin ≠ .build := by
    intro x hx
    rcases List.mem_append.1 hx with hx | hx
    · rcases List.mem_append.1 hx with hx | hx
      · obtain ⟨issue, span, rfl⟩ := Content.issues_ofText d.text x hx
        exact Origin.noConfusion
      · cases hlink : d.reading.link u scope with
        | descriptor y =>
          rw [hlink] at hx
          cases hx
        | ordinary b =>
          rw [hlink] at hx
          obtain ⟨r, -, rfl⟩ := List.mem_map.1 hx
          exact Origin.noConfusion
    · rw [origin_complaints _ _ x hx]
      exact Origin.noConfusion
  have hissues : (Content.ofText d.text).2 ⊆ (d.built u scope).diagnostics :=
    fun x hx => List.mem_append_left _ (List.mem_append_left _ hx)
  intro x hx
  refine hbuilt x ?_
  cases stage with
  | changed => exact absurd rfl hstage
  | parsed => exact hissues hx
  | indexed => exact hissues hx
  | surveyed => exact hissues hx
  | linked => exact List.mem_append_left _ hx
  | validated => exact hx

theorem clearFailures_of_formed (h : d.Formed u)
    (hproject : d.isProject = true) (hstage : d.stage ≠ .changed) :
    d.clearFailures = d := by
  obtain ⟨scope, hform⟩ := h hproject
  have horigin := d.origin_atStage u scope hstage
  rw [← hform] at horigin
  unfold clearFailures
  rw [List.filter_eq_self.2 fun x hx => decide_eq_true (horigin x hx)]

/-- Whether a text describes a project, a document in its form shows. -/
theorem Formed.announces (h : d.Formed u) (hproject : d.isProject = true)
    (hstage : d.stage ≠ .changed) : d.announces = true := by
  obtain ⟨scope, hform⟩ := h hproject
  rw [← d.isProject_atStage u scope hstage, ← hform]
  exact hproject

/-- The work of a phase takes a project from one form to the next. -/
theorem work_of_formed {phase : Phase} (h : d.Formed u)
    (hproject : d.isProject = true) (hbase : d.stage = phase.base)
    (scope : LinkScope) :
    (phase.work u scope d).map (·.advance phase.goal)
      = .ok (d.atStage u scope phase.goal) := by
  obtain ⟨scope', hform⟩ := h hproject
  rw [hbase] at hform
  cases phase with
  | index =>
    have hform : d = d.fresh := hform
    calc (Phase.index.work u scope d).map (·.advance .indexed)
        = (Phase.index.work u scope d.fresh).map
          (·.advance .indexed) := by rw [← hform]
      _ = .ok d.indexed := d.work_index u scope
  | scope =>
    have hform : d = d.indexed := hform
    calc (Phase.scope.work u scope d).map (·.advance .surveyed)
        = (Phase.scope.work u scope d.indexed).map
          (·.advance .surveyed) := by rw [← hform]
      _ = .ok d.surveyed := d.work_scope u scope
  | link =>
    have hform : d = d.surveyed := hform
    calc (Phase.link.work u scope d).map (·.advance .linked)
        = (Phase.link.work u scope d.surveyed).map
          (·.advance .linked) := by rw [← hform]
      _ = .ok (d.linked u scope) := d.work_link u scope
  | validate =>
    have hform : d = d.linked u scope' := hform
    have hann : d.announces = true := by
      refine h.announces hproject ?_
      rw [hbase]
      decide
    rw [d.linked_of_announces hann u scope' scope] at hform
    calc (Phase.validate.work u scope d).map (·.advance .validated)
        = (Phase.validate.work u scope (d.linked u scope)).map
          (·.advance .validated) := by rw [← hform]
      _ = .ok (d.built u scope) := d.work_validate u scope

/-- So does a phase that nobody makes fail. -/
theorem ended_of_formed {phase : Phase} (cut : Option (Step × Uri))
    (h : d.Formed u) (hproject : d.isProject = true)
    (hbase : d.stage = phase.base) (scope : LinkScope) :
    d.ended phase ((Host.until cut).attempt phase.step u
      (phase.work u scope d)) = d.atStage u scope phase.goal := by
  have hdone := work_of_formed h hproject hbase scope
  cases hwork : phase.work u scope d with
  | error e =>
    rw [hwork] at hdone
    cases hdone
  | ok x =>
    rw [hwork] at hdone
    exact Except.ok.inj hdone

end Document

-- ============================================================== touches

namespace Store

/-- Every project is in the form of its stage. -/
def Formed (s : Store) : Prop :=
  ∀ u d, s.get? u = some d → d.Formed u

variable {s t : Store} {u : Uri} {d d' : Document}

/-- A document in its form is put in the place of another. -/
theorem Formed.modify (h : s.Formed) (hd : s.get? u = some d)
    (hd' : d'.Formed u) : (s.modify u fun _ => d').Formed := by
  intro v x hx
  rw [get?_modify_const hd] at hx
  split at hx
  · next hv =>
    cases hx
    rw [hv]
    exact hd'
  · exact h v x hx

theorem Formed.renewed (h : s.Formed) (ht : Renewed s t) : t.Formed := by
  obtain ⟨u, d, d', hd, hrenewed, rfl⟩ := ht
  refine h.modify hd ?_
  cases hrenewed with
  | cleared =>
    intro hproject
    by_cases hstage : d.stage = .changed
    · exact Document.formed_of_changed hstage hproject
    · rw [Document.clearFailures_of_formed (h u d hd) hproject hstage]
      exact h u d hd hproject
  | read hstage =>
    rw [Document.reread_of_changed hstage]
    exact show (d.atStage u .empty .parsed).Formed u from
      d.formed_atStage u .empty (by decide)

/-- Without failures, every touch leaves projects in their forms. -/
theorem Formed.touched {cut : Option (Step × Uri)} (h : s.Formed)
    (ht : Touched (.until cut) s t) : t.Formed := by
  obtain ⟨u, d, d', hd, htouch, rfl⟩ := ht
  cases htouch with
  | renewed hrenewed => exact h.renewed ⟨u, d, d', hd, hrenewed, rfl⟩
  | ended phase i hbase =>
    refine h.modify hd fun hproject => ?_
    have hforward := d.forward_attempt (.until cut) phase u
      (phase.handed i s u)
    have hform := Document.ended_of_formed cut (h u d hd)
      (hforward.isProject.symm.trans hproject) hbase (phase.handed i s u)
    rw [hform] at hproject ⊢
    exact d.formed_atStage u _ (by cases phase <;> decide) hproject

theorem Formed.touches {cut : Option (Step × Uri)} (h : s.Formed)
    (ht : Touches (.until cut) s t) : t.Formed := by
  induction ht with
  | refl => exact h
  | tail _ hstep ih => exact ih.touched hstep

/-- Sending documents back leaves projects in their forms. -/
theorem Formed.sentBack (h : s.Formed) (us : List Uri) :
    (s.alter fun v d => if v ∈ us then d.sentBack else d).Formed := by
  intro v x hx
  rw [get?_alter] at hx
  obtain ⟨d, hd, rfl⟩ := Option.map_eq_some_iff.1 hx
  split
  · exact (h v d hd).sentBack
  · exact h v d hd

theorem formed_of_fresh (h : ∀ u d, s.get? u = some d → d = d.fresh) :
    s.Formed := by
  intro u d hd
  rw [h u d hd]
  exact show (d.atStage u .empty .parsed).Formed u from
    d.formed_atStage u .empty (by decide)

/-- A project is handed that scope, as far as the form that a phase gives
it hangs on it. -/
theorem atStage_handed (hd : s.get? u = some d')
    (hproject : d'.isProject = true) (d : Document) (phase : Phase)
    (i : Index) :
    d.atStage u (phase.handed i s u) phase.goal
      = d.atStage u ⟨[], some (s.projects.facts u)⟩ phase.goal := by
  have hscope := Index.linkScope_of_project i hd hproject
  cases phase with
  | index => rfl
  | scope => rfl
  | link => exact congrArg (d.linked u) hscope
  | validate => exact congrArg (d.built u) hscope

end Store

namespace Scene

variable (host : Host) {s : Scene}

theorem lasting_formed : Lasting fun u => (·.Formed u) where
  read u text := show ((Document.read text).atStage u .empty .parsed).Formed
    u from Document.formed_atStage _ u .empty (by decide)
  sentBack := Document.Formed.sentBack
  outdated := fun {_ d} _ => Document.formed_of_changed d.stage_outdated
  setText _ _ hstage := Document.formed_of_changed hstage

theorem formed_invalidate (h : s.store.Formed) (u : Uri) :
    (s.invalidate host u).1.store.Formed :=
  lasting_invalidate host lasting_formed h u

/-- A change leaves projects in their forms. -/
theorem formed_apply (h : s.store.Formed) (c : Change) :
    (s.apply host c).1.store.Formed :=
  lasting_apply host lasting_formed h c

theorem formed_prepared (h : s.store.Formed) (changes : List Change) :
    (s.prepared host changes).store.Formed := by
  rw [store_prepared]
  refine Store.Formed.sentBack ?_ _
  exact applyAll_induction (P := fun s => s.store.Formed) host h
    fun _ c _ h => formed_apply host h c

/-- A build without failures does, wherever it stops. -/
theorem formed_build (cut : Option (Step × Uri)) (hs : s.store.Faithful)
    (h : s.store.Formed) : (s.build (.until cut)).1.store.Formed :=
  h.touches (touches_build (.until cut) hs)

end Scene

-- ============================================================= progress

/-- All projects but some are complete. -/
def Store.Finished (us : List Uri) (s : Store) : Prop :=
  ∀ u d, s.get? u = some d → d.isProject = true →
    u ∈ us ∨ d.stage = .validated

theorem Stage.eq_validated {stage : Stage}
    (h : Stage.validated ≤ stage) : stage = .validated := by
  revert h
  cases stage <;> decide

namespace Pass

open Scene (Advance)

/-- Phases that follow one another take projects in their forms as far
as they go. -/
theorem runPhases_formed {phases : List Phase} {stage : Stage}
    (hphases : Phase.Follow stage phases) {us : List Uri} (hnd : us.Nodup)
    {p : Pass} (hp : p.Undisturbed) {x : Uri → Document}
    (hx : ∀ u ∈ us, p.scene.store.get? u = some (x u))
    (hproject : ∀ u ∈ us, (x u).isProject = true)
    (hformed : ∀ u ∈ us, (x u).Formed u)
    (hstage : ∀ u ∈ us, stage ≤ (x u).stage)
    (hread : ∀ u ∈ us, (x u).stage ≠ .changed) :
    ∃ s', runPhases .calm phases us p = (⟨s', completes us p.report⟩, true)
      ∧ s'.trace.withdrawn = false ∧ Advance us p.scene s'
      ∧ ∀ phase ∈ phases, Standing us phase.goal s'.store := by
  induction phases generalizing stage p x with
  | nil =>
    exact ⟨p.scene, rfl, hp.withdrawn, .refl us p.scene,
      fun phase hphase => nomatch hphase⟩
  | cons phase phases ih =>
    obtain ⟨hbase, hphases⟩ := hphases
    let y : Uri → Document := fun u =>
      if phase.goal ≤ (x u).stage then x u
      else (x u).atStage u ⟨[], some (p.scene.store.projects.facts u)⟩
        phase.goal
    have hchanged : phase.goal ≠ .changed := by cases phase <;> decide
    obtain ⟨s', hrun, hy, hw, hadv⟩ := runPhase_forms phase hnd hp hx
      (y := y) (by
        intro s hadv _ u hu
        by_cases hgoal : phase.goal ≤ (x u).stage
        · exact .inl ⟨hgoal, if_pos hgoal⟩
        · have hstands : (x u).stage = phase.base :=
            Phase.eq_base (hbase ▸ hstage u hu) hgoal
          have hisProject : s.store.isProject u = true := by
            rw [hadv.isProject, Store.isProject_of_get? (hx u hu)]
            exact hproject u hu
          refine .inr ⟨hgoal, fun _ => ?_, ?_⟩
          · exact Scene.ownerReady_of_isProject hisProject
          · obtain ⟨d, hd, hdp⟩ := (Option.any_eq_true _ _).1 hisProject
            rw [Document.work_of_formed (hformed u hu) (hproject u hu)
              hstands, show y u = _ from if_neg hgoal,
              ← Projects.facts_of_plan hadv.plan,
              ← Store.atStage_handed hd hdp (x u) phase s.index]
            unfold Scene.scopeFor Phase.handed
            split <;> rfl)
    have hp' : (⟨s', p.report⟩ : Pass).Undisturbed := ⟨hp.cancelled, hw⟩
    -- What a phase leaves is in its form again.
    have hforms : ∀ u ∈ us, (y u).isProject = true ∧ (y u).Formed u
        ∧ phase.goal ≤ (y u).stage ∧ (y u).stage ≠ .changed := by
      intro u hu
      by_cases hgoal : phase.goal ≤ (x u).stage
      · rw [show y u = _ from if_pos hgoal]
        exact ⟨hproject u hu, hformed u hu, hgoal, hread u hu⟩
      · rw [show y u = _ from if_neg hgoal]
        refine ⟨?_, Document.formed_atStage _ _ _ hchanged, ?_, ?_⟩
        · rw [Document.isProject_atStage _ _ _ hchanged]
          exact (hformed u hu).announces (hproject u hu) (hread u hu)
        · rw [Document.stage_atStage hchanged]
          exact Nat.le_refl _
        · rw [Document.stage_atStage hchanged]
          exact hchanged
    obtain ⟨s'', hrun', hw', hadv', hstanding⟩ := ih hphases hp' hy
      (fun u hu => (hforms u hu).1) (fun u hu => (hforms u hu).2.1)
      (fun u hu => (hforms u hu).2.2.1) (fun u hu => (hforms u hu).2.2.2)
    refine ⟨s'', (runPhases_cons hp hrun).trans hrun', hw',
      hadv.trans hadv', fun later hlater => ?_⟩
    rcases List.mem_cons.1 hlater with rfl | hlater
    · refine Standing.advance (fun u hu d hd => ?_) hadv'
      rw [hy u hu] at hd
      cases hd
      exact (hforms u hu).2.2.1
    · exact hstanding later hlater

/-- Work forward that gets the projects that were left to the end leaves
none. -/
theorem finished_advance {us vs : List Uri} {s s' : Scene}
    (h : s.store.Finished us) (hadv : Advance vs s s')
    (hstanding : Standing us .validated s'.store) :
    s'.store.Finished [] := by
  intro u d hd hproject
  obtain ⟨d₀, hd₀⟩ : ∃ d₀, s.store.get? u = some d₀ := by
    rw [← Option.isSome_iff_exists, Store.isSome_get?, ← hadv.uris,
      ← Store.isSome_get?, hd]
    rfl
  obtain ⟨d', hd', hforward, -⟩ := hadv.forward u d₀ hd₀
  cases hd.symm.trans hd'
  refine .inr (Stage.eq_validated ?_)
  rcases h u d₀ hd₀ (hforward.isProject.symm.trans hproject) with
    hu | hstage
  · exact hstanding u hu d hd
  · exact hstage ▸ hforward.stage

/-- A run leaves no project behind that was complete before it. -/
theorem runAll_finished (us : List Uri) {p : Pass}
    (h : p.scene.store.Finished []) :
    (runAll .calm us p).1.scene.store.Finished [] :=
  finished_advance h (runAll_advance .calm us p) fun _ hu => nomatch hu

/-- A run of projects in their forms completes them. -/
theorem runAll_formed {us : List Uri} (hnd : us.Nodup) {p : Pass}
    (hp : p.Undisturbed) (hs : p.scene.store.Formed)
    (hus : ∀ u ∈ us, ∃ d, p.scene.store.get? u = some d
      ∧ d.isProject = true ∧ d.stage ≠ .changed)
    (hfinished : p.scene.store.Finished us) :
    (runAll .calm us p).2 = true ∧ (runAll .calm us p).1.Undisturbed
      ∧ (runAll .calm us p).1.scene.store.Finished [] := by
  have : Nonempty Document := ⟨.unread ""⟩
  choose! x hx hproject hread using hus
  obtain ⟨s', hrun, hw, hadv, hstanding⟩ := runPhases_formed
    Phase.follow_all hnd hp hx hproject (fun u hu => hs u _ (hx u hu))
    (fun u hu => Stage.parsed_le.2 (hread u hu)) hread
  have hdone := finished_advance hfinished hadv
    (hstanding .validate (by decide))
  unfold runAll
  split
  · next hnil =>
    rw [List.isEmpty_iff] at hnil
    subst hnil
    exact ⟨rfl, hp, hfinished⟩
  · rw [hrun]
    refine ⟨rfl, ⟨?_, ?_⟩, ?_⟩
    · dsimp only
      split <;> exact hp.cancelled
    · dsimp only
      split <;> exact hw
    · dsimp only
      split <;> exact hdone

/-- Documents are read, and who turns out to be a project is to be
completed. -/
theorem finished_reread {us vs : List Uri} {p : Pass} (host : Host)
    (h : p.scene.store.Finished us) (hsub : us ⊆ vs) :
    let q := p.reread host vs
    q.scene.store.Finished (vs.filter q.scene.store.isProject) := by
  intro q u d hd hproject
  by_cases hu : u ∈ vs
  · refine .inl (List.mem_filter.2 ⟨hu, ?_⟩)
    rw [Store.isProject_of_get? hd]
    exact hproject
  · have hsame := hd
    rw [show q.scene.store = _ from store_reread host vs p,
      Store.get?_alter] at hsame
    obtain ⟨x, hx, hxd⟩ := Option.map_eq_some_iff.1 hsame
    have hxd : x = d := (if_neg hu).symm.trans hxd
    exact .inr ((h u d (hxd ▸ hx) hproject).resolve_left
      fun hus => hu (hsub hus))

/-- The projects among documents that have just been read. -/
theorem projects_reread {vs : List Uri} {p : Pass} (host : Host) :
    let q := p.reread host vs
    ∀ u ∈ vs.filter q.scene.store.isProject,
      ∃ d, q.scene.store.get? u = some d ∧ d.isProject = true
        ∧ d.stage ≠ .changed := by
  intro q u hu
  obtain ⟨hu, hproject⟩ := List.mem_filter.1 hu
  obtain ⟨d, hd, hdp⟩ := (Option.any_eq_true _ _).1 hproject
  exact ⟨d, hd, hdp, stage_ne_of_reread host hd hu⟩

/-- Reading disturbs nothing unless its host does. -/
theorem Undisturbed.reread {p : Pass} (hp : p.Undisturbed) {host : Host}
    (hhost : host.withdrawAt = none) (us : List Uri) :
    (p.reread host us).Undisturbed :=
  ⟨hp.cancelled,
    (Scene.withdrawn_reread hhost us p.scene).trans hp.withdrawn⟩

/-- The second half of a pass completes whoever turns out to be a
project. -/
theorem runOthers_finished {others : List Uri} (hnd : others.Nodup)
    {p : Pass} (hp : p.Undisturbed) (hs : p.scene.store.Formed)
    (h : p.scene.store.Finished []) :
    (runOthers .calm others p).scene.store.Finished [] := by
  have hread := hs.touches (reread_touches .calm others p)
  obtain ⟨hmore, -, hdone⟩ := runAll_formed (hnd.filter _)
    (hp.reread rfl others) hread (projects_reread .calm)
    (finished_reread .calm h (List.nil_subset _))
  unfold runOthers
  dsimp only
  rw [split_eq]
  dsimp only
  rw [hmore]
  exact runAll_finished _ hdone

/-- A pass completes all projects, given those that are not. -/
theorem runRead_finished {projects others : List Uri}
    (hnd : (others ++ projects).Nodup) {p : Pass} (hp : p.Undisturbed)
    (hs : p.scene.store.Formed) (h : p.scene.store.Finished projects) :
    let q := p.reread .calm projects
    (runRead .calm projects others q).scene.store.Finished [] := by
  intro q
  have hq : q.Undisturbed := hp.reread rfl projects
  have hformed : q.scene.store.Formed :=
    hs.touches (reread_touches .calm projects p)
  obtain ⟨hmore, hundisturbed, hdone⟩ := runAll_formed
    ((List.nodup_append.1 hnd).2.1.filter _) hq hformed
    (projects_reread .calm)
    (finished_reread .calm h (List.Subset.refl _))
  have hread : ∀ u d, q.scene.store.get? u = some d →
      u ∈ projects.filter q.scene.store.isProject → d.stage ≠ .changed :=
    fun u d hd hu => stage_ne_of_reread .calm hd (List.mem_filter.1 hu).1
  have htouches := runAll_touches .calm hread
  unfold runRead
  dsimp only
  rw [hmore, hundisturbed.poll]
  simp only [Bool.not_true, Bool.false_eq_true, if_false,
    hundisturbed.cancelled]
  refine runOthers_finished (hnd.sublist ?_) hundisturbed
    (hformed.touches htouches) hdone
  exact (List.Sublist.refl others).append List.filter_sublist

end Pass

namespace Scene

/-- A build that nobody disturbs completes all projects, wherever the
builds before it stopped. -/
theorem validated_build {s : Scene} (hs : s.store.Faithful)
    (hformed : s.store.Formed) (hw : s.trace.withdrawn = false) :
    ∀ u d, (s.build .calm).1.store.get? u = some d →
      d.isProject = true → d.stage = .validated := by
  have hpending : ∀ u d, s.store.get? u = some d → u ∈ s.store.pending
      ∨ d.stage = .validated := by
    intro u d hd
    by_cases hlt : d.stage < .validated
    · exact .inl (Store.mem_pending.2 ⟨d, hd, hlt⟩)
    · exact .inr (Stage.eq_validated (Nat.not_lt.1 hlt))
  have hcleared : s.cleared.store.Finished
      (s.store.pending.filter s.store.isProject) := by
    intro u d hd hproject
    have hstage := s.stageOf_cleared u
    unfold Store.stageOf at hstage
    rw [hd] at hstage
    obtain ⟨x, hx, hxd⟩ := Option.map_eq_some_iff.1 hstage.symm
    refine (hpending u x hx).imp (fun hu => ?_) hxd.symm.trans
    refine List.mem_filter.2 ⟨hu, ?_⟩
    rw [← s.isProject_cleared, Store.isProject_of_get? hd]
    exact hproject
  have hpass : (⟨s.cleared, .empty⟩ : Pass).Undisturbed := ⟨rfl, hw⟩
  have hrenewed : s.cleared.store.Formed :=
    hformed.touches (touches_of_renews .calm (cleared_renews s))
  have hnd : (s.store.pending.filter (fun u => !s.store.isProject u)
      ++ s.store.pending.filter s.store.isProject).Nodup :=
    (List.perm_append_comm.trans (List.filter_append_perm
      s.store.isProject s.store.pending)).nodup_iff.2 s.store.pending_nodup
  suffices hfinished : (s.build .calm).1.store.Finished [] by
    intro u d hd hproject
    exact (hfinished u d hd hproject).resolve_left List.not_mem_nil
  rw [build_eq .calm hs]
  split
  · next hempty =>
    rw [List.isEmpty_iff] at hempty
    intro u d hd _
    exact hempty ▸ hpending u d hd
  · have hdone := Pass.runRead_finished hnd hpass hrenewed hcleared
    unfold pass
    rw [Pass.runSplit_eq, hpass.poll]
    exact hdone

end Scene

end Purview
