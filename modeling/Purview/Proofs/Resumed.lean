/-
A build that is withdrawn can be resumed. Wherever it stopped, a later
build that is not withdrawn leaves the documents as one build would have
left them that was not withdrawn either (`final_of_leaves`), provided
that steps that fail have done no work.

What has to be shown is that a pending document meets the same things
the second time. The projects that it is checked against are known from
the texts, and from who was a project before (`descriptor_firstRead`,
`descriptor_allRead`). What ordinary documents are linked against hangs on how
far the projects get and on what is offered (`forecast`), and neither
moves: a project that has dropped out drops out again at the same step,
in whatever scope it is checked then.
-/
import Purview.Proofs.Partway
import Purview.Proofs.Serving

namespace Purview

-- =========================================================== documents

namespace Document

variable {c : Conditions} {u : Uri} {d : Document} {phases : List Phase}
  {far : Option (List Phase)}

/-- A document that has been renewed has nothing left of failed steps. -/
theorem clearFailures_renew (d : Document) :
    d.renew.clearFailures = d.renew :=
  clearFailures_reread d.clearFailures_clearFailures

/-- Whoever has dropped out is not complete. -/
theorem stage_of_dropped (hup : c.faults.Upfront)
    (hd : d.clearFailures = d) (h : (d.journey c u phases).2 = false) :
    (d.journey c u phases).1.stage < .validated := by
  induction phases generalizing d with
  | nil => cases h
  | cons phase phases ih =>
    rw [journey] at h ⊢
    split at h
    · next hon =>
      rw [if_pos hon]
      exact ih (clearFailures_taken hd hon) h
    · next hoff =>
      rw [if_neg hoff]
      have hstage : (d.taken c u phase).1.clearFailures.stage = d.stage := by
        rw [(taken_dropped hup hd h).1]
      rw [show (d.taken c u phase).1.stage = d.stage from hstage]
      have hgoal : ¬ phase.goal ≤ d.stage := fun hgoal => by
        rw [taken_past hgoal] at h
        cases h
      refine Nat.lt_of_lt_of_le (Nat.lt_of_not_le hgoal) ?_
      cases phase <;> decide

theorem alike_renew (d : Document) : d.Alike d.renew :=
  ⟨d.text_renew, d.clearFailures.alike_reread.version,
    d.clearFailures.alike_reread.builtin⟩

theorem alike_underway (c : Conditions) (u : Uri) (d : Document)
    (far : Option (List Phase)) : d.Alike (d.underway c u far) := by
  cases far with
  | none => exact ⟨rfl, rfl, rfl⟩
  | some l =>
    have hrenew := d.alike_renew
    have hjourney := (forward_journey c u l d.renew).alike
    exact ⟨hjourney.text.trans hrenew.text,
      hjourney.version.trans hrenew.version,
      hjourney.builtin.trans hrenew.builtin⟩

/-- On its way a document stays in line with its text. -/
theorem faithful_underway (h : d.Faithful) (c : Conditions) (u : Uri)
    (far : Option (List Phase)) : (d.underway c u far).Faithful := by
  cases far with
  | none => exact faithful_clearFailures h
  | some l =>
    exact (faithful_reread (faithful_clearFailures h)).forward
      d.stage_renew_ne (forward_journey c u l d.renew)

/-- A document that has been read is not read again. -/
theorem renew_underway (c : Conditions) (u : Uri) (d : Document)
    (l : List Phase) : (d.underway c u (some l)).renew
      = (d.renew.journey c u l).1.clearFailures := by
  refine reread_of_ne fun hchanged => d.stage_renew_ne ?_
  have hstage := (forward_journey c u l d.renew).stage
  rw [show (d.renew.journey c u l).1.stage = .changed from hchanged] at hstage
  revert hstage
  cases d.renew.stage <;> decide

/-- A document that is taken up again where it was left goes where it
would have gone. -/
theorem journey_underway (hup : c.faults.Upfront)
    (hfar : ∀ l, far = some l → l <+: phases) :
    (d.underway c u far).renew.journey c u phases
      = d.renew.journey c u phases := by
  cases far with
  | none =>
    show d.clearFailures.clearFailures.reread.journey c u phases = _
    rw [clearFailures_clearFailures]
    rfl
  | some l =>
    rw [renew_underway]
    exact journey_resume hup d.clearFailures_renew (hfar l rfl)

/-- A document that is complete where it was left has gone all the
way. -/
theorem underway_of_validated (hup : c.faults.Upfront)
    (hlt : d.stage < .validated)
    (hfar : ∀ l, far = some l → l <+: Phase.all)
    (h : ¬ (d.underway c u far).stage < .validated) :
    d.underway c u far = (d.renew.journey c u Phase.all).1 := by
  cases far with
  | none => exact absurd hlt h
  | some l =>
    obtain ⟨rest, hrest⟩ := hfar l rfl
    cases hon : (d.renew.journey c u l).2 with
    | false => exact absurd (stage_of_dropped hup d.clearFailures_renew hon) h
    | true =>
      have hpast : ∀ phase ∈ rest,
          phase.goal ≤ (d.renew.journey c u l).1.stage := fun phase _ =>
        Nat.le_trans (by cases phase <;> decide) (Nat.not_lt.1 h)
      rw [← hrest, journey_append, if_pos hon, ← List.append_nil rest,
        journey_past hpast]
      rfl

/-- What others see of a document: how far it has come, which project it
is, and what it offers. -/
structure Looks (d d' : Document) : Prop where
  stage : d'.stage = d.stage
  descriptor : d'.descriptor? = d.descriptor?
  offered : d'.offered = d.offered

theorem Looks.refl (d : Document) : d.Looks d := ⟨rfl, rfl, rfl⟩

end Document

/-- As a project a document is what others see of it. -/
theorem Document.Looks.ofEntry? {d d' : Document} (h : d.Looks d')
    (u : Uri) : Project.ofEntry? (u, d') = Project.ofEntry? (u, d) := by
  unfold Project.ofEntry?
  rw [h.descriptor, h.stage]

-- ============================================================ projects

namespace Store

/-- The project that a document is by its text. -/
def written (s : Store) (u : Uri) : Option Descriptor :=
  (s.get? u).bind fun d => (Content.ofText d.text).1.descriptor?

variable {s t : Store}

/-- The projects that texts announce do not change with stages. -/
theorem Alike.written (h : s.Alike t) (u : Uri) :
    t.written u = s.written u := by
  unfold Store.written
  cases hd : s.get? u with
  | none =>
    rw [get?_none_of_uris h.uris hd]
  | some d =>
    obtain ⟨d', hd', halike⟩ := h.each u d hd
    rw [hd', Option.bind_some, Option.bind_some, halike.text]

theorem announces_eq_written (s : Store) (u : Uri) :
    s.announces u = (s.written u).isSome := by
  unfold announces Store.written
  cases s.get? u <;> rfl

theorem Alike.announces (h : s.Alike t) (u : Uri) :
    t.announces u = s.announces u := by
  rw [announces_eq_written, announces_eq_written, h.written]

end Store

namespace Scene

variable {s t : Scene} {faults : Faults} {far : Uri → Option (List Phase)}

/-- Whoever is complete is the project that its text announces. -/
theorem descriptor?_of_not_pending (hs : s.store.Faithful) {u : Uri}
    {d : Document} (hd : s.store.get? u = some d)
    (hu : u ∉ s.store.pending) :
    d.descriptor? = (Content.ofText d.text).1.descriptor? := by
  refine (hs u d hd).current fun hchanged => hu ?_
  rw [Store.pending_iff hd, hchanged]
  decide

/-- Once the pending projects have been read, a project is what its text
says. -/
theorem descriptor_firstRead (hs : s.store.Faithful) (u : Uri) :
    (s.firstRead.get? u).bind Document.descriptor?
      = if s.store.isProject u then s.store.written u else none := by
  rw [firstRead, Store.get?_alter]
  unfold Store.written
  cases hd : s.store.get? u with
  | none => rw [Option.bind_none, ite_self]; rfl
  | some d =>
    rw [Store.isProject_of_get? hd]
    simp only [Option.map_some, Option.bind_some]
    cases hproject : d.isProject with
    | true =>
      rw [if_pos rfl, if_pos rfl]
      split
      · exact Document.descriptor?_renew (hs u d hd)
      · next hu => exact descriptor?_of_not_pending hs hd hu
    | false =>
      have hnone : d.descriptor? = none := by
        simpa [Document.isProject] using hproject
      rw [if_neg Bool.false_ne_true, if_neg Bool.false_ne_true]
      split <;> exact hnone

theorem descriptor_allRead (hs : s.store.Faithful) (u : Uri) :
    (s.allRead.get? u).bind Document.descriptor? = s.store.written u := by
  rw [allRead, Store.get?_alter]
  unfold Store.written
  cases hd : s.store.get? u with
  | none => rfl
  | some d =>
    rw [Option.map_some, Option.bind_some, Option.bind_some]
    split
    · exact Document.descriptor?_renew (hs u d hd)
    · next hu => exact descriptor?_of_not_pending hs hd hu

/-- Where every document is what its text says, all projects are known
from the start. -/
theorem plan_firstRead (hs : s.store.Faithful)
    (h : ∀ u, s.store.isProject u = s.store.announces u) :
    s.firstRead.plan = s.allRead.plan := by
  refine Store.plan_congr ?_ fun u => ?_
  · rw [firstRead, allRead, Store.uris_alter, Store.uris_alter]
  · rw [descriptor_firstRead hs, descriptor_allRead hs, h,
      Store.announces_eq_written]
    cases s.store.written u <;> rfl

/-- In a forecast the projects are those that texts announce. -/
theorem isProject_forecast (hs : s.store.Faithful) (u : Uri) :
    (s.forecast faults).isProject u = s.store.announces u := by
  unfold Store.isProject Store.announces
  rw [forecast, Store.get?_alter]
  cases hd : s.store.get? u with
  | none => rfl
  | some d =>
    show Document.isProject _ = d.announces
    split_ifs with hu hann
    · exact (Document.forward_journey _ u _ _).isProject.trans
        (Document.isProject_renew (hs u d hd))
    · exact (Document.forward_taken _ u _ _).isProject.trans
        (Document.isProject_renew (hs u d hd))
    · unfold Document.isProject Document.announces
      rw [descriptor?_of_not_pending hs hd hu]

/-- The layout of a forecast is a matter of what is seen of projects. -/
theorem layout_of_looks {faults' : Faults} (hs : s.store.Faithful)
    (ht : t.store.Faithful) (halike : s.store.Alike t.store)
    (h : ∀ u d, s.store.announces u = true →
      (s.forecast faults).get? u = some d →
      ∃ d', (t.forecast faults').get? u = some d' ∧ d.Looks d') :
    Store.SameLayout (t.forecast faults') (s.forecast faults) := by
  have huris : (t.forecast faults').uris = (s.forecast faults).uris := by
    rw [forecast, forecast, Store.uris_alter, Store.uris_alter,
      halike.uris]
  refine Store.sameLayout_of_get? huris fun u => ?_
  cases hann : s.store.announces u with
  | true =>
    cases hd : (s.forecast faults).get? u with
    | none =>
      rw [Store.get?_none_of_uris huris hd]
    | some d =>
      obtain ⟨d', hd', hlooks⟩ := h u d hann hd
      rw [hd']
      exact hlooks.ofEntry? u
  | false =>
    -- An ordinary document is no project in either forecast.
    have hnone : ∀ {r : Store}, r.isProject u = false →
        ((r.get? u).bind fun d => Project.ofEntry? (u, d)) = none := by
      intro r hr
      cases hd : r.get? u with
      | none => rfl
      | some d =>
        rw [Store.isProject_of_get? hd] at hr
        exact Project.ofEntry?_eq_none.2 (by
          simpa [Document.isProject] using hr)
    rw [hnone ((isProject_forecast ht u).trans
        ((halike.announces u).trans hann)),
      hnone ((isProject_forecast hs u).trans hann)]

/-- The layout of a forecast is a matter of its projects. -/
theorem layout_of_projects {faults' : Faults} (hs : s.store.Faithful)
    (ht : t.store.Faithful) (halike : s.store.Alike t.store)
    (h : ∀ u, s.store.announces u = true →
      (t.forecast faults').get? u = (s.forecast faults).get? u) :
    Store.SameLayout (t.forecast faults') (s.forecast faults) :=
  layout_of_looks hs ht halike fun u d hann hd =>
    ⟨d, (h u hann).trans hd, .refl d⟩

theorem upfront_meets (hup : faults.Upfront) (s : Scene) (u : Uri) :
    (s.meets faults u).faults.Upfront := by
  unfold meets
  split <;> exact hup

-- ======================================================= what is left

namespace Leaves

theorem alike (h : s.Leaves faults far t) : s.store.Alike t.store := by
  rw [h.store]
  refine Store.alike_alter fun u d _ => ?_
  split
  · exact d.alike_underway _ u (far u)
  · exact ⟨rfl, rfl, rfl⟩

theorem faithful (h : s.Leaves faults far t) (hs : s.store.Faithful) :
    t.store.Faithful := by
  intro u x hx
  rw [h.store, placed, Store.get?_alter] at hx
  obtain ⟨d, hd, rfl⟩ := Option.map_eq_some_iff.1 hx
  split
  · exact Document.faithful_underway (hs u d hd) _ u (far u)
  · exact hs u d hd

/-- A pending document is somewhere on its way. -/
theorem get? (h : s.Leaves faults far t) {u : Uri} {d : Document}
    (hd : s.store.get? u = some d) (hu : u ∈ s.store.pending) :
    t.store.get? u = some (d.underway (s.meets faults u) u (far u)) := by
  rw [h.store]
  exact get?_placed hd hu

/-- Nobody else has been touched. -/
theorem get?_of_not_mem (h : s.Leaves faults far t) {u : Uri}
    (hu : u ∉ s.store.pending) : t.store.get? u = s.store.get? u := by
  rw [h.store]
  exact get?_placed_of_not_mem hu

/-- No build leaves more to do than it found. -/
theorem pending (h : s.Leaves faults far t) {u : Uri}
    (hu : u ∈ t.store.pending) : u ∈ s.store.pending := by
  by_contra hno
  obtain ⟨d, hd, hlt⟩ := Store.mem_pending.1 hu
  rw [h.get?_of_not_mem hno] at hd
  exact hno (Store.mem_pending.2 ⟨d, hd, hlt⟩)

theorem begin (h : s.Leaves faults far t) (withdrawn : Bool) :
    s.Leaves faults far (t.begin withdrawn) :=
  ⟨h.store, h.phases, h.halves, h.builtins, h.index⟩

/-- Whoever has not been taken up is still pending. -/
theorem mem_pending_of_none (h : s.Leaves faults far t) {u : Uri}
    (hu : u ∈ s.store.pending) (hfar : far u = none) :
    u ∈ t.store.pending := by
  obtain ⟨d, hd, hlt⟩ := Store.mem_pending.1 hu
  rw [Store.pending_iff (h.get? hd hu), hfar]
  exact hlt

/-- What is remembered for ordinary documents is what was to be. -/
theorem retained (h : s.Leaves faults far t) :
    s.retained.Grows (s.forecast faults) t.retained := by
  have hannounces := h.alike.announces
  by_cases hany : t.store.pending.any t.store.announces = true
  · obtain ⟨u, hu, hann⟩ := List.any_eq_true.1 hany
    have hany' : s.store.pending.any s.store.announces = true :=
      List.any_eq_true.2 ⟨u, h.pending hu, hannounces u ▸ hann⟩
    have hsame : t.index.clear = s.index.clear := by
      unfold Index.clear
      rw [h.builtins]
    unfold Scene.retained
    rw [if_pos hany, if_pos hany', hsame]
    exact .refl _ _
  · have hindex : t.retained = t.index := if_neg hany
    rw [hindex]
    refine h.index.resolve_right fun ⟨u, hu, hann, hfar⟩ => hany ?_
    exact List.any_eq_true.2
      ⟨u, h.mem_pending_of_none hu hfar, (hannounces u).trans hann⟩

/-- Who is a project when a build is resumed. -/
theorem isProject (h : s.Leaves faults far t) (hs : s.store.Faithful)
    {u : Uri} (hu : u ∈ s.store.pending) : t.store.isProject u
      = if far u = none then s.store.isProject u
        else s.store.announces u := by
  obtain ⟨d, hd, -⟩ := Store.mem_pending.1 hu
  cases hfar : far u with
  | none =>
    rw [if_pos rfl, Store.isProject_of_get? (h.get? hd hu),
      Store.isProject_of_get? hd, hfar]
    rfl
  | some l =>
    rw [if_neg nofun, h.store]
    exact isProject_placed hs hu hfar

theorem isProject_of_not_mem (h : s.Leaves faults far t) {u : Uri}
    (hu : u ∉ s.store.pending) :
    t.store.isProject u = s.store.isProject u := by
  unfold Store.isProject
  rw [h.get?_of_not_mem hu]

/-- Once all texts are read, both scenes have the same projects. -/
theorem plan_allRead (h : s.Leaves faults far t) (hs : s.store.Faithful) :
    t.allRead.plan = s.allRead.plan := by
  refine Store.plan_congr ?_ fun u => ?_
  · rw [allRead, allRead, Store.uris_alter, Store.uris_alter, h.alike.uris]
  · rw [descriptor_allRead (h.faithful hs), descriptor_allRead hs,
      h.alike.written]

/-- As long as nobody but the projects has been read, the projects that
are known first are the same. -/
theorem plan_firstRead_early (h : s.Leaves faults far t)
    (hs : s.store.Faithful)
    (hearly : ∀ u ∈ s.store.pending, u ∉ s.kept →
      far u = none ∨ s.store.isProject u = true ∧ far u = some []) :
    t.firstRead.plan = s.firstRead.plan := by
  refine Store.plan_congr ?_ fun u => ?_
  · rw [firstRead, firstRead, Store.uris_alter, Store.uris_alter,
      h.alike.uris]
  · rw [descriptor_firstRead (h.faithful hs), descriptor_firstRead hs,
      h.alike.written]
    by_cases hu : u ∈ s.store.pending
    · rw [h.isProject hs hu]
      split
      · rfl
      · next hfar =>
        rw [Store.announces_eq_written]
        cases hwritten : s.store.written u with
        | none => rw [ite_self, ite_self]
        | some x =>
          have hann : s.store.announces u = true := by
            rw [Store.announces_eq_written, hwritten]
            rfl
          have hproject : s.store.isProject u = true := by
            by_cases hk : u ∈ s.kept
            · exact (mem_kept.1 hk).2.1
            · exact ((hearly u hu hk).resolve_left hfar).1
          rw [hproject]
          rfl
    · rw [h.isProject_of_not_mem hu]

/-- Once everybody has been read, all projects are known. -/
theorem plan_firstRead_late (h : s.Leaves faults far t)
    (hs : s.store.Faithful)
    (hread : ∀ u ∈ s.store.pending, far u ≠ none) :
    t.firstRead.plan = s.allRead.plan := by
  refine (plan_firstRead (h.faithful hs) fun u => ?_).trans
    (h.plan_allRead hs)
  rw [h.alike.announces]
  by_cases hu : u ∈ s.store.pending
  · rw [h.isProject hs hu, if_neg (hread u hu)]
  · rw [h.isProject_of_not_mem hu]
    unfold Store.isProject Store.announces
    cases hd : s.store.get? u with
    | none => rfl
    | some d =>
      show d.isProject = d.announces
      unfold Document.isProject Document.announces
      rw [descriptor?_of_not_pending hs hd hu]

/-- What a project meets when a build is resumed is what it met before,
unless it has come to its end. -/
theorem checks (h : s.Leaves faults far t) (hs : s.store.Faithful)
    {u : Uri} (hu : u ∈ t.store.pending)
    (hann : s.store.announces u = true) :
    t.checks faults u = s.checks faults u
      ∨ u ∈ s.kept ∧ far u = some Phase.all := by
  have hall := Projects.facts_of_plan (h.plan_allRead hs) u
  rcases h.halves with hearly | ⟨hread, hkept⟩
  · have hfirst := Projects.facts_of_plan (h.plan_firstRead_early hs hearly) u
    have hproject : t.store.isProject u = s.store.isProject u := by
      rw [h.isProject hs (h.pending hu)]
      split
      · rfl
      · next hfar =>
        rw [hann]
        by_cases hk : u ∈ s.kept
        · exact (mem_kept.1 hk).2.1.symm
        · exact ((hearly u (h.pending hu) hk).resolve_left hfar).1.symm
    have hkept : u ∈ t.kept ↔ u ∈ s.kept := by
      rw [mem_kept, mem_kept, hproject, h.alike.announces]
      exact and_congr_left fun _ => iff_of_true hu (h.pending hu)
    left
    unfold Scene.checks
    by_cases hk : u ∈ s.kept
    · rw [if_pos hk, if_pos (hkept.2 hk), hfirst]
    · rw [if_neg hk, if_neg (mt hkept.1 hk), hall]
  · by_cases hk : u ∈ s.kept
    · exact .inr ⟨hk, hkept u hk⟩
    · have hfirst := Projects.facts_of_plan (h.plan_firstRead_late hs hread) u
      left
      unfold Scene.checks
      rw [if_neg hk]
      split
      · rw [hfirst]
      · rw [hall]

/-- Who is pending at the end of the way has dropped out. -/
theorem dropped (h : s.Leaves faults far t) {u : Uri} {d : Document}
    (hd : s.store.get? u = some d) (hu : u ∈ t.store.pending)
    (hfar : far u = some Phase.all) :
    (d.renew.journey (s.meets faults u) u Phase.all).2 = false := by
  by_contra hon
  rw [Store.pending_iff (h.get? hd (h.pending hu)), hfar] at hu
  have hgoal := Document.goal_le_journey (eq_true_of_ne_false hon)
    .validate (by decide)
  exact Nat.not_lt.2 hgoal hu

/-- A project goes where it would have gone. -/
theorem journey_project (h : s.Leaves faults far t)
    (hs : s.store.Faithful) (hup : faults.Upfront) {u : Uri} {d : Document}
    (hd : s.store.get? u = some d) (hu : u ∈ t.store.pending)
    (hann : s.store.announces u = true) :
    (d.underway (s.checks faults u) u (far u)).renew.journey
        (t.checks faults u) u Phase.all
      = d.renew.journey (s.checks faults u) u Phase.all := by
  rcases h.checks hs hu hann with hsame | ⟨hk, hfar⟩
  · rw [hsame]
    exact Document.journey_underway hup (h.phases u (h.pending hu))
  · have hoff := h.dropped hd hu hfar
    rw [meets, if_pos hann] at hoff
    rw [hfar, Document.renew_underway]
    have hstuck := Document.journey_stuck hup d.clearFailures_renew hoff
      (t.checks faults u).scope []
    rw [List.append_nil] at hstuck
    exact hstuck

/-- Where a document is that is not pending any more. -/
theorem get?_of_done (h : s.Leaves faults far t) (hup : faults.Upfront)
    {u : Uri} {d : Document} (hd : s.store.get? u = some d)
    (hu : u ∈ s.store.pending) (hdone : u ∉ t.store.pending) :
    t.store.get? u
      = some (d.renew.journey (s.meets faults u) u Phase.all).1 := by
  have hget := h.get? hd hu
  rw [Store.pending_iff hget] at hdone
  rw [hget, Document.underway_of_validated (upfront_meets hup s u)
    ((Store.pending_iff hd).1 hu) (h.phases u hu) hdone]

end Leaves

-- ====================================================== the forecast

/-- Documents that are taken up again come as far, and offer as much, as
they would have. -/
structure Recurs (s : Scene) (faults : Faults) (t : Scene) : Prop where
  done : ∀ {u d}, s.store.get? u = some d → u ∈ s.store.pending →
    u ∉ t.store.pending → t.store.get? u
      = some (d.renew.journey (s.meets faults u) u Phase.all).1
  project : ∀ {u d x}, s.store.get? u = some d → t.store.get? u = some x →
    u ∈ t.store.pending → s.store.announces u = true →
    (d.renew.journey (s.checks faults u) u Phase.all).1.Looks
      (x.renew.journey (t.checks faults u) u Phase.all).1
  ordinary : ∀ {u d x}, s.store.get? u = some d →
    t.store.get? u = some x → u ∈ t.store.pending →
    s.store.announces u = false →
    (x.renew.journey (s.meets faults u) u Phase.all).1.offered
      = (d.renew.journey (s.meets faults u) u Phase.all).1.offered

namespace Leaves

/-- As long as failing steps have done no work, it does not matter how
far documents have come when they are taken up again. -/
theorem recurs (h : s.Leaves faults far t) (hs : s.store.Faithful)
    (hup : faults.Upfront) : s.Recurs faults t where
  done hd := h.get?_of_done hup hd
  project {u d x} hd hx hu hann := by
    have hget := h.get? hd (h.pending hu)
    rw [hx, Option.some_inj, meets, if_pos hann] at hget
    rw [hget, h.journey_project hs hup hd hu hann]
    exact .refl _
  ordinary {u d x} hd hx hu _ := by
    have hget := h.get? hd (h.pending hu)
    rw [hx, Option.some_inj] at hget
    rw [hget, Document.journey_underway (upfront_meets hup s u)
      (h.phases u (h.pending hu))]

/-- What is seen of a project is what would have been seen. -/
theorem looks_forecast (h : s.Leaves faults far t)
    (hrecurs : s.Recurs faults t) {u : Uri} {y : Document}
    (hu : u ∈ s.store.pending → s.store.announces u = true)
    (hy : (s.forecast faults).get? u = some y) :
    ∃ y', (t.forecast faults).get? u = some y' ∧ y.Looks y' := by
  rw [forecast, Store.get?_alter] at hy ⊢
  obtain ⟨d, hd, rfl⟩ := Option.map_eq_some_iff.1 hy
  by_cases hpending : u ∈ s.store.pending
  · have hann := hu hpending
    have hmeets : s.meets faults u = s.checks faults u := if_pos hann
    simp only [if_pos hpending, if_pos hann]
    by_cases hu' : u ∈ t.store.pending
    · have hget := h.get? hd hpending
      rw [hget, Option.map_some, if_pos hu', h.alike.announces, if_pos hann]
      exact ⟨_, rfl, hrecurs.project hd hget hu' hann⟩
    · rw [hrecurs.done hd hpending hu', Option.map_some, if_neg hu', hmeets]
      exact ⟨_, rfl, .refl _⟩
  · have hno : u ∉ t.store.pending := fun hu => hpending (h.pending hu)
    rw [h.get?_of_not_mem hpending, hd, Option.map_some, if_neg hno,
      if_neg hpending]
    exact ⟨d, rfl, .refl d⟩

/-- What documents offer is what they would have offered. -/
theorem offered_forecast (h : s.Leaves faults far t)
    (hrecurs : s.Recurs faults t) (u : Uri) :
    ((t.forecast faults).get? u).bind (·.offered)
      = ((s.forecast faults).get? u).bind (·.offered) := by
  by_cases hu : u ∈ s.store.pending → s.store.announces u = true
  · cases hy : (s.forecast faults).get? u with
    | none =>
      rw [Store.get?_eq_none, forecast, Store.uris_alter] at hy
      rw [(Store.get?_eq_none _ u).2]
      rwa [forecast, Store.uris_alter, h.alike.uris]
    | some y =>
      obtain ⟨y', hy', hlooks⟩ := h.looks_forecast hrecurs hu hy
      rw [hy']
      exact hlooks.offered
  obtain ⟨hpending, hann⟩ := Classical.not_imp.1 hu
  obtain ⟨d, hd, -⟩ := Store.mem_pending.1 hpending
  have hfaults : (s.meets faults u).faults = faults := by
    rw [meets, if_neg hann]
  have hall : ∀ x : Document,
      (x.taken ⟨faults, true, .empty⟩ u .index).1.offered
        = (x.journey (s.meets faults u) u Phase.all).1.offered := fun x => by
    rw [Document.taken_congr hfaults.symm rfl]
    exact (Document.offered_journey_index (by decide)).symm
  rw [forecast, forecast, Store.get?_alter, Store.get?_alter, hd,
    h.alike.announces]
  simp only [Option.map_some, if_pos hpending, if_neg hann]
  by_cases hu' : u ∈ t.store.pending
  · have hget := h.get? hd hpending
    rw [hget, Option.map_some, if_pos hu', Option.bind_some,
      Option.bind_some, hall, hall]
    exact hrecurs.ordinary hd hget hu' (Bool.eq_false_iff.2 hann)
  · rw [hrecurs.done hd hpending hu', Option.map_some, if_neg hu',
      Option.bind_some, Option.bind_some, hall]

/-- Both builds lay the projects out the same. -/
theorem layout_forecast (h : s.Leaves faults far t)
    (hs : s.store.Faithful) (hrecurs : s.Recurs faults t) :
    Store.SameLayout (t.forecast faults) (s.forecast faults) :=
  layout_of_looks hs (h.faithful hs) h.alike fun _ _ hann =>
    h.looks_forecast hrecurs fun _ => hann

/-- What an ordinary document meets when a build is resumed is what it
would have met. -/
theorem meets_ordinary (h : s.Leaves faults far t)
    (hs : s.store.Faithful) (hrecurs : s.Recurs faults t)
    (hkeyed : (s.index.horizons.map Prod.fst).Nodup) {u : Uri}
    (hu : u ∈ s.store.pending) (hann : s.store.announces u = false) :
    t.meets faults u = s.meets faults u := by
  have hlayout := h.layout_forecast hs hrecurs
  have hloaded : u ∈ (s.forecast faults).uris := by
    obtain ⟨d, hd, -⟩ := Store.mem_pending.1 hu
    rw [forecast, Store.uris_alter, ← Store.isSome_get?, hd]
    rfl
  have hready : ({ t with store := t.forecast faults } : Scene).ownerReady u
      = ({ s with store := s.forecast faults } : Scene).ownerReady u :=
    @ownerReady_of_layout { t with store := t.forecast faults }
      { s with store := s.forecast faults } hlayout u
  have hscope : (t.retained.linkScope (t.forecast faults) u).2
      = (s.retained.linkScope (s.forecast faults) u).2 :=
    Index.linkScope_congr hlayout hloaded
      ((isProject_forecast hs u).trans hann)
      (h.retained.look (keyed_retained hkeyed) u)
      (h.offered_forecast hrecurs)
  unfold meets
  rw [h.alike.announces, hann, if_neg Bool.false_ne_true,
    if_neg Bool.false_ne_true, hready, hscope]

end Leaves

-- =============================================================== builds

/-- What a build comes to that is not withdrawn. -/
def final (s : Scene) (faults : Faults) : Store :=
  s.placed faults fun _ => some Phase.all

/-- A build that is not withdrawn leaves what it is forecast to. -/
theorem build_final (host : Host) (hs : s.store.Faithful)
    (hkeyed : (s.index.horizons.map Prod.fst).Nodup)
    (hhost : host.withdrawAt = none) (hw : s.trace.withdrawn = false) :
    (s.build host).1.store = s.final host.fault? := by
  obtain ⟨far, hleaves, hend⟩ := build_leaves host hs hkeyed
  rw [hleaves.store]
  exact placed_congr fun u hu => hend hhost hw u hu

/-- A build comes to the same from wherever another has left off. -/
theorem final_of_leaves (hs : s.store.Faithful)
    (hkeyed : (s.index.horizons.map Prod.fst).Nodup)
    (hup : faults.Upfront) (h : s.Leaves faults far t) :
    t.final faults = s.final faults := by
  refine Store.ext_get? ?_ fun u => ?_
  · rw [final, final, placed, placed, Store.uris_alter, Store.uris_alter,
      h.alike.uris]
  by_cases hu : u ∈ s.store.pending
  · obtain ⟨d, hd, -⟩ := Store.mem_pending.1 hu
    rw [final, final, get?_placed hd hu]
    by_cases hu' : u ∈ t.store.pending
    · rw [get?_placed (h.get? hd hu) hu']
      suffices hsame : (d.underway (s.meets faults u) u (far u)).renew.journey
          (t.meets faults u) u Phase.all
            = d.renew.journey (s.meets faults u) u Phase.all from
        congrArg (fun r => some r.1) hsame
      cases hann : s.store.announces u with
      | true =>
        have hann' := (h.alike.announces u).trans hann
        rw [meets, meets, if_pos hann, if_pos hann']
        exact h.journey_project hs hup hd hu' hann
      | false =>
        rw [h.meets_ordinary hs (h.recurs hs hup) hkeyed hu hann]
        exact Document.journey_underway (upfront_meets hup s u)
          (h.phases u hu)
    · rw [get?_placed_of_not_mem hu']
      exact h.get?_of_done hup hd hu hu'
  · rw [final, final, get?_placed_of_not_mem hu,
      get?_placed_of_not_mem fun hu' => hu (h.pending hu'),
      h.get?_of_not_mem hu]

end Scene

/-- A host under which some steps fail before they have done any work,
and which may withdraw its request. -/
def Host.failing (error? : Step → Uri → Option StepError)
    (cut : Option (Step × Uri)) : Host :=
  ⟨fun step u => (error? step u).map fun error => ⟨false, error⟩, cut⟩

theorem Host.upfront_failing (error? : Step → Uri → Option StepError)
    (cut : Option (Step × Uri)) :
    Faults.Upfront (Host.failing error? cut).fault? := by
  intro step u fault h
  obtain ⟨error, -, rfl⟩ := Option.map_eq_some_iff.1 h
  rfl

/-- A build may be withdrawn before it begins or during any of its calls.
A second build that is not withdrawn then leaves the store as one such
build alone would have left it, whatever requests came before and
whichever steps fail. -/
theorem Workspace.build_resumes (host : Host)
    (builtins : List SourceFile) (rs : List Request)
    (error? : Step → Uri → Option StepError) (cut : Option (Step × Uri))
    (withdrawn : Bool) :
    let w := (create host builtins).run rs
    let build := fun cut withdrawn =>
      (⟨.failing error? cut, withdrawn, .build⟩ : Request)
    (w.run [build cut withdrawn, build none false]).store
      = (w.run [build none false]).store := by
  intro w build
  have hw := intact_run host builtins rs
  have hbegin : ∀ b, (w.scene.begin b).Intact :=
    fun _ => ⟨hw.faithful, hw.keyed⟩
  have hcut := (hbegin withdrawn).build (.failing error? cut)
  obtain ⟨far, hleaves, -⟩ := Scene.build_leaves (.failing error? cut)
    (hbegin withdrawn).faithful (hbegin withdrawn).keyed
  have hleft : (w.scene.begin false).Leaves
      (Host.failing error? none).fault? far
      ((w.serve (build cut withdrawn)).scene.begin false) :=
    ⟨hleaves.store, hleaves.phases, hleaves.halves, hleaves.builtins,
      hleaves.index⟩
  calc ((w.serve (build cut withdrawn)).serve (build none false)).store
      = ((w.serve (build cut withdrawn)).scene.begin false).final
          (Host.failing error? none).fault? :=
        Scene.build_final (.failing error? none) hcut.faithful hcut.keyed
          rfl rfl
    _ = (w.scene.begin false).final (Host.failing error? none).fault? :=
        Scene.final_of_leaves (hbegin false).faithful (hbegin false).keyed
          (Host.upfront_failing error? none) hleft
    _ = (w.serve (build none false)).store :=
        (Scene.build_final (.failing error? none) (hbegin false).faithful
          (hbegin false).keyed rfl rfl).symm

end Purview
