/-
How far a build comes, under any host. What each pending document meets
on its way through the phases is settled before the build begins: a
project is checked against the projects that are known by then, and what
an ordinary document is linked against is what the projects offer once
they are as far as they get, and the others once they are indexed
(`Scene.meets`). So a build leaves every pending document somewhere on
a journey of its own, or not yet read (`placed`); and it leaves them in
one of two ways, according to whether the projects were through before
it was withdrawn (`Leaves`).
-/
import Purview.Proofs.Journey
import Purview.Proofs.Stages

namespace Purview

-- ================================================================ runs

namespace Phase

/-- Whoever needs a scope comes behind indexing. -/
theorem index_of_needsScope {done rest : List Phase} {phase : Phase}
    (h : Phase.all = done ++ phase :: rest)
    (hscope : phase.needsScope = true) :
    ∃ l, done = .index :: l ∧ .index ∉ l ∧ phase ≠ .index := by
  have hphase : phase ≠ .index := by
    rintro rfl
    cases hscope
  cases done with
  | nil => exact absurd (List.cons.inj h).1.symm hphase
  | cons first l =>
    obtain ⟨rfl, hrest⟩ := List.cons.inj h
    refine ⟨l, rfl, fun hl => ?_, hphase⟩
    have hmem : Phase.index ∈ [scope, link, validate] :=
      hrest ▸ List.mem_append_left _ hl
    revert hmem
    decide

end Phase

namespace Store

/-- A store in which some documents have gone on journeys. -/
def travelled (s : Store) (us : List Uri) (c : Uri → Conditions)
    (far : Uri → List Phase) : Store :=
  s.alter fun u d => if u ∈ us then (d.journey (c u) u (far u)).1 else d

/-- A store in which some documents have been taken through indexing,
which needs neither an owner nor a scope. -/
def listed (s : Store) (us : List Uri) (faults : Faults) : Store :=
  s.alter fun u d =>
    if u ∈ us then (d.taken ⟨faults, true, .empty⟩ u .index).1 else d

/-- Listing names moves no project. -/
theorem sameLayout_listed {s : Store} {us : List Uri}
    (hus : ∀ u ∈ us, s.isProject u = false) (faults : Faults) :
    SameLayout (s.listed us faults) s := by
  refine sameLayout_alter fun u d hd => ?_
  split
  · next hu =>
    have hord : d.descriptor? = none := by
      have hnot := hus u hu
      rw [isProject_of_get? hd] at hnot
      simpa [Document.isProject] using hnot
    unfold Project.ofEntry?
    rw [(d.forward_taken _ u .index).descriptor, hord]
    rfl
  · rfl

end Store

namespace Pass

variable (host : Host)

open Scene (Advance)

/-- Whoever is between two phases that come behind indexing offers what
it has offered since. -/
theorem Between.offered {x : Uri → Document} {c : Uri → Conditions}
    {l : List Phase} {phase : Phase} {s : Store} {v : Uri}
    (h : Between x c (.index :: l) phase s v) (hl : .index ∉ l)
    (hphase : phase ≠ .index) :
    ∃ y, s.get? v = some y
      ∧ y.offered = ((x v).taken (c v) v .index).1.offered := by
  obtain ⟨l', hl', hv⟩ := h
  refine ⟨_, hv, ?_⟩
  rcases hl' with rfl | rfl
  · exact Document.offered_journey_index hl
  · refine Document.offered_journey_index fun hmem => ?_
    rcases List.mem_append.1 hmem with hmem | hmem
    · exact hl hmem
    · exact hphase (List.mem_singleton.1 hmem).symm

/-- All phases take the documents of a run on their journeys. From the
indexing of the run on, what its documents meet has to be fixed. -/
theorem runPhases_all {vs : List Uri} (hnd : vs.Nodup) {p : Pass}
    {c : Uri → Conditions} (hfaults : ∀ u, (c u).faults = host.fault?)
    (hloaded : ∀ v ∈ vs, v ∈ p.scene.store.uris)
    (hmeets : ∀ s, Advance vs p.scene s →
      (∀ v ∈ vs, ∀ d, p.scene.store.get? v = some d →
        ∃ y, s.store.get? v = some y
          ∧ y.offered = (d.taken (c v) v .index).1.offered) →
      ∀ u ∈ vs, s.ownerReady u = (c u).ready
        ∧ (s.index.linkScope s.store u).2 = (c u).scope) :
    let q := runPhases host Phase.all vs p
    ∃ far : Uri → List Phase, (∀ u ∈ vs, far u <+: Phase.all)
      ∧ (q.2 = true → ∀ u ∈ vs, far u = Phase.all)
      ∧ q.1.scene.store = p.scene.store.travelled vs c far := by
  have : Nonempty Document := ⟨.unread ""⟩
  have hget : ∀ v ∈ vs, ∃ d, p.scene.store.get? v = some d := fun v hv =>
    Option.isSome_iff_exists.1 ((Store.isSome_get? _ v).2 (hloaded v hv))
  choose! x hx using hget
  have hstep : ∀ done phase rest, Phase.all = done ++ phase :: rest →
      ∀ s, Advance vs p.scene s →
        (∀ v ∈ vs, Between x c done phase s.store v) →
        ∀ u ∈ vs, ∀ d : Document,
          d.taken (s.conditions host phase u) u phase
            = d.taken (c u) u phase := by
    intro done phase rest hall s hadv hdocs u hu d
    cases hneeds : phase.needsScope with
    | false => exact Document.taken_congr (hfaults u).symm hneeds
    | true =>
      obtain ⟨l, rfl, hl, hphase⟩ := Phase.index_of_needsScope hall hneeds
      obtain ⟨hready, hscope⟩ := hmeets s hadv (fun v hv e he => by
        obtain rfl : e = x v := Option.some.inj (he.symm.trans (hx v hv))
        exact (hdocs v hv).offered hl hphase) u hu
      have hsame : s.conditions host phase u = c u := by
        unfold Scene.conditions Phase.handed
        rw [hneeds, if_pos rfl, hready, hscope, ← hfaults u]
      rw [hsame]
  have hjourney := runPhases_journey host hnd hstep
    (show Phase.all = [] ++ Phase.all from rfl) (.refl vs p.scene) hx
  have hactive : underway vs x c [] = vs :=
    List.filter_eq_self.2 fun _ _ => rfl
  rw [hactive] at hjourney
  have hadv := runPhases_advance host Phase.all vs (List.Subset.refl vs) p
  choose! far hprefix hfull hfar using hjourney
  refine ⟨far, hprefix, fun hq u hu => hfull u hu hq,
    Store.ext_get? (hadv.uris.trans (Store.uris_alter _ _).symm)
      fun u => ?_⟩
  rw [Store.travelled, Store.get?_alter]
  by_cases hu : u ∈ vs
  · rw [hfar u hu, hx u hu, Option.map_some, if_pos hu]
  · rw [hadv.get?_of_not_mem hu]
    simp only [if_neg hu]
    exact Option.map_id_apply.symm

/-- A run of projects. They are checked against the projects that are
known when it begins. -/
theorem runAll_projects_journey {us : List Uri} (hnd : us.Nodup)
    {p : Pass} (hus : ∀ u ∈ us, p.scene.store.isProject u = true) :
    let q := runAll host us p
    (∃ far : Uri → List Phase, (∀ u ∈ us, far u <+: Phase.all)
      ∧ (q.2 = true → ∀ u ∈ us, far u = Phase.all)
      ∧ q.1.scene.store = p.scene.store.travelled us (fun u =>
        ⟨host.fault?, true, ⟨[], some (p.scene.store.projects.facts u)⟩⟩)
        far)
    ∧ q.1.scene.index
      = if us = [] then p.scene.index else p.scene.index.clear := by
  have hphases := runPhases_all host hnd (p := p)
    (c := fun u => ⟨host.fault?, true,
      ⟨[], some (p.scene.store.projects.facts u)⟩⟩) (fun _ => rfl)
    (fun v hv => by
      obtain ⟨d, hd, -⟩ := (Option.any_eq_true _ _).1 (hus v hv)
      rw [← Store.isSome_get?, hd]
      rfl)
    (fun s hadv _ u hu => by
      have hproject : s.store.isProject u = true :=
        (hadv.isProject u).trans (hus u hu)
      obtain ⟨d, hd, hdp⟩ := (Option.any_eq_true _ _).1 hproject
      constructor
      · exact Scene.ownerReady_of_isProject hproject
      · rw [Index.linkScope_of_project s.index hd hdp,
          Projects.facts_of_plan hadv.plan])
  have hadv := runPhases_advance host Phase.all us (List.Subset.refl us) p
  intro q
  by_cases hnil : us = []
  · subst hnil
    refine ⟨⟨fun _ => Phase.all, fun _ _ => List.prefix_rfl,
      fun _ _ _ => rfl, ?_⟩, rfl⟩
    exact (Store.alter_id fun u d _ => if_neg List.not_mem_nil).symm
  · have hempty : us.isEmpty = false := by simpa using hnil
    have hany : us.any p.scene.store.isProject = true := by
      obtain ⟨u, hu⟩ := List.exists_mem_of_ne_nil us hnil
      exact List.any_eq_true.2 ⟨u, hu, hus u hu⟩
    have hq : q = (⟨(runPhases host Phase.all us p).1.scene.reindex
        Index.clear, (runPhases host Phase.all us p).1.report⟩,
        (runPhases host Phase.all us p).2) := by
      show runAll host us p = _
      unfold runAll
      simp only [hempty, hany, Bool.false_eq_true, if_false, if_true]
    rw [hq, if_neg hnil]
    refine ⟨hphases, ?_⟩
    show Index.clear _ = _
    unfold Index.clear
    rw [hadv.builtins]

/-- A run of ordinary documents. What they are linked against is offered
once they have been indexed. -/
theorem runAll_ordinary_journey {us : List Uri} (hnd : us.Nodup)
    {p : Pass} (hkeyed : (p.scene.index.horizons.map Prod.fst).Nodup)
    (hloaded : ∀ u ∈ us, u ∈ p.scene.store.uris)
    (hus : ∀ u ∈ us, p.scene.store.isProject u = false) :
    let q := runAll host us p
    (∃ far : Uri → List Phase, (∀ u ∈ us, far u <+: Phase.all)
      ∧ (q.2 = true → ∀ u ∈ us, far u = Phase.all)
      ∧ q.1.scene.store = p.scene.store.travelled us (fun u =>
        ⟨host.fault?, p.scene.ownerReady u, (p.scene.index.linkScope
          (p.scene.store.listed us host.fault?) u).2⟩) far)
    ∧ p.scene.index.Grows p.scene.store q.1.scene.index := by
  have hlayout := Store.sameLayout_listed hus host.fault?
  have hphases := runPhases_all host hnd (p := p)
    (c := fun u => ⟨host.fault?, p.scene.ownerReady u,
      (p.scene.index.linkScope
        (p.scene.store.listed us host.fault?) u).2⟩) (fun _ => rfl) hloaded
    (fun s hadv hoffers u hu => by
      have hsame := hadv.layout hus
      constructor
      · exact Scene.ownerReady_of_layout hsame u
      · refine Index.linkScope_congr (hsame.trans hlayout.symm)
          (hlayout.1 ▸ hloaded u hu)
          ((hlayout.isProject u).trans (hus u hu)) ?_ fun w => ?_
        · rw [Index.look_layout _ hlayout.symm,
            Index.look_layout _ hlayout.symm, (hadv.index hus).look hkeyed]
        · rw [Store.listed, Store.get?_alter]
          by_cases hw : w ∈ us
          · obtain ⟨e, he⟩ := Option.isSome_iff_exists.1
              ((Store.isSome_get? _ w).2 (hloaded w hw))
            obtain ⟨y, hy, hoffered⟩ := hoffers w hw e he
            rw [hy, he, Option.map_some, if_pos hw, Option.bind_some,
              Option.bind_some, hoffered]
            rfl
          · rw [hadv.get?_of_not_mem hw]
            simp only [if_neg hw]
            cases p.scene.store.get? w <;> rfl)
  have hadv := runAll_advance host us p
  intro q
  refine ⟨?_, hadv.index hus⟩
  by_cases hnil : us = []
  · subst hnil
    refine ⟨fun _ => Phase.all, fun _ _ => List.prefix_rfl,
      fun _ _ _ => rfl, ?_⟩
    exact (Store.alter_id fun u d _ => if_neg List.not_mem_nil).symm
  · have hempty : us.isEmpty = false := by simpa using hnil
    have hany : us.any p.scene.store.isProject = false := by
      rw [List.any_eq_false]
      intro u hu
      simp [hus u hu]
    have hq : q = runPhases host Phase.all us p := by
      show runAll host us p = _
      unfold runAll
      simp only [hempty, hany, Bool.false_eq_true, if_false]
    rw [hq]
    exact hphases

end Pass

-- ========================================================= undisturbed

theorem Scene.withdrawn_close {host : Host} (hhost : host.withdrawAt = none)
    (s : Scene) (phase : Phase) (u : Uri) :
    (s.close host phase u).trace.withdrawn = s.trace.withdrawn := by
  by_cases hcall : s.summons phase u
  · rw [trace_close_of_call host hcall]
    show (s.trace.withdrawn
      || decide (host.withdrawAt = some (phase.step, u))) = _
    rw [hhost]
    simp
  · rw [trace_close_of_none host hcall]

namespace Pass

variable {host : Host}

/-- Without a withdrawal a phase comes to its end. -/
theorem Undisturbed.runPhase (hhost : host.withdrawAt = none)
    (phase : Phase) (us : List Uri) {p : Pass} (hp : p.Undisturbed) :
    (runPhase host phase us p).1.Undisturbed
      ∧ (runPhase host phase us p).2.isSome := by
  induction us generalizing p with
  | nil => exact ⟨hp, rfl⟩
  | cons u us ih =>
    obtain ⟨r, hr, hcons⟩ := runPhase_cons host phase u us p
      (by rw [hp.poll]; exact hp.cancelled)
    have hclose : (⟨p.scene.close host phase u, r⟩ : Pass).Undisturbed :=
      ⟨hr, (Scene.withdrawn_close hhost _ _ _).trans hp.withdrawn⟩
    obtain ⟨hrest, hsome⟩ := ih hclose
    rw [hcons]
    refine ⟨hrest, ?_⟩
    dsimp only
    split
    · rwa [Option.isSome_map]
    · exact hsome

theorem Undisturbed.runPhases (hhost : host.withdrawAt = none)
    (phases : List Phase) (us : List Uri) {p : Pass}
    (hp : p.Undisturbed) :
    (runPhases host phases us p).1.Undisturbed
      ∧ (runPhases host phases us p).2 = true := by
  induction phases generalizing us p with
  | nil => exact ⟨⟨hp.cancelled, hp.withdrawn⟩, rfl⟩
  | cons phase phases ih =>
    obtain ⟨hphase, hsome⟩ := hp.runPhase hhost phase us
    obtain ⟨active, hactive⟩ := Option.isSome_iff_exists.1 hsome
    unfold Pass.runPhases
    rw [hp.poll]
    simp only [hp.cancelled, Bool.false_eq_true, if_false]
    generalize Pass.runPhase host phase us p = r at hphase hactive
    obtain ⟨q, next⟩ := r
    cases hactive
    exact ih active hphase

theorem Undisturbed.runAll (hhost : host.withdrawAt = none)
    (us : List Uri) {p : Pass} (hp : p.Undisturbed) :
    (runAll host us p).1.Undisturbed ∧ (runAll host us p).2 = true := by
  obtain ⟨hphases, hmore⟩ := hp.runPhases hhost Phase.all us
  unfold Pass.runAll
  split
  · exact ⟨hp, rfl⟩
  · dsimp only
    refine ⟨?_, hmore⟩
    split
    · exact ⟨hphases.cancelled, hphases.withdrawn⟩
    · exact hphases

end Pass

-- ============================================================== places

namespace Document

variable {d : Document}

/-- A pending document as a build finds it once it has been read. -/
def renew (d : Document) : Document := d.clearFailures.reread

theorem faithful_clearFailures (h : d.Faithful) :
    d.clearFailures.Faithful := ⟨h.known, h.current⟩

/-- A document that is taken up is a project if its text says so. -/
theorem isProject_renew (h : d.Faithful) :
    d.renew.isProject = d.announces :=
  isProject_reread (faithful_clearFailures h)

theorem descriptor?_renew (h : d.Faithful) :
    d.renew.descriptor? = (Content.ofText d.text).1.descriptor? :=
  descriptor?_reread (faithful_clearFailures h)

theorem text_renew (d : Document) : d.renew.text = d.text :=
  d.clearFailures.text_reread

theorem stage_renew_ne (d : Document) : d.renew.stage ≠ .changed :=
  d.clearFailures.stage_reread_ne

theorem stage_renew_lt (hlt : d.stage < .validated) :
    d.renew.stage < .validated := by
  unfold Document.renew
  rw [stage_reread]
  split
  · decide
  · exact hlt

/-- Where a pending document is on its way: not yet read, or somewhere on
its journey. -/
def underway (c : Conditions) (u : Uri) (d : Document) :
    Option (List Phase) → Document
  | none => d.clearFailures
  | some l => (d.renew.journey c u l).1

end Document

namespace Scene

variable (s : Scene) (faults : Faults)

/-- The store once the pending projects have been read. -/
def firstRead : Store :=
  s.store.alter fun u d =>
    if u ∈ s.store.pending then
      if s.store.isProject u then d.renew else d.clearFailures
    else d

/-- The store once every pending document has been read. -/
def allRead : Store :=
  s.store.alter fun u d => if u ∈ s.store.pending then d.renew else d

/-- What a project meets. Those that were projects before are checked
against the projects that are known once they have been read themselves,
and those that turn out to be projects against all of them. -/
def checks (u : Uri) : Conditions :=
  ⟨faults, true, ⟨[], some ((if u ∈ s.kept then s.firstRead
    else s.allRead).projects.facts u)⟩⟩

/-- The store that ordinary documents are linked against. -/
def forecast : Store :=
  s.store.alter fun u d =>
    if u ∈ s.store.pending then
      if s.store.announces u then
        (d.renew.journey (s.checks faults u) u Phase.all).1
      else (d.renew.taken ⟨faults, true, .empty⟩ u .index).1
    else d

/-- What a pending document meets on its way through a build. -/
def meets (u : Uri) : Conditions :=
  if s.store.announces u then s.checks faults u
  else ⟨faults, { s with store := s.forecast faults }.ownerReady u,
    (s.retained.linkScope (s.forecast faults) u).2⟩

/-- The store with every pending document somewhere on its way. -/
def placed (far : Uri → Option (List Phase)) : Store :=
  s.store.alter fun u d =>
    if u ∈ s.store.pending then d.underway (s.meets faults u) u (far u)
    else d

variable {s faults} {far : Uri → Option (List Phase)} {us : List Uri}

/-- A pending document is as far as it is placed. -/
theorem get?_placed {u : Uri} {d : Document}
    (hd : s.store.get? u = some d) (hu : u ∈ s.store.pending) :
    (s.placed faults far).get? u
      = some (d.underway (s.meets faults u) u (far u)) := by
  rw [placed, Store.get?_alter, hd, Option.map_some, if_pos hu]

theorem get?_placed_of_not_mem {u : Uri} (hu : u ∉ s.store.pending) :
    (s.placed faults far).get? u = s.store.get? u := by
  rw [placed, Store.get?_alter]
  simp only [if_neg hu]
  exact Option.map_id_apply

/-- Only the pending ones are placed. -/
theorem placed_congr {far' : Uri → Option (List Phase)}
    (h : ∀ u ∈ s.store.pending, far' u = far u) :
    s.placed faults far' = s.placed faults far := by
  refine Store.alter_congr fun u d _ => ?_
  split
  · next hu => rw [h u hu]
  · rfl

/-- Whoever has been read is what its text says. -/
theorem isProject_placed (hs : s.store.Faithful) {u : Uri}
    (hu : u ∈ s.store.pending) {l : List Phase} (hfar : far u = some l) :
    (s.placed faults far).isProject u = s.store.announces u := by
  obtain ⟨d, hd, -⟩ := Store.mem_pending.1 hu
  rw [Store.isProject_of_get? (get?_placed hd hu), hfar,
    Store.announces_of_get? hd]
  exact (Document.forward_journey _ u l _).isProject.trans
    (Document.isProject_renew (hs u d hd))

/-- Once everything has been read, the projects are known. -/
theorem plan_placed (h : ∀ u ∈ s.store.pending, far u ≠ none) :
    (s.placed faults far).plan = s.allRead.plan := by
  refine Store.plan_congr ?_ fun u => ?_
  · rw [placed, allRead, Store.uris_alter, Store.uris_alter]
  · rw [placed, allRead, Store.get?_alter, Store.get?_alter]
    cases hd : s.store.get? u with
    | none => rfl
    | some d =>
      rw [Option.map_some, Option.map_some, Option.bind_some,
        Option.bind_some]
      split
      · next hu =>
        obtain ⟨l, hl⟩ := Option.ne_none_iff_exists'.1 (h u hu)
        rw [hl]
        exact (Document.forward_journey _ u l _).descriptor
      · rfl

/-- Reading takes whoever has not been read to where journeys begin. -/
theorem placed_reread (hus : ∀ u ∈ us, far u = none ∨ far u = some [])
    (hpending : ∀ u ∈ us, u ∈ s.store.pending) :
    ((s.placed faults far).alter fun u d => if u ∈ us then d.reread else d)
      = s.placed faults fun u => if u ∈ us then some [] else far u := by
  rw [placed, Store.alter_alter]
  refine Store.alter_congr fun u d _ => ?_
  by_cases hu : u ∈ us
  · simp only [if_pos hu, if_pos (hpending u hu)]
    rcases hus u hu with hfar | hfar <;> rw [hfar]
    · rfl
    · exact d.clearFailures.reread_reread
  · simp only [if_neg hu]

/-- A run takes its documents on their way. -/
theorem placed_travelled {c : Uri → Conditions} {l : Uri → List Phase}
    (hus : ∀ u ∈ us, u ∈ s.store.pending ∧ far u = some []
      ∧ c u = s.meets faults u) :
    (s.placed faults far).travelled us c l
      = s.placed faults fun u => if u ∈ us then some (l u) else far u := by
  rw [placed, Store.travelled, Store.alter_alter]
  refine Store.alter_congr fun u d _ => ?_
  by_cases hu : u ∈ us
  · obtain ⟨hpending, hfar, hc⟩ := hus u hu
    simp only [if_pos hu, if_pos hpending, hfar, hc]
    rfl
  · simp only [if_neg hu]

theorem placed_none : s.cleared.store = s.placed faults fun _ => none := rfl

theorem store_first (s : Scene) : s.first.scene.store = s.firstRead := by
  rw [first, Pass.store_reread]
  show (s.store.alter fun u d =>
    if u ∈ s.store.pending then d.clearFailures else d).alter _ = _
  rw [Store.alter_alter]
  refine Store.alter_congr fun u d _ => ?_
  by_cases hu : u ∈ s.store.pending
  · simp only [List.mem_filter, hu, true_and, if_true]
    rfl
  · simp only [List.mem_filter, hu, false_and, if_false]

/-- The pending projects are read first. -/
theorem firstRead_placed (faults : Faults) :
    s.firstRead = s.placed faults fun u =>
      if u ∈ s.store.pending.filter s.store.isProject then some []
      else none := by
  refine Store.alter_congr fun u d _ => ?_
  by_cases hu : u ∈ s.store.pending
  · simp only [List.mem_filter, hu, true_and, if_true]
    split <;> rfl
  · simp only [hu, if_false]

/-- The projects are as far as they get and all is read: what is missing
for the ordinary documents to be linked is that they are indexed. -/
theorem placed_listed
    (hprojects : ∀ u ∈ s.store.pending, s.store.announces u = true →
      far u = some Phase.all)
    (hrest : ∀ u ∈ s.rest, far u = some []) :
    (s.placed faults far).listed s.rest faults = s.forecast faults := by
  rw [placed, Store.listed, Store.alter_alter]
  refine Store.alter_congr fun u d _ => ?_
  by_cases hu : u ∈ s.store.pending
  · simp only [if_pos hu]
    cases hann : s.store.announces u with
    | true =>
      have hnot : u ∉ s.rest := fun h => by
        rw [(mem_rest h).2.2] at hann
        cases hann
      rw [if_neg hnot, if_pos rfl, hprojects u hu hann, meets, hann]
      rfl
    | false =>
      have hmem : u ∈ s.rest := by
        rcases mem_others_cases hu with hk | ⟨-, hf | ⟨-, hr⟩⟩
        · rw [(mem_kept.1 hk).2.2] at hann
          cases hann
        · rw [(List.mem_filter.1 hf).2] at hann
          cases hann
        · exact hr
      rw [if_pos hmem, hrest u hmem]
      rfl
  · have hnot : u ∉ s.rest := fun h =>
      hu (mem_others.1 (mem_rest h).1).1
    simp only [if_neg hu, if_neg hnot]

-- ============================================================== builds

theorem builtins_retained (s : Scene) :
    s.retained.builtins = s.index.builtins := by
  unfold retained
  split <;> rfl

/-- What a build leaves of a scene, whatever its host does. -/
structure Leaves (s : Scene) (faults : Faults)
    (far : Uri → Option (List Phase)) (t : Scene) : Prop where
  store : t.store = s.placed faults far
  phases : ∀ u ∈ s.store.pending, ∀ l, far u = some l → l <+: Phase.all
  /-- Either nobody but the projects has been read, or everybody has and
  the projects are through. -/
  halves : (∀ u ∈ s.store.pending, u ∉ s.kept →
      far u = none ∨ s.store.isProject u = true ∧ far u = some [])
    ∨ (∀ u ∈ s.store.pending, far u ≠ none)
      ∧ ∀ u ∈ s.kept, far u = some Phase.all
  builtins : t.index.builtins = s.index.builtins
  /-- What is remembered is what ordinary documents are to be linked by,
  unless some project is still to be found. -/
  index : s.retained.Grows (s.forecast faults) t.index
    ∨ ∃ u ∈ s.store.pending, s.store.announces u = true ∧ far u = none

/-- How far pending documents are in the second half of a pass: those
that were projects are through. -/
def late (s : Scene) (l₂ l₃ : Uri → List Phase) (u : Uri) :
    Option (List Phase) :=
  if u ∈ s.kept then some Phase.all
  else if u ∈ s.found then some (l₂ u) else some (l₃ u)

section Late

variable {l₂ l₃ : Uri → List Phase} {u : Uri}

theorem late_of_kept (h : u ∈ s.kept) :
    s.late l₂ l₃ u = some Phase.all := if_pos h

theorem late_of_found (h : u ∈ s.found) :
    s.late l₂ l₃ u = some (l₂ u) := by
  rw [late, if_neg (mem_others.1 (List.mem_filter.1 h).1).2, if_pos h]

theorem late_of_rest (h : u ∈ s.rest) :
    s.late l₂ l₃ u = some (l₃ u) := by
  rw [late, if_neg (mem_others.1 (mem_rest h).1).2,
    if_neg (mem_rest h).2.1]

theorem late_of_others (h : u ∈ s.others) :
    s.late (fun _ => []) (fun _ => []) u = some [] := by
  rw [late, if_neg (mem_others.1 h).2, ite_self]

theorem late_ne_none (s : Scene) (l₂ l₃ : Uri → List Phase) (u : Uri) :
    s.late l₂ l₃ u ≠ none := by
  unfold late
  split_ifs <;> exact nofun

/-- Whoever is pending was a project, turns out to be one or is none. -/
theorem late_induction {motive : Uri → Option (List Phase) → Prop}
    (kept : ∀ u ∈ s.kept, motive u (some Phase.all))
    (found : ∀ u ∈ s.found, motive u (some (l₂ u)))
    (rest : ∀ u ∈ s.rest, motive u (some (l₃ u)))
    (hu : u ∈ s.store.pending) : motive u (s.late l₂ l₃ u) := by
  rcases mem_others_cases hu with h | ⟨-, h | ⟨-, h⟩⟩
  · rw [late_of_kept h]
    exact kept u h
  · rw [late_of_found h]
    exact found u h
  · rw [late_of_rest h]
    exact rest u h

theorem leaves_late {t : Scene}
    (hstore : t.store = s.placed faults (s.late l₂ l₃))
    (h₂ : ∀ u ∈ s.found, l₂ u <+: Phase.all)
    (h₃ : ∀ u ∈ s.rest, l₃ u <+: Phase.all)
    (hindex : s.retained.Grows (s.forecast faults) t.index) :
    s.Leaves faults (s.late l₂ l₃) t where
  store := hstore
  phases _ hu :=
    late_induction (motive := fun _ far => ∀ l, far = some l → l <+: Phase.all)
      (fun _ _ _ h => Option.some.inj h ▸ List.prefix_rfl)
      (fun u hu _ h => Option.some.inj h ▸ h₂ u hu)
      (fun u hu _ h => Option.some.inj h ▸ h₃ u hu) hu
  halves := .inr ⟨fun u _ => s.late_ne_none l₂ l₃ u,
    fun _ hu => late_of_kept hu⟩
  builtins := hindex.builtins.trans s.builtins_retained
  index := .inl hindex

/-- Reading the others begins the second half. -/
theorem placed_others (hkept : ∀ u ∈ s.kept, far u = some Phase.all)
    (hothers : ∀ u ∈ s.others, far u = none ∨ far u = some []) :
    ((s.placed faults far).alter fun u d =>
        if u ∈ s.others then d.reread else d)
      = s.placed faults (s.late (fun _ => []) fun _ => []) := by
  rw [placed_reread hothers fun u hu => (mem_others.1 hu).1]
  refine placed_congr fun u hu => ?_
  by_cases hk : u ∈ s.kept
  · rw [late_of_kept hk, if_neg fun h => (mem_others.1 h).2 hk, hkept u hk]
  · have ho := mem_others.2 ⟨hu, hk⟩
    rw [late_of_others ho, if_pos ho]

/-- The run of the projects moves them on. -/
theorem placed_found :
    (s.placed faults fun u =>
        if u ∈ s.found then some (l₂ u) else s.late (fun _ => []) l₃ u)
      = s.placed faults (s.late l₂ l₃) := by
  refine placed_congr fun u _ => ?_
  by_cases hf : u ∈ s.found
  · rw [if_pos hf, late_of_found hf]
  · rw [if_neg hf, late, late, if_neg hf, if_neg hf]

/-- The run of the ordinary documents moves them on. -/
theorem placed_rest :
    (s.placed faults fun u =>
        if u ∈ s.rest then some (l₃ u) else s.late l₂ (fun _ => []) u)
      = s.placed faults (s.late l₂ l₃) := by
  refine placed_congr fun u hu => ?_
  split
  · next hr => rw [late_of_rest hr]
  · next hr =>
    rcases mem_others_cases hu with h | ⟨-, h | ⟨-, h⟩⟩
    · rw [late_of_kept h, late_of_kept h]
    · rw [late_of_found h, late_of_found h]
    · exact absurd h hr

/-- Once everything is read, a pass tells the projects from the rest. -/
theorem filter_read (hs : s.store.Faithful) {t : Store}
    (ht : t = s.placed faults (s.late (fun _ => []) fun _ => [])) :
    s.others.filter t.isProject = s.found
      ∧ s.others.filter (fun u => !t.isProject u) = s.rest := by
  have hproject : ∀ u ∈ s.others,
      t.isProject u = s.store.announces u := fun u hu => by
    rw [ht]
    exact isProject_placed hs (mem_others.1 hu).1 (late_of_others hu)
  exact ⟨List.filter_congr hproject,
    List.filter_congr fun u hu => by rw [hproject u hu]⟩

end Late

/-- The run of those that were projects before. -/
theorem run_kept (host : Host) (hs : s.store.Faithful) {p : Pass}
    (hstore : p.scene.store = s.firstRead)
    (hindex : p.scene.index = s.index) :
    let q := Pass.runAll host s.kept p
    (∃ l : Uri → List Phase, (∀ u ∈ s.kept, l u <+: Phase.all)
      ∧ (q.2 = true → ∀ u ∈ s.kept, l u = Phase.all)
      ∧ q.1.scene.store = s.placed host.fault? fun u =>
        if u ∈ s.kept then some (l u)
        else if u ∈ s.store.pending.filter s.store.isProject then some []
        else none)
    ∧ q.1.scene.index
      = if s.kept = [] then s.index else s.index.clear := by
  have hfilter := (filter_first hs).1
  obtain ⟨⟨l, hprefix, hfull, hl⟩, hq⟩ :=
    Pass.runAll_projects_journey host s.nodup_kept (p := p) fun u hu => by
      rw [← hfilter] at hu
      rw [hstore, ← store_first]
      exact (List.mem_filter.1 hu).2
  rw [hstore, firstRead_placed host.fault?, placed_travelled
    fun u hu => ?_] at hl
  · exact ⟨⟨l, hprefix, hfull, hl⟩, hindex ▸ hq⟩
  · obtain ⟨hpending, hproject, hann⟩ := mem_kept.1 hu
    refine ⟨hpending, if_pos (List.mem_filter.2 ⟨hpending, hproject⟩), ?_⟩
    rw [meets, if_pos hann, checks, if_pos hu,
      ← firstRead_placed host.fault?]

/-- The run of those that turn out to be projects. -/
theorem run_found (host : Host) (hs : s.store.Faithful) {p : Pass}
    (hstore : p.scene.store = s.placed host.fault? far)
    (hread : ∀ u ∈ s.store.pending, far u ≠ none)
    (hothers : ∀ u ∈ s.others, far u = some [])
    (hindex : p.scene.index
      = if s.kept = [] then s.index else s.index.clear) :
    let q := Pass.runAll host s.found p
    (∃ l : Uri → List Phase, (∀ u ∈ s.found, l u <+: Phase.all)
      ∧ (q.2 = true → ∀ u ∈ s.found, l u = Phase.all)
      ∧ q.1.scene.store = s.placed host.fault? fun u =>
        if u ∈ s.found then some (l u) else far u)
    ∧ q.1.scene.index = s.retained := by
  have hfound : ∀ u ∈ s.found, u ∈ s.store.pending ∧ u ∉ s.kept
      ∧ s.store.announces u = true ∧ far u = some [] := by
    intro u hu
    obtain ⟨hu, hann⟩ := List.mem_filter.1 hu
    exact ⟨(mem_others.1 hu).1, (mem_others.1 hu).2, hann, hothers u hu⟩
  obtain ⟨⟨l, hprefix, hfull, hl⟩, hq⟩ :=
    Pass.runAll_projects_journey host s.nodup_found (p := p) fun u hu => by
      obtain ⟨hpending, -, hann, hfar⟩ := hfound u hu
      rw [hstore, isProject_placed hs hpending hfar, hann]
  have hplan : p.scene.store.plan = s.allRead.plan := by
    rw [hstore]
    exact plan_placed hread
  refine ⟨⟨l, hprefix, hfull, ?_⟩, ?_⟩
  · rw [hl, hstore]
    refine placed_travelled fun u hu => ?_
    obtain ⟨hpending, hkept, hann, hfar⟩ := hfound u hu
    refine ⟨hpending, hfar, ?_⟩
    rw [meets, if_pos hann, checks, if_neg hkept, ← hstore,
      Projects.facts_of_plan hplan]
  · rw [hq, hindex, retained_eq]
    by_cases hf : s.found = []
    · rw [if_pos hf, if_pos hf]
    · rw [if_neg hf, if_neg hf]
      split <;> rfl

/-- The run of the ordinary documents. -/
theorem run_rest (host : Host) (hs : s.store.Faithful)
    (hkeyed : (s.index.horizons.map Prod.fst).Nodup) {p : Pass}
    (hstore : p.scene.store = s.placed host.fault? far)
    (hprojects : ∀ u ∈ s.store.pending, s.store.announces u = true →
      far u = some Phase.all)
    (hrest : ∀ u ∈ s.rest, far u = some [])
    (hindex : p.scene.index = s.retained) :
    let q := Pass.runAll host s.rest p
    (∃ l : Uri → List Phase, (∀ u ∈ s.rest, l u <+: Phase.all)
      ∧ (q.2 = true → ∀ u ∈ s.rest, l u = Phase.all)
      ∧ q.1.scene.store = s.placed host.fault? fun u =>
        if u ∈ s.rest then some (l u) else far u)
    ∧ s.retained.Grows (s.forecast host.fault?) q.1.scene.index := by
  have hmem : ∀ u ∈ s.rest, u ∈ s.store.pending
      ∧ s.store.announces u = false := fun u hu =>
    ⟨(mem_others.1 (mem_rest hu).1).1, (mem_rest hu).2.2⟩
  have hord : ∀ u ∈ s.rest, p.scene.store.isProject u = false := by
    intro u hu
    rw [hstore, isProject_placed hs (hmem u hu).1 (hrest u hu)]
    exact (hmem u hu).2
  have hlisted : p.scene.store.listed s.rest host.fault?
      = s.forecast host.fault? := by
    rw [hstore]
    exact placed_listed hprojects hrest
  have hlayout := Store.sameLayout_listed hord host.fault?
  rw [hlisted] at hlayout
  obtain ⟨⟨l, hprefix, hfull, hl⟩, hq⟩ :=
    Pass.runAll_ordinary_journey host s.nodup_rest (p := p)
      (hindex ▸ keyed_retained hkeyed)
      (fun u hu => by
        rw [hstore, placed, Store.uris_alter, ← Store.isSome_get?]
        obtain ⟨d, hd, -⟩ := Store.mem_pending.1 (hmem u hu).1
        rw [hd]
        rfl) hord
  refine ⟨⟨l, hprefix, hfull, ?_⟩, ?_⟩
  · rw [hl, hlisted, hindex, hstore]
    refine placed_travelled fun u hu => ⟨(hmem u hu).1, hrest u hu, ?_⟩
    rw [meets, (hmem u hu).2, if_neg Bool.false_ne_true]
    unfold ownerReady
    rw [hlayout.isProject, hlayout.2]
  · rw [hindex] at hq
    exact hq.layout hlayout.symm

/-- What the second half of a pass leaves. -/
theorem runOthers_leaves (host : Host) (hs : s.store.Faithful)
    (hkeyed : (s.index.horizons.map Prod.fst).Nodup) {p : Pass}
    (hstore : p.scene.store = s.placed host.fault? far)
    (hkept : ∀ u ∈ s.kept, far u = some Phase.all)
    (hothers : ∀ u ∈ s.others, far u = none ∨ far u = some [])
    (hindex : p.scene.index
      = if s.kept = [] then s.index else s.index.clear) :
    ∃ far', s.Leaves host.fault? far' (Pass.runOthers host s.others p).scene
      ∧ (host.withdrawAt = none → p.Undisturbed →
        ∀ u ∈ s.store.pending, far' u = some Phase.all) := by
  -- First everything is read.
  generalize hp₁ : p.reread host s.others = p₁
  have hstore₁ : p₁.scene.store
      = s.placed host.fault? (s.late (fun _ => []) fun _ => []) := by
    rw [← hp₁, Pass.store_reread, hstore, placed_others hkept hothers]
  have hindex₁ : p₁.scene.index
      = if s.kept = [] then s.index else s.index.clear := by
    rw [← hp₁, ← hindex]
    exact index_reread host s.others p.scene
  -- Then come those that have turned out to be projects.
  obtain ⟨⟨l₂, hprefix₂, hfull₂, hstore₂⟩, hindex₂⟩ :=
    run_found host hs hstore₁ (fun u _ => s.late_ne_none _ _ u)
      (fun u hu => late_of_others hu) hindex₁
  rw [placed_found] at hstore₂
  have hundisturbed : host.withdrawAt = none → p.Undisturbed →
      (Pass.runAll host s.found p₁).1.Undisturbed
        ∧ (Pass.runAll host s.found p₁).2 = true := by
    intro hhost hp
    rw [← hp₁]
    exact (hp.reread hhost s.others).runAll hhost s.found
  obtain ⟨hfound, hrest⟩ := filter_read hs hstore₁
  unfold Pass.runOthers
  simp only [Pass.split_eq, hp₁]
  rw [hfound, hrest]
  generalize Pass.runAll host s.found p₁ = r₂ at *
  obtain ⟨p₂, more⟩ := r₂
  cases more with
  | false =>
    refine ⟨_, leaves_late hstore₂ hprefix₂ (fun _ _ => List.nil_prefix)
      (hindex₂ ▸ .refl _ _), fun hhost hp => ?_⟩
    cases (hundisturbed hhost hp).2
  | true =>
    -- The ordinary documents are last.
    have hfull₂ := hfull₂ rfl
    obtain ⟨⟨l₃, hprefix₃, hfull₃, hstore₃⟩, hindex₃⟩ :=
      run_rest host hs hkeyed hstore₂
        (fun _ hu => late_induction
          (motive := fun u far => s.store.announces u = true →
            far = some Phase.all)
          (fun _ _ _ => rfl) (fun u hf _ => by rw [hfull₂ u hf])
          (fun u hr hann => by
            rw [(mem_rest hr).2.2] at hann
            cases hann) hu)
        (fun u hu => late_of_rest hu) hindex₂
    rw [placed_rest] at hstore₃
    refine ⟨_, leaves_late hstore₃ hprefix₂ hprefix₃ hindex₃,
      fun hhost hp _ hu => ?_⟩
    obtain ⟨-, hmore⟩ := (hundisturbed hhost hp).1.runAll hhost s.rest
    exact late_induction (motive := fun _ far => far = some Phase.all)
      (fun _ _ => rfl) (fun u hf => by rw [hfull₂ u hf])
      (fun u hr => by rw [hfull₃ hmore u hr]) hu

/-- What a pass leaves that comes no further than the projects. -/
theorem leaves_early {l : Uri → List Phase} {t : Scene}
    (hstore : t.store = s.placed faults fun u =>
      if u ∈ s.kept then some (l u)
      else if u ∈ s.store.pending.filter s.store.isProject then some []
      else none)
    (hl : ∀ u ∈ s.kept, l u <+: Phase.all)
    (hindex : t.index = if s.kept = [] then s.index else s.index.clear) :
    s.Leaves faults (fun u => if u ∈ s.kept then some (l u)
      else if u ∈ s.store.pending.filter s.store.isProject then some []
      else none) t where
  store := hstore
  phases u _ l' hl' := by
    split_ifs at hl' with hk
    · cases hl'
      exact hl u hk
    · cases hl'
      exact List.nil_prefix
  halves := by
    refine .inl fun u hu hk => ?_
    rw [if_neg hk]
    split
    · next hproject => exact .inr ⟨(List.mem_filter.1 hproject).2, rfl⟩
    · exact .inl rfl
  builtins := by
    rw [hindex]
    split <;> rfl
  index := by
    by_cases hf : s.found = []
    · rw [hindex, retained_eq, if_pos hf]
      exact .inl (.refl _ _)
    · obtain ⟨u, hu⟩ := List.exists_mem_of_ne_nil _ hf
      obtain ⟨ho, hann⟩ := List.mem_filter.1 hu
      obtain ⟨hpending, hk⟩ := mem_others.1 ho
      refine .inr ⟨u, hpending, hann, ?_⟩
      rw [if_neg hk, if_neg]
      exact fun h => hk (mem_kept.2
        ⟨hpending, (List.mem_filter.1 h).2, hann⟩)

/-- What a pass leaves that has read nothing. -/
theorem leaves_unread {t : Scene}
    (hstore : t.store = s.placed faults fun _ => none)
    (hindex : t.index = s.index) :
    s.Leaves faults (fun _ => none) t where
  store := hstore
  phases _ _ _ := nofun
  halves := .inl fun _ _ _ => .inl rfl
  builtins := by rw [hindex]
  index := by
    unfold retained
    split
    · next hany =>
      obtain ⟨u, hu, hann⟩ := List.any_eq_true.1 hany
      exact .inr ⟨u, hu, hann, rfl⟩
    · exact .inl (hindex ▸ .refl _ _)

/-- What a pass leaves from where its projects have been read. -/
theorem runRead_leaves (host : Host) (hs : s.store.Faithful)
    (hkeyed : (s.index.horizons.map Prod.fst).Nodup) {p : Pass}
    (hstore : p.scene.store = s.firstRead)
    (hindex : p.scene.index = s.index) :
    ∃ far, s.Leaves host.fault? far (Pass.runRead host
        (s.store.pending.filter s.store.isProject)
        (s.store.pending.filter fun u => !s.store.isProject u) p).scene
      ∧ (host.withdrawAt = none → p.Undisturbed →
        ∀ u ∈ s.store.pending, far u = some Phase.all) := by
  obtain ⟨⟨l, hprefix, hfull, hstore₁⟩, hindex₁⟩ :=
    run_kept host hs hstore hindex
  have hundisturbed : host.withdrawAt = none → p.Undisturbed → _ :=
    fun hhost hp => hp.runAll hhost s.kept
  obtain ⟨hkept, hformer⟩ := filter_first hs
  rw [store_first] at hkept hformer
  unfold Pass.runRead
  simp only [hstore, hkept, hformer]
  generalize Pass.runAll host s.kept p = r at *
  obtain ⟨q, more⟩ := r
  cases more with
  | false =>
    refine ⟨_, leaves_early hstore₁ hprefix hindex₁, fun hhost hp => ?_⟩
    cases (hundisturbed hhost hp).2
  | true =>
    simp only [Bool.not_true, Bool.false_eq_true, if_false]
    split
    · next hcancelled =>
      refine ⟨_, leaves_early hstore₁ hprefix hindex₁, fun hhost hp => ?_⟩
      have hq := (hundisturbed hhost hp).1
      rw [hq.poll, hq.cancelled] at hcancelled
      cases hcancelled
    · obtain ⟨far, hleaves, hend⟩ := runOthers_leaves host hs hkeyed
        (p := q.poll) hstore₁
        (fun u hu => by rw [if_pos hu, hfull rfl u hu])
        (fun u hu => by
          rw [if_neg (mem_others.1 hu).2]
          split
          · exact .inr rfl
          · exact .inl rfl) hindex₁
      refine ⟨far, hleaves, fun hhost hp => hend hhost ?_⟩
      have hq := (hundisturbed hhost hp).1
      rw [hq.poll]
      exact hq

/-- A build leaves every pending document somewhere on its way, whatever
its host does, and at the end of it unless it is withdrawn. -/
theorem build_leaves (host : Host) (hs : s.store.Faithful)
    (hkeyed : (s.index.horizons.map Prod.fst).Nodup) :
    ∃ far, s.Leaves host.fault? far (s.build host).1
      ∧ (host.withdrawAt = none → s.trace.withdrawn = false →
        ∀ u ∈ s.store.pending, far u = some Phase.all) := by
  rw [build_eq host hs]
  split
  · next hempty =>
    have hnil : s.store.pending = [] := List.isEmpty_iff.1 hempty
    refine ⟨_, leaves_unread ?_ rfl, fun _ _ u hu => ?_⟩
    · refine (Store.alter_id fun u d _ => if_neg ?_).symm
      rw [hnil]
      exact List.not_mem_nil
    · rw [hnil] at hu
      cases hu
  unfold pass
  rw [Pass.runSplit_eq]
  have hpoll : (⟨s.cleared, .empty⟩ : Pass).poll.report.cancelled
      = s.trace.withdrawn := Pass.cancelled_poll rfl
  dsimp only
  split
  · next hcancelled =>
    refine ⟨_, leaves_unread placed_none rfl, fun _ hw => ?_⟩
    rw [hpoll, hw] at hcancelled
    cases hcancelled
  obtain ⟨far, hleaves, hend⟩ := runRead_leaves host hs hkeyed
    (p := (Pass.poll ⟨s.cleared, .empty⟩).reread host
      (s.store.pending.filter s.store.isProject)) (by
      rw [← store_first, Pass.store_reread, first, Pass.store_reread]
      rfl) (index_reread host _ _)
  refine ⟨far, hleaves, fun hhost hw => hend hhost ?_⟩
  have hp : (⟨s.cleared, .empty⟩ : Pass).Undisturbed := ⟨rfl, hw⟩
  rw [hp.poll]
  exact hp.reread hhost _

end Scene

end Purview
