/-
What is left of failures once they are healed. A build with failing
steps is followed by one in which nothing fails, and compared with a
build in which nothing has failed from the start (`Begins`). Every
document gets to the end and offers what it would have offered; and a
project, or an ordinary document that the failing build had not come to
link, is the same in all respects (`healed_iff`).

An ordinary document that has been linked while others were failing
keeps its links. It may have been linked against less than there is in
the end, and later builds have no reason to come back to it: they finish
what is not complete, and a document whose own steps have succeeded is
(`not_healed_dangling`).
-/
import Purview.Proofs.Anchored
import Purview.Proofs.Shape

namespace Purview

-- =========================================================== documents

namespace Document

variable {c : Conditions} {u : Uri} {d : Document} {scope : LinkScope}

theorem InForm.built (h : d.InForm u scope)
    (hstage : ¬ d.stage < .validated) : d = d.built u scope := by
  have hform := h.2
  rwa [Stage.eq_validated (Nat.not_lt.1 hstage)] at hform

/-- Linked documents have their links. -/
theorem Shaped.content (h : d.Shaped u scope)
    (hstage : Stage.linked ≤ d.stage) :
    d.content = some (d.reading.link u scope) :=
  h.clearFailures.content.trans (congrArg some (if_pos hstage))

/-- A document that nothing holds up becomes complete. -/
theorem journey_built (hcalm : c.faults = fun _ _ => none)
    (hready : c.ready = true) (hd : d.renew.InForm u c.scope) :
    (d.renew.journey c u Phase.all).1 = d.built u c.scope := by
  obtain ⟨hon, hform⟩ := journey_calm hcalm hready hd Phase.follow_all
    (Stage.parsed_le.2 d.stage_renew_ne)
  have hend := goal_le_journey hon .validate (by decide)
  rw [hform.built (Nat.not_lt.2 hend)]
  have hrenew := built_congr d.alike_renew u c.scope
  exact (built_congr (forward_journey c u Phase.all d.renew).alike u
    c.scope).trans hrenew

/-- Two complete forms of an ordinary document are the same if they have
the same links. -/
theorem built_eq_iff (hord : d.announces = false) {scope' : LinkScope} :
    d.built u scope = d.built u scope'
      ↔ (d.built u scope).content = (d.built u scope').content := by
  refine ⟨congrArg Document.content, fun h => ?_⟩
  have hlink : d.reading.link u scope = d.reading.link u scope' :=
    Option.some.inj h
  have hcomplaints : complaints (d.reading.link u scope') scope
      = complaints (d.reading.link u scope') scope' := by
    have hnone := d.reading.descriptor?_link u scope'
    cases hcontent : d.reading.link u scope' with
    | ordinary b => rfl
    | descriptor x =>
      rw [hcontent] at hnone
      have : d.announces = true := congrArg Option.isSome hnone.symm
      rw [hord] at this
      cases this
  unfold built linked
  rw [hlink, hcomplaints]

end Document

-- ============================================================== scenes

namespace Scene

variable {s t : Scene} {scope : Uri → LinkScope} {u : Uri} {d : Document}

/-- Every document is in shape. -/
def InShape (s : Scene) (scope : Uri → LinkScope) : Prop :=
  ∀ u d, s.store.get? u = some d → d.Shaped u (scope u)

theorem meets_project (hann : s.store.announces u = true)
    (faults : Faults) : s.meets faults u = s.checks faults u :=
  if_pos hann

theorem scope_checks (hplan : s.firstRead.plan = s.allRead.plan)
    (faults : Faults) (u : Uri) :
    (s.checks faults u).scope = ⟨[], some (s.allRead.projects.facts u)⟩ := by
  unfold checks
  split
  · rw [Projects.facts_of_plan hplan]
  · rfl

namespace InShape

/-- Without failures a project becomes complete. -/
theorem project (h : s.InShape scope) (hd : s.store.get? u = some d)
    (hann : s.store.announces u = true) (hlt : d.stage < .validated) :
    (d.renew.journey (s.checks Host.calm.fault? u) u Phase.all).1
      = d.built u (s.checks Host.calm.fault? u).scope := by
  refine Document.journey_built rfl rfl
    ((h u d hd).renew.of_announces ?_ (Document.stage_renew_lt hlt) _)
  rw [Store.announces_of_get? hd] at hann
  unfold Document.announces at hann ⊢
  rwa [d.text_renew]

theorem get?_forecast (h : s.InShape scope) (hd : s.store.get? u = some d)
    (hann : s.store.announces u = true)
    (hscope : scope u = (s.checks Host.calm.fault? u).scope) :
    (s.forecast Host.calm.fault?).get? u
      = some (d.built u (s.checks Host.calm.fault? u).scope) := by
  rw [forecast, Store.get?_alter, hd, Option.map_some, if_pos hann]
  split
  · next hu => rw [h.project hd hann ((Store.pending_iff hd).1 hu)]
  · next hu =>
    rw [Store.pending_iff hd] at hu
    rw [← hscope, ← ((h u d hd).of_validated hu).built hu]

/-- Once the projects are complete, every owner is ready. -/
theorem ownerReady (h : s.InShape scope) (hs : s.store.Faithful)
    (u : Uri) : ({ s with store := s.forecast Host.calm.fault? } :
      Scene).ownerReady u = true := by
  unfold Scene.ownerReady
  rw [Bool.or_eq_true]
  right
  rw [Option.all_eq_true]
  intro owner howner
  obtain ⟨x, hx, hdescriptor, hstage⟩ := Store.mem_projects.1
    (List.mem_of_find?_eq_some howner)
  have hproject : (s.forecast Host.calm.fault?).isProject owner.uri
      = true := by
    rw [Store.isProject_of_get? hx, Document.isProject, hdescriptor]
    rfl
  have hann := (isProject_forecast hs owner.uri).symm.trans hproject
  rw [forecast, Store.get?_alter] at hx
  obtain ⟨d, hd, hdx⟩ := Option.map_eq_some_iff.1 hx
  have hvalidated : x.stage = .validated := by
    rw [← hdx, if_pos hann]
    split
    · next hu =>
      rw [h.project hd hann ((Store.pending_iff hd).1 hu)]
      rfl
    · next hu =>
      rw [Store.pending_iff hd] at hu
      exact Stage.eq_validated (Nat.not_lt.1 hu)
  rw [← hstage, hvalidated]
  decide

/-- Nothing stops an ordinary document. -/
theorem unhindered (h : s.InShape scope) (hs : s.store.Faithful)
    (hann : s.store.announces u = false) :
    (s.meets Host.calm.fault? u).ready = true
      ∧ (s.meets Host.calm.fault? u).faults = Host.calm.fault? := by
  unfold meets
  rw [hann, if_neg Bool.false_ne_true]
  exact ⟨h.ownerReady hs u, rfl⟩

/-- In the end everybody offers its names. -/
theorem offered_forecast (h : s.InShape scope)
    (hd : s.store.get? u = some d) (hann : s.store.announces u = false) :
    ((s.forecast Host.calm.fault?).get? u).bind (·.offered)
      = some d.names := by
  rw [forecast, Store.get?_alter, hd, Option.map_some, Option.bind_some,
    if_neg (Bool.eq_false_iff.1 hann)]
  split
  · let c : Conditions := ⟨Host.calm.fault?, true, scope u⟩
    have hfollow : Phase.Follow .parsed [.index] := ⟨rfl, trivial⟩
    obtain ⟨hon, hform⟩ := Document.journey_calm (c := c) rfl rfl
      (h u d hd).renew hfollow (Stage.parsed_le.2 d.stage_renew_ne)
    have hend := Document.goal_le_journey hon .index List.mem_cons_self
    have hoffered := hform.offered.trans (if_pos hend)
    rw [Document.journey_singleton] at hoffered
    refine hoffered.trans ?_
    unfold Document.names Document.reading
    rw [(Document.forward_taken c u .index d.renew).text, d.text_renew]
  · next hu =>
    rw [Store.pending_iff hd] at hu
    exact ((h u d hd).of_validated hu).offered.trans
      (if_pos (Nat.le_trans (by decide) (Nat.not_lt.1 hu)))

-- ============================================================= the end

/-- A project ends complete. -/
theorem final_project (h : s.InShape scope)
    (hd : s.store.get? u = some d) (hann : s.store.announces u = true)
    (hscope : scope u = (s.checks Host.calm.fault? u).scope) :
    (s.final Host.calm.fault?).get? u
      = some (d.built u (s.checks Host.calm.fault? u).scope) := by
  rw [← h.get?_forecast hd hann hscope, final, placed, forecast,
    Store.get?_alter, Store.get?_alter, meets_project hann]
  simp only [if_pos hann]
  rfl

/-- An ordinary document that has not been linked is linked against what
there is in the end. -/
theorem final_unlinked (h : s.InShape scope) (hs : s.store.Faithful)
    (hd : s.store.get? u = some d) (hann : s.store.announces u = false)
    (hlt : d.stage < .linked) :
    (s.final Host.calm.fault?).get? u
      = some (d.built u (s.meets Host.calm.fault? u).scope) := by
  have hpending : u ∈ s.store.pending :=
    (Store.pending_iff hd).2 (Nat.lt_trans hlt (by decide))
  have hstage : d.renew.stage < .linked := by
    rwa [(h u d hd).stage_renew]
  obtain ⟨hready, hfaults⟩ := h.unhindered hs hann
  rw [final, get?_placed hd hpending]
  exact congrArg some (Document.journey_built hfaults hready
    ((h u d hd).renew.of_lt hstage _))

/-- One that has been linked keeps its links. -/
theorem final_linked (h : s.InShape scope) (hs : s.store.Faithful)
    (hd : s.store.get? u = some d) (hann : s.store.announces u = false)
    (hle : Stage.linked ≤ d.stage) :
    (s.final Host.calm.fault?).get? u = some (d.built u (scope u)) := by
  by_cases hlt : d.stage < .validated
  · obtain ⟨hready, hfaults⟩ := h.unhindered hs hann
    have hord : d.renew.isProject = false := by
      rw [Document.isProject_renew (hs u d hd),
        ← Store.announces_of_get? hd, hann]
    have hstage : Stage.linked ≤ d.renew.stage := by
      rwa [(h u d hd).stage_renew]
    rw [final, get?_placed hd ((Store.pending_iff hd).2 hlt)]
    show some (d.renew.journey _ u Phase.all).1 = _
    rw [Document.journey_relinked hord hstage (scope u)]
    exact congrArg some (Document.journey_built
      (c := { s.meets Host.calm.fault? u with scope := scope u })
      hfaults hready (h u d hd).renew)
  · rw [final, get?_placed_of_not_mem (mt (Store.pending_iff hd).1 hlt), hd]
    exact congrArg some (((h u d hd).of_validated hlt).built hlt)

end InShape

-- ============================================================= healing

/-- A build from documents that have just been read. Every one of them is
pending, and all projects are known. -/
structure Begins (s : Scene) (faults : Faults) (t : Scene) : Prop where
  fresh : ∀ u d, s.store.get? u = some d → d = d.fresh
  keyed : (s.index.horizons.map Prod.fst).Nodup
  upfront : faults.Upfront
  leaves : s.Leaves faults (fun _ => some Phase.all) t

namespace Begins

variable {faults : Faults}

theorem of_build {host : Host}
    (hfresh : ∀ u d, s.store.get? u = some d → d = d.fresh)
    (hkeyed : (s.index.horizons.map Prod.fst).Nodup)
    (hup : Faults.Upfront host.fault?) (hhost : host.withdrawAt = none)
    (hw : s.trace.withdrawn = false) :
    s.Begins host.fault? (s.build host).1 := by
  have hs : s.store.Faithful := fun u d hd =>
    (Document.Ready.fresh (u := u) (hfresh u d hd)).faithful
  obtain ⟨far, hleaves, hend⟩ := build_leaves host hs hkeyed
  have hfar := hend hhost hw
  refine ⟨hfresh, hkeyed, hup, ?_, fun u _ l hl => ?_, ?_,
    hleaves.builtins, ?_⟩
  · rw [hleaves.store]
    exact placed_congr fun u hu => hfar u hu
  · cases hl
    exact List.prefix_rfl
  · exact .inr ⟨fun _ _ => nofun, fun _ _ => rfl⟩
  · refine .inl (hleaves.index.resolve_right fun hcase => ?_)
    obtain ⟨u, hu, -, hnone⟩ := hcase
    rw [hfar u hu] at hnone
    cases hnone

theorem faithful (h : s.Begins faults t) : s.store.Faithful :=
  fun u d hd =>
    (Document.Ready.fresh (u := u) (h.fresh u d hd)).faithful

theorem inShape_before (h : s.Begins faults t)
    (scope : Uri → LinkScope) : s.InShape scope := fun u d hd =>
  .clean (Document.inForm_fresh (h.fresh u d hd) u (scope u))

theorem mem_pending (h : s.Begins faults t) (hd : s.store.get? u = some d) :
    u ∈ s.store.pending := by
  rw [Store.pending_iff hd, h.fresh u d hd, Document.stage_fresh]
  decide

/-- Where the build leaves a document. -/
theorem get? (h : s.Begins faults t) (hd : s.store.get? u = some d) :
    t.store.get? u
      = some (d.journey (s.meets faults u) u Phase.all).1 := by
  have hrenew :=
    (Document.inForm_fresh (h.fresh u d hd) u .empty).renew_eq
  rw [h.leaves.get? hd (h.mem_pending hd), Document.underway, hrenew]

theorem inShape (h : s.Begins faults t) :
    t.InShape fun u => (s.meets faults u).scope := by
  intro u x hx
  obtain ⟨d, hd⟩ : ∃ d, s.store.get? u = some d := by
    rw [← Option.isSome_iff_exists, Store.isSome_get?,
      ← h.leaves.alike.uris, ← Store.isSome_get?, hx]
    rfl
  rw [h.get? hd] at hx
  cases hx
  refine Document.shaped_journey (upfront_meets h.upfront s u)
    (Document.inForm_fresh (h.fresh u d hd) u _) Phase.follow_all ?_
  rw [h.fresh u d hd, Document.stage_fresh]
  decide

/-- All projects are checked against the same projects, in this build and
in the next. -/
theorem checks (h : s.Begins faults t) (u : Uri) (faults' : Faults) :
    (s.checks faults' u).scope = ⟨[], some (s.allRead.projects.facts u)⟩
      ∧ (t.checks faults' u).scope
        = ⟨[], some (s.allRead.projects.facts u)⟩ := by
  have hs : s.firstRead.plan = s.allRead.plan := by
    refine plan_firstRead h.faithful fun u => ?_
    unfold Store.isProject Store.announces
    cases hd : s.store.get? u with
    | none => rfl
    | some d =>
      show d.isProject = d.announces
      rw [h.fresh u d hd]
      rfl
  have hall := h.leaves.plan_allRead h.faithful
  have ht := h.leaves.plan_firstRead_late h.faithful fun _ _ => nofun
  refine ⟨scope_checks hs faults' u, ?_⟩
  rw [scope_checks (ht.trans hall.symm), Projects.facts_of_plan hall]

theorem get?_forecast_before (h : s.Begins faults t)
    (hd : s.store.get? u = some d) (hann : s.store.announces u = true) :
    (s.forecast Host.calm.fault?).get? u
      = some (d.built u (s.checks Host.calm.fault? u).scope) :=
  (h.inShape_before fun _ =>
    (s.checks Host.calm.fault? u).scope).get?_forecast hd hann rfl

/-- A project is the same in the end. -/
theorem get?_forecast (h : s.Begins faults t)
    (hann : s.store.announces u = true) :
    (t.forecast Host.calm.fault?).get? u
      = (s.forecast Host.calm.fault?).get? u := by
  obtain ⟨d, hd⟩ : ∃ d, s.store.get? u = some d := by
    obtain ⟨d, hd, -⟩ := (Option.any_eq_true _ _).1 hann
    exact ⟨d, hd⟩
  have halike := (Document.forward_journey (s.meets faults u) u
    Phase.all d).alike
  obtain ⟨hs, ht⟩ := h.checks u Host.calm.fault?
  have hscope : (s.meets faults u).scope
      = (t.checks Host.calm.fault? u).scope := by
    rw [meets_project hann, (h.checks u faults).1, ht]
  rw [h.inShape.get?_forecast (h.get? hd)
      ((h.leaves.alike.announces u).trans hann) hscope,
    h.get?_forecast_before hd hann, ht, hs,
    Document.built_congr halike]

/-- What ordinary documents are linked against is the same. -/
theorem layout (h : s.Begins faults t) :
    Store.SameLayout (t.forecast Host.calm.fault?)
      (s.forecast Host.calm.fault?) :=
  layout_of_projects h.faithful (h.leaves.faithful h.faithful)
    h.leaves.alike fun _ hann => h.get?_forecast hann

theorem offered_forecast (h : s.Begins faults t) (u : Uri) :
    ((t.forecast Host.calm.fault?).get? u).bind (·.offered)
      = ((s.forecast Host.calm.fault?).get? u).bind (·.offered) := by
  cases hann : s.store.announces u with
  | true => rw [h.get?_forecast hann]
  | false =>
    cases hd : s.store.get? u with
    | none =>
      rw [forecast, forecast, Store.get?_alter, Store.get?_alter, hd,
        Store.get?_none_of_uris h.leaves.alike.uris hd, Option.map_none,
        Option.map_none]
    | some d =>
      have htext := (Document.forward_journey (s.meets faults u) u
        Phase.all d).text
      rw [h.inShape.offered_forecast (h.get? hd)
          ((h.leaves.alike.announces u).trans hann),
        (h.inShape_before fun _ => .empty).offered_forecast hd hann]
      unfold Document.names Document.reading
      rw [htext]

/-- What is remembered of horizons is the same. If all projects are
complete, so it is already; and if not, it is forgotten once more. -/
theorem look_retained (h : s.Begins faults t) (u : Uri) :
    (t.retained.look (s.forecast Host.calm.fault?) u).2
      = (s.retained.look (s.forecast Host.calm.fault?) u).2 := by
  by_cases hany : t.store.pending.any t.store.announces = true
  · obtain ⟨v, hv, hann⟩ := List.any_eq_true.1 hany
    have hany' : s.store.pending.any s.store.announces = true :=
      List.any_eq_true.2
        ⟨v, h.leaves.pending hv, h.leaves.alike.announces v ▸ hann⟩
    have hsame : t.index.clear = s.index.clear := by
      unfold Index.clear
      rw [h.leaves.builtins]
    unfold retained
    rw [if_pos hany, if_pos hany', hsame]
  · have hlayout : Store.SameLayout (s.forecast Host.calm.fault?)
        (s.forecast faults) := by
      refine layout_of_projects h.faithful h.faithful (.refl _)
        fun v hann => ?_
      obtain ⟨d, hd, -⟩ := (Option.any_eq_true _ _).1 hann
      have hdone : v ∉ t.store.pending := fun hv => hany
        (List.any_eq_true.2
          ⟨v, hv, (h.leaves.alike.announces v).trans hann⟩)
      rw [Store.pending_iff (h.get? hd)] at hdone
      have hrenew :=
        (Document.inForm_fresh (h.fresh v d hd) v .empty).renew_eq
      have hbuilt := ((h.inShape v _ (h.get? hd)).of_validated hdone).built
        hdone
      dsimp only at hbuilt
      rw [Document.built_congr (Document.forward_journey (s.meets faults v)
        v Phase.all d).alike, meets_project hann] at hbuilt
      rw [h.get?_forecast_before hd hann, forecast, Store.get?_alter, hd,
        Option.map_some, if_pos (h.mem_pending hd), if_pos hann, hrenew,
        hbuilt, (h.checks v _).1, (h.checks v _).1]
    have hgrows := h.leaves.retained
    rw [Index.look_layout _ hlayout.symm, Index.look_layout _ hlayout.symm]
    exact hgrows.look (keyed_retained h.keyed) u

/-- An ordinary document that is linked after the failures is linked in
the scope in which it would have been linked without them. -/
theorem meets_scope (h : s.Begins faults t)
    (hd : s.store.get? u = some d) (hann : s.store.announces u = false) :
    (t.meets Host.calm.fault? u).scope
      = (s.meets Host.calm.fault? u).scope := by
  have hloaded : u ∈ (s.forecast Host.calm.fault?).uris := by
    rw [forecast, Store.uris_alter, ← Store.isSome_get?, hd]
    rfl
  unfold meets
  rw [h.leaves.alike.announces, hann, if_neg Bool.false_ne_true,
    if_neg Bool.false_ne_true]
  exact Index.linkScope_congr h.layout hloaded
    ((isProject_forecast h.faithful u).trans hann) (h.look_retained u)
    h.offered_forecast

-- ========================================================= the results

/-- What a build without failures makes of a document. -/
theorem final_before (h : s.Begins faults t)
    (hd : s.store.get? u = some d) :
    (s.final Host.calm.fault?).get? u
      = some (d.built u (s.meets Host.calm.fault? u).scope) := by
  let scope := fun u => (s.meets Host.calm.fault? u).scope
  cases hann : s.store.announces u with
  | true =>
    rw [meets_project hann]
    exact (h.inShape_before scope).final_project hd hann
      (congrArg Conditions.scope (meets_project hann _))
  | false =>
    refine (h.inShape_before scope).final_unlinked h.faithful hd hann ?_
    rw [h.fresh u d hd, Document.stage_fresh]
    decide

/-- What one makes of it after failures: the same, unless it has been
linked. -/
theorem final_after (h : s.Begins faults t)
    (hd : s.store.get? u = some d) {x : Document}
    (hx : t.store.get? u = some x)
    (hlinked : s.store.announces u = true ∨ x.stage < .linked) :
    (t.final Host.calm.fault?).get? u
      = (s.final Host.calm.fault?).get? u := by
  obtain ⟨hs, ht⟩ := h.checks u Host.calm.fault?
  have halike : d.Alike x := by
    rw [h.get? hd] at hx
    cases hx
    exact (Document.forward_journey _ u Phase.all d).alike
  rw [h.final_before hd]
  cases hann : s.store.announces u with
  | true =>
    have hann' := (h.leaves.alike.announces u).trans hann
    have hscope : (s.meets faults u).scope
        = (t.checks Host.calm.fault? u).scope := by
      rw [meets_project hann, (h.checks u faults).1, ht]
    rw [h.inShape.final_project hx hann' hscope, meets_project hann, ht,
      hs, Document.built_congr halike]
  | false =>
    have hlt := hlinked.resolve_left (Bool.eq_false_iff.1 hann)
    rw [h.inShape.final_unlinked (h.leaves.faithful h.faithful) hx
        ((h.leaves.alike.announces u).trans hann) hlt,
      h.meets_scope hd hann, Document.built_congr halike]

theorem final_linked (h : s.Begins faults t)
    (hd : s.store.get? u = some d) {x : Document}
    (hx : t.store.get? u = some x) (hann : s.store.announces u = false)
    (hle : Stage.linked ≤ x.stage) :
    (t.final Host.calm.fault?).get? u
      = some (d.built u (s.meets faults u).scope) := by
  have halike : d.Alike x := by
    rw [h.get? hd] at hx
    cases hx
    exact (Document.forward_journey _ u Phase.all d).alike
  rw [h.inShape.final_linked (h.leaves.faithful h.faithful) hx
    ((h.leaves.alike.announces u).trans hann) hle,
    Document.built_congr halike]

end Begins

/-- The scene that a build leaves. -/
def afterBuild (s : Scene) (host : Host) : Scene :=
  ((s.begin false).build host).1

/-- Documents that have just been read are built with some steps failing
before their work, and then again with none failing. Every document gets
to the end and offers what it would have offered if none had failed at
all. Whatever the first build has linked keeps its links, and that is
all that can make a difference: a project is the same in all respects,
and so is a document that the first build had not linked, or had linked
as it would have been linked in the end. -/
theorem healed_iff (s : Scene) (error? : Step → Uri → Option StepError)
    (hfresh : ∀ u d, s.store.get? u = some d → d = d.fresh)
    (hkeyed : (s.index.horizons.map Prod.fst).Nodup) :
    let failed := s.afterBuild (.failing error? none)
    let healed := failed.afterBuild .calm
    let sound := s.afterBuild .calm
    healed.store.uris = sound.store.uris
      ∧ ∀ u d, s.store.get? u = some d →
        ∃ x y z, failed.store.get? u = some x
          ∧ healed.store.get? u = some y ∧ sound.store.get? u = some z
          ∧ y.stage = .validated ∧ z.stage = .validated
          ∧ y.offered = z.offered ∧ y.own = z.own
          ∧ (Stage.linked ≤ x.stage → y.content = x.content)
          ∧ (y = z ↔ d.isProject = true ∨ x.stage < .linked
            ∨ x.content = z.content) := by
  intro failed healed sound
  have hbuild := Begins.of_build (s := s.begin false) hfresh hkeyed
    (Host.upfront_failing error? none) rfl rfl
  have h : (s.begin false).Begins (Host.failing error? none).fault?
      (failed.begin false) :=
    { hbuild with leaves := hbuild.leaves.begin false }
  have hintact : (s.begin false).Intact := ⟨h.faithful, hkeyed⟩
  have hfailed := hintact.build (.failing error? none)
  have hhealed : healed.store
      = (failed.begin false).final Host.calm.fault? :=
    build_final .calm hfailed.faithful hfailed.keyed rfl rfl
  have hsound : sound.store = (s.begin false).final Host.calm.fault? :=
    build_final .calm h.faithful hkeyed rfl rfl
  rw [hhealed, hsound]
  constructor
  · rw [final, final, placed, placed, Store.uris_alter, Store.uris_alter,
      h.leaves.alike.uris]
  intro u d hd
  have hx := h.get? hd
  have hz := h.final_before hd
  have hann : d.announces = d.isProject := by
    rw [hfresh u d hd]
    rfl
  have hproject : d.isProject = (s.begin false).store.announces u :=
    hann.symm.trans (Store.announces_of_get? hd).symm
  have halike := (Document.forward_journey
    ((s.begin false).meets (Host.failing error? none).fault? u) u
    Phase.all d).alike
  generalize (Document.journey _ u Phase.all d).1 = x at hx halike
  have hcontent := fun hle => (h.inShape u x hx).content hle
  have hreading : x.reading = d.reading := by
    unfold Document.reading
    rw [halike.text]
  rw [hreading] at hcontent
  by_cases hsame : d.isProject = true ∨ x.stage < .linked
  · have hy := h.final_after hd hx (hproject ▸ hsame)
    rw [hz] at hy
    refine ⟨x, _, _, hx, hy, hz, rfl, rfl, rfl, rfl, fun hle => ?_,
      iff_of_true rfl ?_⟩
    · -- A project has no references.
      have hlinked := Document.linked_of_announces (hann.trans
        (hsame.resolve_right (Nat.not_lt.2 hle))) u
      rw [hcontent hle]
      exact congrArg Document.content (hlinked _ _)
    · exact hsame.elim .inl fun hlt => .inr (.inl hlt)
  · obtain ⟨hord, hle⟩ := not_or.1 hsame
    have hle := Nat.not_lt.1 hle
    have hord := Bool.eq_false_iff.2 hord
    have hy := h.final_linked hd hx (hproject.symm.trans hord) hle
    have hkept := hcontent hle
    refine ⟨x, _, _, hx, hy, hz, rfl, rfl, rfl, rfl, fun _ => hkept.symm,
      ?_⟩
    rw [Document.built_eq_iff (hann.trans hord), hkept]
    constructor
    · exact fun hsound => .inr (.inr hsound)
    · exact fun hcase => (hcase.resolve_left
        (Bool.eq_false_iff.1 hord)).resolve_left (Nat.not_lt.2 hle)

end Scene

namespace Workspace

/-- A document that refers to a name, and one that has it. -/
def referring : Scene :=
  (create .calm []).loaded .calm
    [⟨Uri.ofString "/a.sysw", "ref A;"⟩, ⟨Uri.ofString "/b.sysw", "def A;"⟩]

/-- One step fails on one document. -/
def failingAt (step : Step) (u : Uri) (step' : Step) (u' : Uri) :
    Option StepError :=
  if step' == step && u' == u then some (.failed "out of order") else none

/-- The second document cannot be indexed. -/
def unindexed : Host :=
  .failing (failingAt .index (Uri.ofString "/b.sysw")) none

theorem fresh_referring :
    ∀ u d, referring.store.get? u = some d → d = d.fresh :=
  fresh_loaded .calm _ (fresh_create .calm [])

/-- The document that could not be indexed ends as if it had been. -/
theorem healed_unindexed :
    let b := Uri.ofString "/b.sysw"
    let healed := (referring.afterBuild unindexed).afterBuild .calm
    (healed.store.get? b).isSome = true
      ∧ healed.store.get? b = (referring.afterBuild .calm).store.get? b := by
  intro b healed
  have hloaded : (referring.store.get? (Uri.ofString "/b.sysw")).isSome
      = true := by decide +kernel
  have hstage : ((referring.afterBuild unindexed).store.get?
      (Uri.ofString "/b.sysw")).map (·.stage) = some .parsed := by
    decide +kernel
  obtain ⟨d, hd⟩ := Option.isSome_iff_exists.1 hloaded
  obtain ⟨x, y, z, hx, hy, hz, -, -, -, -, -, hiff⟩ :=
    (Scene.healed_iff referring _ fresh_referring List.nodup_nil).2 b d hd
  have hlt : x.stage < .linked := by
    rw [show (referring.afterBuild unindexed).store.get?
      (Uri.ofString "/b.sysw") = some x from hx] at hstage
    rw [show x.stage = .parsed from Option.some.inj hstage]
    decide
  rw [show healed.store.get? b = some y from hy, hz,
    hiff.2 (.inr (.inl hlt))]
  exact ⟨rfl, rfl⟩

/-- The document that refers to it was linked while there was nothing to
link it to, and is not linked again. -/
theorem not_healed_dangling :
    let targets := fun s : Scene =>
      ((s.store.get? (Uri.ofString "/a.sysw")).bind (·.body?)).map
        fun body => body.references.map (·.target)
    (∀ u d, referring.store.get? u = some d → d = d.fresh)
      ∧ targets ((referring.afterBuild unindexed).afterBuild .calm)
        = some [none]
      ∧ targets (referring.afterBuild .calm)
        = some [some (Uri.ofString "/b.sysw")] := by
  refine ⟨fresh_referring, ?_, ?_⟩
  · decide +kernel
  · decide +kernel

end Workspace

end Purview
