/-
What a pass comes to that nobody disturbs. Under a calm host no step
fails, no document is put off and the pass is never withdrawn, so each
phase takes every document to its next form (`runPhase_forms`) and a
run of documents ends with all of them complete (`runPhases_calm`). All
that is left open by then is the scope in which each was linked.

For a project that is what its dependencies come to, which does not
hang on stages (`runAll_projects_calm`). For an ordinary document it is
the offers of what it sees; and as a run of ordinary documents moves no
horizon and changes no offer once the names are known, the scope is the
one that the finished documents give (`runAll_ordinary_calm`).
-/
import Purview.Proofs.Forms
import Purview.Proofs.Plan

namespace Purview

-- ============================================================ one phase

namespace Scene

/-- A document that is past a phase is left alone. -/
theorem carry_past (host : Host) {s : Scene} {phase : Phase} {u : Uri}
    {d : Document} (hd : s.store.get? u = some d)
    (h : phase.goal ≤ d.stage) :
    s.carry host phase u = (s, .advanced) := by
  unfold carry
  rw [hd]
  dsimp only
  rw [if_pos h]

/-- A phase whose work succeeds. -/
theorem carry_calm {s : Scene} {phase : Phase} {u : Uri}
    {d d' : Document} (hd : s.store.get? u = some d)
    (hlt : ¬ phase.goal ≤ d.stage)
    (hready : phase = .link → s.ownerReady u = true)
    (hwork : (phase.work u (s.scopeFor phase u).2 d).map
      (·.advance phase.goal) = .ok d') :
    (s.carry .calm phase u).2 = .advanced
    ∧ (s.carry .calm phase u).1.store = s.store.modify u (fun _ => d')
    ∧ (s.carry .calm phase u).1.trace.withdrawn
      = s.trace.withdrawn := by
  have hscope : (s.scopeFor phase u).1.store = s.store
      ∧ (s.scopeFor phase u).1.trace = s.trace := by
    unfold scopeFor
    split <;> exact ⟨rfl, rfl⟩
  have hnot : ¬ (phase = .link ∧ ¬ s.ownerReady u = true) :=
    fun h => h.2 (hready h.1)
  unfold carry
  rw [hd]
  dsimp only
  rw [if_neg hlt, if_neg hnot]
  generalize s.scopeFor phase u = found at hscope hwork ⊢
  obtain ⟨t, scope⟩ := found
  obtain ⟨hstore, htrace⟩ := hscope
  cases hok : phase.work u scope d with
  | error e =>
    rw [hok] at hwork
    cases hwork
  | ok x =>
    rw [hok] at hwork
    cases hwork
    refine ⟨rfl, ?_, ?_⟩
    · show t.store.modify u (fun _ => x.advance phase.goal) = _
      rw [hstore]
    · show (t.trace.withdrawn || decide (none = some (phase.step, u))) = _
      rw [htrace]
      simp

/-- A phase takes a document from one form to another: it is past the
phase and stays as it is, or its turn has come and the work succeeds. -/
def Takes (s : Scene) (phase : Phase) (u : Uri) (d d' : Document) : Prop :=
  phase.goal ≤ d.stage ∧ d' = d
  ∨ ¬ phase.goal ≤ d.stage
    ∧ (phase = .link → s.ownerReady u = true)
    ∧ (phase.work u (s.scopeFor phase u).2 d).map
      (·.advance phase.goal) = .ok d'

/-- Carrying a phase out on a document takes it to its next form. -/
theorem Takes.carry {s : Scene} {phase : Phase} {u : Uri}
    {d d' : Document} (h : s.Takes phase u d d')
    (hd : s.store.get? u = some d) :
    (s.carry .calm phase u).2 = .advanced
    ∧ (s.carry .calm phase u).1.trace.withdrawn = s.trace.withdrawn
    ∧ ∀ v, (s.carry .calm phase u).1.store.get? v
      = if v = u then some d' else s.store.get? v := by
  rcases h with ⟨hpast, rfl⟩ | ⟨hlt, hready, hwork⟩
  · rw [carry_past .calm hd hpast]
    refine ⟨rfl, rfl, fun v => ?_⟩
    split
    · next hv => rw [hv, hd]
    · rfl
  · obtain ⟨hout, hstore, htrace⟩ := carry_calm hd hlt hready hwork
    refine ⟨hout, htrace, fun v => ?_⟩
    rw [hstore, Store.get?_modify_const hd]

section Forms

variable (s : Scene) (u : Uri) {d : Document} {scope : LinkScope}

/-- Indexing passes over a document whose names are known. -/
theorem takes_index (hform : d = d.fresh ∨ d = d.surveyed) :
    s.Takes .index u d
      (if Stage.indexed ≤ d.stage then d else d.indexed) := by
  rcases hform with h | h
  · have hlt : ¬ Stage.indexed ≤ d.stage := by
      rw [h, Document.stage_fresh]
      decide
    have hwork := d.work_index u (s.scopeFor .index u).2
    rw [← h] at hwork
    refine .inr ⟨hlt, nofun, ?_⟩
    rw [if_neg hlt]
    exact hwork
  · have hle : Stage.indexed ≤ d.stage := by
      rw [h, Document.stage_surveyed]
      decide
    exact .inl ⟨hle, if_pos hle⟩

theorem takes_scope (hform : d = d.fresh ∨ d = d.surveyed) :
    s.Takes .scope u (if Stage.indexed ≤ d.stage then d else d.indexed)
      d.surveyed := by
  rcases hform with h | h
  · have hlt : ¬ Stage.indexed ≤ d.stage := by
      rw [h, Document.stage_fresh]
      decide
    rw [if_neg hlt]
    exact .inr ⟨show ¬ Stage.surveyed ≤ Stage.indexed by decide, nofun,
      d.work_scope u _⟩
  · have hle : Stage.indexed ≤ d.stage := by
      rw [h, Document.stage_surveyed]
      decide
    rw [if_pos hle]
    refine .inl ⟨?_, h.symm⟩
    rw [h, Document.stage_surveyed]
    decide

theorem takes_link (hready : s.ownerReady u = true)
    (hscope : (s.index.linkScope s.store u).2 = scope) :
    s.Takes .link u d.surveyed (d.linked u scope) := by
  refine .inr ⟨show ¬ Stage.linked ≤ Stage.surveyed by decide,
    fun _ => hready, ?_⟩
  show (Phase.link.work u (s.index.linkScope s.store u).2 _).map _ = _
  rw [hscope]
  exact d.work_link u scope

theorem takes_validate
    (hscope : (s.index.linkScope s.store u).2 = scope) :
    s.Takes .validate u (d.linked u scope) (d.built u scope) := by
  refine .inr ⟨show ¬ Stage.validated ≤ Stage.linked by decide, nofun, ?_⟩
  show (Phase.validate.work u (s.index.linkScope s.store u).2 _).map _ = _
  rw [hscope]
  exact d.work_validate u scope

end Forms

end Scene

namespace Pass

open Scene (Advance)

/-- A pass that is not withdrawn. -/
structure Undisturbed (p : Pass) : Prop where
  cancelled : p.report.cancelled = false
  withdrawn : p.scene.trace.withdrawn = false

theorem Undisturbed.poll {p : Pass} (h : p.Undisturbed) : p.poll = p := by
  obtain ⟨scene, report⟩ := p
  obtain ⟨hcancelled, hwithdrawn⟩ := h
  unfold Pass.poll
  dsimp only at hcancelled hwithdrawn ⊢
  rw [hcancelled, hwithdrawn, Bool.or_false, ← hcancelled]

/-- A phase takes each of some documents from one form to the next. The
step may count on the others to be in the one form or the other. -/
theorem runPhase_forms (phase : Phase) {us : List Uri} (hnd : us.Nodup)
    {p : Pass} (hp : p.Undisturbed) {x y : Uri → Document}
    (hx : ∀ u ∈ us, p.scene.store.get? u = some (x u))
    (hstep : ∀ s, Advance us p.scene s →
      (∀ v ∈ us, s.store.get? v = some (x v)
        ∨ s.store.get? v = some (y v)) →
      ∀ u ∈ us, s.Takes phase u (x u) (y u)) :
    ∃ s', runPhase .calm phase us p = (⟨s', p.report⟩, some us)
      ∧ (∀ u ∈ us, s'.store.get? u = some (y u))
      ∧ s'.trace.withdrawn = false ∧ Advance us p.scene s' := by
  induction us generalizing p with
  | nil =>
    exact ⟨p.scene, rfl, (fun u hu => nomatch hu), hp.withdrawn,
      .refl [] p.scene⟩
  | cons u us ih =>
    obtain ⟨hu, hnd⟩ := List.nodup_cons.1 hnd
    have hne : ∀ v ∈ us, v ≠ u := fun v hv h => hu (h ▸ hv)
    have hsub : us ⊆ u :: us := List.subset_cons_self u us
    obtain ⟨hout, hw, hget⟩ := (hstep p.scene (.refl _ _)
      (fun v hv => .inl (hx v hv)) u List.mem_cons_self).carry
        (hx u List.mem_cons_self)
    have hcarry := Scene.carry_advance .calm p.scene phase
      (List.mem_cons_self : u ∈ u :: us)
    -- The rest of the run finds the document at hand in its later form.
    obtain ⟨s', hrun, hall, hw', hadv⟩ := ih hnd
      (p := ⟨(p.scene.carry .calm phase u).1, p.report⟩)
      ⟨hp.cancelled, hw.trans hp.withdrawn⟩
      (fun v hv => by
        rw [hget, if_neg (hne v hv)]
        exact hx v (hsub hv))
      (fun s hs hdocs v hv => hstep s (hcarry.trans (hs.mono hsub))
        (fun w hw => by
          rcases List.mem_cons.1 hw with rfl | hw
          · right
            rw [hs.get?_of_not_mem hu, hget, if_pos rfl]
          · exact hdocs w hw) v (hsub hv))
    refine ⟨s', ?_, fun v hv => ?_, hw', hcarry.trans (hadv.mono hsub)⟩
    · unfold runPhase
      rw [hp.poll]
      simp only [hp.cancelled, Bool.false_eq_true, if_false, hout, hrun,
        Option.map_some]
    · rcases List.mem_cons.1 hv with rfl | hv
      · rw [hadv.get?_of_not_mem hu, hget, if_pos rfl]
      · exact hall v hv

end Pass

-- =========================================================== the scopes

namespace Index

/-- The scope of a project is what its dependencies come to. -/
theorem linkScope_of_project (i : Index) {s : Store} {u : Uri}
    {d : Document} (hd : s.get? u = some d) (hproject : d.isProject = true) :
    (i.linkScope s u).2 = ⟨[], some (s.projects.facts u)⟩ := by
  unfold linkScope
  rw [hd]
  dsimp only
  rw [if_pos hproject]

/-- The scope of an ordinary document is what its horizon offers. -/
theorem linkScope_of_ordinary (i : Index) {s : Store} {u : Uri}
    {d : Document} (hd : s.get? u = some d) (hord : d.isProject = false) :
    (i.linkScope s u).2
      = ⟨s.offersOf (s.candidates u (i.look s u).2.visible), none⟩ := by
  unfold linkScope
  rw [hd]
  dsimp only
  rw [hord]
  rfl

/-- The scope of an ordinary document hangs on its horizon and on what is
offered, and on nothing else. -/
theorem linkScope_congr {i j : Index} {s t : Store} {u : Uri}
    (hlayout : Store.SameLayout t s) (hu : u ∈ s.uris)
    (hord : s.isProject u = false)
    (hlook : (j.look s u).2 = (i.look s u).2)
    (hoffers : ∀ v, (t.get? v).bind (·.offered)
      = (s.get? v).bind (·.offered)) :
    (j.linkScope t u).2 = (i.linkScope s u).2 := by
  obtain ⟨d, hd⟩ := Option.isSome_iff_exists.1
    ((Store.isSome_get? s u).2 hu)
  obtain ⟨d', hd'⟩ := Option.isSome_iff_exists.1
    ((Store.isSome_get? t u).2 (hlayout.1 ▸ hu))
  have hord' : d'.isProject = false := by
    rw [← Store.isProject_of_get? hd', hlayout.isProject, hord]
  rw [Store.isProject_of_get? hd] at hord
  rw [linkScope_of_ordinary j hd' hord', linkScope_of_ordinary i hd hord,
    look_layout j hlayout.symm, hlook]
  generalize (i.look s u).2.visible = v
  have hcandidates : t.candidates u v = s.candidates u v := by
    cases v with
    | all =>
      show t.uris.filter _ = s.uris.filter _
      rw [hlayout.1]
    | only us => rfl
  rw [hcandidates]
  congr 1
  exact List.filterMap_congr fun w _ => by rw [hoffers w]

end Index

-- ============================================================ one run

/-- Work forward leaves the plan alone. -/
theorem Scene.Advance.plan {us : List Uri} {s s' : Scene}
    (h : Scene.Advance us s s') : s'.store.plan = s.store.plan := by
  refine Store.plan_congr h.uris fun u => ?_
  cases hd : s.store.get? u with
  | none =>
    rw [Store.get?_none_of_uris h.uris hd]
  | some d =>
    obtain ⟨d', hd', hforward, -⟩ := h.forward u d hd
    rw [hd']
    exact hforward.descriptor

namespace Pass

open Scene (Advance)

/-- Phases follow one another as long as none is disturbed. -/
theorem runPhases_cons {phase : Phase} {phases : List Phase}
    {us active : List Uri} {p p' : Pass} (hp : p.Undisturbed)
    (h : runPhase .calm phase us p = (p', some active)) :
    runPhases .calm (phase :: phases) us p
      = runPhases .calm phases active p' := by
  rw [runPhases, hp.poll]
  simp only [hp.cancelled, Bool.false_eq_true, if_false, h]

/-- A run of documents ends with all of them complete. The scope of a
document has to be the same whenever it is asked for once all names are
known. -/
theorem runPhases_calm {us : List Uri} (hnd : us.Nodup) {p : Pass}
    (hp : p.Undisturbed) {d : Uri → Document} (scope : Uri → LinkScope)
    (hd : ∀ u ∈ us, p.scene.store.get? u = some (d u))
    (hform : ∀ u ∈ us, d u = (d u).fresh ∨ d u = (d u).surveyed)
    (hready : ∀ s, Advance us p.scene s → ∀ u ∈ us,
      s.ownerReady u = true)
    (hscope : ∀ s, Advance us p.scene s →
      (∀ u ∈ us, ∃ x, s.store.get? u = some x
        ∧ x.offered = some (d u).names) →
      ∀ u ∈ us, (s.index.linkScope s.store u).2 = scope u) :
    ∃ s', runPhases .calm Phase.all us p = (⟨s', { p.report with
          processed := p.report.processed ++ us }⟩, true)
      ∧ (∀ u ∈ us, s'.store.get? u = some ((d u).built u (scope u)))
      ∧ s'.trace.withdrawn = false ∧ Advance us p.scene s' := by
  -- The names come first; from then on the scope is fixed.
  obtain ⟨s₁, hrun₁, hget₁, hw₁, hadv₁⟩ := runPhase_forms .index hnd hp hd
    (fun s _ _ u hu => s.takes_index u (hform u hu))
  have hp₁ : (⟨s₁, p.report⟩ : Pass).Undisturbed := ⟨hp.cancelled, hw₁⟩
  obtain ⟨s₂, hrun₂, hget₂, hw₂, hadv₂⟩ := runPhase_forms .scope hnd hp₁
    hget₁ (fun s _ _ u hu => s.takes_scope u (hform u hu))
  have hp₂ : (⟨s₂, p.report⟩ : Pass).Undisturbed := ⟨hp.cancelled, hw₂⟩
  have hadv₂ := hadv₁.trans hadv₂
  obtain ⟨s₃, hrun₃, hget₃, hw₃, hadv₃⟩ := runPhase_forms .link hnd hp₂
    hget₂ (fun s hadv hforms u hu =>
      s.takes_link u (hready s (hadv₂.trans hadv) u hu)
        (hscope s (hadv₂.trans hadv) (fun v hv => (hforms v hv).elim
          (fun h => ⟨_, h, rfl⟩) fun h => ⟨_, h, rfl⟩) u hu))
  have hp₃ : (⟨s₃, p.report⟩ : Pass).Undisturbed := ⟨hp.cancelled, hw₃⟩
  have hadv₃ := hadv₂.trans hadv₃
  obtain ⟨s₄, hrun₄, hget₄, hw₄, hadv₄⟩ := runPhase_forms .validate hnd hp₃
    hget₃ (fun s hadv hforms u hu =>
      s.takes_validate u (hscope s (hadv₃.trans hadv)
        (fun v hv => (hforms v hv).elim
          (fun h => ⟨_, h, rfl⟩) fun h => ⟨_, h, rfl⟩) u hu))
  refine ⟨s₄, ?_, hget₄, hw₄, hadv₃.trans hadv₄⟩
  rw [Phase.all, runPhases_cons hp hrun₁, runPhases_cons hp₁ hrun₂,
    runPhases_cons hp₂ hrun₃, runPhases_cons hp₃ hrun₄]
  rfl

/-- What a run of documents leaves: each is complete, in the scope that
it was linked in, and the others are as they were. -/
structure Completed (us : List Uri) (scope : Uri → LinkScope)
    (s t : Store) : Prop where
  uris : t.uris = s.uris
  done : ∀ u ∈ us, ∀ d, s.get? u = some d →
    t.get? u = some (d.built u (scope u))
  others : ∀ u, u ∉ us → t.get? u = s.get? u

/-- Documents that are ready for a run: loaded, and read or sent back. -/
def Startable (us : List Uri) (s : Store) : Prop :=
  ∀ u ∈ us, ∃ d, s.get? u = some d ∧ (d = d.fresh ∨ d = d.surveyed)

/-- The report of a run that has completed its documents. -/
def completes (us : List Uri) (r : BuildReport) : BuildReport :=
  { r with processed := r.processed ++ us }

@[simp] theorem cancelled_completes (us : List Uri) (r : BuildReport) :
    (completes us r).cancelled = r.cancelled := rfl

/-- A run of documents whose scopes are known beforehand. -/
theorem runPhases_completed {us : List Uri} (hnd : us.Nodup) {p : Pass}
    (hp : p.Undisturbed) (hus : Startable us p.scene.store)
    (scope : Uri → LinkScope)
    (hready : ∀ s, Advance us p.scene s → ∀ u ∈ us,
      s.ownerReady u = true)
    (hscope : ∀ s, Advance us p.scene s →
      (∀ u ∈ us, ∃ x, s.store.get? u = some x
        ∧ x.offered = some x.names) →
      ∀ u ∈ us, (s.index.linkScope s.store u).2 = scope u) :
    ∃ s', runPhases .calm Phase.all us p
          = (⟨s', completes us p.report⟩, true)
      ∧ Completed us scope p.scene.store s'.store
      ∧ s'.trace.withdrawn = false ∧ Advance us p.scene s' := by
  have hd : ∀ u ∈ us, p.scene.store.get? u
      = some ((p.scene.store.get? u).getD (.unread "")) := by
    intro u hu
    obtain ⟨d, hd, -⟩ := hus u hu
    rw [hd]
    rfl
  obtain ⟨s', hrun, hdone, hw, hadv⟩ := runPhases_calm hnd hp scope hd
    (fun u hu => by
      obtain ⟨d, hd, hform⟩ := hus u hu
      rw [hd]
      exact hform) hready
    (fun s hadv hoffered => by
      refine hscope s hadv fun u hu => ?_
      obtain ⟨x, hx, hoffered⟩ := hoffered u hu
      obtain ⟨y, hy, hforward, -⟩ := hadv.forward u _ (hd u hu)
      obtain rfl : x = y := Option.some.inj (hx.symm.trans hy)
      refine ⟨x, hx, hoffered.trans (congrArg some ?_)⟩
      unfold Document.names Document.reading
      rw [hforward.text])
  refine ⟨s', hrun, ⟨hadv.uris, fun u hu d hget => ?_, fun u hu => ?_⟩,
    hw, hadv⟩
  · rw [hdone u hu, hget]
    rfl
  · exact hadv.get?_of_not_mem hu

/-- A run of projects, each of which is linked in the scope of its own
dependencies. -/
theorem runAll_projects_calm {us : List Uri} (hnd : us.Nodup) {p : Pass}
    (hp : p.Undisturbed) (hus : Startable us p.scene.store)
    (hprojects : ∀ u ∈ us, p.scene.store.isProject u = true) :
    ∃ s', runAll .calm us p = (⟨s', completes us p.report⟩, true)
      ∧ Completed us
        (fun u => ⟨[], some (p.scene.store.projects.facts u)⟩)
        p.scene.store s'.store
      ∧ s'.trace.withdrawn = false
      ∧ s'.index = if us = [] then p.scene.index
        else p.scene.index.clear := by
  by_cases hnil : us = []
  · subst hnil
    refine ⟨p.scene, ?_, ⟨rfl, (fun u hu => nomatch hu), fun _ _ => rfl⟩,
      hp.withdrawn, (if_pos rfl).symm⟩
    unfold completes
    rw [List.append_nil]
    rfl
  obtain ⟨s', hrun, hcompleted, hw, hadv⟩ := runPhases_completed hnd hp
    hus (fun u => ⟨[], some (p.scene.store.projects.facts u)⟩)
    (fun s hadv u hu => Scene.ownerReady_of_isProject
      ((hadv.isProject u).trans (hprojects u hu)))
    (fun s hadv hoffered u hu => by
      obtain ⟨x, hx, -⟩ := hoffered u hu
      have hproject : x.isProject = true := by
        rw [← Store.isProject_of_get? hx, hadv.isProject]
        exact hprojects u hu
      rw [Index.linkScope_of_project _ hx hproject,
        Projects.facts_of_plan hadv.plan])
  have hany : us.any p.scene.store.isProject = true := by
    obtain ⟨u, hu⟩ := List.exists_mem_of_ne_nil us hnil
    exact List.any_eq_true.2 ⟨u, hu, hprojects u hu⟩
  refine ⟨s'.reindex Index.clear, ?_, hcompleted, hw, ?_⟩
  · unfold runAll
    simp [hnil, hany, hrun]
  · rw [if_neg hnil, Scene.index_reindex, Index.clear, Index.clear,
      hadv.builtins]

/-- The scope of an ordinary document in a run of such: neither what it
sees nor what that offers changes along the way. -/
theorem linkScope_ordinary {us : List Uri} {s s₁ s₂ : Scene}
    (hkeyed : (s.index.horizons.map Prod.fst).Nodup)
    (hus : ∀ u ∈ us, s.store.isProject u = false)
    (h₁ : Advance us s s₁) (h₂ : Advance us s s₂)
    (ho₁ : ∀ u ∈ us, ∃ x, s₁.store.get? u = some x
      ∧ x.offered = some x.names)
    (ho₂ : ∀ u ∈ us, ∃ x, s₂.store.get? u = some x
      ∧ x.offered = some x.names) {u : Uri} (hu : u ∈ us) :
    (s₁.index.linkScope s₁.store u).2
      = (s₂.index.linkScope s₂.store u).2 := by
  have hoffered : ∀ v, (s₁.store.get? v).bind (·.offered)
      = (s₂.store.get? v).bind (·.offered) := by
    intro v
    by_cases hv : v ∈ us
    · obtain ⟨x₁, hx₁, hn₁⟩ := ho₁ v hv
      obtain ⟨x₂, hx₂, hn₂⟩ := ho₂ v hv
      obtain ⟨d₁, hd₁, hf₁, -⟩ := h₁.backward hx₁
      obtain ⟨d₂, hd₂, hf₂, -⟩ := h₂.backward hx₂
      obtain rfl : d₁ = d₂ := Option.some.inj (hd₁.symm.trans hd₂)
      rw [hx₁, hx₂, Option.bind_some, Option.bind_some, hn₁, hn₂]
      unfold Document.names Document.reading
      rw [hf₁.text, hf₂.text]
    · rw [h₁.get?_of_not_mem hv, h₂.get?_of_not_mem hv]
  have hlayout := (h₁.layout hus).trans (h₂.layout hus).symm
  have hu₂ : u ∈ s₂.store.uris := by
    obtain ⟨d, hd, -⟩ := ho₂ u hu
    rw [← Store.isSome_get?, hd]
    rfl
  refine Index.linkScope_congr hlayout hu₂
    ((h₂.isProject u).trans (hus u hu)) ?_ hoffered
  rw [Index.look_layout _ (h₂.layout hus).symm,
    Index.look_layout _ (h₂.layout hus).symm, (h₁.index hus).look hkeyed,
    (h₂.index hus).look hkeyed]

/-- A scene in which the names of some documents are known. -/
def surveyed (us : List Uri) (s : Scene) : Scene :=
  { s with store := s.store.alter fun v d =>
      if v ∈ us then d.surveyed else d }

theorem advance_surveyed {us : List Uri} {s : Scene}
    (hus : Startable us s.store) : Advance us s (surveyed us s) := by
  refine ⟨Store.uris_alter _ _, fun v d hd => ?_, rfl,
    fun _ => .refl _ _⟩
  refine ⟨if v ∈ us then d.surveyed else d, ?_, ?_,
    fun hv => if_neg hv⟩
  · show (s.store.alter _).get? v = _
    rw [Store.get?_alter, hd]
    rfl
  · split
    · next hv =>
      obtain ⟨x, hx, hform⟩ := hus v hv
      obtain rfl : d = x := Option.some.inj (hd.symm.trans hx)
      rcases hform with h | h
      · have hforward : d.fresh.Forward d.surveyed :=
          ⟨rfl, rfl, rfl, rfl, rfl,
            show Stage.parsed ≤ Stage.surveyed by decide⟩
        rw [← h] at hforward
        exact hforward
      · rw [← h]
        exact .refl d
    · exact .refl d

theorem offered_surveyed {us : List Uri} {s : Scene}
    (hus : Startable us s.store) :
    ∀ u ∈ us, ∃ x, (surveyed us s).store.get? u = some x
      ∧ x.offered = some x.names := by
  intro u hu
  obtain ⟨d, hd, -⟩ := hus u hu
  refine ⟨d.surveyed, ?_, rfl⟩
  show (s.store.alter _).get? u = _
  rw [Store.get?_alter, hd]
  exact congrArg some (if_pos hu)

/-- A run of ordinary documents, each of which is linked in the scope
that the finished documents give. -/
theorem runAll_ordinary_calm {us : List Uri} (hnd : us.Nodup) {p : Pass}
    (hp : p.Undisturbed) (hus : Startable us p.scene.store)
    (hkeyed : (p.scene.index.horizons.map Prod.fst).Nodup)
    (hord : ∀ u ∈ us, p.scene.store.isProject u = false)
    (hready : ∀ q ∈ p.scene.store.projects, Stage.surveyed ≤ q.stage) :
    ∃ s', runAll .calm us p = (⟨s', completes us p.report⟩, true)
      ∧ Completed us
        (fun u => (p.scene.index.linkScope s'.store u).2)
        p.scene.store s'.store
      ∧ s'.trace.withdrawn = false := by
  by_cases hnil : us = []
  · subst hnil
    refine ⟨p.scene, ?_, ⟨rfl, (fun u hu => nomatch hu), fun _ _ => rfl⟩,
      hp.withdrawn⟩
    unfold completes
    rw [List.append_nil]
    rfl
  have ht := advance_surveyed hus
  have hto := offered_surveyed hus
  generalize surveyed us p.scene = t at ht hto
  obtain ⟨s', hrun, hcompleted, hw, hadv⟩ := runPhases_completed hnd hp
    hus (fun u => (t.index.linkScope t.store u).2)
    (fun s hadv u _ => by
      unfold Scene.ownerReady
      rw [(hadv.layout hord).2, Bool.or_eq_true]
      refine .inr ?_
      cases howner : p.scene.store.projects.ownerOf? u with
      | none => rfl
      | some q =>
        exact decide_eq_true (hready q (List.mem_of_find?_eq_some howner)))
    (fun s hadv hoffered u hu =>
      linkScope_ordinary hkeyed hord hadv ht hoffered hto hu)
  have hfinal : ∀ u ∈ us, (t.index.linkScope t.store u).2
      = (p.scene.index.linkScope s'.store u).2 := by
    intro u hu
    have hadv' : Advance us p.scene { s' with index := p.scene.index } :=
      ⟨hadv.uris, hadv.forward, rfl, fun _ => .refl _ _⟩
    refine linkScope_ordinary hkeyed hord ht hadv' hto ?_ hu
    intro v hv
    obtain ⟨d, hd, -⟩ := hus v hv
    exact ⟨_, hcompleted.done v hv d hd, rfl⟩
  have hany : us.any p.scene.store.isProject = false := by
    simpa using hord
  refine ⟨s', ?_, ⟨hcompleted.uris, fun u hu d hd => ?_,
    hcompleted.others⟩, hw⟩
  · unfold runAll
    simp [hnil, hany, hrun]
  · rw [← hfinal u hu]
    exact hcompleted.done u hu d hd

end Pass

end Purview
