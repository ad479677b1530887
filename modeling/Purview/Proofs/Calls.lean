/-
The order of the calls of a pass. Behind reading, a pass calls steps on
documents in up to three runs: on those that it knew to be projects, on
those that have turned out to be projects, and on the others. Within a
run the phases come one after another, and what is called on a single
document are the phases above the stage where it stands once read, as
far as it gets (`Performed`, and by where the pass starts and ends
`Turn`). No host can disturb that order, by failing or by withdrawing
its request: it can only break it off (`calls_buildBatch`).

What a pass knows of a document is what it was last read to say. A
document that has never been read says nothing yet, so a build reads it
first, and knows it from then on (`Scene.Knows`).
-/
import Purview.Proofs.Course
import Purview.Proofs.Partway

namespace Purview

-- ============================================================ one phase

namespace Document

variable {c : Conditions} {u : Uri} {d : Document} {phase : Phase}

/-- Whoever goes on stands where the phase goes, unless he was past it. -/
theorem stage_taken (h : (d.taken c u phase).2 = true) :
    (d.taken c u phase).1.stage
      = if phase.goal ≤ d.stage then d.stage else phase.goal := by
  unfold taken at h ⊢
  split_ifs at h ⊢ with hgoal
  · rfl
  · dsimp only at h ⊢
    generalize hattempt : Host.attempt _ _ _ _ = attempt at h ⊢
    cases attempt with
    | succeeded x =>
      have hwork := worked_of_work (Scene.result?_attempt
        ⟨c.faults, none⟩ (d := x) (by rw [hattempt]; rfl))
      show (x.advance phase.goal).stage = phase.goal
      unfold advance
      rw [if_pos]
      rw [hwork.stage]
      exact Nat.lt_of_not_le hgoal
    | failedBefore error => cases h
    | failedAfter x error => cases h

end Document

namespace Scene

/-- The calls made behind reading. -/
def calls (s : Scene) : List (Step × Uri) :=
  s.trace.calls.filter fun c => c.1 ≠ .parse

end Scene

namespace Phase

/-- The call that a phase makes on a document. -/
def call (c : Phase × Uri) : Step × Uri := (c.1.step, c.2)

/-- The phases that have called on a document. -/
def callsOn (u : Uri) (r : List (Phase × Uri)) : List Phase :=
  (r.filter fun c => c.2 = u).map Prod.fst

theorem callsOn_append (u : Uri) (r r' : List (Phase × Uri)) :
    callsOn u (r ++ r') = callsOn u r ++ callsOn u r' := by
  unfold callsOn
  rw [List.filter_append, List.map_append]

theorem callsOn_of_not_mem {u : Uri} {r : List (Phase × Uri)}
    (h : ∀ c ∈ r, c.2 ≠ u) : callsOn u r = [] := by
  unfold callsOn
  rw [List.filter_eq_nil_iff.2 fun c hc => by simpa using h c hc]
  rfl

/-- A phase calls on each of its documents once. -/
theorem callsOn_map (phase : Phase) (u : Uri) {vs : List Uri}
    (hnd : vs.Nodup) :
    callsOn u (vs.map (phase, ·)) = if u ∈ vs then [phase] else [] := by
  induction vs with
  | nil => rfl
  | cons v vs ih =>
    obtain ⟨hv, hnd⟩ := List.nodup_cons.1 hnd
    rw [List.map_cons, ← List.singleton_append, callsOn_append, ih hnd]
    by_cases hu : v = u
    · subst hu
      rw [if_neg hv, if_pos List.mem_cons_self, List.append_nil]
      simp [callsOn]
    · rw [callsOn_of_not_mem (by simpa using hu), List.nil_append]
      simp [Ne.symm hu]

end Phase

/-- The phases that go above a stage. -/
def Stage.ahead (stage : Stage) (phases : List Phase) : List Phase :=
  phases.filter fun phase => stage < phase.goal

/-- A phase that has been passed is not ahead. -/
theorem Stage.ahead_of_past {stage : Stage} {phase : Phase}
    (h : phase.goal ≤ stage) (phases : List Phase) :
    stage.ahead (phase :: phases) = stage.ahead phases :=
  List.filter_cons_of_neg fun hlt =>
    Nat.not_lt.2 h (of_decide_eq_true hlt)

theorem Stage.ahead_of_lt {stage : Stage} {phases : List Phase}
    (h : ∀ phase ∈ phases, stage < phase.goal) :
    stage.ahead phases = phases :=
  List.filter_eq_self.2 fun phase hphase => decide_eq_true (h phase hphase)

namespace Scene

variable (host : Host)

theorem calls_note {s : Scene} {t : Scene} {step : Step} {u : Uri}
    (hstep : step ≠ .parse) (h : t.trace = s.trace.note host step u) :
    t.calls = s.calls ++ [(step, u)] := by
  unfold calls
  rw [h, Trace.note, List.filter_append,
    List.filter_cons_of_pos (by simpa using hstep), List.filter_nil]

theorem calls_congr {s t : Scene} (h : t.trace = s.trace) :
    t.calls = s.calls := by
  unfold calls
  rw [h]

/-- Reading is another matter. -/
theorem calls_reread (us : List Uri) (s : Scene) :
    (reread host us s).calls = s.calls := by
  induction us generalizing s with
  | nil => rfl
  | cons u us ih =>
    rw [reread]
    split
    · split
      · rw [ih]
        show List.filter _ (s.trace.calls ++ [(Step.parse, u)]) = _
        rw [List.filter_append, List.filter_cons_of_neg (by simp),
          List.filter_nil, List.append_nil]
        rfl
      · exact ih s
    · exact ih s

end Scene

namespace Pass

variable (host : Host)

open Scene (Advance)

/-- A document that has gone through a phase: it was past it, or it is
one of those that the phase has called on. -/
def Passed (phase : Phase) (vs : List Uri) (s t : Store) (u : Uri) : Prop :=
  ∃ d d', s.get? u = some d ∧ t.get? u = some d'
    ∧ d'.stage = (if phase.goal ≤ d.stage then d.stage else phase.goal)
    ∧ (phase.goal ≤ d.stage ∨ u ∈ vs)

/-- Whoever goes on behind a phase has gone through it. -/
theorem passed_close {phase : Phase} {u : Uri} {s : Scene} {vs : List Uri}
    (h : (s.carry host phase u).2 = .advanced)
    (hvs : s.summons phase u → u ∈ vs) :
    Passed phase vs s.store (s.close host phase u).store u := by
  cases hd : s.store.get? u with
  | none =>
    unfold Scene.carry at h
    simp only [hd] at h
    cases h
  | some d =>
    obtain ⟨hstore, hcarry⟩ := Scene.close_taken host phase hd
    have hon := hcarry.1 h
    refine ⟨d, _, hd, ?_, Document.stage_taken hon, ?_⟩
    · rw [hstore, Store.get?_modify_const hd, if_pos rfl]
    · by_cases hgoal : phase.goal ≤ d.stage
      · exact .inl hgoal
      · refine .inr (hvs ⟨d, hd, hgoal, fun hready => ?_⟩)
        have hoff : (d.taken (s.conditions host phase u) u phase).2
            = false := by
          unfold Document.taken
          rw [if_neg hgoal, if_pos]
          exact ⟨hready.1, Bool.eq_false_iff.2 hready.2⟩
        rw [hoff] at hon
        cases hon

theorem Passed.mono {phase : Phase} {vs vs' : List Uri}
    {s s' t t' : Store} {u : Uri} (h : Passed phase vs s t u)
    (hvs : vs ⊆ vs') (hs : s'.get? u = s.get? u)
    (ht : t'.get? u = t.get? u) : Passed phase vs' s' t' u := by
  obtain ⟨d, d', hd, hd', hstage, hmem⟩ := h
  exact ⟨d, d', hs.trans hd, ht.trans hd', hstage,
    hmem.imp_right (@hvs u)⟩

/-- Who goes on behind the document at hand and the others has gone
through the phase, given that of the others. -/
theorem gone_cons {phase : Phase} {u : Uri} {us : List Uri} (hu : u ∉ us)
    {s : Scene} {q : Pass × Option (List Uri)}
    (hrest : Advance us (s.close host phase u) q.1.scene)
    {vs vs' : List Uri} (hvs : vs ⊆ vs') (hu' : s.summons phase u → u ∈ vs')
    (hactive : ∀ active, q.2 = some active → active.Sublist us
      ∧ ∀ v ∈ active,
        Passed phase vs (s.close host phase u).store q.1.scene.store v)
    {active : List Uri}
    (h : (if (s.carry host phase u).2 = .advanced
      then q.2.map (u :: ·) else q.2) = some active) :
    active.Sublist (u :: us) ∧ ∀ v ∈ active,
      Passed phase vs' s.store q.1.scene.store v := by
  have hclose : Advance [u] s (s.close host phase u) :=
    s.close_advance host phase List.mem_cons_self
  obtain ⟨rest, hq, rfl⟩ := active_cons h
  obtain ⟨hsub, hpassed⟩ := hactive rest hq
  have htail : ∀ v ∈ rest,
      Passed phase vs' s.store q.1.scene.store v := by
    intro v hv
    refine (hpassed v hv).mono hvs (hclose.get?_of_not_mem fun h => ?_).symm
      rfl
    exact hu (List.mem_singleton.1 h ▸ hsub.subset hv)
  split
  · next hon =>
    refine ⟨hsub.cons_cons u, fun v hv => ?_⟩
    rcases List.mem_cons.1 hv with rfl | hv
    · exact (passed_close host hon hu').mono (List.Subset.refl vs') rfl
        (hrest.get?_of_not_mem hu)
    · exact htail v hv
  · exact ⟨hsub.cons u, htail⟩

/-- A phase calls its step on some of the documents, one after another,
none of which is past the phase. -/
theorem runPhase_calls (phase : Phase) {us : List Uri} (hnd : us.Nodup)
    (p : Pass) :
    let r := runPhase host phase us p
    ∃ vs, vs.Sublist us
      ∧ r.1.scene.calls
        = p.scene.calls ++ (vs.map (phase, ·)).map Phase.call
      ∧ (∀ u ∈ vs, ∃ d, p.scene.store.get? u = some d
        ∧ ¬ phase.goal ≤ d.stage)
      ∧ ∀ active, r.2 = some active → active.Sublist us
        ∧ ∀ u ∈ active, Passed phase vs p.scene.store
          r.1.scene.store u := by
  induction us generalizing p with
  | nil =>
    refine ⟨[], List.nil_sublist _, (List.append_nil _).symm,
      List.forall_mem_nil _, fun active h => ?_⟩
    cases h
    exact ⟨List.nil_sublist _, List.forall_mem_nil _⟩
  | cons u us ih =>
    obtain ⟨hu, hnd⟩ := List.nodup_cons.1 hnd
    cases hgo : p.poll.report.cancelled with
    | true =>
      rw [runPhase]
      simp only [hgo, if_true]
      exact ⟨[], List.nil_sublist _, (List.append_nil _).symm,
        List.forall_mem_nil _, fun _ h => by cases h⟩
    | false =>
      obtain ⟨report, -, hr⟩ := runPhase_cons host phase u us p hgo
      have hadv : Advance [u] p.scene (p.scene.close host phase u) :=
        p.scene.close_advance host phase List.mem_cons_self
      obtain ⟨vs, hsub, hcalls, hvs, hactive⟩ :=
        ih hnd ⟨p.scene.close host phase u, report⟩
      have hsame : ∀ v ∈ us, (p.scene.close host phase u).store.get? v
          = p.scene.store.get? v := fun v hv =>
        hadv.get?_of_not_mem fun h => hu (List.mem_singleton.1 h ▸ hv)
      have hrest := runPhase_advance host phase us (List.Subset.refl us)
        ⟨p.scene.close host phase u, report⟩
      have hstep : phase.step ≠ .parse := by cases phase <;> decide
      rw [hr]
      generalize runPhase host phase us ⟨p.scene.close host phase u,
        report⟩ = q at hsub hcalls hactive hrest
      have hold : ∀ v ∈ vs, ∃ d, p.scene.store.get? v = some d
          ∧ ¬ phase.goal ≤ d.stage := by
        intro v hv
        obtain ⟨d, hd, hgoal⟩ := hvs v hv
        exact ⟨d, (hsame v (hsub.subset hv)).symm.trans hd, hgoal⟩
      by_cases hcall : p.scene.summons phase u
      · refine ⟨u :: vs, hsub.cons_cons u, ?_, fun v hv => ?_,
          fun _ => gone_cons host hu hrest (List.subset_cons_self u vs)
            (fun _ => List.mem_cons_self) hactive⟩
        · show q.1.scene.calls = _
          rw [hcalls, Scene.calls_note host hstep
            (Scene.trace_close_of_call host hcall), List.append_assoc]
          rfl
        · rcases List.mem_cons.1 hv with rfl | hv
          · obtain ⟨d, hd, hgoal, -⟩ := hcall
            exact ⟨d, hd, hgoal⟩
          · exact hold v hv
      · refine ⟨vs, hsub.cons u, ?_, hold,
          fun _ => gone_cons host hu hrest (List.Subset.refl vs)
            (fun h => absurd h hcall) hactive⟩
        show q.1.scene.calls = _
        rw [hcalls, Scene.calls_congr
          (Scene.trace_close_of_none host hcall)]

-- =============================================================== a run

/-- The calls of a run: each is a phase on one of the documents, one phase
comes after another, and on a single document they are the phases above
its stage, as far as it gets. -/
structure Performed (phases : List Phase) (us : List Uri) (s : Store)
    (r : List (Phase × Uri)) : Prop where
  mem : ∀ c ∈ r, c.1 ∈ phases ∧ c.2 ∈ us
  major : r.Pairwise fun c c' => c.1.goal ≤ c'.1.goal
  each : ∀ u d, s.get? u = some d →
    Phase.callsOn u r <+: d.stage.ahead phases

theorem performed_nil (phases : List Phase) (us : List Uri) (s : Store) :
    Performed phases us s [] :=
  ⟨nofun, List.Pairwise.nil, fun _ _ _ => List.nil_prefix⟩

/-- The calls of one phase, followed by those of the later ones on who
goes on behind it. -/
theorem Performed.cons {phase : Phase} {phases : List Phase}
    (hlater : ∀ x ∈ phases, phase.goal < x.goal) {us vs active : List Uri}
    (hnd : us.Nodup) {s t : Store} (hvs : vs.Sublist us)
    (hstage : ∀ u ∈ vs, ∃ d, s.get? u = some d ∧ ¬ phase.goal ≤ d.stage)
    (hactive : active.Sublist us)
    (hpassed : ∀ u ∈ active, Passed phase vs s t u)
    {r : List (Phase × Uri)} (h : Performed phases active t r) :
    Performed (phase :: phases) us s (vs.map (phase, ·) ++ r) where
  mem c hc := by
    rcases List.mem_append.1 hc with hc | hc
    · obtain ⟨v, hv, rfl⟩ := List.mem_map.1 hc
      exact ⟨List.mem_cons_self, hvs.subset hv⟩
    · exact ⟨List.mem_cons_of_mem _ (h.mem c hc).1,
        hactive.subset (h.mem c hc).2⟩
  major := by
    refine List.pairwise_append.2 ⟨?_, h.major, fun c hc c' hc' => ?_⟩
    · refine List.pairwise_map.2 (List.pairwise_of_forall ?_)
      exact fun _ _ => Nat.le_refl _
    · obtain ⟨v, -, rfl⟩ := List.mem_map.1 hc
      exact Nat.le_of_lt (hlater c'.1 (h.mem c' hc').1)
  each u d hd := by
    rw [Phase.callsOn_append, Phase.callsOn_map phase u (hnd.sublist hvs)]
    have hcalled : u ∈ vs → ¬ phase.goal ≤ d.stage := by
      intro hu
      obtain ⟨x, hx, hgoal⟩ := hstage u hu
      rwa [← Option.some.inj (hd.symm.trans hx)] at hgoal
    have hall : ¬ phase.goal ≤ d.stage →
        d.stage.ahead (phase :: phases) = phase :: phases := by
      intro hgoal
      refine Stage.ahead_of_lt fun x hx => ?_
      rcases List.mem_cons.1 hx with rfl | hx
      · exact Nat.lt_of_not_le hgoal
      · exact Nat.lt_trans (Nat.lt_of_not_le hgoal) (hlater x hx)
    by_cases hu : u ∈ active
    · obtain ⟨x, d', hx, hd', hend, hmem⟩ := hpassed u hu
      obtain rfl : d = x := Option.some.inj (hd.symm.trans hx)
      have hrest := h.each u d' hd'
      by_cases hgoal : phase.goal ≤ d.stage
      · rw [if_pos hgoal] at hend
        rw [if_neg (mt hcalled (not_not_intro hgoal)), List.nil_append,
          Stage.ahead_of_past hgoal, ← hend]
        exact hrest
      · rw [if_neg hgoal] at hend
        rw [hend, Stage.ahead_of_lt hlater] at hrest
        rw [if_pos (hmem.resolve_left hgoal), hall hgoal]
        exact (List.prefix_cons_inj phase).2 hrest
    · have hnone : Phase.callsOn u r = [] :=
        Phase.callsOn_of_not_mem fun c hc hcu => hu (hcu ▸ (h.mem c hc).2)
      rw [hnone, List.append_nil]
      split
      · next hv =>
        rw [hall (hcalled hv)]
        exact (List.prefix_cons_inj phase).2 List.nil_prefix
      · exact List.nil_prefix

/-- The phases of a run make their calls one phase after another. -/
theorem runPhases_calls {phases : List Phase}
    (hphases : phases.Pairwise fun a b => a.goal < b.goal) {us : List Uri}
    (hnd : us.Nodup) (p : Pass) :
    ∃ r, (runPhases host phases us p).1.scene.calls
        = p.scene.calls ++ r.map Phase.call
      ∧ Performed phases us p.scene.store r := by
  induction phases generalizing us p with
  | nil => exact ⟨[], (List.append_nil _).symm, performed_nil _ _ _⟩
  | cons phase phases ih =>
    obtain ⟨hlater, hphases⟩ := List.pairwise_cons.1 hphases
    rw [runPhases_elim]
    dsimp only
    split
    · exact ⟨[], (List.append_nil _).symm, performed_nil _ _ _⟩
    obtain ⟨vs, hvs, hcalls, hstage, hactive⟩ :=
      runPhase_calls host phase hnd p.poll
    cases hnext : (runPhase host phase us p.poll).2 with
    | none =>
      refine ⟨vs.map (phase, ·) ++ [], ?_, Performed.cons hlater hnd hvs
        hstage (List.nil_sublist us) (t := p.scene.store)
        (List.forall_mem_nil _) (performed_nil _ _ _)⟩
      rw [List.append_nil]
      exact hcalls
    | some active =>
      obtain ⟨hsub, hpassed⟩ := hactive active hnext
      obtain ⟨r, hr, hperformed⟩ := ih hphases (hnd.sublist hsub)
        (runPhase host phase us p.poll).1
      refine ⟨vs.map (phase, ·) ++ r, ?_, Performed.cons hlater hnd hvs
        hstage hsub hpassed hperformed⟩
      rw [Option.elim_some, hr, hcalls, List.map_append,
        List.append_assoc]
      rfl

theorem all_increasing :
    Phase.all.Pairwise fun a b => a.goal < b.goal := by decide

/-- A run makes the calls of all phases. -/
theorem runAll_calls {us : List Uri} (hnd : us.Nodup) (p : Pass) :
    ∃ r, (runAll host us p).1.scene.calls
        = p.scene.calls ++ r.map Phase.call
      ∧ Performed Phase.all us p.scene.store r := by
  unfold runAll
  split
  · exact ⟨[], (List.append_nil _).symm, performed_nil _ _ _⟩
  · obtain ⟨r, hr, hperformed⟩ :=
      runPhases_calls host all_increasing hnd p
    refine ⟨r, ?_, hperformed⟩
    rw [← hr]
    dsimp only
    split <;> rfl

-- ============================================================= all runs

/-- The calls of one run of a pass, by the stores with which the pass
starts and ends: they are on documents that end as projects, or on others,
and on a single document they are the phases above the stage where it
stands once it has been read. -/
structure Turn (us : List Uri) (project : Bool) (s t : Store)
    (r : List (Phase × Uri)) : Prop where
  mem : ∀ c ∈ r, c.2 ∈ us
  kind : ∀ c ∈ r, t.isProject c.2 = project
  major : r.Pairwise fun c c' => c.1.goal ≤ c'.1.goal
  each : ∀ u d, s.get? u = some d →
    Phase.callsOn u r <+: d.reread.stage.ahead Phase.all

theorem turn_nil (us : List Uri) (project : Bool) (s t : Store) :
    Turn us project s t [] :=
  ⟨List.forall_mem_nil _, List.forall_mem_nil _, List.Pairwise.nil,
    fun _ _ _ => List.nil_prefix⟩

/-- A run of documents that have been read. -/
theorem Performed.turn {us : List Uri} {project : Bool} {s t : Store}
    {r : List (Phase × Uri)} (h : Performed Phase.all us s r)
    (hread : ∀ u d, s.get? u = some d → u ∈ us → d.stage ≠ .changed)
    (hkind : ∀ u ∈ us, t.isProject u = project) :
    Turn us project s t r := by
  refine ⟨fun c hc => (h.mem c hc).2, fun c hc => hkind _ (h.mem c hc).2,
    h.major, fun u d hd => ?_⟩
  by_cases hu : u ∈ us
  · rw [Document.reread_of_ne (hread u d hd hu)]
    exact h.each u d hd
  · have hnone : Phase.callsOn u r = [] :=
      Phase.callsOn_of_not_mem fun c hc hcu => hu (hcu ▸ (h.mem c hc).2)
    rw [hnone]
    exact List.nil_prefix

/-- A run, seen from an earlier store in which its documents stood where
they stand now, once read. -/
theorem Turn.back {us vs : List Uri} {project : Bool} {s s' t : Store}
    {r : List (Phase × Uri)} (h : Turn us project s' t r) (hus : us ⊆ vs)
    (hstage : ∀ u ∈ us, ∀ d, s.get? u = some d →
      ∃ d', s'.get? u = some d' ∧ d'.reread.stage = d.reread.stage) :
    Turn vs project s t r := by
  refine ⟨fun c hc => hus (h.mem c hc), h.kind, h.major, fun u d hd => ?_⟩
  by_cases hu : u ∈ us
  · obtain ⟨d', hd', hsame⟩ := hstage u hu d hd
    rw [← hsame]
    exact h.each u d' hd'
  · have hnone : Phase.callsOn u r = [] :=
      Phase.callsOn_of_not_mem fun c hc hcu => hu (hcu ▸ h.mem c hc)
    rw [hnone]
    exact List.nil_prefix

theorem Turn.mono {us vs : List Uri} {project : Bool} {s t : Store}
    {r : List (Phase × Uri)} (h : Turn us project s t r) (hus : us ⊆ vs) :
    Turn vs project s t r :=
  h.back hus fun _ _ d hd => ⟨d, hd, rfl⟩

/-- In three runs, the first on documents that are known, the second on
others and the third on no projects, a document has its calls in one. -/
theorem callsOn_turns {projects others : List Uri} {known : Uri → Prop}
    (hprojects : ∀ u ∈ projects, known u)
    (hothers : ∀ u ∈ others, ¬ known u) {s t : Store}
    {r₁ r₂ r₃ : List (Phase × Uri)} (h₁ : Turn projects true s t r₁)
    (h₂ : Turn others true s t r₂)
    (h₃ : Turn (others ++ projects) false s t r₃) (u : Uri)
    (d : Document) (hd : s.get? u = some d) :
    Phase.callsOn u (r₁ ++ r₂ ++ r₃)
      <+: d.reread.stage.ahead Phase.all := by
  have hnone : ∀ r : List (Phase × Uri), (∀ c ∈ r, c.2 ≠ u) →
      Phase.callsOn u r = [] := fun r => Phase.callsOn_of_not_mem
  rw [Phase.callsOn_append, Phase.callsOn_append]
  by_cases hp : t.isProject u = true
  · have hlast : Phase.callsOn u r₃ = [] := hnone r₃ fun c hc hcu => by
      rw [← hcu, h₃.kind c hc] at hp
      cases hp
    rw [hlast, List.append_nil]
    by_cases hk : known u
    · rw [hnone r₂ fun c hc hcu =>
        hothers _ (h₂.mem c hc) (hcu ▸ hk), List.append_nil]
      exact h₁.each u d hd
    · rw [hnone r₁ fun c hc hcu =>
        hk (hcu ▸ hprojects _ (h₁.mem c hc)), List.nil_append]
      exact h₂.each u d hd
  · rw [hnone r₁ fun c hc hcu => hp (hcu ▸ h₁.kind c hc),
      hnone r₂ fun c hc hcu => hp (hcu ▸ h₂.kind c hc)]
    exact h₃.each u d hd

/-- The calls of some runs, one after another. -/
def Turns (s t : Store) :
    List (List Uri) → List (List (Phase × Uri)) → Prop :=
  List.Forall₂ fun us r =>
    ∀ project, (∀ u ∈ us, t.isProject u = project) → Turn us project s t r

/-- Runs that are not gone through call nothing. -/
theorem turns_none (s t : Store) (runs : List (List Uri)) :
    Turns s t runs (runs.map fun _ => []) := by
  induction runs with
  | nil => exact .nil
  | cons us runs ih => exact .cons (fun _ _ => turn_nil _ _ _ _) ih

variable {host}

/-- The calls of the runs that are still to come, seen from an earlier
store in which their documents stood where they stand now, once read. -/
theorem Course.turns {p q : Pass} {runs : List (List Uri)} {s t : Store}
    (h : Course host p runs q) (hnd : runs.flatten.Nodup)
    (hstage : ∀ u ∈ runs.flatten, ∀ d, s.get? u = some d →
      ∃ d', p.scene.store.get? u = some d'
        ∧ d'.reread.stage = d.reread.stage) :
    ∃ rs, q.scene.calls = p.scene.calls ++ rs.flatten.map Phase.call
      ∧ Turns s t runs rs := by
  induction h with
  | done => exact ⟨[], (List.append_nil _).symm, .nil⟩
  | @stopped p runs =>
    exact ⟨_, by simp, turns_none s t runs⟩
  | polled _ ih => exact ih hnd hstage
  | @read p q us runs _ _ ih =>
    obtain ⟨rs, hrs, hturns⟩ := ih hnd fun u hu d hd => by
      obtain ⟨d', hd', hsame⟩ := hstage u hu d hd
      rw [store_reread, Store.get?_alter, hd', ← hsame]
      refine ⟨_, rfl, ?_⟩
      split
      · rw [Document.reread_reread]
      · rfl
    exact ⟨rs, Scene.calls_reread host us p.scene ▸ hrs, hturns⟩
  | @run p q us runs hstarts _ _ ih =>
    obtain ⟨hus, hnd, hapart⟩ := List.nodup_append.1 hnd
    obtain ⟨r, hr, hperformed⟩ := runAll_calls host hus p
    obtain ⟨rs, hrs, hturns⟩ := ih hnd fun u hu d hd => by
      rw [(runAll_advance host us p).get?_of_not_mem
        fun h => hapart u h u hu rfl]
      exact hstage u (List.mem_append_right us hu) d hd
    refine ⟨r :: rs, ?_, .cons (fun project hkind => ?_) hturns⟩
    · rw [hrs, hr, List.append_assoc, ← List.map_append]
      rfl
    · exact (hperformed.turn hstarts.read hkind).back
        (List.Subset.refl us)
        fun u hu => hstage u (List.mem_append_left _ hu)
  | @broken p us runs hstarts _ =>
    obtain ⟨hus, -⟩ := List.nodup_append.1 hnd
    obtain ⟨r, hr, hperformed⟩ := runAll_calls host hus p
    refine ⟨r :: runs.map fun _ => [], ?_, .cons (fun project hkind => ?_)
      (turns_none s t runs)⟩
    · rw [hr]
      simp
    · exact (hperformed.turn hstarts.read hkind).back
        (List.Subset.refl us)
        fun u hu => hstage u (List.mem_append_left _ hu)

variable (host)

/-- The calls of a pass: on projects that it knew, on those that it has
found, and on the others. -/
theorem runSplit_calls {projects others : List Uri} {p : Pass}
    (hnd : (projects ++ others).Nodup)
    (hprojects : ∀ u ∈ projects, p.scene.store.isProject u = true)
    (hothers : ∀ u ∈ others, p.scene.store.isProject u = false) :
    let q := (runSplit host projects others p).scene
    ∃ r₁ r₂ r₃, q.calls = p.scene.calls ++ (r₁ ++ r₂ ++ r₃).map Phase.call
      ∧ Turn projects true p.scene.store q.store r₁
      ∧ Turn others true p.scene.store q.store r₂
      ∧ Turn (others ++ projects) false p.scene.store q.store r₃ := by
  obtain ⟨kept, found, rest, hdivided, hcourse⟩ :=
    runSplit_course host hnd hprojects hothers
  have hruns : [kept, found, rest].flatten.Nodup := by
    simpa using hdivided.perm.nodup_iff.2 hnd
  obtain ⟨rs, hcalls, hturns⟩ := hcourse.turns
    (t := (runSplit host projects others p).scene.store) hruns
    fun u _ d hd => ⟨d, hd, rfl⟩
  obtain - | ⟨h₁, - | ⟨h₂, - | ⟨h₃, ⟨⟩⟩⟩⟩ := hturns
  have hall := hdivided.perm.subset
  simp only [List.append_subset] at hall
  refine ⟨_, _, _, by simpa using hcalls,
    (h₁ true fun u hu => (hdivided.kept u hu).2).mono fun u hu => ?_,
    (h₂ true fun u hu => (hdivided.found u hu).2).mono fun u hu => ?_,
    (h₃ false hdivided.rest).mono fun u hu => ?_⟩
  · refine (List.mem_append.1 (hall.1.1 hu)).resolve_right fun h => ?_
    have hyes := (hdivided.kept u hu).1
    rw [hothers u h] at hyes
    cases hyes
  · refine (List.mem_append.1 (hall.1.2 hu)).resolve_left fun h => ?_
    have hno := (hdivided.found u hu).1
    rw [hprojects u h] at hno
    cases hno
  · exact List.perm_append_comm.subset (hall.2 hu)

end Pass

-- ========================================================== whole builds

/-- No touch takes the content away. -/
theorem Store.Touch.known {host : Host} {s : Store} {u : Uri}
    {d d' : Document} (h : s.Touch host u d d')
    (hd : d.content.isSome) : d'.content.isSome := by
  cases h with
  | renewed h =>
    cases h with
    | cleared => exact hd
    | read hstage =>
      rw [Document.reread_of_changed hstage]
      rfl
  | ended phase i _ => exact (d.forward_attempt host phase u _).known.trans hd

/-- A document that has been read and is no project has a body. -/
theorem Document.exists_body? {d : Document} (hd : d.content.isSome)
    (hproject : d.isProject = false) : ∃ b, d.body? = some b := by
  obtain ⟨c, hc⟩ := Option.isSome_iff_exists.1 hd
  cases c with
  | ordinary b => exact ⟨b, by rw [body?, hc]; rfl⟩
  | descriptor x =>
    rw [isProject, descriptor?, hc] at hproject
    cases hproject

namespace Phase

/-- Calls that repeat none on a single document repeat none. -/
theorem nodup_of_callsOn {r : List (Phase × Uri)}
    (h : ∀ u, (callsOn u r).Nodup) : r.Nodup := by
  rw [List.nodup_iff_count_le_one]
  rintro ⟨phase, u⟩
  calc r.count (phase, u)
      = (r.filter fun c => c.2 = u).count (phase, u) :=
        (List.count_filter (by simp)).symm
    _ ≤ (callsOn u r).count phase :=
        List.count_le_count_map (f := Prod.fst)
    _ ≤ 1 := List.nodup_iff_count_le_one.1 (h u) phase

end Phase

/-- No phase lies ahead twice. -/
theorem Stage.nodup_ahead (stage : Stage) :
    (stage.ahead Phase.all).Nodup :=
  List.Nodup.filter _ (by decide)

namespace Scene

variable (host : Host)

/-- The scene in which a pass starts has each document stand where it
stood, once read, and nothing is left unread in the batch. -/
theorem get?_opened {s : Scene} {us : List Uri} {u : Uri} {d : Document}
    (hd : s.store.get? u = some d) :
    ∃ d', (s.opened host us).store.get? u = some d'
      ∧ d'.reread.stage = d.reread.stage
      ∧ (u ∈ us → (d.stage ≠ .changed → d.content.isSome) →
        d'.content.isSome) := by
  unfold opened wiped
  rw [store_reread, Store.get?_alter, Store.get?_alter, hd]
  refine ⟨_, rfl, ?_, fun hu hread => ?_⟩
  · have hwiped : ∀ x : Document,
        x.clearFailures.reread.stage = x.reread.stage := fun x => by
      rw [Document.stage_reread, Document.stage_reread]
      rfl
    split_ifs
    · rw [Document.reread_reread, hwiped]
    · exact d.reread_reread ▸ rfl
    · exact hwiped d
    · rfl
  · dsimp only
    rw [if_pos hu]
    split
    · next hunread =>
      obtain ⟨-, hnone⟩ := List.mem_filter.1 hunread
      rw [hd, Option.any_some, Option.isNone_iff_eq_none] at hnone
      have hstage : d.clearFailures.stage = .changed := by
        by_contra hne
        simpa [hnone] using hread hne
      rw [Document.reread_of_changed hstage]
      rfl
    · next hunread =>
      have hknown := mt (fun h => List.mem_filter.2 ⟨hu, h⟩) hunread
      rw [hd, Option.any_some, Bool.not_eq_true,
        Option.isNone_eq_false_iff] at hknown
      exact hknown

/-- Whether a build knows a document to be a project when it starts its
first run: it was one, or if it has never been read before, it has been
read to be one. -/
def Knows (s : Scene) (batch : List Uri) (u : Uri) : Prop :=
  (s.opened host (s.store.unfinished batch)).store.isProject u = true

/-- The calls that a build makes behind reading, in the order of its three
runs: on projects that it knew, on projects that it has found, and on
ordinary documents. -/
structure InOrder (batch : List Uri) (s t : Scene)
    (r₁ r₂ r₃ : List (Phase × Uri)) : Prop where
  calls : t.calls = s.calls ++ (r₁ ++ r₂ ++ r₃).map Phase.call
  mem : ∀ c ∈ r₁ ++ r₂ ++ r₃, c.2 ∈ s.store.unfinished batch
  known : ∀ c ∈ r₁, s.Knows host batch c.2 ∧ t.store.isProject c.2 = true
  found : ∀ c ∈ r₂, ¬ s.Knows host batch c.2 ∧ t.store.isProject c.2 = true
  others : ∀ c ∈ r₃, t.store.isProject c.2 = false
  ordinary : ∀ c ∈ r₃, ∀ d, s.store.get? c.2 = some d →
    (d.stage ≠ .changed → d.content.isSome) →
    ∃ d' b, t.store.get? c.2 = some d' ∧ d'.body? = some b
  major : ∀ r ∈ [r₁, r₂, r₃],
    List.Pairwise (fun c c' => c.1.goal ≤ c'.1.goal) r
  once : (r₁ ++ r₂ ++ r₃).Nodup
  each : ∀ u d, s.store.get? u = some d →
    Phase.callsOn u (r₁ ++ r₂ ++ r₃) <+: d.reread.stage.ahead Phase.all

/-- Three runs stand in order if the first is on known projects, the
second on projects that were not known, and the third on no projects. -/
theorem inOrder_of_turns {s t : Scene} {batch projects others : List Uri}
    {r₁ r₂ r₃ : List (Phase × Uri)}
    (hcalls : t.calls = s.calls ++ (r₁ ++ r₂ ++ r₃).map Phase.call)
    (hprojects : ∀ u ∈ projects,
      u ∈ s.store.unfinished batch ∧ s.Knows host batch u)
    (hothers : ∀ u ∈ others,
      u ∈ s.store.unfinished batch ∧ ¬ s.Knows host batch u)
    (h₁ : Pass.Turn projects true s.store t.store r₁)
    (h₂ : Pass.Turn others true s.store t.store r₂)
    (h₃ : Pass.Turn (others ++ projects) false s.store t.store r₃)
    (hread : ∀ u ∈ s.store.unfinished batch, ∀ d,
      s.store.get? u = some d → (d.stage ≠ .changed → d.content.isSome) →
      ∃ d', t.store.get? u = some d' ∧ d'.content.isSome) :
    InOrder host batch s t r₁ r₂ r₃ := by
  have hmem : ∀ c ∈ r₁ ++ r₂ ++ r₃, c.2 ∈ s.store.unfinished batch := by
    have hthird := fun c hc => List.mem_append.1 (h₃.mem c hc)
    simp only [List.mem_append]
    rintro c ((hc | hc) | hc)
    · exact (hprojects _ (h₁.mem c hc)).1
    · exact (hothers _ (h₂.mem c hc)).1
    · exact (hthird c hc).elim (fun h => (hothers _ h).1)
        fun h => (hprojects _ h).1
  have heach := Pass.callsOn_turns (fun u hu => (hprojects u hu).2)
    (fun u hu => (hothers u hu).2) h₁ h₂ h₃
  refine ⟨hcalls, hmem, fun c hc => ⟨(hprojects _ (h₁.mem c hc)).2,
    h₁.kind c hc⟩, fun c hc => ⟨(hothers _ (h₂.mem c hc)).2,
    h₂.kind c hc⟩, h₃.kind, fun c hc d hd hknown => ?_, ?_, ?_, heach⟩
  · obtain ⟨d', hd', hcontent⟩ := hread c.2
      (hmem c (List.mem_append_right _ hc)) d hd hknown
    have hkind := h₃.kind c hc
    rw [Store.isProject_of_get? hd'] at hkind
    obtain ⟨b, hb⟩ := Document.exists_body? hcontent hkind
    exact ⟨d', b, hd', hb⟩
  · simp only [List.mem_cons, List.not_mem_nil, or_false]
    rintro r (rfl | rfl | rfl)
    · exact h₁.major
    · exact h₂.major
    · exact h₃.major
  · refine Phase.nodup_of_callsOn fun u => ?_
    cases hd : s.store.get? u with
    | some d =>
      exact (Stage.nodup_ahead _).sublist (heach u d hd).sublist
    | none =>
      rw [Phase.callsOn_of_not_mem fun c hc hcu => ?_]
      · exact List.nodup_nil
      · obtain ⟨-, d, hd', -⟩ := Store.mem_unfinished.1 (hmem c hc)
        rw [hcu, hd] at hd'
        cases hd'

/-- The calls of a build stand in order, from any scene and under any
host. -/
theorem calls_buildBatch (s : Scene) (batch : List Uri) :
    ∃ r₁ r₂ r₃,
      InOrder host batch s (s.buildBatch host batch).1 r₁ r₂ r₃ := by
  rw [buildBatch_eq]
  dsimp only
  split
  · next hnil =>
    rw [List.isEmpty_iff] at hnil
    refine ⟨[], [], [], inOrder_of_turns host
      (List.append_nil _).symm (List.forall_mem_nil _)
      (List.forall_mem_nil _) (Pass.turn_nil [] true _ _)
      (Pass.turn_nil [] true _ _) (Pass.turn_nil [] false _ _) ?_⟩
    rw [hnil]
    exact List.forall_mem_nil _
  have hget := fun u d => @get?_opened host s
    (s.store.unfinished batch) u d
  have hcalls : (s.opened host (s.store.unfinished batch)).calls
      = s.calls := calls_reread host _ _
  have hknows : ∀ u, s.Knows host batch u ↔
      (s.opened host (s.store.unfinished batch)).store.isProject u = true :=
    fun u => Iff.rfl
  have hnd := s.store.nodup_unfinished batch
  generalize s.opened host (s.store.unfinished batch) = t
    at hget hcalls hknows ⊢
  have hsplit := List.perm_append_comm.trans
    (List.filter_append_perm t.store.isProject (s.store.unfinished batch))
  obtain ⟨r₁, r₂, r₃, hr, h₁, h₂, h₃⟩ :=
    Pass.runSplit_calls host (p := ⟨t, .empty⟩)
      ((List.perm_append_comm.trans hsplit).nodup_iff.2 hnd)
      (fun u hu => (List.mem_filter.1 hu).2)
      (fun u hu => by simpa using (List.mem_filter.1 hu).2)
  have hback : ∀ {us project t' r}, Pass.Turn us project t.store t' r →
      Pass.Turn us project s.store t' r := fun hturn =>
    hturn.back (List.Subset.refl _) fun u _ d hd => by
      obtain ⟨d', hd', hsame, -⟩ := hget u d hd
      exact ⟨d', hd', hsame⟩
  refine ⟨r₁, r₂, r₃, inOrder_of_turns host (by rw [← hcalls]; exact hr)
    (fun u hu => ?_) (fun u hu => ?_) (hback h₁) (hback h₂) (hback h₃)
    fun u hu d hd hread => ?_⟩
  · rw [hknows]
    exact List.mem_filter.1 hu
  · rw [hknows]
    simpa using List.mem_filter.1 hu
  · obtain ⟨x, hx, -, hcontent⟩ := hget u d hd
    obtain ⟨hothers, hprojects⟩ := List.append_subset.1 hsplit.subset
    have htouches := (Pass.carries_touches host
      (s.store.unfinished batch)).runSplit host hprojects hothers
        ⟨t, .empty⟩
    obtain ⟨-, heach⟩ := Store.touches_each
      (R := fun d d' => d.content.isSome → d'.content.isSome)
      (fun _ h => h) (fun _ _ _ h h' hd => h' (h hd))
      (fun _ _ _ _ => Store.Touch.known) htouches
    obtain ⟨d', hd', hknown⟩ := heach u x hx
    exact ⟨d', hd', hknown (hcontent hu hread)⟩

end Scene

end Purview
