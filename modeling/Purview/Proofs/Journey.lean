/-
A pass, one document at a time. A pass takes documents through its
phases phase by phase, but what becomes of each of them is a matter of
its own: it goes through the phases until a step fails on it or its
owner is not ready (`Document.journey`), and all that it needs to know
of the others is whether the owner is ready and in which scope it is
linked (`Conditions`). A pass that is withdrawn leaves each document
somewhere on its journey (`runPhases_journey`).

A journey can be taken up again where it was broken off. Whoever was
still on the way goes on from there, and whoever had dropped out does
so again at the same step, provided that a failing step has done no
work (`journey_resume`, `journey_stuck`).
-/
import Purview.Proofs.Start
import Purview.Proofs.Touch

namespace Purview

/-- Failures imposed on steps. -/
abbrev Faults := Step → Uri → Option Fault

/-- Steps that fail have done none of their work. -/
def Faults.Upfront (faults : Faults) : Prop :=
  ∀ step u fault, faults step u = some fault → fault.after = false

/-- What a document meets on its way through the phases: the steps that
are made to fail, whether its owner is ready for it to be linked, and
the scope in which it is. -/
structure Conditions where
  faults : Faults
  ready : Bool
  scope : LinkScope

namespace Document

variable {c c' : Conditions} {u : Uri} {d : Document} {phase : Phase}
  {phases later : List Phase}

-- ============================================================ one phase

/-- What a phase makes of a document, and whether the document goes on
to the next. -/
def taken (c : Conditions) (u : Uri) (phase : Phase) (d : Document) :
    Document × Bool :=
  if phase.goal ≤ d.stage then (d, true)
  else if phase = .link ∧ c.ready = false then (d, false)
  else
    let attempt := Host.attempt ⟨c.faults, none⟩ phase.step u
      (phase.work u c.scope d)
    (d.ended phase attempt, attempt.error?.isNone)

theorem taken_past (h : phase.goal ≤ d.stage) :
    d.taken c u phase = (d, true) := if_pos h

theorem forward_taken (c : Conditions) (u : Uri) (phase : Phase)
    (d : Document) : d.Forward (d.taken c u phase).1 := by
  unfold taken
  split_ifs
  · exact .refl d
  · exact .refl d
  · exact forward_ended fun _ hx =>
      forward_work (Scene.result?_attempt _ hx)

/-- Whoever goes on has reached the goal. -/
theorem goal_le_taken (h : (d.taken c u phase).2 = true) :
    phase.goal ≤ (d.taken c u phase).1.stage := by
  unfold taken at h ⊢
  split_ifs at h ⊢ with hgoal
  · exact hgoal
  · dsimp only at h ⊢
    generalize Host.attempt _ _ _ _ = attempt at h ⊢
    cases attempt with
    | succeeded x => exact x.le_stage_of_advance phase.goal
    | failedBefore error => cases h
    | failedAfter x error => cases h

/-- Names are only offered by indexing. -/
theorem offered_work {scope : LinkScope} {x : Document}
    (hphase : phase ≠ .index) (h : phase.work u scope d = .ok x) :
    x.offered = d.offered := by
  obtain ⟨-, rfl⟩ := Phase.work_eq_ok h
  exact if_neg hphase

theorem offered_taken (hphase : phase ≠ .index) :
    (d.taken c u phase).1.offered = d.offered := by
  unfold taken
  split_ifs
  · rfl
  · rfl
  · have hwork : ∀ x, (Host.attempt ⟨c.faults, none⟩ phase.step u
        (phase.work u c.scope d)).result? = some x →
        x.offered = d.offered := fun x hx =>
      offered_work hphase (Scene.result?_attempt _ hx)
    dsimp only
    generalize Host.attempt _ _ _ _ = attempt at hwork ⊢
    cases attempt with
    | succeeded x =>
      show (x.advance phase.goal).offered = _
      unfold advance
      split <;> exact hwork x rfl
    | failedBefore error => rfl
    | failedAfter x error =>
      show ((if phase = .index then d else x).report _).offered = _
      rw [if_neg hphase]
      exact hwork x rfl

/-- The first phases need neither an owner nor a scope. -/
theorem taken_congr (hfaults : c'.faults = c.faults)
    (hphase : phase.needsScope = false) :
    d.taken c' u phase = d.taken c u phase := by
  unfold taken
  rw [hfaults]
  cases phase with
  | index => rfl
  | scope => rfl
  | link => cases hphase
  | validate => cases hphase

-- =========================================================== a journey

/-- A document on its way through some phases, and whether it is still
on the way behind them. -/
def journey (c : Conditions) (u : Uri) :
    List Phase → Document → Document × Bool
  | [], d => (d, true)
  | phase :: phases, d =>
    let r := d.taken c u phase
    if r.2 then journey c u phases r.1 else r

theorem journey_singleton (c : Conditions) (u : Uri) (phase : Phase)
    (d : Document) : d.journey c u [phase] = d.taken c u phase := by
  rw [journey]
  split
  · next h => exact Prod.ext rfl h.symm
  · rfl

theorem journey_append (c : Conditions) (u : Uri)
    (phases later : List Phase) (d : Document) :
    d.journey c u (phases ++ later) =
      if (d.journey c u phases).2 then
        (d.journey c u phases).1.journey c u later
      else d.journey c u phases := by
  induction phases generalizing d with
  | nil => rfl
  | cons phase phases ih =>
    rw [List.cons_append, journey, journey]
    split
    · exact ih _
    · rfl

/-- Whoever is still on the way is taken through the next phase. -/
theorem journey_concat_of_on (h : (d.journey c u phases).2 = true)
    (phase : Phase) :
    d.journey c u (phases ++ [phase])
      = (d.journey c u phases).1.taken c u phase := by
  rw [journey_append, if_pos h, journey_singleton]

/-- Whoever has dropped out stays where it is. -/
theorem journey_concat_of_off (h : (d.journey c u phases).2 ≠ true)
    (phase : Phase) :
    d.journey c u (phases ++ [phase]) = d.journey c u phases := by
  rw [journey_append, if_neg h]

theorem forward_journey (c : Conditions) (u : Uri)
    (phases : List Phase) (d : Document) :
    d.Forward (d.journey c u phases).1 := by
  induction phases generalizing d with
  | nil => exact .refl d
  | cons phase phases ih =>
    have hone := forward_taken c u phase d
    rw [journey]
    split
    · exact hone.trans (ih _)
    · exact hone

/-- Whoever is still on the way is past every phase of it. -/
theorem goal_le_journey (h : (d.journey c u phases).2 = true) :
    ∀ phase ∈ phases,
      phase.goal ≤ (d.journey c u phases).1.stage := by
  induction phases generalizing d with
  | nil => exact fun _ hphase => nomatch hphase
  | cons phase phases ih =>
    rw [journey] at h ⊢
    split at h
    · next hon =>
      rw [if_pos hon]
      intro x hx
      rcases List.mem_cons.1 hx with rfl | hx
      · exact Nat.le_trans (goal_le_taken hon)
          (forward_journey c u phases _).stage
      · exact ih h x hx
    · next hoff => exact absurd h hoff

/-- Phases that a document is past are nothing to it. -/
theorem journey_past (h : ∀ phase ∈ phases, phase.goal ≤ d.stage) :
    d.journey c u (phases ++ later) = d.journey c u later := by
  induction phases with
  | nil => rfl
  | cons phase phases ih =>
    rw [List.cons_append, journey,
      taken_past (h phase List.mem_cons_self)]
    exact ih fun x hx => h x (List.mem_cons_of_mem phase hx)

/-- Nobody offers other names once indexing is over. -/
theorem offered_journey (h : Phase.index ∉ phases) :
    (d.journey c u phases).1.offered = d.offered := by
  induction phases generalizing d with
  | nil => rfl
  | cons phase phases ih =>
    obtain ⟨hphase, hrest⟩ := not_or.1 (mt List.mem_cons.2 h)
    have hone := offered_taken (c := c) (u := u) (d := d) (Ne.symm hphase)
    rw [journey]
    split
    · exact (ih hrest).trans hone
    · exact hone

/-- What a document offers is settled by indexing. -/
theorem offered_journey_index (h : Phase.index ∉ phases) :
    (d.journey c u (.index :: phases)).1.offered
      = (d.taken c u .index).1.offered := by
  rw [journey]
  split
  · exact offered_journey h
  · rfl

-- ============================================================ resuming

theorem clearFailures_eq_self :
    d.clearFailures = d ↔ ∀ x ∈ d.diagnostics, x.origin ≠ .build := by
  constructor
  · intro hd x hx
    rw [← hd] at hx
    exact of_decide_eq_true (List.mem_filter.1 hx).2
  · intro hd
    unfold clearFailures
    rw [List.filter_eq_self.2 fun x hx => decide_eq_true (hd x hx)]

/-- What a phase has to say is not what a failed step leaves. -/
theorem origin_findings (phase : Phase) (scope : LinkScope) (c : Content) :
    ∀ x ∈ phase.findings scope c, x.origin ≠ .build := by
  intro x hx
  cases phase with
  | index | scope => cases hx
  | link =>
    cases c with
    | descriptor y => cases hx
    | ordinary b =>
      obtain ⟨r, -, rfl⟩ := List.mem_map.1 hx
      exact Origin.noConfusion
  | validate =>
    rw [origin_complaints c scope x hx]
    exact Origin.noConfusion

/-- The work of a step leaves nothing that a failed step would. -/
theorem clearFailures_work {scope : LinkScope} {x : Document}
    (hd : d.clearFailures = d) (h : phase.work u scope d = .ok x) :
    x.clearFailures = x := by
  rw [clearFailures_eq_self] at hd ⊢
  obtain ⟨hlack, rfl⟩ := Phase.work_eq_ok h
  intro z hz
  rcases List.mem_append.1 hz with hz | hz
  · exact hd z hz
  · cases hcontent : d.content with
    | none =>
      rw [hcontent] at hz
      cases hz
    | some c =>
      rw [hcontent] at hz
      exact origin_findings phase scope _ z hz

/-- What a failed step leaves is all that is wiped. -/
theorem clearFailures_report (hd : d.clearFailures = d) (phase : Phase)
    (error : StepError) :
    (d.report (Pass.stepFailure phase error)).clearFailures = d := by
  show { d with diagnostics := (d.diagnostics
    ++ [Pass.stepFailure phase error]).filter _ } = d
  rw [List.filter_append, List.filter_cons_of_neg (by
    simp [Pass.stepFailure, Diagnostic.atStart]), List.filter_nil,
    List.append_nil]
  exact hd

theorem clearFailures_advance {stage : Stage} (hd : d.clearFailures = d) :
    (d.advance stage).clearFailures = d.advance stage := by
  unfold advance
  split
  · exact congrArg (fun x : Document => { x with stage := stage }) hd
  · exact hd

theorem clearFailures_clearFailures (d : Document) :
    d.clearFailures.clearFailures = d.clearFailures := by
  unfold clearFailures
  rw [List.filter_filter]
  simp only [Bool.and_self]

/-- Neither does reading leave anything. -/
theorem clearFailures_reread (hd : d.clearFailures = d) :
    d.reread.clearFailures = d.reread := by
  unfold reread
  split
  · refine clearFailures_advance (clearFailures_eq_self.2 fun x hx => ?_)
    obtain ⟨issue, span, rfl⟩ := Content.issues_ofText _ x hx
    exact Origin.noConfusion
  · exact hd

theorem clearFailures_taken (hd : d.clearFailures = d)
    (h : (d.taken c u phase).2 = true) :
    (d.taken c u phase).1.clearFailures = (d.taken c u phase).1 := by
  unfold taken at h ⊢
  split_ifs at h ⊢ with hgoal
  · exact hd
  · have hwork : ∀ x, (Host.attempt ⟨c.faults, none⟩ phase.step u
        (phase.work u c.scope d)).result? = some x →
        x.clearFailures = x := fun x hx =>
      clearFailures_work hd (Scene.result?_attempt _ hx)
    dsimp only at h ⊢
    generalize Host.attempt _ _ _ _ = attempt at h hwork ⊢
    cases attempt with
    | succeeded x => exact clearFailures_advance (hwork x rfl)
    | failedBefore error => cases h
    | failedAfter x error => cases h

theorem clearFailures_journey (hd : d.clearFailures = d)
    (h : (d.journey c u phases).2 = true) :
    (d.journey c u phases).1.clearFailures
      = (d.journey c u phases).1 := by
  induction phases generalizing d with
  | nil => exact hd
  | cons phase phases ih =>
    rw [journey] at h ⊢
    split at h
    · next hon =>
      rw [if_pos hon]
      exact ih (clearFailures_taken hd hon) h
    · next hoff => exact absurd h hoff

/-- Whether work can be done does not hang on the scope. -/
theorem work_error_congr {scope : LinkScope} {error : StepError}
    (h : phase.work u scope d = .error error) (scope' : LinkScope) :
    phase.work u scope' d = .error error := by
  rw [Phase.work_eq] at h ⊢
  cases hlack : phase.lack? u d with
  | none =>
    rw [hlack] at h
    cases h
  | some lack =>
    rw [hlack] at h
    exact h

/-- A step that fails before its work does so in any scope. -/
theorem attempt_failed {faults : Faults} (hup : faults.Upfront)
    {scope : LinkScope} {step : Step}
    (h : (Host.attempt ⟨faults, none⟩ step u
      (phase.work u scope d)).error?.isNone = false) :
    ∃ error, ∀ scope', Host.attempt ⟨faults, none⟩ step u
      (phase.work u scope' d) = .failedBefore error := by
  unfold Host.attempt at h ⊢
  dsimp only at h ⊢
  cases hfault : faults step u with
  | none =>
    rw [hfault] at h
    cases hwork : phase.work u scope d with
    | ok x =>
      rw [hwork] at h
      cases h
    | error error =>
      refine ⟨error, fun scope' => ?_⟩
      rw [work_error_congr hwork scope']
  | some fault =>
    obtain ⟨after, error⟩ := fault
    obtain rfl : after = false := hup step u _ hfault
    exact ⟨error, fun _ => rfl⟩

/-- Whoever drops out is left as he was but for what a failed step
leaves, and would drop out in any other scope. -/
theorem taken_dropped (hup : c.faults.Upfront) (hd : d.clearFailures = d)
    (h : (d.taken c u phase).2 = false) :
    (d.taken c u phase).1.clearFailures = d
      ∧ ∀ scope, d.taken { c with scope := scope } u phase
        = d.taken c u phase := by
  unfold taken at h ⊢
  split_ifs at h ⊢ with hgoal hready
  · exact ⟨hd, fun _ => rfl⟩
  · dsimp only at h ⊢
    obtain ⟨error, herror⟩ := attempt_failed hup h
    refine ⟨?_, fun scope => ?_⟩
    · rw [herror]
      exact clearFailures_report hd phase error
    · rw [herror, herror]

/-- A document that has dropped out drops out again at the same step, in
whichever scope it is taken up again. -/
theorem journey_stuck (hup : c.faults.Upfront) (hd : d.clearFailures = d)
    (h : (d.journey c u phases).2 = false) (scope : LinkScope)
    (later : List Phase) :
    (d.journey c u phases).1.clearFailures.journey
      { c with scope := scope } u (phases ++ later)
        = d.journey c u phases := by
  induction phases generalizing d with
  | nil => cases h
  | cons phase phases ih =>
    cases hon : (d.taken c u phase).2 with
    | true =>
      have hjourney : d.journey c u (phase :: phases)
          = (d.taken c u phase).1.journey c u phases := by
        rw [journey]
        exact if_pos hon
      rw [hjourney] at h ⊢
      have hgoal : phase.goal ≤ ((d.taken c u phase).1.journey c u
          phases).1.clearFailures.stage :=
        Nat.le_trans (goal_le_taken hon)
          (forward_journey c u phases _).stage
      rw [List.cons_append, journey, taken_past hgoal]
      exact ih (clearFailures_taken hd hon) h
    | false =>
      have hjourney : d.journey c u (phase :: phases)
          = d.taken c u phase := by
        rw [journey]
        exact if_neg (by simp [hon])
      obtain ⟨hclear, hscope⟩ := taken_dropped hup hd hon
      rw [hjourney, hclear, List.cons_append, journey, hscope]
      exact if_neg (by simp [hon])

/-- A journey that is taken up again where it was broken off ends where
it would have ended. -/
theorem journey_resume (hup : c.faults.Upfront) (hd : d.clearFailures = d)
    (hphases : phases <+: later) :
    (d.journey c u phases).1.clearFailures.journey c u later
      = d.journey c u later := by
  obtain ⟨rest, rfl⟩ := hphases
  cases hon : (d.journey c u phases).2 with
  | true =>
    rw [clearFailures_journey hd hon, journey_past (goal_le_journey hon),
      journey_append, if_pos hon]
  | false =>
    have hlater : d.journey c u (phases ++ rest) = d.journey c u phases := by
      rw [journey_append, if_neg (by simp [hon])]
    rw [hlater]
    exact journey_stuck hup hd hon c.scope rest

end Document

-- ============================================================== a phase

namespace Scene

variable (host : Host)

/-- What a document meets in a scene. -/
def conditions (s : Scene) (phase : Phase) (u : Uri) : Conditions :=
  ⟨host.fault?, s.ownerReady u, phase.handed s.index s.store u⟩

/-- Ending a phase on a document takes it through the phase. -/
theorem close_taken {s : Scene} (phase : Phase) {u : Uri} {d : Document}
    (hd : s.store.get? u = some d) :
    let r := d.taken (s.conditions host phase u) u phase
    (s.close host phase u).store = s.store.modify u (fun _ => r.1)
      ∧ ((s.carry host phase u).2 = .advanced ↔ r.2 = true) := by
  have hself := (Store.modify_self hd).symm
  unfold Document.taken conditions
  dsimp only
  by_cases hgoal : phase.goal ≤ d.stage
  · rw [if_pos hgoal, close_past host hd hgoal, carry_past host hd hgoal]
    exact ⟨hself, iff_of_true rfl rfl⟩
  rw [if_neg hgoal]
  by_cases hready : phase = .link ∧ ¬ s.ownerReady u
  · rw [if_pos (show phase = .link ∧ s.ownerReady u = false by
      simpa using hready), close_deferred host hd hgoal hready]
    refine ⟨hself, iff_of_false ?_ Bool.false_ne_true⟩
    unfold carry
    simp only [hd, if_neg hgoal, if_pos hready]
    exact Outcome.noConfusion
  · rw [if_neg (show ¬ (phase = .link ∧ s.ownerReady u = false) by
      simpa using hready)]
    obtain ⟨hstore, hcarry⟩ := close_of_call host hd hgoal hready
    refine ⟨hstore, ?_⟩
    show _ ↔ (host.attempt phase.step u (phase.work u
      (phase.handed s.index s.store u) d)).error?.isNone = true
    rw [hcarry]
    cases Attempt.error? _ with
    | none => exact iff_of_true rfl rfl
    | some error => exact iff_of_false Outcome.noConfusion Bool.noConfusion

end Scene

namespace Pass

variable (host : Host)

open Scene (Advance)

/-- A phase takes the documents of a run through it, each under its own
conditions. If it is withdrawn, it leaves some of them where they were. -/
theorem runPhase_taken (phase : Phase) {us : List Uri} (hnd : us.Nodup)
    {p : Pass} {y : Uri → Document} {c : Uri → Conditions}
    (hy : ∀ v ∈ us, p.scene.store.get? v = some (y v))
    (hstep : ∀ s, Advance us p.scene s →
      (∀ v ∈ us, s.store.get? v = some (y v)
        ∨ s.store.get? v = some ((y v).taken (c v) v phase).1) →
      ∀ u ∈ us, (y u).taken (s.conditions host phase u) u phase
        = (y u).taken (c u) u phase) :
    let r := runPhase host phase us p
    (∀ v ∈ us, r.1.scene.store.get? v = some (y v)
        ∨ r.1.scene.store.get? v = some ((y v).taken (c v) v phase).1)
      ∧ ∀ active, r.2 = some active →
        active = us.filter (fun v => ((y v).taken (c v) v phase).2)
          ∧ ∀ v ∈ us, r.1.scene.store.get? v
            = some ((y v).taken (c v) v phase).1 := by
  induction us generalizing p with
  | nil =>
    refine ⟨fun v hv => (List.not_mem_nil hv).elim, fun active h => ?_⟩
    cases h
    exact ⟨rfl, fun v hv => (List.not_mem_nil hv).elim⟩
  | cons u us ih =>
    obtain ⟨hu, hnd⟩ := List.nodup_cons.1 hnd
    cases hgo : p.poll.report.cancelled with
    | true =>
      rw [runPhase]
      simp only [hgo, if_true]
      exact ⟨fun v hv => .inl (hy v hv), fun _ h => by cases h⟩
    | false =>
      obtain ⟨r, -, hr⟩ := runPhase_cons host phase u us p hgo
      obtain ⟨hclose, hcarry⟩ :=
        Scene.close_taken host phase (hy u List.mem_cons_self)
      rw [hstep p.scene (.refl _ _) (fun v hv => .inl (hy v hv)) u
        List.mem_cons_self] at hclose hcarry
      have hadv : Advance (u :: us) p.scene (p.scene.close host phase u) :=
        p.scene.close_advance host phase List.mem_cons_self
      have hget : ∀ v, (p.scene.close host phase u).store.get? v
          = if v = u then some ((y u).taken (c u) u phase).1
            else p.scene.store.get? v := fun v => by
        rw [hclose, Store.get?_modify_const (hy u List.mem_cons_self)]
      have hne : ∀ v ∈ us, v ≠ u := fun v hv h => hu (h ▸ hv)
      -- The rest of the run finds the document at hand taken.
      obtain ⟨hsome, hall⟩ := ih hnd (p := ⟨p.scene.close host phase u, r⟩)
        (fun v hv => by
          rw [hget, if_neg (hne v hv)]
          exact hy v (List.mem_cons_of_mem u hv))
        (fun s hs hdocs v hv => hstep s
          (hadv.trans (hs.mono (List.subset_cons_self u us)))
          (fun w hw => by
            rcases List.mem_cons.1 hw with rfl | hw
            · right
              rw [hs.get?_of_not_mem hu, hget, if_pos rfl]
            · exact hdocs w hw) v (List.mem_cons_of_mem u hv))
      have hhead : (runPhase host phase us
          ⟨p.scene.close host phase u, r⟩).1.scene.store.get? u
          = some ((y u).taken (c u) u phase).1 := by
        rw [(runPhase_advance host phase us (List.Subset.refl us)
          ⟨p.scene.close host phase u, r⟩).get?_of_not_mem hu, hget,
          if_pos rfl]
      rw [hr]
      refine ⟨fun v hv => ?_, fun active hactive => ?_⟩
      · rcases List.mem_cons.1 hv with rfl | hv
        · exact .inr hhead
        · exact hsome v hv
      · dsimp only at hactive
        obtain ⟨rest, hrest, rfl⟩ := active_cons hactive
        obtain ⟨rfl, hdone⟩ := hall rest hrest
        refine ⟨?_, fun v hv => ?_⟩
        · rw [List.filter_cons]
          exact if_congr hcarry rfl rfl
        · rcases List.mem_cons.1 hv with rfl | hv
          · exact hhead
          · exact hdone v hv

-- =============================================================== a run

section Run

variable {vs : List Uri} {x : Uri → Document} {c : Uri → Conditions}
  {done : List Phase} {phase : Phase}

/-- Who of a run is still on the way behind some phases. -/
def underway (vs : List Uri) (x : Uri → Document) (c : Uri → Conditions)
    (done : List Phase) : List Uri :=
  vs.filter fun v => ((x v).journey (c v) v done).2

theorem mem_underway {v : Uri} : v ∈ underway vs x c done ↔
    v ∈ vs ∧ ((x v).journey (c v) v done).2 = true := List.mem_filter

/-- Who goes through a phase was on the way to it. -/
theorem underway_concat : underway vs x c (done ++ [phase])
    = (underway vs x c done).filter fun v =>
      (((x v).journey (c v) v done).1.taken (c v) v phase).2 := by
  unfold underway
  rw [List.filter_filter]
  refine List.filter_congr fun v _ => ?_
  cases hon : ((x v).journey (c v) v done).2 with
  | true => rw [Document.journey_concat_of_on hon, Bool.and_true]
  | false =>
    rw [Document.journey_concat_of_off (by simp [hon]), hon,
      Bool.and_false]

/-- A document of a run stands on its journey behind some phases, or
one phase further. -/
def Between (x : Uri → Document) (c : Uri → Conditions)
    (done : List Phase) (phase : Phase) (s : Store) (v : Uri) : Prop :=
  ∃ l, (l = done ∨ l = done ++ [phase])
    ∧ s.get? v = some ((x v).journey (c v) v l).1

/-- Where a phase leaves those who are on the way to it says where it
leaves all of the run. -/
theorem between_of_underway {s s' : Scene}
    (hx : ∀ v ∈ vs, s.store.get? v
      = some ((x v).journey (c v) v done).1)
    (hadv : Advance (underway vs x c done) s s')
    (hdocs : ∀ v ∈ underway vs x c done,
      s'.store.get? v = some ((x v).journey (c v) v done).1
        ∨ s'.store.get? v
          = some (((x v).journey (c v) v done).1.taken (c v) v phase).1) :
    ∀ v ∈ vs, Between x c done phase s'.store v := by
  intro v hv
  by_cases hon : v ∈ underway vs x c done
  · rcases hdocs v hon with h | h
    · exact ⟨done, .inl rfl, h⟩
    · rw [← Document.journey_concat_of_on (mem_underway.1 hon).2] at h
      exact ⟨done ++ [phase], .inr rfl, h⟩
  · exact ⟨done, .inl rfl, (hadv.get?_of_not_mem hon).trans (hx v hv)⟩

/-- A phase takes the documents of a run that are still on the way one
phase further. If it is withdrawn, it leaves some of them where they
were. -/
theorem runPhase_journey (hnd : vs.Nodup) {p : Pass}
    (hx : ∀ v ∈ vs, p.scene.store.get? v
      = some ((x v).journey (c v) v done).1)
    (hstep : ∀ s, Advance vs p.scene s →
      (∀ v ∈ vs, Between x c done phase s.store v) →
      ∀ u ∈ vs, ∀ d : Document,
        d.taken (s.conditions host phase u) u phase
          = d.taken (c u) u phase) :
    let r := runPhase host phase (underway vs x c done) p
    (∀ v ∈ vs, Between x c done phase r.1.scene.store v)
      ∧ ∀ active, r.2 = some active →
        active = underway vs x c (done ++ [phase])
          ∧ ∀ v ∈ vs, r.1.scene.store.get? v
            = some ((x v).journey (c v) v (done ++ [phase])).1 := by
  have hsub : underway vs x c done ⊆ vs :=
    fun v hv => (mem_underway.1 hv).1
  have hadv := runPhase_advance host phase _
    (List.Subset.refl (underway vs x c done)) p
  obtain ⟨hsome, hall⟩ := runPhase_taken host phase
    (hnd.filter _ : (underway vs x c done).Nodup) (p := p)
    (y := fun v => ((x v).journey (c v) v done).1) (c := c)
    (fun v hv => hx v (hsub hv))
    (fun s hs hdocs u hu => hstep s (hs.mono hsub)
      (between_of_underway hx hs hdocs) u (hsub hu) _)
  refine ⟨between_of_underway hx hadv hsome, fun active hactive => ?_⟩
  obtain ⟨rfl, htaken⟩ := hall active hactive
  refine ⟨underway_concat.symm, fun v hv => ?_⟩
  by_cases hon : v ∈ underway vs x c done
  · rw [Document.journey_concat_of_on (mem_underway.1 hon).2]
    exact htaken v hon
  · rw [hadv.get?_of_not_mem hon, hx v hv, Document.journey_concat_of_off
      fun h => hon (mem_underway.2 ⟨hv, h⟩)]

/-- Phases take the documents of a run on their journeys, provided that
what each of them meets on the way is what it is said to meet. -/
theorem runPhases_journey (hnd : vs.Nodup) {s₀ : Scene}
    {phases : List Phase}
    (hstep : ∀ done phase rest, phases = done ++ phase :: rest →
      ∀ s, Advance vs s₀ s →
        (∀ v ∈ vs, Between x c done phase s.store v) →
        ∀ u ∈ vs, ∀ d : Document,
          d.taken (s.conditions host phase u) u phase
            = d.taken (c u) u phase)
    {todo : List Phase} (hphases : phases = done ++ todo) {p : Pass}
    (hadv : Advance vs s₀ p.scene)
    (hx : ∀ v ∈ vs, p.scene.store.get? v
      = some ((x v).journey (c v) v done).1) :
    let q := runPhases host todo (underway vs x c done) p
    ∀ v ∈ vs, ∃ l, l <+: phases ∧ (q.2 = true → l = phases)
      ∧ q.1.scene.store.get? v = some ((x v).journey (c v) v l).1 := by
  induction todo generalizing done p with
  | nil =>
    rw [List.append_nil] at hphases
    exact fun v hv => ⟨phases, List.prefix_rfl, fun _ => rfl,
      hphases ▸ hx v hv⟩
  | cons phase todo ih =>
    have hdone : done <+: phases := ⟨_, hphases.symm⟩
    have hone : done ++ [phase] <+: phases :=
      ⟨todo, by rw [hphases, List.append_assoc, List.singleton_append]⟩
    unfold runPhases
    dsimp only
    split
    · exact fun v hv => ⟨done, hdone, (absurd · Bool.false_ne_true), hx v hv⟩
    have hphase := runPhase_advance host phase _
      (List.Subset.refl (underway vs x c done)) p.poll
    obtain ⟨hbetween, hall⟩ := runPhase_journey host hnd (p := p.poll) hx
      fun s hs => hstep done phase todo hphases s (hadv.trans hs)
    generalize runPhase host phase (underway vs x c done) p.poll = r at *
    obtain ⟨q, next⟩ := r
    cases next with
    | none =>
      intro v hv
      obtain ⟨l, hl, hget⟩ := hbetween v hv
      exact ⟨l, hl.elim (· ▸ hdone) (· ▸ hone),
        (absurd · Bool.false_ne_true), hget⟩
    | some next =>
      obtain ⟨rfl, hnow⟩ := hall next rfl
      exact ih (by rw [hphases, List.append_assoc]; rfl)
        (hadv.trans (hphase.mono fun v hv => (mem_underway.1 hv).1)) hnow

end Run

end Pass

end Purview
