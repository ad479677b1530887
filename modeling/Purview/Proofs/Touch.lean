/-
A build as a chain of touches. Whatever its host does, a build changes
the documents one at a time and in place, and there are only two ways
in which it does so (`Store.Touch`): it drops what failed steps left
behind or reads a text that has changed (`Document.Renewed`), and it
ends a phase on a document that stands right below the goal of the
phase (`Document.ended`), with the work done, undone, or done and lost.

That a document stands right below the goal is checked nowhere: it
holds because phases follow one another, and whoever drops out of one
is not in the next (`runPhase_reached`). With it whatever every touch
keeps is kept by every build (`build_touches`), and nothing about
passes, runs or hosts has to be said again. The one fact of order that
is kept is that a build reads all pending projects before it ends any
phase (`Store.ProjectsRead`).
-/
import Purview.Proofs.Build

namespace Purview

open Relation (ReflTransGen)

-- ========================================================= one document

/-- The stage from which a phase takes a document. -/
def Phase.base : Phase → Stage
  | index => .parsed
  | scope => .indexed
  | link => .surveyed
  | validate => .linked

/-- The scope that a phase hands to its step, going by an index. -/
def Phase.handed (phase : Phase) (i : Index) (s : Store) (u : Uri) :
    LinkScope :=
  if phase.needsScope then (i.linkScope s u).2 else .empty

/-- Who has come as far as a phase starts and not as far as it goes
stands where it starts. -/
theorem Phase.eq_base {phase : Phase} {stage : Stage}
    (hbase : phase.base ≤ stage) (hgoal : ¬ phase.goal ≤ stage) :
    stage = phase.base := by
  cases phase <;> cases stage <;>
    simp [base, goal, Stage.le_def, Stage.rank] at hbase hgoal ⊢

theorem Stage.parsed_le {stage : Stage} :
    Stage.parsed ≤ stage ↔ stage ≠ .changed := by
  cases stage <;> simp [Stage.le_def, Stage.rank]

/-- Whether each of some phases starts where the one before it goes, and
the first at a given stage. -/
def Phase.Follow : Stage → List Phase → Prop
  | _, [] => True
  | stage, phase :: phases => phase.base = stage ∧ Follow phase.goal phases

/-- Phases that follow one another do so wherever they are broken off. -/
theorem Phase.Follow.of_append {stage : Stage} {phases rest : List Phase}
    (h : Follow stage (phases ++ rest)) : Follow stage phases := by
  induction phases generalizing stage with
  | nil => trivial
  | cons phase phases ih => exact ⟨h.1, ih h.2⟩

theorem Phase.follow_all : Follow .parsed Phase.all :=
  ⟨rfl, rfl, rfl, rfl, trivial⟩

namespace Document

/-- What a build does to a document other than ending a phase on it. -/
inductive Renewed (d : Document) : Document → Prop where
  | cleared : Renewed d d.clearFailures
  | read (h : d.stage = .changed) : Renewed d d.reread

/-- A document on which a phase has been ended. -/
def ended (d : Document) (phase : Phase) : Attempt Document → Document
  | .succeeded x => x.advance phase.goal
  | .failedBefore error => d.report (Pass.stepFailure phase error)
  | .failedAfter x error =>
    (if phase = .index then d else x).report
      (Pass.stepFailure phase error)

/-- A text that has to be read makes a new document. -/
theorem reread_of_changed {d : Document} (h : d.stage = .changed) :
    d.reread = d.fresh := by
  unfold reread fresh advance
  rw [if_pos h, if_pos]
  show d.stage < .parsed
  rw [h]
  decide

theorem Renewed.alike {d d' : Document} (h : d.Renewed d') :
    d.Alike d' := by
  cases h with
  | cleared => exact ⟨rfl, rfl, rfl⟩
  | read _ => exact d.alike_reread

theorem Forward.alike {d d' : Document} (h : d.Forward d') :
    d.Alike d' :=
  ⟨h.text, h.version, h.builtin⟩

theorem Alike.trans {a b c : Document} (h : a.Alike b) (h' : b.Alike c) :
    a.Alike c :=
  ⟨h'.text.trans h.text, h'.version.trans h.version,
    h'.builtin.trans h.builtin⟩

/-- Who moves on to a stage gets there. -/
theorem le_stage_of_advance (d : Document) (stage : Stage) :
    stage ≤ (d.advance stage).stage := by
  unfold advance
  split
  · exact Nat.le_refl _
  · next h => exact Nat.not_lt.1 h

/-- Ending a phase is a move forward. -/
theorem forward_ended {d : Document} {phase : Phase}
    {attempt : Attempt Document}
    (h : ∀ x, attempt.result? = some x → d.Forward x) :
    d.Forward (d.ended phase attempt) := by
  cases attempt with
  | succeeded x => exact (h x rfl).trans (x.forward_advance phase.goal)
  | failedBefore error => exact d.forward_report _
  | failedAfter x error =>
    show d.Forward ((if phase = .index then d else x).report _)
    split
    · exact d.forward_report _
    · exact (h x rfl).trans (x.forward_report _)

/-- Ending a phase is a move forward, whatever the host does. -/
theorem forward_attempt (host : Host) (d : Document) (phase : Phase)
    (u : Uri) (scope : LinkScope) :
    d.Forward (d.ended phase (host.attempt phase.step u
      (phase.work u scope d))) :=
  forward_ended fun _ hx => forward_work (Scene.result?_attempt host hx)

end Document

-- ============================================================ one touch

namespace Store

/-- A change to a document that is not loaded. -/
theorem modify_of_none {s : Store} {u : Uri} (h : s.get? u = none)
    (f : Document → Document) : s.modify u f = s := by
  rw [modify_eq_alter]
  refine alter_id fun v d hd => if_neg ?_
  rintro rfl
  rw [h] at hd
  cases hd

/-- A change to a loaded document, by what becomes of it. -/
theorem modify_of_some {s : Store} {u : Uri} {d : Document}
    (h : s.get? u = some d) (f : Document → Document) :
    s.modify u f = s.modify u fun _ => f d := by
  rw [modify_eq_alter, modify_eq_alter]
  refine alter_congr fun v x hx => ?_
  split
  · next hv =>
    subst hv
    rw [Option.some.inj (h.symm.trans hx)]
  · rfl

/-- Putting a document in its own place. -/
theorem modify_self {s : Store} {u : Uri} {d : Document}
    (h : s.get? u = some d) : (s.modify u fun _ => d) = s := by
  rw [modify_eq_alter]
  refine alter_id fun v x hx => ?_
  split
  · next hv =>
    subst hv
    exact Option.some.inj (h.symm.trans hx)
  · rfl

/-- A change to what has just been put in a place. -/
theorem modify_modify_const (s : Store) (u : Uri) (d : Document)
    (f : Document → Document) :
    (s.modify u fun _ => d).modify u f = s.modify u fun _ => f d := by
  simp only [modify_eq_alter, alter_alter]
  refine alter_congr fun v x _ => ?_
  split <;> rfl

/-- What a build can make of a document at one go, under a host. -/
inductive Touch (host : Host) (s : Store) (u : Uri) (d : Document) :
    Document → Prop where
  | renewed {d' : Document} (h : d.Renewed d') : Touch host s u d d'
  | ended (phase : Phase) (i : Index) (h : d.stage = phase.base) :
    Touch host s u d (d.ended phase (host.attempt phase.step u
      (phase.work u (phase.handed i s u) d)))

/-- One document has been renewed. -/
def Renewed (s t : Store) : Prop :=
  ∃ u d d', s.get? u = some d ∧ d.Renewed d'
    ∧ t = s.modify u fun _ => d'

/-- One document has been touched. -/
def Touched (host : Host) (s t : Store) : Prop :=
  ∃ u d d', s.get? u = some d ∧ s.Touch host u d d'
    ∧ t = s.modify u fun _ => d'

/-- Documents have been touched, one after another. -/
def Touches (host : Host) : Store → Store → Prop :=
  ReflTransGen (Touched host)

variable {host : Host} {s t : Store} {u : Uri} {d d' : Document}

/-- No touch changes what a document is. -/
theorem Touch.alike (h : s.Touch host u d d') : d.Alike d' := by
  cases h with
  | renewed h => exact h.alike
  | ended phase i _ => exact (d.forward_attempt host phase u _).alike

theorem Renewed.touched (h : Renewed s t) : Touched host s t := by
  obtain ⟨u, d, d', hd, hd', rfl⟩ := h
  exact ⟨u, d, d', hd, .renewed hd', rfl⟩

/-- The same documents are loaded, with the same texts and marks. -/
structure Alike (s t : Store) : Prop where
  uris : t.uris = s.uris
  each : ∀ u d, s.get? u = some d → ∃ d', t.get? u = some d' ∧ d.Alike d'

theorem Alike.refl (s : Store) : s.Alike s :=
  ⟨rfl, fun _ d hd => ⟨d, hd, rfl, rfl, rfl⟩⟩

theorem Alike.trans {r : Store} (h : s.Alike t) (h' : t.Alike r) :
    s.Alike r := by
  refine ⟨h'.uris.trans h.uris, fun u d hd => ?_⟩
  obtain ⟨x, hx, hdx⟩ := h.each u d hd
  obtain ⟨y, hy, hxy⟩ := h'.each u x hx
  exact ⟨y, hy, hdx.trans hxy⟩

/-- Changes in place that leave texts and marks alone. -/
theorem alike_alter {f : Uri → Document → Document}
    (h : ∀ u d, s.get? u = some d → d.Alike (f u d)) :
    s.Alike (s.alter f) := by
  refine ⟨uris_alter s f, fun u d hd => ⟨f u d, ?_, h u d hd⟩⟩
  rw [get?_alter, hd]
  rfl

/-- What every touch leaves of a document, a chain of touches leaves of
each. -/
theorem touches_each {R : Document → Document → Prop}
    (hrefl : ∀ d, R d d) (htrans : ∀ a b c, R a b → R b c → R a c)
    (htouch : ∀ s : Store, ∀ u d d', s.Touch host u d d' → R d d')
    (h : Touches host s t) :
    t.uris = s.uris
      ∧ ∀ u d, s.get? u = some d → ∃ d', t.get? u = some d' ∧ R d d' := by
  induction h with
  | refl => exact ⟨rfl, fun _ d hd => ⟨d, hd, hrefl d⟩⟩
  | tail _ hstep ih =>
    obtain ⟨huris, heach⟩ := ih
    obtain ⟨w, x, x', hx, htouched, rfl⟩ := hstep
    refine ⟨(uris_modify _ _ _).trans huris, fun u d hd => ?_⟩
    obtain ⟨y, hy, hdy⟩ := heach u d hd
    rw [get?_modify_const hx]
    split
    · next hu =>
      subst hu
      obtain rfl : x = y := Option.some.inj (hx.symm.trans hy)
      exact ⟨x', rfl, htrans _ _ _ hdy (htouch _ _ _ _ htouched)⟩
    · exact ⟨y, hy, hdy⟩

/-- What is loaded, with its text and its marks, is not for a build to
change. -/
theorem alike_touches (h : Touches host s t) : s.Alike t := by
  obtain ⟨huris, heach⟩ := touches_each (R := Document.Alike)
    (fun _ => ⟨rfl, rfl, rfl⟩) (fun _ _ _ => Document.Alike.trans)
    (fun _ _ _ _ => Touch.alike) h
  exact ⟨huris, heach⟩

/-- Every project has been read since its text changed. -/
def ProjectsRead (s : Store) : Prop :=
  ∀ u d, s.get? u = some d → d.isProject = true → d.stage ≠ .changed

end Store

-- ========================================================== whole builds

namespace Scene

variable (host : Host)

open Store (Touches Touched)

/-- Reading renews documents. -/
theorem reread_renews (us : List Uri) (s : Scene) :
    ReflTransGen Store.Renewed s.store (reread host us s).store := by
  induction us generalizing s with
  | nil => exact .refl
  | cons u us ih =>
    unfold reread
    split
    · next d hd =>
      split
      · next hstage =>
        refine .head ⟨u, d, d.reread, hd, .read hstage, ?_⟩ (ih _)
        rw [store_modify, store_note, Store.modify_of_some hd,
          Document.reread, if_pos hstage]
      · exact ih s
    · exact ih s

/-- Dropping what failed steps left renews documents. -/
theorem foldl_clearFailures_renews (us : List Uri) (s : Scene) :
    ReflTransGen Store.Renewed s.store
      (us.foldl (fun s u => s.modify u Document.clearFailures) s).store := by
  induction us generalizing s with
  | nil => exact .refl
  | cons u us ih =>
    rw [List.foldl_cons]
    cases hd : s.store.get? u with
    | none =>
      have hsame : s.modify u Document.clearFailures = s := by
        unfold modify
        rw [Store.modify_of_none hd]
      rw [hsame]
      exact ih s
    | some d =>
      refine .head ⟨u, d, d.clearFailures, hd, .cleared, ?_⟩ (ih _)
      rw [store_modify, Store.modify_of_some hd]

theorem cleared_renews (s : Scene) :
    ReflTransGen Store.Renewed s.store s.cleared.store := by
  have h := foldl_clearFailures_renews s.store.pending s
  rw [foldl_clearFailures] at h
  exact h

theorem touches_of_renews {s t : Store}
    (h : ReflTransGen Store.Renewed s t) : Touches host s t :=
  ReflTransGen.mono (fun _ _ => Store.Renewed.touched) _ _ h

/-- A scene in which a phase has been ended on a document, with what a
failure leaves behind. -/
def close (s : Scene) (phase : Phase) (u : Uri) : Scene :=
  let r := s.carry host phase u
  match r.2 with
  | .failed error => r.1.modify u (·.report (Pass.stepFailure phase error))
  | _ => r.1

theorem close_past {s : Scene} {phase : Phase} {u : Uri} {d : Document}
    (hd : s.store.get? u = some d) (h : phase.goal ≤ d.stage) :
    s.close host phase u = s := by
  unfold close carry
  simp only [hd, if_pos h]

theorem close_deferred {s : Scene} {phase : Phase} {u : Uri}
    {d : Document} (hd : s.store.get? u = some d)
    (hgoal : ¬ phase.goal ≤ d.stage)
    (hready : phase = .link ∧ ¬ s.ownerReady u) :
    s.close host phase u = s := by
  unfold close carry
  simp only [hd, if_neg hgoal, if_pos hready]

/-- A phase is ended on a document by a call, unless the document is past
it or its owner is not ready. -/
theorem close_of_call {s : Scene} {phase : Phase} {u : Uri} {d : Document}
    (hd : s.store.get? u = some d) (hgoal : ¬ phase.goal ≤ d.stage)
    (hready : ¬ (phase = .link ∧ ¬ s.ownerReady u)) :
    let attempt := host.attempt phase.step u
      (phase.work u (phase.handed s.index s.store u) d)
    (s.close host phase u).store
        = s.store.modify u (fun _ => d.ended phase attempt)
      ∧ (s.carry host phase u).2
        = attempt.error?.elim .advanced .failed := by
  have hscope : (s.scopeFor phase u).2
      = phase.handed s.index s.store u := by
    unfold scopeFor Phase.handed
    split <;> rfl
  have hstore : (s.scopeFor phase u).1.store = s.store := by
    unfold scopeFor
    split <;> rfl
  unfold close carry
  simp only [hd, if_neg hgoal, if_neg hready, hscope]
  cases host.attempt phase.step u
      (phase.work u (phase.handed s.index s.store u) d) with
  | succeeded x =>
    simp only [settle, store_modify, store_note, hstore]
    exact ⟨rfl, rfl⟩
  | failedBefore error =>
    simp only [settle, store_modify, store_note, hstore]
    exact ⟨Store.modify_of_some hd _, rfl⟩
  | failedAfter x error =>
    refine ⟨?_, rfl⟩
    simp only [settle, Document.ended]
    split
    · rw [store_modify, store_note, hstore]
      exact Store.modify_of_some hd _
    · simp only [store_modify, store_note, hstore]
      exact Store.modify_modify_const _ _ _ _

/-- Whether a phase calls its step on a document: it does if the document
is loaded, not past the phase, and not put off. -/
def summons (s : Scene) (phase : Phase) (u : Uri) : Prop :=
  ∃ d, s.store.get? u = some d ∧ ¬ phase.goal ≤ d.stage
    ∧ ¬ (phase = .link ∧ ¬ s.ownerReady u)

theorem trace_scopeFor (s : Scene) (phase : Phase) (u : Uri) :
    (s.scopeFor phase u).1.trace = s.trace := by
  unfold scopeFor
  split <;> rfl

/-- Ending a phase on a document makes one call at most. -/
theorem trace_close_of_call {s : Scene} {phase : Phase} {u : Uri}
    (h : s.summons phase u) :
    (s.close host phase u).trace = s.trace.note host phase.step u := by
  obtain ⟨d, hd, hgoal, hready⟩ := h
  have hnote : ((s.scopeFor phase u).1.note host phase.step u).trace
      = s.trace.note host phase.step u :=
    congrArg (Trace.note · host phase.step u) (s.trace_scopeFor phase u)
  unfold close carry
  simp only [hd, if_neg hgoal, if_neg hready]
  cases host.attempt phase.step u _ with
  | succeeded x => exact hnote
  | failedBefore error => exact hnote
  | failedAfter x error =>
    simp only [settle]
    split <;> exact hnote

theorem trace_close_of_none {s : Scene} {phase : Phase} {u : Uri}
    (h : ¬ s.summons phase u) :
    (s.close host phase u).trace = s.trace := by
  cases hd : s.store.get? u with
  | none =>
    unfold close carry
    simp only [hd]
    rfl
  | some d =>
    by_cases hgoal : phase.goal ≤ d.stage
    · rw [close_past host hd hgoal]
    · by_cases hready : phase = .link ∧ ¬ s.ownerReady u
      · rw [close_deferred host hd hgoal hready]
      · exact absurd ⟨d, hd, hgoal, hready⟩ h

/-- Ending a phase touches the document that it is ended on, if it
stands where the phase starts. -/
theorem close_touches {s : Scene} {phase : Phase} {u : Uri}
    (hbase : ∀ d, s.store.get? u = some d → phase.base ≤ d.stage) :
    Touches host s.store (s.close host phase u).store := by
  cases hd : s.store.get? u with
  | none =>
    have hclose : (s.close host phase u).store = s.store := by
      unfold close carry
      simp only [hd, store_modify]
      exact Store.modify_of_none hd _
    rw [hclose]
    exact .refl
  | some d =>
    by_cases hgoal : phase.goal ≤ d.stage
    · rw [close_past host hd hgoal]
      exact .refl
    by_cases hready : phase = .link ∧ ¬ s.ownerReady u
    · rw [close_deferred host hd hgoal hready]
      exact .refl
    exact .single ⟨u, d, _, hd, .ended phase s.index
      (Phase.eq_base (hbase d hd) hgoal),
      (close_of_call host hd hgoal hready).1⟩

theorem close_advance {us : List Uri} (s : Scene) (phase : Phase)
    {u : Uri} (hu : u ∈ us) : Advance us s (s.close host phase u) := by
  have hcarry := carry_advance host s phase hu
  unfold close
  dsimp only
  split
  · exact hcarry.trans (advance_modify _ hu fun d _ => d.forward_report _)
  · exact hcarry

/-- Whom a phase takes along has reached its goal. -/
theorem close_reached {s : Scene} {phase : Phase} {u : Uri}
    (h : (s.carry host phase u).2 = .advanced) {d : Document}
    (hd : (s.close host phase u).store.get? u = some d) :
    phase.goal ≤ d.stage := by
  unfold close at hd
  dsimp only at hd
  rw [h] at hd
  dsimp only at hd
  unfold carry at h hd
  split at h
  · cases h
  · next x hx =>
    dsimp only at h hd
    split at h
    · next hgoal =>
      rw [hx] at hd
      simp only [if_pos hgoal, hx, Option.some.injEq] at hd
      exact hd ▸ hgoal
    · next hgoal =>
      split at h
      · cases h
      · next hready =>
        simp only [hx, if_neg hgoal, if_neg hready] at hd
        generalize host.attempt _ _ _ = attempt at h hd
        cases attempt with
        | failedBefore error => cases h
        | failedAfter y error => cases h
        | succeeded y =>
          simp only [settle, store_modify, Store.get?_modify_self,
            Option.map_eq_some_iff] at hd
          obtain ⟨-, -, rfl⟩ := hd
          exact y.le_stage_of_advance phase.goal

end Scene

namespace Pass

variable (host : Host)

open Store (Touches)

/-- Documents that have all come as far as a stage. -/
def Standing (us : List Uri) (stage : Stage) (s : Store) : Prop :=
  ∀ u ∈ us, ∀ d, s.get? u = some d → stage ≤ d.stage

/-- Nobody who is worked on falls back. -/
theorem Standing.advance {us vs : List Uri} {stage : Stage} {s t : Scene}
    (h : Standing us stage s.store) (hadv : Scene.Advance vs s t) :
    Standing us stage t.store := by
  intro u hu d hd
  obtain ⟨x, hx, hf, -⟩ := hadv.backward hd
  exact Nat.le_trans (h u hu x hx) hf.stage

/-- The report of a pass after a phase has ended on a document. -/
def record (r : BuildReport) (u : Uri) : Outcome → BuildReport
  | .advanced => r
  | .deferred => { r with deferred := r.deferred ++ [u] }
  | .failed _ => { r with failed := r.failed ++ [u] }

@[simp] theorem cancelled_record (r : BuildReport) (u : Uri)
    (outcome : Outcome) :
    (record r u outcome).cancelled = r.cancelled := by
  cases outcome <;> rfl

@[simp] theorem processed_record (r : BuildReport) (u : Uri)
    (outcome : Outcome) : (record r u outcome).processed = r.processed := by
  cases outcome <;> rfl

/-- A phase on a document and then on others: those that it is taken
along to the next with are the ones that have advanced. -/
theorem runPhase_record (phase : Phase) (u : Uri) (us : List Uri)
    (p : Pass) (hgo : p.poll.report.cancelled = false) :
    let outcome := (p.scene.carry host phase u).2
    let q := runPhase host phase us
      ⟨p.scene.close host phase u, record p.poll.report u outcome⟩
    runPhase host phase (u :: us) p
      = (q.1, if outcome = .advanced then q.2.map (u :: ·) else q.2) := by
  have hgo : ¬ p.poll.report.cancelled = true := Bool.eq_false_iff.1 hgo
  rw [runPhase]
  unfold Scene.close
  dsimp only
  rw [if_neg hgo, scene_poll]
  generalize p.scene.carry host phase u = r
  obtain ⟨scene, outcome⟩ := r
  cases outcome <;> rfl

theorem runPhase_cons (phase : Phase) (u : Uri) (us : List Uri) (p : Pass)
    (hgo : p.poll.report.cancelled = false) :
    ∃ r : BuildReport, r.cancelled = false
      ∧ runPhase host phase (u :: us) p =
        let q := runPhase host phase us ⟨p.scene.close host phase u, r⟩
        (q.1, if (p.scene.carry host phase u).2 = .advanced
          then q.2.map (u :: ·) else q.2) :=
  ⟨_, (cancelled_record _ _ _).trans hgo,
    runPhase_record host phase u us p hgo⟩

/-- Behind a phase go on those of the others who do, and the document at
hand before them if it has advanced. -/
theorem active_cons {advanced : Prop} [Decidable advanced] {u : Uri}
    {next : Option (List Uri)} {active : List Uri}
    (h : (if advanced then next.map (u :: ·) else next) = some active) :
    ∃ rest, next = some rest
      ∧ active = if advanced then u :: rest else rest := by
  split at h
  · next hon =>
    obtain ⟨rest, hrest, rfl⟩ := Option.map_eq_some_iff.1 h
    exact ⟨rest, hrest, (if_pos hon).symm⟩
  · next hoff => exact ⟨active, h, (if_neg hoff).symm⟩

/-- A phase touches documents that stand where it starts. -/
theorem runPhase_touches (phase : Phase) (us : List Uri) (p : Pass)
    (hbase : Standing us phase.base p.scene.store) :
    Touches host p.scene.store (runPhase host phase us p).1.scene.store := by
  induction us generalizing p with
  | nil => exact .refl
  | cons u us ih =>
    cases hgo : p.poll.report.cancelled with
    | true =>
      rw [runPhase]
      simp only [hgo, if_true]
      exact .refl
    | false =>
      obtain ⟨r, -, hr⟩ := runPhase_cons host phase u us p hgo
      rw [hr]
      have hclose := Scene.close_touches host (s := p.scene)
        (hbase u List.mem_cons_self)
      have hadv : Scene.Advance [u] p.scene (p.scene.close host phase u) :=
        p.scene.close_advance host phase List.mem_cons_self
      refine hclose.trans (ih ⟨_, r⟩ (Standing.advance ?_ hadv))
      exact fun v hv => hbase v (List.mem_cons_of_mem u hv)

/-- The documents that a phase goes on with have reached its goal. -/
theorem runPhase_reached (phase : Phase) (us : List Uri) (p : Pass)
    {active : List Uri}
    (h : (runPhase host phase us p).2 = some active) :
    Standing active phase.goal
      (runPhase host phase us p).1.scene.store := by
  induction us generalizing p active with
  | nil =>
    cases h
    exact fun u hu => absurd hu List.not_mem_nil
  | cons u us ih =>
    cases hgo : p.poll.report.cancelled with
    | true =>
      rw [runPhase] at h
      simp only [hgo, if_true] at h
      cases h
    | false =>
      obtain ⟨r, -, hr⟩ := runPhase_cons host phase u us p hgo
      rw [hr] at h ⊢
      dsimp only at h ⊢
      obtain ⟨rest, hrest, rfl⟩ := active_cons h
      have htail := ih ⟨p.scene.close host phase u, r⟩ hrest
      split
      · next hadvanced =>
        have hhead : Standing [u] phase.goal
            (p.scene.close host phase u).store := by
          intro v hv d hd
          obtain rfl := List.mem_singleton.1 hv
          exact Scene.close_reached host hadvanced hd
        have hhead := hhead.advance (runPhase_advance host phase us
          (fun _ h => h) ⟨p.scene.close host phase u, r⟩)
        intro v hv
        rcases List.mem_cons.1 hv with rfl | hv
        · exact hhead v List.mem_cons_self
        · exact htail v hv
      · exact htail

/-- Phases that follow one another touch documents that stand where the
first of them starts. -/
theorem runPhases_touches {phases : List Phase} {us : List Uri}
    {p : Pass} {stage : Stage} (hus : Standing us stage p.scene.store)
    (hphases : Phase.Follow stage phases) :
    Touches host p.scene.store
      (runPhases host phases us p).1.scene.store := by
  induction phases generalizing us p stage with
  | nil => exact .refl
  | cons phase phases ih =>
    obtain ⟨rfl, hphases⟩ := hphases
    rw [runPhases_elim]
    dsimp only
    split
    · exact .refl
    · have hphase := runPhase_touches host phase us p.poll hus
      cases hnext : (runPhase host phase us p.poll).2 with
      | none => exact hphase
      | some active =>
        exact hphase.trans
          (ih (runPhase_reached host phase us p.poll hnext) hphases)

/-- A run touches documents that have been read. -/
theorem runAll_touches {us : List Uri} {p : Pass}
    (hread : ∀ u d, p.scene.store.get? u = some d → u ∈ us →
      d.stage ≠ .changed) :
    Touches host p.scene.store (runAll host us p).1.scene.store := by
  have hus : Standing us .parsed p.scene.store :=
    fun u hu d hd => Stage.parsed_le.2 (hread u d hd hu)
  have hphases := runPhases_touches host hus Phase.follow_all
  unfold runAll
  split
  · exact .refl
  · dsimp only
    split
    · exact hphases
    · exact hphases

theorem reread_touches (us : List Uri) (p : Pass) :
    Touches host p.scene.store (p.reread host us).scene.store :=
  Scene.touches_of_renews host (Scene.reread_renews host us p.scene)

/-- A pass touches documents. -/
theorem carries_touches (batch : List Uri) :
    Carries host batch fun s t => Touches host s.store t.store where
  refl _ := .refl
  trans := ReflTransGen.trans
  reread us _ p := reread_touches host us p
  runAll _ _ _ hread := runAll_touches host hread

end Pass

namespace Scene

open Store (Touches)

/-- Once the pending projects have been read, every project has. -/
theorem projectsRead_first (host : Host) (s : Scene) :
    (reread host (s.store.pending.filter s.store.isProject)
      s.cleared).store.ProjectsRead := by
  intro u d hd hproject hchanged
  rw [store_reread, Store.get?_alter] at hd
  obtain ⟨x, hx, rfl⟩ := Option.map_eq_some_iff.1 hd
  split at hchanged
  · exact x.stage_reread_ne hchanged
  · next hu =>
    rw [if_neg hu] at hproject
    refine hu (List.mem_filter.2 ⟨?_, ?_⟩)
    · rw [Store.mem_pending]
      have hstage := s.stageOf_cleared u
      unfold Store.stageOf at hstage
      rw [hx] at hstage
      obtain ⟨y, hy, hyx⟩ := Option.map_eq_some_iff.1 hstage.symm
      have hyx : y.stage = .changed := hyx.trans hchanged
      exact ⟨y, hy, by rw [hyx]; decide⟩
    · rw [← s.isProject_cleared, Store.isProject_of_get? hx]
      exact hproject

/-- A build renews some documents, the pending projects among them, and
then touches others; or it is withdrawn before. -/
theorem build_touches (host : Host) {s : Scene} (hs : s.store.Faithful) :
    ∃ m, ReflTransGen Store.Renewed s.store m
      ∧ ((s.build host).1.store = m
        ∨ m.ProjectsRead ∧ Touches host m (s.build host).1.store) := by
  rw [build_eq host hs]
  split
  · exact ⟨s.store, .refl, .inl rfl⟩
  · unfold pass
    rw [Pass.runSplit_eq]
    dsimp only
    split
    · exact ⟨s.cleared.store, cleared_renews s, .inl rfl⟩
    · refine ⟨_, (cleared_renews s).trans (reread_renews host
        (s.store.pending.filter s.store.isProject) s.cleared),
        .inr ⟨projectsRead_first host s, ?_⟩⟩
      exact (Pass.carries_touches host s.store.pending).runRead host
        (p := Pass.reread (Pass.poll ⟨s.cleared, .empty⟩) host
          (s.store.pending.filter s.store.isProject))
        List.filter_sublist.subset List.filter_sublist.subset
        fun u d hd hu => Pass.stage_ne_of_reread host hd hu

/-- A build touches documents, whatever its host does. -/
theorem touches_build (host : Host) {s : Scene}
    (hs : s.store.Faithful) :
    Touches host s.store (s.build host).1.store := by
  obtain ⟨m, hm, hbuild | ⟨-, hbuild⟩⟩ := build_touches host hs
  · rw [hbuild]
    exact touches_of_renews host hm
  · exact (touches_of_renews host hm).trans hbuild

theorem alike_build (host : Host) {s : Scene} (hs : s.store.Faithful) :
    s.store.Alike (s.build host).1.store :=
  Store.alike_touches (touches_build host hs)

end Scene

end Purview
