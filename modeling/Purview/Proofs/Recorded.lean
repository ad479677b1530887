/-
What the report of a build is worth, cancelled or not. A build writes
down who has failed when it happens, and so the failed are those of its
calls that have returned an error, in the order of the calls
(`Logged.failed`). It writes down who has been processed only when a run
is over. If it is cancelled within a run, nobody of that run is reported
as processed, though some may have been validated: that is the case if
somebody else of the run stands right before validation and no step has
failed there (`recorded_buildBatch`). In particular a report that is not
cancelled has everybody who has been validated, and a cancelled one may
have nobody (`not_reported_validated`).

Which steps return an error need not be watched: it can be told from the
documents as the build leaves them (`Document.errs`), since what a step
asks of a document it does not lose any more (`Store.Touch.errs`).
-/
import Purview.Proofs.Accounts
import Purview.Proofs.Calls

namespace Purview

-- ===================================================== calls that fail

/-- A call fails if the host has it fail or the work cannot be done. -/
theorem Host.isSome_error? {α : Type} (host : Host) (step : Step)
    (u : Uri) (work : Except StepError α) :
    (host.attempt step u work).error?.isSome
      = ((host.fault? step u).isSome || !work.isOk) := by
  unfold Host.attempt
  rcases host.fault? step u with _ | ⟨_ | _, error⟩ <;>
    cases work <;> rfl

namespace Document

/-- Whether the step of a phase returns an error when it is called on a
document. In which scope it is called does not matter (`errs_scope`). -/
def errs (host : Host) (phase : Phase) (u : Uri) (d : Document) : Bool :=
  (host.attempt phase.step u (phase.work u .empty d)).error?.isSome

/-- A step works on documents that have been read, and linking asks for
the names that resolve within. -/
theorem isOk_work (phase : Phase) (u : Uri) (scope : LinkScope)
    (d : Document) : (phase.work u scope d).isOk
      = (d.content.isSome && (phase != .link || d.own.isSome)) := by
  have hlack : (phase.work u scope d).isOk = (phase.lack? u d).isNone := by
    rw [Phase.work_eq]
    cases phase.lack? u d <;> rfl
  rw [hlack, Bool.eq_iff_iff, Option.isNone_iff_eq_none,
    Phase.lack?_eq_none_iff]
  by_cases hphase : phase = .link <;> simp [hphase]

variable {host : Host} {phase : Phase} {u : Uri} {d d' : Document}

theorem errs_scope (host : Host) (phase : Phase) (u : Uri)
    (scope : LinkScope) (d : Document) :
    (host.attempt phase.step u (phase.work u scope d)).error?.isSome
      = d.errs host phase u := by
  rw [errs, host.isSome_error?, host.isSome_error?, isOk_work, isOk_work]

/-- What a step asks of a document is all that its error hangs on. -/
theorem errs_congr (hcontent : d'.content.isSome = d.content.isSome)
    (hown : phase = .link → d'.own = d.own) :
    d'.errs host phase u = d.errs host phase u := by
  rw [errs, errs, host.isSome_error?, host.isSome_error?, isOk_work,
    isOk_work, hcontent]
  cases phase with
  | link => rw [hown rfl]
  | index | scope | validate => rfl

/-- Only scoping finds the names that resolve within. -/
theorem own_ended (hphase : phase ≠ .scope) (scope : LinkScope) :
    (d.ended phase (host.attempt phase.step u
      (phase.work u scope d))).own = d.own := by
  have hwork : ∀ x, (host.attempt phase.step u
      (phase.work u scope d)).result? = some x → x.own = d.own :=
    fun x hx => (worked_of_work (Scene.result?_attempt host hx)).own.trans
      (if_neg hphase)
  cases hattempt : host.attempt phase.step u (phase.work u scope d) with
  | succeeded x =>
    show (x.advance phase.goal).own = d.own
    rw [← hwork x (by rw [hattempt]; rfl), advance]
    split <;> rfl
  | failedBefore error => rfl
  | failedAfter x error =>
    show (if phase = .index then d else x).own = d.own
    split
    · rfl
    · exact hwork x (by rw [hattempt]; rfl)

end Document

namespace Store

variable {host : Host} {phase : Phase} {s t : Store} {u : Uri}
  {d d' : Document}

/-- From where a phase starts, no document loses or gains what its step
asks for. -/
theorem Touch.errs (h : s.Touch host u d d')
    (hbase : phase.base ≤ d.stage) (v : Uri) :
    phase.base ≤ d'.stage
      ∧ d'.errs host phase v = d.errs host phase v := by
  cases h with
  | renewed h =>
    cases h with
    | cleared => exact ⟨hbase, Document.errs_congr rfl fun _ => rfl⟩
    | read hchanged =>
      rw [hchanged] at hbase
      cases phase <;> exact absurd hbase (by decide)
  | ended phase' i hstage =>
    have hforward := d.forward_attempt host phase' u (phase'.handed i s u)
    refine ⟨Nat.le_trans hbase hforward.stage,
      Document.errs_congr hforward.known fun hlink =>
        Document.own_ended (fun hscope => ?_) _⟩
    -- scoping is over before linking starts
    rw [hstage, hlink, hscope] at hbase
    exact absurd hbase (by decide)

/-- Those of some calls that return an error, by what has become of the
documents. -/
def erring (host : Host) (s : Store) (log : List (Phase × Uri)) :
    List Uri :=
  (log.filter fun c =>
    (s.get? c.2).any (Document.errs host c.1 c.2)).map Prod.snd

theorem erring_append (host : Host) (s : Store)
    (log log' : List (Phase × Uri)) :
    s.erring host (log ++ log') = s.erring host log ++ s.erring host log' := by
  unfold erring
  rw [List.filter_append, List.map_append]

/-- The documents of some calls have come as far as the calls started. -/
def Begun (s : Store) (log : List (Phase × Uri)) : Prop :=
  ∀ c ∈ log, ∃ d, s.get? c.2 = some d ∧ c.1.base ≤ d.stage

/-- Which calls return an error is not for later touches to change. -/
theorem erring_touches (h : Touches host s t) {log : List (Phase × Uri)}
    (hlog : s.Begun log) :
    t.Begun log ∧ t.erring host log = s.erring host log := by
  have hkeep : ∀ c ∈ log, ∃ d d', s.get? c.2 = some d
      ∧ t.get? c.2 = some d' ∧ c.1.base ≤ d'.stage
      ∧ d'.errs host c.1 c.2 = d.errs host c.1 c.2 := by
    intro c hc
    obtain ⟨d, hd, hbase⟩ := hlog c hc
    obtain ⟨-, heach⟩ := touches_each
      (R := fun d d' => c.1.base ≤ d.stage → c.1.base ≤ d'.stage
        ∧ d'.errs host c.1 c.2 = d.errs host c.1 c.2)
      (fun _ hbase => ⟨hbase, rfl⟩)
      (fun _ _ _ h h' hbase => ⟨(h' (h hbase).1).1,
        (h' (h hbase).1).2.trans (h hbase).2⟩)
      (fun _ _ _ _ htouch hbase => htouch.errs hbase c.2) h
    obtain ⟨d', hd', hstays⟩ := heach c.2 d hd
    exact ⟨d, d', hd, hd', hstays hbase⟩
  refine ⟨fun c hc => ?_, congrArg (List.map Prod.snd)
    (List.filter_congr fun c hc => ?_)⟩
  · obtain ⟨-, d', -, hd', hbase, -⟩ := hkeep c hc
    exact ⟨d', hd', hbase⟩
  · obtain ⟨d, d', hd, hd', -, hsame⟩ := hkeep c hc
    rw [hd, hd', Option.any_some, Option.any_some, hsame]

end Store

-- ====================================================== the failed calls

namespace Pass

variable (host : Host)

open Store (Touches)

/-- Some calls are those that a pass makes in between, and the documents
that have failed in between are those for which they return an error. -/
structure Logged (log : List (Phase × Uri)) (p q : Pass) : Prop where
  calls : q.scene.calls = p.scene.calls ++ log.map Phase.call
  begun : q.scene.store.Begun log
  failed : q.report.failed
    = p.report.failed ++ q.scene.store.erring host log

variable {host}

theorem logged_nil {p q : Pass} (hcalls : q.scene.calls = p.scene.calls)
    (hfailed : q.report.failed = p.report.failed) :
    Logged host [] p q :=
  ⟨hcalls.trans (List.append_nil _).symm, List.forall_mem_nil _,
    hfailed.trans (List.append_nil _).symm⟩

theorem Logged.trans {log log' : List (Phase × Uri)} {p q r : Pass}
    (h : Logged host log p q)
    (htouches : Touches host q.scene.store r.scene.store)
    (h' : Logged host log' q r) : Logged host (log ++ log') p r := by
  obtain ⟨hbegun, hsame⟩ := Store.erring_touches htouches h.begun
  refine ⟨?_, fun c hc => ?_, ?_⟩
  · rw [h'.calls, h.calls, List.append_assoc, List.map_append]
  · exact (List.mem_append.1 hc).elim (hbegun c) (h'.begun c)
  · rw [h'.failed, h.failed, List.append_assoc, Store.erring_append, hsame]

/-- Who fails is written down last. -/
theorem failed_record (r : BuildReport) (u : Uri)
    (error? : Option StepError) :
    (record r u (error?.elim .advanced .failed)).failed
      = r.failed ++ if error?.isSome then [u] else [] := by
  cases error? with
  | none => exact (List.append_nil _).symm
  | some error => rfl

variable (host)

/-- A phase fails on a loaded document if and only if its call returns an
error. -/
theorem close_logged {phase : Phase} {u : Uri} {p : Pass} {d : Document}
    (hd : p.scene.store.get? u = some d) (hbase : phase.base ≤ d.stage) :
    ∃ log, Logged host log p ⟨p.scene.close host phase u,
      record p.poll.report u (p.scene.carry host phase u).2⟩ := by
  by_cases hgoal : phase.goal ≤ d.stage
  · rw [Scene.close_past host hd hgoal, Scene.carry_past host hd hgoal]
    exact ⟨[], logged_nil rfl rfl⟩
  by_cases hready : phase = .link ∧ ¬ p.scene.ownerReady u
  · have hout : (p.scene.carry host phase u).2 = .deferred := by
      unfold Scene.carry
      simp only [hd, if_neg hgoal, if_pos hready]
    rw [Scene.close_deferred host hd hgoal hready, hout]
    exact ⟨[], logged_nil rfl rfl⟩
  obtain ⟨hstore, hcarry⟩ := Scene.close_of_call host hd hgoal hready
  have hstep : phase.step ≠ .parse := by cases phase <;> decide
  have hcalls := Scene.calls_note host hstep
    (Scene.trace_close_of_call host ⟨d, hd, hgoal, hready⟩)
  have herrs := d.errs_scope host phase u
    (phase.handed p.scene.index p.scene.store u)
  generalize hattempt : host.attempt phase.step u (phase.work u
    (phase.handed p.scene.index p.scene.store u) d) = attempt
    at hstore hcarry herrs
  have hd' : (p.scene.close host phase u).store.get? u
      = some (d.ended phase attempt) := by
    rw [hstore, Store.get?_modify_const hd, if_pos rfl]
  have htouch : p.scene.store.Touch host u d (d.ended phase attempt) :=
    hattempt ▸ .ended phase p.scene.index (Phase.eq_base hbase hgoal)
  obtain ⟨hbase', hsame⟩ := htouch.errs hbase u
  refine ⟨[(phase, u)], hcalls,
    List.forall_mem_singleton.2 ⟨_, hd', hbase'⟩, ?_⟩
  dsimp only
  rw [hcarry, failed_record, herrs, ← hsame]
  refine congrArg (p.report.failed ++ ·) ?_
  unfold Store.erring
  rw [List.filter_singleton, hd', Option.any_some]
  cases (d.ended phase attempt).errs host phase u <;> rfl

/-- A phase fails on those of some loaded documents for which its calls
return an error. -/
theorem runPhase_logged {phase : Phase} {us : List Uri} {p : Pass}
    (hloaded : us ⊆ p.scene.store.uris)
    (hbase : Standing us phase.base p.scene.store) :
    ∃ log, Logged host log p (runPhase host phase us p).1 := by
  induction us generalizing p with
  | nil => exact ⟨[], logged_nil rfl rfl⟩
  | cons u us ih =>
    cases hgo : p.poll.report.cancelled with
    | true =>
      rw [runPhase]
      simp only [hgo, if_true]
      exact ⟨[], logged_nil rfl rfl⟩
    | false =>
      obtain ⟨hu, hus⟩ := List.cons_subset.1 hloaded
      obtain ⟨d, hd⟩ := Option.isSome_iff_exists.1
        ((p.scene.store.isSome_get? u).2 hu)
      obtain ⟨first, hfirst⟩ := close_logged host hd
        (hbase u List.mem_cons_self d hd)
      have hadv : Scene.Advance [u] p.scene (p.scene.close host phase u) :=
        p.scene.close_advance host phase List.mem_cons_self
      have hbase' : Standing us phase.base
          (p.scene.close host phase u).store :=
        Standing.advance (fun v hv =>
          hbase v (List.mem_cons_of_mem u hv)) hadv
      rw [runPhase_record host phase u us p hgo]
      dsimp only
      generalize record p.poll.report u (p.scene.carry host phase u).2
        = report at hfirst ⊢
      obtain ⟨rest, hrest⟩ := ih (p := ⟨p.scene.close host phase u, report⟩)
        (hadv.uris ▸ hus) hbase'
      exact ⟨first ++ rest, hfirst.trans
        (runPhase_touches host phase us ⟨_, report⟩ hbase') hrest⟩

theorem runPhases_logged {phases : List Phase} {stage : Stage}
    (hphases : Phase.Follow stage phases) {us : List Uri} {p : Pass}
    (hloaded : us ⊆ p.scene.store.uris)
    (hus : Standing us stage p.scene.store) :
    ∃ log, Logged host log p (runPhases host phases us p).1 := by
  induction phases generalizing us p stage with
  | nil => exact ⟨[], logged_nil rfl rfl⟩
  | cons phase phases ih =>
    obtain ⟨rfl, hphases⟩ := hphases
    rw [runPhases_elim]
    dsimp only
    split
    · exact ⟨[], logged_nil rfl rfl⟩
    obtain ⟨first, hfirst⟩ := runPhase_logged host (p := p.poll) hloaded hus
    have hpoll : Logged host [] p p.poll := logged_nil rfl rfl
    have hfirst := hpoll.trans
      (runPhase_touches host phase us p.poll hus) hfirst
    cases hnext : (runPhase host phase us p.poll).2 with
    | none => exact ⟨first, hfirst⟩
    | some active =>
      have hadv := runPhase_advance host phase us (List.Subset.refl us)
        p.poll
      have hactive : active ⊆ us := runPhase_active host hnext
      have hthere : active
          ⊆ (runPhase host phase us p.poll).1.scene.store.uris :=
        fun u hu => hadv.uris ▸ hloaded (hactive hu)
      have hreached := runPhase_reached host phase us p.poll hnext
      obtain ⟨rest, hrest⟩ := ih hphases hthere hreached
      exact ⟨first ++ rest, hfirst.trans
        (runPhases_touches host hreached hphases) hrest⟩

/-- A run calls steps, and it writes down which of the calls fail. -/
theorem runAll_logged {us : List Uri} {p : Pass}
    (hloaded : us ⊆ p.scene.store.uris)
    (hread : ∀ u d, p.scene.store.get? u = some d → u ∈ us →
      d.stage ≠ .changed) :
    ∃ log, Logged host log p (runAll host us p).1 := by
  obtain ⟨log, hlog⟩ := runPhases_logged host Phase.follow_all hloaded
    fun u hu d hd => Stage.parsed_le.2 (hread u d hd hu)
  unfold runAll
  split
  · exact ⟨[], logged_nil rfl rfl⟩
  · dsimp only
    split
    · exact ⟨log, hlog.calls, hlog.begun, hlog.failed⟩
    · exact ⟨log, hlog⟩

variable {host}

/-- On all of its course a pass writes down which of its calls fail. -/
theorem Course.logged {p q : Pass} {runs : List (List Uri)}
    (h : Course host p runs q)
    (hloaded : runs.flatten ⊆ p.scene.store.uris) :
    Touches host p.scene.store q.scene.store
      ∧ ∃ log, Logged host log p q := by
  induction h with
  | done | stopped => exact ⟨.refl, [], logged_nil rfl rfl⟩
  | polled _ ih =>
    obtain ⟨htouches, log, hlog⟩ := ih hloaded
    exact ⟨htouches, log, hlog.calls, hlog.begun, hlog.failed⟩
  | @read p q us runs _ _ ih =>
    have hread : Logged host [] p (p.reread host us) :=
      logged_nil (Scene.calls_reread host us p.scene) rfl
    obtain ⟨htouches, log, hlog⟩ := ih
      (by rwa [store_reread, Store.uris_alter])
    exact ⟨(reread_touches host us p).trans htouches, log,
      hread.trans htouches hlog⟩
  | @run p q us runs hstarts _ _ ih =>
    rw [List.flatten_cons, List.append_subset] at hloaded
    obtain ⟨first, hfirst⟩ := runAll_logged host hloaded.1 hstarts.read
    obtain ⟨htouches, rest, hrest⟩ := ih
      ((runAll_advance host us p).uris ▸ hloaded.2)
    exact ⟨(runAll_touches host hstarts.read).trans htouches, first ++ rest,
      hfirst.trans htouches hrest⟩
  | @broken p us runs hstarts _ =>
    rw [List.flatten_cons, List.append_subset] at hloaded
    exact ⟨runAll_touches host hstarts.read,
      runAll_logged host hloaded.1 hstarts.read⟩

end Pass

-- ========================================================== whole builds

/-- The runs of a build. -/
inductive Run where
  | known
  | found
  | others
deriving DecidableEq

namespace Store

/-- What a document is in a build: a project when its pass starts, one
only by the time when it is over, or none. -/
def runOf (s t : Store) (u : Uri) : Run :=
  if t.isProject u then if s.isProject u then .known else .found
  else .others

/-- Whether a document had still to be validated, and has been. -/
def Completes (s t : Store) (u : Uri) : Prop :=
  (∃ d, s.get? u = some d ∧ d.stage < .validated)
    ∧ t.stageOf u = some .validated

end Store

namespace Pass

variable {us : List Uri} {s t : Store} {kept found rest : List Uri}

/-- What a document is tells in which run it is. -/
theorem Divided.runOf (h : Divided us s t kept found rest) :
    (∀ u ∈ kept, s.runOf t u = .known) ∧ (∀ u ∈ found, s.runOf t u = .found)
      ∧ ∀ u ∈ rest, s.runOf t u = .others := by
  unfold Store.runOf
  refine ⟨fun u hu => ?_, fun u hu => ?_, fun u hu => ?_⟩
  · rw [(h.kept u hu).1, (h.kept u hu).2, if_pos rfl, if_pos rfl]
  · rw [(h.found u hu).1, (h.found u hu).2, if_pos rfl,
      if_neg Bool.false_ne_true]
  · rw [h.rest u hu, if_neg Bool.false_ne_true]

/-- Each of the runs has the documents of one kind. -/
theorem Divided.mem_iff (h : Divided us s t kept found rest)
    {vs : List Uri} (hvs : vs ∈ [kept, found, rest]) :
    ∃ run, ∀ v ∈ us, v ∈ vs ↔ s.runOf t v = run := by
  obtain ⟨hkept, hfound, hrest⟩ := h.runOf
  have hplace : ∀ v ∈ us, v ∈ kept ∧ s.runOf t v = .known
      ∨ v ∈ found ∧ s.runOf t v = .found
      ∨ v ∈ rest ∧ s.runOf t v = .others := by
    intro v hv
    have hin : v ∈ kept ∨ v ∈ found ∨ v ∈ rest := by
      simpa using h.perm.mem_iff.2 hv
    exact hin.imp (fun hv => ⟨hv, hkept v hv⟩) (Or.imp
      (fun hv => ⟨hv, hfound v hv⟩) fun hv => ⟨hv, hrest v hv⟩)
  simp only [List.mem_cons, List.not_mem_nil, or_false] at hvs
  rcases hvs with rfl | rfl | rfl
  · exact ⟨.known, fun v hv => ⟨hkept v, fun hrun => by
      simpa [hrun] using hplace v hv⟩⟩
  · exact ⟨.found, fun v hv => ⟨hfound v, fun hrun => by
      simpa [hrun] using hplace v hv⟩⟩
  · exact ⟨.others, fun v hv => ⟨hrest v, fun hrun => by
      simpa [hrun] using hplace v hv⟩⟩

end Pass

namespace Scene

variable (host : Host)

/-- What a build reports, with the calls that it has made behind reading,
and the runs that its documents are in. -/
structure Recorded (s : Scene) (batch : List Uri) (t : Scene)
    (r : BuildReport) (log : List (Phase × Uri)) (runOf : Uri → Run) :
    Prop where
  once : (r.processed ++ r.failed ++ r.deferred).Nodup
  processed : ∀ u, u ∈ r.processed ↔ s.store.Completes t.store u
    ∧ ∀ v ∈ s.store.unfinished batch, runOf v = runOf u →
      t.store.stageOf v = some .linked → v ∈ r.failed
  complete : r.cancelled = false →
    ∀ u, u ∈ r.processed ↔ s.store.Completes t.store u
  calls : t.calls = s.calls ++ log.map Phase.call
  failed : r.failed = t.store.erring host log

/-- Only what had still to be validated can be completed. -/
theorem unfinished_of_completes {s : Scene} {batch : List Uri} {u : Uri}
    (h : s.store.Completes (s.buildBatch host batch).1.store u) :
    u ∈ s.store.unfinished batch := by
  by_contra hu
  obtain ⟨⟨d, hd, hlt⟩, hstage⟩ := h
  rw [Store.stageOf, (s.within_buildBatch host batch).others u hu, hd,
    Option.map_some, Option.some_inj] at hstage
  rw [hstage] at hlt
  exact absurd hlt (by decide)

end Scene

namespace Pass

variable {s t : Store} {q : Pass} {batch kept found rest left : List Uri}
  {early : Uri → Prop} {ready : Uri → Bool}

/-- Who has been processed has been validated, and who else stands right
before validation in the same run has failed there. -/
theorem Accounts.of_finished
    (hdivided : Divided (s.unfinished batch) t q.scene.store kept found rest)
    (hunreached : Unreached [kept, found, rest] q left)
    (h : Accounts (s.unfinished batch) early ready (ledger q.report left)
      q.scene.store) {u : Uri} (hu : u ∈ q.report.processed) :
    s.Completes q.scene.store u
      ∧ ∀ v ∈ s.unfinished batch,
        t.runOf q.scene.store v = t.runOf q.scene.store u →
        q.scene.store.stageOf v = some .linked → v ∈ q.report.failed := by
  have hin := h.shared.subset (List.mem_append_left left
    (List.mem_append_left _ (List.mem_append_left _ hu)))
  obtain ⟨d, hd, hstage, -⟩ := h.of_processed hu
  refine ⟨⟨(Store.mem_unfinished.1 hin).2, ?_⟩, fun v hv hsame hlinked => ?_⟩
  · rw [Store.stageOf, hd, Option.map_some, hstage]
  obtain ⟨vs, hvs, huvs⟩ : ∃ vs ∈ [kept, found, rest], u ∈ vs :=
    List.mem_flatten.1 (by simpa using hdivided.perm.mem_iff.2 hin)
  obtain ⟨run, hrun⟩ := hdivided.mem_iff hvs
  have hleft := hunreached.finished vs hvs u huvs hu v
    ((hrun v hv).2 (hsame.trans ((hrun u hin).1 huvs)))
  have hplace := h.shared.mem_iff.2 hv
  simp only [List.mem_append] at hplace
  rcases hplace with ((hv | hv) | hv) | hv
  · obtain ⟨x, hx, hstage, -⟩ := h.of_processed hv
    rw [Store.stageOf, hx, Option.map_some, hstage] at hlinked
    cases hlinked
  · exact hv
  · obtain ⟨x, hx, hstage, -⟩ := h.of_deferred hv
    rw [Store.stageOf, hx, Option.map_some, hstage] at hlinked
    cases hlinked
  · exact absurd hv hleft

/-- Who has been validated has been processed, unless the pass has been
cancelled when it was about to validate somebody else of the run. -/
theorem Accounts.finished_or_halted (hnd : (s.unfinished batch).Nodup)
    (hdivided : Divided (s.unfinished batch) t q.scene.store kept found rest)
    (hunreached : Unreached [kept, found, rest] q left)
    (h : Accounts (s.unfinished batch) early ready (ledger q.report left)
      q.scene.store) {u : Uri} (hu : u ∈ s.unfinished batch)
    (hstage : q.scene.store.stageOf u = some .validated) :
    u ∈ q.report.processed ∨ q.report.cancelled = true
      ∧ ∃ v ∈ s.unfinished batch,
        t.runOf q.scene.store v = t.runOf q.scene.store u
          ∧ q.scene.store.stageOf v = some .linked
          ∧ v ∉ q.report.failed := by
  have hplace := h.shared.mem_iff.2 hu
  simp only [List.mem_append] at hplace
  rcases hplace with ((hin | hin) | hin) | hin
  · exact .inl hin
  · obtain ⟨x, hx, phase, -, hbase, -⟩ := h.of_failed hin
    rw [Store.stageOf, hx, Option.map_some, hbase, Option.some_inj] at hstage
    exact absurd hstage (by cases phase <;> decide)
  · obtain ⟨x, hx, hdeferred, -⟩ := h.of_deferred hin
    rw [Store.stageOf, hx, Option.map_some, hdeferred] at hstage
    cases hstage
  · refine .inr ⟨?_, ?_⟩
    · by_contra hgo
      rw [hunreached.nobody (Bool.not_eq_true _ ▸ hgo)] at hin
      exact List.not_mem_nil hin
    · obtain ⟨vs, hvs, huvs, v, hv, hleft, hlinked⟩ :=
        hunreached.halted u hin hstage
      obtain ⟨run, hrun⟩ := hdivided.mem_iff hvs
      have hvus := h.todo_subset hleft
      exact ⟨v, hvus, ((hrun v hvus).1 hv).trans ((hrun u hu).1 huvs).symm,
        hlinked, (h.unreported hnd hleft).2⟩

end Pass

namespace Scene

variable (host : Host)

/-- A build that may be cancelled reports everybody who has been validated
whose run it has gone through, and everybody for whom a step has returned
an error. -/
theorem recorded_buildBatch (s : Scene) (batch : List Uri) :
    let us := s.store.unfinished batch
    let q := s.buildBatch host batch
    ∃ log, Recorded host s batch q.1 q.2 log
      ((s.opened host us).store.runOf q.1.store) := by
  intro us q
  obtain ⟨kept, found, rest, hdivided, hcourse⟩ :=
    s.course_buildBatch host batch
  obtain ⟨left, hunreached, haccounts⟩ :=
    accounts_course host hdivided hcourse
  have hnd := s.store.nodup_unfinished batch
  have hloaded : [kept, found, rest].flatten
      ⊆ (s.opened host us).store.uris := by
    intro u hu
    obtain ⟨-, d, hd, -⟩ := Store.mem_unfinished.1
      (hdivided.perm.subset (by simpa using hu))
    obtain ⟨x, hx, -⟩ := @get?_opened host s us u d hd
    exact (Store.isSome_get? _ u).1 (hx ▸ rfl)
  obtain ⟨-, log, hlog⟩ := hcourse.logged hloaded
  have hfinished := fun {u} => Pass.Accounts.of_finished (u := u)
    hdivided hunreached haccounts
  have hhalted := fun {u} => Pass.Accounts.finished_or_halted (u := u)
    hnd hdivided hunreached haccounts
  have hcompletes := fun {u} => @unfinished_of_completes host s batch u
  refine ⟨log, ?_, fun u => ⟨fun hu => hfinished hu, ?_⟩, fun hgo u =>
    ⟨fun hu => (hfinished hu).1, fun h => ?_⟩, ?_, hlog.failed⟩
  · exact (haccounts.shared.nodup_iff.2 hnd).of_append_left
  · rintro ⟨h, hrun⟩
    refine (hhalted (hcompletes h) h.2).resolve_right ?_
    rintro ⟨-, v, hv, hsame, hlinked, hnot⟩
    exact hnot (hrun v hv hsame hlinked)
  · refine (hhalted (hcompletes h) h.2).resolve_right fun hstop => ?_
    rw [show q.2.cancelled = false from hgo] at hstop
    cases hstop.1
  · rw [hlog.calls]
    exact congrArg (· ++ _) (calls_reread host _ _)

/-- Two ordinary documents that have been read. -/
def twins : Scene where
  store :=
    { entries :=
        [(Uri.ofString "/a.sysw", known (.ordinary ⟨[], []⟩)),
          (Uri.ofString "/b.sysw", known (.ordinary ⟨[], []⟩))]
      nodup := by decide +kernel }
  index := .empty []
  trace := .start false

/-- A host that withdraws while the first of them is validated. -/
def hasty : Host := Host.until (some (.validate, Uri.ofString "/a.sysw"))

/-- The first of them is validated then, and reported nowhere. -/
theorem not_reported_validated :
    let q := twins.buildBatch hasty twins.store.pending
    twins.store.Completes q.1.store (Uri.ofString "/a.sysw")
      ∧ q.2 = ⟨[], [], [], true⟩ := by
  refine ⟨⟨⟨known (.ordinary ⟨[], []⟩), ?_, ?_⟩, ?_⟩, ?_⟩ <;>
    decide +kernel

end Scene

end Purview
