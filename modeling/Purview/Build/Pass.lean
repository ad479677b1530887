/-
A build pass: it takes documents up to `validated`, projects before all
others, since what the others see hangs on the projects being linked.
Within such a run of documents, each phase is finished on all of them
before the next begins. A document on which a step fails, or whose
owner is not ready, drops out of the rest of the pass and keeps the
stage it has reached.

Between any two calls the pass looks whether its request has been
withdrawn, and if so it stops where it is; nothing is taken back, so a
later pass goes on from there. Once seen, a withdrawal is part of the
report.

What a text says is only known once it is read, so the split into
projects and others is made again after each reading: documents never
read before come first, then those that were projects, and the others
when the projects are done. A document that turns out to be a project
then is built before the remaining others.
-/
import Purview.Build.Phase
import Purview.Build.Report

namespace Purview

-- ========================================================== a whole pass

/-- A pass under way. -/
structure Pass where
  scene : Scene
  report : BuildReport
deriving DecidableEq

namespace Pass

/-- Looks whether the request has been withdrawn. -/
def poll (p : Pass) : Pass :=
  { p with report := { p.report with
      cancelled := p.report.cancelled || p.scene.trace.withdrawn } }

/-- Reads those of the documents whose text has changed. -/
def reread (p : Pass) (host : Host) (us : List Uri) : Pass :=
  { p with scene := Scene.reread host us p.scene }

/-- The diagnostic of a step that failed. -/
def stepFailure (phase : Phase) (error : StepError) : Diagnostic :=
  { Diagnostic.atStart .build
      (phase.goal.name ++ " step failed: " ++ error.message) with
    code := some Diagnostic.Code.failedStep }

/-- Takes documents through a phase, one after another. The result is
the documents to go on with, or nothing if the request was withdrawn. -/
def runPhase (host : Host) (phase : Phase) :
    List Uri → Pass → Pass × Option (List Uri)
  | [], p => (p, some [])
  | u :: us, p =>
    let p := p.poll
    if p.report.cancelled then (p, none)
    else
      let (scene, outcome) := p.scene.carry host phase u
      match outcome with
      | .advanced =>
        let (p, active) := runPhase host phase us { p with scene := scene }
        (p, active.map (u :: ·))
      | .deferred =>
        runPhase host phase us
          ⟨scene, { p.report with deferred := p.report.deferred ++ [u] }⟩
      | .failed error =>
        runPhase host phase us
          ⟨scene.modify u (·.report (stepFailure phase error)),
            { p.report with failed := p.report.failed ++ [u] }⟩

/-- Takes documents through phases, one phase after another, and says
whether the pass may go on. -/
def runPhases (host : Host) : List Phase → List Uri → Pass → Pass × Bool
  | [], active, p =>
    ({ p with
      report := { p.report with processed := p.report.processed ++ active } },
      true)
  | phase :: phases, active, p =>
    let p := p.poll
    if p.report.cancelled then (p, false)
    else
      match runPhase host phase active p with
      | (p, none) => (p, false)
      | (p, some active) => runPhases host phases active p

/-- Takes a run of documents through all phases. Once projects have
been linked, horizons may have grown, so the index forgets them. -/
def runAll (host : Host) (us : List Uri) (p : Pass) : Pass × Bool :=
  if us.isEmpty then (p, true)
  else
    let projects := us.any p.scene.store.isProject
    let (p, more) := runPhases host Phase.all us p
    (if projects then { p with scene := p.scene.reindex Index.clear } else p,
      more)

end Pass

/-- The documents of a batch that a pass has to work on, each once. -/
def Store.unfinished (s : Store) (batch : List Uri) : List Uri :=
  Distinct.ofList (batch.filter fun u => (s.stageOf u).any (· < .validated))

/-- Splits documents into projects and others. -/
def Store.split (s : Store) (us : List Uri) : List Uri × List Uri :=
  us.partition s.isProject

/-- The pass over a batch once the never-read documents in it have been
read and the split into projects and others is known. -/
def Pass.runSplit (host : Host) (projects others : List Uri) (p : Pass) :
    Pass :=
  let p := p.poll
  if p.report.cancelled then p
  else
    let p := p.reread host projects
    let (projects, former) := p.scene.store.split projects
    let others := others ++ former
    let (p, more) := p.runAll host projects
    if !more then p
    else
      let p := p.poll
      if p.report.cancelled then p
      else
        let p := p.reread host others
        let (projects, others) := p.scene.store.split others
        let (p, more) := p.runAll host projects
        if !more then p else (p.runAll host others).1

namespace Scene

/-- Builds the given documents. Those that are not loaded or are
complete already are passed over. -/
def buildBatch (s : Scene) (host : Host) (batch : List Uri) :
    Scene × BuildReport :=
  let batch := s.store.unfinished batch
  if batch.isEmpty then (s, .empty)
  else
    let s := batch.foldl (fun s u => s.modify u Document.clearFailures) s
    let unread := batch.filter fun u => (s.store.get? u).any (·.content.isNone)
    let s := reread host unread s
    let (projects, others) := s.store.split batch
    let p := Pass.runSplit host projects others ⟨s, .empty⟩
    (p.scene, p.report)

/-- Builds every document that is not complete. -/
def build (s : Scene) (host : Host) : Scene × BuildReport :=
  s.buildBatch host s.store.pending

end Scene

end Purview
