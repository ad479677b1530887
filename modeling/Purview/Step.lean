/-
The steps of the pipeline, as calls that somebody else can watch, break
or interrupt. The library does not decide whether a step succeeds: a
step may fail for reasons of its host before it has done its work or
after it, and the host may withdraw its request at any call. A `Host`
says which, and a `Trace` records what has been called and whether the
request has been withdrawn. Neither can be seen by the step itself.
-/
import Purview.Stage
import Purview.Uri

namespace Purview

/-- The calls that work on a single document. -/
inductive Step where
  | parse
  | index
  | scope
  | link
  | validate
  | unlink
deriving DecidableEq

/-- The causes for which a step fails. -/
inductive StepError where
  /-- The document has no content to work on. -/
  | notParsed (uri : Uri)
  /-- The document lacks what an earlier stage provides. -/
  | missingStage (uri : Uri) (stage : Stage)
  /-- Anything else. -/
  | failed (message : String)
deriving DecidableEq

namespace StepError

/-- The text shown for a cause. -/
def message : StepError → String
  | notParsed uri => uri.render ++ " has not been parsed"
  | missingStage uri stage =>
    uri.render ++ " is missing data from the " ++ stage.name ++ " stage"
  | failed message => message

end StepError

/-- A failure imposed on a step. -/
structure Fault where
  /-- Whether the step has done its work by the time it fails. -/
  after : Bool
  error : StepError
deriving DecidableEq

/-- The circumstances under which steps are called. -/
structure Host where
  /-- The failure imposed on a step of a document. -/
  fault? : Step → Uri → Option Fault
  /-- The call during which the request is withdrawn. -/
  withdrawAt : Option (Step × Uri)

/-- A host that imposes no failures and never withdraws. -/
def Host.calm : Host := ⟨fun _ _ => none, none⟩

/-- What has been called so far. -/
structure Trace where
  calls : List (Step × Uri)
  /-- Whether the request has been withdrawn. -/
  withdrawn : Bool
deriving DecidableEq

namespace Trace

/-- The trace of a request that has made no calls yet. -/
def start (withdrawn : Bool) : Trace := ⟨[], withdrawn⟩

/-- Records a call, with which the host may withdraw its request. -/
def note (t : Trace) (host : Host) (step : Step) (u : Uri) : Trace :=
  ⟨t.calls ++ [(step, u)],
    t.withdrawn || decide (host.withdrawAt = some (step, u))⟩

end Trace

/-- How a call ended. -/
inductive Attempt (α : Type) where
  /-- The work was done. -/
  | succeeded (result : α)
  /-- The call failed, and no work was done. -/
  | failedBefore (error : StepError)
  /-- The work was done, and then the call failed. -/
  | failedAfter (result : α) (error : StepError)
deriving DecidableEq

/-- Calls a step on a document. Work that fails by itself leaves nothing
for the host to spoil. -/
def Host.attempt {α : Type} (host : Host) (step : Step) (u : Uri)
    (work : Except StepError α) : Attempt α :=
  match host.fault? step u, work with
  | some ⟨false, error⟩, _ => .failedBefore error
  | _, .error error => .failedBefore error
  | none, .ok result => .succeeded result
  | some ⟨true, error⟩, .ok result => .failedAfter result error

/-- The error that a call ended with. -/
def Attempt.error? {α : Type} : Attempt α → Option StepError
  | succeeded _ => none
  | failedBefore error | failedAfter _ error => some error

/-- What the work came to, if it was done. -/
def Attempt.result? {α : Type} : Attempt α → Option α
  | succeeded result | failedAfter result _ => some result
  | failedBefore _ => none

end Purview
