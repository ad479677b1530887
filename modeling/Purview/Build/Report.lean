/-
What a build pass came to. A pass lists the documents it completed, the
ones a step failed on, and the ones it put off; a report of several
passes lets the last pass that completed a document decide that it no
longer counts as failed or put off.
-/
import Purview.Uri

namespace Purview

/-- The outcome of a build pass. -/
structure BuildReport where
  /-- Documents that have been validated. -/
  processed : List Uri
  /-- Documents on which a step failed. -/
  failed : List Uri
  /-- Documents whose owner is not ready for them to be linked. -/
  deferred : List Uri
  /-- Whether the request was withdrawn before the pass was done. -/
  cancelled : Bool
deriving DecidableEq

namespace BuildReport

/-- The report of a pass that did nothing. -/
def empty : BuildReport := ⟨[], [], [], false⟩

/-- Whether every document that the pass was to complete is complete. -/
def isComplete (r : BuildReport) : Bool :=
  !r.cancelled && r.failed.isEmpty && r.deferred.isEmpty

/-- The report of a pass followed by a later one. -/
def merge (r later : BuildReport) : BuildReport where
  processed := r.processed ++ later.processed
  failed := r.failed.filter (· ∉ later.processed) ++ later.failed
  deferred := r.deferred.filter (· ∉ later.processed) ++ later.deferred
  cancelled := r.cancelled || later.cancelled

end BuildReport

end Purview
