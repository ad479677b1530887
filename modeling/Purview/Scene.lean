/-
The state that the steps of one request work on: the loaded documents,
the index over them, and the trace of the calls made so far. Requests
are built from a few moves on a scene: calling a step, unlinking a
document, sending it back to an earlier stage.
-/
import Purview.Document.Analysis
import Purview.Visibility

namespace Purview

/-- What the steps of a request work on. -/
structure Scene where
  store : Store
  index : Index
  trace : Trace
deriving DecidableEq

namespace Scene

/-- A scene with nothing loaded. -/
def empty (builtins : List Uri) : Scene :=
  ⟨.empty, .empty builtins, .start false⟩

/-- The scene at the start of a request, which may have been withdrawn
before it was made. -/
def begin (s : Scene) (withdrawn : Bool) : Scene :=
  { s with trace := .start withdrawn }

/-- Records a call of a step on a document. -/
def note (s : Scene) (host : Host) (step : Step) (u : Uri) : Scene :=
  { s with trace := s.trace.note host step u }

/-- Changes a document in place. -/
def modify (s : Scene) (u : Uri) (f : Document → Document) : Scene :=
  { s with store := s.store.modify u f }

/-- Changes the index. -/
def reindex (s : Scene) (f : Index → Index) : Scene :=
  { s with index := f s.index }

/-- Reads a text and loads it under an identity. -/
def insertRead (s : Scene) (host : Host) (u : Uri) (text : String) : Scene :=
  let s := s.note host .parse u
  { s with store := s.store.insert u (.read text) }

/-- Forgets the targets of a document's references. -/
def unlink (s : Scene) (host : Host) (u : Uri) : Scene :=
  (s.note host .unlink u).modify u Document.unlink

/-- Sends a document that has been linked back to where linking starts,
and says whether there was one to send. -/
def sendBack (s : Scene) (host : Host) (u : Uri) : Scene × Bool :=
  if (s.store.stageOf u).any (Stage.surveyed < ·) then
    ((s.unlink host u).modify u (·.demote .surveyed), true)
  else (s, false)

/-- Sends documents back to where linking starts, one after another,
and says which of them had to be sent. -/
def sendBackAll (host : Host) : List Uri → Scene → Scene × List Uri
  | [], s => (s, [])
  | u :: us, s =>
    let (s, sent) := s.sendBack host u
    let (s, rest) := sendBackAll host us s
    (s, if sent then u :: rest else rest)

end Scene

end Purview
