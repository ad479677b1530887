/-
What a document can see. A document that no project owns sees every
loaded document. One that a project owns sees the documents below the
source folders of the projects in its owner's closure, over linked
edges only, and the builtins; never itself.

`Horizon.of` is the definition, a function of the loaded documents and
nothing else. It is costly, so an `Index` remembers the horizons it has
been asked for until they are evicted. The index does not know when a
horizon has changed: whoever changes the documents has to evict what
the change touches.
-/
import Purview.Project.Walk

namespace Purview

/-- The documents that a document can see. -/
inductive Visibility where
  /-- Every loaded document. -/
  | all
  /-- The given documents, in the order in which they are searched. -/
  | only (uris : List Uri)
deriving DecidableEq

namespace Visibility

/-- Whether every loaded document is seen. -/
def isAll : Visibility → Bool
  | all => true
  | only _ => false

/-- Whether a document is seen. -/
def contains (v : Visibility) (u : Uri) : Bool :=
  match v with
  | all => true
  | only us => decide (u ∈ us)

/-- Whether one of some documents is seen. Who sees everything counts
as seeing one of them, even of none. -/
def intersects (v : Visibility) (us : List Uri) : Bool :=
  match v with
  | all => true
  | only seen => us.any (· ∈ seen)

end Visibility

/-- What a document can see, with what that hangs on. -/
structure Horizon where
  /-- The closure of the owner; empty without one. -/
  closure : List Uri
  /-- The source folders of the closure. -/
  folders : List Uri
  visible : Visibility
deriving DecidableEq

/-- What a document can see among the loaded ones. -/
def Horizon.of (s : Store) (builtins : List Uri) (u : Uri) : Horizon :=
  match s.projects.ownerOf? u with
  | none => ⟨[], [], .all⟩
  | some owner =>
    let closure := s.projects.closure .linked owner.uri
    let folders := s.projects.folders closure
    let near := s.uris.filter fun v => v ≠ u ∧ folders.any v.isWithin
    ⟨closure, folders,
      .only (Distinct.union near (builtins.filter (· ≠ u)))⟩

/-- The horizons that have been asked for, with the builtins that all
of them include. -/
structure Index where
  builtins : List Uri
  horizons : List (Uri × Horizon)
deriving DecidableEq

namespace Index

/-- An index that remembers nothing. -/
def empty (builtins : List Uri) : Index := ⟨builtins, []⟩

/-- What a document can see, remembered from now on. -/
def look (i : Index) (s : Store) (u : Uri) : Index × Horizon :=
  match i.horizons.lookup u with
  | some h => (i, h)
  | none =>
    let h := Horizon.of s i.builtins u
    ({ i with horizons := i.horizons ++ [(u, h)] }, h)

/-- Whether the horizon of the identity written in one particular way
is remembered. -/
def isCached (i : Index) (written : String) : Bool :=
  i.horizons.any fun e => e.1.render = written

-- =========================================================== eviction

/-- Forgets the horizons for which a test does not hold. -/
def retain (i : Index) (keep : Uri → Horizon → Bool) : Index :=
  { i with horizons := i.horizons.filter fun e => keep e.1 e.2 }

/-- Forgets the horizon of a document. -/
def evict (i : Index) (u : Uri) : Index :=
  i.retain fun v _ => v ≠ u

/-- Forgets the horizon of the identity written in one particular way. -/
def evictWritten (i : Index) (written : String) : Index :=
  i.retain fun v _ => v.render ≠ written

/-- Forgets every horizon in which a document comes or goes, that is,
has a folder above it. -/
def evictCovering (i : Index) (u : Uri) : Index :=
  i.retain fun _ h => !h.folders.any u.isWithin

/-- Forgets every horizon whose closure has one of some projects. -/
def evictClosures (i : Index) (projects : List Uri) : Index :=
  i.retain fun _ h => !projects.any (· ∈ h.closure)

/-- Forgets every horizon. -/
def clear (i : Index) : Index :=
  { i with horizons := [] }

-- ============================================================ questions

/-- Whether a document may resolve differently once some documents have
changed: it sees everything, it sees one of them, or one of them is a
project in the closure of its owner. -/
def isAffected (i : Index) (s : Store) (u : Uri) (changed : List Uri) :
    Index × Bool :=
  let (i, h) := i.look s u
  (i, h.visible.isAll || h.visible.intersects changed
    || h.closure.any (· ∈ changed))

end Index

end Purview
