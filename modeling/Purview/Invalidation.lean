/-
What a change makes stale. A document that changes is unlinked and sent
back to `changed`; the projects whose dependencies may now come to
something else are sent back to where linking starts. For a project
these are the projects that depend on it, by way of others too, and
those with a dependency that names no loaded project, which a new name
may satisfy; for any other document they are the projects that depend
on its owner. Both are found before anything is sent back, while the
old content is still what the graph is made of.

The index forgets what the change touches: everything for a project,
since ownership may move, and otherwise the document's own horizon and
those over the affected projects.
-/
import Purview.Scene

namespace Purview

/-- What an invalidation came to. -/
structure Invalidated where
  /-- The documents that were sent back, in order. -/
  demoted : List Uri
  /-- The projects that the change concerns, sent back or not. -/
  affected : List Uri
deriving DecidableEq

/-- An invalidation that concerned nothing. -/
def Invalidated.nothing : Invalidated := ⟨[], []⟩

/-- The projects that a change to a project concerns. -/
def Projects.affectedByProject (ps : Projects) (u : Uri) : List Uri :=
  Distinct.union (ps.dependents u) (ps.withUnresolved.filter (· ≠ u))

/-- The projects that a change to an ordinary document concerns. -/
def Projects.affectedByDocument (ps : Projects) (u : Uri) : List Uri :=
  match ps.ownerOf? u with
  | none => []
  | some owner => ps.dependents owner.uri

namespace Scene

/-- Accounts for a change to a loaded document. One that is not loaded
concerns nothing. -/
def invalidate (s : Scene) (host : Host) (u : Uri) : Scene × Invalidated :=
  match s.store.get? u with
  | none => (s, .nothing)
  | some d =>
    let ps := s.store.projects
    let affected :=
      if d.isProject then ps.affectedByProject u
      else ps.affectedByDocument u
    let demoted := if Stage.changed < d.stage then [u] else []
    let s := (s.unlink host u).modify u (·.demote .changed)
    let (s, sent) := sendBackAll host affected s
    let s := s.reindex fun i =>
      if d.isProject then i.clear else (i.evict u).evictClosures affected
    (s, ⟨demoted ++ sent, affected⟩)

/-- Accounts for a document that has just been loaded. A new project
concerns the same projects as a changed one; any other document only
comes into the horizons with a folder above it. -/
def added (s : Scene) (host : Host) (u : Uri) : Scene × Invalidated :=
  match s.store.get? u with
  | none => (s, .nothing)
  | some d =>
    if d.isProject then
      let affected := s.store.projects.affectedByProject u
      let (s, sent) := sendBackAll host affected s
      (s.reindex Index.clear, ⟨sent, affected⟩)
    else (s.reindex (·.evictCovering u), .nothing)

/-- Drops a document, after accounting for the change. -/
def removed (s : Scene) (host : Host) (u : Uri) : Scene × Option Invalidated :=
  if s.store.contains u then
    let (s, report) := s.invalidate host u
    let s := { s with store := s.store.erase u }
    (s.reindex fun i => (i.evict u).evictCovering u, some report)
  else (s, none)

end Scene

end Purview
