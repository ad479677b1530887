/-
The scope in which a document is linked. A project's scope is what its
dependencies come to, and needs no horizon. For any other document it
is the offers of the documents it can see, in the order of its horizon:
load order if it sees everything, and otherwise near documents in load
order before builtins. Documents that offer nothing yet are left out.
-/
import Purview.LinkScope
import Purview.Visibility

namespace Purview

/-- What the dependencies of a project come to. -/
def Projects.facts (ps : Projects) (u : Uri) : DependencyFacts :=
  ⟨ps.unresolved u, ps.cycle? u⟩

/-- The names that documents offer, in the given order. -/
def Store.offersOf (s : Store) (us : List Uri) : List (Uri × List String) :=
  us.filterMap fun v =>
    ((s.get? v).bind (·.offered)).map fun names => (v, names)

/-- The documents that a document with some visibility is linked
against, in the order in which they are searched. -/
def Store.candidates (s : Store) (u : Uri) : Visibility → List Uri
  | .all => s.uris.filter (· ≠ u)
  | .only us => us

/-- The scope in which a document is linked. A document that is not
loaded has an empty one. -/
def Index.linkScope (i : Index) (s : Store) (u : Uri) : Index × LinkScope :=
  match s.get? u with
  | none => (i, .empty)
  | some d =>
    if d.isProject then (i, ⟨[], some (s.projects.facts u)⟩)
    else
      let (i, h) := i.look s u
      (i, ⟨s.offersOf (s.candidates u h.visible), none⟩)

end Purview
