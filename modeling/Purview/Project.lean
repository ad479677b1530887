/-
The loaded projects, as the graph that their dependencies span. A
dependency names a project, and of several projects with one name the
first loaded owns it; so the edges are a function of the loaded
projects alone and are looked up afresh each time. An edge may be asked
for as it stands (`any`) or only once the project it leads to has been
linked (`linked`), so that a graph still being built is seen smaller
than it will be, never larger.

A project owns the documents strictly below one of its source folders;
where folders overlap, the first loaded project wins.
-/
import Purview.Distinct
import Purview.Store

namespace Purview

/-- A loaded project. -/
structure Project where
  uri : Uri
  descriptor : Descriptor
  stage : Stage
deriving DecidableEq

/-- The project that a loaded document describes. -/
def Project.ofEntry? (e : Uri × Document) : Option Project :=
  e.2.descriptor?.map fun d => ⟨e.1, d, e.2.stage⟩

/-- The source folders of a project: each path followed from the folder
of the descriptor. -/
def Project.folders (p : Project) : List Uri :=
  p.descriptor.folders.map p.uri.parent.join

/-- Whether a document lies below a source folder of a project. -/
def Project.owns (p : Project) (u : Uri) : Bool :=
  p.folders.any u.isWithin

/-- Loaded projects in load order. -/
abbrev Projects := List Project

/-- The loaded projects. -/
def Store.projects (s : Store) : Projects :=
  s.entries.filterMap Project.ofEntry?

/-- Which edges of the graph are followed. -/
inductive EdgePolicy where
  /-- Every edge to a loaded project. -/
  | any
  /-- Edges to projects that have been linked. -/
  | linked
deriving DecidableEq

/-- Whether an edge to a project is followed. -/
def EdgePolicy.admits : EdgePolicy → Project → Bool
  | any, _ => true
  | linked, p => decide (Stage.linked ≤ p.stage)

namespace Projects

variable (ps : Projects)

-- ============================================================== lookup

/-- The identities of the projects. -/
def uris : List Uri := ps.map (·.uri)

/-- The project of an identity. -/
def get? (u : Uri) : Option Project := ps.find? (·.uri = u)

/-- The project that owns a name. -/
def named? (name : String) : Option Project :=
  ps.find? (·.descriptor.name = name)

/-- Whether a dependency names a loaded project. -/
def resolves (d : Dependency) : Bool := (named? ps d.name).isSome

-- =============================================================== edges

/-- The projects that a project's dependencies lead to, in declaration
order. -/
def edges (policy : EdgePolicy) (p : Project) : List Uri :=
  p.descriptor.dependencies.filterMap fun d =>
    ((named? ps d.name).filter policy.admits).map (·.uri)

/-- The projects that the dependencies of an identity lead to. -/
def targets (policy : EdgePolicy) (u : Uri) : List Uri :=
  match get? ps u with
  | none => []
  | some p => edges ps policy p

/-- The projects with an edge to a given one, in load order. -/
def sources (u : Uri) : List Uri :=
  uris (ps.filter fun p => u ∈ edges ps .any p)

-- =========================================================== ownership

/-- The source folders of the projects with the given identities. -/
def folders (us : List Uri) : List Uri :=
  Distinct.ofList ((us.filterMap (get? ps)).flatMap Project.folders)

/-- The project that owns a document. -/
def ownerOf? (u : Uri) : Option Project := ps.find? (·.owns u)

-- ========================================================== unresolved

/-- The dependencies of a project that name no loaded project. -/
def unresolved (u : Uri) : List Dependency :=
  match get? ps u with
  | none => []
  | some p => p.descriptor.dependencies.filter fun d => !resolves ps d

/-- The projects with a dependency that names no loaded project. -/
def withUnresolved : List Uri :=
  uris (ps.filter fun p =>
    p.descriptor.dependencies.any fun d => !resolves ps d)

end Projects

end Purview
