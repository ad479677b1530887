/-
What a document says. A document either describes a project, naming the
projects it depends on and the folders its sources lie in, or it is
ordinary: a list of definitions and a list of references to definitions
anywhere in the workspace. The two are told apart by the first word of
the text and have nothing in common but their spans, so they are the
two cases of `Content`.
-/
import Purview.Literal.Duration
import Purview.Text.Span
import Purview.Uri

namespace Purview

/-- The kinds of projects. -/
inductive ProjectKind where
  | project
  | profile
  | tool
deriving DecidableEq

/-- The name of a kind of project. -/
def ProjectKind.name : ProjectKind → String
  | project => "project"
  | profile => "profile"
  | tool => "tool"

/-- A dependency on the project of a name. -/
structure Dependency where
  name : String
  span : Span
deriving DecidableEq

/-- The description of a project. -/
structure Descriptor where
  kind : ProjectKind
  /-- Empty if the name is missing. -/
  name : String
  /-- Where the name stands, or the first word if it is missing. -/
  span : Span
  dependencies : List Dependency
  /-- Source folders, as written: paths from the descriptor's folder. -/
  folders : List String
deriving DecidableEq

/-- Whether a project names another as a dependency. -/
def Descriptor.dependsOn (d : Descriptor) (name : String) : Bool :=
  d.dependencies.any (·.name = name)

/-- A definition, with the duration it may stand for. -/
structure Definition where
  name : String
  span : Span
  value : Option Duration
deriving DecidableEq

/-- A reference to a definition, with the document that has it once it
has been found. -/
structure Reference where
  name : String
  span : Span
  target : Option Uri
deriving DecidableEq

/-- What an ordinary document defines and refers to. -/
structure Body where
  definitions : List Definition
  references : List Reference
deriving DecidableEq

/-- The names that a body defines, repetitions included. -/
def Body.names (b : Body) : List String :=
  b.definitions.map (·.name)

/-- A body whose references have no targets. -/
def Body.unlink (b : Body) : Body :=
  { b with references := b.references.map fun r => { r with target := none } }

/-- What a document says. -/
inductive Content where
  | descriptor (d : Descriptor)
  | ordinary (b : Body)
deriving DecidableEq

namespace Content

/-- The descriptor of a project. -/
def descriptor? : Content → Option Descriptor
  | descriptor d => some d
  | ordinary _ => none

/-- The body of an ordinary document. -/
def body? : Content → Option Body
  | descriptor _ => none
  | ordinary b => some b

/-- Forgets every target. -/
def unlink : Content → Content
  | descriptor d => descriptor d
  | ordinary b => ordinary b.unlink

/-- The names that a document defines, repetitions included. -/
def names : Content → List String
  | descriptor _ => []
  | ordinary b => b.names

end Content

end Purview
