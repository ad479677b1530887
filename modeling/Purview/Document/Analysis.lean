/-
The work of the steps on a single document. Indexing lists the names
that the document offers to others, scoping those that resolve within
it; linking looks up its references, first within the document and then
in its scope; validation checks it as a whole. A step that needs the
result of an earlier one refuses a document that lacks it, and a step
that fails leaves the document as it was.
-/
import Purview.Distinct
import Purview.Document
import Purview.LinkScope
import Purview.Step

namespace Purview.Document

-- ============================================================= indexing

/-- The names that a document offers: those it defines, each once, in
the order of the definitions. -/
def index (d : Document) (u : Uri) : Except StepError (List String) :=
  match d.content with
  | none => .error (.notParsed u)
  | some content => .ok (Distinct.ofList content.names)

/-- Finds the names that resolve within the document. -/
def scope (d : Document) (u : Uri) : Except StepError Document :=
  match d.content with
  | none => .error (.notParsed u)
  | some content => .ok { d with own := some (Distinct.ofList content.names) }

-- ============================================================== linking

/-- Where a reference leads: to the document itself if the name is one
of its own, and otherwise to the first document that offers it. -/
def targetOf (u : Uri) (own : List String) (scope : LinkScope) (name : String) :
    Option Uri :=
  if name ∈ own then some u else scope.resolve name

/-- The diagnostic of a reference that leads nowhere. -/
def unresolvedReference (r : Reference) : Diagnostic :=
  ⟨r.span, .error, .linker, some Diagnostic.Code.unresolvedReference,
    "cannot resolve `" ++ r.name ++ "`"⟩

/-- Looks up the references of a body. -/
def linkBody (u : Uri) (own : List String) (scope : LinkScope) (b : Body) :
    Body :=
  { b with references := b.references.map fun r =>
    { r with target := targetOf u own scope r.name } }

/-- Looks up the references of a document and reports those that lead
nowhere. Projects have none. -/
def link (d : Document) (u : Uri) (scope : LinkScope) :
    Except StepError Document :=
  match d.own with
  | none => .error (.missingStage u .surveyed)
  | some own =>
    match d.content with
    | none => .error (.notParsed u)
    | some (.descriptor _) => .ok d
    | some (.ordinary b) =>
      let linked := linkBody u own scope b
      let dangling := linked.references.filter (·.target.isNone)
      .ok { d with
        content := some (.ordinary linked)
        diagnostics := d.diagnostics ++ dangling.map unresolvedReference }

-- =========================================================== validation

/-- The diagnostic of a name that is defined again. -/
def repeatedDefinition (x : Definition) : Diagnostic :=
  ⟨x.span, .warning, .validator, some Diagnostic.Code.repeatedDefinition,
    "`" ++ x.name ++ "` is defined more than once"⟩

/-- The definitions whose name an earlier one has. `seen` are the names
before the list. -/
def repeated (seen : List String) : List Definition → List Definition
  | [] => []
  | x :: xs =>
    if x.name ∈ seen then x :: repeated seen xs
    else repeated (seen ++ [x.name]) xs

/-- The diagnostic of a dependency on a project that is not loaded. -/
def unknownProject (d : Dependency) : Diagnostic :=
  ⟨d.span, .error, .validator, some Diagnostic.Code.unknownProject,
    "unknown project `" ++ d.name ++ "`"⟩

/-- The diagnostic of a project that depends on itself. -/
def dependencyCycle (d : Descriptor) (cycle : List String) : Diagnostic :=
  ⟨d.span, .warning, .validator, some Diagnostic.Code.dependencyCycle,
    "dependency cycle: " ++ " -> ".intercalate cycle⟩

/-- What is wrong with a document as a whole. -/
def complaints (content : Content) (scope : LinkScope) : List Diagnostic :=
  match content with
  | .ordinary b => (repeated [] b.definitions).map repeatedDefinition
  | .descriptor d =>
    match scope.facts with
    | none => []
    | some facts =>
      facts.unresolved.map unknownProject
        ++ (facts.cycle.map (dependencyCycle d)).toList

/-- Checks a document as a whole. -/
def validate (d : Document) (u : Uri) (scope : LinkScope) :
    Except StepError Document :=
  match d.content with
  | none => .error (.notParsed u)
  | some content =>
    .ok { d with diagnostics := d.diagnostics ++ complaints content scope }

end Purview.Document
