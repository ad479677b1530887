/-
Diagnostics: what the library has to say about a document. Each is
bound to a span of the document's text, carries a severity and the part
of the pipeline that raised it, and may carry a code.
-/
import Purview.Text.Span

namespace Purview

/-- How grave a diagnostic is. -/
inductive Severity where
  | error
  | warning
  | info
  | hint
deriving DecidableEq

namespace Severity

/-- Every severity, gravest first. -/
def all : List Severity := [error, warning, info, hint]

/-- The name of a severity. -/
def name : Severity → String
  | error => "error"
  | warning => "warning"
  | info => "info"
  | hint => "hint"

/-- The number by which editors know a severity. -/
def level : Severity → Nat
  | error => 1
  | warning => 2
  | info => 3
  | hint => 4

end Severity

/-- The part of the pipeline that a diagnostic comes from. -/
inductive Origin where
  | parser
  | linker
  | validator
  | build
deriving DecidableEq

namespace Origin

/-- The name of an origin. -/
def name : Origin → String
  | parser => "parser"
  | linker => "linker"
  | validator => "validator"
  | build => "build"

end Origin

/-- A remark on a span of a document. -/
structure Diagnostic where
  span : Span
  severity : Severity
  origin : Origin
  code : Option String
  message : String
deriving DecidableEq

namespace Diagnostic

/-- An error at the very start of a document, for faults that concern
no particular place in it. -/
def atStart (origin : Origin) (message : String) : Diagnostic :=
  ⟨Span.empty 0, .error, origin, none, message⟩

/-- Whether a diagnostic is an error. -/
def isError (d : Diagnostic) : Bool :=
  decide (d.severity = .error)

/-- One line for a diagnostic: severity, code in brackets if there is
one, offset and message. -/
def render (d : Diagnostic) : String :=
  let code := match d.code with
    | some code => "[" ++ code ++ "]"
    | none => ""
  d.severity.name ++ code ++ "@" ++ Nat.repr d.span.start ++ ": " ++ d.message

/-! The codes of the diagnostics that the library raises itself. -/

namespace Code

/-- A text that departs from the grammar. -/
def unreadableText : String := "E0001"

/-- A literal that cannot be read. -/
def unreadableLiteral : String := "E0002"

/-- A reference without a target. -/
def unresolvedReference : String := "E0003"

/-- A dependency on a project that is not loaded. -/
def unknownProject : String := "E0004"

/-- A step that did not succeed. -/
def failedStep : String := "E0005"

/-- A project that depends on itself. -/
def dependencyCycle : String := "W0001"

/-- A name that is defined again. -/
def repeatedDefinition : String := "W0002"

end Code

end Diagnostic

end Purview
