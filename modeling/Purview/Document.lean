/-
A loaded document: its text, how far it has been worked on, and what
the stages so far have found out about it. The identity is not part of
it: the store keeps documents under their identities.

Work moves a document forward (`advance`) and never back; `demote` is
the way back, and it throws away whatever the stages above the target
had added, diagnostics included. The content outlives a demotion to
`changed`: until the text is read again, the old content is what others
know of the document.
-/
import Purview.Content.Reader
import Purview.Stage

namespace Purview

/-- A document without its identity. -/
structure Document where
  text : String
  /-- How often the text has been replaced, as 32 bits count. -/
  version : UInt32
  stage : Stage
  /-- What the text said when it was last read. -/
  content : Option Content
  diagnostics : List Diagnostic
  /-- The names offered to other documents. -/
  offered : Option (List String)
  /-- The names that resolve within the document, as a set. -/
  own : Option (List String)
  /-- Whether the document came with the workspace and cannot change. -/
  builtin : Bool
deriving DecidableEq

/-- A version is shown as a number. -/
instance coeVersion : CoeOut UInt32 Nat := ⟨UInt32.toNat⟩

namespace Document

-- =========================================================== creation

/-- A document whose text has not been read. -/
def unread (text : String) : Document where
  text := text
  version := 0
  stage := .changed
  content := none
  diagnostics := []
  offered := none
  own := none
  builtin := false

/-- Takes over what a text says and forgets what was derived from the
content before. -/
def applyRead (d : Document) (found : Content × List Diagnostic) : Document :=
  { d with
    content := some found.1
    diagnostics := found.2
    offered := none
    own := none }

/-- A document that has been read. -/
def read (text : String) : Document :=
  { (unread text).applyRead (Content.ofText text) with stage := .parsed }

-- ========================================================== questions

/-- The descriptor, if the document describes a project. -/
def descriptor? (d : Document) : Option Descriptor :=
  d.content.bind Content.descriptor?

/-- The body, if the document is an ordinary one. -/
def body? (d : Document) : Option Body :=
  d.content.bind Content.body?

/-- Whether the document describes a project. -/
def isProject (d : Document) : Bool :=
  d.descriptor?.isSome

/-- Whether some diagnostic is an error. -/
def hasErrors (d : Document) : Bool :=
  d.diagnostics.any Diagnostic.isError

/-- Whether some reference has no target. -/
def hasUnresolved (d : Document) : Bool :=
  match d.body? with
  | some b => b.references.any (·.target.isNone)
  | none => false

/-- Whether some reference has its target among the given documents. -/
def linksInto (d : Document) (uris : List Uri) : Bool :=
  match d.body? with
  | some b => b.references.any fun r => r.target.any (· ∈ uris)
  | none => false

-- ============================================================ changes

/-- Adds a diagnostic. -/
def report (d : Document) (diagnostic : Diagnostic) : Document :=
  { d with diagnostics := d.diagnostics ++ [diagnostic] }

/-- Replaces the text. The content stays until the text is read. -/
def setText (d : Document) (text : String) : Document :=
  { d with text := text, version := d.version + 1 }

/-- Drops the diagnostics that failed steps left behind. -/
def clearFailures (d : Document) : Document :=
  { d with diagnostics := d.diagnostics.filter fun x => x.origin ≠ .build }

/-- Moves on to a stage, unless the document is there already. -/
def advance (d : Document) (stage : Stage) : Document :=
  if d.stage < stage then { d with stage := stage } else d

/-- Whether a diagnostic still holds for a document that has gone back
to a stage: it does if the part of the pipeline that raised it does its
work at or below that stage. What a failed step left never does. -/
def survives (target : Stage) (x : Diagnostic) : Bool :=
  match x.origin with
  | .parser => decide (Stage.parsed ≤ target)
  | .linker => decide (Stage.linked ≤ target)
  | .validator => decide (Stage.validated ≤ target)
  | .build => false

/-- Moves back to a stage and drops what the stages above it had found.
A document at or below the stage stays as it is. -/
def demote (d : Document) (target : Stage) : Document :=
  if target < d.stage then
    { d with
      stage := target
      diagnostics := d.diagnostics.filter (survives target)
      own := if target < .surveyed then none else d.own
      offered := if target < .indexed then none else d.offered }
  else d

/-- Forgets the targets of all references. -/
def unlink (d : Document) : Document :=
  { d with content := d.content.map Content.unlink }

-- ============================================== stages after a change

/-- Moving on never goes back. -/
theorem le_stage_advance (d : Document) (stage : Stage) :
    d.stage ≤ (d.advance stage).stage := by
  unfold advance
  split
  · next h => exact Nat.le_of_lt h
  · exact Nat.le_refl _

/-- Moving back never goes on. -/
theorem stage_demote_le (d : Document) (target : Stage) :
    (d.demote target).stage ≤ d.stage := by
  unfold demote
  split
  · next h => exact Nat.le_of_lt h
  · exact Nat.le_refl _

/-- A document at or below the stage it is sent back to stays as it is;
so sending it back again does nothing. -/
theorem demote_demote (d : Document) (target : Stage) :
    (d.demote target).demote target = d.demote target := by
  have h : ¬ target < (d.demote target).stage := by
    unfold demote
    split
    · exact Nat.lt_irrefl _
    · next h => exact h
  rw [demote, if_neg h]

end Document

end Purview
