/-
The stages of a document's life. A document whose text is new is
`changed`; from there a build takes it up one stage at a time, and only
invalidation takes it back down. The stages are ordered by `rank`, and
every comparison between stages is one between ranks.
-/

namespace Purview

/-- How far a document has been worked on. -/
inductive Stage where
  /-- The text has not been read since it changed. -/
  | changed
  /-- The content is that of the text. -/
  | parsed
  /-- The names offered to other documents are known. -/
  | indexed
  /-- The names that resolve within the document are known. -/
  | surveyed
  /-- References have been looked up. -/
  | linked
  /-- The document has been checked as a whole. -/
  | validated
deriving DecidableEq

namespace Stage

/-- The position of a stage. -/
def rank : Stage → Nat
  | changed => 0
  | parsed => 1
  | indexed => 2
  | surveyed => 3
  | linked => 4
  | validated => 5

instance : LE Stage := ⟨fun a b => a.rank ≤ b.rank⟩

instance : LT Stage := ⟨fun a b => a.rank < b.rank⟩

instance (a b : Stage) : Decidable (a ≤ b) := Nat.decLe a.rank b.rank

instance (a b : Stage) : Decidable (a < b) := Nat.decLt a.rank b.rank

/-- Stages compare as their ranks do. -/
theorem le_def {a b : Stage} : a ≤ b ↔ a.rank ≤ b.rank := Iff.rfl

theorem lt_def {a b : Stage} : a < b ↔ a.rank < b.rank := Iff.rfl

/-- The stage in which a document begins its life. -/
def first : Stage := changed

/-- The stages that a build reaches, in order. -/
def reached : List Stage := [parsed, indexed, surveyed, linked, validated]

/-- The name of a stage. -/
def name : Stage → String
  | changed => "changed"
  | parsed => "parsed"
  | indexed => "indexed-locally"
  | surveyed => "computed-scopes"
  | linked => "linked"
  | validated => "validated"

end Stage

end Purview
