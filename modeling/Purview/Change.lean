/-
What comes from outside: documents as they are handed in, and changes
to documents that may be loaded already.
-/
import Purview.Uri

namespace Purview

/-- A document as it is handed in: its identity and its text. -/
structure SourceFile where
  uri : Uri
  text : String
deriving DecidableEq

/-- A change to the documents. -/
inductive Change where
  /-- A document has a new text, or is new. -/
  | edit (file : SourceFile)
  /-- A document is gone. -/
  | removal (uri : Uri)
deriving DecidableEq

namespace Change

/-- The document that changes. -/
def uri : Change → Uri
  | edit file => file.uri
  | removal uri => uri

/-- Whether the change is that the document is gone. -/
def isRemoval : Change → Bool
  | edit _ => false
  | removal _ => true

end Change

end Purview
