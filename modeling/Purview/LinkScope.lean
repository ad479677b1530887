/-
What a document may be linked against: for an ordinary document the
names that the documents it can see offer, in the order in which they
are searched, and for a project what its dependencies come to.
-/
import Purview.Content
import Purview.Distinct

namespace Purview

/-- What a project's dependencies come to. -/
structure DependencyFacts where
  /-- Dependencies that name no loaded project. -/
  unresolved : List Dependency
  /-- The names along a way back to the project, which stands at both
  ends. -/
  cycle : Option (List String)
deriving DecidableEq

/-- What a document may be linked against. -/
structure LinkScope where
  /-- The documents that are searched, with the names they offer. -/
  offers : List (Uri × List String)
  /-- Present for projects only. -/
  facts : Option DependencyFacts
deriving DecidableEq

namespace LinkScope

/-- A scope in which nothing is found. -/
def empty : LinkScope := ⟨[], none⟩

/-- A document to search after those that are there already. -/
def add (s : LinkScope) (u : Uri) (names : List String) : LinkScope :=
  { s with offers := s.offers ++ [(u, names)] }

/-- The first document that offers a name. -/
def resolve (s : LinkScope) (name : String) : Option Uri :=
  (s.offers.find? fun o => name ∈ o.2).map Prod.fst

/-- The names that can be found, each once. -/
def names (s : LinkScope) : List String :=
  Distinct.ofList (s.offers.flatMap Prod.snd)

end LinkScope

end Purview
