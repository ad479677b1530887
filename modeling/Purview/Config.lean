/-
What a workspace is made from. A configuration says which files are
documents, by their extension, and which documents come as builtins:
some are given as such, and the rest are those in a folder.
-/
import Purview.Change
import Purview.Disk

namespace Purview

/-- What a workspace is made from. -/
structure Config where
  /-- The extensions of documents, without the dot. -/
  extensions : List String
  /-- Builtins given as such. -/
  builtins : List SourceFile
  /-- The folder with further builtins. -/
  builtinFolder : Option String
deriving DecidableEq

namespace Config

/-- The scheme of builtins from a folder. -/
def builtinScheme : String := "builtin://"

/-- The folder in which builtins are looked for if none is named. -/
def builtinFolderName : String := "builtins"

/-- The environment variable that names a folder of builtins. -/
def builtinVariable : String := "SYSTER_BUILTIN_DIR"

/-- No builtins, and the usual extension. -/
def standard : Config := ⟨["sysw"], [], none⟩

/-- The last name on a path, unless the path ends in `..`. -/
def fileName? (path : String) : Option String :=
  match (Disk.placeOf path).getLast? with
  | some name => if name = ".." then none else some name
  | none => none

/-- Whether a path is that of a document. -/
def accepts (c : Config) (path : String) : Bool :=
  ((fileName? path).bind Uri.extensionOf).any (· ∈ c.extensions)

end Config

end Purview
