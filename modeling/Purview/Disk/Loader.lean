/-
Loading documents from a disk. The documents in a folder are its files
with the right extension, in walking order, and a file's identity is its
path; a builtin's is its path from the folder of builtins, under a
scheme of its own, so that it does not hang on where the folder is.
-/
import Purview.Config
import Purview.Workspace

namespace Purview

/-- The causes for which documents cannot be loaded. -/
inductive LoadError where
  /-- There is no folder at a path. -/
  | folderNotFound (path : String)
  /-- The file at a path cannot be read. -/
  | unreadable (path : String) (cause : ReadError)
deriving DecidableEq

/-- The text shown for a folder that is not there. -/
def LoadError.folderMessage (path : String) : String :=
  "directory not found: " ++ path

namespace Disk

/-- The folder of builtins to use: the one an environment variable
names, if it is a folder, and otherwise one of the usual name. -/
def discoverBuiltins (disk : Disk) (named : Option String) : Option String :=
  let candidates := named.toList ++ [Config.builtinFolderName]
  candidates.find? fun path => (disk.folder? path).isSome

/-- A path followed by names. -/
def extend (path : String) (names : List String) : String :=
  let slash := if path.toList.getLast? = some '/' then "" else "/"
  path ++ slash ++ "/".intercalate names

/-- The paths of the documents in a folder, in walking order. -/
def documents (disk : Disk) (c : Config) (path : String) :
    Except LoadError (List String) :=
  match disk.folder? path with
  | none => .error (.folderNotFound path)
  | some place =>
    .ok (((disk.filesBelow place).map (extend path)).filter c.accepts)

/-- Loads the file at a path. -/
def loadFile (disk : Disk) (path : String) : Except LoadError SourceFile :=
  match disk.readText path with
  | .error cause => .error (.unreadable path cause)
  | .ok text => .ok ⟨Uri.ofString path, text⟩

/-- Loads files one after another; the first that cannot be read ends
it. -/
def loadFiles (disk : Disk) : List String → Except LoadError (List SourceFile)
  | [] => .ok []
  | path :: paths =>
    match disk.loadFile path with
    | .error error => .error error
    | .ok file =>
      match disk.loadFiles paths with
      | .error error => .error error
      | .ok files => .ok (file :: files)

/-- Loads the documents in a folder. -/
def loadFolder (disk : Disk) (c : Config) (path : String) :
    Except LoadError (List SourceFile) :=
  match disk.documents c path with
  | .error error => .error error
  | .ok paths => disk.loadFiles paths

end Disk

-- ============================================================= builtins

/-- What is left of a text behind its beginning, if it has it. -/
def dropBeginning : List Char → List Char → Option (List Char)
  | [], text => some text
  | _ :: _, [] => none
  | c :: cs, d :: text => if c = d then dropBeginning cs text else none

/-- The identity under which a document from a folder of builtins is
known. -/
def builtinUri (folder : String) (u : Uri) : Uri :=
  let written := u.render.toList
  let below :=
    (dropBeginning (Uri.ofString folder).render.toList written).getD written
  Uri.ofString (Config.builtinScheme ++ "/"
    ++ String.ofList (below.dropWhile (· = '/')))

/-- Loads the documents in a folder as builtins. -/
def Disk.loadBuiltins (disk : Disk) (c : Config) (folder : String) :
    Except LoadError (List SourceFile) :=
  match disk.loadFolder c folder with
  | .error error => .error error
  | .ok files =>
    .ok (files.map fun file => ⟨builtinUri folder file.uri, file.text⟩)

-- =========================================================== workspaces

namespace Workspace

/-- Creates a workspace as configured: given builtins first, then those
in the folder. -/
def fromConfig (host : Host) (disk : Disk) (c : Config) :
    Except LoadError Workspace :=
  match c.builtinFolder with
  | none => .ok (create host c.builtins)
  | some folder =>
    match disk.loadBuiltins c folder with
    | .error error => .error error
    | .ok files => .ok (create host (c.builtins ++ files))

/-- Starts a workspace with the documents in a folder. If they cannot
be loaded, it does not start. -/
def startFrom (w : Workspace) (host : Host) (disk : Disk) (c : Config)
    (path : String) : Workspace × Except LoadError BuildReport :=
  match disk.loadFolder c path with
  | .error error => (w, .error error)
  | .ok files =>
    let (w, report) := w.start host files
    (w, .ok report)

end Workspace

end Purview
