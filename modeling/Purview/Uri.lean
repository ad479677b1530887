/-
Document identities. A uri is a path, possibly under a scheme, and it
is kept resolved: a scheme with its `://`, whether the path starts at a
root, and the names on the way from there. Backslashes count as
slashes, empty segments and `.` mean nothing, and `..` takes back the
segment before it. At the root of an absolute path there is nothing to
take back; a relative path keeps the `..` that lead out of it, so they
can only stand at its front.

Two spellings of one path are thus one value, and the questions asked
of paths become questions about lists: the folder of a document drops
the last segment, and lying within a folder is having its segments as a
proper beginning.
-/

namespace Purview

/-- A resolved document identity. -/
structure Uri where
  /-- The scheme with its `://`; empty for a plain path. -/
  scheme : String
  /-- Whether the path starts at the root. -/
  absolute : Bool
  /-- The names on the path. -/
  segments : List String
deriving DecidableEq

namespace Uri

-- ======================================================== resolution

/-- Splits a text behind its first `://`. -/
def splitScheme : List Char → List Char × List Char
  | text => (cut text).getD ([], text)
where
  /-- The parts before and after the end of the first `://`. -/
  cut : List Char → Option (List Char × List Char)
    | ':' :: '/' :: '/' :: rest => some ([':', '/', '/'], rest)
    | c :: rest => (cut rest).map fun (front, back) => (c :: front, back)
    | [] => none

/-- Follows one segment from a place in the tree. The place is the list
of names on the way, innermost first. -/
def follow (absolute : Bool) (place : List String) (segment : String) :
    List String :=
  if segment = "" ∨ segment = "." then place
  else if segment = ".." then
    match place with
    | [] => if absolute then [] else [".."]
    | name :: outer =>
      if name ≠ ".." then outer
      else if absolute then place
      else ".." :: place
  else segment :: place

/-- Follows the segments of a path from its start. -/
def resolve (absolute : Bool) (segments : List String) : List String :=
  (segments.foldl (follow absolute) []).reverse

/-- The identity that the characters of a path or uri name. -/
def ofChars (raw : List Char) : Uri :=
  let slashed := raw.map fun c => if c = '\\' then '/' else c
  let (scheme, path) := splitScheme slashed
  let absolute := path.head? = some '/'
  ⟨String.ofList scheme, absolute,
    resolve absolute ((path.splitOn '/').map String.ofList)⟩

/-- The identity that a path or uri names. -/
def ofString (raw : String) : Uri :=
  ofChars raw.toList

-- =========================================================== writing

/-- The path below the scheme, written out. -/
def path (u : Uri) : String :=
  (if u.absolute then "/" else "") ++ "/".intercalate u.segments

/-- The identity, written out. -/
def render (u : Uri) : String :=
  u.scheme ++ u.path

-- ========================================================== questions

/-- The folder that a document lies in. A root is its own folder. -/
def parent (u : Uri) : Uri :=
  { u with segments := u.segments.dropLast }

/-- Follows a path from a folder. A path with a root or a scheme of its
own is followed from there instead. -/
def join (folder : Uri) (relative : String) : Uri :=
  let rooted := relative.toList.head? = some '/'
  let schemed := (splitScheme.cut relative.toList).isSome
  if rooted || schemed then ofString relative
  else if folder.absolute || !folder.segments.isEmpty then
    ofString (folder.render ++ "/" ++ relative)
  else ofString (folder.scheme ++ relative)

/-- Whether a document lies strictly below a folder. -/
def isWithin (u folder : Uri) : Bool :=
  u.scheme == folder.scheme && u.absolute == folder.absolute
    && folder.segments.isPrefixOf u.segments
    && folder.segments.length < u.segments.length

/-- The last name on the path, empty at a root. -/
def fileName (u : Uri) : String :=
  u.segments.getLast?.getD ""

/-- What follows the last dot of a name that has one behind its first
character. -/
def extensionOf (name : String) : Option String :=
  let backwards := name.toList.reverse
  let ending := backwards.takeWhile (· ≠ '.')
  match backwards.drop ending.length with
  | [] | [_] => none
  | _ => some (String.ofList ending.reverse)

/-- The extension of the last name, without its dot. -/
def extension (u : Uri) : Option String :=
  extensionOf u.fileName

/-- Identities in the order of their written forms. -/
def sort (us : List Uri) : List Uri :=
  us.mergeSort fun a b => decide (a.render ≤ b.render)

end Uri

end Purview
