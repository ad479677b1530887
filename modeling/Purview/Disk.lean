/-
Files and folders around a working directory. A place is the list of
names that leads to it from there. What is stored is one list of
places; a folder also exists for being on the way to something else.

A path is followed name by name. Empty names and `.` stay where they
are and `..` goes back, but only a folder can be followed further, so
`notes.txt/` leads nowhere even if `notes.txt` does. A path is only
followed if it is short enough, however short the way it describes, and
if no character of it is zero. Above the working directory there are
folders, as many as `..` asks for, and a path that starts with a slash
is followed from the root; the disk knows nothing else of what is
outside. Writing follows a path name by name too and makes the folders
that are missing on it.
-/

namespace Purview

/-- What a place holds. -/
inductive DiskEntry where
  | file (bytes : ByteArray)
  | folder

/-- Files and folders around a working directory. -/
structure Disk where
  entries : List (List String × DiskEntry)

/-- The causes for which a file cannot be read. -/
inductive ReadError where
  /-- There is nothing at the end of the path. -/
  | notFound
  /-- The path goes on behind a file. -/
  | notAFolder
  /-- The path leads to a folder. -/
  | isAFolder
  /-- The bytes of the file are not UTF-8. -/
  | notText
  /-- The path, or a name on it, has too many bytes. -/
  | tooLong
  /-- The path has a zero in it, which no name can have. -/
  | notAPath
deriving DecidableEq

namespace Disk

/-- The disk on which there is nothing. -/
def empty : Disk := ⟨[]⟩

/-- A path has fewer bytes than this. -/
def pathLimit : Nat := 4096

/-- A name has fewer bytes than this. -/
def nameLimit : Nat := 256

/-- The names on a path, including those that mean nothing. -/
def namesOf (path : String) : List String :=
  (path.toList.splitOn '/').map String.ofList

/-- The names on a path that mean something. -/
def placeOf (path : String) : List String :=
  (namesOf path).filter fun name => name ≠ "" ∧ name ≠ "."

/-- The place of the root. It is no other place, since no name has a
slash. -/
def root : List String := ["/"]

/-- The place that a path starts from. -/
def startOf (path : String) : List String :=
  if path.toList.head? = some '/' then root else []

/-- Is a place the working directory or above it? -/
def isAbove (place : List String) : Bool :=
  place = root ∨ place.all (· = "..")

/-- Where a name leads from a place. The root is above itself. -/
def move (place : List String) (name : String) : List String :=
  if name = "" ∨ name = "." ∨ name = ".." ∧ place = root then place
  else if name = ".." ∧ !isAbove place then place.dropLast
  else place ++ [name]

/-- What a place holds. The working directory and all above it are
folders. -/
def at? (disk : Disk) (place : List String) : Option DiskEntry :=
  if isAbove place then some .folder
  else
    match disk.entries.lookup place with
    | some entry => some entry
    | none =>
      if disk.entries.any fun e => place.isPrefixOf e.1 then some .folder
      else none

-- =========================================================== writing

/-- Puts something at a place. What was there is replaced. -/
def set (disk : Disk) (place : List String) (entry : DiskEntry) : Disk :=
  ⟨disk.entries.filter (fun e => e.1 ≠ place) ++ [(place, entry)]⟩

/-- Makes a folder at a place where there is nothing. -/
def makeFolder (disk : Disk) (place : List String) : Disk :=
  if (disk.at? place).isSome then disk else disk.set place .folder

/-- Makes every folder that names lead through from a place, also those
that a later `..` leaves again, and gives the place they lead to. -/
def makeWay : Disk → List String → List String → Disk × List String
  | disk, place, [] => (disk, place)
  | disk, place, name :: names =>
    makeWay (disk.makeFolder (move place name)) (move place name) names

/-- Puts something at a path, making the folders on the way. -/
def put (disk : Disk) (path : String) (entry : DiskEntry) : Disk :=
  let names := namesOf path
  let (disk, folder) := makeWay disk (startOf path) names.dropLast
  disk.set (move folder (names.getLast?.getD "")) entry

-- =========================================================== reading

/-- Follows names from a place. -/
def follow (disk : Disk) :
    List String → List String → Except ReadError (List String)
  | place, [] => .ok place
  | place, name :: names =>
    match disk.at? place with
    | none => .error .notFound
    | some (.file _) => .error .notAFolder
    | some .folder =>
      if name.utf8ByteSize ≥ nameLimit then .error .tooLong
      else disk.follow (move place name) names

/-- The place that a path leads to, with what it holds. The empty path
leads nowhere, and a path is judged as a whole before anything on it. -/
def locate (disk : Disk) (path : String) :
    Except ReadError (List String × DiskEntry) :=
  if path.toList.contains '\x00' then .error .notAPath
  else if path.utf8ByteSize ≥ pathLimit then .error .tooLong
  else if path = "" then .error .notFound
  else
    match disk.follow (startOf path) (namesOf path) with
    | .error error => .error error
    | .ok place =>
      match disk.at? place with
      | none => .error .notFound
      | some entry => .ok (place, entry)

/-- The place of the folder that a path leads to. -/
def folder? (disk : Disk) (path : String) : Option (List String) :=
  match disk.locate path with
  | .ok (place, .folder) => some place
  | _ => none

/-- Reads the text at a path. -/
def readText (disk : Disk) (path : String) : Except ReadError String :=
  match disk.locate path with
  | .error error => .error error
  | .ok (_, .folder) => .error .isAFolder
  | .ok (_, .file bytes) =>
    match String.fromUTF8? bytes with
    | none => .error .notText
    | some text => .ok text

/-- Places in the order in which a walk through sorted folders meets
them: name by name from the outside. -/
def placeLe : List String → List String → Bool
  | [], _ => true
  | _ :: _, [] => false
  | a :: as, b :: bs => if a = b then placeLe as bs else decide (a < b)

/-- The files below a place, as names from there, in walking order. -/
def filesBelow (disk : Disk) (place : List String) : List (List String) :=
  let below := disk.entries.filterMap fun e =>
    match e.2 with
    | .file _ =>
      if place.isPrefixOf e.1 ∧ place.length < e.1.length then
        some (e.1.drop place.length)
      else none
    | .folder => none
  below.mergeSort placeLe

end Disk

end Purview
