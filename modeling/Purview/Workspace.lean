/-
A workspace: documents that are kept consistent while they change.
Builtins are loaded when it is created and never change; the documents
it starts with are built together, and changes that arrived before are
made up for once they are. From then on documents are put in, changed
and removed, each of which makes stale what it has to, and built again.

`update` does all of that for a batch. Besides what the changes make
stale by themselves it relinks every ordinary document whose references
may come out differently: those with an unresolved reference, those
linked into the batch, and those that see the batch. They are looked
for both before and after the changes, since a change of projects moves
what is seen.
-/
import Purview.Build.Pass
import Purview.Gate
import Purview.Invalidation

namespace Purview

namespace Scene

-- =================================================== single changes

/-- Gives a document a text: a new document is read and loaded, and a
loaded one is made stale and keeps the text for the next build. A
builtin stays as it is. -/
def put (s : Scene) (host : Host) (file : SourceFile) : Scene × Invalidated :=
  if s.store.contains file.uri then
    if s.store.isBuiltin file.uri then (s, .nothing)
    else
      let (s, report) := s.invalidate host file.uri
      (s.modify file.uri (·.setText file.text), report)
  else (s.insertRead host file.uri file.text).added host file.uri

/-- Drops a document. There is no report for a builtin, which stays, or
for a document that is not loaded. -/
def remove (s : Scene) (host : Host) (u : Uri) : Scene × Option Invalidated :=
  if s.store.isBuiltin u then (s, none) else s.removed host u

/-- Makes a change. -/
def apply (s : Scene) (host : Host) : Change → Scene × Invalidated
  | .edit file => s.put host file
  | .removal u =>
    let (s, report) := s.remove host u
    (s, report.getD .nothing)

-- ========================================================== updates

/-- Whether a document can be among those to relink: an ordinary one
that has been linked, is no builtin and is not itself in the batch. -/
def relinkable (changed : List Uri) (u : Uri) (d : Document) : Bool :=
  u ∉ changed && !d.isProject && !d.builtin
    && decide (Stage.surveyed < d.stage)

/-- The documents to relink after a change to some documents. Horizons
are looked up only where nothing simpler decides. -/
def relinkFrom (store : Store) (changed : List Uri) :
    List (Uri × Document) → Index → Index × List Uri
  | [], i => (i, [])
  | (u, d) :: rest, i =>
    if relinkable changed u d then
      let (i, stale) :=
        if d.hasUnresolved || d.linksInto changed then (i, true)
        else i.isAffected store u changed
      let (i, more) := relinkFrom store changed rest i
      (i, if stale then u :: more else more)
    else relinkFrom store changed rest i

/-- The documents to relink after a change to some documents. -/
def relinkCandidates (s : Scene) (changed : List Uri) : Scene × List Uri :=
  let (index, us) := relinkFrom s.store changed s.store.entries s.index
  ({ s with index := index }, us)

/-- Makes the changes of a batch: removals first, then the rest, each
in the given order. -/
def applyAll (s : Scene) (host : Host) (changes : List Change) : Scene :=
  let (removals, edits) := changes.partition Change.isRemoval
  (removals ++ edits).foldl (fun s c => (s.apply host c).1) s

/-- Makes the changes of a batch, relinks what they may concern, and
builds. -/
def update (s : Scene) (host : Host) (changes : List Change) :
    Scene × BuildReport :=
  let changed := Distinct.ofList (changes.map Change.uri)
  let (s, before) := s.relinkCandidates changed
  let s := s.applyAll host changes
  let (s, after) := s.relinkCandidates changed
  let (s, _) := sendBackAll host (Distinct.union before after) s
  s.build host

-- ========================================================= start-up

/-- Loads a builtin. -/
def addBuiltin (host : Host) (s : Scene) (file : SourceFile) : Scene :=
  let s := (s.insertRead host file.uri file.text).modify file.uri
    ({ · with builtin := true })
  s.reindex fun i => { i with builtins := Distinct.insert i.builtins file.uri }

/-- Loads a document at the start. A builtin is not replaced, though
the text is read. -/
def addInitial (host : Host) (s : Scene) (file : SourceFile) : Scene :=
  if s.store.isBuiltin file.uri then s.note host .parse file.uri
  else s.insertRead host file.uri file.text

end Scene

/-- Documents that are kept consistent while they change. -/
structure Workspace where
  scene : Scene
  gate : Gate
deriving DecidableEq

namespace Workspace

/-- A workspace with its builtins, which has not started. -/
def create (host : Host) (builtins : List SourceFile) : Workspace where
  scene := (builtins.foldl (Scene.addBuiltin host) (Scene.empty [])).reindex
    Index.clear
  gate := .closed

/-- The loaded documents. -/
def store (w : Workspace) : Store := w.scene.store

/-- The identities of the builtins. -/
def builtins (w : Workspace) : List Uri := w.scene.index.builtins

/-- Whether the workspace has started. -/
def isReady (w : Workspace) : Bool := w.gate.isOpen

/-- Begins a request, which may have been withdrawn already. -/
def begin (w : Workspace) (withdrawn : Bool) : Workspace :=
  { w with scene := w.scene.begin withdrawn }

/-- Does something to the scene. -/
def withScene {α : Type} (w : Workspace) (f : Scene → Scene × α) :
    Workspace × α :=
  let (scene, a) := f w.scene
  ({ w with scene := scene }, a)

-- ================================================================ writing

/-- Gives a document a text. -/
def put (w : Workspace) (host : Host) (file : SourceFile) :
    Workspace × Invalidated :=
  w.withScene (·.put host file)

/-- Drops a document. -/
def remove (w : Workspace) (host : Host) (u : Uri) :
    Workspace × Option Invalidated :=
  w.withScene (·.remove host u)

/-- Makes a document stale. -/
def invalidate (w : Workspace) (host : Host) (u : Uri) :
    Workspace × Invalidated :=
  w.withScene (·.invalidate host u)

/-- Builds every document that is not complete. -/
def build (w : Workspace) (host : Host) : Workspace × BuildReport :=
  w.withScene (·.build host)

/-- Makes the changes of a batch, relinks what they may concern, and
builds. -/
def update (w : Workspace) (host : Host) (changes : List Change) :
    Workspace × BuildReport :=
  w.withScene (·.update host changes)

/-- Starts the workspace with some documents: they are loaded and built,
the gate is opened, and what it kept follows as one update. Documents
handed to a workspace that has started are an update themselves. -/
def start (w : Workspace) (host : Host) (files : List SourceFile) :
    Workspace × BuildReport :=
  if w.gate.isOpen then w.update host (files.map .edit)
  else
    let loaded :=
      (files.foldl (Scene.addInitial host) w.scene).reindex Index.clear
    let (scene, report) := loaded.build host
    let (gate, queued) := w.gate.release
    let w : Workspace := ⟨scene, gate⟩
    if queued.isEmpty then (w, report)
    else
      let (w, later) := w.update host queued
      (w, report.merge later)

/-- Takes note of a change: it is made at once if the workspace has
started, and kept for then otherwise. -/
def notify (w : Workspace) (host : Host) (c : Change) :
    Workspace × Option Invalidated :=
  match w.gate.offer c with
  | (gate, none) => ({ w with gate := gate }, none)
  | (gate, some c) =>
    let (w, report) := { w with gate := gate }.withScene (·.apply host c)
    (w, some report)

-- ================================================================ reading

/-- What a document can see. -/
def visible (w : Workspace) (u : Uri) : Workspace × Visibility :=
  w.withScene fun s =>
    let (index, h) := s.index.look s.store u
    ({ s with index := index }, h.visible)

/-- Whether a document may resolve differently once some documents have
changed. -/
def isAffected (w : Workspace) (u : Uri) (changed : List Uri) :
    Workspace × Bool :=
  w.withScene fun s =>
    let (index, affected) := s.index.isAffected s.store u changed
    ({ s with index := index }, affected)

/-- The projects reachable from a project over linked edges. -/
def closure (w : Workspace) (u : Uri) : List Uri :=
  w.store.projects.closure .linked u

/-- The project that owns a document. -/
def owner? (w : Workspace) (u : Uri) : Option Uri :=
  (w.store.projects.ownerOf? u).map (·.uri)

end Workspace

end Purview
