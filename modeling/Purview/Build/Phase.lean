/-
The phases of a build, one document at a time. Each phase calls one step
and, if the call succeeds, moves the document up one stage; a document
that is past the phase is left alone. Linking waits for the owner: what
a document sees hangs on its owner's closure, so a document whose owner
has not been surveyed is put off.

What the four phases do to a document has one form (`Phase.work_eq`):
each asks for what earlier ones have found, adds to the diagnostics, and
settles one of the other fields.
-/
import Purview.Scene
import Purview.Visibility.Scope

namespace Purview

/-- The phases behind reading, each taking a document up one stage. -/
inductive Phase where
  | index
  | scope
  | link
  | validate
deriving DecidableEq

namespace Phase

/-- The phases in order. -/
def all : List Phase := [index, scope, link, validate]

/-- The stage that a phase reaches. -/
def goal : Phase → Stage
  | index => .indexed
  | scope => .surveyed
  | link => .linked
  | validate => .validated

/-- The step that a phase calls. -/
def step : Phase → Step
  | index => .index
  | scope => .scope
  | link => .link
  | validate => .validate

/-- Whether the work of a phase needs the scope of the document. -/
def needsScope : Phase → Bool
  | index | scope => false
  | link | validate => true

/-- The work of a phase on a document. -/
def work (phase : Phase) (u : Uri) (linkScope : LinkScope) (d : Document) :
    Except StepError Document :=
  match phase with
  | index => (d.index u).map fun names => { d with offered := some names }
  | scope => d.scope u
  | link => d.link u linkScope
  | validate => d.validate u linkScope

end Phase

-- ============================================== what the work comes to

/-- A content with its references looked up, where `own` are the names
that resolve within the document. -/
def Content.lookedUp (u : Uri) (own : List String) (scope : LinkScope) :
    Content → Content
  | descriptor d => descriptor d
  | ordinary b => ordinary (Document.linkBody u own scope b)

/-- The diagnostics of the references that lead nowhere. -/
def Content.dangling : Content → List Diagnostic
  | descriptor _ => []
  | ordinary b => (b.references.filter (·.target.isNone)).map
      Document.unresolvedReference

/-- The names that the content of a document holds, each once. -/
def Document.listed (d : Document) : Option (List String) :=
  d.content.map fun c => Distinct.ofList c.names

namespace Content

@[simp] theorem descriptor?_lookedUp (u : Uri) (own : List String)
    (scope : LinkScope) (c : Content) :
    (c.lookedUp u own scope).descriptor? = c.descriptor? := by
  cases c <;> rfl

/-- Looking up references defines nothing. -/
@[simp] theorem names_lookedUp (u : Uri) (own : List String)
    (scope : LinkScope) (c : Content) :
    (c.lookedUp u own scope).names = c.names := by
  cases c <;> rfl

end Content

namespace Phase

/-- What a phase asks for and a document lacks. -/
def lack? (phase : Phase) (u : Uri) (d : Document) : Option StepError :=
  if phase = .link ∧ d.own = none then some (.missingStage u .surveyed)
  else if d.content = none then some (.notParsed u)
  else none

/-- What a phase makes of a content: linking looks up its references,
and no other phase changes it. -/
def turn (phase : Phase) (u : Uri) (own : Option (List String))
    (scope : LinkScope) (c : Content) : Content :=
  if phase = .link then c.lookedUp u (own.getD []) scope else c

/-- The diagnostics that a phase adds, by the content it has come to. -/
def findings (phase : Phase) (scope : LinkScope) (c : Content) :
    List Diagnostic :=
  match phase with
  | .index | .scope => []
  | .link => c.dangling
  | .validate => Document.complaints c scope

/-- A document with the work of a phase done. -/
def done (phase : Phase) (u : Uri) (scope : LinkScope) (d : Document) :
    Document :=
  let content := d.content.map (phase.turn u d.own scope)
  { d with
    content
    diagnostics := d.diagnostics
      ++ content.elim [] (phase.findings scope)
    offered := if phase = .index then d.listed else d.offered
    own := if phase = .scope then d.listed else d.own }

/-- Every phase asks for the content, and linking for the names that
resolve within as well. -/
theorem lack?_eq_none_iff {phase : Phase} {u : Uri} {d : Document} :
    phase.lack? u d = none
      ↔ d.content.isSome ∧ (phase = .link → d.own.isSome) := by
  unfold lack?
  cases d.content <;> cases d.own <;> by_cases hphase : phase = .link <;>
    simp [hphase]

@[simp] theorem descriptor?_turn (phase : Phase) (u : Uri)
    (own : Option (List String)) (scope : LinkScope) (c : Content) :
    (phase.turn u own scope c).descriptor? = c.descriptor? := by
  unfold turn
  split
  · exact c.descriptor?_lookedUp u _ scope
  · rfl

/-- No phase defines or takes away a name. -/
@[simp] theorem names_turn (phase : Phase) (u : Uri)
    (own : Option (List String)) (scope : LinkScope) (c : Content) :
    (phase.turn u own scope c).names = c.names := by
  unfold turn
  split
  · exact c.names_lookedUp u _ scope
  · rfl

/-- The work of a phase is done unless the document lacks what the phase
asks for. Whatever is to be known of `work` follows from this, and only
here is it taken apart phase by phase. -/
theorem work_eq (phase : Phase) (u : Uri) (scope : LinkScope)
    (d : Document) : phase.work u scope d
      = (phase.lack? u d).elim (.ok (phase.done u scope d)) .error := by
  obtain ⟨text, version, stage, content, diagnostics, offered, own,
    builtin⟩ := d
  cases phase with
  | index | scope | validate =>
    cases content with
    | none => rfl
    | some c =>
      simp [work, Document.index, Document.scope, Document.validate,
        Except.map, lack?, done, turn, findings, Document.listed]
  | link =>
    rcases own with _ | own <;> rcases content with _ | ⟨_ | _⟩ <;>
      simp [work, Document.link, lack?, done, turn, findings,
        Content.lookedUp, Content.dangling]

/-- Work that succeeds has been done on a document that lacked nothing. -/
theorem work_eq_ok {phase : Phase} {u : Uri} {scope : LinkScope}
    {d x : Document} (h : phase.work u scope d = .ok x) :
    phase.lack? u d = none ∧ x = phase.done u scope d := by
  rw [work_eq] at h
  cases hlack : phase.lack? u d with
  | none =>
    rw [hlack] at h
    exact ⟨rfl, (Except.ok.inj h).symm⟩
  | some error =>
    rw [hlack] at h
    cases h

end Phase

/-- How a phase ended for a document. -/
inductive Outcome where
  | advanced
  | deferred
  | failed (error : StepError)
deriving DecidableEq

-- ======================================================== a single phase

namespace Scene

/-- Whether a document can be linked: it is a project, nobody owns it,
or its owner has been surveyed. -/
def ownerReady (s : Scene) (u : Uri) : Bool :=
  s.store.isProject u
    || (s.store.projects.ownerOf? u).all
      fun owner => Stage.surveyed ≤ owner.stage

/-- The scope that a phase hands to its step; a phase that needs none
does not look at the index. -/
def scopeFor (s : Scene) (phase : Phase) (u : Uri) : Scene × LinkScope :=
  if phase.needsScope then
    let (index, scope) := s.index.linkScope s.store u
    ({ s with index := index }, scope)
  else (s, .empty)

/-- Ends a phase. Only a call that succeeded moves the document on. When
a call fails behind its work, the names that indexing found are lost
with its answer, while the other phases have worked on the document
itself and what they did stays. -/
def settle (s : Scene) (phase : Phase) (u : Uri) :
    Attempt Document → Scene × Outcome
  | .succeeded d => (s.modify u fun _ => d.advance phase.goal, .advanced)
  | .failedBefore error => (s, .failed error)
  | .failedAfter d error =>
    (if phase = .index then s else s.modify u fun _ => d, .failed error)

/-- Takes a document through a phase, unless it is past it. -/
def carry (s : Scene) (host : Host) (phase : Phase) (u : Uri) :
    Scene × Outcome :=
  match s.store.get? u with
  | none => (s, .failed (.failed "document is no longer loaded"))
  | some d =>
    if phase.goal ≤ d.stage then (s, .advanced)
    else if phase = .link ∧ ¬ s.ownerReady u then (s, .deferred)
    else
      let (s, scope) := s.scopeFor phase u
      (s.note host phase.step u).settle phase u
        (host.attempt phase.step u (phase.work u scope d))

/-- Reads those of the documents whose text has changed. -/
def reread (host : Host) : List Uri → Scene → Scene
  | [], s => s
  | u :: us, s =>
    match s.store.get? u with
    | some d =>
      if d.stage = .changed then
        reread host us ((s.note host .parse u).modify u fun d =>
          (d.applyRead (Content.ofText d.text)).advance .parsed)
      else reread host us s
    | none => reread host us s

end Scene

end Purview
