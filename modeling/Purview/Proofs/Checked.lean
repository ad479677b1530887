/-
Whether what projects report is up to date. A build that is not
withdrawn completes every project, whatever came before it
(`validated_build`), but it only checks those that are not complete; the
others keep what they reported. What keeps them right is that every
single move of a request does (`serve_induction`), so that it does not
matter how many requests there were, which of them built and where they
were withdrawn.

What can go wrong is that a build has news to read: a loaded document
has been given a project name that it did not have, and somebody depends
on that name whom nobody has sent back. As long as no build has, the
last build leaves every project with the report that the final documents
give it (`reports_stand`); and a single one is enough for a project to
go on complaining about a dependency that is there
(`not_reported_gaining`).
-/
import Purview.Proofs.Serving
import Purview.Proofs.Upheld

namespace Purview

open Relation (TransGen)

-- ============================================================== reports

namespace Store

/-- What a project has to report among the loaded documents: the issues
of its text, every dependency that names no loaded project, and a cycle
if it depends on itself. -/
structure Reports (s : Store) (p : Project) (d : Document)
    (cycle : Option (List String)) : Prop where
  diagnostics : d.diagnostics = (Content.ofText d.text).2
    ++ (p.descriptor.dependencies.filter fun e =>
        ∀ q ∈ s.projects, q.descriptor.name ≠ e.name).map
          Document.unknownProject
    ++ (cycle.map (Document.dependencyCycle p.descriptor)).toList
  cyclic : cycle.isSome ↔ TransGen s.projects.DependsOn p p
  way : ∀ names, cycle = some names → ∃ way : List Project,
    (p :: way ++ [p]).IsChain s.projects.DependsOn
      ∧ names = (p :: way ++ [p]).map (·.descriptor.name)

/-- Whether every project reports the issues of its text and what it
would be found to complain of if it were checked now. -/
def upToDate (s : Store) (i : Index) : Bool :=
  s.projects.all fun p => (s.get? p.uri).all fun d =>
    d.diagnostics = (Content.ofText d.text).2
      ++ Document.complaints (.descriptor p.descriptor)
        (i.linkScope s p.uri).2

/-- Every project reports what it has to, which is what it would be
found to report now. -/
structure Reported (s : Store) : Prop where
  reports : ∀ p ∈ s.projects, ∀ d, s.get? p.uri = some d →
    ∃ cycle, s.Reports p d cycle
  upToDate : ∀ i, s.upToDate i = true

variable {s : Store}

/-- The report of a complete project. -/
theorem Upheld.diagnostics (h : s.Upheld) {p : Project}
    (hp : p ∈ s.projects) {d : Document} (hd : s.get? p.uri = some d)
    (hchecked : d.IsChecked) :
    d.diagnostics = (Content.ofText d.text).2
      ++ Document.complaints (.descriptor p.descriptor)
        ⟨[], some (s.projects.facts p.uri)⟩ := by
  have hbuilt := h.checked p.uri d hd hchecked
  have hreading : d.reading = .descriptor p.descriptor := by
    obtain ⟨d', hd', hx, -⟩ := mem_projects.1 hp
    cases hd.symm.trans hd'
    have hshown : d.reading.descriptor? = some p.descriptor := by
      rw [← hx]
      exact ((congrArg Document.descriptor? hbuilt).trans
        (d.descriptor?_built p.uri _)).symm
    cases hcontent : d.reading with
    | descriptor x =>
      rw [hcontent] at hshown
      cases hshown
      rfl
    | ordinary b =>
      rw [hcontent] at hshown
      cases hshown
  refine (congrArg Document.diagnostics hbuilt).trans ?_
  show ((Content.ofText d.text).2 ++ (d.reading.link p.uri _).dangling)
    ++ Document.complaints (d.reading.link p.uri _) _ = _
  rw [hreading]
  exact congrArg (· ++ _) (List.append_nil _)

/-- Where all projects are complete and their reports upheld, they
report what they have to. -/
theorem Upheld.reported (h : s.Upheld)
    (hvalidated : ∀ u d, s.get? u = some d → d.isProject = true →
      d.stage = .validated) : s.Reported := by
  have hnd := s.uris_projects_nodup
  have hproject : ∀ p ∈ s.projects, ∀ d, s.get? p.uri = some d →
      d.isProject = true := by
    intro p hp d hd
    rw [← isProject_of_get? hd]
    exact isProject_iff.2 (List.mem_map_of_mem hp)
  have hdiagnostics : ∀ p ∈ s.projects, ∀ d, s.get? p.uri = some d →
      d.diagnostics = (Content.ofText d.text).2
        ++ Document.complaints (.descriptor p.descriptor)
          ⟨[], some (s.projects.facts p.uri)⟩ := fun p hp d hd =>
    h.diagnostics hp hd ⟨hproject p hp d hd,
      hvalidated p.uri d hd (hproject p hp d hd)⟩
  constructor
  · intro p hp d hd
    obtain ⟨hcyclic, hway⟩ := Projects.cycle?_spec hnd hp
    refine ⟨s.projects.cycle? p.uri, ?_, hcyclic, hway⟩
    have hunresolved : s.projects.unresolved p.uri
        = p.descriptor.dependencies.filter fun e =>
          ∀ q ∈ s.projects, q.descriptor.name ≠ e.name := by
      unfold Projects.unresolved
      rw [Projects.get?_of_mem hnd hp]
      exact List.filter_congr fun e _ => resolves_iff s.projects e
    rw [hdiagnostics p hp d hd, List.append_assoc, ← hunresolved]
    rfl
  · intro i
    refine List.all_eq_true.2 fun p hp => ?_
    cases hd : s.get? p.uri with
    | none => rfl
    | some d =>
      rw [Index.linkScope_of_project i hd (hproject p hp d hd)]
      exact decide_eq_true (hdiagnostics p hp d hd)

end Store

-- ============================================================= requests

namespace Workspace

variable {w : Workspace}

-- ================================================================= runs

/-- Whether a build in a run of requests has news to read. -/
def hearsNews (w : Workspace) : List Request → Bool
  | [] => false
  | r :: rs => (w.builds r).any (·.store.news) || (w.serve r).hearsNews rs

theorem hearsNews_append (rs rs' : List Request) :
    w.hearsNews (rs ++ rs')
      = (w.hearsNews rs || (w.run rs).hearsNews rs') := by
  induction rs generalizing w with
  | nil => rfl
  | cons r rs ih =>
    show (_ || (w.serve r).hearsNews (rs ++ rs')) = _
    rw [ih, ← Bool.or_assoc]
    rfl

/-- Documents in line with their texts, projects in their forms, and the
reports upheld if nothing has been news. -/
structure Orderly (quiet : Prop) (s : Store) : Prop where
  faithful : s.Faithful
  formed : s.Formed
  upheld : quiet → s.Upheld

/-- Documents that have been read and no more. -/
theorem orderly_of_fresh {s : Store} (quiet : Prop)
    (h : ∀ u d, s.get? u = some d → d = d.fresh) : Orderly quiet s := by
  refine ⟨fun u d hd => (Document.Ready.fresh (u := u) (h u d hd)).faithful,
    Store.formed_of_fresh h, fun _ => ?_⟩
  have hnone : ∀ u d, s.get? u = some d → ¬ d.IsChecked := by
    intro u d hd hchecked
    have hstage := hchecked.stage
    rw [h u d hd] at hstage
    cases hstage
  exact ⟨fun u d hd hchecked => absurd hchecked (hnone u d hd),
    fun u d hd hchecked => absurd hchecked (hnone u d hd)⟩

/-- What a request without failures leaves. -/
theorem orderly_serve {quiet : Prop} (h : Orderly quiet w.store)
    (hloaded : w.gate.isOpen = false → ∀ u d,
      w.store.get? u = some d → d = d.fresh)
    (cut : Option (Step × Uri)) (withdrawn : Bool) (action : Action) :
    let r : Request := ⟨.until cut, withdrawn, action⟩
    Orderly (quiet ∧ (w.builds r).any (·.store.news) = false)
      (w.serve r).store := by
  intro r
  refine serve_induction (P := fun s => Orderly _ s.store) r
    ?_ (fun _ _ h _ => h) ?_ ?_ ?_ ?_ ?_
  · exact ⟨h.faithful, h.formed, fun hquiet => h.upheld hquiet.1⟩
  · exact fun hclosed files =>
      orderly_of_fresh _ (fresh_loaded (w := w.begin withdrawn) _ files
        (hloaded hclosed))
  · exact fun s u h => ⟨Scene.faithful_invalidate _ h.faithful u,
      Scene.formed_invalidate _ h.formed u,
      fun hquiet => Scene.upheld_invalidate _ (h.upheld hquiet) u⟩
  · exact fun s c h => ⟨Scene.faithful_apply _ h.faithful c,
      Scene.formed_apply _ h.formed c,
      fun hquiet => Scene.upheld_apply _ (h.upheld hquiet) c⟩
  · exact fun s changes h =>
      ⟨Scene.faithful_prepared _ h.faithful changes,
      Scene.formed_prepared _ h.formed changes,
      fun hquiet => Scene.upheld_prepared _ (h.upheld hquiet) changes⟩
  · exact fun s hs h => ⟨Scene.build_faithful _ h.faithful,
      Scene.formed_build cut h.faithful h.formed,
      fun hquiet => Scene.upheld_build cut h.faithful h.formed
        (Bool.eq_false_iff.2 fun hnews => Bool.eq_false_iff.1 hquiet.2
          (List.any_eq_true.2 ⟨s, hs, hnews⟩))
        (h.upheld hquiet)⟩

/-- Requests without failures, each with the call at which it is
withdrawn and whether it has been withdrawn before. -/
def unfailing (rs : List (Option (Step × Uri) × Bool × Action)) :
    List Request :=
  rs.map fun r => ⟨.until r.1, r.2.1, r.2.2⟩

/-- What a run of such requests leaves of a workspace that has started. -/
theorem orderly_run {quiet : Prop} (hopen : w.gate.isOpen = true)
    (h : Orderly quiet w.store)
    (rs : List (Option (Step × Uri) × Bool × Action)) :
    Orderly (quiet ∧ w.hearsNews (unfailing rs) = false)
      (w.run (unfailing rs)).store := by
  induction rs generalizing w quiet with
  | nil => exact ⟨h.faithful, h.formed, fun hquiet => h.upheld hquiet.1⟩
  | cons r rs ih =>
    obtain ⟨cut, withdrawn, action⟩ := r
    have hserve := orderly_serve h
      (fun hclosed => by rw [hopen] at hclosed; cases hclosed)
      cut withdrawn action
    obtain ⟨hfaithful, hformed, hupheld⟩ := ih (isOpen_serve hopen _) hserve
    refine ⟨hfaithful, hformed, fun ⟨hquiet, hnews⟩ => hupheld ?_⟩
    obtain ⟨hbuilds, hlater⟩ := Bool.or_eq_false_iff.1 hnews
    exact ⟨⟨hquiet, hbuilds⟩, hlater⟩

/-- A build that is not withdrawn leaves every project complete, whatever
requests came before it and wherever they were withdrawn; and unless a
build had news to read, it leaves every project with the report that the
final documents give it. -/
theorem reports_stand (h₀ h₁ : Host) (cut : Option (Step × Uri))
    (withdrawn : Bool) (builtins files : List SourceFile)
    (queue : List Change)
    (requests : List (Option (Step × Uri) × Bool × Action)) :
    let w := create h₀ builtins
    let rs := notices h₁ queue
      ++ ⟨.until cut, withdrawn, .start files⟩ :: unfailing requests
      ++ [⟨.calm, false, .build⟩]
    let s := (w.run rs).store
    (∀ u d, s.get? u = some d → d.isProject = true →
      d.stage = .validated)
    ∧ (w.hearsNews rs = false → s.Reported) := by
  intro w rs s
  let waiting := w.run (notices h₁ queue)
  let begun := waiting.serve ⟨.until cut, withdrawn, .start files⟩
  let ended := begun.run (unfailing requests)
  obtain ⟨hgate, hstore⟩ := run_notices_closed (w := w) h₁ rfl queue
  have hfresh : ∀ u d, waiting.store.get? u = some d → d = d.fresh := by
    rw [show waiting.store = w.store from hstore]
    exact fresh_create h₀ builtins
  have hwaiting := orderly_of_fresh True hfresh
  have hopen : begun.gate.isOpen = true :=
    congrArg Gate.isOpen (texts_start (w := waiting.begin withdrawn)
      (.until cut) hwaiting.faithful (congrArg Gate.isOpen hgate) files).2.2
  have hbegun := orderly_serve hwaiting (fun _ => hfresh) cut withdrawn
    (.start files)
  have hended := orderly_run hopen hbegun requests
  -- The last build is one more request of the run.
  have hlast := orderly_run hopen hbegun
    (requests ++ [(none, false, .build)])
  have hrs : rs = notices h₁ queue
      ++ ⟨.until cut, withdrawn, .start files⟩
        :: unfailing (requests ++ [(none, false, .build)]) := by
    unfold rs unfailing
    rw [List.map_append, List.append_assoc]
    rfl
  have hs : s = (begun.run
      (unfailing (requests ++ [(none, false, .build)]))).store := by
    show (w.run rs).store = _
    rw [hrs, run, List.foldl_append]
    rfl
  have hvalidated : ∀ u d, s.get? u = some d → d.isProject = true →
      d.stage = .validated := by
    have hbuild : s = ((ended.scene.begin false).build .calm).1.store := by
      rw [hs, unfailing, List.map_append, run, List.foldl_append]
      rfl
    rw [hbuild]
    exact Scene.validated_build (s := ended.scene.begin false)
      hended.faithful hended.formed rfl
  refine ⟨hvalidated, fun hnews => ?_⟩
  rw [hrs, hearsNews_append] at hnews
  obtain ⟨-, hnews⟩ := Bool.or_eq_false_iff.1 hnews
  obtain ⟨hfirst, hlater⟩ := Bool.or_eq_false_iff.1 hnews
  refine Store.Upheld.reported ?_ hvalidated
  rw [hs]
  exact hlast.upheld ⟨⟨trivial, hfirst⟩, hlater⟩

/-- A project that depends on a name which another is about to have. -/
def renamed : List SourceFile :=
  [⟨Uri.ofString "/p/P.sysw", "project P \x7b depends Q; \x7d"⟩,
    ⟨Uri.ofString "/q/Q.sysw", "project R \x7b\x7d"⟩]

/-- The name is no news: a project that is renamed has everybody checked
again whose dependencies are missing. -/
theorem reports_stand_renamed :
    let w := create .calm []
    let rs := notices .calm []
      ++ ⟨.until none, false, .start renamed⟩
        :: unfailing [(none, false, .put
          ⟨Uri.ofString "/q/Q.sysw", "project Q \x7b\x7d"⟩)]
      ++ [⟨.calm, false, .build⟩]
    w.hearsNews rs = false ∧ (w.run rs).store.Reported := by
  intro w rs
  have hnews : w.hearsNews rs = false := by decide +kernel
  exact ⟨hnews, (reports_stand .calm .calm none false [] renamed [] _).2
    hnews⟩

/-- A project whose dependency is missing, and a document that is edited
so as to become what is missing. -/
def gaining : List Request :=
  [⟨.calm, false, .start
      [⟨Uri.ofString "/p/P.sysw", "project P \x7b depends Q; \x7d"⟩,
        ⟨Uri.ofString "/q/Q.sysw", "def X;"⟩]⟩,
    ⟨.calm, false, .put ⟨Uri.ofString "/q/Q.sysw", "project Q \x7b\x7d"⟩⟩,
    ⟨.calm, false, .build⟩]

/-- The project goes on complaining that the dependency is missing. -/
theorem not_reported_gaining :
    ¬ ((create .calm []).run gaining).store.Reported := by
  intro h
  have hnot : ((create .calm []).run gaining).store.upToDate (.empty [])
      = false := by decide +kernel
  rw [h.upToDate] at hnot
  cases hnot

end Workspace

end Purview
