/-
What a build comes to that nobody disturbs. The pass goes through its
documents in three runs: the projects that are still projects by their
texts, the other documents that have turned out to be projects, and the
rest (`kept`, `found`, `rest`). After them every document is complete,
and the finished documents tell the scope of each ordinary one
(`build_calm`): whatever it sees was complete before it was linked, or
in the same run and with its names known.

The one thing a finished scene does not tell is what the index had
remembered before, and the build may go by that if it comes to no
project (`retained`).
-/
import Purview.Proofs.Calm

namespace Purview

/-- Every document is in a form that it has between requests. -/
def Store.Ready (s : Store) : Prop :=
  ∀ u d, s.get? u = some d → d.Ready u

theorem Store.Ready.faithful {s : Store} (hs : s.Ready) : s.Faithful :=
  fun u d hd => (hs u d hd).faithful

-- ========================================================== documents

namespace Document

/-- A pending document is read the same whether or not something is
left of failed steps. -/
theorem reread_clearFailures {u : Uri} {d : Document} (h : d.Ready u)
    (hlt : d.stage < .validated) :
    d.clearFailures.reread = d.reread := by
  have hissues : ∀ x : Document,
      x.diagnostics = (Content.ofText d.text).2 → x.clearFailures = x := by
    intro x hx
    unfold clearFailures
    rw [hx, List.filter_eq_self.2, ← hx]
    intro y hy
    obtain ⟨issue, span, rfl⟩ := Content.issues_ofText d.text y hy
    rfl
  cases h with
  | unread hstage hknown =>
    have hstage' : d.clearFailures.stage = .changed := hstage
    unfold reread
    rw [if_pos hstage, if_pos hstage']
    rfl
  | fresh h => rw [hissues d (by rw [h]; rfl)]
  | surveyed h => rw [hissues d (by rw [h]; rfl)]
  | built scope h =>
    rw [h, stage_built] at hlt
    exact absurd hlt (by decide)

/-- Reading changes nothing that no work changes. -/
theorem alike_reread (d : Document) : d.Alike d.reread := by
  refine ⟨d.text_reread, ?_, ?_⟩
  · unfold reread
    split
    · exact (forward_advance _ .parsed).version
    · rfl
  · unfold reread
    split
    · exact (forward_advance _ .parsed).builtin
    · rfl

/-- A complete document is the project that its text describes. -/
theorem descriptor?_built (d : Document) (u : Uri) (scope : LinkScope) :
    (d.built u scope).descriptor? = (Content.ofText d.text).1.descriptor? :=
  d.reading.descriptor?_link u scope

/-- A complete document is a project if its text says so. -/
theorem isProject_built (d : Document) (u : Uri) (scope : LinkScope) :
    (d.built u scope).isProject = d.announces := by
  unfold isProject announces
  rw [descriptor?_built]

theorem isProject_of_built {d : Document} {u : Uri} {scope : LinkScope}
    (h : d = d.built u scope) : d.isProject = d.announces :=
  (congrArg isProject h).trans (d.isProject_built u scope)

end Document

-- =========================================================== the runs

namespace Scene

/-- Reading withdraws nothing unless its host does. -/
theorem withdrawn_reread {host : Host} (hhost : host.withdrawAt = none)
    (us : List Uri) (s : Scene) :
    (reread host us s).trace.withdrawn = s.trace.withdrawn := by
  induction us generalizing s with
  | nil => rfl
  | cons u us ih =>
    unfold reread
    split
    · split
      · rw [ih]
        show (s.trace.withdrawn
          || decide (host.withdrawAt = some (Step.parse, u))) = _
        simp [hhost]
      · exact ih s
    · exact ih s

variable (s : Scene)

/-- The pending projects that are projects by their texts. -/
def kept : List Uri :=
  (s.store.pending.filter s.store.isProject).filter s.store.announces

/-- The other pending documents in the order in which they are read:
those that were no projects, then those that are none any more. -/
def others : List Uri :=
  s.store.pending.filter (fun u => !s.store.isProject u)
    ++ (s.store.pending.filter s.store.isProject).filter
      fun u => !s.store.announces u

/-- The documents that turn out to be projects. -/
def found : List Uri := s.others.filter s.store.announces

/-- The documents that are built last. -/
def rest : List Uri := s.others.filter fun u => !s.store.announces u

/-- What the index still remembers when ordinary documents are linked. -/
def retained : Index :=
  if s.store.pending.any s.store.announces then s.index.clear
  else s.index

variable {s}

/-- The first run has the pending documents that are projects and stay
so. -/
theorem mem_kept {u : Uri} : u ∈ s.kept ↔ u ∈ s.store.pending
    ∧ s.store.isProject u = true ∧ s.store.announces u = true := by
  unfold kept
  rw [List.mem_filter, List.mem_filter, and_assoc]

/-- The other runs have the other pending documents. -/
theorem mem_others {u : Uri} :
    u ∈ s.others ↔ u ∈ s.store.pending ∧ u ∉ s.kept := by
  rw [mem_kept]
  unfold others
  simp only [List.mem_append, List.mem_filter, Bool.not_eq_true']
  cases s.store.isProject u <;> cases s.store.announces u <;> simp

theorem nodup_kept : s.kept.Nodup :=
  (s.store.pending_nodup.filter _).filter _

theorem nodup_others : s.others.Nodup := by
  have hnd := s.store.pending_nodup
  refine List.nodup_append.2
    ⟨hnd.filter _, (hnd.filter _).filter _, ?_⟩
  rintro a ha b hb rfl
  have hnot := (List.mem_filter.1 ha).2
  have hproject := (List.mem_filter.1 (List.mem_filter.1 hb).1).2
  rw [hproject] at hnot
  cases hnot

theorem nodup_found : s.found.Nodup := nodup_others.filter _

theorem nodup_rest : s.rest.Nodup := nodup_others.filter _

theorem mem_rest {u : Uri} (hu : u ∈ s.rest) :
    u ∈ s.others ∧ u ∉ s.found ∧ s.store.announces u = false := by
  obtain ⟨ho, hann⟩ := List.mem_filter.1 hu
  have hann : s.store.announces u = false := by simpa using hann
  refine ⟨ho, fun h => ?_, hann⟩
  rw [(List.mem_filter.1 h).2] at hann
  cases hann

/-- What is remembered hangs on whether there is a project to build. -/
theorem retained_eq : s.retained =
    if s.found = [] then (if s.kept = [] then s.index else s.index.clear)
    else s.index.clear := by
  unfold retained
  have hany : s.store.pending.any s.store.announces = true ↔
      s.kept ≠ [] ∨ s.found ≠ [] := by
    rw [List.any_eq_true]
    constructor
    · intro hcase
      rcases hcase with ⟨u, hu, hann⟩
      by_cases hk : u ∈ s.kept
      · exact .inl (List.ne_nil_of_mem hk)
      · exact .inr (List.ne_nil_of_mem
          (List.mem_filter.2 ⟨mem_others.2 ⟨hu, hk⟩, hann⟩))
    · intro hcase
      rcases hcase with h | h
      · obtain ⟨u, hu⟩ := List.exists_mem_of_ne_nil _ h
        exact ⟨u, (mem_kept.1 hu).1, (mem_kept.1 hu).2.2⟩
      · obtain ⟨u, hu⟩ := List.exists_mem_of_ne_nil _ h
        obtain ⟨hu, hann⟩ := List.mem_filter.1 hu
        exact ⟨u, (mem_others.1 hu).1, hann⟩
  by_cases hf : s.found = []
  · by_cases hk : s.kept = []
    · rw [if_pos hf, if_pos hk, if_neg]
      rw [hany]
      simp [hf, hk]
    · rw [if_pos hf, if_neg hk, if_pos (hany.2 (.inl hk))]
  · rw [if_neg hf, if_pos (hany.2 (.inr hf))]

theorem keyed_retained (h : (s.index.horizons.map Prod.fst).Nodup) :
    (s.retained.horizons.map Prod.fst).Nodup := by
  unfold retained
  split
  · exact List.nodup_nil
  · exact h

-- ========================================================== the pass

open Pass (Completed Startable Undisturbed completes)

/-- The pass once the pending projects have been read. -/
def first (s : Scene) : Pass :=
  (⟨s.cleared, .empty⟩ : Pass).reread .calm
    (s.store.pending.filter s.store.isProject)

/-- A document once the pending projects have been read. -/
theorem get?_first (hs : s.store.Ready) {u : Uri} {d : Document}
    (hd : s.store.get? u = some d) :
    s.first.scene.store.get? u = some
      (if u ∈ s.store.pending then
        if s.store.isProject u then d.reread else d.clearFailures
      else d) := by
  rw [first, Pass.store_reread, Store.get?_alter]
  show Option.map _ ((s.store.alter fun v d =>
    if v ∈ s.store.pending then d.clearFailures else d).get? u) = _
  rw [Store.get?_alter, hd, Option.map_some, Option.map_some]
  by_cases hu : u ∈ s.store.pending
  · obtain ⟨x, hx, hlt⟩ := Store.mem_pending.1 hu
    obtain rfl : d = x := Option.some.inj (hd.symm.trans hx)
    simp only [List.mem_filter, hu, true_and, if_true,
      Document.reread_clearFailures (hs u d hd) hlt]
  · simp [List.mem_filter, hu]

theorem undisturbed_first (hw : s.trace.withdrawn = false) :
    s.first.Undisturbed :=
  ⟨rfl, (withdrawn_reread rfl _ _).trans hw⟩

/-- The projects that are still projects once they have been read. -/
theorem filter_first (hs : s.store.Faithful) :
    (s.store.pending.filter s.store.isProject).filter
        s.first.scene.store.isProject = s.kept
    ∧ (s.store.pending.filter s.store.isProject).filter
        (fun u => !s.first.scene.store.isProject u)
      = (s.store.pending.filter s.store.isProject).filter
        fun u => !s.store.announces u := by
  have hread : ∀ u ∈ s.store.pending.filter s.store.isProject,
      s.first.scene.store.isProject u = s.store.announces u := by
    intro u hu
    rw [first, Pass.store_reread,
      Store.isProject_reread (faithful_cleared hs) hu]
    exact s.announces_cleared u
  exact ⟨List.filter_congr hread,
    List.filter_congr fun u hu => by rw [hread u hu]⟩

theorem startable_first (hs : s.store.Ready) :
    Startable s.kept s.first.scene.store := by
  intro u hu
  obtain ⟨hpending, hproject, -⟩ := mem_kept.1 hu
  obtain ⟨d, hd, hlt⟩ := Store.mem_pending.1 hpending
  refine ⟨d.reread, ?_, ?_⟩
  · rw [get?_first hs hd, if_pos hpending, if_pos hproject]
  · have hfresh := Document.fresh_congr d.alike_reread
    have hsurveyed := Document.surveyed_congr d.alike_reread
    rw [hfresh, hsurveyed]
    exact (hs u d hd).reread hlt

/-- The pass once everything has been read. -/
def second (s t : Scene) : Pass :=
  (⟨t, completes s.kept .empty⟩ : Pass).reread .calm s.others

/-- A document once the projects have been built and everything has
been read. -/
theorem get?_second (hs : s.store.Ready) {t : Scene}
    {scope : Uri → LinkScope}
    (ht : Completed s.kept scope s.first.scene.store t.store)
    {u : Uri} {d : Document} (hd : s.store.get? u = some d) :
    (s.second t).scene.store.get? u
      = some (if u ∈ s.kept then d.built u (scope u)
        else if u ∈ s.store.pending then d.reread else d) := by
  rw [second, Pass.store_reread, Store.get?_alter]
  by_cases hk : u ∈ s.kept
  · obtain ⟨hpending, hproject, -⟩ := mem_kept.1 hk
    have hnot : u ∉ s.others := fun h => (mem_others.1 h).2 hk
    have hfirst := get?_first hs hd
    rw [if_pos hpending, if_pos hproject] at hfirst
    rw [ht.done u hk _ hfirst, Option.map_some, if_neg hnot, if_pos hk,
      Document.built_congr d.alike_reread]
  · rw [ht.others u hk, get?_first hs hd, Option.map_some, if_neg hk]
    by_cases hpending : u ∈ s.store.pending
    · obtain ⟨x, hx, hlt⟩ := Store.mem_pending.1 hpending
      obtain rfl : d = x := Option.some.inj (hd.symm.trans hx)
      rw [if_pos (mem_others.2 ⟨hpending, hk⟩), if_pos hpending,
        if_pos hpending]
      split
      · rw [Document.reread_reread]
      · rw [Document.reread_clearFailures (hs u d hd) hlt]
    · have hnot : u ∉ s.others := fun h => hpending (mem_others.1 h).1
      rw [if_neg hnot, if_neg hpending, if_neg hpending]

/-- The documents that are left for the second half of a pass. -/
theorem mem_others_cases {u : Uri} (hu : u ∈ s.store.pending) :
    u ∈ s.kept ∨ u ∉ s.kept ∧ (u ∈ s.found ∨ u ∉ s.found ∧ u ∈ s.rest) := by
  by_cases hk : u ∈ s.kept
  · exact .inl hk
  have ho := mem_others.2 ⟨hu, hk⟩
  refine .inr ⟨hk, ?_⟩
  cases hann : s.store.announces u with
  | true => exact .inl (List.mem_filter.2 ⟨ho, hann⟩)
  | false =>
    refine .inr ⟨fun h => ?_, List.mem_filter.2 ⟨ho, by simp [hann]⟩⟩
    rw [(List.mem_filter.1 h).2] at hann
    cases hann

/-- What is left for the second half is ready for it and is what its
text says. -/
theorem second_others (hs : s.store.Ready) {t : Scene}
    {scope : Uri → LinkScope}
    (ht : Completed s.kept scope s.first.scene.store t.store)
    {u : Uri} (hu : u ∈ s.others) :
    (∃ d, (s.second t).scene.store.get? u = some d
      ∧ (d = d.fresh ∨ d = d.surveyed))
    ∧ (s.second t).scene.store.isProject u = s.store.announces u := by
  obtain ⟨hpending, hk⟩ := mem_others.1 hu
  obtain ⟨d, hd, hlt⟩ := Store.mem_pending.1 hpending
  have hget : (s.second t).scene.store.get? u = some d.reread := by
    rw [get?_second hs ht hd, if_neg hk, if_pos hpending]
  constructor
  · refine ⟨d.reread, hget, ?_⟩
    have hfresh := Document.fresh_congr d.alike_reread
    have hsurveyed := Document.surveyed_congr d.alike_reread
    rw [hfresh, hsurveyed]
    exact (hs u d hd).reread hlt
  · rw [Store.isProject_of_get? hget, Store.announces_of_get? hd]
    exact Document.isProject_reread (hs u d hd).faithful

/-- The parts of a pass that nobody disturbs, run by run. -/
theorem pass_runs (hs : s.store.Ready) (hw : s.trace.withdrawn = false)
    {t₁ t₂ t₃ : Scene}
    (h₁ : Pass.runAll .calm s.kept s.first
      = (⟨t₁, completes s.kept .empty⟩, true))
    (hw₁ : t₁.trace.withdrawn = false)
    (ht₁ : ∃ scope,
      Completed s.kept scope s.first.scene.store t₁.store)
    (h₂ : Pass.runAll .calm s.found (s.second t₁)
      = (⟨t₂, completes s.found (completes s.kept .empty)⟩, true))
    (h₃ : Pass.runAll .calm s.rest
        ⟨t₂, completes s.found (completes s.kept .empty)⟩
      = (⟨t₃, completes s.rest
        (completes s.found (completes s.kept .empty))⟩, true)) :
    s.pass .calm = ⟨t₃, completes s.rest
      (completes s.found (completes s.kept .empty))⟩ := by
  obtain ⟨scope, ht₁⟩ := ht₁
  have hproject : ∀ u ∈ s.others,
      (s.second t₁).scene.store.isProject u = s.store.announces u :=
    fun u hu => (second_others hs ht₁ hu).2
  have hfound : s.others.filter (s.second t₁).scene.store.isProject
      = s.found := List.filter_congr hproject
  have hrest : s.others.filter
      (fun u => !(s.second t₁).scene.store.isProject u) = s.rest :=
    List.filter_congr fun u hu => by rw [hproject u hu]
  have hp : (⟨s.cleared, .empty⟩ : Pass).Undisturbed := ⟨rfl, hw⟩
  have hp₁ : (⟨t₁, completes s.kept .empty⟩ : Pass).Undisturbed :=
    ⟨rfl, hw₁⟩
  obtain ⟨hkept, hformer⟩ := filter_first hs.faithful
  have hfirst : (⟨s.cleared, .empty⟩ : Pass).reread .calm
      (s.store.pending.filter s.store.isProject) = s.first := rfl
  have hothers : s.store.pending.filter (fun u => !s.store.isProject u)
      ++ (s.store.pending.filter s.store.isProject).filter
        (fun u => !s.store.announces u) = s.others := rfl
  have hsecond : (⟨t₁, completes s.kept .empty⟩ : Pass).reread .calm
      s.others = s.second t₁ := rfl
  have hcancelled : BuildReport.empty.cancelled = false := rfl
  unfold pass
  rw [Pass.runSplit_eq, hp.poll]
  simp only [hcancelled, hfirst, Pass.runRead, hkept, hformer, hothers,
    h₁, hp₁.poll, Pass.cancelled_completes, Bool.not_true,
    Bool.false_eq_true, if_false]
  unfold Pass.runOthers
  simp only [Pass.split_eq, hsecond, hfound, hrest, h₂, h₃,
    Bool.not_true, Bool.false_eq_true, if_false]

/-- Once its projects have been built, a pass has no project left that
is not complete: who is still to be built is none by its text. -/
theorem surveyed_projects (hs : s.store.Ready) {r t : Store}
    {f g : Uri → LinkScope}
    (hr : ∀ u d, s.store.get? u = some d → r.get? u
      = some (if u ∈ s.kept then d.built u (f u)
        else if u ∈ s.store.pending then d.reread else d))
    (huris : t.uris = s.store.uris) (ht : Completed s.found g r t) :
    ∀ q ∈ t.projects, Stage.surveyed ≤ q.stage := by
  intro q hq
  obtain ⟨x, hx, hdescriptor, hstage⟩ := Store.mem_projects.1 hq
  rw [← hstage]
  obtain ⟨d, hd⟩ : ∃ d, s.store.get? q.uri = some d := by
    rw [← Option.isSome_iff_exists, Store.isSome_get?, ← huris,
      ← Store.isSome_get?, hx]
    rfl
  have hget := hr q.uri d hd
  by_cases hf : q.uri ∈ s.found
  · have hdone := (ht.done q.uri hf _ hget).symm.trans hx
    rw [← Option.some.inj hdone, Document.stage_built]
    decide
  rw [← ht.others q.uri hf, hx] at hget
  obtain rfl := Option.some.inj hget
  by_cases hk : q.uri ∈ s.kept
  · rw [if_pos hk, Document.stage_built]
    decide
  by_cases hpending : q.uri ∈ s.store.pending
  · rw [if_neg hk, if_pos hpending,
      Document.descriptor?_reread (hs _ d hd).faithful] at hdescriptor
    obtain h | ⟨-, h | ⟨-, h⟩⟩ := mem_others_cases hpending
    · exact absurd h hk
    · exact absurd h hf
    · have hann := (List.mem_filter.1 h).2
      rw [Store.announces_of_get? hd, Document.announces,
        hdescriptor] at hann
      cases hann
  · rw [if_neg hk, if_neg hpending]
    have hnot : ¬ d.stage < .validated := fun hlt =>
      hpending (Store.mem_pending.2 ⟨d, hd, hlt⟩)
    obtain ⟨scope, hbuilt⟩ := (hs _ d hd).built_iff.1 hnot
    rw [hbuilt, Document.stage_built]
    decide

theorem uris_first : s.first.scene.store.uris = s.store.uris := by
  rw [first, Pass.store_reread, Store.uris_alter]
  exact Store.uris_alter _ _

theorem uris_second (s t : Scene) :
    (s.second t).scene.store.uris = t.store.uris := by
  rw [second, Pass.store_reread, Store.uris_alter]

/-- The scopes in which a pass links its documents. -/
def scopes (s t₁ t₃ : Scene) (u : Uri) : LinkScope :=
  if u ∈ s.kept then ⟨[], some (s.first.scene.store.projects.facts u)⟩
  else if u ∈ s.found then
    ⟨[], some ((s.second t₁).scene.store.projects.facts u)⟩
  else (s.retained.linkScope t₃.store u).2

theorem scopes_of_found {t₁ t₃ : Scene} {u : Uri} (hf : u ∈ s.found) :
    s.scopes t₁ t₃ u
      = ⟨[], some ((s.second t₁).scene.store.projects.facts u)⟩ := by
  have hk : u ∉ s.kept :=
    fun hk => (mem_others.1 (List.mem_filter.1 hf).1).2 hk
  rw [scopes, if_neg hk, if_pos hf]

theorem scopes_of_plain {t₁ t₃ : Scene} {u : Uri}
    (hann : s.store.announces u = false) :
    s.scopes t₁ t₃ u = (s.retained.linkScope t₃.store u).2 := by
  have hk : u ∉ s.kept := fun h => by
    rw [(mem_kept.1 h).2.2] at hann
    cases hann
  have hf : u ∉ s.found := fun h => by
    rw [(List.mem_filter.1 h).2] at hann
    cases hann
  rw [scopes, if_neg hk, if_neg hf]

/-- Behind its runs of projects, a pass remembers what it retains. -/
theorem index_runs {t₁ t₂ : Scene}
    (h₁ : t₁.index = if s.kept = [] then s.first.scene.index
      else s.first.scene.index.clear)
    (h₂ : t₂.index = if s.found = [] then (s.second t₁).scene.index
      else (s.second t₁).scene.index.clear) : t₂.index = s.retained := by
  have hsecond : (s.second t₁).scene.index = t₁.index :=
    index_reread .calm s.others t₁
  have hfirst : s.first.scene.index = s.index :=
    index_reread .calm _ s.cleared
  rw [h₂, hsecond, h₁, retained_eq, hfirst]
  split
  · rfl
  · split <;> rfl

/-- The three runs of a pass complete everything that was pending. -/
theorem completed_runs (hs : s.store.Ready) {t₁ t₂ t₃ : Scene}
    (hc₁ : Completed s.kept
      (fun u => ⟨[], some (s.first.scene.store.projects.facts u)⟩)
      s.first.scene.store t₁.store)
    (hc₂ : Completed s.found
      (fun u => ⟨[], some ((s.second t₁).scene.store.projects.facts u)⟩)
      (s.second t₁).scene.store t₂.store)
    (hc₃ : Completed s.rest (fun u => (s.retained.linkScope t₃.store u).2)
      t₂.store t₃.store) :
    Completed s.store.pending (s.scopes t₁ t₃) s.store t₃.store := by
  have huris : t₂.store.uris = s.store.uris := by
    rw [hc₂.uris, uris_second, hc₁.uris, uris_first]
  refine ⟨hc₃.uris.trans huris, fun u hu d hd => ?_, fun u hu => ?_⟩
  · have hget := get?_second hs hc₁ hd
    unfold scopes
    obtain hk | ⟨hk, hf | ⟨hf, hr⟩⟩ := mem_others_cases hu
    · have hf : u ∉ s.found := fun h =>
        (mem_others.1 (List.mem_filter.1 h).1).2 hk
      have hr : u ∉ s.rest := fun h => (mem_others.1 (mem_rest h).1).2 hk
      rw [hc₃.others u hr, hc₂.others u hf, hget, if_pos hk, if_pos hk]
    · have hr : u ∉ s.rest := fun h => (mem_rest h).2.1 hf
      rw [hc₃.others u hr, hc₂.done u hf _ hget, if_neg hk, if_neg hk,
        if_pos hf, if_pos hu, Document.built_congr d.alike_reread]
    · rw [← hc₂.others u hf] at hget
      rw [hc₃.done u hr _ hget, if_neg hk, if_neg hk, if_neg hf,
        if_pos hu, Document.built_congr d.alike_reread]
  · have hk : u ∉ s.kept := fun h => hu (mem_kept.1 h).1
    have ho : u ∉ s.others := fun h => hu (mem_others.1 h).1
    have hf : u ∉ s.found := fun h => ho (List.mem_filter.1 h).1
    have hr : u ∉ s.rest := fun h => ho (List.mem_filter.1 h).1
    rw [hc₃.others u hr]
    cases hd : s.store.get? u with
    | none =>
      exact Store.get?_none_of_uris huris hd
    | some d =>
      rw [hc₂.others u hf, get?_second hs hc₁ hd, if_neg hk, if_neg hu]

/-- Once everything has been read, the plan is that of the finished
documents. -/
theorem plan_second (hs : s.store.Ready) {t : Scene}
    {scope scope' : Uri → LinkScope}
    (ht : Completed s.kept scope s.first.scene.store t.store) {r : Store}
    (hr : Completed s.store.pending scope' s.store r) :
    (s.second t).scene.store.plan = r.plan := by
  have huris : (s.second t).scene.store.uris = r.uris := by
    rw [uris_second, ht.uris, uris_first, hr.uris]
  refine Store.plan_congr huris fun u => ?_
  cases hd : s.store.get? u with
  | none =>
    have hnone := Store.get?_none_of_uris hr.uris hd
    rw [hnone, Store.get?_none_of_uris huris hnone]
  | some d =>
    rw [get?_second hs ht hd]
    by_cases hu : u ∈ s.store.pending
    · rw [hr.done u hu d hd, if_pos hu, Option.bind_some,
        Option.bind_some, Document.descriptor?_built]
      split
      · exact d.descriptor?_built u _
      · exact Document.descriptor?_reread (hs u d hd).faithful
    · rw [hr.others u hu, hd, if_neg hu,
        if_neg fun hk => hu (mem_kept.1 hk).1]

/-- What a pass comes to that nobody disturbs. -/
theorem pass_calm (hs : s.store.Ready) (hw : s.trace.withdrawn = false)
    (hkeyed : (s.index.horizons.map Prod.fst).Nodup) :
    ∃ scope,
      Completed s.store.pending scope s.store
        (s.pass .calm).scene.store
      ∧ (∀ u ∈ s.store.pending, s.store.announces u = false → scope u
        = (s.retained.linkScope (s.pass .calm).scene.store u).2)
      ∧ (∀ u ∈ s.kept, scope u
        = ⟨[], some (s.first.scene.store.projects.facts u)⟩)
      ∧ (∀ u ∈ s.found, scope u
        = ⟨[], some ((s.pass .calm).scene.store.projects.facts u)⟩)
      ∧ (s.pass .calm).scene.trace.withdrawn = false
      ∧ (s.pass .calm).report
        = ⟨s.kept ++ s.found ++ s.rest, [], [], false⟩ := by
  -- projects that are still projects
  obtain ⟨t₁, h₁, hc₁, hw₁, hi₁⟩ := Pass.runAll_projects_calm nodup_kept
    (undisturbed_first hw) (startable_first hs) (fun u hu => by
      rw [← (filter_first hs.faithful).1] at hu
      exact (List.mem_filter.1 hu).2)
  have hp₂ : (s.second t₁).Undisturbed :=
    ⟨rfl, (withdrawn_reread rfl _ _).trans hw₁⟩
  -- documents that have turned out to be projects
  obtain ⟨t₂, h₂, hc₂, hw₂, hi₂⟩ := Pass.runAll_projects_calm
    nodup_found hp₂
    (fun u hu => (second_others hs hc₁ (List.mem_filter.1 hu).1).1)
    (fun u hu => by
      rw [(second_others hs hc₁ (List.mem_filter.1 hu).1).2]
      exact (List.mem_filter.1 hu).2)
  have hretained := index_runs hi₁ hi₂
  have huris : t₂.store.uris = s.store.uris := by
    rw [hc₂.uris, uris_second, hc₁.uris, uris_first]
  -- the rest
  obtain ⟨t₃, h₃, hc₃, hw₃⟩ := Pass.runAll_ordinary_calm
    nodup_rest
    (p := ⟨t₂, completes s.found (completes s.kept .empty)⟩)
    ⟨rfl, hw₂⟩
    (fun u hu => by
      obtain ⟨ho, hf, -⟩ := mem_rest hu
      rw [hc₂.others u hf]
      exact (second_others hs hc₁ ho).1)
    (show (t₂.index.horizons.map Prod.fst).Nodup from
      hretained ▸ keyed_retained hkeyed)
    (fun u hu => by
      obtain ⟨ho, hf, hann⟩ := mem_rest hu
      show t₂.store.isProject u = false
      unfold Store.isProject
      rw [hc₂.others u hf]
      exact (second_others hs hc₁ ho).2.trans hann)
    (surveyed_projects hs (fun u d hd => get?_second hs hc₁ hd) huris hc₂)
  rw [pass_runs hs hw h₁ hw₁ ⟨_, hc₁⟩ h₂ h₃]
  dsimp only at hc₃
  rw [hretained] at hc₃
  have hcompleted := completed_runs hs hc₁ hc₂ hc₃
  refine ⟨s.scopes t₁ t₃, hcompleted, fun u _ => scopes_of_plain,
    fun u hk => if_pos hk, fun u hf => ?_, hw₃, ?_⟩
  · rw [scopes_of_found hf,
      Projects.facts_of_plan (plan_second hs hc₁ hcompleted)]
  · show (⟨[] ++ s.kept ++ s.found ++ s.rest, [], [], false⟩ :
      BuildReport) = _
    rw [List.nil_append]

-- ========================================================= the build

/-- What a build has made of the documents of a scene, each in a scope
of its own. -/
structure Finishes (s : Scene) (scope : Uri → LinkScope) (t : Scene) :
    Prop where
  completed : Completed s.store.pending scope s.store t.store
  ordinary : ∀ u ∈ s.store.pending, s.store.announces u = false →
    scope u = (s.retained.linkScope t.store u).2
  projects : (∀ u d, s.store.get? u = some d → d.stage ≠ .changed) →
    ∀ u ∈ s.store.pending, s.store.announces u = true →
      scope u = ⟨[], some (t.store.projects.facts u)⟩
  withdrawn : t.trace.withdrawn = false

/-- Where all documents are what their texts describe, a build leaves the
plan alone. -/
theorem plan_completed
    (hcurrent : ∀ u d, s.store.get? u = some d →
      d.descriptor? = (Content.ofText d.text).1.descriptor?)
    {us : List Uri} {scope : Uri → LinkScope} {t : Store}
    (ht : Completed us scope s.store t) : t.plan = s.store.plan := by
  refine Store.plan_congr ht.uris fun u => ?_
  by_cases hu : u ∈ us
  · cases hd : s.store.get? u with
    | none =>
      rw [Store.get?_none_of_uris ht.uris hd]
    | some d =>
      rw [ht.done u hu d hd, Option.bind_some, Option.bind_some,
        Document.descriptor?_built]
      exact (hcurrent u d hd).symm
  · rw [ht.others u hu]

/-- So does reading. -/
theorem plan_first (hs : s.store.Ready)
    (hcurrent : ∀ u d, s.store.get? u = some d →
      d.descriptor? = (Content.ofText d.text).1.descriptor?) :
    s.first.scene.store.plan = s.store.plan := by
  refine Store.plan_congr uris_first fun u => ?_
  cases hd : s.store.get? u with
  | none =>
    rw [Store.get?_none_of_uris uris_first hd]
  | some d =>
    have hreread : d.reread.descriptor? = d.descriptor? :=
      (Document.descriptor?_reread (hs u d hd).faithful).trans
        (hcurrent u d hd).symm
    rw [get?_first hs hd, Option.bind_some, Option.bind_some]
    split
    · split
      · exact hreread
      · rfl
    · rfl

/-- What a build comes to that nobody disturbs, with the dependencies by
which projects are checked: those that are known once the pending
projects have been read, and for a document that turns out to be a
project those that are known at the end. -/
theorem build_scopes (hs : s.store.Ready) (hw : s.trace.withdrawn = false)
    (hkeyed : (s.index.horizons.map Prod.fst).Nodup) :
    (∃ scope, s.Finishes scope (s.build .calm).1
      ∧ (∀ u ∈ s.kept, scope u
        = ⟨[], some (s.first.scene.store.projects.facts u)⟩)
      ∧ (∀ u ∈ s.found, scope u
        = ⟨[], some ((s.build .calm).1.store.projects.facts u)⟩))
    ∧ (s.build .calm).2.isComplete = true := by
  rw [build_eq .calm hs.faithful]
  split
  · next hnil =>
    have hnil : s.store.pending = [] := List.isEmpty_iff.1 hnil
    have hnone : ∀ u, u ∉ s.store.pending := fun u hu => by
      rw [hnil] at hu
      cases hu
    refine ⟨⟨fun _ => .empty, ⟨⟨rfl, fun u hu => absurd hu (hnone u),
      fun _ _ => rfl⟩, fun u hu => absurd hu (hnone u),
      fun _ u hu => absurd hu (hnone u), hw⟩, fun u hu => ?_,
      fun u hu => ?_⟩, rfl⟩
    · exact absurd (mem_kept.1 hu).1 (hnone u)
    · exact absurd (mem_others.1 (List.mem_filter.1 hu).1).1 (hnone u)
  · obtain ⟨scope, hcompleted, hordinary, hkept, hfound, hw', hreport⟩ :=
      pass_calm hs hw hkeyed
    refine ⟨⟨scope, ⟨hcompleted, hordinary, ?_, hw'⟩, hkept, hfound⟩, ?_⟩
    · intro hread u hu hann
      have hcurrent : ∀ u d, s.store.get? u = some d →
          d.descriptor? = (Content.ofText d.text).1.descriptor? :=
        fun u d hd => (hs u d hd).faithful.current (hread u d hd)
      have hproject : s.store.isProject u = true := by
        obtain ⟨d, hd, -⟩ := Store.mem_pending.1 hu
        rw [Store.announces_of_get? hd] at hann
        rw [Store.isProject_of_get? hd, Document.isProject, hcurrent u d hd]
        exact hann
      rw [hkept u (mem_kept.2 ⟨hu, hproject, hann⟩)]
      have hplan : s.first.scene.store.plan
          = (s.pass .calm).scene.store.plan :=
        (plan_first hs hcurrent).trans
          (plan_completed hcurrent hcompleted).symm
      rw [Projects.facts_of_plan hplan]
    · rw [hreport]
      rfl

/-- What a build comes to that nobody disturbs. -/
theorem build_calm (hs : s.store.Ready) (hw : s.trace.withdrawn = false)
    (hkeyed : (s.index.horizons.map Prod.fst).Nodup) :
    (∃ scope, s.Finishes scope (s.build .calm).1)
    ∧ (s.build .calm).2.isComplete = true := by
  obtain ⟨⟨scope, hfinish, -⟩, hcomplete⟩ := build_scopes hs hw hkeyed
  exact ⟨⟨scope, hfinish⟩, hcomplete⟩

/-- Every document is complete after a build. -/
theorem Finishes.done (hs : s.store.Ready) {scope : Uri → LinkScope}
    {t : Scene} (h : s.Finishes scope t) {u : Uri} {d : Document}
    (hd : t.store.get? u = some d) : ∃ scope, d = d.built u scope := by
  cases hx : s.store.get? u with
  | none =>
    rw [Store.get?_none_of_uris h.completed.uris hx] at hd
    cases hd
  | some x =>
    by_cases hu : u ∈ s.store.pending
    · rw [h.completed.done u hu x hx] at hd
      obtain rfl := Option.some.inj hd
      exact ⟨scope u,
        (Document.built_congr (x.alike_built u (scope u)) u _).symm⟩
    · rw [h.completed.others u hu, hx] at hd
      obtain rfl := Option.some.inj hd
      refine (hs u x hx).built_iff.1 fun hlt => ?_
      exact hu (Store.mem_pending.2 ⟨x, hx, hlt⟩)

end Scene

end Purview
