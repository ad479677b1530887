/-
What an invalidation comes to. It sends the document back to the very
start, the projects that the change concerns back to where linking
starts, and leaves every other document alone (`invalidate_demotes`).
Whom a change concerns is found by a walk against the edges of the graph,
but it can be said without: everybody whose closure the change is in, and
for a project everybody who misses a dependency (`mem_concerned`).

Invalidations commute, and a second one adds nothing
(`invalidateAll_congr`). The reason is that going back leaves
descriptors alone, so that the graph, and with it whom a change concerns,
is the same before and after each of them. What is left to compare is
what happens to a single document, where the way back to the very start
outdoes the shorter one in either order, and to the index, where
forgetting twice is forgetting whatever fails either test.
-/
import Purview.Proofs.Cycles

namespace Purview

-- ====================================================== whom it concerns

namespace Projects

variable {ps : Projects}

theorem mem_withUnresolved {v : Uri} :
    v ∈ withUnresolved ps ↔ ∃ p ∈ ps, p.uri = v
      ∧ ∃ x ∈ p.descriptor.dependencies,
        ∀ q ∈ ps, q.descriptor.name ≠ x.name := by
  have hmissing : ∀ x : Dependency, resolves ps x = false ↔
      ∀ q ∈ ps, q.descriptor.name ≠ x.name := fun x => by
    unfold resolves named?
    rw [Option.isSome_eq_false_iff, Option.isNone_iff_eq_none,
      List.find?_eq_none]
    simp
  unfold withUnresolved uris
  simp only [List.mem_map, List.mem_filter, List.any_eq_true,
    Bool.not_eq_true', hmissing]
  constructor
  · rintro ⟨p, ⟨hp, hx⟩, hv⟩
    exact ⟨p, hp, hv, hx⟩
  · rintro ⟨p, hp, hv, hx⟩
    exact ⟨p, ⟨hp, hx⟩, hv⟩

end Projects

namespace Store

variable {s t : Store} {u v : Uri} {d : Document}

/-- Whether a change to a document concerns a project. If the document is
a project itself, it concerns the others whose closure it is in, and the
others with a dependency that no loaded project has the name of; otherwise
it concerns those whose closure its owner is in, but not the owner. -/
def Concerns (s : Store) (u : Uri) (d : Document) (v : Uri) : Prop :=
  if d.isProject then
    v ≠ u ∧ (u ∈ s.projects.closure .any v
      ∨ ∃ p ∈ s.projects, p.uri = v ∧ ∃ x ∈ p.descriptor.dependencies,
        ∀ q ∈ s.projects, q.descriptor.name ≠ x.name)
  else ∃ owner, s.projects.ownerOf? u = some owner
    ∧ v ≠ owner.uri ∧ owner.uri ∈ s.projects.closure .any v

/-- What an invalidation finds to be concerned is what is. -/
theorem mem_concerned (hd : s.get? u = some d) :
    v ∈ s.concerned u ↔ s.Concerns u d v := by
  have hnd := s.uris_projects_nodup
  unfold concerned Concerns
  rw [hd]
  dsimp only
  split
  · unfold Projects.affectedByProject
    rw [Distinct.mem_union, List.mem_filter, decide_eq_true_eq,
      Projects.mem_dependents_iff_closure hnd,
      Projects.mem_withUnresolved]
    tauto
  · unfold Projects.affectedByDocument
    cases s.projects.ownerOf? u with
    | none => simp
    | some owner =>
      rw [Projects.mem_dependents_iff_closure hnd]
      simp

/-- Everybody concerned is listed once. -/
theorem nodup_concerned (s : Store) (u : Uri) : (s.concerned u).Nodup := by
  have hnd := s.uris_projects_nodup
  unfold concerned
  split
  · exact List.nodup_nil
  · split
    · exact Distinct.nodup_union (Projects.nodup_dependents hnd u) _
    · unfold Projects.affectedByDocument
      split
      · exact List.nodup_nil
      · exact Projects.nodup_dependents hnd _

/-- No change concerns the document itself. -/
theorem not_mem_concerned_self (s : Store) (u : Uri) :
    u ∉ s.concerned u := by
  intro h
  have hproject := isProject_of_mem_concerned h
  unfold concerned at h
  cases hd : s.get? u with
  | none => rw [hd] at h; cases h
  | some d =>
    rw [isProject_of_get? hd] at hproject
    simp only [hd, hproject, if_true] at h
    exact (Projects.mem_of_mem_affectedByProject h).2 rfl

/-- Whom a change concerns hangs on the descriptors alone. -/
theorem concerned_congr (huris : t.uris = s.uris)
    (h : ∀ v, (t.get? v).map Document.descriptor?
      = (s.get? v).map Document.descriptor?) (u : Uri) :
    t.concerned u = s.concerned u := by
  have hplan : t.projects.plan = s.projects.plan :=
    plan_congr huris fun v => by
      simpa [Option.bind_map] using congrArg (·.bind id) (h v)
  have hu := h u
  unfold concerned
  cases hd : s.get? u with
  | none =>
    rw [hd] at hu
    rw [Option.map_eq_none_iff.1 hu]
  | some d =>
    rw [hd] at hu
    obtain ⟨d', hd', hsame⟩ := Option.map_eq_some_iff.1 hu
    have hproject : d'.isProject = d.isProject :=
      congrArg Option.isSome hsame
    rw [hd']
    simp only [hproject, Projects.affectedByProject_of_plan hplan,
      Projects.affectedByDocument_of_plan hplan]

end Store

-- ========================================================= one document

namespace Document

theorem content_outdated (d : Document) :
    d.outdated.content = d.content.map Content.unlink := by
  unfold outdated demote
  split <;> rfl

/-- A project that has been linked goes back to where linking starts with
all that it had found out by then. -/
theorem sentBack_of_project {d : Document} (hd : d.isProject = true)
    (hstage : Stage.surveyed < d.stage) :
    d.sentBack = { d with
      stage := .surveyed
      diagnostics := d.diagnostics.filter fun x => x.origin = .parser } := by
  have hcontent : d.content.map Content.unlink = d.content := by
    unfold isProject descriptor? at hd
    cases hc : d.content with
    | none => rfl
    | some c =>
      cases c with
      | descriptor x => rfl
      | ordinary b => rw [hc] at hd; cases hd
  have hsurvives : survives .surveyed
      = fun x => decide (x.origin = .parser) := by
    funext x
    unfold survives
    cases x.origin <;> rfl
  have hunlink : d.unlink = d := by
    unfold unlink
    rw [hcontent]
  rw [sentBack, if_pos hstage, hunlink, demote, if_pos hstage, hsurvives]
  rfl

theorem unlink_unlink (d : Document) : d.unlink.unlink = d.unlink := by
  unfold unlink
  simp only [Option.map_map, Function.comp_def, Content.unlink_unlink]

theorem unlink_demote (d : Document) (target : Stage) :
    (d.demote target).unlink = d.unlink.demote target := by
  have hstage : d.unlink.stage = d.stage := rfl
  unfold demote
  rw [hstage]
  split <;> rfl

/-- The way back to the very start leaves the content and nothing that
was found out about it. -/
theorem demote_changed {d : Document} (h : Stage.changed < d.stage) :
    d.demote .changed = { d with
      stage := .changed, diagnostics := [], offered := none, own := none } := by
  have hnone : survives .changed = fun _ => false :=
    funext survives_changed
  rw [demote, if_pos h, hnone, List.filter_false]
  rfl

/-- Who stops on the way back to the very start arrives all the same. -/
theorem demote_demote_changed (d : Document) (target : Stage) :
    (d.demote target).demote .changed = d.demote .changed := by
  by_cases hback : Stage.changed < target
  · by_cases hlt : target < d.stage
    · have hstop : Stage.changed < (d.demote target).stage := by
        rw [demote, if_pos hlt]
        exact hback
      have hstart : Stage.changed < d.stage := Nat.lt_trans hback hlt
      rw [demote_changed hstop, demote_changed hstart, demote, if_pos hlt]
    · have hstay : d.demote target = d := if_neg hlt
      rw [hstay]
  · rw [Stage.not_changed_lt.1 hback, demote_demote]

/-- Going back to the very start twice is going back once. -/
@[simp] theorem outdated_outdated (d : Document) :
    d.outdated.outdated = d.outdated := by
  unfold outdated
  rw [unlink_demote, unlink_unlink, demote_demote]

/-- The way back to the very start outdoes the shorter one. -/
@[simp] theorem outdated_sentBack (d : Document) :
    d.sentBack.outdated = d.outdated := by
  unfold sentBack outdated
  split
  · rw [unlink_demote, unlink_unlink, demote_demote_changed]
  · rfl

end Document

-- ==================================================== one invalidation

namespace Scene

variable (host : Host)

theorem stageOf_sendBack_of_ne {s : Scene} {u v : Uri} (h : v ≠ u) :
    (s.sendBack host u).1.store.stageOf v = s.store.stageOf v := by
  unfold Store.stageOf
  rw [store_sendBack, Store.get?_alter]
  simp only [if_neg h]
  rw [Option.map_id']

/-- Those that have to be sent back are the ones that have been linked. -/
theorem sent_sendBackAll {us : List Uri} (hnd : us.Nodup) (s : Scene) :
    (sendBackAll host us s).2
      = us.filter fun v => (s.store.stageOf v).any (Stage.surveyed < ·) := by
  induction us generalizing s with
  | nil => rfl
  | cons u us ih =>
    obtain ⟨hu, hnd⟩ := List.nodup_cons.1 hnd
    have hsent : (s.sendBack host u).2
        = (s.store.stageOf u).any (Stage.surveyed < ·) := by
      unfold sendBack
      split
      · next h => exact h.symm
      · next h => exact (Bool.eq_false_iff.2 h).symm
    have hrest : us.filter (fun v =>
          ((s.sendBack host u).1.store.stageOf v).any (Stage.surveyed < ·))
        = us.filter fun v =>
          (s.store.stageOf v).any (Stage.surveyed < ·) := by
      refine List.filter_congr fun v hv => ?_
      have hne : v ≠ u := fun h => hu (h ▸ hv)
      rw [stageOf_sendBack_of_ne host hne]
    show (if (s.sendBack host u).2
      then u :: (sendBackAll host us (s.sendBack host u).1).2
      else (sendBackAll host us (s.sendBack host u).1).2) = _
    rw [ih hnd, hrest, hsent, List.filter_cons]

/-- What an invalidation reports. -/
theorem invalidate_report {s : Scene} {u : Uri} {d : Document}
    (hd : s.store.get? u = some d) :
    (s.invalidate host u).2 =
      ⟨(if Stage.changed < d.stage then [u] else [])
        ++ (s.store.concerned u).filter fun v =>
          (s.store.stageOf v).any (Stage.surveyed < ·),
        s.store.concerned u⟩ := by
  have hstage : ∀ v ∈ s.store.concerned u,
      ((s.unlink host u).modify u (·.demote .changed)).store.stageOf v
        = s.store.stageOf v := by
    intro v hv
    have hne : v ≠ u := fun h => s.store.not_mem_concerned_self u (h ▸ hv)
    unfold Store.stageOf
    rw [store_modify, store_unlink, Store.get?_modify_of_ne _ hne,
      Store.get?_modify_of_ne _ hne]
  have hsent := sent_sendBackAll host (s.store.nodup_concerned u)
    ((s.unlink host u).modify u (·.demote .changed))
  rw [List.filter_congr fun v hv => by rw [hstage v hv]] at hsent
  have hconcerned : s.store.concerned u
      = if d.isProject then s.store.projects.affectedByProject u
        else s.store.projects.affectedByDocument u := by
    unfold Store.concerned
    rw [hd]
  unfold invalidate
  rw [hd]
  dsimp only
  rw [← hconcerned, hsent]

theorem get?_invalidate (s : Scene) (u v : Uri) :
    (s.invalidate host u).1.store.get? v
      = (s.store.get? v).map fun x => if v = u then x.outdated
        else if v ∈ s.store.concerned u then x.sentBack else x := by
  rw [store_invalidate, Store.get?_alter]

theorem uris_invalidate (s : Scene) (u : Uri) :
    (s.invalidate host u).1.store.uris = s.store.uris := by
  rw [store_invalidate, Store.uris_alter]

/-- Who is reported as demoted has lost a stage, and the other way
round. -/
theorem mem_demoted {s : Scene} {u v : Uri} {d : Document}
    (hd : s.store.get? u = some d) :
    v ∈ (s.invalidate host u).2.demoted ↔
      ∃ x x', s.store.get? v = some x
        ∧ (s.invalidate host u).1.store.get? v = some x'
        ∧ x'.stage < x.stage := by
  have hself := s.store.not_mem_concerned_self u
  have hlinked : (s.store.stageOf v).any (Stage.surveyed < ·) = true ↔
      ∃ x, s.store.get? v = some x ∧ Stage.surveyed < x.stage := by
    unfold Store.stageOf
    cases s.store.get? v <;> simp
  rw [invalidate_report host hd, List.mem_append, List.mem_filter, hlinked,
    get?_invalidate]
  constructor
  · rintro (hv | ⟨hv, x, hx, hlt⟩)
    · split at hv
      · next hlt =>
        obtain rfl := List.mem_singleton.1 hv
        refine ⟨d, d.outdated, hd, ?_, d.stage_outdated ▸ hlt⟩
        rw [hd, Option.map_some, if_pos rfl]
      · cases hv
    · have hne : v ≠ u := fun h => hself (h ▸ hv)
      refine ⟨x, x.sentBack, hx, ?_, ?_⟩
      · rw [hx, Option.map_some, if_neg hne, if_pos hv]
      · rw [x.stage_sentBack, if_pos hlt]
        exact hlt
  · rintro ⟨x, x', hx, hx', hlt⟩
    rw [hx, Option.map_some, Option.some.injEq] at hx'
    subst hx'
    split at hlt
    · next hv =>
      subst hv
      obtain rfl : d = x := Option.some.inj (hd.symm.trans hx)
      rw [d.stage_outdated] at hlt
      rw [if_pos hlt]
      exact .inl List.mem_cons_self
    · split at hlt
      · next hv =>
        refine .inr ⟨hv, x, hx, ?_⟩
        rw [x.stage_sentBack] at hlt
        split at hlt
        · assumption
        · exact absurd hlt (Nat.lt_irrefl _)
      · exact absurd hlt (Nat.lt_irrefl _)

theorem nodup_demoted {s : Scene} {u : Uri} {d : Document}
    (hd : s.store.get? u = some d) :
    (s.invalidate host u).2.demoted.Nodup := by
  rw [invalidate_report host hd]
  refine List.nodup_append.2
    ⟨?_, (s.store.nodup_concerned u).filter _, ?_⟩
  · split
    · exact List.pairwise_singleton _ u
    · exact List.nodup_nil
  · rintro v hv w hw rfl
    split at hv
    · obtain rfl := List.mem_singleton.1 hv
      exact s.store.not_mem_concerned_self v (List.mem_filter.1 hw).1
    · cases hv

/-- The document itself is the first to be demoted. -/
theorem head?_demoted {s : Scene} {u : Uri} {d : Document}
    (hd : s.store.get? u = some d)
    (hu : u ∈ (s.invalidate host u).2.demoted) :
    (s.invalidate host u).2.demoted.head? = some u := by
  rw [invalidate_report host hd] at hu ⊢
  by_cases hlt : Stage.changed < d.stage
  · simp only [if_pos hlt]
    rfl
  · simp only [if_neg hlt, List.nil_append] at hu
    exact absurd (List.mem_filter.1 hu).1
      (s.store.not_mem_concerned_self u)

/-- What an invalidation of a document makes of a scene, and what it
reports. -/
structure Demotes (s : Scene) (u : Uri) (d : Document) (t : Scene)
    (r : Invalidated) : Prop where
  affected : ∀ v, v ∈ r.affected ↔ s.store.Concerns u d v
  affected_once : r.affected.Nodup
  uris : t.store.uris = s.store.uris
  /-- The document itself goes back to the very start. -/
  self : ∃ d', t.store.get? u = some d' ∧ d.Alike d'
    ∧ d'.stage = .changed ∧ d'.content = d.content.map Content.unlink
    ∧ ∀ b, d'.body? = some b → ∀ r ∈ b.references, r.target = none
  /-- Affected projects that have been linked go back to where linking
  starts. -/
  sent : ∀ v ∈ r.affected, ∀ x, s.store.get? v = some x →
    .surveyed < x.stage → t.store.get? v = some { x with
      stage := .surveyed
      diagnostics := x.diagnostics.filter fun y => y.origin = .parser }
  others : ∀ v, v ≠ u → (∀ x, v ∈ r.affected →
    s.store.get? v = some x → x.stage ≤ .surveyed) →
    t.store.get? v = s.store.get? v
  ordinary : ∀ v, v ≠ u → s.store.isProject v = false →
    t.store.get? v = s.store.get? v
  demoted : ∀ v, v ∈ r.demoted ↔ ∃ x x', s.store.get? v = some x
    ∧ t.store.get? v = some x' ∧ x'.stage < x.stage
  demoted_once : r.demoted.Nodup
  first : u ∈ r.demoted → r.demoted.head? = some u

/-- An invalidation demotes exactly the documents that the change
affects. -/
theorem invalidate_demotes {s : Scene} {u : Uri} {d : Document}
    (hd : s.store.get? u = some d) :
    Demotes s u d (s.invalidate host u).1 (s.invalidate host u).2 := by
  have haffected : (s.invalidate host u).2.affected
      = s.store.concerned u := by
    rw [invalidate_report host hd]
  have hothers : ∀ v, v ≠ u → (∀ x, v ∈ s.store.concerned u →
      s.store.get? v = some x → x.stage ≤ .surveyed) →
      (s.invalidate host u).1.store.get? v = s.store.get? v := by
    intro v hne hlow
    rw [get?_invalidate]
    cases hx : s.store.get? v with
    | none => rfl
    | some x =>
      rw [Option.map_some, if_neg hne]
      split
      · next hv =>
        have hstay : x.sentBack = x :=
          if_neg (Nat.not_lt.2 (hlow x hv hx))
        rw [hstay]
      · rfl
  have hproject : ∀ v ∈ s.store.concerned u, s.store.isProject v = true :=
    fun v => Store.isProject_of_mem_concerned
  refine ⟨fun v => haffected ▸ Store.mem_concerned hd,
    haffected ▸ s.store.nodup_concerned u, uris_invalidate host s u, ?_,
    ?_, haffected ▸ hothers, ?_, fun v => mem_demoted host hd,
    nodup_demoted host hd, head?_demoted host hd⟩
  · refine ⟨d.outdated, ?_, d.alike_outdated, d.stage_outdated,
      d.content_outdated, fun b hb => ?_⟩
    · rw [get?_invalidate, hd, Option.map_some, if_pos rfl]
    · refine Document.targets_of_unlinked ?_ hb
      rw [d.content_outdated, Option.map_map]
      exact congrArg (Option.map · d.content)
        (funext Content.unlink_unlink)
  · rw [haffected]
    intro v hv x hx hlt
    have hne : v ≠ u :=
      fun h => s.store.not_mem_concerned_self u (h ▸ hv)
    have hp := hproject v hv
    rw [Store.isProject_of_get? hx] at hp
    rw [get?_invalidate, hx, Option.map_some, if_neg hne, if_pos hv,
      Document.sentBack_of_project hp hlt]
  · intro v hne hp
    refine hothers v hne fun x hv _ => ?_
    rw [hproject v hv] at hp
    cases hp

/-- A complete project of a name, with the names that it depends on. -/
def complete (name : String) (needs : List String) : Document :=
  { Document.unread "" with
    stage := .validated
    content := some (.descriptor ⟨.project, name, .empty 0,
      needs.map (⟨·, .empty 0⟩), []⟩) }

/-- Three projects in a row, and one that misses a dependency. -/
def chained : Scene where
  store :=
    { entries :=
        [(Uri.ofString "/m/M.sysw", complete "M" []),
          (Uri.ofString "/a/A.sysw", complete "A" ["M"]),
          (Uri.ofString "/b/B.sysw", complete "B" ["A"]),
          (Uri.ofString "/c/C.sysw", complete "C" ["X"])]
      nodup := by decide +kernel }
  index := .empty []
  trace := .start false

/-- Whoever depends on the first is demoted, and so is the one that misses
a dependency. -/
theorem invalidate_demotes_chained :
    ∃ d, chained.store.get? (Uri.ofString "/m/M.sysw") = some d
      ∧ Demotes chained (Uri.ofString "/m/M.sysw") d
        (chained.invalidate .calm (Uri.ofString "/m/M.sysw")).1
        ⟨[Uri.ofString "/m/M.sysw", Uri.ofString "/a/A.sysw",
            Uri.ofString "/b/B.sysw", Uri.ofString "/c/C.sysw"],
          [Uri.ofString "/a/A.sysw", Uri.ofString "/b/B.sysw",
            Uri.ofString "/c/C.sysw"]⟩ := by
  have hloaded : (chained.store.get?
      (Uri.ofString "/m/M.sysw")).isSome = true := by decide +kernel
  have hreport : (chained.invalidate .calm (Uri.ofString "/m/M.sysw")).2
      = ⟨[Uri.ofString "/m/M.sysw", Uri.ofString "/a/A.sysw",
          Uri.ofString "/b/B.sysw", Uri.ofString "/c/C.sysw"],
        [Uri.ofString "/a/A.sysw", Uri.ofString "/b/B.sysw",
          Uri.ofString "/c/C.sysw"]⟩ := by decide +kernel
  obtain ⟨d, hd⟩ := Option.isSome_iff_exists.1 hloaded
  exact ⟨d, hd, hreport ▸ invalidate_demotes .calm hd⟩

-- ================================================= many invalidations

/-- Accounts for changes to documents, one after another. -/
def invalidateAll (us : List Uri) (s : Scene) : Scene :=
  us.foldl (fun s u => (s.invalidate host u).1) s

/-- Going back leaves every descriptor alone. -/
theorem descriptor?_invalidate (s : Scene) (u v : Uri) :
    ((s.invalidate host u).1.store.get? v).map Document.descriptor?
      = (s.store.get? v).map Document.descriptor? := by
  rw [get?_invalidate, Option.map_map]
  congr 1
  funext d
  rw [Function.comp_apply]
  split
  · exact d.descriptor?_outdated
  · split
    · exact d.descriptor?_sentBack
    · rfl

/-- So whom a change concerns is the same behind another one. -/
theorem concerned_invalidate (s : Scene) (u v : Uri) :
    (s.invalidate host u).1.store.concerned v = s.store.concerned v :=
  Store.concerned_congr (uris_invalidate host s u)
    (descriptor?_invalidate host s u) v

theorem retains_invalidate (s : Scene) (u : Uri) :
    (s.invalidate host u).1.retains = s.retains := by
  funext v w h
  have hv := descriptor?_invalidate host s u v
  unfold retains
  rw [concerned_invalidate]
  cases hd : s.store.get? v with
  | none =>
    rw [hd] at hv
    rw [Option.map_eq_none_iff.1 hv]
  | some d =>
    rw [hd] at hv
    obtain ⟨d', hd', hsame⟩ := Option.map_eq_some_iff.1 hv
    have hproject : d'.isProject = d.isProject :=
      congrArg Option.isSome hsame
    rw [hd']
    simp only [hproject]

/-- The documents behind some invalidations. -/
theorem store_invalidateAll (us : List Uri) (s : Scene) :
    (invalidateAll host us s).store = s.store.alter fun v d =>
      if v ∈ us then d.outdated
      else if ∃ u ∈ us, v ∈ s.store.concerned u then d.sentBack else d := by
  induction us generalizing s with
  | nil => exact (Store.alter_id fun v d _ => by simp).symm
  | cons u us ih =>
    show (invalidateAll host us (s.invalidate host u).1).store = _
    simp only [ih, concerned_invalidate host]
    rw [store_invalidate, Store.alter_alter]
    refine Store.alter_congr fun v d _ => ?_
    simp only [List.mem_cons, exists_eq_or_imp]
    by_cases hu : v = u
    · simp only [hu, true_or, if_true]
      split
      · exact d.outdated_outdated
      · split
        · exact d.sentBack_outdated
        · rfl
    by_cases hv : v ∈ s.store.concerned u
    · simp only [hu, hv, false_or, true_or, if_true, if_false,
        Document.outdated_sentBack, Document.sentBack_sentBack, ite_self]
    · simp only [hu, hv, false_or, if_false]

/-- What is remembered behind some invalidations. -/
theorem index_invalidateAll (us : List Uri) (s : Scene) :
    (invalidateAll host us s).index
      = s.index.retain fun v h => us.all fun u => s.retains u v h := by
  induction us generalizing s with
  | nil => exact s.index.retain_all.symm
  | cons u us ih =>
    show (invalidateAll host us (s.invalidate host u).1).index = _
    rw [ih, retains_invalidate, index_invalidate_eq_retain,
      Index.retain_retain]
    rfl

/-- An invalidation repeated at once finds the same projects to be
concerned, and nobody to demote. -/
theorem invalidate_again (host' : Host) (s : Scene) (u : Uri) :
    ((s.invalidate host u).1.invalidate host' u).2
      = ⟨[], (s.invalidate host u).2.affected⟩ := by
  cases hd : s.store.get? u with
  | none =>
    rw [invalidate_of_none host hd]
    unfold invalidate
    rw [hd]
    rfl
  | some d =>
    have hself : (s.invalidate host u).1.store.get? u
        = some d.outdated := by
      rw [get?_invalidate, hd, Option.map_some, if_pos rfl]
    have hnone : (s.store.concerned u).filter (fun v =>
        ((s.invalidate host u).1.store.stageOf v).any
          (Stage.surveyed < ·)) = [] := by
      refine List.filter_eq_nil_iff.2 fun v hv => ?_
      have hne : v ≠ u :=
        fun h => s.store.not_mem_concerned_self u (h ▸ hv)
      unfold Store.stageOf
      rw [get?_invalidate]
      cases s.store.get? v with
      | none => exact Bool.false_ne_true
      | some x =>
        simp only [Option.map_some, if_neg hne, if_pos hv,
          Option.any_some, decide_eq_true_eq, x.stage_sentBack]
        split
        · exact Nat.lt_irrefl _
        · assumption
    rw [invalidate_report host' hself, invalidate_report host hd,
      concerned_invalidate, hnone, d.stage_outdated]
    rfl

/-- Invalidations commute and repeating one adds nothing: what a series of
them leaves hangs on which documents it is about, and in which scene, and
neither on its order nor on the hosts. -/
theorem invalidateAll_congr (host' : Host) (s : Scene) {us vs : List Uri}
    (h : ∀ u, u ∈ us ↔ u ∈ vs) :
    (invalidateAll host us s).store = (invalidateAll host' vs s).store
      ∧ (invalidateAll host us s).index = (invalidateAll host' vs s).index
      ∧ ∀ u, ((s.invalidate host u).1.invalidate host' u).2
        = ⟨[], (s.invalidate host u).2.affected⟩ := by
  refine ⟨?_, ?_, s.invalidate_again host host'⟩
  · simp only [store_invalidateAll, h]
  · rw [index_invalidateAll, index_invalidateAll]
    have hall : ∀ p : Uri → Bool, us.all p = vs.all p := fun p => by
      rw [Bool.eq_iff_iff, List.all_eq_true, List.all_eq_true]
      simp only [h]
    simp only [hall]

/-- A project, one that depends on it and a document that is not loaded,
in another order and with the first one twice. -/
theorem invalidateAll_congr_chained :
    let m := Uri.ofString "/m/M.sysw"
    let a := Uri.ofString "/a/A.sysw"
    let x := Uri.ofString "/x.sysw"
    (∀ u, u ∈ [m, a, m, x] ↔ u ∈ [x, a, m])
      ∧ (invalidateAll .calm [m, a, m, x] chained).store
        = (invalidateAll .calm [x, a, m] chained).store
      ∧ (invalidateAll .calm [m, a, m, x] chained).index
        = (invalidateAll .calm [x, a, m] chained).index := by
  have hsame : ∀ m a x u : Uri, u ∈ [m, a, m, x] ↔ u ∈ [x, a, m] := by
    intro m a x u
    simp only [List.mem_cons, List.not_mem_nil, or_false]
    tauto
  intro m a x
  obtain ⟨hstore, hindex, -⟩ :=
    invalidateAll_congr .calm .calm chained (hsame m a x)
  exact ⟨hsame m a x, hstore, hindex⟩

end Scene

end Purview
