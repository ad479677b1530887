/-
Whom an update leaves alone. A complete document that the batch does not
name keeps every field, and no step is called on it, unless one of the
changes concerns it as a project or its links hang on the batch
(`Workspace.update_untouched`).

Whom a change concerns is said on the documents as they are when it is
made: the projects that depend on what changes, and for a project those
that miss a dependency (`Store.Recalls`); the engine sends back these and
no others (`mem_recalled`). On what a document's links hang is what the
two scans of an update ask the index about, before the changes and behind
them (`Scene.Regards`).

What carries the proof is that each move calls its steps on documents
that it is given or that it recalls, and on no others (`Silent`). So a
document that no change recalls and no scan finds is complete when the
build starts, and the build passes over it.
-/
import Purview.Proofs.Invalidated
import Purview.Proofs.Onward

namespace Purview

open Relation (ReflTransGen TransGen)

-- ====================================================== whom it concerns

namespace Projects

variable {ps : Projects}

/-- The dependents of a project are the others that depend on it. -/
theorem mem_dependents_iff_dependsOn (hnd : (uris ps).Nodup) {u v : Uri} :
    v ∈ dependents ps u ↔ v ≠ u ∧ ∃ p ∈ ps, p.uri = v
      ∧ ∃ q ∈ ps, q.uri = u ∧ TransGen (DependsOn ps) p q := by
  rw [mem_dependents hnd, Relation.reflTransGen_iff_eq_or_transGen]
  constructor
  · rintro ⟨hv, hne, hway⟩
    have hway := hway.resolve_left (Ne.symm hne)
    obtain ⟨p, hp, rfl⟩ := List.mem_map.1 hv
    have hu : u ∈ uris ps := by
      obtain ⟨w, -, hedge⟩ := TransGen.tail'_iff.1 hway
      exact targets_subset ps .any w hedge
    obtain ⟨q, hq, rfl⟩ := List.mem_map.1 hu
    exact ⟨hne, p, hp, rfl, q, hq, rfl,
      (transGen_edge_iff hnd hp hq).1 hway⟩
  · rintro ⟨hne, p, hp, rfl, q, hq, rfl, hway⟩
    exact ⟨List.mem_map_of_mem hp, hne,
      .inr ((transGen_edge_iff hnd hp hq).2 hway)⟩

/-- A change to a project affects whoever depends on it, over however
many others, and whoever misses a dependency. -/
theorem mem_affectedByProject (hnd : (uris ps).Nodup) {u v : Uri} :
    v ∈ affectedByProject ps u ↔ v ≠ u ∧ ∃ p ∈ ps, p.uri = v
      ∧ ((∃ q ∈ ps, q.uri = u ∧ TransGen (DependsOn ps) p q)
        ∨ ∃ x ∈ p.descriptor.dependencies,
          ∀ q ∈ ps, q.descriptor.name ≠ x.name) := by
  unfold affectedByProject
  rw [Distinct.mem_union, List.mem_filter, decide_eq_true_eq,
    mem_dependents_iff_dependsOn hnd, mem_withUnresolved]
  constructor
  · rintro (⟨hne, p, hp, hv, hway⟩ | ⟨⟨p, hp, hv, hmiss⟩, hne⟩)
    · exact ⟨hne, p, hp, hv, .inl hway⟩
    · exact ⟨hne, p, hp, hv, .inr hmiss⟩
  · rintro ⟨hne, p, hp, hv, hway | hmiss⟩
    · exact .inl ⟨hne, p, hp, hv, hway⟩
    · exact .inr ⟨⟨p, hp, hv, hmiss⟩, hne⟩

end Projects

namespace Store

/-- The documents against which a change is reckoned: a new document is
one of them, and one that changes or goes still is. -/
def facing (s : Store) : Change → Store
  | .edit file =>
    if s.contains file.uri then s
    else s.insert file.uri (.read file.text)
  | .removal _ => s

/-- The reasons for which a change concerns a project. -/
inductive Recalls (s : Store) (c : Change) (p : Project) : Prop where
  /-- It depends on the project that changes, comes or goes. -/
  | depends (q : Project) (hq : q ∈ (s.facing c).projects)
      (hc : q.uri = c.uri) (h : TransGen (s.facing c).projects.DependsOn p q)
  /-- A project changes, comes or goes, and the project misses a
  dependency. -/
  | misses (hc : (s.facing c).isProject c.uri = true) (x : Dependency)
      (hx : x ∈ p.descriptor.dependencies)
      (h : ∀ q ∈ (s.facing c).projects, q.descriptor.name ≠ x.name)
  /-- It depends on the owner of the ordinary document that changes or
  goes. -/
  | owned (hc : c.uri ∈ s.uris) (hord : s.isProject c.uri = false)
      (owner : Project) (howner : s.projects.ownerOf? c.uri = some owner)
      (hne : p.uri ≠ owner.uri) (h : TransGen s.projects.DependsOn p owner)

variable {s : Store} {c : Change} {v : Uri}

/-- Only a new document makes a difference. -/
theorem facing_of_loaded (h : c.uri ∈ s.uris) : s.facing c = s := by
  cases c with
  | edit file => exact if_pos ((s.isSome_get? file.uri).2 h)
  | removal u => rfl

/-- The documents that a change recalls, by what it is a change to. -/
theorem recalled_eq (h : s.isBuiltin c.uri = false) : s.recalled c =
    if (s.facing c).isProject c.uri then
      (s.facing c).projects.affectedByProject c.uri
    else if c.uri ∈ s.uris then s.projects.affectedByDocument c.uri
    else [] := by
  cases hd : s.get? c.uri with
  | some d =>
    have hmem : c.uri ∈ s.uris := (s.isSome_get? c.uri).1 (by rw [hd]; rfl)
    have hb : d.builtin = false := (isBuiltin_of_some hd).symm.trans h
    rw [recalled_of_loaded hd hb, facing_of_loaded hmem, if_pos hmem,
      isProject_of_get? hd, concerned, hd]
  | none =>
    have hout : c.uri ∉ s.uris := (s.get?_eq_none c.uri).1 hd
    rw [if_neg hout]
    cases c with
    | removal u =>
      have hd : s.get? u = none := hd
      simp [recalled, concerned, facing, isProject, Change.uri, hd]
    | edit file =>
      have hout : s.contains file.uri = false := by
        unfold contains
        rw [show s.get? file.uri = none from hd]
        rfl
      have hread : (s.insert file.uri (.read file.text)).isProject file.uri
          = (Document.read file.text).isProject := by
        simp [isProject, get?_insert]
      simp only [recalled_of_none hd, facing, hout, Bool.false_eq_true,
        if_false, Change.uri, hread]

theorem isProject_of_uri {p : Project} (hp : p ∈ s.projects) :
    s.isProject p.uri = true := isProject_iff.2 (List.mem_map_of_mem hp)

/-- And none to the others. -/
theorem isProject_facing (hv : v ≠ c.uri) :
    (s.facing c).isProject v = s.isProject v := by
  cases c with
  | removal u => rfl
  | edit file =>
    unfold facing
    dsimp only
    split
    · rfl
    · unfold isProject
      rw [get?_insert, if_neg (by exact hv)]

/-- A change to a project concerns those that depend on it and those that
miss a dependency. -/
theorem recalls_iff_of_project {p : Project}
    (hproject : (s.facing c).isProject c.uri = true) : s.Recalls c p ↔
      (∃ q ∈ (s.facing c).projects, q.uri = c.uri
        ∧ TransGen (s.facing c).projects.DependsOn p q)
      ∨ ∃ x ∈ p.descriptor.dependencies,
        ∀ q ∈ (s.facing c).projects, q.descriptor.name ≠ x.name := by
  constructor
  · intro h
    cases h with
    | depends q hq hqc hway => exact .inl ⟨q, hq, hqc, hway⟩
    | misses _ x hx hmiss => exact .inr ⟨x, hx, hmiss⟩
    | owned hmem hord =>
      rw [facing_of_loaded hmem, hord] at hproject
      cases hproject
  · rintro (⟨q, hq, hqc, hway⟩ | ⟨x, hx, hmiss⟩)
    · exact .depends q hq hqc hway
    · exact .misses hproject x hx hmiss

/-- A change to an ordinary document concerns those that depend on its
owner, if it was loaded before. -/
theorem recalls_iff_of_ordinary {p : Project}
    (hord : (s.facing c).isProject c.uri = false) : s.Recalls c p ↔
      c.uri ∈ s.uris ∧ ∃ owner, s.projects.ownerOf? c.uri = some owner
        ∧ p.uri ≠ owner.uri ∧ TransGen s.projects.DependsOn p owner := by
  constructor
  · intro h
    cases h with
    | depends q hq hqc =>
      rw [← hqc, isProject_of_uri hq] at hord
      cases hord
    | misses hc =>
      rw [hc] at hord
      cases hord
    | owned hmem _ owner howner hne hway =>
      exact ⟨hmem, owner, howner, hne, hway⟩
  · rintro ⟨hmem, owner, howner, hne, hway⟩
    rw [facing_of_loaded hmem] at hord
    exact .owned hmem hord owner howner hne hway

/-- A change recalls the projects that it concerns, and nobody if it is
to a builtin. -/
theorem mem_recalled : v ∈ s.recalled c ↔ s.isBuiltin c.uri = false
    ∧ v ≠ c.uri
    ∧ ∃ p ∈ (s.facing c).projects, p.uri = v ∧ s.Recalls c p := by
  cases hb : s.isBuiltin c.uri with
  | true =>
    obtain ⟨d, hd, hbuiltin⟩ := (Option.any_eq_true _ _).1 hb
    simp [recalled_of_builtin hd hbuiltin]
  | false =>
    rw [recalled_eq hb]
    simp only [true_and]
    cases hproject : (s.facing c).isProject c.uri with
    | true =>
      simp only [recalls_iff_of_project hproject, if_true]
      exact Projects.mem_affectedByProject (s.facing c).uris_projects_nodup
    | false =>
      simp only [recalls_iff_of_ordinary hproject, Bool.false_eq_true,
        if_false]
      by_cases hmem : c.uri ∈ s.uris
      · rw [facing_of_loaded hmem] at hproject ⊢
        have hself : ∀ p ∈ s.projects, p.uri ≠ c.uri := by
          intro p hp hpc
          rw [← hpc, isProject_of_uri hp] at hproject
          cases hproject
        rw [if_pos hmem]
        unfold Projects.affectedByDocument
        cases howner : s.projects.ownerOf? c.uri with
        | none => simp
        | some owner =>
          have hin := List.mem_of_find?_eq_some howner
          dsimp only
          rw [Projects.mem_dependents_iff_dependsOn s.uris_projects_nodup]
          constructor
          · rintro ⟨hne, p, hp, rfl, q, hq, hqo, hway⟩
            obtain rfl :=
              Projects.eq_of_uri s.uris_projects_nodup hq hin hqo
            exact ⟨hself p hp, p, hp, rfl, hmem, q, rfl, hne, hway⟩
          · rintro ⟨-, p, hp, rfl, -, q, hq, hne, hway⟩
            obtain rfl := Option.some.inj hq
            exact ⟨hne, p, hp, rfl, owner, hin, rfl, hway⟩
      · simp [hmem]

end Store

-- =============================================================== silence

namespace Scene

variable (host : Host) {v : Uri} {s t r : Scene}

/-- No step has been called on a document on the way from one scene to
another. -/
def Silent (v : Uri) (s t : Scene) : Prop :=
  ∀ step, (step, v) ∈ t.trace.calls → (step, v) ∈ s.trace.calls

theorem Silent.refl (v : Uri) (s : Scene) : Silent v s s := fun _ h => h

theorem Silent.trans (h : Silent v s t) (h' : Silent v t r) :
    Silent v s r := fun step hr => h step (h' step hr)

/-- Where nothing is called, nobody is. -/
theorem silent_of_trace (h : t.trace = s.trace) : Silent v s t := by
  intro step hstep
  rwa [h] at hstep

/-- A call on another document. -/
theorem silent_of_note {step : Step} {u : Uri} (hne : v ≠ u)
    (h : t.trace = s.trace.note host step u) : Silent v s t := by
  intro x hx
  rw [h] at hx
  rcases List.mem_append.1 hx with hx | hx
  · exact hx
  · exact absurd (congrArg Prod.snd (List.mem_singleton.1 hx)) hne

/-- Sending somebody back calls a step on nobody else. -/
theorem silent_sendBack {u : Uri} (hne : v ≠ u) :
    Silent v s (s.sendBack host u).1 := by
  unfold sendBack
  split
  · exact silent_of_note host hne rfl
  · exact .refl v s

theorem silent_sendBackAll {us : List Uri} (h : v ∉ us) :
    Silent v s (sendBackAll host us s).1 := by
  induction us generalizing s with
  | nil => exact .refl v s
  | cons u us ih =>
    obtain ⟨hne, h⟩ := List.ne_and_not_mem_of_not_mem_cons h
    exact (silent_sendBack host hne).trans (ih h)

/-- Neither does invalidation on anybody it does not concern. -/
theorem silent_invalidate {u : Uri} (hne : v ≠ u)
    (h : v ∉ s.store.concerned u) : Silent v s (s.invalidate host u).1 := by
  unfold Store.concerned at h
  unfold invalidate
  cases hd : s.store.get? u with
  | none => exact .refl v s
  | some d =>
    rw [hd] at h
    have hunlinked : Silent v s
        ((s.unlink host u).modify u (·.demote .changed)) :=
      silent_of_note host hne rfl
    exact (hunlinked.trans (silent_sendBackAll host h)).trans
      (silent_of_trace rfl)

/-- A change calls steps on the document it names and on those that it
recalls. -/
theorem silent_apply {c : Change} (hne : v ≠ c.uri)
    (h : v ∉ s.store.recalled c) : Silent v s (s.apply host c).1 := by
  cases hd : s.store.get? c.uri with
  | none =>
    cases c with
    | edit file =>
      show Silent v s (s.put host file).1
      have hread : Silent v s (s.insertRead host file.uri file.text) :=
        silent_of_note host hne rfl
      rw [put_of_none host hd]
      refine hread.trans ?_
      rw [Store.recalled_of_none hd] at h
      unfold added
      rw [store_insertRead_self]
      dsimp only
      split
      · next hproject =>
        rw [if_pos hproject, ← store_insertRead host] at h
        have hsent := silent_sendBackAll host
          (s := s.insertRead host file.uri file.text) h
        generalize sendBackAll host _ _ = sent at hsent ⊢
        exact hsent.trans (silent_of_trace rfl)
      · exact .refl v _
    | removal u =>
      show Silent v s (s.remove host u).1
      rw [remove_of_none host (u := u) hd]
      exact .refl v s
  | some d =>
    cases hb : d.builtin with
    | true =>
      cases c with
      | edit file =>
        show Silent v s (s.put host file).1
        rw [put_of_builtin host hd hb]
        exact .refl v s
      | removal u =>
        show Silent v s (s.remove host u).1
        have hbuiltin := (Store.isBuiltin_of_some hd).trans hb
        rw [remove_of_builtin host (u := u) hbuiltin]
        exact .refl v s
    | false =>
      rw [Store.recalled_of_loaded hd hb] at h
      have hstale := silent_invalidate host hne h
      cases c with
      | edit file =>
        show Silent v s (s.put host file).1
        rw [put_of_loaded host hd hb]
        exact hstale.trans (silent_of_trace rfl)
      | removal u =>
        show Silent v s (s.remove host u).1
        exact hstale.trans
          (silent_of_trace (remove_of_loaded host hd hb).2.2)

theorem silent_reread {us : List Uri} (h : v ∉ us) :
    Silent v s (reread host us s) := by
  induction us generalizing s with
  | nil => exact .refl v s
  | cons u us ih =>
    obtain ⟨hne, h⟩ := List.ne_and_not_mem_of_not_mem_cons h
    rw [reread]
    split
    · split
      · have hread : Silent v s ((s.note host .parse u).modify u fun d =>
            (d.applyRead (Content.ofText d.text)).advance .parsed) :=
          silent_of_note host hne rfl
        exact hread.trans (ih h)
      · exact ih h
    · exact ih h

theorem silent_close {u : Uri} (phase : Phase) (hne : v ≠ u) :
    Silent v s (s.close host phase u) := by
  by_cases hcall : s.summons phase u
  · exact silent_of_note host hne (trace_close_of_call host hcall)
  · exact silent_of_trace (trace_close_of_none host hcall)

end Scene

namespace Pass

open Scene (Silent)

variable (host : Host) {v : Uri}

/-- A phase calls its step on the documents it is given. -/
theorem silent_runPhase (phase : Phase) {us : List Uri} (h : v ∉ us)
    (p : Pass) : Silent v p.scene (runPhase host phase us p).1.scene := by
  induction us generalizing p with
  | nil => exact .refl v p.scene
  | cons u us ih =>
    obtain ⟨hne, h⟩ := List.ne_and_not_mem_of_not_mem_cons h
    cases hgo : p.poll.report.cancelled with
    | true =>
      rw [runPhase]
      simp only [hgo, if_true]
      exact .refl v p.scene
    | false =>
      obtain ⟨report, -, hr⟩ := runPhase_cons host phase u us p hgo
      rw [hr]
      exact (Scene.silent_close host phase hne).trans (ih h ⟨_, report⟩)

/-- So do phases in a row. -/
theorem silent_runPhases (phases : List Phase) {us : List Uri}
    (h : v ∉ us) (p : Pass) :
    Silent v p.scene (runPhases host phases us p).1.scene := by
  induction phases generalizing us p with
  | nil => exact .refl v p.scene
  | cons phase phases ih =>
    rw [runPhases_elim]
    dsimp only
    split
    · exact .refl v p.scene
    · have hphase := silent_runPhase host phase h p.poll
      cases hnext : (runPhase host phase us p.poll).2 with
      | none => exact hphase
      | some active =>
        exact hphase.trans
          (ih (fun hv => h (runPhase_active host hnext hv)) _)

theorem silent_runAll {us : List Uri} (h : v ∉ us) (p : Pass) :
    Silent v p.scene (runAll host us p).1.scene := by
  unfold runAll
  split
  · exact .refl v p.scene
  · have hphases := silent_runPhases host Phase.all h p
    dsimp only
    split <;> exact hphases

/-- A pass calls no step on a document outside its batch. -/
theorem carries_silent {batch : List Uri} (h : v ∉ batch) :
    Carries host batch (Silent v) where
  refl := .refl v
  trans := Silent.trans
  reread _ hus _ := Scene.silent_reread host fun hv => h (hus hv)
  runAll _ hus p _ := silent_runAll host (fun hv => h (hus hv)) p

end Pass

-- =============================================================== batches

namespace Scene

variable (host : Host) {s : Scene} {v : Uri}

/-- A batch calls steps on its unfinished documents. -/
theorem silent_buildBatch {batch : List Uri}
    (h : v ∉ s.store.unfinished batch) :
    Silent v s (s.buildBatch host batch).1 :=
  (Pass.carries_silent host h).buildBatch host (silent_of_trace rfl)

/-- The scene in which some changes have been made, one after another. -/
def made (s : Scene) (changes : List Change) : Scene :=
  changes.foldl (fun s c => (s.apply host c).1) s

/-- What changes make of a store does not hang on the index. -/
theorem store_made_congr {t : Scene} (h : t.store = s.store)
    (changes : List Change) :
    (t.made host changes).store = (s.made host changes).store := by
  induction changes generalizing s t with
  | nil => exact h
  | cons c changes ih => exact ih (store_apply_congr host h c)

/-- Changes leave a document alone that they neither name nor recall, and
call no step on it. -/
theorem made_untouched {changes : List Change}
    (hv : v ∉ changes.map Change.uri)
    (h : ∀ earlier c later, changes = earlier ++ c :: later →
      v ∉ (s.made host earlier).store.recalled c) :
    (s.made host changes).store.get? v = s.store.get? v
      ∧ Silent v s (s.made host changes) := by
  induction changes generalizing s with
  | nil => exact ⟨rfl, .refl v s⟩
  | cons c changes ih =>
    obtain ⟨hne, hv⟩ := List.ne_and_not_mem_of_not_mem_cons hv
    have hfirst : v ∉ s.store.recalled c := h [] c changes rfl
    have hget : (s.apply host c).1.store.get? v = s.store.get? v := by
      rw [get?_apply, if_neg hne]
      simp only [if_neg hfirst, Option.map_id_fun']
      rfl
    obtain ⟨hrest, hsilent⟩ := ih (s := (s.apply host c).1) hv
      fun earlier c' later heq =>
        h (c :: earlier) c' later (by rw [heq]; rfl)
    exact ⟨hrest.trans hget, (silent_apply host hne hfirst).trans hsilent⟩

/-- Whether the links of an ordinary document hang on some others: it has
a reference that leads nowhere or into them, it sees every document or one
of them, or one of them is in the closure of its owner. What it sees is
what the index answers. -/
def Regards (s : Scene) (us : List Uri) (v : Uri) : Prop :=
  ∃ d, s.store.get? v = some d ∧ d.isProject = false ∧ d.builtin = false
    ∧ (d.hasUnresolved = true ∨ d.linksInto us = true
      ∨ (s.index.look s.store v).2.visible = .all
      ∨ ∃ u ∈ us, (s.index.look s.store v).2.visible.contains u = true
        ∨ u ∈ (s.index.look s.store v).2.closure)

instance (s : Scene) (us : List Uri) (v : Uri) :
    Decidable (s.Regards us v) :=
  match hd : s.store.get? v with
  | none => .isFalse fun ⟨_, h, _⟩ => by rw [hd] at h; cases h
  | some d => decidable_of_iff (d.isProject = false ∧ d.builtin = false
      ∧ (d.hasUnresolved = true ∨ d.linksInto us = true
        ∨ (s.index.look s.store v).2.visible = .all
        ∨ ∃ u ∈ us, (s.index.look s.store v).2.visible.contains u = true
          ∨ u ∈ (s.index.look s.store v).2.closure))
    ⟨fun h => ⟨d, hd, h⟩, fun ⟨_, h, hrest⟩ =>
      Option.some.inj (hd.symm.trans h) ▸ hrest⟩

/-- Changes meet a horizon in what is visible or in a project. -/
theorem meets_iff {h : Horizon} {us : List Uri} : h.meets us = true ↔
    h.visible = .all ∨ ∃ u ∈ us, h.visible.contains u = true
      ∨ u ∈ h.closure := by
  unfold Horizon.meets Visibility.isAll Visibility.intersects
    Visibility.contains
  cases h.visible with
  | all => simp
  | only seen =>
    simp only [Bool.or_eq_true, List.any_eq_true, decide_eq_true_eq]
    grind

/-- A scan finds documents whose links hang on the batch. -/
theorem regards_of_candidate {us : List Uri}
    (h : v ∈ (s.relinkCandidates (Distinct.ofList us)).2) :
    s.Regards us v := by
  obtain ⟨d, hd, hrelinkable, hwhy⟩ := mem_relinkCandidates.1 h
  have hlinks : d.linksInto (Distinct.ofList us) = d.linksInto us := by
    unfold Document.linksInto
    simp only [Distinct.mem_ofList]
  unfold relinkable at hrelinkable
  simp only [Bool.and_eq_true, Bool.not_eq_true'] at hrelinkable
  obtain ⟨⟨⟨-, hord⟩, hown⟩, -⟩ := hrelinkable
  refine ⟨d, hd, hord, hown, hwhy.imp_right fun hwhy => ?_⟩
  rw [hlinks, meets_iff] at hwhy
  simpa only [Distinct.mem_ofList] using hwhy

/-- The reasons for which an update works on a document that its batch
does not name. -/
inductive Stirs (s : Scene) (changes : List Change) (v : Uri) : Prop where
  /-- One of the changes concerns it as a project, on the documents as
  they are when that change is made. -/
  | recalled (earlier : List Change) (c : Change) (later : List Change)
      (h : ordered changes = earlier ++ c :: later) (p : Project)
      (hp : p ∈ ((s.made host earlier).store.facing c).projects)
      (hv : p.uri = v) (why : (s.made host earlier).store.Recalls c p)
  /-- Its links hang on the batch before the changes are made. -/
  | before (h : s.Regards (changes.map Change.uri) v)
  /-- Its links hang on the batch behind the changes. -/
  | after (h : (s.changed host changes).Regards (changes.map Change.uri) v)

theorem isProject_made {changes : List Change}
    (hv : v ∉ changes.map Change.uri) :
    (s.made host changes).store.isProject v = s.store.isProject v := by
  induction changes generalizing s with
  | nil => rfl
  | cons c changes ih =>
    obtain ⟨hne, hv⟩ := List.ne_and_not_mem_of_not_mem_cons hv
    exact (ih hv).trans (isProject_apply host s hne)

variable {host} in
/-- What stirs an ordinary document are its links. -/
theorem Stirs.regards {changes : List Change}
    (h : s.Stirs host changes v) (hv : v ∉ changes.map Change.uri)
    (hord : s.store.isProject v = false) :
    s.Regards (changes.map Change.uri) v
      ∨ (s.changed host changes).Regards (changes.map Change.uri) v := by
  cases h with
  | before h => exact .inl h
  | after h => exact .inr h
  | recalled earlier c later heq p hp hpv =>
    have hnamed : ∀ c' ∈ earlier ++ c :: later, v ≠ c'.uri := by
      intro c' hc' hvc
      exact hv (hvc ▸ List.mem_map_of_mem
        (mem_ordered.1 (heq ▸ hc')))
    have hearlier : v ∉ earlier.map Change.uri := by
      intro hmem
      obtain ⟨c', hc', hcv⟩ := List.mem_map.1 hmem
      exact hnamed c' (List.mem_append_left _ hc') hcv.symm
    have hmade := isProject_made host (s := s) hearlier
    have hfacing := Store.isProject_of_uri hp
    rw [hpv, Store.isProject_facing (hnamed c (by simp)), hmade, hord]
      at hfacing
    cases hfacing

/-- What a batch does not stir is handed to the build as it was, and no
step has been called on it by then. -/
theorem prepared_untouched {changes : List Change}
    (hv : v ∉ changes.map Change.uri) (h : ¬ s.Stirs host changes v) :
    (s.prepared host changes).store.get? v = s.store.get? v
      ∧ Silent v s (s.prepared host changes) := by
  have hbefore : v ∉ (s.relinkCandidates
      (Distinct.ofList (changes.map Change.uri))).2 :=
    fun hmem => h (.before (regards_of_candidate hmem))
  have hafter : v ∉ ((s.changed host changes).relinkCandidates
      (Distinct.ofList (changes.map Change.uri))).2 :=
    fun hmem => h (.after (regards_of_candidate hmem))
  have hrelinked : v ∉ s.relinked host changes := fun hmem =>
    (Distinct.mem_union.1 hmem).elim hbefore hafter
  have hchanged : s.changed host changes
      = (s.relinkCandidates (Distinct.ofList
        (changes.map Change.uri))).1.made host (ordered changes) :=
    applyAll_eq host _ changes
  have hnamed : v ∉ (ordered changes).map Change.uri := by
    intro hmem
    obtain ⟨c, hc, hcv⟩ := List.mem_map.1 hmem
    exact hv (List.mem_map.2 ⟨c, mem_ordered.1 hc, hcv⟩)
  obtain ⟨hget, hsilent⟩ := made_untouched host (s := (s.relinkCandidates
    (Distinct.ofList (changes.map Change.uri))).1) hnamed
    fun earlier c later heq hmem => by
      have hmade := store_made_congr host (s := s) (t := (s.relinkCandidates
        (Distinct.ofList (changes.map Change.uri))).1) rfl earlier
      rw [hmade] at hmem
      obtain ⟨-, -, p, hp, hpv, why⟩ := Store.mem_recalled.1 hmem
      exact h (.recalled earlier c later heq p hp hpv why)
  rw [← hchanged] at hget hsilent
  constructor
  · rw [store_prepared, Store.get?_alter]
    simp only [if_neg hrelinked, Option.map_id_fun']
    exact hget
  · exact ((silent_of_trace rfl).trans hsilent).trans
      (silent_sendBackAll host hrelinked)

end Scene

namespace Workspace

/-- An update leaves a complete document as it is in every field and calls
no step on it, unless its batch names or stirs the document. This holds of
every workspace, whatever steps the host makes fail and wherever it
withdraws the request. -/
theorem update_untouched (w : Workspace) (host : Host) (withdrawn : Bool)
    (changes : List Change) {v : Uri}
    (hdone : ∀ d, w.store.get? v = some d → d.stage = .validated)
    (hv : v ∉ changes.map Change.uri)
    (h : ¬ (w.begin withdrawn).scene.Stirs host changes v) :
    let w' := w.serve ⟨host, withdrawn, .update changes⟩
    w'.store.get? v = w.store.get? v
      ∧ ∀ step, (step, v) ∉ w'.scene.trace.calls := by
  obtain ⟨hget, hsilent⟩ := Scene.prepared_untouched host hv h
  generalize hs : (w.begin withdrawn).scene.prepared host changes = s
    at hget hsilent
  have hpending : v ∉ s.store.unfinished s.store.pending := by
    intro hmem
    obtain ⟨-, d, hd, hlt⟩ := Store.mem_unfinished.1 hmem
    rw [hdone d (hget.symm.trans hd)] at hlt
    exact absurd hlt (by decide)
  have hserve : (w.serve ⟨host, withdrawn, .update changes⟩).scene
      = (s.build host).1 := by rw [← hs, scene_serve_update]
  refine ⟨?_, fun step hstep => ?_⟩
  · show (w.serve _).scene.store.get? v = _
    rw [hserve]
    exact ((s.within_buildBatch host s.store.pending).others v
      hpending).trans hget
  · rw [hserve] at hstep
    have hcalled := hsilent step
      (Scene.silent_buildBatch host hpending step hstep)
    cases hcalled

/-- A project with a document, and a document that nobody owns. -/
def apart : Workspace :=
  (create .calm []).run [⟨.calm, false, .start
    [⟨Uri.ofString "/p/P.sysw", "project P \x7b source \"src\"; \x7d"⟩,
      ⟨Uri.ofString "/p/src/d.sysw", "def A; ref A;"⟩,
      ⟨Uri.ofString "/x.sysw", "def B;"⟩]⟩]

/-- The document of the project does not see the one that nobody owns. -/
theorem update_untouched_apart :
    let d := Uri.ofString "/p/src/d.sysw"
    let changes := [Change.edit ⟨Uri.ofString "/x.sysw", "def A;"⟩]
    apart.store.stageOf d = some .validated
      ∧ d ∉ changes.map Change.uri
      ∧ ¬ (apart.begin false).scene.Stirs .calm changes d
      ∧ (apart.serve ⟨.calm, false, .update changes⟩).store.get? d
        = apart.store.get? d
      ∧ ∀ step, (step, d) ∉ (apart.serve
        ⟨.calm, false, .update changes⟩).scene.trace.calls := by
  intro d changes
  have hv : d ∉ changes.map Change.uri := by decide
  -- one evaluation for all that is asked about the workspace
  have hfacts : (fun s : Scene =>
      (s.store.stageOf (Uri.ofString "/p/src/d.sysw"),
        s.store.isProject (Uri.ofString "/p/src/d.sysw"),
        decide (s.Regards [Uri.ofString "/x.sysw"]
          (Uri.ofString "/p/src/d.sysw")),
        decide ((s.changed .calm
          [.edit ⟨Uri.ofString "/x.sysw", "def A;"⟩]).Regards
            [Uri.ofString "/x.sysw"] (Uri.ofString "/p/src/d.sysw"))))
      (apart.begin false).scene
      = (some .validated, false, false, false) := by decide +kernel
  simp only [Prod.mk.injEq, decide_eq_false_iff_not] at hfacts
  obtain ⟨hstage, hord, hbefore, hafter⟩ := hfacts
  have hstage : apart.store.stageOf d = some .validated := hstage
  have hdone : ∀ x, apart.store.get? d = some x →
      x.stage = .validated := by
    intro x hx
    unfold Store.stageOf at hstage
    rw [hx] at hstage
    exact Option.some.inj hstage
  have hstirs : ¬ (apart.begin false).scene.Stirs .calm changes d :=
    fun h => (h.regards hv hord).elim hbefore hafter
  obtain ⟨hget, hcalls⟩ :=
    update_untouched apart .calm false changes hdone hv hstirs
  exact ⟨hstage, hv, hstirs, hget, hcalls⟩

end Workspace

end Purview
