/-
The runs of a pass. A pass takes its documents through the phases in up
to three runs, first those that it knew to be projects, then those that
turn out to be projects when they are read, and last the others. In
between it reads and looks whether its request has been withdrawn, and
it may be over before all of its runs are. That is all there is to the
order of a pass (`Course`): whatever a run does to the accounts of a
pass, its calls or its documents, a pass is got by induction on its
course, and where it is broken off is a case of that induction.

Two things can be said of a run before it starts. Its documents have
been read, and whether their owners are ready has been settled: projects
wait for nobody, and while the others are worked on no project moves
(`Starts`). Which documents a run has is told by what they are when the
pass starts and when it ends (`Divided`).
-/
import Mathlib.Data.List.Nodup
import Purview.Proofs.Onward

namespace Purview

namespace Pass

variable (host : Host)

open Scene (Advance)

-- ============================================================== courses

/-- A run can start, in a pass that ends as given. -/
structure Starts (us : List Uri) (p q : Pass) : Prop where
  read : ∀ u d, p.scene.store.get? u = some d → u ∈ us →
    d.stage ≠ .changed
  ready : ∀ s, Advance us p.scene s →
    ∀ u ∈ us, s.ownerReady u = q.scene.ownerReady u

/-- A pass, with the runs that are still to come, and how it ends. -/
inductive Course : Pass → List (List Uri) → Pass → Prop
  /-- All runs are over. -/
  | done {p : Pass} : Course p [] p
  /-- The pass has been cancelled before a run. -/
  | stopped {p : Pass} {runs : List (List Uri)}
    (cancelled : p.report.cancelled = true) : Course p runs p
  /-- It looks whether its request has been withdrawn. -/
  | polled {p q : Pass} {runs : List (List Uri)}
    (later : Course p.poll runs q) : Course p runs q
  /-- It reads some of the documents that are still to come. -/
  | read {p q : Pass} {us : List Uri} {runs : List (List Uri)}
    (sub : us ⊆ runs.flatten) (later : Course (p.reread host us) runs q) :
    Course p runs q
  /-- A run is gone through. -/
  | run {p q : Pass} {us : List Uri} {runs : List (List Uri)}
    (starts : Starts us p q) (more : (p.runAll host us).2 = true)
    (later : Course (p.runAll host us).1 runs q) : Course p (us :: runs) q
  /-- The pass is cancelled within a run. -/
  | broken {p : Pass} {us : List Uri} {runs : List (List Uri)}
    (starts : Starts us p (p.runAll host us).1)
    (stop : (p.runAll host us).2 = false) :
    Course p (us :: runs) (p.runAll host us).1

variable {host} {p q : Pass} {us others projects : List Uri}
  {runs : List (List Uri)}

theorem Course.nil_run (h : Course host p runs q) :
    Course host p ([] :: runs) q :=
  .run ⟨fun _ _ _ h => absurd h List.not_mem_nil,
    fun _ _ _ h => absurd h List.not_mem_nil⟩ rfl h

/-- The last run of a pass ends it, one way or the other. -/
theorem Course.last (starts : Starts us p (p.runAll host us).1) :
    Course host p [us] (p.runAll host us).1 := by
  cases hmore : (p.runAll host us).2 with
  | true => exact .run starts hmore .done
  | false => exact .broken starts hmore

/-- Projects are ready, whatever becomes of others. -/
theorem starts_projects
    (hread : ∀ u d, p.scene.store.get? u = some d → u ∈ us →
      d.stage ≠ .changed)
    (hnow : ∀ u ∈ us, p.scene.store.isProject u = true)
    (hthen : ∀ u ∈ us, q.scene.store.isProject u = true) :
    Starts us p q := by
  refine ⟨hread, fun s hs u hu => ?_⟩
  rw [Scene.ownerReady_of_isProject ((hs.isProject u).trans (hnow u hu)),
    Scene.ownerReady_of_isProject (hthen u hu)]

/-- No project moves while others are worked on. -/
theorem starts_ordinary
    (hread : ∀ u d, p.scene.store.get? u = some d → u ∈ us →
      d.stage ≠ .changed)
    (hord : ∀ u ∈ us, p.scene.store.isProject u = false) :
    Starts us p (p.runAll host us).1 := by
  have hend := runAll_advance host us p
  exact ⟨hread, fun s hs u _ => Scene.ownerReady_of_layout
    ((hs.layout hord).trans (hend.layout hord).symm) u⟩

-- =========================================================== whole passes

variable (host)

/-- Two runs, on those of some documents that are projects and on the
others. -/
theorem Course.both (hread : ∀ u d, p.scene.store.get? u = some d →
      u ∈ others → d.stage ≠ .changed) {found rest : List Uri}
    (hfound : ∀ u ∈ found, u ∈ others ∧ p.scene.store.isProject u = true)
    (hrest : ∀ u ∈ rest, u ∈ others ∧ p.scene.store.isProject u = false) :
    let r := p.runAll host found
    let q := if !r.2 then r.1 else (r.1.runAll host rest).1
    Course host p [found, rest] q
      ∧ ∀ u, q.scene.store.isProject u = p.scene.store.isProject u := by
  have hfirst := runAll_advance host found p
  have hread' := @runAll_read host found others p hread
  have hreads := fun u d (hd : p.scene.store.get? u = some d)
    (hu : u ∈ found) => hread u d hd (hfound u hu).1
  dsimp only
  cases hmore : (p.runAll host found).2 with
  | false =>
    rw [Bool.not_false, if_pos rfl]
    exact ⟨.broken (starts_projects hreads (fun u hu => (hfound u hu).2)
      fun u hu => (hfirst.isProject u).trans (hfound u hu).2) hmore,
      hfirst.isProject⟩
  | true =>
    rw [Bool.not_true, if_neg Bool.false_ne_true]
    have hlast := runAll_advance host rest (p.runAll host found).1
    have hkind := fun u => (hlast.isProject u).trans (hfirst.isProject u)
    refine ⟨.run (starts_projects hreads (fun u hu => (hfound u hu).2)
      fun u hu => (hkind u).trans (hfound u hu).2) hmore
      (.last (starts_ordinary ?_ ?_)), hkind⟩
    · exact fun u d hd hu => hread' u d hd (hrest u hu).1
    · exact fun u hu => (hfirst.isProject u).trans (hrest u hu).2

/-- The second half of a pass. What it finds to be a project it has read
itself, or it was one before. -/
theorem runOthers_course (others : List Uri) (p : Pass) :
    let q := runOthers host others p
    ∃ found rest, (found ++ rest).Perm others
      ∧ (∀ u ∈ found, q.scene.store.isProject u = true
        ∧ ∀ d, p.scene.store.get? u = some d → d.stage ≠ .changed →
          p.scene.store.isProject u = true)
      ∧ (∀ u ∈ rest, q.scene.store.isProject u = false)
      ∧ Course host p [found, rest] q := by
  have hperm := List.filter_append_perm
    (p.reread host others).scene.store.isProject others
  have hfound : ∀ u ∈ others.filter
        (p.reread host others).scene.store.isProject,
      u ∈ others ∧ (p.reread host others).scene.store.isProject u = true :=
    fun u hu => List.mem_filter.1 hu
  have hrest : ∀ u ∈ others.filter
        (fun u => !(p.reread host others).scene.store.isProject u),
      u ∈ others ∧ (p.reread host others).scene.store.isProject u = false :=
    fun u hu => by simpa using List.mem_filter.1 hu
  obtain ⟨hcourse, hkind⟩ := Course.both host
    (fun u d hd hu => stage_ne_of_reread host hd hu) hfound hrest
  unfold runOthers
  simp only [split_eq]
  refine ⟨_, _, hperm, fun u hu => ⟨(hkind u).trans (hfound u hu).2, ?_⟩,
    fun u hu => (hkind u).trans (hrest u hu).2,
    .read (by simpa using hperm.symm.subset) hcourse⟩
  intro d hd hstage
  -- a document that had been read is what it was
  have hproject := (hfound u hu).2
  unfold Store.isProject at hproject ⊢
  rwa [store_reread, Store.get?_alter, hd, Option.map_some,
    Document.reread_of_ne hstage, ite_self, ← hd] at hproject

/-- A pass from its first run on. Who is no project any more is left for
the last run, having been read. -/
theorem runKept_course {kept former : List Uri}
    (hapart : ∀ u ∈ kept, u ∉ others ++ former)
    (hread : ∀ u d, p.scene.store.get? u = some d → u ∈ kept ++ former →
      d.stage ≠ .changed)
    (hloaded : former ⊆ p.scene.store.uris)
    (hnow : ∀ u ∈ kept, p.scene.store.isProject u = true)
    (hleft : ∀ u ∈ others ++ former, p.scene.store.isProject u = false) :
    let r := p.runAll host kept
    let q := if !r.2 then r.1
      else if r.1.poll.report.cancelled then r.1.poll
      else runOthers host (others ++ former) r.1.poll
    ∃ found rest, (found ++ rest).Perm (others ++ former)
      ∧ (∀ u ∈ kept, q.scene.store.isProject u = true)
      ∧ (∀ u ∈ found, u ∈ others ∧ q.scene.store.isProject u = true)
      ∧ (∀ u ∈ rest, q.scene.store.isProject u = false)
      ∧ Course host p [kept, found, rest] q := by
  have hfirst := runAll_advance host kept p
  have hreads := fun u d (hd : p.scene.store.get? u = some d)
    (hu : u ∈ kept) => hread u d hd (List.mem_append_left former hu)
  have hkind := hfirst.isProject
  have hend := fun u hu => (hkind u).trans (hnow u hu)
  have hrest := fun u hu => (hkind u).trans (hleft u hu)
  dsimp only
  cases hmore : (p.runAll host kept).2 with
  | false =>
    exact ⟨[], others ++ former, .refl _, hend, nofun, hrest,
      .broken (starts_projects hreads hnow hend) hmore⟩
  | true =>
    simp only [Bool.not_true, Bool.false_eq_true, if_false]
    split
    · next hgo =>
      exact ⟨[], others ++ former, .refl _, hend, nofun, hrest,
        .run (starts_projects hreads hnow hend) hmore
          (.polled (.stopped hgo))⟩
    · obtain ⟨found, rest, hperm, hfound, hrest, hcourse⟩ :=
        runOthers_course host (others ++ former)
          (p.runAll host kept).1.poll
      have hwithin := (carries_within host (others ++ former)).runOthers
        host (List.Subset.refl _) (p.runAll host kept).1.poll
      have hthen : ∀ u ∈ kept, (runOthers host (others ++ former)
          (p.runAll host kept).1.poll).scene.store.isProject u = true := by
        intro u hu
        unfold Store.isProject
        rw [hwithin.others u (hapart u hu)]
        exact hend u hu
      refine ⟨found, rest, hperm, hthen,
        fun u hu => ⟨?_, (hfound u hu).1⟩, hrest,
        .run (starts_projects hreads hnow hthen) hmore (.polled hcourse)⟩
      have hu' := hperm.subset (List.mem_append_left rest hu)
      refine (List.mem_append.1 hu').resolve_right fun hformer => ?_
      -- it has been read already, and is none
      obtain ⟨d, hd⟩ := Option.isSome_iff_exists.1
        ((p.scene.store.isSome_get? u).2 (hloaded hformer))
      have hsame := hfirst.get?_of_not_mem fun h => hapart u h hu'
      have hyes := (hfound u hu).2 d (hsame.trans hd)
        (hread u d hd (List.mem_append_right kept hformer))
      rw [scene_poll, hkind, hleft u hu'] at hyes
      cases hyes

/-- The documents of the runs of a pass, by what they are when it starts
and when it ends. -/
structure Divided (us : List Uri) (s t : Store)
    (kept found rest : List Uri) : Prop where
  perm : (kept ++ found ++ rest).Perm us
  kept : ∀ u ∈ kept, s.isProject u = true ∧ t.isProject u = true
  found : ∀ u ∈ found, s.isProject u = false ∧ t.isProject u = true
  rest : ∀ u ∈ rest, t.isProject u = false

/-- A pass whose projects have been read. -/
theorem runRead_course {s : Store} (hnd : (projects ++ others).Nodup)
    (hprojects : ∀ u ∈ projects, s.isProject u = true)
    (hothers : ∀ u ∈ others, s.isProject u = false)
    (hloaded : projects ⊆ p.scene.store.uris)
    (hsame : ∀ u ∈ others, p.scene.store.get? u = s.get? u)
    (hread : ∀ u d, p.scene.store.get? u = some d → u ∈ projects →
      d.stage ≠ .changed) :
    let q := runRead host projects others p
    ∃ kept found rest,
      Divided (projects ++ others) s q.scene.store kept found rest
        ∧ Course host p [kept, found, rest] q := by
  have hsplit := List.filter_append_perm p.scene.store.isProject projects
  have hkept : ∀ u ∈ projects.filter p.scene.store.isProject,
      u ∈ projects ∧ p.scene.store.isProject u = true :=
    fun u hu => List.mem_filter.1 hu
  have hformer : ∀ u ∈ projects.filter
        (fun u => !p.scene.store.isProject u),
      u ∈ projects ∧ p.scene.store.isProject u = false :=
    fun u hu => by simpa using List.mem_filter.1 hu
  unfold runRead
  dsimp only
  generalize projects.filter p.scene.store.isProject = kept at *
  generalize (projects.filter fun u => !p.scene.store.isProject u)
    = former at *
  have hperm : (kept ++ (others ++ former)).Perm (projects ++ others) := by
    refine (List.perm_append_comm.append_left kept).trans ?_
    rw [← List.append_assoc]
    exact hsplit.append_right others
  obtain ⟨found, rest, hbehind, hend, hfound, hrest, hcourse⟩ :=
    runKept_course host
      (fun u hu => List.disjoint_of_nodup_append
        (hperm.nodup_iff.2 hnd) hu)
      (fun u d hd hu => hread u d hd (hsplit.subset hu))
      (fun u hu => hloaded (hformer u hu).1) (fun u hu => (hkept u hu).2)
      fun u hu => by
        rcases List.mem_append.1 hu with hu | hu
        · unfold Store.isProject
          rw [hsame u hu]
          exact hothers u hu
        · exact (hformer u hu).2
  refine ⟨kept, found, rest, ⟨?_, fun u hu =>
    ⟨hprojects u (hkept u hu).1, hend u hu⟩, fun u hu =>
    ⟨hothers u (hfound u hu).1, (hfound u hu).2⟩, hrest⟩, hcourse⟩
  rw [List.append_assoc]
  exact (hbehind.append_left kept).trans hperm

/-- A pass over documents that have been split. -/
theorem runSplit_course (hnd : (projects ++ others).Nodup)
    (hprojects : ∀ u ∈ projects, p.scene.store.isProject u = true)
    (hothers : ∀ u ∈ others, p.scene.store.isProject u = false) :
    let q := runSplit host projects others p
    ∃ kept found rest, Divided (projects ++ others) p.scene.store
        q.scene.store kept found rest
      ∧ Course host p [kept, found, rest] q := by
  rw [runSplit_eq]
  dsimp only
  split
  · next hgo =>
    exact ⟨projects, [], others, ⟨by rw [List.append_nil],
      fun u hu => ⟨hprojects u hu, hprojects u hu⟩,
      fun u hu => absurd hu List.not_mem_nil, hothers⟩,
      .polled (.stopped hgo)⟩
  · have hsame : ∀ u ∈ others,
        (p.poll.reread host projects).scene.store.get? u
          = p.scene.store.get? u := by
      intro u hu
      have hnot : u ∉ projects := fun h =>
        List.disjoint_of_nodup_append hnd h hu
      rw [store_reread, scene_poll, Store.get?_alter]
      simp only [if_neg hnot, Option.map_id_fun']
      rfl
    have hloaded : projects
        ⊆ (p.poll.reread host projects).scene.store.uris := by
      intro u hu
      obtain ⟨d, hd, -⟩ := (Option.any_eq_true _ _).1 (hprojects u hu)
      rw [store_reread, Store.uris_alter]
      exact (p.scene.store.isSome_get? u).1 (hd ▸ rfl)
    obtain ⟨kept, found, rest, hdivided, hcourse⟩ :=
      runRead_course host hnd hprojects hothers hloaded hsame
        fun u d hd hu => stage_ne_of_reread host hd hu
    refine ⟨kept, found, rest, hdivided, .polled (.read ?_ hcourse)⟩
    intro u hu
    have hall := hdivided.perm.symm.subset
      (List.mem_append_left others hu)
    simpa using hall

end Pass

namespace Scene

/-- A pass over nothing leaves everything as it is. -/
theorem opened_nil (host : Host) (s : Scene) : s.opened host [] = s := by
  have hsame : (s.store.alter fun v d =>
      if v ∈ ([] : List Uri) then d.clearFailures else d) = s.store :=
    Store.alter_id fun _ _ _ => if_neg List.not_mem_nil
  unfold opened wiped
  rw [hsame]
  rfl

/-- The course of a build. -/
theorem course_buildBatch (host : Host) (s : Scene) (batch : List Uri) :
    let us := s.store.unfinished batch
    let q := s.buildBatch host batch
    ∃ kept found rest, Pass.Divided us (s.opened host us).store q.1.store
        kept found rest
      ∧ Pass.Course host ⟨s.opened host us, .empty⟩ [kept, found, rest]
        ⟨q.1, q.2⟩ := by
  intro us q
  have hnd := s.store.nodup_unfinished batch
  have hq : q = _ := s.buildBatch_eq host batch
  rw [hq]
  dsimp only
  split
  · next hnil =>
    have hus : us = [] := List.isEmpty_iff.1 hnil
    rw [hus, opened_nil]
    exact ⟨[], [], [], ⟨.refl _, nofun, nofun, nofun⟩,
      Pass.Course.done.nil_run.nil_run.nil_run⟩
  · have hsplit := List.filter_append_perm
      (s.opened host us).store.isProject us
    obtain ⟨kept, found, rest, hdivided, hcourse⟩ :=
      Pass.runSplit_course host
        (p := ⟨s.opened host us, .empty⟩) (hsplit.nodup_iff.2 hnd)
        (fun u hu => (List.mem_filter.1 hu).2)
        (fun u hu => by simpa using (List.mem_filter.1 hu).2)
    exact ⟨kept, found, rest, ⟨hdivided.perm.trans hsplit, hdivided.kept,
      hdivided.found, hdivided.rest⟩, hcourse⟩

end Scene

end Purview
