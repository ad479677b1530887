/-
What a pass remembers, under any host. Within a pass horizons move as
projects are linked, and the index is wrong about them; but a run of
projects asks it nothing and ends with everything forgotten
(`runAll_projects`), and a run of ordinary documents moves no horizon
(`runAll_advance`). Reading moves horizons too, since it may make and
unmake projects. So what counts is whether the pass comes to a run of
projects: if it does it forgets everything, and if it does not it
remembers all that it remembered before, right or wrong
(`runSplit_index`, and for whole builds `build_index`).

Throughout, documents are in line with their texts (`Store.Faithful`),
which is why the texts alone say which runs there will be.
-/
import Purview.Proofs.Moves
import Purview.Workspace

namespace Purview

/-- The members of a list without repetitions are those of the list. -/
theorem Distinct.ofList_of_nodup {α : Type} [DecidableEq α]
    {xs : List α} (h : xs.Nodup) : Distinct.ofList xs = xs := by
  have key : ∀ ys : List α, (ys ++ xs).Nodup →
      Distinct.union ys xs = ys ++ xs := by
    clear h
    induction xs with
    | nil => intro ys _; simp [Distinct.union]
    | cons x xs ih =>
      intro ys h
      have hx : x ∉ ys := fun hx =>
        (List.nodup_append.1 h).2.2 x hx x List.mem_cons_self rfl
      have hstep : Distinct.union ys (x :: xs)
          = Distinct.union (ys ++ [x]) xs := by
        simp [Distinct.union, Distinct.insert, hx]
      rw [hstep, ih (ys ++ [x]) (by simpa using h)]
      simp
  exact key [] h

/-- Every document is in line with its text. -/
def Store.Faithful (s : Store) : Prop :=
  ∀ u d, s.get? u = some d → d.Faithful

/-- What any work leaves of the documents. -/
structure Store.Follows (s t : Store) : Prop where
  uris : t.uris = s.uris
  each : ∀ u d, s.get? u = some d →
    ∃ d', t.get? u = some d' ∧ d.Follows d'

/-- Whether the text of a loaded document describes a project. -/
def Store.announces (s : Store) (u : Uri) : Bool :=
  (s.get? u).any Document.announces

/-- What the index of a scene remembers is right. -/
def Scene.Right (s : Scene) : Prop := s.index.Right s.store

/-- What a scene tells of horizons is what would be computed: who is
seen, and the closure that this hangs on. -/
def Scene.Truthful (s : Scene) : Prop :=
  ∀ u, (s.index.look s.store u).2.visible
      = (Horizon.of s.store s.index.builtins u).visible
    ∧ (s.index.look s.store u).2.closure
      = (Horizon.of s.store s.index.builtins u).closure

/-- An index that is right tells the truth. -/
theorem Scene.Right.truthful {s : Scene} (h : s.Right) :
    s.Truthful := by
  intro u
  rw [Index.look_eq_of h]
  exact ⟨rfl, rfl⟩

namespace Store

theorem isProject_of_get? {s : Store} {u : Uri} {d : Document}
    (h : s.get? u = some d) : s.isProject u = d.isProject := by
  simp [isProject, h]

theorem announces_of_get? {s : Store} {u : Uri} {d : Document}
    (h : s.get? u = some d) : s.announces u = d.announces := by
  simp [announces, h]

theorem Follows.refl (s : Store) : s.Follows s :=
  ⟨rfl, fun _ d hd => ⟨d, hd, .refl d⟩⟩

/-- What follows can be followed further. -/
theorem Follows.trans {s t r : Store} (h : s.Follows t)
    (h' : t.Follows r) : s.Follows r := by
  refine ⟨h'.uris.trans h.uris, fun u d hd => ?_⟩
  obtain ⟨x, hx, hdx⟩ := h.each u d hd
  obtain ⟨y, hy, hxy⟩ := h'.each u x hx
  exact ⟨y, hy, hdx.trans hxy⟩

/-- Work on each document by itself. -/
theorem follows_alter {s : Store} {f : Uri → Document → Document}
    (h : ∀ u (d : Document), d.Follows (f u d)) :
    s.Follows (s.alter f) :=
  ⟨s.uris_alter f, fun u d hd => ⟨f u d, by simp [hd], h u d⟩⟩

theorem follows_reread (s : Store) (us : List Uri) :
    s.Follows (s.alter fun v d => if v ∈ us then d.reread else d) := by
  refine follows_alter fun u d => ?_
  split
  · exact d.follows_reread
  · exact .refl d

/-- What texts announce is not for reading to change. -/
theorem announces_reread (s : Store) (us : List Uri) (u : Uri) :
    (s.alter fun v d => if v ∈ us then d.reread else d).announces u
      = s.announces u := by
  unfold announces
  rw [get?_alter]
  cases s.get? u with
  | none => rfl
  | some d =>
    simp only [Option.map_some, Option.any_some]
    split
    · exact d.announces_reread
    · rfl

/-- A document that has been read is what its text announces. -/
theorem isProject_reread {s : Store} (hs : s.Faithful) {us : List Uri}
    {u : Uri} (hu : u ∈ us) :
    (s.alter fun v d => if v ∈ us then d.reread else d).isProject u
      = s.announces u := by
  unfold isProject announces
  rw [get?_alter]
  cases hd : s.get? u with
  | none => rfl
  | some d =>
    simp only [Option.map_some, Option.any_some, if_pos hu]
    exact Document.isProject_reread (hs u d hd)

/-- Reading some of the documents again leaves them in line. -/
theorem Faithful.reread {s : Store} (hs : s.Faithful) (us : List Uri) :
    (s.alter fun v d => if v ∈ us then d.reread else d).Faithful := by
  intro u d hd
  rw [get?_alter] at hd
  obtain ⟨x, hx, rfl⟩ := Option.map_eq_some_iff.1 hd
  split
  · exact Document.faithful_reread (hs u x hx)
  · exact hs u x hx

/-- Reading ordinary documents that stay ordinary keeps the layout. -/
theorem sameLayout_reread {s : Store} (hs : s.Faithful) {us : List Uri}
    (hord : ∀ u ∈ us, s.isProject u = false)
    (hstay : ∀ u ∈ us, s.announces u = false) :
    SameLayout (s.alter fun v d => if v ∈ us then d.reread else d) s := by
  refine sameLayout_alter fun u d hd => ?_
  split
  · next hu =>
    have hbefore : d.descriptor? = none := by
      simpa [isProject, Document.isProject, hd] using hord u hu
    have hafter : d.reread.descriptor? = none := by
      have h := Document.isProject_reread (hs u d hd)
      rw [← announces_of_get? hd, hstay u hu] at h
      simpa [Document.isProject] using h
    rw [Project.ofEntry?_eq_none.2 hafter,
      Project.ofEntry?_eq_none.2 hbefore]
  · rfl

end Store

-- ========================================================= runs of a pass

namespace Pass

variable (host : Host)

open Scene (Advance)

theorem runAll_nil (p : Pass) : runAll host [] p = (p, true) := rfl

/-- A run of projects ends with nothing remembered. -/
theorem runAll_projects {us : List Uri} (hne : us ≠ []) {p : Pass}
    (hus : ∀ u ∈ us, p.scene.store.isProject u = true) :
    ∃ s', Advance us p.scene s'
      ∧ (runAll host us p).1.scene = s'.reindex Index.clear := by
  have hadv := runPhases_advance host Phase.all us
    (fun _ h => h) p
  have hany : us.any p.scene.store.isProject = true := by
    obtain ⟨u, hu⟩ := List.exists_mem_of_ne_nil us hne
    exact List.any_eq_true.2 ⟨u, hu, hus u hu⟩
  have hempty : us.isEmpty = false := by simpa using hne
  refine ⟨_, hadv, ?_⟩
  unfold runAll
  simp [hempty, hany]

/-- A run works on its documents alone. Unless projects are among them,
it only adds horizons. -/
theorem runAll_advance (us : List Uri) (p : Pass) :
    Advance us p.scene (runAll host us p).1.scene := by
  have hadv := runPhases_advance host Phase.all us (List.Subset.refl us) p
  unfold runAll
  split
  · exact .refl us p.scene
  · dsimp only
    split
    · next hany =>
      refine ⟨hadv.uris, hadv.forward, hadv.builtins, fun hus => ?_⟩
      obtain ⟨u, hu, hproject⟩ := List.any_eq_true.1 hany
      rw [hus u hu] at hproject
      cases hproject
    · exact hadv

/-- The second half of a pass: the other documents are read, and those
that turn out to be projects are built before the rest. -/
def runOthers (others : List Uri) (p : Pass) : Pass :=
  let p := p.reread host others
  let (projects, others) := p.scene.store.split others
  let (p, more) := p.runAll host projects
  if !more then p else (p.runAll host others).1

/-- A batch is split into projects and the rest. -/
theorem split_eq (s : Store) (us : List Uri) :
    s.split us = (us.filter s.isProject,
      us.filter fun u => !s.isProject u) :=
  List.partition_eq_filter_filter ..

/-- Reading documents tells which of them are projects. -/
theorem isProject_read {us : List Uri} {p : Pass}
    (hs : p.scene.store.Faithful) {u : Uri} (hu : u ∈ us) :
    (p.reread host us).scene.store.isProject u
      = p.scene.store.announces u := by
  rw [show (p.reread host us).scene.store = _ from
    Scene.store_reread host us p.scene]
  exact Store.isProject_reread hs hu

/-- If one of them is, the second half of a pass forgets everything. -/
theorem runOthers_found {others : List Uri} {p : Pass}
    (hs : p.scene.store.Faithful)
    (hany : others.any p.scene.store.announces = true) :
    let q := (runOthers host others p).scene
    p.scene.index.clear.Grows q.store q.index := by
  obtain ⟨u, hu, hann⟩ := List.any_eq_true.1 hany
  have hread := isProject_read host hs hu
  have hindex : (p.reread host others).scene.index = p.scene.index :=
    Scene.index_reread host others p.scene
  unfold runOthers
  simp only [split_eq]
  generalize p.reread host others = p₁ at *
  have hrest : ∀ u ∈ others.filter (fun u => !p₁.scene.store.isProject u),
      p₁.scene.store.isProject u = false := by
    intro u hu
    simpa using (List.mem_filter.1 hu).2
  have hne : others.filter p₁.scene.store.isProject ≠ [] :=
    List.ne_nil_of_mem (List.mem_filter.2 ⟨hu, hread.trans hann⟩)
  obtain ⟨s₂, hadv, hscene⟩ := runAll_projects host hne
    (p := p₁) (fun v hv => (List.mem_filter.1 hv).2)
  have hclear : s₂.index.clear = p.scene.index.clear := by
    unfold Index.clear
    rw [hadv.builtins, hindex]
  split
  · rw [hscene]
    exact hclear ▸ .refl _ _
  · have hlast := runAll_advance host
      (others.filter fun u => !p₁.scene.store.isProject u)
      (runAll host (others.filter p₁.scene.store.isProject) p₁).1
    have hord := fun v (hv : v ∈ others.filter _) => by
      show (runAll host (others.filter p₁.scene.store.isProject)
        p₁).1.scene.store.isProject v = false
      rw [hscene]
      exact (hadv.isProject v).trans (hrest v hv)
    have hgrows := (hlast.index hord).layout (hlast.layout hord).symm
    rw [hscene] at hgrows
    exact hclear ▸ hgrows

/-- If none of them is, it forgets nothing, and moves no horizon unless
one of them was a project. -/
theorem runOthers_plain {others : List Uri} {p : Pass}
    (hs : p.scene.store.Faithful)
    (hnone : ∀ u ∈ others, p.scene.store.announces u = false) :
    let q := (runOthers host others p).scene
    p.scene.index.Grows q.store q.index
      ∧ ((∀ u ∈ others, p.scene.store.isProject u = false) →
        Store.SameLayout q.store p.scene.store) := by
  have hread : ∀ u ∈ others,
      (p.reread host others).scene.store.isProject u = false :=
    fun u hu => (isProject_read host hs hu).trans (hnone u hu)
  have hstore : (p.reread host others).scene.store = _ :=
    Scene.store_reread host others p.scene
  have hindex : (p.reread host others).scene.index = p.scene.index :=
    Scene.index_reread host others p.scene
  unfold runOthers
  simp only [split_eq]
  generalize p.reread host others = p₁ at *
  have hnil : others.filter p₁.scene.store.isProject = [] :=
    List.filter_eq_nil_iff.2 fun u hu => by simp [hread u hu]
  rw [hnil, runAll_nil]
  simp only [Bool.not_true, Bool.false_eq_true, if_false]
  have hlast := runAll_advance host
    (others.filter fun u => !p₁.scene.store.isProject u) p₁
  have hrest := fun u (hu : u ∈ others.filter fun u =>
    !p₁.scene.store.isProject u) => hread u (List.mem_filter.1 hu).1
  constructor
  · rw [← hindex]
    exact (hlast.index hrest).layout (hlast.layout hrest).symm
  · intro hord
    refine (hlast.layout hrest).trans ?_
    rw [hstore]
    exact Store.sameLayout_reread hs hord hnone

-- ============================================== documents of a pass

/-- A run of documents that have been read. -/
theorem runAll_faithful (us : List Uri) {p : Pass}
    (hs : p.scene.store.Faithful)
    (hread : ∀ u d, p.scene.store.get? u = some d → u ∈ us →
      d.stage ≠ .changed) :
    (runAll host us p).1.scene.store.Faithful :=
  (runAll_advance host us p).faithful hs hread

/-- Reading again changes those whose text has changed. -/
theorem store_reread (us : List Uri) (p : Pass) :
    (p.reread host us).scene.store = p.scene.store.alter
      fun v d => if v ∈ us then d.reread else d :=
  Scene.store_reread host us p.scene

theorem reread_faithful (us : List Uri) {p : Pass}
    (hs : p.scene.store.Faithful) :
    (p.reread host us).scene.store.Faithful := by
  rw [store_reread]
  exact hs.reread us

/-- Documents that were to be read have been. -/
theorem stage_ne_of_reread {us : List Uri} {p : Pass} {u : Uri}
    {d : Document} (hd : (p.reread host us).scene.store.get? u = some d)
    (hu : u ∈ us) : d.stage ≠ .changed := by
  rw [store_reread, Store.get?_alter] at hd
  obtain ⟨x, -, rfl⟩ := Option.map_eq_some_iff.1 hd
  rw [if_pos hu]
  exact x.stage_reread_ne

/-- No run takes a document that has been read back to `changed`. -/
theorem runAll_read {us vs : List Uri} {p : Pass}
    (hread : ∀ u d, p.scene.store.get? u = some d → u ∈ vs →
      d.stage ≠ .changed) :
    ∀ u d, (runAll host us p).1.scene.store.get? u = some d → u ∈ vs →
      d.stage ≠ .changed := by
  have hadv := runAll_advance host us p
  intro u d hd hu heq
  obtain ⟨x, hx, hf, -⟩ := hadv.backward hd
  have hle := hf.stage
  rw [heq] at hle
  exact hread u x hx hu (Stage.not_changed_lt.1 (Nat.not_lt.2 hle))

theorem runAll_follows (us : List Uri) (p : Pass) :
    p.scene.store.Follows (runAll host us p).1.scene.store := by
  have hadv := runAll_advance host us p
  refine ⟨hadv.uris, fun u d hd => ?_⟩
  obtain ⟨d', hd', hf, -⟩ := hadv.forward u d hd
  exact ⟨d', hd', hf.follows⟩

theorem reread_follows (us : List Uri) (p : Pass) :
    p.scene.store.Follows (p.reread host us).scene.store := by
  rw [store_reread]
  exact Store.follows_reread _ us

-- ================================================= what is remembered

/-- What a pass does once its projects have been read. -/
def runRead (projects others : List Uri) (p : Pass) : Pass :=
  let kept := projects.filter p.scene.store.isProject
  let former := projects.filter fun u => !p.scene.store.isProject u
  let (p, more) := p.runAll host kept
  if !more then p
  else
    let p := p.poll
    if p.report.cancelled then p
    else runOthers host (others ++ former) p

/-- A pass over documents that have been split. -/
theorem runSplit_eq (projects others : List Uri) (p : Pass) :
    runSplit host projects others p =
      let p := p.poll
      if p.report.cancelled then p
      else runRead host projects others (p.reread host projects) := by
  unfold runSplit runRead runOthers
  simp only [split_eq]

/-- A relation between scenes that a pass over documents of a batch
carries from its start to its end: reading some of them keeps it, and so
does a run of some that have been read. -/
structure Carries (batch : List Uri) (R : Scene → Scene → Prop) :
    Prop where
  refl : ∀ s, R s s
  trans : ∀ {a b c}, R a b → R b c → R a c
  reread : ∀ us ⊆ batch, ∀ p : Pass, R p.scene (p.reread host us).scene
  runAll : ∀ us ⊆ batch, ∀ p : Pass,
    (∀ u d, p.scene.store.get? u = some d → u ∈ us →
      d.stage ≠ .changed) → R p.scene (p.runAll host us).1.scene

section Carries

variable {batch projects others : List Uri} {R : Scene → Scene → Prop}

theorem Carries.runOthers (h : Carries host batch R)
    (hothers : others ⊆ batch) (p : Pass) :
    R p.scene (runOthers host others p).scene := by
  have hread := fun u d (hd : (p.reread host others).scene.store.get? u
    = some d) => stage_ne_of_reread host hd
  unfold Pass.runOthers
  simp only [split_eq]
  refine h.trans (h.reread others hothers p) ?_
  generalize p.reread host others = p₁ at hread ⊢
  have hfound := h.runAll (others.filter p₁.scene.store.isProject)
    (fun u hu => hothers (List.mem_filter.1 hu).1) p₁
    fun u d hd hu => hread u d hd (List.mem_filter.1 hu).1
  split
  · exact hfound
  · refine h.trans hfound (h.runAll _ (fun u hu =>
      hothers (List.mem_filter.1 hu).1) _ fun u d hd hu => ?_)
    exact runAll_read host hread u d hd (List.mem_filter.1 hu).1

theorem Carries.runRead (h : Carries host batch R)
    (hprojects : projects ⊆ batch) (hothers : others ⊆ batch) {p : Pass}
    (hread : ∀ u d, p.scene.store.get? u = some d → u ∈ projects →
      d.stage ≠ .changed) :
    R p.scene (runRead host projects others p).scene := by
  unfold Pass.runRead
  dsimp only
  have hkept := h.runAll (projects.filter p.scene.store.isProject)
    (fun u hu => hprojects (List.mem_filter.1 hu).1) p
    fun u d hd hu => hread u d hd (List.mem_filter.1 hu).1
  split
  · exact hkept
  · split
    · exact hkept
    · refine h.trans hkept (h.runOthers host ?_ (Pass.poll _))
      refine List.append_subset.2 ⟨hothers, fun u hu => ?_⟩
      exact hprojects (List.mem_filter.1 hu).1

theorem Carries.runSplit (h : Carries host batch R)
    (hprojects : projects ⊆ batch) (hothers : others ⊆ batch) (p : Pass) :
    R p.scene (runSplit host projects others p).scene := by
  rw [runSplit_eq]
  dsimp only
  split
  · exact h.refl p.scene
  · exact h.trans (h.reread projects hprojects p.poll)
      (h.runRead host hprojects hothers fun u d hd hu =>
        stage_ne_of_reread host hd hu)

end Carries

/-- A pass that has not been cancelled is when its request has been
withdrawn. -/
theorem cancelled_poll {p : Pass} (h : p.report.cancelled = false) :
    p.poll.report.cancelled = p.scene.trace.withdrawn := by
  show (p.report.cancelled || p.scene.trace.withdrawn) = _
  rw [h, Bool.false_or]

/-- Whether a pass comes to forget everything: one of its projects is
still one by its text, or another document is, and is read. -/
def Forgets (projects others : List Uri) (p : Pass) : Prop :=
  p.scene.trace.withdrawn = false
    ∧ ((∃ u ∈ projects, p.scene.store.announces u = true)
      ∨ (Scene.reread host projects p.scene).trace.withdrawn = false
        ∧ ∃ u ∈ others, p.scene.store.announces u = true)

/-- The second half of a pass that has found no project in the first. -/
theorem runOthers_former (others former : List Uri) {p : Pass}
    (hs : p.scene.store.Faithful)
    (hformer : ∀ u ∈ former, p.scene.store.announces u = false) :
    let q := (runOthers host (others ++ former) p).scene
    ((∃ u ∈ others, p.scene.store.announces u = true) →
      p.scene.index.clear.Grows q.store q.index)
    ∧ ((∀ u ∈ others, p.scene.store.announces u = false) →
      p.scene.index.Grows q.store q.index
        ∧ ((∀ u ∈ others ++ former, p.scene.store.isProject u = false) →
          Store.SameLayout q.store p.scene.store)) := by
  constructor
  · rintro ⟨u, hu, hann⟩
    exact runOthers_found host hs
      (List.any_eq_true.2 ⟨u, List.mem_append_left _ hu, hann⟩)
  · intro hnone
    refine runOthers_plain host hs fun u hu => ?_
    rcases List.mem_append.1 hu with hu | hu
    · exact hnone u hu
    · exact hformer u hu

/-- If a project is left, the first half forgets everything. -/
theorem runRead_kept {projects others : List Uri} {p : Pass}
    (hs : p.scene.store.Faithful)
    (hread : ∀ u d, p.scene.store.get? u = some d → u ∈ projects →
      d.stage ≠ .changed)
    (hkept : projects.filter p.scene.store.isProject ≠ []) :
    let q := (runRead host projects others p).scene
    p.scene.index.clear.Grows q.store q.index := by
  obtain ⟨s₂, hadv, hscene⟩ := runAll_projects host hkept
    (p := p) (fun v hv => (List.mem_filter.1 hv).2)
  have hs₂ := runAll_faithful host
    (projects.filter p.scene.store.isProject) hs
    (fun u d hd hu => hread u d hd (List.mem_filter.1 hu).1)
  have hclear : (runAll host (projects.filter
      p.scene.store.isProject) p).1.scene.index
        = p.scene.index.clear := by
    rw [hscene, Scene.index_reindex, Index.clear, hadv.builtins]
    rfl
  unfold runRead
  dsimp only
  generalize runAll host (projects.filter p.scene.store.isProject)
    p = r at *
  split
  · exact hclear ▸ .refl _ _
  · split
    · exact hclear ▸ .refl _ _
    · cases hany : (others ++ projects.filter fun u =>
          !p.scene.store.isProject u).any r.1.scene.store.announces with
      | true =>
        have hsecond := runOthers_found host (p := r.1.poll) hs₂ hany
        dsimp only at hsecond
        rw [scene_poll, hclear] at hsecond
        exact hsecond
      | false =>
        have hsecond := (runOthers_plain host (p := r.1.poll) hs₂
          fun u hu => Bool.eq_false_iff.2 (List.any_eq_false.1 hany u hu)).1
        rw [scene_poll, hclear] at hsecond
        exact hsecond

/-- If none is left, the first half forgets nothing. -/
theorem runRead_gone {projects : List Uri} (others : List Uri) {p : Pass}
    (hs : p.scene.store.Faithful) (hnew : p.report.cancelled = false)
    (hgone : ∀ u ∈ projects, p.scene.store.isProject u = false
      ∧ p.scene.store.announces u = false) :
    let q := (runRead host projects others p).scene
    (p.scene.trace.withdrawn = false
        ∧ (∃ u ∈ others, p.scene.store.announces u = true) →
      p.scene.index.clear.Grows q.store q.index)
    ∧ (¬ (p.scene.trace.withdrawn = false
        ∧ ∃ u ∈ others, p.scene.store.announces u = true) →
      p.scene.index.Grows q.store q.index
        ∧ ((∀ u ∈ others, p.scene.store.isProject u = false) →
          Store.SameLayout q.store p.scene.store)) := by
  have hkept : projects.filter p.scene.store.isProject = [] :=
    List.filter_eq_nil_iff.2 fun u hu => by simp [(hgone u hu).1]
  unfold runRead
  dsimp only
  rw [hkept, runAll_nil]
  simp only [Bool.not_true, Bool.false_eq_true, if_false]
  rw [cancelled_poll hnew]
  split
  · next hw =>
    rw [scene_poll, hw]
    exact ⟨fun h => (Bool.false_ne_true h.1.symm).elim,
      fun _ => ⟨.refl _ _, fun _ => .refl _⟩⟩
  · next hw =>
    have hsecond := runOthers_former host others
      (projects.filter fun u => !p.scene.store.isProject u)
      (p := p.poll) hs
      (fun u hu => (hgone u (List.mem_filter.1 hu).1).2)
    dsimp only at hsecond
    rw [scene_poll] at hsecond
    refine ⟨fun h => hsecond.1 h.2, fun h => ?_⟩
    obtain ⟨hgrows, hlayout⟩ := hsecond.2 fun u hu => by
      by_contra hne
      exact h ⟨by simpa using hw, u, hu, by simpa using hne⟩
    refine ⟨hgrows, fun hothers => hlayout fun u hu => ?_⟩
    rcases List.mem_append.1 hu with hu | hu
    · exact hothers u hu
    · exact (hgone u (List.mem_filter.1 hu).1).1

/-- What a pass remembers: only what is right if it comes to forget,
and otherwise what it remembered before as well. It moves no horizon
then unless it was given projects. -/
theorem runSplit_index (projects others : List Uri) {p : Pass}
    (hs : p.scene.store.Faithful) (hnew : p.report.cancelled = false)
    (hothers : ∀ u ∈ others, p.scene.store.isProject u = false) :
    let q := (runSplit host projects others p).scene
    (p.Forgets host projects others →
      p.scene.index.clear.Grows q.store q.index)
    ∧ (¬ p.Forgets host projects others →
      p.scene.index.Grows q.store q.index
        ∧ (projects = [] ∨ p.scene.trace.withdrawn = true →
          Store.SameLayout q.store p.scene.store)) := by
  rw [runSplit_eq]
  dsimp only
  rw [cancelled_poll hnew]
  by_cases hw : p.scene.trace.withdrawn = true
  · rw [if_pos hw]
    refine ⟨fun h => ?_, fun _ => ⟨.refl _ _, fun _ => .refl _⟩⟩
    rw [h.1] at hw
    cases hw
  have hw : p.scene.trace.withdrawn = false := by simpa using hw
  rw [if_neg (by simp [hw])]
  -- reading the projects tells which of them are left
  have hread := fun u (hu : u ∈ projects) =>
    isProject_read host (p := p.poll) hs hu
  have hann : ∀ u, (p.poll.reread host projects).scene.store.announces u
      = p.scene.store.announces u := by
    intro u
    rw [store_reread]
    exact Store.announces_reread _ _ u
  have hindex : (p.poll.reread host projects).scene.index
      = p.scene.index := Scene.index_reread host projects p.scene
  have htrace : (p.poll.reread host projects).scene.trace
      = (Scene.reread host projects p.scene).trace := rfl
  have hcancelled : (p.poll.reread host projects).report.cancelled
      = false := (cancelled_poll hnew).trans hw
  have hstay : projects = [] → (p.poll.reread host
      projects).scene.store = p.scene.store := by
    intro heq
    subst heq
    rfl
  have hs₁ := reread_faithful host projects (p := p.poll) hs
  have hstages := fun u d (hd : (p.poll.reread host
    projects).scene.store.get? u = some d) => stage_ne_of_reread host hd
  generalize p.poll.reread host projects = p₁ at *
  by_cases hleft : ∃ u ∈ projects, p.scene.store.announces u = true
  · have hkept : projects.filter p₁.scene.store.isProject ≠ [] := by
      obtain ⟨u, hu, hproject⟩ := hleft
      exact List.ne_nil_of_mem
        (List.mem_filter.2 ⟨hu, (hread u hu).trans hproject⟩)
    refine ⟨fun _ => ?_, fun h => absurd ⟨hw, .inl hleft⟩ h⟩
    rw [← hindex]
    exact runRead_kept host hs₁ hstages hkept
  · have hgone : ∀ u ∈ projects, p.scene.store.announces u = false := by
      intro u hu
      by_contra hne
      exact hleft ⟨u, hu, by simpa using hne⟩
    have hforgets : p.Forgets host projects others ↔
        p₁.scene.trace.withdrawn = false
          ∧ ∃ u ∈ others, p.scene.store.announces u = true := by
      unfold Forgets
      rw [htrace]
      exact ⟨fun h => h.2.resolve_left hleft, fun h => ⟨hw, .inr h⟩⟩
    have hrest := runRead_gone host others hs₁ hcancelled
      fun u hu => ⟨(hread u hu).trans (hgone u hu),
        (hann u).trans (hgone u hu)⟩
    dsimp only at hrest
    simp only [hann, hindex] at hrest
    rw [hforgets]
    refine ⟨hrest.1, fun h => ?_⟩
    obtain ⟨hgrows, hlayout⟩ := hrest.2 h
    refine ⟨hgrows, fun hnil => ?_⟩
    have hnil := hnil.resolve_right (by simp [hw])
    rw [hstay hnil] at hlayout
    exact hlayout hothers

theorem carries_follows (batch : List Uri) :
    Carries host batch fun s t => s.store.Follows t.store where
  refl s := .refl s.store
  trans h h' := h.trans h'
  reread us _ p := reread_follows host us p
  runAll us _ p _ := runAll_follows host us p

theorem carries_faithful (batch : List Uri) :
    Carries host batch fun s t =>
      s.store.Faithful → t.store.Faithful where
  refl _ h := h
  trans h h' hs := h' (h hs)
  reread us _ _ hs := reread_faithful host us hs
  runAll us _ _ hread hs := runAll_faithful host us hs hread

/-- A split batch leaves every text as it was. -/
theorem runSplit_follows (projects others : List Uri) (p : Pass) :
    p.scene.store.Follows
      (runSplit host projects others p).scene.store :=
  (carries_follows host (projects ++ others)).runSplit host
    (List.subset_append_left _ _) (List.subset_append_right _ _) p

theorem runSplit_faithful {projects others : List Uri} {p : Pass}
    (hs : p.scene.store.Faithful) :
    (runSplit host projects others p).scene.store.Faithful :=
  (carries_faithful host (projects ++ others)).runSplit host
    (List.subset_append_left _ _) (List.subset_append_right _ _) p hs

end Pass

-- ========================================================= whole builds

namespace Scene

/-- Whether a build comes to forget everything: a pending project is
still one by its text, or another pending document is, and is read. -/
def Forgets (s : Scene) (host : Host) : Prop :=
  let projects := s.store.pending.filter s.store.isProject
  s.trace.withdrawn = false
    ∧ ((∃ u ∈ projects, s.store.announces u = true)
      ∨ (reread host projects s).trace.withdrawn = false
        ∧ ∃ u ∈ s.store.pending, s.store.announces u = true)

/-- A build that is to build projects and forgets nothing: none of them
is left by its text, nor has any other been read to be one. -/
def Dissolves (s : Scene) (host : Host) : Prop :=
  s.trace.withdrawn = false
    ∧ (∃ u ∈ s.store.pending, s.store.isProject u = true)
    ∧ ¬ s.Forgets host

/-- A build that dissolves its projects while a horizon is remembered
in which something else is seen afterwards, or whose closure is another
one. -/
def Lapses (s : Scene) (host : Host) : Prop :=
  s.Dissolves host ∧ ∃ e ∈ s.index.horizons,
    let h := Horizon.of (s.build host).1.store s.index.builtins e.1
    e.2.visible ≠ h.visible ∨ e.2.closure ≠ h.closure

end Scene

namespace Store

theorem pending_nodup (s : Store) : s.pending.Nodup :=
  s.nodup.sublist (List.filter_sublist.map Prod.fst)

/-- A document is pending unless it is complete. -/
theorem mem_pending {s : Store} {u : Uri} :
    u ∈ s.pending ↔ ∃ d, s.get? u = some d ∧ d.stage < .validated := by
  unfold pending
  rw [List.mem_map]
  constructor
  · intro hcase
    rcases hcase with ⟨⟨v, d⟩, he, rfl⟩
    obtain ⟨he, hlt⟩ := List.mem_filter.1 he
    exact ⟨d, mem_entries.1 he, of_decide_eq_true hlt⟩
  · intro hcase
    rcases hcase with ⟨d, hd, hlt⟩
    exact ⟨(u, d), List.mem_filter.2
      ⟨mem_entries.2 hd, decide_eq_true hlt⟩, rfl⟩

/-- Whoever is not complete is pending. -/
theorem pending_iff {s : Store} {u : Uri} {d : Document}
    (hd : s.get? u = some d) : u ∈ s.pending ↔ d.stage < .validated := by
  rw [mem_pending, hd]
  exact ⟨fun ⟨_, hx, hlt⟩ => Option.some.inj hx ▸ hlt, fun h => ⟨d, rfl, h⟩⟩

/-- All that is pending is unfinished. -/
theorem unfinished_pending (s : Store) :
    s.unfinished s.pending = s.pending := by
  unfold unfinished
  rw [List.filter_eq_self.2, Distinct.ofList_of_nodup s.pending_nodup]
  intro u hu
  obtain ⟨d, hd, hlt⟩ := mem_pending.1 hu
  simp [stageOf, hd, hlt]

end Store

namespace Scene

/-- Dropping what failed steps have left. -/
theorem foldl_clearFailures (us : List Uri) (s : Scene) :
    us.foldl (fun s u => s.modify u Document.clearFailures) s
      = { s with store := s.store.alter fun v d =>
          if v ∈ us then d.clearFailures else d } := by
  induction us generalizing s with
  | nil =>
    rw [List.foldl_nil, Store.alter_id (by simp)]
  | cons u us ih =>
    rw [List.foldl_cons, ih]
    unfold modify
    congr 1
    dsimp only
    rw [Store.modify_eq_alter, Store.alter_alter]
    refine Store.alter_congr fun v d _ => ?_
    have htwice : d.clearFailures.clearFailures = d.clearFailures := by
      simp [Document.clearFailures]
    by_cases hv : v = u
    · by_cases hus : v ∈ us <;> simp [hv, htwice]
    · simp [hv]

/-- A scene in which nothing is left of failed steps. -/
def cleared (s : Scene) : Scene :=
  { s with store := s.store.alter fun v d =>
      if v ∈ s.store.pending then d.clearFailures else d }

theorem stageOf_cleared (s : Scene) (u : Uri) :
    s.cleared.store.stageOf u = s.store.stageOf u := by
  unfold cleared Store.stageOf
  rw [Store.get?_alter, Option.map_map]
  refine congrArg (Option.map · (s.store.get? u)) (funext fun d => ?_)
  rw [Function.comp_apply]
  split <;> rfl

theorem isProject_cleared (s : Scene) (u : Uri) :
    s.cleared.store.isProject u = s.store.isProject u := by
  unfold cleared Store.isProject
  rw [Store.get?_alter]
  cases s.store.get? u with
  | none => rfl
  | some d =>
    simp only [Option.map_some, Option.any_some]
    split <;> rfl

theorem announces_cleared (s : Scene) (u : Uri) :
    s.cleared.store.announces u = s.store.announces u := by
  unfold cleared Store.announces
  rw [Store.get?_alter]
  cases s.store.get? u with
  | none => rfl
  | some d =>
    simp only [Option.map_some, Option.any_some]
    split <;> rfl

theorem sameLayout_cleared (s : Scene) :
    Store.SameLayout s.cleared.store s.store := by
  refine Store.sameLayout_alter fun u d _ => ?_
  split <;> rfl

theorem faithful_cleared {s : Scene} (hs : s.store.Faithful) :
    s.cleared.store.Faithful := by
  intro u d hd
  rw [cleared, Store.get?_alter] at hd
  obtain ⟨x, hx, rfl⟩ := Option.map_eq_some_iff.1 hd
  split
  · exact ⟨(hs u x hx).known, (hs u x hx).current⟩
  · exact hs u x hx

/-- Which calls reading makes hangs on the stages alone. -/
theorem trace_reread (host : Host) (us : List Uri) {s t : Scene}
    (htrace : t.trace = s.trace)
    (hstage : ∀ u, t.store.stageOf u = s.store.stageOf u) :
    (reread host us t).trace = (reread host us s).trace := by
  induction us generalizing s t with
  | nil => exact htrace
  | cons u us ih =>
    have hu := hstage u
    unfold reread
    unfold Store.stageOf at hu
    cases hs : s.store.get? u with
    | none =>
      rw [hs] at hu
      rw [Option.map_eq_none_iff.1 hu]
      exact ih htrace hstage
    | some d =>
      rw [hs] at hu
      obtain ⟨x, hx, hxd⟩ := Option.map_eq_some_iff.1 hu
      rw [hx]
      dsimp only
      rw [hxd]
      split
      · next hchanged =>
        refine ih ?_ fun v => ?_
        · show t.trace.note host .parse u = s.trace.note host .parse u
          rw [htrace]
        · unfold Store.stageOf
          rw [store_modify, store_modify, store_note, store_note]
          by_cases hv : v = u
          · subst hv
            simp [hs, hx, Document.applyRead, Document.advance, hxd,
              hchanged, show Stage.changed < Stage.parsed by decide]
          · rw [Store.get?_modify_of_ne _ hv, Store.get?_modify_of_ne _ hv]
            exact hstage v
      · exact ih htrace hstage

variable (host : Host)

/-- The pass of a build over all that is pending. -/
def pass (s : Scene) : Pass :=
  Pass.runSplit host (s.store.pending.filter s.store.isProject)
    (s.store.pending.filter fun u => !s.store.isProject u)
    ⟨s.cleared, .empty⟩

/-- Where every document has been read at some time, a build is one
pass over what is pending. -/
theorem build_eq {s : Scene} (hs : s.store.Faithful) :
    s.build host =
      if s.store.pending.isEmpty then (s, .empty)
      else ((s.pass host).scene, (s.pass host).report) := by
  have hknown : ∀ u, (s.cleared.store.get? u).any
      (·.content.isNone) = false := by
    intro u
    cases hd : s.cleared.store.get? u with
    | none => rfl
    | some d => simpa using (faithful_cleared hs u d hd).known
  have hclear : s.store.pending.foldl
      (fun s u => s.modify u Document.clearFailures) s = s.cleared :=
    foldl_clearFailures s.store.pending s
  have hproject : s.cleared.store.isProject = s.store.isProject :=
    funext s.isProject_cleared
  unfold build buildBatch
  simp only [Store.unfinished_pending, hclear, hknown, List.filter_false,
    reread, Pass.split_eq, hproject]
  rfl

/-- What a build remembers: only what is right if it comes to forget,
and otherwise what was remembered before as well. It moves no horizon
then unless it has projects to build. -/
theorem build_index {s : Scene} (hs : s.store.Faithful) :
    let q := (s.build host).1
    (s.Forgets host → s.index.clear.Grows q.store q.index)
    ∧ (¬ s.Forgets host → s.index.Grows q.store q.index
      ∧ ((∀ u ∈ s.store.pending, s.store.isProject u = false)
          ∨ s.trace.withdrawn = true →
        Store.SameLayout q.store s.store)) := by
  rw [build_eq host hs]
  dsimp only
  split
  · next hnil =>
    have hnil : s.store.pending = [] := List.isEmpty_iff.1 hnil
    refine ⟨fun h => ?_, fun _ => ⟨.refl _ _, fun _ => .refl _⟩⟩
    simp [Forgets, hnil] at h
  · have hsplit := Pass.runSplit_index host
      (s.store.pending.filter s.store.isProject)
      (s.store.pending.filter fun u => !s.store.isProject u)
      (p := ⟨s.cleared, .empty⟩) (faithful_cleared hs) rfl (by
        intro u hu
        rw [isProject_cleared]
        simpa using (List.mem_filter.1 hu).2)
    have hiff : Pass.Forgets host
        (s.store.pending.filter s.store.isProject)
        (s.store.pending.filter fun u => !s.store.isProject u)
        ⟨s.cleared, .empty⟩ ↔ s.Forgets host := by
      unfold Pass.Forgets Forgets
      simp only [announces_cleared]
      rw [trace_reread host _ (show s.cleared.trace = s.trace from rfl)
        s.stageOf_cleared]
      refine and_congr_right fun _ => ⟨?_, ?_⟩
      · intro hcase
        rcases hcase with h | ⟨hw, u, hu, h⟩
        · exact .inl h
        · exact .inr ⟨hw, u, (List.mem_filter.1 hu).1, h⟩
      · intro hcase
        rcases hcase with h | ⟨hw, u, hu, h⟩
        · exact .inl h
        · by_cases hp : s.store.isProject u = true
          · exact .inl ⟨u, List.mem_filter.2 ⟨hu, hp⟩, h⟩
          · exact .inr ⟨hw, u, List.mem_filter.2
              ⟨hu, by simpa using hp⟩, h⟩
    rw [hiff] at hsplit
    refine ⟨hsplit.1, fun h => ⟨(hsplit.2 h).1, fun hnone => ?_⟩⟩
    refine Store.SameLayout.trans ((hsplit.2 h).2 ?_)
      s.sameLayout_cleared
    refine hnone.imp_left fun hnone => List.filter_eq_nil_iff.2 ?_
    intro u hu
    rw [hnone u hu]
    decide

theorem build_builtins {s : Scene} (hs : s.store.Faithful) :
    (s.build host).1.index.builtins = s.index.builtins := by
  obtain ⟨hforgets, hkeeps⟩ := build_index host hs
  by_cases hf : s.Forgets host
  · exact (hforgets hf).builtins
  · exact (hkeeps hf).1.builtins

/-- A build leaves the texts alone. -/
theorem build_follows {s : Scene} (hs : s.store.Faithful) :
    s.store.Follows (s.build host).1.store := by
  rw [build_eq host hs]
  split
  · exact .refl _
  · have hcleared : s.store.Follows s.cleared.store := by
      refine Store.follows_alter (f := fun v d =>
        if v ∈ s.store.pending then d.clearFailures else d) fun u d => ?_
      split
      · exact d.forward_clearFailures.follows
      · exact .refl d
    exact hcleared.trans (Pass.runSplit_follows host
      (s.store.pending.filter s.store.isProject)
      (s.store.pending.filter fun u => !s.store.isProject u)
      ⟨s.cleared, .empty⟩)

/-- A build leaves documents in line with their texts. -/
theorem build_faithful {s : Scene} (hs : s.store.Faithful) :
    (s.build host).1.store.Faithful := by
  rw [build_eq host hs]
  split
  · exact hs
  · exact Pass.runSplit_faithful host (faithful_cleared hs)

/-- Who is still a project after a build that forgets nothing is the
project it was. -/
theorem build_projects {s : Scene} (hs : s.store.Faithful)
    (hf : ¬ s.Forgets host) (hw : s.trace.withdrawn = false)
    {p q : Project} (hp : p ∈ s.store.projects)
    (hq : q ∈ (s.build host).1.store.projects) (huri : q.uri = p.uri) :
    q.descriptor = p.descriptor := by
  obtain ⟨d, hd, hdp, -⟩ := Store.mem_projects.1 hp
  obtain ⟨d', hd', hdq, -⟩ := Store.mem_projects.1 hq
  obtain ⟨x, hx, hfollows⟩ := (build_follows host hs).each _ d hd
  obtain rfl : d' = x := by
    rw [huri, hx] at hd'
    exact (Option.some.inj hd').symm
  have hsame : d'.descriptor? = d.descriptor? → q.descriptor
      = p.descriptor := by
    rw [hdq, hdp]
    exact Option.some.inj
  rcases hfollows.descriptor with h | h
  · exact hsame h
  · by_cases hstage : d.stage = .changed
    · -- a project that is still to be read is none by its text
      refine absurd ⟨hw, .inl ⟨p.uri, List.mem_filter.2 ⟨?_, ?_⟩, ?_⟩⟩ hf
      · exact Store.mem_pending.2 ⟨d, hd, by rw [hstage]; decide⟩
      · rw [Store.isProject_of_get? hd, Document.isProject, hdp]
        rfl
      · rw [Store.announces_of_get? hd, Document.announces, ← h, hdq]
        rfl
    · exact hsame (h.trans ((hs _ d hd).current hstage).symm)

/-- A build that does not lapse leaves a right index. -/
theorem right_build {s : Scene} (hs : s.store.Faithful) (h : s.Right)
    (hlapse : ¬ s.Lapses host) : (s.build host).1.Right := by
  obtain ⟨hforgets, hkeeps⟩ := build_index host hs
  by_cases hf : s.Forgets host
  · exact (Index.right_clear s.index _).grows (hforgets hf)
  obtain ⟨hgrows, hlayout⟩ := hkeeps hf
  by_cases hd : s.Dissolves host
  · refine Index.Right.grows (i := s.index) ⟨h.keyed, fun e he => ?_⟩
      hgrows
    have hboth := not_or.1 fun hne => hlapse ⟨hd, e, he, hne⟩
    rw [not_not, not_not] at hboth
    rw [h.computed e he] at hboth ⊢
    exact Store.horizon_of_closure
      (fun p hp q hq => build_projects host hs hf hd.1 hp hq)
      hboth.1 hboth.2
  · refine (h.layout (hlayout ?_).symm).grows hgrows
    by_contra hnone
    obtain ⟨hsome, hw⟩ := not_or.1 hnone
    simp only [not_forall, Bool.not_eq_false] at hsome
    obtain ⟨u, hu, hp⟩ := hsome
    exact hd ⟨by simpa using hw, ⟨u, hu, hp⟩, hf⟩

/-- A build that lapses tells what is wrong from then on. -/
theorem not_truthful_build {s : Scene} (hs : s.store.Faithful)
    (h : s.Right) (hlapse : s.Lapses host) :
    ¬ (s.build host).1.Truthful := by
  obtain ⟨⟨-, -, hnot⟩, e, he, hne⟩ := hlapse
  obtain ⟨hgrows, -⟩ := (build_index host hs).2 hnot
  intro htruthful
  have hlook := Index.look_of_lookup_some (s := (s.build host).1.store)
    (lookup_of_mem (hgrows.keyed h.keyed) (hgrows.kept e he))
  obtain ⟨hvisible, hclosure⟩ := htruthful e.1
  rw [hlook, hgrows.builtins] at hvisible hclosure
  rcases hne with hne | hne
  · exact hne hvisible
  · exact hne hclosure

end Scene

end Purview
