/-
What is seen while a build is under way. Between two states of the same
documents, one of them further on than the other, names, owners and the
edges as they stand are the same (`Projects.plan`); all that moves is
which edges are open, and an edge stays open once it is. So from any
project the one that is further on opens at least the edges that the
other does (`Further.targets_subset`), what can be reached over them
only grows, and the folders below which documents are seen with it.
One open edge may bring a whole part of the graph with it; reaching is
all that is compared, never the walks.

At the end of the way every edge is open. What is seen there is no
matter of stages any more (`mem_visible`), and so it is what a horizon
can grow to at most.
-/
import Purview.Proofs.Closures

namespace Purview

-- ============================================================== projects

namespace Projects

variable {ps qs : Projects} {policy : EdgePolicy}

/-- The same projects in the same order, none of them at an earlier
stage among the second ones. -/
structure Further (ps qs : Projects) : Prop where
  plan : plan ps = plan qs
  stage : ∀ p ∈ ps, ∀ q ∈ qs, q.uri = p.uri → p.stage ≤ q.stage

namespace Further

theorem mem (h : Further ps qs) {p : Project} (hp : p ∈ ps) :
    ∃ q ∈ qs, q.uri = p.uri ∧ q.descriptor = p.descriptor := by
  have hmem : (p.uri, p.descriptor) ∈ Projects.plan qs :=
    h.plan ▸ List.mem_map.2 ⟨p, hp, rfl⟩
  obtain ⟨q, hq, hqp⟩ := List.mem_map.1 hmem
  exact ⟨q, hq, Prod.mk.inj hqp⟩

/-- A project that is further on is there where the other one was. -/
theorem get? (h : Further ps qs) {u : Uri} {p : Project}
    (hp : Projects.get? ps u = some p) :
    ∃ q, Projects.get? qs u = some q ∧ q.folders = p.folders := by
  have hsame := get?_of_plan h.plan u
  rw [hp] at hsame
  obtain ⟨q, hq, hqp⟩ := Option.map_eq_some_iff.1 hsame.symm
  obtain ⟨huri, hdescriptor⟩ := Prod.mk.inj hqp
  exact ⟨q, hq, by rw [Project.folders, Project.folders, huri, hdescriptor]⟩

/-- Where a dependency is followed to, it is followed to later on. -/
theorem followedTo (h : Further ps qs) {d : Dependency} {p : Project}
    (hp : FollowedTo ps policy d p) :
    ∃ q ∈ qs, q.uri = p.uri ∧ FollowedTo qs policy d q := by
  obtain ⟨hnamed, hadmits⟩ :=
    Option.filter_eq_some_iff.1 ((followedTo_iff ps).1 hp)
  have hsame := named?_of_plan h.plan d.name
  rw [hnamed] at hsame
  obtain ⟨q, hq, hqp⟩ := Option.map_eq_some_iff.1 hsame.symm
  have huri : q.uri = p.uri := (Prod.mk.inj hqp).1
  have hstage : p.stage ≤ q.stage :=
    h.stage p (mem_of_named? hnamed) q (mem_of_named? hq) huri
  refine ⟨q, mem_of_named? hq, huri, (followedTo_iff qs).2 ?_⟩
  refine Option.filter_eq_some_iff.2 ⟨hq, ?_⟩
  cases policy with
  | any => rfl
  | linked =>
    exact decide_eq_true (Nat.le_trans (of_decide_eq_true hadmits) hstage)

/-- An open edge stays open. -/
theorem targets_subset (h : Further ps qs) (hps : (uris ps).Nodup)
    (policy : EdgePolicy) (u : Uri) :
    targets ps policy u ⊆ targets qs policy u := by
  have hqs : (uris qs).Nodup := uris_of_plan h.plan ▸ hps
  intro v hv
  by_cases hu : u ∈ uris ps
  · obtain ⟨p, hp, rfl⟩ := List.mem_map.1 hu
    obtain ⟨q, hq, hqp, hdescriptor⟩ := h.mem hp
    obtain ⟨r, -, rfl, d, hd, hr⟩ := (mem_targets hps hp).1 hv
    obtain ⟨r', hr', huri, hfollowed⟩ := h.followedTo hr
    rw [← hqp]
    exact (mem_targets hqs hq).2
      ⟨r', hr', huri, d, hdescriptor ▸ hd, hfollowed⟩
  · have hnone : Projects.get? ps u = none :=
      Option.not_isSome_iff_eq_none.1 (mt (isSome_get? ps u).1 hu)
    rw [targets, hnone] at hv
    cases hv

/-- A closure has what it had. -/
theorem closure_subset (h : Further ps qs) (hps : (uris ps).Nodup)
    (policy : EdgePolicy) (root : Uri) :
    closure ps policy root ⊆ closure qs policy root := by
  intro v hv
  obtain ⟨hroot, hway⟩ := (mem_closure ps).1 hv
  exact (mem_closure qs).2 ⟨uris_of_plan h.plan ▸ hroot,
    hway.lift id fun w _ hedge => h.targets_subset hps policy w hedge⟩

/-- So have the folders of more projects. -/
theorem folders_subset (h : Further ps qs) {us vs : List Uri}
    (hsub : us ⊆ vs) : folders ps us ⊆ folders qs vs := by
  intro f hf
  obtain ⟨w, hw, p, hp, hfolder⟩ := mem_folders.1 hf
  obtain ⟨q, hq, hsame⟩ := h.get? hp
  exact mem_folders.2 ⟨w, hsub hw, q, hq, hsame ▸ hfolder⟩

end Further

end Projects

-- ============================================================= documents

/-- The same documents in the same load order, with the same descriptors,
and none of them at an earlier stage in the second store. -/
structure Store.Further (s t : Store) : Prop where
  uris : s.uris = t.uris
  descriptor : ∀ u d e, s.get? u = some d → t.get? u = some e →
    d.descriptor? = e.descriptor?
  stage : ∀ u d e, s.get? u = some d → t.get? u = some e →
    d.stage ≤ e.stage

/-- So are the projects among them. -/
theorem Store.Further.projects {s t : Store} (h : s.Further t) :
    s.projects.Further t.projects := by
  constructor
  · refine Store.plan_congr h.uris fun u => ?_
    by_cases hu : u ∈ s.uris
    · obtain ⟨d, hd⟩ :=
        Option.isSome_iff_exists.1 ((s.isSome_get? u).2 hu)
      obtain ⟨e, he⟩ :=
        Option.isSome_iff_exists.1 ((t.isSome_get? u).2 (h.uris ▸ hu))
      rw [hd, he]
      exact h.descriptor u d e hd he
    · rw [(s.get?_eq_none u).2 hu, (t.get?_eq_none u).2 (h.uris ▸ hu)]
  · intro p hp q hq huri
    obtain ⟨d, hd, -, hstage⟩ := Store.mem_projects.1 hp
    obtain ⟨e, he, -, hstage'⟩ := Store.mem_projects.1 hq
    rw [← hstage, ← hstage']
    exact h.stage p.uri d e hd (huri ▸ he)

/-- To move a document on keeps what it describes. -/
theorem Document.descriptor?_advance (d : Document) (stage : Stage) :
    (d.advance stage).descriptor? = d.descriptor? := by
  unfold Document.advance
  split <;> rfl

/-- To move a document on is to be further on. -/
theorem Store.further_advance (s : Store) (u : Uri) (stage : Stage) :
    s.Further (s.modify u (·.advance stage)) := by
  rw [s.modify_eq_alter]
  refine ⟨(s.uris_alter _).symm, fun v d e hd he => ?_,
    fun v d e hd he => ?_⟩
  all_goals
    rw [get?_alter, hd, Option.map_some] at he
    obtain rfl := Option.some.inj he
    split
  · exact (d.descriptor?_advance stage).symm
  · rfl
  · exact d.le_stage_advance stage
  · exact Nat.le_refl _

namespace Horizon

/-- A horizon lies within another. They do not differ in whether all
documents are seen, and whatever hangs on the closure of the owner is
less. -/
structure Within (h k : Horizon) : Prop where
  isAll : h.visible.isAll = k.visible.isAll
  closure : h.closure ⊆ k.closure
  folders : h.folders ⊆ k.folders
  visible : ∀ v, h.visible.contains v = true → k.visible.contains v = true

/-- Who is seen by a document with an owner. -/
theorem contains_of {s : Store} {u : Uri} {owner : Project}
    (howner : s.projects.ownerOf? u = some owner) (builtins : List Uri)
    (v : Uri) :
    (Horizon.of s builtins u).visible.contains v = true
      ↔ v ≠ u ∧ (v ∈ builtins
        ∨ v ∈ s.uris ∧ (Horizon.of s builtins u).folders.any v.isWithin) := by
  unfold Horizon.of
  rw [howner]
  simp only [Visibility.contains, decide_eq_true_eq, Distinct.mem_union,
    List.mem_filter]
  tauto

/-- What was seen from a document is seen later on. -/
theorem within_of_further {s t : Store} (h : s.Further t)
    (builtins : List Uri) (u : Uri) :
    (Horizon.of s builtins u).Within (Horizon.of t builtins u) := by
  have hprojects := h.projects
  have howner := Projects.ownerOf?_of_plan hprojects.plan u
  cases hp : s.projects.ownerOf? u with
  | none =>
    rw [hp] at howner
    unfold Horizon.of
    rw [hp, Option.map_eq_none_iff.1 howner.symm]
    exact ⟨rfl, fun _ hv => hv, fun _ hf => hf, fun _ hv => hv⟩
  | some p =>
    rw [hp] at howner
    obtain ⟨q, hq, hqp⟩ := Option.map_eq_some_iff.1 howner.symm
    have huri : q.uri = p.uri := (Prod.mk.inj hqp).1
    have hclosure : (Horizon.of s builtins u).closure
        ⊆ (Horizon.of t builtins u).closure := by
      unfold Horizon.of
      rw [hp, hq]
      dsimp only
      rw [huri]
      exact hprojects.closure_subset s.uris_projects_nodup .linked p.uri
    have hfolders : (Horizon.of s builtins u).folders
        ⊆ (Horizon.of t builtins u).folders := by
      unfold Horizon.of at hclosure ⊢
      rw [hp, hq] at hclosure ⊢
      exact hprojects.folders_subset hclosure
    refine ⟨?_, hclosure, hfolders, fun v hv => ?_⟩
    · unfold Horizon.of
      rw [hp, hq]
      rfl
    · obtain ⟨hne, hseen⟩ := (contains_of hp builtins v).1 hv
      refine (contains_of hq builtins v).2 ⟨hne, hseen.imp_right ?_⟩
      rintro ⟨hloaded, hbelow⟩
      obtain ⟨f, hf, hvf⟩ := List.any_eq_true.1 hbelow
      exact ⟨h.uris ▸ hloaded, List.any_eq_true.2 ⟨f, hfolders hf, hvf⟩⟩

/-- Where every project has been linked, a document with an owner sees
the builtins and whatever one of the projects owns that the owner leads
to, and never itself. -/
theorem mem_visible {s : Store}
    (hlinked : ∀ p ∈ s.projects, Stage.linked ≤ p.stage)
    (builtins : List Uri) {u : Uri} {owner : Project}
    (howner : s.projects.ownerOf? u = some owner) :
    ∃ vs, (Horizon.of s builtins u).visible = .only vs
      ∧ ∀ v, v ∈ vs ↔ v ≠ u ∧ (v ∈ builtins ∨ v ∈ s.uris
        ∧ ∃ q ∈ s.projects, q.uri ∈ s.projects.closure .any owner.uri
          ∧ q.owns v = true) := by
  have hbelow : ∀ v, (Horizon.of s builtins u).folders.any v.isWithin
      ↔ ∃ q ∈ s.projects, q.uri ∈ s.projects.closure .any owner.uri
        ∧ q.owns v = true := by
    intro v
    unfold Horizon.of
    rw [howner]
    exact Projects.any_folders_closure s.uris_projects_nodup hlinked
  have hcontains := contains_of howner builtins
  cases hvisible : (Horizon.of s builtins u).visible with
  | all =>
    unfold Horizon.of at hvisible
    rw [howner] at hvisible
    cases hvisible
  | only vs =>
    refine ⟨vs, rfl, fun v => ?_⟩
    rw [← hbelow, ← hcontains, hvisible, Visibility.contains,
      decide_eq_true_eq]

/-- Between two states of the same documents, the second further on, what
a document can see only grows, with the closure of its owner and the
folders below which it sees; and whether it sees everything is the same
in both. Where the further state has every project linked, a document
with an owner sees the builtins there and the documents that lie below
a source folder of a project in the closure of its owner over edges as
they stand, apart from itself. -/
theorem horizon_widens {s t : Store} (h : s.Further t)
    (builtins : List Uri) (u : Uri) :
    (Horizon.of s builtins u).Within (Horizon.of t builtins u)
      ∧ ((∀ p ∈ t.projects, Stage.linked ≤ p.stage) →
        ∀ owner, t.projects.ownerOf? u = some owner →
          ∃ vs, (Horizon.of t builtins u).visible = .only vs
            ∧ ∀ v, v ∈ vs ↔ v ≠ u ∧ (v ∈ builtins ∨ v ∈ t.uris
              ∧ ∃ q ∈ t.projects, q.uri ∈ t.projects.closure .any owner.uri
                ∧ q.owns v = true)) :=
  ⟨within_of_further h builtins u,
    fun hlinked _ howner => mem_visible hlinked builtins howner⟩

/-- A project that has been linked, another one that it depends on and
that has not, and a document below the folder of each. -/
def underway : Store where
  entries :=
    [(Uri.ofString "/p/P.sysw", { Document.unread "" with
        stage := .linked
        content := some (.descriptor
          ⟨.project, "P", .empty 0, [⟨"Q", .empty 0⟩], ["src"]⟩) }),
      (Uri.ofString "/p/src/a.sysw", Document.unread ""),
      (Uri.ofString "/q/Q.sysw", { Document.unread "" with
        stage := .surveyed
        content := some (.descriptor
          ⟨.project, "Q", .empty 0, [], ["src"]⟩) }),
      (Uri.ofString "/q/src/b.sysw", Document.unread "")]
  nodup := by decide +kernel

/-- The same documents once the other project has been linked. -/
def opened : Store :=
  underway.modify (Uri.ofString "/q/Q.sysw") (·.advance .linked)

/-- By then the document below the folder of the other project has come
into sight. -/
theorem horizon_widens_opened :
    underway.Further opened
      ∧ (Horizon.of underway [] (Uri.ofString "/p/src/a.sysw")).Within
        (Horizon.of opened [] (Uri.ofString "/p/src/a.sysw"))
      ∧ (Horizon.of underway [] (Uri.ofString "/p/src/a.sysw")).visible.contains
        (Uri.ofString "/q/src/b.sysw") = false
      ∧ (Horizon.of opened [] (Uri.ofString "/p/src/a.sysw")).visible.contains
        (Uri.ofString "/q/src/b.sysw") = true
      ∧ (∀ p ∈ opened.projects, Stage.linked ≤ p.stage)
      ∧ ∃ owner vs, opened.projects.ownerOf? (Uri.ofString "/p/src/a.sysw")
          = some owner
        ∧ (Horizon.of opened [] (Uri.ofString "/p/src/a.sysw")).visible
          = .only vs
        ∧ ∀ v, v ∈ vs ↔ v ≠ Uri.ofString "/p/src/a.sysw"
          ∧ (v ∈ [] ∨ v ∈ opened.uris ∧ ∃ q ∈ opened.projects,
            q.uri ∈ opened.projects.closure .any owner.uri
              ∧ q.owns v = true) := by
  have hfurther : underway.Further opened := underway.further_advance _ _
  have hbefore : (Horizon.of underway []
      (Uri.ofString "/p/src/a.sysw")).visible.contains
        (Uri.ofString "/q/src/b.sysw") = false := by decide +kernel
  have hbehind : (Horizon.of opened []
      (Uri.ofString "/p/src/a.sysw")).visible.contains
        (Uri.ofString "/q/src/b.sysw") = true := by decide +kernel
  have hlinked : ∀ p ∈ opened.projects, Stage.linked ≤ p.stage := by
    decide +kernel
  have howned : (opened.projects.ownerOf?
      (Uri.ofString "/p/src/a.sysw")).isSome = true := by decide +kernel
  obtain ⟨owner, howner⟩ := Option.isSome_iff_exists.1 howned
  obtain ⟨hwithin, hvisible⟩ :=
    horizon_widens hfurther [] (Uri.ofString "/p/src/a.sysw")
  obtain ⟨vs, hvs, hmem⟩ := hvisible hlinked owner howner
  exact ⟨hfurther, hwithin, hbefore, hbehind, hlinked, owner, vs, howner,
    hvs, hmem⟩

end Horizon

end Purview
