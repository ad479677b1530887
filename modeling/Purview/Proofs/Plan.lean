/-
What of the graph of projects does not hang on stages. Names, owners
and the edges as they stand are read off the identities and descriptors
alone (`Projects.plan`); stages only decide which edges a closure over
linked projects follows, and where every project has been linked, it
follows all of them (`closure_linked`). So a request that moves
projects between stages, and no descriptor, leaves owners, dependents
and dependency facts alone, and once it is done closures too.
-/
import Purview.Proofs.Batch

namespace Purview

namespace Projects

/-- The projects without their stages. -/
def plan (ps : Projects) : List (Uri × Descriptor) :=
  ps.map fun p => (p.uri, p.descriptor)

variable {ps qs : Projects}

/-- A search that does not look at stages finds one project or the
other. -/
theorem find?_of_plan (h : plan ps = plan qs) {test : Project → Bool}
    (htest : ∀ p q : Project, p.uri = q.uri →
      p.descriptor = q.descriptor → test p = test q) :
    (ps.find? test).map (fun p => (p.uri, p.descriptor))
      = (qs.find? test).map fun p => (p.uri, p.descriptor) := by
  induction ps generalizing qs with
  | nil =>
    cases qs with
    | nil => rfl
    | cons q qs => cases h
  | cons p ps ih =>
    cases qs with
    | nil => cases h
    | cons q qs =>
      obtain ⟨hpq, hrest⟩ := List.cons.inj h
      obtain ⟨huri, hdescriptor⟩ := Prod.mk.inj hpq
      rw [List.find?_cons, List.find?_cons,
        htest p q huri hdescriptor]
      cases test q with
      | true => exact congrArg some hpq
      | false => exact ih hrest

/-- A choice that does not look at stages chooses the same projects. -/
theorem filter_of_plan (h : plan ps = plan qs) {test : Project → Bool}
    (htest : ∀ p q : Project, p.uri = q.uri →
      p.descriptor = q.descriptor → test p = test q) :
    plan (ps.filter test) = plan (qs.filter test) := by
  induction ps generalizing qs with
  | nil =>
    cases qs with
    | nil => rfl
    | cons q qs => cases h
  | cons p ps ih =>
    cases qs with
    | nil => cases h
    | cons q qs =>
      obtain ⟨hpq, hrest⟩ := List.cons.inj h
      obtain ⟨huri, hdescriptor⟩ := Prod.mk.inj hpq
      rw [List.filter_cons, List.filter_cons,
        htest p q huri hdescriptor]
      split
      · exact congrArg₂ List.cons hpq (ih hrest)
      · exact ih hrest

theorem uris_of_plan (h : plan ps = plan qs) : uris ps = uris qs := by
  have huris : ∀ rs : Projects, uris rs = (plan rs).map Prod.fst := by
    intro rs
    unfold uris plan
    rw [List.map_map]
    rfl
  rw [huris, huris, h]

/-- The same project is found at an identity, its stage apart. -/
theorem get?_of_plan (h : plan ps = plan qs) (u : Uri) :
    (get? ps u).map (fun p => (p.uri, p.descriptor))
      = (get? qs u).map fun p => (p.uri, p.descriptor) :=
  find?_of_plan h fun p q huri _ => by simp only [huri]

/-- The same project is found by a name. -/
theorem named?_of_plan (h : plan ps = plan qs) (name : String) :
    (named? ps name).map (fun p => (p.uri, p.descriptor))
      = (named? qs name).map fun p => (p.uri, p.descriptor) :=
  find?_of_plan h fun p q _ hdescriptor => by simp only [hdescriptor]

/-- And the same project owns a document. -/
theorem ownerOf?_of_plan (h : plan ps = plan qs) (u : Uri) :
    (ownerOf? ps u).map (fun p => (p.uri, p.descriptor))
      = (ownerOf? qs u).map fun p => (p.uri, p.descriptor) :=
  find?_of_plan h fun p q huri hdescriptor => by
    simp only [Project.owns, Project.folders, huri, hdescriptor]

theorem resolves_of_plan (h : plan ps = plan qs) (d : Dependency) :
    resolves ps d = resolves qs d := by
  have hnamed := congrArg Option.isSome (named?_of_plan h d.name)
  simpa [resolves] using hnamed

-- =============================================================== edges

/-- An edge as it stands leads to the owner of the name. -/
theorem edges_any (ps : Projects) (p : Project) :
    edges ps .any p
      = p.descriptor.dependencies.filterMap fun d =>
          (named? ps d.name).map (·.uri) := by
  unfold edges
  refine List.filterMap_congr fun d _ => ?_
  cases named? ps d.name with
  | none => rfl
  | some q => rfl

/-- The edges out of a project lead to the same ones. -/
theorem edges_of_plan (h : plan ps = plan qs) {p q : Project}
    (hpq : p.descriptor = q.descriptor) :
    edges ps .any p = edges qs .any q := by
  rw [edges_any, edges_any, hpq]
  refine List.filterMap_congr fun d _ => ?_
  have hnamed := congrArg (Option.map Prod.fst)
    (named?_of_plan h d.name)
  simpa [Option.map_map, Function.comp_def] using hnamed

theorem targets_of_plan (h : plan ps = plan qs) (u : Uri) :
    targets ps .any u = targets qs .any u := by
  have hget := get?_of_plan h u
  unfold targets
  cases hp : get? ps u with
  | none =>
    rw [hp] at hget
    rw [Option.map_eq_none_iff.1 hget.symm]
  | some p =>
    rw [hp] at hget
    obtain ⟨q, hq, hpq⟩ := Option.map_eq_some_iff.1 hget.symm
    rw [hq]
    exact edges_of_plan h (Prod.mk.inj hpq).2.symm

theorem sources_of_plan (h : plan ps = plan qs) (u : Uri) :
    sources ps u = sources qs u := by
  have hedges : ∀ p : Project,
      decide (u ∈ edges ps .any p) = decide (u ∈ edges qs .any p) :=
    fun p => by rw [edges_of_plan h rfl]
  unfold sources
  simp only [hedges]
  exact uris_of_plan (filter_of_plan h fun p q _ hdescriptor => by
    rw [edges_of_plan rfl hdescriptor])

/-- Where every project has been linked, every edge is followed. -/
theorem targets_linked (h : ∀ p ∈ ps, Stage.linked ≤ p.stage) (u : Uri) :
    targets ps .linked u = targets ps .any u := by
  unfold targets
  split
  · rfl
  · rw [edges_any]
    unfold edges
    refine List.filterMap_congr fun d _ => ?_
    cases hq : named? ps d.name with
    | none => rfl
    | some q =>
      have hlinked : EdgePolicy.linked.admits q = true :=
        decide_eq_true (h q (mem_of_named? hq))
      rw [Option.filter_some, if_pos hlinked]

/-- Where all projects are linked, closures of the linked ones are those
of all. -/
theorem closure_linked (h : ∀ p ∈ ps, Stage.linked ≤ p.stage)
    (root : Uri) : closure ps .linked root = closure ps .any root := by
  unfold closure
  rw [funext (targets_linked h)]

/-- A project has the same dependents. -/
theorem dependents_of_plan (h : plan ps = plan qs) (u : Uri) :
    dependents ps u = dependents qs u := by
  unfold dependents
  rw [uris_of_plan h, funext (sources_of_plan h)]

-- ======================================================= owners, facts

/-- A change to a document concerns the same projects. -/
theorem affectedByDocument_of_plan (h : plan ps = plan qs) (u : Uri) :
    affectedByDocument ps u = affectedByDocument qs u := by
  have howner := ownerOf?_of_plan h u
  unfold affectedByDocument
  cases hp : ownerOf? ps u with
  | none =>
    rw [hp] at howner
    rw [Option.map_eq_none_iff.1 howner.symm]
  | some p =>
    rw [hp] at howner
    obtain ⟨q, hq, hpq⟩ := Option.map_eq_some_iff.1 howner.symm
    rw [hq]
    dsimp only
    rw [dependents_of_plan h, (Prod.mk.inj hpq).1]

/-- The same dependencies lead nowhere. -/
theorem unresolved_of_plan (h : plan ps = plan qs) (u : Uri) :
    unresolved ps u = unresolved qs u := by
  have hget := get?_of_plan h u
  have hresolves := funext (resolves_of_plan h)
  unfold unresolved
  rw [hresolves]
  cases hp : get? ps u with
  | none =>
    rw [hp] at hget
    rw [Option.map_eq_none_iff.1 hget.symm]
  | some p =>
    rw [hp] at hget
    obtain ⟨q, hq, hpq⟩ := Option.map_eq_some_iff.1 hget.symm
    rw [hq]
    dsimp only
    rw [(Prod.mk.inj hpq).2]

theorem withUnresolved_of_plan (h : plan ps = plan qs) :
    withUnresolved ps = withUnresolved qs := by
  unfold withUnresolved
  simp only [resolves_of_plan h]
  exact uris_of_plan (filter_of_plan h fun p q _ hdescriptor => by
    rw [hdescriptor])

/-- So does one to a project. -/
theorem affectedByProject_of_plan (h : plan ps = plan qs) (u : Uri) :
    affectedByProject ps u = affectedByProject qs u := by
  unfold affectedByProject
  rw [dependents_of_plan h, withUnresolved_of_plan h]

/-- The way back to a project is the same, if there is one. -/
theorem cycle?_of_plan (h : plan ps = plan qs) (u : Uri) :
    cycle? ps u = cycle? qs u := by
  have hname : ∀ v, (get? ps v).map (·.descriptor.name)
      = (get? qs v).map (·.descriptor.name) := by
    intro v
    have hget := congrArg (Option.map fun k : Uri × Descriptor =>
      k.2.name) (get?_of_plan h v)
    rw [Option.map_map, Option.map_map] at hget
    exact hget
  have hway : ∀ way : List Uri,
      (way.filterMap (get? ps)).map (·.descriptor.name)
        = (way.filterMap (get? qs)).map (·.descriptor.name) := by
    intro way
    rw [List.map_filterMap, List.map_filterMap]
    exact List.filterMap_congr fun v _ => hname v
  have hu := hname u
  unfold cycle?
  rw [funext (targets_of_plan h), uris_of_plan h]
  cases hp : get? ps u with
  | none =>
    rw [hp] at hu
    rw [Option.map_eq_none_iff.1 hu.symm]
  | some p =>
    rw [hp] at hu
    obtain ⟨q, hq, hpq⟩ := Option.map_eq_some_iff.1 hu.symm
    rw [hq]
    simp only [hway, hpq]

/-- So a project is told the same of its dependencies. -/
theorem facts_of_plan (h : plan ps = plan qs) (u : Uri) :
    facts ps u = facts qs u := by
  unfold facts
  rw [unresolved_of_plan h, cycle?_of_plan h]

end Projects

namespace Store

/-- The projects among the documents, without their stages. -/
def plan (s : Store) : List (Uri × Descriptor) := s.projects.plan

/-- The plan, document by document. -/
theorem plan_eq_filterMap (s : Store) :
    s.plan = s.uris.filterMap fun v =>
      (s.get? v).bind fun d => d.descriptor?.map fun x => (v, x) := by
  unfold plan Projects.plan
  rw [projects_eq_filterMap, List.map_filterMap]
  refine List.filterMap_congr fun v _ => ?_
  cases s.get? v with
  | none => rfl
  | some d =>
    unfold Project.ofEntry?
    simp only [Option.bind_some, Option.map_map]
    rfl

/-- Plans are compared document by document. -/
theorem plan_congr {s t : Store} (huris : t.uris = s.uris)
    (h : ∀ u, (t.get? u).bind Document.descriptor?
      = (s.get? u).bind Document.descriptor?) : t.plan = s.plan := by
  rw [plan_eq_filterMap, plan_eq_filterMap, huris]
  refine List.filterMap_congr fun v _ => ?_
  have hmap := congrArg (Option.map fun x => (v, x)) (h v)
  simpa only [Option.map_bind, Function.comp_def] using hmap

/-- What keeps descriptors leaves the graph alone. -/
theorem plan_alter {s : Store} {f : Uri → Document → Document}
    (hf : ∀ v d, s.get? v = some d →
      (f v d).descriptor? = d.descriptor?) : (s.alter f).plan = s.plan := by
  refine plan_congr (s.uris_alter f) fun v => ?_
  rw [get?_alter]
  cases hd : s.get? v with
  | none => rfl
  | some d => exact hf v d hd

end Store

end Purview
