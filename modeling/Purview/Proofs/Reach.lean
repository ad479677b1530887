/-
What the walks over the graph of projects reach. A walk carries the
projects it has not met, so every statement here is about a walk under
way: what it lists was not met before, is reached from where the walk
stands, and is closed under the edges that lead to something not met.
At the start nothing has been met, every edge leads to a loaded
project, and the three together say that the walk lists exactly what
can be reached (`mem_closure`).

The other use of a closure is as a key: what is remembered of it stays
right as long as the edges out of its members do, whatever happens to
the rest of the graph (`preorder_congr`).
-/
import Mathlib.Logic.Relation
import Purview.Project.Walk

namespace Purview.Walk

open Relation (ReflTransGen TransGen)

variable {α : Type} [DecidableEq α]

/-- Whether an edge leads from one to the other. -/
def Edge (next : α → List α) (u v : α) : Prop := v ∈ next u

-- ============================================================ depth first

/-- The walk from a stack whose top has not been met. -/
theorem preorder_of_mem (next : α → List α) {unmet : List α} {u : α}
    (hu : u ∈ unmet) (stack : List α) :
    preorder next unmet (u :: stack)
      = u :: preorder next (unmet.erase u) (next u ++ stack) := by
  rw [preorder, if_pos hu]

/-- The walk from a stack whose top has been met. -/
theorem preorder_of_not_mem (next : α → List α) {unmet : List α}
    {u : α} (hu : u ∉ unmet) (stack : List α) :
    preorder next unmet (u :: stack) = preorder next unmet stack := by
  rw [preorder, if_neg hu]

/-- A walk lists what was not met. -/
theorem preorder_subset (next : α → List α) (unmet stack : List α) :
    preorder next unmet stack ⊆ unmet := by
  fun_induction preorder next unmet stack with
  | case1 => simp
  | case2 unmet u stack hu ih =>
    intro v hv
    rcases List.mem_cons.1 hv with rfl | hv
    · exact hu
    · exact List.mem_of_mem_erase (ih hv)
  | case3 unmet u stack hu ih => exact ih

/-- A walk lists what can be reached from where it stands. -/
theorem preorder_reached (next : α → List α) (unmet stack : List α) :
    ∀ v ∈ preorder next unmet stack,
      ∃ u ∈ stack, ReflTransGen (Edge next) u v := by
  fun_induction preorder next unmet stack with
  | case1 => simp
  | case2 unmet u stack hu ih =>
    intro v hv
    rcases List.mem_cons.1 hv with rfl | hv
    · exact ⟨v, List.mem_cons_self, .refl⟩
    · obtain ⟨x, hx, hxv⟩ := ih v hv
      rcases List.mem_append.1 hx with hx | hx
      · exact ⟨u, List.mem_cons_self, .head hx hxv⟩
      · exact ⟨x, List.mem_cons_of_mem u hx, hxv⟩
  | case3 unmet u stack hu ih =>
    intro v hv
    obtain ⟨x, hx, hxv⟩ := ih v hv
    exact ⟨x, List.mem_cons_of_mem u hx, hxv⟩

/-- A walk lists whatever it stands on that was not met. -/
theorem mem_preorder_of_stack (next : α → List α)
    (unmet stack : List α) :
    ∀ v ∈ stack, v ∈ unmet → v ∈ preorder next unmet stack := by
  fun_induction preorder next unmet stack with
  | case1 => simp
  | case2 unmet u stack hu ih =>
    intro v hv hvu
    by_cases heq : v = u
    · exact heq ▸ List.mem_cons_self
    · have hstack : v ∈ stack := (List.mem_cons.1 hv).resolve_left heq
      have hleft : v ∈ unmet.erase u := (List.mem_erase_of_ne heq).2 hvu
      exact List.mem_cons_of_mem u
        (ih v (List.mem_append_right _ hstack) hleft)
  | case3 unmet u stack hu ih =>
    intro v hv hvu
    rcases List.mem_cons.1 hv with rfl | hv
    · exact absurd hvu hu
    · exact ih v hv hvu

/-- What a walk lists is closed under the edges to what was not met. -/
theorem preorder_closed (next : α → List α) (unmet stack : List α) :
    ∀ v ∈ preorder next unmet stack, ∀ x ∈ next v, x ∈ unmet →
      x ∈ preorder next unmet stack := by
  fun_induction preorder next unmet stack with
  | case1 => simp
  | case2 unmet u stack hu ih =>
    intro v hv x hx hxu
    by_cases heq : x = u
    · exact heq ▸ List.mem_cons_self
    · have hleft : x ∈ unmet.erase u := (List.mem_erase_of_ne heq).2 hxu
      refine List.mem_cons_of_mem u ?_
      rcases List.mem_cons.1 hv with rfl | hv
      · exact mem_preorder_of_stack _ _ _ x
          (List.mem_append_left _ hx) hleft
      · exact ih v hv x hx hleft
  | case3 unmet u stack hu ih => exact ih

/-- Where every edge leads to something that was not met at the start, a
walk lists exactly what can be reached. -/
theorem mem_preorder {next : α → List α} {unmet stack : List α}
    (hnext : ∀ u, next u ⊆ unmet) (hstack : stack ⊆ unmet) {v : α} :
    v ∈ preorder next unmet stack ↔
      ∃ u ∈ stack, ReflTransGen (Edge next) u v := by
  refine ⟨preorder_reached next unmet stack v, ?_⟩
  intro hcase
  rcases hcase with ⟨u, hu, huv⟩
  induction huv with
  | refl => exact mem_preorder_of_stack _ _ _ u hu (hstack hu)
  | tail _ hstep ih =>
    exact preorder_closed _ _ _ _ ih _ hstep (hnext _ hstep)

/-- A walk only asks for the edges of what it lists. -/
theorem preorder_congr {next next' : α → List α}
    (unmet stack : List α)
    (h : ∀ v ∈ preorder next unmet stack, next' v = next v) :
    preorder next' unmet stack = preorder next unmet stack := by
  fun_induction preorder next unmet stack with
  | case1 => simp [preorder]
  | case2 unmet u stack hu ih =>
    have hnext : next' u = next u := h u List.mem_cons_self
    rw [preorder_of_mem _ hu, hnext,
      ih fun v hv => h v (List.mem_cons_of_mem u hv)]
  | case3 unmet u stack hu ih =>
    rw [preorder_of_not_mem _ hu, ih h]

-- ========================================================== breadth first

/-- A breadth-first walk lists what follows its queue. -/
theorem layers_reached (next : α → List α) (unmet queue : List α) :
    ∀ v ∈ layers next unmet queue,
      ∃ u ∈ queue, TransGen (Edge next) u v := by
  fun_induction layers next unmet queue with
  | case1 => simp
  | case2 unmet u queue met ih =>
    intro v hv
    rcases List.mem_append.1 hv with hv | hv
    · exact ⟨u, List.mem_cons_self, .single (List.mem_filter.1 hv).1⟩
    · obtain ⟨x, hx, hxv⟩ := ih v hv
      rcases List.mem_append.1 hx with hx | hx
      · exact ⟨x, List.mem_cons_of_mem u hx, hxv⟩
      · exact ⟨u, List.mem_cons_self,
          .head (List.mem_filter.1 hx).1 hxv⟩

/-- A breadth-first walk lists what was not met. -/
theorem layers_subset (next : α → List α) (unmet queue : List α) :
    ∀ v ∈ layers next unmet queue, v ∈ unmet := by
  fun_induction layers next unmet queue with
  | case1 => simp
  | case2 unmet u queue met ih =>
    intro v hv
    rcases List.mem_append.1 hv with hv | hv
    · simpa using (List.mem_filter.1 hv).2
    · exact (List.mem_filter.1 (ih v hv)).1

end Purview.Walk

namespace Purview.Projects

open Relation (ReflTransGen TransGen)

variable (ps : Projects)

-- ================================================================ lookup

/-- Where identities are not repeated, a project is found at its own. -/
theorem get?_of_mem {ps : Projects} (hnd : (uris ps).Nodup)
    {p : Project} (hp : p ∈ ps) : get? ps p.uri = some p := by
  unfold get?
  induction ps with
  | nil => cases hp
  | cons q ps ih =>
    obtain ⟨hq, hnd⟩ := List.nodup_cons.1 hnd
    rcases List.mem_cons.1 hp with rfl | hp
    · simp
    · have hne : q.uri ≠ p.uri := fun heq =>
        hq (List.mem_map.2 ⟨p, hp, heq.symm⟩)
      rw [List.find?_cons_of_neg (by simpa using hne)]
      exact ih hnd hp

theorem isSome_get? (u : Uri) : (get? ps u).isSome ↔ u ∈ uris ps := by
  unfold get? uris
  simp [List.mem_map]

theorem uri_of_get? {ps : Projects} {u : Uri} {p : Project}
    (h : get? ps u = some p) : p ∈ ps ∧ p.uri = u :=
  ⟨List.mem_of_find?_eq_some h, by simpa using List.find?_some h⟩

/-- Where identities are not repeated, they tell projects apart. -/
theorem eq_of_uri {ps : Projects} (hnd : (uris ps).Nodup)
    {p q : Project} (hp : p ∈ ps) (hq : q ∈ ps) (h : p.uri = q.uri) :
    p = q :=
  Option.some.inj
    ((get?_of_mem hnd hp).symm.trans (h ▸ get?_of_mem hnd hq))

/-- The owner of a name is one of the projects. -/
theorem mem_of_named? {ps : Projects} {name : String} {p : Project}
    (h : named? ps name = some p) : p ∈ ps :=
  List.mem_of_find?_eq_some h

/-- Every edge leads to a loaded project. -/
theorem targets_subset (policy : EdgePolicy) (u : Uri) :
    targets ps policy u ⊆ uris ps := by
  intro v hv
  unfold targets at hv
  split at hv
  · cases hv
  · obtain ⟨d, -, hd⟩ := List.mem_filterMap.1 hv
    obtain ⟨q, hq, rfl⟩ := Option.map_eq_some_iff.1 hd
    have hq := (Option.filter_eq_some_iff.1 hq).1
    exact List.mem_map.2 ⟨q, mem_of_named? hq, rfl⟩

-- =============================================================== closure

/-- A closure has exactly what can be reached from a project. -/
theorem mem_closure {policy : EdgePolicy} {root v : Uri} :
    v ∈ closure ps policy root ↔
      root ∈ uris ps
        ∧ ReflTransGen (Walk.Edge (targets ps policy)) root v := by
  by_cases hroot : root ∈ uris ps
  · have hstack : [root] ⊆ uris ps := by simpa using hroot
    rw [closure, Walk.mem_preorder (targets_subset ps policy) hstack]
    simp [hroot]
  · rw [closure, Walk.preorder_of_not_mem _ hroot, Walk.preorder]
    simp [hroot]

/-- A dependency is followed to a project: of the projects with its name
that one was loaded first, and the policy lets it be entered. -/
def FollowedTo (policy : EdgePolicy) (d : Dependency) (q : Project) :
    Prop :=
  (∃ before after, ps = before ++ q :: after ∧ q.descriptor.name = d.name
      ∧ ∀ r ∈ before, r.descriptor.name ≠ d.name)
    ∧ (policy = .linked → Stage.linked ≤ q.stage)

/-- One of the dependencies of a project is followed to the other. -/
def LeadsTo (policy : EdgePolicy) (p q : Project) : Prop :=
  ∃ d ∈ p.descriptor.dependencies, FollowedTo ps policy d q

theorem followedTo_iff {policy : EdgePolicy} {d : Dependency}
    {q : Project} :
    FollowedTo ps policy d q
      ↔ (named? ps d.name).filter policy.admits = some q := by
  have hadmits : policy.admits q = true
      ↔ (policy = .linked → Stage.linked ≤ q.stage) := by
    cases policy <;> simp [EdgePolicy.admits]
  rw [Option.filter_eq_some_iff, hadmits, named?,
    List.find?_eq_some_iff_append]
  simp only [FollowedTo, decide_eq_true_eq, Bool.not_eq_true',
    decide_eq_false_iff_not]
  refine and_congr_left fun _ => ⟨?_, ?_⟩
  · rintro ⟨before, after, hps, hname, hfirst⟩
    exact ⟨hname, before, after, hps, hfirst⟩
  · rintro ⟨hname, before, after, hps, hfirst⟩
    exact ⟨before, after, hps, hname, hfirst⟩

/-- Where identities are not repeated, the targets of a project are the
projects that it leads to. -/
theorem mem_targets {ps : Projects} (hnd : (uris ps).Nodup)
    {policy : EdgePolicy} {p : Project} (hp : p ∈ ps) {v : Uri} :
    v ∈ targets ps policy p.uri
      ↔ ∃ q ∈ ps, q.uri = v ∧ LeadsTo ps policy p q := by
  rw [targets, get?_of_mem hnd hp]
  simp only [edges, List.mem_filterMap, Option.map_eq_some_iff, LeadsTo,
    followedTo_iff]
  constructor
  · rintro ⟨d, hd, q, hq, hv⟩
    exact ⟨q, mem_of_named? (Option.filter_eq_some_iff.1 hq).1, hv,
      d, hd, hq⟩
  · rintro ⟨q, -, hv, d, hd, hq⟩
    exact ⟨d, hd, q, hq, hv⟩

/-- The closure of a project has the projects that it leads to by any
number of steps. -/
theorem mem_closure_of_mem {ps : Projects} (hnd : (uris ps).Nodup)
    {policy : EdgePolicy} {p : Project} (hp : p ∈ ps) {v : Uri} :
    v ∈ closure ps policy p.uri
      ↔ ∃ q ∈ ps, q.uri = v ∧ ReflTransGen (LeadsTo ps policy) p q := by
  rw [mem_closure]
  constructor
  · rintro ⟨-, hway⟩
    induction hway with
    | refl => exact ⟨p, hp, rfl, .refl⟩
    | tail _ hstep ih =>
      obtain ⟨q, hq, rfl, hpq⟩ := ih
      obtain ⟨r, hr, hrv, hqr⟩ := (mem_targets hnd hq).1 hstep
      exact ⟨r, hr, hrv, hpq.tail hqr⟩
  · rintro ⟨q, hq, rfl, hway⟩
    refine ⟨List.mem_map_of_mem hp, ?_⟩
    clear hq
    -- along the way every project is a loaded one
    have hreach : q ∈ ps
        ∧ ReflTransGen (Walk.Edge (targets ps policy)) p.uri q.uri := by
      induction hway with
      | refl => exact ⟨hp, .refl⟩
      | tail _ hstep ih =>
        have hr := hstep
        obtain ⟨d, -, hd⟩ := hr
        have hmem := mem_of_named?
          (Option.filter_eq_some_iff.1 ((followedTo_iff ps).1 hd)).1
        exact ⟨hmem, ih.2.tail
          ((mem_targets hnd ih.1).2 ⟨_, hmem, rfl, hstep⟩)⟩
    exact hreach.2

/-- Where identities are not repeated, the projects with an edge to a
given one are those it is a target of. -/
theorem mem_targets_of_mem_sources {ps : Projects}
    (hnd : (uris ps).Nodup) {u v : Uri} (h : v ∈ sources ps u) :
    u ∈ targets ps .any v := by
  obtain ⟨p, hp, rfl⟩ := List.mem_map.1 h
  obtain ⟨hp, hu⟩ := List.mem_filter.1 hp
  have hedge : u ∈ edges ps .any p := by simpa using hu
  rw [targets, get?_of_mem hnd hp]
  exact hedge

/-- Dependents are other projects. -/
theorem mem_of_mem_dependents {u v : Uri} (h : v ∈ dependents ps u) :
    v ∈ uris ps ∧ v ≠ u := by
  simpa using Walk.layers_subset _ _ _ v h

/-- A dependent has a way of dependencies to the project. -/
theorem reaches_of_mem_dependents {ps : Projects}
    (hnd : (uris ps).Nodup) {u v : Uri} (h : v ∈ dependents ps u) :
    ReflTransGen (Walk.Edge (targets ps .any)) v u := by
  obtain ⟨x, hx, hxv⟩ := Walk.layers_reached _ _ _ v h
  obtain rfl := List.mem_singleton.1 hx
  clear h hx
  induction hxv with
  | single hstep =>
    exact .single (mem_targets_of_mem_sources hnd hstep)
  | tail _ hstep ih =>
    exact .head (mem_targets_of_mem_sources hnd hstep) ih

end Purview.Projects
