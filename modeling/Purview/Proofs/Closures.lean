/-
What closures list, and in which order. The walk keeps a stack on which
a project may stand several times, because it is put there by everybody
who depends on it and only passed over when it comes up again. The order
is that of the search which needs no stack at all: a project is listed
and everything that it leads to searched, one dependency after the
other, before the next dependency of whoever led to it is looked at
(`Visits`).

The two agree because searching a stack is searching its top and then
the rest with what has been listed by then (`search_append`): to put the
targets of a project on top of the stack is to search them first. What
has been listed by then is what the walk has met, and what it has not
met is the measure by which it ends, on whatever graph.

The dependents of a project are listed by a walk against the edges that
knows nothing of closures. They are its inverse all the same, because
both list whatever their walk can reach.
-/
import Purview.Proofs.Cycles

namespace Purview.Walk

variable {α : Type}

-- ============================================================ recursion

/-- The recursive search: from `us` on, with some listed before it, it
comes to a list. Who is listed already is passed over, and who is not is
listed and searched from before the search goes on. -/
inductive Search (next : α → List α) :
    List α → List α → List α → Prop
  | done {listed : List α} : Search next listed [] listed
  | passed {listed us out : List α} {u : α} (met : u ∈ listed)
      (later : Search next listed us out) :
      Search next listed (u :: us) out
  | entered {listed us mid out : List α} {u : α} (new : u ∉ listed)
      (within : Search next (listed ++ [u]) (next u) mid)
      (later : Search next mid us out) :
      Search next listed (u :: us) out

/-- To search one list behind another is to search them in turn. -/
theorem search_append {next : α → List α} {listed us vs out : List α}
    (h : Search next listed (us ++ vs) out) :
    ∃ mid, Search next listed us mid ∧ Search next mid vs out := by
  induction us generalizing listed with
  | nil => exact ⟨listed, .done, h⟩
  | cons u us ih =>
    cases h with
    | passed met later =>
      obtain ⟨mid, hus, hvs⟩ := ih later
      exact ⟨mid, .passed met hus, hvs⟩
    | entered new within later =>
      obtain ⟨mid, hus, hvs⟩ := ih later
      exact ⟨mid, .entered new within hus, hvs⟩

/-- What has not been met is what is not listed, each once. -/
structure Remaining (all listed unmet : List α) : Prop where
  nodup : unmet.Nodup
  mem : ∀ v, v ∈ unmet ↔ v ∈ all ∧ v ∉ listed

theorem remaining_all {all : List α} (h : all.Nodup) :
    Remaining all [] all :=
  ⟨h, fun v => by simp⟩

variable [DecidableEq α]

theorem Remaining.meet {all listed unmet : List α}
    (h : Remaining all listed unmet) (u : α) :
    Remaining all (listed ++ [u]) (unmet.erase u) := by
  refine ⟨h.nodup.erase u, fun v => ?_⟩
  rw [h.nodup.mem_erase_iff, h.mem, List.mem_append, List.mem_singleton,
    not_or]
  tauto

theorem Remaining.listed {all listed unmet : List α}
    (h : Remaining all listed unmet) {u : α} (hall : u ∈ all)
    (hu : u ∉ unmet) : u ∈ listed := by
  by_contra hnew
  exact hu ((h.mem u).2 ⟨hall, hnew⟩)

/-- The walk with a stack lists what the recursive search lists, in the
same order. -/
theorem search_preorder {next : α → List α} {all : List α}
    (hnext : ∀ u, next u ⊆ all) {listed unmet stack : List α}
    (hleft : Remaining all listed unmet) (hstack : stack ⊆ all) :
    Search next listed stack (listed ++ preorder next unmet stack) := by
  fun_induction preorder next unmet stack generalizing listed with
  | case1 => simpa using Search.done
  | case2 unmet u stack hu ih =>
    have hmore : next u ++ stack ⊆ all :=
      List.append_subset.2 ⟨hnext u, (List.cons_subset.1 hstack).2⟩
    obtain ⟨mid, hwithin, hlater⟩ :=
      search_append (ih (hleft.meet u) hmore)
    rw [List.append_assoc, List.singleton_append] at hlater
    exact .entered ((hleft.mem u).1 hu).2 hwithin hlater
  | case3 unmet u stack hu ih =>
    obtain ⟨hall, hstack⟩ := List.cons_subset.1 hstack
    exact .passed (hleft.listed hall hu) (ih hleft hstack)

/-- A walk lists nobody twice. -/
theorem nodup_preorder (next : α → List α) {unmet : List α}
    (h : unmet.Nodup) (stack : List α) :
    (preorder next unmet stack).Nodup := by
  fun_induction preorder next unmet stack with
  | case1 => exact List.nodup_nil
  | case2 unmet u stack hu ih =>
    refine List.nodup_cons.2 ⟨fun hmem => ?_, ih (h.erase u)⟩
    exact h.not_mem_erase (preorder_subset next _ _ hmem)
  | case3 unmet u stack hu ih => exact ih h

-- ============================================================ iteration

/-- One turn of the loop that keeps a stack. Whoever comes up and has
not been listed yet is listed, and those of its targets that have not
been listed are put on top. -/
def turn (next : α → List α) : List α × List α → List α × List α
  | (listed, []) => (listed, [])
  | (listed, u :: stack) =>
    if u ∈ listed then (listed, stack)
    else
      (listed ++ [u], (next u).filter (· ∉ listed ++ [u]) ++ stack)

/-- Whoever has been listed is taken off the stack again. -/
theorem turns_listed (next : α → List α) {listed us : List α}
    (h : ∀ u ∈ us, u ∈ listed) (stack : List α) :
    (turn next)^[us.length] (listed, us ++ stack) = (listed, stack) := by
  induction us with
  | nil => rfl
  | cons u us ih =>
    obtain ⟨hu, hus⟩ := List.forall_mem_cons.1 h
    rw [List.length_cons, Function.iterate_succ_apply, List.cons_append,
      turn, if_pos hu]
    exact ih hus

theorem filter_unlisted (listed : List α) (u : α) (us : List α) :
    us.filter (· ∉ listed ++ [u])
      = (us.filter (· ∉ listed)).filter (· ≠ u) := by
  simp [List.filter_filter, and_comm]

/-- The loop ends, and has listed what the walk lists. Its stack may
differ from that of the walk in projects that have been listed. -/
theorem turns_preorder {next : α → List α} {all : List α}
    {listed unmet stack pile : List α}
    (hleft : Remaining all listed unmet) (hstack : stack ⊆ all)
    (hnext : ∀ u, next u ⊆ all)
    (hpile : pile.filter (· ∉ listed) = stack.filter (· ∉ listed)) :
    ∃ n, (turn next)^[n] (listed, pile)
      = (listed ++ preorder next unmet stack, []) := by
  fun_induction preorder next unmet stack generalizing listed pile with
  | case1 unmet =>
    have hmet : ∀ u ∈ pile, u ∈ listed := by
      simpa [List.filter_eq_nil_iff] using hpile
    refine ⟨pile.length, ?_⟩
    simpa using turns_listed next hmet []
  | case2 unmet u stack hu ih =>
    have hnew : u ∉ listed := ((hleft.mem u).1 hu).2
    rw [List.filter_cons_of_pos (by simpa using hnew)] at hpile
    obtain ⟨front, back, rfl, hfront, -, hback⟩ :=
      List.filter_eq_cons_iff.1 hpile
    have hmore : next u ++ stack ⊆ all :=
      List.append_subset.2 ⟨hnext u, (List.cons_subset.1 hstack).2⟩
    have hsame : ((next u).filter (· ∉ listed ++ [u]) ++ back).filter
          (· ∉ listed ++ [u])
        = (next u ++ stack).filter (· ∉ listed ++ [u]) := by
      have hrest : back.filter (· ∉ listed ++ [u])
          = stack.filter (· ∉ listed ++ [u]) := by
        rw [filter_unlisted, hback, ← filter_unlisted]
      rw [List.filter_append, List.filter_filter, List.filter_append,
        hrest]
      simp
    obtain ⟨n, hn⟩ := ih (hleft.meet u) hmore hsame
    refine ⟨n + (1 + front.length), ?_⟩
    rw [Function.iterate_add_apply, Function.iterate_add_apply,
      turns_listed next (by simpa using hfront), Function.iterate_one, turn,
      if_neg hnew, hn, List.append_assoc, List.singleton_append]
  | case3 unmet u stack hu ih =>
    obtain ⟨hall, hstack⟩ := List.cons_subset.1 hstack
    have hmet : u ∈ listed := hleft.listed hall hu
    rw [List.filter_cons_of_neg (by simpa using hmet)] at hpile
    exact ih hleft hstack hpile

end Purview.Walk

namespace Purview.Projects

variable {ps : Projects} {policy : EdgePolicy}

/-- The recursive search over dependencies, in the order of their
declaration: from some of them on, with some projects listed before it,
it comes to a list. A project that a dependency is followed to is listed
and its own dependencies searched before the next one is looked at. -/
inductive Visits (ps : Projects) (policy : EdgePolicy) :
    List Uri → List Dependency → List Uri → Prop
  | done {listed : List Uri} : Visits ps policy listed [] listed
  | dropped {listed out : List Uri} {d : Dependency}
      {ds : List Dependency} (nowhere : ∀ q, ¬ FollowedTo ps policy d q)
      (later : Visits ps policy listed ds out) :
      Visits ps policy listed (d :: ds) out
  | passed {listed out : List Uri} {d : Dependency}
      {ds : List Dependency} {q : Project}
      (followed : FollowedTo ps policy d q) (met : q.uri ∈ listed)
      (later : Visits ps policy listed ds out) :
      Visits ps policy listed (d :: ds) out
  | entered {listed mid out : List Uri} {d : Dependency}
      {ds : List Dependency} {q : Project}
      (followed : FollowedTo ps policy d q) (new : q.uri ∉ listed)
      (within : Visits ps policy (listed ++ [q.uri])
        q.descriptor.dependencies mid)
      (later : Visits ps policy mid ds out) :
      Visits ps policy listed (d :: ds) out

theorem FollowedTo.unique {d : Dependency} {q r : Project}
    (hq : FollowedTo ps policy d q) (hr : FollowedTo ps policy d r) :
    q = r :=
  Option.some.inj
    (((followedTo_iff ps).1 hq).symm.trans ((followedTo_iff ps).1 hr))

/-- The recursive search comes to one list only. -/
theorem Visits.unique {listed out out' : List Uri} {ds : List Dependency}
    (h : Visits ps policy listed ds out)
    (h' : Visits ps policy listed ds out') : out' = out := by
  induction h generalizing out' with
  | done => cases h'; rfl
  | dropped nowhere _ ih =>
    cases h' with
    | dropped _ later => exact ih later
    | passed followed | entered followed =>
      exact absurd followed (nowhere _)
  | passed followed met _ ih =>
    cases h' with
    | dropped nowhere => exact absurd followed (nowhere _)
    | passed _ _ later => exact ih later
    | entered followed' new =>
      exact absurd (followed.unique followed' ▸ met) new
  | entered followed new _ _ ihwithin ihlater =>
    cases h' with
    | dropped nowhere => exact absurd followed (nowhere _)
    | passed followed' met =>
      exact absurd met (followed.unique followed' ▸ new)
    | entered followed' _ within later =>
      obtain rfl := followed.unique followed'
      obtain rfl := ihwithin within
      exact ihlater later

/-- Dependencies that are followed nowhere do not count. -/
theorem Visits.skip {listed out : List Uri} {ds es : List Dependency}
    (hnowhere : ∀ d ∈ ds, ∀ q, ¬ FollowedTo ps policy d q)
    (h : Visits ps policy listed es out) :
    Visits ps policy listed (ds ++ es) out := by
  induction ds with
  | nil => exact h
  | cons d ds ih =>
    obtain ⟨hd, hds⟩ := List.forall_mem_cons.1 hnowhere
    exact .dropped hd (ih hds)

/-- The projects that dependencies are followed to, in order. -/
def followed (ps : Projects) (policy : EdgePolicy)
    (ds : List Dependency) : List Uri :=
  ds.filterMap fun d =>
    ((named? ps d.name).filter policy.admits).map (·.uri)

theorem not_followedTo {d : Dependency}
    (h : ((named? ps d.name).filter policy.admits).map (·.uri) = none)
    (q : Project) : ¬ FollowedTo ps policy d q := by
  rw [followedTo_iff, Option.map_eq_none_iff.1 h]
  exact (Option.some_ne_none q).symm

/-- The first project that dependencies are followed to is the target of
one of them, and those before it are followed nowhere. -/
theorem followed_eq_cons {ds : List Dependency} {u : Uri} {us : List Uri}
    (h : followed ps policy ds = u :: us) :
    ∃ front d back q, ds = front ++ d :: back
      ∧ (∀ e ∈ front, ∀ q, ¬ FollowedTo ps policy e q)
      ∧ FollowedTo ps policy d q ∧ q.uri = u
      ∧ followed ps policy back = us := by
  obtain ⟨front, d, back, rfl, hfront, hd, hback⟩ :=
    List.filterMap_eq_cons_iff.1 h
  obtain ⟨q, hq, hu⟩ := Option.map_eq_some_iff.1 hd
  exact ⟨front, d, back, q, rfl, fun e he => not_followedTo (hfront e he),
    (followedTo_iff ps).2 hq, hu, hback⟩

/-- The targets of a project that is followed to are where its own
dependencies are followed to. -/
theorem FollowedTo.targets (hnd : (uris ps).Nodup) {d : Dependency}
    {q : Project} (h : FollowedTo ps policy d q) :
    targets ps policy q.uri
      = followed ps policy q.descriptor.dependencies := by
  have hmem := mem_of_named?
    (Option.filter_eq_some_iff.1 ((followedTo_iff ps).1 h)).1
  rw [Projects.targets, get?_of_mem hnd hmem]
  rfl

/-- To search from where dependencies are followed to is to search the
dependencies. -/
theorem visits_of_search (hnd : (uris ps).Nodup)
    {listed us out : List Uri} {ds : List Dependency}
    (h : Walk.Search (targets ps policy) listed us out)
    (hds : followed ps policy ds = us) :
    Visits ps policy listed ds out := by
  induction h generalizing ds with
  | done =>
    have hnowhere := List.filterMap_eq_nil_iff.1 hds
    rw [← List.append_nil ds]
    exact .skip (fun d hd => not_followedTo (hnowhere d hd)) .done
  | passed met _ ih =>
    obtain ⟨front, d, back, q, rfl, hfront, hq, rfl, hback⟩ :=
      followed_eq_cons hds
    exact .skip hfront (.passed hq met (ih hback))
  | entered new _ _ ihwithin ihlater =>
    obtain ⟨front, d, back, q, rfl, hfront, hq, rfl, hback⟩ :=
      followed_eq_cons hds
    exact .skip hfront
      (.entered hq new (ihwithin (hq.targets hnd).symm) (ihlater hback))

/-- From a project the recursive search comes to its closure, and to
nothing else. -/
theorem visits_iff (hnd : (uris ps).Nodup) {p : Project} (hp : p ∈ ps)
    {out : List Uri} :
    Visits ps policy [p.uri] p.descriptor.dependencies out
      ↔ out = closure ps policy p.uri := by
  have hroot : [p.uri] ⊆ uris ps :=
    List.cons_subset.2 ⟨List.mem_map_of_mem hp, List.nil_subset _⟩
  have hsearch : Walk.Search (targets ps policy) [] [p.uri]
      (closure ps policy p.uri) :=
    Walk.search_preorder (targets_subset ps policy)
      (Walk.remaining_all hnd) hroot
  have hvisits : Visits ps policy [p.uri] p.descriptor.dependencies
      (closure ps policy p.uri) := by
    cases hsearch with
    | passed met => cases met
    | entered _ within later =>
      cases later
      refine visits_of_search hnd within ?_
      rw [targets, get?_of_mem hnd hp]
      rfl
  exact ⟨hvisits.unique, fun h => h ▸ hvisits⟩

theorem nodup_closure (hnd : (uris ps).Nodup) (root : Uri) :
    (closure ps policy root).Nodup :=
  Walk.nodup_preorder _ hnd [root]

end Purview.Projects

namespace Purview.Store

open Relation (ReflTransGen)

/-- A closure is empty unless it starts from a project. From a project it
lists, once each, the projects that it leads to by any number of steps,
in the order of the recursive search; and the loop that keeps a stack
ends with it. -/
theorem closure_visits (s : Store) (policy : EdgePolicy) (root : Uri) :
    if s.isProject root then
      ∃ p ∈ s.projects, p.uri = root
        ∧ (s.projects.closure policy root).Nodup
        ∧ (∀ v, v ∈ s.projects.closure policy root
          ↔ ∃ q ∈ s.projects, q.uri = v
            ∧ ReflTransGen (s.projects.LeadsTo policy) p q)
        ∧ (∀ out, s.projects.Visits policy [root]
            p.descriptor.dependencies out
          ↔ out = s.projects.closure policy root)
        ∧ ∃ n, (Walk.turn (s.projects.targets policy))^[n] ([], [root])
          = (s.projects.closure policy root, [])
    else s.projects.closure policy root = [] := by
  have hnd := s.uris_projects_nodup
  split
  · next hproject =>
    have hroot := isProject_iff.1 hproject
    obtain ⟨p, hp, rfl⟩ := List.mem_map.1 hroot
    refine ⟨p, hp, rfl, Projects.nodup_closure hnd _,
      fun v => Projects.mem_closure_of_mem hnd hp,
      fun out => Projects.visits_iff hnd hp, ?_⟩
    exact Walk.turns_preorder (Walk.remaining_all hnd)
      (List.cons_subset.2 ⟨hroot, List.nil_subset _⟩)
      (Projects.targets_subset _ policy) rfl
  · next hproject =>
    refine List.eq_nil_iff_forall_not_mem.2 fun v hv => ?_
    exact hproject (isProject_iff.2 ((Projects.mem_closure _).1 hv).1)

/-- The dependents of a document are, once each, the other projects whose
closure it is in, whatever their stages are. -/
theorem dependents_closure (s : Store) (u : Uri) :
    (s.projects.dependents u).Nodup
      ∧ ∀ v, v ∈ s.projects.dependents u
        ↔ s.isProject v ∧ v ≠ u ∧ u ∈ s.projects.closure .any v := by
  have hnd := s.uris_projects_nodup
  refine ⟨Projects.nodup_dependents hnd u, fun v => ?_⟩
  rw [Projects.mem_dependents_iff_closure hnd, isProject_iff,
    Projects.mem_closure]
  tauto

end Purview.Store
