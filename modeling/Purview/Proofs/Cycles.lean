/-
What the other two walks find. The breadth-first walk against the edges
lists everybody from whom its start can be reached (`mem_dependents`):
like the depth-first one it is closed under the edges to what it has not
met, and at the start that is everything else.

The search for a way back goes depth first, so that it gives up exactly
if the depth-first walk from the same edges meets nobody with an edge to
the start (`wayBack_eq_none_iff`); and what it finds is a way, because
the stations it keeps are one (`wayBack_isChain`), and one that passes
nobody twice, because a station has been met and what has been met is
not entered again (`nodup_wayBack`). Together: a project has a cycle to
show exactly if it depends on itself (`cycle?_spec`).

Both only ask for the part of the graph that is reached from their
start, and so do all dependency facts (`SameFrom.facts`).
-/
import Mathlib.Data.List.Chain
import Purview.Proofs.Prescribed

namespace Purview.Walk

open Relation (ReflTransGen TransGen)

variable {α : Type} [DecidableEq α]

-- ========================================================== breadth first

/-- A breadth-first walk lists whatever was not met and follows its queue
or somebody it lists. -/
theorem layers_closed (next : α → List α) (unmet queue : List α) :
    ∀ u, u ∈ queue ∨ u ∈ layers next unmet queue →
      ∀ v ∈ next u, v ∈ unmet → v ∈ layers next unmet queue := by
  fun_induction layers next unmet queue with
  | case1 => simp
  | case2 unmet u queue met ih =>
    intro x hx v hv hvu
    by_cases hmet : v ∈ met
    · exact List.mem_append_left _ hmet
    · have hleft : v ∈ without unmet met :=
        List.mem_filter.2 ⟨hvu, decide_eq_true hmet⟩
      refine List.mem_append_right _ (ih x ?_ v hv hleft)
      rw [List.mem_cons, List.mem_append] at hx
      rcases hx with (rfl | hx) | hx | hx
      · exact absurd (List.mem_filter.2 ⟨hv, decide_eq_true hvu⟩) hmet
      · exact .inl (List.mem_append_left _ hx)
      · exact .inl (List.mem_append_right _ hx)
      · exact .inr hx

/-- A breadth-first walk lists nobody twice. -/
theorem nodup_layers {next : α → List α} (hnext : ∀ u, (next u).Nodup)
    (unmet queue : List α) : (layers next unmet queue).Nodup := by
  fun_induction layers next unmet queue with
  | case1 => exact List.nodup_nil
  | case2 unmet u queue met ih =>
    refine List.nodup_append.2 ⟨(hnext u).filter _, ih, ?_⟩
    rintro x hx y hy rfl
    have hleft := (List.mem_filter.1 (layers_subset next _ _ x hy)).2
    exact of_decide_eq_true hleft hx

-- ============================================================= ways back

/-- The edges that are still to be tried on a way, innermost first. -/
def untried (way : List (α × List α)) : List α := way.flatMap Prod.snd

/-- A search gives up exactly if neither what it stands on nor what can
be met from there has an edge back. -/
theorem wayBack_eq_none_iff (start : α) (next : α → List α)
    (unmet : List α) (way : List (α × List α)) :
    wayBack start next unmet way = none ↔
      start ∉ untried way
        ∧ ∀ v ∈ preorder next unmet (untried way), start ∉ next v := by
  fun_induction wayBack start next unmet way with
  | case1 => simp [untried, preorder]
  | case2 unmet u way ih => exact ih
  | case3 unmet u untried way =>
    simp [Walk.untried]
  | case4 unmet u v rest way hne hv ih =>
    have hstack : untried ((u, v :: rest) :: way)
        = v :: untried ((u, rest) :: way) := rfl
    have hnext : untried ((v, next v) :: (u, rest) :: way)
        = next v ++ untried ((u, rest) :: way) := rfl
    rw [ih, hstack, hnext, preorder_of_mem next hv]
    simp only [List.mem_append, List.mem_cons, not_or, forall_eq_or_imp]
    have hne : start ≠ v := fun h => hne h.symm
    tauto
  | case5 unmet u v rest way hne hv ih =>
    have hstack : untried ((u, v :: rest) :: way)
        = v :: untried ((u, rest) :: way) := rfl
    rw [ih, hstack, preorder_of_not_mem next hv, List.mem_cons, not_or]
    have hne : start ≠ v := fun h => hne h.symm
    tauto

/-- A way that leads from its start along edges, with edges to try at
each station. -/
structure Trail (start : α) (next : α → List α)
    (way : List (α × List α)) : Prop where
  chain : (way.map Prod.fst).IsChain fun v u => Edge next u v
  start : ∀ u, (way.map Prod.fst).getLast? = some u → u = start
  edges : ∀ e ∈ way, e.2 ⊆ next e.1

theorem trail_singleton {β : Type} (start : β) (next : β → List β) :
    Trail start next [(start, next start)] :=
  ⟨.singleton start, fun v hv => by simpa using hv.symm,
    fun e he => by rw [List.mem_singleton.1 he]; exact fun _ h => h⟩

/-- What a search finds is a way from the start back to it. -/
theorem wayBack_isChain {start : α} {next : α → List α} {unmet : List α}
    {way : List (α × List α)} (h : Trail start next way)
    {found : List α} (hfound : wayBack start next unmet way = some found) :
    found.head? = some start
      ∧ (found ++ [start]).IsChain (Edge next) := by
  fun_induction wayBack start next unmet way with
  | case1 => cases hfound
  | case2 unmet u way ih =>
    refine ih ⟨h.chain.tail, fun v hv => ?_, fun e he =>
      h.edges e (List.mem_cons_of_mem _ he)⟩ hfound
    refine h.start v ?_
    rw [List.map_cons, List.getLast?_cons, hv]
    rfl
  | case3 unmet u untried way =>
    cases hfound
    have hedge : Edge next u start :=
      h.edges (u, start :: untried) List.mem_cons_self List.mem_cons_self
    constructor
    · rw [List.head?_reverse]
      obtain ⟨last, hlast⟩ := Option.isSome_iff_exists.1
        (List.getLast?_isSome.2 (List.cons_ne_nil u (way.map Prod.fst)))
      rw [hlast, h.start last hlast]
    · rw [← List.reverse_cons, List.isChain_reverse]
      exact .cons_cons hedge h.chain
  | case4 unmet u v rest way hne hv ih =>
    have hedge : Edge next u v :=
      h.edges (u, v :: rest) List.mem_cons_self List.mem_cons_self
    refine ih ⟨.cons_cons hedge h.chain, fun x hx => h.start x ?_, ?_⟩
      hfound
    · rw [List.map_cons, List.map_cons, List.getLast?_cons_cons] at hx
      exact hx
    · intro e he
      rcases List.mem_cons.1 he with rfl | he
      · exact fun _ hx => hx
      · rcases List.mem_cons.1 he with rfl | he
        · exact fun x hx => h.edges (u, v :: rest) List.mem_cons_self
            (List.mem_cons_of_mem v hx)
        · exact h.edges e (List.mem_cons_of_mem _ he)
  | case5 unmet u v rest way hne hv ih =>
    refine ih ⟨h.chain, h.start, fun e he => ?_⟩ hfound
    rcases List.mem_cons.1 he with rfl | he
    · exact fun x hx => h.edges (u, v :: rest) List.mem_cons_self
        (List.mem_cons_of_mem v hx)
    · exact h.edges e (List.mem_cons_of_mem _ he)

/-- The stations of a way are met, each once. -/
structure Apart (unmet : List α) (way : List (α × List α)) : Prop where
  left : unmet.Nodup
  stations : (way.map Prod.fst).Nodup
  met : ∀ u ∈ way.map Prod.fst, u ∉ unmet

/-- What a search finds passes nobody twice. -/
theorem nodup_wayBack {start : α} {next : α → List α} {unmet : List α}
    {way : List (α × List α)} (h : Apart unmet way) {found : List α}
    (hfound : wayBack start next unmet way = some found) : found.Nodup := by
  fun_induction wayBack start next unmet way with
  | case1 => cases hfound
  | case2 unmet u way ih =>
    exact ih ⟨h.left, (List.nodup_cons.1 h.stations).2, fun v hv =>
      h.met v (List.mem_cons_of_mem u hv)⟩ hfound
  | case3 unmet u untried way =>
    cases hfound
    exact (List.reverse_perm _).nodup_iff.2 h.stations
  | case4 unmet u v rest way hne hv ih =>
    have hnew : v ∉ (((u, rest) :: way).map Prod.fst) :=
      fun hmem => h.met v hmem hv
    refine ih ⟨h.left.erase v, List.nodup_cons.2 ⟨hnew, h.stations⟩, ?_⟩
      hfound
    intro w hw
    rcases List.mem_cons.1 hw with rfl | hw
    · exact h.left.not_mem_erase
    · exact fun hleft => h.met w hw (List.mem_of_mem_erase hleft)
  | case5 unmet u v rest way hne hv ih =>
    exact ih ⟨h.left, h.stations, h.met⟩ hfound

/-- A search only asks about what can be reached from where it stands. -/
theorem wayBack_congr {start : α} {next next' : α → List α}
    {unmet unmet' : List α} {way : List (α × List α)} (met : α → Prop)
    (hway : ∀ v ∈ untried way, met v)
    (hnext : ∀ v, met v → next' v = next v ∧ ∀ w ∈ next v, met w)
    (hunmet : ∀ v, met v → (v ∈ unmet' ↔ v ∈ unmet))
    (hnd : unmet.Nodup) (hnd' : unmet'.Nodup) :
    wayBack start next' unmet' way = wayBack start next unmet way := by
  fun_induction wayBack start next unmet way generalizing unmet' with
  | case1 => simp [wayBack]
  | case2 unmet u way ih =>
    rw [wayBack]
    exact ih hway hunmet hnd hnd'
  | case3 unmet u untried way => rw [wayBack, if_pos rfl]
  | case4 unmet u v rest way hne hv ih =>
    have hmet : met v := hway v List.mem_cons_self
    rw [wayBack, if_neg hne, if_pos ((hunmet v hmet).2 hv),
      (hnext v hmet).1]
    refine ih ?_ ?_ (hnd.erase v) (hnd'.erase v)
    · intro w hw
      rcases List.mem_append.1 hw with hw | hw
      · exact (hnext v hmet).2 w hw
      · exact hway w (List.mem_cons_of_mem v hw)
    · intro w hw
      rw [hnd'.mem_erase_iff, hnd.mem_erase_iff, hunmet w hw]
  | case5 unmet u v rest way hne hv ih =>
    have hmet : met v := hway v List.mem_cons_self
    rw [wayBack, if_neg hne, if_neg (mt (hunmet v hmet).1 hv)]
    exact ih (fun w hw => hway w (List.mem_cons_of_mem v hw)) hunmet hnd hnd'

end Purview.Walk

namespace Purview.Projects

open Relation (ReflTransGen TransGen)
open Walk (Edge)

variable {ps qs : Projects}

-- ============================================================ dependents

/-- The projects with an edge to a given one are those it is a target
of. -/
theorem mem_sources (hnd : (uris ps).Nodup) {u v : Uri} :
    v ∈ sources ps u ↔ u ∈ targets ps .any v := by
  refine ⟨mem_targets_of_mem_sources hnd, fun h => ?_⟩
  unfold targets at h
  split at h
  · cases h
  · next p hp =>
    obtain ⟨hmem, rfl⟩ := uri_of_get? hp
    exact List.mem_map.2
      ⟨p, List.mem_filter.2 ⟨hmem, decide_eq_true h⟩, rfl⟩

/-- The dependents of a project are listed once each. -/
theorem nodup_dependents (hnd : (uris ps).Nodup) (u : Uri) :
    (dependents ps u).Nodup := by
  refine Walk.nodup_layers (fun v => ?_) _ _
  exact hnd.sublist (List.filter_sublist.map Project.uri)

/-- The dependents of a project are the others that reach it. -/
theorem mem_dependents (hnd : (uris ps).Nodup) {u v : Uri} :
    v ∈ dependents ps u ↔ v ∈ uris ps ∧ v ≠ u
      ∧ ReflTransGen (Edge (targets ps .any)) v u := by
  constructor
  · intro h
    obtain ⟨hv, hne⟩ := mem_of_mem_dependents ps h
    exact ⟨hv, hne, reaches_of_mem_dependents hnd h⟩
  · rintro ⟨hv, hne, hway⟩
    refine (?_ : v = u ∨ v ∈ dependents ps u).resolve_left hne
    clear hne
    induction hway using ReflTransGen.head_induction_on with
    | refl => exact .inl rfl
    | @head v w hedge _ ih =>
      have hw : w ∈ uris ps := targets_subset ps .any v hedge
      have hsource : v ∈ sources ps w := (mem_sources hnd).2 hedge
      refine or_iff_not_imp_left.2 fun hne => ?_
      have hunmet : v ∈ (uris ps).filter (· ≠ u) :=
        List.mem_filter.2 ⟨hv, decide_eq_true hne⟩
      exact Walk.layers_closed _ _ _ w
        ((ih hw).imp List.mem_singleton.2 id) v hsource hunmet

/-- The dependents of a project are the others whose closure it is in. -/
theorem mem_dependents_iff_closure (hnd : (uris ps).Nodup) {u v : Uri} :
    v ∈ dependents ps u ↔ v ≠ u ∧ u ∈ closure ps .any v := by
  rw [mem_dependents hnd, mem_closure]
  tauto

-- ================================================================ cycles

/-- A project has a way back to itself exactly if one is found. -/
theorem isSome_cycle? {u : Uri} (hu : u ∈ uris ps) :
    (cycle? ps u).isSome ↔ TransGen (Edge (targets ps .any)) u u := by
  let unmet := (uris ps).filter (· ≠ u)
  let met := Walk.preorder (targets ps .any) unmet (targets ps .any u)
  obtain ⟨p, hp⟩ := Option.isSome_iff_exists.1 ((isSome_get? ps u).2 hu)
  have hfound : (cycle? ps u).isSome ↔
      u ∈ targets ps .any u ∨ ∃ v ∈ met, u ∈ targets ps .any v := by
    unfold cycle?
    rw [hp, Option.isSome_map, ← Option.not_isNone, Bool.not_eq_true',
      ← Bool.not_eq_true, Option.isNone_iff_eq_none,
      Walk.wayBack_eq_none_iff]
    have hstack : Walk.untried [(u, targets ps .any u)]
        = targets ps .any u := by
      simp [Walk.untried]
    rw [hstack, not_and_or, not_not]
    simp only [not_forall, not_not, exists_prop]
    rfl
  rw [hfound]
  constructor
  · rintro (hself | ⟨v, hv, hback⟩)
    · exact .single hself
    · obtain ⟨w, hw, hway⟩ := Walk.preorder_reached _ _ _ v hv
      exact .tail' (.head hw hway) hback
  · intro hcycle
    -- Whatever is reached is the start itself or is met.
    have hreach : ∀ w, ReflTransGen (Edge (targets ps .any)) u w →
        w = u ∨ w ∈ met := by
      intro w hw
      induction hw with
      | refl => exact .inl rfl
      | @tail v w _ hedge ih =>
        refine or_iff_not_imp_left.2 fun hne => ?_
        have hunmet : w ∈ unmet := List.mem_filter.2
          ⟨targets_subset ps .any v hedge, decide_eq_true hne⟩
        rcases ih with rfl | hv
        · exact Walk.mem_preorder_of_stack _ _ _ w hedge hunmet
        · exact Walk.preorder_closed _ _ _ v hv w hedge hunmet
    obtain ⟨w, hway, hback⟩ := TransGen.tail'_iff.1 hcycle
    rcases hreach w hway with rfl | hw
    · exact .inl hback
    · exact .inr ⟨w, hw, hback⟩

/-- What is found is a way from the project back to it, which passes
nobody twice. -/
theorem way_of_cycle? (hnd : (uris ps).Nodup) {u : Uri}
    {names : List String} (h : cycle? ps u = some names) :
    ∃ way : List Uri, way.head? = some u ∧ way.Nodup
      ∧ (way ++ [u]).IsChain (Edge (targets ps .any))
      ∧ names = (way ++ [u]).filterMap fun w =>
        (get? ps w).map (·.descriptor.name) := by
  unfold cycle? at h
  split at h
  · cases h
  · next p hp =>
    obtain ⟨way, hway, rfl⟩ := Option.map_eq_some_iff.1 h
    obtain ⟨hhead, hchain⟩ :=
      Walk.wayBack_isChain (Walk.trail_singleton u _) hway
    have hstart : Walk.Apart ((uris ps).filter (· ≠ u))
        [(u, targets ps .any u)] :=
      ⟨hnd.filter _, by simp, by simp⟩
    refine ⟨way, hhead, Walk.nodup_wayBack hstart hway, hchain, ?_⟩
    rw [List.filterMap_append, List.map_filterMap]
    simp [hp]

/-- Edges between identities are dependencies between projects. -/
theorem transGen_edge_iff (hnd : (uris ps).Nodup) {p q : Project}
    (hp : p ∈ ps) (hq : q ∈ ps) :
    TransGen (Edge (targets ps .any)) p.uri q.uri
      ↔ TransGen (DependsOn ps) p q := by
  constructor
  · intro h
    have hway : ∀ v, TransGen (Edge (targets ps .any)) p.uri v →
        ∃ r ∈ ps, r.uri = v ∧ TransGen (DependsOn ps) p r := by
      intro v hv
      induction hv with
      | single hedge =>
        obtain ⟨r, hr, hrv, hdep⟩ := dependsOn_of_edge hnd hp hedge
        exact ⟨r, hr, hrv, .single hdep⟩
      | tail _ hedge ih =>
        obtain ⟨m, hm, rfl, hway⟩ := ih
        obtain ⟨r, hr, hrv, hdep⟩ := dependsOn_of_edge hnd hm hedge
        exact ⟨r, hr, hrv, hway.tail hdep⟩
    obtain ⟨r, hr, hrq, hway⟩ := hway q.uri h
    obtain rfl : r = q := eq_of_uri hnd hr hq hrq
    exact hway
  · intro h
    have hway : q ∈ ps ∧ TransGen (Edge (targets ps .any)) p.uri q.uri := by
      clear hq
      induction h with
      | single hdep =>
        obtain ⟨d, hmem, hd⟩ := hdep
        exact ⟨mem_of_named? hd,
          .single (DependsOn.edge hnd hp ⟨d, hmem, hd⟩)⟩
      | tail _ hdep ih =>
        obtain ⟨d, hmem, hd⟩ := hdep
        exact ⟨mem_of_named? hd,
          ih.2.tail (DependsOn.edge hnd ih.1 ⟨d, hmem, hd⟩)⟩
    exact hway.2

/-- A way over identities is one over the projects that have them. -/
theorem projects_of_chain (hnd : (uris ps).Nodup) {p q : Project}
    (hp : p ∈ ps) (hq : q ∈ ps) {us : List Uri}
    (h : (p.uri :: us ++ [q.uri]).IsChain (Edge (targets ps .any))) :
    ∃ way : List Project, way.map (·.uri) = us
      ∧ (p :: way ++ [q]).IsChain (DependsOn ps)
      ∧ (p.uri :: us ++ [q.uri]).filterMap (fun w =>
          (get? ps w).map (·.descriptor.name))
        = (p :: way ++ [q]).map (·.descriptor.name) := by
  induction us generalizing p with
  | nil =>
    obtain ⟨hedge, -⟩ := List.isChain_cons_cons.1 h
    obtain ⟨r, hr, hrq, hdep⟩ := dependsOn_of_edge hnd hp hedge
    obtain rfl : r = q := eq_of_uri hnd hr hq hrq
    refine ⟨[], rfl, .cons_cons hdep (.singleton r), ?_⟩
    simp [get?_of_mem hnd hp, get?_of_mem hnd hr]
  | cons u us ih =>
    obtain ⟨hedge, hrest⟩ := List.isChain_cons_cons.1 h
    obtain ⟨r, hr, rfl, hdep⟩ := dependsOn_of_edge hnd hp hedge
    obtain ⟨way, rfl, hchain, hnames⟩ := ih hr hrest
    refine ⟨r :: way, rfl, .cons_cons hdep hchain, ?_⟩
    rw [List.cons_append, List.filterMap_cons, get?_of_mem hnd hp]
    exact congrArg (p.descriptor.name :: ·) hnames

/-- What a project shows as its cycle are the names along a way of
dependencies back to it, which passes nobody twice. -/
theorem cycle?_way (hnd : (uris ps).Nodup) {p : Project} (hp : p ∈ ps)
    {names : List String} (h : cycle? ps p.uri = some names) :
    ∃ way : List Project, ((p :: way).map (·.uri)).Nodup
      ∧ (p :: way ++ [p]).IsChain (DependsOn ps)
      ∧ names = (p :: way ++ [p]).map (·.descriptor.name) := by
  obtain ⟨us, hhead, hdistinct, hchain, rfl⟩ := way_of_cycle? hnd h
  obtain ⟨us, rfl⟩ := List.head?_eq_some_iff.1 hhead
  obtain ⟨way, rfl, hway, hnames⟩ := projects_of_chain hnd hp hp hchain
  exact ⟨way, hdistinct, hway, hnames⟩

/-- A project has a cycle to show exactly if it depends on itself, and
what it shows are the names along one. -/
theorem cycle?_spec (hnd : (uris ps).Nodup) {p : Project} (hp : p ∈ ps) :
    ((cycle? ps p.uri).isSome ↔ TransGen (DependsOn ps) p p)
    ∧ ∀ names, cycle? ps p.uri = some names →
      ∃ way : List Project, (p :: way ++ [p]).IsChain (DependsOn ps)
        ∧ names = (p :: way ++ [p]).map (·.descriptor.name) := by
  refine ⟨?_, fun names h => ?_⟩
  · rw [isSome_cycle? (List.mem_map.2 ⟨p, hp, rfl⟩),
      transGen_edge_iff hnd hp hp]
  · obtain ⟨way, -, hway⟩ := cycle?_way hnd hp h
    exact ⟨way, hway⟩

-- ================================================== a part of the graph

/-- What can be reached from a project is the same among other projects,
and its dependencies lead to the same. -/
structure SameFrom (ps qs : Projects) (u : Uri) : Prop where
  node : ∀ w, ReflTransGen (Edge (targets ps .any)) u w →
    (get? qs w).map (·.descriptor) = (get? ps w).map (·.descriptor)
  leads : ∀ w p, ReflTransGen (Edge (targets ps .any)) u w →
    get? ps w = some p → ∀ d ∈ p.descriptor.dependencies,
      (named? qs d.name).map (·.uri) = (named? ps d.name).map (·.uri)

/-- Where projects differ in one identity only, and names that led
elsewhere still do, whoever does not reach that identity has the same
part of the graph. -/
theorem sameFrom_of_apart {u v : Uri}
    (hnode : ∀ w, w ≠ u →
      (get? qs w).map (·.descriptor) = (get? ps w).map (·.descriptor))
    (hname : ∀ w p, ReflTransGen (Edge (targets ps .any)) v w →
      get? ps w = some p → ∀ d ∈ p.descriptor.dependencies,
        (named? qs d.name).map (·.uri) = (named? ps d.name).map (·.uri)
          ∨ (named? ps d.name).map (·.uri) = some u)
    (hv : ¬ ReflTransGen (Edge (targets ps .any)) v u) :
    SameFrom ps qs v := by
  constructor
  · intro w hw
    exact hnode w fun heq => hv (heq ▸ hw)
  · intro w p hw hp d hd
    refine (hname w p hw hp d hd).resolve_right fun hu => hv (hw.tail ?_)
    show u ∈ targets ps .any w
    unfold targets
    rw [hp]
    show u ∈ edges ps .any p
    rw [edges_any]
    exact List.mem_filterMap.2 ⟨d, hd, hu⟩

namespace SameFrom

variable {u w : Uri}

/-- What is reached stands on both sides or on neither, and is described
alike. -/
theorem node_cases (h : SameFrom ps qs u)
    (hw : ReflTransGen (Edge (Projects.targets ps .any)) u w) :
    get? ps w = none ∧ get? qs w = none
    ∨ ∃ p q, get? ps w = some p ∧ get? qs w = some q
      ∧ q.descriptor = p.descriptor := by
  have hnode := h.node w hw
  cases hp : get? ps w with
  | none =>
    rw [hp, Option.map_none, Option.map_eq_none_iff] at hnode
    exact .inl ⟨rfl, hnode⟩
  | some p =>
    rw [hp, Option.map_some] at hnode
    obtain ⟨q, hq, hqp⟩ := Option.map_eq_some_iff.1 hnode
    exact .inr ⟨p, q, rfl, hq, hqp⟩

theorem targets (h : SameFrom ps qs u)
    (hw : ReflTransGen (Edge (targets ps .any)) u w) :
    Projects.targets qs .any w = Projects.targets ps .any w := by
  unfold Projects.targets
  rcases h.node_cases hw with ⟨hp, hq⟩ | ⟨p, q, hp, hq, hqp⟩
  · rw [hp, hq]
  · rw [hp, hq]
    show edges qs .any q = edges ps .any p
    rw [edges_any, edges_any, hqp]
    exact List.filterMap_congr (h.leads w p hw hp)

/-- The same is reached. -/
theorem reaches (h : SameFrom ps qs u) :
    ReflTransGen (Edge (Projects.targets qs .any)) u w
      ↔ ReflTransGen (Edge (Projects.targets ps .any)) u w := by
  constructor
  · intro hw
    induction hw with
    | refl => exact .refl
    | tail _ hedge ih =>
      exact ih.tail (by rw [Edge, ← h.targets ih]; exact hedge)
  · intro hw
    induction hw with
    | refl => exact .refl
    | tail hway hedge ih =>
      exact ih.tail (by rw [Edge, h.targets hway]; exact hedge)

theorem mem_uris (h : SameFrom ps qs u)
    (hw : ReflTransGen (Edge (Projects.targets ps .any)) u w) :
    w ∈ uris qs ↔ w ∈ uris ps := by
  rw [← isSome_get?, ← isSome_get?, ← Option.isSome_map,
    h.node w hw, Option.isSome_map]

theorem unresolved (h : SameFrom ps qs u) :
    Projects.unresolved qs u = Projects.unresolved ps u := by
  unfold Projects.unresolved
  rcases h.node_cases .refl with ⟨hp, hq⟩ | ⟨p, q, hp, hq, hqp⟩
  · rw [hp, hq]
  · rw [hp, hq]
    show q.descriptor.dependencies.filter _
      = p.descriptor.dependencies.filter _
    rw [hqp]
    refine List.filter_congr fun d hd => ?_
    have hleads := congrArg Option.isSome (h.leads u p .refl hp d hd)
    rw [Option.isSome_map, Option.isSome_map] at hleads
    unfold resolves
    rw [hleads]

theorem cycle? (h : SameFrom ps qs u) (hps : (uris ps).Nodup)
    (hqs : (uris qs).Nodup) : Projects.cycle? qs u = Projects.cycle? ps u := by
  have hsearch : Walk.wayBack u (Projects.targets qs .any)
        ((uris qs).filter (· ≠ u)) [(u, Projects.targets ps .any u)]
      = Walk.wayBack u (Projects.targets ps .any)
        ((uris ps).filter (· ≠ u)) [(u, Projects.targets ps .any u)] := by
    refine Walk.wayBack_congr
      (ReflTransGen (Edge (Projects.targets ps .any)) u) ?_ ?_ ?_
      (hps.filter _) (hqs.filter _)
    · intro v hv
      have hedge : v ∈ Projects.targets ps .any u := by
        simpa [Walk.untried] using hv
      exact .single hedge
    · exact fun v hv => ⟨h.targets hv, fun w hw => hv.tail hw⟩
    · intro v hv
      rw [List.mem_filter, List.mem_filter, h.mem_uris hv]
  unfold Projects.cycle?
  rcases h.node_cases .refl with ⟨hp, hq⟩ | ⟨p, q, hp, hq, hqp⟩
  · rw [hp, hq]
  · rw [hp, hq]
    dsimp only
    rw [h.targets .refl, hsearch, hqp]
    refine Option.map_congr fun way hway => ?_
    obtain ⟨hhead, hchain⟩ :=
      Walk.wayBack_isChain (Walk.trail_singleton u _) hway
    obtain ⟨rest, rfl⟩ := List.head?_eq_some_iff.1 hhead
    have hreached : ∀ w ∈ u :: rest,
        ReflTransGen (Edge (Projects.targets ps .any)) u w := by
      refine List.IsChain.induction _ _ hchain.left_of_append
        (fun _ _ hedge hv => hv.tail hedge) fun _ => .refl
    rw [List.map_filterMap, List.map_filterMap]
    congr 1
    refine List.filterMap_congr fun w hw => ?_
    have hsame := congrArg (Option.map (·.name)) (h.node w (hreached w hw))
    rw [Option.map_map, Option.map_map] at hsame
    exact hsame

/-- So dependencies come to the same. -/
theorem facts (h : SameFrom ps qs u) (hps : (uris ps).Nodup)
    (hqs : (uris qs).Nodup) : Projects.facts qs u = Projects.facts ps u := by
  unfold Projects.facts
  rw [h.unresolved, h.cycle? hps hqs]

end SameFrom

end Purview.Projects
