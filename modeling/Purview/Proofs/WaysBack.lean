/-
The search for a cycle, as the loop that carries it out. The loop keeps
the stations of its way, and at each of them how many dependencies it
has looked at; a dependency that names nobody is looked at as well and
leads nowhere. So a station of the loop stands for one of the walk with
the edges that the dependencies not looked at come to (`ahead`), and a
step of the walk is as many turns of the loop as there are dependencies
without an edge before the next one with one (`hunts_past`).

That the loop ends is therefore the measure of the walk, on whatever
graph (`hunts_wayBack`). What it ends with is known of the walk: it
finds a way exactly if there is one. The stations it has given up are
never entered again, although a way back might lead through them: by
then it had looked for an edge back from all that they lead to.
-/
import Purview.Proofs.Closures

namespace Purview.Projects

open Relation (TransGen)

variable {ps : Projects}

-- ================================================================= turns

/-- Where the loop that looks for a way back stands. -/
inductive Hunt where
  /-- Under way, with what has been met and the stations of the way,
  innermost first, each with how many dependencies have been looked at
  there. -/
  | underway (met : List Uri) (way : List (Uri × Nat))
  /-- At its end, with the names along a way if there was one. -/
  | ended (names : Option (List String))

/-- The dependencies of an identity. -/
def dependenciesAt (ps : Projects) (u : Uri) : List Dependency :=
  match get? ps u with
  | none => []
  | some p => p.descriptor.dependencies

/-- The names along a way that leads from a project back to it. -/
def namesAlong (ps : Projects) (p : Project) (way : List Uri) :
    List String :=
  (way.filterMap (get? ps)).map (·.descriptor.name) ++ [p.descriptor.name]

/-- One turn of the loop that looks for a way back to a project. The
next dependency of the innermost station is looked at; once there is
none left, the station is given up. -/
def hunt (ps : Projects) (p : Project) : Hunt → Hunt
  | .ended names => .ended names
  | .underway _ [] => .ended none
  | .underway met ((u, n) :: way) =>
    match (dependenciesAt ps u)[n]? with
    | none => .underway met way
    | some d =>
      match named? ps d.name with
      | none => .underway met ((u, n + 1) :: way)
      | some q =>
        if q.uri = p.uri then
          .ended (some (namesAlong ps p (u :: way.map Prod.fst).reverse))
        else if q.uri ∈ met then .underway met ((u, n + 1) :: way)
        else .underway (met ++ [q.uri]) ((q.uri, 0) :: (u, n + 1) :: way)

-- ============================================================== stations

/-- The edges that are still to be tried at a station of the loop. -/
def ahead (ps : Projects) (station : Uri × Nat) : Uri × List Uri :=
  (station.1, followed ps .any ((dependenciesAt ps station.1).drop station.2))

theorem ahead_zero (ps : Projects) (u : Uri) :
    ahead ps (u, 0) = (u, targets ps .any u) := by
  unfold ahead targets dependenciesAt
  cases get? ps u <;> rfl

/-- The innermost of some stations, and those behind it. -/
theorem stations_eq_cons {stations : List (Uri × Nat)} {u : Uri}
    {us : List Uri} {way : List (Uri × List Uri)}
    (h : stations.map (ahead ps) = (u, us) :: way) :
    ∃ n rest, stations = (u, n) :: rest
      ∧ followed ps .any ((dependenciesAt ps u).drop n) = us
      ∧ rest.map (ahead ps) = way := by
  obtain ⟨⟨v, n⟩, rest, rfl, hstation, hrest⟩ := List.map_eq_cons_iff.1 h
  obtain ⟨rfl, hedges⟩ := Prod.mk.inj hstation
  exact ⟨n, rest, rfl, hedges, hrest⟩

/-- The next dependency of a station, and those behind it. -/
theorem next_of_drop {u : Uri} {n : Nat} {d : Dependency}
    {ds : List Dependency} (h : (dependenciesAt ps u).drop n = d :: ds) :
    (dependenciesAt ps u)[n]? = some d
      ∧ (dependenciesAt ps u).drop (n + 1) = ds := by
  rw [← List.head?_drop, ← List.tail_drop, h]
  exact ⟨rfl, rfl⟩

/-- Dependencies that name nobody are looked at and passed. -/
theorem hunts_past (p : Project) (met : List Uri) {u : Uri} {n : Nat}
    (way : List (Uri × Nat)) {front back : List Dependency}
    (hdrop : (dependenciesAt ps u).drop n = front ++ back)
    (hfront : ∀ d ∈ front, named? ps d.name = none) :
    (hunt ps p)^[front.length] (.underway met ((u, n) :: way))
        = .underway met ((u, n + front.length) :: way)
      ∧ (dependenciesAt ps u).drop (n + front.length) = back := by
  induction front generalizing n with
  | nil => exact ⟨rfl, hdrop⟩
  | cons d front ih =>
    obtain ⟨hd, hfront⟩ := List.forall_mem_cons.1 hfront
    obtain ⟨hnext, hrest⟩ := next_of_drop hdrop
    have hturn : hunt ps p (.underway met ((u, n) :: way))
        = .underway met ((u, n + 1) :: way) := by
      simp only [hunt, hnext, hd]
    rw [List.length_cons, Function.iterate_succ_apply, hturn,
      Nat.add_comm front.length 1, ← Nat.add_assoc]
    exact ih hrest hfront

/-- A dependency that is followed nowhere, whatever the stages, names
nobody. -/
theorem named?_of_not_followed {d : Dependency}
    (h : ∀ q, ¬ FollowedTo ps .any d q) : named? ps d.name = none := by
  refine Option.eq_none_iff_forall_ne_some.2 fun q hq => h q ?_
  rw [followedTo_iff, hq]
  rfl

/-- Up to its next edge a station is turned over, and at the edge the
project is looked at that it leads to. -/
theorem hunts_edge (p : Project) (met : List Uri) {u v : Uri} {n : Nat}
    {vs : List Uri} (way : List (Uri × Nat))
    (h : followed ps .any ((dependenciesAt ps u).drop n) = v :: vs) :
    ∃ k d q m, (hunt ps p)^[k] (.underway met ((u, n) :: way))
        = .underway met ((u, m) :: way)
      ∧ (dependenciesAt ps u)[m]? = some d
      ∧ named? ps d.name = some q ∧ q.uri = v
      ∧ ahead ps (u, m + 1) = (u, vs) := by
  obtain ⟨front, d, back, q, hdrop, hfront, hq, hv, hback⟩ :=
    followed_eq_cons h
  obtain ⟨hturns, hat⟩ := hunts_past p met way hdrop
    fun e he => named?_of_not_followed (hfront e he)
  obtain ⟨hnext, hrest⟩ := next_of_drop hat
  have hnamed := (Option.filter_eq_some_iff.1 ((followedTo_iff ps).1 hq)).1
  refine ⟨front.length, d, q, _, hturns, hnext, hnamed, hv, ?_⟩
  rw [ahead, hrest, hback]

/-- At a station without an edge left the loop comes to the end of its
dependencies and gives it up. -/
theorem hunts_given_up (p : Project) (met : List Uri) {u : Uri} {n : Nat}
    (way : List (Uri × Nat))
    (h : followed ps .any ((dependenciesAt ps u).drop n) = []) :
    ∃ k, (hunt ps p)^[k] (.underway met ((u, n) :: way))
      = .underway met way := by
  have hnowhere := List.filterMap_eq_nil_iff.1 h
  obtain ⟨hturns, hend⟩ := hunts_past p met way
    (List.append_nil _).symm
    fun d hd => named?_of_not_followed (not_followedTo (hnowhere d hd))
  refine ⟨1 + ((dependenciesAt ps u).drop n).length, ?_⟩
  rw [Function.iterate_add_apply, hturns, Function.iterate_one, hunt,
    List.getElem?_eq_none (List.drop_eq_nil_iff.1 hend)]

-- ================================================================== runs

/-- The loop ends, and with what the walk comes to. -/
theorem hunts_wayBack {p : Project} {met unmet : List Uri}
    {way : List (Uri × List Uri)} {stations : List (Uri × Nat)}
    (hleft : Walk.Remaining (uris ps) met unmet)
    (hway : stations.map (ahead ps) = way) :
    ∃ k, (hunt ps p)^[k] (.underway met stations)
      = .ended ((Walk.wayBack p.uri (targets ps .any) unmet way).map
          (namesAlong ps p)) := by
  fun_induction Walk.wayBack p.uri (targets ps .any) unmet way
      generalizing met stations with
  | case1 unmet =>
    obtain rfl := List.map_eq_nil_iff.1 hway
    exact ⟨1, rfl⟩
  | case2 unmet u way ih =>
    obtain ⟨n, rest, rfl, hedges, hrest⟩ := stations_eq_cons hway
    obtain ⟨k, hk⟩ := hunts_given_up p met rest hedges
    obtain ⟨m, hm⟩ := ih hleft hrest
    exact ⟨m + k, by rw [Function.iterate_add_apply, hk, hm]⟩
  | case3 unmet u untried way =>
    obtain ⟨n, rest, rfl, hedges, hrest⟩ := stations_eq_cons hway
    obtain ⟨k, d, q, m, hk, hd, hq, hback, -⟩ :=
      hunts_edge p met rest hedges
    have hstations : way.map Prod.fst = rest.map Prod.fst := by
      rw [← hrest, List.map_map]
      rfl
    refine ⟨1 + k, ?_⟩
    rw [Function.iterate_add_apply, hk, Function.iterate_one, hunt, hd]
    simp only [hq, hback, if_true, hstations, Option.map_some]
  | case4 unmet u v untried way hne hv ih =>
    obtain ⟨n, rest, rfl, hedges, hrest⟩ := stations_eq_cons hway
    obtain ⟨k, d, q, m, hk, hd, hq, rfl, hlater⟩ :=
      hunts_edge p met rest hedges
    have hnew : q.uri ∉ met := ((hleft.mem q.uri).1 hv).2
    have hstations : ((q.uri, 0) :: (u, m + 1) :: rest).map (ahead ps)
        = (q.uri, targets ps .any q.uri) :: (u, untried) :: way := by
      rw [List.map_cons, List.map_cons, ahead_zero, hlater, hrest]
    obtain ⟨j, hj⟩ := ih (hleft.meet q.uri) hstations
    refine ⟨j + (1 + k), ?_⟩
    rw [Function.iterate_add_apply, Function.iterate_add_apply, hk,
      Function.iterate_one, hunt, hd]
    simp only [hq, if_neg hne, if_neg hnew]
    exact hj
  | case5 unmet u v untried way hne hv ih =>
    obtain ⟨n, rest, rfl, hedges, hrest⟩ := stations_eq_cons hway
    obtain ⟨k, d, q, m, hk, hd, hq, rfl, hlater⟩ :=
      hunts_edge p met rest hedges
    have hmet : q.uri ∈ met :=
      hleft.listed (List.mem_map_of_mem (mem_of_named? hq)) hv
    have hstations : ((u, m + 1) :: rest).map (ahead ps)
        = (u, untried) :: way := by
      rw [List.map_cons, hlater, hrest]
    obtain ⟨j, hj⟩ := ih hleft hstations
    refine ⟨j + (1 + k), ?_⟩
    rw [Function.iterate_add_apply, Function.iterate_add_apply, hk,
      Function.iterate_one, hunt, hd]
    simp only [hq, if_neg hne, if_pos hmet]
    exact hj

/-- From a project the loop ends with the cycle that the project has to
show. -/
theorem hunts_cycle? (hnd : (uris ps).Nodup) {p : Project} (hp : p ∈ ps) :
    ∃ k, (hunt ps p)^[k] (.underway [p.uri] [(p.uri, 0)])
      = .ended (cycle? ps p.uri) := by
  have hleft : Walk.Remaining (uris ps) [p.uri]
      ((uris ps).filter (· ≠ p.uri)) :=
    ⟨hnd.filter _, fun v => by simp⟩
  obtain ⟨k, hk⟩ := hunts_wayBack (p := p) hleft
    (List.map_singleton.trans (congrArg (· :: []) (ahead_zero ps p.uri)))
  refine ⟨k, hk.trans ?_⟩
  rw [cycle?, get?_of_mem hnd hp]
  rfl

end Purview.Projects

namespace Purview.Store

open Relation (TransGen)

/-- Only a project has a cycle to show, and exactly if it leads to itself
by one step or more, whatever the stages of those in between. What it
shows are the names along such a way, which passes no project twice and
ends where it began. It is what the loop with a way of stations ends
with. -/
theorem cycle?_closes (s : Store) (u : Uri) :
    if s.isProject u then
      ∃ p ∈ s.projects, p.uri = u
        ∧ ((s.projects.cycle? u).isSome
          ↔ TransGen (s.projects.LeadsTo .any) p p)
        ∧ (∀ names, s.projects.cycle? u = some names →
          ∃ way : List Project, ((p :: way).map (·.uri)).Nodup
            ∧ (p :: way ++ [p]).IsChain (s.projects.LeadsTo .any)
            ∧ names = (p :: way ++ [p]).map (·.descriptor.name))
        ∧ ∃ k, (s.projects.hunt p)^[k] (.underway [u] [(u, 0)])
          = .ended (s.projects.cycle? u)
    else s.projects.cycle? u = none := by
  have hnd := s.uris_projects_nodup
  split
  · next hproject =>
    obtain ⟨p, hp, rfl⟩ := List.mem_map.1 (isProject_iff.1 hproject)
    rw [Projects.leadsTo_any]
    exact ⟨p, hp, rfl, (Projects.cycle?_spec hnd hp).1,
      fun names => Projects.cycle?_way hnd hp, Projects.hunts_cycle? hnd hp⟩
  · next hproject =>
    have hnone : s.projects.get? u = none :=
      Option.not_isSome_iff_eq_none.1 fun hsome =>
        hproject (isProject_iff.2 ((Projects.isSome_get? _ u).1 hsome))
    rw [Projects.cycle?, hnone]

end Purview.Store
