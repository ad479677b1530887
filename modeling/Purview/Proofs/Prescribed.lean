/-
Where the references of a finished document lead. The rule is about
projects and folders and says nothing of stages or walks: a document
without an owner searches all others in load order; one with an owner
searches the documents below the folders of the projects that its owner
reaches by dependency names, in load order, and then the builtins
(`Store.searched`). Where everything has been linked, this is what the
horizon comes to (`candidates_eq_searched`), and looking up a name in
the scope of a document finds the first that defines it
(`resolve_offersOf`).
-/
import Purview.Proofs.Build

namespace Purview

theorem Distinct.ofList_append {α : Type} [DecidableEq α]
    (xs ys : List α) :
    Distinct.ofList (xs ++ ys) = Distinct.union (Distinct.ofList xs) ys :=
  List.foldl_append

/-- Adding to a set leaves its beginning alone. -/
theorem Distinct.exists_union_eq_append {α : Type} [DecidableEq α]
    (xs ys : List α) : ∃ later, Distinct.union xs ys = xs ++ later := by
  induction ys generalizing xs with
  | nil => exact ⟨[], by simp [Distinct.union]⟩
  | cons y ys ih =>
    obtain ⟨later, hlater⟩ := ih (Distinct.insert xs y)
    have hstep : Distinct.union xs (y :: ys)
        = Distinct.insert xs y ++ later := hlater
    rw [hstep, Distinct.insert]
    split
    · exact ⟨later, rfl⟩
    · exact ⟨[y] ++ later, by rw [List.append_assoc]⟩

/-- A set that is extended by a list without repetitions. -/
theorem Distinct.union_eq_append {α : Type} [DecidableEq α]
    {xs ys : List α} (h : ys.Nodup) :
    Distinct.union xs ys = xs ++ ys.filter (· ∉ xs) := by
  induction ys generalizing xs with
  | nil => simp [Distinct.union]
  | cons y ys ih =>
    obtain ⟨hy, hys⟩ := List.nodup_cons.1 h
    show Distinct.union (Distinct.insert xs y) ys = _
    rw [ih hys, Distinct.insert]
    by_cases hmem : y ∈ xs
    · rw [if_pos hmem, List.filter_cons_of_neg (by simpa using hmem)]
    · rw [if_neg hmem, List.filter_cons_of_pos (by simpa using hmem),
        List.append_assoc, List.singleton_append]
      congr 2
      refine List.filter_congr fun z hz => ?_
      have hne : z ≠ y := fun heq => hy (heq ▸ hz)
      simp [hne]

-- ======================================================== reachability

namespace Projects

open Relation (ReflTransGen)

variable (ps : Projects)

/-- The projects that the dependencies of a project name. -/
def dependencies (p : Project) : List Project :=
  p.descriptor.dependencies.filterMap fun d => named? ps d.name

/-- A project names another as a dependency. Of several projects with
one name, the first loaded is meant. -/
def DependsOn (p q : Project) : Prop :=
  ∃ d ∈ p.descriptor.dependencies, named? ps d.name = some q

/-- A project is another, or depends on it by way of dependencies. -/
def Reaches : Project → Project → Prop := ReflTransGen (DependsOn ps)

variable {ps}

theorem mem_dependencies {p q : Project} :
    q ∈ dependencies ps p ↔ DependsOn ps p q :=
  List.mem_filterMap

/-- Reaching is decided by a walk. -/
theorem reaches_iff {p q : Project} :
    Reaches ps p q ↔ q = p ∨ q ∈ Walk.preorder (dependencies ps) ps
      (dependencies ps p) := by
  have hnext : ∀ x, dependencies ps x ⊆ ps := by
    intro x y hy
    obtain ⟨d, -, hd⟩ := mem_dependencies.1 hy
    exact mem_of_named? hd
  have hedge : Walk.Edge (dependencies ps) = DependsOn ps := by
    funext x y
    exact propext mem_dependencies
  rw [Walk.mem_preorder hnext (hnext p), hedge, Reaches,
    ReflTransGen.cases_head_iff]
  simp only [mem_dependencies, eq_comm]

instance (p q : Project) : Decidable (Reaches ps p q) :=
  decidable_of_iff _ reaches_iff.symm

/-- To depend on a project is to lead to it whatever its stage. -/
theorem leadsTo_any_iff {p q : Project} :
    LeadsTo ps .any p q ↔ DependsOn ps p q := by
  simp only [LeadsTo, followedTo_iff, DependsOn,
    Option.filter_eq_some_iff, EdgePolicy.admits, and_true]

theorem leadsTo_any : LeadsTo ps .any = DependsOn ps := by
  funext p q
  exact propext leadsTo_any_iff

/-- A dependency is an edge. -/
theorem DependsOn.edge (hnd : (uris ps).Nodup) {p q : Project}
    (hp : p ∈ ps) (h : DependsOn ps p q) :
    q.uri ∈ targets ps .any p.uri := by
  obtain ⟨d, hd, hq⟩ := h
  exact (mem_targets hnd hp).2
    ⟨q, mem_of_named? hq, rfl, leadsTo_any_iff.2 ⟨d, hd, hq⟩⟩

/-- An edge is a dependency. -/
theorem dependsOn_of_edge {p : Project} (hnd : (uris ps).Nodup)
    (hp : p ∈ ps) {v : Uri} (h : v ∈ targets ps .any p.uri) :
    ∃ q ∈ ps, q.uri = v ∧ DependsOn ps p q := by
  obtain ⟨q, hq, hv, hlead⟩ := (mem_targets hnd hp).1 h
  exact ⟨q, hq, hv, leadsTo_any_iff.1 hlead⟩

/-- The closure of a project has the projects that it reaches. -/
theorem mem_closure_any (hnd : (uris ps).Nodup) {p : Project}
    (hp : p ∈ ps) {v : Uri} :
    v ∈ closure ps .any p.uri ↔ ∃ q ∈ ps, q.uri = v ∧ Reaches ps p q := by
  rw [mem_closure_of_mem hnd hp, leadsTo_any]
  rfl

/-- The source folders of some projects. -/
theorem mem_folders {us : List Uri} {f : Uri} :
    f ∈ folders ps us ↔
      ∃ w ∈ us, ∃ q, get? ps w = some q ∧ f ∈ q.folders := by
  unfold folders
  simp only [Distinct.mem_ofList, List.mem_flatMap, List.mem_filterMap]
  constructor
  · rintro ⟨q, ⟨w, hw, hq⟩, hf⟩
    exact ⟨w, hw, q, hq, hf⟩
  · rintro ⟨w, hw, q, hq, hf⟩
    exact ⟨q, ⟨w, hw, hq⟩, hf⟩

/-- A document lies below the folders of some projects exactly if one
of them owns it. -/
theorem any_folders {us : List Uri} {v : Uri} :
    (folders ps us).any v.isWithin = true ↔
      ∃ w ∈ us, ∃ q, get? ps w = some q ∧ q.owns v = true := by
  unfold Project.owns
  simp only [List.any_eq_true, mem_folders]
  constructor
  · rintro ⟨f, ⟨w, hw, q, hq, hf⟩, hv⟩
    exact ⟨w, hw, q, hq, f, hf, hv⟩
  · rintro ⟨w, hw, q, hq, f, hf, hv⟩
    exact ⟨f, ⟨w, hw, q, hq, hf⟩, hv⟩

/-- Where every project has been linked, a document lies below the
folders of a closure exactly if one of the projects owns it that can be
reached over edges as they stand. -/
theorem any_folders_closure (hnd : (uris ps).Nodup)
    (hlinked : ∀ p ∈ ps, Stage.linked ≤ p.stage) {root v : Uri} :
    (folders ps (closure ps .linked root)).any v.isWithin = true ↔
      ∃ q ∈ ps, q.uri ∈ closure ps .any root ∧ q.owns v = true := by
  rw [closure_linked hlinked, any_folders]
  constructor
  · rintro ⟨w, hw, q, hq, hv⟩
    obtain ⟨hmem, rfl⟩ := uri_of_get? hq
    exact ⟨q, hmem, hw, hv⟩
  · rintro ⟨q, hmem, hw, hv⟩
    exact ⟨q.uri, hw, q, get?_of_mem hnd hmem, hv⟩

end Projects

-- =========================================================== searching

namespace Store

variable (s : Store)

/-- Whether a project that another reaches owns a document. -/
def Near (p : Project) (v : Uri) : Prop :=
  ∃ q ∈ s.projects, s.projects.Reaches p q ∧ q.owns v = true

instance (p : Project) (v : Uri) : Decidable (s.Near p v) :=
  inferInstanceAs (Decidable (∃ q ∈ s.projects, _))

/-- The documents that are searched for the references of a document,
in order. -/
def searched (builtins : List Uri) (u : Uri) : List Uri :=
  match s.projects.ownerOf? u with
  | none => s.uris.filter (· ≠ u)
  | some p =>
    let near := s.uris.filter fun v => v ≠ u ∧ s.Near p v
    near ++ builtins.filter fun v => v ≠ u ∧ v ∉ near

/-- Whether a document defines a name. -/
def defines (v : Uri) (name : String) : Bool :=
  (s.get? v).any fun d => d.content.any fun c => name ∈ c.names

/-- The scope of an ordinary document among the loaded ones. -/
def scopeOf (builtins : List Uri) (u : Uri) : LinkScope :=
  ⟨s.offersOf (s.candidates u (Horizon.of s builtins u).visible), none⟩

variable {s}

/-- Who lies below a folder of a closure is near. -/
theorem near_iff (hlinked : ∀ p ∈ s.projects, Stage.linked ≤ p.stage)
    {p : Project} (hp : p ∈ s.projects) {v : Uri} :
    (s.projects.folders (s.projects.closure .linked p.uri)).any
      v.isWithin = true ↔ s.Near p v := by
  have hnd := s.uris_projects_nodup
  rw [Projects.any_folders_closure hnd hlinked]
  refine exists_congr fun q => and_congr_right fun hq =>
    and_congr_left fun _ => ?_
  rw [Projects.mem_closure_any hnd hp]
  constructor
  · rintro ⟨r, hr, huri, hpr⟩
    exact Projects.eq_of_uri hnd hr hq huri ▸ hpr
  · exact fun hpq => ⟨q, hq, rfl, hpq⟩

/-- Where every project has been linked, a document is linked against
the documents that are to be searched. -/
theorem candidates_eq_searched
    (hlinked : ∀ p ∈ s.projects, Stage.linked ≤ p.stage)
    {builtins : List Uri} (hb : builtins.Nodup) (u : Uri) :
    s.candidates u (Horizon.of s builtins u).visible
      = s.searched builtins u := by
  unfold searched Horizon.of
  cases howner : s.projects.ownerOf? u with
  | none => rfl
  | some p =>
    have hp : p ∈ s.projects := List.mem_of_find?_eq_some howner
    have hnear : (s.uris.filter fun v => v ≠ u
          ∧ (s.projects.folders (s.projects.closure .linked p.uri)).any
            v.isWithin)
        = s.uris.filter fun v => v ≠ u ∧ s.Near p v := by
      refine List.filter_congr fun v _ => ?_
      exact decide_eq_decide.2
        (and_congr_right fun _ => near_iff hlinked hp)
    show Distinct.union _ (builtins.filter (· ≠ u)) = _
    rw [hnear, Distinct.union_eq_append (hb.filter _),
      List.filter_filter]
    congr 1
    refine List.filter_congr fun v _ => ?_
    rw [Bool.and_comm, ← Bool.decide_and]

/-- Looking up a name finds the first document that defines it. -/
theorem resolve_offersOf (hoffered : ∀ v d, s.get? v = some d →
      ∃ c, d.content = some c ∧ d.offered = some (Distinct.ofList c.names))
    (vs : List Uri) (name : String) :
    (⟨s.offersOf vs, none⟩ : LinkScope).resolve name
      = vs.find? (s.defines · name) := by
  unfold LinkScope.resolve offersOf
  dsimp only
  induction vs with
  | nil => rfl
  | cons v vs ih =>
    rw [List.filterMap_cons, List.find?_cons]
    cases hd : s.get? v with
    | none =>
      have hnot : s.defines v name = false := by simp [defines, hd]
      rw [hnot]
      exact ih
    | some d =>
      obtain ⟨c, hc, ho⟩ := hoffered v d hd
      have hdefines : s.defines v name = decide (name ∈ c.names) := by
        simp [defines, hd, hc]
      rw [hdefines]
      simp only [Option.bind_some, ho, Option.map_some,
        List.find?_cons, Distinct.mem_ofList]
      by_cases hname : name ∈ c.names
      · simp [hname]
      · simp only [hname, decide_false]
        exact ih

end Store

end Purview
