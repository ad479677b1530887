/-
Walks over the graph of projects. Each walk carries the projects it has
not met yet: meeting one takes it off that list, and a project that is
not on it is passed over. So a cycle is entered once, and a walk ends
because the steps that are left can be bounded beforehand, by those at
hand and those that meeting the others can add. The bounds are numbers,
so that walks can be run by evaluation.

  - `preorder` goes depth first, dependencies in declaration order, and
    lists the projects as it meets them; from a project it gives the
    projects reachable from it, itself first (`closure`);
  - `layers` goes breadth first against the edges and lists the
    projects from which its start can be reached (`dependents`);
  - `wayBack` goes depth first, keeping the way it came, until an edge
    leads back to its start (`cycle?`).
-/
import Purview.Project

namespace Purview.Walk

variable {α : Type}

-- ============================================================== bounds

/-- The steps that meeting projects can add: one for the project, and
one for each of its edges. -/
def work (next : α → List α) : List α → Nat
  | [] => 0
  | u :: us => (next u).length + 1 + work next us

/-- The most edges that a project of a list has. -/
def breadth (next : α → List α) : List α → Nat
  | [] => 0
  | u :: us => max (next u).length (breadth next us)

/-- A project of a list has no more edges than that. -/
theorem le_breadth (next : α → List α) {us : List α} {u : α}
    (h : u ∈ us) : (next u).length ≤ breadth next us := by
  induction us with
  | nil => cases h
  | cons v us ih =>
    rcases List.mem_cons.1 h with rfl | h
    · exact Nat.le_max_left _ _
    · exact Nat.le_trans (ih h) (Nat.le_max_right _ _)

/-- With fewer projects the most edges become no more. -/
theorem breadth_mono (next : α → List α) {us vs : List α}
    (h : us ⊆ vs) : breadth next us ≤ breadth next vs := by
  induction us with
  | nil => exact Nat.zero_le _
  | cons u us ih =>
    obtain ⟨hu, hus⟩ := List.cons_subset.1 h
    exact Nat.max_le.2 ⟨le_breadth next hu, ih hus⟩

variable [DecidableEq α]

/-- Who has been met adds no further steps. -/
theorem work_erase (next : α → List α) {unmet : List α} {u : α}
    (h : u ∈ unmet) :
    work next unmet = (next u).length + 1 + work next (unmet.erase u) := by
  induction unmet with
  | nil => cases h
  | cons v us ih =>
    by_cases huv : u = v
    · rw [huv, List.erase_cons_head, work]
    · have hu : u ∈ us := (List.mem_cons.1 h).resolve_left huv
      rw [List.erase_cons_tail (by simpa using Ne.symm huv), work, work,
        ih hu, Nat.add_left_comm]

-- ============================================================ depth first

/-- Depth-first order of what can be reached from the stack through
projects not met yet. -/
def preorder (next : α → List α) (unmet : List α) :
    (stack : List α) → List α
  | [] => []
  | u :: stack =>
    if u ∈ unmet then u :: preorder next (unmet.erase u) (next u ++ stack)
    else preorder next unmet stack
termination_by stack => work next unmet + stack.length
decreasing_by
  · next h =>
    rw [work_erase next h, List.length_append, List.length_cons]
    omega
  · exact Nat.add_lt_add_left (Nat.lt_succ_self _) _

-- ========================================================== breadth first

/-- The members of a list that are not met yet. -/
def fresh (unmet us : List α) : List α :=
  us.filter (· ∈ unmet)

/-- What is left to meet after some have been met. -/
def without (unmet met : List α) : List α :=
  unmet.filter (· ∉ met)

/-- Meeting somebody leaves fewer to meet, which is why a walk ends. -/
theorem length_without_lt {unmet us : List α} (h : fresh unmet us ≠ []) :
    (without unmet (fresh unmet us)).length < unmet.length := by
  obtain ⟨v, hv⟩ := List.exists_mem_of_ne_nil _ h
  have hu : v ∈ unmet := by simpa using (List.mem_filter.1 hv).2
  refine Nat.lt_of_le_of_ne (List.length_filter_le _ _) fun heq => ?_
  have hout := List.length_filter_eq_length_iff.1 heq v hu
  exact absurd hv (by simpa using hout)

/-- What is left to look at behind a step was there before. -/
theorem without_append_subset (next : α → List α) (unmet queue : List α)
    (u : α) :
    without unmet (fresh unmet (next u)) ++ (queue ++ fresh unmet (next u))
      ⊆ unmet ++ u :: queue := by
  intro v hv
  rw [List.mem_append, List.mem_cons]
  rcases List.mem_append.1 hv with hv | hv
  · exact .inl (List.mem_filter.1 hv).1
  · rcases List.mem_append.1 hv with hv | hv
    · exact .inr (.inr hv)
    · exact .inl (of_decide_eq_true (List.mem_filter.1 hv).2)

/-- Breadth-first order of what follows the queue through projects not
met yet. The members of the queue have been listed already. -/
def layers (next : α → List α) (unmet : List α) :
    (queue : List α) → List α
  | [] => []
  | u :: queue =>
    let met := fresh unmet (next u)
    met ++ layers next (without unmet met) (queue ++ met)
termination_by queue =>
  unmet.length * breadth next (unmet ++ queue) + queue.length
decreasing_by
  -- A step adds no more than the breadth, and only if there are fewer to
  -- meet behind it.
  have hbreadth := breadth_mono next
    (without_append_subset next unmet queue u)
  have hadded : (fresh unmet (next u)).length
      ≤ breadth next (unmet ++ u :: queue) :=
    Nat.le_trans (List.length_filter_le _ _) (le_breadth next (by simp))
  rw [List.length_append, List.length_cons]
  by_cases h : fresh unmet (next u) = []
  · have hnone : (fresh unmet (next u)).length = 0 := by
      rw [h, List.length_nil]
    have hfewer : (without unmet (fresh unmet (next u))).length
        ≤ unmet.length := List.length_filter_le _ _
    have hleft := Nat.mul_le_mul hfewer hbreadth
    omega
  · have hfewer := Nat.mul_le_mul_right
      (breadth next (unmet ++ u :: queue)) (length_without_lt h)
    have hleft := Nat.mul_le_mul_left
      (without unmet (fresh unmet (next u))).length hbreadth
    rw [Nat.succ_mul] at hfewer
    omega

-- ============================================================= ways back

/-- The work left on a way: each of its stations with the edges that
are still to be tried there. -/
def effort : List (α × List α) → Nat
  | [] => 0
  | (_, untried) :: way => untried.length + 1 + effort way

/-- Searches for an edge back to `start`, depth first. The way leads
from the innermost station outward; with the edge found, the stations
from the start on are the result. -/
def wayBack (start : α) (next : α → List α) (unmet : List α) :
    (way : List (α × List α)) → Option (List α)
  | [] => none
  | (_, []) :: way => wayBack start next unmet way
  | (u, v :: untried) :: way =>
    if v = start then some ((u :: way.map Prod.fst).reverse)
    else if v ∈ unmet then
      wayBack start next (unmet.erase v) ((v, next v) :: (u, untried) :: way)
    else wayBack start next unmet ((u, untried) :: way)
termination_by way => work next unmet + effort way
decreasing_by
  · simp [effort]
  · next h =>
    rw [work_erase next h]
    simp only [effort, List.length_cons]
    omega
  · simp only [effort, List.length_cons]
    omega

end Purview.Walk

namespace Purview.Projects

variable (ps : Projects)

/-- The projects reachable from a project, itself first, in depth-first
order. From anything else nothing is reached. -/
def closure (policy : EdgePolicy) (root : Uri) : List Uri :=
  Walk.preorder (targets ps policy) (uris ps) [root]

/-- The other projects from which a project can be reached. -/
def dependents (u : Uri) : List Uri :=
  Walk.layers (sources ps) ((uris ps).filter (· ≠ u)) [u]

/-- The names along a way from a project back to itself, which stands
at both ends. -/
def cycle? (u : Uri) : Option (List String) :=
  match get? ps u with
  | none => none
  | some p =>
    (Walk.wayBack u (targets ps .any) ((uris ps).filter (· ≠ u))
      [(u, targets ps .any u)]).map
      fun way =>
        (way.filterMap (get? ps)).map (·.descriptor.name)
          ++ [p.descriptor.name]

end Purview.Projects
