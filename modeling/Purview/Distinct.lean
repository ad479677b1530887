/-
Sets that remember the order in which their members arrived. Load
order, closure order and the order of a report's lists are all visible
to a caller, so a set here is a list without repetitions: adding a
member that is already present changes nothing, and a new member goes
to the end.
-/

namespace Purview.Distinct

variable {α : Type _} [DecidableEq α]

/-- Adds a member at the end, unless it is present already. -/
def insert (xs : List α) (x : α) : List α :=
  if x ∈ xs then xs else xs ++ [x]

/-- Adds the members of a list one after another. -/
def union (xs ys : List α) : List α :=
  ys.foldl insert xs

/-- The members of a list, each where it first stands. -/
def ofList (xs : List α) : List α :=
  union [] xs

-- ======================================================= membership

/-- A set that takes in an element has it besides what it had. -/
@[simp] theorem mem_insert {xs : List α} {x y : α} :
    y ∈ insert xs x ↔ y ∈ xs ∨ y = x := by
  unfold insert
  split
  · next h => exact ⟨Or.inl, fun | .inl h' => h' | .inr e => e ▸ h⟩
  · simp

/-- A set that takes in a list has all of it. -/
@[simp] theorem mem_union {xs ys : List α} {y : α} :
    y ∈ union xs ys ↔ y ∈ xs ∨ y ∈ ys := by
  unfold union
  induction ys generalizing xs with
  | nil => simp
  | cons z zs ih => simp [ih, or_assoc]

/-- Of a list nothing is lost but repetitions. -/
@[simp] theorem mem_ofList {xs : List α} {y : α} :
    y ∈ ofList xs ↔ y ∈ xs := by
  simp [ofList]

-- ================================================== no repetitions

theorem nodup_insert {xs : List α} (h : xs.Nodup) (x : α) :
    (insert xs x).Nodup := by
  unfold insert
  split
  · exact h
  · next hx =>
    refine List.nodup_append.2 ⟨h, by simp, ?_⟩
    intro a ha b hb e
    simp at hb
    exact hx (hb ▸ e ▸ ha)

/-- Taking in more never repeats anything. -/
theorem nodup_union {xs : List α} (h : xs.Nodup) (ys : List α) :
    (union xs ys).Nodup := by
  unfold union
  induction ys generalizing xs with
  | nil => exact h
  | cons z zs ih => exact ih (nodup_insert h z)

theorem nodup_ofList (xs : List α) : (ofList xs).Nodup :=
  nodup_union List.nodup_nil xs

end Purview.Distinct
