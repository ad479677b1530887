/-
What a gate hands out. A gate answers one call after another, so that
what many ask of it side by side, some offering changes and some opening
it, is one list of calls, in whatever order they come to their turn. Of
what these calls bring nothing is lost, nothing is handed out twice, and
nothing overtakes: all that the calls hand out, one behind the other, and
behind it what the gate still keeps, is all that they brought
(`flatten_answers`).

One call alone keeps this balance only if an open gate keeps nothing. It
lets a change straight through, in front of whatever it should still
keep; so the invariant of the run is that it keeps nothing by then
(`Cleared`), and it is the opening that clears it.

A workspace turns to its gate by such calls and in no other way
(`gate_run`): it opens it when it starts, and offers it what it is notified
of. So all that it is notified of before it starts is there when it does.
-/
import Purview.Proofs.Coherence

namespace Purview

namespace Gate

variable {g : Gate}

-- ========================================================== vocabulary

/-- What a gate is asked to do. -/
inductive Call where
  /-- To take a change, or to let it through. -/
  | offer (c : Change)
  /-- To open. -/
  | release
deriving DecidableEq

/-- The changes that a call brings to the gate. -/
def Call.offered : Call → List Change
  | offer c => [c]
  | release => []

/-- Answers a call with the changes it hands out. -/
def answer (g : Gate) : Call → Gate × List Change
  | .offer c => ((g.offer c).1, (g.offer c).2.toList)
  | .release => g.release

/-- The gate behind some calls. -/
def after (g : Gate) (calls : List Call) : Gate :=
  calls.foldl (fun g call => (g.answer call).1) g

/-- What some calls hand out, one list for each. -/
def answers (g : Gate) : List Call → List (List Change)
  | [] => []
  | call :: calls => (g.answer call).2 :: (g.answer call).1.answers calls

/-- An open gate keeps nothing. -/
def Cleared (g : Gate) : Prop :=
  g.isOpen = true → g.queue = []

-- ============================================================ one call

/-- An open gate stays as it is, and hands back what it is brought. -/
theorem answer_of_open (h : g.isOpen = true) (call : Call) :
    g.answer call = (g, call.offered) := by
  cases call with
  | offer c => simp [answer, offer, h, Call.offered]
  | release => simp [answer, release, h, Call.offered]

/-- What comes while the gate is closed waits. -/
theorem offer_of_closed (h : g.isOpen = false) (c : Change) :
    g.answer (.offer c) = (⟨false, g.queue ++ [c]⟩, []) := by
  simp [answer, offer, h]

/-- Opening the gate lets out what has waited. -/
theorem release_of_closed (h : g.isOpen = false) :
    g.answer .release = (⟨true, []⟩, g.queue) := by
  simp [answer, release, h]

theorem cleared_answer (h : g.Cleared) (call : Call) :
    (g.answer call).1.Cleared := by
  cases hopen : g.isOpen with
  | true =>
    rw [answer_of_open hopen]
    exact h
  | false =>
    cases call with
    | offer c =>
      rw [offer_of_closed hopen]
      intro hnow
      cases hnow
    | release =>
      rw [release_of_closed hopen]
      exact fun _ => rfl

/-- What a call hands out, and then what is kept, is what was kept and
then what it brings. -/
theorem answer_append_queue (h : g.Cleared) (call : Call) :
    (g.answer call).2 ++ (g.answer call).1.queue
      = g.queue ++ call.offered := by
  cases hopen : g.isOpen with
  | true =>
    -- the change comes back in front of the queue, so there must be none
    have hnone : g.queue = [] := h hopen
    rw [answer_of_open hopen, hnone, List.append_nil, List.nil_append]
  | false =>
    cases call with
    | offer c =>
      rw [offer_of_closed hopen]
      rfl
    | release =>
      rw [release_of_closed hopen]
      rfl

-- =============================================================== calls

@[simp] theorem after_nil : g.after [] = g := rfl

@[simp] theorem after_cons (call : Call) (calls : List Call) :
    g.after (call :: calls) = (g.answer call).1.after calls := rfl

theorem after_append (calls more : List Call) :
    g.after (calls ++ more) = (g.after calls).after more := List.foldl_append

/-- Behind any calls too, all that was handed out and then what is kept
is what was kept at first and then all that was brought. -/
theorem flatten_answers (h : g.Cleared) (calls : List Call) :
    (g.answers calls).flatten ++ (g.after calls).queue
      = g.queue ++ calls.flatMap Call.offered := by
  induction calls generalizing g with
  | nil => simp [answers]
  | cons call calls ih =>
    have hstep := answer_append_queue h call
    have hrest := ih (cleared_answer h call)
    calc (g.answers (call :: calls)).flatten
          ++ (g.after (call :: calls)).queue
        = (g.answer call).2 ++ (((g.answer call).1.answers calls).flatten
          ++ ((g.answer call).1.after calls).queue) := by
          rw [answers, List.flatten_cons, after_cons, List.append_assoc]
      _ = ((g.answer call).2 ++ (g.answer call).1.queue)
          ++ calls.flatMap Call.offered := by
          rw [hrest, List.append_assoc]
      _ = g.queue ++ (call :: calls).flatMap Call.offered := by
          rw [hstep, List.flatMap_cons, List.append_assoc]

theorem after_of_open (h : g.isOpen = true) (calls : List Call) :
    g.after calls = g := by
  induction calls with
  | nil => rfl
  | cons call calls ih =>
    rw [after_cons, answer_of_open h]
    exact ih

/-- A gate is open and empty from the first call to open it; up to then
it keeps all that it is brought. -/
theorem after_of_closed (h : g.isOpen = false) (calls : List Call) :
    g.after calls = if .release ∈ calls then ⟨true, []⟩
      else ⟨false, g.queue ++ calls.flatMap Call.offered⟩ := by
  induction calls generalizing g with
  | nil =>
    rw [after_nil, if_neg List.not_mem_nil, List.flatMap_nil,
      List.append_nil, ← h]
  | cons call calls ih =>
    cases call with
    | offer c =>
      rw [after_cons, offer_of_closed h, ih rfl]
      simp [Call.offered]
    | release =>
      rw [after_cons, release_of_closed h, after_of_open rfl,
        if_pos List.mem_cons_self]

/-- Each call is answered by the gate behind the calls before it. -/
theorem getElem?_answers (calls : List Call) (i : Nat) :
    (g.answers calls)[i]?
      = calls[i]?.map fun call => ((g.after (calls.take i)).answer call).2 := by
  induction calls generalizing g i with
  | nil => rfl
  | cons call calls ih =>
    cases i with
    | zero => rfl
    | succ i => exact ih i

-- ============================================================ delivery

/-- Whatever calls are made to a gate, all that they hand out, one behind
the other, and then what the gate keeps, is all that they brought, in
order. Opening it a second time hands out nothing. And at each moment the
gate is open and empty if it has been opened, and keeps all that it was
brought if it has not. -/
theorem delivered_in_order (calls : List Call) :
    (closed.answers calls).flatten ++ (closed.after calls).queue
        = calls.flatMap Call.offered
      ∧ (∀ i j : Nat, i < j → calls[i]? = some .release →
          calls[j]? = some .release → (closed.answers calls)[j]? = some [])
      ∧ ∀ i, closed.after (calls.take i)
          = if .release ∈ calls.take i then ⟨true, []⟩
            else ⟨false, (calls.take i).flatMap Call.offered⟩ := by
  have hgate (i : Nat) := after_of_closed (g := closed) rfl (calls.take i)
  refine ⟨?_, ?_, hgate⟩
  · have hclosed : closed.Cleared := fun h => by cases h
    exact flatten_answers hclosed calls
  · intro i j hij hi hj
    have hopened : Call.release ∈ calls.take j := by
      refine List.mem_of_getElem? (i := i) ?_
      rw [List.getElem?_take_of_lt hij, hi]
    have hnow : closed.after (calls.take j) = ⟨true, []⟩ := by
      rw [hgate, if_pos hopened]
    rw [getElem?_answers, hj, hnow, Option.map_some, answer_of_open rfl]
    rfl

/-- Of two changes one waits for the gate to be opened and the other comes
when it is open; to open it once more hands out neither. -/
theorem delivered_in_order_reopened :
    let first := Change.removal ⟨"", true, ["a"]⟩
    let later := Change.edit ⟨⟨"", true, ["b"]⟩, "def B;"⟩
    let calls := [Call.offer first, .release, .offer later, .release]
    (1 < 3 ∧ calls[1]? = some .release ∧ calls[3]? = some .release)
      ∧ (closed.answers calls)[3]? = some []
      ∧ closed.answers calls = [[], [first], [later], []] := by
  refine ⟨by decide, ?_, by decide⟩
  exact (delivered_in_order _).2.1 1 3 (by decide) rfl rfl

end Gate

-- =========================================================== workspaces

/-- What an action has the gate do. -/
def Action.calls : Action → List Gate.Call
  | start _ => [.release]
  | notify c => [.offer c]
  | _ => []

namespace Workspace

variable {w : Workspace}

theorem gate_notify (host : Host) (c : Change) :
    (w.notify host c).1.gate = (w.gate.offer c).1 := by
  rw [notify]
  cases hopen : w.gate.isOpen with
  | true => simp only [Gate.offer, hopen, if_true, gate_withScene]
  | false => simp only [Gate.offer, hopen, Bool.false_eq_true, if_false]

/-- A request does to the gate what its calls do. -/
theorem gate_serve (r : Request) :
    (w.serve r).gate = w.gate.after r.action.calls := by
  obtain ⟨host, withdrawn, action⟩ := r
  cases action with
  | start files =>
    show ((w.begin withdrawn).start host files).1.gate
      = (w.gate.answer .release).1
    cases hopen : w.gate.isOpen with
    | true =>
      rw [start_of_open (w := w.begin withdrawn) host files hopen, gate_update,
        Gate.answer_of_open hopen]
      rfl
    | false =>
      rw [gate_start (w := w.begin withdrawn) host files hopen,
        Gate.release_of_closed hopen]
  | notify c => exact gate_notify (w := w.begin withdrawn) host c
  | put | remove | invalidate | build | update | visible | isAffected => rfl

/-- Over any run of requests the gate is asked for what they have it do,
and for nothing else. -/
theorem gate_run (rs : List Request) :
    (w.run rs).gate = w.gate.after (rs.flatMap fun r => r.action.calls) := by
  induction rs generalizing w with
  | nil => rfl
  | cons r rs ih =>
    rw [List.flatMap_cons, Gate.after_append, ← gate_serve]
    exact ih

/-- Until a workspace has started it keeps all that it is notified of, in
order, and from then on nothing. -/
theorem kept_run (host : Host) (builtins : List SourceFile)
    (rs : List Request) :
    let calls := rs.flatMap fun r => r.action.calls
    ((create host builtins).run rs).gate
      = if .release ∈ calls then ⟨true, []⟩
        else ⟨false, calls.flatMap Gate.Call.offered⟩ :=
  gate_run rs ▸ Gate.after_of_closed rfl _

end Workspace

end Purview
