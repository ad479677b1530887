/-
Changes that arrive before the workspace has started. Until the gate is
opened it keeps them in the order of arrival; opening it hands them out
once, and from then on a change passes straight through. A gate never
closes again.
-/
import Purview.Change

namespace Purview

/-- Whether the workspace has started, and the changes kept for then. -/
structure Gate where
  isOpen : Bool
  queue : List Change
deriving DecidableEq

namespace Gate

/-- A gate that has not been opened. -/
def closed : Gate := ⟨false, []⟩

/-- Hands a change to the gate: it comes back if the gate is open, and
is kept otherwise. -/
def offer (g : Gate) (c : Change) : Gate × Option Change :=
  if g.isOpen then (g, some c) else (⟨false, g.queue ++ [c]⟩, none)

/-- Opens the gate and hands out what it has kept, which only the first
opening can. -/
def release (g : Gate) : Gate × List Change :=
  if g.isOpen then (g, []) else (⟨true, []⟩, g.queue)

end Gate

end Purview
