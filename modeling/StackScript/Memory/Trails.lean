import StackScript.Memory.Heap
import StackScript.Memory.Size

/-!
# Allocation trails

A memory that is being debugged remembers where each container was allocated.  A trail is recorded
when a container has got its handle, and forgotten when the container is gone.  Handles are used
again, so a trail that is recorded takes the place of one that has been recorded for the same handle.
-/

namespace StackScript

/-- Where a container was allocated. -/
structure Trail where
  handle : Handle
  /-- What the container is charged to. -/
  account : Account
  /-- The call trail, the innermost frame first. -/
  frames : List String
deriving DecidableEq, Repr

/-- The trails recorded. -/
abbrev Trails := List Trail

namespace Trails

/-- Forget the trail of a container. -/
def forget (l : Trails) (handle : Handle) : Trails := l.filter (·.handle ≠ handle)

/-- Record a trail. -/
def record (l : Trails) (t : Trail) : Trails := t :: forget l t.handle

/-- The trails by handle, the lowest first. -/
def sorted (l : Trails) : Trails := l.mergeSort fun t u => decide (t.handle ≤ u.handle)

end Trails

end StackScript
