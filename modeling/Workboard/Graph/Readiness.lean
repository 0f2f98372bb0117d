import Workboard.Graph.Components

/-!
# What is ready

All that is ready is found at once: the ids on a cycle are those of all cycles together, so no
search is made for each task. What is ready stands in the order in which it is claimed.
-/
namespace Workboard

/-- The order in which tasks are claimed: the most urgent first, then the oldest, then
by id. -/
def Task.before (a b : Task) : Bool :=
  if a.priority = b.priority then
    if a.createdAt = b.createdAt then a.id ≤ b.id else a.createdAt ≤ b.createdAt
  else b.priority.rank ≤ a.priority.rank

namespace Snapshot

/-- The tasks that are ready and not at their end, in the order of claims. -/
def ready (all : Snapshot) : List Task :=
  let cyclic := all.cycles.flatten
  sortBy Task.before
    (all.filter fun t => !t.state.isTerminal && !cyclic.contains t.id && (all.unmet t).isEmpty)

/-- The ready tasks that can be claimed. -/
def claimable (all : Snapshot) : List Task := all.ready.filter (·.state = .todo)

end Snapshot

end Workboard
