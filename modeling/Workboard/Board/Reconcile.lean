import Workboard.Board.Basic

/-!
# Reconciling a board

What interrupted operations left undone is done again: the dependents of every task
that is done go on, and the noted dependents of every task are put right.
-/
namespace Workboard

namespace Snapshot

/-- Each update in place of the first record of its id. -/
def upsertAll (updates : List Task) (all : Snapshot) : Snapshot :=
  updates.foldl (fun all t => all.upsert t) all

end Snapshot

/-- A snapshot under repair, and the tasks that were changed in it. -/
structure Repair where
  all : Snapshot
  changed : Snapshot := []

namespace Repair

def apply (r : Repair) (updates : List Task) : Repair :=
  ⟨r.all.upsertAll updates, r.changed.upsertAll updates⟩

/-- Let the dependents of each of the ids go on. -/
def cascades (now : Instant) (ids : List String) (r : Repair) : Repair :=
  ids.foldl (fun r id => r.apply (r.all.cascade id now)) r

/-- Put the noted dependents right. -/
def links (now : Instant) (r : Repair) : Repair := r.apply (r.all.staleBlocks now)

end Repair

/-- The tasks of a snapshot that have to change, already changed. -/
def Snapshot.repairs (all : Snapshot) (now : Instant) : List Task :=
  let done := (all.filter (·.state = .done)).map Task.id
  (({ all : Repair }.cascades now done).links now).changed

namespace Board
open Workboard.Action

/-- Repair the board; the tasks that were changed and saved. -/
def reconcile (b : Board) : Action (List Task) := do
  let now ← now
  let all ← Records.scan b.root
  b.saveEach (all.repairs now)

end Board

end Workboard
