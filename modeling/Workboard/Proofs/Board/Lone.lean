import Workboard.Proofs.Board.Steps
import Workboard.Proofs.Graph.Readiness
import Workboard.Proofs.Interleaving.Stretches
import Workboard.Proofs.Storage.Steady

/-!
# A board with one task

A small board on which runs can be computed: one task in todo, not yet locked.
-/
namespace Workboard.Lone

def board : Board := ⟨⟨["/", "store"], "/store"⟩, {}⟩

def begun : Instant := ⟨1740819600, 0⟩

def task : Task := { id := "a", title := "", state := .todo, createdAt := begun, updatedAt := begun }

/-- The text of the record, shorter than the board would write it. -/
def content : String := "---\nid: a\nstate: todo\ncreated_at: 2025-03-01T09:00:00Z\n" ++
  "updated_at: 2025-03-01T09:00:00Z\n---\n"

def world : World Files :=
  ⟨⟨[(["/", "store", "tasks", "a.md"], content)], []⟩, begun, 0, 4, 0⟩

theorem steady_world : world.Steady := by
  refine World.steady_of_isPublic (List.nodup_singleton _) fun names hnames => ?_
  rw [List.mem_singleton.mp hnames]
  exact isPublic_of_getLast? rfl (by decide)

theorem loadAll_world : ((Records.loadAll board.root).run.runIn world).1 = .ok ⟨[task], []⟩ := by
  decide +kernel

theorem claimable_task : Snapshot.claimable [task] = [task] := by
  -- the search for components does not reduce in the kernel, the one from each id does
  simp only [Snapshot.claimable, Snapshot.ready_eq]
  decide +kernel

theorem mem_claimable : task ∈ Snapshot.claimable [task] := by
  rw [claimable_task]
  exact List.mem_singleton_self task

theorem unlocked (id : String) : world.store.text? (Locks.path board.root id).names = none := by
  simp [world, Files.text?, Records.names_lock_path, board, List.lookup_cons]

/-- The world in which "x" has locked and started the task. -/
def started : World Files :=
  ⟨⟨[(["/", "store", "locks", "a.lock"],
      (LockRecord.new "a" "x" begun board.settings.lockTimeout).render),
    (["/", "store", "tasks", "a.md"], Record.render (task.started "x" begun))], []⟩, begun, 0, 4, 1⟩

end Workboard.Lone
