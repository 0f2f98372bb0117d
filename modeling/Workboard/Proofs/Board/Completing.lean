import Workboard.Proofs.Board.Recovery
import Workboard.Proofs.Graph.Completing

/-!
# What is ready after a completion

A completion saves the record of the task and those that its cascade frees, and a scan then
finds these records in their places. Main statement: no other task that was ready is ready
no more, and what is ready in addition is what the completed task alone kept from it.
-/
namespace Workboard.Board
open Workboard.Action
variable {b : Board} {w : World Files} {a : Task} {owner : String}

theorem ends_ready {post : Except Error (List Task) → World Files → Prop}
    (h : post (.ok (Records.allAt w.store b.root).ready) w) : b.ready.Ends w post :=
  ends_bind (Records.ends_scan (ends_pure h))

/-- If everything that is saved can be written and is read back, the owner of an active task
completes it, and ready are then exactly the other tasks that were ready before, and the open
tasks on no cycle to which nothing but the completed task was missing. -/
theorem completion_readies (hw : w.Steady) (hopen : w.store.refusing = [])
    (hload : Records.loadAt w.store b.root a.id = .ok a) (hactive : a.state = .active)
    (howner : (Locks.slotAt w.store (Locks.path b.root a.id)).owner? = some owner)
    (hdone : (a.moved .done { lockHeld := true } w.clock).ReadsBack)
    (hread : ∀ t ∈ b.freedBy w a, t.ReadsBack) :
    let all := Records.allAt w.store b.root
    let completed := (b.complete a.id owner).run.runIn w
    (b.ready.run.runIn w).1 = .ok all.ready ∧ completed.1 = .ok (b.freedBy w a) ∧
    ∃ ready, (b.ready.run.runIn completed.2).1 = .ok ready ∧ ∀ id, id ∈ ready.map Task.id ↔
      (id ∈ all.ready.map Task.id ∧ id ≠ a.id) ∨
      ∃ t ∈ all, t.id = id ∧ t.state.isTerminal = false ∧ all.onCycle id = false ∧ all.unmet t = [a.id] := by
  intro all completed
  have hbefore : b.ready.Ends w fun r _ => r = .ok all.ready := ends_ready rfl
  have hcan : ∀ t, b.CanSave w t = true := fun t => by simp [CanSave, hopen]
  obtain ⟨hresult, hbecomes⟩ := ends_complete hw (fun names hn => by rw [hopen] at hn; cases hn)
    hload hactive howner (hcan a) hdone
  rw [List.filter_eq_self.mpr fun t _ => hcan t] at hresult hbecomes
  have hall := allAt_completed hw.proper hload hdone (fun t ht => ⟨ht, hread t ht⟩)
    hbecomes.steady.proper hbecomes.text
  have hafter : b.ready.Ends completed.2 fun r _ => r = .ok (Records.allAt completed.2.store b.root).ready :=
    ends_ready rfl
  refine ⟨hbefore, hresult, _, hafter, fun id => ?_⟩
  have hlinks := sameLinks_done a w.clock
  have hmem : a ∈ all := Records.mem_allAt.mpr hload
  rw [hall]
  exact Snapshot.mem_ids_ready_completed (Records.nodup_allAt hw.proper b.root) hmem
    (Snapshot.onceDone_completed (Records.nodup_allAt hw.proper b.root) hmem hlinks.1 hlinks.2.1 rfl)

/-- A world in which "x" has begun the task, and another one requires it and waits. -/
def required : World Files :=
  ⟨⟨[(["/", "store", "locks", "a.lock"],
      (LockRecord.new "a" "x" Lone.begun Lone.board.settings.lockTimeout).render),
    (["/", "store", "tasks", "a.md"], "---\nid: a\nstate: active\nassigned_to: x\n" ++
      "created_at: 2025-03-01T09:00:00Z\nupdated_at: 2025-03-01T09:00:00Z\n---\n"),
    (["/", "store", "tasks", "b.md"], "---\nid: b\nstate: waiting\nrequires:\n- a\n" ++
      "created_at: 2025-03-01T09:00:00Z\nupdated_at: 2025-03-01T09:00:00Z\n---\n")], []⟩,
    Lone.begun, 0, 4, 0⟩

theorem steady_required : required.Steady := by
  refine World.steady_of_isPublic (by unfold Files.Proper; decide) fun names hnames => ?_
  simp only [required, List.map_cons, List.map_nil, List.mem_cons, List.not_mem_nil, or_false] at hnames
  obtain rfl | rfl | rfl := hnames <;> exact isPublic_of_getLast? rfl (by decide)

/-- The task that waits. -/
def requirer : Task :=
  { id := "b", title := "", state := .waiting, requires := .ofList ["a"], createdAt := Lone.begun,
    updatedAt := Lone.begun }

theorem allAt_required : Records.allAt required.store Lone.board.root = [begunTask, requirer] := by
  decide +kernel

theorem freedBy_required : Lone.board.freedBy required begunTask =
    [{ requirer with state := .todo }] := by
  unfold freedBy
  rw [allAt_required]
  rfl

/-- The task that required the completed one is ready. -/
theorem completion_readies_required :
    let completed := (Lone.board.complete begunTask.id "x").run.runIn required
    ∃ ready, (Lone.board.ready.run.runIn completed.2).1 = .ok ready ∧ "b" ∈ ready.map Task.id := by
  have hread : ∀ t ∈ Lone.board.freedBy required begunTask, t.ReadsBack := by
    rw [freedBy_required]
    unfold Task.ReadsBack
    decide +kernel
  have howner : (Locks.slotAt required.store (Locks.path Lone.board.root begunTask.id)).owner? = some "x" := by
    decide +kernel
  obtain ⟨-, -, ready, hready, hids⟩ := completion_readies (b := Lone.board) (a := begunTask) steady_required rfl
    (Records.mem_allAt.mp (by simp [allAt_required])) rfl howner (by unfold Task.ReadsBack; decide +kernel) hread
  refine ⟨ready, hready, (hids "b").mpr (.inr ?_)⟩
  rw [allAt_required]
  exact ⟨requirer, by simp, rfl, rfl, by decide +kernel, by decide +kernel⟩

end Workboard.Board
