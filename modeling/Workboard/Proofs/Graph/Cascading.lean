import Workboard.Proofs.Graph.Settling

/-!
# What a completion frees

The completion of a task is carried on to the tasks that await it, and what becomes of such a task
does not depend on which of its waits is over: it waits for nothing any more. Main statements: the
cascade of a completion has exactly the tasks that await it, in their order, and there is nothing
left for a second one; and cascades of different completions lead to the same snapshot in whatever
order they are made.
-/
namespace Workboard

namespace Task
variable {id other : String} {ids ids' : List String} {now : Instant} {t : Task}

instance (id : String) (t : Task) : Decidable (t.Awaits id) :=
  inferInstanceAs (Decidable (_ ∧ _ ∧ (_ ∨ _ ∧ _ ∧ _)))

/-- The task once the wait for `id` is over: it goes back to todo if it was waiting and has nothing left to
wait for. -/
def released (id : String) (now : Instant) (t : Task) : Task :=
  let waitingFor := if t.waitingFor = some id then none else t.waitingFor
  { t with
    waitingFor
    state := if t.state = .waiting ∧ waitingFor = none then .todo else t.state
    updatedAt := max (max now t.updatedAt) t.createdAt }

theorem freed?_eq (id : String) (now : Instant) (t : Task) :
    t.freed? id now = if t.Awaits id then some (t.released id now) else none := by
  by_cases hawaits : t.Awaits id
  · rw [if_pos hawaits]
    obtain ⟨hne, hopen, hfor | ⟨hstate, hfor, hrequires⟩⟩ := hawaits
    · by_cases hstate : t.state = .waiting
      · simp [freed?, Snapshot.unblocked?, released, moved, touch, hne, hfor, hstate, TaskState.isTerminal]
      · simp [freed?, Snapshot.unblocked?, released, touch, hne, hopen, hfor, hstate]
    · simp [freed?, Snapshot.unblocked?, released, moved, touch, hne, hfor, hstate, hrequires,
        TaskState.isTerminal]
  · rw [if_neg hawaits, freed?_eq_none_iff]
    exact hawaits

/-- Which of the ids that a task awaits is completed makes no difference to it. -/
theorem released_eq (h : t.Awaits id) (h' : t.Awaits other) : t.released id now = t.released other now := by
  have hforgets : ∀ {id}, t.Awaits id → (if t.waitingFor = some id then none else t.waitingFor) = none := by
    rintro id ⟨-, -, hfor | ⟨-, hfor, -⟩⟩
    · rw [if_pos hfor]
    · rw [hfor, ite_self]
  rw [released, released, hforgets h, hforgets h']

/-- Only which ids were completed counts, and not in which order. -/
theorem settled_congr (h : ∀ id, id ∈ ids ↔ id ∈ ids') (now : Instant) (t : Task) :
    t.settled ids now = t.settled ids' now := by
  obtain ⟨hsame, hnone⟩ | ⟨id, hid, hfree⟩ := settled_cases t ids now
  · rw [hsame, settled_of_forall fun id hid => hnone id ((h id).mpr hid)]
  · obtain ⟨-, hnone⟩ | ⟨other, -, hfree'⟩ := settled_cases t ids' now
    · rw [hnone id ((h id).mp hid)] at hfree
      cases hfree
    · rw [freed?_eq, Option.ite_none_right_eq_some, Option.some.injEq] at hfree hfree'
      rw [← hfree.2, ← hfree'.2, released_eq hfree.1 hfree'.1]

end Task

namespace Snapshot
variable {all : Snapshot} {id : String} {ids ids' : List String}

theorem cascade_eq_map (hdone : ∀ t ∈ all, t.id = id → t.state = .done) (now : Instant) :
    all.cascade id now = (all.filter fun t => t.Awaits id).map (Task.released id now) := by
  rw [cascade_eq_filterMap hdone, ← List.filterMap_eq_filter, List.map_filterMap]
  refine List.filterMap_congr fun t _ => ?_
  rw [Task.freed?_eq]
  by_cases h : t.Awaits id <;> simp [Option.guard, h]

/-- A second cascade of the same completion finds nobody who awaits it. -/
theorem cascade_upsertAll_cascade (hnodup : (all.map Task.id).Nodup)
    (hdone : ∀ t ∈ all, t.id = id → t.state = .done) (now later : Instant) :
    Snapshot.cascade (Snapshot.upsertAll (all.cascade id now) all) id later = [] := by
  have hid : ∀ t u : Task, t.freed? id now = some u → u.id = t.id := fun t u h =>
    (Task.sameLinks_of_freed? h).1
  rw [cascade_eq_filterMap hdone, upsertAll_filterMap hid hnodup]
  refine cascade_eq_nil fun u hu => ?_
  obtain ⟨t, -, rfl⟩ := List.mem_map.mp hu
  have hnone : ((t.freed? id now).getD t).freed? id now = none := by
    cases hfreed : t.freed? id now with
    | none => exact hfreed
    | some u => exact Task.freed?_of_freed? hfreed
  exact Task.freed?_eq_none_iff.mpr (Task.freed?_eq_none_iff.mp hnone)

/-- In a snapshot of distinct tasks, whose record of `id` is done if there is one, the cascade of `id` is made
of exactly the tasks that await it, each once and in their order, and each with its wait over and nothing
else changed. With these tasks in their places, another cascade of `id` has no task at any instant. -/
theorem cascade_frees_awaiting (hnodup : (all.map Task.id).Nodup)
    (hdone : ∀ t ∈ all, t.id = id → t.state = .done) (now : Instant) :
    all.cascade id now = (all.filter fun t => t.Awaits id).map (Task.released id now) ∧
    ((all.cascade id now).map Task.id).Nodup ∧
    ∀ later, Snapshot.cascade (Snapshot.upsertAll (all.cascade id now) all) id later = [] :=
  ⟨cascade_eq_map hdone now, nodup_cascade hnodup id, cascade_upsertAll_cascade hnodup hdone now⟩

/-- Two tasks that are done, one that requires both, and one that requires one and waits for the other. -/
def crossing : Snapshot :=
  [{ id := "a", title := "", state := .done, createdAt := ⟨0, 0⟩, updatedAt := ⟨0, 0⟩ },
    { id := "b", title := "", state := .done, createdAt := ⟨0, 0⟩, updatedAt := ⟨0, 0⟩ },
    { id := "c", title := "", state := .waiting, requires := .ofList ["a", "b"], createdAt := ⟨0, 0⟩,
      updatedAt := ⟨1, 0⟩ },
    { id := "d", title := "", state := .active, waitingFor := some "a", requires := .ofList ["b"],
      createdAt := ⟨0, 0⟩, updatedAt := ⟨9, 0⟩ }]

theorem nodup_crossing : (crossing.map Task.id).Nodup := by decide +kernel

/-- A wait for requirements ends the waiting, and one that is noted in an active task is forgotten there. -/
theorem cascade_frees_awaiting_two :
    crossing.cascade "a" ⟨5, 0⟩ =
      [{ id := "c", title := "", state := .todo, requires := .ofList ["a", "b"], createdAt := ⟨0, 0⟩,
          updatedAt := ⟨5, 0⟩ },
        { id := "d", title := "", state := .active, requires := .ofList ["b"], createdAt := ⟨0, 0⟩,
          updatedAt := ⟨9, 0⟩ }] ∧
    ∀ later, Snapshot.cascade (Snapshot.upsertAll (crossing.cascade "a" ⟨5, 0⟩) crossing) "a" later = [] := by
  have hdone : ∀ t ∈ crossing, t.id = "a" → t.state = .done := by decide +kernel
  obtain ⟨hmap, -, hnothing⟩ := cascade_frees_awaiting nodup_crossing hdone ⟨5, 0⟩
  exact ⟨hmap.trans (by decide +kernel), hnothing⟩

theorem all_cascades_congr (hnodup : (all.map Task.id).Nodup) (now : Instant)
    (hdone : ∀ id ∈ ids, id ∈ all.doneIds) (h : ∀ id, id ∈ ids ↔ id ∈ ids') :
    (({ all } : Repair).cascades now ids).all = (({ all } : Repair).cascades now ids').all := by
  rw [Repair.all_cascades hnodup fun id hid => mem_doneIds.mp (hdone id hid),
    Repair.all_cascades hnodup fun id hid => mem_doneIds.mp (hdone id ((h id).mpr hid))]
  exact List.map_congr_left fun t _ => Task.settled_congr h now t

/-- In a snapshot of distinct tasks the cascades of those that are done can be made one after the other in any
order, with the same snapshot in the end; any two of them can change places. -/
theorem cascades_commute (hnodup : (all.map Task.id).Nodup) (now : Instant) :
    (∀ ids ids' : List String, ids.Perm all.doneIds → ids'.Perm all.doneIds →
      (({ all } : Repair).cascades now ids).all = (({ all } : Repair).cascades now ids').all) ∧
    ∀ id ∈ all.doneIds, ∀ other ∈ all.doneIds,
      (({ all } : Repair).cascades now [id, other]).all = (({ all } : Repair).cascades now [other, id]).all := by
  refine ⟨fun ids ids' h h' => ?_, fun id hid other hother => ?_⟩
  · exact all_cascades_congr hnodup now (fun id => h.mem_iff.mp) fun id => h.mem_iff.trans h'.mem_iff.symm
  · refine all_cascades_congr hnodup now (fun x hx => ?_) fun x => by simp [or_comm]
    obtain rfl | rfl : x = id ∨ x = other := by simpa using hx
    · exact hid
    · exact hother

theorem cascades_commute_two :
    (({ all := crossing } : Repair).cascades ⟨5, 0⟩ ["a", "b"]).all =
      (({ all := crossing } : Repair).cascades ⟨5, 0⟩ ["b", "a"]).all :=
  (cascades_commute nodup_crossing ⟨5, 0⟩).1 _ _ (by decide +kernel) (by decide +kernel)

end Snapshot

end Workboard
