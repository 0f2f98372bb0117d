import Workboard.Proofs.Graph.Cascading
import Workboard.Proofs.Graph.Readiness
import Workboard.Proofs.Graph.SameNodes

/-!
# What a completion readies

A completion with its cascade changes records, but not what they require, so all cycles stay.
What is done or at its end becomes more by the completed task and by nothing else. Main
statement: ready are afterwards the other tasks that were ready before, and those to which
nothing but this task was still missing.
-/
namespace Workboard

/-- The record before and after the completion of `id`. -/
structure Task.OnceDone (completed : String) (t u : Task) : Prop where
  id : u.id = t.id
  requires : u.requires = t.requires
  done : u.state = .done ↔ t.state = .done ∨ t.id = completed
  terminal : u.state.isTerminal = true ↔ t.state.isTerminal = true ∨ t.id = completed

namespace Task
variable {id : String} {now : Instant} {t : Task}

/-- A task that is released stays open. -/
theorem isTerminal_released (h : t.state.isTerminal = false) :
    (t.released id now).state.isTerminal = false := by
  have hstate : ∀ (p : Prop) [Decidable p], (if p then TaskState.todo else t.state).isTerminal = false := by
    intro p _
    split
    · rfl
    · exact h
  exact hstate _

theorem onceDone_freed (hne : t.id ≠ id) : t.OnceDone id ((t.freed? id now).getD t) := by
  rw [freed?_eq]
  by_cases hawaits : t.Awaits id
  · rw [if_pos hawaits, Option.getD_some]
    have hopen : t.state.isTerminal = false := hawaits.2.1
    have hopen' : (t.released id now).state.isTerminal = false := isTerminal_released hopen
    have hnotdone : ∀ {s : TaskState}, s.isTerminal = false → s ≠ .done := by
      rintro s hs rfl
      cases hs
    constructor
    · rfl
    · rfl
    · simp [hne, hnotdone hopen, hnotdone hopen']
    · simp [hne, hopen, hopen']
  · rw [if_neg hawaits, Option.getD_none]
    constructor <;> simp [hne]

end Task

namespace Snapshot
variable {all all' : Snapshot} {a d t u : Task} {id x : String} {now : Instant}

/-- A snapshot before and after the completion of `id`, record by record. -/
abbrev OnceDone (id : String) (all all' : Snapshot) : Prop := List.Forall₂ (Task.OnceDone id) all all'

/-- The records of a task that is completed and of those that its cascade frees, in their places. -/
theorem onceDone_completed (hnodup : (all.map Task.id).Nodup) (ha : a ∈ all) (hid : d.id = a.id)
    (hrequires : d.requires = a.requires) (hdone : d.state = .done) :
    OnceDone a.id all (Snapshot.upsertAll ((all.upsert d).cascade a.id now) (all.upsert d)) := by
  have hmem : d.id ∈ all.map Task.id := List.mem_map.mpr ⟨a, ha, hid.symm⟩
  have hnodup' := nodup_upsert hnodup hmem
  have hd : d ∈ all.upsert d := by
    rw [upsert_eq_map hnodup hmem]
    exact List.mem_map.mpr ⟨a, ha, if_pos hid.symm⟩
  have hfreed : ∀ t u : Task, t.freed? d.id now = some u → u.id = t.id := fun t u h =>
    (Task.sameLinks_of_freed? h).1
  rw [← hid, cascade_of_done hnodup' hd hdone, upsertAll_filterMap hfreed hnodup',
    upsert_eq_map hnodup hmem, List.map_map, OnceDone, List.forall₂_map_right_iff, List.forall₂_same]
  intro t ht
  rw [Function.comp_apply]
  by_cases heq : t.id = d.id
  · obtain rfl := eq_of_mem_of_id hnodup ht ha (heq.trans hid)
    rw [if_pos heq, Task.freed?_of_isTerminal (by rw [hdone]; rfl), Option.getD_none]
    constructor
    · exact hid
    · exact hrequires
    · simp [hdone, heq]
    · simp [hdone, heq, TaskState.isTerminal]
  · rw [if_neg heq]
    exact Task.onceDone_freed heq

section OnceDone
variable (h : OnceDone id all all')
include h

theorem onCycle_onceDone (x : String) : all'.onCycle x = all.onCycle x :=
  onCycle_rel (fun hn => ⟨hn.id, hn.requires⟩) h x

theorem isDone_onceDone (hid : id ∈ all.map Task.id) (x : String) :
    all'.isDone x = true ↔ all.isDone x = true ∨ x = id := by
  have hrel := get?_rel (fun hn => ⟨hn.id, hn.requires⟩) h x
  unfold isDone
  cases hget : all.get? x with
  | none =>
    -- then `x` has no record, and `id` has one
    have hne : x ≠ id := by
      rintro rfl
      obtain ⟨t, ht, htid⟩ := List.mem_map.mp hid
      have hsome := isSome_get?.mpr ⟨t, ht, htid⟩
      rw [hget] at hsome
      cases hsome
    rw [hget] at hrel
    cases hget' : all'.get? x with
    | none => simp [hne]
    | some u =>
      rw [hget'] at hrel
      cases hrel
  | some t =>
    have htid : t.id = x := (get?_eq_some_iff.mp hget).2
    rw [hget] at hrel
    cases hget' : all'.get? x with
    | none =>
      rw [hget'] at hrel
      cases hrel
    | some u =>
      rw [hget'] at hrel
      cases hrel with
      | some hn => simp [hn.done, htid]

/-- What is not met any more is what was not met before, less the completed task. -/
theorem unmet_onceDone (hid : id ∈ all.map Task.id) (hn : t.OnceDone id u) :
    all'.unmet u = (all.unmet t).filter (· ≠ id) := by
  rw [unmet, unmet, hn.requires, List.filter_filter]
  refine List.filter_congr fun x _ => ?_
  rw [Bool.eq_iff_iff]
  simp [← Bool.not_eq_true, isDone_onceDone h hid, and_comm]

/-- A task is ready afterwards if nothing but the completed task was missing to it. -/
theorem isReady_onceDone (hid : id ∈ all.map Task.id) (hn : t.OnceDone id u) :
    all'.isReady u = true ↔ all.isReady t = true ∨ all.unmet t = [id] ∧ all.onCycle t.id = false := by
  have hnodup : (all.unmet t).Nodup := t.requires.nodup.filter _
  rw [isReady, isReady, unmet_onceDone h hid hn, onCycle_onceDone h, hn.id]
  have hempty : ((all.unmet t).filter (· ≠ id)).isEmpty = true ↔ all.unmet t = [] ∨ all.unmet t = [id] := by
    rw [List.isEmpty_iff, List.filter_eq_nil_iff]
    constructor
    · intro hall
      have heq : ∀ x ∈ all.unmet t, x = id := fun x hx => by simpa using hall x hx
      rcases hunmet : all.unmet t with _ | ⟨x, _ | ⟨y, rest⟩⟩
      · exact .inl rfl
      · exact .inr (by rw [heq x (by simp [hunmet])])
      · -- both are the completed task, and no requirement stands there twice
        rw [hunmet] at hnodup heq
        have hxy : x = y := (heq x (by simp)).trans (heq y (by simp)).symm
        simp [hxy] at hnodup
    · rintro (hnil | hone)
      · simp [hnil]
      · simp [hone]
  rw [Bool.and_eq_true, Bool.and_eq_true, hempty, Bool.not_eq_true', List.isEmpty_iff, or_and_right]

end OnceDone

/-- The ids of what is ready. -/
theorem mem_ids_ready : x ∈ all.ready.map Task.id ↔
    ∃ t ∈ all, t.id = x ∧ t.state.isTerminal = false ∧ all.isReady t = true := by
  simp only [ready_eq, List.mem_map, mem_sortBy, List.mem_filter, Bool.and_eq_true, Bool.not_eq_true']
  constructor
  · rintro ⟨t, ⟨ht, hopen, hready⟩, hid⟩
    exact ⟨t, ht, hid, hopen, hready⟩
  · rintro ⟨t, ht, hid, hopen, hready⟩
    exact ⟨t, ⟨ht, hopen, hready⟩, hid⟩

/-- A task that requires itself is on a cycle. -/
theorem onCycle_of_mem_unmet (hnodup : (all.map Task.id).Nodup) (ht : t ∈ all) (h : t.id ∈ all.unmet t) :
    all.onCycle t.id = true := by
  have hget : all.get? t.id = some t := by
    obtain ⟨u, hu⟩ := Option.isSome_iff_exists.mp (isSome_get?.mpr ⟨t, ht, rfl⟩)
    obtain ⟨⟨former, later, hsplit, -⟩, hid⟩ := get?_eq_some_iff.mp hu
    have hmem : u ∈ all := by simp [hsplit]
    rw [hu, eq_of_mem_of_id hnodup hmem ht hid]
  have hrequires : t.id ∈ t.requires := (List.mem_filter.mp h).1
  exact onCycle_iff.mpr (.single (mem_next.mpr ⟨t, hget, hrequires, by rw [hget]; rfl⟩))

/-- The ids of what is ready once a task is completed. -/
theorem mem_ids_ready_completed (hnodup : (all.map Task.id).Nodup) (ha : a ∈ all)
    (h : OnceDone a.id all all') : x ∈ all'.ready.map Task.id ↔
      (x ∈ all.ready.map Task.id ∧ x ≠ a.id) ∨
      ∃ t ∈ all, t.id = x ∧ t.state.isTerminal = false ∧ all.onCycle x = false ∧ all.unmet t = [a.id] := by
  have hid : a.id ∈ all.map Task.id := List.mem_map_of_mem ha
  rw [mem_ids_ready, mem_ids_ready]
  constructor
  · rintro ⟨u, hu, rfl, hopen, hready⟩
    obtain ⟨t, ht, hn⟩ := exists_left_of_forall₂ h hu
    rw [← Bool.not_eq_true, hn.terminal, not_or, Bool.not_eq_true] at hopen
    rw [hn.id]
    obtain hready | ⟨hunmet, hcycle⟩ := (isReady_onceDone h hid hn).mp hready
    · exact .inl ⟨⟨t, ht, rfl, hopen.1, hready⟩, hopen.2⟩
    · exact .inr ⟨t, ht, rfl, hopen.1, hcycle, hunmet⟩
  · intro hx
    -- the record that is ready, or to which only the completed task was missing
    obtain ⟨t, ht, rfl, hopen, hne, hready⟩ : ∃ t ∈ all, t.id = x ∧ t.state.isTerminal = false ∧ t.id ≠ a.id ∧
        (all.isReady t = true ∨ all.unmet t = [a.id] ∧ all.onCycle t.id = false) := by
      obtain ⟨⟨t, ht, rfl, hopen, hready⟩, hne⟩ | ⟨t, ht, rfl, hopen, hcycle, hunmet⟩ := hx
      · exact ⟨t, ht, rfl, hopen, hne, .inl hready⟩
      · refine ⟨t, ht, rfl, hopen, fun heq => ?_, .inr ⟨hunmet, hcycle⟩⟩
        have hself : t.id ∈ all.unmet t := by rw [hunmet, heq]; exact List.mem_singleton_self _
        rw [onCycle_of_mem_unmet hnodup ht hself] at hcycle
        cases hcycle
    obtain ⟨u, hu, hn⟩ := exists_right_of_forall₂ h ht
    refine ⟨u, hu, hn.id, ?_, (isReady_onceDone h hid hn).mpr hready⟩
    rw [← Bool.not_eq_true, hn.terminal, not_or, Bool.not_eq_true]
    exact ⟨hopen, hne⟩

end Snapshot

end Workboard
