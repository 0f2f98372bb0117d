import Workboard.Graph.Readiness
import Workboard.Proofs.Graph.Components
import Workboard.Proofs.Time.Order

/-!
# What is ready and in which order

Readiness is decided in two ways: for one task by following what it requires, and for all tasks at
once by the components of the graph. Both come to the same on every snapshot, as an id is in a cycle
exactly if it leads back to itself. Main statement: the ready tasks are those that are not at their
end, that require nothing but what is done by its last record, and that do not lead back to
themselves, in the order of claims.
-/
namespace Workboard
open Relation

section Order
variable {a b : Task}

theorem Priority.rank_inj {p q : Priority} : p.rank = q.rank ↔ p = q := by
  constructor
  · cases p <;> cases q <;> simp [rank]
  · rintro rfl
    rfl

theorem Task.before_iff : a.before b = true ↔
    b.priority.rank < a.priority.rank ∨ a.priority = b.priority ∧
      (a.createdAt < b.createdAt ∨ a.createdAt = b.createdAt ∧ a.id ≤ b.id) := by
  unfold before
  by_cases hpriority : a.priority = b.priority
  · by_cases htime : a.createdAt = b.createdAt
    · simp [hpriority, htime]
    · simp [hpriority, htime, Ne.le_iff_lt htime]
  · have hrank := mt Priority.rank_inj.mp hpriority
    simp only [hpriority, if_false, decide_eq_true_eq, false_and, or_false]
    omega

theorem Task.before_total (a b : Task) : a.before b = true ∨ b.before a = true := by
  simp only [before_iff, ← Priority.rank_inj]
  have hrank := Nat.lt_trichotomy a.priority.rank b.priority.rank
  have htime := lt_trichotomy a.createdAt b.createdAt
  have hid := le_total a.id b.id
  grind

theorem Task.before_trans (a b c : Task) (hab : a.before b = true) (hbc : b.before c = true) :
    a.before c = true := by
  simp only [before_iff, ← Priority.rank_inj] at hab hbc ⊢
  have htime := @lt_trans _ _ a.createdAt b.createdAt c.createdAt
  have hid := @le_trans _ _ a.id b.id c.id
  grind

end Order

namespace Snapshot
variable {all : Snapshot} {t : Task} {id x y : String}

/-- No record of the same id follows in the snapshot. -/
def IsLast (all : Snapshot) (t : Task) : Prop :=
  ∃ former later, all = former ++ t :: later ∧ ∀ u ∈ later, u.id ≠ t.id

/-- The last record of an id names another id among its requirements, be there a record of it or not. -/
def Names (all : Snapshot) (x y : String) : Prop := ∃ t, all.IsLast t ∧ t.id = x ∧ y ∈ t.requires

theorem get?_eq_some_iff : all.get? id = some t ↔ all.IsLast t ∧ t.id = id := by
  rw [get?, List.find?_eq_some_iff_append, decide_eq_true_eq]
  constructor
  · rintro ⟨rfl, later, former, hsplit, hlater⟩
    refine ⟨⟨former.reverse, later.reverse, ?_, fun u hu => ?_⟩, rfl⟩
    · rw [← List.reverse_inj, hsplit]
      simp
    · simpa using hlater u (List.mem_reverse.mp hu)
  · rintro ⟨⟨former, later, rfl, hlater⟩, rfl⟩
    exact ⟨rfl, later.reverse, former.reverse, by simp, fun u hu => by simpa using hlater u (List.mem_reverse.mp hu)⟩

theorem requires_iff_names : all.Requires x y ↔ all.Names x y ∧ ∃ u, all.IsLast u ∧ u.id = y := by
  simp only [Requires, mem_next, Option.isSome_iff_exists, get?_eq_some_iff, Names]
  grind

/-- An id without a record leads nowhere, so a chain from an id to itself is one of records. -/
theorem transGen_names_iff : TransGen all.Names x x ↔ TransGen all.Requires x x := by
  refine ⟨fun h => ?_, TransGen.mono (fun a b hab => (requires_iff_names.mp hab).1) x x⟩
  have hpresent : ∀ {y z}, TransGen all.Names y z → ∃ u, all.IsLast u ∧ u.id = y := by
    intro y z hchain
    obtain ⟨_, ⟨u, hu, hid, -⟩, -⟩ := TransGen.head'_iff.mp hchain
    exact ⟨u, hu, hid⟩
  have hchain : ∀ {y}, TransGen all.Names x y → (∃ u, all.IsLast u ∧ u.id = y) → TransGen all.Requires x y := by
    intro y hxy
    induction hxy with
    | single hstep => exact fun hy => .single (requires_iff_names.mpr ⟨hstep, hy⟩)
    | tail _ hstep ih => exact fun hy => (ih (hpresent (.single hstep))).tail (requires_iff_names.mpr ⟨hstep, hy⟩)
  exact hchain h (hpresent h)

theorem unmet_isEmpty_iff : (all.unmet t).isEmpty = true ↔
    ∀ id ∈ t.requires, ∃ d, all.IsLast d ∧ d.id = id ∧ d.state = .done := by
  have hdone : ∀ id, all.isDone id = true ↔ ∃ d, all.IsLast d ∧ d.id = id ∧ d.state = .done := by
    intro id
    simp [isDone, Option.any_eq_true, get?_eq_some_iff, and_assoc]
  simp [unmet, List.isEmpty_iff, List.filter_eq_nil_iff, TextSet.mem_def, hdone]

/-- A task is ready exactly if the last record of each of its requirements is done and its id does not lead back
to itself. -/
theorem isReady_iff : all.isReady t = true ↔
    (∀ id ∈ t.requires, ∃ d, all.IsLast d ∧ d.id = id ∧ d.state = .done) ∧ ¬ TransGen all.Names t.id t.id := by
  rw [isReady, Bool.and_eq_true, Bool.not_eq_true', ← Bool.not_eq_true, onCycle_iff, unmet_isEmpty_iff,
    transGen_names_iff]

/-- The components and the search from one id agree on what is ready. -/
theorem ready_eq (all : Snapshot) :
    all.ready = sortBy Task.before (all.filter fun t => !t.state.isTerminal && all.isReady t) := by
  have hcyclic : ∀ id, all.cycles.flatten.contains id = all.onCycle id := by
    intro id
    rw [Bool.eq_iff_iff, List.contains_iff_mem, List.mem_flatten, onCycle_iff, ← exists_cycle_iff]
  unfold ready
  refine congrArg _ (List.filter_congr fun t _ => ?_)
  rw [hcyclic, isReady, Bool.and_assoc, Bool.and_comm (!all.onCycle t.id)]

theorem mem_claimable : t ∈ all.claimable ↔ t ∈ all ∧ t.state = .todo ∧ all.isReady t = true := by
  simp only [claimable, ready_eq, List.mem_filter, mem_sortBy, Bool.and_eq_true, Bool.not_eq_true',
    decide_eq_true_eq]
  constructor
  · rintro ⟨⟨hmem, -, hready⟩, htodo⟩
    exact ⟨hmem, htodo, hready⟩
  · rintro ⟨hmem, htodo, hready⟩
    exact ⟨⟨hmem, by rw [htodo]; rfl, hready⟩, htodo⟩

theorem mem_of_claimable (h : t ∈ all.claimable) : t ∈ all := (mem_claimable.mp h).1

/-- On every snapshot the ready tasks are those entries, each as often as it is there, that are not at their
end and that are ready when they are looked at alone; such a task requires nothing but what is done by
its last record and does not lead back to itself. The most urgent stands first, then the oldest, then the
one with the least id, and those that can be claimed are the ones in todo, in the same order. -/
theorem ready_is_sorted_and_exact (all : Snapshot) :
    all.ready.Perm (all.filter fun t => !t.state.isTerminal && all.isReady t) ∧
    (∀ t, all.isReady t = true ↔
      (∀ id ∈ t.requires, ∃ d, all.IsLast d ∧ d.id = id ∧ d.state = .done) ∧ ¬ TransGen all.Names t.id t.id) ∧
    (all.ready.Pairwise fun a b => b.priority.rank < a.priority.rank ∨ a.priority = b.priority ∧
      (a.createdAt < b.createdAt ∨ a.createdAt = b.createdAt ∧ a.id ≤ b.id)) ∧
    all.claimable = all.ready.filter (·.state = .todo) := by
  refine ⟨ready_eq all ▸ perm_sortBy _, fun _ => isReady_iff, ?_, rfl⟩
  rw [ready_eq]
  exact (pairwise_sortBy Task.before_total Task.before_trans _).imp Task.before_iff.mp

end Snapshot

end Workboard
