import Workboard.Task.Transition

/-!
# The graph of requirements

A snapshot is a list of tasks; where ids repeat, the last record of an id counts.
A task leads to the tasks it requires, as far as they are in the snapshot. An id is
on a cycle if it leads back to itself, and two ids are in one cycle if each leads to
the other. A task is ready if all its requirements are done and it is on no cycle.
-/
namespace Workboard

/-- Tasks as they were read at about the same time. -/
abbrev Snapshot := List Task

/-- All that can be reached in at most so many levels. `seen` holds what was reached
before, and `level` the part of it that was reached last. -/
def spread (next : String → List String) : Nat → List String → List String → List String
  | 0, seen, _ => seen
  | _ + 1, seen, [] => seen
  | n + 1, seen, level =>
    let new := (level.flatMap next).eraseDups.filter fun x => !seen.contains x
    spread next n (seen ++ new) new

namespace Snapshot

-- The zero of a sum is that of the core library, whatever else is in scope.
attribute [local instance (high)] Zero.ofOfNat0

/-- The record of an id. -/
def get? (all : Snapshot) (id : String) : Option Task := all.reverse.find? (·.id = id)

/-- The ids of the snapshot, each once, in ascending order. -/
def ids (all : Snapshot) : TextSet := .ofList (all.map Task.id)

/-- The tasks that an id requires and that the snapshot has. -/
def next (all : Snapshot) (id : String) : List String :=
  match all.get? id with
  | some t => t.requires.toList.filter fun d => (all.get? d).isSome
  | none => []

theorem isSome_get? {all : Snapshot} {id : String} :
    (all.get? id).isSome = true ↔ ∃ t ∈ all, t.id = id := by
  simp [get?, List.find?_isSome]

theorem mem_next {all : Snapshot} {x y : String} :
    y ∈ all.next x ↔ ∃ t, all.get? x = some t ∧ y ∈ t.requires ∧ (all.get? y).isSome = true := by
  unfold next
  split
  · rename_i t ht
    simp [ht, TextSet.mem_def]
  · rename_i hnone
    simp [hnone]

theorem next_subset {all : Snapshot} (x : String) : all.next x ⊆ all.map Task.id := fun y hy => by
  obtain ⟨_, _, _, hsome⟩ := mem_next.mp hy
  obtain ⟨t, ht, rfl⟩ := isSome_get?.mp hsome
  exact List.mem_map_of_mem ht

/-- An id without a record leads nowhere. -/
theorem next_eq_nil {all : Snapshot} {id : String} (hid : id ∉ all.map Task.id) : all.next id = [] := by
  refine List.eq_nil_iff_forall_not_mem.mpr fun y hy => ?_
  obtain ⟨t, ht, -, -⟩ := mem_next.mp hy
  obtain ⟨u, hu, rfl⟩ := isSome_get?.mp (Option.isSome_iff_exists.mpr ⟨t, ht⟩)
  exact hid (List.mem_map_of_mem hu)

/-- The step of the graph: `a` requires `b`, and both have records. -/
def Requires (all : Snapshot) (a b : String) : Prop := b ∈ all.next a

instance (all : Snapshot) (a b : String) : Decidable (all.Requires a b) :=
  inferInstanceAs (Decidable (b ∈ all.next a))

/-- Where an id leads to in one step or more. -/
def reach (all : Snapshot) (id : String) : List String :=
  let first := all.next id
  spread all.next all.length first first

/-- How much there is to follow of the ids that were not visited, one more for each id. -/
def unvisited (all : Snapshot) (visited : List String) : Nat :=
  ((all.map Task.id).map fun x => if x ∈ visited then 0 else (all.next x).length + 1).sum

/-- A visit takes what an id leads to off what there is to follow. -/
theorem unvisited_cons (all : Snapshot) {visited : List String} {x : String} (hx : x ∉ visited) :
    all.unvisited (x :: visited) + (all.next x).length ≤ all.unvisited visited := by
  have hsum : ∀ ids : List String,
      (ids.map fun y => if y ∈ x :: visited then 0 else (all.next y).length + 1).sum +
          (if x ∈ ids then (all.next x).length else 0) ≤
        (ids.map fun y => if y ∈ visited then 0 else (all.next y).length + 1).sum := by
    intro ids
    induction ids with
    | nil => simp
    | cons y ys ih =>
      simp only [List.map_cons, List.sum_cons]
      by_cases hxy : x = y
      · subst hxy
        rw [if_pos List.mem_cons_self, if_pos List.mem_cons_self, if_neg hx]
        split at ih <;> omega
      · have hvisited : y ∈ x :: visited ↔ y ∈ visited := by simp [Ne.symm hxy]
        have hids : x ∈ y :: ys ↔ x ∈ ys := by simp [hxy]
        simp only [hvisited, hids]
        omega
  have hall := hsum (all.map Task.id)
  by_cases hmem : x ∈ all.map Task.id
  · rwa [if_pos hmem] at hall
  · rw [next_eq_nil hmem]
    rwa [if_neg hmem] at hall

/-- Follow what the ids of a stack lead to, each id once, until `id` is found. -/
def comesTo (all : Snapshot) (id : String) (visited todo : List String) : Bool :=
  match todo with
  | [] => false
  | x :: stack =>
    if x = id then true
    else if _hx : x ∈ visited then comesTo all id visited stack
    else comesTo all id (x :: visited) ((all.next x).reverse ++ stack)
termination_by all.unvisited visited + todo.length
decreasing_by
  · exact Nat.lt_succ_self _
  · rw [List.length_append, List.length_reverse, List.length_cons]
    have := unvisited_cons all _hx
    omega

/-- The id leads back to itself. -/
def onCycle (all : Snapshot) (id : String) : Bool := all.comesTo id [] (all.next id).reverse

/-- The ids on the cycle of an id, in ascending order, if it is on one. -/
def cycleOf? (all : Snapshot) (id : String) : Option (List String) :=
  let reached := all.reach id
  if reached.contains id then
    some (all.ids.toList.filter fun j => reached.contains j && (all.reach j).contains id)
  else none

/-- The ids of the records that require an id, in ascending order. -/
def dependents (all : Snapshot) (id : String) : List String :=
  all.ids.toList.filter fun j => (all.get? j).any fun t => id ∈ t.requires

/-- An id whose record is done. -/
def isDone (all : Snapshot) (id : String) : Bool := (all.get? id).any (·.state = .done)

/-- The requirements of a task that are not done, or that the snapshot does not have. -/
def unmet (all : Snapshot) (t : Task) : List String := t.requires.toList.filter (!all.isDone ·)

/-- All requirements are done and the task is on no cycle. -/
def isReady (all : Snapshot) (t : Task) : Bool := (all.unmet t).isEmpty && !all.onCycle t.id

/-- The task after the completion of `id`, if that changes it: a wait for `id` ends, and
a waiting task with nothing left to wait for goes back to todo. -/
def unblocked? (id : String) (now : Instant) (t : Task) : Option Task :=
  let t' := if t.waitingFor = some id then { t with waitingFor := none } else t
  if t'.state = .waiting && t'.waitingFor = none then some (t'.moved .todo {} now)
  else if t.waitingFor = some id then some (t'.touch now)
  else none

/-- The tasks that the completion of `id` changes, already changed. If the first record
of `id` is not done, there are none. -/
def cascade (all : Snapshot) (id : String) (now : Instant) : List Task :=
  if (all.find? (·.id = id)).any (·.state ≠ .done) then []
  else all.filterMap fun t =>
    if t.id ≠ id && !t.state.isTerminal && (t.waitingFor = some id || id ∈ t.requires) then
      unblocked? id now t
    else none

/-- The ids of the tasks that require `id`. -/
def requirers (all : Snapshot) (id : String) : TextSet :=
  .ofList ((all.filter (id ∈ ·.requires)).map Task.id)

/-- The ids that some task requires, with the tasks that do. -/
def derivedBlocks (all : Snapshot) : TextMap TextSet :=
  .ofList ((all.flatMap (·.requires.toList)).map fun id => (id, all.requirers id))

/-- The tasks whose noted dependents are out of date, already corrected. -/
def staleBlocks (all : Snapshot) (now : Instant) : List Task :=
  all.filterMap fun t =>
    let expected := all.requirers t.id
    if t.blocks = expected then none else some ({ t with blocks := expected }.touch now)

/-- Change the first record of an id. -/
def modifyFirst (id : String) (f : Task → Task) : Snapshot → Snapshot
  | [] => []
  | t :: ts => if t.id = id then f t :: ts else t :: modifyFirst id f ts

/-- The cycle that a task would be on with other requirements. -/
def cycleWith? (all : Snapshot) (id : String) (requires : TextSet) : Option (List String) :=
  cycleOf? (all.modifyFirst id fun t => { t with requires }) id

/-- Replace the first record of the same id, or add one at the end. -/
def upsert (t : Task) : Snapshot → Snapshot
  | [] => [t]
  | u :: us => if u.id = t.id then t :: us else u :: upsert t us

end Snapshot

end Workboard
