import Mathlib.Data.List.Forall2
import Workboard.Proofs.Graph.Reaching

/-!
# What readiness depends on

The graph looks at the ids of the tasks, at what they require and at which are done, and
at nothing else. Main statement: snapshots that agree in this, task by task, agree on
which of their tasks are ready. So a task that others have begun to work on does not
change what is ready.
-/
namespace Workboard

/-- The graph sees no difference between two tasks. -/
structure Task.SameNode (t u : Task) : Prop where
  id : u.id = t.id
  requires : u.requires = t.requires
  done : u.state = .done ↔ t.state = .done

theorem Task.SameNode.refl (t : Task) : t.SameNode t := ⟨rfl, rfl, Iff.rfl⟩

namespace Snapshot

/-- Two snapshots that the graph cannot tell apart. -/
abbrev SameNodes (all all' : Snapshot) : Prop := List.Forall₂ Task.SameNode all all'

variable {all all' : Snapshot}

section Rel
variable {R : Task → Task → Prop} (hR : ∀ {t u}, R t u → u.id = t.id ∧ u.requires = t.requires)
  (h : List.Forall₂ R all all')
include hR h

theorem find?_rel (id : String) :
    Option.Rel R (all.find? (·.id = id)) (all'.find? (·.id = id)) := by
  induction h with
  | nil => exact .none
  | @cons t u ts us hn _ ih =>
    by_cases hid : t.id = id
    · have hid' : u.id = id := (hR hn).1.trans hid
      rw [List.find?_cons_of_pos (by simpa using hid), List.find?_cons_of_pos (by simpa using hid')]
      exact .some hn
    · have hid' : u.id ≠ id := fun h => hid ((hR hn).1.symm.trans h)
      rw [List.find?_cons_of_neg (by simpa using hid), List.find?_cons_of_neg (by simpa using hid')]
      exact ih

theorem get?_rel (id : String) : Option.Rel R (all.get? id) (all'.get? id) :=
  find?_rel hR (List.rel_reverse h) id

theorem isSome_get?_rel (id : String) : (all'.get? id).isSome = (all.get? id).isSome := by
  have hrel := get?_rel hR h id
  revert hrel
  cases all.get? id <;> cases all'.get? id <;> intro hrel <;> cases hrel <;> rfl

/-- Where the ids and what they require are the same, so is the graph. -/
theorem next_rel : all'.next = all.next := by
  funext id
  have hsome : (fun d => (all'.get? d).isSome) = fun d => (all.get? d).isSome :=
    funext (isSome_get?_rel hR h)
  have hrel := get?_rel hR h id
  unfold next
  rw [hsome]
  revert hrel
  cases all.get? id <;> cases all'.get? id <;> intro hrel <;> cases hrel
  · rfl
  · rename_i hn
    simp only [(hR hn).2]

theorem onCycle_rel (id : String) : all'.onCycle id = all.onCycle id := by
  have hrequires : all'.Requires = all.Requires := by
    funext x y
    rw [Requires, Requires, next_rel hR h]
  rw [Bool.eq_iff_iff, onCycle_iff, onCycle_iff, hrequires]

end Rel

theorem next_sameNodes (h : SameNodes all all') : all'.next = all.next :=
  next_rel (fun hn => ⟨hn.id, hn.requires⟩) h

theorem onCycle_sameNodes (h : SameNodes all all') (id : String) :
    all'.onCycle id = all.onCycle id :=
  onCycle_rel (fun hn => ⟨hn.id, hn.requires⟩) h id

theorem isDone_sameNodes (h : SameNodes all all') (id : String) :
    all'.isDone id = all.isDone id := by
  have hrel := get?_rel (fun hn => ⟨hn.id, hn.requires⟩) h id
  unfold isDone
  revert hrel
  cases all.get? id <;> cases all'.get? id <;> intro hrel <;> cases hrel
  · rfl
  · rename_i hn
    simp only [Option.any_some, hn.done]

theorem unmet_sameNodes (h : SameNodes all all') {t u : Task} (hn : t.SameNode u) :
    all'.unmet u = all.unmet t := by
  unfold unmet
  rw [hn.requires, funext (isDone_sameNodes h)]

/-- Tasks that the graph cannot tell apart are both ready or both not, each in its own of
two such snapshots. -/
theorem isReady_sameNodes (h : SameNodes all all') {t u : Task} (hn : t.SameNode u) :
    all'.isReady u = all.isReady t := by
  unfold isReady
  rw [unmet_sameNodes h hn, hn.id, onCycle_sameNodes h]

theorem ids_sameNodes (h : SameNodes all all') : all'.ids = all.ids := by
  have hids : all'.map Task.id = all.map Task.id := by
    induction h with
    | nil => rfl
    | cons hn _ ih => rw [List.map_cons, List.map_cons, hn.id, ih]
  rw [ids, ids, hids]

theorem cycleOf?_sameNodes (h : SameNodes all all') (id : String) : all'.cycleOf? id = all.cycleOf? id := by
  unfold cycleOf? reach
  rw [next_sameNodes h, ids_sameNodes h, ← h.length_eq]

theorem cycleWith?_sameNodes (h : SameNodes all all') (id : String) (requires : TextSet) :
    all'.cycleWith? id requires = all.cycleWith? id requires := by
  refine cycleOf?_sameNodes ?_ id
  induction h with
  | nil => exact .nil
  | @cons t u ts us hn hrest ih =>
    rw [modifyFirst, modifyFirst]
    by_cases hid : t.id = id
    · rw [if_pos hid, if_pos (hn.id.trans hid)]
      exact .cons ⟨hn.id, rfl, hn.done⟩ hrest
    · rw [if_neg hid, if_neg fun h => hid (hn.id.symm.trans h)]
      exact .cons hn ih

/-- The graph does not tell tasks apart that are added last. -/
theorem cycleWith?_append_sameNode {t u : Task} (hn : t.SameNode u) {id : String} {requires : TextSet} :
    cycleWith? (all ++ [u]) id requires = cycleWith? (all ++ [t]) id requires :=
  cycleWith?_sameNodes (List.rel_append (List.forall₂_same.mpr fun _ _ => .refl _) (.cons hn .nil)) id
    requires

end Snapshot

end Workboard
