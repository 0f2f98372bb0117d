import Workboard.Proofs.Task.Fields

/-!
# What a record can hold

Under an unknown name a record holds any value without tags of the document's own whose
collections are not nested too deep. A task with another value is never read from a record.
-/
namespace Workboard

/-- The values under unknown names have no tags and are not nested too deep for a record. -/
def Task.Storable (t : Task) : Prop := ∀ e ∈ t.extra.entries, e.2.fits (Yaml.Reading.depthLimit - 1) = true

instance (t : Task) : Decidable t.Storable := inferInstanceAs (Decidable (∀ e ∈ t.extra.entries, _))

theorem TextMap.mem_insertEntry {α : Type} {k : String} {v : α} {es : List (String × α)} {e : String × α}
    (h : e ∈ TextMap.insertEntry k v es) : e = (k, v) ∨ e ∈ es := by
  induction es with
  | nil => exact .inl (List.mem_singleton.mp h)
  | cons a es ih =>
    rw [insertEntry] at h
    split at h
    · exact List.mem_cons.mp h
    split at h
    · exact (List.mem_cons.mp h).imp_right (List.mem_cons_of_mem a)
    · obtain rfl | h := List.mem_cons.mp h
      · exact .inr List.mem_cons_self
      · exact (ih h).imp_right (List.mem_cons_of_mem a)

namespace Record
open Yaml Reading

/-- The names of the fields that the board knows. -/
def knownNames : List String :=
  ["id", "title", "state", "priority", "requires", "blocks", "waiting_for", "assigned_to", "created_at", "updated_at",
    "spawned_from", "spawned_tasks"]

namespace Fields
variable {f f' : Fields} {d : Document} {i j : Nat} {P : String → Value → Prop}

/-- Only a value under an unknown name is kept as such. -/
theorem extra_of_read {e : Node × Node} (h : read f e d i = some (f', j)) :
    f'.extra = f.extra ∨ ∃ name v n i' j', name ∉ knownNames ∧
      value false (depthLimit - 1) n d i' = some (v, j') ∧ f'.extra = f.extra.insert name v := by
  unfold read at h
  obtain ⟨name, k, -, h⟩ := bind_eq_some.mp h
  have hkept : ∀ {α : Type} {r : Reading α} {g : α → Fields}, (∀ a, (g a).extra = f.extra) →
      (r >>= fun a => pure (g a)) d k = some (f', j) → f'.extra = f.extra := by
    intro α r g hg h
    obtain ⟨a, k', -, h⟩ := bind_eq_some.mp h
    obtain rfl := (pure_eq_some.mp h).1
    exact hg a
  split at h
  case h_13 =>
    obtain ⟨v, k', hv, h⟩ := bind_eq_some.mp h
    obtain rfl := (pure_eq_some.mp h).1
    exact .inr ⟨name, v, e.2, k, k', by simp_all [knownNames], hv, rfl⟩
  all_goals
    refine .inl (hkept ?_ h)
    exact fun _ => rfl

/-- What holds of every unknown name with a value that can be read under it, holds of what is kept. -/
theorem forall_mem_extra {es : List (Node × Node)}
    (hP : ∀ name v n i j, name ∉ knownNames → value false (depthLimit - 1) n d i = some (v, j) → P name v)
    (hf : ∀ e ∈ f.extra.entries, P e.1 e.2) (h : es.foldlM read f d i = some (f', j)) :
    ∀ e ∈ f'.extra.entries, P e.1 e.2 := by
  induction es generalizing f i with
  | nil => exact (pure_eq_some.mp h).1 ▸ hf
  | cons e es ih =>
    rw [List.foldlM_cons] at h
    obtain ⟨f₁, k, hread, h⟩ := bind_eq_some.mp h
    refine ih ?_ h
    obtain hsame | ⟨name, v, n, i', j', hname, hv, hinsert⟩ := extra_of_read hread
    · rwa [hsame]
    · rw [hinsert]
      intro e he
      obtain rfl | he := TextMap.mem_insertEntry he
      · exact hP _ _ n i' j' hname hv
      · exact hf e he

theorem extra_of_task? {body : String} {t : Task} (h : f.task? body = some t) : t.extra = f.extra := by
  obtain ⟨id, -, h⟩ := Option.bind_eq_some_iff.mp h
  obtain ⟨state, -, h⟩ := Option.bind_eq_some_iff.mp h
  obtain ⟨createdAt, -, h⟩ := Option.bind_eq_some_iff.mp h
  obtain ⟨updatedAt, -, h⟩ := Option.bind_eq_some_iff.mp h
  obtain rfl := Option.some.inj h
  rfl

end Fields

/-- What is kept in a task that is read from a record. -/
theorem forall_mem_extra_of_parse {content : String} {t : Task} (h : parse content = .ok t) :
    ∀ e ∈ t.extra.entries, e.1 ∉ knownNames ∧ e.2.fits (depthLimit - 1) = true := by
  obtain ⟨front, body, d, f, -, -, hread, htask⟩ := exists_of_parse h
  obtain ⟨⟨f, j⟩, hrun, rfl⟩ := Option.map_eq_some_iff.mp hread
  obtain ⟨es, k, -, hfold⟩ := bind_eq_some.mp hrun
  rw [Fields.extra_of_task? htask]
  exact Fields.forall_mem_extra (P := fun name v => name ∉ knownNames ∧ v.fits (depthLimit - 1) = true)
    (fun _ _ _ _ _ hname hv => ⟨hname, fits_of_value hv⟩) (fun e he => absurd he List.not_mem_nil) hfold

/-- A task that is read from a record can be stored. -/
theorem storable_of_parse {content : String} {t : Task} (h : parse content = .ok t) : t.Storable :=
  fun e he => (forall_mem_extra_of_parse h e he).2

end Record

/-- No unknown field goes by the name of a field that the board knows. -/
def Task.NamesApart (t : Task) : Prop := ∀ e ∈ t.extra.entries, e.1 ∉ Record.knownNames

theorem Record.namesApart_of_parse {content : String} {t : Task} (h : parse content = .ok t) : t.NamesApart :=
  fun e he => (forall_mem_extra_of_parse h e he).1

end Workboard
