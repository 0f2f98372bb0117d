import Workboard.Proofs.Yaml.Reading
import Workboard.Task.Record

/-!
# Reading the fields of a record

A reading of several steps succeeds if each of its steps does. A field that was read stays
as it is, since it may not stand twice. What is followed here are the id, the state, who works on the
task, and the two fields that tell which tasks were split off from which.
-/
namespace Workboard.Record
open Yaml Reading

variable {α β : Type} {d : Document} {i j : Nat}

theorem text_scalar_bind {tag : Option String} (s : String) (plain : Bool) (f : String → Reading β) (d : Document)
    (i : Nat) : (text (.scalar tag s plain) >>= f) d i = f s d i :=
  rfl

theorem text_scalar {tag : Option String} {s : String} {plain : Bool} {a : String}
    (h : text (.scalar tag s plain) d i = some (a, j)) : a = s := by
  change some (s, i) = some (a, j) at h
  exact (Prod.mk.inj (Option.some.inj h)).1.symm

theorem word_name {named? : String → Option α} {s : String} {a b : α} {plain : Bool} (hname : named? s = some a)
    (h : word named? (.scalar none s plain) d i = some (b, j)) : b = a := by
  obtain ⟨n, k, hn, h⟩ := bind_eq_some.mp h
  cases hn
  simp only [tagName?, hname] at h
  exact (pure_eq_some.mp h).1.symm

/-- A text that stands for itself is read as such where a text may be absent. -/
theorem optionalText_scalar {s : String} {plain : Bool} {a : Option String} (hs : plain = true → isNothing s = false)
    (h : optionalText (.scalar none s plain) d i = some (a, j)) : a = some s := by
  change (if !plain then (pure (some s) : Reading (Option String)) else
    pure (if isNothing s then none else some s)) d i = _ at h
  cases plain with
  | false => exact (pure_eq_some.mp h).1.symm
  | true =>
    rw [hs rfl] at h
    exact (pure_eq_some.mp h).1.symm

/-- A field is read where it was not read before. -/
theorem exists_of_once {old x : Option α} {r : Reading α} (h : once old r d i = some (x, j)) :
    old = none ∧ ∃ a, r d i = some (a, j) ∧ x = some a := by
  cases old with
  | some a => cases h
  | none =>
    obtain ⟨⟨a, k⟩, hr, heq⟩ := Option.bind_eq_some_iff.mp h
    obtain ⟨rfl, rfl⟩ := Prod.mk.inj (Option.some.inj heq)
    exact ⟨rfl, a, hr, rfl⟩

namespace Fields
variable {f f' f'' : Fields} {e : Node × Node} {n : Node} {name : String}

/-- What reading the node under the name makes of the fields. -/
inductive Reads (d : Document) (n : Node) (i j : Nat) (name : String) (f f' : Fields) : Prop
  | id {s : String} (hname : name = "id") (h : text n d i = some (s, j)) (hold : f.id = none)
    (heq : f' = { f with id := some s })
  | state {s : TaskState} (hname : name = "state") (h : word TaskState.ofName? n d i = some (s, j))
    (hold : f.state = none) (heq : f' = { f with state := some s })
  | assignedTo {s : Option String} (hname : name = "assigned_to") (h : optionalText n d i = some (s, j))
    (hold : f.assignedTo = none) (heq : f' = { f with assignedTo := some s })
  | spawnedFrom {s : Option String} (hname : name = "spawned_from") (h : optionalText n d i = some (s, j))
    (hold : f.spawnedFrom = none) (heq : f' = { f with spawnedFrom := some s })
  | spawnedTasks {xs : List String} (hname : name = "spawned_tasks") (h : texts n d i = some (xs, j))
    (hold : f.spawnedTasks = none) (heq : f' = { f with spawnedTasks := some xs })
  | other (hname : name ∉ ["id", "state", "assigned_to", "spawned_from", "spawned_tasks"]) (hid : f'.id = f.id)
    (hstate : f'.state = f.state) (hassigned : f'.assignedTo = f.assignedTo) (hfrom : f'.spawnedFrom = f.spawnedFrom)
    (htasks : f'.spawnedTasks = f.spawnedTasks)

theorem reads_of_read {tag : Option String} {plain : Bool}
    (h : read f (.scalar tag name plain, n) d i = some (f', j)) : Reads d n i j name f f' := by
  unfold read at h
  rw [text_scalar_bind] at h
  have hkept : ∀ {α : Type} {r : Reading α} {g : α → Fields}, (r >>= fun a => pure (g a)) d i = some (f', j) →
      ∃ a, r d i = some (a, j) ∧ f' = g a := by
    intro α r g h
    obtain ⟨a, k, hr, h⟩ := bind_eq_some.mp h
    obtain ⟨rfl, rfl⟩ := pure_eq_some.mp h
    exact ⟨a, hr, rfl⟩
  split at h
  case h_1 =>
    obtain ⟨x, honce, rfl⟩ := hkept h
    obtain ⟨hold, a, ha, rfl⟩ := exists_of_once honce
    exact .id rfl ha hold rfl
  case h_3 =>
    obtain ⟨x, honce, rfl⟩ := hkept h
    obtain ⟨hold, a, ha, rfl⟩ := exists_of_once honce
    exact .state rfl ha hold rfl
  case h_8 =>
    obtain ⟨x, honce, rfl⟩ := hkept h
    obtain ⟨hold, a, ha, rfl⟩ := exists_of_once honce
    exact .assignedTo rfl ha hold rfl
  case h_11 =>
    obtain ⟨x, honce, rfl⟩ := hkept h
    obtain ⟨hold, a, ha, rfl⟩ := exists_of_once honce
    exact .spawnedFrom rfl ha hold rfl
  case h_12 =>
    obtain ⟨x, honce, rfl⟩ := hkept h
    obtain ⟨hold, a, ha, rfl⟩ := exists_of_once honce
    exact .spawnedTasks rfl ha hold rfl
  case h_13 =>
    obtain ⟨x, -, rfl⟩ := hkept h
    refine .other ?_ rfl rfl rfl rfl rfl
    simp_all
  all_goals
    obtain ⟨x, -, rfl⟩ := hkept h
    exact .other (by decide) rfl rfl rfl rfl rfl

/-- What was read stays. -/
structure Stays (f f' : Fields) : Prop where
  id : ∀ a, f.id = some a → f'.id = some a
  state : ∀ a, f.state = some a → f'.state = some a
  assignedTo : ∀ a, f.assignedTo = some a → f'.assignedTo = some a
  spawnedFrom : ∀ a, f.spawnedFrom = some a → f'.spawnedFrom = some a
  spawnedTasks : ∀ a, f.spawnedTasks = some a → f'.spawnedTasks = some a

theorem Stays.refl (f : Fields) : Stays f f :=
  ⟨fun _ h => h, fun _ h => h, fun _ h => h, fun _ h => h, fun _ h => h⟩

theorem Stays.trans (h : Stays f f') (h' : Stays f' f'') : Stays f f'' :=
  ⟨fun a ha => h'.id a (h.id a ha), fun a ha => h'.state a (h.state a ha),
    fun a ha => h'.assignedTo a (h.assignedTo a ha), fun a ha => h'.spawnedFrom a (h.spawnedFrom a ha),
    fun a ha => h'.spawnedTasks a (h.spawnedTasks a ha)⟩

theorem Reads.stays (h : Reads d n i j name f f') : Stays f f' := by
  cases h with
  | other hname hid hstate hassigned hfrom htasks =>
    exact ⟨by simp [hid], by simp [hstate], by simp [hassigned], by simp [hfrom], by simp [htasks]⟩
  | _ _ h hold heq => constructor <;> simp [heq, hold]

/-- The task of the fields has what was read, and nothing where nothing was read. -/
theorem kin_of_task? {body : String} {t : Task} (h : f.task? body = some t) :
    f.id = some t.id ∧ f.state = some t.state ∧ t.spawnedFrom = f.spawnedFrom.getD none ∧
      t.spawnedTasks = f.spawnedTasks.getD [] := by
  obtain ⟨id, hid, h⟩ := Option.bind_eq_some_iff.mp h
  obtain ⟨state, hstate, h⟩ := Option.bind_eq_some_iff.mp h
  obtain ⟨createdAt, -, h⟩ := Option.bind_eq_some_iff.mp h
  obtain ⟨updatedAt, -, h⟩ := Option.bind_eq_some_iff.mp h
  obtain rfl := Option.some.inj h
  exact ⟨hid, hstate, rfl, rfl⟩

theorem assignedTo_of_task? {body : String} {t : Task} (h : f.task? body = some t) :
    t.assignedTo = f.assignedTo.getD none := by
  obtain ⟨id, -, h⟩ := Option.bind_eq_some_iff.mp h
  obtain ⟨state, -, h⟩ := Option.bind_eq_some_iff.mp h
  obtain ⟨createdAt, -, h⟩ := Option.bind_eq_some_iff.mp h
  obtain ⟨updatedAt, -, h⟩ := Option.bind_eq_some_iff.mp h
  obtain rfl := Option.some.inj h
  rfl

end Fields

/-- A record that can be read has a front matter with the fields of its task. -/
theorem exists_of_parse {content : String} {t : Task} (h : parse content = .ok t) :
    ∃ front body d f, split content.toList = .ok (front, body) ∧
      Document.ofText? (String.ofList front) = some d ∧
      (do (← entries d.root).foldlM Fields.read {} : Reading Fields).run? d = some f ∧
      f.task? (String.ofList body) = some t := by
  unfold parse at h
  rw [Text.chars_eq] at h
  cases hsplit : split content.toList with
  | error e =>
    rw [hsplit] at h
    cases h
  | ok parts =>
    obtain ⟨front, body⟩ := parts
    rw [hsplit] at h
    simp only [bind, Except.bind] at h
    split at h
    · rename_i t' htask
      obtain rfl := Except.ok.inj h
      obtain ⟨f, hf, htask⟩ := Option.bind_eq_some_iff.mp htask
      obtain ⟨d, hd, hread⟩ := Option.bind_eq_some_iff.mp hf
      exact ⟨front, body, d, f, rfl, hd, hread, htask⟩
    · cases h

end Workboard.Record
