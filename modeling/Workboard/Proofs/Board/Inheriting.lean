import Workboard.Proofs.Board.Lifetimes
import Workboard.Proofs.Task.Rereading

/-!
# What is handed down from version to version

A task keeps its id, its origin and the list of those that were split off from it, whatever else is
changed in it: nobody may set these fields by hand, and no unknown field goes by one of their names.
Main statement: no operation writes them, except for the creation of a task and the splitting off of
one; every record is as it was, or holds a version that has inherited them.
-/
namespace Workboard

namespace Task
variable {t u v : Task} {id field value : String} {now : Instant}

/-- Where the task comes from, and who comes from it, is told by ids that can name records. -/
structure HasValidKin (t : Task) : Prop where
  spawnedFrom : ∀ p, t.spawnedFrom = some p → isValidId p = true
  spawnedTasks : ∀ c ∈ t.spawnedTasks, isValidId c = true

/-- One task has taken over from another one where it comes from and who comes from it, as far as that is
told by ids that can name records. -/
structure Kin (t u : Task) : Prop where
  id_eq : u.id = t.id
  spawned_eq : t.HasValidKin → u.spawnedFrom = t.spawnedFrom ∧ u.spawnedTasks = t.spawnedTasks
  namesApart : t.NamesApart → u.NamesApart

/-- Changes that leave the unknown fields alone keep their names apart. -/
theorem kin_of_extra_eq (hid : u.id = t.id) (hfrom : u.spawnedFrom = t.spawnedFrom)
    (htasks : u.spawnedTasks = t.spawnedTasks) (hextra : u.extra = t.extra) : t.Kin u :=
  ⟨hid, fun _ => ⟨hfrom, htasks⟩, fun hnames e he => hnames e (hextra ▸ he)⟩

theorem Kin.refl (t : Task) : t.Kin t := kin_of_extra_eq rfl rfl rfl rfl

theorem Kin.touch (h : t.Kin u) (now : Instant) : t.Kin (u.touch now) :=
  ⟨h.id_eq, h.spawned_eq, h.namesApart⟩

theorem Kin.hasValidKin (h : t.Kin u) (hvalid : t.HasValidKin) : u.HasValidKin := by
  obtain ⟨hfrom, htasks⟩ := h.spawned_eq hvalid
  exact ⟨fun p hp => hvalid.spawnedFrom p (hfrom ▸ hp), fun c hc => hvalid.spawnedTasks c (htasks ▸ hc)⟩

theorem Kin.trans (h : t.Kin u) (h' : u.Kin v) : t.Kin v := by
  refine ⟨h'.id_eq.trans h.id_eq, fun hvalid => ?_, fun hnames => h'.namesApart (h.namesApart hnames)⟩
  obtain ⟨hfrom, htasks⟩ := h.spawned_eq hvalid
  obtain ⟨hfrom', htasks'⟩ := h'.spawned_eq (h.hasValidKin hvalid)
  exact ⟨hfrom'.trans hfrom, htasks'.trans htasks⟩

theorem Repaired.kin (h : t.Repaired u) : t.Kin u := by
  rw [h.others]
  exact kin_of_extra_eq rfl rfl rfl rfl

theorem kin_noting (t : Task) (dependent : String) (added : Bool) (now : Instant) :
    t.Kin (t.noting dependent added now) := kin_of_extra_eq rfl rfl rfl rfl

theorem kin_of_move {target : TaskState} {g : Guard} (h : t.move target g now = .ok u) : t.Kin u := by
  obtain ⟨rfl, -⟩ := exists_of_move_eq_ok h
  unfold moved
  refine Kin.touch ?_ now
  split <;> exact kin_of_extra_eq rfl rfl rfl rfl

/-- A field that is set under an unknown name has no name that the board knows. -/
theorem namesApart_of_setField (hreadOnly : field ∉ readOnlyFields) (hstate : field ≠ "state")
    (hrequires : field ≠ "requires") (h : t.setField field value = .ok u) (hnames : t.NamesApart) :
    u.NamesApart := by
  unfold setField at h
  simp only at h
  repeat' split at h
  all_goals cases h
  -- the five fields that are known, and then the two changes of unknown ones
  iterate 5 exact hnames
  · exact fun e he => hnames e (List.mem_filter.mp he).1
  · intro e he
    obtain rfl | he := TextMap.mem_insertEntry he
    · simp_all [Record.knownNames, readOnlyFields]
    · exact hnames e he

theorem kin_of_setField (hreadOnly : field ∉ readOnlyFields) (hstate : field ≠ "state")
    (hrequires : field ≠ "requires") (h : t.setField field value = .ok u) : t.Kin u := by
  have hnames := namesApart_of_setField hreadOnly hstate hrequires h
  rw [others_of_setField h] at hnames ⊢
  exact ⟨rfl, fun _ => ⟨rfl, rfl⟩, hnames⟩

theorem not_mem_of_isValidId (h : isValidId id = true) : '\n' ∉ id.toList := fun hmem => by
  simp only [isValidId, Bool.and_eq_true] at h
  exact absurd (List.all_eq_true.mp h.2 _ hmem) (by decide)

/-- What is read from a record has inherited what was saved in it. -/
theorem kin_of_parse_render (hnames : t.NamesApart) (h : Record.parse (Record.render t) = .ok u) : t.Kin u := by
  refine ⟨Record.id_of_parse_render h, fun hvalid => ⟨?_, ?_⟩, fun _ => Record.namesApart_of_parse h⟩
  · exact Record.spawnedFrom_of_parse_render hnames
      (fun p hp => not_mem_of_isValidId (hvalid.spawnedFrom p hp)) h
  · exact Record.spawnedTasks_of_parse_render hnames
      (fun c hc => not_mem_of_isValidId (hvalid.spawnedTasks c hc)) h

end Task

/-- A repair hands everything down. -/
theorem Snapshot.exists_kin_of_mem_repairs {all : Snapshot} {now : Instant} {d : Task} (h : d ∈ all.repairs now) :
    ∃ t ∈ all, t.Kin d := by
  refine forall_mem_repairs (P := fun d => ∃ t ∈ all, t.Kin d) (fun t ht => ⟨t, ht, .refl t⟩) ?_ ?_ d h
  · rintro id u v ⟨t, ht, hkin⟩ hfreed
    exact ⟨t, ht, hkin.trans (Task.repaired_of_freed? hfreed).kin⟩
  · rintro u blocks ⟨t, ht, hkin⟩
    exact ⟨t, ht, hkin.trans (Task.kin_of_extra_eq rfl rfl rfl rfl)⟩

namespace Board
open Workboard.Action
variable {b : Board} {w w₁ w₂ : World Files} {id : String} {t u d : Task} {ds : List Task}

/-- The world goes on, and every record is as it was or holds a version of the task that could be read
there. -/
structure Inherits (b : Board) (w w' : World Files) : Prop extends w.Continues w' where
  record : ∀ id, w'.store.text? (Records.path b.root id).names = w.store.text? (Records.path b.root id).names ∨
    ∃ t u, Records.loadAt w.store b.root id = .ok t ∧ t.Kin u ∧
      w'.store.text? (Records.path b.root id).names = some (Record.render u)

theorem namesApart_of_loadAt (h : Records.loadAt w.store b.root id = .ok t) : t.NamesApart := by
  obtain ⟨-, content, -, hread⟩ := Records.loadAt_eq_ok.mp h
  exact Record.namesApart_of_parse (Records.parse_of_read hread)

/-- A task that can be read afterwards is a version of one that could be read before. -/
theorem Inherits.loadAt (h : b.Inherits w w₁) (hload : Records.loadAt w₁.store b.root id = .ok u) :
    ∃ t, Records.loadAt w.store b.root id = .ok t ∧ t.Kin u := by
  obtain hsame | ⟨t, v, ht, hkin, hwritten⟩ := h.record id
  · exact ⟨u, Records.loadAt_congr hsame ▸ hload, .refl u⟩
  · obtain ⟨-, content, hcontent, hread⟩ := Records.loadAt_eq_ok.mp hload
    rw [hwritten] at hcontent
    obtain rfl := Option.some.inj hcontent
    have hnames := hkin.namesApart (namesApart_of_loadAt ht)
    exact ⟨t, ht, hkin.trans (Task.kin_of_parse_render hnames (Records.parse_of_read hread))⟩

theorem Inherits.trans (h : b.Inherits w w₁) (h' : b.Inherits w₁ w₂) : b.Inherits w w₂ := by
  refine ⟨h.toContinues.trans h'.toContinues, fun id => ?_⟩
  obtain hsame | ⟨u, v, hu, hkin, hwritten⟩ := h'.record id
  · rw [hsame]
    exact h.record id
  · obtain ⟨t, ht, hkin'⟩ := h.loadAt hu
    exact .inr ⟨t, v, ht, hkin'.trans hkin, hwritten⟩

theorem inherits_of_same (h : w.Becomes w₁ w.store.text?) : b.Inherits w w₁ :=
  ⟨h.toContinues, fun _ => .inl (congrFun h.text _)⟩

/-- No record is lost. -/
theorem Inherits.isSome (h : b.Inherits w w₁)
    (hsome : (w.store.text? (Records.path b.root id).names).isSome = true) :
    (w₁.store.text? (Records.path b.root id).names).isSome = true := by
  obtain hsame | ⟨t, u, -, -, hwritten⟩ := h.record id
  · rwa [hsame]
  · rw [hwritten, Option.isSome_some]

/-- To write versions of tasks that can be read is to hand everything down. -/
theorem Writes.inherits (h : b.Writes ds w w₁) (hds : ∀ d ∈ ds, ∃ t ∈ b.tasks w, t.Kin d) : b.Inherits w w₁ := by
  refine ⟨h.toContinues, fun id => (h.record id).imp_right ?_⟩
  rintro ⟨d, hd, rfl, hwritten⟩
  obtain ⟨t, ht, hkin⟩ := hds d hd
  exact ⟨t, d, hkin.id_eq ▸ Records.mem_allAt.mp ht, hkin, hwritten⟩

theorem inherits_of_save (hload : Records.loadAt w.store b.root t.id = .ok t) (hkin : t.Kin u)
    (h : w.Becomes w₁ (Function.update w.store.text? (Records.path b.root u.id).names (some (Record.render u)))) :
    b.Inherits w w₁ :=
  (writes_of_save List.mem_cons_self h).inherits
    (List.forall_mem_singleton.mpr ⟨t, Records.mem_allAt_of_loadAt hload, hkin⟩)

section Links
variable (hw : w.Steady)
include hw

/-- Links are noted in records that keep everything else. Whatever fails in it, the noting succeeds. -/
theorem ends_linkEach_inheriting (now : Instant) (dependent : String) (added : Bool) (ids : List String) :
    (b.linkEach now dependent added ids).Ends w fun r w' => r = .ok () ∧ b.Inherits w w' := by
  induction ids generalizing w with
  | nil => exact ends_pure ⟨rfl, inherits_of_same hw.becomes_self⟩
  | cons id ids ih =>
    have hrest : ∀ w₁, b.Inherits w w₁ → (b.linkEach now dependent added ids).Ends w₁ fun r w' =>
        r = .ok () ∧ b.Inherits w w' := fun w₁ hw₁ =>
      (ih hw₁.steady).mono fun _ _ h => ⟨h.1, hw₁.trans h.2⟩
    refine ends_bind (ends_linkOne hw (fun w₁ hw₁ _ => hrest w₁ (inherits_of_same hw₁)) fun t w₁ ht _ hw₁ => ?_)
    obtain rfl := Records.id_of_loadAt ht
    exact hrest w₁ (inherits_of_save ht (t.kin_noting dependent added now) hw₁)

theorem ends_link_inheriting (dependent : String) (added removed : TextSet) :
    (b.link dependent added removed).Ends w fun r w' => r = .ok () ∧ b.Inherits w w' := by
  refine ends_bind (ends_now ?_)
  rw [andThen_ok]
  refine ends_bind ((ends_linkEach_inheriting hw _ dependent true _).mono ?_)
  rintro r w₁ ⟨rfl, hw₁⟩
  rw [andThen_ok]
  exact (ends_linkEach_inheriting hw₁.steady _ dependent false _).mono fun _ _ h => ⟨h.1, hw₁.trans h.2⟩

theorem ends_editRequires_inheriting (hload : Records.loadAt w.store b.root t.id = .ok t) (now : Instant)
    (text : String) : (b.editRequires t now text).Ends w fun _ w' => b.Inherits w w' := by
  have hself : b.Inherits w w := inherits_of_same hw.becomes_self
  refine ends_bind (ends_settle ?_)
  cases requirementsOf t.id (idsOfText text) with
  | error e => exact hself
  | ok requires =>
    rw [andThen_ok]
    refine ends_bind (Records.ends_scan ?_)
    rw [andThen_ok]
    split
    · exact ends_throw hself
    have hkin : t.Kin { t with requires } := Task.kin_of_extra_eq rfl rfl rfl rfl
    refine ends_bind (Records.ends_save hw (fun _ _ _ hw₁ => inherits_of_same hw₁) fun w₁ _ _ hw₁ => ?_)
    have hsaved : b.Inherits w w₁ := inherits_of_save hload (hkin.touch now) hw₁
    rw [andThen_ok]
    refine ends_bind ((ends_link_inheriting hw₁.steady t.id _ _).mono ?_)
    rintro r w₂ ⟨rfl, hw₂⟩
    rw [andThen_ok]
    exact ends_pure (hsaved.trans hw₂)

end Links

theorem kin_of_mem_movesTo {target : TaskState} {g : Guard} {now : Instant} (ht : t ∈ b.tasks w)
    (h : d ∈ (b.tasks w).movesTo t target g now) : ∃ t ∈ b.tasks w, t.Kin d := by
  obtain ⟨u, hu, hmove | hfreed⟩ := Snapshot.exists_of_mem_movesTo ht h
  · exact ⟨u, hu, Task.kin_of_move hmove⟩
  · exact ⟨u, hu, (Task.repaired_of_freed? hfreed).kin⟩

theorem kin_of_mem_startDrafts {owner : String} (ht : t ∈ b.tasks w) (h : d ∈ startDrafts w t owner) :
    ∃ t ∈ b.tasks w, t.Kin d := by
  obtain ⟨moved, hmove, rfl⟩ := exists_of_mem_startDrafts h
  exact ⟨t, ht, (Task.kin_of_move hmove).trans (Task.kin_of_extra_eq rfl rfl rfl rfl)⟩

theorem kin_of_mem_editDrafts {field value : String} (hrequires : field ≠ "requires") (ht : t ∈ b.tasks w)
    (h : d ∈ b.editDrafts w t field value) : ∃ t ∈ b.tasks w, t.Kin d := by
  unfold editDrafts stateDrafts at h
  split at h
  · cases h
  rename_i hreadOnly
  split at h
  · split at h
    · cases h
    · exact kin_of_mem_movesTo ht h
    · exact kin_of_mem_movesTo ht h
  rename_i hstate
  cases hset : t.setField field value with
  | error e =>
    rw [hset] at h
    cases h
  | ok u =>
    rw [hset] at h
    obtain rfl := List.mem_singleton.mp h
    exact ⟨t, ht, (Task.kin_of_setField hreadOnly hstate hrequires hset).touch w.clock⟩

namespace Operation

/-- The operation makes no new task. -/
def IsInheriting : Operation → Prop
  | create _ => False
  | spawn _ _ => False
  | _ => True

/-- All that an operation may save that makes no new task and leaves the requirements alone is a version
of a task that is there. -/
theorem exists_kin_of_mem_drafts {op : Operation} (hop : op.IsInheriting)
    (hrequires : ∀ id value, op ≠ .edit id "requires" value) (h : d ∈ op.drafts b w) : ∃ t ∈ b.tasks w, t.Kin d := by
  -- operations on one task, if it can be read
  have hone : ∀ {id} {f : Task → List Task}, (∀ t ∈ b.tasks w, ∀ d ∈ f t, ∃ t ∈ b.tasks w, t.Kin d) →
      d ∈ (b.taskAt w id).flatMap f → ∃ t ∈ b.tasks w, t.Kin d := by
    intro id f hf hd
    obtain ⟨t, ht, hd⟩ := List.mem_flatMap.mp hd
    exact hf t (Records.mem_allAt_of_loadAt (mem_taskAt.mp ht)) d hd
  cases op with
  | create n => exact hop.elim
  | spawn parent n => exact hop.elim
  | edit id field value =>
    exact hone (fun t ht d hd => kin_of_mem_editDrafts (fun heq => hrequires id value (heq ▸ rfl)) ht hd) h
  | claim id owner => exact hone (fun t ht d hd => kin_of_mem_startDrafts ht hd) h
  | claimNext owner =>
    obtain ⟨t, ht, hd⟩ := List.mem_flatMap.mp h
    exact kin_of_mem_startDrafts ht hd
  | heartbeat id owner => cases h
  | reconcile => exact Snapshot.exists_kin_of_mem_repairs h
  | _ => exact hone (fun t ht d hd => kin_of_mem_movesTo ht hd) h

/-- No operation writes where tasks come from, if it makes no new task. -/
theorem inherits (hw : w.Steady) {op : Operation} (hop : op.IsInheriting) : b.Inherits w (op.perform b w) := by
  by_cases hedit : ∃ id value, op = .edit id "requires" value
  · obtain ⟨id, value, rfl⟩ := hedit
    have hends : (b.edit id "requires" value).Ends w fun _ w' => b.Inherits w w' := by
      refine ends_bind (Records.ends_load ?_)
      cases hload : Records.loadAt w.store b.root id with
      | error e => exact inherits_of_same hw.becomes_self
      | ok t =>
        obtain rfl := Records.id_of_loadAt hload
        rw [andThen_ok]
        refine ends_bind (ends_now ?_)
        rw [andThen_ok, if_neg (by decide), if_neg (by decide), if_pos rfl]
        exact ends_editRequires_inheriting hw hload w.clock (Text.trim value)
    exact hends
  · have hrequires : ∀ id value, op ≠ .edit id "requires" value := fun id value heq => hedit ⟨id, value, heq⟩
    exact (op.writes hw fun id value heq => absurd heq (hrequires id value)).inherits
      fun d hd => exists_kin_of_mem_drafts hop hrequires hd

end Operation

end Board

end Workboard
