import Workboard.Proofs.Board.Spawning
import Workboard.Proofs.Graph.Repairing
import Workboard.Proofs.Lock.Alone
import Workboard.Proofs.Lock.Sound
import Workboard.Proofs.Task.Rereading

/-!
# Locks guard active tasks

On a board that only its own operations have written to, every record was written for a task,
and the task is active exactly if it is locked. Whatever part of an operation writes a record
only leaves all locks as they are, so it is enough that the tasks it saves are active where
there is a lock. A task that begins or ends to be active has its lock taken or removed next to
the save.
-/
namespace Workboard

namespace Task

theorem exists_of_move_eq_ok {t t' : Task} {target : TaskState} {g : Guard} {now : Instant}
    (h : t.move target g now = .ok t') :
    t' = t.moved target g now ∧ g.objection? (t.state.rule target) = none := by
  unfold move checkMove at h
  split at h
  · rename_i hnone
    exact ⟨(Except.ok.inj h).symm, hnone⟩
  · cases h

/-- Nothing becomes active by a move whose caller holds no lock. -/
theorem not_active_of_move {t t' : Task} {target : TaskState} {g : Guard} {now : Instant}
    (h : t.move target g now = .ok t') (hg : g.lockHeld = false) : t'.state ≠ .active := by
  obtain ⟨rfl, hnone⟩ := exists_of_move_eq_ok h
  rintro rfl
  cases hstate : t.state <;>
    simp [hstate, TaskState.rule, TaskState.isTerminal, Guard.objection?, hg] at hnone

/-- What is active is not put aside. -/
theorem not_active_of_move_shelf {t t' : Task} {target : TaskState} {g : Guard} {now : Instant}
    (h : t.move target g now = .ok t') (htarget : target.isShelf = true) : t.state ≠ .active := by
  obtain ⟨-, hnone⟩ := exists_of_move_eq_ok h
  intro hstate
  cases target <;>
    simp_all [TaskState.rule, TaskState.isTerminal, TaskState.isShelf, Guard.objection?]

end Task

namespace Settings

/-- The timeout of a board is a number of whole milliseconds that may be asked for, if it is
in range at all. -/
theorem exists_millis_lockTimeout {s : Settings}
    (h : ¬ (s.lockTimeout ≤ .zero ∨ maxTimeout < s.lockTimeout)) :
    ∃ ms : ℕ, AllowedMillis ms ∧ s.lockTimeout = .ofMillis ms := by
  unfold lockTimeout timeoutOfHours? at h ⊢
  split at h
  · rename_i hrange
    rw [if_pos hrange]
    generalize (s.lockTimeoutHours * millisPerHour).roundToInt = n at h ⊢
    rw [Option.getD_some, Duration.le_def, Duration.lt_def] at h
    change ¬ (n * 1000000 ≤ 0 ∨ (8760 * 3600000 : ℤ) * 1000000 < n * 1000000) at h
    refine ⟨n.toNat, ⟨by omega, (by omega : n.toNat ≤ 3600000 * 8760)⟩, ?_⟩
    · have hms : n = n.toNat := by omega
      rw [Option.getD_some, ← hms]
  · exact absurd (.inl (Int.le_refl _)) h

end Settings

namespace Board
open Workboard.Action
variable {b : Board}

/-- There is a lock file for the id. -/
def HasLock (b : Board) (texts : List String → Option String) (id : String) : Prop :=
  (texts (Locks.path b.root id).names).isSome = true

/-- Every record was written for a task of its id, which is active exactly if it is locked, and
nothing but a task is locked. -/
structure Guarded (b : Board) (texts : List String → Option String) : Prop where
  records : ∀ id content, texts (Records.path b.root id).names = some content →
    ∃ t : Task, t.id = id ∧ content = Record.render t ∧ (b.HasLock texts id ↔ t.state = .active)
  locks : ∀ id, b.HasLock texts id → (texts (Records.path b.root id).names).isSome = true

section Texts
variable {texts texts' : List String → Option String} {id : String} {t : Task}

theorem locked_update_record (s : Option String) (id id' : String) :
    b.HasLock (Function.update texts (Records.path b.root id').names s) id ↔ b.HasLock texts id := by
  rw [HasLock, Function.update_of_ne (Records.names_path_ne_lock _ _ _).symm, HasLock]

theorem Guarded.congr (h : b.Guarded texts)
    (hrecords : ∀ id, texts' (Records.path b.root id).names = texts (Records.path b.root id).names)
    (hlocks : ∀ id, b.HasLock texts' id ↔ b.HasLock texts id) : b.Guarded texts' := by
  refine ⟨fun id content hcontent => ?_, fun id hlocked => ?_⟩
  · rw [hrecords] at hcontent
    rw [hlocks]
    exact h.records id content hcontent
  · rw [hrecords]
    exact h.locks id ((hlocks id).mp hlocked)

/-- A task may be saved together with its lock, if it is active, or without one. -/
theorem Guarded.put (h : b.Guarded texts) (t : Task) {lock : Option String}
    (hlock : lock.isSome = true ↔ t.state = .active) :
    b.Guarded (Function.update (Function.update texts (Records.path b.root t.id).names
      (some (Record.render t))) (Locks.path b.root t.id).names lock) := by
  have hrecord : ∀ id, Function.update (Function.update texts (Records.path b.root t.id).names
      (some (Record.render t))) (Locks.path b.root t.id).names lock (Records.path b.root id).names =
        if id = t.id then some (Record.render t) else texts (Records.path b.root id).names := by
    intro id
    rw [Function.update_of_ne (Records.names_path_ne_lock _ _ _)]
    split
    · rename_i heq
      rw [heq, Function.update_self]
    · rename_i hne
      exact Function.update_of_ne (fun heq => hne (Records.eq_of_names_path heq)) _ _
  have hlocked : ∀ id, b.HasLock (Function.update (Function.update texts (Records.path b.root t.id).names
      (some (Record.render t))) (Locks.path b.root t.id).names lock) id ↔
        if id = t.id then t.state = .active else b.HasLock texts id := by
    intro id
    split
    · rename_i heq
      rw [HasLock, heq, Function.update_self, hlock]
    · rename_i hne
      rw [HasLock, Function.update_of_ne fun heq => hne (Records.eq_of_names_lock_path heq)]
      exact locked_update_record _ _ _
  refine ⟨fun id content hcontent => ?_, fun id hid => ?_⟩
  · rw [hrecord] at hcontent
    rw [hlocked]
    split at hcontent
    · rename_i heq
      exact ⟨t, heq.symm, (Option.some.inj hcontent).symm, by rw [if_pos heq]⟩
    · rename_i hne
      rw [if_neg hne]
      exact h.records id content hcontent
  · rw [hlocked] at hid
    rw [hrecord]
    split at hid
    · rename_i heq
      rw [if_pos heq]
      rfl
    · rename_i hne
      rw [if_neg hne]
      exact h.locks id hid

/-- A task may be saved by itself if it is active exactly if it is locked. -/
theorem Guarded.save (h : b.Guarded texts) (hlocked : b.HasLock texts t.id ↔ t.state = .active) :
    b.Guarded (Function.update texts (Records.path b.root t.id).names (some (Record.render t))) := by
  have hsame := h.put t hlocked
  rwa [← Function.update_of_ne (a := (Locks.path b.root t.id).names)
    (Records.names_path_ne_lock b.root t.id t.id).symm (some (Record.render t)) texts,
    Function.update_eq_self] at hsame

end Texts

/-- The record of a task tells whether the task is locked. -/
theorem Guarded.locked_iff {f : Files} (h : b.Guarded f.text?) {id : String} {t : Task}
    (hload : Records.loadAt f b.root id = .ok t) : b.HasLock f.text? id ↔ t.state = .active := by
  obtain ⟨-, content, hcontent, hread⟩ := Records.loadAt_eq_ok.mp hload
  obtain ⟨u, -, rfl, hlocked⟩ := h.records id content hcontent
  rw [hlocked, Record.state_of_parse_render (Records.parse_of_read hread)]

/-- The world goes on, and the board is guarded in it. -/
structure Guards (b : Board) (w w' : World Files) : Prop extends w.Continues w' where
  guarded : b.Guarded w'.store.text?

/-- The world goes on, the board is guarded in it, and the same tasks are locked. -/
structure Minds (b : Board) (w w' : World Files) : Prop extends b.Guards w w' where
  locked : ∀ id, b.HasLock w'.store.text? id ↔ b.HasLock w.store.text? id

variable {w w₁ w₂ : World Files}

theorem Guards.trans (h : b.Guards w w₁) (h' : b.Guards w₁ w₂) : b.Guards w w₂ :=
  ⟨h.toContinues.trans h'.toContinues, h'.guarded⟩

theorem Minds.trans (h : b.Minds w w₁) (h' : b.Minds w₁ w₂) : b.Minds w w₂ :=
  ⟨h.toGuards.trans h'.toGuards, fun id => (h'.locked id).trans (h.locked id)⟩

theorem Guarded.minds_of_same (h : b.Guarded w.store.text?) (hw₁ : w.Becomes w₁ w.store.text?) :
    b.Minds w w₁ :=
  ⟨⟨hw₁.toContinues, by rwa [hw₁.text]⟩, fun id => by rw [hw₁.text]⟩

theorem Guarded.minds_self (h : b.Guarded w.store.text?) (hw : w.Steady) : b.Minds w w :=
  h.minds_of_same hw.becomes_self

theorem Guarded.minds_save (h : b.Guarded w.store.text?) {t : Task}
    (hlocked : b.HasLock w.store.text? t.id ↔ t.state = .active)
    (hw₁ : w.Becomes w₁ (Function.update w.store.text? (Records.path b.root t.id).names
      (some (Record.render t)))) : b.Minds w w₁ := by
  refine ⟨⟨hw₁.toContinues, ?_⟩, fun id => ?_⟩
  · rw [hw₁.text]
    exact h.save hlocked
  · rw [hw₁.text]
    exact locked_update_record _ _ _

section Saving
variable (hw : w.Steady) (h : b.Guarded w.store.text?)
include hw h

theorem ends_save_minding {t : Task} (hlocked : b.HasLock w.store.text? t.id ↔ t.state = .active) :
    (Records.save b.root t).Ends w fun _ w' => b.Minds w w' :=
  Records.ends_save hw (fun _ _ _ hw₁ => h.minds_of_same hw₁) fun _ _ _ hw₁ => h.minds_save hlocked hw₁

theorem ends_saveEach_minding {ts : List Task}
    (hlocked : ∀ t ∈ ts, b.HasLock w.store.text? t.id ↔ t.state = .active) :
    (b.saveEach ts).Ends w fun _ w' => b.Minds w w' := by
  induction ts generalizing w with
  | nil => exact ends_pure (h.minds_self hw)
  | cons t ts ih =>
    refine ends_bind_of_trans Minds.trans
      (ends_attempt (ends_save_minding hw h (hlocked t List.mem_cons_self))) fun r w₁ hw₁ => ?_
    have hrest := ih hw₁.steady hw₁.guarded fun u hu =>
      (hw₁.locked u.id).trans (hlocked u (List.mem_cons_of_mem _ hu))
    cases r with
    | ok _ =>
      exact ends_bind_of_trans Minds.trans hrest fun _ w₂ hw₂ => ends_pure (hw₂.guarded.minds_self hw₂.steady)
    | error _ => exact hrest

theorem ends_linkOne_minding (now : Instant) (dependent id : String) (added : Bool) :
    (b.linkOne now dependent id added).Ends w fun _ w' => b.Minds w w' := by
  refine ends_linkOne hw (fun w₁ hw₁ _ => h.minds_of_same hw₁) fun t w₁ ht _ hw₁ => ?_
  obtain ⟨-, _, -, hread⟩ := Records.loadAt_eq_ok.mp ht
  obtain rfl : t.id = id := Records.id_of_read hread
  have hlocked : b.HasLock w.store.text? t.id ↔ t.state = .active := h.locked_iff ht
  exact h.minds_save (t := t.noting dependent added now) hlocked hw₁

theorem ends_linkEach_minding (now : Instant) (dependent : String) (added : Bool) (ids : List String) :
    (b.linkEach now dependent added ids).Ends w fun _ w' => b.Minds w w' := by
  induction ids generalizing w with
  | nil => exact ends_pure (h.minds_self hw)
  | cons id ids ih =>
    exact ends_bind_of_trans Minds.trans (ends_linkOne_minding hw h now dependent id added)
      fun _ w₁ hw₁ => ih hw₁.steady hw₁.guarded

theorem ends_link_minding (dependent : String) (added removed : TextSet) :
    (b.link dependent added removed).Ends w fun _ w' => b.Minds w w' := by
  refine ends_bind (ends_now ?_)
  rw [andThen_ok]
  exact ends_bind_of_trans Minds.trans (ends_linkEach_minding hw h _ dependent true added.toList)
    fun _ w₁ hw₁ => ends_linkEach_minding hw₁.steady hw₁.guarded _ dependent false removed.toList

/-- A new task is not active, and not locked. -/
theorem ends_insert_minding (n : NewTask) (parent : Option String) :
    (b.insert n parent).Ends w fun _ w' => b.Minds w w' := by
  refine ends_insert hw (fun _ w₁ hw₁ => h.minds_of_same hw₁) fun t w₁ _ hnone hinitial hw₁ => ?_
  have hfree : ¬ b.HasLock w.store.text? t.id := fun hlocked => by
    have hsome := h.locks t.id hlocked
    rw [hnone] at hsome
    cases hsome
  have hidle : t.state ≠ .active := fun hactive => by
    rw [hactive] at hinitial
    cases hinitial
  have hmind := h.minds_save (iff_of_false hfree hidle) hw₁
  refine (ends_link_minding hmind.steady hmind.guarded t.id t.requires ∅).mono fun r w₂ hw₂ => ?_
  cases r with
  | ok _ => exact hmind.trans hw₂
  | error _ => exact hmind.trans hw₂

omit hw in
/-- The tasks of a scan are active exactly if they are locked. -/
theorem ends_scan_minding {post : Except Error Snapshot → World Files → Prop}
    (hpost : ∀ all : Snapshot, (∀ t ∈ all, b.HasLock w.store.text? t.id ↔ t.state = .active) →
      post (.ok all) w) : (Records.scan b.root).Ends w post :=
  Records.ends_scan (hpost _ fun _ ht => h.locked_iff (Records.mem_allAt.mp ht))

/-- The dependents of a task that is done go on. -/
theorem ends_cascade_minding {all : Snapshot} (hall : ∀ t ∈ all, b.HasLock w.store.text? t.id ↔ t.state = .active)
    (id : String) (now : Instant) : (b.saveEach (all.cascade id now)).Ends w fun _ w' => b.Minds w w' := by
  refine ends_saveEach_minding hw h fun u hu => ?_
  obtain ⟨t, ht, hfreed⟩ := Snapshot.exists_of_mem_cascade hu
  rw [(Task.sameLinks_of_freed? hfreed).1, Task.active_of_freed? hfreed]
  exact hall t ht

theorem ends_unblockDependents_minding (id : String) :
    (b.unblockDependents id).Ends w fun _ w' => b.Minds w w' := by
  refine ends_bind (ends_scan_minding h fun all hall => ?_)
  rw [andThen_ok]
  refine ends_bind (ends_now ?_)
  rw [andThen_ok]
  exact ends_cascade_minding hw h hall id _

theorem ends_reconcile_minding : b.reconcile.Ends w fun _ w' => b.Minds w w' := by
  refine ends_bind (ends_now ?_)
  rw [andThen_ok]
  refine ends_bind (ends_scan_minding h fun all hall => ?_)
  rw [andThen_ok]
  refine ends_saveEach_minding hw h (Snapshot.forall_mem_repairs hall (fun id t u ht hfreed => ?_)
    fun t blocks ht => ht)
  rw [(Task.sameLinks_of_freed? hfreed).1, Task.active_of_freed? hfreed]
  exact ht

end Saving

end Board

end Workboard
