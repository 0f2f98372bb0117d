import Workboard.Proofs.Board.Turns
import Workboard.Proofs.Graph.Settling
import Workboard.Proofs.Sorted

/-!
# What an operation may save

The records that an operation may write are known before it begins: they follow from the tasks
that can be read then. Which of them are written depends on the locks and on the places that cannot
be written. Main statement: after any operation every record is as it was, or holds one of these
tasks.
-/
namespace Workboard

/-- The record of the task, once it is saved, is read as the task if it can be read. -/
def Task.Faithful (t : Task) : Prop := ∀ u, Record.parse (Record.render t) = .ok u → u = t

instance (t : Task) : Decidable t.Faithful :=
  match h : Record.parse (Record.render t) with
  | .ok u => decidable_of_iff (u = t) (by simp [Task.Faithful, h])
  | .error _ => .isTrue fun u hu => by rw [h] at hu; cases hu

theorem Task.ReadsBack.faithful {t : Task} (h : t.ReadsBack) : t.Faithful := fun u hu => by
  rw [h] at hu
  exact (Except.ok.inj hu).symm

namespace Snapshot

/-- The tasks of the ids in which it has to be noted that `dependent` requires them, or no longer
does, as they are saved then. -/
def notings (all : Snapshot) (dependent : String) (added : Bool) (ids : List String) (now : Instant) :
    List Task :=
  (all.filter fun p => p.id ∈ ids && !decide (dependent ∈ p.blocks ↔ added = true)).map
    (·.noting dependent added now)

theorem mem_notings {all : Snapshot} {dependent : String} {added : Bool} {ids : List String} {now : Instant}
    {d : Task} : d ∈ all.notings dependent added ids now ↔
      ∃ p ∈ all, p.id ∈ ids ∧ ¬ (dependent ∈ p.blocks ↔ added = true) ∧ p.noting dependent added now = d := by
  cases added <;> simp [notings, and_assoc]

theorem notings_mono {all all' : Snapshot} (h : all ⊆ all') (dependent : String) (added : Bool)
    (ids : List String) (now : Instant) :
    all.notings dependent added ids now ⊆ all'.notings dependent added ids now := fun _ hd =>
  have ⟨p, hp, hrest⟩ := mem_notings.mp hd
  mem_notings.mpr ⟨p, h hp, hrest⟩

/-- A task after a move, and the tasks that go on if it is done then. -/
def movesTo (all : Snapshot) (t : Task) (target : TaskState) (g : Guard) (now : Instant) : List Task :=
  match t.move target g now with
  | .error _ => []
  | .ok t' => t' :: if target = .done then all.filterMap (Task.freed? t.id now) else []

theorem exists_of_mem_movesTo {all : Snapshot} {t d : Task} {target : TaskState} {g : Guard} {now : Instant}
    (ht : t ∈ all) (h : d ∈ all.movesTo t target g now) :
    ∃ u ∈ all, u.move target g now = .ok d ∨ u.freed? t.id now = some d := by
  unfold movesTo at h
  split at h
  · cases h
  · rename_i moved hmove
    obtain rfl | h := List.mem_cons.mp h
    · exact ⟨t, ht, .inl hmove⟩
    · split at h
      · obtain ⟨u, hu, hfreed⟩ := List.mem_filterMap.mp h
        exact ⟨u, hu, .inr hfreed⟩
      · cases h

end Snapshot

namespace Board
open Workboard.Action
variable (b : Board) (w : World Files)

/-- All tasks that can be read. -/
def tasks : Snapshot := Records.allAt w.store b.root

/-- The task of an id, if it can be read. -/
def taskAt (id : String) : List Task := (Records.loadAt w.store b.root id).toOption.toList

theorem mem_taskAt {b : Board} {w : World Files} {id : String} {t : Task} :
    t ∈ b.taskAt w id ↔ Records.loadAt w.store b.root id = .ok t := by
  rw [taskAt, Option.mem_toList, Records.toOption_loadAt]

/-- What may be made of the task of an id can be made of the task that is loaded. -/
theorem subset_of_taskAt {b : Board} {w : World Files} {id : String} {t : Task} {ds : List Task}
    {f : Task → List Task} (hload : Records.loadAt w.store b.root id = .ok t)
    (h : (b.taskAt w id).flatMap f ⊆ ds) : f t ⊆ ds :=
  fun _ hd => h (List.mem_flatMap.mpr ⟨t, mem_taskAt.mpr hload, hd⟩)

/-- What an insertion may save. -/
def insertDrafts (n : NewTask) (parent : Option String) : List Task :=
  match b.newTask (b.tasks w) n parent (idOfNew w n) w.clock with
  | .error _ => []
  | .ok t =>
    if w.store.text? (Records.path b.root t.id).names = none ∧
        Snapshot.cycleWith? (b.tasks w ++ [t]) t.id t.requires = none then
      t :: (b.tasks w).notings t.id true t.requires.toList w.clock
    else []

/-- What a change of the requirements may save. -/
def requiresDrafts (t : Task) (text : String) : List Task :=
  match requirementsOf t.id (idsOfText text) with
  | .error _ => []
  | .ok requires =>
    if (b.tasks w).cycleWith? t.id requires = none then
      let edited := { t with requires }.touch w.clock
      let all := (b.tasks w).upsert edited
      edited :: (all.notings t.id true (requires.diff t.requires).toList w.clock ++
        all.notings t.id false (t.requires.diff requires).toList w.clock)
    else []

/-- What a start of the task may save. -/
def startDrafts (t : Task) (owner : String) : List Task :=
  (t.move .active { lockHeld := true } w.clock).toOption.toList.map ({ · with assignedTo := some owner })

theorem exists_of_mem_startDrafts {w : World Files} {t d : Task} {owner : String} (h : d ∈ startDrafts w t owner) :
    ∃ moved, t.move .active { lockHeld := true } w.clock = .ok moved ∧ d = { moved with assignedTo := some owner } := by
  unfold startDrafts at h
  cases hmove : t.move .active { lockHeld := true } w.clock with
  | error e => simp [hmove, Except.toOption] at h
  | ok moved =>
    rw [hmove] at h
    exact ⟨moved, rfl, List.mem_singleton.mp h⟩

/-- What a change of the state may save. -/
def stateDrafts (t : Task) (word : String) : List Task :=
  match TaskState.ofText? word with
  | none => []
  | some .cancelled => (b.tasks w).movesTo t .cancelled {} w.clock
  | some target => (b.tasks w).movesTo t target { waitingFor := t.waitingFor } w.clock

/-- What an edit of a task may save. -/
def editDrafts (t : Task) (field value : String) : List Task :=
  if field ∈ readOnlyFields then []
  else if field = "state" then b.stateDrafts w t (Text.trim value)
  else if field = "requires" then b.requiresDrafts w t (Text.trim value)
  else (t.setField field value).toOption.toList.map (·.touch w.clock)

namespace Operation

/-- The tasks that an operation may save. -/
def drafts : Operation → List Task
  | create n => b.insertDrafts w n none
  | spawn parent n => (b.taskAt w parent).flatMap fun p =>
      p.withChild (idOfNew w n) w.clock :: b.insertDrafts w n (some parent)
  | edit id field value => (b.taskAt w id).flatMap fun t => b.editDrafts w t field value
  | claim id owner => (b.taskAt w id).flatMap fun t => startDrafts w t owner
  | claimNext owner => (b.tasks w).flatMap fun t => startDrafts w t owner
  | heartbeat _ _ => []
  | release id _ => (b.taskAt w id).flatMap fun t => (b.tasks w).movesTo t .todo {} w.clock
  | block id _ waitingFor => (b.taskAt w id).flatMap fun t =>
      (b.tasks w).movesTo t .waiting { waitingFor := some (Text.trim waitingFor) } w.clock
  | complete id _ => (b.taskAt w id).flatMap fun t => (b.tasks w).movesTo t .done { lockHeld := true } w.clock
  | cancel id => (b.taskAt w id).flatMap fun t => (b.tasks w).movesTo t .cancelled {} w.clock
  | promote id => (b.taskAt w id).flatMap fun t => (b.tasks w).movesTo t .todo {} w.clock
  | defer id target => (b.taskAt w id).flatMap fun t => (b.tasks w).movesTo t target {} w.clock
  | reconcile => (b.tasks w).repairs w.clock

end Operation

/-- The world goes on, and every record is as it was or holds one of the tasks. -/
structure Writes (ds : List Task) (w w' : World Files) : Prop extends w.Continues w' where
  record : ∀ id, w'.store.text? (Records.path b.root id).names = w.store.text? (Records.path b.root id).names ∨
    ∃ d ∈ ds, d.id = id ∧ w'.store.text? (Records.path b.root id).names = some (Record.render d)

section Writes
variable {b : Board} {w w₁ w₂ : World Files} {ds ds' : List Task} {id : String} {t : Task}

theorem Writes.trans (h : b.Writes ds w w₁) (h' : b.Writes ds w₁ w₂) : b.Writes ds w w₂ := by
  refine ⟨h.toContinues.trans h'.toContinues, fun id => ?_⟩
  obtain hsame | hwritten := h'.record id
  · rw [hsame]
    exact h.record id
  · exact .inr hwritten

theorem Writes.mono (h : b.Writes ds w w₁) (hsub : ds ⊆ ds') : b.Writes ds' w w₁ :=
  ⟨h.toContinues, fun other => (h.record other).imp_right fun ⟨d, hd, hrest⟩ => ⟨d, hsub hd, hrest⟩⟩

theorem writes_of_same (h : w.Becomes w₁ w.store.text?) : b.Writes ds w w₁ :=
  ⟨h.toContinues, fun _ => .inl (congrFun h.text _)⟩

theorem writes_self (hw : w.Steady) : b.Writes ds w w := writes_of_same hw.becomes_self

theorem writes_of_save (ht : t ∈ ds) (h : w.Becomes w₁ (Function.update w.store.text?
    (Records.path b.root t.id).names (some (Record.render t)))) : b.Writes ds w w₁ := by
  refine ⟨h.toContinues, fun id => ?_⟩
  rw [h.text]
  by_cases hid : id = t.id
  · subst hid
    exact .inr ⟨t, ht, rfl, Function.update_self _ _ _⟩
  · exact .inl (Function.update_of_ne (fun heq => hid (Records.eq_of_names_path heq)) _ _)

theorem writes_of_lock {s : Option String} (h : w.Becomes w₁ (Function.update w.store.text?
    (Locks.path b.root id).names s)) : b.Writes ds w w₁ :=
  ⟨h.toContinues, fun id' => .inl (by rw [h.text, Function.update_of_ne (Records.names_path_ne_lock _ _ _)])⟩

/-- A record that is none of those written is as before. -/
theorem Writes.text?_of_ne (h : b.Writes ds w w₁) (hne : ∀ d ∈ ds, d.id ≠ id) :
    w₁.store.text? (Records.path b.root id).names = w.store.text? (Records.path b.root id).names := by
  obtain hsame | ⟨d, hd, hid, -⟩ := h.record id
  · exact hsame
  · exact absurd hid (hne d hd)

theorem Writes.loadAt_of_ne (h : b.Writes ds w w₁) (hne : ∀ d ∈ ds, d.id ≠ id) :
    Records.loadAt w₁.store b.root id = Records.loadAt w.store b.root id :=
  Records.loadAt_congr (h.text?_of_ne hne)

/-- A task that is read later was there before, or was saved. -/
theorem Writes.loadAt_cases (h : b.Writes ds w w₁) (hds : ∀ d ∈ ds, d.Faithful)
    (hload : Records.loadAt w₁.store b.root id = .ok t) :
    (w₁.store.text? (Records.path b.root id).names = w.store.text? (Records.path b.root id).names ∧
      Records.loadAt w.store b.root id = .ok t) ∨ t ∈ ds := by
  obtain hsame | ⟨d, hd, -, hwritten⟩ := h.record id
  · exact .inl ⟨hsame, Records.loadAt_congr hsame ▸ hload⟩
  · obtain ⟨-, content, hcontent, hread⟩ := Records.loadAt_eq_ok.mp hload
    rw [hwritten] at hcontent
    obtain rfl := Option.some.inj hcontent
    rw [hds d hd t (Records.parse_of_read hread)]
    exact .inr hd

/-- Once a task is saved, every task that can be read is this one or was there before. -/
theorem tasks_subset_upsert {d : Task} (h : Records.Saved w.store w₁.store b.root d) (hfaithful : d.Faithful) :
    b.tasks w₁ ⊆ (b.tasks w).upsert d := by
  intro p hp
  have hload := Records.mem_allAt.mp hp
  by_cases hpid : p.id = d.id
  · obtain ⟨-, content, hcontent, hread⟩ := Records.loadAt_eq_ok.mp hload
    rw [h, hpid, Function.update_self] at hcontent
    obtain rfl := Option.some.inj hcontent
    rw [hfaithful p (Records.parse_of_read hread)]
    exact Snapshot.mem_upsert_self d _
  · rw [h.loadAt_other hpid] at hload
    exact Snapshot.mem_upsert_of_ne (Records.mem_allAt.mpr hload) hpid

end Writes

section Parts
variable {b : Board} {w v : World Files} {ds : List Task} (hv : b.Writes ds w v)
include hv

theorem ends_save_writing {t : Task} (ht : t ∈ ds) : (Records.save b.root t).Ends v fun _ v' => b.Writes ds w v' :=
  Records.ends_save hv.steady (fun _ _ _ hv₁ => hv.trans (writes_of_same hv₁))
    fun _ _ _ hv₁ => hv.trans (writes_of_save ht hv₁)

theorem ends_saveEach_writing {ts : List Task} (hts : ts ⊆ ds) :
    (b.saveEach ts).Ends v fun _ v' => b.Writes ds w v' := by
  induction ts generalizing v with
  | nil => exact ends_pure hv
  | cons t ts ih =>
    obtain ⟨ht, hts⟩ := List.cons_subset.mp hts
    refine ends_bind_of_kept (ends_attempt (ends_save_writing hv ht)) fun r v₁ hv₁ => ?_
    cases r with
    | ok _ => exact ends_bind_of_kept (ih hv₁ hts) fun _ v₂ hv₂ => ends_pure hv₂
    | error _ => exact ih hv₁ hts

omit hv in
/-- Where records are as they were, the same has to be noted in them. -/
theorem notings_subset {v' : World Files} {dependent : String} {added : Bool} {ids ids' : List String} {now : Instant}
    (h : ∀ id ∈ ids, id ∈ ids' ∧ Records.loadAt v'.store b.root id = Records.loadAt v.store b.root id) :
    (b.tasks v').notings dependent added ids now ⊆ (b.tasks v).notings dependent added ids' now := by
  intro d hd
  obtain ⟨p, hp, hmem, hrest⟩ := Snapshot.mem_notings.mp hd
  obtain ⟨hmem', hsame⟩ := h p.id hmem
  have hload := Records.mem_allAt.mp hp
  rw [hsame] at hload
  exact Snapshot.mem_notings.mpr ⟨p, Records.mem_allAt.mpr hload, hmem', hrest⟩

/-- To note a dependent in some records is to save the tasks in which it was not noted yet. -/
theorem ends_linkEach_writing {dependent : String} {added : Bool} {ids : List String} {now : Instant}
    (hnodup : ids.Nodup) (hds : (b.tasks v).notings dependent added ids now ⊆ ds) :
    (b.linkEach now dependent added ids).Ends v fun _ v' => b.Writes ds w v' ∧
      ∀ id ∉ ids, Records.loadAt v'.store b.root id = Records.loadAt v.store b.root id := by
  induction ids generalizing v with
  | nil => exact ends_pure ⟨hv, fun _ _ => rfl⟩
  | cons id ids ih =>
    obtain ⟨hid, hnodup⟩ := List.nodup_cons.mp hnodup
    -- the rest, once all other records are known to be as before
    have hrest : ∀ v₁, b.Writes ds w v₁ → (∀ other, other ≠ id →
        Records.loadAt v₁.store b.root other = Records.loadAt v.store b.root other) →
        (b.linkEach now dependent added ids).Ends v₁ fun _ v' => b.Writes ds w v' ∧
          ∀ other ∉ id :: ids, Records.loadAt v'.store b.root other = Records.loadAt v.store b.root other := by
      intro v₁ hv₁ hsame
      have hnotings := @notings_subset b v v₁ dependent added ids (id :: ids) now fun other ho =>
        ⟨List.mem_cons_of_mem _ ho, hsame other fun heq => hid (heq ▸ ho)⟩
      refine (ih hv₁ hnodup (List.Subset.trans hnotings hds)).mono fun _ v₂ hv₂ => ⟨hv₂.1, fun other ho => ?_⟩
      rw [List.mem_cons, not_or] at ho
      rw [hv₂.2 other ho.2, hsame other ho.1]
    refine ends_bind (ends_linkOne hv.steady (fun v₁ hv₁ _ => ?_) fun t v₁ ht hnew hv₁ => ?_)
    · exact hrest v₁ (hv.trans (writes_of_same hv₁)) fun other _ => Records.loadAt_congr (congrFun hv₁.text _)
    · obtain rfl := Records.id_of_loadAt ht
      have hmem : t.noting dependent added now ∈ ds :=
        hds (Snapshot.mem_notings.mpr ⟨t, Records.mem_allAt_of_loadAt ht, List.mem_cons_self, hnew, rfl⟩)
      have hsaved : Records.Saved v.store v₁.store b.root (t.noting dependent added now) := hv₁.text
      exact hrest v₁ (hv.trans (writes_of_save hmem hv₁)) fun other ho => hsaved.loadAt_other ho

/-- The records that lose the dependent are none of those that gain it. -/
theorem ends_link_writing {dependent : String} {added removed : TextSet} (hdisjoint : ∀ id ∈ removed, id ∉ added)
    (hadd : (b.tasks v).notings dependent true added.toList v.clock ⊆ ds)
    (hremove : (b.tasks v).notings dependent false removed.toList v.clock ⊆ ds) :
    (b.link dependent added removed).Ends v fun _ v' => b.Writes ds w v' := by
  refine ends_bind (ends_now ?_)
  rw [andThen_ok]
  refine ends_bind ((ends_linkEach_writing hv added.nodup hadd).mono fun r v₁ hv₁ => ?_)
  cases r with
  | error e => exact hv₁.1
  | ok _ =>
    rw [andThen_ok]
    have hnotings := @notings_subset b v v₁ dependent false removed.toList removed.toList v.clock fun id hid =>
      ⟨hid, hv₁.2 id (hdisjoint id hid)⟩
    exact (ends_linkEach_writing hv₁.1 removed.nodup (List.Subset.trans hnotings hremove)).mono fun _ _ h => h.1

end Parts

section Locks
variable {b : Board} {w v : World Files} {ds : List Task} (hv : b.Writes ds w v)
include hv

theorem ends_replace_lock (id text : String) :
    (replace (Locks.path b.root id) text).Ends v fun _ v' => b.Writes ds w v' :=
  ends_replace hv.steady _ _ (Locks.isPublic_path b.root id) (fun _ _ _ hv₁ => hv.trans (writes_of_same hv₁))
    fun _ _ hv₁ => hv.trans (writes_of_lock hv₁)

theorem ends_takeOver_writing (id : String) (record : LockRecord) :
    (Locks.takeOver (Locks.path b.root id) record).Ends v fun _ v' => b.Writes ds w v' := by
  refine ends_bind_of_kept (ends_replace_lock hv id _) fun _ v₁ hv₁ => ends_bind (Locks.ends_slot ?_)
  rw [andThen_ok]
  split <;> exact ends_pure hv₁

theorem ends_tryTake_writing (id : String) (record : LockRecord) (now : Instant) (passes : Nat) :
    (Locks.tryTake (Locks.path b.root id) record now passes).Ends v fun _ v' => b.Writes ds w v' := by
  induction passes generalizing v with
  | zero => exact ends_pure hv
  | succ passes ih =>
    have hcreate : (orFail (createNew (Locks.path b.root id) record.render)).Ends v fun _ v' => b.Writes ds w v' :=
      ends_createNew hv.steady _ _ (Locks.isPublic_path b.root id) (fun _ _ => hv) (fun _ _ => hv)
        fun _ _ hv₁ => hv.trans (writes_of_lock hv₁)
    refine ends_bind_of_kept hcreate fun created v₁ hv₁ => ?_
    cases created with
    | true => exact ends_pure hv₁
    | false =>
      refine ends_bind (Locks.ends_slot ?_)
      rw [andThen_ok]
      split
      · exact ih hv₁
      · exact ends_takeOver_writing hv₁ id record
      · split
        · exact ends_takeOver_writing hv₁ id record
        · split
          · exact ends_bind_of_kept (ends_replace_lock hv₁ id _) fun _ v₂ hv₂ => ends_pure hv₂
          · exact ends_pure hv₁

/-- To take a lock is to leave all records as they are. -/
theorem ends_acquire_writing (id owner : String) (timeout : Duration) :
    (Locks.acquire b.root id owner timeout).Ends v fun _ v' => b.Writes ds w v' := by
  rw [Locks.acquire_eq]
  split
  · exact ends_throw hv
  · split
    · exact ends_throw hv
    · split
      · exact ends_throw hv
      · refine ends_bind (ends_now ?_)
        rw [andThen_ok]
        exact ends_tryTake_writing hv id _ _ _

theorem ends_releaseLock_writing (id owner : String) :
    (Locks.release b.root id owner).Ends v fun _ v' => b.Writes ds w v' :=
  Locks.ends_release hv.steady (fun _ => hv) (fun _ => hv) fun _ _ hv₁ => hv.trans (writes_of_lock hv₁)

theorem ends_forceRelease_writing (id : String) :
    (Locks.forceRelease b.root id).Ends v fun _ v' => b.Writes ds w v' :=
  Locks.ends_forceRelease hv.steady (fun _ => hv) fun _ _ hv₁ => hv.trans (writes_of_lock hv₁)

theorem ends_renew_writing (id owner : String) :
    (Locks.renew b.root id owner).Ends v fun _ v' => b.Writes ds w v' :=
  Locks.ends_renew hv.steady (fun _ _ hv₁ => hv.trans (writes_of_same hv₁))
    fun _ _ _ hv₁ => hv.trans (writes_of_lock hv₁)

theorem ends_holderOf_writing (id : String) : (b.holderOf id).Ends v fun _ v' => b.Writes ds w v' :=
  ends_holderOf fun _ => hv

end Locks

section Operations
variable {b : Board} {w : World Files} {ds : List Task} {α : Type} {id : String} {t : Task} (hw : w.Steady)
include hw

theorem ends_loaded_writing {f : Task → Action α}
    (hf : ∀ t, Records.loadAt w.store b.root id = .ok t → (f t).Ends w fun _ w' => b.Writes ds w w') :
    (Records.load b.root id >>= f).Ends w fun _ w' => b.Writes ds w w' := by
  refine ends_bind (Records.ends_load ?_)
  cases hload : Records.loadAt w.store b.root id with
  | error e => exact writes_self hw
  | ok t => exact hf t hload

/-- A task is moved and saved; the other records are then as before. -/
theorem ends_advance_writing {target : TaskState} {g : Guard} {f : Task → Action α}
    (hds : (b.tasks w).movesTo t target g w.clock ⊆ ds)
    (hf : ∀ t' w₁, t.move target g w.clock = .ok t' → b.Writes ds w w₁ → (∀ id, id ≠ t.id →
      Records.loadAt w₁.store b.root id = Records.loadAt w.store b.root id) →
      (f t').Ends w₁ fun _ w' => b.Writes ds w w') :
    (b.advance t target g >>= f).Ends w fun _ w' => b.Writes ds w w' := by
  refine ends_bind (ends_advance hw (fun _ _ hw₁ => writes_of_same hw₁) fun t' w₁ hmove hid _ hw₁ => ?_)
  have hmem : t' ∈ ds := hds (by simp [Snapshot.movesTo, hmove])
  have hsaved : Records.Saved w.store w₁.store b.root t' := hw₁.text
  exact hf t' w₁ hmove (writes_of_save hmem hw₁) fun id hne => hsaved.loadAt_other (hid ▸ hne)

omit hw in
/-- The dependents of a task that is done go on. -/
theorem ends_cascade_writing {w₁ : World Files} (hw₁ : b.Writes ds w w₁) {g : Guard} (now : Instant)
    {t' : Task} (hmove : t.move .done g now = .ok t') (hds : (b.tasks w).movesTo t .done g now ⊆ ds)
    (hsame : ∀ id, id ≠ t.id → Records.loadAt w₁.store b.root id = Records.loadAt w.store b.root id) :
    (b.saveEach ((Records.allAt w₁.store b.root).cascade t.id now)).Ends w₁ fun _ w' => b.Writes ds w w' := by
  refine ends_saveEach_writing hw₁ fun d hd => hds ?_
  obtain ⟨u, hu, hfreed⟩ := Snapshot.exists_of_mem_cascade hd
  have hne : u.id ≠ t.id := by
    intro heq
    simp [Task.freed?, heq] at hfreed
  have hload := Records.mem_allAt.mp hu
  rw [hsame u.id hne] at hload
  simp only [Snapshot.movesTo, hmove, if_pos, List.mem_cons, List.mem_filterMap]
  exact .inr ⟨u, Records.mem_allAt.mpr hload, hfreed⟩

theorem ends_insert_writing (n : NewTask) (parent : Option String) (hds : b.insertDrafts w n parent ⊆ ds) :
    (b.insert n parent).Ends w fun r w' => b.Writes ds w w' ∧ ∀ c, r = .ok c → c.id = idOfNew w n := by
  refine ends_insert_new hw (fun _ _ w₁ hw₁ => ⟨writes_of_same hw₁, fun c h => nomatch h⟩)
    (fun _ _ w₁ _ _ hw₁ => ⟨writes_of_same hw₁, fun c h => nomatch h⟩)
    (fun _ _ w₁ _ _ _ hw₁ => ⟨writes_of_same hw₁, fun c h => nomatch h⟩) fun t w₁ hnew hnone _ htext hw₁ => ?_
  obtain ⟨hid, -, hself, -⟩ := of_newTask hnew
  rw [← hid] at hnone htext hw₁ hself ⊢
  have hdrafts : b.insertDrafts w n parent = t :: (b.tasks w).notings t.id true t.requires.toList w.clock := by
    rw [insertDrafts, tasks, hnew]
    exact if_pos ⟨htext, hnone⟩
  rw [hdrafts, List.cons_subset] at hds
  have hwrites : b.Writes ds w w₁ := writes_of_save hds.1 hw₁
  have hsaved : Records.Saved w.store w₁.store b.root t := hw₁.text
  -- the tasks that it requires are still as they were
  have hnotings : (b.tasks w₁).notings t.id true t.requires.toList w₁.clock ⊆ ds := by
    rw [hw₁.clock]
    refine List.Subset.trans (notings_subset fun id hid => ⟨hid, ?_⟩) hds.2
    exact hsaved.loadAt_other fun heq => hself (heq ▸ hid)
  have hlink : (b.link t.id t.requires ∅).Ends w₁ fun _ w₂ => b.Writes ds w w₂ :=
    ends_link_writing hwrites (fun id hid => absurd hid (TextSet.not_mem_empty id)) hnotings fun d hd => by
      obtain ⟨p, -, hmem, -⟩ := Snapshot.mem_notings.mp hd
      cases hmem
  refine hlink.mono fun r w₂ hw₂ => ?_
  cases r with
  | ok _ =>
    rw [andThen_ok]
    exact ends_pure ⟨hw₂, fun c hc => by rw [← Except.ok.inj hc]⟩
  | error _ =>
    rw [andThen_error]
    exact ⟨hw₂, fun c h => nomatch h⟩

theorem ends_spawn_writing (parent : String) (n : NewTask)
    (hds : (Operation.spawn parent n).drafts b w ⊆ ds) :
    (b.spawn parent n).Ends w fun _ w' => b.Writes ds w w' := by
  refine ends_loaded_writing hw fun p hload => ?_
  obtain ⟨hchild, hinsert⟩ := List.cons_subset.mp (subset_of_taskAt hload hds)
  split
  · exact ends_throw (writes_self hw)
  · refine ends_bind ((ends_insert_writing hw n (some parent) hinsert).mono ?_)
    rintro (e | child) w₁ ⟨hw₁, hid⟩
    · exact hw₁
    · rw [andThen_ok]
      refine ends_bind (ends_now ?_)
      rw [andThen_ok, hw₁.clock]
      have hmem : p.withChild child.id w.clock ∈ ds := by
        rw [hid child rfl]
        exact hchild
      exact ends_bind_of_kept (ends_save_writing hw₁ hmem) fun _ w₂ hw₂ => ends_pure hw₂

end Operations

/-- The tasks may have been written by an action that succeeded; one that failed has written no
record. -/
def WritesIfOk {α : Type} (b : Board) (ds : List Task) (w : World Files) :
    Except Error α → World Files → Prop
  | .ok _, w' => b.Writes ds w w'
  | .error _, w' => b.Writes [] w w'

section Claim
variable {b : Board} {w v : World Files} {ds : List Task} {owner : String}

theorem WritesIfOk.writes {α : Type} {r : Except Error α} (h : b.WritesIfOk ds w r v) : b.Writes ds w v := by
  cases r with
  | ok _ => exact h
  | error _ => exact Writes.mono h (List.nil_subset ds)

theorem ends_start_writing (hv : b.Writes [] w v) {id : String}
    (hds : ∀ t, Records.loadAt w.store b.root id = .ok t → startDrafts w t owner ⊆ ds) :
    (b.start id owner).Ends v (b.WritesIfOk ds w) := by
  rw [start_eq]
  refine ends_bind (Records.ends_load ?_)
  have hsame : Records.loadAt v.store b.root id = Records.loadAt w.store b.root id :=
    hv.loadAt_of_ne fun _ h => nomatch h
  rw [hsame]
  cases hload : Records.loadAt w.store b.root id with
  | error e => exact hv
  | ok t =>
    rw [andThen_ok]
    refine ends_bind (ends_now ?_)
    rw [andThen_ok, hv.clock]
    refine ends_bind (ends_settle ?_)
    cases hmove : t.move .active { lockHeld := true } w.clock with
    | error e => exact hv
    | ok t' =>
      have hmem : { t' with assignedTo := some owner } ∈ ds :=
        hds t hload (by simp [startDrafts, hmove, Except.toOption])
      have hv' : b.Writes ds w v := hv.mono (List.nil_subset ds)
      rw [andThen_ok]
      exact ends_bind (Records.ends_save hv.steady (fun _ _ _ hv₁ => hv.trans (writes_of_same hv₁))
        fun _ _ _ hv₁ => hv'.trans (writes_of_save hmem hv₁))

/-- A claim that succeeds saves the task; one that fails leaves all records as they are. -/
theorem ends_claim_writing (hv : b.Writes [] w v) {id : String}
    (hds : ∀ t, Records.loadAt w.store b.root id = .ok t → startDrafts w t owner ⊆ ds) :
    (b.claim id owner).Ends v (b.WritesIfOk ds w) := by
  rw [claim_eq]
  refine ends_bind (Records.ends_load ?_)
  cases Records.loadAt v.store b.root id with
  | error e => exact hv
  | ok t =>
    rw [andThen_ok]
    split
    · exact ends_throw hv
    refine ends_bind (Records.ends_scan ?_)
    rw [andThen_ok]
    split
    · exact ends_throw hv
    refine ends_bind (Locks.ends_owns (fun _ => ?_) fun _ => hv)
    rw [andThen_ok]
    refine ends_bind ((ends_acquire_writing hv id owner b.settings.lockTimeout).mono fun r v₁ hv₁ => ?_)
    cases r with
    | error e => exact hv₁
    | ok taken =>
      rw [andThen_ok]
      split
      · refine ends_bind (ends_attempt ((ends_start_writing hv₁ hds).mono fun r v₂ hv₂ => ?_))
        rw [andThen_ok]
        cases r with
        | ok t => exact ends_pure hv₂
        | error e =>
          simp only
          split
          · exact ends_throw hv₂
          · refine ends_bind (ends_attempt ((ends_releaseLock_writing hv₂ id owner).mono fun r v₃ hv₃ => ?_))
            rw [andThen_ok]
            exact ends_throw hv₃
      · refine ends_bind ((ends_holderOf_writing hv₁ id).mono fun r v₂ hv₂ => ?_)
        cases r with
        | ok holder =>
          rw [andThen_ok]
          exact ends_throw hv₂
        | error _ => exact hv₂

theorem ends_claimFirst_writing (ids : List String) (hv : b.Writes [] w v)
    (hds : ∀ id ∈ ids, ∀ t, Records.loadAt w.store b.root id = .ok t → startDrafts w t owner ⊆ ds) :
    (b.claimFirst owner ids).Ends v (b.WritesIfOk ds w) := by
  induction ids generalizing v with
  | nil => exact ends_pure (hv.mono (List.nil_subset ds))
  | cons id ids ih =>
    obtain ⟨hid, hrest⟩ := List.forall_mem_cons.mp hds
    refine ends_bind (ends_attempt ((ends_claim_writing hv hid).mono fun r v₁ hv₁ => ?_))
    rw [andThen_ok]
    cases r with
    | ok t => exact ends_pure hv₁
    | error e =>
      cases e with
      | alreadyLocked _ _ => exact ih hv₁ hrest
      | refused _ _ => exact ih hv₁ hrest
      | _ => exact ends_throw hv₁

theorem ends_claimNext_writing (hw : w.Steady) (hds : (Operation.claimNext owner).drafts b w ⊆ ds) :
    (b.claimNext owner).Ends w fun _ w' => b.Writes ds w w' := by
  refine ends_bind (Records.ends_scan ?_)
  rw [andThen_ok]
  refine (ends_claimFirst_writing _ (writes_self hw) fun id _ t hload d hd => hds ?_).mono fun _ _ h => h.writes
  exact List.mem_flatMap.mpr ⟨t, Records.mem_allAt_of_loadAt hload, hd⟩

end Claim

section Owned
variable {b : Board} {w : World Files} {ds : List Task} {α : Type} {id owner : String} {t : Task} (hw : w.Steady)
include hw

/-- What an owner may do with an own task. -/
theorem ends_owned_writing {f : Task → Action α} {refusal : Action α} (hrefusal : ∃ r, refusal.run.runIn w = (r, w))
    (hf : ∀ t, Records.loadAt w.store b.root id = .ok t → (f t).Ends w fun _ w' => b.Writes ds w w') :
    (Locks.owns b.root id owner >>= fun mine =>
      if mine then Records.load b.root id >>= f else refusal).Ends w fun _ w' => b.Writes ds w w' := by
  refine ends_bind (Locks.ends_owns (fun _ => ?_) fun _ => writes_self hw)
  rw [andThen_ok]
  split
  · exact ends_loaded_writing hw hf
  · obtain ⟨r, hrun⟩ := hrefusal
    exact ends_of_runIn hrun (writes_self hw)

theorem ends_move_writing {target : TaskState} {g : Guard} (hds : (b.tasks w).movesTo t target g w.clock ⊆ ds) :
    (b.advance t target g).Ends w fun _ w' => b.Writes ds w w' :=
  ends_advance hw (fun _ _ hw₁ => writes_of_same hw₁) fun t' _ hmove _ _ hw₁ =>
    writes_of_save (hds (by simp [Snapshot.movesTo, hmove])) hw₁

theorem ends_heartbeat_writing (id owner : String) : (b.heartbeat id owner).Ends w fun _ w' => b.Writes ds w w' := by
  refine ends_bind_of_kept (ends_renew_writing (writes_self hw) id owner) fun mine v hv => ?_
  cases mine with
  | true => exact ends_pure hv
  | false => exact ends_throw hv

theorem ends_release_writing (hds : (Operation.release id owner).drafts b w ⊆ ds) :
    (b.release id owner).Ends w fun _ w' => b.Writes ds w w' := by
  refine ends_owned_writing hw ⟨_, rfl⟩ fun t hload => ?_
  by_cases hactive : t.state = .active
  · simp only [if_pos hactive]
    exact ends_advance_writing hw (subset_of_taskAt hload hds)
      fun _ _ _ hw₁ _ => ends_releaseLock_writing hw₁ id owner
  · simp only [if_neg hactive]
    exact ends_releaseLock_writing (writes_self hw) id owner

theorem ends_block_writing {waitingFor : String} (hds : (Operation.block id owner waitingFor).drafts b w ⊆ ds) :
    (b.block id owner waitingFor).Ends w fun _ w' => b.Writes ds w w' :=
  ends_owned_writing hw ⟨_, rfl⟩ fun _ hload =>
    ends_advance_writing hw (subset_of_taskAt hload hds)
      fun _ _ _ hw₁ _ => ends_bind_of_kept (ends_releaseLock_writing hw₁ id owner) fun _ _ hw₂ => ends_pure hw₂

theorem ends_complete_writing (hds : (Operation.complete id owner).drafts b w ⊆ ds) :
    (b.complete id owner).Ends w fun _ w' => b.Writes ds w w' := by
  refine ends_owned_writing hw ⟨_, rfl⟩ fun t hload => ?_
  obtain rfl := Records.id_of_loadAt hload
  have hmoves := subset_of_taskAt hload hds
  refine ends_advance_writing hw hmoves fun t' w₁ hmove hw₁ hsame => ?_
  have hnone : b.Writes [] w₁ w₁ := writes_self hw₁.steady
  refine ends_bind (ends_attempt ((ends_releaseLock_writing hnone t.id owner).mono fun r w₂ hw₂ => ?_))
  rw [andThen_ok]
  refine ends_bind (Records.ends_scan ?_)
  rw [andThen_ok]
  refine ends_bind (ends_now ?_)
  rw [andThen_ok, hw₂.clock, hw₁.clock]
  refine ends_cascade_writing (hw₁.trans (hw₂.mono (List.nil_subset ds))) w.clock hmove hmoves fun other ho => ?_
  rw [hw₂.loadAt_of_ne fun _ h => nomatch h]
  exact hsame other ho

theorem ends_cancel_writing (hds : (Operation.cancel id).drafts b w ⊆ ds) :
    (b.cancel id).Ends w fun _ w' => b.Writes ds w w' :=
  ends_loaded_writing hw fun _ hload =>
    ends_advance_writing hw (subset_of_taskAt hload hds)
      fun _ _ _ hw₁ _ => ends_bind_of_kept (ends_forceRelease_writing hw₁ id) fun _ _ hw₂ => ends_pure hw₂

theorem ends_promote_writing (hds : (Operation.promote id).drafts b w ⊆ ds) :
    (b.promote id).Ends w fun _ w' => b.Writes ds w w' := by
  refine ends_loaded_writing hw fun t hload => ?_
  split
  · exact ends_move_writing hw (subset_of_taskAt hload hds)
  · exact ends_throw (writes_self hw)

theorem ends_defer_writing {target : TaskState} (hds : (Operation.defer id target).drafts b w ⊆ ds) :
    (b.defer id target).Ends w fun _ w' => b.Writes ds w w' := by
  unfold defer
  split
  · exact ends_loaded_writing hw fun t hload =>
      ends_move_writing hw (subset_of_taskAt hload hds)
  · exact ends_throw (writes_self hw)

end Owned

section Edit
variable {b : Board} {w : World Files} {ds : List Task} {t : Task} (hw : w.Steady)
include hw

/-- The state is set, and the dependents of a task that is done then go on. -/
theorem ends_editState_writing (hload : Records.loadAt w.store b.root t.id = .ok t) {word : String}
    (hds : b.stateDrafts w t word ⊆ ds) : (b.editState t w.clock word).Ends w fun _ w' => b.Writes ds w w' := by
  unfold editState
  rw [stateDrafts] at hds
  split
  · exact ends_throw (writes_self hw)
  · rename_i hword
    rw [hword] at hds
    refine ends_cancel_writing hw fun d hd => hds ?_
    simpa [Operation.drafts, taskAt, hload, Except.toOption] using hd
  rename_i target hcancelled hword
  have hmoves : (b.tasks w).movesTo t target { waitingFor := t.waitingFor } w.clock ⊆ ds := by
    rw [hword] at hds
    split at hds
    · rename_i hnone
      cases hnone
    · rename_i hsome
      exact absurd (Option.some.inj hsome) hcancelled
    · rename_i hsome
      rwa [Option.some.inj hsome]
  refine ends_bind (ends_settle ?_)
  cases hmove : t.move target { waitingFor := t.waitingFor } w.clock with
  | error e => exact writes_self hw
  | ok moved =>
    have hmem : moved ∈ ds := hmoves (by simp [Snapshot.movesTo, hmove])
    have hid : moved.id = t.id ∧ moved.state = target := by
      obtain ⟨rfl, -⟩ := Task.exists_of_move_eq_ok hmove
      exact ⟨Task.id_moved _ _ _ _, rfl⟩
    rw [andThen_ok]
    refine ends_bind (Records.ends_save hw (fun _ _ _ hw₁ => writes_of_same hw₁) fun w₁ _ _ hw₁ => ?_)
    have hsaved : Records.Saved w.store w₁.store b.root moved := hw₁.text
    -- once the lock is right, the dependents go on
    have hrest : ∀ w₂, b.Writes ds w w₂ →
        (∀ id, Records.loadAt w₂.store b.root id = Records.loadAt w₁.store b.root id) →
        Ends (if moved.state = .done then
          Records.scan b.root >>= fun all => b.saveEach (all.cascade t.id w.clock) >>= fun _ => pure moved
        else pure moved) w₂ fun _ w' => b.Writes ds w w' := by
      intro w₂ hw₂ hsame
      split
      · rename_i hdone
        obtain rfl := hid.2.symm.trans hdone
        refine ends_bind (Records.ends_scan ?_)
        rw [andThen_ok]
        refine ends_bind_of_kept (ends_cascade_writing hw₂ w.clock hmove hmoves fun id hne => ?_)
          fun _ _ hw₃ => ends_pure hw₃
        rw [hsame, hsaved.loadAt_other (hid.1 ▸ hne)]
      · exact ends_pure hw₂
    have hw₁' : b.Writes ds w w₁ := writes_of_save hmem hw₁
    rw [andThen_ok]
    by_cases hactive : t.state = .active
    · simp only [if_pos hactive]
      have hkept : b.Writes [] w₁ w₁ := writes_self hw₁.steady
      refine ends_bind ((ends_forceRelease_writing hkept t.id).mono fun r w₂ hw₂ => ?_)
      have hw₂' : b.Writes ds w w₂ := hw₁'.trans (hw₂.mono (List.nil_subset ds))
      cases r with
      | ok _ => exact hrest w₂ hw₂' fun id => hw₂.loadAt_of_ne fun _ h => absurd h List.not_mem_nil
      | error e => exact hw₂'
    · simp only [if_neg hactive]
      exact hrest w₁ hw₁' fun id => rfl

/-- The requirements are set, and the tasks that they name or no longer name are told. -/
theorem ends_editRequires_writing {text : String}
    (hfaithful : ∀ d ∈ ds, d.Faithful)
    (hds : b.requiresDrafts w t text ⊆ ds) : (b.editRequires t w.clock text).Ends w fun _ w' => b.Writes ds w w' := by
  rw [requiresDrafts] at hds
  refine ends_bind (ends_settle ?_)
  cases hrequires : requirementsOf t.id (idsOfText text) with
  | error e => exact writes_self hw
  | ok requires =>
    rw [hrequires] at hds
    rw [andThen_ok]
    refine ends_bind (Records.ends_scan ?_)
    rw [andThen_ok]
    split
    · exact ends_throw (writes_self hw)
    rename_i hnone
    change (if (Records.allAt w.store b.root).cycleWith? t.id requires = none then _ else _) ⊆ ds at hds
    rw [if_pos hnone] at hds
    obtain ⟨hedited, hlinks⟩ := List.cons_subset.mp hds
    obtain ⟨hadd, hremove⟩ := List.append_subset.mp hlinks
    refine ends_bind (Records.ends_save hw (fun _ _ _ hw₁ => writes_of_same hw₁) fun w₁ _ _ hw₁ => ?_)
    rw [andThen_ok]
    have hsaved : Records.Saved w.store w₁.store b.root (Task.touch w.clock { t with requires }) := hw₁.text
    have hnotings : ∀ added ids, (b.tasks w₁).notings t.id added ids w₁.clock ⊆
        ((b.tasks w).upsert (Task.touch w.clock { t with requires })).notings t.id added ids w.clock := by
      rw [hw₁.clock]
      exact fun added ids => Snapshot.notings_mono (tasks_subset_upsert hsaved (hfaithful _ hedited)) _ _ _ _
    refine ends_bind_of_kept (ends_link_writing (writes_of_save hedited hw₁) (fun id hid => ?_)
      (List.Subset.trans (hnotings true _) hadd) (List.Subset.trans (hnotings false _) hremove))
      fun _ _ hw₂ => ends_pure hw₂
    rw [TextSet.mem_diff] at hid ⊢
    exact fun h => hid.2 h.1

theorem ends_edit_writing {id field value : String} (hfaithful : field = "requires" → ∀ d ∈ ds, d.Faithful)
    (hds : (Operation.edit id field value).drafts b w ⊆ ds) :
    (b.edit id field value).Ends w fun _ w' => b.Writes ds w w' := by
  refine ends_loaded_writing hw fun t hload => ?_
  obtain rfl := Records.id_of_loadAt hload
  have hds : b.editDrafts w t field value ⊆ ds := subset_of_taskAt hload hds
  rw [editDrafts] at hds
  refine ends_bind (ends_now ?_)
  rw [andThen_ok]
  split
  · exact ends_throw (writes_self hw)
  rename_i hreadOnly
  rw [if_neg hreadOnly] at hds
  split
  · rename_i hfield
    rw [if_pos hfield] at hds
    exact ends_editState_writing hw hload hds
  rename_i hstate
  rw [if_neg hstate] at hds
  split
  · rename_i hfield
    rw [if_pos hfield] at hds
    exact ends_editRequires_writing hw (hfaithful hfield) hds
  rename_i hrequires
  rw [if_neg hrequires] at hds
  refine ends_bind (ends_settle ?_)
  cases hset : t.setField field value with
  | error e => exact writes_self hw
  | ok t' =>
    rw [andThen_ok]
    refine ends_bind_of_kept (ends_save_writing (writes_self hw) (hds ?_)) fun _ _ hw₁ => ends_pure hw₁
    simp [hset, Except.toOption]

end Edit

theorem ends_reconcile_writing {b : Board} {w : World Files} {ds : List Task} (hw : w.Steady)
    (hds : Operation.reconcile.drafts b w ⊆ ds) : b.reconcile.Ends w fun _ w' => b.Writes ds w w' := by
  refine ends_bind (ends_now ?_)
  rw [andThen_ok]
  refine ends_bind (Records.ends_scan ?_)
  rw [andThen_ok]
  exact ends_saveEach_writing (writes_self hw) hds

/-- An operation leaves every record as it is, or puts one of the tasks into its place that are
known before it begins. Only an edit of requirements reads again what it has written. -/
theorem Operation.writes {b : Board} {w : World Files} (hw : w.Steady) (op : Operation)
    (hfaithful : ∀ id value, op = .edit id "requires" value → ∀ d ∈ op.drafts b w, d.Faithful) :
    b.Writes (op.drafts b w) w (op.perform b w) := by
  have hds := List.Subset.refl (op.drafts b w)
  cases op with
  | create n => exact (ends_insert_writing hw n none hds).1
  | spawn parent n => exact ends_spawn_writing hw parent n hds
  | edit id field value => exact ends_edit_writing hw (fun h => hfaithful id value (h ▸ rfl)) hds
  | claim id owner =>
    refine (ends_claim_writing (writes_self hw) fun t hload d hd => hds ?_).writes
    exact List.mem_flatMap.mpr ⟨t, mem_taskAt.mpr hload, hd⟩
  | claimNext owner => exact ends_claimNext_writing hw hds
  | heartbeat id owner => exact ends_heartbeat_writing hw id owner
  | release id owner => exact ends_release_writing hw hds
  | block id owner waitingFor => exact ends_block_writing hw hds
  | complete id owner => exact ends_complete_writing hw hds
  | cancel id => exact ends_cancel_writing hw hds
  | promote id => exact ends_promote_writing hw hds
  | defer id target => exact ends_defer_writing hw hds
  | reconcile => exact ends_reconcile_writing hw hds

/-- The world in which a turn begins. -/
def Turn.opening (turn : Turn) (w : World Files) : World Files :=
  { w.refuse turn.refusing with clock := turn.now }

theorem Turn.steady_opening {w : World Files} (hw : w.Steady) (turn : Turn) : (turn.opening w).Steady :=
  ⟨hw.proper, hw.unused⟩

/-- The tasks that a turn may save. -/
def Turn.drafts (b : Board) (w : World Files) (turn : Turn) : List Task :=
  turn.operation.drafts b (turn.opening w)

/-- Whatever the turns may save is read as it was saved, if it can be read. -/
def FaithfulTurns (b : Board) : World Files → List Turn → Prop
  | _, [] => True
  | w, turn :: turns => (∀ d ∈ turn.drafts b w, d.Faithful) ∧ FaithfulTurns b (turn.perform b w) turns

instance decidableFaithfulTurns (b : Board) : ∀ w turns, Decidable (b.FaithfulTurns w turns)
  | _, [] => .isTrue trivial
  | w, turn :: turns =>
    have := decidableFaithfulTurns b (turn.perform b w) turns
    inferInstanceAs (Decidable ((∀ d ∈ turn.drafts b w, d.Faithful) ∧ b.FaithfulTurns (turn.perform b w) turns))

section Turns
variable {b : Board} {w : World Files}

theorem Turn.writes {turn : Turn} (hw : w.Steady) (h : ∀ d ∈ turn.drafts b w, d.Faithful) :
    b.Writes (turn.drafts b w) (turn.opening w) (turn.perform b w) :=
  Operation.writes (turn.steady_opening hw) turn.operation fun _ _ _ => h

theorem afterTurns_append (turns more : List Turn) :
    b.afterTurns w (turns ++ more) = b.afterTurns (b.afterTurns w turns) more := List.foldl_append

theorem faithfulTurns_append {turns more : List Turn} : b.FaithfulTurns w (turns ++ more) ↔
    b.FaithfulTurns w turns ∧ b.FaithfulTurns (b.afterTurns w turns) more := by
  induction turns generalizing w with
  | nil => exact (iff_of_eq (true_and _)).symm
  | cons turn turns ih =>
    change _ ∧ b.FaithfulTurns (turn.perform b w) (turns ++ more) ↔ (_ ∧ _) ∧ _
    rw [ih, and_assoc]
    rfl

theorem steady_afterTurns {turns : List Turn} (hw : w.Steady) (h : b.FaithfulTurns w turns) :
    (b.afterTurns w turns).Steady := by
  induction turns generalizing w with
  | nil => exact hw
  | cons turn turns ih => exact ih (Turn.writes hw h.1).steady h.2

end Turns

end Board

end Workboard
