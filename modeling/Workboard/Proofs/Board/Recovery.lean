import Workboard.Proofs.Board.Lone
import Workboard.Proofs.Graph.Repairing
import Workboard.Proofs.Lock.Alone

/-!
# Recovery from failed writes

When a task is completed, the tasks that this frees are saved one by one, and those that
cannot be saved are left as they were. Main statement: once all records can be written
again, a repair frees exactly those tasks, and the files are the same as if no write had
failed.
-/
namespace Workboard

namespace Records
variable {f g : Files} {root : Path}

theorem nodup_idsAt (h : f.Proper) (root : Path) : (idsAt f root).Nodup :=
  nodup_idsOfNames ((Files.pairwise_list h _).imp fun hlt => ne_of_lt hlt) ".md"

theorem toOption_loadAt {id : String} {t : Task} :
    (loadAt f root id).toOption = some t ↔ loadAt f root id = .ok t := by
  cases loadAt f root id <;> simp [Except.toOption]

theorem id_of_toOption {id : String} {t : Task} (h : (loadAt f root id).toOption = some t) :
    t.id = id := by
  obtain ⟨-, content, -, hread⟩ := loadAt_eq_ok.mp (toOption_loadAt.mp h)
  exact id_of_read hread

/-- No two tasks that a scan finds have the same id. -/
theorem nodup_allAt (h : f.Proper) (root : Path) : ((allAt f root).map Task.id).Nodup := by
  have hids := nodup_idsAt h root
  rw [List.nodup_iff_pairwise_ne] at hids ⊢
  rw [List.pairwise_map, allAt, List.pairwise_filterMap]
  refine hids.imp fun {id id'} hne t ht t' ht' heq => hne ?_
  rw [← id_of_toOption ht, ← id_of_toOption ht', heq]

/-- The texts once the records of some tasks have been saved. -/
def savedTexts (root : Path) (ts : List Task) (texts : List String → Option String) :
    List String → Option String :=
  ts.foldl (fun texts t => Function.update texts (path root t.id).names (some (Record.render t))) texts

theorem savedTexts_append (ts us : List Task) (texts : List String → Option String) :
    savedTexts root (ts ++ us) texts = savedTexts root us (savedTexts root ts texts) :=
  List.foldl_append

theorem savedTexts_congr {texts texts' : List String → Option String} {names : List String}
    (h : texts' names = texts names) (ts : List Task) :
    savedTexts root ts texts' names = savedTexts root ts texts names := by
  induction ts generalizing texts texts' with
  | nil => exact h
  | cons t ts ih =>
    refine ih ?_
    simp only [Function.update_apply, h]

/-- Records of different tasks may be saved in any order. -/
theorem savedTexts_perm {ts us : List Task} (h : ts.Perm us) (hnodup : (ts.map Task.id).Nodup)
    (texts : List String → Option String) : savedTexts root ts texts = savedTexts root us texts := by
  refine h.foldl_eq' (fun t ht u hu texts => ?_) texts
  by_cases hid : t.id = u.id
  · rw [List.inj_on_of_nodup_map hnodup ht hu hid]
  · exact Function.update_comm (fun heq => hid (eq_of_names_path heq)) _ _ _

/-- A scan finds a record that was saved as it was saved. -/
theorem allAt_of_saved (hf : f.Proper) (hg : g.Proper) {t u : Task}
    (htext : ∀ id, g.text? (path root id).names =
      Function.update f.text? (path root t.id).names (some (Record.render t)) (path root id).names)
    (hload : loadAt f root t.id = .ok u) (hread : t.ReadsBack) :
    allAt g root = (allAt f root).upsert t := by
  obtain ⟨hid, content, hcontent, hu⟩ := loadAt_eq_ok.mp hload
  have hself : loadAt g root t.id = .ok t := by
    refine loadAt_eq_ok.mpr ⟨hid, Record.render t, ?_, ?_⟩
    · rw [htext, Function.update_self]
    · rw [read, hread]
      simp
  have hother : ∀ id, id ≠ t.id → loadAt g root id = loadAt f root id := fun id hne =>
    loadAt_congr (by rw [htext, Function.update_of_ne fun heq => hne (eq_of_names_path heq)])
  have hids : idsAt g root = idsAt f root := by
    refine idsAt_congr hf hg fun id => ?_
    rw [htext, Function.update_apply]
    split
    · rename_i heq
      rw [heq, hcontent]
      rfl
    · rfl
  have hut : u.id = t.id := id_of_read hu
  have hmem : t.id ∈ (allAt f root).map Task.id := by
    rw [← hut] at hload
    exact List.mem_map.mpr ⟨u, mem_allAt.mpr hload, hut⟩
  rw [Snapshot.upsert_eq_map (nodup_allAt hf root) hmem, allAt, allAt, hids, List.map_filterMap]
  refine List.filterMap_congr fun id _ => ?_
  by_cases hidt : id = t.id
  · rw [hidt, hself, hload]
    simp [Except.toOption, hut]
  · rw [hother id hidt]
    cases hload' : (loadAt f root id).toOption with
    | none => rfl
    | some v => simp [id_of_toOption hload', hidt]

/-- A scan finds the records that were saved as they were saved. -/
theorem allAt_of_savedTexts (hf : f.Proper) (hg : g.Proper) {ts : List Task}
    (htext : ∀ id, g.text? (path root id).names = savedTexts root ts f.text? (path root id).names)
    (hload : ∀ t ∈ ts, ∃ u, loadAt f root t.id = .ok u) (hread : ∀ t ∈ ts, t.ReadsBack) :
    allAt g root = Snapshot.upsertAll ts (allAt f root) := by
  induction ts generalizing f with
  | nil => exact allAt_congr hf hg htext
  | cons t ts ih =>
    -- the files between the first save and the others
    let between := f.put (path root t.id).names (Record.render t)
    have hbetween : between.text? =
        Function.update f.text? (path root t.id).names (some (Record.render t)) :=
      funext fun names => by rw [Files.text?_put, Function.update_apply]
    have hsaved : Saved f between root t := hbetween
    obtain ⟨u, hu⟩ := hload t List.mem_cons_self
    have hfirst : allAt between root = (allAt f root).upsert t :=
      allAt_of_saved hf (Files.proper_put hf _ _) (fun id => congrFun hbetween _) hu
        (hread t List.mem_cons_self)
    rw [ih (f := between) (Files.proper_put hf _ _) ?_ ?_ fun v hv => hread v (List.mem_cons_of_mem _ hv),
      hfirst]
    · rfl
    · intro id
      rw [htext, hbetween]
      rfl
    · intro v hv
      by_cases hvt : v.id = t.id
      · rw [hvt]
        exact ⟨t, hsaved.loadAt_self (loadAt_eq_ok.mp hu).1 (hread t List.mem_cons_self)⟩
      · rw [hsaved.loadAt_other hvt]
        exact hload v (List.mem_cons_of_mem _ hv)

end Records

namespace World

/-- The same world, but these places refuse to be written. -/
def refuse (places : List (List String)) (w : World Files) : World Files :=
  { w with store := { w.store with refusing := places } }

variable {w : World Files} {places : List (List String)}

@[simp] theorem text?_refuse : (w.refuse places).store.text? = w.store.text? := rfl

@[simp] theorem refusing_refuse : (w.refuse places).store.refusing = places := rfl

theorem Steady.refuse (h : w.Steady) : (w.refuse places).Steady := ⟨h.proper, h.unused⟩

end World

namespace Board
open Workboard.Action
variable {b : Board} {w : World Files}

/-- The record of the task can be written. -/
def CanSave (b : Board) (w : World Files) (t : Task) : Bool :=
  (Records.path b.root t.id).names ∉ w.store.refusing

/-- Only records refuse to be written. -/
def RefusesRecords (b : Board) (w : World Files) : Prop :=
  ∀ names ∈ w.store.refusing, ∃ id, names = (Records.path b.root id).names

theorem RefusesRecords.not_canSave (h : b.RefusesRecords w) {t : Task}
    (hrefuses : w.Refuses (Records.path b.root t.id)) : b.CanSave w t = false := by
  obtain ⟨names, hmem, rfl | ⟨token, hhid⟩⟩ := hrefuses
  · simpa [CanSave] using hmem
  · obtain ⟨id, rfl⟩ := h names hmem
    exact absurd hhid (Records.isPublic_path b.root id token)

/-- The tasks whose records can be written are saved. -/
theorem ends_saveEach (hw : w.Steady) (hrecords : b.RefusesRecords w) {ts : List Task}
    (hids : ∀ t ∈ ts, isValidId t.id = true) :
    (b.saveEach ts).Ends w fun r w' => r = .ok (ts.filter (b.CanSave w)) ∧
      w.Becomes w' (Records.savedTexts b.root (ts.filter (b.CanSave w)) w.store.text?) := by
  induction ts generalizing w with
  | nil => exact ends_pure ⟨rfl, hw.becomes_self⟩
  | cons t ts ih =>
    have hrest : ∀ u ∈ ts, isValidId u.id = true := fun u hu => hids u (List.mem_cons_of_mem _ hu)
    have hcan : ∀ w₁, w.Continues w₁ → b.CanSave w₁ = b.CanSave w := fun w₁ hw₁ => by
      funext u
      rw [CanSave, CanSave, hw₁.refusing]
    refine ends_bind (ends_attempt (Records.ends_save hw (fun e w₁ hrefuses hw₁ => ?_)
      fun w₁ _ hmem hw₁ => ?_))
    · have hno := hrecords.not_canSave (hrefuses (hids t List.mem_cons_self))
      have hrecords₁ : b.RefusesRecords w₁ := fun names hn => hrecords names (hw₁.refusing ▸ hn)
      rw [andThen_ok]
      change (b.saveEach ts).Ends w₁ _
      refine (ih hw₁.steady hrecords₁ hrest).mono ?_
      rintro r w₂ ⟨rfl, hw₂⟩
      rw [hcan w₁ hw₁.toContinues, hw₁.text] at hw₂
      rw [hcan w₁ hw₁.toContinues, List.filter_cons_of_neg (by simp [hno])]
      exact ⟨rfl, hw₁.toContinues.trans hw₂.toContinues, hw₂.text⟩
    · have hyes : b.CanSave w t = true := by simpa [CanSave] using hmem
      have hrecords₁ : b.RefusesRecords w₁ := fun names hn => hrecords names (hw₁.refusing ▸ hn)
      rw [andThen_ok]
      refine ends_bind ((ih hw₁.steady hrecords₁ hrest).mono ?_)
      rintro r w₂ ⟨rfl, hw₂⟩
      rw [hcan w₁ hw₁.toContinues, hw₁.text] at hw₂
      rw [hcan w₁ hw₁.toContinues]
      rw [andThen_ok]
      refine ends_pure ?_
      rw [List.filter_cons_of_pos hyes]
      exact ⟨rfl, hw₁.toContinues.trans hw₂.toContinues, hw₂.text⟩

/-- The tasks that the completion of a task frees, as they are then. -/
def freedBy (b : Board) (w : World Files) (a : Task) : List Task :=
  ((Records.allAt w.store b.root).upsert (a.moved .done { lockHeld := true } w.clock)).cascade a.id w.clock

/-- The texts of the files once a task is completed, but none of those that this frees is saved. -/
def completedTexts (b : Board) (w : World Files) (a : Task) : List String → Option String :=
  Function.update (Records.savedTexts b.root [a.moved .done { lockHeld := true } w.clock] w.store.text?)
    (Locks.path b.root a.id).names none

theorem move_done {a : Task} (hactive : a.state = .active) (now : Instant) :
    a.move .done { lockHeld := true } now = .ok (a.moved .done { lockHeld := true } now) := by
  simp [Task.move, Task.checkMove, hactive, TaskState.rule, TaskState.isTerminal, Guard.objection?,
    Except.map]

theorem sameLinks_done (a : Task) (now : Instant) :
    a.SameLinks (a.moved .done { lockHeld := true } now) := by
  simp [Task.SameLinks, Task.moved, Task.touch]

section Complete
variable {a : Task} {owner : String}

/-- The freed tasks have records of their own. -/
theorem loadAt_freedBy (hload : Records.loadAt w.store b.root a.id = .ok a) {t : Task}
    (ht : t ∈ b.freedBy w a) : ∃ u, Records.loadAt w.store b.root t.id = .ok u := by
  obtain ⟨u, hu, hfreed⟩ := Snapshot.exists_of_mem_cascade ht
  rw [(Task.sameLinks_of_freed? hfreed).1]
  obtain hu | hu := @Snapshot.mem_upsertAll _ [a.moved .done { lockHeld := true } w.clock] _ hu
  · rw [List.mem_singleton.mp hu, (sameLinks_done a w.clock).1]
    exact ⟨a, hload⟩
  · exact ⟨u, Records.mem_allAt.mp hu⟩

/-- What a scan finds once a task is completed and some of the freed tasks are saved. -/
theorem allAt_completed (hproper : w.store.Proper) (hload : Records.loadAt w.store b.root a.id = .ok a)
    (hdone : (a.moved .done { lockHeld := true } w.clock).ReadsBack) {ts : List Task}
    (hts : ∀ t ∈ ts, t ∈ b.freedBy w a ∧ t.ReadsBack) {f : Files} (hf : f.Proper)
    (htext : f.text? = Records.savedTexts b.root ts (b.completedTexts w a)) :
    Records.allAt f b.root = Snapshot.upsertAll ts
      ((Records.allAt w.store b.root).upsert (a.moved .done { lockHeld := true } w.clock)) := by
  refine @Records.allAt_of_savedTexts _ _ _ hproper hf (a.moved .done { lockHeld := true } w.clock :: ts)
    (fun id => ?_) ?_ ?_
  · have hrecord : b.completedTexts w a (Records.path b.root id).names =
        Records.savedTexts b.root [a.moved .done { lockHeld := true } w.clock] w.store.text?
          (Records.path b.root id).names := by
      rw [completedTexts, Function.update_of_ne (Records.names_path_ne_lock _ _ _)]
    rw [htext, Records.savedTexts_congr hrecord]
    rfl
  · intro t ht
    obtain rfl | ht := List.mem_cons.mp ht
    · exact ⟨a, (sameLinks_done a w.clock).1 ▸ hload⟩
    · exact loadAt_freedBy hload (hts t ht).1
  · intro t ht
    obtain rfl | ht := List.mem_cons.mp ht
    · exact hdone
    · exact (hts t ht).2

/-- The completion of a task comes down to what is saved once it is done and its lock is removed. -/
theorem ends_complete_of (hw : w.Steady) (hrecords : b.RefusesRecords w)
    (hload : Records.loadAt w.store b.root a.id = .ok a) (hactive : a.state = .active)
    (howner : (Locks.slotAt w.store (Locks.path b.root a.id)).owner? = some owner)
    (hcan : b.CanSave w a = true) {post : Except Error (List Task) → World Files → Prop}
    (h : ∀ w₂, w.Becomes w₂ (b.completedTexts w a) →
      (b.saveEach ((Records.allAt w₂.store b.root).cascade a.id w.clock)).Ends w₂ post) :
    (b.complete a.id owner).Ends w post := by
  obtain ⟨hid, -⟩ := Records.loadAt_eq_ok.mp hload
  have hlinks := sameLinks_done a w.clock
  have hid' : isValidId (a.moved .done { lockHeld := true } w.clock).id = true := hlinks.1 ▸ hid
  refine ends_bind (Locks.ends_owns (fun _ => ?_) fun h => absurd (hid.symm.trans h) Bool.noConfusion)
  rw [andThen_ok, decide_eq_true howner]
  refine ends_bind (Records.ends_load ?_)
  rw [hload, andThen_ok]
  refine ends_bind (ends_bind (ends_now ?_))
  rw [andThen_ok, move_done hactive]
  refine ends_bind (ends_settle ?_)
  rw [andThen_ok]
  refine ends_bind (Records.ends_save hw (fun e w₁ hrefuses _ => ?_) fun w₁ _ _ hw₁ => ?_)
  · have hno := hrecords.not_canSave (hrefuses hid')
    rw [CanSave, hlinks.1] at hno
    rw [CanSave, hno] at hcan
    cases hcan
  rw [andThen_ok]
  refine ends_pure ?_
  rw [andThen_ok]
  have hslot : Locks.slotAt w₁.store (Locks.path b.root a.id) = Locks.slotAt w.store (Locks.path b.root a.id) :=
    Locks.slotAt_congr (by rw [hw₁.text, Function.update_of_ne (Records.names_path_ne_lock _ _ _).symm])
  refine ends_bind (ends_attempt (Locks.ends_release hw₁.steady
    (fun h => absurd (hid.symm.trans h) Bool.noConfusion) (fun h => absurd (hslot ▸ howner) h)
    fun _ w₂ hw₂ => ?_))
  have hbecomes : w.Becomes w₂ (b.completedTexts w a) :=
    ⟨hw₁.toContinues.trans hw₂.toContinues, by rw [hw₂.text, hw₁.text]; rfl⟩
  rw [andThen_ok]
  refine ends_bind (Records.ends_scan ?_)
  rw [andThen_ok]
  refine ends_bind (ends_now ?_)
  rw [andThen_ok, hbecomes.clock]
  exact h w₂ hbecomes

/-- A task is completed, its lock is removed, and those of the freed tasks are saved whose
records can be written. -/
theorem ends_complete (hw : w.Steady) (hrecords : b.RefusesRecords w)
    (hload : Records.loadAt w.store b.root a.id = .ok a) (hactive : a.state = .active)
    (howner : (Locks.slotAt w.store (Locks.path b.root a.id)).owner? = some owner)
    (hcan : b.CanSave w a = true) (hdone : (a.moved .done { lockHeld := true } w.clock).ReadsBack) :
    (b.complete a.id owner).Ends w fun r w' =>
      r = .ok ((b.freedBy w a).filter (b.CanSave w)) ∧
        w.Becomes w' (Records.savedTexts b.root ((b.freedBy w a).filter (b.CanSave w)) (b.completedTexts w a)) := by
  refine ends_complete_of hw hrecords hload hactive howner hcan fun w₂ hw₂ => ?_
  rw [allAt_completed hw.proper hload hdone (fun _ h => absurd h List.not_mem_nil) hw₂.steady.proper hw₂.text]
  have hcan₂ : b.CanSave w₂ = b.CanSave w := by
    funext t
    rw [CanSave, CanSave, hw₂.refusing]
  refine (ends_saveEach hw₂.steady (fun names hn => hrecords names (hw₂.refusing ▸ hn)) fun t ht => ?_).mono ?_
  · obtain ⟨u, hu⟩ := loadAt_freedBy hload ht
    exact (Records.loadAt_eq_ok.mp hu).1
  · rintro r w' ⟨rfl, hw'⟩
    rw [hcan₂] at hw' ⊢
    rw [hw₂.text] at hw'
    exact ⟨rfl, hw₂.toContinues.trans hw'.toContinues, hw'.text⟩

end Complete

/-- A repair saves what it finds to do. -/
theorem ends_reconcile (hw : w.Steady) (hopen : w.store.refusing = []) :
    b.reconcile.Ends w fun r w' =>
      r = .ok ((Records.allAt w.store b.root).repairs w.clock) ∧
        w.Becomes w' (Records.savedTexts b.root ((Records.allAt w.store b.root).repairs w.clock) w.store.text?) := by
  have hcan : ∀ t, b.CanSave w t = true := fun t => by simp [CanSave, hopen]
  refine ends_bind (ends_now ?_)
  rw [andThen_ok]
  refine ends_bind (Records.ends_scan ?_)
  rw [andThen_ok]
  refine (ends_saveEach hw (fun names hn => by rw [hopen] at hn; cases hn) fun t ht => ?_).mono ?_
  · obtain ⟨u, hu, hid⟩ := Snapshot.exists_of_mem_repairs ht
    rw [← hid]
    exact (Records.loadAt_eq_ok.mp (Records.mem_allAt.mp hu)).1
  · rintro r w' ⟨rfl, hw'⟩
    rw [List.filter_eq_self.mpr fun t _ => hcan t] at hw' ⊢
    exact ⟨rfl, hw'⟩

section Recover
variable {a : Task} {owner : String} {places : List (List String)}

/-- After a completion some of whose freed tasks could not be saved, a repair saves these. -/
theorem ends_reconcile_after (hw : w.Steady) (hopen : w.store.refusing = [])
    (hsettled : (b.reconcile.run.runIn w).1 = .ok [])
    (hload : Records.loadAt w.store b.root a.id = .ok a)
    (hdone : (a.moved .done { lockHeld := true } w.clock).ReadsBack)
    (hread : ∀ t ∈ b.freedBy w a, t.ReadsBack) (saved : Task → Bool) {w₁ : World Files}
    (hsteady : w₁.Steady) (hclock : w₁.clock = w.clock)
    (htext : w₁.store.text? =
      Records.savedTexts b.root ((b.freedBy w a).filter saved) (b.completedTexts w a)) :
    b.reconcile.Ends (w₁.refuse []) fun r w₂ =>
      r = .ok ((b.freedBy w a).filter fun t => !saved t) ∧
        w₂.store.text? = Records.savedTexts b.root (b.freedBy w a) (b.completedTexts w a) := by
  have hlinks := sameLinks_done a w.clock
  have hnodup := Records.nodup_allAt hw.proper b.root
  have hmem : a ∈ Records.allAt w.store b.root := Records.mem_allAt.mpr hload
  have hnone : (Records.allAt w.store b.root).repairs w.clock = [] :=
    Except.ok.inj ((ends_reconcile hw hopen).1.symm.trans hsettled)
  have hall : Records.allAt (w₁.refuse []).store b.root =
      Snapshot.upsertAll ((b.freedBy w a).filter saved)
        ((Records.allAt w.store b.root).upsert (a.moved .done { lockHeld := true } w.clock)) :=
    allAt_completed hw.proper hload hdone
      (fun t ht => ⟨(List.mem_filter.mp ht).1, hread t (List.mem_filter.mp ht).1⟩) hsteady.refuse.proper htext
  have hrepairs : (Records.allAt (w₁.refuse []).store b.root).repairs (w₁.refuse []).clock =
      (b.freedBy w a).filter fun t => !saved t := by
    have h := Snapshot.repairs_after_completion hnodup hnone hmem hlinks rfl saved
    rw [hlinks.1] at h
    rw [hall]
    change Snapshot.repairs _ w₁.clock = _
    rw [hclock]
    exact h
  refine (ends_reconcile hsteady.refuse rfl).mono ?_
  rintro r w₂ ⟨rfl, hw₂⟩
  refine ⟨by rw [hrepairs], ?_⟩
  have hnodupFreed : ((b.freedBy w a).map Task.id).Nodup :=
    Snapshot.nodup_cascade (Snapshot.nodup_upsert hnodup
      (List.mem_map.mpr ⟨a, hmem, hlinks.1.symm⟩)) _
  -- the order in which the tasks are saved does not matter
  have hperm := (List.filter_append_perm saved (b.freedBy w a)).symm
  rw [hw₂.text, hrepairs, World.text?_refuse, htext, ← Records.savedTexts_append]
  exact (Records.savedTexts_perm hperm hnodupFreed _).symm

/-- If the completion of a task finds some records that cannot be written, and they can be
written again, then a repair ends it: the tasks that were freed are those that could be saved
at once and those that the repair saves, and the files are the same as if all could have been
saved at once. -/
theorem completion_recovered (hw : w.Steady) (hopen : w.store.refusing = [])
    (hsettled : (b.reconcile.run.runIn w).1 = .ok [])
    (hload : Records.loadAt w.store b.root a.id = .ok a) (hactive : a.state = .active)
    (howner : (Locks.slotAt w.store (Locks.path b.root a.id)).owner? = some owner)
    (hplaces : ∀ names ∈ places, ∃ id, names = (Records.path b.root id).names)
    (hfree : (Records.path b.root a.id).names ∉ places)
    (hdone : (a.moved .done { lockHeld := true } w.clock).ReadsBack)
    (hread : ∀ t ∈ b.freedBy w a, t.ReadsBack) :
    let whole := (b.complete a.id owner).run.runIn w
    let part := (b.complete a.id owner).run.runIn (w.refuse places)
    let repaired := b.reconcile.run.runIn (part.2.refuse [])
    whole.1 = .ok (b.freedBy w a) ∧
      part.1 = .ok ((b.freedBy w a).filter fun t => (Records.path b.root t.id).names ∉ places) ∧
      repaired.1 = .ok ((b.freedBy w a).filter fun t => (Records.path b.root t.id).names ∈ places) ∧
      repaired.2.store.text? = whole.2.store.text? := by
  have hwhole := ends_complete hw (fun names hn => by rw [hopen] at hn; cases hn)
    hload hactive howner (by simp [CanSave, hopen]) hdone
  have hpart := ends_complete (w := w.refuse places) hw.refuse hplaces
    hload hactive howner (decide_eq_true hfree) hdone
  rw [Ends] at hwhole hpart
  generalize (b.complete a.id owner).run.runIn w = whole at hwhole ⊢
  generalize (b.complete a.id owner).run.runIn (w.refuse places) = part at hpart ⊢
  have hcan : ∀ t, b.CanSave w t = true := fun t => by simp [CanSave, hopen]
  rw [List.filter_eq_self.mpr fun t _ => hcan t] at hwhole
  have hrepaired := ends_reconcile_after hw hopen hsettled hload hdone hread
    (b.CanSave (w.refuse places)) hpart.2.steady hpart.2.clock hpart.2.text
  refine ⟨hwhole.1, hpart.1, hrepaired.1.trans ?_, hrepaired.2.trans hwhole.2.text.symm⟩
  refine congrArg Except.ok (List.filter_congr fun t _ => ?_)
  by_cases hmem : (Records.path b.root t.id).names ∈ places <;> simp [CanSave, hmem]

end Recover

section Lone

/-- The task of the lone board, being worked on. -/
def begunTask : Task := { Lone.task with state := .active, assignedTo := some "x" }

/-- A world in which "x" has begun the task, and another one waits for it. -/
def awaited : World Files :=
  ⟨⟨[(["/", "store", "locks", "a.lock"],
      (LockRecord.new "a" "x" Lone.begun Lone.board.settings.lockTimeout).render),
    (["/", "store", "tasks", "a.md"], "---\nid: a\nstate: active\nassigned_to: x\n" ++
      "created_at: 2025-03-01T09:00:00Z\nupdated_at: 2025-03-01T09:00:00Z\n---\n"),
    (["/", "store", "tasks", "b.md"], "---\nid: b\nstate: waiting\nwaiting_for: a\n" ++
      "created_at: 2025-03-01T09:00:00Z\nupdated_at: 2025-03-01T09:00:00Z\n---\n")], []⟩,
    Lone.begun, 0, 4, 0⟩

theorem steady_awaited : awaited.Steady := by
  refine World.steady_of_isPublic (by unfold Files.Proper; decide) fun names hnames => ?_
  simp only [awaited, List.map_cons, List.map_nil, List.mem_cons, List.not_mem_nil, or_false] at hnames
  obtain rfl | rfl | rfl := hnames <;> exact isPublic_of_getLast? rfl (by decide)

theorem freedBy_awaited : Lone.board.freedBy awaited begunTask =
    [{ id := "b", title := "", state := .todo, createdAt := Lone.begun, updatedAt := Lone.begun }] := by
  decide +kernel

/-- The record of the task that waits. -/
def awaiting : List (List String) := [(Records.path Lone.board.root "b").names]

theorem completion_recovered_awaited :
    let whole := (Lone.board.complete begunTask.id "x").run.runIn awaited
    let part := (Lone.board.complete begunTask.id "x").run.runIn (awaited.refuse awaiting)
    let repaired := Lone.board.reconcile.run.runIn (part.2.refuse [])
    whole.1 = .ok (Lone.board.freedBy awaited begunTask) ∧
      part.1 = .ok ((Lone.board.freedBy awaited begunTask).filter fun t =>
        (Records.path Lone.board.root t.id).names ∉ awaiting) ∧
      repaired.1 = .ok ((Lone.board.freedBy awaited begunTask).filter fun t =>
        (Records.path Lone.board.root t.id).names ∈ awaiting) ∧
      repaired.2.store.text? = whole.2.store.text? := by
  have hread : ∀ t ∈ Lone.board.freedBy awaited begunTask, t.ReadsBack := by
    rw [freedBy_awaited]
    unfold Task.ReadsBack
    decide +kernel
  exact completion_recovered (b := Lone.board) (a := begunTask) steady_awaited rfl (by decide +kernel)
    (by decide +kernel) rfl (by decide +kernel) (fun names hn => ⟨"b", List.mem_singleton.mp hn⟩)
    (by decide +kernel) (by unfold Task.ReadsBack; decide +kernel) hread

end Lone

end Board

end Workboard
