import Workboard.Board.Creation
import Workboard.Board.Work
import Workboard.Proofs.Board.Reading
import Workboard.Proofs.Storage.Steady

/-!
# Records and locks, used alone

What the parts of an operation that nobody interrupts find in the records and locks of a
board, and what they leave there: a look changes nothing, and to save a record is to change
that record or nothing.
-/
namespace Workboard

/-- The record of the task, once it is saved, is read as the task. -/
def Task.ReadsBack (t : Task) : Prop := Record.parse (Record.render t) = .ok t

namespace Records
open Workboard.Action

/-- The tasks that a scan of these files finds. -/
def allAt (f : Files) (root : Path) : Snapshot :=
  (idsAt f root).filterMap fun id => (loadAt f root id).toOption

section Saved
variable {f g : Files} {root : Path} {t : Task}

/-- The files differ in the record of the task only, which has been saved. -/
def Saved (f g : Files) (root : Path) (t : Task) : Prop :=
  g.text? = Function.update f.text? (path root t.id).names (some (Record.render t))

theorem Saved.loadAt_self (h : Saved f g root t) (hid : isValidId t.id = true) (hread : t.ReadsBack) :
    loadAt g root t.id = .ok t := by
  refine loadAt_eq_ok.mpr ⟨hid, Record.render t, ?_, ?_⟩
  · rw [h, Function.update_self]
  · rw [read, hread]
    simp

theorem Saved.loadAt_other (h : Saved f g root t) {id : String} (hne : id ≠ t.id) :
    loadAt g root id = loadAt f root id := by
  refine loadAt_congr ?_
  rw [h, Function.update_of_ne fun heq => hne (eq_of_names_path heq)]

theorem mem_allAt : t ∈ allAt f root ↔ loadAt f root t.id = .ok t := by
  constructor
  · intro h
    obtain ⟨id, -, hid⟩ := List.mem_filterMap.mp h
    cases hload : loadAt f root id with
    | error e =>
      rw [hload] at hid
      cases hid
    | ok u =>
      rw [hload] at hid
      obtain rfl := Option.some.inj hid
      obtain ⟨-, content, -, hread⟩ := loadAt_eq_ok.mp hload
      rwa [id_of_read hread]
  · intro h
    obtain ⟨hid, content, hcontent, -⟩ := loadAt_eq_ok.mp h
    refine List.mem_filterMap.mpr ⟨t.id, mem_idsAt.mpr ⟨hid, by simp [hcontent]⟩, ?_⟩
    rw [h]
    rfl

/-- A task is filed under its own id. -/
theorem id_of_loadAt {id : String} (h : loadAt f root id = .ok t) : t.id = id := by
  obtain ⟨-, content, -, hread⟩ := loadAt_eq_ok.mp h
  exact id_of_read hread

/-- A scan depends on the records only. -/
theorem allAt_congr (hf : f.Proper) (hg : g.Proper)
    (h : ∀ id, g.text? (path root id).names = f.text? (path root id).names) :
    allAt g root = allAt f root := by
  have hload : loadAt g root = loadAt f root := funext fun id => loadAt_congr (h id)
  have hids : idsAt g root = idsAt f root := idsAt_congr hf hg fun id => by rw [h]
  rw [allAt, allAt, hids, hload]

theorem mem_allAt_of_loadAt {id : String} (h : loadAt f root id = .ok t) : t ∈ allAt f root := by
  rw [mem_allAt, id_of_loadAt h]
  exact h

end Saved

variable {w : World Files} {root : Path} {id : String}

theorem ends_checkId {post : Except Error Unit → World Files → Prop}
    (hok : isValidId id = true → post (.ok ()) w)
    (herr : isValidId id = false → post (.error (.invalidId id)) w) : (checkId id).Ends w post := by
  rw [checkId]
  cases hid : isValidId id with
  | true => exact ends_pure (hok hid)
  | false => exact ends_throw (herr hid)

theorem ends_load {post : Except Error Task → World Files → Prop} (h : post (loadAt w.store root id) w) :
    (load root id).Ends w post :=
  ends_of_runIn (runIn_load root w id) h

theorem runIn_loadReadable (root : Path) (w : World Files) (ids : List String) :
    (loadReadable root ids).run.runIn w =
      (.ok (ids.filterMap fun id => (loadAt w.store root id).toOption), w) := by
  rw [runIn_loadReadable_still, found_files]

theorem ends_scan {post : Except Error Snapshot → World Files → Prop}
    (h : post (.ok (allAt w.store root)) w) : (scan root).Ends w post :=
  ends_bind (ends_of_runIn (runIn_ids root w) (ends_of_runIn (runIn_loadReadable root w _) h))

/-- The record of a new task is created, or nothing changes. -/
theorem ends_create (hw : w.Steady) {t : Task} {post : Except Error Bool → World Files → Prop}
    (herr : ∀ e, post (.error e) w) (hpresent : post (.ok false) w)
    (hcreated : isValidId t.id = true → w.store.text? (path root t.id).names = none → ∀ w',
      w.Becomes w' (Function.update w.store.text? (path root t.id).names (some (Record.render t))) →
      post (.ok true) w') :
    (create root t).Ends w post := by
  refine ends_bind (ends_checkId (fun hid => ?_) fun _ => herr _)
  refine ends_createNew hw _ _ (isPublic_path root t.id) (fun e _ => herr e) (fun _ _ => hpresent) ?_
  exact fun hnone w' hw' => hcreated hid hnone w' hw'

/-- A record is saved, or nothing changes. -/
theorem ends_save (hw : w.Steady) {t : Task} {post : Except Error Unit → World Files → Prop}
    (herr : ∀ e w', (isValidId t.id = true → w.Refuses (path root t.id)) → w.Becomes w' w.store.text? →
      post (.error e) w')
    (hsaved : ∀ w', isValidId t.id = true → (path root t.id).names ∉ w.store.refusing →
      w.Becomes w' (Function.update w.store.text? (path root t.id).names (some (Record.render t))) →
      post (.ok ()) w') :
    (save root t).Ends w post := by
  refine ends_bind (ends_checkId (fun hid => ?_) fun hid => ?_)
  · exact ends_replace hw _ _ (isPublic_path root t.id) (fun e w' hrefuses hw' => herr e w' (fun _ => hrefuses) hw')
      fun w' hmem hw' => hsaved w' hid hmem hw'
  · exact herr _ w (fun hvalid => absurd (hid.symm.trans hvalid) Bool.noConfusion) hw.becomes_self

end Records

namespace Task

/-- The task once it is noted there that `dependent` requires it, or no longer does. -/
def noting (t : Task) (dependent : String) (added : Bool) (now : Instant) : Task :=
  { t with blocks := if added then t.blocks.insert dependent else t.blocks.erase dependent }.touch now

@[simp] theorem id_noting (t : Task) (dependent : String) (added : Bool) (now : Instant) :
    (t.noting dependent added now).id = t.id := rfl

@[simp] theorem state_noting (t : Task) (dependent : String) (added : Bool) (now : Instant) :
    (t.noting dependent added now).state = t.state := rfl

end Task

namespace Board
open Workboard.Action
variable {b : Board} {w : World Files}

/-- To note a dependent in a record is to save that record, or to change nothing. -/
theorem ends_linkOne (hw : w.Steady) {now : Instant} {dependent id : String} {added : Bool}
    {post : Except Error Unit → World Files → Prop}
    (hsame : ∀ w', w.Becomes w' w.store.text? →
      (∀ t, Records.loadAt w.store b.root id = .ok t →
        (dependent ∈ t.blocks ↔ added = true) ∨ w.Refuses (Records.path b.root id)) → post (.ok ()) w')
    (hsaved : ∀ t w', Records.loadAt w.store b.root id = .ok t → ¬ (dependent ∈ t.blocks ↔ added = true) →
      w.Becomes w' (Function.update w.store.text? (Records.path b.root id).names
        (some (Record.render (t.noting dependent added now)))) → post (.ok ()) w') :
    (b.linkOne now dependent id added).Ends w post := by
  refine ends_bind (ends_attempt (Records.ends_load ?_))
  cases hload : Records.loadAt w.store b.root id with
  | error e => exact ends_pure (hsame w hw.becomes_self fun t ht => by simp [hload] at ht)
  | ok t =>
    obtain ⟨hid, content, -, hread⟩ := Records.loadAt_eq_ok.mp hload
    have htid : t.id = id := Records.id_of_read hread
    have hiff : (added = decide (dependent ∈ t.blocks)) ↔ (dependent ∈ t.blocks ↔ added = true) := by
      cases added <;> simp
    change Ends (if added = decide (dependent ∈ t.blocks) then pure () else _) w post
    by_cases hnoted : added = decide (dependent ∈ t.blocks)
    · rw [if_pos hnoted]
      refine ends_pure (hsame w hw.becomes_self fun u hu => .inl ?_)
      rw [hload] at hu
      cases hu
      exact hiff.mp hnoted
    · rw [if_neg hnoted]
      refine ends_bind (ends_attempt (Records.ends_save hw (fun e w' hrefuses hw' => ?_)
        fun w' _ _ hw' => ?_))
      · refine ends_pure (hsame w' hw' fun u hu => .inr ?_)
        have hrefused := hrefuses (by change isValidId t.id = true; rwa [htid])
        change w.Refuses (Records.path b.root t.id) at hrefused
        rwa [htid] at hrefused
      · have hpath : (Records.path b.root t.id).names = (Records.path b.root id).names := by rw [htid]
        refine ends_pure (hsaved t w' hload (fun h => hnoted (hiff.mpr h)) ?_)
        rw [← hpath]
        exact hw'

end Board

end Workboard
