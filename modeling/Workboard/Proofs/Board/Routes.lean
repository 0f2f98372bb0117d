import Workboard.Proofs.Board.Recovery
import Workboard.Proofs.Board.Turns
import Workboard.Proofs.Lock.Taking

/-!
# Two routes out of active

The owner of an active task can give it back, park it or complete it, and the same can be
done by an edit of the state, which asks for no lock and removes it by force. Main
statement: from the same files both routes lead to the same files, if none of them refuses
to be written.
-/
namespace Workboard

namespace Text

theorem all_dropBlank (cs : List Char) : (dropBlank cs).all isBlank = cs.all isBlank := by
  induction cs with
  | nil => rfl
  | cons c cs ih =>
    rw [dropBlank_cons]
    cases hc : isBlank c with
    | true => rw [if_pos rfl, ih, List.all_cons, hc, Bool.true_and]
    | false => rw [if_neg Bool.false_ne_true]

/-- Only a blank text is blank when it is trimmed. -/
theorem isAllBlank_trim (s : String) : isAllBlank (trim s) = isAllBlank s := by
  rw [isAllBlank, isAllBlank, trim, String.toList_ofList, dropBlankEnd, List.all_reverse, all_dropBlank,
    List.all_reverse, all_dropBlank]

end Text

namespace Task
variable {t : Task} {target : TaskState} {now : Instant}

/-- Only a task that begins to wait takes something from the guard. -/
theorem moved_congr (h : target ≠ .waiting) (g g' : Guard) : t.moved target g now = t.moved target g' now := by
  unfold moved
  generalize t.state = source
  cases target with
  | waiting => exact absurd rfl h
  | _ => cases source <;> rfl

/-- An active task is moved if the rule of the move has no objection. -/
theorem move_of_active {g : Guard} (hactive : t.state = .active)
    (h : g.objection? (TaskState.active.rule target) = none) : t.move target g now = .ok (t.moved target g now) := by
  rw [move, checkMove, hactive, h]
  rfl

end Task

namespace Board
open Workboard.Action
variable {b : Board} {w : World Files} {a t : Task} {owner : String}

/-- The texts of the files once the record of a task is saved and its lock is removed. -/
def leftTexts (b : Board) (w : World Files) (t : Task) : List String → Option String :=
  Function.update (Records.savedTexts b.root [t] w.store.text?) (Locks.path b.root t.id).names none

section Parts
variable (hw : w.Steady) (hopen : w.store.refusing = [])

section Open
include hw hopen

/-- A task that is saved where nothing refuses to be written. -/
theorem ends_save_open (hvalid : isValidId t.id = true) {post : Except Error Unit → World Files → Prop}
    (h : ∀ w₁, w.Becomes w₁ (Records.savedTexts b.root [t] w.store.text?) → post (.ok ()) w₁) :
    (Records.save b.root t).Ends w post :=
  Records.ends_save hw (fun _ _ hrefuses _ => absurd (hrefuses hvalid) (Locks.not_refuses hopen _))
    fun w₁ _ _ hw₁ => h w₁ hw₁

theorem ends_advance_open (hvalid : isValidId a.id = true) {target : TaskState} {g : Guard}
    (hmove : a.move target g w.clock = .ok (a.moved target g w.clock))
    {post : Except Error Task → World Files → Prop}
    (h : ∀ w₁, w.Becomes w₁ (Records.savedTexts b.root [a.moved target g w.clock] w.store.text?) →
      post (.ok (a.moved target g w.clock)) w₁) : (b.advance a target g).Ends w post := by
  refine ends_bind (ends_now ?_)
  rw [andThen_ok, hmove]
  refine ends_bind (ends_settle ?_)
  rw [andThen_ok]
  refine ends_bind (ends_save_open hw hopen (by rwa [Task.id_moved]) fun w₁ hw₁ => ?_)
  rw [andThen_ok]
  exact ends_pure (h w₁ hw₁)

theorem ends_saveEach_open {ts : List Task} (hids : ∀ t ∈ ts, isValidId t.id = true) :
    (b.saveEach ts).Ends w fun r w' =>
      r = .ok ts ∧ w.Becomes w' (Records.savedTexts b.root ts w.store.text?) := by
  have hcan : ∀ t, b.CanSave w t = true := fun t => by simp [CanSave, hopen]
  refine (ends_saveEach hw (fun names hn => by rw [hopen] at hn; cases hn) hids).mono ?_
  rintro r w' ⟨rfl, hw'⟩
  rw [List.filter_eq_self.mpr fun t _ => hcan t] at hw' ⊢
  exact ⟨rfl, hw'⟩

end Open

variable {w₁ : World Files} {id : String} (hw₁ : w.Becomes w₁ (Records.savedTexts b.root [t] w.store.text?))
  (hid : t.id = id) (hvalid : isValidId id = true)
include hw₁ hid hvalid

/-- The owner removes the lock of a task that was saved. -/
theorem ends_release_saved (howner : (Locks.slotAt w.store (Locks.path b.root id)).owner? = some owner)
    {post : Except Error Bool → World Files → Prop}
    (h : ∀ w₂, w.Becomes w₂ (b.leftTexts w t) → post (.ok true) w₂) :
    (Locks.release b.root id owner).Ends w₁ post := by
  subst hid
  have hslot : Locks.slotAt w₁.store (Locks.path b.root t.id) = Locks.slotAt w.store (Locks.path b.root t.id) := by
    refine Locks.slotAt_congr ?_
    rw [hw₁.text]
    exact Function.update_of_ne (Records.names_path_ne_lock _ _ _).symm _ _
  refine Locks.ends_release hw₁.steady (fun hinvalid => absurd (hvalid.symm.trans hinvalid) Bool.noConfusion)
    (fun hother => absurd (hslot ▸ howner) hother) fun _ w₂ hw₂ => h w₂ ?_
  exact ⟨hw₁.toContinues.trans hw₂.toContinues, by rw [hw₂.text, hw₁.text]; rfl⟩

/-- By force the lock is removed as well. -/
theorem ends_forceRelease_saved {post : Except Error (Option LockRecord) → World Files → Prop}
    (h : ∀ r w₂, w.Becomes w₂ (b.leftTexts w t) → post (.ok r) w₂) :
    (Locks.forceRelease b.root id).Ends w₁ post := by
  subst hid
  refine Locks.ends_forceRelease hw₁.steady
    (fun hinvalid => absurd (hvalid.symm.trans hinvalid) Bool.noConfusion) fun r w₂ hw₂ => h r w₂ ?_
  exact ⟨hw₁.toContinues.trans hw₂.toContinues, by rw [hw₂.text, hw₁.text]; rfl⟩

end Parts

/-- Both actions succeed, and from the same world they leave the same files. -/
def Agree {α β : Type} (w : World Files) (x : Action α) (y : Action β) : Prop :=
  (∃ u, (x.run.runIn w).1 = .ok u) ∧ (∃ v, (y.run.runIn w).1 = .ok v) ∧
    (x.run.runIn w).2.store.text? = (y.run.runIn w).2.store.text?

/-- The action succeeds and leaves these texts. -/
def Reaches {α : Type} (w : World Files) (x : Action α) (texts : List String → Option String) : Prop :=
  x.Ends w fun r w' => (∃ u, r = .ok u) ∧ w.Becomes w' texts

theorem Reaches.agree {α β : Type} {x : Action α} {y : Action β} {texts : List String → Option String}
    (hx : Reaches w x texts) (hy : Reaches w y texts) : Agree w x y :=
  ⟨hx.1, hy.1, hx.2.text.trans hy.2.text.symm⟩

/-- The texts once the cascade of a task that is done has been saved as well. -/
def CarriedOn (b : Board) (w : World Files) (a : Task) (texts : List String → Option String) : Prop :=
  ∃ f : Files, f.Proper ∧ f.text? = b.completedTexts w a ∧
    texts = Records.savedTexts b.root ((Records.allAt f b.root).cascade a.id w.clock) f.text?

theorem CarriedOn.unique {texts texts' : List String → Option String} (h : b.CarriedOn w a texts)
    (h' : b.CarriedOn w a texts') : texts = texts' := by
  obtain ⟨f, hf, htext, rfl⟩ := h
  obtain ⟨g, hg, htext', rfl⟩ := h'
  rw [Records.allAt_congr hg hf fun id => by rw [htext, htext'], htext, htext']

section Routes
variable (hw : w.Steady) (hopen : w.store.refusing = [])
  (hload : Records.loadAt w.store b.root a.id = .ok a) (hactive : a.state = .active)

omit hw hopen hload hactive in
/-- Where a task is done and its lock is removed, the cascade is saved. -/
theorem ends_saveEach_cascade {w₂ : World Files} (hw₂ : w.Becomes w₂ (b.completedTexts w a))
    (hopen : w.store.refusing = []) :
    (b.saveEach ((Records.allAt w₂.store b.root).cascade a.id w.clock)).Ends w₂ fun r w' =>
      (∃ freed, r = .ok freed) ∧ ∃ texts, b.CarriedOn w a texts ∧ w.Becomes w' texts := by
  refine (ends_saveEach_open hw₂.steady (hw₂.refusing.trans hopen) fun t ht => ?_).mono ?_
  · obtain ⟨u, hu, hfreed⟩ := Snapshot.exists_of_mem_cascade ht
    rw [(Task.sameLinks_of_freed? hfreed).1]
    exact (Records.loadAt_eq_ok.mp (Records.mem_allAt.mp hu)).1
  · rintro r w' ⟨rfl, hw'⟩
    exact ⟨⟨_, rfl⟩, _, ⟨w₂.store, hw₂.steady.proper, hw₂.text, rfl⟩,
      hw₂.toContinues.trans hw'.toContinues, hw'.text⟩

section Edit
include hw hopen hload hactive

/-- An edit of the state of an active task saves it and removes its lock by force. -/
theorem ends_edit_state {value : String} {target : TaskState}
    (hword : TaskState.ofText? (Text.trim value) = some target) (htarget : target ≠ .cancelled)
    (hmove : a.move target { waitingFor := a.waitingFor } w.clock =
      .ok (a.moved target { waitingFor := a.waitingFor } w.clock))
    {post : Except Error Task → World Files → Prop}
    (h : ∀ w₂, w.Becomes w₂ (b.leftTexts w (a.moved target { waitingFor := a.waitingFor } w.clock)) →
      Ends (if (a.moved target { waitingFor := a.waitingFor } w.clock).state = .done then
          Records.scan b.root >>= fun all => b.saveEach (all.cascade a.id w.clock) >>= fun _ =>
            pure (a.moved target { waitingFor := a.waitingFor } w.clock)
        else pure (a.moved target { waitingFor := a.waitingFor } w.clock)) w₂ post) :
    (b.edit a.id "state" value).Ends w post := by
  have hvalid := (Records.loadAt_eq_ok.mp hload).1
  have hid : (a.moved target { waitingFor := a.waitingFor } w.clock).id = a.id := Task.id_moved _ _ _ _
  refine ends_bind (Records.ends_load ?_)
  rw [hload, andThen_ok]
  refine ends_bind (ends_now ?_)
  rw [andThen_ok, if_neg (by decide), if_pos rfl, editState, hword]
  cases target with
  | cancelled => exact absurd rfl htarget
  | _ =>
    refine ends_bind (ends_settle ?_)
    rw [hmove, andThen_ok]
    refine ends_bind (ends_save_open hw hopen (hid ▸ hvalid) fun w₁ hw₁ => ?_)
    rw [andThen_ok]
    simp only [if_pos hactive]
    exact ends_bind (ends_forceRelease_saved hw₁ hid hvalid fun _ w₂ hw₂ => h w₂ hw₂)

/-- The cascade of an edit to done is that of a completion. -/
theorem ends_edit_done : (b.edit a.id "state" "done").Ends w fun r w' =>
    (∃ t, r = .ok t) ∧ ∃ texts, b.CarriedOn w a texts ∧ w.Becomes w' texts := by
  have hmoved : a.moved .done { waitingFor := a.waitingFor } w.clock = a.moved .done { lockHeld := true } w.clock :=
    Task.moved_congr (by decide) _ _
  have hleft : b.leftTexts w (a.moved .done { lockHeld := true } w.clock) = b.completedTexts w a := by
    rw [leftTexts, Task.id_moved]
    rfl
  refine ends_edit_state hw hopen hload hactive (TaskState.ofText?_trim_name .done) (by decide)
    (Task.move_of_active hactive rfl) fun w₂ hw₂ => ?_
  rw [hmoved] at hw₂ ⊢
  rw [hleft] at hw₂
  rw [if_pos (show (a.moved .done { lockHeld := true } w.clock).state = .done from rfl)]
  refine ends_bind (Records.ends_scan ?_)
  rw [andThen_ok]
  refine ends_bind ((ends_saveEach_cascade hw₂ hopen).mono ?_)
  rintro r w' ⟨⟨freed, rfl⟩, hw'⟩
  rw [andThen_ok]
  exact ends_pure ⟨⟨_, rfl⟩, hw'⟩

/-- An edit to another state leaves the lock removed and the task saved. -/
theorem reaches_edit_state {value : String} {target : TaskState}
    (hword : TaskState.ofText? (Text.trim value) = some target) (htarget : target ≠ .cancelled)
    (hdone : target ≠ .done) (hmove : a.move target { waitingFor := a.waitingFor } w.clock =
      .ok (a.moved target { waitingFor := a.waitingFor } w.clock)) :
    Reaches w (b.edit a.id "state" value)
      (b.leftTexts w (a.moved target { waitingFor := a.waitingFor } w.clock)) := by
  refine ends_edit_state hw hopen hload hactive hword htarget hmove fun w₂ hw₂ => ?_
  rw [if_neg (show ¬ (a.moved target { waitingFor := a.waitingFor } w.clock).state = .done from hdone)]
  exact ends_pure ⟨⟨_, rfl⟩, hw₂⟩

/-- The condition is noted first, and the task then waits for what has been read back. -/
theorem reaches_edit_waiting {condition : String} (hblank : Text.isAllBlank condition = false)
    (hread : ({ a with waitingFor := some (Text.trim condition) }.touch w.clock).ReadsBack) :
    Reaches w (b.edit a.id "waiting_for" condition >>= fun _ => b.edit a.id "state" "waiting")
      (b.leftTexts w (a.moved .waiting { waitingFor := some (Text.trim condition) } w.clock)) := by
  have hvalid := (Records.loadAt_eq_ok.mp hload).1
  have hblank' : Text.isAllBlank (Text.trim condition) = false := (Text.isAllBlank_trim condition).trans hblank
  have hsome : Task.nonBlank? (Text.trim condition) = some (Text.trim condition) := by
    rw [Task.nonBlank?, if_neg]
    intro hempty
    rw [String.isEmpty_iff.mp hempty] at hblank'
    cases hblank'
  generalize hnoted : { a with waitingFor := some (Text.trim condition) }.touch w.clock = noted at hread
  have hnotedid : noted.id = a.id := by rw [← hnoted]; rfl
  refine ends_bind (ends_bind (Records.ends_load ?_))
  rw [hload, andThen_ok]
  refine ends_bind (ends_now ?_)
  rw [andThen_ok, if_neg (by decide), if_neg (by decide), if_neg (by decide)]
  refine ends_bind (ends_settle ?_)
  have hset : a.setField "waiting_for" condition = .ok { a with waitingFor := some (Text.trim condition) } := by
    rw [← hsome]
    rfl
  rw [hset, andThen_ok, hnoted]
  refine ends_bind (ends_save_open hw hopen (hnotedid ▸ hvalid) fun w₁ hw₁ => ?_)
  rw [andThen_ok]
  refine ends_pure ?_
  rw [andThen_ok]
  -- the task as it is read back is active still
  have hload₁ : Records.loadAt w₁.store b.root noted.id = .ok noted :=
    Records.Saved.loadAt_self hw₁.text (hnotedid ▸ hvalid) hread
  have hactive₁ : noted.state = .active := by rw [← hnoted]; exact hactive
  have hmoved : noted.moved .waiting { waitingFor := noted.waitingFor } w₁.clock =
      a.moved .waiting { waitingFor := some (Text.trim condition) } w.clock := by
    rw [← hnoted, hw₁.clock]
    simp [Task.moved, Task.touch]
  have hmove : noted.move .waiting { waitingFor := noted.waitingFor } w₁.clock =
      .ok (noted.moved .waiting { waitingFor := noted.waitingFor } w₁.clock) := by
    refine Task.move_of_active hactive₁ ?_
    rw [← hnoted]
    simp [TaskState.rule, TaskState.isTerminal, Guard.objection?, Task.touch, hblank']
  have hedit := reaches_edit_state hw₁.steady (hw₁.refusing.trans hopen) hload₁ hactive₁
    (TaskState.ofText?_trim_name .waiting) (by decide) (by decide) hmove
  rw [hmoved, hnotedid] at hedit
  refine hedit.mono ?_
  rintro r w₂ ⟨hok, hw₂⟩
  refine ⟨hok, hw₁.toContinues.trans hw₂.toContinues, hw₂.text.trans ?_⟩
  -- the second record of the task stands in the place of the first one
  have hidle : (Records.path b.root (a.moved .waiting { waitingFor := some (Text.trim condition) } w.clock).id).names =
      (Records.path b.root noted.id).names := by rw [Task.id_moved, hnotedid]
  rw [leftTexts, leftTexts, hw₁.text]
  change Function.update (Function.update (Function.update _ _ _) _ _) _ _ = Function.update (Function.update _ _ _) _ _
  rw [hidle, Function.update_idem]

end Edit

section Owner
variable (howner : (Locks.slotAt w.store (Locks.path b.root a.id)).owner? = some owner)
include hw hopen hload hactive howner

theorem ends_complete_open : (b.complete a.id owner).Ends w fun r w' =>
    (∃ freed, r = .ok freed) ∧ ∃ texts, b.CarriedOn w a texts ∧ w.Becomes w' texts :=
  ends_complete_of hw (fun names hn => by rw [hopen] at hn; cases hn) hload hactive howner
    (by simp [CanSave, hopen]) fun _ hw₂ => ends_saveEach_cascade hw₂ hopen

theorem reaches_release : Reaches w (b.release a.id owner) (b.leftTexts w (a.moved .todo {} w.clock)) := by
  have hvalid := (Records.loadAt_eq_ok.mp hload).1
  have hid : (a.moved .todo {} w.clock).id = a.id := Task.id_moved _ _ _ _
  refine ends_bind (Locks.ends_owns (fun _ => ?_) fun h => absurd (hvalid.symm.trans h) Bool.noConfusion)
  rw [andThen_ok, decide_eq_true howner]
  refine ends_bind (Records.ends_load ?_)
  rw [hload, andThen_ok]
  simp only [if_pos hactive]
  refine ends_bind (ends_advance_open hw hopen hvalid (Task.move_of_active hactive rfl) fun w₁ hw₁ => ?_)
  rw [andThen_ok]
  exact ends_release_saved hw₁ hid hvalid howner fun w₂ hw₂ => ⟨⟨_, rfl⟩, hw₂⟩

theorem reaches_block {condition : String} (hblank : Text.isAllBlank condition = false) :
    Reaches w (b.block a.id owner condition)
      (b.leftTexts w (a.moved .waiting { waitingFor := some (Text.trim condition) } w.clock)) := by
  have hvalid := (Records.loadAt_eq_ok.mp hload).1
  have hid : (a.moved .waiting { waitingFor := some (Text.trim condition) } w.clock).id = a.id :=
    Task.id_moved _ _ _ _
  have hmove : a.move .waiting { waitingFor := some (Text.trim condition) } w.clock =
      .ok (a.moved .waiting { waitingFor := some (Text.trim condition) } w.clock) := by
    refine Task.move_of_active hactive ?_
    simp [TaskState.rule, TaskState.isTerminal, Guard.objection?, Text.isAllBlank_trim, hblank]
  refine ends_bind (Locks.ends_owns (fun _ => ?_) fun h => absurd (hvalid.symm.trans h) Bool.noConfusion)
  rw [andThen_ok, decide_eq_true howner]
  refine ends_bind (Records.ends_load ?_)
  rw [hload, andThen_ok]
  refine ends_bind (ends_advance_open hw hopen hvalid hmove fun w₁ hw₁ => ?_)
  rw [andThen_ok]
  refine ends_bind (ends_release_saved hw₁ hid hvalid howner fun w₂ hw₂ => ?_)
  rw [andThen_ok]
  exact ends_pure ⟨⟨_, rfl⟩, hw₂⟩

end Owner

end Routes

/-- The owner of an active task can leave that state on two routes, and if nothing refuses to be written both
end well and with the same files. -/
theorem routes_out_of_active_agree (hw : w.Steady) (hopen : w.store.refusing = [])
    (hload : Records.loadAt w.store b.root a.id = .ok a) (hactive : a.state = .active)
    (howner : (Locks.slotAt w.store (Locks.path b.root a.id)).owner? = some owner) :
    Agree w (b.complete a.id owner) (b.edit a.id "state" "done") ∧
    Agree w (b.release a.id owner) (b.edit a.id "state" "todo") ∧
    ∀ condition, Text.isAllBlank condition = false →
      ({ a with waitingFor := some (Text.trim condition) }.touch w.clock).ReadsBack →
      Agree w (b.block a.id owner condition)
        (b.edit a.id "waiting_for" condition >>= fun _ => b.edit a.id "state" "waiting") := by
  refine ⟨?_, ?_, fun condition hblank hread => ?_⟩
  · obtain ⟨hcompleted, texts, htexts, hbecomes⟩ := ends_complete_open hw hopen hload hactive howner
    obtain ⟨hedited, texts', htexts', hbecomes'⟩ := ends_edit_done hw hopen hload hactive
    refine ⟨hcompleted, hedited, ?_⟩
    rw [hbecomes.text, hbecomes'.text, htexts.unique htexts']
  · have hedit := reaches_edit_state hw hopen hload hactive
      (TaskState.ofText?_trim_name .todo) (by decide) (by decide)
      (Task.move_of_active hactive rfl)
    rw [Task.moved_congr (by decide) _ {}] at hedit
    exact (reaches_release hw hopen hload hactive howner).agree hedit
  · exact (reaches_block hw hopen hload hactive howner hblank).agree
      (reaches_edit_waiting hw hopen hload hactive hblank hread)

open Lone in
/-- A task can be given up for a review on both routes. -/
theorem routes_agree_awaited :
    Agree awaited (Lone.board.complete begunTask.id "x") (Lone.board.edit begunTask.id "state" "done") ∧
    Agree awaited (Lone.board.release begunTask.id "x") (Lone.board.edit begunTask.id "state" "todo") ∧
    Agree awaited (Lone.board.block begunTask.id "x" "review")
      (Lone.board.edit begunTask.id "waiting_for" "review" >>= fun _ =>
        Lone.board.edit begunTask.id "state" "waiting") := by
  have howner : (Locks.slotAt awaited.store (Locks.path Lone.board.root begunTask.id)).owner? = some "x" := by
    decide +kernel
  obtain ⟨hdone, htodo, hwaiting⟩ := routes_out_of_active_agree (b := Lone.board) (a := begunTask) steady_awaited
    rfl (by decide +kernel) rfl howner
  exact ⟨hdone, htodo, hwaiting "review" (by decide +kernel) (by unfold Task.ReadsBack; decide +kernel)⟩

end Board

end Workboard
