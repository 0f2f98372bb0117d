import Workboard.Board.Basic
import Workboard.Proofs.Storage.Alone
import Workboard.Proofs.Time.Order

/-!
# The life of a task

Which moves there are, told without the table of rules: a task that was put aside is taken up, one in
todo is started under its lock, an active one is given back, waits for something or is done, and
whatever has not ended may be cancelled. Main statement: a task moves exactly where one of these moves
leads, nothing changes in it but what belongs to the move, and no run of moves leads a task away from
its end or into work by another way. A refused move changes nothing on a board.
-/
namespace Workboard

namespace TaskState

/-- A move leads from a state to another one under the guard. -/
inductive Leads (g : Guard) : TaskState → TaskState → Prop
  | plan {s : TaskState} (h : s.isShelf = true) : Leads g s .todo
  | shelve {s : TaskState} (h : s.isShelf = true) : Leads g .todo s
  | reshelve {s s' : TaskState} (h : s.isShelf = true) (h' : s'.isShelf = true) (hne : s ≠ s') : Leads g s s'
  | start (h : g.lockHeld = true) : Leads g .todo .active
  | wait {w : String} (h : g.waitingFor = some w) (hw : Text.isAllBlank w = false) : Leads g .active .waiting
  | resume : Leads g .waiting .todo
  | giveBack : Leads g .active .todo
  | complete : Leads g .active .done
  | cancel {s : TaskState} (h : s.isTerminal = false) : Leads g s .cancelled

variable {g : Guard} {s s' : TaskState}

theorem isShelf_iff : s.isShelf = true ↔ s = .backlog ∨ s = .someday := by
  simp [isShelf]

theorem Leads.objection? (h : Leads g s s') : g.objection? (s.rule s') = none := by
  cases h with
  | plan h => obtain rfl | rfl := isShelf_iff.mp h <;> rfl
  | shelve h => obtain rfl | rfl := isShelf_iff.mp h <;> rfl
  | reshelve h h' hne =>
    obtain rfl | rfl := isShelf_iff.mp h <;> obtain rfl | rfl := isShelf_iff.mp h'
    · exact absurd rfl hne
    · rfl
    · rfl
    · exact absurd rfl hne
  | start h => simp [rule, isTerminal, Guard.objection?, h]
  | wait h hw => simp [rule, isTerminal, Guard.objection?, h, hw]
  | resume => rfl
  | giveBack => rfl
  | complete => rfl
  | cancel h => cases s <;> first | rfl | cases h

/-- The guard of a task that begins to wait names what it waits for. -/
theorem exists_of_objection?_waiting (h : g.objection? .needsCondition = none) :
    ∃ w, g.waitingFor = some w ∧ Text.isAllBlank w = false := by
  simp only [Guard.objection?] at h
  cases hw : g.waitingFor with
  | none =>
    rw [hw] at h
    cases h
  | some w => exact ⟨w, rfl, by simpa [hw] using h⟩

theorem leads_of_objection? (h : g.objection? (s.rule s') = none) : Leads g s s' := by
  cases s with
  | backlog =>
    cases s' with
    | todo => exact .plan rfl
    | someday => exact .reshelve rfl rfl TaskState.noConfusion
    | cancelled => exact .cancel rfl
    | _ => cases h
  | someday =>
    cases s' with
    | todo => exact .plan rfl
    | backlog => exact .reshelve rfl rfl TaskState.noConfusion
    | cancelled => exact .cancel rfl
    | _ => cases h
  | todo =>
    cases s' with
    | backlog => exact .shelve rfl
    | someday => exact .shelve rfl
    | active => exact .start (by simpa [rule, isTerminal, Guard.objection?] using h)
    | cancelled => exact .cancel rfl
    | _ => cases h
  | active =>
    cases s' with
    | todo => exact .giveBack
    | done => exact .complete
    | waiting =>
      obtain ⟨w, hw, hblank⟩ := exists_of_objection?_waiting h
      exact .wait hw hblank
    | cancelled => exact .cancel rfl
    | _ => cases h
  | waiting =>
    cases s' with
    | todo => exact .resume
    | cancelled => exact .cancel rfl
    | _ => cases h
  | done => cases h
  | cancelled => cases h

/-- No move leads away from the end of a task. -/
theorem Leads.isTerminal_eq (h : Leads g s s') : s.isTerminal = false := by
  cases h with
  | plan h => obtain rfl | rfl := isShelf_iff.mp h <;> rfl
  | reshelve h => obtain rfl | rfl := isShelf_iff.mp h <;> rfl
  | cancel h => exact h
  | _ => rfl

theorem Leads.of_active (h : Leads g s .active) : s = .todo ∧ g.lockHeld = true := by
  cases h with
  | shelve h => cases h
  | reshelve h h' => cases h'
  | start h => exact ⟨rfl, h⟩

theorem Leads.of_waiting (h : Leads g s .waiting) :
    s = .active ∧ ∃ w, g.waitingFor = some w ∧ Text.isAllBlank w = false := by
  cases h with
  | shelve h => cases h
  | reshelve h h' => cases h'
  | wait h hw => exact ⟨rfl, _, h, hw⟩

theorem Leads.of_done (h : Leads g s .done) : s = .active := by
  cases h with
  | shelve h => cases h
  | reshelve h h' => cases h'
  | complete => rfl

end TaskState

namespace Task
variable {t u : Task} {target : TaskState} {g : Guard} {now : Instant}

theorem checkMove_eq_ok : t.checkMove target g = .ok () ↔ TaskState.Leads g t.state target := by
  unfold checkMove
  constructor
  · intro h
    split at h
    · exact TaskState.leads_of_objection? ‹_›
    · cases h
  · intro h
    rw [h.objection?]

theorem move_eq_ok : t.move target g now = .ok u ↔ t.checkMove target g = .ok () ∧ u = t.moved target g now := by
  unfold move
  cases t.checkMove target g with
  | error e => exact ⟨nofun, fun h => nomatch h.1⟩
  | ok _ => exact ⟨fun h => ⟨rfl, (Except.ok.inj h).symm⟩, fun h => congrArg Except.ok h.2.symm⟩

/-- What a move changes: the state and the time of the last change, what the task waits for where it begins
or ends to wait or is done, and to whom it is assigned where it is given back. -/
theorem moved_eq (t : Task) (target : TaskState) (g : Guard) (now : Instant) : t.moved target g now =
    { t with
      state := target
      updatedAt := max now (max t.updatedAt t.createdAt)
      waitingFor :=
        if target = .waiting then g.waitingFor
        else if t.state = .waiting ∧ target = .todo ∨ target = .done then none
        else t.waitingFor
      assignedTo := if t.state = .active ∧ target = .todo then none else t.assignedTo } := by
  rw [← max_assoc]
  unfold moved touch
  split
  · simp
  · rename_i hstate
    simp [hstate]
  · simp
  · rename_i hstate
    simp [hstate]
  · rename_i hwaiting hresumed hdone hgiven
    simp_all

/-- What is asked of a task: where to move, with what its caller vouches for, and when. -/
structure Move where
  target : TaskState
  guard : Guard
  now : Instant

/-- The task after moves one after the other, if none of them is refused. -/
def moveAll (t : Task) : List Move → Except Error Task
  | [] => .ok t
  | m :: ms => (t.move m.target m.guard m.now).bind (·.moveAll ms)

/-- A run of moves is the run of the first ones, and then of the others. -/
theorem exists_of_moveAll_append {ms ms' : List Move} (h : t.moveAll (ms ++ ms') = .ok u) :
    ∃ v, t.moveAll ms = .ok v ∧ v.moveAll ms' = .ok u := by
  induction ms generalizing t with
  | nil => exact ⟨t, rfl, h⟩
  | cons m ms ih =>
    rw [List.cons_append, moveAll] at h
    cases hmove : t.move m.target m.guard m.now with
    | error e =>
      rw [hmove] at h
      cases h
    | ok t' =>
      rw [hmove] at h
      obtain ⟨v, hv, hrest⟩ := ih h
      exact ⟨v, by rw [moveAll, hmove]; exact hv, hrest⟩

/-- In the midst of a run a move leads from the task after the moves before it. -/
theorem exists_of_moveAll {ms ms' : List Move} {m : Move} (h : t.moveAll (ms ++ m :: ms') = .ok u) :
    ∃ v v', t.moveAll ms = .ok v ∧ v.move m.target m.guard m.now = .ok v' ∧ v'.moveAll ms' = .ok u := by
  obtain ⟨v, hv, hrest⟩ := exists_of_moveAll_append h
  rw [moveAll] at hrest
  cases hmove : v.move m.target m.guard m.now with
  | error e =>
    rw [hmove] at hrest
    cases hrest
  | ok v' =>
    rw [hmove] at hrest
    exact ⟨v, v', hv, hmove, hrest⟩

end Task

/-- A refused move changes nothing on a board. -/
theorem Board.runIn_advance_refused (b : Board) {t : Task} {target : TaskState} {g : Guard} {e : Error}
    (h : t.checkMove target g = .error e) (w : World Files) : (b.advance t target g).run.runIn w = (.error e, w) := by
  have hsettle : (Action.settle (t.move target g w.clock)).run.runIn w = (.error e, w) := by
    rw [Task.move, h]
    rfl
  rw [Board.advance, Action.runIn_bind_ok (Action.runIn_now w), Action.runIn_bind_error hsettle]

/-- A task moves where a move leads, and is then the same task but for what belongs to the move; where it
does not move, nothing changes. Along a run of moves it never leaves its end, and becomes active, waits
and is done only by the moves that lead there. -/
theorem Task.moves_where_led (t : Task) :
    (∀ target g, (t.checkMove target g = .ok () ↔ TaskState.Leads g t.state target) ∧
      (∀ e (b : Board) (w : World Files), t.checkMove target g = .error e →
        (b.advance t target g).run.runIn w = (.error e, w)) ∧
      ∀ now, ((∃ u, t.move target g now = .ok u) ↔ t.checkMove target g = .ok ()) ∧
        (∀ e, t.move target g now = .error e ↔ t.checkMove target g = .error e) ∧
        ∀ u, t.move target g now = .ok u →
          u = { t with
            state := target
            updatedAt := max now (max t.updatedAt t.createdAt)
            waitingFor :=
              if target = .waiting then g.waitingFor
              else if t.state = .waiting ∧ target = .todo ∨ target = .done then none
              else t.waitingFor
            assignedTo := if t.state = .active ∧ target = .todo then none else t.assignedTo } ∧
          (target = .waiting → ∃ w, u.waitingFor = some w ∧ Text.isAllBlank w = false)) ∧
    ∀ before m more u, t.moveAll (before ++ m :: more) = .ok u →
      ∃ v v', t.moveAll before = .ok v ∧ v.move m.target m.guard m.now = .ok v' ∧ v'.moveAll more = .ok u ∧
        v.state ≠ .done ∧ v.state ≠ .cancelled ∧
        (v'.state = .active → v.state = .todo ∧ m.guard.lockHeld = true) ∧
        (v'.state = .waiting → v.state = .active) ∧ (v'.state = .done → v.state = .active) := by
  constructor
  · intro target g
    refine ⟨checkMove_eq_ok, fun e b w h => b.runIn_advance_refused h w, fun now => ⟨?_, fun e => ?_, fun u hu => ?_⟩⟩
    · simp [move_eq_ok]
    · unfold move
      cases t.checkMove target g <;> simp [Except.map]
    · obtain ⟨hcheck, rfl⟩ := move_eq_ok.mp hu
      refine ⟨moved_eq t target g now, ?_⟩
      rintro rfl
      obtain ⟨-, w, hw, hblank⟩ := (checkMove_eq_ok.mp hcheck).of_waiting
      exact ⟨w, by rw [moved_eq]; simpa using hw, hblank⟩
  · intro before m more u h
    obtain ⟨v, v', hv, hmove, hrest⟩ := exists_of_moveAll h
    obtain ⟨hcheck, rfl⟩ := move_eq_ok.mp hmove
    have hleads := checkMove_eq_ok.mp hcheck
    have hstate : (v.moved m.target m.guard m.now).state = m.target := rfl
    have hend := hleads.isTerminal_eq
    refine ⟨v, _, hv, hmove, hrest, ?_, ?_, fun h => ?_, fun h => ?_, fun h => ?_⟩
    · rintro hdone
      rw [hdone] at hend
      cases hend
    · rintro hcancelled
      rw [hcancelled] at hend
      cases hend
    · exact (hstate.symm.trans h ▸ hleads).of_active
    · exact (hstate.symm.trans h ▸ hleads).of_waiting.1
    · exact (hstate.symm.trans h ▸ hleads).of_done

end Workboard
