import Workboard.Proofs.Board.Drafts
import Workboard.Proofs.Board.Reconciling
import Workboard.Proofs.Time.Order

/-!
# The lives of tasks

What an operation writes is either a new task under an id that had no record, or a later version of
the task that it found there: it has the same birth and origin, was not changed earlier, and has
made one move at most. Main statement: so it is for every task in every run of turns, whatever the
clock says and whatever cannot be written, and no task comes back from its end.
-/
namespace Workboard

namespace Task
variable {t u v : Task} {id : String} {now : Instant}

/-- One task is a later version of another one. -/
structure Later (t u : Task) : Prop where
  id_eq : u.id = t.id
  createdAt_eq : u.createdAt = t.createdAt
  spawnedFrom_eq : u.spawnedFrom = t.spawnedFrom
  updatedAt_le : t.updatedAt ≤ u.updatedAt
  /-- It is in the same state, or one move has led to it that some guard allows. -/
  state : u.state = t.state ∨ ∃ g, t.checkMove u.state g = .ok ()

theorem Later.refl (t : Task) : t.Later t := ⟨rfl, rfl, rfl, le_rfl, .inl rfl⟩

/-- Changes that leave the state as it is may follow. -/
theorem Later.trans_of_state (h : t.Later u) (h' : u.Later v) (hstate : v.state = u.state) : t.Later v :=
  ⟨h'.id_eq.trans h.id_eq, h'.createdAt_eq.trans h.createdAt_eq, h'.spawnedFrom_eq.trans h.spawnedFrom_eq,
    h.updatedAt_le.trans h'.updatedAt_le, hstate ▸ h.state⟩

/-- No move leads away from a state in which a task is at its end. -/
theorem Later.state_eq (h : t.Later u) (hend : t.state.isTerminal = true) : u.state = t.state := by
  obtain hsame | ⟨g, hmove⟩ := h.state
  · exact hsame
  · simp [checkMove, TaskState.rule, hend, Guard.objection?] at hmove

theorem updatedAt_le_touch (t : Task) (now : Instant) : t.updatedAt ≤ (t.touch now).updatedAt :=
  (le_max_right now t.updatedAt).trans (le_max_left _ _)

theorem createdAt_le_touch (t : Task) (now : Instant) : (t.touch now).createdAt ≤ (t.touch now).updatedAt :=
  le_max_right _ _

/-- A later version whose change is noted in it. -/
def Succeeds (t u : Task) : Prop := t.Later u ∧ u.createdAt ≤ u.updatedAt

theorem Later.succeeds_touch (h : t.Later u) (now : Instant) : t.Succeeds (u.touch now) :=
  ⟨h.trans_of_state ⟨rfl, rfl, rfl, u.updatedAt_le_touch now, .inl rfl⟩ rfl, u.createdAt_le_touch now⟩

theorem succeeds_noting (t : Task) (dependent : String) (added : Bool) (now : Instant) :
    t.Succeeds (t.noting dependent added now) := by
  unfold noting
  refine Later.succeeds_touch ?_ now
  exact ⟨rfl, rfl, rfl, le_rfl, .inl rfl⟩

theorem succeeds_of_move {target : TaskState} {g : Guard} (h : t.move target g now = .ok u) : t.Succeeds u := by
  obtain ⟨rfl, hallowed⟩ := exists_of_move_eq_ok h
  have hmove : ∃ g, t.checkMove target g = .ok () := ⟨g, by rw [checkMove, hallowed]⟩
  unfold moved
  refine Later.succeeds_touch ?_ now
  split <;> exact ⟨rfl, rfl, rfl, le_rfl, .inr hmove⟩

theorem updatedAt_moved (t : Task) (target : TaskState) (g : Guard) (now : Instant) :
    t.updatedAt ≤ (t.moved target g now).updatedAt ∧
      (t.moved target g now).createdAt ≤ (t.moved target g now).updatedAt := by
  unfold moved
  refine ⟨?_, createdAt_le_touch _ now⟩
  split <;> exact updatedAt_le_touch _ now

/-- A task that goes on is changed at an instant that does not lie before its last change. -/
theorem updatedAt_of_freed? (h : t.freed? id now = some u) : t.updatedAt ≤ u.updatedAt ∧ u.createdAt ≤ u.updatedAt := by
  rw [freed?, Option.ite_none_right_eq_some] at h
  obtain ⟨-, h⟩ := h
  unfold Snapshot.unblocked? at h
  by_cases hfor : t.waitingFor = some id
  · simp only [if_pos hfor] at h
    split at h
    · obtain rfl := Option.some.inj h
      exact updatedAt_moved { t with waitingFor := none } .todo {} now
    · obtain rfl := Option.some.inj h
      exact ⟨updatedAt_le_touch { t with waitingFor := none } now, createdAt_le_touch _ now⟩
  · simp only [if_neg hfor, Option.ite_none_right_eq_some, Option.some.injEq] at h
    obtain ⟨-, rfl⟩ := h
    exact updatedAt_moved t .todo {} now

theorem Repaired.later (h : t.Repaired u) (hupdated : t.updatedAt ≤ u.updatedAt) : t.Later u := by
  refine ⟨h.id_eq, by rw [h.others], by rw [h.others], hupdated, h.state.imp_right ?_⟩
  rintro ⟨hwaiting, htodo⟩
  refine ⟨{}, ?_⟩
  rw [checkMove, hwaiting, htodo]
  rfl

/-- A later version that requires the same tasks. -/
def Follows (t u : Task) : Prop := t.Succeeds u ∧ u.requires = t.requires

theorem follows_noting (t : Task) (dependent : String) (added : Bool) (now : Instant) :
    t.Follows (t.noting dependent added now) :=
  ⟨t.succeeds_noting dependent added now, rfl⟩

theorem follows_of_move {target : TaskState} {g : Guard} (h : t.move target g now = .ok u) : t.Follows u := by
  refine ⟨succeeds_of_move h, ?_⟩
  obtain ⟨rfl, -⟩ := exists_of_move_eq_ok h
  unfold moved touch
  split <;> rfl

theorem follows_of_freed? (h : t.freed? id now = some u) : t.Follows u :=
  have hupdated := updatedAt_of_freed? h
  have hrepaired := repaired_of_freed? h
  ⟨⟨hrepaired.later hupdated.1, hupdated.2⟩, hrepaired.requires_eq⟩

theorem follows_of_setField {field value : String} (h : t.setField field value = .ok u) (now : Instant) :
    t.Follows (u.touch now) := by
  rw [others_of_setField h]
  refine ⟨Later.succeeds_touch ?_ now, rfl⟩
  exact ⟨rfl, rfl, rfl, le_rfl, .inl rfl⟩

end Task

/-- A repair changes tasks into later versions of them. -/
theorem Snapshot.exists_follows_of_mem_repairs {all : Snapshot} {now : Instant} {d : Task}
    (h : d ∈ all.repairs now) : ∃ t ∈ all, t.Follows d := by
  have hrepairs := @forall_mem_repairs_of_changed all now
    (fun d => ∃ t ∈ all, t.Repaired d ∧ t.updatedAt ≤ d.updatedAt) (fun d => ∃ t ∈ all, t.Follows d)
    (fun t ht => ⟨t, ht, .refl t, le_rfl⟩) ?_ ?_
  · exact hrepairs d h
  · rintro id u v ⟨t, ht, hrepaired, hupdated⟩ hfreed
    obtain ⟨hle, hcreated⟩ := Task.updatedAt_of_freed? hfreed
    have hv := hrepaired.trans (Task.repaired_of_freed? hfreed)
    exact ⟨⟨t, ht, hv, hupdated.trans hle⟩, t, ht, ⟨hv.later (hupdated.trans hle), hcreated⟩, hv.requires_eq⟩
  · rintro u blocks ⟨t, ht, hrepaired, hupdated⟩
    have hv : t.Repaired (Task.touch now { u with blocks }) := hrepaired.trans ⟨.inl rfl, rfl⟩
    have hle := hupdated.trans (Task.updatedAt_le_touch { u with blocks } now)
    exact ⟨⟨t, ht, hv, hle⟩, t, ht, ⟨hv.later hle, Task.createdAt_le_touch _ now⟩, hv.requires_eq⟩

namespace Board
variable {b : Board} {w w' : World Files} {id : String} {t u d : Task} {ds : List Task}

/-- The task has an id that has no record, or is a later version of a task that can be read. -/
def Continued (b : Board) (w : World Files) (d : Task) : Prop :=
  w.store.text? (Records.path b.root d.id).names = none ∨ ∃ t ∈ b.tasks w, t.Succeeds d

/-- The task continues what is there, and its requirements were found to make no cycle. -/
def Admitted (b : Board) (w : World Files) (d : Task) : Prop :=
  w.store.text? (Records.path b.root d.id).names = none ∧
      Snapshot.cycleWith? (b.tasks w ++ [d]) d.id d.requires = none ∨
    (∃ t ∈ b.tasks w, t.Succeeds d) ∧ (b.tasks w).cycleWith? d.id d.requires = none

/-- All of the tasks are later versions of tasks that can be read. At most one of them requires other
tasks than before or is new, and this one was admitted; it may have to note that it does not require
itself. -/
def Gradual (b : Board) (w : World Files) (ds : List Task) : Prop :=
  (∀ d ∈ ds, ∃ t ∈ b.tasks w, t.Follows d) ∨ ∃ m, b.Admitted w m ∧
    ∀ d ∈ ds, d = m ∨ (∃ now, d = m.noting m.id false now) ∨ ∃ t ∈ b.tasks w, t.Follows d

theorem Gradual.cons (h : b.Gradual w ds) (hd : ∃ t ∈ b.tasks w, t.Follows d) : b.Gradual w (d :: ds) := by
  obtain hds | ⟨m, hm, hds⟩ := h
  · exact .inl (List.forall_mem_cons.mpr ⟨hd, hds⟩)
  · exact .inr ⟨m, hm, List.forall_mem_cons.mpr ⟨.inr (.inr hd), hds⟩⟩

theorem Admitted.continued (h : b.Admitted w d) : b.Continued w d := h.imp And.left And.left

theorem Gradual.continued (h : b.Gradual w ds) : ∀ d ∈ ds, b.Continued w d := by
  have hfollows : ∀ {d}, (∃ t ∈ b.tasks w, t.Follows d) → b.Continued w d := fun ⟨t, ht, hd⟩ => .inr ⟨t, ht, hd.1⟩
  obtain hds | ⟨m, hm, hds⟩ := h
  · exact fun d hd => hfollows (hds d hd)
  · intro d hd
    obtain rfl | ⟨now, rfl⟩ | hd := hds d hd
    · exact hm.continued
    · have hnoting := m.succeeds_noting m.id false now
      exact hm.continued.imp_right fun ⟨t, ht, hsucceeds⟩ =>
        ⟨t, ht, hsucceeds.1.trans_of_state hnoting.1 rfl, hnoting.2⟩
    · exact hfollows hd

theorem follows_of_mem_notings {dependent : String} {added : Bool} {ids : List String} {now : Instant}
    (h : d ∈ (b.tasks w).notings dependent added ids now) : ∃ t ∈ b.tasks w, t.Follows d := by
  obtain ⟨p, hp, -, -, rfl⟩ := Snapshot.mem_notings.mp h
  exact ⟨p, hp, p.follows_noting dependent added now⟩

theorem follows_of_mem_movesTo {target : TaskState} {g : Guard} {now : Instant} (ht : t ∈ b.tasks w)
    (h : d ∈ (b.tasks w).movesTo t target g now) : ∃ t ∈ b.tasks w, t.Follows d := by
  obtain ⟨u, hu, hmove | hfreed⟩ := Snapshot.exists_of_mem_movesTo ht h
  · exact ⟨u, hu, Task.follows_of_move hmove⟩
  · exact ⟨u, hu, Task.follows_of_freed? hfreed⟩

theorem follows_of_mem_startDrafts {owner : String} (ht : t ∈ b.tasks w) (h : d ∈ startDrafts w t owner) :
    ∃ t ∈ b.tasks w, t.Follows d := by
  obtain ⟨moved, hmove, rfl⟩ := exists_of_mem_startDrafts h
  obtain ⟨⟨hlater, hupdated⟩, hrequires⟩ := Task.follows_of_move hmove
  exact ⟨t, ht, ⟨⟨hlater.id_eq, hlater.createdAt_eq, hlater.spawnedFrom_eq, hlater.updatedAt_le,
    hlater.state⟩, hupdated⟩, hrequires⟩

theorem gradual_insertDrafts (n : NewTask) (parent : Option String) : b.Gradual w (b.insertDrafts w n parent) := by
  unfold insertDrafts
  split
  · exact .inl fun d hd => nomatch hd
  rename_i t _
  split
  · rename_i hadmitted
    refine .inr ⟨t, .inl hadmitted, List.forall_mem_cons.mpr ⟨.inl rfl, fun d hd => ?_⟩⟩
    exact .inr (.inr (follows_of_mem_notings hd))
  · exact .inl fun d hd => nomatch hd

theorem gradual_requiresDrafts (ht : t ∈ b.tasks w) (text : String) : b.Gradual w (b.requiresDrafts w t text) := by
  unfold requiresDrafts
  split
  · exact .inl fun d hd => nomatch hd
  rename_i requires hrequires
  split
  · rename_i hnone
    have hedited : t.Succeeds (Task.touch w.clock { t with requires }) := by
      refine Task.Later.succeeds_touch ?_ w.clock
      exact ⟨rfl, rfl, rfl, le_rfl, .inl rfl⟩
    refine .inr ⟨Task.touch w.clock { t with requires }, .inr ⟨⟨t, ht, hedited⟩, hnone⟩, ?_⟩
    -- the edited task is told only that it no longer requires itself
    have hnotings : ∀ (added : Bool) (ids : List String), (t.id ∈ ids → added = false) →
        ∀ d ∈ ((b.tasks w).upsert (Task.touch w.clock { t with requires })).notings t.id added ids w.clock,
          (∃ now, d = (Task.touch w.clock { t with requires }).noting t.id false now) ∨
            ∃ t ∈ b.tasks w, t.Follows d := by
      intro added ids hself d hd
      obtain ⟨p, hp, hmem, -, rfl⟩ := Snapshot.mem_notings.mp hd
      obtain hp | hp := @Snapshot.mem_upsertAll _ [_] _ hp
      · obtain rfl := List.mem_singleton.mp hp
        rw [hself hmem]
        exact .inl ⟨w.clock, rfl⟩
      · exact .inr ⟨p, hp, p.follows_noting t.id added w.clock⟩
    refine List.forall_mem_cons.mpr ⟨.inl rfl, List.forall_mem_append.mpr ⟨fun d hd => ?_, fun d hd => ?_⟩⟩
    · refine .inr (hnotings true _ (fun hmem => ?_) d hd)
      exact absurd (TextSet.mem_diff.mp hmem).1 (not_mem_requirementsOf hrequires)
    · exact .inr (hnotings false _ (fun _ => rfl) d hd)
  · exact .inl fun d hd => nomatch hd

theorem gradual_editDrafts (ht : t ∈ b.tasks w) (field value : String) : b.Gradual w (b.editDrafts w t field value) := by
  unfold editDrafts stateDrafts
  split
  · exact .inl fun d hd => nomatch hd
  split
  · split
    · exact .inl fun d hd => nomatch hd
    · exact .inl fun d hd => follows_of_mem_movesTo ht hd
    · exact .inl fun d hd => follows_of_mem_movesTo ht hd
  split
  · exact gradual_requiresDrafts ht _
  cases hset : t.setField field value with
  | error e => exact .inl fun d hd => nomatch hd
  | ok t' =>
    refine .inl fun d hd => ⟨t, ht, ?_⟩
    obtain rfl := List.mem_singleton.mp hd
    exact Task.follows_of_setField hset w.clock

/-- All that an operation may save continues what is there. -/
theorem Operation.gradual_drafts (op : Operation) (b : Board) (w : World Files) : b.Gradual w (op.drafts b w) := by
  have hload : ∀ {id t}, t ∈ b.taskAt w id → t ∈ b.tasks w := fun ht =>
    Records.mem_allAt_of_loadAt (mem_taskAt.mp ht)
  -- operations on one task, if it can be read
  have hone : ∀ {id} {f : Task → List Task}, (∀ t ∈ b.tasks w, b.Gradual w (f t)) →
      b.Gradual w ((b.taskAt w id).flatMap f) := by
    intro id f hf
    unfold taskAt
    cases ht : Records.loadAt w.store b.root id with
    | error e => exact .inl fun d hd => absurd hd List.not_mem_nil
    | ok t =>
      simpa [Except.toOption] using hf t (Records.mem_allAt_of_loadAt ht)
  cases op with
  | create n => exact gradual_insertDrafts n none
  | spawn parent n =>
    refine hone fun p hp => (gradual_insertDrafts n (some parent)).cons ⟨p, hp, Task.Later.succeeds_touch ?_ w.clock, rfl⟩
    exact ⟨rfl, rfl, rfl, le_rfl, .inl rfl⟩
  | edit id field value => exact hone fun t ht => gradual_editDrafts ht field value
  | claim id owner => exact hone fun t ht => .inl fun d hd => follows_of_mem_startDrafts ht hd
  | claimNext owner =>
    refine .inl fun d hd => ?_
    obtain ⟨t, ht, hd⟩ := List.mem_flatMap.mp hd
    exact follows_of_mem_startDrafts ht hd
  | heartbeat id owner => exact .inl fun d hd => absurd hd List.not_mem_nil
  | reconcile => exact .inl fun d hd => Snapshot.exists_follows_of_mem_repairs hd
  | _ => exact hone fun t ht => .inl fun d hd => follows_of_mem_movesTo ht hd

/-- How records go on: what becomes of a task that can be read both before and after, and of the
records that cannot be read. -/
structure Carries (b : Board) (w w' : World Files) : Prop where
  /-- No record is lost. -/
  kept : ∀ id, (w.store.text? (Records.path b.root id).names).isSome = true →
    (w'.store.text? (Records.path b.root id).names).isSome = true
  later : ∀ id t u, Records.loadAt w.store b.root id = .ok t → Records.loadAt w'.store b.root id = .ok u → t.Later u
  /-- A record that is rewritten notes a change that does not lie before the birth of the task. -/
  rewritten : ∀ id t u, Records.loadAt w.store b.root id = .ok t → Records.loadAt w'.store b.root id = .ok u →
    w'.store.text? (Records.path b.root id).names ≠ w.store.text? (Records.path b.root id).names →
    u.createdAt ≤ u.updatedAt
  /-- A record that cannot be read stays as it is. -/
  unreadable : ∀ id e, isValidId id = true → (w.store.text? (Records.path b.root id).names).isSome = true →
    Records.loadAt w.store b.root id = .error e →
    w'.store.text? (Records.path b.root id).names = w.store.text? (Records.path b.root id).names

/-- What is written continues what is there, so it carries all tasks on. -/
theorem Writes.carries {ds : List Task} (h : b.Writes ds w w') (hfaithful : ∀ d ∈ ds, d.Faithful)
    (hds : ∀ d ∈ ds, b.Continued w d) : b.Carries w w' := by
  have hread : ∀ id t u, Records.loadAt w.store b.root id = .ok t → Records.loadAt w'.store b.root id = .ok u →
      (w'.store.text? (Records.path b.root id).names = w.store.text? (Records.path b.root id).names ∧ u = t) ∨
        t.Succeeds u := by
    intro id t u ht hu
    obtain ⟨hsame, hload⟩ | hmem := h.loadAt_cases hfaithful hu
    · exact .inl ⟨hsame, Except.ok.inj (hload.symm.trans ht)⟩
    · refine .inr ?_
      obtain hnone | ⟨t', ht', hsucceeds⟩ := hds u hmem
      · obtain ⟨-, content, hcontent, -⟩ := Records.loadAt_eq_ok.mp ht
        rw [Records.id_of_loadAt hu, hcontent] at hnone
        cases hnone
      · have hload := Records.mem_allAt.mp ht'
        rw [← hsucceeds.1.id_eq, Records.id_of_loadAt hu, ht] at hload
        rwa [Except.ok.inj hload]
  refine ⟨fun id hsome => ?_, fun id t u ht hu => ?_, fun id t u ht hu hne => ?_, fun id e _ hsome herror => ?_⟩
  · obtain hsame | ⟨d, -, -, hwritten⟩ := h.record id
    · rwa [hsame]
    · rw [hwritten, Option.isSome_some]
  · obtain ⟨-, rfl⟩ | hsucceeds := hread id t u ht hu
    · exact .refl u
    · exact hsucceeds.1
  · obtain ⟨hsame, -⟩ | hsucceeds := hread id t u ht hu
    · exact absurd hsame hne
    · exact hsucceeds.2
  · obtain hsame | ⟨d, hd, rfl, -⟩ := h.record id
    · exact hsame
    · obtain hnone | ⟨t, ht, hsucceeds⟩ := hds d hd
      · rw [hnone] at hsome
        cases hsome
      · have hload := Records.mem_allAt.mp ht
        rw [← hsucceeds.1.id_eq, herror] at hload
        cases hload

section Turns
variable {turns : List Turn}

/-- Every turn carries the tasks on. -/
theorem Turn.carries {turn : Turn} (hw : w.Steady) (h : ∀ d ∈ turn.drafts b w, d.Faithful) :
    b.Carries w (turn.perform b w) :=
  have hcarries := (Turn.writes hw h).carries h (Operation.gradual_drafts turn.operation b (turn.opening w)).continued
  ⟨hcarries.kept, hcarries.later, hcarries.rewritten, hcarries.unreadable⟩

theorem unreadable_afterTurns (hw : w.Steady) (h : b.FaithfulTurns w turns) (hid : isValidId id = true)
    (hsome : (w.store.text? (Records.path b.root id).names).isSome = true) {e : Error}
    (herror : Records.loadAt w.store b.root id = .error e) :
    Records.loadAt (b.afterTurns w turns).store b.root id = .error e := by
  induction turns generalizing w with
  | nil => exact herror
  | cons turn turns ih =>
    have hsame := (Turn.carries hw h.1).unreadable id e hid hsome herror
    refine ih (Turn.writes hw h.1).steady h.2 (hsame ▸ hsome) ?_
    rw [Records.loadAt_congr hsame, herror]

/-- A task that is at its end stays there. Its record may become unreadable on the way, but then it
stays so. -/
theorem state_afterTurns (hw : w.Steady) (h : b.FaithfulTurns w turns)
    (ht : Records.loadAt w.store b.root id = .ok t) (hend : t.state.isTerminal = true)
    (hu : Records.loadAt (b.afterTurns w turns).store b.root id = .ok u) : u.state = t.state := by
  induction turns generalizing w t with
  | nil => rw [Except.ok.inj (ht.symm.trans hu)]
  | cons turn turns ih =>
    have hcarries := Turn.carries hw h.1
    have hw₁ := (Turn.writes hw h.1).steady
    cases hload : Records.loadAt (turn.perform b w).store b.root id with
    | ok v =>
      have hstate := (hcarries.later id t v ht hload).state_eq hend
      rw [← hstate] at hend ⊢
      exact ih hw₁ h.2 hload hend hu
    | error e =>
      obtain ⟨hid, content, hcontent, -⟩ := Records.loadAt_eq_ok.mp ht
      have hsome := hcarries.kept id (by rw [hcontent, Option.isSome_some])
      have herror := unreadable_afterTurns hw₁ h.2 hid hsome hload
      rw [show Records.loadAt (b.afterTurns w (turn :: turns)).store b.root id = .error e from herror] at hu
      cases hu

/-- Every turn of a run carries the tasks on, and a task that is done or cancelled stays so for the
rest of the run. -/
theorem afterTurns_carries (hw : w.Steady) (h : b.FaithfulTurns w turns) :
    (∀ before turn after, turns = before ++ turn :: after →
      b.Carries (b.afterTurns w before) (b.afterTurns w (before ++ [turn]))) ∧
    ∀ before middle after, turns = before ++ middle ++ after → ∀ id t u,
      Records.loadAt (b.afterTurns w before).store b.root id = .ok t → t.state.isTerminal = true →
      Records.loadAt (b.afterTurns w (before ++ middle)).store b.root id = .ok u → u.state = t.state := by
  refine ⟨?_, ?_⟩
  · rintro before turn after rfl
    obtain ⟨hbefore, hturn, -⟩ := faithfulTurns_append.mp h
    rw [afterTurns_append]
    exact Turn.carries (steady_afterTurns hw hbefore) hturn
  · rintro before middle after rfl id t u ht hend hu
    obtain ⟨hboth, -⟩ := faithfulTurns_append.mp h
    obtain ⟨hbefore, hmiddle⟩ := faithfulTurns_append.mp hboth
    rw [afterTurns_append] at hu
    exact state_afterTurns (steady_afterTurns hw hbefore) hmiddle ht hend hu

end Turns

/-- A repair at an instant before all others, of a board that interrupted operations have left. -/
def repairing : List Turn := [⟨drifted.clock, [], .reconcile⟩]

theorem afterTurns_carries_drifted :
    Lone.board.Carries drifted (Lone.board.afterTurns drifted repairing) ∧
      ∀ t u, Records.loadAt drifted.store Lone.board.root "a" = .ok t → t.state.isTerminal = true →
        Records.loadAt (Lone.board.afterTurns drifted repairing).store Lone.board.root "a" = .ok u →
        u.state = t.state := by
  have hfaithful : Lone.board.FaithfulTurns drifted repairing :=
    ⟨fun d hd => (readsBack_drifted d hd).faithful, trivial⟩
  have hcarries := afterTurns_carries steady_drifted hfaithful
  exact ⟨hcarries.1 [] _ [] rfl, hcarries.2 [] repairing [] rfl "a"⟩

end Board

end Workboard
