import Workboard.Proofs.Board.Drafts
import Workboard.Proofs.Board.Spawning
import Workboard.Proofs.Task.Storable

/-!
# What an edit leaves in the record

An edit that succeeds leaves the record of the task that it returns, unless the task required
itself and gives that up: then the record is noted once more. What is in the record is read as that
task only if the task can be stored, and an unknown field takes values that cannot be.
-/
namespace Workboard.Board
open Workboard.Action

variable {b : Board} {w : World Files} {t : Task} {id : String}

/-- A task that is returned is the one that the record of the id has been written for. -/
def Stored (b : Board) (id : String) (r : Except Error Task) (w : World Files) : Prop :=
  ∀ u, r = .ok u →
    u.id = id ∧ isValidId id = true ∧ w.store.text? (Records.path b.root id).names = some (Record.render u)

theorem stored_error (e : Error) : b.Stored id (.error e) w := fun _ h => nomatch h

theorem stored_ok (hid : t.id = id) (hvalid : isValidId id = true)
    (htext : w.store.text? (Records.path b.root id).names = some (Record.render t)) :
    b.Stored id (.ok t) w := by
  rintro _ ⟨⟩
  exact ⟨hid, hvalid, htext⟩

theorem ends_cancel_stored (hw : w.Steady) (id : String) : (b.cancel id).Ends w (b.Stored id) := by
  refine ends_bind (Records.ends_load ?_)
  cases hload : Records.loadAt w.store b.root id with
  | error e => exact stored_error e
  | ok t =>
    obtain rfl := Records.id_of_loadAt hload
    rw [andThen_ok]
    refine ends_bind (ends_advance hw (fun e _ _ => ?_) fun u w₁ _ hid _ hw₁ => ?_)
    · exact stored_error e
    rw [andThen_ok]
    have hnone : b.Writes [] w₁ w₁ := writes_self hw₁.steady
    refine ends_bind ((ends_forceRelease_writing hnone t.id).mono fun r w₂ hw₂ => ?_)
    cases r with
    | error e => exact stored_error e
    | ok _ =>
      refine ends_pure (stored_ok hid (Records.loadAt_eq_ok.mp hload).1 ?_)
      rw [hw₂.text?_of_ne (fun _ h => nomatch h), hw₁.text, ← hid, Function.update_self]

theorem ends_editState_stored (hw : w.Steady) (t : Task) (now : Instant) (word : String) :
    (b.editState t now word).Ends w (b.Stored t.id) := by
  unfold editState
  split
  · exact ends_throw (stored_error _)
  · exact ends_cancel_stored hw t.id
  rename_i target _ _
  refine ends_bind (ends_settle ?_)
  cases hmove : t.move target { waitingFor := t.waitingFor } now with
  | error e => exact stored_error e
  | ok moved =>
    have hid : moved.id = t.id := by
      obtain ⟨rfl, -⟩ := Task.exists_of_move_eq_ok hmove
      exact Task.id_moved _ _ _ _
    rw [andThen_ok]
    refine ends_bind (Records.ends_save hw (fun e _ _ _ => stored_error e) fun w₁ hvalid _ hw₁ => ?_)
    -- the dependents that go on are other tasks
    have hrest : ∀ w₂ : World Files, w₂.Steady →
        w₂.store.text? (Records.path b.root t.id).names = some (Record.render moved) →
        Ends (if moved.state = .done then
          Records.scan b.root >>= fun all => b.saveEach (all.cascade t.id now) >>= fun _ => pure moved
        else pure moved) w₂ (b.Stored t.id) := by
      intro w₂ hw₂ htext
      split
      · refine ends_bind (Records.ends_scan ?_)
        rw [andThen_ok]
        refine ends_bind ((ends_saveEach_writing (writes_self hw₂) (List.Subset.refl _)).mono fun r w₃ hw₃ => ?_)
        have hsame : w₃.store.text? (Records.path b.root t.id).names =
            w₂.store.text? (Records.path b.root t.id).names := hw₃.text?_of_ne fun d hd heq => by
          obtain ⟨u, -, hfreed⟩ := Snapshot.exists_of_mem_cascade hd
          have huid := (Task.sameLinks_of_freed? hfreed).1
          simp [Task.freed?, ← huid, heq] at hfreed
        cases r with
        | error e => exact stored_error e
        | ok _ => exact stored_ok hid (hid ▸ hvalid) (hsame.trans htext)
      · exact ends_pure (stored_ok hid (hid ▸ hvalid) htext)
    have htext : w₁.store.text? (Records.path b.root t.id).names = some (Record.render moved) := by
      rw [hw₁.text, hid, Function.update_self]
    rw [andThen_ok]
    by_cases hactive : t.state = .active
    · simp only [if_pos hactive]
      have hnone : b.Writes [] w₁ w₁ := writes_self hw₁.steady
      refine ends_bind ((ends_forceRelease_writing hnone t.id).mono fun r w₂ hw₂ => ?_)
      cases r with
      | error e => exact stored_error e
      | ok _ => exact hrest w₂ hw₂.steady ((hw₂.text?_of_ne fun _ h => absurd h List.not_mem_nil).trans htext)
    · simp only [if_neg hactive]
      exact hrest w₁ hw₁.steady htext

theorem ends_editRequires_stored (hw : w.Steady) (hself : t.id ∉ t.requires) (now : Instant) (text : String) :
    (b.editRequires t now text).Ends w (b.Stored t.id) := by
  refine ends_bind (ends_settle ?_)
  cases hrequires : requirementsOf t.id (idsOfText text) with
  | error e => exact stored_error e
  | ok requires =>
    rw [andThen_ok]
    refine ends_bind (Records.ends_scan ?_)
    rw [andThen_ok]
    split
    · exact ends_throw (stored_error _)
    refine ends_bind (Records.ends_save hw (fun e _ _ _ => stored_error e) fun w₁ hvalid _ hw₁ => ?_)
    rw [andThen_ok]
    have hlink : (b.link t.id (requires.diff t.requires) (t.requires.diff requires)).Ends w₁ fun _ w₂ =>
        b.Writes ((b.tasks w₁).notings t.id true (requires.diff t.requires).toList w₁.clock ++
          (b.tasks w₁).notings t.id false (t.requires.diff requires).toList w₁.clock) w₁ w₂ :=
      ends_link_writing (writes_self hw₁.steady)
        (fun id hid hid' => (TextSet.mem_diff.mp hid).2 (TextSet.mem_diff.mp hid').1)
        (List.subset_append_left _ _) (List.subset_append_right _ _)
    refine ends_bind (hlink.mono fun r w₂ hw₂ => ?_)
    have hsame : w₂.store.text? (Records.path b.root t.id).names =
        w₁.store.text? (Records.path b.root t.id).names := hw₂.text?_of_ne fun d hd heq => by
      rw [List.mem_append] at hd
      have hmem : d.id ∈ requires.diff t.requires ∨ d.id ∈ t.requires.diff requires := by
        refine hd.imp (fun hd => ?_) (fun hd => ?_) <;>
        · obtain ⟨p, -, hp, -, rfl⟩ := Snapshot.mem_notings.mp hd
          exact hp
      rw [heq, TextSet.mem_diff, TextSet.mem_diff] at hmem
      exact hmem.elim (fun h => not_mem_requirementsOf hrequires h.1) fun h => hself h.1
    cases r with
    | error e => exact stored_error e
    | ok _ =>
      rw [andThen_ok]
      refine ends_pure (stored_ok rfl hvalid (hsame.trans ?_))
      rw [hw₁.text]
      exact Function.update_self ..

/-- What an edit that succeeds has written, but where it takes a requirement of itself from the task. -/
theorem ends_edit_stored (hw : w.Steady) {field : String} (value : String) (hself : field = "requires" →
    ∀ t, Records.loadAt w.store b.root id = .ok t → id ∉ t.requires) :
    (b.edit id field value).Ends w (b.Stored id) := by
  refine ends_bind (Records.ends_load ?_)
  cases hload : Records.loadAt w.store b.root id with
  | error e => exact stored_error e
  | ok t =>
    obtain rfl := Records.id_of_loadAt hload
    rw [andThen_ok]
    refine ends_bind (ends_now ?_)
    rw [andThen_ok]
    split
    · exact ends_throw (stored_error _)
    split
    · exact ends_editState_stored hw t _ _
    split
    · rename_i hfield
      exact ends_editRequires_stored hw (hself hfield t hload) _ _
    refine ends_bind (ends_settle ?_)
    cases hset : t.setField field value with
    | error e => exact stored_error e
    | ok u =>
      have hid : u.id = t.id := by rw [Task.others_of_setField hset]
      rw [andThen_ok]
      refine ends_bind (Records.ends_save hw (fun e _ _ _ => stored_error e) fun w₁ hvalid _ hw₁ => ?_)
      rw [andThen_ok]
      refine ends_pure (stored_ok hid (hid ▸ hvalid) ?_)
      rw [hw₁.text, ← hid]
      exact Function.update_self ..

/-- A task that an edit returns is in its record afterwards only if it can be stored. -/
theorem edited_loaded_iff (hw : w.Steady) (id field value : String) (hself : field = "requires" →
    ∀ t, Records.loadAt w.store b.root id = .ok t → id ∉ t.requires) :
    (b.edit id field value).Ends w fun r w' => ∀ u, r = .ok u →
      (Records.loadAt w'.store b.root id = .ok u ↔ u.ReadsBack) ∧ (u.ReadsBack → u.Storable) := by
  refine (ends_edit_stored hw value hself).mono fun r w' hr u hu => ⟨?_, Record.storable_of_parse⟩
  obtain ⟨rfl, hvalid, htext⟩ := hr u hu
  rw [Records.loadAt_eq_ok, htext]
  constructor
  · rintro ⟨-, _, ⟨⟩, hread⟩
    exact Records.parse_of_read hread
  · exact fun hback => ⟨hvalid, _, rfl, by simp [Records.read, show Record.parse _ = _ from hback]⟩

section Lone

/-- The value that the text stands for has a tag. -/
def marked : Task := { Lone.task with extra := .ofList [("x", .tagged "foo" (.str "bar"))] }

theorem edited_loaded_iff_marked :
    (Lone.board.edit "a" "x" "!foo bar").Ends Lone.world fun r w' => ∀ u, r = .ok u →
      (Records.loadAt w'.store Lone.board.root "a" = .ok u ↔ u.ReadsBack) ∧ (u.ReadsBack → u.Storable) :=
  edited_loaded_iff Lone.steady_world "a" "x" "!foo bar" fun h => absurd h (by decide)

theorem tagged_lost :
    let edited := (Lone.board.edit "a" "x" "!foo bar").run.runIn Lone.world
    edited.1 = .ok marked ∧
      Records.loadAt edited.2.store Lone.board.root "a" = .error (.corrupt "a" .unreadable) := by
  decide +kernel

end Lone

end Workboard.Board
