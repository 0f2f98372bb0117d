import Workboard.Proofs.Board.Inserting
import Workboard.Proofs.Board.Lone

/-!
# Tasks that are split off

A task that is split off is inserted as any new task is, and its parent takes note of it.
The parent was read before that, so what the insertion wrote into the record of the parent
is lost. Main statement: this happens exactly when the new task requires its parent.
-/
namespace Workboard

namespace Board
open Workboard.Action

variable {b : Board} {w : World Files}

section Linked
variable {dependent : String} {now : Instant} {p : Task}

/-- What is noted in a record when a task is linked that requires the tasks of the ids. -/
theorem ends_linkEach (hw : w.Steady) (hopen : w.store.refusing = [])
    (hp : Records.loadAt w.store b.root p.id = .ok p) (ids : List String)
    (hread : p.id ∈ ids → dependent ∉ p.blocks → (p.noting dependent true now).ReadsBack) :
    (b.linkEach now dependent true ids).Ends w fun r w' => r = .ok () ∧ w.Continues w' ∧
      Records.loadAt w'.store b.root p.id =
        .ok (if p.id ∈ ids ∧ dependent ∉ p.blocks then p.noting dependent true now else p) := by
  induction ids generalizing w p with
  | nil => exact ends_pure ⟨rfl, hw.continues_self, by simpa using hp⟩
  | cons id ids ih =>
    refine ends_bind (ends_linkOne hw (fun w₁ hw₁ hnoted => ?_) fun t w₁ ht hblocks hw₁ => ?_)
    · -- nothing was noted
      have hp₁ : Records.loadAt w₁.store b.root p.id = .ok p := by
        rw [Records.loadAt_congr (congrFun hw₁.text _), hp]
      rw [andThen_ok]
      refine (ih hw₁.steady (hw₁.refusing.trans hopen) hp₁
        fun hmem => hread (List.mem_cons_of_mem _ hmem)).mono ?_
      rintro r w' ⟨hr, hcontinues, hload⟩
      refine ⟨hr, hw₁.toContinues.trans hcontinues, ?_⟩
      rw [hload]
      by_cases hid : p.id = id
      · obtain hiff | ⟨_, hmem, -⟩ := hnoted p (hid ▸ hp)
        · have hdep : dependent ∈ p.blocks := hiff.mpr rfl
          simp [hdep]
        · rw [hopen] at hmem
          cases hmem
      · simp [hid]
    · -- the dependent was noted in one record
      obtain ⟨hvalid, _, -, hcontent⟩ := Records.loadAt_eq_ok.mp ht
      obtain rfl : t.id = id := Records.id_of_read hcontent
      have hsaved : Records.Saved w.store w₁.store b.root (t.noting dependent true now) := hw₁.text
      have hdep : dependent ∉ t.blocks := fun h => hblocks (iff_of_true h rfl)
      by_cases hid : p.id = t.id
      · obtain rfl : t = p := by
          rw [← hid, hp] at ht
          exact (Except.ok.inj ht).symm
        have hp₁ : Records.loadAt w₁.store b.root (t.noting dependent true now).id =
            .ok (t.noting dependent true now) :=
          hsaved.loadAt_self hvalid (hread List.mem_cons_self hdep)
        have hnoted : dependent ∈ (t.noting dependent true now).blocks := by
          change dependent ∈ t.blocks.insert dependent
          simp
        rw [andThen_ok]
        refine (ih hw₁.steady (hw₁.refusing.trans hopen) hp₁ fun _ hmem => absurd hnoted hmem).mono ?_
        rintro r w' ⟨hr, hcontinues, hload⟩
        exact ⟨hr, hw₁.toContinues.trans hcontinues, by simpa [hnoted, hdep] using hload⟩
      · have hp₁ : Records.loadAt w₁.store b.root p.id = .ok p := by
          rw [hsaved.loadAt_other hid, hp]
        rw [andThen_ok]
        refine (ih hw₁.steady (hw₁.refusing.trans hopen) hp₁
          fun hmem => hread (List.mem_cons_of_mem _ hmem)).mono ?_
        rintro r w' ⟨hr, hcontinues, hload⟩
        refine ⟨hr, hw₁.toContinues.trans hcontinues, ?_⟩
        rw [hload]
        simp [hid]

end Linked

end Board

namespace Task

/-- The parent once it has taken note of a task that was split off from it. -/
def withChild (p : Task) (child : String) (now : Instant) : Task :=
  { p with spawnedTasks := p.spawnedTasks ++ [child] }.touch now

end Task

namespace Board
open Workboard.Action
variable {b : Board} {w : World Files}

/-- When the insertion of a new task has succeeded, the record of another task has changed by a
note of the new task, if that requires it. -/
theorem ends_insert_noting (hw : w.Steady) (hopen : w.store.refusing = []) {p child : Task}
    (hp : Records.loadAt w.store b.root p.id = .ok p) (n : NewTask) (parent : Option String)
    (hread : p.id ∈ child.requires → child.id ∉ p.blocks → (p.noting child.id true w.clock).ReadsBack) :
    (b.insert n parent).Ends w fun r w₁ => r = .ok child → w.Continues w₁ ∧
      Records.loadAt w₁.store b.root p.id = .ok
        (if p.id ∈ child.requires ∧ child.id ∉ p.blocks then p.noting child.id true w.clock else p) := by
  refine ends_insert hw (fun e w' _ h => by cases h) fun t w₁ _ hnone _ hw₁ => ?_
  by_cases ht : t = child
  · subst ht
    have hne : p.id ≠ t.id := by
      intro heq
      obtain ⟨-, content, hcontent, -⟩ := Records.loadAt_eq_ok.mp hp
      rw [heq, hnone] at hcontent
      cases hcontent
    have hp₁ : Records.loadAt w₁.store b.root p.id = .ok p := by
      have hsaved : Records.Saved w.store w₁.store b.root t := hw₁.text
      rw [hsaved.loadAt_other hne, hp]
    refine ends_bind (ends_now ?_)
    rw [andThen_ok, hw₁.clock]
    refine ends_bind (Ends.mono (ends_linkEach hw₁.steady (hw₁.refusing.trans hopen) hp₁ _ hread) ?_)
    rintro r w₂ ⟨rfl, hcontinues, hload⟩
    rw [andThen_ok]
    refine ends_pure ?_
    rw [andThen_ok]
    exact ends_pure fun _ => ⟨hw₁.toContinues.trans hcontinues, hload⟩
  · -- whatever the links come to, the result is not the child
    refine ends_of_forall fun r w₂ => ?_
    cases r with
    | ok _ =>
      rw [andThen_ok]
      exact ends_pure fun h => absurd (Except.ok.inj h) ht
    | error e => exact fun h => by cases h

/-- To split off a task is to insert it and to note it in the record of its parent; but the
note goes to the parent as it was before the insertion. So the record of the parent is the one
that the insertion left, with the child noted, exactly if the insertion did not note there that
the child requires its parent. -/
theorem spawned_iff_not_required {parent : String} {n : NewTask} {p child : Task} {w' : World Files}
    (hw : w.Steady) (hopen : w.store.refusing = [])
    (hp : Records.loadAt w.store b.root parent = .ok p)
    (hrun : (b.spawn parent n).run.runIn w = (.ok child, w'))
    (hlinked : parent ∈ child.requires → child.id ∉ p.blocks →
      (p.noting child.id true w.clock).ReadsBack)
    (hnoted : (p.withChild child.id w.clock).ReadsBack) :
    ∃ w₁ p₁, (b.insert n (some parent)).run.runIn w = (.ok child, w₁) ∧
      Records.loadAt w₁.store b.root parent = .ok p₁ ∧
      (∀ names, names ≠ (Records.path b.root parent).names →
        w'.store.text? names = w₁.store.text? names) ∧
      (Records.loadAt w'.store b.root parent = .ok (p₁.withChild child.id w.clock) ↔
        ¬ (parent ∈ child.requires ∧ child.id ∉ p.blocks)) := by
  obtain ⟨hvalid, content, hcontent, hread⟩ := Records.loadAt_eq_ok.mp hp
  obtain rfl : p.id = parent := Records.id_of_read hread
  rcases hinsert : (b.insert n (some p.id)).run.runIn w with ⟨r, w₁⟩
  have hpost := (ends_insert_noting hw hopen hp n (some p.id) hlinked).of_runIn hinsert
  -- the parts of the operation, one after the other
  have hends : (b.spawn p.id n).Ends w fun r' w₂ => r' = .ok child → r = .ok child ∧
      w₂.store.text? = Function.update w₁.store.text? (Records.path b.root p.id).names
        (some (Record.render (p.withChild child.id w.clock))) := by
    refine ends_bind (Records.ends_load ?_)
    rw [hp, andThen_ok]
    by_cases hterminal : p.state.isTerminal = true
    · rw [if_pos hterminal]
      exact ends_throw fun h => by cases h
    · rw [if_neg hterminal]
      refine ends_bind (ends_of_runIn hinsert ?_)
      cases r with
      | error e => exact fun h => by cases h
      | ok t =>
        rw [andThen_ok]
        by_cases ht : t = child
        · subst ht
          obtain ⟨hcontinues, -⟩ := hpost rfl
          refine ends_bind (ends_now ?_)
          rw [andThen_ok, hcontinues.clock]
          refine ends_bind (Records.ends_save hcontinues.steady (fun e _ _ _ h => by cases h)
            fun w₂ _ _ hw₂ => ?_)
          rw [andThen_ok]
          exact ends_pure fun _ => ⟨rfl, hw₂.text⟩
        · refine ends_bind (ends_now ?_)
          rw [andThen_ok]
          refine ends_bind (ends_of_forall fun r w₂ => ?_)
          cases r with
          | ok _ =>
            rw [andThen_ok]
            exact ends_pure fun h => absurd (Except.ok.inj h) ht
          | error e => exact fun h => by cases h
  obtain ⟨rfl, htext⟩ := hends.of_runIn hrun rfl
  obtain ⟨hcontinues, hload⟩ := hpost rfl
  have hsaved : Records.Saved w₁.store w'.store b.root (p.withChild child.id w.clock) := htext
  refine ⟨w₁, _, rfl, hload, fun names hne => ?_, ?_⟩
  · rw [htext, Function.update_of_ne hne]
  · have hafter : Records.loadAt w'.store b.root p.id = .ok (p.withChild child.id w.clock) :=
      hsaved.loadAt_self hvalid hnoted
    rw [hafter]
    split
    · rename_i hrequires
      refine iff_of_false (fun heq => hrequires.2 ?_) (not_not_intro hrequires)
      have hblocks : p.blocks = p.blocks.insert child.id := congrArg Task.blocks (Except.ok.inj heq)
      rw [hblocks]
      simp
    · rename_i hnot
      exact iff_of_true rfl hnot

section Lone

/-- A task that requires the one from which it is split off. -/
def dependent : NewTask := { id := some "c", title := "C", requires := ["a"] }

/-- The task as it is inserted. -/
def child : Task := {
  id := "c"
  title := "C"
  state := .todo
  requires := .ofList ["a"]
  createdAt := Lone.begun
  updatedAt := Lone.begun
  spawnedFrom := some "a" }

theorem spawn_dependent :
    ((Lone.board.spawn "a" dependent).run.runIn Lone.world).1 = .ok child ∧
      Records.loadAt ((Lone.board.spawn "a" dependent).run.runIn Lone.world).2.store Lone.board.root
        "a" = .ok { Lone.task with spawnedTasks := ["c"] } := by
  decide +kernel

theorem spawned_iff_not_required_lone :
    ∃ w' w₁ p₁, (Lone.board.spawn "a" dependent).run.runIn Lone.world = (.ok child, w') ∧
      (Lone.board.insert dependent (some "a")).run.runIn Lone.world = (.ok child, w₁) ∧
      Records.loadAt w₁.store Lone.board.root "a" = .ok p₁ ∧
      (Records.loadAt w'.store Lone.board.root "a" = .ok (p₁.withChild "c" Lone.begun) ↔
        ¬ ("a" ∈ child.requires ∧ "c" ∉ Lone.task.blocks)) := by
  have hchild := spawn_dependent.1
  rcases hrun : (Lone.board.spawn "a" dependent).run.runIn Lone.world with ⟨r, w'⟩
  rw [hrun] at hchild
  obtain rfl : r = .ok child := hchild
  have hload : Records.loadAt Lone.world.store Lone.board.root "a" = .ok Lone.task := by decide +kernel
  have hlinked : (Lone.task.noting "c" true Lone.begun).ReadsBack := by
    unfold Task.ReadsBack
    decide +kernel
  have hnoted : (Lone.task.withChild "c" Lone.begun).ReadsBack := by
    unfold Task.ReadsBack
    decide +kernel
  obtain ⟨w₁, p₁, hinserted, hfound, -, hiff⟩ :=
    spawned_iff_not_required Lone.steady_world rfl hload hrun (fun _ _ => hlinked) hnoted
  exact ⟨w', w₁, p₁, rfl, hinserted, hfound, hiff⟩

/-- The inserted task is noted in the record of the task that it requires; once it has been
split off from that task, the note is gone. -/
theorem noted_dependent_lost :
    let inserted := (Lone.board.insert dependent (some "a")).run.runIn Lone.world
    let spawned := (Lone.board.spawn "a" dependent).run.runIn Lone.world
    spawned.1 = .ok child ∧
      Records.loadAt inserted.2.store Lone.board.root "a" =
        .ok { Lone.task with blocks := .ofList ["c"] } ∧
      Records.loadAt spawned.2.store Lone.board.root "a" ≠
        .ok ({ Lone.task with blocks := .ofList ["c"] }.withChild "c" Lone.begun) := by
  refine ⟨spawn_dependent.1, by decide +kernel, ?_⟩
  rw [spawn_dependent.2]
  decide +kernel

end Lone

end Board

end Workboard
