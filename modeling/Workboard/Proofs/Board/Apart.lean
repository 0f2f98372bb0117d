import Workboard.Proofs.Board.Listed
import Workboard.Proofs.Interleaving.Sparing

/-!
# Files that are replaced apart from each other

A text is put in place of a file by way of a hidden file beside it. Main statement: if the hidden
file was not there before and can be written, then the text is put in place and nothing else changes,
or the place cannot be written and nothing changes; to save a task never touches the record of another
task or any lock; and a hidden file is never listed, as a record or as a lock.
-/
namespace Workboard

namespace Action
variable {α : Type} {names : List String}

/-- The text stands at the path and nothing else has changed, or the path cannot be written and
nothing has changed. -/
structure AllOrNothing (w : World Files) (p : Path) (s : String) (r : Except Error Unit)
    (w' : World Files) : Prop where
  ok_iff : r = .ok () ↔ p.names ∉ w.store.refusing
  text : r = .ok () → w'.store.text? = Function.update w.store.text? p.names (some s)
  refusing : w'.store.refusing = w.store.refusing
  kept : r ≠ .ok () → w' = w

theorem allOrNothing_replaceBy {w : World Files} {staged : Path} (hunused : w.store.text? staged.names = none)
    (hwritable : staged.names ∉ w.store.refusing) (p : Path) (s : String) :
    AllOrNothing w p s ((replaceBy staged p s).run.runIn w).1 ((replaceBy staged p s).run.runIn w).2 := by
  rw [runIn_replaceBy_of_unused hunused, if_neg hwritable]
  split
  · rename_i hmem
    exact {
      ok_iff := iff_of_false (fun h => by cases h) (not_not.mpr hmem)
      text := fun h => by cases h
      refusing := rfl
      kept := fun _ => rfl }
  · rename_i hmem
    exact {
      ok_iff := iff_of_true rfl hmem
      text := fun _ => by
        funext names
        rw [Files.text?_put, Function.update_apply]
      refusing := rfl
      kept := fun h => absurd rfl h }

/-- No call of the action touches the file, whatever its calls are answered; and if nobody else
acts, the file is the same afterwards. -/
structure Avoids (names : List String) (a : Action α) : Prop where
  calls : a.Makes (Call.Spares names)
  text : ∀ w : World Files, (a.run.runIn w).2.store.text? names = w.store.text? names

theorem text?_runIn {p : Program α} (h : p.Makes (Call.Spares names)) (w : World Files) :
    (p.runIn w).2.store.text? names = w.store.text? names := by
  induction p generalizing w with
  | done a => rfl
  | ask c next ih => exact (ih _ (h.2 _) _).trans ((c.yields_answer w).text_of_spares h.1)

theorem Makes.avoids {a : Action α} (h : a.Makes (Call.Spares names)) : a.Avoids names :=
  ⟨h, text?_runIn h⟩

end Action

namespace Records
open Workboard.Action
variable {root : Path} {t : Task} {names : List String} {w v : World Files}

/-- A task is saved without a touch on any other public file. -/
theorem makes_save (hpub : IsPublic names) (hne : (path root t.id).names ≠ names) :
    (save root t).Makes (Call.Spares names) := by
  have hcheck : (checkId t.id).Makes (Call.Spares names) :=
    (Program.Quiet.makes_looks (quiet_checkId t.id)).mono fun _ hc => hc.spares names
  exact hcheck.bind fun _ => makes_replace hpub hne

/-- The list of the ids depends on the public files only. -/
theorem ids_congr (hw : w.store.Proper) (h : w.store.SamePublic v.store) (root : Path) :
    ((ids root).run.runIn v).1 = ((ids root).run.runIn w).1 := by
  rw [runIn_ids, runIn_ids, idsAt_congr hw (h.proper hw) fun id => by rw [h.text _ (isPublic_path root id)]]

end Records

namespace Locks
variable {w v : World Files}

/-- The list of the locks depends on the clock and the public files only. -/
theorem all_congr (hw : w.store.Proper) (h : w.store.SamePublic v.store) (hclock : v.clock = w.clock)
    (root : Path) : ((all root).run.runIn v).1 = ((all root).run.runIn w).1 := by
  have htext : ∀ id, v.store.text? (path root id).names = w.store.text? (path root id).names :=
    fun id => h.text _ (isPublic_path root id)
  have hslot : ∀ id, slotAt v.store (path root id) = slotAt w.store (path root id) :=
    fun id => slotAt_congr (htext id)
  have hids : readableIds v.store root = readableIds w.store root := by
    have hsome : ∀ id, (v.store.text? (path root id).names).isSome = (w.store.text? (path root id).names).isSome :=
      fun id => by rw [htext]
    simp only [readableIds, hslot]
    rw [idsAt, idsAt, Records.idsOfNames_congr (c := 'k') (by decide) (by decide) (by decide) hw
      (h.proper hw) hsome]
  obtain ⟨locks, hrun, hlocks⟩ := exists_of_all w root
  obtain ⟨locks', hrun', hlocks'⟩ := exists_of_all v root
  rw [hids] at hlocks'
  have heq : List.Forall₂ Eq locks' locks := by
    refine (forall₂_of_common hlocks' hlocks).imp ?_
    rintro _ _ ⟨id, ⟨r', hr', rfl⟩, r, hr, rfl⟩
    rw [hslot, hr] at hr'
    cases hr'
    rw [hclock]
  rw [List.forall₂_eq_eq_eq] at heq
  rw [hrun, hrun', heq]

end Locks

namespace Board
open Workboard.Action

/-- With any token, if the hidden file is not there and may be written, a file is replaced whole or
nothing changes; a save avoids the records of other tasks and all locks; and a hidden file is neither
the file of a record or a lock, nor does it make a difference to the lists of both. -/
theorem replaced_apart (p : Path) (s : String) :
    (∃ rest : String → Program (Except Error Unit), (replace p s).run = .ask .token rest ∧
      ∀ (token : String) (w : World Files), w.store.text? (p.staged token).names = none →
        (p.staged token).names ∉ w.store.refusing →
          AllOrNothing w p s ((rest token).runIn w).1 ((rest token).runIn w).2) ∧
    (∀ (root : Path) (t : Task) (id : String),
      (id ≠ t.id → (Records.save root t).Avoids (Records.path root id).names) ∧
        (Records.save root t).Avoids (Locks.path root id).names) ∧
    ∀ (token : String) (root : Path),
      (∀ id, (Records.path root id).names ≠ (p.staged token).names ∧
        (Locks.path root id).names ≠ (p.staged token).names) ∧
      ∀ w : World Files, w.store.Proper →
        let hidden := { w with store := w.store.put (p.staged token).names s }
        ((Records.ids root).run.runIn hidden).1 = ((Records.ids root).run.runIn w).1 ∧
          ((Locks.all root).run.runIn hidden).1 = ((Locks.all root).run.runIn w).1 := by
  refine ⟨⟨fun token => (replaceBy (p.staged token) p s).run, rfl, fun token w hunused hwritable =>
    allOrNothing_replaceBy hunused hwritable p s⟩, fun root t id => ⟨fun hne => ?_, ?_⟩,
    fun token root => ⟨fun id => ⟨?_, ?_⟩, fun w hw => ?_⟩⟩
  · exact (Records.makes_save (Records.isPublic_path root id)
      fun h => hne (Records.eq_of_names_path h).symm).avoids
  · exact (Records.makes_save (Locks.isPublic_path root id) (Records.names_path_ne_lock root t.id id)).avoids
  · exact fun h => Records.isPublic_path root id token (h ▸ hiddenBy_staged p token)
  · exact fun h => Locks.isPublic_path root id token (h ▸ hiddenBy_staged p token)
  · have hsame : w.store.SamePublic (w.store.put (p.staged token).names s) :=
      Files.samePublic_put (hiddenBy_staged p token) s
    intro hidden
    exact ⟨Records.ids_congr (v := hidden) hw hsame root, Locks.all_congr (v := hidden) hw hsame rfl root⟩

/-- The board with one task, when its record cannot be written. -/
def fixed : World Files :=
  { Lone.world with store := { Lone.world.store with refusing := [(Records.path Lone.board.root "a").names] } }

theorem replaced_apart_lone :
    let p := Records.path Lone.board.root "a"
    let staged := (p.staged "0").names
    Lone.world.store.text? staged = none ∧ staged ∉ Lone.world.store.refusing ∧
    fixed.store.text? staged = none ∧ staged ∉ fixed.store.refusing ∧ Lone.world.store.Proper ∧
    "a.md" ≠ Lone.task.id ∧
    (∃ rest : String → Program (Except Error Unit), (replace p "text").run = .ask .token rest ∧
      ((rest "0").runIn Lone.world).1 = .ok () ∧
      ((rest "0").runIn Lone.world).2.store.text? =
        Function.update Lone.world.store.text? p.names (some "text") ∧
      ((rest "0").runIn fixed).1 ≠ .ok () ∧ ((rest "0").runIn fixed).2 = fixed) ∧
    (Records.save Lone.board.root Lone.task).Avoids (Records.path Lone.board.root "a.md").names ∧
    ((Records.ids Lone.board.root).run.runIn
      { Lone.world with store := Lone.world.store.put staged "text" }).1 = .ok ["a"] := by
  have hunused : Lone.world.store.text? ((Records.path Lone.board.root "a").staged "0").names = none := by decide
  have hwritable : ((Records.path Lone.board.root "a").staged "0").names ∉ fixed.store.refusing := by decide
  have hids : ((Records.ids Lone.board.root).run.runIn Lone.world).1 = .ok ["a"] := by decide +kernel
  obtain ⟨⟨rest, hrest, hwhole⟩, havoids, hhidden⟩ :=
    replaced_apart (Records.path Lone.board.root "a") "text"
  have hopen := hwhole "0" Lone.world hunused List.not_mem_nil
  have hfixed := hwhole "0" fixed hunused hwritable
  have hok := hopen.ok_iff.mpr List.not_mem_nil
  have hfail : ((rest "0").runIn fixed).1 ≠ .ok () :=
    fun h => hfixed.ok_iff.mp h (List.mem_singleton_self _)
  have hlists := (hhidden "0" Lone.board.root).2 Lone.world Lone.steady_world.proper
  exact ⟨hunused, List.not_mem_nil, hunused, hwritable, Lone.steady_world.proper, by decide,
    ⟨rest, hrest, hok, hopen.text hok, hfail, hfixed.kept hfail⟩,
    (havoids Lone.board.root Lone.task "a.md").1 (by decide), hlists.1.trans hids⟩

end Board

end Workboard
