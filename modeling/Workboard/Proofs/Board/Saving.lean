import Workboard.Proofs.Board.Lone
import Workboard.Proofs.Task.Framing
import Workboard.Proofs.Task.Rereading
import Workboard.Proofs.Yaml.Endings

/-!
# Saving a task and loading it

The delimiter line that ends the front matter of a record is always the one that was written, whatever
the fields and the body hold. So the body comes back as it was, and the fields as the front matter is
read; but a front matter whose last line has another end than a line feed is read with one more. Main
statement: a task that is saved is loaded again exactly if its front matter stands for it, as it was
written or, where its last string ends so, with that line feed.
-/
namespace Workboard

namespace Record
open Yaml
variable {t u : Task}

/-- The fields of a task as they are written, up to the end of the last line. -/
def emitted (t : Task) : List Char := Printer.node none .root (frontMatter t)

/-- The front matter is read as the fields of the task. -/
def IsFrontOf (front : List Char) (t : Task) : Prop :=
  (Fields.ofText? (.ofList front)).bind (·.task? t.body) = some t

instance (front : List Char) (t : Task) : Decidable (IsFrontOf front t) :=
  inferInstanceAs (Decidable (_ = _))

/-- The last string of the front matter is a block whose last line has another end than a line feed. -/
def EndsOddly (t : Task) : Prop := (frontMatter t).EndsOddly

theorem endsOddly_iff : EndsOddly t ↔ (emitted t).getLast? ≠ some '\n' := (tellsEnd (frontMatter t) none .root).2.symm

theorem frontLines_eq (h : ¬ EndsOddly t) : frontLines t = emitted t :=
  if_pos (not_not.mp (mt endsOddly_iff.mpr h))

theorem frontLines_eq_feed (h : EndsOddly t) : frontLines t = emitted t ++ ['\n'] := if_neg (endsOddly_iff.mp h)

/-- No line of a front matter is a delimiter. -/
theorem not_isRule_of_mem_lines {l : List Char} (h : l ∈ lines (emitted t)) : ¬ IsRule l := by
  have hclear : isClear true (Printer.entries 0 0 (entriesOf t) ++ []) = true :=
    isClear_entries (fun e _ => ⟨isClear_value e.1, isClear_value e.2⟩) 0 0 rfl
  have htext : emitted t = Printer.entries 0 0 (entriesOf t) ++ [] := by
    have hfilled : (entriesOf t).isEmpty = false := rfl
    simp [emitted, frontMatter_eq, Printer.node, hfilled, Printer.opening, Printer.Place.root, Printer.Place.lead,
      Printer.entryMargin]
  rw [htext] at h
  exact isDelimiter_eq_false_iff.mp (not_isDelimiter_of_isClear hclear l h)

/-- A record is cut where it was joined. -/
theorem parse_render (t : Task) : parse (render t) = ofParts (frontLines t) t.body.toList := by
  obtain ⟨e, es, hes⟩ : ∃ e es, entriesOf t = e :: es := ⟨_, _, rfl⟩
  obtain ⟨-, -, -, -, hend, hclear⟩ := exists_frontLines_eq (frontMatter_eq t) (by simp [hes])
  have htext : (render t).toList = ['-', '-', '-', '\n'] ++
      (frontLines t ++ (['-', '-', '-', '\n'] ++ t.body.toList)) := by
    simp [render]
  rw [parse_eq, htext, split_ruled, cut?_ruled hclear hend]
  simp only [Except.bind]

theorem parse_render_eq_ok : parse (render t) = .ok t ↔ IsFrontOf (frontLines t) t := by
  rw [parse_render, ofParts, String.ofList_toList, IsFrontOf]
  cases (Fields.ofText? (.ofList (frontLines t))).bind (·.task? t.body) <;> simp

theorem body_of_parse_render (h : parse (render t) = .ok u) : u.body = t.body := by
  rw [parse_render] at h
  rw [body_of_ofParts h, String.ofList_toList]

end Record

namespace Records
open Workboard.Action Record
variable {w : World Files} {root : Path} {t : Task}

/-- A task that is saved has its record. -/
theorem runIn_save (hid : isValidId t.id = true) (hopen : w.store.refusing = []) (root : Path) :
    ∃ w', (save root t).run.runIn w = (.ok (), w') ∧ w'.store.refusing = [] ∧
      w'.store.text? (path root t.id).names = some (render t) := by
  have hcheck : (checkId t.id).run.runIn w = (.ok (), w) := by
    rw [checkId, if_pos hid]
    rfl
  refine ⟨_, (runIn_bind_ok hcheck).trans (runIn_replace hopen _ _), hopen, ?_⟩
  rw [Files.text?_replaced (isPublic_path root t.id), if_pos rfl]

/-- A task that is saved is loaded again exactly if its front matter stands for it. The front matter is
read as it was written, but for a line feed behind a last string that ends with another line end. -/
theorem save_then_load (root : Path) (hid : isValidId t.id = true) (hopen : w.store.refusing = []) :
    let saved := (save root t).run.runIn w
    let loaded := (load root t.id).run.runIn saved.2
    let again := (save root t).run.runIn loaded.2
    saved.1 = .ok () ∧ (∀ l ∈ lines (emitted t), ¬ IsRule l) ∧
      (∀ u, loaded.1 = .ok u → u.id = t.id ∧ u.body = t.body) ∧
      (¬ EndsOddly t → (loaded.1 = .ok t ↔ IsFrontOf (emitted t) t)) ∧
      (EndsOddly t → (loaded.1 = .ok t ↔ IsFrontOf (emitted t ++ ['\n']) t)) ∧
      again.1 = .ok () ∧
      again.2.store.text? (path root t.id).names = saved.2.store.text? (path root t.id).names := by
  obtain ⟨w', hsaved, hopen', htext⟩ := runIn_save hid hopen root
  obtain ⟨w'', hagain, -, htext'⟩ := runIn_save hid hopen' root
  intro saved loaded again
  have hloads : loadAt w'.store root t.id = read t.id (render t) := by
    rw [loadAt, hid, htext, if_pos rfl]
  have hsaved' : saved = (.ok (), w') := hsaved
  have hloaded : loaded = (read t.id (render t), w') := by
    rw [← hloads, ← runIn_load, ← show saved.2 = w' by rw [hsaved']]
  have hagain' : again = (.ok (), w'') := by
    rw [← hagain, ← show loaded.2 = w' by rw [hloaded]]
  clear_value again loaded saved
  subst hsaved' hloaded hagain'
  dsimp only
  have hiff : read t.id (render t) = .ok t ↔ IsFrontOf (frontLines t) t := by
    rw [← parse_render_eq_ok]
    refine ⟨parse_of_read, fun h => ?_⟩
    simp [read, h]
  have hparts : ∀ u, read t.id (render t) = .ok u → u.id = t.id ∧ u.body = t.body := fun u hu =>
    ⟨id_of_read hu, body_of_parse_render (parse_of_read hu)⟩
  refine ⟨rfl, fun l hl => not_isRule_of_mem_lines hl, hparts, fun h => ?_, fun h => ?_, rfl, htext'.trans htext.symm⟩
  · rw [hiff, frontLines_eq h]
  · rw [hiff, frontLines_eq_feed h]

/-- The body of this task looks like a record itself. -/
def nested : Task := { Lone.task with body := "\uFEFF---\r\nid: b\n--- \n---" }

theorem save_then_load_nested :
    let saved := (save Lone.board.root nested).run.runIn Lone.world
    saved.1 = .ok () ∧ ((load Lone.board.root nested.id).run.runIn saved.2).1 = .ok nested := by
  obtain ⟨hsaved, -, -, hiff, -⟩ := save_then_load (t := nested) (w := Lone.world) Lone.board.root (by decide) rfl
  have hfeed : ¬ EndsOddly nested := fun h => endsOddly_iff.mp h (by decide +kernel)
  exact ⟨hsaved, (hiff hfeed).mpr (by decide +kernel)⟩

/-- The value of the last field of this task ends with a line feed and a line separator. -/
def separated : Task := { Lone.task with extra := .ofList [("x", .str "p\n\u2028")] }

/-- The task as it is loaded. -/
def gained : Task := { separated with extra := .ofList [("x", .str "p\n\u2028\n")] }

/-- The front matter of the task stands for it as it is written, and is read with one more line feed. -/
theorem line_feed_gained :
    let saved := (save Lone.board.root separated).run.runIn Lone.world
    isValidId separated.id = true ∧ IsFrontOf (emitted separated) separated ∧
      (∀ l ∈ lines (emitted separated), ¬ IsRule l) ∧ saved.1 = .ok () ∧
      ((load Lone.board.root separated.id).run.runIn saved.2).1 = .ok gained ∧ gained ≠ separated := by
  have hfront : IsFrontOf (emitted separated) separated := by decide +kernel
  have hruns : ((save Lone.board.root separated).run.runIn Lone.world).1 = .ok () ∧
      ((load Lone.board.root separated.id).run.runIn
        ((save Lone.board.root separated).run.runIn Lone.world).2).1 = .ok gained := by
    decide +kernel
  exact ⟨by decide, hfront, fun l hl => not_isRule_of_mem_lines hl, hruns.1, hruns.2, by decide +kernel⟩

end Records

end Workboard
