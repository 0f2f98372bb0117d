import Workboard.Proofs.Board.Acyclic
import Workboard.Proofs.Board.Inheriting

/-!
# Where tasks come from

Who comes from whom is written twice when a task is split off: first in the record of the new task,
and then in that of its parent. Nothing else writes it, and the new task has an id that had no
record, so nobody comes from it yet. Main statement: after any turns on an empty board in which
every write succeeds, both directions agree, and no task comes from itself.
-/
namespace Workboard
open Relation

/-- The births of tasks, the last one first: the id of the new task, and the one that it was split
off from. -/
abbrev Births : Type := List (String × Option String)

namespace Births
variable {births : Births} {id child parent : String} {origin origin' : Option String}

def ids (births : Births) : List String := births.map Prod.fst

/-- The tasks that were split off from one, in the order of their births. -/
def children (births : Births) (parent : String) : List String :=
  ((births.filter fun birth => birth.2 = some parent).map Prod.fst).reverse

theorem mem_ids (h : (id, origin) ∈ births) : id ∈ births.ids := List.mem_map_of_mem h

theorem mem_children : child ∈ births.children parent ↔ (child, some parent) ∈ births := by
  simp [children]

theorem children_cons_self : Births.children ((id, some parent) :: births) parent = births.children parent ++ [id] := by
  simp [children]

theorem children_cons_of_ne (h : origin ≠ some parent) :
    Births.children ((id, origin) :: births) parent = births.children parent := by
  simp [children, h]

/-- Every task is born once, under an id that can name a record, and is split off from one that was born
before. -/
inductive Ordered : Births → Prop
  | nil : Ordered []
  | cons {births : Births} {id : String} {origin : Option String} (hvalid : isValidId id = true)
      (hnew : id ∉ births.ids) (horigin : ∀ p, origin = some p → p ∈ births.ids) (h : Ordered births) :
      Ordered ((id, origin) :: births)

namespace Ordered

theorem nodup_ids (h : Ordered births) : births.ids.Nodup := by
  induction h with
  | nil => exact List.nodup_nil
  | cons _ hnew _ _ ih => exact List.nodup_cons.mpr ⟨hnew, ih⟩

theorem isValidId_of_mem (h : Ordered births) (hid : id ∈ births.ids) : isValidId id = true := by
  induction h with
  | nil => cases hid
  | cons hvalid _ _ _ ih =>
    obtain rfl | hid := List.mem_cons.mp hid
    · exact hvalid
    · exact ih hid

theorem nodup_children (h : Ordered births) (parent : String) : (births.children parent).Nodup :=
  List.nodup_reverse.mpr (h.nodup_ids.sublist (List.filter_sublist.map _))

/-- A task has one origin. -/
theorem origin_eq (h : Ordered births) (hid : (id, origin) ∈ births) (hid' : (id, origin') ∈ births) :
    origin = origin' :=
  congrArg Prod.snd (List.inj_on_of_nodup_map h.nodup_ids hid hid' rfl)

theorem mem_ids_of_origin (h : Ordered births) (hchild : (child, some parent) ∈ births) : parent ∈ births.ids := by
  induction h with
  | nil => cases hchild
  | cons _ _ horigin _ ih =>
    obtain heq | hchild := List.mem_cons.mp hchild
    · exact List.mem_cons_of_mem _ (horigin parent (congrArg Prod.snd heq).symm)
    · exact List.mem_cons_of_mem _ (ih hchild)

/-- What the births tell of a task is told by ids that can name records. -/
theorem hasValidKin {t : Task} (h : Ordered births) (hborn : (t.id, t.spawnedFrom) ∈ births)
    (hchildren : t.spawnedTasks = births.children t.id) : t.HasValidKin := by
  refine ⟨fun p hp => ?_, fun c hc => ?_⟩
  · rw [hp] at hborn
    exact h.isValidId_of_mem (h.mem_ids_of_origin hborn)
  · rw [hchildren, mem_children] at hc
    exact h.isValidId_of_mem (mem_ids hc)

/-- Nobody comes from a task that was not born. -/
theorem children_eq_nil (h : Ordered births) (hid : id ∉ births.ids) : births.children id = [] :=
  List.eq_nil_iff_forall_not_mem.mpr fun _ hchild => hid (h.mem_ids_of_origin (mem_children.mp hchild))

/-- Nobody comes from the last task that was born, so it is on no cycle. -/
theorem acyclic (h : Ordered births) (id : String) : ¬ TransGen (fun x y => (x, some y) ∈ births) id id := by
  induction h generalizing id with
  | nil =>
    intro hcycle
    obtain ⟨_, -, hlast⟩ := TransGen.tail'_iff.mp hcycle
    cases hlast
  | @cons births new origin _ hnew horigin h ih =>
    have hnone : ∀ x, (x, some new) ∉ (new, origin) :: births := by
      intro x hx
      obtain heq | hx := List.mem_cons.mp hx
      · exact hnew (horigin new (congrArg Prod.snd heq).symm)
      · exact hnew (h.mem_ids_of_origin hx)
    refine fun hcycle => ih id (transGen_of_not_through (x := new) (fun x y hxy hx _ => ?_) (fun hself => ?_) hcycle)
    · exact (List.mem_cons.mp hxy).resolve_left fun heq => hx (congrArg Prod.fst heq)
    · obtain ⟨x, -, hlast⟩ := TransGen.tail'_iff.mp hself
      exact hnone x hlast

end Ordered

end Births

namespace Board
open Workboard.Action
variable {b : Board} {w w' : World Files} {births births' : Births} {id : String} {t : Task}

/-- The record of the id, if there is one, tells where the task comes from and who comes from it. -/
def Tells (b : Board) (births : Births) (w : World Files) (id : String) : Prop :=
  ∀ text, w.store.text? (Records.path b.root id).names = some text → ∃ t, text = Record.render t ∧ t.id = id ∧
    t.NamesApart ∧ (id, t.spawnedFrom) ∈ births ∧ t.spawnedTasks = births.children id

theorem Tells.of_loadAt (hordered : births.Ordered) (h : b.Tells births w id)
    (hload : Records.loadAt w.store b.root id = .ok t) :
    (id, t.spawnedFrom) ∈ births ∧ t.spawnedTasks = births.children id := by
  obtain ⟨-, text, htext, hread⟩ := Records.loadAt_eq_ok.mp hload
  obtain ⟨u, rfl, rfl, hnames, hborn, hchildren⟩ := h text htext
  obtain ⟨hfrom, htasks⟩ := (Task.kin_of_parse_render hnames (Records.parse_of_read hread)).spawned_eq
    (hordered.hasValidKin hborn hchildren)
  rw [hfrom, htasks]
  exact ⟨hborn, hchildren⟩

theorem Tells.inherits (hordered : births.Ordered) (h : b.Tells births w id) (hw : b.Inherits w w') :
    b.Tells births w' id := by
  intro text htext
  obtain hsame | ⟨t, u, ht, hkin, hwritten⟩ := hw.record id
  · exact h text (hsame ▸ htext)
  · obtain ⟨hborn, hchildren⟩ := h.of_loadAt hordered ht
    obtain rfl := Records.id_of_loadAt ht
    obtain ⟨hfrom, htasks⟩ := hkin.spawned_eq (hordered.hasValidKin hborn hchildren)
    rw [hwritten] at htext
    refine ⟨u, (Option.some.inj htext).symm, hkin.id_eq, hkin.namesApart (namesApart_of_loadAt ht), ?_,
      htasks.trans hchildren⟩
    rwa [hfrom]

/-- The births of others leave the record of a task right. -/
theorem Tells.mono (h : b.Tells births w id)
    (hsame : w'.store.text? (Records.path b.root id).names = w.store.text? (Records.path b.root id).names)
    (hsub : births ⊆ births') (hchildren : births'.children id = births.children id) : b.Tells births' w' id := by
  intro text htext
  obtain ⟨t, rfl, hid, hnames, hborn, htasks⟩ := h text (hsame ▸ htext)
  exact ⟨t, rfl, hid, hnames, hsub hborn, htasks.trans hchildren.symm⟩

theorem tells_of_saved (hnames : t.NamesApart) (hborn : (t.id, t.spawnedFrom) ∈ births)
    (hchildren : t.spawnedTasks = births.children t.id)
    (htext : w.store.text? (Records.path b.root t.id).names = some (Record.render t)) : b.Tells births w t.id := by
  intro text heq
  rw [htext] at heq
  exact ⟨t, (Option.some.inj heq).symm, rfl, hnames, hborn, hchildren⟩

/-- The records are those of the tasks that were born, and tell where each comes from; the one of
`pending`, if any, has not been told of its last child yet. -/
structure Lineage (b : Board) (pending : Option String) (births : Births) (w : World Files) : Prop where
  ordered : births.Ordered
  kept : ∀ id ∈ births.ids, (w.store.text? (Records.path b.root id).names).isSome = true
  tells : ∀ id, pending ≠ some id → b.Tells births w id

theorem Lineage.inherits {pending : Option String} (h : b.Lineage pending births w) (hw : b.Inherits w w') :
    b.Lineage pending births w' :=
  ⟨h.ordered, fun id hid => hw.isSome (h.kept id hid), fun id hid => (h.tells id hid).inherits h.ordered hw⟩

theorem Lineage.of_mem_tasks (h : b.Lineage none births w) (ht : t ∈ b.tasks w) :
    (t.id, t.spawnedFrom) ∈ births ∧ t.spawnedTasks = births.children t.id :=
  (h.tells t.id (fun hpending => nomatch hpending)).of_loadAt h.ordered (Records.mem_allAt.mp ht)

/-- A task is born with its record, under an id that had none. -/
theorem Lineage.born (h : b.Lineage none births w) (hvalid : isValidId t.id = true) (hparent : ∀ p, t.spawnedFrom = some p → p ∈ births.ids)
    (hnames : t.NamesApart) (hnone : w.store.text? (Records.path b.root t.id).names = none)
    (htasks : t.spawnedTasks = []) (hw' : w.Becomes w' (Function.update w.store.text?
      (Records.path b.root t.id).names (some (Record.render t)))) :
    b.Lineage t.spawnedFrom ((t.id, t.spawnedFrom) :: births) w' := by
  have hnew : t.id ∉ births.ids := by
    intro hmem
    have hsome := h.kept t.id hmem
    rw [hnone] at hsome
    cases hsome
  have hself : w'.store.text? (Records.path b.root t.id).names = some (Record.render t) := by
    rw [hw'.text, Function.update_self]
  have hother : ∀ id, id ≠ t.id →
      w'.store.text? (Records.path b.root id).names = w.store.text? (Records.path b.root id).names := by
    intro id hid
    rw [hw'.text]
    exact Function.update_of_ne (fun heq => hid (Records.eq_of_names_path heq)) _ _
  refine ⟨.cons hvalid hnew hparent h.ordered, fun id hid => ?_, fun id hpending => ?_⟩
  · obtain rfl | hid := List.mem_cons.mp hid
    · rw [hself, Option.isSome_some]
    · rw [hother id fun heq => hnew (heq ▸ hid)]
      exact h.kept id hid
  · have hchildren : Births.children ((t.id, t.spawnedFrom) :: births) id = births.children id :=
      Births.children_cons_of_ne hpending
    by_cases hid : id = t.id
    · subst hid
      refine tells_of_saved hnames List.mem_cons_self ?_ hself
      rw [htasks, hchildren, h.ordered.children_eq_nil hnew]
    · exact (h.tells id fun hnone => nomatch hnone).mono (hother id hid) (List.subset_cons_self _ _) hchildren

/-- The parent is told of its last child. -/
theorem Lineage.told (h : b.Lineage (some t.id) births w) (hnames : t.NamesApart)
    (hborn : (t.id, t.spawnedFrom) ∈ births) (htasks : t.spawnedTasks = births.children t.id)
    (hw' : w.Becomes w' (Function.update w.store.text? (Records.path b.root t.id).names (some (Record.render t)))) :
    b.Lineage none births w' := by
  have hsaved : Records.Saved w.store w'.store b.root t := hw'.text
  refine ⟨h.ordered, fun id hid => ?_, fun id _ => ?_⟩
  · rw [hw'.text]
    by_cases heq : id = t.id
    · rw [heq, Function.update_self, Option.isSome_some]
    · rw [Function.update_of_ne fun hnames => heq (Records.eq_of_names_path hnames)]
      exact h.kept id hid
  · by_cases heq : id = t.id
    · subst heq
      refine tells_of_saved hnames hborn htasks ?_
      rw [hw'.text, Function.update_self]
    · refine (h.tells id fun hpending => heq (Option.some.inj hpending).symm).mono ?_ (List.Subset.refl _) rfl
      rw [hw'.text]
      exact Function.update_of_ne (fun hnames => heq (Records.eq_of_names_path hnames)) _ _

section Operations
variable (hw : w.Steady) (h : b.Lineage none births w)
include hw h

/-- A task that is inserted is born, and its parent has not been told yet; otherwise nothing has changed. -/
theorem ends_insert_born (n : NewTask) (parent : Option String) (hparent : ∀ p, parent = some p → p ∈ births.ids) :
    (b.insert n parent).Ends w fun r w' => w.Continues w' ∧ match r with
      | .error _ => b.Lineage none births w'
      | .ok t => b.Lineage parent ((t.id, parent) :: births) w' := by
  have hsame : ∀ w', w.Becomes w' w.store.text? → w.Continues w' ∧ b.Lineage none births w' := fun w' hw' =>
    ⟨hw'.toContinues, h.inherits (inherits_of_same hw')⟩
  refine ends_insert_new hw (fun _ _ w' hw' => hsame w' hw') (fun _ _ w' _ _ hw' => hsame w' hw')
    (fun _ _ w' _ _ _ hw' => hsame w' hw') fun t w₁ hnew _ hvalid hnone hw₁ => ?_
  obtain ⟨rfl, htasks, hextra⟩ := origin_of_newTask hnew
  have hnames : t.NamesApart := by
    rw [Task.NamesApart, hextra]
    exact fun e he => absurd he List.not_mem_nil
  rw [← (of_newTask hnew).1] at hvalid hnone hw₁ ⊢
  have hborn := h.born hvalid hparent hnames hnone htasks hw₁
  refine (ends_link_inheriting hw₁.steady t.id t.requires ∅).mono ?_
  rintro r w₂ ⟨rfl, hw₂⟩
  rw [andThen_ok]
  exact ends_pure ⟨hw₁.toContinues.trans hw₂.toContinues, hborn.inherits hw₂⟩

/-- A task is split off: it is born, and its parent is told, which cannot fail where nothing is
refused. -/
theorem ends_spawn_born (hopen : w.store.refusing = []) (parent : String) (n : NewTask) :
    (b.spawn parent n).Ends w fun _ w' => w.Continues w' ∧ ∃ births', b.Lineage none births' w' := by
  refine ends_bind (Records.ends_load ?_)
  cases hload : Records.loadAt w.store b.root parent with
  | error e => exact ⟨hw.continues_self, births, h⟩
  | ok p =>
    obtain rfl := Records.id_of_loadAt hload
    obtain ⟨hborn, htasks⟩ := (h.tells p.id fun hpending => nomatch hpending).of_loadAt h.ordered hload
    obtain ⟨hvalid, -⟩ := Records.loadAt_eq_ok.mp hload
    rw [andThen_ok]
    split
    · exact ends_throw ⟨hw.continues_self, births, h⟩
    have hparent : ∀ q, some p.id = some q → q ∈ births.ids := by
      intro q hq
      obtain rfl := Option.some.inj hq
      exact Births.mem_ids hborn
    refine ends_bind ((ends_insert_born hw h n _ hparent).mono fun r w₁ hw₁ => ?_)
    cases r with
    | error e => exact ⟨hw₁.1, births, hw₁.2⟩
    | ok child =>
      obtain ⟨hcontinues, hchild⟩ := hw₁
      rw [andThen_ok]
      refine ends_bind (ends_now ?_)
      rw [andThen_ok]
      refine ends_bind (Records.ends_save (t := p.withChild child.id w₁.clock) hcontinues.steady
        (fun e w₂ hrefuses _ => ?_) fun w₂ _ _ hw₂ => ?_)
      · obtain ⟨names, hmem, -⟩ := hrefuses hvalid
        rw [hcontinues.refusing, hopen] at hmem
        cases hmem
      · rw [andThen_ok]
        have hnames : p.NamesApart := namesApart_of_loadAt hload
        have hchildren : p.spawnedTasks ++ [child.id] = Births.children ((child.id, some p.id) :: births) p.id := by
          rw [htasks, Births.children_cons_self]
        have htold : b.Lineage none ((child.id, some p.id) :: births) w₂ :=
          Lineage.told (t := p.withChild child.id w₁.clock) hchild hnames (List.mem_cons_of_mem _ hborn) hchildren hw₂
        exact ends_pure ⟨hcontinues.trans hw₂.toContinues, _, htold⟩

/-- Whatever is done where nothing is refused, the records tell of the births that there were. -/
theorem Operation.lineage (hopen : w.store.refusing = []) (op : Operation) :
    w.Continues (op.perform b w) ∧ ∃ births', b.Lineage none births' (op.perform b w) := by
  by_cases hop : op.IsInheriting
  · have hinherits : b.Inherits w (op.perform b w) := Operation.inherits hw hop
    exact ⟨hinherits.toContinues, births, h.inherits hinherits⟩
  cases op with
  | create n =>
    have hends : (b.create n).Ends w fun _ w' => w.Continues w' ∧ ∃ births', b.Lineage none births' w' := by
      refine (ends_insert_born hw h n none fun p hp => nomatch hp).mono fun r w' hw' => ⟨hw'.1, ?_⟩
      cases r with
      | error e => exact ⟨births, hw'.2⟩
      | ok t => exact ⟨_, hw'.2⟩
    exact hends
  | spawn parent n => exact ends_spawn_born hw h hopen parent n
  | _ => exact absurd trivial hop

end Operations

theorem lineage_afterTurns (hw : w.Steady) (h : b.Lineage none births w) {turns : List Turn}
    (hturns : ∀ turn ∈ turns, turn.refusing = []) : ∃ births', b.Lineage none births' (b.afterTurns w turns) := by
  induction turns generalizing w births with
  | nil => exact ⟨births, h⟩
  | cons turn turns ih =>
    obtain ⟨hopen, hturns⟩ := List.forall_mem_cons.mp hturns
    have hopening : b.Lineage none births (turn.opening w) := ⟨h.ordered, h.kept, h.tells⟩
    obtain ⟨hcontinues, births', h'⟩ := turn.operation.lineage (turn.steady_opening hw) hopening hopen
    exact ih hcontinues.steady h' hturns

/-- After any turns on an empty board in which every write succeeds, a task comes from another one
exactly if that lists it, and then it is listed there once and nowhere else; and no task comes from
itself. -/
theorem lineage_is_forest (b : Board) {w : World Files} (hempty : w.store.entries = []) {turns : List Turn}
    (hturns : ∀ turn ∈ turns, turn.refusing = []) :
    let all := b.tasks (b.afterTurns w turns)
    (∀ c ∈ all, ∀ p ∈ all, (c.spawnedFrom = some p.id ↔ c.id ∈ p.spawnedTasks) ∧
      (c.id ∈ p.spawnedTasks → p.spawnedTasks.count c.id = 1)) ∧
    (∀ id, ∀ p ∈ all, ∀ q ∈ all, id ∈ p.spawnedTasks → id ∈ q.spawnedTasks → p = q) ∧
    ∀ id, ¬ TransGen (fun x y => ∃ t ∈ all, t.id = x ∧ t.spawnedFrom = some y) id id := by
  have hnone : ∀ names, w.store.text? names = none := fun names => by
    rw [Files.text?, hempty, List.lookup_nil]
  have hw : w.Steady := ⟨by simp [Files.Proper, hempty], fun _ names _ _ => hnone names⟩
  have hbegin : b.Lineage none [] w := by
    refine ⟨.nil, fun id hid => absurd hid List.not_mem_nil, fun id _ text htext => ?_⟩
    rw [hnone] at htext
    cases htext
  obtain ⟨births, h⟩ := lineage_afterTurns hw hbegin hturns
  intro all
  refine ⟨fun c hc p hp => ?_, fun id p hp q hq hpid hqid => ?_, fun id hcycle => ?_⟩
  · obtain ⟨hborn, -⟩ := h.of_mem_tasks hc
    obtain ⟨-, htasks⟩ := h.of_mem_tasks hp
    rw [htasks]
    refine ⟨?_, List.count_eq_one_of_mem (h.ordered.nodup_children p.id)⟩
    rw [Births.mem_children]
    exact ⟨fun heq => heq ▸ hborn, fun hchild => h.ordered.origin_eq hborn hchild⟩
  · rw [(h.of_mem_tasks hp).2, Births.mem_children] at hpid
    rw [(h.of_mem_tasks hq).2, Births.mem_children] at hqid
    have hid := Option.some.inj (h.ordered.origin_eq hpid hqid)
    have hload := Records.mem_allAt.mp hp
    rw [hid, Records.mem_allAt.mp hq] at hload
    exact (Except.ok.inj hload).symm
  · refine h.ordered.acyclic id (TransGen.mono ?_ id id hcycle)
    rintro x y ⟨t, ht, rfl, hfrom⟩
    exact hfrom ▸ (h.of_mem_tasks ht).1

section Lone

/-- One task is split off from another. -/
def splitting : List Turn := [
  ⟨Lone.begun, [], .create { id := some "a", title := "A" }⟩,
  ⟨Lone.begun, [], .spawn "a" { id := some "c", title := "C" }⟩]

theorem lineage_is_forest_splitting :
    let all := Lone.board.tasks (Lone.board.afterTurns ⟨⟨[], []⟩, Lone.begun, 0, 4, 0⟩ splitting)
    all.map (fun t => (t.id, t.spawnedFrom, t.spawnedTasks)) = [("a", none, ["c"]), ("c", some "a", [])] ∧
    ∀ id, ¬ TransGen (fun x y => ∃ t ∈ all, t.id = x ∧ t.spawnedFrom = some y) id id :=
  ⟨by decide +kernel, (lineage_is_forest Lone.board rfl (by decide)).2.2⟩

end Lone

end Board

end Workboard
