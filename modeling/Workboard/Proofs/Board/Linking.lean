import Workboard.Proofs.Board.Drafts
import Workboard.Proofs.Board.Reconciling

/-!
# Requirements and noted dependents

Who requires a task is noted in that task as well. When a task is created it is filled in from the
board, and when requirements change only the tasks are told whose dependents change. Main
statement: where the noted dependents of all tasks are right, they are right again after a task was
created or its requirements were changed.
-/
namespace Workboard

namespace Task
variable {t : Task} {dependent : String} {added : Bool} {now : Instant}

/-- The task after it was told that `dependent` requires it, or no longer does; it is changed only if
this was not noted. -/
def noted (t : Task) (dependent : String) (added : Bool) (now : Instant) : Task :=
  if dependent ∈ t.blocks ↔ added = true then t else t.noting dependent added now

@[simp] theorem requires_noted : (t.noted dependent added now).requires = t.requires := by
  unfold noted
  split <;> rfl

theorem mem_blocks_noted_true {x : String} :
    x ∈ (t.noted dependent true now).blocks ↔ x = dependent ∨ x ∈ t.blocks := by
  unfold noted
  split
  · rename_i h
    have hmem : dependent ∈ t.blocks := h.mpr rfl
    exact ⟨.inr, fun hx => hx.elim (fun heq => heq ▸ hmem) fun hx => hx⟩
  · exact TextSet.mem_insert

theorem mem_blocks_noted_false {x : String} :
    x ∈ (t.noted dependent false now).blocks ↔ x ≠ dependent ∧ x ∈ t.blocks := by
  unfold noted
  split
  · rename_i h
    have hmem : dependent ∉ t.blocks := fun hd => Bool.noConfusion (h.mp hd)
    exact ⟨fun hx => ⟨fun heq => hmem (heq ▸ hx), hx⟩, And.right⟩
  · exact TextSet.mem_erase.trans and_comm

/-- The task after a change of the requirements of `dependent`. -/
def relinkedBy (t : Task) (dependent : String) (added removed : TextSet) (now : Instant) : Task :=
  if t.id ∈ added then t.noted dependent true now
  else if t.id ∈ removed then t.noted dependent false now
  else t

/-- Nothing but `dependent` is noted in it that was not noted before, or is noted no longer. -/
theorem mem_blocks_relinkedBy {added removed : TextSet} {x : String} :
    x ∈ (t.relinkedBy dependent added removed now).blocks ↔
      if x = dependent then t.id ∈ added ∨ t.id ∉ removed ∧ x ∈ t.blocks else x ∈ t.blocks := by
  unfold relinkedBy
  by_cases hadded : t.id ∈ added
  · rw [if_pos hadded, mem_blocks_noted_true]
    split <;> simp [*]
  · rw [if_neg hadded]
    by_cases hremoved : t.id ∈ removed
    · rw [if_pos hremoved, mem_blocks_noted_false]
      split <;> simp [*]
    · rw [if_neg hremoved]
      split <;> simp [*]

@[simp] theorem requires_relinkedBy {added removed : TextSet} :
    (t.relinkedBy dependent added removed now).requires = t.requires := by
  unfold relinkedBy
  split
  · exact requires_noted
  · split
    · exact requires_noted
    · rfl

end Task

namespace Board
open Workboard.Action
variable {b : Board} {w w₁ w' : World Files} {dependent : String}

/-- Where all records can be written, each of some tasks is told of a dependent. -/
theorem ends_linkEach_noted (hw : w.Steady) (hopen : w.store.refusing = []) {added : Bool} {ids : List String}
    {now : Instant} (hnodup : ids.Nodup) (hread : ∀ d ∈ (b.tasks w).notings dependent added ids now, d.ReadsBack) :
    (b.linkEach now dependent added ids).Ends w fun r w' => r = .ok () ∧ w.Continues w' ∧
      ∀ id, Records.loadAt w'.store b.root id =
        (Records.loadAt w.store b.root id).map fun t => if id ∈ ids then t.noted dependent added now else t := by
  induction ids generalizing w with
  | nil => exact ends_pure ⟨rfl, hw.continues_self, fun id => by cases Records.loadAt w.store b.root id <;> rfl⟩
  | cons id ids ih =>
    obtain ⟨hid, hnodup⟩ := List.nodup_cons.mp hnodup
    -- the rest, once the first task was told
    have hrest : ∀ w₁, w.Continues w₁ → (∀ other, other ≠ id →
          Records.loadAt w₁.store b.root other = Records.loadAt w.store b.root other) →
        (Records.loadAt w₁.store b.root id =
          (Records.loadAt w.store b.root id).map (·.noted dependent added now)) →
        (b.linkEach now dependent added ids).Ends w₁ fun r w' => r = .ok () ∧ w.Continues w' ∧
          ∀ other, Records.loadAt w'.store b.root other = (Records.loadAt w.store b.root other).map fun t =>
            if other ∈ id :: ids then t.noted dependent added now else t := by
      intro w₁ hw₁ hothers hself
      have hnotings := @notings_subset b w w₁ dependent added ids (id :: ids) now fun other ho =>
        ⟨List.mem_cons_of_mem _ ho, hothers other fun heq => hid (heq ▸ ho)⟩
      refine (ih hw₁.steady (hw₁.refusing.trans hopen) hnodup fun d hd => hread d (hnotings hd)).mono ?_
      rintro r w' ⟨hr, hw', hload⟩
      refine ⟨hr, hw₁.trans hw', fun other => ?_⟩
      rw [hload]
      by_cases heq : other = id
      · subst heq
        rw [hself]
        cases Records.loadAt w.store b.root other <;> simp [Except.map, hid]
      · rw [hothers other heq]
        simp [heq]
    refine ends_bind (ends_linkOne hw (fun w₁ hw₁ hnoted => ?_) fun t w₁ hload hnew hw₁ => ?_)
    · refine hrest w₁ hw₁.toContinues (fun other _ => Records.loadAt_congr (congrFun hw₁.text _)) ?_
      rw [Records.loadAt_congr (congrFun hw₁.text _)]
      cases hload : Records.loadAt w.store b.root id with
      | error e => rfl
      | ok t =>
        obtain hsame | ⟨names, hmem, -⟩ := hnoted t hload
        · exact congrArg Except.ok (if_pos hsame).symm
        · rw [hopen] at hmem
          cases hmem
    · obtain rfl := Records.id_of_loadAt hload
      obtain ⟨hvalid, -⟩ := Records.loadAt_eq_ok.mp hload
      have hsaved : Records.Saved w.store w₁.store b.root (t.noting dependent added now) := hw₁.text
      have hself := hsaved.loadAt_self hvalid (hread _ (Snapshot.mem_notings.mpr
        ⟨t, Records.mem_allAt_of_loadAt hload, List.mem_cons_self, hnew, rfl⟩))
      refine hrest w₁ hw₁.toContinues (fun other ho => hsaved.loadAt_other ho) ?_
      rw [hload]
      exact hself.trans (congrArg Except.ok (if_neg hnew).symm)

/-- Where all records can be written, each task is told of the change that it has to know. -/
theorem ends_link_noted (hw : w.Steady) (hopen : w.store.refusing = []) {added removed : TextSet}
    (hdisjoint : ∀ id ∈ removed, id ∉ added)
    (hadd : ∀ d ∈ (b.tasks w).notings dependent true added.toList w.clock, d.ReadsBack)
    (hremove : ∀ d ∈ (b.tasks w).notings dependent false removed.toList w.clock, d.ReadsBack) :
    (b.link dependent added removed).Ends w fun r w' => r = .ok () ∧ w.Continues w' ∧
      ∀ id, Records.loadAt w'.store b.root id =
        (Records.loadAt w.store b.root id).map (·.relinkedBy dependent added removed w.clock) := by
  refine ends_bind (ends_now ?_)
  rw [andThen_ok]
  refine ends_bind ((ends_linkEach_noted hw hopen added.nodup hadd).mono ?_)
  rintro r w₁ ⟨rfl, hw₁, hload₁⟩
  rw [andThen_ok]
  have hsame : ∀ id, id ∉ added → Records.loadAt w₁.store b.root id = Records.loadAt w.store b.root id := by
    intro id hid
    have hid' : id ∉ added.toList := hid
    rw [hload₁]
    cases Records.loadAt w.store b.root id <;> simp [Except.map, hid']
  have hnotings := @notings_subset b w w₁ dependent false removed.toList removed.toList w.clock fun id hid =>
    ⟨hid, hsame id (hdisjoint id hid)⟩
  refine (ends_linkEach_noted hw₁.steady (hw₁.refusing.trans hopen) removed.nodup
    fun d hd => hremove d (hnotings hd)).mono ?_
  rintro r w' ⟨hr, hw', hload⟩
  refine ⟨hr, hw₁.trans hw', fun id => ?_⟩
  rw [hload, hload₁]
  cases ht : Records.loadAt w.store b.root id with
  | error e => rfl
  | ok t =>
    have hid : t.id = id := Records.id_of_loadAt ht
    have hmem : ∀ s : TextSet, id ∈ s.toList ↔ t.id ∈ s := fun s => hid ▸ Iff.rfl
    simp only [Except.map, hmem, Task.relinkedBy]
    by_cases hadded : t.id ∈ added
    · have hkept : t.id ∉ removed := fun hremoved => hdisjoint t.id hremoved hadded
      simp [hadded, hkept]
    · simp [hadded]

/-- What comes of a change of the requirements of `t`, which is told to those it requires from now on
and to those it no longer requires. -/
structure Relinks (b : Board) (w : World Files) (t : Task) (added removed : TextSet) (w' : World Files) :
    Prop where
  self : Records.loadAt w'.store b.root t.id = .ok (t.relinkedBy t.id added removed w.clock)
  others : ∀ id, id ≠ t.id → Records.loadAt w'.store b.root id =
    (Records.loadAt w.store b.root id).map (·.relinkedBy t.id added removed w.clock)

/-- Once the task itself has been saved, the others are told. -/
theorem ends_link_relinking (hopen : w.store.refusing = []) {t : Task} {added removed : TextSet}
    (hsaved : w.Becomes w₁ (Function.update w.store.text? (Records.path b.root t.id).names (some (Record.render t))))
    (hvalid : isValidId t.id = true) (hread : t.ReadsBack) (hdisjoint : ∀ id ∈ removed, id ∉ added)
    (hadd : ∀ d ∈ (b.tasks w₁).notings t.id true added.toList w.clock, d.ReadsBack)
    (hremove : ∀ d ∈ (b.tasks w₁).notings t.id false removed.toList w.clock, d.ReadsBack) :
    (b.link t.id added removed).Ends w₁ fun r w' => r = .ok () ∧ b.Relinks w t added removed w' := by
  have hput : Records.Saved w.store w₁.store b.root t := hsaved.text
  rw [← hsaved.clock] at hadd hremove
  refine (ends_link_noted hsaved.steady (hsaved.refusing.trans hopen) hdisjoint hadd hremove).mono ?_
  rintro r w' ⟨hr, -, hload⟩
  rw [hsaved.clock] at hload
  refine ⟨hr, ?_, fun id hid => ?_⟩
  · rw [hload, hput.loadAt_self hvalid hread]
    rfl
  · rw [hload, hput.loadAt_other hid]

section Mirrored
variable {t : Task} {old added removed : TextSet}

/-- Who requires an id after the change. -/
theorem Relinks.exists_requires (h : b.Relinks w t added removed w') (id other : String) :
    (∃ u, Records.loadAt w'.store b.root other = .ok u ∧ id ∈ u.requires) ↔
      if other = t.id then id ∈ t.requires
      else ∃ u, Records.loadAt w.store b.root other = .ok u ∧ id ∈ u.requires := by
  split
  · rename_i hother
    subst hother
    simp [h.self]
  · rename_i hother
    rw [h.others other hother]
    cases Records.loadAt w.store b.root other <;> simp [Except.map]

/-- A change of the requirements of `t`, which required `old` before, keeps the noted dependents
right. -/
theorem Relinks.mirrored (h : b.Relinks w t added removed w') (hmirrored : Records.Mirrored w.store b.root)
    (hold : ∀ id, id ∈ old ↔ ∃ u, Records.loadAt w.store b.root t.id = .ok u ∧ id ∈ u.requires)
    (hblocks : ∀ other, other ∈ t.blocks ↔ ∃ u, Records.loadAt w.store b.root other = .ok u ∧ t.id ∈ u.requires)
    (hadded : ∀ id, id ∈ added ↔ id ∈ t.requires ∧ id ∉ old)
    (hremoved : ∀ id, id ∈ removed ↔ id ∈ old ∧ id ∉ t.requires) : Records.Mirrored w'.store b.root := by
  intro id u hu other
  -- what was noted in the task before it was told anything
  obtain ⟨v, hvid, rfl, hbefore⟩ : ∃ v : Task, v.id = id ∧ v.relinkedBy t.id added removed w.clock = u ∧
      ∀ other, other ∈ v.blocks ↔ ∃ x, Records.loadAt w.store b.root other = .ok x ∧ id ∈ x.requires := by
    by_cases hid : id = t.id
    · subst hid
      exact ⟨t, rfl, Except.ok.inj (h.self.symm.trans hu), hblocks⟩
    · rw [h.others id hid] at hu
      cases hv : Records.loadAt w.store b.root id with
      | error e =>
        rw [hv] at hu
        cases hu
      | ok v =>
        rw [hv] at hu
        exact ⟨v, Records.id_of_loadAt hv, Except.ok.inj hu, hmirrored id v hv⟩
  rw [h.exists_requires, Task.mem_blocks_relinkedBy, hvid, hbefore]
  by_cases hother : other = t.id
  · subst hother
    rw [if_pos rfl, if_pos rfl, ← hold, hadded, hremoved]
    tauto
  · rw [if_neg hother, if_neg hother]

end Mirrored

/-- What is known of a board after the requirements of `t` were changed, which were `old` before. -/
structure Linked (b : Board) (w : World Files) (t : Task) (old : TextSet) (w' : World Files) : Prop where
  mirrored : Records.Mirrored w'.store b.root
  stored : ∃ u, Records.loadAt w'.store b.root t.id = .ok u ∧ u.requires = t.requires
  /-- Whoever is required from now on knows of it, and whoever is not required any more does not. -/
  told : ∀ id u, Records.loadAt w.store b.root id = .ok u → ∃ u', Records.loadAt w'.store b.root id = .ok u' ∧
    ∀ other, other ∈ u'.blocks ↔ if other = t.id then id ∈ t.requires else other ∈ u.blocks
  /-- Requirements that are absent are skipped, and what is required as before is left alone. -/
  unchanged : ∀ id, id ≠ t.id →
    (∀ u, Records.loadAt w.store b.root id ≠ .ok u) ∨ (id ∈ t.requires ↔ id ∈ old) →
    w'.store.text? (Records.path b.root id).names = w.store.text? (Records.path b.root id).names

section Linked
variable {t d : Task} {old added removed : TextSet} {ds : List Task} {n : NewTask} {parent : Option String}

theorem Relinks.linked (h : b.Relinks w t added removed w') (hmirrored : Records.Mirrored w.store b.root)
    (hold : ∀ id, id ∈ old ↔ ∃ u, Records.loadAt w.store b.root t.id = .ok u ∧ id ∈ u.requires)
    (hblocks : ∀ other, other ∈ t.blocks ↔ ∃ u, Records.loadAt w.store b.root other = .ok u ∧ t.id ∈ u.requires)
    (hadded : ∀ id, id ∈ added ↔ id ∈ t.requires ∧ id ∉ old)
    (hremoved : ∀ id, id ∈ removed ↔ id ∈ old ∧ id ∉ t.requires) (hwrites : b.Writes ds w w')
    (hds : ∀ d ∈ ds, d.id ≠ t.id → (d.id ∈ added ∨ d.id ∈ removed) ∧ ∃ u ∈ b.tasks w, u.id = d.id) :
    b.Linked w t old w' := by
  have hafter := h.mirrored hmirrored hold hblocks hadded hremoved
  refine ⟨hafter, ⟨_, h.self, Task.requires_relinkedBy⟩, fun id u hu => ?_, fun id hid hcase => ?_⟩
  · obtain ⟨u', hu'⟩ : ∃ u', Records.loadAt w'.store b.root id = .ok u' := by
      by_cases hid : id = t.id
      · exact ⟨_, hid ▸ h.self⟩
      · exact ⟨_, (h.others id hid).trans (congrArg (Except.map _) hu)⟩
    refine ⟨u', hu', fun other => ?_⟩
    rw [hafter id u' hu' other, h.exists_requires, ← hmirrored id u hu other]
  · refine hwrites.text?_of_ne fun d hd hdid => ?_
    subst hdid
    obtain ⟨hchanged, u, hu, huid⟩ := hds d hd hid
    obtain habsent | hsame := hcase
    · exact habsent u (huid ▸ Records.mem_allAt.mp hu)
    · rw [hadded, hremoved, hsame] at hchanged
      tauto

/-- An insertion saves the new task and those that it requires. -/
theorem mem_insertDrafts (hnew : b.newTask (b.tasks w) n parent (idOfNew w n) w.clock = .ok t)
    (hd : d ∈ b.insertDrafts w n parent) :
    d = t ∨ d ∈ (b.tasks w).notings t.id true t.requires.toList w.clock := by
  rw [insertDrafts, hnew] at hd
  change d ∈ (if _ then _ else _) at hd
  rw [List.mem_ite_nil_right] at hd
  exact List.mem_cons.mp hd.2

theorem ends_insert_relinking (hw : w.Steady) (hopen : w.store.refusing = [])
    (hread : ∀ d ∈ b.insertDrafts w n parent, d.ReadsBack) :
    (b.insert n parent).Ends w fun r w' => ∀ t, r = .ok t →
      b.newTask (b.tasks w) n parent (idOfNew w n) w.clock = .ok t ∧
        w.store.text? (Records.path b.root t.id).names = none ∧ b.Relinks w t t.requires ∅ w' := by
  refine ends_insert_new hw (fun _ _ _ _ t h => nomatch h) (fun _ _ _ _ _ _ t h => nomatch h)
    (fun _ _ _ _ _ _ _ t h => nomatch h) fun t w₁ hnew hnone hvalid htext hw₁ => ?_
  obtain ⟨hid, -, hself, -⟩ := of_newTask hnew
  rw [← hid] at hnone hvalid htext hw₁ hself ⊢
  have hdrafts : b.insertDrafts w n parent = t :: (b.tasks w).notings t.id true t.requires.toList w.clock := by
    rw [insertDrafts, tasks, hnew]
    exact if_pos ⟨htext, hnone⟩
  rw [hdrafts, List.forall_mem_cons] at hread
  have hsaved : Records.Saved w.store w₁.store b.root t := hw₁.text
  have hnotings := @notings_subset b w w₁ t.id true t.requires.toList t.requires.toList w.clock fun id hmem =>
    ⟨hmem, hsaved.loadAt_other fun heq => hself (heq ▸ hmem)⟩
  refine (ends_link_relinking hopen hw₁ hvalid hread.1 (fun id hid => absurd hid (TextSet.not_mem_empty id))
    (fun d hd => hread.2 d (hnotings hd)) fun d hd => ?_).mono ?_
  · obtain ⟨p, -, hmem, -⟩ := Snapshot.mem_notings.mp hd
    cases hmem
  · rintro r w' ⟨rfl, hrelinks⟩
    rw [andThen_ok]
    refine ends_pure fun u hu => ?_
    obtain rfl := Except.ok.inj hu
    exact ⟨hid ▸ hnew, htext, hrelinks⟩

/-- A task that is created notes who required it before, and is noted by those it requires. -/
theorem ends_create_linked (hw : w.Steady) (hopen : w.store.refusing = [])
    (hmirrored : Records.Mirrored w.store b.root) (hread : ∀ d ∈ (Operation.create n).drafts b w, d.ReadsBack) :
    (b.create n).Ends w fun r w' => ∀ t, r = .ok t → b.Linked w t ∅ w' ∧
      Records.loadAt w'.store b.root t.id = .ok t ∧
      ∀ other, other ∈ t.blocks ↔ ∃ u, Records.loadAt w.store b.root other = .ok u ∧ t.id ∈ u.requires := by
  change ∀ d ∈ b.insertDrafts w n none, d.ReadsBack at hread
  have hwrites := ends_insert_writing hw n none (List.Subset.refl (b.insertDrafts w n none))
  refine ((ends_insert_relinking hw hopen hread).and hwrites).mono ?_
  rintro r w' ⟨hrelinks, hwrites, -⟩ t hr
  obtain ⟨hnew, htext, hrelinks⟩ := hrelinks t hr
  obtain ⟨hid, -, hself, hblocks, -⟩ := of_newTask hnew
  rw [← hid] at hself hblocks
  have hnone : ∀ u, Records.loadAt w.store b.root t.id ≠ .ok u := fun u hu => by
    obtain ⟨-, content, hcontent, -⟩ := Records.loadAt_eq_ok.mp hu
    rw [htext] at hcontent
    cases hcontent
  have hrequirers : ∀ other, other ∈ t.blocks ↔
      ∃ u, Records.loadAt w.store b.root other = .ok u ∧ t.id ∈ u.requires := by
    intro other
    rw [hblocks, Snapshot.mem_requirers]
    constructor
    · rintro ⟨u, hu, rfl, hmem⟩
      exact ⟨u, Records.mem_allAt.mp hu, hmem⟩
    · rintro ⟨u, hu, hmem⟩
      exact ⟨u, Records.mem_allAt_of_loadAt hu, Records.id_of_loadAt hu, hmem⟩
  refine ⟨hrelinks.linked hmirrored (fun id => ?_) hrequirers (fun id => ?_) (fun id => ?_) hwrites fun d hd hne => ?_,
    ?_, hrequirers⟩
  · exact iff_of_false (TextSet.not_mem_empty id) fun ⟨u, hu, _⟩ => hnone u hu
  · exact (and_iff_left (TextSet.not_mem_empty id)).symm
  · exact iff_of_false (TextSet.not_mem_empty id) fun h => TextSet.not_mem_empty id h.1
  · obtain rfl | hd := mem_insertDrafts hnew hd
    · exact absurd rfl hne
    · obtain ⟨p, hp, hmem, -, rfl⟩ := Snapshot.mem_notings.mp hd
      exact ⟨.inl hmem, p, hp, rfl⟩
  · rw [hrelinks.self, Task.relinkedBy, if_neg hself, if_neg (TextSet.not_mem_empty _)]

/-- A change of the requirements saves the task, and those that it requires only now or no longer. -/
theorem mem_requiresDrafts {requires : TextSet} {text : String}
    (hrequires : requirementsOf t.id (idsOfText text) = .ok requires) (hd : d ∈ b.requiresDrafts w t text)
    (hne : d.id ≠ t.id) :
    (d.id ∈ requires.diff t.requires ∨ d.id ∈ t.requires.diff requires) ∧ ∃ u ∈ b.tasks w, u.id = d.id := by
  rw [requiresDrafts, hrequires] at hd
  change d ∈ (if _ then _ else _) at hd
  rw [List.mem_ite_nil_right, List.mem_cons, List.mem_append] at hd
  have hfound : ∀ p ∈ (b.tasks w).upsert (Task.touch w.clock { t with requires }), p.id ≠ t.id → p ∈ b.tasks w := by
    intro p hp hne
    obtain hp | hp := @Snapshot.mem_upsertAll _ [_] _ hp
    · exact absurd (congrArg Task.id (List.mem_singleton.mp hp)) hne
    · exact hp
  obtain ⟨-, rfl | hd | hd⟩ := hd
  · exact absurd rfl hne
  · obtain ⟨p, hp, hmem, -, rfl⟩ := Snapshot.mem_notings.mp hd
    exact ⟨.inl hmem, p, hfound p hp hne, rfl⟩
  · obtain ⟨p, hp, hmem, -, rfl⟩ := Snapshot.mem_notings.mp hd
    exact ⟨.inr hmem, p, hfound p hp hne, rfl⟩

theorem ends_editRequires_relinking (hw : w.Steady) (hopen : w.store.refusing = []) (hvalid : isValidId t.id = true)
    {text : String} (hread : ∀ d ∈ b.requiresDrafts w t text, d.ReadsBack) :
    (b.editRequires t w.clock text).Ends w fun r w' => ∀ u, r = .ok u → ∃ requires,
      requirementsOf t.id (idsOfText text) = .ok requires ∧ u = Task.touch w.clock { t with requires } ∧
        b.Relinks w u (requires.diff t.requires) (t.requires.diff requires) w' := by
  rw [requiresDrafts] at hread
  refine ends_bind (ends_settle ?_)
  cases hrequires : requirementsOf t.id (idsOfText text) with
  | error e => exact fun u h => by cases h
  | ok requires =>
    rw [hrequires] at hread
    rw [andThen_ok]
    refine ends_bind (Records.ends_scan ?_)
    rw [andThen_ok]
    split
    · exact ends_throw fun u h => by cases h
    rename_i hnone
    have hdrafts : ∀ ds : List Task, (if (b.tasks w).cycleWith? t.id requires = none then ds else []) = ds :=
      fun ds => if_pos hnone
    simp only [hdrafts] at hread
    obtain ⟨hself, hlinks⟩ := List.forall_mem_cons.mp hread
    obtain ⟨hadd, hremove⟩ := List.forall_mem_append.mp hlinks
    -- the task is saved, and the others are told of it
    refine ends_bind (Records.ends_save hw (fun _ _ _ _ _ h => by cases h) fun w₁ _ _ hw₁ => ?_)
    have hsaved : Records.Saved w.store w₁.store b.root (Task.touch w.clock { t with requires }) := hw₁.text
    have hnotings := fun added ids =>
      Snapshot.notings_mono (tasks_subset_upsert hsaved hself.faithful) t.id added ids w.clock
    rw [andThen_ok]
    refine ends_bind ((ends_link_relinking hopen hw₁ hvalid hself (fun id hmem => ?_)
      (fun d hd => hadd d (hnotings true _ hd)) fun d hd => hremove d (hnotings false _ hd)).mono ?_)
    · rw [TextSet.mem_diff] at hmem ⊢
      exact fun h => hmem.2 h.1
    · rintro r w' ⟨rfl, hrelinks⟩
      rw [andThen_ok]
      refine ends_pure fun u hu => ?_
      obtain rfl := Except.ok.inj hu
      exact ⟨requires, rfl, rfl, hrelinks⟩

/-- A task with new requirements is noted by those it requires only now, and no more by those it does
not require any more. -/
theorem ends_editRequires_linked (hw : w.Steady) (hopen : w.store.refusing = [])
    (hmirrored : Records.Mirrored w.store b.root) (hload : Records.loadAt w.store b.root t.id = .ok t)
    {text : String} (hread : ∀ d ∈ b.requiresDrafts w t text, d.ReadsBack) :
    (b.editRequires t w.clock text).Ends w fun r w' => ∀ u, r = .ok u → u.id = t.id ∧ b.Linked w u t.requires w' := by
  have hwrites : (b.editRequires t w.clock text).Ends w fun _ w' => b.Writes (b.requiresDrafts w t text) w w' :=
    ends_editRequires_writing hw (fun d hd => (hread d hd).faithful) (List.Subset.refl _)
  obtain ⟨hvalid, -⟩ := Records.loadAt_eq_ok.mp hload
  refine ((ends_editRequires_relinking hw hopen hvalid hread).and hwrites).mono ?_
  rintro r w' ⟨hrelinks, hwritten⟩ u hu
  obtain ⟨requires, hrequires, rfl, hrelinks⟩ := hrelinks u hu
  refine ⟨rfl, hrelinks.linked hmirrored (fun id => ?_) (hmirrored t.id t hload) (fun id => TextSet.mem_diff)
    (fun id => TextSet.mem_diff) hwritten fun d hd hne => mem_requiresDrafts hrequires hd hne⟩
  change id ∈ t.requires ↔ ∃ u, Records.loadAt w.store b.root t.id = .ok u ∧ id ∈ u.requires
  simp [hload]

end Linked

/-- Where the noted dependents of all tasks are right and all records can be written, they are right
again after a task was created or its requirements were changed. -/
theorem mirrored_kept (hw : w.Steady) (hopen : w.store.refusing = [])
    (hmirrored : Records.Mirrored w.store b.root) :
    (∀ n, (∀ d ∈ (Operation.create n).drafts b w, d.ReadsBack) →
      (b.create n).Ends w fun r w' => ∀ t, r = .ok t → b.Linked w t ∅ w' ∧
        Records.loadAt w'.store b.root t.id = .ok t ∧
        ∀ other, other ∈ t.blocks ↔ ∃ u, Records.loadAt w.store b.root other = .ok u ∧ t.id ∈ u.requires) ∧
    ∀ id value, (∀ d ∈ (Operation.edit id "requires" value).drafts b w, d.ReadsBack) →
      (b.edit id "requires" value).Ends w fun r w' => ∀ u, r = .ok u → u.id = id ∧
        ∃ t, Records.loadAt w.store b.root id = .ok t ∧ b.Linked w u t.requires w' := by
  refine ⟨fun n hread => ends_create_linked hw hopen hmirrored hread, fun id value hread => ?_⟩
  refine ends_bind (Records.ends_load ?_)
  cases hload : Records.loadAt w.store b.root id with
  | error e => exact fun u h => nomatch h
  | ok t =>
    obtain rfl := Records.id_of_loadAt hload
    have hdrafts : (Operation.edit t.id "requires" value).drafts b w = b.requiresDrafts w t (Text.trim value) := by
      have hfield : b.editDrafts w t "requires" value = b.requiresDrafts w t (Text.trim value) := by
        rw [editDrafts, if_neg (by decide), if_neg (by decide), if_pos rfl]
      rw [← hfield]
      simp [Operation.drafts, taskAt, hload, Except.toOption]
    rw [hdrafts] at hread
    rw [andThen_ok]
    refine ends_bind (ends_now ?_)
    rw [andThen_ok, if_neg (by decide), if_neg (by decide), if_pos rfl]
    refine (ends_editRequires_linked hw hopen hmirrored hload hread).mono fun r w' h u hu => ?_
    obtain ⟨hid, hlinked⟩ := h u hu
    exact ⟨hid, t, rfl, hlinked⟩

section Lone

/-- A done task and one in todo that requires nothing yet. -/
def unlinked : World Files :=
  ⟨⟨[(["/", "store", "tasks", "a.md"], "---\nid: a\nstate: done\n" ++
      "created_at: 2025-03-01T09:00:00Z\nupdated_at: 2025-03-01T09:00:00Z\n---\n"),
    (["/", "store", "tasks", "b.md"], "---\nid: b\nstate: todo\n" ++
      "created_at: 2025-03-01T09:00:00Z\nupdated_at: 2025-03-01T09:00:00Z\n---\n")], []⟩, ⟨0, 0⟩, 0, 4, 0⟩

theorem steady_unlinked : unlinked.Steady := by
  refine World.steady_of_isPublic (by unfold Files.Proper; decide) fun names hnames => ?_
  simp only [unlinked, List.map_cons, List.map_nil, List.mem_cons, List.not_mem_nil, or_false] at hnames
  obtain rfl | rfl := hnames <;> exact isPublic_of_getLast? rfl (by decide)

def unlinkedTask : Task :=
  { id := "b", title := "", state := .todo, createdAt := Lone.begun, updatedAt := Lone.begun }

theorem tasks_unlinked : Lone.board.tasks unlinked =
    [{ unlinkedTask with id := "a", state := .done }, unlinkedTask] := by
  decide +kernel

/-- The edit writes what a repair of the other board writes. -/
theorem drafts_unlinked : (Operation.edit "b" "requires" "a").drafts Lone.board unlinked =
    (Records.allAt drifted.store Lone.board.root).repairs drifted.clock := by
  have hmem : unlinkedTask ∈ Records.allAt unlinked.store Lone.board.root := by
    rw [← Board.tasks, tasks_unlinked]
    simp
  have hid : unlinkedTask.id = "b" := rfl
  have hload := Records.mem_allAt.mp hmem
  rw [hid] at hload
  rw [repairs_drifted, Operation.drafts, taskAt, hload, Except.toOption, Option.toList_some, List.flatMap_singleton,
    editDrafts, requiresDrafts, tasks_unlinked]
  rfl

theorem mirrored_kept_unlinked :
    (Lone.board.edit "b" "requires" "a").Ends unlinked fun r w' => ∀ u, r = .ok u → u.id = "b" ∧
      ∃ t, Records.loadAt unlinked.store Lone.board.root "b" = .ok t ∧ Lone.board.Linked unlinked u t.requires w' := by
  have hmirrored : Records.Mirrored unlinked.store Lone.board.root := by
    have hblocks : ∀ t ∈ Lone.board.tasks unlinked, t.blocks = (Lone.board.tasks unlinked).requirers t.id := by
      rw [tasks_unlinked]
      decide
    exact Records.mirrored_iff.mpr fun t ht other => by rw [hblocks t ht]; rfl
  refine (mirrored_kept steady_unlinked rfl hmirrored).2 "b" "a" ?_
  rw [drafts_unlinked]
  exact readsBack_drifted

end Lone

end Board

end Workboard
