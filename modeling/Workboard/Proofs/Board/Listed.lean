import Workboard.Proofs.Board.Lone
import Workboard.Proofs.Lock.Alone

/-!
# The lists of the records and of the locks

A directory is listed in the order of its file names, and the ids are what is left when the
ending is taken off each name. The two orders part where one id is another one made longer:
the ending of the shorter name is then compared with what was added. Main statement: both
lists are complete, and they are in the order of the ids if and only if no id of the list
is misplaced in this way.
-/
namespace Workboard

/-- The second id is the first one made longer by something that comes, with the ending, in
front of the ending alone. The name of its file is then the lesser one. -/
def Misplaced (ending a b : String) : Prop := ∃ rest, b = a ++ rest ∧ rest ++ ending < ending

section Order

/-- A common end turns the order of two lists around only if one begins with the other. -/
theorem append_lt_append_iff {a b e : List Char} (h : a < b) :
    b ++ e < a ++ e ↔ ∃ rest, b = a ++ rest ∧ rest ++ e < e := by
  induction a generalizing b with
  | nil => simp
  | cons x a ih =>
    cases b with
    | nil => exact absurd h (List.not_lt_nil _)
    | cons y b =>
      simp only [List.cons_append, List.cons_lt_cons_iff, List.cons.injEq]
      rcases List.cons_lt_cons_iff.mp h with hxy | ⟨rfl, hab⟩
      · have hyx : ¬ y < x := lt_asymm hxy
        have hne : y ≠ x := (ne_of_lt hxy).symm
        simp [hyx, hne]
      · simp [ih hab]

theorem misplaced_iff {ending a b : String} (h : a < b) :
    b ++ ending < a ++ ending ↔ Misplaced ending a b := by
  rw [String.lt_iff_toList_lt, String.toList_append, String.toList_append,
    append_lt_append_iff (String.lt_iff_toList_lt.mp h)]
  constructor
  · rintro ⟨rest, hb, hrest⟩
    refine ⟨String.ofList rest, String.toList_inj.mp ?_, String.lt_iff_toList_lt.mpr ?_⟩
    · rw [hb, String.toList_append, String.toList_ofList]
    · rwa [String.toList_append, String.toList_ofList]
  · rintro ⟨rest, rfl, hrest⟩
    refine ⟨rest.toList, String.toList_append, ?_⟩
    rw [← String.toList_append]
    exact String.lt_iff_toList_lt.mp hrest

theorem Misplaced.lt {ending a b : String} (h : Misplaced ending a b) : a < b := by
  obtain ⟨rest, rfl, hrest⟩ := h
  rw [String.lt_iff_toList_lt, String.toList_append]
  cases hr : rest.toList with
  | nil =>
    have hempty : rest = "" := String.toList_inj.mp hr
    rw [hempty, String.empty_append] at hrest
    exact absurd hrest (lt_irrefl _)
  | cons c cs =>
    have hlonger : ∀ l : List Char, l < l ++ c :: cs := fun l => by
      induction l with
      | nil => exact List.nil_lt_cons c cs
      | cons x l ih => exact List.cons_lt_cons_iff.mpr (.inr ⟨rfl, ih⟩)
    exact hlonger a.toList

/-- A hyphen comes in front of every ending that begins with a point. -/
theorem misplaced_hyphen (a rest ending : String) : Misplaced ("." ++ ending) a (a ++ ("-" ++ rest)) := by
  refine ⟨_, rfl, ?_⟩
  simp only [String.lt_iff_toList_lt, String.toList_append]
  exact List.cons_lt_cons_iff.mpr (.inl (by decide))

/-- A list in the order of the file names is in the order of the ids just if nothing in it
is misplaced. -/
theorem ascending_iff {ending : String} {ids : List String}
    (h : ids.Pairwise fun a b => a ++ ending < b ++ ending) :
    ids.Pairwise (· < ·) ↔ ∀ a ∈ ids, ∀ b ∈ ids, ¬ Misplaced ending a b := by
  constructor
  · intro hlt a ha b hb hab
    -- each of the two orders says which of both comes first in the list
    have hboth : ids.Pairwise fun a b => a < b ∧ a ++ ending < b ++ ending := hlt.and h
    obtain ⟨i, hi, rfl⟩ := List.mem_iff_getElem.mp ha
    obtain ⟨j, hj, rfl⟩ := List.mem_iff_getElem.mp hb
    have hname := (misplaced_iff hab.lt).mpr hab
    rcases Nat.lt_trichotomy i j with hij | hij | hij
    · exact lt_asymm hname (List.pairwise_iff_getElem.mp hboth i j hi hj hij).2
    · subst hij
      exact lt_irrefl _ hname
    · exact lt_asymm hab.lt (List.pairwise_iff_getElem.mp hboth j i hj hi hij).1
  · intro hnone
    refine h.imp_of_mem fun {a b} ha hb hab => ?_
    by_contra hnot
    have hne : a ≠ b := fun heq => lt_irrefl _ (heq ▸ hab)
    have hba : b < a := text_lt_of_not_lt hnot hne
    exact hnone b hb a ha ((misplaced_iff hba).mp hab)

end Order

/-- The list has the valid ids with the property, each of them once and in the order of the
names with the ending. This is the order of the ids if and only if none is misplaced. -/
structure ListedBy (ending : String) (here : String → Prop) (ids : List String) : Prop where
  mem : ∀ id, id ∈ ids ↔ isValidId id = true ∧ here id
  byName : ids.Pairwise fun a b => a ++ ending < b ++ ending
  ascending : ids.Pairwise (· < ·) ↔ ∀ a ∈ ids, ∀ b ∈ ids, ¬ Misplaced ending a b

theorem ListedBy.not_ascending {ending a rest : String} {here : String → Prop} {ids : List String}
    (h : ListedBy ("." ++ ending) here ids) (ha : a ∈ ids) (hb : a ++ ("-" ++ rest) ∈ ids) :
    ¬ ids.Pairwise (· < ·) :=
  fun hlt => h.ascending.mp hlt a ha _ hb (misplaced_hyphen a rest ending)

namespace Records
variable {f : Files} {root : Path} {ending : String}

theorem pairwise_idsOfNames (hf : f.Proper) (p : Path) :
    (idsOfNames ending (f.list p)).Pairwise fun a b => a ++ ending < b ++ ending := by
  rw [← List.pairwise_map (f := (· ++ ending)) (R := (· < ·)), map_idsOfNames]
  exact (Files.pairwise_list hf p).filter _

theorem listedBy_idsAt (hf : f.Proper) :
    ListedBy ".md" (fun id => (f.text? (path root id).names).isSome) (idsAt f root) where
  mem _ := mem_idsAt
  byName := pairwise_idsOfNames hf (dir root)
  ascending := ascending_iff (pairwise_idsOfNames hf (dir root))

end Records

namespace Locks
variable {f : Files} {root : Path} {id : String}

/-- The ids that these files have lock files for. -/
def idsAt (f : Files) (root : Path) : List String := Records.idsOfNames ".lock" (f.list (dir root))

theorem mem_idsAt : id ∈ idsAt f root ↔
    isValidId id = true ∧ (f.text? (path root id).names).isSome :=
  Records.mem_idsOfNames (c := 'k') (by decide) (by decide) (by decide)

/-- The ids whose locks can be read. -/
def readableIds (f : Files) (root : Path) : List String :=
  (idsAt f root).filter fun id => (slotAt f (path root id)).owner?.isSome

theorem owner?_isSome {s : Slot} : s.owner?.isSome = true ↔ ∃ r, s = .held r := by
  cases s with
  | missing => simp [Slot.owner?]
  | held r => simp [Slot.owner?]
  | unreadable reason => simp [Slot.owner?]

theorem mem_readableIds : id ∈ readableIds f root ↔
    isValidId id = true ∧ ∃ r, slotAt f (path root id) = .held r := by
  rw [readableIds, List.mem_filter, mem_idsAt, owner?_isSome]
  constructor
  · rintro ⟨⟨hid, _⟩, hr⟩
    exact ⟨hid, hr⟩
  · rintro ⟨hid, r, hr⟩
    obtain ⟨text, htext⟩ := exists_text_of_held hr
    exact ⟨⟨hid, by rw [htext]; rfl⟩, r, hr⟩

theorem listedBy_readableIds (hf : f.Proper) :
    ListedBy ".lock" (fun id => ∃ r, slotAt f (path root id) = .held r) (readableIds f root) where
  mem _ := mem_readableIds
  byName := (Records.pairwise_idsOfNames hf (dir root)).filter _
  ascending := ascending_iff ((Records.pairwise_idsOfNames hf (dir root)).filter _)

/-- A look at each of some locks finds those that can be read, in their order. -/
theorem exists_of_readEach (w : World Files) (root : Path) (now : Instant) (ids : List String) :
    ∃ locks, (readEach root now ids).run.runIn w = (.ok locks, w) ∧
      List.Forall₂ (fun id info => ∃ r, slotAt w.store (path root id) = .held r ∧ info = r.infoAt now)
        (ids.filter fun id => (slotAt w.store (path root id)).owner?.isSome) locks := by
  induction ids with
  | nil => exact ⟨[], rfl, .nil⟩
  | cons id ids ih =>
    obtain ⟨locks, hrun, hlocks⟩ := ih
    cases hslot : slotAt w.store (path root id) with
    | held r =>
      refine ⟨r.infoAt now :: locks, ?_, ?_⟩
      · rw [readEach, Action.runIn_bind_ok (runIn_slot w _), hslot]
        exact Action.runIn_bind_ok hrun
      · rw [List.filter_cons_of_pos (by simp [hslot, Slot.owner?])]
        exact .cons ⟨r, hslot, rfl⟩ hlocks
    | missing =>
      refine ⟨locks, ?_, ?_⟩
      · rw [readEach, Action.runIn_bind_ok (runIn_slot w _), hslot]
        exact hrun
      · rw [List.filter_cons_of_neg (by simp [hslot, Slot.owner?])]
        exact hlocks
    | unreadable reason =>
      refine ⟨locks, ?_, ?_⟩
      · rw [readEach, Action.runIn_bind_ok (runIn_slot w _), hslot]
        exact hrun
      · rw [List.filter_cons_of_neg (by simp [hslot, Slot.owner?])]
        exact hlocks

/-- The list of the locks, made alone. -/
theorem exists_of_all (w : World Files) (root : Path) :
    ∃ locks, (all root).run.runIn w = (.ok locks, w) ∧
      List.Forall₂
        (fun id info => ∃ r, slotAt w.store (path root id) = .held r ∧ info = r.infoAt w.clock)
        (readableIds w.store root) locks := by
  rw [all, Action.runIn_bind_ok (Action.runIn_present w _)]
  cases hp : w.store.present (dir root) with
  | true =>
    obtain ⟨locks, hrun, hlocks⟩ := exists_of_readEach w root w.clock (idsAt w.store root)
    refine ⟨locks, ?_, hlocks⟩
    exact (Action.runIn_bind_ok (Action.runIn_now w)).trans hrun
  | false =>
    refine ⟨[], rfl, ?_⟩
    rw [readableIds, idsAt, Files.list_of_not_present hp]
    exact .nil

end Locks

namespace Board

/-- The ids of the records are exactly the valid ids that have one, and the locks are exactly
those that can be read, one for each file. Both are in the order of the file names, which
need not be the order of the ids. -/
theorem lists_are_by_name (root : Path) (w : World Files) (hw : w.store.Proper) :
    ∃ ids lockIds locks, (Records.ids root).run.runIn w = (.ok ids, w) ∧
      (Locks.all root).run.runIn w = (.ok locks, w) ∧
      ListedBy ".md" (fun id => (w.store.text? (Records.path root id).names).isSome) ids ∧
      ListedBy ".lock" (fun id => ∃ r, Locks.slotAt w.store (Locks.path root id) = .held r) lockIds ∧
      List.Forall₂ (fun id info => ∃ r, Locks.slotAt w.store (Locks.path root id) = .held r ∧
        info = r.infoAt w.clock) lockIds locks ∧
      ((∀ id r, isValidId id = true → Locks.slotAt w.store (Locks.path root id) = .held r →
        r.taskId = id) → locks.map (·.record.taskId) = lockIds) := by
  obtain ⟨locks, hrun, hlocks⟩ := Locks.exists_of_all w root
  refine ⟨_, _, locks, Records.runIn_ids root w, hrun, Records.listedBy_idsAt hw,
    Locks.listedBy_readableIds hw, hlocks, fun hown => ?_⟩
  have hnames : List.Forall₂ (fun id info => id = info.record.taskId)
      (Locks.readableIds w.store root) locks := by
    refine ((List.forall₂_and_left _ _).mpr ⟨fun id hid => (Locks.mem_readableIds.mp hid).1, hlocks⟩).imp ?_
    rintro id info ⟨hid, r, hr, rfl⟩
    exact (hown id r hid hr).symm
  rw [← List.forall₂_map_right_iff (f := fun info : LockInfo => info.record.taskId),
    List.forall₂_eq_eq_eq] at hnames
  exact hnames.symm

/-- Two tasks, both locked by "x"; the id of one is that of the other made longer. -/
def lockedTwins : World Files :=
  let second : Task := { Lone.task with id := "a-b" }
  let lockOf (id : String) := LockRecord.new id "x" Lone.begun Lone.board.settings.lockTimeout
  ⟨⟨[(["/", "store", "tasks", "a.md"], Record.render Lone.task),
    (["/", "store", "tasks", "a-b.md"], Record.render second),
    (["/", "store", "locks", "a.lock"], (lockOf "a").render),
    (["/", "store", "locks", "a-b.lock"], (lockOf "a-b").render)], []⟩, Lone.begun, 0, 4, 0⟩

theorem proper_lockedTwins : lockedTwins.store.Proper := by
  unfold Files.Proper
  decide

theorem lists_are_by_name_twins : lockedTwins.store.Proper ∧
    ∃ (ids : List String) (locks : List LockInfo),
      (Records.ids Lone.board.root).run.runIn lockedTwins = (.ok ids, lockedTwins) ∧
      (Locks.all Lone.board.root).run.runIn lockedTwins = (.ok locks, lockedTwins) ∧
      ListedBy ".md" (fun id => (lockedTwins.store.text? (Records.path Lone.board.root id).names).isSome)
        ids := by
  obtain ⟨ids, _, locks, hids, hlocks, hlisted, _⟩ :=
    lists_are_by_name Lone.board.root lockedTwins proper_lockedTwins
  exact ⟨proper_lockedTwins, ids, locks, hids, hlocks, hlisted⟩

/-- A hyphen comes before the point of the ending, so the longer id is listed first. -/
theorem longer_id_listed_first : lockedTwins.store.Proper ∧ isValidId "a" = true ∧ isValidId "a-b" = true ∧
    (Records.ids Lone.board.root).run.runIn lockedTwins = (.ok ["a-b", "a"], lockedTwins) ∧
    ((Locks.all Lone.board.root).run.runIn lockedTwins).1.toOption.map
      (·.map (·.record.taskId)) = some ["a-b", "a"] ∧
    ¬ ["a-b", "a"].Pairwise (· < ·) := by
  have hids : Records.idsAt lockedTwins.store Lone.board.root = ["a-b", "a"] := by decide +kernel
  have hlocks : ((Locks.all Lone.board.root).run.runIn lockedTwins).1.toOption.map
      (·.map (·.record.taskId)) = some ["a-b", "a"] := by decide +kernel
  refine ⟨proper_lockedTwins, by decide, by decide, ?_, hlocks, by decide⟩
  rw [Records.runIn_ids, hids]

end Board
end Workboard
