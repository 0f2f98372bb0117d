import Workboard.Proofs.Board.Acyclic
import Workboard.Proofs.Board.Apart
import Workboard.Proofs.Board.Failing
import Workboard.Proofs.Graph.SameNodes

/-!
# The insertion of a task, seen call by call

What is stated here of the insertion of a task holds also if others act between its calls.
It looks at the board, whatever it finds there, and then tries once to create the record. If
it fails to, wherever it has come to by then, it ends with a refusal; if it succeeds, it does
not touch the record again and ends with the task in it. Run alone with files that admit the
task it succeeds, and whether they do does not depend on the clock.
-/
namespace Workboard

namespace Action
variable {α β : Type} {shows : Instant → Prop} {f g : Files}

/-- After a part that only looks and comes to one end, the rest goes on from there. -/
theorem Quiet.reaches_bind_of {a : Action α} {k : α → Action β} {x : α} {r : Except Error β}
    (ha : Quiet a) (hone : ∀ y g, a.Reaches shows f y g → y = .ok x)
    (h : (a >>= k).Reaches shows f r g) : (k x).Reaches shows f r g := by
  obtain ⟨e, hfirst, -⟩ | ⟨y, f₁, hfirst, hrest⟩ := reaches_bind.mp h
  · cases hone _ _ hfirst
  · obtain rfl := ha.eq_of_reaches hfirst
    obtain rfl := Except.ok.inj (hone _ _ hfirst)
    exact hrest

end Action

namespace Records
open Workboard.Action
variable {shows : Instant → Prop} {root : Path} {id : String} {f g : Files}

theorem reaches_load {r : Except Error Task} (h : (load root id).Reaches shows f r g) :
    r = loadAt f root id := by
  obtain ⟨e, hcheck, rfl⟩ | ⟨_, f₁, hcheck, hrest⟩ := reaches_bind.mp h
  all_goals unfold checkId at hcheck
  all_goals split at hcheck
  · cases hcheck.1
  · rename_i hid
    obtain rfl := Except.error.inj hcheck.1
    rw [loadAt, if_neg hid]
  · rename_i hid
    obtain rfl := hcheck.2
    obtain ⟨e, hread, rfl⟩ | ⟨x, f₂, hread, hgiven⟩ := reaches_bind.mp hrest
    all_goals obtain ⟨_, heq, hy⟩ := reaches_ask hread
    · cases heq
    · obtain rfl := Except.ok.inj heq
      obtain ⟨rfl, rfl⟩ := hy.read
      rw [loadAt, if_pos hid]
      unfold Files.read at hgiven
      cases htext : f₂.text? (path root id).names with
      | some content =>
        rw [htext] at hgiven
        exact hgiven.1
      | none =>
        rw [htext] at hgiven
        exact hgiven.1
  · cases hcheck.1

theorem reaches_loadReadable {ids : List String} {r : Except Error Snapshot}
    (h : (loadReadable root ids).Reaches shows f r g) :
    r = .ok (ids.filterMap fun id => (loadAt f root id).toOption) := by
  induction ids generalizing r g with
  | nil => exact h.1
  | cons id ids ih =>
    obtain ⟨e, hload, -⟩ | ⟨x, f₁, hload, hrest⟩ := reaches_bind.mp h
    all_goals obtain ⟨y, hload, heq⟩ := reaches_attempt.mp hload
    · cases heq
    · obtain rfl := Except.ok.inj heq
      obtain rfl := (quiet_load root id).eq_of_reaches hload
      rw [reaches_load hload] at hrest
      cases hfound : loadAt f₁ root id with
      | error e =>
        rw [hfound] at hrest
        rw [List.filterMap_cons, hfound]
        exact ih hrest
      | ok t =>
        rw [hfound] at hrest
        obtain ⟨e, hall, -⟩ | ⟨all, f₂, hall, rfl, -⟩ := reaches_bind.mp hrest
        · cases ih hall
        · rw [List.filterMap_cons, hfound]
          exact congrArg (Except.ok ∘ (t :: ·)) (Except.ok.inj (ih hall))

/-- A scan that nobody interrupts finds what is there, whatever the clock shows. -/
theorem reaches_scan {r : Except Error Snapshot} (h : (scan root).Reaches shows f r g) :
    r = .ok (allAt f root) := by
  have hids : ∀ r g, (ids root).Reaches shows f r g → r = .ok (idsAt f root) := by
    intro r g h
    obtain ⟨e, hask, -⟩ | ⟨there, f₁, hask, hrest⟩ := reaches_bind.mp h
    all_goals obtain ⟨_, heq, hy⟩ := reaches_ask hask
    · cases heq
    obtain rfl := Except.ok.inj heq
    obtain ⟨rfl, rfl⟩ := hy.present
    split at hrest
    · obtain ⟨e, hlist, -⟩ | ⟨names, f₂, hlist, rfl, -⟩ := reaches_bind.mp hrest
      · cases (reaches_list hlist).1
      · obtain rfl := Except.ok.inj (reaches_list hlist).1
        rfl
    · rename_i hnot
      rw [hrest.1, idsAt, Files.list_of_not_present (Bool.eq_false_iff.mpr hnot)]
      rfl
  obtain ⟨e, hall, -⟩ | ⟨all, f₁, hall, hrest⟩ := reaches_bind.mp h
  · cases hids _ _ hall
  · obtain rfl := (quiet_ids root).eq_of_reaches hall
    obtain rfl := Except.ok.inj (hids _ _ hall)
    exact reaches_loadReadable hrest

theorem reaches_holds {r : Except Error Bool} (h : (holds root id).Reaches shows f r g) :
    r = .ok (holdsAt f root id) := by
  unfold holds at h
  rw [holdsAt]
  split at h
  · rename_i hid
    obtain ⟨x, rfl, hy⟩ := reaches_ask h
    rw [hy.present.1, hid, Bool.true_and]
    rfl
  · rename_i hid
    rw [h.1, Bool.eq_false_iff.mpr hid, Bool.false_and]

theorem reaches_checkId_of (hid : isValidId id = true) {r : Except Error Unit}
    (h : (checkId id).Reaches shows f r g) : r = .ok () := by
  rw [checkId, if_pos hid] at h
  exact h.1

/-- A record that is not there is created, if it may be written. -/
theorem reaches_create_of {t : Task} {r : Except Error Bool} (h : (create root t).Reaches shows f r g)
    (hopen : f.refusing = []) (hid : isValidId t.id = true)
    (hnone : f.text? (path root t.id).names = none) : r = .ok true := by
  replace h := (quiet_checkId t.id).reaches_bind_of (fun _ _ => reaches_checkId_of hid) h
  obtain ⟨x, hy, rfl⟩ := reaches_orFail (fun _ => reaches_ask) h
  rw [hy.createNew.1, Files.createNew, hopen, if_neg List.not_mem_nil, hnone]
  rfl

theorem always_checkId (hid : isValidId id = true) :
    (checkId id).Always Call.Looks fun r => ∃ x, r = .ok x := by
  rw [checkId, if_pos hid]
  exact ⟨(), rfl⟩

theorem always_holds : (holds root id).Always Call.Looks fun r => ∃ taken, r = .ok taken := by
  unfold holds
  split
  · exact always_ask trivial fun _ there _ _ => ⟨there, rfl⟩
  · exact ⟨false, rfl⟩

theorem always_load : (load root id).Always Call.Looks fun r => ∀ t, r = .ok t → t.id = id := by
  refine (quiet_checkId id).always_bind (fun _ hc => hc) (fun _ _ h => by cases h) fun _ => ?_
  refine Always.bind (always_ask trivial fun _ x _ _ => ?_)
  cases x with
  | ok content =>
    change ∀ t, read id content = .ok t → t.id = id
    exact fun t => id_of_read
  | error failure =>
    intro t ht
    cases ht

theorem always_loadReadable (root : Path) (ids : List String) :
    (loadReadable root ids).Always Call.Looks fun r => ∃ all, r = .ok all := by
  induction ids with
  | nil => exact ⟨[], rfl⟩
  | cons id ids ih =>
    refine Always.bind ((always_attempt (Program.Quiet.makes_looks (quiet_load root id)).always).mono (fun _ hc => hc) ?_)
    rintro _ ⟨x, rfl, -⟩
    cases x with
    | error e => exact ih
    | ok t =>
      refine Always.bind (ih.mono (fun _ hc => hc) ?_)
      rintro _ ⟨all, rfl⟩
      exact ⟨t :: all, rfl⟩

/-- A scan does not fail, whatever others do meanwhile. -/
theorem always_scan : (scan root).Always Call.Looks fun r => ∃ all, r = .ok all := by
  refine Always.bind (Always.bind (always_ask trivial fun _ there _ _ => ?_))
  cases there with
  | false => exact always_loadReadable root []
  | true =>
    refine Always.bind (Always.bind (always_ask trivial fun _ names _ hy => ?_))
    obtain ⟨rfl, -⟩ := hy.list
    exact always_loadReadable root _

/-- A record that is saved is the only one that is touched. -/
theorem always_save {t : Task} (hne : t.id ≠ id) :
    (save root t).Always (Call.Spares (path root id).names) fun _ => True :=
  (makes_save (isPublic_path root id) fun h => hne (eq_of_names_path h)).always

end Records

namespace Board
open Workboard.Action
variable {shows shows' : Instant → Prop} {b : Board} {f g g' : Files} {n : NewTask}
  {parent : Option String} {id : String}

/-- Nothing is wrong with a new task under this id, as the files are. -/
structure Admits (b : Board) (n : NewTask) (id : String) (f : Files) : Prop where
  valid : isValidId id = true
  free : Records.holdsAt f b.root id = false
  sound : ∃ checked requires, n.check id b.settings = .ok checked ∧ requirementsOf id n.requires = .ok requires ∧
    ∀ t : Task, t.id = id → t.requires = requires → t.state = checked.2 →
      Snapshot.cycleWith? (Records.allAt f b.root ++ [t]) id requires = none

/-- Nothing was wrong with a task that was inserted. -/
theorem admits_of_insertAs {t : Task} (h : (b.insertAs n parent id).Reaches shows f (.ok t) g) :
    b.Admits n id f := by
  obtain ⟨_, hcheck, h₁⟩ := (Records.quiet_checkId id).reaches_bind_ok h
  obtain ⟨taken, htaken, h₂⟩ := (Records.quiet_holds b.root id).reaches_bind_ok h₁
  obtain rfl := Except.ok.inj (Records.reaches_holds htaken)
  split at h₂
  · cases h₂.1
  rename_i hfree
  obtain ⟨checked, hchecked, h₃⟩ := (quiet_settle (n.check id b.settings)).reaches_bind_ok h₂
  obtain ⟨requires, hrequires, h₄⟩ := (quiet_settle (requirementsOf id n.requires)).reaches_bind_ok h₃
  obtain ⟨all, hall, h₅⟩ := (Records.quiet_scan b.root).reaches_bind_ok h₄
  obtain rfl := Except.ok.inj (Records.reaches_scan hall)
  obtain ⟨now, -, h₆⟩ := quiet_now.reaches_bind_ok h₅
  simp only at h₆
  split at h₆
  · cases h₆.1
  rename_i hnone
  refine ⟨?_, Bool.eq_false_iff.mpr hfree, checked, requires, hchecked.1.symm, hrequires.1.symm,
    fun u hid hreq hstate => ?_⟩
  · obtain ⟨hid, -⟩ | heq := (Locks.reaches_checkId hcheck).2
    · exact hid
    · cases heq
  · -- the clock is in the record of the new task, but not in the graph
    refine (Snapshot.cycleWith?_append_sameNode ?_).trans hnone
    exact ⟨hid, hreq, by rw [hstate]⟩

/-- A new task with which nothing is wrong is inserted, whatever the clock shows. -/
theorem inserted_of_admits (hopen : f.refusing = []) (h : b.Admits n id f) {r : Except Error Task}
    (hrun : (b.insertAs n parent id).Reaches shows f r g) : ∃ t, r = .ok t := by
  obtain ⟨hid, hfree, checked, requires, hchecked, hrequires, hacyclic⟩ := h
  have h₁ := (Records.quiet_checkId id).reaches_bind_of (fun _ _ => Records.reaches_checkId_of hid) hrun
  have h₂ := (Records.quiet_holds b.root id).reaches_bind_of (fun _ _ => Records.reaches_holds) h₁
  rw [hfree, if_neg Bool.false_ne_true] at h₂
  have h₃ := (quiet_settle _).reaches_bind_of (fun _ _ hy => hy.1.trans hchecked) h₂
  have h₄ := (quiet_settle _).reaches_bind_of (fun _ _ hy => hy.1.trans hrequires) h₃
  have h₅ := (Records.quiet_scan b.root).reaches_bind_of (fun _ _ => Records.reaches_scan) h₄
  obtain ⟨_, hnow, -⟩ | ⟨now, f₁, hnow, h₆⟩ := reaches_bind.mp h₅
  · exact absurd hnow (sure_ask .now _ _ _)
  obtain rfl := quiet_now.eq_of_reaches hnow
  simp only [hacyclic] at h₆
  obtain ⟨_, hcreated, -⟩ | ⟨created, f₂, hcreated, h₇⟩ := reaches_bind.mp h₆
  all_goals replace hcreated :=
    Records.reaches_create_of hcreated hopen hid (Records.text?_of_holdsAt hfree hid)
  · cases hcreated
  obtain rfl := Except.ok.inj hcreated
  obtain ⟨_, hlink, -⟩ | ⟨_, f₃, -, hend, -⟩ := reaches_bind.mp h₇
  · exact absurd hlink (sure_link id requires ∅ _ _ _)
  · exact ⟨_, hend⟩

/-- The record of a task is spared when the tasks it requires are told of it. -/
theorem always_linkEach (now : Instant) (dependent : String) (added : Bool) {ids : List String}
    (hnot : id ∉ ids) : (b.linkEach now dependent added ids).Always
      (Call.Spares (Records.path b.root id).names) fun r => r = .ok () := by
  induction ids with
  | nil => exact rfl
  | cons other ids ih =>
    rw [List.mem_cons, not_or] at hnot
    obtain ⟨hne, hnot⟩ := hnot
    have hlinked : (b.linkOne now dependent other added).Always
        (Call.Spares (Records.path b.root id).names) fun r => r = .ok () := by
      refine Always.bind ((always_attempt Records.always_load).mono (fun _ hc => hc.spares _) ?_)
      rintro _ ⟨x, rfl, hx⟩
      cases x with
      | error e => exact rfl
      | ok t =>
        simp only [NextAlways]
        split
        · exact rfl
        · refine Always.bind ((always_attempt (Records.always_save ?_)).mono (fun _ hc => hc) ?_)
          · exact fun h => hne (h.symm.trans (hx t rfl))
          · rintro _ ⟨_, rfl, -⟩
            exact rfl
    refine Always.bind (hlinked.mono (fun _ hc => hc) ?_)
    rintro _ rfl
    exact ih hnot

theorem always_link (dependent : String) {added : TextSet} (hnot : id ∉ added) :
    (b.link dependent added ∅).Always (Call.Spares (Records.path b.root id).names) fun r => r = .ok () := by
  refine Always.bind (always_ask trivial fun _ now _ _ => ?_)
  refine Always.bind ((always_linkEach now dependent true hnot).mono (fun _ hc => hc) ?_)
  rintro _ rfl
  exact always_linkEach now dependent false List.not_mem_nil

/-- The program looks, and then it tries once to create the record at `p`. If it does not come so
far, or if there is a record already, it ends with a refusal; otherwise it spares the record that
it has created, and ends with the task in it. -/
def Contends (p : Path) (id : String) : Program (Except Error Task) → Prop
  | .done r => ∃ why, r = .error (.refused id why)
  | .ask (.createNew q s) next => q = p ∧ ∃ t, t.id = id ∧ s = Record.render t ∧
      (∃ why, next (.ok false : Except Failure Bool) = .done (.error (.refused id why))) ∧
      (next (.ok true : Except Failure Bool)).Always (Call.Spares p.names) fun r => r = .ok t
  | .ask c next => c.Looks ∧ ∀ f r g, c.Yields f r g → Contends p id (next r)

variable {p : Path}

theorem contends_ask {c : Call} {next : c.Answer → Program (Except Error Task)} (hc : c.Looks) :
    Contends p id (.ask c next) ↔ ∀ f r g, c.Yields f r g → Contends p id (next r) := by
  have h : Contends p id (.ask c next) ↔ c.Looks ∧ ∀ f r g, c.Yields f r g → Contends p id (next r) := by
    cases c with
    | createNew q s => exact hc.elim
    | _ => exact Iff.rfl
  rw [h, and_iff_right hc]

/-- A part that only looks and cannot fail. -/
theorem Contends.bind {α : Type} {a : Action α} {k : α → Action Task}
    (ha : a.Always Call.Looks fun r => ∃ x, r = .ok x) (hk : ∀ x, Contends p id (k x).run) :
    Contends p id (a >>= k).run := by
  change Contends p id (a.run.bind (ExceptT.bindCont k))
  unfold Action.Always at ha
  generalize a.run = program at ha ⊢
  induction program with
  | done r =>
    obtain ⟨x, rfl⟩ := ha
    exact hk x
  | ask c next ih =>
    exact (contends_ask ha.1).mpr fun f r g hy => ih r (ha.2 f r g hy)

theorem contends_settle {α : Type} {r : Except Error α} {x : α} {k : α → Action Task} (hr : r = .ok x)
    (hk : Contends p id (k x).run) : Contends p id (settle r >>= k).run := by
  rw [hr]
  exact hk

/-- The creation of the record decides. -/
theorem contends_create {t : Task} {k : Bool → Action Task} {why : Refusal} (ht : t.id = id)
    (hid : isValidId id = true) (hlost : k false = throw (.refused id why))
    (hwon : (k true).Always (Call.Spares (Records.path b.root id).names) fun r => r = .ok t) :
    Contends (Records.path b.root id) id (Records.create b.root t >>= k).run := by
  subst ht
  rw [Records.create, Records.checkId, if_pos hid]
  exact ⟨rfl, t, rfl, rfl, ⟨why, congrArg ExceptT.run hlost⟩, hwon⟩

/-- Whoever inserts a task with which nothing was wrong contends for its record. -/
theorem contends_insertAs (h : b.Admits n id f) :
    Contends (Records.path b.root id) id (b.insertAs n parent id).run := by
  obtain ⟨hid, -, checked, requires, hchecked, hrequires, -⟩ := h
  refine Contends.bind (Records.always_checkId hid) fun _ => ?_
  refine Contends.bind Records.always_holds fun taken => ?_
  split
  · exact ⟨_, rfl⟩
  refine contends_settle hchecked (contends_settle hrequires ?_)
  refine Contends.bind Records.always_scan fun all => ?_
  refine Contends.bind (always_ask trivial fun _ now _ _ => ⟨now, rfl⟩) fun now => ?_
  simp only
  split
  · exact ⟨_, rfl⟩
  · refine contends_create rfl hid rfl (Always.bind ((always_link id ?_).mono (fun _ hc => hc) ?_))
    · exact not_mem_requirementsOf hrequires
    · rintro _ rfl
      exact rfl

/-- A call of a program that contends finds the record or looks elsewhere, and the program goes on
contending; or it creates the record. -/
theorem contends_answer {w : World Files} {c : Call} {next : c.Answer → Program (Except Error Task)}
    (hopen : w.store.refusing = []) (h : Contends p id (.ask c next)) :
    ((w.answer c).2.store = w.store ∧ Contends p id (next (w.answer c).1)) ∨
    (w.store.text? p.names = none ∧ ∃ t, t.id = id ∧
      (w.answer c).2.store = w.store.put p.names (Record.render t) ∧
      (next (w.answer c).1).Always (Call.Spares p.names) fun r => r = .ok t) := by
  by_cases hlooks : c.Looks
  · have hyields := c.yields_answer w
    exact .inl ⟨hyields.eq_of_looks hlooks, (contends_ask hlooks).mp h _ _ _ hyields⟩
  cases c with
  | createNew q s =>
    obtain ⟨rfl, t, ht, rfl, ⟨why, hlost⟩, hwon⟩ := h
    cases htext : w.store.text? q.names with
    | some old =>
      have hanswer : w.answer (.createNew q (Record.render t)) = (.ok false, w) := by
        change w.withStore (w.store.createNew q (Record.render t)) = _
        rw [Files.createNew, hopen, if_neg List.not_mem_nil, htext]
        rfl
      rw [hanswer, hlost]
      exact .inl ⟨rfl, why, rfl⟩
    | none =>
      have hanswer : w.answer (.createNew q (Record.render t)) =
          (.ok true, { w with store := w.store.put q.names (Record.render t) }) := by
        change w.withStore (w.store.createNew q (Record.render t)) = _
        rw [Files.createNew, hopen, if_neg List.not_mem_nil, htext]
        rfl
      rw [hanswer]
      exact .inr ⟨rfl, t, ht, rfl, hwon⟩
  | _ => exact absurd h.1 hlooks

end Board

end Workboard
