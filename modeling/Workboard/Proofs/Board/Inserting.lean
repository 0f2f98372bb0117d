import Workboard.Proofs.Board.Alone

/-!
# How a task is inserted

A new task is checked, its record is created, and the tasks it requires are told of it. What can
be wrong with it is found in this order: its id, its fields, its requirements, a cycle, and the
record.
-/
namespace Workboard

namespace Action
variable {α β : Type}

/-- The action does not fail because a rule refuses what is asked for. -/
def NeverRefuses (a : Action α) : Prop :=
  ∀ (w : World Files) id why, (a.run.runIn w).1 ≠ .error (.refused id why)

theorem neverRefuses_pure (x : α) : NeverRefuses (pure x) := fun _ _ _ h => nomatch h

theorem neverRefuses_ask (c : Call) : NeverRefuses (ask c) := fun _ _ _ h => nomatch h

theorem neverRefuses_throw {e : Error} (h : ∀ id why, e ≠ .refused id why) :
    NeverRefuses (throw e : Action α) := fun _ id why heq => h id why (Except.error.inj heq)

theorem NeverRefuses.bind {a : Action α} {f : α → Action β} (ha : a.NeverRefuses)
    (hf : ∀ x, (f x).NeverRefuses) : (a >>= f).NeverRefuses := by
  intro w id why heq
  have hfirst := ha w id why
  rcases hrun : a.run.runIn w with ⟨r, w'⟩
  rw [hrun] at hfirst
  cases r with
  | ok x =>
    rw [runIn_bind_ok hrun] at heq
    exact hf x w' id why heq
  | error e =>
    rw [runIn_bind_error hrun] at heq
    exact hfirst (congrArg Except.error (Except.error.inj heq))

/-- What such an action fails with is no refusal. -/
theorem Ends.of_neverRefuses {a : Action α} {w : World Files} {post : Except Error α → World Files → Prop}
    (ha : a.NeverRefuses)
    (h : a.Ends w fun r w' => (∀ id why, r ≠ .error (.refused id why)) → post r w') : a.Ends w post :=
  h (ha w)

theorem NeverRefuses.orFail {a : Action (Except Failure α)} (ha : a.NeverRefuses) :
    (orFail a).NeverRefuses := by
  refine ha.bind fun r => ?_
  cases r with
  | ok x => exact neverRefuses_pure x
  | error failure => exact neverRefuses_throw fun _ _ => Error.noConfusion

theorem neverRefuses_attempt (a : Action α) : (attempt a).NeverRefuses := fun w id why h => by
  rw [runIn_attempt] at h
  cases h

theorem neverRefuses_replace (p : Path) (s : String) : (replace p s).NeverRefuses := by
  refine (neverRefuses_ask .token).bind fun token => ?_
  refine (NeverRefuses.orFail (neverRefuses_ask (.write _ _))).bind fun _ => ?_
  refine (neverRefuses_ask (.rename _ _)).bind fun r => ?_
  cases r with
  | ok _ => exact neverRefuses_pure ()
  | error failure =>
    exact (neverRefuses_ask (.remove _)).bind fun _ => neverRefuses_throw fun _ _ => Error.noConfusion

end Action

namespace Records
open Workboard.Action
variable {root : Path} {id : String}

theorem neverRefuses_checkId : (checkId id).NeverRefuses := by
  unfold checkId
  split
  · exact neverRefuses_pure ()
  · exact neverRefuses_throw fun _ _ => Error.noConfusion

theorem neverRefuses_save (t : Task) : (save root t).NeverRefuses :=
  neverRefuses_checkId.bind fun _ => neverRefuses_replace _ _

theorem neverRefuses_create (t : Task) : (create root t).NeverRefuses :=
  neverRefuses_checkId.bind fun _ => (neverRefuses_ask (.createNew _ _)).orFail

/-- There is something in the place of the record. -/
def holdsAt (f : Files) (root : Path) (id : String) : Bool := isValidId id && f.present (path root id)

theorem runIn_holds (w : World Files) : (holds root id).run.runIn w = (.ok (holdsAt w.store root id), w) := by
  rw [holds, holdsAt]
  cases isValidId id with
  | true => exact runIn_present w _
  | false => rfl

/-- Where there is nothing, there is no record. -/
theorem text?_of_holdsAt {f : Files} (h : holdsAt f root id = false) (hid : isValidId id = true) :
    f.text? (path root id).names = none := by
  rw [holdsAt, hid, Bool.true_and] at h
  by_contra hsome
  have hsome := Option.isSome_iff_ne_none.mpr hsome
  rw [Files.text?_isSome] at hsome
  obtain ⟨e, he, hkey⟩ := List.mem_map.mp hsome
  rw [Files.present, List.any_eq_false] at h
  refine h e he ?_
  rw [hkey, List.isPrefixOf_iff_prefix]

end Records

/-- No task is stated to require itself. -/
theorem not_mem_requirementsOf {id : String} {ids : List String} {requires : TextSet}
    (h : requirementsOf id ids = .ok requires) : id ∉ requires := by
  induction ids generalizing requires with
  | nil =>
    obtain rfl := Except.ok.inj h
    exact TextSet.not_mem_empty id
  | cons other ids ih =>
    unfold requirementsOf at h
    split at h
    · exact ih h
    · split at h
      · cases h
      · split at h
        · cases h
        · rename_i hne
          cases hrest : requirementsOf id ids with
          | error e =>
            rw [hrest] at h
            cases h
          | ok rest =>
            rw [hrest] at h
            obtain rfl := Except.ok.inj h
            rw [TextSet.mem_insert, not_or]
            exact ⟨fun heq => hne heq.symm, ih hrest⟩

namespace Board
open Workboard.Action

/-- The task that a new task is inserted as, if nothing is wrong with it. -/
def newTask (b : Board) (all : Snapshot) (n : NewTask) (parent : Option String) (id : String)
    (now : Instant) : Except Error Task :=
  (n.check id b.settings).bind fun checked => (requirementsOf id n.requires).map fun requires => {
    id, requires
    title := checked.1
    state := checked.2
    priority := n.priority.getD b.settings.defaultPriority
    blocks := all.requirers id
    createdAt := now
    updatedAt := now
    spawnedFrom := parent
    body := n.body }

/-- The id of a new task. -/
def idOfNew (w : World Files) (n : NewTask) : String := n.id.getD (World.idText w.idDigits (w.ids + 1))

/-- The insertion of a task once its id is settled. -/
def insertAs (b : Board) (n : NewTask) (parent : Option String) (id : String) : Action Task :=
  Records.checkId id >>= fun _ => Records.holds b.root id >>= fun taken =>
    if taken then throw (.refused id .taken)
    else settle (n.check id b.settings) >>= fun checked =>
      settle (requirementsOf id n.requires) >>= fun requires =>
        Records.scan b.root >>= fun all => now >>= fun now =>
          let t : Task := {
            id, requires
            title := checked.1
            state := checked.2
            priority := n.priority.getD b.settings.defaultPriority
            blocks := all.requirers id
            createdAt := now
            updatedAt := now
            spawnedFrom := parent
            body := n.body }
          match Snapshot.cycleWith? (all ++ [t]) id requires with
          | some cycle => throw (.refused id (.wouldCycle cycle))
          | none => Records.create b.root t >>= fun created =>
            if created then b.link id requires ∅ >>= fun _ => pure t
            else throw (.refused id .taken)

variable {b : Board} {w : World Files}

theorem insert_eq (n : NewTask) (parent : Option String) : b.insert n parent =
    match n.id with
    | some id => b.insertAs n parent id
    | none => freshId >>= b.insertAs n parent := by
  have hthrow : ∀ {α β : Type} (e : Error) (f : α → Action β), (throw e >>= f) = throw e := fun _ _ => rfl
  unfold insert insertAs
  simp only [hthrow]
  cases n.id with
  | none => rfl
  | some id => rfl

theorem isInitial_of_check {n : NewTask} {id : String} {settings : Settings} {title : String}
    {state : TaskState} (h : n.check id settings = .ok (title, state)) : state.isInitial = true := by
  unfold NewTask.check at h
  simp only at h
  split at h
  · cases h
  · split at h
    · rename_i hinitial
      cases h
      exact hinitial
    · cases h

theorem newTask_eq (all : Snapshot) {n : NewTask} (parent : Option String) {id : String} (now : Instant)
    {checked : String × TaskState} {requires : TextSet} (hcheck : n.check id b.settings = .ok checked)
    (hrequires : requirementsOf id n.requires = .ok requires) : b.newTask all n parent id now = .ok {
      id, requires
      title := checked.1
      state := checked.2
      priority := n.priority.getD b.settings.defaultPriority
      blocks := all.requirers id
      createdAt := now
      updatedAt := now
      spawnedFrom := parent
      body := n.body } := by
  rw [newTask, hcheck, hrequires]
  rfl

/-- What a new task is made of. -/
theorem exists_of_newTask {all : Snapshot} {n : NewTask} {parent : Option String} {id : String} {now : Instant}
    {t : Task} (h : b.newTask all n parent id now = .ok t) : ∃ (checked : String × TaskState) (requires : TextSet),
      n.check id b.settings = .ok checked ∧ requirementsOf id n.requires = .ok requires ∧ t = {
        id, requires
        title := checked.1
        state := checked.2
        priority := n.priority.getD b.settings.defaultPriority
        blocks := all.requirers id
        createdAt := now
        updatedAt := now
        spawnedFrom := parent
        body := n.body } := by
  cases hcheck : n.check id b.settings with
  | error e =>
    rw [newTask, hcheck] at h
    cases h
  | ok checked =>
    cases hrequires : requirementsOf id n.requires with
    | error e =>
      rw [newTask, hcheck, hrequires] at h
      cases h
    | ok requires =>
      rw [newTask_eq all parent now hcheck hrequires] at h
      exact ⟨checked, requires, rfl, rfl, (Except.ok.inj h).symm⟩

/-- A new task has the id that it was given, is in a state in which tasks may begin, and does not
require itself. -/
theorem of_newTask {all : Snapshot} {n : NewTask} {parent : Option String} {id : String} {now : Instant}
    {t : Task} (h : b.newTask all n parent id now = .ok t) :
    t.id = id ∧ t.state.isInitial = true ∧ id ∉ t.requires ∧ t.blocks = all.requirers id ∧
      t.createdAt = now ∧ t.updatedAt = now := by
  obtain ⟨checked, requires, hcheck, hrequires, rfl⟩ := exists_of_newTask h
  exact ⟨rfl, isInitial_of_check hcheck, not_mem_requirementsOf hrequires, rfl, rfl, rfl⟩

/-- A new task has the origin that it was given, and nothing was split off from it. -/
theorem origin_of_newTask {all : Snapshot} {n : NewTask} {parent : Option String} {id : String} {now : Instant}
    {t : Task} (h : b.newTask all n parent id now = .ok t) :
    t.spawnedFrom = parent ∧ t.spawnedTasks = [] ∧ t.extra = ∅ := by
  obtain ⟨checked, requires, -, -, rfl⟩ := exists_of_newTask h
  exact ⟨rfl, rfl, rfl⟩

theorem neverRefuses_linkEach (now : Instant) (dependent : String) (added : Bool) (ids : List String) :
    (b.linkEach now dependent added ids).NeverRefuses := by
  induction ids with
  | nil => exact neverRefuses_pure ()
  | cons id ids ih =>
    refine NeverRefuses.bind ((neverRefuses_attempt _).bind fun r => ?_) fun _ => ih
    cases r with
    | error e => exact neverRefuses_pure ()
    | ok t =>
      simp only
      split
      · exact neverRefuses_pure ()
      · exact (neverRefuses_attempt _).bind fun _ => neverRefuses_pure ()

theorem neverRefuses_link (dependent : String) (added removed : TextSet) :
    (b.link dependent added removed).NeverRefuses :=
  (neverRefuses_ask .now).bind fun now =>
    (neverRefuses_linkEach now dependent true _).bind fun _ => neverRefuses_linkEach now dependent false _

section Insert
variable {n : NewTask} {parent : Option String} {post : Except Error Task → World Files → Prop}

/-- A task whose id is settled is inserted: what is wrong with it is found first, then whether it
would be on a cycle, and then its record is created. -/
theorem ends_insertAs (hw : w.Steady) (id : String)
    (hbad : (isValidId id = true → Records.holdsAt w.store b.root id = false →
      ∀ t, b.newTask (Records.allAt w.store b.root) n parent id w.clock ≠ .ok t) → ∀ e, post (.error e) w)
    (hcycle : ∀ t c, b.newTask (Records.allAt w.store b.root) n parent id w.clock = .ok t →
      Snapshot.cycleWith? (Records.allAt w.store b.root ++ [t]) id t.requires = some c →
      post (.error (.refused id (.wouldCycle c))) w)
    (hfailed : ∀ t e, b.newTask (Records.allAt w.store b.root) n parent id w.clock = .ok t →
      Snapshot.cycleWith? (Records.allAt w.store b.root ++ [t]) id t.requires = none →
      (∀ c, e ≠ .refused id (.wouldCycle c)) → post (.error e) w)
    (hcreated : ∀ t w₁, b.newTask (Records.allAt w.store b.root) n parent id w.clock = .ok t →
      Snapshot.cycleWith? (Records.allAt w.store b.root ++ [t]) id t.requires = none →
      isValidId id = true → w.store.text? (Records.path b.root id).names = none →
      w.Becomes w₁ (Function.update w.store.text? (Records.path b.root id).names (some (Record.render t))) →
      (b.link id t.requires ∅).Ends w₁ (andThen (fun _ => pure t) post)) :
    (b.insertAs n parent id).Ends w post := by
  refine ends_bind (Records.ends_checkId (fun hid => ?_) fun hid => hbad (fun h => by simp [hid] at h) _)
  refine ends_bind (ends_of_runIn (Records.runIn_holds w) ?_)
  rw [andThen_ok]
  cases hholds : Records.holdsAt w.store b.root id with
  | true => exact ends_throw (hbad (fun _ h => by simp [hholds] at h) _)
  | false =>
    refine ends_bind (ends_settle ?_)
    cases hcheck : n.check id b.settings with
    | error e => exact hbad (fun _ _ t h => by simp [newTask, hcheck, Except.bind] at h) e
    | ok checked =>
      refine ends_bind (ends_settle ?_)
      cases hrequires : requirementsOf id n.requires with
      | error e => exact hbad (fun _ _ t h => by simp [newTask, hcheck, hrequires, Except.bind, Except.map] at h) e
      | ok requires =>
        have hnew := newTask_eq (Records.allAt w.store b.root) parent w.clock hcheck hrequires
        refine ends_bind (Records.ends_scan (ends_bind (ends_now ?_)))
        simp only [andThen]
        split
        · rename_i c hsome
          exact ends_throw (hcycle _ c hnew hsome)
        · rename_i hnone
          refine ends_bind (Ends.of_neverRefuses (Records.neverRefuses_create _) (Records.ends_create hw
            (fun e hno => ?_) (fun _ => ?_) fun hid htext w₁ hw₁ _ => ?_))
          · exact hfailed _ e hnew hnone fun c heq => hno id _ (congrArg Except.error heq)
          · exact ends_throw (hfailed _ _ hnew hnone fun c => by simp)
          · exact ends_bind (hcreated _ w₁ hnew hnone hid htext hw₁)

/-- A task is inserted under the id that it was given, or under a fresh one. -/
theorem ends_insert_new (hw : w.Steady)
    (hbad : (isValidId (idOfNew w n) = true → Records.holdsAt w.store b.root (idOfNew w n) = false →
      ∀ t, b.newTask (Records.allAt w.store b.root) n parent (idOfNew w n) w.clock ≠ .ok t) →
      ∀ e w', w.Becomes w' w.store.text? → post (.error e) w')
    (hcycle : ∀ t c w', b.newTask (Records.allAt w.store b.root) n parent (idOfNew w n) w.clock = .ok t →
      Snapshot.cycleWith? (Records.allAt w.store b.root ++ [t]) (idOfNew w n) t.requires = some c →
      w.Becomes w' w.store.text? → post (.error (.refused (idOfNew w n) (.wouldCycle c))) w')
    (hfailed : ∀ t e w', b.newTask (Records.allAt w.store b.root) n parent (idOfNew w n) w.clock = .ok t →
      Snapshot.cycleWith? (Records.allAt w.store b.root ++ [t]) (idOfNew w n) t.requires = none →
      (∀ c, e ≠ .refused (idOfNew w n) (.wouldCycle c)) → w.Becomes w' w.store.text? → post (.error e) w')
    (hcreated : ∀ t w₁, b.newTask (Records.allAt w.store b.root) n parent (idOfNew w n) w.clock = .ok t →
      Snapshot.cycleWith? (Records.allAt w.store b.root ++ [t]) (idOfNew w n) t.requires = none →
      isValidId (idOfNew w n) = true → w.store.text? (Records.path b.root (idOfNew w n)).names = none →
      w.Becomes w₁ (Function.update w.store.text? (Records.path b.root (idOfNew w n)).names
        (some (Record.render t))) →
      (b.link (idOfNew w n) t.requires ∅).Ends w₁ (andThen (fun _ => pure t) post)) :
    (b.insert n parent).Ends w post := by
  rw [insert_eq]
  rw [idOfNew] at hbad hcycle hfailed hcreated
  cases hid : n.id with
  | some id =>
    rw [hid, Option.getD_some] at hbad hcycle hfailed hcreated
    exact ends_insertAs hw id (fun h e => hbad h e w hw.becomes_self)
      (fun t c hnew hsome => hcycle t c w hnew hsome hw.becomes_self)
      (fun t e hnew hnone hno => hfailed t e w hnew hnone hno hw.becomes_self) hcreated
  | none =>
    rw [hid, Option.getD_none] at hbad hcycle hfailed hcreated
    -- a fresh id changes the count of ids and nothing else
    have hw' : World.Steady { w with ids := w.ids + 1 } := ⟨hw.proper, hw.unused⟩
    have hsame : w.Becomes { w with ids := w.ids + 1 } w.store.text? := ⟨⟨hw', rfl, rfl⟩, rfl⟩
    refine ends_bind (ends_freshId (ends_insertAs hw' _ (fun h e => hbad h e _ hsame)
      (fun t c hnew hsome => hcycle t c _ hnew hsome hsame)
      (fun t e hnew hnone hno => hfailed t e _ hnew hnone hno hsame) ?_))
    intro t w₁ hnew hnone hvalid htext hw₁
    exact hcreated t w₁ hnew hnone hvalid htext ⟨⟨hw₁.steady, hw₁.clock, hw₁.refusing⟩, hw₁.text⟩

/-- A task is inserted: its record is created, and then the tasks it requires are told; if
the record is not created, nothing changes. -/
theorem ends_insert (hw : w.Steady)
    (herr : ∀ e w', w.Becomes w' w.store.text? → post (.error e) w')
    (hcreated : ∀ t w₁, isValidId t.id = true → w.store.text? (Records.path b.root t.id).names = none →
      t.state.isInitial = true →
      w.Becomes w₁ (Function.update w.store.text? (Records.path b.root t.id).names (some (Record.render t))) →
      (b.link t.id t.requires ∅).Ends w₁ (andThen (fun _ => pure t) post)) :
    (b.insert n parent).Ends w post := by
  refine ends_insert_new hw (fun _ => herr) (fun _ c w' _ _ => herr _ w') (fun _ e w' _ _ _ => herr e w')
    fun t w₁ hnew _ hvalid hnone hw₁ => ?_
  obtain ⟨hid, hinitial, -⟩ := of_newTask hnew
  rw [← hid] at hvalid hnone hw₁ ⊢
  exact hcreated t w₁ hvalid hnone hinitial hw₁

end Insert

end Board

end Workboard
