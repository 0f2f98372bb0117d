import Workboard.Board.Records
import Workboard.Proofs.Storage.Alone
import Workboard.Proofs.Storage.Listing

/-!
# Scanning the records of a board

A scan reads a record when it is asked for the next task, and passes over the records that
cannot be read. A report reads all records at once and tells which of them cannot be read.
Main statements: to take tasks from a scan until there are none left is to read all records
at once, and where no look changes the store, both find of each id what a load of it finds.
-/
namespace Workboard.Records
open Workboard.Action

section Scan

/-- A task that a scan came to, and the ids that it has not looked at yet. -/
structure Drawn (ids : List String) where
  task : Task
  rest : List String
  shorter : rest.length < ids.length

/-- The next task that can be read. -/
def next (root : Path) : (ids : List String) → Action (Option (Drawn ids))
  | [] => pure none
  | id :: ids => do
    match ← attempt (load root id) with
    | .ok t => pure (some ⟨t, ids, Nat.lt_succ_self _⟩)
    | .error _ =>
      let drawn ← next root ids
      pure (drawn.map fun d => ⟨d.task, d.rest, Nat.lt_succ_of_lt d.shorter⟩)

/-- The tasks that a scan comes to, taken one by one until there are none left. -/
def collect (root : Path) (ids : List String) : Action Snapshot := do
  match ← next root ids with
  | none => pure []
  | some d =>
    have := d.shorter
    return d.task :: (← collect root d.rest)
termination_by ids.length

/-- A record that cannot be read makes no difference to what is collected. -/
theorem collect_cons (root : Path) (id : String) (ids : List String) : collect root (id :: ids) = (do
    match ← attempt (load root id) with
    | .ok t => return t :: (← collect root ids)
    | .error _ => collect root ids) := by
  rw [collect, next, bind_assoc]
  refine bind_congr fun r => ?_
  cases r with
  | ok t => simp only [pure_bind]
  | error e =>
    rw [collect, bind_assoc]
    refine bind_congr fun drawn => ?_
    cases drawn with
    | none => simp only [pure_bind, Option.map_none]
    | some d => simp only [pure_bind, Option.map_some]

theorem collect_eq (root : Path) (ids : List String) : collect root ids = loadReadable root ids := by
  induction ids with
  | nil =>
    rw [collect, next]
    simp only [pure_bind]
    rfl
  | cons id ids ih =>
    rw [collect_cons, ih]
    rfl

/-- A scan whose tasks are all taken finds all tasks that can be read. -/
theorem scan_eq (root : Path) : scan root = ids root >>= collect root := by
  rw [scan, funext (collect_eq root)]

end Scan

section Names
variable {ending : String}

theorem beforeEnd?_eq_some {ending s id : String} :
    Text.beforeEnd? ending s = some id ↔ s = id ++ ending := by
  constructor
  · intro h
    obtain ⟨cs, hcs, rfl⟩ := Option.map_eq_some_iff.mp h
    have hrev := congrArg List.reverse (Text.eq_append_of_afterFront? hcs)
    simp only [List.reverse_reverse, List.reverse_append] at hrev
    exact String.toList_inj.mp (by simp [hrev])
  · rintro rfl
    exact Text.beforeEnd?_append id ending

/-- The names that stand for ids, in their order. -/
theorem map_idsOfNames (ending : String) (names : List String) :
    (idsOfNames ending names).map (· ++ ending) =
      names.filter fun n => (Text.beforeEnd? ending n).any isValidId := by
  induction names with
  | nil => rfl
  | cons n names ih =>
    cases hn : Text.beforeEnd? ending n with
    | none =>
      rw [List.filter_cons_of_neg (by simp [hn]), ← ih]
      simp [idsOfNames, hn]
    | some id =>
      by_cases hid : isValidId id = true
      · rw [List.filter_cons_of_pos (by simp [hn, hid]), ← ih, beforeEnd?_eq_some.mp hn]
        simp [idsOfNames, hid]
      · rw [List.filter_cons_of_neg (by simp [hn, hid]), ← ih, beforeEnd?_eq_some.mp hn]
        simp [idsOfNames, hid]

theorem mem_idsOfNames_iff {names : List String} {id : String} :
    id ∈ idsOfNames ending names ↔ isValidId id = true ∧ id ++ ending ∈ names := by
  simp only [idsOfNames, List.mem_filter, List.mem_filterMap, beforeEnd?_eq_some]
  constructor
  · rintro ⟨⟨_, hn, rfl⟩, hid⟩
    exact ⟨hid, hn⟩
  · rintro ⟨hid, hn⟩
    exact ⟨⟨_, hn, rfl⟩, hid⟩

/-- Names that are listed once stand for ids that are listed once. -/
theorem nodup_idsOfNames {names : List String} (h : names.Nodup) (ending : String) :
    (idsOfNames ending names).Nodup := by
  refine List.Nodup.of_map (· ++ ending) ?_
  rw [map_idsOfNames]
  exact h.filter _

/-- An ending whose last character is not a point or a slash makes a name that of an entry. -/
theorem isEntryName_append {c : Char} (hend : ending.toList.getLast? = some c) (hpoint : c ≠ '.')
    (hslash : c ≠ '/') (id : String) : Path.isEntryName (id ++ ending) = true := by
  have hlast : (id ++ ending).toList.getLast? = some c := by
    rw [String.toList_append, List.getLast?_append, hend, Option.some_or]
  have hne : ∀ other : String, other.toList.getLast? ≠ some c → id ++ ending ≠ other :=
    fun other hother heq => hother (heq ▸ hlast)
  have hroot := hne "/" fun h => hslash (Option.some.inj h).symm
  have hhere := hne "." fun h => hpoint (Option.some.inj h).symm
  have habove := hne ".." fun h => hpoint (Option.some.inj h).symm
  simp [Path.isEntryName, hroot, hhere, habove]

end Names

section Report

/-- What a report tells of an id by what a load of it comes to. A record that is gone is not
told of. -/
def complaint? (id : String) : Except Error Task → Option (String × Error)
  | .ok _ => none
  | .error (.notFound _) => none
  | .error e => some (id, e)

/-- The report on some ids, by what a load of each comes to. -/
def reportOn (loads : String → Except Error Task) (ids : List String) : Report :=
  ⟨ids.filterMap fun id => (loads id).toOption, ids.filterMap fun id => complaint? id (loads id)⟩

variable {loads : String → Except Error Task} {ids : List String}

/-- The tasks of a report are those of the records that can be read, in their order. -/
theorem map_id_tasks (hown : ∀ id t, loads id = .ok t → t.id = id) (ids : List String) :
    (reportOn loads ids).tasks.map (·.id) = ids.filter fun id => (loads id).isOk := by
  simp only [reportOn]
  induction ids with
  | nil => rfl
  | cons id ids ih =>
    cases hload : loads id with
    | ok t =>
      rw [List.filterMap_cons_some (by rw [hload]; rfl), List.map_cons, ih, hown id t hload,
        List.filter_cons_of_pos (by rw [hload]; rfl)]
    | error e =>
      rw [List.filterMap_cons_none (by rw [hload]; rfl), ih,
        List.filter_cons_of_neg (by rw [hload]; exact Bool.false_ne_true)]

theorem complaint?_of_error {id : String} {e : Error} (h : ∀ other, e ≠ .notFound other) :
    complaint? id (.error e) = some (id, e) := by
  cases e with
  | notFound other => exact absurd rfl (h other)
  | _ => rfl

/-- If no record is gone, the others are told of, in their order. -/
theorem map_fst_corrupt (hthere : ∀ id ∈ ids, ∀ other, loads id ≠ .error (.notFound other)) :
    (reportOn loads ids).corrupt.map Prod.fst = ids.filter fun id => !(loads id).isOk := by
  simp only [reportOn]
  induction ids with
  | nil => rfl
  | cons id ids ih =>
    obtain ⟨hid, hids⟩ := List.forall_mem_cons.mp hthere
    cases hload : loads id with
    | ok t =>
      rw [List.filterMap_cons_none (by rw [hload]; rfl), ih hids,
        List.filter_cons_of_neg (by rw [hload]; exact Bool.false_ne_true)]
    | error e =>
      have he : complaint? id (loads id) = some (id, e) := by
        rw [hload]
        exact complaint?_of_error fun other heq => hid other (by rw [hload, heq])
      rw [List.filterMap_cons_some (f := fun id => complaint? id (loads id)) he, List.map_cons, ih hids,
        List.filter_cons_of_pos (by rw [hload]; rfl)]

theorem loads_of_mem_tasks (hown : ∀ id t, loads id = .ok t → t.id = id) {t : Task}
    (ht : t ∈ (reportOn loads ids).tasks) : loads t.id = .ok t := by
  obtain ⟨id, -, hid⟩ := List.mem_filterMap.mp ht
  cases hload : loads id with
  | error e => rw [hload] at hid; cases hid
  | ok u =>
    rw [hload] at hid
    obtain rfl := Option.some.inj hid
    rw [hown id u hload, hload]

theorem loads_of_mem_corrupt {e : String × Error} (he : e ∈ (reportOn loads ids).corrupt) :
    loads e.1 = .error e.2 := by
  obtain ⟨id, -, hid⟩ := List.mem_filterMap.mp he
  unfold complaint? at hid
  split at hid
  · cases hid
  · cases hid
  · rename_i reason _ hload
    obtain rfl := Option.some.inj hid
    exact hload

/-- A report that finds nothing wrong has the records of all ids, in their order. -/
theorem forall₂_of_reportOn {loads : String → Except Error Task} {ids : List String} {all : Snapshot}
    (hthere : ∀ id ∈ ids, ∀ other, loads id ≠ .error (.notFound other))
    (h : reportOn loads ids = ⟨all, []⟩) : List.Forall₂ (fun id t => loads id = .ok t) ids all := by
  induction ids generalizing all with
  | nil =>
    cases h
    exact .nil
  | cons id ids ih =>
    obtain ⟨hid, hids⟩ := List.forall_mem_cons.mp hthere
    simp only [reportOn, List.filterMap_cons] at h
    cases hload : loads id with
    | ok t =>
      rw [hload] at h
      obtain ⟨rfl, hcorrupt⟩ := Report.mk.inj h
      exact .cons hload (ih hids (Report.mk.injEq .. |>.mpr ⟨rfl, hcorrupt⟩))
    | error e =>
      rw [hload, complaint?_of_error fun other heq => hid other (by rw [hload, heq])] at h
      cases (Report.mk.inj h).2

/-- Each id is that of one task or is told of once, not both, and no other id turns up. -/
theorem count_reportOn (hown : ∀ id t, loads id = .ok t → t.id = id)
    (hthere : ∀ id ∈ ids, ∀ other, loads id ≠ .error (.notFound other)) (hids : ids.Nodup) (id : String) :
    ((reportOn loads ids).tasks.map (·.id)).count id + ((reportOn loads ids).corrupt.map Prod.fst).count id =
      if id ∈ ids then 1 else 0 := by
  rw [map_id_tasks hown, map_fst_corrupt hthere, ← List.count_append,
    (List.filter_append_perm _ ids).count_eq]
  split
  · rename_i hmem
    exact List.count_eq_one_of_mem hids hmem
  · rename_i hmem
    exact List.count_eq_zero.mpr hmem

end Report

section Looking
variable {σ : Type} [FileStore σ]

/-- The task in a file, or why there is none. -/
def taskOf (id : String) : Except Failure String → Except Error Task
  | .ok content => read id content
  | .error failure => .error (if failure.absent then .notFound id else .storage failure.message)

/-- What a load finds in this store. -/
def found (s : σ) (root : Path) (id : String) : Except Error Task :=
  if isValidId id then taskOf id (FileStore.read (path root id) s).1 else .error (.invalidId id)

theorem id_of_read {id content : String} {t : Task} (h : read id content = .ok t) : t.id = id := by
  unfold read at h
  split at h
  · cases h
  · split at h
    · rename_i hid
      cases h
      exact hid
    · cases h

theorem parse_of_read {id content : String} {t : Task} (h : read id content = .ok t) :
    Record.parse content = .ok t := by
  unfold read at h
  split at h
  · cases h
  · rename_i u hu
    split at h
    · cases h
      exact hu
    · cases h

theorem read_ne_notFound (id content other : String) : read id content ≠ .error (.notFound other) := by
  unfold read
  split
  · exact fun h => by cases h
  · split <;> exact fun h => by cases h

/-- A task is filed under its own id. -/
theorem id_of_found {s : σ} {root : Path} {id : String} {t : Task} (h : found s root id = .ok t) :
    t.id = id := by
  unfold found at h
  split at h
  · unfold taskOf at h
    split at h
    · exact id_of_read h
    · cases h
  · cases h

/-- What a directory lists is there. -/
theorem found_ne_notFound {s : σ} {root : Path} {names : List String} (hs : FileStore.Catalogued s (dir root))
    (hnames : (FileStore.list (dir root) s).1 = .ok names) {id : String} (hid : id ∈ idsOfNames ".md" names)
    (other : String) : found s root id ≠ .error (.notFound other) := by
  obtain ⟨hvalid, hmem⟩ := mem_idsOfNames_iff.mp hid
  have hentry : Path.isEntryName (id ++ ".md") = true :=
    isEntryName_append (c := 'd') (by decide) (by decide) (by decide) id
  rw [found, if_pos hvalid]
  cases hread : (FileStore.read (path root id) s).1 with
  | ok content => exact read_ne_notFound id content other
  | error failure =>
    have hthere := (hs names hnames).2 _ hmem hentry failure hread
    rw [taskOf, hthere]
    exact fun h => by cases h

variable [FileStore.Still σ] (root : Path) (w : World σ)

/-- A load, run alone. -/
theorem runIn_load_still (id : String) : (load root id).run.runIn w = (found w.store root id, w) := by
  unfold load found checkId
  cases hid : isValidId id with
  | false => rfl
  | true =>
    have hcheck : (pure () : Action Unit).run.runIn w = (.ok (), w) := rfl
    simp only [if_true]
    rw [runIn_bind_ok hcheck, runIn_bind_ok (runIn_read_still w _)]
    cases (FileStore.read (path root id) w.store).1 with
    | ok content => rfl
    | error failure => rfl

theorem runIn_attempt_load (id : String) :
    (attempt (load root id)).run.runIn w = (.ok (found w.store root id), w) := by
  rw [runIn_attempt, runIn_load_still]

/-- All records that can be read, read alone. -/
theorem runIn_loadReadable_still (ids : List String) : (loadReadable root ids).run.runIn w =
    (.ok (ids.filterMap fun id => (found w.store root id).toOption), w) := by
  induction ids with
  | nil => rfl
  | cons id ids ih =>
    rw [loadReadable, runIn_bind_ok (runIn_attempt_load root w id)]
    cases hid : found w.store root id with
    | ok t =>
      rw [List.filterMap_cons, hid]
      exact runIn_bind_ok ih
    | error e =>
      rw [List.filterMap_cons, hid]
      exact ih

/-- A report, made alone. -/
theorem runIn_loadEach (ids : List String) :
    (loadEach root ids).run.runIn w = (.ok (reportOn (found w.store root) ids), w) := by
  induction ids with
  | nil => rfl
  | cons id ids ih =>
    rw [loadEach, runIn_bind_ok (runIn_attempt_load root w id), reportOn, List.filterMap_cons, List.filterMap_cons]
    cases hid : found w.store root id with
    | ok t => exact runIn_bind_ok ih
    | error e =>
      cases e with
      | notFound other => exact ih
      | _ => exact runIn_bind_ok ih

/-- The ids, listed alone: they are those of the names in the directory, none if it is missing. -/
theorem runIn_ids_still : (∃ e, (ids root).run.runIn w = (.error e, w)) ∨
    (ids root).run.runIn w = (.ok [], w) ∨
      ∃ names, (FileStore.list (dir root) w.store).1 = .ok names ∧
        (ids root).run.runIn w = (.ok (idsOfNames ".md" names), w) := by
  have hlist := runIn_list_still w (dir root)
  rw [ids, runIn_bind_ok (runIn_present_still w _)]
  cases (FileStore.present (dir root) w.store).1 with
  | false => exact .inr (.inl rfl)
  | true =>
    cases hnames : (FileStore.list (dir root) w.store).1 with
    | ok names =>
      rw [hnames] at hlist
      exact .inr (.inr ⟨names, rfl, runIn_bind_ok (runIn_bind_ok hlist)⟩)
    | error failure =>
      rw [hnames] at hlist
      exact .inl ⟨_, runIn_bind_error (runIn_bind_ok hlist)⟩

end Looking

end Workboard.Records
