import Workboard.Proofs.Board.Scanning
import Workboard.Proofs.Interleaving.Quiet
import Workboard.Proofs.Lock.Slot

/-!
# Reading the records of a board

What is found under an id in given files, and which ids the files have records for. Both
depend on the public files only. Run alone, a look at all records finds exactly this; in
turn with others, it finds each record as it was at the moment it was read.
-/
namespace Workboard.Records

deriving instance DecidableEq for Report

/-- What a load finds in these files. -/
def loadAt (f : Files) (root : Path) (id : String) : Except Error Task :=
  if isValidId id then
    match f.text? (path root id).names with
    | some content => read id content
    | none => .error (.notFound id)
  else .error (.invalidId id)

/-- The ids that these files have records for. -/
def idsAt (f : Files) (root : Path) : List String := idsOfNames ".md" (f.list (dir root))

section Paths
variable {root : Path} {id id' : String}

theorem names_path (root : Path) (id : String) :
    (path root id).names = root.names ++ ["tasks", id ++ ".md"] := by
  simp [path, dir]

theorem names_lock_path (root : Path) (id : String) :
    (Locks.path root id).names = root.names ++ ["locks", id ++ ".lock"] := by
  simp [Locks.path, Locks.dir]

theorem eq_of_names_path (h : (path root id).names = (path root id').names) : id = id' := by
  simp only [names_path, List.append_cancel_left_eq, List.cons.injEq, true_and, and_true] at h
  exact String.toList_inj.mp (by simpa [String.toList_append] using congrArg String.toList h)

theorem eq_of_names_lock_path (h : (Locks.path root id).names = (Locks.path root id').names) :
    id = id' := by
  simp only [names_lock_path, List.append_cancel_left_eq, List.cons.injEq, true_and, and_true] at h
  exact String.toList_inj.mp (by simpa [String.toList_append] using congrArg String.toList h)

/-- No record is where a lock is. -/
theorem names_path_ne_lock (root : Path) (id id' : String) :
    (path root id).names ≠ (Locks.path root id').names := by
  simp [names_path, names_lock_path]

theorem isPublic_path (root : Path) (id : String) : IsPublic (path root id).names := by
  have hd : ".md".toList.getLast? = some 'd' := by decide
  refine isPublic_of_getLast? List.getLast?_concat ?_
  rw [String.toList_append, List.getLast?_append, hd, Option.some_or]
  decide

end Paths

section Files
variable {f g : Files} {root : Path} {id : String}

theorem loadAt_congr (h : g.text? (path root id).names = f.text? (path root id).names) :
    loadAt g root id = loadAt f root id := by
  rw [loadAt, loadAt, h]

theorem loadAt_eq_ok {t : Task} : loadAt f root id = .ok t ↔ isValidId id = true ∧
    ∃ content, f.text? (path root id).names = some content ∧ read id content = .ok t := by
  unfold loadAt
  split
  · rename_i hid
    split
    · rename_i content hc
      simp [hid, hc]
    · rename_i hc
      simp [hid, hc]
  · rename_i hid
    simp [hid]

theorem loadAt_ne_notFound (h : (f.text? (path root id).names).isSome) (other : String) :
    loadAt f root id ≠ .error (.notFound other) := by
  obtain ⟨content, hc⟩ := Option.isSome_iff_exists.mp h
  simp only [loadAt, hc]
  split
  · exact read_ne_notFound id content other
  · exact fun h => by cases h

/-- A directory has an id if a file of that name with the ending is there. -/
theorem mem_idsOfNames {ending : String} {c : Char} (hend : ending.toList.getLast? = some c)
    (hpoint : c ≠ '.') (hslash : c ≠ '/') {p : Path} : id ∈ idsOfNames ending (f.list p) ↔
      isValidId id = true ∧ (f.text? (p.names ++ [id ++ ending])).isSome := by
  have hentry := isEntryName_append hend hpoint hslash id
  simp only [Path.isEntryName, Bool.and_eq_true, decide_eq_true_eq] at hentry
  rw [mem_idsOfNames_iff, Files.mem_list]
  exact and_congr_right fun _ => and_iff_left ⟨hentry.2, hentry.1.1⟩

/-- The ids depend only on which of their files there are. -/
theorem idsOfNames_congr {ending : String} {c : Char} (hend : ending.toList.getLast? = some c)
    (hpoint : c ≠ '.') (hslash : c ≠ '/') {p : Path} (hf : f.Proper) (hg : g.Proper)
    (h : ∀ id, (g.text? (p.names ++ [id ++ ending])).isSome = (f.text? (p.names ++ [id ++ ending])).isSome) :
    idsOfNames ending (g.list p) = idsOfNames ending (f.list p) := by
  have hinj : Function.Injective (· ++ ending) := fun a b hab =>
    String.toList_inj.mp (by simpa [String.toList_append] using congrArg String.toList hab)
  refine List.map_injective_iff.mpr hinj ?_
  simp only [map_idsOfNames]
  refine List.Pairwise.eq_of_mem_iff ((Files.pairwise_list hg _).filter _)
    ((Files.pairwise_list hf _).filter _) fun n => ?_
  rw [← map_idsOfNames, ← map_idsOfNames]
  simp only [List.mem_map]
  have hmem : ∀ id, id ∈ idsOfNames ending (g.list p) ↔ id ∈ idsOfNames ending (f.list p) := fun id => by
    rw [mem_idsOfNames hend hpoint hslash, mem_idsOfNames hend hpoint hslash, h]
  exact exists_congr fun id => and_congr_left fun _ => hmem id

theorem mem_idsAt : id ∈ idsAt f root ↔
    isValidId id = true ∧ (f.text? (path root id).names).isSome :=
  mem_idsOfNames (c := 'd') (by decide) (by decide) (by decide)

theorem idsAt_congr (hf : f.Proper) (hg : g.Proper)
    (h : ∀ id, (g.text? (path root id).names).isSome = (f.text? (path root id).names).isSome) :
    idsAt g root = idsAt f root :=
  idsOfNames_congr (c := 'd') (by decide) (by decide) (by decide) hf hg h

end Files

section Alone
variable (root : Path) (w : World Files)

theorem found_files : found w.store root = loadAt w.store root := by
  funext id
  unfold found loadAt
  change (if isValidId id then taskOf id (w.store.read (path root id)) else _) = _
  rw [Files.read]
  cases w.store.text? (path root id).names <;> rfl

/-- A load, run alone. -/
theorem runIn_load (id : String) : (load root id).run.runIn w = (loadAt w.store root id, w) := by
  rw [runIn_load_still, found_files]

/-- The ids, read alone. -/
theorem runIn_ids : (ids root).run.runIn w = (.ok (idsAt w.store root), w) := by
  unfold ids
  rw [Action.runIn_bind_ok (Action.runIn_present w _)]
  cases hp : w.store.present (dir root) with
  | true => rfl
  | false =>
    rw [idsAt, Files.list_of_not_present hp]
    rfl

/-- If a look at the whole board finds nothing wrong, it has loaded each record. -/
theorem forall₂_of_runIn_loadAll {all : Snapshot}
    (h : ((loadAll root).run.runIn w).1 = .ok ⟨all, []⟩) :
    List.Forall₂ (fun id t => loadAt w.store root id = .ok t) (idsAt w.store root) all := by
  rw [loadAll, Action.runIn_bind_ok (runIn_ids root w), runIn_loadEach, found_files] at h
  exact forall₂_of_reportOn (fun id hid => loadAt_ne_notFound (mem_idsAt.mp hid).2) (Except.ok.inj h)

end Alone

section Keeps
variable {ι : Type} {P : Protocol ι} {i : ι} {permit : Memo → Call → Files → Prop}
  {mid : Sight ι → Prop} {m : Memo} {v : Sight ι} {A : Sight ι → Prop} {root : Path}

/-- The task in the text that was read last. -/
def recalled? (m : Memo) : Option Task := m.content.bind fun s => (Record.parse s).toOption

/-- A load finds the record as it is at one moment. -/
theorem keeps_load (hA : P.Stable i A) (hmid : ∀ v, A v → mid v) {id : String}
    {post : Except Error Task → Memo → Sight ι → Prop} (hv : A v)
    (hpost : ∀ m' u, A u → m'.clock = m.clock →
      (∀ t, loadAt u.files root id = .ok t → recalled? m' = some t) → post (loadAt u.files root id) m' u) :
    P.Keeps i permit mid post (load root id).run m v := by
  refine Protocol.keeps_bind (Locks.keeps_checkId (fun hid => ?_) fun hid => ?_)
  · refine Protocol.keeps_bind (Protocol.keeps_read hA hmid hv fun u _ _ hu' => ?_)
    have h := hpost { m with content := u.files.text? (path root id).names } _ hu' rfl
    simp only [loadAt, hid, if_true, Sight.files_after] at h
    simp only [Files.read]
    cases ht : u.files.text? (path root id).names with
    | some content =>
      simp only [ht] at h
      exact h fun t hread => by simp [recalled?, parse_of_read hread, Except.toOption]
    | none =>
      simp only [ht] at h
      exact h fun t hread => by cases hread
  · have h := hpost m v hv rfl
    simp only [loadAt, hid] at h
    exact h fun t hread => by cases hread

/-- The ids are read at one moment, too. -/
theorem keeps_ids (hA : P.Stable i A) (hmid : ∀ v, A v → mid v) {all : List String}
    (hall : ∀ u, A u → idsAt u.files root = all)
    {post : Except Error (List String) → Memo → Sight ι → Prop} (hv : A v)
    (hpost : ∀ u, A u → post (.ok all) m u) :
    P.Keeps i permit mid post (ids root).run m v := by
  refine Protocol.keeps_bind (Protocol.keeps_present hA hmid hv fun u hu => ?_)
  cases hp : u.files.present (dir root) with
  | true =>
    refine Protocol.keeps_bind (Protocol.keeps_list hA hmid hu fun w hw => ?_)
    have h := hpost w hw
    rw [← hall w hw] at h
    exact h
  | false =>
    have h := hpost u hu
    rw [← hall u hu, idsAt, Files.list_of_not_present hp] at h
    exact h

/-- If all of some records can be loaded, whenever that is, then a scan of them finds a
task for each; what is known of the tasks found goes for the end of the scan. -/
theorem keeps_loadReadable {ids : List String} (found : String → Task → Sight ι → Prop)
    (hfound : ∀ id t, P.Stable i (found id t)) (hA : P.Stable i A) (hmid : ∀ v, A v → mid v)
    (hids : ∀ id ∈ ids, ∀ u, A u → ∃ t, loadAt u.files root id = .ok t ∧ found id t u)
    {post : Except Error Snapshot → Memo → Sight ι → Prop} (hv : A v)
    (hpost : ∀ all m u, A u → List.Forall₂ (fun id t => found id t u) ids all → post (.ok all) m u) :
    P.Keeps i permit mid post (loadReadable root ids).run m v := by
  induction ids generalizing A m v post with
  | nil => exact hpost [] m v hv .nil
  | cons id ids ih =>
    refine Protocol.keeps_bind (Protocol.keeps_attempt (keeps_load hA hmid hv fun _ u hu _ _ => ?_))
    obtain ⟨t, ht, hft⟩ := hids id List.mem_cons_self u hu
    rw [ht]
    refine Protocol.keeps_bind (ih (A := fun v => A v ∧ found id t v) (hA.and (hfound id t))
      (fun w hw => hmid w hw.1) (fun id' hid' w hw => hids id' (List.mem_cons_of_mem _ hid') w hw.1)
      ⟨hu, hft⟩ fun all m w hw hall => ?_)
    exact hpost (t :: all) m w hw.1 (.cons hw.2 hall)

theorem keeps_scan {ids : List String} (found : String → Task → Sight ι → Prop)
    (hfound : ∀ id t, P.Stable i (found id t)) (hA : P.Stable i A) (hmid : ∀ v, A v → mid v)
    (hall : ∀ u, A u → idsAt u.files root = ids)
    (hids : ∀ id ∈ ids, ∀ u, A u → ∃ t, loadAt u.files root id = .ok t ∧ found id t u)
    {post : Except Error Snapshot → Memo → Sight ι → Prop} (hv : A v)
    (hpost : ∀ all m u, A u → List.Forall₂ (fun id t => found id t u) ids all → post (.ok all) m u) :
    P.Keeps i permit mid post (scan root).run m v :=
  Protocol.keeps_bind (keeps_ids hA hmid hall hv fun _ hu =>
    keeps_loadReadable found hfound hA hmid hids hu hpost)


end Keeps

section Quiet

theorem quiet_checkId (id : String) : Action.Quiet (checkId id) := by
  unfold checkId
  split
  · exact Action.quiet_pure ()
  · exact Action.quiet_throw _

theorem quiet_load (root : Path) (id : String) : Action.Quiet (load root id) := by
  refine (quiet_checkId id).bind fun _ => (Action.quiet_read _).bind fun r => ?_
  cases r with
  | ok content => exact Action.quiet_settle _
  | error failure => exact Action.quiet_throw _

theorem quiet_ids (root : Path) : Action.Quiet (ids root) := by
  refine (Action.quiet_present _).bind fun b => ?_
  cases b with
  | true => exact (Action.quiet_list _).orFail.bind fun _ => Action.quiet_pure _
  | false => exact Action.quiet_pure _

theorem quiet_loadReadable (root : Path) (ids : List String) :
    Action.Quiet (loadReadable root ids) := by
  induction ids with
  | nil => exact Action.quiet_pure _
  | cons id ids ih =>
    refine (quiet_load root id).attempt.bind fun r => ?_
    cases r with
    | ok t => exact ih.bind fun _ => Action.quiet_pure _
    | error e => exact ih

theorem quiet_scan (root : Path) : Action.Quiet (scan root) :=
  (quiet_ids root).bind (quiet_loadReadable root)

end Quiet

end Workboard.Records
