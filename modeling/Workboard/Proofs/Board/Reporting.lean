import Workboard.Proofs.Board.Lone

/-!
# Reports on a board

A scan and a report each sort out which of the listed records can be read. Main statement: whatever
is in the directory of the records, files in memory or a directory tree, a report tells of each
listed id exactly once, as the id of a task or as one that cannot be read; a task stands under the
id of its own file; and a scan finds the tasks of the report, in the same order.
-/
namespace Workboard.Records
open Workboard.Action

variable {σ : Type} [FileStore σ]

/-- The ids that are listed, the tasks of a scan and the report on the same store fit together. -/
structure AccountsFor (w : World σ) (root : Path) (listed : List String) (r : Report) : Prop where
  ids : (Records.ids root).run.runIn w = (.ok listed, w)
  report : (loadAll root).run.runIn w = (.ok r, w)
  scan : (Records.scan root).run.runIn w = (.ok r.tasks, w)
  /-- The tasks of the scan, taken one by one. -/
  collect : (Records.ids root >>= Records.collect root).run.runIn w = (.ok r.tasks, w)
  nodup : listed.Nodup
  /-- A listed id is that of one task or is told of once, not both; no other id turns up. -/
  count : ∀ id, (r.tasks.map (·.id)).count id + (r.corrupt.map Prod.fst).count id =
    if id ∈ listed then 1 else 0
  distinct : (r.tasks.map (·.id)).Nodup
  /-- The tasks have the ids of the files that they were read from, in the order of the list. -/
  filed : r.tasks.map (·.id) = listed.filter fun id => ((load root id).run.runIn w).1.isOk
  tasks : ∀ t ∈ r.tasks, (load root t.id).run.runIn w = (.ok t, w)
  corrupt : ∀ e ∈ r.corrupt, (load root e.1).run.runIn w = (.error e.2, w)

/-- All looks at the records fail in the same way, since the directory cannot be listed. -/
def Unlisted (w : World σ) (root : Path) : Prop :=
  ∃ e, (Records.ids root).run.runIn w = (.error e, w) ∧ (loadAll root).run.runIn w = (.error e, w) ∧
    (scan root).run.runIn w = (.error e, w) ∧
    (Records.ids root >>= collect root).run.runIn w = (.error e, w)

variable {w : World σ} {root : Path} {listed : List String}

theorem unlisted_of_ids {e : Error} (h : (Records.ids root).run.runIn w = (.error e, w)) : Unlisted w root :=
  ⟨e, h, runIn_bind_error h, runIn_bind_error h, runIn_bind_error h⟩

section Still
variable [FileStore.Still σ]

theorem accountsFor_of_ids (hids : (Records.ids root).run.runIn w = (.ok listed, w)) (hnodup : listed.Nodup)
    (hthere : ∀ id ∈ listed, ∀ other, found w.store root id ≠ .error (.notFound other)) :
    AccountsFor w root listed (reportOn (found w.store root) listed) := by
  have hown : ∀ id t, found w.store root id = .ok t → t.id = id := fun _ _ => id_of_found
  have hfiled := map_id_tasks hown listed
  have hscan : (scan root).run.runIn w = (.ok (reportOn (found w.store root) listed).tasks, w) := by
    rw [scan, runIn_bind_ok hids, runIn_loadReadable_still]
    rfl
  exact {
    ids := hids
    report := by rw [loadAll, runIn_bind_ok hids, runIn_loadEach]
    scan := hscan
    collect := by rw [← scan_eq, hscan]
    nodup := hnodup
    count := count_reportOn hown hthere hnodup
    distinct := hfiled ▸ hnodup.filter _
    filed := by simp only [runIn_load_still, hfiled]
    tasks := fun t ht => by rw [runIn_load_still, loads_of_mem_tasks hown ht]
    corrupt := fun e he => by rw [runIn_load_still, loads_of_mem_corrupt he] }

theorem exists_accountsFor (w : World σ) (root : Path) (hs : FileStore.Catalogued w.store (dir root)) :
    Unlisted w root ∨ ∃ listed r, AccountsFor w root listed r := by
  rcases runIn_ids_still root w with ⟨e, h⟩ | h | ⟨names, hnames, h⟩
  · exact .inl (unlisted_of_ids h)
  · exact .inr ⟨_, _, accountsFor_of_ids h .nil fun _ hid => absurd hid List.not_mem_nil⟩
  · exact .inr ⟨_, _, accountsFor_of_ids h (nodup_idsOfNames (hs names hnames).1 ".md")
      fun _ hid => found_ne_notFound hs hnames hid⟩

end Still

/-- Of files in memory there is always a report, and it accounts for the ids that are listed, as
does the one of a directory tree whose directory of records can be listed. -/
theorem reports_account_for_ids (root : Path) :
    (∀ w : World Files, w.store.Proper → ∃ listed r, AccountsFor w root listed r) ∧
    (∀ w : World Tree, w.store.Proper → Unlisted w root ∨ ∃ listed r, AccountsFor w root listed r) := by
  refine ⟨fun w hw => ?_, fun w hw => exists_accountsFor w root (FileStore.catalogued_tree hw _)⟩
  rcases exists_accountsFor w root (FileStore.catalogued_files hw _) with ⟨e, h, -⟩ | h
  · rw [runIn_ids] at h
    cases (Prod.mk.inj h).1
  · exact h

/-- Beside a record there are one that declares its id, a text that is no record, and a foreign file. -/
def mixed : World Files :=
  let file (name text : String) := (["/", "store", "tasks", name], text)
  ⟨⟨[file "b.md" Lone.content, file "a.md" Lone.content, file "c.md" "---\nid: [\n---\n",
    file "README.txt" ""], []⟩, Lone.begun, 0, 4, 0⟩

/-- Beside a record there are a directory and a file that is no text, both named as records. -/
def mixedTree : World Tree :=
  let tasks := ["store", "tasks"]
  ⟨⟨[(["store"], .dir), (tasks, .dir), (tasks ++ ["b.md"], .dir), (tasks ++ ["c.md"], .file none),
    (tasks ++ ["a.md"], .file (some Lone.content))], []⟩, Lone.begun, 0, 4, 0⟩

theorem reports_account_mixed : mixed.store.Proper ∧ mixedTree.store.Proper ∧
    (∃ r, AccountsFor mixed Lone.board.root ["a", "b", "c"] r ∧ r.tasks = [Lone.task]) ∧
    ∃ r, AccountsFor mixedTree Lone.board.root ["a", "b", "c"] r ∧ r.tasks = [Lone.task] := by
  have hfiles : mixed.store.Proper := by
    unfold Files.Proper
    decide
  have htree : mixedTree.store.Proper := by
    unfold Tree.Proper
    decide
  refine ⟨hfiles, htree, ?_, ?_⟩
  · obtain ⟨listed, r, h⟩ := (reports_account_for_ids Lone.board.root).1 mixed hfiles
    have hids : ((Records.ids Lone.board.root).run.runIn mixed).1 = .ok ["a", "b", "c"] := by decide +kernel
    have htasks : ((scan Lone.board.root).run.runIn mixed).1 = .ok [Lone.task] := by decide +kernel
    rw [h.ids] at hids
    rw [h.scan] at htasks
    cases Except.ok.inj hids
    exact ⟨r, h, Except.ok.inj htasks⟩
  · have hids : ((Records.ids Lone.board.root).run.runIn mixedTree).1 = .ok ["a", "b", "c"] := by decide +kernel
    have htasks : ((scan Lone.board.root).run.runIn mixedTree).1 = .ok [Lone.task] := by decide +kernel
    rcases (reports_account_for_ids Lone.board.root).2 mixedTree htree with ⟨e, h, -⟩ | ⟨listed, r, h⟩
    · rw [h] at hids
      cases hids
    · rw [h.ids] at hids
      rw [h.scan] at htasks
      cases Except.ok.inj hids
      exact ⟨r, h, Except.ok.inj htasks⟩

end Workboard.Records
