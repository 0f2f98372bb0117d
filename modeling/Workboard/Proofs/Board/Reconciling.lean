import Workboard.Proofs.Board.Recovery
import Workboard.Proofs.Graph.Settling

/-!
# What reconciling a board comes to

A repair saves every task that it changes, so that the board reads as the repaired snapshot
afterwards. Main statement: after it no task waits for a task that is done, the noted dependents
of every task are those that require it, nothing else has changed in any task, and a second repair
finds nothing to do.
-/
namespace Workboard

namespace Records
variable {f : Files} {root : Path} {ts : List Task}

/-- The dependents that are noted in a task are exactly the tasks that require it. Only tasks that
can be read count. -/
def Mirrored (f : Files) (root : Path) : Prop :=
  ∀ id t, loadAt f root id = .ok t →
    ∀ other, other ∈ t.blocks ↔ ∃ u, loadAt f root other = .ok u ∧ id ∈ u.requires

/-- No task waits in vain: none that is not at its end waits for a task that is done, and none that
waits for no task in particular requires one that is done. -/
structure NoneAwaitsDone (f : Files) (root : Path) : Prop where
  waits : ∀ id t done d, loadAt f root id = .ok t → loadAt f root done = .ok d → d.state = .done →
    t.state.isTerminal = false → t.waitingFor ≠ some done
  requires : ∀ id t done d, loadAt f root id = .ok t → loadAt f root done = .ok d → d.state = .done →
    t.state = .waiting → t.waitingFor = none → done ∉ t.requires

theorem mirrored_iff : Mirrored f root ↔
    ∀ t ∈ allAt f root, ∀ other, other ∈ t.blocks ↔ other ∈ (allAt f root).requirers t.id := by
  have hrequirers : ∀ id other, other ∈ (allAt f root).requirers id ↔
      ∃ u, loadAt f root other = .ok u ∧ id ∈ u.requires := by
    intro id other
    rw [Snapshot.mem_requirers]
    constructor
    · rintro ⟨u, hu, rfl, hrequires⟩
      exact ⟨u, mem_allAt.mp hu, hrequires⟩
    · rintro ⟨u, hu, hrequires⟩
      exact ⟨u, mem_allAt_of_loadAt hu, id_of_loadAt hu, hrequires⟩
  constructor
  · intro h t ht other
    rw [hrequirers]
    exact h t.id t (mem_allAt.mp ht) other
  · intro h id t ht other
    rw [← hrequirers, ← id_of_loadAt ht]
    exact h t (mem_allAt_of_loadAt ht) other

/-- Where everything is settled, no task waits in vain. -/
theorem noneAwaitsDone_of_isSettled (h : (allAt f root).IsSettled) : NoneAwaitsDone f root := by
  have hnot : ∀ id t done d, loadAt f root id = .ok t → loadAt f root done = .ok d → d.state = .done →
      ¬ t.Awaits done := by
    intro id t done d ht hd hdone
    rw [← id_of_loadAt hd]
    exact h.nobody d (mem_allAt_of_loadAt hd) hdone t (mem_allAt_of_loadAt ht)
  -- two tasks of one id are the same, and a task that is done is at its end
  have hne : ∀ id t done d, loadAt f root id = .ok t → loadAt f root done = .ok d → d.state = .done →
      t.state.isTerminal = false → t.id ≠ done := by
    rintro id t done d ht hd hdone hopen rfl
    rw [id_of_loadAt ht, ht] at hd
    obtain rfl := Except.ok.inj hd
    rw [hdone] at hopen
    cases hopen
  refine ⟨fun id t done d ht hd hdone hopen hfor => ?_, fun id t done d ht hd hdone hstate hfor hmem => ?_⟩
  · exact hnot id t done d ht hd hdone ⟨hne id t done d ht hd hdone hopen, hopen, .inl hfor⟩
  · have hopen : t.state.isTerminal = false := by rw [hstate]; rfl
    exact hnot id t done d ht hd hdone ⟨hne id t done d ht hd hdone hopen, hopen, .inr ⟨hstate, hfor, hmem⟩⟩

theorem savedTexts_of_ne {texts : List String → Option String} {names : List String}
    (h : ∀ t ∈ ts, names ≠ (path root t.id).names) : savedTexts root ts texts names = texts names := by
  induction ts generalizing texts with
  | nil => rfl
  | cons t ts ih =>
    obtain ⟨hne, h⟩ := List.forall_mem_cons.mp h
    exact (ih h).trans (Function.update_of_ne hne _ _)

end Records

namespace Board
open Workboard.Action
variable {b : Board} {w : World Files}

/-- What a repair comes to that has changed the tasks `ts`. -/
structure Reconciled (b : Board) (w : World Files) (ts : List Task) (w' : World Files) : Prop where
  noneAwaitsDone : Records.NoneAwaitsDone w'.store b.root
  mirrored : Records.Mirrored w'.store b.root
  /-- Every task is still there, and nothing else has changed in it. -/
  repaired : ∀ id t, Records.loadAt w.store b.root id = .ok t →
    ∃ u, Records.loadAt w'.store b.root id = .ok u ∧ t.Repaired u
  /-- Only records that could be read were changed. -/
  changed : ∀ t ∈ ts, Records.loadAt w'.store b.root t.id = .ok t ∧
    ∃ u, Records.loadAt w.store b.root t.id = .ok u
  unchanged : ∀ names, (∀ t ∈ ts, names ≠ (Records.path b.root t.id).names) →
    w'.store.text? names = w.store.text? names
  /-- A second repair, at any instant, finds nothing to do. -/
  again : ∀ now, b.reconcile.Ends { w' with clock := now } fun r w'' =>
    r = .ok [] ∧ w''.store.text? = w'.store.text?

/-- A repair of a board that can be written settles the board. -/
theorem reconcile_settles (hw : w.Steady) (hopen : w.store.refusing = [])
    (hread : ∀ t ∈ (Records.allAt w.store b.root).repairs w.clock, t.ReadsBack) :
    b.reconcile.Ends w fun r w' => ∃ ts, r = .ok ts ∧ b.Reconciled w ts w' := by
  have hnodup := Records.nodup_allAt hw.proper b.root
  refine (ends_reconcile hw hopen).mono ?_
  rintro r w' ⟨rfl, hw'⟩
  have hload : ∀ t ∈ (Records.allAt w.store b.root).repairs w.clock,
      ∃ u, Records.loadAt w.store b.root t.id = .ok u := by
    intro t ht
    obtain ⟨u, hu, hid⟩ := Snapshot.exists_of_mem_repairs ht
    exact ⟨u, hid ▸ Records.mem_allAt.mp hu⟩
  -- the board reads as the repaired snapshot
  have hall : Records.allAt w'.store b.root = (Records.allAt w.store b.root).repaired w.clock := by
    rw [Records.allAt_of_savedTexts hw.proper hw'.steady.proper (fun id => by rw [hw'.text]) hload hread,
      Snapshot.upsertAll_repairs hnodup]
  have hsettled : (Records.allAt w'.store b.root).IsSettled := by
    rw [hall]
    exact Snapshot.isSettled_repaired _ _
  obtain ⟨φ, hφ, hmap⟩ := Snapshot.exists_repaired (Records.allAt w.store b.root) w.clock
  refine ⟨_, rfl, Records.noneAwaitsDone_of_isSettled hsettled,
    Records.mirrored_iff.mpr fun t ht other => by rw [hsettled.blocks t ht], fun id t ht => ?_,
    fun t ht => ⟨?_, hload t ht⟩, fun names hne => ?_, fun now => ?_⟩
  · refine ⟨φ t, ?_, hφ t⟩
    have hmem : φ t ∈ Records.allAt w'.store b.root := by
      rw [hall, hmap]
      exact List.mem_map_of_mem (Records.mem_allAt_of_loadAt ht)
    rw [Records.mem_allAt, (hφ t).id_eq, Records.id_of_loadAt ht] at hmem
    exact hmem
  · rw [← Records.mem_allAt, hall]
    exact Snapshot.mem_repaired_of_mem_repairs hnodup ht
  · rw [hw'.text]
    exact Records.savedTexts_of_ne hne
  · have hopen' : w'.store.refusing = [] := hw'.refusing.trans hopen
    have hnone := hsettled.repairs_eq_nil now
    refine (@ends_reconcile b { w' with clock := now } ⟨hw'.steady.proper, hw'.steady.unused⟩ hopen').mono ?_
    rintro r w'' ⟨rfl, hw''⟩
    have htext := hw''.text
    rw [hnone] at htext
    exact ⟨congrArg Except.ok hnone, htext⟩

section Lone

/-- A world in which a done task has let nobody go on and notes nobody who requires it, and in which
one record cannot be read. Its clock has moved back. -/
def drifted : World Files :=
  ⟨⟨[(["/", "store", "tasks", "a.md"], "---\nid: a\nstate: done\n" ++
      "created_at: 2025-03-01T09:00:00Z\nupdated_at: 2025-03-01T09:00:00Z\n---\n"),
    (["/", "store", "tasks", "b.md"], "---\nid: b\nstate: waiting\nrequires:\n- a\n" ++
      "created_at: 2025-03-01T09:00:00Z\nupdated_at: 2025-03-01T09:00:00Z\n---\n"),
    (["/", "store", "tasks", "c.md"], "---\nid: b\n---\n")], []⟩, ⟨0, 0⟩, 0, 4, 0⟩

theorem steady_drifted : drifted.Steady := by
  refine World.steady_of_isPublic (by unfold Files.Proper; decide) fun names hnames => ?_
  simp only [drifted, List.map_cons, List.map_nil, List.mem_cons, List.not_mem_nil, or_false] at hnames
  obtain rfl | rfl | rfl := hnames <;> exact isPublic_of_getLast? rfl (by decide)

theorem repairs_drifted : (Records.allAt drifted.store Lone.board.root).repairs drifted.clock =
    [{ id := "b", title := "", state := .todo, requires := .ofList ["a"], createdAt := Lone.begun,
       updatedAt := Lone.begun },
     { id := "a", title := "", state := .done, blocks := .ofList ["b"], createdAt := Lone.begun,
       updatedAt := Lone.begun }] := by
  decide +kernel

theorem readsBack_drifted :
    ∀ t ∈ (Records.allAt drifted.store Lone.board.root).repairs drifted.clock, t.ReadsBack := by
  rw [repairs_drifted]
  unfold Task.ReadsBack
  decide +kernel

theorem reconcile_settles_drifted :
    Lone.board.reconcile.Ends drifted fun r w' => ∃ ts, r = .ok ts ∧ Lone.board.Reconciled drifted ts w' :=
  reconcile_settles steady_drifted rfl readsBack_drifted

end Lone

end Board

end Workboard
