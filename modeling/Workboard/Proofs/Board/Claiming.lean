import Workboard.Proofs.Board.Lone
import Workboard.Proofs.Board.Turns
import Workboard.Proofs.Graph.Readiness
import Workboard.Proofs.Lock.Taking
import Workboard.Proofs.Task.Rereading

/-!
# Claiming the next task

A claim looks again at all that made a task claimable in the first place, and as nobody interrupts
it, it comes to the same. So only the lock decides, and the next task is the first one whose lock is
open to the owner. Main statement: this task is started and locked and nothing else changes, or
there is none, and nothing changes at all.
-/
namespace Workboard

/-- What can be claimed is not objected to. -/
theorem Snapshot.claimObjection?_of_mem {all : Snapshot} {t : Task} (ht : t ∈ all.claimable) :
    all.claimObjection? t = none := by
  obtain ⟨-, -, hready⟩ := mem_claimable.mp ht
  rw [isReady, Bool.and_eq_true, Bool.not_eq_true'] at hready
  simp [claimObjection?, hready.1, hready.2]

namespace Board
open Workboard.Action

/-- The owner may take the lock of the task. -/
def isOpenTo (b : Board) (owner : String) (w : World Files) (t : Task) : Bool :=
  (Locks.slotAt w.store (Locks.path b.root t.id)).isOpenTo owner w.clock

/-- Only the record of the task and its lock have changed: the record is that of the task once it is
started, and the lock names the owner. -/
structure Given (b : Board) (owner : String) (now : Instant) (t : Task) (f g : Files) : Prop where
  record : b.recordAt g t.id = some (Record.render (t.started owner now))
  lock : b.ownerAt g t.id = some owner
  others : ∀ names, names ≠ (Records.path b.root t.id).names → names ≠ (Locks.path b.root t.id).names →
    g.text? names = f.text? names

/-- What can be asked of a board at the instant of the clock: the owner has a name, the timeout of locks is
allowed and ends within the supported years, and nothing refuses to be written. -/
structure Able (b : Board) (owner : String) (w : World Files) : Prop where
  steady : w.Steady
  writable : w.store.refusing = []
  named : Text.isAllBlank owner = false
  asked : b.settings.lockTimeout.MayBeAsked
  now : w.clock.IsTime ∧ w.clock.inRange = true
  ends : (w.clock.add? b.settings.lockTimeout).isSome = true

variable {b : Board} {owner : String} {w : World Files} {t : Task}

theorem Able.lasts (h : b.Able owner w) : b.settings.lockTimeout.Lasts w.clock := by
  obtain ⟨ms, hallowed, hms⟩ := Settings.exists_millis_lockTimeout h.asked
  have hends := h.ends
  rw [hms] at hends ⊢
  refine ⟨?_, ?_⟩
  · rw [Duration.millis_ofMillis]
    exact Int.natCast_pos.mpr hallowed.1
  · rwa [Duration.millis_ofMillis]

/-- What is read in the place of the record is the task at work, for its owner. -/
theorem Given.of_loadAt {now : Instant} {f g : Files} (h : b.Given owner now t f g) {u : Task}
    (hu : Records.loadAt g b.root t.id = .ok u) : u.state = .active ∧ u.assignedTo = some owner := by
  obtain ⟨-, content, hcontent, hread⟩ := Records.loadAt_eq_ok.mp hu
  obtain rfl : content = Record.render (t.started owner now) := Option.some.inj (hcontent.symm.trans h.record)
  have hparse := Records.parse_of_read hread
  exact ⟨Record.state_of_parse_render hparse, Record.assignedTo_of_parse_render rfl hparse⟩

/-- A task that is in todo is started, if nobody hinders that. -/
theorem ends_start_todo (hw : w.Steady) (hrefusing : w.store.refusing = [])
    (hload : Records.loadAt w.store b.root t.id = .ok t) (htodo : t.state = .todo)
    {post : Except Error Task → World Files → Prop}
    (hstarted : ∀ w', w.Becomes w' (Function.update w.store.text? (Records.path b.root t.id).names
      (some (Record.render (t.started owner w.clock)))) → post (.ok (t.started owner w.clock)) w') :
    (b.start t.id owner).Ends w post := by
  rw [start_eq]
  refine ends_bind (Records.ends_load ?_)
  rw [hload, andThen_ok]
  refine ends_bind (ends_now ?_)
  rw [andThen_ok]
  refine ends_bind (ends_settle ?_)
  rw [Task.move_active _ htodo, andThen_ok]
  have hvalid := (Records.loadAt_eq_ok.mp hload).1
  change (Records.save b.root (t.started owner w.clock) >>= fun _ => pure (t.started owner w.clock)).Ends w post
  refine ends_bind (Records.ends_save hw (fun e w' hrefuses _ => ?_) fun w' _ _ hw' => ?_)
  · exact absurd (hrefuses (by simpa using hvalid)) (Locks.not_refuses hrefusing _)
  · rw [Task.id_started] at hw'
    exact ends_pure (hstarted w' hw')

/-- A task that can be claimed is claimed as its lock is taken, and the lock decides how that ends. -/
theorem ends_claim_asking (ht : t ∈ (Records.allAt w.store b.root).claimable)
    {asked : Except Error Bool → World Files → Prop}
    (hasked : (Locks.acquire b.root t.id owner b.settings.lockTimeout).Ends w asked)
    {post : Except Error Task → World Files → Prop}
    (herror : ∀ e w₁, asked (.error e) w₁ → post (.error e) w₁)
    (htaken : ∀ w₁, asked (.ok true) w₁ →
      (b.start t.id owner).Ends w₁ fun r w₂ => ∃ u, r = .ok u ∧ post (.ok u) w₂)
    (hlocked : ∀ w₁ holder, asked (.ok false) w₁ → post (.error (.alreadyLocked t.id holder)) w₁) :
    (b.claim t.id owner).Ends w post := by
  have hload := Records.mem_allAt.mp (Snapshot.mem_of_claimable ht)
  have hvalid := (Records.loadAt_eq_ok.mp hload).1
  have htodo := (Snapshot.mem_claimable.mp ht).2.1
  rw [claim_eq]
  refine ends_bind (Records.ends_load ?_)
  rw [hload, andThen_ok, if_neg (not_not_intro htodo)]
  refine ends_bind (Records.ends_scan ?_)
  rw [andThen_ok, Snapshot.claimObjection?_of_mem ht]
  refine ends_bind (Locks.ends_owns (fun _ => ?_) fun hinvalid => absurd (hvalid.symm.trans hinvalid) Bool.noConfusion)
  rw [andThen_ok]
  refine ends_bind (hasked.mono fun r w₁ hw₁ => ?_)
  cases r with
  | error e => exact herror e w₁ hw₁
  | ok taken =>
    rw [andThen_ok]
    cases taken with
    | true =>
      rw [if_pos rfl]
      refine ends_bind (ends_attempt ((htaken w₁ hw₁).mono fun r w₂ hr => ?_))
      obtain ⟨u, rfl, hu⟩ := hr
      exact ends_pure hu
    | false =>
      rw [if_neg Bool.false_ne_true]
      exact ends_bind (ends_holderOf fun holder => ends_throw (hlocked w₁ holder hw₁))

/-- A task that can be claimed is given to the owner if its lock is open, and is refused as locked otherwise,
and then nothing changes. -/
theorem ends_claim (h : b.Able owner w) (ht : t ∈ (Records.allAt w.store b.root).claimable)
    {post : Except Error Task → World Files → Prop}
    (hopen : b.isOpenTo owner w t = true → ∀ w', b.Given owner w.clock t w.store w'.store →
      post (.ok (t.started owner w.clock)) w')
    (hlocked : b.isOpenTo owner w t = false → ∀ holder, post (.error (.alreadyLocked t.id holder)) w) :
    (b.claim t.id owner).Ends w post := by
  have hload := Records.mem_allAt.mp (Snapshot.mem_of_claimable ht)
  have hvalid := (Records.loadAt_eq_ok.mp hload).1
  have htodo := (Snapshot.mem_claimable.mp ht).2.1
  have hasked : (Locks.acquire b.root t.id owner b.settings.lockTimeout).Ends w fun r w₁ =>
      (r = .ok true ∧ b.isOpenTo owner w t = true ∧ ∃ text, (Locks.Slot.ofText text).owner? = some owner ∧
        w.Becomes w₁ (Function.update w.store.text? (Locks.path b.root t.id).names (some text))) ∨
      (r = .ok false ∧ b.isOpenTo owner w t = false ∧ w₁ = w) :=
    Locks.ends_acquire_open h.steady h.writable hvalid h.named h.asked h.now h.lasts
      (fun hslot text w₁ howner hw₁ => .inl ⟨rfl, hslot, text, howner, hw₁⟩) fun hslot => .inr ⟨rfl, hslot, rfl⟩
  refine ends_claim_asking ht hasked (fun e w₁ hw₁ => ?_) (fun w₁ hw₁ => ?_) fun w₁ holder hw₁ => ?_
  · obtain ⟨hr, -⟩ | ⟨hr, -⟩ := hw₁ <;> cases hr
  · obtain ⟨-, hslot, text, howner, hw₁⟩ | ⟨hr, -⟩ := hw₁
    · have hne := Records.names_path_ne_lock b.root t.id t.id
      have hload₁ : Records.loadAt w₁.store b.root t.id = .ok t := by
        refine (Records.loadAt_congr ?_).trans hload
        rw [hw₁.text, Function.update_of_ne hne]
      refine ends_start_todo hw₁.steady (hw₁.refusing.trans h.writable) hload₁ htodo fun w₂ hw₂ => ?_
      rw [hw₁.clock] at hw₂ ⊢
      have hlock : w₂.store.text? (Locks.path b.root t.id).names = some text := by
        rw [hw₂.text, Function.update_of_ne hne.symm, hw₁.text, Function.update_self]
      refine ⟨_, rfl, hopen hslot w₂ ⟨?_, ?_, fun names hrecord hnames => ?_⟩⟩
      · rw [recordAt, hw₂.text, Function.update_self]
      · rw [ownerAt, Locks.slotAt_of_text? hlock, howner]
      · rw [hw₂.text, Function.update_of_ne hrecord, hw₁.text, Function.update_of_ne hnames]
    · cases hr
  · obtain ⟨hr, -⟩ | ⟨-, hslot, rfl⟩ := hw₁
    · cases hr
    · exact hlocked hslot holder

theorem ends_claimFirst (h : b.Able owner w) {ts : List Task}
    (hts : ∀ t ∈ ts, t ∈ (Records.allAt w.store b.root).claimable)
    {post : Except Error (Option Task) → World Files → Prop}
    (hsome : ∀ t w', ts.find? (b.isOpenTo owner w) = some t → b.Given owner w.clock t w.store w'.store →
      post (.ok (some (t.started owner w.clock))) w')
    (hnone : ts.find? (b.isOpenTo owner w) = none → post (.ok none) w) :
    (b.claimFirst owner (ts.map Task.id)).Ends w post := by
  induction ts with
  | nil => exact ends_pure (hnone rfl)
  | cons t ts ih =>
    obtain ⟨ht, hts⟩ := List.forall_mem_cons.mp hts
    rw [List.map_cons, claimFirst]
    refine ends_bind (ends_attempt (ends_claim h ht (fun hopen w' hw' => ?_) fun hlocked holder => ?_))
    · exact ends_pure (hsome t w' (List.find?_cons_of_pos hopen) hw')
    · rw [List.find?_cons_of_neg (by simp [hlocked])] at hsome hnone
      exact ih hts hsome hnone

/-- The next task that an owner claims on a board that nobody else works on is the first one, in the order of
claims, whose lock is free, unreadable, stale or the owner's. It becomes active and is assigned to the owner,
who has the lock, and no other record and no other lock changes. If there is no such task, and only then,
the owner gets none, and nothing changes. -/
theorem claimNext_takes_first_open (h : b.Able owner w) :
    let all := Records.allAt w.store b.root
    let turn := (b.claimNext owner).run.runIn w
    ((Records.scan b.root).run.runIn w).1 = .ok all ∧
    (∀ t, all.claimable.find? (b.isOpenTo owner w) = some t →
      turn.1 = .ok (some (t.started owner w.clock)) ∧
      (t.started owner w.clock).state = .active ∧ (t.started owner w.clock).assignedTo = some owner ∧
      b.Given owner w.clock t w.store turn.2.store ∧
      ∀ u, Records.loadAt turn.2.store b.root t.id = .ok u → u.state = .active ∧ u.assignedTo = some owner) ∧
    (turn.1 = .ok none ↔ ∀ t ∈ all.claimable, b.isOpenTo owner w t = false) ∧
    (turn.1 = .ok none → turn.2 = w) := by
  intro all turn
  have hscan : (Records.scan b.root).Ends w fun r _ => r = .ok all := Records.ends_scan rfl
  have hturn : (b.claimNext owner).Ends w fun r w' =>
      (∃ t, all.claimable.find? (b.isOpenTo owner w) = some t ∧ r = .ok (some (t.started owner w.clock)) ∧
        b.Given owner w.clock t w.store w'.store) ∨
      (all.claimable.find? (b.isOpenTo owner w) = none ∧ r = .ok none ∧ w' = w) := by
    refine ends_bind (Records.ends_scan ?_)
    rw [andThen_ok]
    exact ends_claimFirst h (fun _ ht => ht) (fun t w' ht hw' => .inl ⟨t, ht, rfl, hw'⟩) fun hnone =>
      .inr ⟨hnone, rfl, rfl⟩
  have hnone : all.claimable.find? (b.isOpenTo owner w) = none ↔
      ∀ t ∈ all.claimable, b.isOpenTo owner w t = false := by simp
  rw [← hnone]
  obtain ⟨t, ht, hresult, hclaimed⟩ | ⟨hfind, hresult, hsame⟩ := hturn
  · refine ⟨hscan, fun u hu => ?_, ?_, ?_⟩
    · obtain rfl := Option.some.inj (ht.symm.trans hu)
      exact ⟨hresult, rfl, rfl, hclaimed, fun u => hclaimed.of_loadAt⟩
    · rw [show turn.1 = _ from hresult, ht]
      simp
    · rw [show turn.1 = _ from hresult]
      exact nofun
  · refine ⟨hscan, fun u hu => ?_, iff_of_true hresult hfind, fun _ => hsame⟩
    rw [hfind] at hu
    cases hu

/-- The only task of the small board, and a lock file of it. -/
def lockedLone (text : String) : World Files :=
  ⟨⟨[((Locks.path Lone.board.root "a").names, text), ((Records.path Lone.board.root "a").names, Lone.content)], []⟩,
    Lone.begun, 0, 4, 0⟩

theorem able_lockedLone (text : String) : Lone.board.Able "x" (lockedLone text) where
  steady := by
    refine World.steady_of_isPublic ?_ fun names hnames => ?_
    · change ([(Locks.path Lone.board.root "a").names, (Records.path Lone.board.root "a").names]).Nodup
      decide
    · obtain rfl | rfl : names = (Locks.path Lone.board.root "a").names ∨
          names = (Records.path Lone.board.root "a").names := by simpa [lockedLone] using hnames
      · exact Locks.isPublic_path _ _
      · exact Records.isPublic_path _ _
  writable := rfl
  named := by decide
  asked := (by decide +kernel :
    ¬ (Lone.board.settings.lockTimeout ≤ .zero ∨ maxTimeout < Lone.board.settings.lockTimeout))
  now := (⟨⟨by decide, by decide⟩, by decide +kernel⟩ : Lone.begun.IsTime ∧ Lone.begun.inRange = true)
  ends := (by decide +kernel : (Lone.begun.add? Lone.board.settings.lockTimeout).isSome = true)

/-- The text of a lock that somebody else has just taken. -/
def foreignLock : String := (LockRecord.new "a" "y" Lone.begun Lone.board.settings.lockTimeout).render

theorem allAt_lockedLone : Records.allAt (lockedLone "?").store Lone.board.root = [Lone.task] ∧
    Records.allAt (lockedLone foreignLock).store Lone.board.root = [Lone.task] := by
  decide +kernel

/-- A lock that cannot be read does not keep the task from the owner, and a lock of somebody else does. -/
theorem claimNext_takes_first_open_lone :
    ((Lone.board.claimNext "x").run.runIn (lockedLone "?")).1 = .ok (some (Lone.task.started "x" Lone.begun)) ∧
    Lone.board.Given "x" Lone.begun Lone.task (lockedLone "?").store
      ((Lone.board.claimNext "x").run.runIn (lockedLone "?")).2.store ∧
    (Lone.board.claimNext "x").run.runIn (lockedLone foreignLock) = (.ok none, lockedLone foreignLock) := by
  have hfind : (Records.allAt (lockedLone "?").store Lone.board.root).claimable.find?
      (Lone.board.isOpenTo "x" (lockedLone "?")) = some Lone.task := by
    rw [allAt_lockedLone.1, Lone.claimable_task]
    exact List.find?_cons_of_pos (by decide +kernel)
  have hlocked : ∀ t ∈ (Records.allAt (lockedLone foreignLock).store Lone.board.root).claimable,
      Lone.board.isOpenTo "x" (lockedLone foreignLock) t = false := by
    rw [allAt_lockedLone.2, Lone.claimable_task]
    exact List.forall_mem_singleton.mpr (by decide +kernel)
  obtain ⟨hresult, -, -, hclaimed, -⟩ := (claimNext_takes_first_open (able_lockedLone "?")).2.1 _ hfind
  have hnone := (claimNext_takes_first_open (able_lockedLone foreignLock)).2.2
  have hturn := hnone.1.mpr hlocked
  exact ⟨hresult, hclaimed, Prod.ext hturn (hnone.2 hturn)⟩

end Board

end Workboard
