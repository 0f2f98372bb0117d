import Workboard.Proofs.Board.Turns
import Workboard.Proofs.Lock.Granting
import Workboard.Proofs.Storage.Whole

/-!
# Operations that are whole

Each operation on one task makes all its checks before it saves the task, and what it does
afterwards, with the lock, the dependents or the required tasks, cannot fail. So whenever such
an operation fails, it has changed nothing.
-/
namespace Workboard

namespace Records
open Workboard.Action
variable {shows : Instant → Prop} {root : Path} {id : String}

/-- A task that is loaded is filed under its own id, which can name a record. -/
theorem reaches_load_ok {f g : Files} {t : Task} (h : (load root id).Reaches shows f (.ok t) g) :
    isValidId id = true ∧ t.id = id := by
  obtain ⟨_, -, heq⟩ | ⟨_, f₁, hcheck, hrest⟩ := reaches_bind.mp h
  · cases heq
  obtain ⟨-, ⟨hid, -⟩ | heq⟩ := Locks.reaches_checkId hcheck
  · refine ⟨hid, ?_⟩
    obtain ⟨_, -, heq⟩ | ⟨r, f₂, -, hread⟩ := reaches_bind.mp hrest
    · cases heq
    · cases r with
      | ok content => exact id_of_read hread.1.symm
      | error failure => cases hread.1
  · cases heq

theorem whole_load_bind {α : Type} {k : Task → Action α}
    (hk : ∀ t, isValidId id = true → t.id = id → (k t).Whole shows) : (load root id >>= k).Whole shows :=
  (quiet_load root id).whole_bind fun _ t h => hk t (reaches_load_ok h).1 (reaches_load_ok h).2

theorem sure_checkId (hid : isValidId id = true) : (checkId id).Sure shows := by
  rw [checkId, if_pos hid]
  exact sure_pure ()

theorem whole_save (t : Task) : (save root t).Whole shows :=
  (quiet_checkId t.id).whole_bind fun _ _ _ => whole_replace _ _

theorem wholeBut_create (t : Task) : (create root t).WholeBut shows (· = true) :=
  (quiet_checkId t.id).wholeBut_bind fun _ _ _ => wholeBut_createNew _ _

theorem quiet_holds (root : Path) (id : String) : Quiet (holds root id) := by
  unfold holds
  split
  · exact quiet_present _
  · exact quiet_pure false

theorem sure_loadReadable (ids : List String) : (loadReadable root ids).Sure shows := by
  induction ids with
  | nil => exact sure_pure []
  | cons id ids ih =>
    refine (sure_attempt _).bind fun _ r _ _ => ?_
    cases r with
    | ok t => exact ih.bind fun _ all _ _ => sure_pure (t :: all)
    | error e => exact ih

theorem sure_scan : (scan root).Sure shows := by
  refine Sure.bind ((sure_ask (.present _)).bind fun _ there _ _ => ?_) fun _ ids _ _ => sure_loadReadable ids
  cases there with
  | true => exact (sure_list _).bind fun _ names _ _ => sure_pure _
  | false => exact sure_pure _

end Records

namespace Locks
open Workboard.Action
variable {shows : Instant → Prop} {root : Path} {id owner : String}

theorem quiet_owns (root : Path) (id owner : String) : Quiet (owns root id owner) := by
  refine ((quiet_status root id).bind fun _ => quiet_pure _).attempt.bind fun r => ?_
  cases r with
  | ok b => exact quiet_pure b
  | error e => cases e <;> first | exact quiet_pure _ | exact quiet_throw _

theorem sure_slot (p : Path) : (slot p).Sure shows := fun _ _ _ h => by
  cases (reaches_slot h).1

theorem sure_release (hid : isValidId id = true) : (release root id owner).Sure shows := by
  refine (Records.sure_checkId hid).bind fun _ _ _ _ => (sure_slot _).bind fun _ s _ _ => ?_
  cases s with
  | missing => exact sure_pure false
  | unreadable reason => exact sure_pure false
  | held r =>
    simp only
    split
    · exact sure_remove _
    · exact sure_pure false

theorem sure_forceRelease (hid : isValidId id = true) : (forceRelease root id).Sure shows := by
  refine (Records.sure_checkId hid).bind fun _ _ _ _ => (sure_slot _).bind fun _ s _ _ => ?_
  cases s with
  | missing => exact sure_pure none
  | unreadable reason => exact (sure_remove _).bind fun _ _ _ _ => sure_pure none
  | held r => exact (sure_remove _).bind fun _ _ _ _ => sure_pure (some r)

/-- A lock that is not renewed is left as it is. -/
theorem wholeBut_renew : (renew root id owner).WholeBut shows (· = true) := by
  refine (Records.quiet_checkId id).wholeBut_bind fun _ _ _ => ?_
  refine (quiet_slot _).wholeBut_bind fun _ s _ => ?_
  cases s with
  | missing => exact (quiet_pure false).wholeBut _
  | unreadable reason => exact (quiet_pure false).wholeBut _
  | held r =>
    simp only
    split
    · exact quiet_now.wholeBut_bind fun _ now _ => (whole_replace _ _).bind_pure rfl
    · exact (quiet_pure false).wholeBut _

end Locks

namespace Board
open Workboard.Action
variable {shows : Instant → Prop} {b : Board}

theorem whole_advance (t : Task) (target : TaskState) (guard : Guard) :
    (b.advance t target guard).Whole shows :=
  quiet_now.whole_bind fun _ _ _ => whole_settle_bind fun _ _ =>
    (Records.whole_save _).bind_sure fun _ _ _ _ => sure_pure _

theorem sure_saveEach (ts : List Task) : (b.saveEach ts).Sure shows := by
  induction ts with
  | nil => exact sure_pure []
  | cons t ts ih =>
    refine (sure_attempt _).bind fun _ r _ _ => ?_
    cases r with
    | ok _ => exact ih.bind fun _ _ _ _ => sure_pure _
    | error e => exact ih

theorem sure_linkEach (now : Instant) (dependent : String) (added : Bool) (ids : List String) :
    (b.linkEach now dependent added ids).Sure shows := by
  induction ids with
  | nil => exact sure_pure ()
  | cons id ids ih =>
    refine Sure.bind ((sure_attempt _).bind fun _ r _ _ => ?_) fun _ _ _ _ => ih
    cases r with
    | error e => exact sure_pure ()
    | ok t =>
      simp only
      split
      · exact sure_pure ()
      · exact (sure_attempt _).bind fun _ _ _ _ => sure_pure ()

theorem sure_link (dependent : String) (added removed : TextSet) :
    (b.link dependent added removed).Sure shows :=
  (sure_ask .now).bind fun _ _ _ _ => (sure_linkEach _ dependent true _).bind
    fun _ _ _ _ => sure_linkEach _ dependent false _

theorem sure_unblockDependents (id : String) : (b.unblockDependents id).Sure shows :=
  Records.sure_scan.bind fun _ _ _ _ => (sure_ask .now).bind fun _ _ _ _ => sure_saveEach _

theorem whole_insertAs (n : NewTask) (parent : Option String) (id : String) :
    (b.insertAs n parent id).Whole shows := by
  refine (Records.quiet_checkId id).whole_bind fun _ _ _ => ?_
  refine (Records.quiet_holds b.root id).whole_bind fun _ taken _ => ?_
  split
  · exact whole_throw _
  refine whole_settle_bind fun checked _ => whole_settle_bind fun requires _ => ?_
  refine (Records.quiet_scan b.root).whole_bind fun _ all _ => quiet_now.whole_bind fun _ now _ => ?_
  simp only
  split
  · exact whole_throw _
  refine (Records.wholeBut_create _).bind (fun _ created _ _ hcreated => ?_) fun _ created _ _ hnot => ?_
  · obtain rfl : created = true := hcreated
    exact (sure_link id requires ∅).bind fun _ _ _ _ => sure_pure _
  · rw [if_neg hnot]
    exact whole_throw _

/-- A task is created with its record, or not at all. -/
theorem whole_insert (n : NewTask) (parent : Option String) : (b.insert n parent).Whole shows := by
  rw [insert_eq]
  split
  · exact whole_insertAs n parent _
  · exact (quiet_ask (c := .freshId) trivial).whole_bind fun _ id _ => whole_insertAs n parent id

theorem whole_heartbeat (id owner : String) : (b.heartbeat id owner).Whole shows := by
  refine Locks.wholeBut_renew.bind (fun _ renewed _ _ hrenewed => ?_) fun _ renewed _ _ hnot => ?_
  · rw [if_pos hrenewed]
    exact sure_pure ()
  · rw [if_neg hnot]
    exact whole_throw _

theorem whole_release (id owner : String) : (b.release id owner).Whole shows := by
  refine (Locks.quiet_owns b.root id owner).whole_bind fun _ owned _ => ?_
  cases owned with
  | false => exact (sure_pure false).whole
  | true =>
    refine Records.whole_load_bind fun t hid _ => ?_
    simp only
    split
    · exact (whole_advance t .todo {}).bind_sure fun _ _ _ _ => Locks.sure_release hid
    · exact (Locks.sure_release hid).whole

theorem whole_block (id owner waitingFor : String) : (b.block id owner waitingFor).Whole shows := by
  refine (Locks.quiet_owns b.root id owner).whole_bind fun _ owned _ => ?_
  cases owned with
  | false => exact whole_throw _
  | true =>
    exact Records.whole_load_bind fun t hid _ => (whole_advance t .waiting _).bind_sure
      fun _ _ _ _ => (Locks.sure_release hid).bind fun _ _ _ _ => sure_pure _

theorem whole_complete (id owner : String) : (b.complete id owner).Whole shows := by
  refine (Locks.quiet_owns b.root id owner).whole_bind fun _ owned _ => ?_
  cases owned with
  | false => exact whole_throw _
  | true =>
    exact Records.whole_load_bind fun t _ _ => (whole_advance t .done _).bind_sure
      fun _ _ _ _ => (sure_attempt _).bind fun _ _ _ _ => sure_unblockDependents id

theorem whole_cancel (id : String) : (b.cancel id).Whole shows :=
  Records.whole_load_bind fun t hid _ => (whole_advance t .cancelled {}).bind_sure
    fun _ _ _ _ => (Locks.sure_forceRelease hid).bind fun _ _ _ _ => sure_pure _

theorem whole_promote (id : String) : (b.promote id).Whole shows := by
  refine Records.whole_load_bind fun t _ _ => ?_
  split
  · exact whole_advance t .todo {}
  · exact whole_throw _

theorem whole_defer (id : String) (target : TaskState) : (b.defer id target).Whole shows := by
  unfold Board.defer
  split
  · exact Records.whole_load_bind fun t _ _ => whole_advance t target {}
  · exact whole_throw _

theorem whole_editState {t : Task} (hid : isValidId t.id = true) (now : Instant) (word : String) :
    (b.editState t now word).Whole shows := by
  have hrest : ∀ moved : Task, Sure shows (if moved.state = .done then
      Records.scan b.root >>= fun all => b.saveEach (all.cascade t.id now) >>= fun _ => pure moved
    else pure moved) := by
    intro moved
    split
    · exact Records.sure_scan.bind fun _ _ _ _ => (sure_saveEach _).bind fun _ _ _ _ => sure_pure moved
    · exact sure_pure moved
  unfold editState
  split
  · exact whole_throw _
  · exact whole_cancel t.id
  · refine whole_settle_bind fun moved _ => (Records.whole_save moved).bind_sure fun _ _ _ _ => ?_
    simp only
    split
    · exact (Locks.sure_forceRelease hid).bind fun _ _ _ _ => hrest moved
    · exact hrest moved

theorem whole_editRequires (t : Task) (now : Instant) (text : String) :
    (b.editRequires t now text).Whole shows := by
  refine whole_settle_bind fun requires _ => (Records.quiet_scan b.root).whole_bind fun _ all _ => ?_
  split
  · exact whole_throw _
  · exact (Records.whole_save _).bind_sure fun _ _ _ _ => (sure_link _ _ _).bind fun _ _ _ _ => sure_pure _

theorem whole_edit (id field value : String) : (b.edit id field value).Whole shows := by
  refine Records.whole_load_bind fun t hid ht => quiet_now.whole_bind fun _ now _ => ?_
  rw [← ht] at hid
  split
  · exact whole_throw _
  split
  · exact whole_editState hid now _
  split
  · exact whole_editRequires t now _
  · exact whole_settle_bind fun t' _ => (Records.whole_save _).bind_sure fun _ _ _ _ => sure_pure _

end Board

end Workboard
