import Workboard.Board.Locks
import Workboard.Proofs.Interleaving.Quiet
import Workboard.Proofs.Lock.Render

/-!
# What a lock file stands for

What is found at the place of a lock in given files, whom it names, and how an action
that looks there keeps a protocol. Main statement: a lock file that was written and can
be read names the owner it was written for.
-/
namespace Workboard.Locks

/-- What is found where a lock may be in these files. -/
def slotAt (f : Files) (p : Path) : Slot :=
  match f.text? p.names with
  | none => .missing
  | some text => .ofText text

namespace Slot

/-- The owner that the lock names, if there is a lock that can be read. -/
def owner? : Slot → Option String
  | .missing => none
  | .held r => some r.owner
  | .unreadable _ => none

theorem owner?_eq_some {s : Slot} {y : String} :
    s.owner? = some y ↔ ∃ r, s = .held r ∧ r.owner = y := by
  cases s with
  | missing => simp [owner?]
  | held r => simp [owner?]
  | unreadable reason => simp [owner?]

/-- There is no lock, or one that can be read. -/
def IsTidy (s : Slot) : Prop := ∀ reason, s ≠ .unreadable reason

/-- The text of a lock file that can be read. -/
def IsReadable (text : String) : Prop := ∃ r, ofText text = .held r

instance (text : String) : Decidable (IsReadable text) :=
  match h : ofText text with
  | .held r => .isTrue ⟨r, h⟩
  | .missing => .isFalse (by simp [IsReadable, h])
  | .unreadable reason => .isFalse (by simp [IsReadable, h])

/-- The lock is not stale at the last reading of the clock, if there is a lock. -/
def IsFresh (s : Slot) (m : Memo) : Prop :=
  ∀ r now, s = .held r → m.clock = some now → r.isStale now = false

instance (s : Slot) (m : Memo) : Decidable (s.IsFresh m) :=
  match s, h : m.clock with
  | .held r, some now => decidable_of_iff (r.isStale now = false) (by simp [IsFresh, h])
  | .held r, none => .isTrue (by simp [IsFresh, h])
  | .missing, _ => .isTrue (by simp [IsFresh])
  | .unreadable reason, _ => .isTrue (by simp [IsFresh])

theorem names_of_ofText_render {r r' : LockRecord} (h : ofText r.render = .held r') :
    r'.taskId = r.taskId ∧ r'.owner = r.owner := by
  unfold ofText at h
  split at h
  · cases h
  · rename_i found hfound
    split at h
    · cases h
    · cases h
      exact LockRecord.names_of_ofText?_render hfound

/-- A lock file that can be read names the owner it was written for. -/
theorem owner?_ofText_render {r : LockRecord} (h : IsReadable r.render) :
    (ofText r.render).owner? = some r.owner := by
  obtain ⟨r', hr'⟩ := h
  rw [hr', owner?, (names_of_ofText_render hr').2]

end Slot

theorem slotAt_congr {f g : Files} {p : Path} (h : g.text? p.names = f.text? p.names) :
    slotAt g p = slotAt f p := by
  rw [slotAt, slotAt, h]

theorem slotAt_of_text? {f : Files} {p : Path} {text : String} (h : f.text? p.names = some text) :
    slotAt f p = .ofText text := by
  rw [slotAt, h]

theorem slotAt_eq_missing {f : Files} {p : Path} : slotAt f p = .missing ↔ f.text? p.names = none := by
  unfold slotAt
  split
  · rename_i h
    simp [h]
  · rename_i text h
    have hne : Slot.ofText text ≠ .missing := by
      unfold Slot.ofText
      split
      · exact Slot.noConfusion
      · split <;> exact Slot.noConfusion
    simp [h, hne]

theorem slotAt_put (root : Path) (id : String) (f : Files) (text : String) :
    slotAt (f.put (path root id).names text) (path root id) = .ofText text :=
  slotAt_of_text? (by simp)

theorem slotAt_erase (root : Path) (id : String) (f : Files) :
    slotAt (f.erase (path root id).names) (path root id) = .missing :=
  slotAt_eq_missing.mpr (by simp)

theorem isPublic_path (root : Path) (id : String) : IsPublic (path root id).names := by
  have hk : ".lock".toList.getLast? = some 'k' := by decide
  refine isPublic_of_getLast? List.getLast?_concat ?_
  rw [String.toList_append, List.getLast?_append, hk, Option.some_or]
  decide

/-- Taking a lock is a check of what is asked, and then up to two tries. -/
theorem acquire_eq (root : Path) (id owner : String) (timeout : Duration) :
    acquire root id owner timeout =
      if isValidId id = false then throw (.invalidId id)
      else if Text.isAllBlank owner then throw (.refused id .blankOwner)
      else if timeout ≤ .zero ∨ maxTimeout < timeout then throw (.refused id .lockTimeout)
      else Action.now >>= fun now =>
        tryTake (path root id) (.new id owner now timeout) now 2 := by
  unfold acquire Records.checkId
  cases hid : isValidId id
  · rfl
  · cases hb : Text.isAllBlank owner
    · by_cases ht : timeout ≤ .zero ∨ maxTimeout < timeout
      · simp [ht]
      · simp [ht]
    · rfl

section Keeps
variable {ι : Type} {P : Protocol ι} {i : ι} {permit : Memo → Call → Files → Prop}
  {mid : Sight ι → Prop} {m : Memo} {v : Sight ι} {A : Sight ι → Prop}

theorem keeps_checkId {id : String} {post : Except Error Unit → Memo → Sight ι → Prop}
    (hok : isValidId id = true → post (.ok ()) m v)
    (herr : isValidId id = false → post (.error (.invalidId id)) m v) :
    P.Keeps i permit mid post (Records.checkId id).run m v := by
  rw [Records.checkId]
  cases hid : isValidId id with
  | true => exact Protocol.keeps_pure (hok hid)
  | false => exact Protocol.keeps_throw (herr hid)

/-- To look at a lock is to see what stands there at one moment. -/
theorem keeps_slot {p : Path} (hA : P.Stable i A) (hmid : ∀ v, A v → mid v)
    {post : Except Error Slot → Memo → Sight ι → Prop} (hv : A v)
    (hpost : ∀ u, A u → permit m (.read p) u.files → A (u.after i (.read p) u.files) →
      post (.ok (slotAt u.files p)) { m with content := u.files.text? p.names }
        (u.after i (.read p) u.files)) :
    P.Keeps i permit mid post (slot p).run m v := by
  refine Protocol.keeps_bind (Protocol.keeps_read hA hmid hv fun u hu hp hu' => ?_)
  have h := hpost u hu hp hu'
  simp only [slotAt] at h
  simp only [Files.read]
  cases ht : u.files.text? p.names with
  | some text =>
    rw [ht] at h
    exact h
  | none =>
    rw [ht] at h
    exact h

/-- The question whether the lock names the owner is answered as of one moment. -/
theorem keeps_owns {root : Path} {id owner : String} (hid : isValidId id = true) (hA : P.Stable i A)
    (hmid : ∀ v, A v → mid v) {post : Except Error Bool → Memo → Sight ι → Prop} (hv : A v)
    (hpost : ∀ u m w, A u → A w →
      post (.ok (decide ((slotAt u.files (path root id)).owner? = some owner))) m w) :
    P.Keeps i permit mid post (owns root id owner).run m v := by
  refine Protocol.keeps_bind (Protocol.keeps_attempt (Protocol.keeps_bind (Protocol.keeps_bind
    (keeps_checkId (fun _ => ?_) fun h => absurd (hid.symm.trans h) Bool.noConfusion))))
  refine Protocol.keeps_bind (keeps_slot hA hmid hv fun u hu _ hu' => ?_)
  have h := hpost u
  cases hs : slotAt u.files (path root id) with
  | missing =>
    rw [hs] at h
    exact h _ _ hu hu'
  | unreadable reason =>
    rw [hs] at h
    exact h _ _ hu hu'
  | held record =>
    simp only [hs, Slot.owner?, Option.some.injEq] at h
    refine Protocol.keeps_bind (Protocol.keeps_now hA hmid hu' fun now w hw => ?_)
    exact h _ w hu hw

end Keeps

section Quiet

theorem quiet_slot (p : Path) : Action.Quiet (slot p) := by
  refine (Action.quiet_read p).bind fun r => ?_
  cases r with
  | ok content => exact Action.quiet_pure _
  | error failure =>
    cases h : failure.absent with
    | true => simpa [h] using Action.quiet_pure _
    | false => simpa [h] using Action.quiet_throw _

theorem quiet_status (root : Path) (id : String) : Action.Quiet (status root id) := by
  unfold status Records.checkId
  split
  · refine (Action.quiet_pure ()).bind fun _ => (quiet_slot _).bind fun s => ?_
    cases s with
    | missing => exact Action.quiet_pure _
    | held record => exact Action.quiet_now.bind fun _ => Action.quiet_pure _
    | unreadable reason => exact Action.quiet_throw _
  · exact (Action.quiet_throw _).bind fun _ => (quiet_slot _).bind fun s => by
      cases s with
      | missing => exact Action.quiet_pure _
      | held record => exact Action.quiet_now.bind fun _ => Action.quiet_pure _
      | unreadable reason => exact Action.quiet_throw _

end Quiet

end Workboard.Locks
