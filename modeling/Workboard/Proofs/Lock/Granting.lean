import Workboard.Proofs.Lock.Alone
import Workboard.Proofs.Lock.Sound
import Workboard.Proofs.Storage.Outcomes
import Workboard.Proofs.Time.Accepted

/-!
# Locks that are granted

Who takes a lock is told so once the record is written, and the record is checked only when
somebody reads it. The two agree on every timeout of at least a millisecond that ends within
the supported years. Main statement: a lock that was granted is held by its owner exactly in
these cases; otherwise its file cannot be read.
-/
namespace Workboard

/-- A timeout that may be asked for. -/
def Duration.MayBeAsked (timeout : Duration) : Prop := ¬ (timeout ≤ .zero ∨ maxTimeout < timeout)

/-- The timeout is a millisecond or more, and from this instant on it ends within the supported
years. -/
def Duration.Lasts (timeout : Duration) (now : Instant) : Prop :=
  0 < timeout.millis ∧ (now.add? (.ofMillis timeout.millis)).isSome = true

instance (timeout : Duration) (now : Instant) : Decidable (timeout.Lasts now) :=
  inferInstanceAs (Decidable (_ ∧ _))

/-- Only whole milliseconds make hours. -/
theorem hoursOfTimeout_millis (timeout : Duration) :
    hoursOfTimeout (.ofMillis timeout.millis) = hoursOfTimeout timeout := by
  rw [hoursOfTimeout, hoursOfTimeout, Duration.millis_ofMillis]

theorem Duration.MayBeAsked.millis_bounds {timeout : Duration} (h : timeout.MayBeAsked) :
    0 ≤ timeout.millis ∧ timeout.millis ≤ 3600000 * 8760 := by
  rw [MayBeAsked, Duration.le_def, Duration.lt_def] at h
  change ¬ (timeout.nanos ≤ 0 ∨ (8760 * 3600000 : ℤ) * 1000000 < timeout.nanos) at h
  rw [millis, Int.tdiv_eq_ediv_of_nonneg (by omega)]
  omega

theorem Duration.MayBeAsked.allowedMillis {timeout : Duration} (h : timeout.MayBeAsked)
    (hpos : 0 < timeout.millis) : AllowedMillis timeout.millis.toNat := by
  obtain ⟨-, hle⟩ := h.millis_bounds
  refine ⟨by omega, ?_⟩
  change timeout.millis.toNat ≤ 3600000 * 8760
  omega

/-- The hours of less than a millisecond are written as a zero. -/
theorem Binary64.Layout.reads_zero :
    Reads (lockFile.render (.zero false)).toList 0 ⟨false, ['0'], ['0'], none⟩ 1 where
  number rest hrest := by
    have hdigits : ∀ c ∈ ['0'], c.isDigit = true := by
      intro c hc
      rw [List.mem_singleton.mp hc]
      rfl
    exact Json.Reader.number_point hdigits (List.cons_ne_nil _ _) (fun h => absurd h (by simp))
      hdigits (List.cons_ne_nil _ _) hrest
  digit := ⟨'0', rfl, by decide⟩
  sign := rfl
  places := ⟨le_rfl, by decide⟩
  exponent e h := by cases h
  size := by norm_num [natOfDigits]

namespace LockRecord
variable {r : LockRecord} {timeout : Duration}

/-- The record is one that a lock is taken with, now or renewed. -/
structure IsAsked (r : LockRecord) (timeout : Duration) : Prop where
  asked : timeout.MayBeAsked
  hours : r.timeoutHours = hoursOfTimeout timeout
  acquired : r.acquiredAt.IsTime ∧ r.acquiredAt.inRange = true
  heartbeat : r.heartbeatAt.IsTime ∧ r.heartbeatAt.inRange = true

/-- A record whose timeout lasts can be read. -/
theorem IsAsked.isSound (h : r.IsAsked timeout) (hlasts : timeout.Lasts r.heartbeatAt) :
    r.IsSound timeout.millis.toNat := by
  have hallowed := h.asked.allowedMillis hlasts.1
  have hmillis : (timeout.millis.toNat : ℤ) = timeout.millis := Int.toNat_of_nonneg hlasts.1.le
  refine ⟨hallowed, ?_, h.acquired, h.heartbeat, ?_⟩
  · rw [h.hours, ← hoursOfTimeout_millis, ← hmillis]
    exact standsFor_hoursOfTimeout hallowed
  · rw [hmillis]
    exact hlasts.2

/-- A record whose timeout does not last is written, but not accepted when it is read. -/
theorem IsAsked.exists_unreadable (h : r.IsAsked timeout) (hshort : ¬ timeout.Lasts r.heartbeatAt) :
    ∃ reason, Locks.Slot.ofText r.render = .unreadable reason := by
  have hbounds := h.asked.millis_bounds
  by_cases hpos : 0 < timeout.millis
  -- the record has no instant to expire at
  · have hallowed := h.asked.allowedMillis hpos
    have hmillis : (timeout.millis.toNat : ℤ) = timeout.millis := Int.toNat_of_nonneg hpos.le
    have hstands : StandsFor timeout.millis.toNat r.timeoutHours := by
      rw [h.hours, ← hoursOfTimeout_millis, ← hmillis]
      exact standsFor_hoursOfTimeout hallowed
    obtain ⟨n, size, j, hours, hreads, hvalue, hreread⟩ := hstands.reread hallowed
    have htimeout := hreread.timeoutOfHours? hallowed
    rw [hmillis] at htimeout
    have hnever : (r.heartbeatAt.add? (.ofMillis timeout.millis)).isNone = true := by
      rw [← Option.not_isSome, Bool.not_eq_true']
      exact Bool.eq_false_iff.mpr fun hsome => hshort ⟨hpos, hsome⟩
    have hflaw : ({ r with timeoutHours := hours } : LockRecord).flaw? =
        some (.heartbeatOutOfRange r.heartbeatAt) := by
      simp only [flaw?, expiresAt?, LockRecord.timeout, htimeout, Option.getD_some, hnever]
      rfl
    refine ⟨.heartbeatOutOfRange r.heartbeatAt, ?_⟩
    rw [Locks.Slot.ofText, ofText?_render_of_reads h.acquired h.heartbeat hreads hvalue]
    simp only [hflaw]
  -- the record has no hours
  · have hmillis : timeout.millis = 0 := by omega
    have hzero : r.timeoutHours = .zero false := by
      rw [h.hours, ← hoursOfTimeout_millis, hmillis]
      decide +kernel
    have hreads := Binary64.Layout.reads_zero
    rw [← hzero] at hreads
    have hvalue : (⟨false, ['0'], ['0'], none⟩ : JsonNumber).toBinary64? = some (.zero false) := by
      decide +kernel
    have hflaw : ({ r with timeoutHours := .zero false } : LockRecord).flaw? =
        some (.timeoutOutOfRange (.zero false)) := by
      have hnone : timeoutOfHours? (.zero false) = none := by decide +kernel
      simp only [flaw?, hnone]
      rfl
    refine ⟨.timeoutOutOfRange (.zero false), ?_⟩
    rw [Locks.Slot.ofText, ofText?_render_of_reads h.acquired h.heartbeat hreads hvalue]
    simp only [hflaw]

theorem IsAsked.isReadable_iff (h : r.IsAsked timeout) :
    Locks.Slot.IsReadable r.render ↔ timeout.Lasts r.heartbeatAt := by
  constructor
  · rintro ⟨r', hr'⟩
    by_contra hshort
    obtain ⟨reason, hreason⟩ := h.exists_unreadable hshort
    cases hr'.symm.trans hreason
  · intro hlasts
    obtain ⟨hours, -, hread⟩ := (h.isSound hlasts).ofText_render
    exact ⟨_, hread⟩

/-- The times in a record that can be read are times of the supported years. -/
theorem isTime_of_ofText? {s : String} (h : ofText? s = some r) :
    (r.acquiredAt.IsTime ∧ r.acquiredAt.inRange = true) ∧
      (r.heartbeatAt.IsTime ∧ r.heartbeatAt.inRange = true) := by
  have htime : ∀ {j : Json} {t : Instant}, timeOfJson? j = some t → t.IsTime ∧ t.inRange = true := by
    intro j t hj
    obtain ⟨s, -, hs⟩ := Option.bind_eq_some_iff.mp hj
    exact Instant.isTime_of_ofText? hs
  have hfields : ∀ {items : List Json}, ofFields? items = some r →
      (r.acquiredAt.IsTime ∧ r.acquiredAt.inRange = true) ∧
        (r.heartbeatAt.IsTime ∧ r.heartbeatAt.inRange = true) := by
    intro items hitems
    unfold ofFields? at hitems
    split at hitems
    · simp only [Option.bind_eq_bind, Option.bind_eq_some_iff, Option.some.injEq] at hitems
      obtain ⟨_, -, _, -, _, hacquired, _, hbeat, _, -, rfl⟩ := hitems
      exact ⟨htime hacquired, htime hbeat⟩
    · cases hitems
  obtain ⟨j, -, hj⟩ := Option.bind_eq_some_iff.mp h
  unfold ofJson? at hj
  split at hj
  · exact hfields hj
  · split at hj
    · cases hj
    · obtain ⟨items, -, hitems⟩ := Option.bind_eq_some_iff.mp hj
      exact hfields hitems
  · cases hj

end LockRecord

namespace Locks
open Workboard.Action
variable {shows : Instant → Prop} {f g : Files} {p root : Path} {id owner : String}

theorem reaches_checkId {r : Except Error Unit} (h : (Records.checkId id).Reaches shows f r g) :
    g = f ∧ ((isValidId id = true ∧ r = .ok ()) ∨ r = .error (.invalidId id)) := by
  unfold Records.checkId at h
  split at h
  · rename_i hid
    obtain ⟨rfl, rfl⟩ := h
    exact ⟨rfl, .inl ⟨hid, rfl⟩⟩
  · obtain ⟨rfl, rfl⟩ := h
    exact ⟨rfl, .inr rfl⟩

theorem reaches_slot {r : Except Error Slot} (h : (slot p).Reaches shows f r g) :
    r = .ok (slotAt f p) ∧ g = f := by
  obtain ⟨e, hask, -⟩ | ⟨x, f', hask, hrest⟩ := reaches_bind.mp h
  · obtain ⟨_, heq, -⟩ := reaches_ask hask
    cases heq
  obtain ⟨_, heq, hy⟩ := reaches_ask hask
  cases heq
  obtain ⟨rfl, rfl⟩ := hy.read
  unfold Files.read at hrest
  unfold slotAt
  cases htext : f'.text? p.names with
  | some text =>
    rw [htext] at hrest
    exact hrest
  | none =>
    rw [htext] at hrest
    exact hrest

/-- How a try to take a lock with a record ends, and which files it leaves. -/
inductive Try (p : Path) (record : LockRecord) (f : Files) : Bool → Files → Prop
  /-- Somebody has the lock, or it comes and goes. -/
  | inTheWay : Try p record f false f
  /-- The record is written; it is no success if it is read back as something else. -/
  | written {b : Bool} {g : Files} (kept : f.KeptBut [p.names] g)
      (text : g.text? p.names = some record.render)
      (told : b = false → ∀ hours, Slot.ofText record.render ≠ .held { record with timeoutHours := hours }) :
      Try p record f b g
  /-- The owner has the lock already, and goes on with it. -/
  | again {current : LockRecord} {g : Files} (held : slotAt f p = .held current)
      (own : current.owner = record.owner) (kept : f.KeptBut [p.names] g)
      (text : g.text? p.names = some { record with acquiredAt := current.acquiredAt }.render) :
      Try p record f true g

/-- Whoever takes a lock over writes the record, and then reads it back. -/
theorem reaches_takeOver {record : LockRecord} {r : Except Error Bool}
    (h : (takeOver p record).Reaches shows f r g) :
    (∃ e, r = .error e ∧ f.Kept g) ∨ ∃ b, r = .ok b ∧ Try p record f b g := by
  obtain ⟨e, hreplace, rfl⟩ | ⟨_, f₁, hreplace, hrest⟩ := reaches_bind.mp h
  · obtain ⟨_, -, hkept, -⟩ | ⟨heq, -⟩ := reaches_replace hreplace
    · exact .inl ⟨e, rfl, hkept⟩
    · cases heq
  obtain ⟨_, heq, -⟩ | ⟨-, hkept, htext⟩ := reaches_replace hreplace
  · cases heq
  obtain ⟨e, hslot, -⟩ | ⟨s, f₂, hslot, hrest⟩ := reaches_bind.mp hrest
  · cases (reaches_slot hslot).1
  obtain ⟨heq, rfl⟩ := reaches_slot hslot
  obtain rfl := Except.ok.inj heq
  rw [slotAt_of_text? htext] at hrest
  cases hread : Slot.ofText record.render with
  | missing =>
    rw [hread] at hrest
    obtain ⟨rfl, rfl⟩ := hrest
    exact .inr ⟨_, rfl, .written hkept htext fun _ hours => by rw [hread]; exact Slot.noConfusion⟩
  | unreadable reason =>
    rw [hread] at hrest
    obtain ⟨rfl, rfl⟩ := hrest
    exact .inr ⟨_, rfl, .written hkept htext fun _ hours => by rw [hread]; exact Slot.noConfusion⟩
  | held current =>
    rw [hread] at hrest
    obtain ⟨rfl, rfl⟩ := hrest
    refine .inr ⟨_, rfl, .written hkept htext fun hfalse hours hheld => ?_⟩
    obtain rfl := Slot.held.inj (hread.symm.trans hheld)
    simp at hfalse

theorem reaches_tryTake {record : LockRecord} {now : Instant} {passes : Nat} {r : Except Error Bool}
    (h : (tryTake p record now passes).Reaches shows f r g) :
    (∃ e, r = .error e ∧ f.Kept g) ∨ ∃ b, r = .ok b ∧ Try p record f b g := by
  induction passes with
  | zero =>
    obtain ⟨rfl, rfl⟩ := h
    exact .inr ⟨false, rfl, .inTheWay⟩
  | succ passes ih =>
    obtain ⟨e, hcreate, rfl⟩ | ⟨created, f₁, hcreate, hrest⟩ := reaches_bind.mp h
    · obtain ⟨_, -, rfl⟩ | ⟨heq, -⟩ | ⟨heq, -⟩ := reaches_createNew hcreate
      · exact .inl ⟨e, rfl, .refl _ _⟩
      · cases heq
      · cases heq
    obtain ⟨_, heq, -⟩ | ⟨heq, rfl, -⟩ | ⟨heq, rfl, -⟩ := reaches_createNew hcreate
    · cases heq
    · obtain rfl := Except.ok.inj heq
      obtain ⟨e, hslot, -⟩ | ⟨s, f₂, hslot, hrest⟩ := reaches_bind.mp hrest
      · cases (reaches_slot hslot).1
      obtain ⟨heq, rfl⟩ := reaches_slot hslot
      obtain rfl := Except.ok.inj heq
      cases hheld : slotAt f₂ p with
      | missing =>
        rw [hheld] at hrest
        exact ih hrest
      | unreadable reason =>
        rw [hheld] at hrest
        exact reaches_takeOver hrest
      | held current =>
        simp only [hheld] at hrest
        split at hrest
        · exact reaches_takeOver hrest
        split at hrest
        · rename_i hown
          obtain ⟨e, hreplace, rfl⟩ | ⟨_, f₃, hreplace, rfl, rfl⟩ := reaches_bind.mp hrest
          · obtain ⟨_, -, hkept, -⟩ | ⟨heq, -⟩ := reaches_replace hreplace
            · exact .inl ⟨e, rfl, hkept⟩
            · cases heq
          · obtain ⟨_, heq, -⟩ | ⟨-, hkept, htext⟩ := reaches_replace hreplace
            · cases heq
            · exact .inr ⟨true, rfl, .again hheld hown hkept htext⟩
        · obtain ⟨rfl, rfl⟩ := hrest
          exact .inr ⟨false, rfl, .inTheWay⟩
    · obtain rfl := Except.ok.inj heq
      obtain ⟨rfl, rfl⟩ := hrest
      exact .inr ⟨true, rfl, .written (f.keptBut_put _ _) (by simp) Bool.noConfusion⟩

/-- What is asked is checked, and then the lock is tried with a record of its own. -/
theorem reaches_acquire_tries {timeout : Duration} {r : Except Error Bool}
    (h : (acquire root id owner timeout).Reaches shows f r g) :
    (∃ e, r = .error e ∧ f.Kept g) ∨ ∃ now, shows now ∧ isValidId id = true ∧ timeout.MayBeAsked ∧
      (tryTake (path root id) (.new id owner now timeout) now 2).Reaches shows f r g := by
  rw [acquire_eq] at h
  split at h
  · obtain ⟨rfl, rfl⟩ := h
    exact .inl ⟨_, rfl, .refl _ _⟩
  rename_i hid
  split at h
  · obtain ⟨rfl, rfl⟩ := h
    exact .inl ⟨_, rfl, .refl _ _⟩
  split at h
  · obtain ⟨rfl, rfl⟩ := h
    exact .inl ⟨_, rfl, .refl _ _⟩
  rename_i hasked
  obtain ⟨e, hnow, -⟩ | ⟨now, f₁, hnow, hrest⟩ := reaches_bind.mp h
  · obtain ⟨_, -, heq, -⟩ := reaches_now hnow
    cases heq
  obtain ⟨_, hshown, heq, rfl⟩ := reaches_now hnow
  obtain rfl := Except.ok.inj heq
  exact .inr ⟨now, hshown, by simpa using hid, hasked, hrest⟩

/-- Taking a lock changes nothing if it fails, and otherwise tries with a record of its own. -/
theorem reaches_acquire {timeout : Duration} {r : Except Error Bool}
    (h : (acquire root id owner timeout).Reaches shows f r g) :
    (∃ e, r = .error e ∧ f.Kept g) ∨ ∃ now b, shows now ∧ isValidId id = true ∧ timeout.MayBeAsked ∧
      r = .ok b ∧ Try (path root id) (.new id owner now timeout) f b g := by
  obtain herr | ⟨now, hshown, hid, hasked, htries⟩ := reaches_acquire_tries h
  · exact .inl herr
  obtain herr | ⟨b, rfl, htry⟩ := reaches_tryTake htries
  · exact .inl herr
  · exact .inr ⟨now, b, hshown, hid, hasked, rfl, htry⟩

/-- The times in a lock that is held are times of the supported years. -/
theorem isTime_of_held {f : Files} {p : Path} {r : LockRecord} (h : slotAt f p = .held r) :
    (r.acquiredAt.IsTime ∧ r.acquiredAt.inRange = true) ∧
      (r.heartbeatAt.IsTime ∧ r.heartbeatAt.inRange = true) := by
  unfold slotAt Slot.ofText at h
  split at h
  · cases h
  split at h
  · cases h
  · rename_i found hfound
    split at h
    · cases h
    · cases h
      exact LockRecord.isTime_of_ofText? hfound

/-- A lock that was taken has a record that was asked for, with a sign of life from now. -/
theorem Try.exists_asked {timeout : Duration} {now : Instant} (hasked : timeout.MayBeAsked)
    (hnow : now.IsTime ∧ now.inRange = true) (h : Try p (.new id owner now timeout) f true g) :
    ∃ r : LockRecord, g.text? p.names = some r.render ∧ r.IsAsked timeout ∧ r.owner = owner ∧
      r.heartbeatAt = now := by
  cases h with
  | written _ htext _ => exact ⟨_, htext, ⟨hasked, rfl, hnow, hnow⟩, rfl, rfl⟩
  | again hheld _ _ htext => exact ⟨_, htext, ⟨hasked, rfl, (isTime_of_held hheld).1, hnow⟩, rfl, rfl⟩

/-- A look at a lock shows what stands in its place. -/
theorem reaches_status {r : Except Error (Option LockInfo)} (hid : isValidId id = true)
    (h : (status root id).Reaches shows f r g) : match slotAt f (path root id) with
      | .missing => r = .ok none
      | .held record => ∃ now, r = .ok (some (record.infoAt now))
      | .unreadable reason => r = .error (.corrupt id reason) := by
  obtain ⟨e, hcheck, -⟩ | ⟨_, f₁, hcheck, hlook⟩ := reaches_bind.mp h
  all_goals obtain ⟨rfl, ⟨-, heq⟩ | heq⟩ := reaches_checkId hcheck
  · cases heq
  · rw [Records.checkId, if_pos hid] at hcheck
    cases hcheck.1
  · obtain ⟨e, hslot, -⟩ | ⟨s, f₂, hslot, hshow⟩ := reaches_bind.mp hlook
    · cases (reaches_slot hslot).1
    obtain ⟨heq, rfl⟩ := reaches_slot hslot
    obtain rfl := Except.ok.inj heq
    cases hfound : slotAt f₂ (path root id) with
    | missing =>
      rw [hfound] at hshow
      exact hshow.1
    | unreadable reason =>
      rw [hfound] at hshow
      exact hshow.1
    | held record =>
      rw [hfound] at hshow
      obtain ⟨e, hnow, -⟩ | ⟨now, f₃, -, heq, -⟩ := reaches_bind.mp hshow
      · obtain ⟨_, -, heq, -⟩ := reaches_now hnow
        cases heq
      · exact ⟨now, heq⟩
  · cases heq

/-- The lock is held by whom its file names, if it can be read. -/
theorem reaches_isHeldBy {r : Except Error Bool} (hid : isValidId id = true)
    (h : (isHeldBy root id owner).Reaches shows f r g) :
    r = .ok true ↔ (slotAt f (path root id)).owner? = some owner := by
  obtain ⟨e, hstatus, rfl⟩ | ⟨info?, f₁, hstatus, rfl, -⟩ := reaches_bind.mp h
  all_goals
    have hfound := reaches_status hid hstatus
    cases hslot : slotAt f (path root id) with
    | missing =>
      rw [hslot] at hfound
      cases hfound <;> exact ⟨nofun, nofun⟩
    | unreadable reason =>
      rw [hslot] at hfound
      cases hfound <;> exact ⟨nofun, nofun⟩
    | held record =>
      rw [hslot] at hfound
      obtain ⟨now, heq⟩ := hfound
      cases heq <;> simp [Slot.owner?, LockRecord.infoAt]

/-- Whoever was granted a lock finds it held exactly if the timeout lasts: it is a millisecond or
more, and ends within the supported years. Taking a lock checks neither. -/
theorem granted_isHeldBy_iff {timeout : Duration} {w : World Files}
    (hnow : w.clock.IsTime ∧ w.clock.inRange = true)
    (hgranted : ((acquire root id owner timeout).run.runIn w).1 = .ok true) :
    ((isHeldBy root id owner).run.runIn ((acquire root id owner timeout).run.runIn w).2).1 = .ok true ↔
      timeout.Lasts w.clock := by
  have htaken : (acquire root id owner timeout).Reaches (· = w.clock) w.store _ _ :=
    reaches_runIn hgranted rfl
  generalize ((acquire root id owner timeout).run.runIn w).2 = w' at htaken ⊢
  obtain ⟨_, heq, -⟩ | ⟨_, b, rfl, hid, hasked, heq, htry⟩ := reaches_acquire htaken
  · cases heq
  obtain rfl := Except.ok.inj heq
  obtain ⟨r, htext, hr, hown, hbeat⟩ := htry.exists_asked hasked hnow
  have hlook : (isHeldBy root id owner).Reaches (fun _ => True) w'.store _ _ := reaches_runIn rfl trivial
  rw [reaches_isHeldBy hid hlook, slotAt_of_text? htext, ← hbeat, ← hr.isReadable_iff]
  constructor
  · intro howner
    obtain ⟨r', hr', -⟩ := Slot.owner?_eq_some.mp howner
    exact ⟨r', hr'⟩
  · intro hread
    rw [Slot.owner?_ofText_render hread, hown]

/-- A lock file that cannot be read is replaced, and then the lock is held. -/
theorem granted_isHeldBy_unreadable :
    let root : Path := ⟨["/", "store"], "/store"⟩
    let w : World Files := ⟨{ entries := [((path root "a").names, "?")] }, ⟨1740819600, 0⟩, 0, 4, 0⟩
    let granted := (acquire root "a" "x" (.ofHours 4)).run.runIn w
    granted.1 = .ok true ∧ ((isHeldBy root "a" "x").run.runIn granted.2).1 = .ok true := by
  intro root w granted
  have hgranted : granted.1 = .ok true := by decide +kernel
  have hnow : w.clock.IsTime ∧ w.clock.inRange = true :=
    ⟨⟨by decide, by decide⟩, by decide +kernel⟩
  have hlasts : (Duration.ofHours 4).Lasts w.clock := by decide +kernel
  exact ⟨hgranted, (granted_isHeldBy_iff hnow hgranted).mpr hlasts⟩

/-- An hour before the end of the supported years a lock is granted for four hours, and nobody
can read it. -/
theorem granted_past_the_end :
    let root : Path := ⟨["/", "store"], "/store"⟩
    let w : World Files := ⟨{}, ⟨8210266873200, 0⟩, 0, 4, 0⟩
    let granted := (acquire root "a" "x" (.ofHours 4)).run.runIn w
    granted.1 = .ok true ∧ ((isHeldBy root "a" "x").run.runIn granted.2).1 =
      .error (.corrupt "a" (.heartbeatOutOfRange ⟨8210266873200, 0⟩)) := by
  decide +kernel

end Locks

end Workboard
