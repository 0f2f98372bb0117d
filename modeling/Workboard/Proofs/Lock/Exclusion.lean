import Workboard.Proofs.Lock.Slot

/-!
# One holder at a time

Any number of parties with different names take, renew and release one lock, each as
often as it likes, and their calls on the files mix in any order. Nobody removes a lock
by force and no lock is seen stale. What a party relies on is that the others leave the
question whether the lock names it as it is: only the party itself gives the lock its
name or takes it away. Main statement: at any moment at most one party is between a take
that came true and the start of its next release, and the lock file then names it.
-/
namespace Workboard.Locks

/-- What a party does with the lock. -/
inductive Turn where
  | acquire (timeout : Duration)
  | renew
  | release
  deriving DecidableEq

/-- The program of a turn of an owner. -/
def Turn.body (root : Path) (id owner : String) : Turn → Program (Except Error Bool)
  | .acquire timeout => (Locks.acquire root id owner timeout).run
  | .renew => (Locks.renew root id owner).run
  | .release => (Locks.release root id owner).run

/-- No lock is read that is stale at the last reading of the clock, and every text that is
written is that of a lock that can be read. -/
def Undisturbed (m : Memo) : Call → Files → Prop
  | .read p, f => (slotAt f p).IsFresh m
  | .createNew _ text, _ => Slot.IsReadable text
  | .write _ text, _ => Slot.IsReadable text
  | _, _ => True

instance (m : Memo) (c : Call) (f : Files) : Decidable (Undisturbed m c f) :=
  match c with
  | .read p => inferInstanceAs (Decidable ((slotAt f p).IsFresh m))
  | .createNew _ text => inferInstanceAs (Decidable (Slot.IsReadable text))
  | .write _ text => inferInstanceAs (Decidable (Slot.IsReadable text))
  | .now => .isTrue trivial
  | .freshId => .isTrue trivial
  | .token => .isTrue trivial
  | .rename _ _ => .isTrue trivial
  | .remove _ => .isTrue trivial
  | .present _ => .isTrue trivial
  | .list _ => .isTrue trivial

/-- Everybody may begin any turn at any time. -/
def turns {ι : Type} (root : Path) (id : String) (owner : ι → String) :
    Rules ι Turn (Except Error Bool) where
  body i := Turn.body root id (owner i)
  may _ _ _ := True
  permit _ := Undisturbed

section
variable {ι : Type} (root : Path) (id : String) (owner : ι → String)

instance (i : ι) (past : List (Turn × Except Error Bool)) (turn : Turn) :
    Decidable ((turns root id owner).may i past turn) := .isTrue trivial

instance (i : ι) (m : Memo) (c : Call) (f : Files) :
    Decidable ((turns root id owner).permit i m c f) := inferInstanceAs (Decidable (Undisturbed m c f))

end

/-- Whether a party has the lock after its finished turns. -/
def heldAfter (past : List (Turn × Except Error Bool)) : Bool :=
  past.foldl (fun held turn => match turn with
    | (.acquire _, .ok true) => true
    | (.release, _) => false
    | _ => held) false

/-- The party is between a take that came true and the start of its next release. -/
def Holds (p : Party Turn (Except Error Bool)) : Prop :=
  heldAfter p.past = true ∧ ∀ r, p.current = some r → r.op ≠ .release

instance (p : Party Turn (Except Error Bool)) : Decidable (Holds p) :=
  match h : p.current with
  | none => decidable_of_iff (heldAfter p.past = true) (by simp [Holds, h])
  | some r => decidable_of_iff (heldAfter p.past = true ∧ r.op ≠ .release) (by simp [Holds, h])

theorem heldAfter_append (past : List (Turn × Except Error Bool)) (turn : Turn)
    (r : Except Error Bool) : heldAfter (past ++ [(turn, r)]) = match turn, r with
      | .acquire _, .ok true => true
      | .release, _ => false
      | _, _ => heldAfter past := by
  simp only [heldAfter, List.foldl_append, List.foldl_cons, List.foldl_nil]
  rcases turn with _ | _ | _ <;> rcases r with _ | _ | _ <;> rfl

section Exclusion
variable {ι : Type} (root : Path) (id : String) (owner : ι → String)

/-- The lock names the party. -/
def Names (i : ι) (f : Files) : Prop := (slotAt f (path root id)).owner? = some (owner i)

/-- The lock file can be read, if there is one. -/
def Tidy (f : Files) : Prop := (slotAt f (path root id)).IsTidy

/-- The others leave the lock named for the party, or not named for it, and they leave it
so that it can be read. -/
def exclusion : Protocol ι where
  rely i v u := (Names root id owner i v.files ↔ Names root id owner i u.files) ∧
    (Tidy root id v.files → Tidy root id u.files)
  refl _ _ := ⟨Iff.rfl, fun h => h⟩
  trans huv hvw := ⟨huv.1.trans hvw.1, fun h => hvw.2 (huv.2 h)⟩
  shy := by
    intro i j v c g token _ hsame
    have h := slotAt_congr (hsame.text _ (isPublic_path root id))
    simp only [Names, Tidy, Sight.files_after, h, imp_self, and_self]

variable {root id owner} {i : ι} {past : List (Turn × Except Error Bool)}

/-- What a party knows between its turns. -/
def Knows (root : Path) (id : String) (owner : ι → String) (i : ι) (held : Bool) (v : Sight ι) :
    Prop :=
  Tidy root id v.files ∧ (held = true → Names root id owner i v.files)

theorem stable_knows (i : ι) (held : Bool) :
    (exclusion root id owner).Stable i (Knows root id owner i held) :=
  fun _ _ h hv => ⟨h.2 hv.1, fun hh => h.1.mp (hv.2 hh)⟩

/-- Others do not mind what happens to a lock that named nobody but the party before, and
names nobody but the party afterwards. -/
theorem rely_of_own (howner : Function.Injective owner) {v u : Sight ι}
    (hv : ∀ y, (slotAt v.files (path root id)).owner? = some y → y = owner i)
    (hu : ∀ y, (slotAt u.files (path root id)).owner? = some y → y = owner i)
    (htidy : Tidy root id u.files) (j : ι) (hj : j ≠ i) : (exclusion root id owner).rely j v u :=
  ⟨⟨fun h => absurd (howner (hv _ h)) hj, fun h => absurd (howner (hu _ h)) hj⟩, fun _ => htidy⟩

theorem rely_of_files_eq {v u : Sight ι} (h : u.files = v.files) (j : ι) :
    (exclusion root id owner).rely j v u := by
  simp only [exclusion, h, imp_self, and_self]

theorem slotAt_renamed (root : Path) (id : String) (f : Files) (t text : String) :
    slotAt (Protocol.renamed f ((path root id).staged t).names (path root id).names text)
      (path root id) = .ofText text :=
  slotAt_of_text? (by rw [Protocol.text?_renamed (isPublic_path root id), if_pos rfl])

theorem isTidy_of_owner? {s : Slot} {y : String} (h : s.owner? = some y) : s.IsTidy := by
  rintro reason rfl
  cases h

/-- The own lock is replaced by another one for the same owner. -/
theorem keeps_replace_own (howner : Function.Injective owner) {held : Bool} {m : Memo} {v : Sight ι}
    {mid : Sight ι → Prop} (record : LockRecord) (hrecord : record.owner = owner i)
    (hmid : ∀ v, Knows root id owner i held v → mid v)
    {post : Except Error Unit → Memo → Sight ι → Prop} (hv : Knows root id owner i held v)
    (hnames : Names root id owner i v.files)
    (hok : ∀ m u, Tidy root id u.files → Names root id owner i u.files → post (.ok ()) m u)
    (herr : ∀ e m u, Knows root id owner i held u → post (.error e) m u) :
    (exclusion root id owner).Keeps i Undisturbed mid post
      (Action.replace (path root id) record.render).run m v := by
  have hstable : (exclusion root id owner).Stable i
      fun v => Knows root id owner i held v ∧ Names root id owner i v.files :=
    (stable_knows i held).and fun _ _ h hn => h.1.mp hn
  refine Protocol.keeps_replace (W := Slot.IsReadable record.render) hstable
    (fun v h => hmid v h.1) (isPublic_path root id) ⟨hv, hnames⟩ (fun t f h => h) ?_ ?_ ?_
  · intro u t hu hread _
    have howned := Slot.owner?_ofText_render hread
    rw [hrecord, ← slotAt_renamed root id u.files t] at howned
    refine ⟨rely_of_own howner (fun y hy => ?_) (fun y hy => ?_) (isTidy_of_owner? howned),
      fun m => hok m _ (isTidy_of_owner? howned) howned⟩
    · exact Option.some.inj (hy.symm.trans hu.2)
    · exact Option.some.inj (hy.symm.trans howned)
  · intro u t hu _
    exact ⟨fun j _ => rely_of_files_eq rfl j, hu⟩
  · exact fun _ _ _ e m u hu => herr _ m u hu.1

/-- A try to take the lock, by a party that the lock may name already. -/
theorem keeps_tryTake (howner : Function.Injective owner) {held : Bool} {m : Memo} {v : Sight ι}
    {mid : Sight ι → Prop} (record : LockRecord) {now : Instant}
    (hrecord : record.owner = owner i) (hclock : m.clock = some now)
    (hmid : ∀ v, Knows root id owner i held v → mid v)
    {post : Except Error Bool → Memo → Sight ι → Prop} (hv : Knows root id owner i held v)
    (htrue : ∀ m u, Tidy root id u.files → Names root id owner i u.files → post (.ok true) m u)
    (hfalse : ∀ m u, Knows root id owner i held u → post (.ok false) m u)
    (herr : ∀ e m u, Knows root id owner i held u → post (.error e) m u) (passes : Nat) :
    (exclusion root id owner).Keeps i Undisturbed mid post
      (tryTake (path root id) record now passes).run m v := by
  induction passes generalizing m v with
  | zero => exact hfalse m v hv
  | succ passes ih =>
    refine Protocol.keeps_bind (Protocol.keeps_createNew (stable_knows i held) hmid
      (isPublic_path root id) hv ?_ ?_ ?_)
    · intro u hu hread hnone
      have howned := Slot.owner?_ofText_render hread
      rw [hrecord, ← slotAt_put root id u.files] at howned
      refine ⟨rely_of_own howner (fun y hy => ?_) (fun y hy => ?_) (isTidy_of_owner? howned),
        htrue m _ (isTidy_of_owner? howned) howned⟩
      · rw [slotAt_eq_missing.mpr hnone] at hy
        cases hy
      · exact Option.some.inj (hy.symm.trans howned)
    · intro u hu _
      refine ⟨fun j _ => rely_of_files_eq rfl j, ?_⟩
      refine Protocol.keeps_bind (keeps_slot (stable_knows i held) hmid hu fun u hu hp hu' => ?_)
      cases hs : slotAt u.files (path root id) with
      | missing => exact ih hclock hu'
      | unreadable reason => exact absurd hs (hu.1 reason)
      | held current =>
        have hfresh := hp current now hs hclock
        simp only [Protocol.Then, hfresh]
        by_cases hown : current.owner = record.owner
        · have hnames : Names root id owner i u.files := by
            rw [Names, hs, ← hrecord, ← hown]
            rfl
          rw [if_pos hown]
          refine Protocol.keeps_bind (keeps_replace_own howner
            { record with acquiredAt := current.acquiredAt } hrecord hmid hu' hnames ?_ ?_)
          · exact fun m u ht hn => htrue m u ht hn
          · exact fun e m u hu => herr e m u hu
        · rw [if_neg hown]
          exact hfalse _ _ hu'
    · intro u hu _
      exact ⟨fun j _ => rely_of_files_eq rfl j, fun e => herr e m _ hu⟩

theorem keeps_acquire (howner : Function.Injective owner) {held : Bool} {v : Sight ι}
    {mid : Sight ι → Prop} (timeout : Duration)
    (hmid : ∀ v, Knows root id owner i held v → mid v)
    {post : Except Error Bool → Memo → Sight ι → Prop} (hv : Knows root id owner i held v)
    (htrue : ∀ m u, Tidy root id u.files → Names root id owner i u.files → post (.ok true) m u)
    (hfalse : ∀ m u, Knows root id owner i held u → post (.ok false) m u)
    (herr : ∀ e m u, Knows root id owner i held u → post (.error e) m u) :
    (exclusion root id owner).Keeps i Undisturbed mid post
      (acquire root id (owner i) timeout).run {} v := by
  rw [acquire_eq]
  split
  · exact herr _ _ v hv
  split
  · exact herr _ _ v hv
  split
  · exact herr _ _ v hv
  refine Protocol.keeps_bind (Protocol.keeps_now (stable_knows i held) hmid hv fun now u hu => ?_)
  exact keeps_tryTake howner (.new id (owner i) now timeout) rfl rfl hmid hu htrue hfalse herr 2

theorem keeps_renew (howner : Function.Injective owner) {held : Bool} {v : Sight ι}
    {mid : Sight ι → Prop} (hmid : ∀ v, Knows root id owner i held v → mid v)
    {post : Except Error Bool → Memo → Sight ι → Prop} (hv : Knows root id owner i held v)
    (hpost : ∀ r m u, Knows root id owner i held u → post r m u) :
    (exclusion root id owner).Keeps i Undisturbed mid post (renew root id (owner i)).run {} v := by
  refine Protocol.keeps_bind (keeps_checkId (fun _ => ?_) fun _ => hpost _ _ v hv)
  refine Protocol.keeps_bind (keeps_slot (stable_knows i held) hmid hv fun u hu _ hu' => ?_)
  cases hs : slotAt u.files (path root id) with
  | missing => exact hpost _ _ _ hu'
  | unreadable reason => exact hpost _ _ _ hu'
  | held record =>
    simp only [Protocol.Then]
    by_cases hown : record.owner = owner i
    · have hnames : Names root id owner i u.files := by
        rw [Names, hs, ← hown]
        rfl
      have hstable : (exclusion root id owner).Stable i
          fun v => Knows root id owner i held v ∧ Names root id owner i v.files :=
        (stable_knows i held).and fun _ _ h hn => h.1.mp hn
      rw [if_pos hown]
      refine Protocol.keeps_bind (Protocol.keeps_now hstable (fun v h => hmid v h.1) ⟨hu', hnames⟩
        fun now w hw => ?_)
      refine Protocol.keeps_bind (keeps_replace_own howner
        { record with heartbeatAt := max now record.heartbeatAt } hown hmid hw.1 hw.2 ?_ ?_)
      · exact fun m u ht hn => hpost _ m u ⟨ht, fun _ => hn⟩
      · exact fun e m u hu => hpost _ m u hu
    · rw [if_neg hown]
      exact hpost _ _ _ hu'

theorem keeps_release (howner : Function.Injective owner) {v : Sight ι}
    {post : Except Error Bool → Memo → Sight ι → Prop} (hv : Knows root id owner i false v)
    (hpost : ∀ r m u, Knows root id owner i false u → post r m u) :
    (exclusion root id owner).Keeps i Undisturbed (fun _ => True) post
      (release root id (owner i)).run {} v := by
  refine Protocol.keeps_bind (keeps_checkId (fun _ => ?_) fun _ => hpost _ _ v hv)
  refine Protocol.keeps_bind (keeps_slot (stable_knows i false) (fun _ _ => trivial) hv
    fun u hu _ hu' => ?_)
  cases hs : slotAt u.files (path root id) with
  | missing => exact hpost _ _ _ hu'
  | unreadable reason => exact hpost _ _ _ hu'
  | held record =>
    simp only [Protocol.Then]
    by_cases hown : record.owner = owner i
    · have hnames : Names root id owner i u.files := by
        rw [Names, hs, ← hown]
        rfl
      have hstable : (exclusion root id owner).Stable i
          fun v => Knows root id owner i false v ∧ Names root id owner i v.files :=
        (stable_knows i false).and fun _ _ h hn => h.1.mp hn
      rw [if_pos hown]
      refine Protocol.keeps_remove hstable (fun _ _ => trivial) (isPublic_path root id)
        ⟨hu', hnames⟩ ?_ ?_
      · intro w hw _
        have hgone := slotAt_erase root id w.files
        have htidy : Tidy root id (w.files.erase (path root id).names) := by
          rw [Tidy, hgone]
          exact fun reason => Slot.noConfusion
        refine ⟨rely_of_own howner (fun y hy => ?_) (fun y hy => ?_) htidy,
          hpost _ _ _ ⟨htidy, Bool.noConfusion⟩⟩
        · exact Option.some.inj (hy.symm.trans hw.2)
        · rw [Sight.files_after, hgone] at hy
          cases hy
      · exact fun w hw _ => ⟨fun j _ => rely_of_files_eq rfl j, hpost _ _ _ hw.1⟩
    · rw [if_neg hown]
      exact hpost _ _ _ hu'

/-- What the parties know between their turns and during them. -/
def exclusionContract (root : Path) (id : String) (howner : Function.Injective owner) :
    Contract (turns root id owner) (exclusion root id owner) where
  idle i past v := Knows root id owner i (heldAfter past) v
  mid i past turn v := turn ≠ .release → heldAfter past = true → Names root id owner i v.files
  stable i past := stable_knows i (heldAfter past)
  begins := by
    intro i past turn v hv _
    cases turn with
    | acquire timeout =>
      refine keeps_acquire howner timeout (fun v h _ hh => h.2 hh) hv ?_ ?_ ?_
      · exact fun _ u ht hn => ⟨ht, fun _ => hn⟩
      · exact fun _ u hu => by simpa only [heldAfter_append] using hu
      · exact fun e _ u hu => by simpa only [heldAfter_append] using hu
    | renew =>
      refine keeps_renew howner (fun v h _ hh => h.2 hh) hv fun r _ u hu => ?_
      simpa only [heldAfter_append] using hu
    | release =>
      refine (keeps_release howner ⟨hv.1, Bool.noConfusion⟩ fun r _ u hu => ?_).mono_mid
        fun v _ h => absurd rfl h
      simpa only [heldAfter_append] using hu

/-- At any moment at most one party is between a take that came true and the start of its
next release, and then there is a lock file that can be read and names that party. -/
theorem holds_exclusive [DecidableEq ι] (howner : Function.Injective owner) {w : World Files}
    (hfree : w.store.text? (path root id).names = none) {ms : List (Move ι Turn)}
    (hrun : (turns root id owner).Follows (.start w) ms) :
    let s := (turns root id owner).run (.start w) ms
    (∀ i, Holds (s.party i) →
      ∃ r, slotAt s.world.store (path root id) = .held r ∧ r.owner = owner i) ∧
    ∀ i j, Holds (s.party i) → Holds (s.party j) → i = j := by
  intro s
  have hstart : ∀ i, (exclusionContract root id howner).idle i [] ⟨w.store, []⟩ := by
    intro i
    refine ⟨?_, Bool.noConfusion⟩
    rw [Tidy, slotAt_eq_missing.mpr hfree]
    exact fun reason => Slot.noConfusion
  have hnames : ∀ i, Holds (s.party i) → Names root id owner i s.world.store := by
    intro i hi
    have h := (exclusionContract root id howner).idle_or_mid hstart hrun i
    split at h
    · exact h.2 hi.1
    · rename_i r hr
      exact h (hi.2 r hr) hi.1
  refine ⟨fun i hi => Slot.owner?_eq_some.mp (hnames i hi), fun i j hi hj => howner ?_⟩
  exact Option.some.inj ((hnames i hi).symm.trans (hnames j hj))

end Exclusion

/-- Two parties go for a free lock at the same time. -/
theorem holds_exclusive_race :
    let names : Bool → String := fun first => if first then "x" else "y"
    let rules := turns ⟨["/", "store"], "/store"⟩ "a" names
    let moves : List (Move Bool Turn) :=
      [.begin true (.acquire (.ofHours 4)), .begin false (.acquire (.ofMillis 1)), .call false,
        .call true, .call true, .clock ⟨1740819600, 1000000⟩, .call false, .call false]
    let s := rules.run (.start ⟨{}, ⟨1740819600, 0⟩, 0, 4, 0⟩) moves
    Holds (s.party true) ∧ ¬ Holds (s.party false) ∧ ∃ r,
      slotAt s.world.store (path ⟨["/", "store"], "/store"⟩ "a") = .held r ∧ r.owner = "x" := by
  intro names rules moves s
  have hnames : Function.Injective names := by
    intro a b h
    cases a <;> cases b <;> first | rfl | exact absurd h (by decide)
  have hrun : rules.Follows (.start ⟨{}, ⟨1740819600, 0⟩, 0, 4, 0⟩) moves := by decide +kernel
  have hfirst : Holds (s.party true) := by decide +kernel
  obtain ⟨hnamed, hone⟩ := holds_exclusive hnames rfl hrun
  refine ⟨hfirst, fun hsecond => ?_, hnamed true hfirst⟩
  exact Bool.noConfusion (hone true false hfirst hsecond)

end Workboard.Locks
