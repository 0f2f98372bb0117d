import Workboard.Proofs.Storage.Outcomes

/-!
# All or nothing

An action is whole if it has changed nothing whenever it fails. Mostly this is so because it
looks first, then makes one change that is whole by itself, and what it does after that change
cannot fail any more.
-/
namespace Workboard.Action
variable {α β : Type} {shows : Instant → Prop} {a : Action α} {k : α → Action β}

/-- Whenever the action fails, the files are as before. -/
def Whole (shows : Instant → Prop) (a : Action α) : Prop :=
  ∀ f e g, a.Reaches shows f (.error e) g → f.Kept g

/-- The action does not fail. -/
def Sure (shows : Instant → Prop) (a : Action α) : Prop :=
  ∀ f e g, ¬ a.Reaches shows f (.error e) g

/-- The files are as before, unless the action succeeds with such a result. -/
def WholeBut (shows : Instant → Prop) (changed : α → Prop) (a : Action α) : Prop :=
  ∀ f r g, a.Reaches shows f r g → f.Kept g ∨ ∃ x, r = .ok x ∧ changed x

theorem Sure.whole (ha : a.Sure shows) : a.Whole shows :=
  fun f e g h => absurd h (ha f e g)

theorem Quiet.wholeBut (ha : Quiet a) (changed : α → Prop) : a.WholeBut shows changed := by
  intro f r g h
  rw [ha.eq_of_reaches h]
  exact .inl (.refl _ _)

theorem Whole.wholeBut (ha : a.Whole shows) : a.WholeBut shows fun _ => True := by
  intro f r g h
  cases r with
  | ok x => exact .inr ⟨x, rfl, trivial⟩
  | error e => exact .inl (ha f e g h)

theorem WholeBut.whole {changed : α → Prop} (ha : a.WholeBut shows changed) : a.Whole shows := by
  intro f e g h
  obtain hkept | ⟨_, heq, -⟩ := ha f _ g h
  · exact hkept
  · cases heq

theorem Quiet.whole (ha : Quiet a) : a.Whole shows := (ha.wholeBut fun _ => True).whole

/-- After a part that only looks, nothing has changed. -/
theorem Quiet.wholeBut_bind {changed : β → Prop} (ha : Quiet a)
    (hk : ∀ f x, a.Reaches shows f (.ok x) f → (k x).WholeBut shows changed) :
    (a >>= k).WholeBut shows changed := by
  intro f r h hrun
  obtain ⟨e, ha', -⟩ | ⟨x, g, ha', hk'⟩ := reaches_bind.mp hrun
  · rw [ha.eq_of_reaches ha']
    exact .inl (.refl _ _)
  · obtain rfl := ha.eq_of_reaches ha'
    exact hk _ x ha' _ r h hk'

theorem Quiet.whole_bind (ha : Quiet a)
    (hk : ∀ f x, a.Reaches shows f (.ok x) f → (k x).Whole shows) : (a >>= k).Whole shows :=
  (ha.wholeBut_bind fun f x h => (hk f x h).wholeBut).whole

/-- After a part that has changed something, the rest must not fail. -/
theorem WholeBut.bind {changed : α → Prop} (ha : a.WholeBut shows changed)
    (hsure : ∀ f x g, a.Reaches shows f (.ok x) g → changed x → (k x).Sure shows)
    (hwhole : ∀ f x g, a.Reaches shows f (.ok x) g → ¬ changed x → (k x).Whole shows) :
    (a >>= k).Whole shows := by
  intro f e h hrun
  obtain ⟨e, ha', -⟩ | ⟨x, g, ha', hk'⟩ := reaches_bind.mp hrun
  · exact ha.whole f e h ha'
  · by_cases hchanged : changed x
    · exact absurd hk' (hsure f x g ha' hchanged g e h)
    · obtain hkept | ⟨_, heq, hchanged'⟩ := ha f _ g ha'
      · exact hkept.trans (hwhole f x g ha' hchanged g e h hk')
      · obtain rfl := Except.ok.inj heq
        exact absurd hchanged' hchanged

theorem Whole.bind_sure (ha : a.Whole shows)
    (hk : ∀ f x g, a.Reaches shows f (.ok x) g → (k x).Sure shows) : (a >>= k).Whole shows :=
  ha.wholeBut.bind (fun f x g h _ => hk f x g h) fun _ _ _ _ h => absurd trivial h

theorem Whole.bind_pure (ha : a.Whole shows) {changed : β → Prop} {y : β} (hy : changed y) :
    (a >>= fun _ => pure y).WholeBut shows changed := by
  intro f r h hrun
  obtain ⟨e, ha', -⟩ | ⟨x, g, -, rfl, -⟩ := reaches_bind.mp hrun
  · exact .inl (ha f e h ha')
  · exact .inr ⟨y, rfl, hy⟩

theorem Sure.bind (ha : a.Sure shows)
    (hk : ∀ f x g, a.Reaches shows f (.ok x) g → (k x).Sure shows) : (a >>= k).Sure shows := by
  intro f e h hrun
  obtain ⟨e, ha', -⟩ | ⟨x, g, ha', hk'⟩ := reaches_bind.mp hrun
  · exact ha f e h ha'
  · exact hk f x g ha' g e h hk'

theorem sure_pure (x : α) : (pure x : Action α).Sure shows := fun _ _ _ h => by cases h.1

theorem sure_attempt (a : Action α) : (attempt a).Sure shows := by
  intro f e g h
  obtain ⟨_, _, heq⟩ := reaches_attempt.mp h
  cases heq

theorem sure_ask (c : Call) : (ask c).Sure shows := by
  intro f e g h
  obtain ⟨_, heq, -⟩ := reaches_ask h
  cases heq

theorem sure_list (p : Path) : (orFail (list p)).Sure shows := by
  intro f e g h
  cases (reaches_list h).1

theorem sure_remove (p : Path) : (orFail (remove p)).Sure shows := by
  intro f e g h
  obtain ⟨heq, -⟩ | ⟨heq, -⟩ := reaches_remove h <;> cases heq

theorem whole_throw (e : Error) : (throw e : Action α).Whole shows := (quiet_throw e).whole

theorem wholeBut_createNew (p : Path) (s : String) :
    (orFail (createNew p s)).WholeBut shows (· = true) := by
  intro f r g h
  obtain ⟨_, -, rfl⟩ | ⟨-, rfl, -⟩ | ⟨rfl, -⟩ := reaches_createNew h
  · exact .inl (.refl _ _)
  · exact .inl (.refl _ _)
  · exact .inr ⟨true, rfl, rfl⟩

theorem whole_replace (p : Path) (s : String) : (replace p s).Whole shows := by
  intro f e g h
  obtain ⟨_, -, hkept, -⟩ | ⟨heq, -⟩ := reaches_replace h
  · exact hkept
  · cases heq

/-- Before a check, nothing has changed; after it, what was checked is known. -/
theorem whole_settle_bind {r : Except Error α} (hk : ∀ x, r = .ok x → (k x).Whole shows) :
    (settle r >>= k).Whole shows :=
  (quiet_settle r).whole_bind fun _ x h => hk x h.1.symm

end Workboard.Action
