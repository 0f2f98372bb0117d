import Mathlib.Logic.Function.Basic
import Workboard.Proofs.Storage.Alone

/-!
# How actions end

What holds of the result of an action that nobody interrupts, and of the world it leaves,
is found part by part, from the first to the last. In a steady world the token of the next
hidden file is still unused, so a file that is replaced is the only one that changes; if it
cannot be replaced, nothing changes.
-/
namespace Workboard

namespace World

/-- No place is listed twice, and no file is hidden by a token that is still to come. -/
structure Steady (w : World Files) : Prop where
  proper : w.store.Proper
  unused : ∀ n names, w.tokens < n → HiddenBy (tokenText n) names → w.store.text? names = none

/-- A world without hidden files is steady. -/
theorem steady_of_isPublic {w : World Files} (hproper : w.store.Proper)
    (hpublic : ∀ names ∈ w.store.entries.map Prod.fst, IsPublic names) : w.Steady := by
  refine ⟨hproper, fun n names _ hhid => ?_⟩
  by_contra hsome
  exact hpublic names (Files.text?_isSome.mp (Option.isSome_iff_ne_none.mpr hsome)) _ hhid

/-- The world goes on, steady, at the same instant and with the same refusals. -/
structure Continues (w w' : World Files) : Prop where
  steady : w'.Steady
  clock : w'.clock = w.clock
  refusing : w'.store.refusing = w.store.refusing

/-- The world goes on with these texts in its files. -/
structure Becomes (w w' : World Files) (texts : List String → Option String) : Prop extends
    Continues w w' where
  text : w'.store.text? = texts

theorem Steady.continues_self {w : World Files} (h : w.Steady) : w.Continues w := ⟨h, rfl, rfl⟩

theorem Steady.becomes_self {w : World Files} (h : w.Steady) : w.Becomes w w.store.text? :=
  ⟨h.continues_self, rfl⟩

theorem Continues.trans {u v w : World Files} (h : u.Continues v) (h' : v.Continues w) :
    u.Continues w :=
  ⟨h'.steady, h'.clock.trans h.clock, h'.refusing.trans h.refusing⟩

theorem Steady.becomes_put {w : World Files} (h : w.Steady) {names : List String}
    (hpublic : IsPublic names) (s : String) :
    w.Becomes { w with store := w.store.put names s } (Function.update w.store.text? names (some s)) := by
  have htext : ∀ other, (w.store.put names s).text? other =
      Function.update w.store.text? names (some s) other := by
    intro other
    rw [Files.text?_put, Function.update_apply]
  refine ⟨⟨⟨Files.proper_put h.proper _ _, fun n other hn hhid => ?_⟩, rfl, rfl⟩, funext htext⟩
  have hne : other ≠ names := fun heq => hpublic _ (heq ▸ hhid)
  exact (htext other).trans ((Function.update_of_ne hne _ _).trans (h.unused n other hn hhid))

theorem Steady.becomes_erase {w : World Files} (h : w.Steady) (names : List String) :
    w.Becomes { w with store := w.store.erase names } (Function.update w.store.text? names none) := by
  have htext : ∀ other, (w.store.erase names).text? other =
      Function.update w.store.text? names none other := by
    intro other
    rw [Files.text?_erase, Function.update_apply]
  refine ⟨⟨⟨Files.proper_erase h.proper _, fun n other hn hhid => ?_⟩, rfl, rfl⟩, funext htext⟩
  change (w.store.erase names).text? other = none
  rw [Files.text?_erase, h.unused n other hn hhid, ite_self]

/-- The place of a file, or of the hidden file that is renamed to it, cannot be written. -/
def Refuses (w : World Files) (p : Path) : Prop :=
  ∃ names ∈ w.store.refusing, names = p.names ∨ ∃ token, HiddenBy token names

end World

namespace Action
variable {α β : Type} {w : World Files} {post : Except Error β → World Files → Prop}

/-- What holds of the result of an action and of the world it leaves. -/
def Ends (a : Action α) (w : World Files) (post : Except Error α → World Files → Prop) : Prop :=
  post (a.run.runIn w).1 (a.run.runIn w).2

theorem Ends.of_runIn {a : Action β} {r : Except Error β} {w' : World Files} (h : a.Ends w post)
    (hrun : a.run.runIn w = (r, w')) : post r w' := by
  rwa [Ends, hrun] at h

theorem ends_of_runIn {a : Action β} {r : Except Error β} {w' : World Files}
    (hrun : a.run.runIn w = (r, w')) (h : post r w') : a.Ends w post := by
  rwa [Ends, hrun]

theorem Ends.mono {a : Action β} {post' : Except Error β → World Files → Prop} (h : a.Ends w post)
    (hpost : ∀ r w', post r w' → post' r w') : a.Ends w post' :=
  hpost _ _ h

theorem ends_of_forall {a : Action β} (h : ∀ r w', post r w') : a.Ends w post := h _ _

theorem Ends.and {a : Action β} {post' : Except Error β → World Files → Prop} (h : a.Ends w post)
    (h' : a.Ends w post') : a.Ends w fun r w' => post r w' ∧ post' r w' :=
  And.intro h h'

/-- What an action does after its first part, unless that ended with an error. -/
def andThen (f : α → Action β) (post : Except Error β → World Files → Prop) :
    Except Error α → World Files → Prop
  | .ok x, w => (f x).Ends w post
  | .error e, w => post (.error e) w

@[simp] theorem andThen_ok (f : α → Action β) (post : Except Error β → World Files → Prop) (x : α) :
    andThen f post (.ok x) w = (f x).Ends w post := rfl

@[simp] theorem andThen_error (f : α → Action β) (post : Except Error β → World Files → Prop)
    (e : Error) : andThen f post (.error e) w = post (.error e) w := rfl

theorem ends_bind {a : Action α} {f : α → Action β} (h : a.Ends w (andThen f post)) :
    (a >>= f).Ends w post := by
  rw [Ends, runIn_bind]
  rw [Ends] at h
  rcases hrun : a.run.runIn w with ⟨r, w'⟩
  rw [hrun] at h
  cases r with
  | ok x => exact h
  | error e => exact h

/-- What relates the worlds before and after each of two parts relates those before and after both. -/
theorem ends_bind_of_trans {R : World Files → World Files → Prop}
    (htrans : ∀ {u v}, R w u → R u v → R w v) {a : Action α} {f : α → Action β}
    (ha : a.Ends w fun _ u => R w u) (hf : ∀ x u, R w u → (f x).Ends u fun _ v => R u v) :
    (a >>= f).Ends w fun _ v => R w v := by
  refine ends_bind (ha.mono fun r u hu => ?_)
  cases r with
  | ok x => exact (hf x u hu).mono fun _ v hv => htrans hu hv
  | error e => exact hu

/-- What both of two parts keep, the action that they make up keeps. -/
theorem ends_bind_of_kept {P : World Files → Prop} {a : Action α} {f : α → Action β} (ha : a.Ends w fun _ u => P u)
    (hf : ∀ x u, P u → (f x).Ends u fun _ v => P v) : (a >>= f).Ends w fun _ v => P v := by
  refine ends_bind (ha.mono fun r u hu => ?_)
  cases r with
  | ok x => exact hf x u hu
  | error e => exact hu

theorem ends_pure {x : β} (h : post (.ok x) w) : (pure x : Action β).Ends w post := h

theorem ends_throw {e : Error} (h : post (.error e) w) : (throw e : Action β).Ends w post := h

theorem ends_settle {r : Except Error β} (h : post r w) : (settle r).Ends w post := h

theorem ends_attempt {a : Action α} {post : Except Error (Except Error α) → World Files → Prop}
    (h : a.Ends w fun r w' => post (.ok r) w') : (attempt a).Ends w post := by
  rw [Ends, runIn_attempt]
  exact h

theorem ends_now {post : Except Error Instant → World Files → Prop} (h : post (.ok w.clock) w) :
    now.Ends w post := h

theorem ends_freshId {post : Except Error String → World Files → Prop}
    (h : post (.ok (World.idText w.idDigits (w.ids + 1))) { w with ids := w.ids + 1 }) :
    freshId.Ends w post := h

/-- A file is created if there is none and it may be written. -/
theorem ends_createNew (hw : w.Steady) (p : Path) (s : String) (hpublic : IsPublic p.names)
    {post : Except Error Bool → World Files → Prop}
    (hrefused : ∀ e, w.Refuses p → post (.error e) w)
    (hpresent : ∀ old, w.store.text? p.names = some old → post (.ok false) w)
    (hcreated : w.store.text? p.names = none → ∀ w',
      w.Becomes w' (Function.update w.store.text? p.names (some s)) → post (.ok true) w') :
    (orFail (createNew p s)).Ends w post := by
  have hcreate : (createNew p s).run.runIn w =
      (.ok (w.store.createNew p s).1, { w with store := (w.store.createNew p s).2 }) := rfl
  refine ends_bind (ends_of_runIn hcreate ?_)
  rw [Files.createNew]
  split
  · rename_i hmem
    exact hrefused _ ⟨p.names, hmem, .inl rfl⟩
  · split
    · rename_i old hold
      exact hpresent old hold
    · rename_i hnone
      exact hcreated hnone _ (hw.becomes_put hpublic s)

/-- A file is removed. -/
theorem ends_remove (hw : w.Steady) (p : Path) {post : Except Error Bool → World Files → Prop}
    (habsent : w.store.text? p.names = none → post (.ok false) w)
    (hremoved : ∀ s, w.store.text? p.names = some s → ∀ w',
      w.Becomes w' (Function.update w.store.text? p.names none) → post (.ok true) w') :
    (orFail (remove p)).Ends w post := by
  have hremove : (remove p).run.runIn w =
      (.ok (w.store.remove p).1, { w with store := (w.store.remove p).2 }) := rfl
  refine ends_bind (ends_of_runIn hremove ?_)
  rw [Files.remove]
  split
  · rename_i s hs
    exact hremoved s hs _ (hw.becomes_erase p.names)
  · rename_i hnone
    exact habsent hnone

/-- A file is replaced, or nothing changes. -/
theorem ends_replace (hw : w.Steady) (p : Path) (s : String) (hpublic : IsPublic p.names)
    {post : Except Error Unit → World Files → Prop}
    (hrefused : ∀ e w', w.Refuses p → w.Becomes w' w.store.text? → post (.error e) w')
    (hreplaced : ∀ w', p.names ∉ w.store.refusing →
      w.Becomes w' (Function.update w.store.text? p.names (some s)) → post (.ok ()) w') :
    (replace p s).Ends w post := by
  have hhidden := hiddenBy_staged p (World.tokenText (w.tokens + 1))
  have hunused := hw.unused _ _ (Nat.lt_succ_self _) hhidden
  have hnext : World.Steady { w with tokens := w.tokens + 1 } :=
    ⟨hw.proper, fun n names hn => hw.unused n names (Nat.lt_of_succ_lt hn)⟩
  rw [replace_eq]
  refine ends_bind (ends_of_runIn (runIn_token w) ?_)
  generalize World.tokenText (w.tokens + 1) = t at hhidden hunused ⊢
  have hrun := runIn_replaceBy_of_unused (w := { w with tokens := w.tokens + 1 }) hunused p s
  rw [andThen_ok, Ends, hrun]
  split
  · rename_i hmem
    exact hrefused _ _ ⟨_, hmem, .inr ⟨t, hhidden⟩⟩ ⟨⟨hnext, rfl, rfl⟩, rfl⟩
  · split
    · rename_i hmem
      exact hrefused _ _ ⟨_, hmem, .inl rfl⟩ ⟨⟨hnext, rfl, rfl⟩, rfl⟩
    · rename_i hmem
      have hput := hnext.becomes_put hpublic s
      exact hreplaced _ hmem ⟨⟨hput.steady, rfl, rfl⟩, hput.text⟩

end Action

end Workboard
