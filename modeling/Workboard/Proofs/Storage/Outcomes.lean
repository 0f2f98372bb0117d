import Workboard.Proofs.Interleaving.Quiet

/-!
# What an action can come to

Nobody else touches a file while an action is under way, but the clock goes on between its
calls, and ids and tokens are drawn as they come. So an action can come to different ends, and
what is stated of an action that fails has to hold of each of them. Main statement: a file
that is replaced is the only one that changes, and if it cannot be replaced nothing changes.
No hidden file stays behind.
-/
namespace Workboard

theorem World.clock_answer (c : Call) (w : World Files) : (w.answer c).2.clock = w.clock := by
  cases c <;> rfl

theorem World.refusing_answer (c : Call) (w : World Files) :
    (w.answer c).2.store.refusing = w.store.refusing := by
  cases c with
  | now => rfl
  | freshId => rfl
  | token => rfl
  | read p => rfl
  | present p => rfl
  | list p => rfl
  | write p s =>
    change (w.store.write p s).2.refusing = _
    unfold Files.write
    split <;> rfl
  | createNew p s =>
    change (w.store.createNew p s).2.refusing = _
    unfold Files.createNew
    split
    · rfl
    · split <;> rfl
  | rename p q =>
    change (w.store.rename p q).2.refusing = _
    unfold Files.rename
    split
    · rfl
    · split <;> rfl
  | remove p =>
    change (w.store.remove p).2.refusing = _
    unfold Files.remove
    split <;> rfl

namespace Program
variable {α β : Type} {shows : Instant → Prop} {f g h : Files}

/-- With the first files the program can come to the result, and the last files are there then.
The clock shows such instants, a new one at each call. -/
def Reaches (shows : Instant → Prop) : Program α → Files → α → Files → Prop
  | .done a, f, r, g => r = a ∧ g = f
  | .ask c next, f, r, g => ∃ w : World Files, w.store = f ∧ shows w.clock ∧
      (next (w.answer c).1).Reaches shows (w.answer c).2.store r g

theorem reaches_bind {p : Program α} {k : α → Program β} {r : β} :
    (p >>= k).Reaches shows f r h ↔
      ∃ a g, p.Reaches shows f a g ∧ (k a).Reaches shows g r h := by
  change (p.bind k).Reaches shows f r h ↔ _
  induction p generalizing f with
  | done a =>
    constructor
    · exact fun hk => ⟨a, f, ⟨rfl, rfl⟩, hk⟩
    · rintro ⟨_, _, ⟨rfl, rfl⟩, hk⟩
      exact hk
  | ask c next ih =>
    simp only [bind, Reaches, ih]
    constructor
    · rintro ⟨w, hw, hclock, a, g, ha, hk⟩
      exact ⟨a, g, ⟨w, hw, hclock, ha⟩, hk⟩
    · rintro ⟨a, g, ⟨w, hw, hclock, ha⟩, hk⟩
      exact ⟨w, hw, hclock, a, g, ha, hk⟩

theorem reaches_call {c : Call} {r : c.Answer} (h : (call c).Reaches shows f r g) :
    c.Yields f r g := by
  obtain ⟨w, rfl, -, rfl, rfl⟩ := h
  exact c.yields_answer w

/-- A run in a world is one of the ends. -/
theorem reaches_runIn (p : Program α) {w : World Files} (hclock : shows w.clock) :
    p.Reaches shows w.store (p.runIn w).1 (p.runIn w).2.store := by
  induction p generalizing w with
  | done a => exact ⟨rfl, rfl⟩
  | ask c next ih => exact ⟨w, rfl, hclock, ih _ (by rwa [World.clock_answer])⟩

/-- What cannot be written stays so. -/
theorem refusing_of_reaches {p : Program α} {r : α} (h : p.Reaches shows f r g) :
    g.refusing = f.refusing := by
  induction p generalizing f with
  | done a => rw [h.2]
  | ask c next ih =>
    obtain ⟨w, rfl, -, hnext⟩ := h
    rw [ih _ hnext, World.refusing_answer]

theorem Quiet.eq_of_reaches {p : Program α} (hp : p.Quiet) {r : α} (h : p.Reaches shows f r g) :
    g = f := by
  induction p generalizing f with
  | done a => exact h.2
  | ask c next ih =>
    obtain ⟨w, rfl, -, hnext⟩ := h
    exact (ih _ (hp.2 _) hnext).trans ((c.yields_answer w).eq_of_looks hp.1)

end Program

namespace Files
variable {f g h : Files} {places : List (List String)}

/-- Everywhere but at these places, the public files are the same, and where no file was there
is none. -/
structure KeptBut (places : List (List String)) (f g : Files) : Prop where
  refusing : g.refusing = f.refusing
  text : ∀ names, names ∉ places → IsPublic names → g.text? names = f.text? names
  none : ∀ names, names ∉ places → f.text? names = none → g.text? names = none

/-- The public files are the same, and there is no new file. -/
abbrev Kept (f g : Files) : Prop := KeptBut [] f g

theorem KeptBut.refl (places : List (List String)) (f : Files) : f.KeptBut places f :=
  ⟨rfl, fun _ _ _ => rfl, fun _ _ h => h⟩

theorem KeptBut.trans (hfg : f.KeptBut places g) (hgh : g.KeptBut places h) :
    f.KeptBut places h :=
  ⟨hgh.refusing.trans hfg.refusing,
    fun names hn hpub => (hgh.text names hn hpub).trans (hfg.text names hn hpub),
    fun names hn hnone => hgh.none names hn (hfg.none names hn hnone)⟩

theorem Kept.keptBut (h : f.Kept g) (places : List (List String)) : f.KeptBut places g :=
  ⟨h.refusing, fun names _ => h.text names List.not_mem_nil,
    fun names _ => h.none names List.not_mem_nil⟩

theorem keptBut_put (f : Files) (names : List String) (s : String) :
    f.KeptBut [names] (f.put names s) := by
  refine ⟨rfl, fun other ho _ => ?_, fun other ho hnone => ?_⟩
  all_goals rw [text?_put, if_neg fun heq => ho (List.mem_singleton.mpr heq)]
  exact hnone

theorem keptBut_erase (f : Files) (names : List String) : f.KeptBut [names] (f.erase names) := by
  refine ⟨rfl, fun other ho _ => ?_, fun other ho hnone => ?_⟩
  all_goals rw [text?_erase, if_neg fun heq => ho (List.mem_singleton.mpr heq)]
  exact hnone

/-- If one file comes back to what it was, all is as before. -/
theorem KeptBut.kept {names : List String} (h : f.KeptBut [names] g)
    (hback : g.text? names = f.text? names) : f.Kept g := by
  refine ⟨h.refusing, fun other _ ho => ?_, fun other _ hnone => ?_⟩
  · by_cases heq : other = names
    · rw [heq, hback]
    · exact h.text other (by simpa using heq) ho
  · by_cases heq : other = names
    · rw [heq, hback, ← heq, hnone]
    · exact h.none other (by simpa using heq) hnone

/-- The file cannot be written, or a hidden file beside it. -/
def RefusesNear (f : Files) (p : Path) : Prop :=
  p.names ∈ f.refusing ∨ ∃ token, (p.staged token).names ∈ f.refusing

end Files

namespace Action
variable {α β : Type} {shows : Instant → Prop} {f g h : Files}

/-- With the first files the action can come to the result, and the last files are there then. -/
def Reaches (shows : Instant → Prop) (a : Action α) (f : Files) (r : Except Error α)
    (g : Files) : Prop :=
  a.run.Reaches shows f r g

theorem reaches_bind {a : Action α} {k : α → Action β} {r : Except Error β} :
    (a >>= k).Reaches shows f r h ↔ (∃ e, a.Reaches shows f (.error e) h ∧ r = .error e) ∨
      ∃ x g, a.Reaches shows f (.ok x) g ∧ (k x).Reaches shows g r h := by
  rw [Reaches, ExceptT.run_bind, Program.reaches_bind]
  constructor
  · rintro ⟨x | x, g, ha, hk⟩
    · obtain ⟨rfl, rfl⟩ := hk
      exact .inl ⟨x, ha, rfl⟩
    · exact .inr ⟨x, g, ha, hk⟩
  · rintro (⟨e, ha, rfl⟩ | ⟨x, g, ha, hk⟩)
    · exact ⟨.error e, h, ha, rfl, rfl⟩
    · exact ⟨.ok x, g, ha, hk⟩

/-- What an action comes to in a world is one of its ends. -/
theorem reaches_runIn {a : Action α} {w : World Files} {r : Except Error α}
    (hrun : (a.run.runIn w).1 = r) (hclock : shows w.clock) :
    a.Reaches shows w.store r (a.run.runIn w).2.store := by
  rw [← hrun]
  exact Program.reaches_runIn a.run hclock

@[simp] theorem reaches_pure {x : α} {r : Except Error α} :
    (pure x : Action α).Reaches shows f r g ↔ r = .ok x ∧ g = f := Iff.rfl

@[simp] theorem reaches_throw {e : Error} {r : Except Error α} :
    (throw e : Action α).Reaches shows f r g ↔ r = .error e ∧ g = f := Iff.rfl

@[simp] theorem reaches_settle {x r : Except Error α} :
    (settle x).Reaches shows f r g ↔ r = x ∧ g = f := Iff.rfl

theorem reaches_attempt {a : Action α} {r : Except Error (Except Error α)} :
    (attempt a).Reaches shows f r g ↔ ∃ x, a.Reaches shows f x g ∧ r = .ok x := by
  change (a.run >>= fun x => pure (Except.ok x)).Reaches shows f r g ↔ _
  rw [Program.reaches_bind]
  constructor
  · rintro ⟨x, g, hx, rfl, rfl⟩
    exact ⟨x, hx, rfl⟩
  · rintro ⟨x, hx, rfl⟩
    exact ⟨x, g, hx, rfl, rfl⟩

theorem reaches_ask {c : Call} {r : Except Error c.Answer} (h : (ask c).Reaches shows f r g) :
    ∃ x, r = .ok x ∧ c.Yields f x g := by
  change (Program.call c >>= fun x => pure (Except.ok x)).Reaches shows f r g at h
  obtain ⟨x, _, hx, rfl, rfl⟩ := Program.reaches_bind.mp h
  exact ⟨x, rfl, Program.reaches_call hx⟩

theorem reaches_now {r : Except Error Instant} (h : now.Reaches shows f r g) :
    ∃ t, shows t ∧ r = .ok t ∧ g = f := by
  obtain ⟨w, rfl, hclock, rfl, rfl⟩ := h
  exact ⟨w.clock, hclock, rfl, rfl⟩

theorem Quiet.eq_of_reaches {a : Action α} (ha : Quiet a) {r : Except Error α}
    (h : a.Reaches shows f r g) : g = f :=
  Program.Quiet.eq_of_reaches ha h

/-- A success is one of each part; a part that only looks leaves the files to the rest. -/
theorem reaches_bind_ok {a : Action α} {k : α → Action β} {y : β}
    (hrun : (a >>= k).Reaches shows f (.ok y) h) :
    ∃ x g, a.Reaches shows f (.ok x) g ∧ (k x).Reaches shows g (.ok y) h := by
  obtain ⟨_, -, heq⟩ | hparts := reaches_bind.mp hrun
  · cases heq
  · exact hparts

theorem Quiet.reaches_bind_ok {a : Action α} {k : α → Action β} {y : β} (ha : Quiet a)
    (hrun : (a >>= k).Reaches shows f (.ok y) g) :
    ∃ x, a.Reaches shows f (.ok x) f ∧ (k x).Reaches shows f (.ok y) g := by
  obtain ⟨x, f', hx, hk⟩ := Action.reaches_bind_ok hrun
  obtain rfl := ha.eq_of_reaches hx
  exact ⟨x, hx, hk⟩

/-- No public file is lost by the action. -/
def Lasting (shows : Instant → Prop) (a : Action α) : Prop := ∀ f r g, a.Reaches shows f r g →
  ∀ names, IsPublic names → (f.text? names).isSome = true → (g.text? names).isSome = true

theorem Quiet.lasting {a : Action α} (ha : Quiet a) : a.Lasting shows := fun f r g h names _ hsome => by
  rwa [ha.eq_of_reaches h]

theorem Lasting.bind {a : Action α} {k : α → Action β} (ha : a.Lasting shows)
    (hk : ∀ x, (k x).Lasting shows) : (a >>= k).Lasting shows := by
  intro f r h hrun names hpub hsome
  obtain ⟨e, ha', -⟩ | ⟨x, g, ha', hk'⟩ := reaches_bind.mp hrun
  · exact ha f _ h ha' names hpub hsome
  · exact hk x g r h hk' names hpub (ha f _ g ha' names hpub hsome)

theorem Lasting.attempt {a : Action α} (ha : a.Lasting shows) : (attempt a).Lasting shows := by
  intro f r g h
  obtain ⟨x, hx, -⟩ := reaches_attempt.mp h
  exact ha f x g hx

/-- What is known of the answer to a call is known of what its failure is turned into. -/
theorem reaches_orFail {a : Action (Except Failure α)} {P : Except Failure α → Prop}
    (hask : ∀ r, a.Reaches shows f r g → ∃ x, r = .ok x ∧ P x) {r : Except Error α}
    (horFail : (orFail a).Reaches shows f r g) :
    ∃ x, P x ∧ r = x.mapError fun failure => .storage failure.message := by
  obtain ⟨e, ha, rfl⟩ | ⟨x, f', ha, hr⟩ := reaches_bind.mp horFail
  · obtain ⟨_, heq, -⟩ := hask _ ha
    cases heq
  · cases x with
    | ok y =>
      obtain ⟨rfl, rfl⟩ := hr
      obtain ⟨_, heq, hP⟩ := hask _ ha
      cases heq
      exact ⟨_, hP, rfl⟩
    | error failure =>
      obtain ⟨rfl, rfl⟩ := hr
      obtain ⟨_, heq, hP⟩ := hask _ ha
      cases heq
      exact ⟨_, hP, rfl⟩

theorem reaches_list {p : Path} {r : Except Error (List String)}
    (hlist : (orFail (list p)).Reaches shows f r g) : r = .ok (f.list p) ∧ g = f := by
  obtain ⟨x, hy, rfl⟩ := reaches_orFail (fun _ => reaches_ask) hlist
  obtain ⟨rfl, rfl⟩ := hy.list
  exact ⟨rfl, rfl⟩

/-- A file is written, or refused. -/
theorem reaches_write {p : Path} {s : String} {r : Except Error Unit}
    (hwrite : (orFail (write p s)).Reaches shows f r g) :
    (∃ e, r = .error e ∧ g = f ∧ p.names ∈ f.refusing) ∨ (r = .ok () ∧ g = f.put p.names s) := by
  obtain ⟨x, hy, rfl⟩ := reaches_orFail (fun _ => reaches_ask) hwrite
  obtain ⟨rfl, rfl⟩ := hy.write
  unfold Files.write
  split
  · rename_i hmem
    exact .inl ⟨_, rfl, rfl, hmem⟩
  · exact .inr ⟨rfl, rfl⟩

/-- A file is created if there is none and it may be written. -/
theorem reaches_createNew {p : Path} {s : String} {r : Except Error Bool}
    (hcreate : (orFail (createNew p s)).Reaches shows f r g) :
    (∃ e, r = .error e ∧ g = f) ∨ (r = .ok false ∧ g = f ∧ (f.text? p.names).isSome) ∨
      (r = .ok true ∧ g = f.put p.names s ∧ f.text? p.names = none) := by
  obtain ⟨x, hy, rfl⟩ := reaches_orFail (fun _ => reaches_ask) hcreate
  obtain ⟨rfl, rfl⟩ := hy.createNew
  unfold Files.createNew
  split
  · exact .inl ⟨_, rfl, rfl⟩
  · split
    · rename_i old hold
      exact .inr (.inl ⟨rfl, rfl, by rw [hold]; rfl⟩)
    · rename_i hnone
      exact .inr (.inr ⟨rfl, rfl, hnone⟩)

/-- A file is removed, or there is none. -/
theorem reaches_remove {p : Path} {r : Except Error Bool}
    (hremove : (orFail (remove p)).Reaches shows f r g) :
    (r = .ok false ∧ g = f ∧ f.text? p.names = none) ∨ (r = .ok true ∧ g = f.erase p.names) := by
  obtain ⟨x, hy, rfl⟩ := reaches_orFail (fun _ => reaches_ask) hremove
  obtain ⟨rfl, rfl⟩ := hy.remove
  unfold Files.remove
  split
  · exact .inr ⟨rfl, rfl⟩
  · rename_i hnone
    exact .inl ⟨rfl, rfl, hnone⟩

/-- A file is replaced, or nothing changes because a file near it cannot be written. -/
theorem reaches_replace {p : Path} {s : String} {r : Except Error Unit}
    (hreplace : (replace p s).Reaches shows f r g) :
    (∃ e, r = .error e ∧ f.Kept g ∧ f.RefusesNear p) ∨
      (r = .ok () ∧ f.KeptBut [p.names] g ∧ g.text? p.names = some s) := by
  obtain ⟨e, hask, -⟩ | ⟨t, f₀, htoken, hrest₀⟩ := reaches_bind.mp hreplace
  · obtain ⟨_, heq, -⟩ := reaches_ask hask
    cases heq
  obtain ⟨_, -, hy⟩ := reaches_ask htoken
  obtain rfl : f₀ = f := hy.token
  have hhidden := hiddenBy_staged p t
  obtain ⟨e, hwrite, rfl⟩ | ⟨_, f₁, hwrite, hrest₁⟩ := reaches_bind.mp hrest₀
  · obtain ⟨_, -, rfl, hmem⟩ | ⟨heq, -⟩ := reaches_write hwrite
    · exact .inl ⟨e, rfl, .refl _ _, .inr ⟨t, hmem⟩⟩
    · cases heq
  obtain ⟨_, heq, -⟩ | ⟨-, rfl⟩ := reaches_write hwrite
  · cases heq
  obtain ⟨e, hask, -⟩ | ⟨x, f₂, hrename, hrest₂⟩ := reaches_bind.mp hrest₁
  · obtain ⟨_, heq, -⟩ := reaches_ask hask
    cases heq
  obtain ⟨_, heq, hy⟩ := reaches_ask hrename
  cases heq
  have hstaged : (f₀.put (p.staged t).names s).text? (p.staged t).names = some s := by simp
  have hrenamed := hy.rename
  unfold Files.rename at hrenamed
  rw [hstaged] at hrenamed
  split at hrenamed
  -- the hidden file could not be renamed, and is removed again
  · rename_i hmem
    obtain ⟨rfl, rfl⟩ := hrenamed
    obtain ⟨e, hask, -⟩ | ⟨_, f₃, hremove, rfl, rfl⟩ := reaches_bind.mp hrest₂
    · obtain ⟨_, heq, -⟩ := reaches_ask hask
      cases heq
    obtain ⟨_, -, hy⟩ := reaches_ask hremove
    obtain ⟨-, rfl⟩ := hy.remove
    rw [Files.remove, hstaged]
    refine .inl ⟨_, rfl, ⟨rfl, fun names _ hn => ?_, fun names _ hnone => ?_⟩, .inl hmem⟩
    · have hother : names ≠ (p.staged t).names := fun heq => hn t (heq ▸ hhidden)
      simp [hother]
    · simp [hnone]
  · obtain ⟨rfl, rfl⟩ := hrenamed
    obtain ⟨rfl, rfl⟩ := hrest₂
    refine .inr ⟨rfl, ⟨rfl, fun names hn hpub' => ?_, fun names hn hnone => ?_⟩, by simp⟩
    · have hother : names ≠ (p.staged t).names := fun heq => hpub' t (heq ▸ hhidden)
      simp [hother, List.mem_singleton.not.mp hn]
    · simp [hnone, List.mem_singleton.not.mp hn]

theorem lasting_replace (p : Path) (s : String) : (replace p s).Lasting shows := by
  intro f r g h names hpub hsome
  obtain ⟨_, -, hkept, -⟩ | ⟨-, hkept, htext⟩ := reaches_replace h
  · rwa [hkept.text names List.not_mem_nil hpub]
  · by_cases heq : names = p.names
    · rw [heq, htext]
      rfl
    · rwa [hkept.text names (by simpa using heq) hpub]

end Action

end Workboard
