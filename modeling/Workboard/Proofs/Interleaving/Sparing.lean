import Workboard.Proofs.Interleaving.Quiet

/-!
# What a program does whatever it finds

Between two calls of a program others may change the files. What is stated here of a
program holds whatever files each of its calls finds, so it holds in turn with any others.
Main statement: a file is replaced by calls that spare every public file but that one.
-/
namespace Workboard

/-- The call does not touch the file at this place. -/
def Call.Spares (names : List String) : Call → Prop
  | .write p _ => p.names ≠ names
  | .createNew p _ => p.names ≠ names
  | .rename p q => p.names ≠ names ∧ q.names ≠ names
  | .remove p => p.names ≠ names
  | .now => True
  | .freshId => True
  | .token => True
  | .read _ => True
  | .present _ => True
  | .list _ => True

theorem Call.Looks.spares {c : Call} (h : c.Looks) (names : List String) : c.Spares names := by
  cases c <;> trivial

/-- A file that is spared stays as it is. -/
theorem Call.Yields.text_of_spares {c : Call} {f g : Files} {r : c.Answer} {names : List String}
    (h : c.Yields f r g) (hc : c.Spares names) : g.text? names = f.text? names := by
  cases c with
  | now => rw [h.now]
  | freshId => rw [h.freshId]
  | token => rw [h.token]
  | read p => rw [h.read.2]
  | present p => rw [h.present.2]
  | list p => rw [h.list.2]
  | write p s =>
    obtain ⟨-, rfl⟩ := h.write
    unfold Files.write
    split
    · rfl
    · rw [Files.text?_put, if_neg (Ne.symm hc)]
  | createNew p s =>
    obtain ⟨-, rfl⟩ := h.createNew
    unfold Files.createNew
    split
    · rfl
    · split
      · rfl
      · rw [Files.text?_put, if_neg (Ne.symm hc)]
  | rename p q =>
    obtain ⟨-, rfl⟩ := h.rename
    unfold Files.rename
    split
    · rfl
    · split
      · rw [Files.text?_put, if_neg (Ne.symm hc.2), Files.text?_erase, if_neg (Ne.symm hc.1)]
      · rfl
  | remove p =>
    obtain ⟨-, rfl⟩ := h.remove
    unfold Files.remove
    split
    · rw [Files.text?_erase, if_neg (Ne.symm hc)]
    · rfl

namespace Program
variable {α β : Type} {makes : Call → Prop} {post : α → Prop}

/-- Whatever files its calls find, the program makes such calls only, and its result is such a
one. -/
def Always (makes : Call → Prop) (post : α → Prop) : Program α → Prop
  | .done a => post a
  | .ask c next => makes c ∧ ∀ f r g, c.Yields f r g → (next r).Always makes post

theorem Always.bind {p : Program α} {k : α → Program β} {post : β → Prop}
    (h : p.Always makes fun a => (k a).Always makes post) : (p >>= k).Always makes post := by
  change (p.bind k).Always makes post
  induction p with
  | done a => exact h
  | ask c next ih => exact ⟨h.1, fun f r g hy => ih r (h.2 f r g hy)⟩

theorem Always.mono {p : Program α} {makes' : Call → Prop} {post' : α → Prop}
    (h : p.Always makes post) (hmakes : ∀ c, makes c → makes' c) (hpost : ∀ a, post a → post' a) :
    p.Always makes' post' := by
  induction p with
  | done a => exact hpost a h
  | ask c next ih => exact ⟨hmakes c h.1, fun f r g hy => ih r (h.2 f r g hy)⟩

/-- Whatever its calls are answered, the program makes such calls only. -/
def Makes (makes : Call → Prop) : Program α → Prop
  | .done _ => True
  | .ask c next => makes c ∧ ∀ r, (next r).Makes makes

theorem Makes.bind {p : Program α} {k : α → Program β} (h : p.Makes makes)
    (hk : ∀ a, (k a).Makes makes) : (p >>= k).Makes makes := by
  change (p.bind k).Makes makes
  induction p with
  | done a => exact hk a
  | ask c next ih => exact ⟨h.1, fun r => ih r (h.2 r)⟩

theorem Makes.always {p : Program α} (h : p.Makes makes) : p.Always makes fun _ => True := by
  induction p with
  | done a => trivial
  | ask c next ih => exact ⟨h.1, fun _ r _ _ => ih r (h.2 r)⟩

theorem Quiet.makes_looks {p : Program α} (h : p.Quiet) : p.Makes Call.Looks := by
  induction p with
  | done a => trivial
  | ask c next ih => exact ⟨h.1, fun r => ih r (h.2 r)⟩

theorem Makes.mono {p : Program α} {makes' : Call → Prop} (h : p.Makes makes)
    (hmakes : ∀ c, makes c → makes' c) : p.Makes makes' := by
  induction p with
  | done a => trivial
  | ask c next ih => exact ⟨hmakes c h.1, fun r => ih r (h.2 r)⟩

end Program

namespace Action
variable {α β : Type} {makes : Call → Prop}

/-- Whatever files its calls find, the action makes such calls only, and comes to such an end. -/
def Always (makes : Call → Prop) (post : Except Error α → Prop) (a : Action α) : Prop :=
  a.run.Always makes post

/-- What is asked of the first of two actions, for the sake of both. -/
def NextAlways (makes : Call → Prop) (post : Except Error β → Prop) (k : α → Action β) :
    Except Error α → Prop
  | .ok x => (k x).Always makes post
  | .error e => post (.error e)

theorem Always.bind {a : Action α} {k : α → Action β} {post : Except Error β → Prop}
    (h : a.Always makes (NextAlways makes post k)) : (a >>= k).Always makes post := by
  refine Program.Always.bind (h.mono (fun _ hc => hc) fun r hr => ?_)
  cases r with
  | ok x => exact hr
  | error e => exact hr

theorem always_attempt {a : Action α} {post : Except Error α → Prop} (h : a.Always makes post) :
    (attempt a).Always makes fun r => ∃ x, r = .ok x ∧ post x :=
  Program.Always.bind (p := a.run) (k := fun r => pure (Except.ok r))
    (h.mono (fun _ hc => hc) fun r hr => ⟨r, rfl, hr⟩)

theorem always_ask {c : Call} (hc : makes c) {post : Except Error c.Answer → Prop}
    (h : ∀ f r g, c.Yields f r g → post (.ok r)) : (ask c).Always makes post :=
  ⟨hc, h⟩

/-- After an action that only looks, the rest goes on with any of its results. -/
theorem Quiet.always_bind {a : Action α} {k : α → Action β} {post : Except Error β → Prop}
    (ha : Quiet a) (hmakes : ∀ c, c.Looks → makes c) (herr : ∀ e, post (.error e))
    (h : ∀ x, (k x).Always makes post) : (a >>= k).Always makes post := by
  refine Always.bind ((Program.Quiet.makes_looks ha).always.mono hmakes fun r _ => ?_)
  cases r with
  | ok x => exact h x
  | error e => exact herr e

/-- Whatever its calls are answered, the action makes such calls only. -/
def Makes (makes : Call → Prop) (a : Action α) : Prop := a.run.Makes makes

theorem Makes.bind {a : Action α} {k : α → Action β} (ha : a.Makes makes)
    (hk : ∀ x, (k x).Makes makes) : (a >>= k).Makes makes := by
  refine Program.Makes.bind ha fun r => ?_
  cases r with
  | ok x => exact hk x
  | error e => trivial

theorem makes_ask {c : Call} (hc : makes c) : (ask c).Makes makes := ⟨hc, fun _ => trivial⟩

/-- A file is replaced by way of a hidden one; all other public files are spared. -/
theorem makes_replace {p : Path} {s : String} {names : List String} (hpub : IsPublic names)
    (hne : p.names ≠ names) : (replace p s).Makes (Call.Spares names) := by
  refine (makes_ask (c := .token) trivial).bind fun token => ?_
  have hhidden : (p.staged token).names ≠ names := fun h => hpub token (h ▸ hiddenBy_staged p token)
  have hwrite : (orFail (write (p.staged token) s)).Makes (Call.Spares names) := by
    refine (makes_ask (c := .write _ s) hhidden).bind fun written => ?_
    cases written <;> trivial
  refine hwrite.bind fun _ => (makes_ask (c := .rename _ p) ⟨hhidden, hne⟩).bind fun moved => ?_
  cases moved with
  | ok _ => trivial
  | error failure => exact (makes_ask (c := .remove _) hhidden).bind fun _ => trivial

end Action

end Workboard
