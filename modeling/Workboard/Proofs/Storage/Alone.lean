import Workboard.Proofs.Storage.Listing

/-!
# Actions run alone

What becomes of an action that nobody interrupts, part by part: the next part begins in
the world that the part before it left, unless that part ended with an error.
-/
namespace Workboard

namespace Files

/-- The files after a text was put in place of a file, by way of a hidden one. -/
def replaced (f : Files) (p : Path) (token s : String) : Files :=
  ((f.put (p.staged token).names s).erase (p.staged token).names).put p.names s

theorem text?_replaced {f : Files} {p : Path} {token s : String} {names : List String}
    (hpub : IsPublic names) :
    (f.replaced p token s).text? names = if names = p.names then some s else f.text? names := by
  have h : names ≠ (p.staged token).names := fun h => hpub _ (h ▸ hiddenBy_staged p token)
  simp [replaced, h]

end Files

namespace Files

/-- A file that was not there, written and removed again, has left nothing. -/
theorem erase_put_of_unused {f : Files} {names : List String} (h : f.text? names = none) (s : String) :
    (f.put names s).erase names = f := by
  have hkeys : ∀ e ∈ f.entries, e.1 ≠ names := fun e he heq => by
    have hsome := text?_isSome.mpr (List.mem_map_of_mem (f := Prod.fst) he)
    rw [heq, h] at hsome
    cases hsome
  have hfilter : f.entries.filter (·.1 ≠ names) = f.entries :=
    List.filter_eq_self.mpr fun e he => decide_eq_true (hkeys e he)
  simp only [put, erase, List.filter_append, hfilter]
  simp

end Files

namespace Action
variable {α β : Type}

theorem runIn_bind {σ : Type} [FileStore σ] (a : Action α) (f : α → Action β) (w : World σ) :
    (a >>= f).run.runIn w = match a.run.runIn w with
      | (.ok x, w') => (f x).run.runIn w'
      | (.error e, w') => (.error e, w') := by
  rw [ExceptT.run_bind, Program.runIn_bind]
  rcases h : a.run.runIn w with ⟨r, w'⟩
  cases r with
  | ok x => rfl
  | error e => rfl

theorem runIn_bind_ok {σ : Type} [FileStore σ] {a : Action α} {f : α → Action β} {w w' : World σ}
    {x : α} (h : a.run.runIn w = (.ok x, w')) : (a >>= f).run.runIn w = (f x).run.runIn w' := by
  rw [runIn_bind, h]

theorem runIn_bind_error {σ : Type} [FileStore σ] {a : Action α} {f : α → Action β}
    {w w' : World σ} {e : Error} (h : a.run.runIn w = (.error e, w')) :
    (a >>= f).run.runIn w = (.error e, w') := by
  rw [runIn_bind, h]

theorem runIn_attempt {σ : Type} [FileStore σ] (a : Action α) (w : World σ) :
    (attempt a).run.runIn w = (.ok (a.run.runIn w).1, (a.run.runIn w).2) := by
  change (a.run >>= fun r => pure (Except.ok r)).runIn w = _
  rw [Program.runIn_bind]
  rfl

section Still
variable {σ : Type} [FileStore σ] [FileStore.Still σ] (w : World σ) (p : Path)

theorem runIn_read_still : (read p).run.runIn w = (.ok (FileStore.read p w.store).1, w) := by
  change (Except.ok _, { w with store := (FileStore.read p w.store).2 }) = _
  rw [FileStore.Still.read]
  rfl

theorem runIn_present_still :
    (present p).run.runIn w = (.ok (FileStore.present p w.store).1, w) := by
  change (Except.ok _, { w with store := (FileStore.present p w.store).2 }) = _
  rw [FileStore.Still.present]
  rfl

theorem runIn_list_still : (list p).run.runIn w = (.ok (FileStore.list p w.store).1, w) := by
  change (Except.ok _, { w with store := (FileStore.list p w.store).2 }) = _
  rw [FileStore.Still.list]
  rfl

end Still

variable (w : World Files)

theorem runIn_read (p : Path) : (read p).run.runIn w = (.ok (w.store.read p), w) := rfl

theorem runIn_present (p : Path) : (present p).run.runIn w = (.ok (w.store.present p), w) := rfl

theorem runIn_now : now.run.runIn w = (.ok w.clock, w) := rfl

variable {w}

/-- A file that is there is removed. -/
theorem runIn_remove {p : Path} {s : String} (h : w.store.text? p.names = some s) :
    (orFail (remove p)).run.runIn w = (.ok true, { w with store := w.store.erase p.names }) := by
  have hremove : (remove p).run.runIn w =
      (.ok (.ok true), { w with store := w.store.erase p.names }) := by
    change (Except.ok (w.store.remove p).1, { w with store := (w.store.remove p).2 }) = _
    rw [Files.remove, h]
  exact runIn_bind_ok hremove

/-- Put a text at a path by way of a hidden file that is already chosen. -/
def replaceBy (staged p : Path) (s : String) : Action Unit := do
  orFail (write staged s)
  match ← rename staged p with
  | .ok () => pure ()
  | .error failure =>
    let _ ← remove staged
    throw (.storage failure.message)

theorem replace_eq (p : Path) (s : String) :
    replace p s = token >>= fun t => replaceBy (p.staged t) p s := rfl

/-- The hidden file cannot be written, or it is removed again, or it is renamed. -/
theorem runIn_replaceBy (w : World Files) (staged p : Path) (s : String) :
    (replaceBy staged p s).run.runIn w =
      if staged.names ∈ w.store.refusing then (.error (.storage (Files.refused staged).message), w)
      else
        let cleaned := (w.store.put staged.names s).erase staged.names
        if p.names ∈ w.store.refusing then
          (.error (.storage (Files.refused p).message), { w with store := cleaned })
        else (.ok (), { w with store := cleaned.put p.names s }) := by
  have hwrite : (write staged s).run.runIn w =
      (.ok (w.store.write staged s).1, { w with store := (w.store.write staged s).2 }) := rfl
  unfold replaceBy
  rw [Files.write] at hwrite
  split
  · rename_i hmem
    rw [if_pos hmem] at hwrite
    exact runIn_bind_error (runIn_bind_ok hwrite)
  · rename_i hmem
    rw [if_neg hmem] at hwrite
    rw [runIn_bind_ok (runIn_bind_ok hwrite)]
    have hstaged : (w.store.put staged.names s).text? staged.names = some s := by simp
    have hrename : (rename staged p).run.runIn { w with store := w.store.put staged.names s } =
        (.ok ((w.store.put staged.names s).rename staged p).1,
          { w with store := ((w.store.put staged.names s).rename staged p).2 }) := rfl
    rw [Files.rename, hstaged] at hrename
    change _ = ite (p.names ∈ (w.store.put staged.names s).refusing) _ _
    split
    · rename_i hrefused
      have hremove : (remove staged).run.runIn { w with store := w.store.put staged.names s } =
          (.ok ((w.store.put staged.names s).remove staged).1,
            { w with store := ((w.store.put staged.names s).remove staged).2 }) := rfl
      rw [Files.remove, hstaged] at hremove
      rw [if_pos hrefused] at hrename
      rw [runIn_bind_ok hrename, runIn_bind_ok hremove]
      rfl
    · rename_i hrefused
      rw [if_neg hrefused] at hrename
      rw [runIn_bind_ok hrename]
      rfl

/-- If the hidden file was not there before, nothing is left of it. -/
theorem runIn_replaceBy_of_unused {w : World Files} {staged : Path} (hunused : w.store.text? staged.names = none)
    (p : Path) (s : String) : (replaceBy staged p s).run.runIn w =
      if staged.names ∈ w.store.refusing then (.error (.storage (Files.refused staged).message), w)
      else if p.names ∈ w.store.refusing then (.error (.storage (Files.refused p).message), w)
      else (.ok (), { w with store := w.store.put p.names s }) := by
  rw [runIn_replaceBy, Files.erase_put_of_unused hunused]

theorem runIn_token (w : World Files) : token.run.runIn w =
    (.ok (World.tokenText (w.tokens + 1)), { w with tokens := w.tokens + 1 }) := rfl

variable (hopen : w.store.refusing = [])
include hopen

/-- A file is created if there is none. -/
theorem runIn_createNew (p : Path) (s : String) : (orFail (createNew p s)).run.runIn w =
    match w.store.text? p.names with
    | some _ => (.ok false, w)
    | none => (.ok true, { w with store := w.store.put p.names s }) := by
  have hcreate : (createNew p s).run.runIn w =
      (.ok (w.store.createNew p s).1, { w with store := (w.store.createNew p s).2 }) := rfl
  rw [Files.createNew, hopen, if_neg List.not_mem_nil] at hcreate
  cases h : w.store.text? p.names with
  | some old =>
    rw [h] at hcreate
    exact runIn_bind_ok hcreate
  | none =>
    rw [h] at hcreate
    exact runIn_bind_ok hcreate

/-- A file is replaced. -/
theorem runIn_replace (p : Path) (s : String) : (replace p s).run.runIn w =
    (.ok (), { w with
      store := w.store.replaced p (World.tokenText (w.tokens + 1)) s
      tokens := w.tokens + 1 }) := by
  rw [replace_eq, runIn_bind_ok (runIn_token w), runIn_replaceBy]
  simp only [hopen, List.not_mem_nil, if_false]
  rfl

end Action

end Workboard
