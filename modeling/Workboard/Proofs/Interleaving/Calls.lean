import Workboard.Proofs.Interleaving.Scene
import Workboard.Proofs.Storage.Hidden

/-!
# What calls answer and change

A call yields an answer and new files; the clock, ids and tokens may answer anything
they can. Shy calls change at most hidden files: everything but putting a new file or a
renamed one in its place, or removing a public one.
-/
namespace Workboard

namespace Call

/-- Some world with these files answers so, and has those files afterwards. -/
def Yields (c : Call) (f : Files) (r : c.Answer) (g : Files) : Prop :=
  ∃ w : World Files, w.store = f ∧ (w.answer c).1 = r ∧ (w.answer c).2.store = g

theorem yields_answer (c : Call) (w : World Files) :
    c.Yields w.store (w.answer c).1 (w.answer c).2.store := ⟨w, rfl, rfl, rfl⟩

variable {f g : Files}

theorem Yields.now {t : Call.now.Answer} (h : Call.now.Yields f t g) : g = f := by
  obtain ⟨w, rfl, -, rfl⟩ := h
  rfl

theorem Yields.freshId {t : Call.freshId.Answer} (h : Call.freshId.Yields f t g) : g = f := by
  obtain ⟨w, rfl, -, rfl⟩ := h
  rfl

theorem Yields.token {t : Call.token.Answer} (h : Call.token.Yields f t g) : g = f := by
  obtain ⟨w, rfl, -, rfl⟩ := h
  rfl

theorem Yields.read {p : Path} {r : (Call.read p).Answer} (h : (Call.read p).Yields f r g) :
    r = f.read p ∧ g = f := by
  obtain ⟨w, rfl, rfl, rfl⟩ := h
  exact ⟨rfl, rfl⟩

theorem Yields.write {p : Path} {s : String} {r : (Call.write p s).Answer}
    (h : (Call.write p s).Yields f r g) : r = (f.write p s).1 ∧ g = (f.write p s).2 := by
  obtain ⟨w, rfl, rfl, rfl⟩ := h
  exact ⟨rfl, rfl⟩

theorem Yields.createNew {p : Path} {s : String} {r : (Call.createNew p s).Answer}
    (h : (Call.createNew p s).Yields f r g) :
    r = (f.createNew p s).1 ∧ g = (f.createNew p s).2 := by
  obtain ⟨w, rfl, rfl, rfl⟩ := h
  exact ⟨rfl, rfl⟩

theorem Yields.rename {p q : Path} {r : (Call.rename p q).Answer}
    (h : (Call.rename p q).Yields f r g) : r = (f.rename p q).1 ∧ g = (f.rename p q).2 := by
  obtain ⟨w, rfl, rfl, rfl⟩ := h
  exact ⟨rfl, rfl⟩

theorem Yields.remove {p : Path} {r : (Call.remove p).Answer} (h : (Call.remove p).Yields f r g) :
    r = (f.remove p).1 ∧ g = (f.remove p).2 := by
  obtain ⟨w, rfl, rfl, rfl⟩ := h
  exact ⟨rfl, rfl⟩

theorem Yields.present {p : Path} {r : (Call.present p).Answer}
    (h : (Call.present p).Yields f r g) : r = f.present p ∧ g = f := by
  obtain ⟨w, rfl, rfl, rfl⟩ := h
  exact ⟨rfl, rfl⟩

theorem Yields.list {p : Path} {r : (Call.list p).Answer} (h : (Call.list p).Yields f r g) :
    r = .ok (f.list p) ∧ g = f := by
  obtain ⟨w, rfl, rfl, rfl⟩ := h
  exact ⟨rfl, rfl⟩

/-- The call only looks. -/
def Looks : Call → Prop
  | .now => True
  | .freshId => True
  | .token => True
  | .read _ => True
  | .present _ => True
  | .list _ => True
  | .write _ _ => False
  | .createNew _ _ => False
  | .rename _ _ => False
  | .remove _ => False

theorem Yields.eq_of_looks {c : Call} {r : c.Answer} (h : c.Yields f r g) (hc : c.Looks) :
    g = f := by
  cases c with
  | now => exact h.now
  | freshId => exact h.freshId
  | token => exact h.token
  | read p => exact h.read.2
  | present p => exact h.present.2
  | list p => exact h.list.2
  | write p s => exact hc.elim
  | createNew p s => exact hc.elim
  | rename p q => exact hc.elim
  | remove p => exact hc.elim

/-- The call only looks, or it writes or removes a file hidden by the token. -/
def Shy (token : Option String) (c : Call) : Prop :=
  c.Looks ∨ ∃ t p, token = some t ∧ HiddenBy t p.names ∧ ((∃ s, c = .write p s) ∨ c = .remove p)

/-- A shy call leaves all files but those hidden by its token. -/
theorem Yields.text_of_shy {c : Call} {r : c.Answer} {token : Option String} (h : c.Yields f r g)
    (hc : c.Shy token) :
    f.SamePublic g ∧ ∀ names, (∀ t, token = some t → ¬ HiddenBy t names) →
      g.text? names = f.text? names := by
  rcases hc with hc | ⟨t, p, rfl, hp, hc⟩
  · rw [h.eq_of_looks hc]
    exact ⟨.refl f, fun _ _ => rfl⟩
  have hother : ∀ names, (∀ u, some t = some u → ¬ HiddenBy u names) → names ≠ p.names := by
    rintro names hn rfl
    exact hn t rfl hp
  rcases hc with ⟨s, rfl⟩ | rfl
  · obtain ⟨-, rfl⟩ := h.write
    simp only [Files.write]
    split
    · exact ⟨.refl f, fun _ _ => rfl⟩
    · exact ⟨Files.samePublic_put hp s, fun names hn => by rw [Files.text?_put, if_neg (hother names hn)]⟩
  · obtain ⟨-, rfl⟩ := h.remove
    simp only [Files.remove]
    split
    · exact ⟨Files.samePublic_erase hp, fun names hn => by
        rw [Files.text?_erase, if_neg (hother names hn)]⟩
    · exact ⟨.refl f, fun _ _ => rfl⟩

end Call

end Workboard
