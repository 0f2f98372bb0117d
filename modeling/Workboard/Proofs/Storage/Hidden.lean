import Workboard.Proofs.Text.Digits
import Workboard.Storage.Files
import Workboard.Storage.Staged

/-!
# Hidden files

While a file is replaced, its new text lies in a hidden file whose name has a token of
its own. Tokens of different counts differ, so no two replacements share a hidden file,
and the name of a hidden file is never that of a file that somebody else looks at.
-/
namespace Workboard

theorem tokenText_injective : Function.Injective World.tokenText := by
  intro a b h
  have hd : Text.padDigits 32 a = Text.padDigits 32 b := by
    simpa [World.tokenText] using congrArg String.toList h
  rw [← Text.natOfDigits_padDigits 32 a, hd, Text.natOfDigits_padDigits]

/-- The file is hidden, and its name has the token. -/
def HiddenBy (token : String) (names : List String) : Prop :=
  ∃ dir name, names = dir ++ ["." ++ name ++ "." ++ token ++ ".tmp"]

/-- No token hides the file. -/
def IsPublic (names : List String) : Prop := ∀ token, ¬ HiddenBy token names

theorem hiddenBy_staged (p : Path) (token : String) : HiddenBy token (p.staged token).names :=
  ⟨_, p.name, Path.names_sibling p _⟩

/-- The name of a hidden file ends in its own way. -/
theorem isPublic_of_getLast? {names : List String} {last : String}
    (hlast : names.getLast? = some last) (hend : last.toList.getLast? ≠ some 'p') :
    IsPublic names := by
  rintro token ⟨dir, name, rfl⟩
  rw [List.getLast?_concat, Option.some.injEq] at hlast
  have htmp : ".tmp".toList.getLast? = some 'p' := by decide
  exact hend (by rw [← hlast, String.toList_append, List.getLast?_append, htmp, Option.some_or])

/-- Text in front of a mark and text after it are told apart if the latter lacks the mark. -/
theorem eq_of_append_mark_append {α : Type} {x : α} {as bs cs ds : List α}
    (h : as ++ x :: bs = cs ++ x :: ds) (hb : x ∉ bs) (hd : x ∉ ds) : bs = ds := by
  induction as generalizing cs with
  | nil =>
    cases cs with
    | nil => simpa using h
    | cons c cs =>
      simp only [List.nil_append, List.cons_append, List.cons.injEq] at h
      exact absurd (h.2 ▸ List.mem_append_right cs List.mem_cons_self) hb
  | cons a as ih =>
    cases cs with
    | nil =>
      simp only [List.nil_append, List.cons_append, List.cons.injEq] at h
      exact absurd (h.2 ▸ List.mem_append_right as List.mem_cons_self) hd
    | cons c cs =>
      simp only [List.cons_append, List.cons.injEq] at h
      exact ih h.2

theorem point_not_mem_tokenText (n : Nat) : '.' ∉ (World.tokenText n).toList := by
  intro h
  simp only [World.tokenText, String.toList_ofList] at h
  exact absurd (Text.isDigit_of_mem_padDigits h) (by decide)

/-- A hidden file has one token only. -/
theorem HiddenBy.token_eq {m n : Nat} {names : List String}
    (hm : HiddenBy (World.tokenText m) names) (hn : HiddenBy (World.tokenText n) names) :
    m = n := by
  obtain ⟨dir, name, rfl⟩ := hm
  obtain ⟨dir', name', h⟩ := hn
  have hlast := (List.append_inj' h rfl).2
  simp only [List.cons.injEq, and_true, ← String.toList_inj, String.toList_append] at hlast
  have hcut := List.append_cancel_right hlast
  simp only [List.append_assoc] at hcut
  have hcut' : (".".toList ++ name.toList) ++ '.' :: (World.tokenText m).toList =
      (".".toList ++ name'.toList) ++ '.' :: (World.tokenText n).toList := by
    simpa [List.append_assoc] using hcut
  exact tokenText_injective (String.toList_inj.mp
    (eq_of_append_mark_append hcut' (point_not_mem_tokenText m) (point_not_mem_tokenText n)))

namespace Files

/-- No place is listed twice. -/
def Proper (f : Files) : Prop := (f.entries.map Prod.fst).Nodup

theorem proper_erase {f : Files} (h : f.Proper) (names : List String) : (f.erase names).Proper := by
  exact h.sublist (List.filter_sublist.map _)

theorem not_mem_erase (f : Files) (names : List String) :
    names ∉ (f.erase names).entries.map Prod.fst := by
  intro h
  obtain ⟨e, he, rfl⟩ := List.mem_map.mp h
  simp [erase] at he

theorem proper_put {f : Files} (h : f.Proper) (names : List String) (s : String) :
    (f.put names s).Proper := by
  simp only [Proper, put, List.map_append, List.map_cons, List.map_nil]
  refine List.nodup_append.mpr ⟨proper_erase h names, by simp, ?_⟩
  intro x hx y hy hxy
  rw [hxy, List.mem_singleton.mp hy] at hx
  exact f.not_mem_erase names hx

/-- Where there is a text, there is an entry. -/
theorem text?_isSome {f : Files} {names : List String} :
    (f.text? names).isSome ↔ names ∈ f.entries.map Prod.fst := by
  simp only [text?]
  induction f.entries with
  | nil => simp
  | cons e es ih =>
    obtain ⟨k, s⟩ := e
    by_cases hk : names = k
    · simp [hk]
    · simp [List.lookup_cons, beq_false_of_ne hk, hk, ih]

theorem toOption_read (f : Files) (p : Path) : (f.read p).toOption = f.text? p.names := by
  rw [read]
  cases f.text? p.names <;> rfl

/-- The same public files, and the same refusals. -/
structure SamePublic (f g : Files) : Prop where
  refusing : g.refusing = f.refusing
  proper : f.Proper → g.Proper
  text : ∀ names, IsPublic names → g.text? names = f.text? names

theorem SamePublic.refl (f : Files) : f.SamePublic f := ⟨rfl, id, fun _ _ => rfl⟩

theorem SamePublic.trans {f g h : Files} (hfg : f.SamePublic g) (hgh : g.SamePublic h) :
    f.SamePublic h :=
  ⟨hgh.refusing.trans hfg.refusing, fun hf => hgh.proper (hfg.proper hf),
    fun names hn => (hgh.text names hn).trans (hfg.text names hn)⟩

theorem samePublic_put {f : Files} {token : String} {names : List String}
    (h : HiddenBy token names) (s : String) : f.SamePublic (f.put names s) := by
  refine ⟨rfl, fun hf => proper_put hf names s, fun other ho => ?_⟩
  have hne : other ≠ names := by
    rintro rfl
    exact ho token h
  rw [text?_put, if_neg hne]

theorem samePublic_erase {f : Files} {token : String} {names : List String}
    (h : HiddenBy token names) : f.SamePublic (f.erase names) := by
  refine ⟨rfl, fun hf => proper_erase hf names, fun other ho => ?_⟩
  have hne : other ≠ names := by
    rintro rfl
    exact ho token h
  rw [text?_erase, if_neg hne]

end Files

end Workboard
