import Workboard.Yaml.Lexer.Scalar
import Workboard.Yaml.Printer

/-!
# Gaps between words

Inside a scalar two words are held apart by blanks, or by line ends and the spaces in
front of the next line. Main statements: the blanks of a gap are kept, and of line ends and
spaces the line ends are kept.
-/
namespace Workboard.Yaml

theorem isBreak_of_isSpace {c : Char} (h : isSpace c = true) : isBreak c = false := by
  rcases (by simpa [isSpace] using h : c = ' ' ∨ c = '\t') with rfl | rfl <;> decide

theorem isSpace_of_isBreak {c : Char} (h : isBreak c = true) : isSpace c = false := by
  cases hs : isSpace c with
  | false => rfl
  | true => exact absurd (isBreak_of_isSpace hs) (by simp [h])

/-- A character of a word: neither a blank nor a line end. -/
def isInk (c : Char) : Bool := !isSpace c && !isBreak c

/-- The text does not go on with a blank or a line end. -/
def BeginsInk (r : List Char) : Prop := ∀ c ∈ r.head?, isInk c = true

theorem beginsInk_nil : BeginsInk [] := by simp [BeginsInk]

theorem beginsInk_cons {c : Char} (h : isInk c = true) (r : List Char) : BeginsInk (c :: r) := by
  simpa [BeginsInk] using h

/-- The first stretch of a text, of characters of one class. -/
theorem exists_stretch (p : Char → Bool) (cs : List Char) :
    ∃ w v, cs = w ++ v ∧ (∀ c ∈ w, p c = true) ∧ ∀ c ∈ v.head?, p c = false := by
  induction cs with
  | nil => exact ⟨[], [], rfl, by simp, by simp⟩
  | cons c cs ih =>
    cases hc : p c with
    | false => exact ⟨[], c :: cs, rfl, by simp, by simpa using hc⟩
    | true =>
      obtain ⟨w, v, rfl, hw, hv⟩ := ih
      exact ⟨c :: w, v, rfl, List.forall_mem_cons.mpr ⟨hc, hw⟩, hv⟩

/-- The spaces at the beginning of a text. -/
theorem exists_spaces (cs : List Char) :
    ∃ n v, cs = List.replicate n ' ' ++ v ∧ ∀ c ∈ v.head?, c ≠ ' ' := by
  obtain ⟨blanks, v, rfl, hblanks, hv⟩ := exists_stretch (· = ' ') cs
  have hspaces : blanks = List.replicate blanks.length ' ' :=
    List.eq_replicate_iff.mpr ⟨rfl, fun c hc => by simpa using hblanks c hc⟩
  exact ⟨blanks.length, v, by rw [← hspaces], fun c hc => by simpa using hv c hc⟩

theorem hasPair_append_right {p q : Char → Bool} {as bs : List Char}
    (h : hasPair p q (as ++ bs) = false) : hasPair p q bs = false := by
  induction as with
  | nil => exact h
  | cons a as ih =>
    refine ih ?_
    cases hrest : as ++ bs with
    | nil => rfl
    | cons b cs =>
      rw [List.cons_append, hrest, hasPair, Bool.or_eq_false_iff] at h
      exact h.2

theorem not_pair_of_hasPair {p q : Char → Bool} {as bs : List Char} {a b : Char}
    (h : hasPair p q (as ++ a :: b :: bs) = false) (ha : p a = true) : q b = false := by
  have hpair := hasPair_append_right h
  rw [hasPair, Bool.or_eq_false_iff, ha, Bool.true_and] at hpair
  exact hpair.1

namespace Spot
variable {r : List Char} {i line col : Nat}

@[simp] theorem skip_mk (x : Char) : (Spot.mk (x :: r) i line col).skip = ⟨r, i + 1, line, col + 1⟩ := rfl

@[simp] theorem skipMany_mk (w : List Char) (n : Nat) (h : w.length = n) :
    (Spot.mk (w ++ r) i line col).skipMany n = ⟨r, i + n, line, col + n⟩ := by
  subst h
  simp [skipMany]

/-- Past a line end that is no carriage return. -/
theorem skipBreak_mk {x : Char} (hx : isBreak x = true) (hr : x ≠ '\r') :
    (Spot.mk (x :: r) i line col).skipBreak = ⟨r, i + 1, line + 1, 0⟩ := by
  unfold skipBreak
  split
  · rename_i heq
    exact absurd (List.cons.inj heq).1 hr
  · rename_i c rest _ heq
    obtain ⟨rfl, rfl⟩ := List.cons.inj heq
    simp [hx]
  · rename_i heq
    cases heq

end Spot

namespace Lexer

/-- A line end that may stand as itself outside double quotes. -/
def isPlainBreak (c : Char) : Bool := c = '\n' || c = '\u2028' || c = '\u2029'

theorem isBreak_of_isPlainBreak {c : Char} (h : isPlainBreak c = true) : isBreak c = true ∧ c ≠ '\r' := by
  rcases (by simpa [isPlainBreak, or_assoc] using h : c = '\n' ∨ c = '\u2028' ∨ c = '\u2029') with
    rfl | rfl | rfl <;> decide

theorem breakText_mk {x : Char} (hx : isPlainBreak x = true) (r : List Char) (i line col : Nat) :
    (Spot.mk (x :: r) i line col).breakText = [x] := by
  rcases (by simpa [isPlainBreak, or_assoc] using hx : x = '\n' ∨ x = '\u2028' ∨ x = '\u2029') with
    rfl | rfl | rfl <;> rfl

namespace Gap
variable {margin : Int} {fuel n i line col : Nat} {g : Gap} {r : List Char}

theorem read_space (g : Gap) : read (fuel + 1) margin g ⟨' ' :: r, i, line, col⟩ =
    read fuel margin (if g.broken then g else { g with blanks := ' ' :: g.blanks })
      ⟨r, i + 1, line, col + 1⟩ := by
  change (if (g.broken && (decide _) && false) = true then none else _) = _
  rw [Bool.and_false, if_neg Bool.false_ne_true]
  rfl

theorem read_break (g : Gap) {b : Char} (hb : isPlainBreak b = true) :
    read (fuel + 1) margin g ⟨b :: r, i, line, col⟩ =
      read fuel margin (if g.broken then { g with more := b :: g.more }
        else { g with blanks := [], first := [b], broken := true }) ⟨r, i + 1, line + 1, 0⟩ := by
  obtain ⟨hbreak, hr⟩ := isBreak_of_isPlainBreak hb
  change (if isSpace b = true then _ else if isBreak b = true then _ else _) = _
  rw [if_neg (by simp [isSpace_of_isBreak hbreak]), if_pos hbreak, Spot.skipBreak_mk hbreak hr,
    breakText_mk hb]
  rfl

theorem read_of_beginsInk (h : BeginsInk r) :
    read fuel margin g ⟨r, i, line, col⟩ = some (g, ⟨r, i, line, col⟩) := by
  cases fuel with
  | zero => rfl
  | succ fuel =>
    cases r with
    | nil => rfl
    | cons c r =>
      have hc : isSpace c = false ∧ isBreak c = false := by simpa [BeginsInk, isInk] using h
      simp [read, hc.1, hc.2]

/-- Blanks of a gap without line ends are kept. -/
theorem read_spaces (hg : g.broken = false) :
    read (fuel + n) margin g ⟨List.replicate n ' ' ++ r, i, line, col⟩ =
      read fuel margin { g with blanks := List.replicate n ' ' ++ g.blanks } ⟨r, i + n, line, col + n⟩ := by
  induction n generalizing g i col with
  | zero => rfl
  | succ n ih =>
    have hblanks : List.replicate (n + 1) ' ' ++ g.blanks = List.replicate n ' ' ++ ' ' :: g.blanks := by
      rw [List.replicate_succ', List.append_assoc]
      rfl
    rw [List.replicate_succ, List.cons_append, ← Nat.add_assoc, read_space, hg, if_neg Bool.false_ne_true,
      ih rfl, ← List.replicate_succ, hblanks]
    simp only [Nat.add_assoc, Nat.add_comm 1]

/-- A gap of spaces is read up to the ink after it. -/
theorem read_blanks (h : BeginsInk r) :
    read (List.replicate n ' ' ++ r).length margin {} ⟨List.replicate n ' ' ++ r, i, line, col⟩ =
      some ({ blanks := List.replicate n ' ' }, ⟨r, i + n, line, col + n⟩) := by
  rw [List.length_append, List.length_replicate, Nat.add_comm n, read_spaces rfl, read_of_beginsInk h,
    List.append_nil]

/-- Spaces after a line end are dropped. -/
theorem read_indent (hg : g.broken = true) :
    read (fuel + n) margin g ⟨List.replicate n ' ' ++ r, i, line, col⟩ =
      read fuel margin g ⟨r, i + n, line, col + n⟩ := by
  induction n generalizing i col with
  | zero => rfl
  | succ n ih =>
    rw [List.replicate_succ, List.cons_append, ← Nat.add_assoc, read_space, hg, if_pos rfl, ih]
    simp only [Nat.add_assoc, Nat.add_comm 1]

/-- Further line ends of a gap are kept. -/
theorem read_breaks (hg : g.broken = true) {bs : List Char} (hbs : ∀ b ∈ bs, isPlainBreak b = true) :
    read (fuel + bs.length) margin g ⟨bs ++ r, i, line, col⟩ =
      read fuel margin { g with more := bs.reverse ++ g.more }
        ⟨r, i + bs.length, line + bs.length, if bs = [] then col else 0⟩ := by
  induction bs generalizing g i line col with
  | nil => rfl
  | cons b bs ih =>
    rw [List.cons_append, List.length_cons, ← Nat.add_assoc, read_break g (hbs b List.mem_cons_self), hg,
      if_pos rfl, ih rfl fun c hc => hbs c (List.mem_cons_of_mem _ hc)]
    simp [Nat.add_assoc, Nat.add_comm 1]

end Gap

end Lexer

end Workboard.Yaml
