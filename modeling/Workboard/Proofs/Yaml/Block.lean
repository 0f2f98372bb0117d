import Workboard.Proofs.Yaml.Gaps

/-!
# Blocks of lines

A text of printed characters is read back from a block of lines, whatever line ends and
blanks stand at its beginning and at its end.
-/
namespace Workboard.Yaml

namespace Lexer
open Printer (spaces blockHints)

variable {fuel indent i line k m w : Nat} {acc r : List Char}

section EmptyLines

/-- How many of so many spaces are passed before a line of a block. -/
def passed (indent n : Nat) : Nat := if indent = 0 then n else min n indent

theorem takeWhile_spaces (h : ∀ c ∈ r.head?, c ≠ ' ') (n : Nat) :
    ((spaces n ++ r).takeWhile (· = ' ')).length = n := by
  rw [List.takeWhile_append_of_pos fun c hc => by simp [List.eq_of_mem_replicate hc]]
  cases r with
  | nil => simp [spaces]
  | cons c r =>
    have hc : c ≠ ' ' := h c rfl
    simp [spaces, hc]

/-- Past the spaces of a line that is not empty. -/
theorem blockBreaks_stop {n : Nat} (hspaces : ((spaces n ++ r).takeWhile (· = ' ')).length = n + k)
    (hn : passed indent (n + k) = n) (hr : ∀ c ∈ r.head?, isBreak c = false ∧ c ≠ '\t') :
    blockBreaks (fuel + 1) indent w acc ⟨spaces n ++ r, i, line, 0⟩ =
      some (acc, max w n, ⟨r, i + n, line, n⟩) := by
  rw [blockBreaks]
  simp only [Spot.takeWhile, hspaces, Nat.sub_zero]
  rw [show (if indent = 0 then n + k else min (n + k) indent) = n from hn,
    Spot.skipMany_mk (spaces n) n (by simp [spaces]), Nat.zero_add]
  cases r with
  | nil => rfl
  | cons c r =>
    obtain ⟨hbreak, htab⟩ := hr c rfl
    simp [hbreak, htab]

/-- Past empty lines. -/
theorem blockBreaks_breaks {bs : List Char} (hbs : ∀ b ∈ bs, isPlainBreak b = true) :
    blockBreaks (fuel + bs.length) indent w acc ⟨bs ++ r, i, line, 0⟩ =
      blockBreaks fuel indent w (bs.reverse ++ acc) ⟨r, i + bs.length, line + bs.length, 0⟩ := by
  induction bs generalizing acc i line with
  | nil => rfl
  | cons b bs ih =>
    obtain ⟨hb, hbs⟩ := List.forall_mem_cons.mp hbs
    obtain ⟨hbreak, hr⟩ := isBreak_of_isPlainBreak hb
    have hspace : b ≠ ' ' ∧ b ≠ '\t' := by
      constructor <;> rintro rfl <;> exact absurd hb (by decide)
    have hstep : blockBreaks (fuel + bs.length + 1) indent w acc ⟨b :: (bs ++ r), i, line, 0⟩ =
        blockBreaks (fuel + bs.length) indent w (b :: acc) ⟨bs ++ r, i + 1, line + 1, 0⟩ := by
      rw [blockBreaks]
      simp [Spot.takeWhile, Spot.skipMany, hspace, hbreak, breakText_mk hb, Spot.skipBreak_mk hbreak hr]
    rw [List.cons_append, List.length_cons, ← Nat.add_assoc, hstep, ih hbs]
    simp [Nat.add_assoc, Nat.add_comm 1]

end EmptyLines

/-- A character of a line of a block. -/
def isLineChar (c : Char) : Bool := c = ' ' || isInk c

theorem isBreak_of_isLineChar {c : Char} (h : isLineChar c = true) : isBreak c = false ∧ c ≠ '\t' := by
  obtain rfl | hink : c = ' ' ∨ isInk c = true := by simpa [isLineChar] using h
  · decide
  · refine ⟨by simp_all [isInk], ?_⟩
    rintro rfl
    exact absurd hink (by decide)

/-- Empty lines are read up to the next line of the block. -/
theorem blockBreaks_line {bs : List Char} {c : Char} (hbs : ∀ b ∈ bs, isPlainBreak b = true)
    (hc : isLineChar c = true) (hm : 0 < m) (hfuel : bs.length < fuel) :
    ∃ i' line', blockBreaks fuel m w acc ⟨bs ++ (spaces m ++ c :: r), i, line, 0⟩ =
      some (bs.reverse ++ acc, max w m, ⟨c :: r, i', line', m⟩) := by
  obtain ⟨fuel, rfl⟩ : ∃ f, fuel = f + 1 + bs.length := ⟨fuel - 1 - bs.length, by omega⟩
  refine ⟨_, _, (blockBreaks_breaks hbs).trans
    (blockBreaks_stop (k := ((c :: r).takeWhile (· = ' ')).length) ?_ ?_ ?_)⟩
  · rw [List.takeWhile_append_of_pos fun c hc => by simp [List.eq_of_mem_replicate hc]]
    simp [spaces]
  · rw [passed, if_neg (by omega)]
    omega
  · simpa using isBreak_of_isLineChar hc

/-- Empty lines are read up to the end of the block. -/
theorem blockBreaks_end {bs : List Char} (hbs : ∀ b ∈ bs, isPlainBreak b = true)
    (hr : BeginsInk r) (hk : k < m) (hfuel : bs.length < fuel) :
    ∃ i' line', blockBreaks fuel m w acc ⟨bs ++ (spaces k ++ r), i, line, 0⟩ =
      some (bs.reverse ++ acc, max w k, ⟨r, i', line', k⟩) := by
  obtain ⟨fuel, rfl⟩ : ∃ f, fuel = f + 1 + bs.length := ⟨fuel - 1 - bs.length, by omega⟩
  have hchar : ∀ c ∈ r.head?, isBreak c = false ∧ c ≠ '\t' := fun c hc =>
    isBreak_of_isLineChar (by simp [isLineChar, hr c hc])
  refine ⟨_, _, (blockBreaks_breaks hbs).trans (blockBreaks_stop (k := 0) ?_ ?_ hchar)⟩
  · refine takeWhile_spaces (fun c hc => ?_) k
    rintro rfl
    exact absurd (hr ' ' hc) (by decide)
  · rw [passed, if_neg (by omega)]
    omega

section Lines

/-- The line ends after the last line of a block, the first apart. -/
def lineEndsOf : List Char → List Char × List Char
  | [] => (['\n'], [])
  | b :: bs => ([b], bs.reverse)

theorem printed_line {l : List Char} (hl : ∀ c ∈ l, isLineChar c = true) (v : List Char) :
    Printer.blockLines m false (l ++ v) = l ++ Printer.blockLines m false v := by
  induction l with
  | nil => rfl
  | cons c l ih =>
    obtain ⟨hc, hl⟩ := List.forall_mem_cons.mp hl
    rw [List.cons_append, Printer.blockLines, (isBreak_of_isLineChar hc).1, if_neg Bool.false_ne_true,
      if_neg Bool.false_ne_true, ih hl]
    rfl

theorem printed_cons {c : Char} (hc : isLineChar c = true) (v : List Char) :
    Printer.blockLines m false (c :: v) = c :: Printer.blockLines m false v :=
  printed_line (l := [c]) (by simpa using hc) v

theorem printed_breaks {bs : List Char} (hbs : ∀ b ∈ bs, isPlainBreak b = true) (v : List Char) :
    Printer.blockLines m true (bs ++ v) = bs ++ Printer.blockLines m true v := by
  induction bs with
  | nil => rfl
  | cons b bs ih =>
    obtain ⟨hb, hbs⟩ := List.forall_mem_cons.mp hbs
    rw [List.cons_append, Printer.blockLines, if_pos (isBreak_of_isPlainBreak hb).1, ih hbs]
    rfl

theorem printed_indent {c : Char} (hc : isLineChar c = true) (v : List Char) :
    Printer.blockLines m true (c :: v) = spaces m ++ Printer.blockLines m false (c :: v) := by
  rw [Printer.blockLines, Printer.blockLines, (isBreak_of_isLineChar hc).1, if_neg Bool.false_ne_true]
  rfl

/-- Up to the first line, line ends are written as they are. -/
theorem printed_front {bs : List Char} {c : Char} (hbs : ∀ b ∈ bs, isPlainBreak b = true)
    (hc : isLineChar c = true) (v : List Char) :
    Printer.blockLines m true (bs ++ c :: v) = bs ++ (spaces m ++ c :: Printer.blockLines m false v) := by
  rw [printed_breaks hbs, printed_indent hc, printed_cons hc]

/-- The lines of a text that ends with another line end go on with a line feed. -/
theorem printed_append {cs : List Char} {atStart : Bool}
    (h : (Printer.blockLines m atStart cs).getLast? ≠ some '\n') :
    Printer.blockLines m atStart (cs ++ ['\n']) = Printer.blockLines m atStart cs ++ ['\n'] := by
  induction cs generalizing atStart with
  | nil =>
    cases atStart with
    | true => rfl
    | false => exact absurd rfl h
  | cons c cs ih =>
    have hrest : ∀ (as : List Char) {atStart : Bool},
        (as ++ c :: Printer.blockLines m atStart cs).getLast? ≠ some '\n' →
          (Printer.blockLines m atStart cs).getLast? ≠ some '\n' := fun as atStart hlast heq =>
      hlast (by rw [List.append_cons, List.getLast?_append, heq]; rfl)
    rw [List.cons_append, Printer.blockLines, Printer.blockLines]
    rw [Printer.blockLines] at h
    split
    · rename_i hbreak
      rw [if_pos hbreak] at h
      rw [ih (hrest [] h), List.cons_append]
    · rename_i hbreak
      rw [if_neg hbreak] at h
      rw [ih (hrest _ h), List.append_assoc, List.cons_append]

/-- Then the last character of the text is that line end. -/
theorem exists_break_of_printed {cs : List Char} {atStart : Bool} (hne : cs ≠ [])
    (h : (Printer.blockLines m atStart cs).getLast? ≠ some '\n') : ∃ c ∈ cs.getLast?, isBreak c = true := by
  induction cs generalizing atStart with
  | nil => exact absurd rfl hne
  | cons c cs ih =>
    rw [Printer.blockLines] at h
    cases cs with
    | nil =>
      refine ⟨c, rfl, ?_⟩
      cases hbreak : isBreak c with
      | true => rfl
      | false => simp [hbreak, Printer.blockLines] at h
    | cons d cs =>
      have hrest : ∃ atStart, (Printer.blockLines m atStart (d :: cs)).getLast? ≠ some '\n' := by
        split at h
        · exact ⟨true, fun heq => h (by rw [List.getLast?_cons, heq]; rfl)⟩
        · exact ⟨false, fun heq => h (by rw [List.append_cons, List.getLast?_append, heq]; rfl)⟩
      obtain ⟨atStart, hlast⟩ := hrest
      obtain ⟨e, he, hbreak⟩ := ih (List.cons_ne_nil d cs) hlast
      exact ⟨e, by rwa [List.getLast?_cons_cons], hbreak⟩

theorem blockLines_stop {first more : List Char} {leadingBlank : Bool} {s : Spot} (h : s.column ≠ m) :
    blockLines (fuel + 1) true m acc first more leadingBlank s = some (acc, first, more, s) := by
  rw [blockLines]
  split
  · rfl
  · rw [if_pos h]

/-- One line of a block is read, and the empty lines after it. -/
theorem blockLines_line {l x breaks first more : List Char} {b : Char} {leadingBlank : Bool} {u : Spot}
    (hl : ∀ c ∈ l, isLineChar c = true) (hne : l ≠ []) (hb : isPlainBreak b = true)
    (hbreaks : blockBreaks (x.length + 2) m 0 [] ⟨x, i + l.length + 1, line + 1, 0⟩ = some (breaks, w, u)) :
    ∃ blank, blockLines (fuel + 1) true m acc first more leadingBlank ⟨l ++ b :: x, i, line, m⟩ =
      blockLines fuel true m (l.reverse ++ (more ++ first ++ acc)) [b] breaks blank u := by
  obtain ⟨c, l', rfl⟩ := List.exists_cons_of_ne_nil hne
  obtain ⟨hbreak, hret⟩ := isBreak_of_isPlainBreak hb
  have htake : ((c :: l') ++ b :: x).takeWhile (fun d => !isBreak d) = c :: l' := by
    rw [List.takeWhile_append_of_pos fun d hd => by simp [isBreak_of_isLineChar (hl d hd)],
      List.takeWhile_cons_of_neg (by simp [hbreak]), List.append_nil]
  have hline : (Spot.mk ((c :: l') ++ b :: x) i line m).skipToBreak =
      ⟨b :: x, i + (c :: l').length, line, m + (c :: l').length⟩ := by
    rw [Spot.skipToBreak, Spot.skipWhile]
    simp only [htake]
    exact Spot.skipMany_mk (c :: l') _ rfl
  have hempty : blockBreaks ((b :: x).length + 1) m 0 []
      (Spot.mk (b :: x) (i + (c :: l').length) line (m + (c :: l').length)).skipBreak = some (breaks, w, u) := by
    rw [Spot.skipBreak_mk hbreak hret]
    exact hbreaks
  refine ⟨isSpace c, ?_⟩
  rw [blockLines]
  simp only [Spot.takeWhile, htake, hline, hempty, breakText_mk hb, Bool.not_true, Bool.false_and,
    Bool.false_eq_true, if_false, ne_eq, not_true_eq_false]
  rfl

theorem not_isPlainBreak_of_isLineChar {c : Char} (h : isLineChar c = true) : isPlainBreak c = false := by
  cases hb : isPlainBreak c with
  | false => rfl
  | true => exact absurd (isBreak_of_isPlainBreak hb).1 (by simp [isBreak_of_isLineChar h])

/-- The line ends at the end of a block are written as they are, and one is added if there is none. -/
theorem printed_ends {ends : List Char} (hends : ∀ b ∈ ends, isPlainBreak b = true) :
    ∃ b bs, Printer.blockLines m false ends = b :: bs ∧ isPlainBreak b = true ∧
      (∀ b ∈ bs, isPlainBreak b = true) ∧ lineEndsOf ends = ([b], bs.reverse) := by
  cases ends with
  | nil => exact ⟨'\n', [], rfl, rfl, by simp, rfl⟩
  | cons b bs =>
    obtain ⟨hb, hbs⟩ := List.forall_mem_cons.mp hends
    have hprinted := printed_breaks (m := m) hbs []
    rw [List.append_nil] at hprinted
    refine ⟨b, bs, ?_, hb, hbs, rfl⟩
    rw [Printer.blockLines, if_pos (isBreak_of_isPlainBreak hb).1, hprinted, Printer.blockLines, if_pos rfl,
      List.append_nil]

/-- The lines of a block are one line, or a line, the line ends after it and the lines after these. -/
theorem exists_line {body : List Char} (hbody : ∀ c ∈ body, isLineChar c = true ∨ isPlainBreak c = true)
    (hbegin : ∃ c ∈ body.head?, isLineChar c = true) (hlast : ∀ c ∈ body.getLast?, isLineChar c = true) :
    ∃ l, l ≠ [] ∧ (∀ c ∈ l, isLineChar c = true) ∧
      (body = l ∨ ∃ b bs c v, body = l ++ (b :: bs ++ c :: v) ∧ (∀ d ∈ b :: bs, isPlainBreak d = true) ∧
        isLineChar c = true) := by
  obtain ⟨l, u, rfl, hl, hu⟩ := exists_stretch isLineChar body
  obtain ⟨bs, v, rfl, hbs, hv⟩ := exists_stretch isPlainBreak u
  have hlne : l ≠ [] := by
    rintro rfl
    obtain ⟨c, hc, hline⟩ := hbegin
    rw [hu c hc] at hline
    cases hline
  refine ⟨l, hlne, hl, ?_⟩
  cases v with
  | nil =>
    -- a body that ends in a line has no line ends after it
    left
    cases hlastbs : bs.getLast? with
    | none => simp [List.getLast?_eq_none_iff.mp hlastbs]
    | some b =>
      have hb := not_isPlainBreak_of_isLineChar (hlast b (by simp [hlastbs]))
      rw [hbs b (List.mem_of_getLast? hlastbs)] at hb
      cases hb
  | cons c v =>
    right
    have hc : isLineChar c = true := by
      have := hv c rfl
      have := hbody c (by simp)
      simp_all
    cases bs with
    | nil => simp [hc] at hu
    | cons b bs => exact ⟨b, bs, c, v, rfl, hbs, hc⟩

/-- The last line of a block is read, and the line ends after it. -/
theorem blockLines_last {l ends first more : List Char} {leadingBlank : Bool}
    (hl : ∀ c ∈ l, isLineChar c = true) (hne : l ≠ []) (hends : ∀ b ∈ ends, isPlainBreak b = true)
    (hr : BeginsInk r) (hk : k < m) :
    ∃ i' line', blockLines (fuel + 2) true m acc first more leadingBlank
        ⟨Printer.blockLines m false (l ++ ends) ++ (spaces k ++ r), i, line, m⟩ =
      some (l.reverse ++ (more ++ first ++ acc), (lineEndsOf ends).1, (lineEndsOf ends).2, ⟨r, i', line', k⟩) := by
  obtain ⟨b, bs, htext, hb, hbs, hof⟩ := printed_ends (m := m) hends
  obtain ⟨i', line', hend⟩ := @blockBreaks_end ((bs ++ (spaces k ++ r)).length + 2) (i + l.length + 1) _ _ _
      0 _ _ _ hbs hr hk (by simp; omega)
  obtain ⟨blank, hstep⟩ := blockLines_line hl hne hb hend
  refine ⟨i', line', ?_⟩
  rw [printed_line hl, htext, List.append_assoc, List.cons_append, hstep, hof, List.append_nil]
  exact blockLines_stop (by simp only; omega)

/-- A line of a block is read, and the line ends after it up to the next line. -/
theorem blockLines_next {l bs v first more : List Char} {b c : Char} {leadingBlank : Bool}
    (hl : ∀ c ∈ l, isLineChar c = true) (hne : l ≠ []) (hbs : ∀ d ∈ b :: bs, isPlainBreak d = true)
    (hc : isLineChar c = true) (hm : 0 < m) :
    ∃ i' line' blank, blockLines (fuel + 1) true m acc first more leadingBlank
        ⟨Printer.blockLines m false (l ++ (b :: bs ++ c :: v)) ++ r, i, line, m⟩ =
      blockLines fuel true m (l.reverse ++ (more ++ first ++ acc)) [b] bs.reverse blank
        ⟨Printer.blockLines m false (c :: v) ++ r, i', line', m⟩ := by
  obtain ⟨hb, hbs⟩ := List.forall_mem_cons.mp hbs
  obtain ⟨i', line', hread⟩ := @blockBreaks_line
      ((bs ++ (spaces m ++ c :: (Printer.blockLines m false v ++ r))).length + 2) (i + l.length + 1) _ m 0 []
      (Printer.blockLines m false v ++ r) _ _ hbs hc hm (by simp; omega)
  obtain ⟨blank, hstep⟩ := blockLines_line hl hne hb hread
  have htext : Printer.blockLines m false (l ++ (b :: bs ++ c :: v)) ++ r =
      l ++ b :: (bs ++ (spaces m ++ c :: (Printer.blockLines m false v ++ r))) := by
    rw [printed_line hl, List.cons_append, Printer.blockLines, if_pos (isBreak_of_isPlainBreak hb).1,
      printed_front hbs hc]
    simp only [List.append_assoc, List.cons_append]
  refine ⟨i', line', blank, ?_⟩
  rw [htext, hstep, printed_cons hc, List.append_nil, List.cons_append]

/-- The lines of a block are read up to its end. -/
theorem blockLines_body {body ends first more : List Char} {leadingBlank : Bool}
    (hbody : ∀ c ∈ body, isLineChar c = true ∨ isPlainBreak c = true)
    (hbegin : ∃ c ∈ body.head?, isLineChar c = true) (hlast : ∀ c ∈ body.getLast?, isLineChar c = true)
    (hends : ∀ b ∈ ends, isPlainBreak b = true) (hr : BeginsInk r) (hk : k < m)
    (hfuel : body.length < fuel) :
    ∃ i' line', blockLines fuel true m acc first more leadingBlank
        ⟨Printer.blockLines m false (body ++ ends) ++ (spaces k ++ r), i, line, m⟩ =
      some (body.reverse ++ (more ++ first ++ acc), (lineEndsOf ends).1, (lineEndsOf ends).2,
        ⟨r, i', line', k⟩) := by
  induction fuel generalizing body acc first more leadingBlank i line with
  | zero => exact absurd hfuel (Nat.not_lt_zero _)
  | succ fuel ih =>
    obtain ⟨l, hne, hl, rfl | ⟨b, bs, c, v, rfl, hbs, hc⟩⟩ := exists_line hbody hbegin hlast
    · have hpos := List.length_pos_iff.mpr hne
      obtain ⟨fuel, rfl⟩ : ∃ f, fuel = f + 1 := ⟨fuel - 1, by omega⟩
      exact blockLines_last hl hne hends hr hk
    · obtain ⟨i₁, line₁, blank, hstep⟩ := @blockLines_next fuel i line m acc (spaces k ++ r) l bs (v ++ ends)
          first more b c leadingBlank hl hne hbs hc (by omega)
      obtain ⟨i', line', hrest⟩ := @ih i₁ line₁ (l.reverse ++ (more ++ first ++ acc)) (c :: v) [b] bs.reverse blank
        (fun d hd => hbody d (by simp only [List.mem_append]; exact .inr (.inr hd))) ⟨c, rfl, hc⟩
        (fun d hd => hlast d (by rw [List.getLast?_append, List.getLast?_append, Option.mem_def.mp hd]; rfl))
        (by simp at hfuel ⊢; omega)
      refine ⟨i', line', ?_⟩
      rw [List.append_assoc, List.append_assoc]
      exact hstep.trans (hrest.trans (by simp))

end Lines

section Whole

/-- The treatment of the end that the hints of a block ask for. -/
def hintedChomp (body ends : List Char) : Chomp :=
  if body = [] then .keep
  else match ends with
    | [] => .strip
    | [_] => .clip
    | _ => .keep

/-- The indentation that the hints of a block give. -/
def hintedIncrement (cs : List Char) : Nat := if cs.head?.any fun c => c = ' ' || isBreak c then 2 else 0

/-- The parts of a text: the line ends in front, the lines, and the line ends after them. -/
structure IsParted (front body ends : List Char) : Prop where
  front_breaks : ∀ b ∈ front, isPlainBreak b = true
  body_chars : ∀ c ∈ body, isLineChar c = true ∨ isPlainBreak c = true
  body_begins : ∀ c ∈ body.head?, isLineChar c = true
  body_ends : ∀ c ∈ body.getLast?, isLineChar c = true
  ends_breaks : ∀ b ∈ ends, isPlainBreak b = true
  ends_of_empty : body = [] → ends = []

theorem exists_isParted {cs : List Char} (h : ∀ c ∈ cs, isLineChar c = true ∨ isPlainBreak c = true) :
    ∃ front body ends, cs = front ++ (body ++ ends) ∧ IsParted front body ends := by
  obtain ⟨front, u, rfl, hfront, hu⟩ := exists_stretch isPlainBreak cs
  obtain ⟨sdne, v, hv, hends, hlast⟩ := exists_stretch isPlainBreak u.reverse
  obtain rfl : u = v.reverse ++ sdne.reverse := by rw [← List.reverse_append, ← hv, List.reverse_reverse]
  have hline : ∀ c ∈ v.reverse, isPlainBreak c = false → isLineChar c = true := fun c hc hb => by
    simpa [hb] using h c (by simp at hc ⊢; exact .inr (.inl hc))
  refine ⟨front, v.reverse, sdne.reverse, rfl, hfront, fun c hc => h c (by simp at hc ⊢; exact .inr (.inl hc)),
    fun c hc => hline c (List.mem_of_head? hc) (hu c ?_), fun c hc => hline c (List.mem_of_getLast? hc) (hlast c ?_),
    fun b hb => hends b (List.mem_reverse.mp hb), fun hnil => ?_⟩
  · rw [List.head?_append, Option.mem_def.mp hc]
    rfl
  · simpa using hc
  · cases sdne with
    | nil => rfl
    | cons b bs =>
      obtain rfl : v = [] := by simpa using hnil
      -- a text of line ends only is all front
      obtain ⟨c, hc⟩ : ∃ c, (b :: bs).reverse.head? = some c := ⟨_, List.head?_eq_some_head (by simp)⟩
      have hnot := hu c (by rw [List.reverse_nil, List.nil_append, hc]; rfl)
      rw [hends c (List.mem_reverse.mp (List.mem_of_head? hc))] at hnot
      cases hnot

/-- The mark of how the end of a block is treated. -/
def Chomp.mark : Chomp → List Char
  | .strip => ['-']
  | .clip => []
  | .keep => ['+']

variable {front body ends : List Char}

theorem IsParted.hints (h : IsParted front body ends) (hne : front ++ (body ++ ends) ≠ []) :
    blockHints (front ++ (body ++ ends)) =
      (if hintedIncrement (front ++ (body ++ ends)) = 2 then ['2'] else []) ++ (hintedChomp body ends).mark := by
  have hmargin : (if (front ++ (body ++ ends)).head?.any (fun c => c = ' ' || isBreak c) then ['2'] else []) =
      if hintedIncrement (front ++ (body ++ ends)) = 2 then ['2'] else [] := by
    unfold hintedIncrement
    split <;> rfl
  have hisBreak : ∀ {bs : List Char}, (∀ b ∈ bs, isPlainBreak b = true) → ∀ b ∈ bs, isBreak b = true :=
    fun hbs b hb => (isBreak_of_isPlainBreak (hbs b hb)).1
  unfold blockHints
  rw [hmargin]
  unfold hintedChomp
  by_cases hbody : body = []
  · obtain rfl := h.ends_of_empty hbody
    subst hbody
    rw [List.append_nil, List.append_nil] at hne ⊢
    have hall : ∀ b ∈ front.reverse, isBreak b = true := fun b hb =>
      hisBreak h.front_breaks b (List.mem_reverse.mp hb)
    cases hrev : front.reverse with
    | nil => exact absurd (List.reverse_eq_nil_iff.mp hrev) hne
    | cons a bs =>
      rw [hrev] at hall
      have ha : isBreak a = true := hall a (by simp)
      cases bs with
      | nil => simp [ha, Chomp.mark]
      | cons b bs => simp [ha, hall b (by simp), Chomp.mark]
  · obtain ⟨body, c, rfl⟩ : ∃ l c, body = l ++ [c] := ⟨_, _, (List.dropLast_concat_getLast hbody).symm⟩
    have hc : isBreak c = false := (isBreak_of_isLineChar (h.body_ends c (by simp))).1
    simp only [hbody, if_false]
    cases hends : ends.reverse with
    | nil =>
      obtain rfl := List.reverse_eq_nil_iff.mp hends
      cases hrest : body.reverse ++ front.reverse with
      | nil => simp [hc, hrest, Chomp.mark]
      | cons d ds => simp [hc, hrest, Chomp.mark]
    | cons e es =>
      obtain rfl : ends = es.reverse ++ [e] := by
        rw [← List.reverse_cons, ← hends, List.reverse_reverse]
      have he : isBreak e = true := hisBreak h.ends_breaks e (by simp)
      cases es with
      | nil => simp [he, hc, Chomp.mark]
      | cons d ds =>
        have hd : isBreak d = true := hisBreak h.ends_breaks d (by simp)
        cases hds : ds.reverse with
        | nil => simp [he, hd, hds, Chomp.mark]
        | cons x xs => simp [he, hd, hds, Chomp.mark]

/-- The hints of a block are read as what they say. -/
theorem blockHeader_hints (chomp : Chomp) {n : Nat} (hn : n = 0 ∨ n = 2) (col : Nat) :
    ∃ i' col', blockHeader ⟨(if n = 2 then ['2'] else []) ++ chomp.mark ++ '\n' :: r, i, line, col⟩ =
      some (chomp, n, ⟨'\n' :: r, i', line, col'⟩) := by
  rcases hn with rfl | rfl <;> cases chomp <;> exact ⟨_, _, rfl⟩

theorem length_le_blockLines (m : Nat) (atStart : Bool) (cs : List Char) :
    cs.length ≤ (Printer.blockLines m atStart cs).length := by
  induction cs generalizing atStart with
  | nil => exact Nat.zero_le _
  | cons c cs ih =>
    have htrue := ih true
    have hfalse := ih false
    rw [Printer.blockLines]
    split
    · simpa using htrue
    · simp only [List.length_append, List.length_cons]
      omega

/-- The text of a block by its lines and the treatment of its end. -/
def chomped (chomp : Chomp) (acc first more : List Char) : List Char :=
  let acc := if chomp = .strip then acc else first ++ acc
  if chomp = .keep then more ++ acc else acc

/-- A block is its header, its first empty lines and its lines. -/
theorem blockScalar_lines {outer : Int} {chomp : Chomp} {n col widest given : Nat} {s t u : Spot}
    {x breaks first more : List Char}
    (hheader : blockHeader s = some (chomp, n, ⟨'\n' :: x, i, line, col⟩))
    (hgiven : (if n = 0 then 0 else (max outer 0).toNat + n) = given)
    (hbreaks : blockBreaks (x.length + 1) given 0 [] ⟨x, i + 1, line + 1, 0⟩ = some (breaks, widest, t))
    (hindent : (if given = 0 then max (max widest (outer + 1).toNat) 1 else given) = indent)
    (hlines : blockLines (t.rest.length + 1) true indent [] [] breaks false t = some (acc, first, more, u)) :
    blockScalar true outer s = some (String.ofList (chomped chomp acc first more).reverse, u) := by
  have hspaces : (Spot.mk ('\n' :: x) i line col).skipSpaces = ⟨'\n' :: x, i, line, col⟩ := rfl
  have hend : (Spot.mk ('\n' :: x) i line col).skipBreak = ⟨x, i + 1, line + 1, 0⟩ :=
    Spot.skipBreak_mk (by decide) (by decide)
  have hcomment : ((Spot.mk ('\n' :: x) i line col).rest.head? = some '#') = False := by simp
  have hlineEnd : lineEnds (Spot.mk ('\n' :: x) i line col).rest = true := rfl
  unfold blockScalar
  simp only [hheader, Option.bind_eq_bind, Option.bind_some, hspaces, hcomment, if_false, hlineEnd,
    Bool.not_true, Bool.false_eq_true, hend, hgiven, hbreaks, hindent, hlines]
  rfl

/-- The end of a block is treated as its hints ask for: line ends that follow those of the text
are kept with them or not at all. -/
theorem chomped_hinted {front body ends more : List Char} (hbody : body ≠ []) (hmore : more ≠ [] → ends ≠ []) :
    ∃ kept, (kept = [] ∨ kept = more) ∧
      chomped (hintedChomp body ends) (body.reverse ++ front.reverse) (lineEndsOf (ends ++ more)).1
          (lineEndsOf (ends ++ more)).2 =
        (front ++ (body ++ ends) ++ kept).reverse := by
  cases ends with
  | nil =>
    obtain rfl : more = [] := Classical.byContradiction fun hne => hmore hne rfl
    exact ⟨[], .inl rfl, by simp [hintedChomp, hbody, chomped]⟩
  | cons b bs =>
    cases bs with
    | nil => exact ⟨[], .inl rfl, by simp [hintedChomp, hbody, chomped, lineEndsOf]⟩
    | cons d ds => exact ⟨more, .inr rfl, by simp [hintedChomp, hbody, chomped, lineEndsOf]⟩

theorem hintedIncrement_eq (cs : List Char) : hintedIncrement cs = 0 ∨ hintedIncrement cs = 2 := by
  unfold hintedIncrement
  split
  · exact .inr rfl
  · exact .inl rfl

/-- The header of a block says what its hints ask for. -/
theorem IsParted.header {cs : List Char} (h : IsParted front body ends) (hparts : cs = front ++ (body ++ ends))
    (hne : cs ≠ []) (col : Nat) :
    ∃ i' col', blockHeader ⟨blockHints cs ++ '\n' :: r, i, line, col⟩ =
      some (hintedChomp body ends, hintedIncrement cs, ⟨'\n' :: r, i', line, col'⟩) := by
  have hhints := h.hints (hparts ▸ hne)
  rw [← hparts] at hhints
  rw [hhints]
  exact blockHeader_hints (hintedChomp body ends) (hintedIncrement_eq cs) col

/-- A text without a hint for its margin begins with a line, and the line with ink. -/
theorem IsParted.begins {cs : List Char} {c : Char} (h : IsParted front (c :: body) ends)
    (hparts : cs = front ++ (c :: body ++ ends)) (hzero : hintedIncrement cs = 0) : front = [] ∧ c ≠ ' ' := by
  have hfirst : ∀ d ∈ cs.head?, d ≠ ' ' ∧ isBreak d = false := by
    unfold hintedIncrement at hzero
    split at hzero
    · cases hzero
    · rename_i hloose
      intro d hd
      simpa [Option.mem_def.mp hd] using hloose
  cases front with
  | nil => exact ⟨rfl, (hfirst c (by rw [hparts]; rfl)).1⟩
  | cons b front =>
    have hb := (isBreak_of_isPlainBreak (h.front_breaks b List.mem_cons_self)).1
    rw [(hfirst b (by rw [hparts]; rfl)).2] at hb
    cases hb

/-- The first line of a block is found at its margin, which is given or taken from the line. -/
theorem IsParted.margin {cs : List Char} {c : Char} {outer : Int} (h : IsParted front (c :: body) ends)
    (hparts : cs = front ++ (c :: body ++ ends)) (hm : (m : Int) = max outer 0 + 2) :
    ∃ given i' line',
      (if hintedIncrement cs = 0 then 0 else (max outer 0).toNat + hintedIncrement cs) = given ∧
      (if given = 0 then max (max (max 0 m) (outer + 1).toNat) 1 else given) = m ∧
      blockBreaks ((front ++ (spaces m ++ c :: r)).length + 1) given 0 []
          ⟨front ++ (spaces m ++ c :: r), i, line, 0⟩ =
        some (front.reverse, max 0 m, ⟨c :: r, i', line', m⟩) := by
  have hc : isLineChar c = true := h.body_begins c rfl
  obtain hzero | htwo := hintedIncrement_eq cs
  · obtain ⟨rfl, hspace⟩ := h.begins hparts hzero
    refine ⟨0, i + m, line, by rw [hzero, if_pos rfl], by rw [if_pos rfl]; omega, ?_⟩
    exact blockBreaks_stop (k := 0) (takeWhile_spaces (by simpa using hspace) m) rfl
      (by simpa using isBreak_of_isLineChar hc)
  · obtain ⟨i', line', hbreaks⟩ := @blockBreaks_line ((front ++ (spaces m ++ c :: r)).length + 1) i line m 0 [] r
        front c h.front_breaks hc (by omega) (by simp only [List.length_append]; omega)
    rw [List.append_nil] at hbreaks
    exact ⟨m, i', line', by rw [htwo, if_neg (by omega)]; omega, by rw [if_neg (by omega)], hbreaks⟩

/-- Line ends only are read back from a block, with those that follow them. -/
theorem blockScalar_breaks {cs more : List Char} {outer : Int} (h : IsParted cs [] []) (hne : cs ≠ [])
    (hmore : ∀ b ∈ more, isPlainBreak b = true) (hm : (m : Int) = max outer 0 + 2) (hk : k < m)
    (hr : BeginsInk r) (col : Nat) :
    ∃ i' line', blockScalar true outer
        ⟨blockHints cs ++ '\n' :: (Printer.blockLines m true (cs ++ more) ++ (spaces k ++ r)), i, line, col⟩ =
      some (String.ofList (cs ++ more), ⟨r, i', line', k⟩) := by
  have hbreaks : ∀ b ∈ cs ++ more, isPlainBreak b = true := fun b hb =>
    (List.mem_append.mp hb).elim (h.front_breaks b) (hmore b)
  have htext : Printer.blockLines m true (cs ++ more) = cs ++ more := by
    simpa [Printer.blockLines] using printed_breaks (m := m) hbreaks []
  have hincrement : hintedIncrement cs = 2 := by
    obtain ⟨c, v, rfl⟩ := List.exists_cons_of_ne_nil hne
    have hc := (isBreak_of_isPlainBreak (h.front_breaks c List.mem_cons_self)).1
    simp [hintedIncrement, hc]
  obtain ⟨i₁, col₁, hheader⟩ := @IsParted.header i line (cs ++ more ++ (spaces k ++ r)) _ _ _ cs h (by simp) hne col
  rw [hincrement] at hheader
  obtain ⟨i', line', hread⟩ := @blockBreaks_end ((cs ++ more ++ (spaces k ++ r)).length + 1) (i₁ + 1) (line + 1) k m 0
      [] r _ hbreaks hr hk (by simp only [List.length_append]; omega)
  refine ⟨i', line', ?_⟩
  rw [htext, blockScalar_lines hheader (by simp; omega) hread
    (by rw [if_neg (by omega)]) (blockLines_stop (by simp only; omega))]
  simp [hintedChomp, chomped]

/-- A text of printed characters is read back from a block, up to the first line that does
not belong to the block. Line ends that follow one at the end of the text are read with it if
its end is kept. -/
theorem blockScalar_block {cs more : List Char} {outer : Int}
    (hcs : ∀ c ∈ cs, isLineChar c = true ∨ isPlainBreak c = true) (hne : cs ≠ [])
    (hmore : ∀ b ∈ more, isPlainBreak b = true) (hlast : more ≠ [] → ∃ c ∈ cs.getLast?, isPlainBreak c = true)
    (hm : (m : Int) = max outer 0 + 2) (hk : k < m) (hr : BeginsInk r) (col : Nat) :
    ∃ kept i' line', (kept = [] ∨ kept = more) ∧ blockScalar true outer
        ⟨blockHints cs ++ '\n' :: (Printer.blockLines m true (cs ++ more) ++ (spaces k ++ r)), i, line, col⟩ =
      some (String.ofList (cs ++ kept), ⟨r, i', line', k⟩) := by
  obtain ⟨front, body, ends, hparts, h⟩ := exists_isParted hcs
  cases body with
  | nil =>
    obtain rfl := h.ends_of_empty rfl
    obtain rfl : cs = front := by simpa using hparts
    obtain ⟨i', line', hread⟩ := blockScalar_breaks h hne hmore hm hk hr col
    exact ⟨more, i', line', .inr rfl, hread⟩
  | cons c body =>
    have hc : isLineChar c = true := h.body_begins c rfl
    have hends : more ≠ [] → ends ≠ [] := by
      rintro hgiven rfl
      obtain ⟨d, hd, hbreak⟩ := hlast hgiven
      have hline := h.body_ends d (by rw [hparts, List.append_nil, List.getLast?_append] at hd; simpa using hd)
      rw [not_isPlainBreak_of_isLineChar hline] at hbreak
      cases hbreak
    have hendBreaks : ∀ b ∈ ends ++ more, isPlainBreak b = true := fun b hb =>
      (List.mem_append.mp hb).elim (h.ends_breaks b) (hmore b)
    -- the text after the first character of the first line
    obtain ⟨x, hx⟩ : ∃ x, x = Printer.blockLines m false (body ++ (ends ++ more)) ++ (spaces k ++ r) := ⟨_, rfl⟩
    have hfirst : Printer.blockLines m false (c :: body ++ (ends ++ more)) ++ (spaces k ++ r) = c :: x := by
      rw [List.cons_append, printed_cons hc, List.cons_append, hx]
    have htext : Printer.blockLines m true (cs ++ more) ++ (spaces k ++ r) = front ++ (spaces m ++ c :: x) := by
      rw [hparts, List.append_assoc, List.append_assoc, List.cons_append, printed_front h.front_breaks hc, hx]
      simp only [List.append_assoc, List.cons_append]
    obtain ⟨i₁, col₁, hheader⟩ := @IsParted.header i line (front ++ (spaces m ++ c :: x)) _ _ _ cs h hparts hne col
    obtain ⟨given, i₂, line₂, hgiven, hindent, hbreaks⟩ := @IsParted.margin (i₁ + 1) (line + 1) m x _ _ _ cs c outer
      h hparts hm
    obtain ⟨i', line', hlines⟩ := @blockLines_body ((c :: x).length + 1) i₂ line₂ k m [] r _ (ends ++ more)
        [] front.reverse false h.body_chars ⟨c, rfl, hc⟩ h.body_ends hendBreaks hr hk (by
        have hlen := length_le_blockLines m false (body ++ (ends ++ more))
        simp only [hx, List.length_append, List.length_cons] at hlen ⊢
        omega)
    rw [hfirst, List.append_nil, List.append_nil] at hlines
    obtain ⟨kept, hkept, hchomped⟩ := @chomped_hinted front (c :: body) ends more (by simp) hends
    refine ⟨kept, i', line', hkept, ?_⟩
    rw [htext, blockScalar_lines hheader hgiven hbreaks hindent hlines, hchomped, ← hparts, List.reverse_reverse]

end Whole

end Lexer

end Workboard.Yaml
