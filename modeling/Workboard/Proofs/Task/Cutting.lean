import Workboard.Proofs.Yaml.Strings
import Workboard.Task.Record

/-!
# Cutting records

A front matter ends at the first line that begins with three hyphens and holds nothing else.
No line of a string as it is written begins so, whatever the string is.
-/
namespace Workboard.Record

variable {as bs : List Char} {ls ls' : List (List Char)} {c : Char}

/-- No line of the text begins with three hyphens; the flag tells whether a line begins here. -/
def isClear (atStart : Bool) : List Char → Bool
  | [] => true
  | c :: cs => !(atStart && ['-', '-', '-'].isPrefixOf (c :: cs)) && isClear (c = '\n') cs

/-- The text ends at a line end. -/
def EndsLine (cs : List Char) : Prop := cs.getLast? = some '\n'

theorem EndsLine.of_cons (h : EndsLine (c :: as)) : as = [] ∧ c = '\n' ∨ EndsLine as := by
  cases as with
  | nil => exact .inl ⟨rfl, by simpa [EndsLine] using h⟩
  | cons d as => exact .inr (by rwa [EndsLine, List.getLast?_cons_cons] at h)

theorem EndsLine.append (h : EndsLine bs) (as : List Char) : EndsLine (as ++ bs) := by
  rw [EndsLine, List.getLast?_append, h]
  rfl

theorem lines_append (h : as = [] ∨ EndsLine as) (bs : List Char) : lines (as ++ bs) = lines as ++ lines bs := by
  induction as with
  | nil => rfl
  | cons c as ih =>
    have hend := (h.resolve_left (List.cons_ne_nil c as)).of_cons
    have hrest := ih (hend.imp_left And.left)
    rw [List.cons_append, lines, lines, hrest]
    by_cases hc : c = '\n'
    · simp [hc]
    · obtain ⟨d, as, rfl⟩ : ∃ d as', as = d :: as' := by
        refine List.exists_cons_of_ne_nil ?_
        rintro rfl
        exact hend.elim (fun h => hc h.2) (fun h => by simp [EndsLine] at h)
      have hne : lines (d :: as) ≠ [] := fun heq => by
        have := flatten_lines (d :: as)
        rw [heq] at this
        cases this
      obtain ⟨l, ls, hls⟩ := List.exists_cons_of_ne_nil hne
      simp [hc, hls]

theorem cut?_append (h : ∀ l ∈ ls, isDelimiter l = false) :
    cut? (ls ++ ls') = (cut? ls').map fun (front, body) => (ls.flatten ++ front, body) := by
  induction ls with
  | nil => cases hcut : cut? ls' <;> rw [List.nil_append, hcut] <;> rfl
  | cons l ls ih =>
    rw [List.cons_append, cut?, h l List.mem_cons_self, if_neg Bool.false_ne_true,
      ih fun l hl => h l (List.mem_cons_of_mem _ hl)]
    cases cut? ls' <;> simp

/-- A delimiter line begins with three hyphens. -/
theorem isPrefix_of_isDelimiter {l : List Char} (h : isDelimiter l = true) : ['-', '-', '-'] <+: l := by
  have hcut : (l.reverse.dropWhile Text.isBlank).reverse = ['-', '-', '-'] := by
    simpa [isDelimiter, Text.dropBlankEnd, Text.dropBlank] using h
  have hparts : (l.reverse.dropWhile Text.isBlank).reverse ++ (l.reverse.takeWhile Text.isBlank).reverse = l := by
    rw [← List.reverse_append, List.takeWhile_append_dropWhile, List.reverse_reverse]
  exact ⟨_, hcut ▸ hparts⟩

/-- The lines of a clear text do not begin with three hyphens; the first may if no line
begins with the text. -/
theorem not_isPrefix_of_isClear {atStart : Bool} {cs : List Char} (h : isClear atStart cs = true) :
    ∀ l ∈ if atStart then lines cs else (lines cs).tail, ¬ ['-', '-', '-'] <+: l := by
  induction cs generalizing atStart with
  | nil => cases atStart <;> simp [lines]
  | cons c cs ih =>
    rw [isClear, Bool.and_eq_true] at h
    have hrest := ih h.2
    have hfirst : atStart = true → ¬ ['-', '-', '-'] <+: c :: cs := fun hstart hmark => by
      rw [hstart, List.isPrefixOf_iff_prefix.mpr hmark] at h
      exact Bool.false_ne_true h.1
    by_cases hc : c = '\n'
    · subst hc
      cases atStart <;> simpa [lines] using hrest
    · have htail : ∀ l ∈ (lines cs).tail, ¬ ['-', '-', '-'] <+: l := by simpa [hc] using hrest
      cases hls : lines cs with
      | nil =>
        have hnil : cs = [] := by rw [← flatten_lines cs, hls]; rfl
        subst hnil
        cases atStart with
        | false => simp [lines, hc]
        | true => simp [lines, hc]
      | cons l ls =>
        have hlines : lines (c :: cs) = (c :: l) :: ls := by simp [lines, hc, hls]
        rw [hls, List.tail_cons] at htail
        cases atStart with
        | false => simpa [hlines] using htail
        | true =>
          rw [hlines, if_pos rfl]
          refine List.forall_mem_cons.mpr ⟨fun hmark => hfirst rfl (hmark.trans ?_), htail⟩
          have hflat := flatten_lines (c :: cs)
          rw [hlines, List.flatten_cons] at hflat
          exact ⟨ls.flatten, hflat⟩

theorem not_isDelimiter_of_isClear {cs : List Char} (h : isClear true cs = true) :
    ∀ l ∈ lines cs, isDelimiter l = false := fun l hl => by
  cases hd : isDelimiter l with
  | false => rfl
  | true => exact absurd (isPrefix_of_isDelimiter hd) (not_isPrefix_of_isClear h l hl)

/-- A record that begins with a delimiter line goes on with its front matter. -/
theorem split_ruled (cs : List Char) : split (['-', '-', '-', '\n'] ++ cs) =
    match cut? (lines cs) with
    | some parts => .ok parts
    | none => .error .unterminatedFrontMatter := by
  have hmark : dropByteOrderMark (['-', '-', '-', '\n'] ++ cs) = ['-', '-', '-', '\n'] ++ cs := rfl
  have hend : EndsLine ['-', '-', '-', '\n'] := rfl
  rw [split, hmark, lines_append (.inr hend)]
  rfl

theorem isClear_false_of_true {cs : List Char} (h : isClear true cs = true) : isClear false cs = true := by
  cases cs with
  | nil => rfl
  | cons c cs =>
    rw [isClear, Bool.and_eq_true] at h
    simpa [isClear] using h.2

section Strings
open Yaml Lexer
open Printer (spaces)

/-- Within a line nothing can begin a delimiter. -/
theorem isClear_within (h : '\n' ∉ as) : isClear false (as ++ bs) = isClear false bs := by
  induction as with
  | nil => rfl
  | cons c as ih =>
    rw [List.mem_cons, not_or] at h
    have hc : c ≠ '\n' := fun heq => h.1 heq.symm
    simp only [List.cons_append, isClear, Bool.false_and, Bool.not_false, Bool.true_and, hc, decide_false, ih h.2]

theorem not_mem_singleInside {m : Nat} {atStart : Bool} (h : '\n' ∉ as) :
    '\n' ∉ Printer.singleInside m atStart as := by
  have hspaces : '\n' ∉ spaces m := fun hmem => absurd (List.eq_of_mem_replicate hmem) (by decide)
  induction as generalizing atStart with
  | nil =>
    rw [Printer.singleInside]
    split
    · exact hspaces
    · simp
  | cons c as ih =>
    rw [List.mem_cons, not_or] at h
    rw [Printer.singleInside]
    split
    · simpa [h.1] using ih h.2
    · have hdoubled : '\n' ∉ doubled c := by
        unfold doubled
        split <;> simp [h.1]
      have hfirst : '\n' ∉ if atStart = true then spaces m else [] := by
        split
        · exact hspaces
        · simp
      have hrest := @ih false h.2
      simp only [List.mem_append, not_or]
      exact ⟨⟨hfirst, hdoubled⟩, hrest⟩

theorem not_mem_escape (c : Char) : '\n' ∉ Printer.escape c := by
  by_cases hmark : c = '"' ∨ c = '\\'
  · rcases hmark with rfl | rfl <;> decide
  · by_cases hprinted : (isPrinted c && !isBreak c) = true
    · have hc : '\n' ≠ c := by
        rintro rfl
        exact absurd hprinted (by decide)
      simp [Printer.escape, not_or.mp hmark, hprinted, hc]
    · obtain hsmall | hmem := small_or_mem_of_not_printed hprinted
      · have hall : ∀ n < 0xA0, '\n' ∉ Printer.escape (Char.ofNat n) := by decide +kernel
        simpa using hall c.toNat hsmall
      · have hfive : ['\u2028', '\u2029', '\uFEFF', '\uFFFE', '\uFFFF'].all
            (fun d => '\n' ∉ Printer.escape d) = true := by
          decide +kernel
        simpa using List.all_eq_true.mp hfive c hmem

/-- In a block every line begins with a space or is empty. -/
theorem isClear_blockLines {m : Nat} (hm : 0 < m) {atStart inBlock : Bool} (hstart : atStart = true → inBlock = true)
    (hb : isClear true bs = true) : isClear atStart (Printer.blockLines m inBlock as ++ bs) = true := by
  induction as generalizing atStart inBlock with
  | nil =>
    rw [Printer.blockLines]
    split
    · cases atStart with
      | false => exact isClear_false_of_true hb
      | true => exact hb
    · have hfirst : atStart = false := by
        cases atStart with
        | false => rfl
        | true => simp_all
      simpa [hfirst, isClear] using hb
  | cons c as ih =>
    rw [Printer.blockLines]
    split
    · rename_i hbreak
      have hc : c ≠ '-' := by
        rintro rfl
        exact absurd hbreak (by decide)
      rw [List.cons_append, isClear, Bool.and_eq_true]
      refine ⟨?_, ih fun _ => rfl⟩
      simp [List.isPrefixOf, hc.symm]
    · rename_i hbreak
      have hc : c ≠ '\n' := by
        rintro rfl
        exact hbreak (by decide)
      have hrest : isClear false (c :: (Printer.blockLines m false as ++ bs)) = true := by
        simpa [isClear, hc] using ih (by simp)
      obtain ⟨m, rfl⟩ : ∃ n, m = n + 1 := ⟨m - 1, by omega⟩
      cases inBlock with
      | false =>
        have hfirst : atStart = false := by
          cases atStart with
          | false => rfl
          | true => simp_all
        simpa [hfirst] using hrest
      | true =>
        have hspaces : '\n' ∉ spaces m := fun hmem => absurd (List.eq_of_mem_replicate hmem) (by decide)
        have hline := @isClear_within _ (c :: (Printer.blockLines (m + 1) false as ++ bs)) hspaces
        rw [hrest] at hline
        rw [if_pos rfl, List.append_assoc, List.cons_append, show spaces (m + 1) = ' ' :: spaces m from rfl,
          List.cons_append, isClear]
        simp [List.isPrefixOf, hline]

/-- No line of a string begins as a delimiter, and neither does what follows it. -/
theorem isClear_string {m : Nat} (s : String) (hb : isClear true bs = true) :
    isClear false (Printer.string (m + 2) s ++ bs) = true := by
  have hline : isClear false ('\n' :: bs) = true := by simpa [isClear] using hb
  have hinside : ∀ {cs : List Char}, '\n' ∉ cs → isClear false (cs ++ '\n' :: bs) = true := fun hcs =>
    (isClear_within hcs).trans hline
  obtain ⟨hstyle, -⟩ | ⟨hstyle, hfits, -⟩ | ⟨hstyle, -, hbreak⟩ | hstyle := style_cases s
  · have hhints : '\n' ∉ '|' :: Printer.blockHints s.toList := by
      unfold Printer.blockHints
      simp only [List.mem_cons, List.mem_append, not_or]
      refine ⟨by decide, ?_, ?_⟩
      · split <;> simp
      · split
        · split
          · decide
          · split <;> simp
        · split <;> decide
        · decide
    have hblock := @isClear_blockLines s.toList _ (m + 2) (by omega) true _ (fun _ => rfl) hb
    have htext : Printer.string (m + 2) s ++ bs =
        ('|' :: Printer.blockHints s.toList) ++ '\n' :: (Printer.blockLines (m + 2) true s.toList ++ bs) := by
      simp [Printer.string, hstyle]
    rw [htext, isClear_within hhints]
    simpa [isClear] using hblock
  · have hplain : '\n' ∉ s.toList := fun hmem => by
      obtain hc | hc := (isBare_of_fitsPlain hfits).1.chars '\n' hmem <;> exact absurd hc (by decide)
    simpa [Printer.string, hstyle] using hinside hplain
  · have hquoted : '\n' ∉ Printer.singleText (m + 2) s.toList := by
      simpa [Printer.singleText] using not_mem_singleInside hbreak
    simpa [Printer.string, hstyle] using hinside hquoted
  · have hquoted : '\n' ∉ Printer.doubleText s.toList := by
      simpa [Printer.doubleText] using fun c _ => not_mem_escape c
    simpa [Printer.string, hstyle] using hinside hquoted

end Strings

end Workboard.Record
