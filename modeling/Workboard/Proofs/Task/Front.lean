import Workboard.Proofs.Task.Cutting
import Workboard.Proofs.Yaml.Shapes

/-!
# The front matter of a record

No line of a value as it is written looks like the end of a front matter, so the front matter that is
cut off a record is the one that was written.
-/
namespace Workboard.Record
open Yaml Lexer
open Printer (spaces Place node items entry entries)

variable {as bs w x : List Char} {k m n : Nat} {v : Value} {vs : List Value} {e : Value × Value}
  {es : List (Value × Value)} {place : Place}

section Hyphens

/-- A word that begins no mark is not the beginning of a row of hyphens. -/
theorem not_hyphens_word (hmarked : beginsMarked w = false) (hne : w ≠ []) (hx : x.head? ≠ some '-') :
    ¬ ['-', '-', '-'] <+: w ++ x := by
  obtain ⟨c, w, rfl⟩ := List.exists_cons_of_ne_nil hne
  rw [beginsMarked, Bool.or_eq_false_iff, Bool.or_eq_false_iff] at hmarked
  intro hprefix
  obtain ⟨rfl, hsecond⟩ := List.cons_prefix_cons.mp hprefix
  cases w with
  | nil =>
    obtain ⟨y, hy⟩ := hsecond
    exact hx (by rw [← show _ = x from hy]; rfl)
  | cons d w =>
    obtain ⟨rfl, hthird⟩ := List.cons_prefix_cons.mp hsecond
    cases w with
    | nil =>
      obtain ⟨y, hy⟩ := hthird
      exact hx (by rw [← show _ = x from hy]; rfl)
    | cons e w =>
      obtain ⟨rfl, -⟩ := List.cons_prefix_cons.mp hthird
      exact absurd hmarked.1.2 (by simp [List.isPrefixOf])

theorem not_hyphens_head {c : Char} (hc : c ≠ '-') (x : List Char) : ¬ ['-', '-', '-'] <+: c :: x := fun h =>
  hc (List.cons_prefix_cons.mp h).1.symm

/-- A line is clear that does not begin with hyphens once its indentation is passed. -/
theorem isClear_line (hx : ¬ ['-', '-', '-'] <+: x) (h : isClear false x = true) (k : Nat) :
    isClear true (spaces k ++ x) = true := by
  cases k with
  | zero =>
    cases x with
    | nil => rfl
    | cons c x =>
      have hnot : ['-', '-', '-'].isPrefixOf (c :: x) = false := by
        rw [← Bool.not_eq_true, List.isPrefixOf_iff_prefix]
        exact hx
      rw [isClear] at h
      simpa [spaces, isClear, hnot] using h
  | succ k =>
    have hspaces : '\n' ∉ spaces k := fun hmem => absurd (List.eq_of_mem_replicate hmem) (by decide)
    rw [show spaces (k + 1) = ' ' :: spaces k from rfl, List.cons_append, isClear]
    simp [List.isPrefixOf, isClear_within hspaces, h]

end Hyphens

section Values
open Printer (line?)
variable {text : List Char} {size : Nat}

theorem not_mem_of_fitsPlain (h : fitsPlain as = true) : '\n' ∉ as := fun hmem => by
  obtain hc | hc := (isBare_of_fitsPlain h).1.chars '\n' hmem <;> exact absurd hc (by decide)

theorem not_mem_lead (place : Place) : '\n' ∉ place.lead := by
  unfold Place.lead
  split <;> simp

theorem not_mem_tagText (name : String) : '\n' ∉ Printer.tagText name := fun hmem =>
  absurd (isInk_of_mem_tagText hmem) (by decide)

theorem not_hyphens_tagText (name : String) (x : List Char) : ¬ ['-', '-', '-'] <+: Printer.tagText name ++ x := by
  obtain ⟨w, hw⟩ := exists_tagText name
  rw [hw]
  exact not_hyphens_head (by decide) _

/-- A value on one line has no line feed and does not begin with a row of hyphens. -/
theorem clear_of_line? (h : line? v = some (text, size)) :
    '\n' ∉ text ∧ ∀ x, x.head? ≠ some '-' → ¬ ['-', '-', '-'] <+: text ++ x := by
  have hword : ∀ {w : List Char}, fitsPlain w = true → w ≠ [] →
      '\n' ∉ w ∧ ∀ x, x.head? ≠ some '-' → ¬ ['-', '-', '-'] <+: w ++ x := fun hfits hne =>
    ⟨not_mem_of_fitsPlain hfits, fun x => not_hyphens_word (isBare_of_fitsPlain hfits).2.2 hne⟩
  have hmarked : ∀ {c : Char} {w : List Char}, '\n' ∉ c :: w → c ≠ '-' →
      '\n' ∉ c :: w ∧ ∀ x, x.head? ≠ some '-' → ¬ ['-', '-', '-'] <+: c :: w ++ x := fun hw hc =>
    ⟨hw, fun x _ => not_hyphens_head hc _⟩
  induction v using Value.induction generalizing text size with
  | @word v s hs =>
    obtain ⟨rfl, -⟩ := Prod.mk.inj (Option.some.inj ((line?_of_word? hs).symm.trans h))
    obtain ⟨hfits, hne⟩ := fitsPlain_word? hs
    exact hword hfits hne
  | str s =>
    obtain ⟨hbreak, ⟨rfl, -, hfits, hne⟩ | ⟨-, ⟨rfl, -⟩ | rfl⟩⟩ := line?_str_cases h
    · exact hword hfits hne
    · have hnone : '\n' ∉ s.toList := fun hmem => by
        have := List.any_eq_false.mp hbreak _ hmem
        exact this (by decide)
      exact hmarked (by simpa using not_mem_singleInside hnone) (by decide)
    · exact hmarked (by simpa using fun c _ => not_mem_escape c) (by decide)
  | seq vs =>
    cases vs with
    | nil =>
      obtain ⟨rfl, -⟩ := Prod.mk.inj (Option.some.inj h)
      exact hmarked (by decide) (by decide)
    | cons v vs => cases h
  | map es =>
    cases es with
    | nil =>
      obtain ⟨rfl, -⟩ := Prod.mk.inj (Option.some.inj h)
      exact hmarked (by decide) (by decide)
    | cons e es => cases h
  | tagged t v ih =>
    rw [line?] at h
    obtain ⟨⟨text', size'⟩, hline, heq⟩ := Option.map_eq_some_iff.mp h
    obtain ⟨rfl, -⟩ := Prod.mk.inj heq
    refine ⟨?_, fun x _ => by rw [List.append_assoc]; exact not_hyphens_tagText t _⟩
    have hrest := (ih hline).1
    have htag := not_mem_tagText t
    simp [hrest, htag]

/-- No line of the value is a row of hyphens, wherever the value stands in a block. -/
def IsClear (v : Value) : Prop :=
  ∀ (place : Place) (m : Nat) {bs : List Char}, place.spaced = true → isClear true bs = true →
    isClear false (node (some m) place v ++ bs) = true

theorem isClear_lineEnd (hw : '\n' ∉ w) (hb : isClear true bs = true) : isClear false (w ++ '\n' :: bs) = true :=
  (isClear_within hw).trans (by simpa [isClear] using hb)

theorem isClear_lead (place : Place) (h : isClear false x = true) : isClear false (place.lead ++ x) = true :=
  (isClear_within (not_mem_lead place)).trans h

/-- A collection begins on the line of its mark or on a line of its own. -/
theorem isClear_opening (hx : ¬ ['-', '-', '-'] <+: x) (h : isClear false x = true) (n : Nat) :
    isClear false (Printer.opening place n ++ x) = true := by
  unfold Printer.opening
  split
  · exact isClear_lead place h
  · exact isClear_lineEnd (w := []) List.not_mem_nil (isClear_line hx h n)

/-- A dash in front of a blank or a line end is no row of hyphens. -/
theorem not_hyphens_dash (hx : wordEnds x = true) : ¬ ['-', '-', '-'] <+: '-' :: x := by
  rintro ⟨y, hy⟩
  obtain rfl := (List.cons.inj hy).2
  cases hx

/-- The items of a list, the first of them indented in any way. -/
theorem isClear_items (hvs : ∀ v ∈ vs, IsClear v) (n k : Nat) (hb : isClear true bs = true) :
    isClear true (items n k vs ++ bs) = true := by
  induction vs generalizing k with
  | nil => exact hb
  | cons v vs ih =>
    obtain ⟨hv, hvs⟩ := List.forall_mem_cons.mp hvs
    have hnode := hv .item n rfl (ih hvs n)
    have htext : items n k (v :: vs) ++ bs = spaces k ++ ('-' :: (node (some n) .item v ++ (items n n vs ++ bs))) := by
      simp [items]
    rw [htext]
    exact isClear_line (not_hyphens_dash (wordEnds_node rfl _ _ _)) (by simpa [isClear] using hnode) k

theorem isClear_entry (hkey : IsClear e.1) (hvalue : IsClear e.2) (hb : isClear true bs = true) :
    isClear false (entry n e ++ bs) = true ∧ ¬ ['-', '-', '-'] <+: entry n e ++ bs := by
  obtain ⟨key, value⟩ := e
  rw [entry]
  cases hshort : Printer.shortKey? key with
  | none =>
    have hcolon : isClear false (':' :: (node (some n) .long value ++ bs)) = true := by
      simpa [isClear] using hvalue .long n rfl hb
    have hnode := hkey .long n rfl (isClear_line (not_hyphens_head (by decide) _) hcolon n)
    simp only [List.append_assoc, List.cons_append]
    exact ⟨by simpa [isClear] using hnode, not_hyphens_head (by decide) _⟩
  | some text =>
    obtain ⟨size, hline⟩ := exists_of_shortKey? hshort
    obtain ⟨hnone, hbegins⟩ := clear_of_line? hline
    have hcolon : isClear false (':' :: (node (some n) .short value ++ bs)) = true := by
      simpa [isClear] using hvalue .short n rfl hb
    simp only [List.append_assoc, List.cons_append]
    exact ⟨(isClear_within hnone).trans hcolon, hbegins _ (by simp)⟩

/-- The entries of a mapping, the first of them indented in any way. -/
theorem isClear_entries (hes : ∀ e ∈ es, IsClear e.1 ∧ IsClear e.2) (n k : Nat) (hb : isClear true bs = true) :
    isClear true (entries n k es ++ bs) = true := by
  induction es generalizing k with
  | nil => exact hb
  | cons e es ih =>
    obtain ⟨⟨hkey, hvalue⟩, hes⟩ := List.forall_mem_cons.mp hes
    obtain ⟨hclear, hbegins⟩ := isClear_entry (n := n) hkey hvalue (ih hes n)
    have htext : entries n k (e :: es) ++ bs = spaces k ++ (entry n e ++ (entries n n es ++ bs)) := by
      simp [entries]
    rw [htext]
    exact isClear_line hbegins hclear k

theorem isClear_value (v : Value) : IsClear v := by
  induction v using Value.induction with
  | @word v s hs =>
    intro place m bs _ hb
    have hnone := not_mem_of_fitsPlain (fitsPlain_word? hs).1
    simpa [node_of_word? hs] using isClear_lead place (isClear_lineEnd hnone hb)
  | str s =>
    intro place m bs _ hb
    simpa [node, Printer.textMargin] using isClear_lead place (isClear_string s hb)
  | seq vs ih =>
    intro place m bs _ hb
    rw [node]
    split
    · simpa using isClear_lead place (isClear_lineEnd (w := ['[', ']']) (by decide) hb)
    · obtain ⟨v, vs, rfl⟩ := List.exists_cons_of_ne_nil (fun hnil => by simp_all : vs ≠ [])
      rw [List.append_assoc]
      refine isClear_opening ?_ (isClear_false_of_true (isClear_items ih _ 0 hb)) _
      rw [items_cons]
      exact not_hyphens_dash (wordEnds_node rfl _ _ _)
  | map es ih =>
    intro place m bs _ hb
    rw [node]
    split
    · simpa using isClear_lead place (isClear_lineEnd (w := ['\x7b', '\x7d']) (by decide) hb)
    · obtain ⟨e, es, rfl⟩ := List.exists_cons_of_ne_nil (fun hnil => by simp_all : es ≠ [])
      obtain ⟨⟨hkey, hvalue⟩, hes⟩ := List.forall_mem_cons.mp ih
      rw [List.append_assoc, entries_cons]
      obtain ⟨hclear, hbegins⟩ := isClear_entry (n := Printer.entryMargin (some m)) hkey hvalue
        (isClear_entries hes (Printer.entryMargin (some m)) (Printer.entryMargin (some m)) hb)
      exact isClear_opening hbegins hclear _
  | tagged t v ih =>
    intro place m bs _ hb
    have hnode := ih place.tagged m rfl hb
    simpa [node] using isClear_lead place ((isClear_within (not_mem_tagText t)).trans hnode)

end Values

section Splitting

theorem isClear_append_feed {atStart : Bool} (h : isClear atStart as = true) : isClear atStart (as ++ ['\n']) = true := by
  induction as generalizing atStart with
  | nil => cases atStart <;> rfl
  | cons a as ih =>
    rw [isClear, Bool.and_eq_true] at h
    have hmark : ['-', '-', '-'].isPrefixOf (a :: (as ++ ['\n'])) = ['-', '-', '-'].isPrefixOf (a :: as) := by
      cases as with
      | nil => simp [List.isPrefixOf]
      | cons d as => cases as <;> simp [List.isPrefixOf]
    rw [List.cons_append, isClear, hmark, Bool.and_eq_true]
    exact ⟨h.1, ih h.2⟩

/-- The front matter ends in front of the rule. -/
theorem cut?_ruled (hclear : isClear true as = true) (hend : EndsLine as) (bs : List Char) :
    cut? (lines (as ++ (['-', '-', '-', '\n'] ++ bs))) = some (as, bs) := by
  have hrule : cut? (lines (['-', '-', '-', '\n'] ++ bs)) = some ([], bs) := by
    rw [lines_append (.inr (rfl : EndsLine ['-', '-', '-', '\n']))]
    exact congrArg (fun body => some ([], body)) (flatten_lines bs)
  rw [lines_append (.inr hend), cut?_append (not_isDelimiter_of_isClear hclear), hrule]
  simp

/-- The lines of a front matter are those of a mapping, and perhaps a line feed at the end. -/
theorem exists_frontLines_eq {t : Task} (h : frontMatter t = .map es) (hne : es ≠ []) :
    ∃ fed x, frontLines t = entries 0 0 es ++ x ∧ Follows (entries 0 0 es) fed x 0 [] ∧ EndsLine (frontLines t) ∧
      isClear true (frontLines t) = true := by
  have hnode : node none .root (frontMatter t) = entries 0 0 es := by
    simp [h, hne, node, Printer.opening, Printer.Place.root, Printer.Place.lead, Printer.entryMargin]
  have hclear : isClear true (entries 0 0 es ++ []) = true :=
    isClear_entries (fun e _ => ⟨isClear_value e.1, isClear_value e.2⟩) 0 0 rfl
  rw [List.append_nil] at hclear
  simp only [frontLines, hnode]
  split
  · rename_i hlast
    exact ⟨false, [], (List.append_nil _).symm, .token (k := 0) beginsToken_nil, hlast, hclear⟩
  · rename_i hlast
    exact ⟨true, ['\n'], rfl, .feed hlast, .append (rfl : EndsLine ['\n']) _, isClear_append_feed hclear⟩

end Splitting

end Workboard.Record
