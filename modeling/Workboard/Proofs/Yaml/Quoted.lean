import Workboard.Proofs.Yaml.Gaps

/-!
# Scalars in quotes

Any text is read back from double quotes, and from single quotes each text that fits there.
-/
namespace Workboard.Yaml

namespace Lexer
open Printer

section Escapes

/-- The escape of a character, without its backslash, is read as the character. -/
def IsEscape (c : Char) (e : List Char) : Prop :=
  escape? e = some (c, e.length) ∧ ∀ d ∈ e.head?, isBreak d = false

-- the head is looked at, not every character
instance (c : Char) (e : List Char) : Decidable (IsEscape c e) :=
  @instDecidableAnd _ _ inferInstance (Option.decidableForallMem e.head?)

theorem escape?_append {c : Char} {e : List Char} (h : escape? e = some (c, e.length)) (r : List Char) :
    escape? (e ++ r) = some (c, e.length) := by
  cases e with
  | nil => cases h
  | cons d ds =>
    rw [escape?] at h
    rw [List.cons_append, escape?]
    cases hdigits : escapeDigits? d with
    | none =>
      simp only [hdigits] at h ⊢
      exact h
    | some count =>
      simp only [hdigits] at h ⊢
      obtain ⟨n, hn, hrest⟩ := Option.bind_eq_some_iff.mp h
      obtain ⟨c', hc', heq⟩ := Option.bind_eq_some_iff.mp hrest
      obtain ⟨rfl, hlen⟩ := Prod.mk.inj (Option.some.inj heq)
      -- the digits are all of the escape, so nothing after it counts
      have hds : ds.length = count := by simpa using hlen.symm
      have hnumber : hexNumber? count (ds ++ r) = some n := by
        rw [← hn]
        simp [hexNumber?, ← hds]
      rw [hnumber]
      simp [hc', hds]

/-- The character has an escape that is read as it. -/
def escapesWell (c : Char) : Bool :=
  match escape c with
  | '\\' :: e => decide (IsEscape c e)
  | _ => false

theorem exists_isEscape {c : Char} (h : escapesWell c = true) :
    ∃ e, escape c = '\\' :: e ∧ IsEscape c e := by
  unfold escapesWell at h
  split at h
  · rename_i e he
    exact ⟨e, he, by simpa using h⟩
  · cases h

theorem escapesWell_small : ∀ n < 0xA0,
    (isPrinted (Char.ofNat n) && !isBreak (Char.ofNat n)) || escapesWell (Char.ofNat n) = true := by
  decide +kernel

/-- A character that may not stand as itself is a small one, or one of five others. -/
theorem small_or_mem_of_not_printed {c : Char} (h : ¬ (isPrinted c && !isBreak c) = true) :
    c.toNat < 0xA0 ∨ c ∈ ['\u2028', '\u2029', '\uFEFF', '\uFFFE', '\uFFFF'] := by
  have hof : ∀ n, c.toNat = n → c = Char.ofNat n := fun n hn => hn ▸ (Char.ofNat_toNat c).symm
  by_cases hsmall : c.toNat < 0xA0
  · exact .inl hsmall
  right
  by_cases hbreak : isBreak c = true
  · rcases (by simpa [isBreak, or_assoc] using hbreak) with rfl | rfl | rfl | rfl | rfl
    · exact absurd (by decide) hsmall
    · exact absurd (by decide) hsmall
    · exact absurd (by decide) hsmall
    · decide
    · decide
  · have hvalid : c.toNat < 0xD800 ∨ 0xDFFF < c.toNat ∧ c.toNat < 0x110000 := c.valid
    have hnot : isPrinted c = false := by simpa [hbreak] using h
    simp only [isPrinted, Bool.or_eq_false_iff, Bool.and_eq_false_iff, decide_eq_false_iff_not, ne_eq,
      Decidable.not_not] at hnot
    obtain hn | hn | hn : c.toNat = 0xFEFF ∨ c.toNat = 0xFFFE ∨ c.toNat = 0xFFFF := by omega
    · rw [hof _ hn]
      decide
    · rw [hof _ hn]
      decide
    · rw [hof _ hn]
      decide

/-- What is printed is no tab. -/
theorem space_or_isInk {c : Char} (hprinted : isPrinted c = true) (hbreak : isBreak c = false) :
    c = ' ' ∨ isInk c = true := by
  by_cases hspace : c = ' '
  · exact .inl hspace
  · have htab : c ≠ '\t' := by
      rintro rfl
      exact absurd hprinted (by decide)
    exact .inr (by simp [isInk, isSpace, hspace, htab, hbreak])

/-- A character stands for itself inside double quotes, or has an escape. -/
theorem escape_cases (c : Char) :
    (escape c = [c] ∧ c ≠ '"' ∧ c ≠ '\\' ∧ (c = ' ' ∨ isInk c = true)) ∨
      ∃ e, escape c = '\\' :: e ∧ IsEscape c e := by
  by_cases hmark : c = '"' ∨ c = '\\'
  · right
    rcases hmark with rfl | rfl
    · exact ⟨['"'], rfl, by decide⟩
    · exact ⟨['\\'], rfl, by decide⟩
  · rw [not_or] at hmark
    by_cases hprinted : (isPrinted c && !isBreak c) = true
    · left
      refine ⟨by simp [escape, hmark.1, hmark.2, hprinted], hmark.1, hmark.2, ?_⟩
      rw [Bool.and_eq_true, Bool.not_eq_true'] at hprinted
      exact space_or_isInk hprinted.1 hprinted.2
    · right
      refine exists_isEscape ?_
      obtain hsmall | hmem := small_or_mem_of_not_printed hprinted
      · have hwell := escapesWell_small c.toNat hsmall
        rw [Char.ofNat_toNat] at hwell
        simpa [hprinted] using hwell
      · have hfive : ['\u2028', '\u2029', '\uFEFF', '\uFFFE', '\uFFFF'].all escapesWell = true := by
          decide +kernel
        exact List.all_eq_true.mp hfive c hmem

end Escapes

variable {fuel i line col : Nat} {acc w r : List Char}

/-- A word in double quotes ends here. -/
def EndsDouble (r : List Char) : Prop := ∀ c ∈ r.head?, isInk c = false ∨ c = '"'

theorem quotedWord_end (h : EndsDouble r) :
    quotedWord fuel false acc ⟨r, i, line, col⟩ = some (acc, false, ⟨r, i, line, col⟩) := by
  cases fuel with
  | zero => rfl
  | succ fuel =>
    cases r with
    | nil => rfl
    | cons c r =>
      rw [quotedWord]
      obtain hc | rfl := h c rfl
      · have hblank : (isSpace c || isBreak c) = true := by
          cases hs : isSpace c <;> simp_all [isInk]
        simp [hblank]
      · simp [isSpace, isBreak]

/-- A character in double quotes, other than a space, is read as itself. -/
theorem quotedWord_escape {c : Char} (hc : c ≠ ' ') :
    quotedWord (fuel + 1) false acc ⟨escape c ++ r, i, line, col⟩ =
      quotedWord fuel false (c :: acc) ⟨r, i + (escape c).length, line, col + (escape c).length⟩ := by
  obtain ⟨hself, hquote, hback, hink⟩ | ⟨e, he, hescape, hbreak⟩ := escape_cases c
  · have hplain : isSpace c = false ∧ isBreak c = false := by simpa [isInk, hc] using hink
    rw [hself, List.cons_append, quotedWord]
    simp [hplain, hquote, hback]
  · rw [he, List.cons_append, quotedWord]
    cases e with
    | nil => cases hescape
    | cons d ds =>
      have hd : isBreak d = false := hbreak d rfl
      have hread := escape?_append hescape r
      rw [List.cons_append] at hread ⊢
      have hmany := @Spot.skipMany_mk r i line col ('\\' :: d :: ds) ((d :: ds).length + 1) rfl
      simp only [List.cons_append] at hmany
      have hblank : (isSpace '\\' || isBreak '\\') = false := by decide
      have hend : '\\' ≠ '"' := by decide
      simp only [hblank, hd, hread, hmany, hend, Bool.false_eq_true, if_false, if_true]
      rfl

/-- A word in double quotes is read up to its end. -/
theorem quotedWord_double (hfuel : w.length ≤ fuel) (hw : ' ' ∉ w) (hend : EndsDouble r) :
    quotedWord fuel false acc ⟨w.flatMap escape ++ r, i, line, col⟩ =
      some (w.reverse ++ acc, false,
        ⟨r, i + (w.flatMap escape).length, line, col + (w.flatMap escape).length⟩) := by
  induction w generalizing fuel acc i col with
  | nil => exact quotedWord_end hend
  | cons c w ih =>
    obtain ⟨fuel, rfl⟩ : ∃ k, fuel = k + 1 := ⟨fuel - 1, by simp at hfuel; omega⟩
    obtain ⟨hc, hw⟩ : ' ' ≠ c ∧ ' ' ∉ w := by simpa using hw
    rw [List.flatMap_cons, List.append_assoc, quotedWord_escape hc.symm, ih (by simpa using hfuel) hw]
    simp [Nat.add_assoc]

/-- The step of a quoted scalar from word to word. -/
theorem quotedWords_word {single : Bool} {acc' : List Char} {s t : Spot}
    (hmark : s.atDocumentMark = false) (hne : s.rest ≠ [])
    (hword : quotedWord s.rest.length single acc s = some (acc', false, t)) :
    quotedWords (fuel + 1) single acc s =
      if t.rest.head? = some (if single then '\'' else '"') then some (acc', t.skip)
      else match Gap.read t.rest.length 0 {} t with
        | none => none
        | some (g, t) => quotedWords fuel single (g.text ++ acc') t := by
  have hempty : s.rest.isEmpty = false := by simpa using hne
  simp only [quotedWords, hmark, hempty, Bool.or_self, Bool.false_eq_true, if_false, hword] <;> rfl

theorem not_atDocumentMark {s : Spot} (h : s.column ≠ 0) : s.atDocumentMark = false := by
  simp [Spot.atDocumentMark, Spot.atMark, h]

theorem beginsInk_escape {cs : List Char} (h : ∀ c ∈ cs.head?, c ≠ ' ') :
    BeginsInk (cs.flatMap escape ++ '"' :: r) := by
  cases cs with
  | nil => exact beginsInk_cons (by decide) r
  | cons c cs =>
    have hc : c ≠ ' ' := h c rfl
    rw [List.flatMap_cons, List.append_assoc]
    obtain ⟨hself, -, -, hink⟩ | ⟨e, he, -⟩ := escape_cases c
    · rw [hself]
      exact beginsInk_cons (hink.resolve_left hc) _
    · rw [he]
      exact beginsInk_cons (by decide) _

theorem escape_ne_nil (c : Char) : escape c ≠ [] := by
  obtain ⟨h, -⟩ | ⟨e, h, -⟩ := escape_cases c <;> simp [h]

theorem length_le_flatMap_escape (cs : List Char) : cs.length ≤ (cs.flatMap escape).length := by
  induction cs with
  | nil => exact Nat.le_refl 0
  | cons c cs ih =>
    have hpos : 0 < (escape c).length := List.length_pos_iff.mpr (escape_ne_nil c)
    rw [List.flatMap_cons, List.length_append, List.length_cons]
    omega

theorem flatMap_escape_spaces (n : Nat) : (List.replicate n ' ').flatMap escape = List.replicate n ' ' := by
  have hspace : escape ' ' = [' '] := by decide
  induction n with
  | zero => rfl
  | succ n ih => rw [List.replicate_succ, List.flatMap_cons, ih, hspace, List.singleton_append]

/-- A text is a word without spaces, and perhaps spaces and a text that begins with none. -/
theorem exists_word (cs : List Char) : ∃ w n v, cs = w ++ (List.replicate n ' ' ++ v) ∧ ' ' ∉ w ∧
    (∀ c ∈ v.head?, c ≠ ' ') ∧ (n = 0 → v = []) := by
  obtain ⟨w, u, rfl, hw, hu⟩ := exists_stretch (· ≠ ' ') cs
  obtain ⟨n, v, rfl, hv⟩ := exists_spaces u
  refine ⟨w, n, v, rfl, fun hmem => by simpa using hw ' ' hmem, hv, ?_⟩
  rintro rfl
  cases v with
  | nil => rfl
  | cons c v =>
    have hspace : c = ' ' := by simpa using hu c rfl
    exact absurd hspace (hv c rfl)

/-- A text in double quotes is read back, whatever follows it. -/
theorem quotedWords_double {cs : List Char} (hfuel : cs.length < fuel) (hcol : col ≠ 0) :
    quotedWords fuel false acc ⟨cs.flatMap escape ++ '"' :: r, i, line, col⟩ =
      some (cs.reverse ++ acc, ⟨r, i + (cs.flatMap escape).length + 1, line,
        col + (cs.flatMap escape).length + 1⟩) := by
  induction fuel generalizing cs acc i col with
  | zero => exact absurd hfuel (Nat.not_lt_zero _)
  | succ fuel ih =>
    -- a word, spaces, and the rest
    obtain ⟨w, n, v, rfl, hw, hv, hnil⟩ := exists_word cs
    have hread : ∀ r', EndsDouble r' → quotedWord (w.flatMap escape ++ r').length false acc
        ⟨w.flatMap escape ++ r', i, line, col⟩ = some (w.reverse ++ acc, false,
          ⟨r', i + (w.flatMap escape).length, line, col + (w.flatMap escape).length⟩) := by
      intro r' hend
      refine quotedWord_double ?_ hw hend
      have hlen := length_le_flatMap_escape w
      rw [List.length_append]
      omega
    cases n with
    | zero =>
      obtain rfl := hnil rfl
      have hend : EndsDouble ('"' :: r) := by simp [EndsDouble]
      have hword := @quotedWords_word fuel _ _ _ ⟨w.flatMap escape ++ '"' :: r, i, line, col⟩ _
          (not_atDocumentMark hcol) (by simp) (hread _ hend)
      simp only [List.replicate_zero, List.append_nil, List.head?_cons, Bool.false_eq_true, if_false,
        if_true, Spot.skip_mk] at hword ⊢
      rw [hword]
    | succ n =>
      have hvink : BeginsInk (v.flatMap escape ++ '"' :: r) := beginsInk_escape hv
      have hend : EndsDouble (List.replicate (n + 1) ' ' ++ (v.flatMap escape ++ '"' :: r)) := by
        simp [EndsDouble, List.replicate_succ, isInk, isSpace]
      have hword := @quotedWords_word fuel _ _ _
          ⟨w.flatMap escape ++ (List.replicate (n + 1) ' ' ++ (v.flatMap escape ++ '"' :: r)),
          i, line, col⟩ _ (not_atDocumentMark hcol) (by simp) (hread _ hend)
      have hgap := @Gap.read_blanks 0 (n + 1) (i + (w.flatMap escape).length) line (col + (w.flatMap escape).length)
          _ hvink
      have hfirst : (List.replicate (n + 1) ' ' ++ (v.flatMap escape ++ '"' :: r)).head? = some ' ' := by
        rw [List.replicate_succ, List.cons_append, List.head?_cons]
      simp only [List.length_append, List.length_replicate] at hfuel
      have htext : (w ++ (List.replicate (n + 1) ' ' ++ v)).flatMap escape ++ '"' :: r =
          w.flatMap escape ++ (List.replicate (n + 1) ' ' ++ (v.flatMap escape ++ '"' :: r)) := by
        rw [List.flatMap_append, List.flatMap_append, flatMap_escape_spaces, List.append_assoc, List.append_assoc]
      rw [htext, hword, if_neg (by rw [hfirst]; decide), hgap]
      simp only
      rw [ih (by omega) (by omega)]
      simp [Gap.text, flatMap_escape_spaces, Nat.add_assoc, Nat.add_comm, Nat.add_left_comm]

/-- A text in double quotes is read back. -/
theorem quotedScalar_double {cs : List Char} (hcol : col ≠ 0) :
    quotedScalar false ⟨cs.flatMap escape ++ '"' :: r, i, line, col⟩ =
      some (String.ofList cs, ⟨r, i + (cs.flatMap escape).length + 1, line,
        col + (cs.flatMap escape).length + 1⟩) := by
  have hlen := length_le_flatMap_escape cs
  rw [quotedScalar, quotedWords_double (by simp only [List.length_append]; omega) hcol]
  simp

section Single

/-- A text that single quotes can hold: its line ends are the two that are not folded, and
no space stands beside a line end. -/
structure IsSingle (cs : List Char) : Prop where
  chars : ∀ c ∈ cs, c = ' ' ∨ isInk c = true ∨ c = '\u2028' ∨ c = '\u2029'
  noSpaceBefore : hasPair (· = ' ') isBreak cs = false
  noSpaceAfter : hasPair isBreak (· = ' ') cs = false

/-- A character inside single quotes. -/
def doubled (c : Char) : List Char := if c = '\'' then ['\'', '\''] else [c]

theorem singleInside_word {m : Nat} (hw : ∀ c ∈ w, isBreak c = false) (v : List Char) :
    singleInside m false (w ++ v) = w.flatMap doubled ++ singleInside m false v := by
  induction w with
  | nil => rfl
  | cons c w ih =>
    rw [List.cons_append, singleInside, hw c List.mem_cons_self, if_neg Bool.false_ne_true,
      if_neg Bool.false_ne_true, ih fun d hd => hw d (List.mem_cons_of_mem _ hd), List.flatMap_cons,
      List.nil_append, List.append_assoc]
    rfl

theorem singleInside_ends {m : Nat} {bs v : List Char} (hbs : ∀ b ∈ bs, isBreak b = true)
    (hv : ∀ c ∈ v.head?, isBreak c = false) :
    singleInside m true (bs ++ v) = bs ++ (spaces m ++ singleInside m false v) := by
  induction bs with
  | nil =>
    cases v with
    | nil => simp [singleInside]
    | cons c v =>
      have hc : isBreak c = false := hv c rfl
      simp [singleInside, hc]
  | cons b bs ih =>
    rw [List.cons_append, singleInside, if_pos (hbs b List.mem_cons_self),
      ih fun d hd => hbs d (List.mem_cons_of_mem _ hd)]
    rfl

/-- A word in single quotes ends here. -/
def EndsSingle (r : List Char) : Prop :=
  ∀ c ∈ r.head?, isInk c = false ∨ c = '\'' ∧ r.tail.head? ≠ some '\''

theorem quotedWord_single (hfuel : w.length ≤ fuel) (hw : ∀ c ∈ w, isInk c = true) (hend : EndsSingle r) :
    quotedWord fuel true acc ⟨w.flatMap doubled ++ r, i, line, col⟩ =
      some (w.reverse ++ acc, false,
        ⟨r, i + (w.flatMap doubled).length, line, col + (w.flatMap doubled).length⟩) := by
  induction w generalizing fuel acc i col with
  | nil =>
    cases fuel with
    | zero => rfl
    | succ fuel =>
      cases r with
      | nil => rfl
      | cons c r =>
        rw [List.flatMap_nil, List.nil_append, quotedWord]
        obtain hc | ⟨rfl, hr⟩ := hend c rfl
        · have hblank : (isSpace c || isBreak c) = true := by
            cases hs : isSpace c <;> simp_all [isInk]
          simp [hblank]
        · rw [List.tail_cons] at hr
          simp [isSpace, isBreak, hr]
  | cons c w ih =>
    obtain ⟨fuel, rfl⟩ : ∃ k, fuel = k + 1 := ⟨fuel - 1, by simp at hfuel; omega⟩
    have hc : isSpace c = false ∧ isBreak c = false := by
      simpa [isInk] using hw c List.mem_cons_self
    have hrest := fun i col => @ih _ i col (c :: acc)
      (by simpa using hfuel) fun d hd => hw d (List.mem_cons_of_mem _ hd)
    by_cases hquote : c = '\''
    · subst hquote
      have hmany := @Spot.skipMany_mk (w.flatMap doubled ++ r) i line col ['\'', '\''] 2 rfl
      simp only [List.flatMap_cons, doubled, if_true, List.cons_append, List.nil_append] at hmany ⊢
      rw [quotedWord]
      simp only [hc.1, hc.2, Bool.or_self, Bool.false_eq_true, if_false, if_true, List.head?_cons, hmany]
      rw [hrest]
      simp
      omega
    · simp only [List.flatMap_cons, doubled, hquote, if_false, List.cons_append, List.nil_append]
      rw [quotedWord]
      simp only [hc.1, hc.2, Bool.or_self, Bool.false_eq_true, if_false, if_true, hquote, Spot.skip_mk]
      rw [hrest]
      simp [Nat.add_assoc, Nat.add_comm]

theorem length_doubled_pos (c : Char) : 0 < (doubled c).length := by
  unfold doubled
  split <;> simp

theorem length_le_flatMap_doubled (cs : List Char) : cs.length ≤ (cs.flatMap doubled).length := by
  induction cs with
  | nil => exact Nat.le_refl 0
  | cons c cs ih =>
    have hpos := length_doubled_pos c
    rw [List.flatMap_cons, List.length_append, List.length_cons]
    omega

theorem IsSingle.of_append {as bs : List Char} (h : IsSingle (as ++ bs)) : IsSingle bs :=
  ⟨fun c hc => h.chars c (List.mem_append_right _ hc), hasPair_append_right h.noSpaceBefore,
    hasPair_append_right h.noSpaceAfter⟩

theorem IsSingle.isBreak_cases {cs : List Char} (h : IsSingle cs) {c : Char} (hc : c ∈ cs) (hb : isBreak c = true) :
    c = '\u2028' ∨ c = '\u2029' := by
  obtain rfl | hink | hc := h.chars c hc
  · exact absurd hb (by decide)
  · exact absurd hb (by simp_all [isInk])
  · exact hc

/-- After spaces stands no line end. -/
theorem IsSingle.beginsInk_of_space {as v : List Char} (h : IsSingle (as ++ ' ' :: v))
    (hv : ∀ c ∈ v.head?, c ≠ ' ') : BeginsInk v := by
  cases v with
  | nil => exact beginsInk_nil
  | cons c v =>
    have hpair : isBreak c = false := not_pair_of_hasPair h.noSpaceBefore rfl
    refine beginsInk_cons ?_ v
    obtain hspace | hink | rfl | rfl := h.chars c (by simp)
    · exact absurd hspace (hv c rfl)
    · exact hink
    · exact absurd hpair (by decide)
    · exact absurd hpair (by decide)

/-- After line ends stands no space. -/
theorem IsSingle.beginsInk_of_break {as v : List Char} {b : Char} (h : IsSingle (as ++ b :: v))
    (hb : isBreak b = true) (hv : ∀ c ∈ v.head?, isBreak c = false) : BeginsInk v := by
  cases v with
  | nil => exact beginsInk_nil
  | cons c v =>
    have hpair : decide (c = ' ') = false := not_pair_of_hasPair h.noSpaceAfter hb
    have hnot : isBreak c = false := hv c rfl
    refine beginsInk_cons ?_ v
    obtain hspace | hink | rfl | rfl := h.chars c (by simp)
    · exact absurd hspace (of_decide_eq_false hpair)
    · exact hink
    · exact absurd hnot (by decide)
    · exact absurd hnot (by decide)

/-- A text in single quotes is a word and the gap after it, of spaces or of line ends, and
after the gap a text of the same kind. -/
theorem IsSingle.split {cs : List Char} (h : IsSingle cs) :
    ∃ w u v, cs = w ++ (u ++ v) ∧ (∀ c ∈ w, isInk c = true) ∧ IsSingle v ∧ BeginsInk v ∧
      (u = [] → v = []) ∧
      ((∃ n, u = List.replicate n ' ') ∨ ∀ c ∈ u, c = '\u2028' ∨ c = '\u2029') := by
  obtain ⟨w, u, rfl, hw, hu⟩ := exists_stretch isInk cs
  cases u with
  | nil => exact ⟨w, [], [], rfl, hw, h.of_append, beginsInk_nil, fun _ => rfl, .inl ⟨0, rfl⟩⟩
  | cons d u =>
    have hd : isInk d = false := hu d rfl
    by_cases hspace : d = ' '
    · subst hspace
      obtain ⟨n, v, rfl, hv⟩ := exists_spaces u
      refine ⟨w, List.replicate (n + 1) ' ', v, rfl, hw, (@IsSingle.of_append [' '] _ h.of_append).of_append,
        ?_, by simp, .inl ⟨n + 1, rfl⟩⟩
      refine @IsSingle.beginsInk_of_space (w ++ List.replicate n ' ') v ?_ hv
      rwa [List.append_assoc, List.append_cons, ← List.replicate_succ', List.replicate_succ, List.cons_append]
    · -- what is neither ink nor a space is a line end
      have hbreak : isBreak d = true := by
        obtain hc | hc | rfl | rfl := h.chars d (by simp)
        · exact absurd hc hspace
        · exact absurd hc (by simp [hd])
        · decide
        · decide
      obtain ⟨bs, v, hbsv, hbs, hv⟩ := exists_stretch isBreak (d :: u)
      rw [hbsv] at h ⊢
      have hne : bs ≠ [] := by
        rintro rfl
        have hnot := hv d (by rw [List.nil_append] at hbsv; rw [← hbsv]; rfl)
        rw [hbreak] at hnot
        cases hnot
      obtain ⟨bs', b, rfl⟩ : ∃ bs' b, bs = bs' ++ [b] := ⟨_, _, (List.dropLast_concat_getLast hne).symm⟩
      exact ⟨w, bs' ++ [b], v, rfl, hw, h.of_append.of_append,
        @IsSingle.beginsInk_of_break (w ++ bs') v b (by simpa using h) (hbs b (by simp)) hv,
        fun hnil => absurd hnil hne,
        .inr fun c hc => h.isBreak_cases (List.mem_append_right _ (List.mem_append_left _ hc)) (hbs c hc)⟩

/-- The gaps of a text in single quotes. -/
def IsSingleGap (u : List Char) : Prop :=
  (∃ n, u = List.replicate n ' ') ∨ ∀ c ∈ u, c = '\u2028' ∨ c = '\u2029'

theorem singleInside_gap {m : Nat} {u v : List Char} (hu : IsSingleGap u) (hne : u ≠ [])
    (hv : BeginsInk v) :
    singleInside m false (u ++ v) = singleInside m false u ++ singleInside m false v := by
  obtain ⟨n, rfl⟩ | hbs := hu
  · have hspaces : ∀ c ∈ List.replicate n ' ', isBreak c = false := fun c hc => by
      rw [List.eq_of_mem_replicate hc]
      decide
    have hword := singleInside_word (m := m) hspaces []
    rw [List.append_nil] at hword
    rw [singleInside_word hspaces, hword, singleInside, if_neg Bool.false_ne_true, List.append_nil]
  · have hbreak : ∀ c ∈ u, isBreak c = true := fun c hc => by
      rcases hbs c hc with rfl | rfl <;> decide
    have hvb : ∀ c ∈ v.head?, isBreak c = false := fun c hc => by
      have := hv c hc
      simp_all [isInk]
    obtain ⟨b, bs, rfl⟩ := List.exists_cons_of_ne_nil hne
    obtain ⟨hb, hbs⟩ := List.forall_mem_cons.mp hbreak
    have hends := singleInside_ends (m := m) hbs hvb
    have hends' := singleInside_ends (m := m) (v := []) hbs (by simp)
    rw [List.append_nil] at hends'
    rw [List.cons_append, singleInside, if_pos hb, singleInside, if_pos hb, hends, hends', singleInside,
      if_neg Bool.false_ne_true, List.append_nil, List.cons_append, List.append_assoc]

/-- A gap in single quotes is read as it stands. -/
theorem read_singleGap {m : Nat} {u : List Char} (hu : IsSingleGap u) (hcol : col ≠ 0)
    (hm : m ≠ 0 ∨ ∀ c ∈ u, isBreak c = false) (hr : BeginsInk r) :
    ∃ g col', g.text = u.reverse ∧ col' ≠ 0 ∧ (u.countP isBreak = 0 → col ≤ col') ∧
      Gap.read (singleInside m false u ++ r).length 0 {} ⟨singleInside m false u ++ r, i, line, col⟩ =
        some (g, ⟨r, i + (singleInside m false u).length, line + u.countP isBreak, col'⟩) := by
  obtain ⟨n, rfl⟩ | hbs := hu
  · have hspaces : ∀ c ∈ List.replicate n ' ', isBreak c = false := fun c hc => by
      rw [List.eq_of_mem_replicate hc]
      decide
    have hword := singleInside_word (m := m) hspaces []
    have hdoubled : (List.replicate n ' ').flatMap doubled = List.replicate n ' ' := by
      simp [List.flatMap_replicate, doubled]
    rw [List.append_nil, singleInside, if_neg Bool.false_ne_true, List.append_nil, hdoubled] at hword
    have hcount : (List.replicate n ' ').countP isBreak = 0 := List.countP_eq_zero.mpr fun c hc => by
      simp [hspaces c hc]
    refine ⟨{ blanks := List.replicate n ' ' }, col + n, by simp [Gap.text], by omega,
      fun _ => Nat.le_add_right _ _, ?_⟩
    rw [hword, Gap.read_blanks hr, List.length_replicate, hcount, Nat.add_zero]
  · cases u with
    | nil => exact ⟨{}, col, rfl, hcol, fun _ => Nat.le_refl _, Gap.read_of_beginsInk hr⟩
    | cons b bs =>
      have hplain : ∀ c ∈ b :: bs, isPlainBreak c = true ∧ isBreak c = true ∧ c ≠ '\n' := fun c hc => by
        rcases hbs c hc with rfl | rfl <;> decide
      have hb := hplain b List.mem_cons_self
      have hmpos : m ≠ 0 := hm.resolve_right fun h => by simp [h b List.mem_cons_self] at hb
      have hends := singleInside_ends (m := m) (v := [])
        (fun c hc => (hplain c (List.mem_cons_of_mem _ hc)).2.1) (by simp)
      rw [List.append_nil, singleInside, if_neg Bool.false_ne_true, List.append_nil] at hends
      have hcount : (b :: bs).countP isBreak = bs.length + 1 := by
        rw [List.countP_eq_length.mpr fun c hc => (hplain c hc).2.1, List.length_cons]
      refine ⟨{ first := [b], more := bs.reverse, broken := true }, m, by simp [Gap.text, hb.2.2], hmpos,
        fun h => by omega, ?_⟩
      rw [singleInside, if_pos hb.2.1, hends, hcount]
      have hlen : (b :: (bs ++ spaces m) ++ r).length = r.length + m + bs.length + 1 := by
        simp only [spaces, List.length_append, List.length_cons, List.length_replicate]
        omega
      rw [hlen, List.cons_append, Gap.read_break _ hb.1, if_neg Bool.false_ne_true, List.append_assoc,
        Gap.read_breaks rfl fun c hc => (hplain c (List.mem_cons_of_mem _ hc)).1, spaces,
        Gap.read_indent rfl, Gap.read_of_beginsInk hr]
      have hzero : (if bs = [] then 0 else 0) = 0 := ite_self 0
      simp only [hzero, List.append_nil, Nat.zero_add, List.length_cons, List.length_append,
        List.length_replicate, Option.some.injEq, Prod.mk.injEq, Spot.mk.injEq, true_and, and_true]
      omega

theorem beginsInk_singleInside {m : Nat} {v : List Char} (hv : BeginsInk v) :
    BeginsInk (singleInside m false v ++ '\'' :: r) := by
  cases v with
  | nil => exact beginsInk_cons (by decide) r
  | cons c v =>
    have hc : isInk c = true := hv c rfl
    have hb : isBreak c = false := by simp_all [isInk]
    rw [singleInside, hb, if_neg Bool.false_ne_true, if_neg Bool.false_ne_true]
    by_cases hquote : c = '\''
    · simpa [hquote] using beginsInk_cons (by decide) _
    · simpa [hquote] using beginsInk_cons hc _

theorem exists_cons_singleGap {m : Nat} {u : List Char} (hu : IsSingleGap u) (hne : u ≠ []) :
    ∃ c u', singleInside m false u = c :: u' ∧ isInk c = false := by
  obtain ⟨c, v, rfl⟩ := List.exists_cons_of_ne_nil hne
  obtain ⟨n, hn⟩ | hbs := hu
  · obtain rfl : c = ' ' := List.eq_of_mem_replicate (n := n) (by simp [← hn])
    exact ⟨' ', singleInside m false v, rfl, by decide⟩
  · have hc : isBreak c = true ∧ isInk c = false := by
      rcases hbs c List.mem_cons_self with rfl | rfl <;> decide
    exact ⟨c, singleInside m true v, by rw [singleInside, if_pos hc.1], hc.2⟩

theorem length_le_singleInside (m : Nat) (atStart : Bool) (cs : List Char) :
    cs.length ≤ (singleInside m atStart cs).length := by
  induction cs generalizing atStart with
  | nil => exact Nat.zero_le _
  | cons c cs ih =>
    have htrue := ih true
    have hfalse := ih false
    have hpos : 0 < (doubled c).length := length_doubled_pos c
    rw [singleInside]
    split
    · simpa using htrue
    · simp only [List.length_append, List.length_cons, doubled] at hpos ⊢
      omega

/-- A text in single quotes is read back; its line ends are counted. Without one the columns
go on. -/
theorem quotedWords_single {m : Nat} {cs : List Char} (h : IsSingle cs) (hfuel : cs.length < fuel)
    (hcol : col ≠ 0) (hm : m ≠ 0 ∨ ∀ c ∈ cs, isBreak c = false) (hr : r.head? ≠ some '\'') :
    ∃ col', (cs.countP isBreak = 0 → col ≤ col') ∧ quotedWords fuel true acc ⟨singleInside m false cs ++ '\'' :: r, i, line, col⟩ =
      some (cs.reverse ++ acc, ⟨r, i + (singleInside m false cs).length + 1,
        line + cs.countP isBreak, col'⟩) := by
  induction fuel generalizing cs acc i line col with
  | zero => exact absurd hfuel (Nat.not_lt_zero _)
  | succ fuel ih =>
    obtain ⟨w, u, v, rfl, hw, hv, hvink, hnil, hu⟩ := h.split
    have hnobreak : ∀ c ∈ w, isBreak c = false := fun c hc => by
      have := hw c hc
      simp_all [isInk]
    have hcount : w.countP isBreak = 0 := List.countP_eq_zero.mpr fun c hc => by simp [hnobreak c hc]
    have hread : ∀ r', EndsSingle r' → quotedWord (w.flatMap doubled ++ r').length true acc
        ⟨w.flatMap doubled ++ r', i, line, col⟩ = some (w.reverse ++ acc, false,
          ⟨r', i + (w.flatMap doubled).length, line, col + (w.flatMap doubled).length⟩) := by
      intro r' hend
      refine quotedWord_single ?_ hw hend
      have hlen := length_le_flatMap_doubled w
      rw [List.length_append]
      omega
    have hstep : ∀ r', EndsSingle r' → r' ≠ [] → quotedWords (fuel + 1) true acc
        ⟨w.flatMap doubled ++ r', i, line, col⟩ = _ := fun r' hend hne =>
      @quotedWords_word _ _ _ _ ⟨w.flatMap doubled ++ r', i, line, col⟩ _ (not_atDocumentMark hcol)
          (by simp [hne]) (hread _ hend)
    rw [singleInside_word hnobreak, List.append_assoc]
    by_cases hne : u = []
    · obtain rfl := hnil hne
      subst hne
      have hend : EndsSingle ('\'' :: r) := by simpa [EndsSingle] using .inr hr
      refine ⟨col + (w.flatMap doubled).length + 1, fun _ => by omega, ?_⟩
      rw [List.append_nil, singleInside, if_neg Bool.false_ne_true, List.nil_append, hstep _ hend (by simp)]
      simp [hcount]
    · have hrest : BeginsInk (singleInside m false v ++ '\'' :: r) := beginsInk_singleInside hvink
      obtain ⟨g, col', htext, hcol', hle, hgap⟩ := @read_singleGap (i + (w.flatMap doubled).length) _
          (col + (w.flatMap doubled).length) _ m _ hu (by omega) (hm.imp_right fun h c hc => h c (by simp [hc]))
          hrest
      obtain ⟨col'', hle', hih⟩ := @ih (i + (w.flatMap doubled).length + (singleInside m false u).length)
        (line + u.countP isBreak) _ (u.reverse ++ (w.reverse ++ acc)) _ hv
        (by have := List.length_pos_iff.mpr hne; simp only [List.length_append] at hfuel; omega) hcol'
        (hm.imp_right fun h c hc => h c (by simp [hc]))
      obtain ⟨c, u', hbegin, hc⟩ := exists_cons_singleGap (m := m) hu hne
      rw [hbegin, List.cons_append] at hgap
      refine ⟨col'', fun hzero => ?_, ?_⟩
      · simp only [List.countP_append] at hzero
        have := hle (by omega)
        have := hle' (by omega)
        omega
      rw [singleInside_gap hu hne hvink, List.append_assoc, hbegin, List.cons_append,
        hstep _ (by simp [EndsSingle, hc]) (List.cons_ne_nil _ _), if_neg ?_, hgap]
      · simp only [htext, hih, List.reverse_append, List.append_assoc, List.countP_append, hcount,
          ← hbegin, List.length_append]
        simp only [Option.some.injEq, Prod.mk.injEq, Spot.mk.injEq, true_and, and_true]
        omega
      · rintro hquote
        obtain rfl := Option.some.inj hquote
        exact absurd hc (by decide)

/-- A text in single quotes is read back. -/
theorem quotedScalar_single {m : Nat} {cs : List Char} (h : IsSingle cs)
    (hcol : col ≠ 0) (hm : m ≠ 0 ∨ ∀ c ∈ cs, isBreak c = false) (hr : r.head? ≠ some '\'') :
    ∃ col', (cs.countP isBreak = 0 → col ≤ col') ∧ quotedScalar true ⟨singleInside m false cs ++ '\'' :: r, i, line, col⟩ =
      some (String.ofList cs, ⟨r, i + (singleInside m false cs).length + 1,
        line + cs.countP isBreak, col'⟩) := by
  have hlen := length_le_singleInside m false cs
  obtain ⟨col', hle, hwords⟩ := @quotedWords_single ((singleInside m false cs ++ '\'' :: r).length + 1) i _ _ _
      _ _ _ h (by simp only [List.length_append]; omega) hcol hm hr
  refine ⟨col', hle, ?_⟩
  rw [quotedScalar, hwords]
  simp

end Single

end Lexer

end Workboard.Yaml
