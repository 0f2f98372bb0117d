import Workboard.Proofs.Yaml.Gaps

/-!
# Plain scalars

A text that fits without quotes is read back as it stands, be it a key or a value that is
followed by a line end.
-/
namespace Workboard.Yaml

namespace Lexer

/-- The inside of a text that stands without quotes: its words are held apart by spaces, and
no mark of a value or a comment is in it. -/
structure IsBare (cs : List Char) : Prop where
  chars : ∀ c ∈ cs, c = ' ' ∨ isInk c = true
  noValue : hasPair (· = ':') (fun c => isSpace c || isBreak c) cs = false
  noComment : hasPair (fun c => isSpace c || isBreak c) (· = '#') cs = false
  lastInk : ∀ c ∈ cs.getLast?, isInk c = true ∧ c ≠ ':'

theorem IsBare.of_append {as bs : List Char} (h : IsBare (as ++ bs)) : IsBare bs := by
  refine ⟨fun c hc => h.chars c (List.mem_append_right _ hc), hasPair_append_right h.noValue,
    hasPair_append_right h.noComment, fun c hc => h.lastInk c ?_⟩
  rw [List.getLast?_append, Option.mem_def.mp hc]
  rfl

variable {fuel i line col : Nat} {margin : Int} {acc w r : List Char}

/-- A word without marks is read up to its end. -/
theorem plainWord_append (h : w.length ≤ fuel) (hink : ∀ c ∈ w, isInk c = true)
    (hlast : ∀ c ∈ w.getLast?, c ≠ ':') (hend : plainEnds false r = true) :
    plainWord fuel false acc ⟨w ++ r, i, line, col⟩ =
      some (w.reverse ++ acc, ⟨r, i + w.length, line, col + w.length⟩) := by
  induction w generalizing fuel acc i col with
  | nil =>
    cases fuel with
    | zero => rfl
    | succ fuel =>
      cases r with
      | nil => rfl
      | cons c r =>
        simp only [List.nil_append, plainWord, Bool.false_and, Bool.false_eq_true, if_false, hend, if_true,
          ite_self, List.reverse_nil, List.length_nil, Nat.add_zero]
  | cons c w ih =>
    obtain ⟨fuel, rfl⟩ : ∃ k, fuel = k + 1 := ⟨fuel - 1, by simp at h; omega⟩
    have hc : isSpace c = false ∧ isBreak c = false := by
      simpa [isInk] using hink c List.mem_cons_self
    have hmark : (decide (c = ':') && wordEnds (w ++ r)) = false := by
      cases w with
      | nil => simp [hlast c rfl]
      | cons d w =>
        have hd : isSpace d = false ∧ isBreak d = false := by
          simpa [isInk] using hink d (by simp)
        simp [wordEnds, hd.1, hd.2]
    have hgo : plainEnds false (c :: (w ++ r)) = false := by
      simp [plainEnds, hc.1, hc.2, hmark]
    rw [List.cons_append, plainWord]
    simp only [hc.1, hc.2, Bool.or_self, Bool.false_and, Bool.false_eq_true, if_false, hgo, Spot.skip_mk]
    rw [ih (by simpa using h) (fun d hd => hink d (List.mem_cons_of_mem _ hd)) fun d hd => hlast d ?_]
    · simp [Nat.add_assoc, Nat.add_comm 1]
    · cases w with
      | nil => cases hd
      | cons e w => rwa [List.getLast?_cons_cons]

/-- What follows a word of a plain scalar. -/
def afterWord (fuel : Nat) (margin : Int) (acc : List Char) (t : Spot) :
    Option (List Char × Bool × Spot) :=
  match t.rest with
  | [] => some (acc, false, t)
  | c :: _ =>
    if isSpace c || isBreak c then
      match Gap.read t.rest.length margin {} t with
      | none => none
      | some (g, t) =>
        if (t.column : Int) < margin then some (acc, g.broken, t)
        else plainWords fuel false margin acc g t
    else some (acc, false, t)

theorem afterWord_gap {c : Char} (hc : isInk c = false) {g : Gap} {t : Spot}
    (hread : Gap.read (c :: r).length margin {} ⟨c :: r, i, line, col⟩ = some (g, t)) :
    afterWord fuel margin acc ⟨c :: r, i, line, col⟩ =
      if (t.column : Int) < margin then some (acc, g.broken, t)
      else plainWords fuel false margin acc g t := by
  have hblank : (isSpace c || isBreak c) = true := by
    cases hs : isSpace c <;> simp_all [isInk]
  rw [afterWord]
  simp only [hblank, if_true, hread]

/-- A word can be read here. -/
structure CanBegin (s : Spot) : Prop where
  noMark : s.atDocumentMark = false
  noComment : s.rest.head? ≠ some '#'

theorem canBegin_of_column {c : Char} (hc : c ≠ '#') (hcol : col ≠ 0) :
    CanBegin ⟨c :: r, i, line, col⟩ := by
  refine ⟨?_, by simpa using hc⟩
  simp [Spot.atDocumentMark, Spot.atMark, hcol]

theorem plainWords_word {g : Gap} (hne : w ≠ []) (hink : ∀ c ∈ w, isInk c = true)
    (hlast : ∀ c ∈ w.getLast?, c ≠ ':') (hend : plainEnds false r = true)
    (hbegin : CanBegin ⟨w ++ r, i, line, col⟩) :
    plainWords (fuel + 1) false margin acc g ⟨w ++ r, i, line, col⟩ =
      afterWord fuel margin (w.reverse ++ (g.text ++ acc)) ⟨r, i + w.length, line, col + w.length⟩ := by
  have hword := @plainWord_append _ i line col [] _ _ (show w.length ≤ (w ++ r).length by simp) hink hlast hend
  have hfirst : ((w ++ r).head? = some '#') = False := eq_false hbegin.noComment
  have hempty : w.reverse.isEmpty = false := by simpa using hne
  simp only [plainWords, hbegin.noMark, hfirst, hword, Bool.false_or, decide_false, Bool.false_eq_true,
    if_false, List.append_nil, hempty, Bool.not_false, Bool.true_and, decide_eq_true_eq, List.append_assoc]
  rfl

/-- A bare text is a word, or a word, spaces and a bare text again. -/
theorem IsBare.split {cs : List Char} (h : IsBare cs) (hne : cs ≠ []) (hbegin : BeginsInk cs) :
    ∃ w n v, cs = w ++ (List.replicate n ' ' ++ v) ∧ w ≠ [] ∧ (∀ c ∈ w, isInk c = true) ∧
      (∀ c ∈ w.getLast?, c ≠ ':') ∧ (v = [] → n = 0) ∧
      (v ≠ [] → 0 < n ∧ IsBare v ∧ BeginsInk v ∧ v.head? ≠ some '#') := by
  obtain ⟨w, u, rfl, hw, hu⟩ := exists_stretch isInk cs
  obtain ⟨n, v, rfl, hv⟩ := exists_spaces u
  have hwne : w ≠ [] := by
    rintro rfl
    cases hcs : List.replicate n ' ' ++ v with
    | nil => exact hne hcs
    | cons c r =>
      have hink : isInk c = true := by simpa [BeginsInk, hcs] using hbegin
      simp [hcs, hink] at hu
  have hspace : isInk ' ' = false := by decide
  -- what is no ink in a bare text is a space
  have hblank : ∀ c r, List.replicate n ' ' ++ v = c :: r → c = ' ' := by
    intro c r hcr
    obtain hc | hc := h.chars c (by simp [hcr])
    · exact hc
    · simp [hcr, hc] at hu
  refine ⟨w, n, v, rfl, hwne, hw, fun c hc hcolon => ?_, fun hnil => ?_, fun hvne => ?_⟩
  · -- a colon at the end of a word would be a mark
    obtain ⟨w', rfl⟩ := List.getLast?_eq_some_iff.mp hc
    subst hcolon
    cases hrest : List.replicate n ' ' ++ v with
    | nil =>
      rw [hrest, List.append_nil] at h
      exact (h.lastInk ':' (by simp)).2 rfl
    | cons c r =>
      have hpair := not_pair_of_hasPair (a := ':') (b := c)
        (by simpa [hrest] using h.noValue) rfl
      rw [hblank c r hrest] at hpair
      exact absurd hpair (by decide)
  · cases n with
    | zero => rfl
    | succ n =>
      have hlast := (h.lastInk ' ' (by simp [hnil, List.replicate_succ'])).1
      rw [hspace] at hlast
      cases hlast
  · obtain ⟨c, r, rfl⟩ := List.exists_cons_of_ne_nil hvne
    have hc : c ≠ ' ' := hv c rfl
    have hink : isInk c = true := (h.chars c (by simp)).resolve_left hc
    cases n with
    | zero => exact absurd (hblank c r rfl) hc
    | succ n =>
      refine ⟨Nat.succ_pos n, h.of_append.of_append, beginsInk_cons hink r, ?_⟩
      have hpair := @not_pair_of_hasPair _ _ (w ++ List.replicate n ' ') _ ' ' c
          (by simpa [List.replicate_succ'] using h.noComment) (by decide)
      simpa using hpair

/-- A bare text is read up to its end. -/
theorem plainWords_bare {cs : List Char} {g : Gap} (h : IsBare cs) (hne : cs ≠ [])
    (hbegin : BeginsInk cs) (hcan : CanBegin ⟨cs ++ r, i, line, col⟩) (hmargin : margin ≤ col + 1)
    (hfuel : cs.length < fuel) (hend : plainEnds false r = true) :
    ∃ fuel', plainWords fuel false margin acc g ⟨cs ++ r, i, line, col⟩ =
      afterWord fuel' margin (cs.reverse ++ (g.text ++ acc)) ⟨r, i + cs.length, line, col + cs.length⟩ := by
  induction fuel generalizing cs acc g i col with
  | zero => exact absurd hfuel (Nat.not_lt_zero _)
  | succ fuel ih =>
    obtain ⟨w, n, v, rfl, hwne, hink, hlast, hnil, hcons⟩ := h.split hne hbegin
    by_cases hv : v = []
    · obtain rfl := hnil hv
      subst hv
      simp only [List.replicate_zero, List.append_nil] at hcan ⊢
      exact ⟨fuel, plainWords_word hwne hink hlast hend hcan⟩
    · obtain ⟨hn, hbare, hvbegin, hcomment⟩ := hcons hv
      obtain ⟨c, v', hcv⟩ := List.exists_cons_of_ne_nil hv
      obtain ⟨n, rfl⟩ : ∃ k, n = k + 1 := ⟨n - 1, by omega⟩
      have hwlen : 0 < w.length := List.length_pos_iff.mpr hwne
      simp only [List.length_append, List.length_replicate] at hfuel
      -- the word, and the spaces after it
      have hword := @plainWords_word fuel _ _ _ margin acc _ (List.replicate (n + 1) ' ' ++ (v ++ r)) g hwne
          hink hlast (by rfl) (by simpa [List.append_assoc] using hcan)
      have hgap : afterWord fuel margin (w.reverse ++ (g.text ++ acc))
          ⟨List.replicate (n + 1) ' ' ++ (v ++ r), i + w.length, line, col + w.length⟩ =
          plainWords fuel false margin (w.reverse ++ (g.text ++ acc)) { blanks := List.replicate (n + 1) ' ' }
            ⟨v ++ r, i + w.length + (n + 1), line, col + w.length + (n + 1)⟩ := by
        have hread := @Gap.read_blanks margin (n + 1) (i + w.length) line (col + w.length) (v ++ r)
          (by simpa [BeginsInk, hcv] using hvbegin)
        rw [List.replicate_succ, List.cons_append] at hread ⊢
        rw [afterWord_gap (by decide) hread, if_neg (by simp only; omega)]
      obtain ⟨fuel', hrest⟩ := @ih (i + w.length + (n + 1)) (col + w.length + (n + 1)) _ _
        { blanks := List.replicate (n + 1) ' ' } hbare hv hvbegin
        (by rw [hcv]; exact canBegin_of_column (by simpa [hcv] using hcomment) (by omega)) (by omega) (by omega)
      refine ⟨fuel', ?_⟩
      rw [List.append_assoc, List.append_assoc, hword, hgap, hrest]
      simp [Gap.text, Nat.add_assoc]

variable {cs : List Char}

/-- A bare text is read back as a key. -/
theorem plainScalar_key (h : IsBare cs) (hne : cs ≠ []) (hbegin : BeginsInk cs)
    (hcan : CanBegin ⟨cs ++ ':' :: r, i, line, col⟩) (hmargin : margin ≤ col + 1)
    (hr : wordEnds r = true) :
    plainScalar false margin ⟨cs ++ ':' :: r, i, line, col⟩ =
      some (String.ofList cs, false, ⟨':' :: r, i + cs.length, line, col + cs.length⟩) := by
  obtain ⟨fuel, hwords⟩ := @plainWords_bare ((cs ++ ':' :: r).length + 1) _ _ _ _ _ (':' :: r) _ {} h hne hbegin
      hcan hmargin (by rw [List.length_append]; omega) (by simp [plainEnds, hr])
  rw [plainScalar, hwords]
  simp [afterWord, Gap.text, isSpace, isBreak]

/-- A bare text is read back as a value at the end of a line. -/
theorem plainScalar_value (h : IsBare cs) (hne : cs ≠ []) (hbegin : BeginsInk cs) {k : Nat}
    (hcan : CanBegin ⟨cs ++ '\n' :: (List.replicate k ' ' ++ r), i, line, col⟩)
    (hmargin : margin ≤ col + 1) (hk : (k : Int) < margin) (hr : BeginsInk r) :
    plainScalar false margin ⟨cs ++ '\n' :: (List.replicate k ' ' ++ r), i, line, col⟩ =
      some (String.ofList cs, true, ⟨r, i + cs.length + 1 + k, line + 1, k⟩) := by
  obtain ⟨fuel, hwords⟩ := @plainWords_bare ((cs ++ '\n' :: (List.replicate k ' ' ++ r)).length + 1) _ _ _ _ _ _
      _ {} h hne hbegin hcan hmargin (by rw [List.length_append]; omega) (by rfl)
  have hread : Gap.read ('\n' :: (List.replicate k ' ' ++ r)).length margin {}
      ⟨'\n' :: (List.replicate k ' ' ++ r), i + cs.length, line, col + cs.length⟩ =
      some ({ first := ['\n'], broken := true }, ⟨r, i + cs.length + 1 + k, line + 1, k⟩) := by
    rw [List.length_cons, List.length_append, List.length_replicate, Nat.add_comm k, Gap.read_break _ rfl,
      Gap.read_indent rfl, Gap.read_of_beginsInk hr, Nat.zero_add]
    rfl
  rw [plainScalar, hwords, afterWord_gap (by decide) hread, if_pos hk]
  simp [Gap.text]

end Lexer

end Workboard.Yaml
