import Workboard.Proofs.Task.Cutting

/-!
# The framing of records

Which texts are records, told on their lines: the first line is a delimiter, and a later one is the
next. What stands between the two is the front matter, and what follows them is the body. Main
statement: a text is read as it is framed, whatever stands in it, and each of the two ways in which
the framing can fail is reported under its own name and no other failure is.
-/
namespace Workboard.Record

variable {l cs : List Char} {ls : List (List Char)} {content : String}

/-- These are the lines of a text. Every line but the last ends at its line feed, and so may the last. -/
inductive AreLines : List (List Char) → List Char → Prop
  | nil : AreLines [] []
  | last {l : List Char} (hne : l ≠ []) (h : '\n' ∉ l) : AreLines [l] l
  | cons {l : List Char} (h : '\n' ∉ l) {ls : List (List Char)} {cs : List Char} (hrest : AreLines ls cs) :
      AreLines ((l ++ ['\n']) :: ls) (l ++ '\n' :: cs)

theorem AreLines.flatten (h : AreLines ls cs) : ls.flatten = cs := by
  induction h with
  | nil => rfl
  | last hne h => simp
  | cons h hrest ih => simp [ih]

theorem areLines_lines (cs : List Char) : AreLines (lines cs) cs := by
  induction cs with
  | nil => exact .nil
  | cons c cs ih =>
    by_cases hc : c = '\n'
    · subst hc
      exact .cons List.not_mem_nil ih
    · have hnot : ∀ {l : List Char}, '\n' ∉ l → '\n' ∉ c :: l := fun h =>
        List.not_mem_cons_of_ne_of_not_mem (Ne.symm hc) h
      rw [lines, if_neg hc]
      generalize lines cs = ls at ih
      cases ih with
      | nil => exact .last (List.cons_ne_nil c []) (hnot List.not_mem_nil)
      | last hne h => exact .last (List.cons_ne_nil c _) (hnot h)
      | cons h hrest => exact .cons (hnot h) hrest

theorem lines_last (hne : l ≠ []) (h : '\n' ∉ l) : lines l = [l] := by
  induction l with
  | nil => exact absurd rfl hne
  | cons c l ih =>
    rw [List.mem_cons, not_or] at h
    rw [lines, if_neg (Ne.symm h.1)]
    cases l with
    | nil => rfl
    | cons d l => rw [ih (List.cons_ne_nil d l) h.2]

theorem lines_feed (h : '\n' ∉ l) (cs : List Char) : lines (l ++ '\n' :: cs) = (l ++ ['\n']) :: lines cs := by
  induction l with
  | nil => rfl
  | cons c l ih =>
    rw [List.mem_cons, not_or] at h
    rw [List.cons_append, lines, if_neg (Ne.symm h.1), ih h.2]
    rfl

/-- A text has its lines in one way. -/
theorem AreLines.eq_lines (h : AreLines ls cs) : ls = lines cs := by
  induction h with
  | nil => rfl
  | last hne h => rw [lines_last hne h]
  | cons h hrest ih => rw [lines_feed h, ih]

/-- A delimiter line, up to the blanks at its end. -/
def IsRule (l : List Char) : Prop := Text.trimEnd (.ofList l) = "---"

theorem isDelimiter_iff : isDelimiter l = true ↔ IsRule l := by
  rw [isDelimiter, decide_eq_true_iff, IsRule, Text.trimEnd, String.toList_ofList,
    show "---" = String.ofList ['-', '-', '-'] from rfl, String.ofList_inj]

theorem isDelimiter_eq_false_iff : isDelimiter l = false ↔ ¬ IsRule l := by
  rw [← isDelimiter_iff, Bool.not_eq_true]

/-- The text does not begin with a delimiter line. -/
def IsUnopened (ls : List (List Char)) : Prop := ∀ l ∈ ls.head?, ¬ IsRule l

/-- The first line is the only delimiter line. -/
def IsUnclosed (ls : List (List Char)) : Prop :=
  ∃ first rest, ls = first :: rest ∧ IsRule first ∧ ∀ l ∈ rest, ¬ IsRule l

/-- The first line and the next delimiter line frame the front matter, and the body follows them. -/
structure IsFramed (ls : List (List Char)) (opening : List Char) (front : List (List Char)) (closing : List Char)
    (body : List (List Char)) : Prop where
  parts : ls = opening :: (front ++ closing :: body)
  opens : IsRule opening
  closes : IsRule closing
  inside : ∀ l ∈ front, ¬ IsRule l

theorem exists_isFramed (hopened : ¬ IsUnopened ls) (hclosed : ¬ IsUnclosed ls) :
    ∃ opening front closing body, IsFramed ls opening front closing body := by
  cases ls with
  | nil => exact absurd (fun l hl => nomatch hl) hopened
  | cons first rest =>
    have hfirst : IsRule first := by simpa [IsUnopened] using hopened
    cases hfind : rest.find? isDelimiter with
    | none =>
      refine absurd ⟨first, rest, rfl, hfirst, fun l hl => ?_⟩ hclosed
      exact mt isDelimiter_iff.mpr (List.find?_eq_none.mp hfind l hl)
    | some closing =>
      obtain ⟨hclosing, front, body, hrest, hfront⟩ := List.find?_eq_some_iff_append.mp hfind
      refine ⟨first, front, closing, body, by rw [hrest], hfirst, isDelimiter_iff.mp hclosing, fun l hl => ?_⟩
      exact isDelimiter_eq_false_iff.mp (by simpa using hfront l hl)

/-- The task of a front matter and a body. -/
def ofParts (front body : List Char) : Except Corruption Task :=
  match (Fields.ofText? (.ofList front)).bind (·.task? (.ofList body)) with
  | some t => .ok t
  | none => .error .unreadable

theorem parse_eq (content : String) :
    parse content = (split content.toList).bind fun (front, body) => ofParts front body := by
  rw [parse, Text.chars_eq]
  rfl

theorem body_of_ofParts {front body : List Char} {t : Task} (h : ofParts front body = .ok t) :
    t.body = .ofList body := by
  unfold ofParts at h
  split at h
  · rename_i u hu
    obtain rfl := Except.ok.inj h
    obtain ⟨f, -, htask⟩ := Option.bind_eq_some_iff.mp hu
    simp only [Fields.task?, Option.bind_eq_bind, Option.bind_eq_some_iff, Option.some.injEq] at htask
    obtain ⟨_, -, _, -, _, -, _, -, rfl⟩ := htask
    rfl
  · cases h

theorem ofParts_eq_error {front body : List Char} {e : Corruption} (h : ofParts front body = .error e) :
    e = .unreadable := by
  unfold ofParts at h
  split at h
  · cases h
  · exact (Except.error.inj h).symm

section Framing
variable {opening closing : List Char} {front body : List (List Char)}

theorem split_of_isUnopened (h : IsUnopened (lines (dropByteOrderMark cs))) :
    split cs = .error .missingFrontMatter := by
  unfold split
  split
  · rfl
  · rename_i first rest hlines
    rw [hlines] at h
    rw [isDelimiter_eq_false_iff.mpr (h first rfl), if_neg Bool.false_ne_true]

theorem split_of_isUnclosed (h : IsUnclosed (lines (dropByteOrderMark cs))) :
    split cs = .error .unterminatedFrontMatter := by
  obtain ⟨first, rest, hlines, hfirst, hrest⟩ := h
  have hcut : cut? (rest ++ []) = _ := cut?_append fun l hl => isDelimiter_eq_false_iff.mpr (hrest l hl)
  rw [List.append_nil] at hcut
  simp only [split, hlines, isDelimiter_iff.mpr hfirst, hcut]
  rfl

theorem split_of_isFramed (h : IsFramed (lines (dropByteOrderMark cs)) opening front closing body) :
    split cs = .ok (front.flatten, body.flatten) := by
  have hcut : cut? (front ++ closing :: body) = _ :=
    cut?_append fun l hl => isDelimiter_eq_false_iff.mpr (h.inside l hl)
  rw [cut?, isDelimiter_iff.mpr h.closes] at hcut
  simp only [split, h.parts, isDelimiter_iff.mpr h.opens, hcut]
  simp

end Framing

/-- The text of a record, with the mark of its byte order in front or without one. -/
theorem exists_dropByteOrderMark (cs : List Char) : ∃ mark, cs = mark ++ dropByteOrderMark cs ∧
    (mark = ['\uFEFF'] ∨ mark = [] ∧ (dropByteOrderMark cs).head? ≠ some '\uFEFF') := by
  unfold dropByteOrderMark
  split
  · exact ⟨['\uFEFF'], rfl, .inl rfl⟩
  · rename_i hnone
    refine ⟨[], rfl, .inr ⟨rfl, fun hhead => ?_⟩⟩
    obtain ⟨rest, rfl⟩ := List.head?_eq_some_iff.mp hhead
    exact hnone rest rfl

/-- The text is refused for this reason. -/
def Refuses (content reason : String) : Prop := ∃ e, parse content = .error e ∧ e.message = reason

/-- A text is a record exactly if it is framed, and is then read as the task of what is framed. -/
theorem parse_as_framed (content : String) : ∃ mark cs ls, content.toList = mark ++ cs ∧
    (mark = ['\uFEFF'] ∨ mark = [] ∧ cs.head? ≠ some '\uFEFF') ∧
    AreLines ls cs ∧ (∀ ls', AreLines ls' cs → ls' = ls) ∧
    (Refuses content "missing front matter" ↔ IsUnopened ls) ∧
    (Refuses content "unterminated front matter" ↔ IsUnclosed ls) ∧
    (¬ IsUnopened ls → ¬ IsUnclosed ls → ∃ opening front closing body, IsFramed ls opening front closing body) ∧
    ∀ opening front closing body, IsFramed ls opening front closing body →
      parse content = ofParts front.flatten body.flatten ∧
      (∀ t, parse content = .ok t → t.body.toList = body.flatten) ∧
      opening ++ front.flatten ++ closing ++ body.flatten = cs := by
  obtain ⟨mark, hmark, hone⟩ := exists_dropByteOrderMark content.toList
  have hunopened : IsUnopened (lines (dropByteOrderMark content.toList)) →
      parse content = .error .missingFrontMatter := fun h => by
    rw [parse_eq, split_of_isUnopened h]
    rfl
  have hunclosed : IsUnclosed (lines (dropByteOrderMark content.toList)) →
      parse content = .error .unterminatedFrontMatter := fun h => by
    rw [parse_eq, split_of_isUnclosed h]
    rfl
  have hframed : ∀ {opening front closing body},
      IsFramed (lines (dropByteOrderMark content.toList)) opening front closing body →
      parse content = ofParts front.flatten body.flatten := fun h => by
    rw [parse_eq, split_of_isFramed h]
    rfl
  -- Every text is of one of the three kinds, and the three kinds are reported differently.
  have hkinds : ∀ {e : Corruption}, parse content = .error e →
      (e = .missingFrontMatter ∧ IsUnopened (lines (dropByteOrderMark content.toList))) ∨
      (e = .unterminatedFrontMatter ∧ IsUnclosed (lines (dropByteOrderMark content.toList))) ∨ e = .unreadable := by
    intro e he
    by_cases hopened : IsUnopened (lines (dropByteOrderMark content.toList))
    · exact .inl ⟨Except.error.inj (he.symm.trans (hunopened hopened)), hopened⟩
    · by_cases hclosed : IsUnclosed (lines (dropByteOrderMark content.toList))
      · exact .inr (.inl ⟨Except.error.inj (he.symm.trans (hunclosed hclosed)), hclosed⟩)
      · obtain ⟨_, _, _, _, hparts⟩ := exists_isFramed hopened hclosed
        exact .inr (.inr (ofParts_eq_error ((hframed hparts).symm.trans he)))
  refine ⟨mark, _, _, hmark, hone, areLines_lines _, fun ls' h => h.eq_lines,
    ⟨fun ⟨e, he, hmessage⟩ => ?_, fun h => ⟨_, hunopened h, rfl⟩⟩,
    ⟨fun ⟨e, he, hmessage⟩ => ?_, fun h => ⟨_, hunclosed h, rfl⟩⟩, exists_isFramed,
    fun opening front closing body h => ⟨hframed h, fun t ht => ?_, ?_⟩⟩
  · obtain ⟨-, h⟩ | ⟨rfl, -⟩ | rfl := hkinds he
    · exact h
    · exact absurd hmessage (by decide)
    · exact absurd hmessage (by decide)
  · obtain ⟨rfl, -⟩ | ⟨-, h⟩ | rfl := hkinds he
    · exact absurd hmessage (by decide)
    · exact h
    · exact absurd hmessage (by decide)
  · rw [body_of_ofParts ((hframed h).symm.trans ht), String.toList_ofList]
  · rw [← (areLines_lines (dropByteOrderMark content.toList)).flatten, h.parts]
    simp

end Workboard.Record
