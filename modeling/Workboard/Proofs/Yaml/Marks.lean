import Workboard.Proofs.Yaml.Strings

/-!
# Marks as tokens

The marks of items, of keys and of values, and the brackets of an empty collection, each read
as a token of its own. The colon behind a key of one line puts the mark of that key in its place.
-/
namespace Workboard.Yaml.Lexer
open Printer (spaces)

variable {l : Lexer} {allowed : Bool} {key? : Option KeyStart} {ts toks : List Token} {indent : Int}
  {outer : List Int} {x r : List Char} {i line col k m : Nat} {s : Spot} {S : Lexer → Prop}

section Brackets

/-- The brackets of an empty collection and their tokens. -/
inductive IsBracket : Char → Char → Token → Token → Prop
  | sequence : IsBracket '[' ']' .flowSequenceStart .flowSequenceEnd
  | mapping : IsBracket '\x7b' '\x7d' .flowMappingStart .flowMappingEnd

variable {c d : Char} {t u : Token}

theorem IsBracket.begins (h : IsBracket c d t u) (x : List Char) : BeginsToken (c :: x) ∧ BeginsToken (d :: x) := by
  cases h <;> exact ⟨.head (by decide) (by decide) x, .head (by decide) (by decide) x⟩

theorem IsBracket.goes_on (h : IsBracket c d t u) : t ≠ .streamEnd ∧ u ≠ .streamEnd := by
  cases h <;> exact ⟨Token.noConfusion, Token.noConfusion⟩

theorem StandsAt.fetch_bracket (h : IsBracket c d t u) (hl : StandsAt l ⟨c :: r, i, line, col⟩) :
    l.fetch = l.fetchFlowStart t := by
  unfold fetch
  change (settled _).bind _ = _
  rw [hl.settles]
  simp only [Option.bind_some, hl.closes]
  cases h <;> simp [hl.spot_eq, Spot.atMark]

/-- A lexer right behind the first bracket of a collection. -/
def inside (key? : Option KeyStart) (ts : List Token) (indent : Int) (outer : List Int) (s : Spot) : Lexer :=
  { between true ts indent outer s with keys := [none, key?] }

theorem fetchFlowStart_poised (hkey : ∀ key ∈ key?, allowed = false) :
    (poised allowed key? ts indent outer s).fetchFlowStart t =
      some (inside (keyAt? allowed key? ts indent s) (t :: ts) indent outer (s.skipMany 1)) := by
  rw [fetchFlowStart, saveKey_poised hkey]
  rfl

theorem fetch_of_settled_inside (h : IsBracket c d t u)
    (hl : settled l = some (inside key? ts indent outer ⟨d :: x, i, line, col⟩)) :
    l.fetch = some (poised false key? (u :: ts) indent outer ⟨x, i + 1, line, col + 1⟩) := by
  unfold fetch
  change (settled _).bind _ = _
  rw [hl]
  cases h <;>
    simp [unroll, inFlow, inside, poised, between, Spot.atMark, fetchFlowEnd, removeKey, emit, push, Spot.skipMany]

/-- Right behind the first bracket of a collection stands the second. -/
theorem goes_bracketEnd (h : IsBracket c d t u) (hline : ∀ key ∈ key?, key.line = line)
    (hgoes : ∀ kept?, kept? = key? ∨ kept? = none →
      Goes (poised false kept? (u :: ts) indent outer ⟨x, i + 1, line, col + 1⟩) S) :
    Goes (inside key? ts indent outer ⟨d :: x, i, line, col⟩) S := by
  have hskip : (inside key? ts indent outer ⟨d :: x, i, line, col⟩).skipToToken ((d :: x).length + 1) =
      inside key? ts indent outer ⟨d :: x, i, line, col⟩ :=
    skipToToken_spaces (n := 0) (i := i) (h.begins x).2 rfl
  have hsettled : settled (inside key? ts indent outer ⟨d :: x, i, line, col⟩) =
      (inside key? ts indent outer ⟨d :: x, i, line, col⟩).dropStaleKeys := congrArg dropStaleKeys hskip
  have hend : ∀ {kept? : Option KeyStart}, kept? = key? ∨ kept? = none →
      settled (inside key? ts indent outer ⟨d :: x, i, line, col⟩) =
        some (inside kept? ts indent outer ⟨d :: x, i, line, col⟩) →
      Goes (inside key? ts indent outer ⟨d :: x, i, line, col⟩) S := fun hkept hl =>
    .of_fetch (fetch_of_settled_inside h hl) (by simp [poised, between, h.goes_on.2]) (hgoes _ hkept)
  cases key? with
  | none => exact hend (.inl rfl) (hsettled.trans rfl)
  | some key =>
    have hsame := hline key rfl
    by_cases hfar : key.index + 1024 < i
    · cases hrequired : key.required with
      | true =>
        refine .of_fetch_none ?_
        unfold fetch
        change (settled _).bind _ = _
        rw [hsettled]
        simp [dropStaleKeys, inside, between, hfar, hrequired]
      | false =>
        refine hend (.inr rfl) (hsettled.trans ?_)
        simp [dropStaleKeys, inside, between, hfar, hrequired]
    · refine hend (.inl rfl) (hsettled.trans ?_)
      simp [dropStaleKeys, inside, between, hsame, hfar]

/-- An empty collection is read as its two brackets, with the possible key that begins there. -/
theorem goes_brackets (h : IsBracket c d t u) (hcol : indent ≤ col) (hkey : ∀ key ∈ key?, allowed = false)
    (hfresh : IsFresh key? line i)
    (hgoes : ∀ kept?, kept? = keyAt? allowed key? ts indent ⟨c :: d :: x, i, line, col⟩ ∨ kept? = none →
      Goes (poised false kept? (u :: t :: ts) indent outer ⟨x, i + 2, line, col + 2⟩) S) :
    Goes (poised allowed key? ts indent outer ⟨c :: d :: x, i, line, col⟩) S := by
  have hstands := @standsAt_poised ts indent outer _ i line col allowed key? (h.begins (d :: x)).1 hcol hfresh
  refine .of_fetch ((hstands.fetch_bracket h).trans (fetchFlowStart_poised hkey))
    (by simp [inside, between, h.goes_on.1]) (goes_bracketEnd h (fun key hmem => ?_) hgoes)
  cases allowed with
  | false => exact (hfresh key hmem).1
  | true =>
    obtain rfl := Option.some.inj hmem
    rfl

end Brackets

section Marks

/-- A mark stands where a key may begin, at the column of the collection or right of it. -/
theorem standsAt_mark {c : Char} (hink : isInk c = true) (hc : c ≠ '#' ∧ c ≠ '\uFEFF') (hcol : indent ≤ col) :
    StandsAt (between true ts indent outer ⟨c :: x, i, line, col⟩) ⟨c :: x, i, line, col⟩ :=
  standsAt_poised (.head hink hc x) hcol isFresh_none

/-- The tokens in front of the first item or entry of a block collection, and of a further one. -/
def opened (start : Token) (indent : Int) (col : Nat) (ts : List Token) : List Token :=
  if indent < col then start :: ts else ts

/-- The indentations around the items or entries of a block collection. -/
def around (indent : Int) (col : Nat) (outer : List Int) : List Int :=
  if indent < col then indent :: outer else outer

@[simp] theorem opened_self (start : Token) (col : Nat) (ts : List Token) : opened start col col ts = ts := by
  simp [opened]

@[simp] theorem around_self (col : Nat) (outer : List Int) : around col col outer = outer := by
  simp [around]

theorem opened_of_lt (h : indent < col) (start : Token) (ts : List Token) :
    opened start indent col ts = start :: ts :=
  if_pos h

theorem around_of_lt (h : indent < col) (outer : List Int) : around indent col outer = indent :: outer :=
  if_pos h

/-- The dash of an item is no mark of a document. -/
theorem take_ne_of_wordEnds (hx : wordEnds x = true) : ('-' :: x).take 3 ≠ ['-', '-', '-'] := by
  cases x with
  | nil => simp
  | cons d x =>
    have hd : d ≠ '-' := by
      rintro rfl
      simp [wordEnds, isSpace, isBreak] at hx
    simp [hd]

theorem StandsAt.fetch_dash (hl : StandsAt l ⟨'-' :: x, i, line, col⟩) (hx : wordEnds x = true) :
    l.fetch = l.fetchBlockEntry := by
  have hmark := atMark_eq_false (s := ⟨'-' :: x, i, line, col⟩) (take_ne_of_wordEnds hx)
  have hpoint : (Spot.mk ('-' :: x) i line col).atMark '.' = false := by simp [Spot.atMark]
  unfold fetch
  change (settled _).bind _ = _
  rw [hl.settles]
  simp only [Option.bind_some, hl.closes]
  simp [hl.spot_eq, hmark, hpoint, hx]

theorem StandsAt.fetch_question (hl : StandsAt l ⟨'?' :: x, i, line, col⟩) (hx : wordEnds x = true) :
    l.fetch = l.fetchKey := by
  unfold fetch
  change (settled _).bind _ = _
  rw [hl.settles]
  simp only [Option.bind_some, hl.closes]
  simp [hl.spot_eq, Spot.atMark, hx]

theorem fetchBlockEntry_between (hcol : indent ≤ s.column) :
    (between true ts indent outer s).fetchBlockEntry =
      some (between true (.blockEntry :: opened .blockSequenceStart indent s.column ts) s.column
        (around indent s.column outer) (s.skipMany 1)) := by
  by_cases hopen : indent < s.column
  · have hnot : ¬ (s.column : Int) ≤ indent := by omega
    simp [fetchBlockEntry, roll, inFlow, removeKey, emit, push, between, opened, around, hopen, hnot,
      Lexer.insert]
  · have heq : indent = s.column := by omega
    simp [fetchBlockEntry, roll, inFlow, removeKey, emit, push, between, opened, around, heq]

theorem fetchKey_between (hcol : indent ≤ s.column) :
    (between true ts indent outer s).fetchKey =
      some (between true (.key :: opened .blockMappingStart indent s.column ts) s.column
        (around indent s.column outer) (s.skipMany 1)) := by
  by_cases hopen : indent < s.column
  · have hnot : ¬ (s.column : Int) ≤ indent := by omega
    simp [fetchKey, roll, inFlow, removeKey, emit, push, between, opened, around, hopen, hnot, Lexer.insert]
  · have heq : indent = s.column := by omega
    simp [fetchKey, roll, inFlow, removeKey, emit, push, between, opened, around, heq]

/-- The mark of an item. -/
theorem goes_dash (hx : wordEnds x = true) (hcol : indent ≤ col)
    (hgoes : Goes (between true (.blockEntry :: opened .blockSequenceStart indent col ts) col
      (around indent col outer) ⟨x, i + 1, line, col + 1⟩) S) :
    Goes (between true ts indent outer ⟨'-' :: x, i, line, col⟩) S :=
  .of_fetch (((standsAt_mark (by decide) (by decide) hcol).fetch_dash hx).trans (fetchBlockEntry_between hcol))
    (by simp [between]) hgoes

/-- The mark of a key. -/
theorem goes_question (hx : wordEnds x = true) (hcol : indent ≤ col)
    (hgoes : Goes (between true (.key :: opened .blockMappingStart indent col ts) col
      (around indent col outer) ⟨x, i + 1, line, col + 1⟩) S) :
    Goes (between true ts indent outer ⟨'?' :: x, i, line, col⟩) S :=
  .of_fetch (((standsAt_mark (by decide) (by decide) hcol).fetch_question hx).trans (fetchKey_between hcol))
    (by simp [between]) hgoes

/-- The mark of the value of a key that has a mark itself. -/
theorem goes_colon (hx : wordEnds x = true)
    (hgoes : Goes (between true (.value :: ts) col outer ⟨x, i + 1, line, col + 1⟩) S) :
    Goes (between true ts col outer ⟨':' :: x, i, line, col⟩) S := by
  have hl := @standsAt_mark ts _ outer x i line _ ':' (by decide) (by decide) (Int.le_refl col)
  refine .of_fetch ((hl.fetch_colon hx).trans ?_) (by simp [between]) hgoes
  simp [fetchValue, roll, inFlow, emit, push, between, Spot.skipMany]

end Marks

section Keys
variable {key : KeyStart}

theorem fetchValue_key (hbefore : key.before = ts.length) (hcol : indent ≤ key.column) :
    (poised false (some key) (toks.reverse ++ ts) indent outer s).fetchValue =
      some (between false (.value :: (toks.reverse ++ .key :: opened .blockMappingStart indent key.column ts)) key.column
        (around indent key.column outer) (s.skipMany 1)) := by
  have hcount : toks.length + ts.length - ts.length = toks.length := by omega
  have hcount' : toks.length + (ts.length + 1) - ts.length = toks.length + 1 := by omega
  have htake : ∀ rest : List Token, (toks.reverse ++ rest).take toks.length = toks.reverse := fun rest =>
    List.take_left' (by simp)
  have hdrop : ∀ rest : List Token, (toks.reverse ++ rest).drop toks.length = rest := fun rest =>
    List.drop_left' (by simp)
  have htake' : ∀ (t : Token) (rest : List Token),
      (toks.reverse ++ t :: rest).take (toks.length + 1) = toks.reverse ++ [t] := fun t rest => by
    rw [List.append_cons, List.take_left' (by simp)]
  have hdrop' : ∀ (t : Token) (rest : List Token),
      (toks.reverse ++ t :: rest).drop (toks.length + 1) = rest := fun t rest => by
    rw [List.append_cons, List.drop_left' (by simp)]
  by_cases hopen : indent < key.column
  · have hnot : ¬ (key.column : Int) ≤ indent := by omega
    simp [fetchValue, Lexer.insert, roll, inFlow, emit, push, poised, between, opened, around, hbefore, hopen, hnot,
      hcount, hcount', htake, hdrop, htake', hdrop', Nat.add_assoc]
  · have hle : (key.column : Int) ≤ indent := by omega
    have heq : indent = key.column := by omega
    simp [fetchValue, Lexer.insert, roll, inFlow, emit, push, poised, between, opened, around, hbefore, hopen, hle,
      hcount, htake, hdrop, Nat.add_assoc]
    exact heq

/-- The colon behind a key of one line. A key that was given up is none, and nothing can be read. -/
theorem goes_keyColon (key : KeyStart) (hbefore : key.before = ts.length) (hindent : indent ≤ key.column) (hcol : indent ≤ col)
    (hline : key.line = line) (hkey : key? = some key ∨ key? = none) (hx : wordEnds x = true)
    (hgoes : Goes (between false
      (.value :: (toks.reverse ++ .key :: opened .blockMappingStart indent key.column ts)) key.column
        (around indent key.column outer) ⟨x, i + 1, line, col + 1⟩) S) :
    Goes (poised false key? (toks.reverse ++ ts) indent outer ⟨':' :: x, i, line, col⟩) S := by
  have hbegins : BeginsToken (':' :: x) := .head (by decide) (by decide) x
  have hfirst : ∀ other ∈ key?, other.line = line := fun other hmem => by
    obtain rfl | rfl := hkey
    · exact Option.some.inj hmem ▸ hline
    · cases hmem
  refine goes_poised (n := 0) hbegins hfirst fun kept? hkept hfresh => ?_
  have hstands := @standsAt_poised (toks.reverse ++ ts) indent outer _ i line col false kept? hbegins hcol hfresh
  have hfetch := hstands.fetch_colon hx
  obtain rfl | rfl : kept? = some key ∨ kept? = none := hkept.elim (fun heq => heq ▸ hkey) .inr
  · exact .of_fetch (hfetch.trans (fetchValue_key hbefore hindent)) (by simp [between]) hgoes
  · exact .of_fetch_none (hfetch.trans rfl)

end Keys

end Workboard.Yaml.Lexer
