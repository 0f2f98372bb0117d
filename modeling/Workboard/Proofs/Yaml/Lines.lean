import Workboard.Proofs.Yaml.Gaps
import Workboard.Yaml.Lexer

/-!
# From line to line

Between two tokens blanks and line ends are passed, possible keys on earlier lines are
given up, and then the next token decides. What comes before that decision is the same
for every token, so a lexer may be replaced by the one that stands at the next token.
-/
namespace Workboard.Yaml

namespace Lexer
open Printer (spaces)

variable {l : Lexer} {ts : List Token} {indent : Int} {outer : List Int} {s : Spot}
  {r : List Char} {i line col k n fuel : Nat}

/-- The lexer past blanks and line ends, without the possible keys of earlier lines. -/
def settled (l : Lexer) : Option Lexer := (l.skipToToken (l.spot.rest.length + 1)).dropStaleKeys

/-- A lexer between two tokens outside of flow collections. -/
def between (allowed : Bool) (ts : List Token) (indent : Int) (outer : List Int) (s : Spot) : Lexer :=
  { spot := s, tokens := ts, count := ts.length, indent, outer, keyAllowed := allowed }

/-- A lexer between two tokens that may have noted where a key begins. -/
def poised (allowed : Bool) (key? : Option KeyStart) (ts : List Token) (indent : Int) (outer : List Int)
    (s : Spot) : Lexer :=
  { between allowed ts indent outer s with keys := [key?] }

/-- A token begins with the text: no blank, no line end, no comment and no byte order mark. -/
def BeginsToken (r : List Char) : Prop := ∀ c ∈ r.head?, isInk c = true ∧ c ≠ '#' ∧ c ≠ '\uFEFF'

theorem BeginsToken.beginsInk (h : BeginsToken r) : BeginsInk r := fun c hc => (h c hc).1

theorem beginsToken_nil : BeginsToken [] := by simp [BeginsToken]

/-- Spaces are passed up to the next token. -/
theorem skipToToken_spaces (h : BeginsToken r) (hs : l.spot = ⟨spaces n ++ r, i, line, col⟩) :
    l.skipToToken (fuel + 1) = { l with spot := ⟨r, i + n, line, col + n⟩ } := by
  have hmark : ((spaces n ++ r).head? = some '\uFEFF') = False := by
    refine eq_false fun hhead => ?_
    cases n with
    | zero => exact (h _ hhead).2.2 rfl
    | succ n => simp [spaces, List.replicate_succ] at hhead
  have hblank : ∀ c ∈ r.head?, c ≠ ' ' ∧ c ≠ '\t' := fun c hc => by
    have hink := (h c hc).1
    constructor <;> rintro rfl <;> exact absurd hink (by decide)
  have htake : (spaces n ++ r).takeWhile (fun c => c = ' ' || (c = '\t' && (l.inFlow || !l.keyAllowed))) =
      spaces n := by
    rw [List.takeWhile_append_of_pos fun c hc => by simp [List.eq_of_mem_replicate hc]]
    cases r with
    | nil => simp
    | cons c r =>
      have hc := hblank c rfl
      simp [hc]
  have hskip : (Spot.mk (spaces n ++ r) i line col).skipWhile
      (fun c => c = ' ' || (c = '\t' && (l.inFlow || !l.keyAllowed))) = ⟨r, i + n, line, col + n⟩ := by
    rw [Spot.skipWhile, htake, Spot.skipMany_mk (spaces n) (spaces n).length rfl]
    simp [spaces]
  rw [skipToToken]
  simp only [hs, hmark, Bool.and_false, Bool.false_eq_true, if_false, decide_false, hskip]
  cases r with
  | nil => rfl
  | cons c r =>
    obtain ⟨hink, hcomment, -⟩ := h c rfl
    have hbreak : isBreak c = false := by simp_all [isInk]
    simp [hcomment, hbreak]

/-- A line end is passed, and a key is allowed behind it. -/
theorem skipToToken_lineEnd (hflow : l.inFlow = false) (hs : l.spot = ⟨'\n' :: r, i, line, col⟩) :
    l.skipToToken (fuel + 1) =
      skipToToken fuel { l with spot := ⟨r, i + 1, line + 1, 0⟩, keyAllowed := true } := by
  have hskip : ∀ b, (Spot.mk ('\n' :: r) i line col).skipWhile
      (fun c => c = ' ' || (c = '\t' && b)) = ⟨'\n' :: r, i, line, col⟩ := fun b => by
    rw [Spot.skipWhile]
    simp [Spot.skipMany]
  have hbreak : (Spot.mk ('\n' :: r) i line col).skipBreak = ⟨r, i + 1, line + 1, 0⟩ :=
    Spot.skipBreak_mk (by decide) (by decide)
  have hmark : (('\n' :: r).head? = some '\uFEFF') = False := by simp
  have hcomment : (('\n' :: r).head? = some '#') = False := by simp
  have hisBreak : isBreak '\n' = true := rfl
  rw [skipToToken]
  simp only [hs, hmark, Bool.and_false, Bool.false_eq_true, if_false, decide_false, hskip, hcomment, hisBreak,
    if_true, hbreak, hflow, Bool.not_false, Bool.or_true]

/-- A possible key on an earlier line is given up. -/
theorem dropStaleKeys_line {key? : Option KeyStart} (h : l.keys = [key?])
    (hkey : ∀ key ∈ key?, key.required = false ∧ key.line < l.spot.line) :
    l.dropStaleKeys = some { l with keys := [none] } := by
  cases key? with
  | none =>
    cases l
    subst h
    rfl
  | some key =>
    obtain ⟨hrequired, hline⟩ := hkey key rfl
    simp [dropStaleKeys, h, hrequired, hline]

variable {allowed : Bool} {key? : Option KeyStart}

/-- A lexer with at most one possible key on an earlier line settles behind spaces. -/
theorem settled_spaces (h : BeginsToken r) (hkey : ∀ key ∈ key?, key.required = false ∧ key.line < line) :
    settled (poised allowed key? ts indent outer ⟨spaces n ++ r, i, line, col⟩) =
      some (between allowed ts indent outer ⟨r, i + n, line, col + n⟩) := by
  rw [settled, skipToToken_spaces (i := i) h rfl]
  exact dropStaleKeys_line rfl hkey

/-- A lexer with at most one possible key on this line settles on the next line. -/
theorem settled_lineEnd (h : BeginsToken r) (hkey : ∀ key ∈ key?, key.required = false ∧ key.line ≤ line) :
    settled (poised allowed key? ts indent outer ⟨'\n' :: (spaces n ++ r), i, line, col⟩) =
      some (between true ts indent outer ⟨r, i + 1 + n, line + 1, n⟩) := by
  rw [settled, skipToToken_lineEnd (i := i) rfl rfl]
  have hskip := @skipToToken_spaces
    (poised true key? ts indent outer ⟨spaces n ++ r, i + 1, line + 1, 0⟩) _ (i + 1) _ _ n
    (spaces n ++ r).length h rfl
  rw [Nat.zero_add] at hskip
  refine (congrArg dropStaleKeys hskip).trans (dropStaleKeys_line rfl fun key hk => ?_)
  exact ⟨(hkey key hk).1, Nat.lt_succ_of_le (hkey key hk).2⟩

/-- The key that was noted began on this line and not too far away. -/
def IsFresh (key? : Option KeyStart) (line i : Nat) : Prop := ∀ key ∈ key?, key.line = line ∧ i ≤ key.index + 1024

theorem isFresh_none : IsFresh none line i := by simp [IsFresh]

/-- Within a line a lexer settles behind spaces. -/
theorem settled_poised (h : BeginsToken r) (hfresh : IsFresh key? line (i + n)) :
    settled (poised allowed key? ts indent outer ⟨spaces n ++ r, i, line, col⟩) =
      some (poised allowed key? ts indent outer ⟨r, i + n, line, col + n⟩) := by
  rw [settled, skipToToken_spaces (i := i) h rfl]
  cases key? with
  | none => rfl
  | some key =>
    obtain ⟨hline, hindex⟩ := hfresh key rfl
    have hkept : ¬ (key.line < line ∨ key.index + 1024 < i + n) := by omega
    simp [dropStaleKeys, poised, between, hkept]

/-- A key that began too far away is given up, unless it has to be one. -/
theorem settled_stale {key : KeyStart} (h : BeginsToken r) (hfar : key.index + 1024 < i + n) :
    settled (poised allowed (some key) ts indent outer ⟨spaces n ++ r, i, line, col⟩) =
      if key.required then none else some (between allowed ts indent outer ⟨r, i + n, line, col + n⟩) := by
  rw [settled, skipToToken_spaces (i := i) h rfl]
  cases hrequired : key.required <;> simp [dropStaleKeys, poised, between, hfar, hrequired]

theorem settled_between (h : BeginsToken r) :
    settled (between allowed ts indent outer ⟨r, i, line, col⟩) =
      some (between allowed ts indent outer ⟨r, i, line, col⟩) :=
  settled_poised (n := 0) h isFresh_none

/-- The next token depends only on where the lexer settles. -/
theorem fetch_eq_of_settled {l' : Lexer} (h : settled l = settled l') : l.fetch = l'.fetch := by
  unfold fetch
  change (settled l).bind _ = (settled l').bind _
  rw [h]

/-- No block is closed by a token that is not left of it. -/
theorem unroll_eq_self {column : Int} (hflow : l.inFlow = false) (h : l.indent ≤ column) :
    l.unroll column = l := by
  have hnone : (l.indent :: l.outer).takeWhile (column < ·) = [] := by
    rw [List.takeWhile_cons_of_neg (by simpa using h)]
  rw [unroll, if_neg (by simp [hflow])]
  simp [hnone]

/-- The lexer stands at its next token, and no block ends there. -/
structure StandsAt (l : Lexer) (s : Spot) : Prop where
  settles : settled l = some l
  closes : l.unroll l.spot.column = l
  spot_eq : l.spot = s
  outside : l.inFlow = false

theorem standsAt_poised (h : BeginsToken r) (hcol : indent ≤ col) (hfresh : IsFresh key? line i) :
    StandsAt (poised allowed key? ts indent outer ⟨r, i, line, col⟩) ⟨r, i, line, col⟩ :=
  ⟨settled_poised (n := 0) h hfresh, unroll_eq_self rfl hcol, rfl, rfl⟩

section Dispatch
variable {c : Char}

/-- No document begins or ends here. -/
theorem atMark_eq_false {mark : Char} {s : Spot} (h : s.rest.take 3 ≠ [mark, mark, mark]) :
    s.atMark mark = false := by
  simp [Spot.atMark, h]

theorem StandsAt.fetch_double (h : StandsAt l ⟨'"' :: r, i, line, col⟩) : l.fetch = l.fetchQuoted false := by
  unfold fetch
  change (settled _).bind _ = _
  rw [h.settles]
  simp only [Option.bind_some, h.closes]
  simp [h.spot_eq, h.outside, Spot.atMark]

theorem StandsAt.fetch_single (h : StandsAt l ⟨'\'' :: r, i, line, col⟩) : l.fetch = l.fetchQuoted true := by
  unfold fetch
  change (settled _).bind _ = _
  rw [h.settles]
  simp only [Option.bind_some, h.closes]
  simp [h.spot_eq, h.outside, Spot.atMark]

theorem StandsAt.fetch_bar (h : StandsAt l ⟨'|' :: r, i, line, col⟩) : l.fetch = l.fetchBlockScalar true := by
  unfold fetch
  change (settled _).bind _ = _
  rw [h.settles]
  simp only [Option.bind_some, h.closes]
  simp [h.spot_eq, h.outside, Spot.atMark]

theorem StandsAt.fetch_colon (h : StandsAt l ⟨':' :: r, i, line, col⟩) (hr : wordEnds r = true) :
    l.fetch = l.fetchValue := by
  unfold fetch
  change (settled _).bind _ = _
  rw [h.settles]
  simp only [Option.bind_some, h.closes]
  simp [h.spot_eq, h.outside, Spot.atMark, hr]

/-- A word that begins as plain text does not begin or end a document. -/
theorem not_atDocumentMark_word {w : List Char} (hw : beginsMarked w = false)
    (hr : ∀ c ∈ r.head?, c ≠ '-' ∧ c ≠ '.') (hne : w ≠ []) :
    (Spot.mk (w ++ r) i line col).atDocumentMark = false := by
  obtain ⟨c, w, rfl⟩ := List.exists_cons_of_ne_nil hne
  rw [beginsMarked, Bool.or_eq_false_iff, Bool.or_eq_false_iff] at hw
  obtain ⟨⟨-, hstart⟩, hend⟩ := hw
  have hmark : ∀ mark, (mark = '-' ∨ mark = '.') → [mark, mark, mark].isPrefixOf (c :: w) = false →
      (Spot.mk (c :: w ++ r) i line col).atMark mark = false := fun mark hmark hprefix => by
    refine atMark_eq_false fun htake => ?_
    have hr' : r.head? ≠ some mark := fun hhead => by
      obtain ⟨hdash, hpoint⟩ := hr mark hhead
      exact hmark.elim hdash hpoint
    cases w with
    | nil =>
      cases r with
      | nil => simp at htake
      | cons d r => simp_all
    | cons d w =>
      cases w with
      | nil =>
        cases r with
        | nil => simp at htake
        | cons e r => simp_all
      | cons e w => simp_all
  rw [Spot.atDocumentMark, hmark '-' (.inl rfl) hstart, hmark '.' (.inr rfl) hend]
  rfl

/-- A word that begins none of the other tokens begins a plain scalar. -/
theorem StandsAt.fetch_word {w : List Char} (h : StandsAt l ⟨w ++ r, i, line, col⟩) (hne : w ≠ [])
    (hink : BeginsInk w) (hw : beginsMarked w = false) (hr : ∀ c ∈ r.head?, c ≠ '-' ∧ c ≠ '.') :
    l.fetch = l.fetchPlain := by
  have hdocument := @not_atDocumentMark_word _ i line col _ hw hr hne
  rw [Spot.atDocumentMark, Bool.or_eq_false_iff] at hdocument
  obtain ⟨c, w, rfl⟩ := List.exists_cons_of_ne_nil hne
  have hc : isSpace c = false ∧ isBreak c = false := by simpa [BeginsInk, isInk] using hink
  rw [beginsMarked, Bool.or_eq_false_iff, Bool.or_eq_false_iff, Bool.or_eq_false_iff] at hw
  obtain ⟨⟨⟨hlist, hmark⟩, -⟩, -⟩ := hw
  have hword : (c = '-' ∨ c = '?' ∨ c = ':') → wordEnds (w ++ r) = false := fun hc => by
    have hends : wordEnds w = false := by
      rcases hc with rfl | rfl | rfl <;> simpa using hmark
    cases w with
    | nil => cases hends
    | cons d w => exact hends
  have hblank : wordEnds (w ++ r) = false → (w ++ r).head?.any isSpace = false := fun hends => by
    cases hrest : w ++ r with
    | nil => rfl
    | cons d v =>
      rw [hrest, wordEnds, Bool.or_eq_false_iff] at hends
      simpa using hends.1
  simp only [List.contains_eq_mem, decide_eq_false_iff_not] at hlist
  have hbegins : plainBegins false (c :: (w ++ r)) = true := by
    by_cases hmarked : c = '-' ∨ c = '?' ∨ c = ':'
    · have hends := hword hmarked
      rcases hmarked with rfl | rfl | rfl <;> simp only [plainBegins, hends, hblank hends] <;> decide
    · simp at hlist
      simp [plainBegins, hc, hlist, not_or.mp hmarked]
  unfold fetch
  change (settled _).bind _ = _
  rw [h.settles]
  simp only [Option.bind_some, h.closes]
  have hdash : ¬ (c = '-' ∧ wordEnds (w ++ r) = true) := fun hc => by simp [hword (.inl hc.1)] at hc
  have hquestion : ¬ (c = '?' ∧ wordEnds (w ++ r) = true) := fun hc => by simp [hword (.inr (.inl hc.1))] at hc
  have hcolon : ¬ (c = ':' ∧ wordEnds (w ++ r) = true) := fun hc => by simp [hword (.inr (.inr hc.1))] at hc
  simp at hlist
  rw [List.cons_append] at hdocument
  simp [h.spot_eq, h.outside, hdocument, hlist, hdash, hquestion, hcolon, hbegins]

end Dispatch

/-- Spaces in front of a token do not matter. -/
theorem fetch_spaces (h : BeginsToken r) (n : Nat) :
    (between allowed ts indent outer ⟨spaces n ++ r, i, line, col⟩).fetch =
      (between allowed ts indent outer ⟨r, i + n, line, col + n⟩).fetch :=
  fetch_eq_of_settled ((settled_poised h isFresh_none).trans (settled_between h).symm)

theorem run_eq_of_fetch {l l' : Lexer} (h : l.fetch = l'.fetch) : run (fuel + 1) l = run (fuel + 1) l' := by
  rw [run, run, h]

/-- What is read from the lexer on, if it can be read, is what is read from one of the others on. -/
def Goes (l : Lexer) (S : Lexer → Prop) : Prop :=
  ∀ fuel ts, run fuel l = some ts → ∃ l', S l' ∧ ∃ fuel', run fuel' l' = some ts

section Goes
variable {S S' : Lexer → Prop} {l₁ : Lexer}

theorem Goes.of_self (h : S l) : Goes l S := fun fuel _ hrun => ⟨l, h, fuel, hrun⟩

theorem Goes.bind (h : Goes l S) (h' : ∀ l', S l' → Goes l' S') : Goes l S' := fun fuel ts hrun => by
  obtain ⟨l', hl', fuel', hrun'⟩ := h fuel ts hrun
  exact h' l' hl' fuel' ts hrun'

theorem Goes.mono (h : Goes l S) (h' : ∀ l', S l' → S' l') : Goes l S' := h.bind fun l' hl' => .of_self (h' l' hl')

/-- A lexer that goes on in the same way may stand at the beginning. -/
theorem Goes.of_fetch_eq (h : Goes l₁ S) (heq : l.fetch = l₁.fetch) : Goes l S := by
  intro fuel ts hrun
  cases fuel with
  | zero => cases hrun
  | succ fuel => exact h (fuel + 1) ts (run_eq_of_fetch heq ▸ hrun)

/-- Where no token can be read, nothing is read. -/
theorem Goes.of_fetch_none (h : l.fetch = none) : Goes l S := by
  intro fuel ts hrun
  cases fuel with
  | zero => cases hrun
  | succ fuel =>
    rw [run, h] at hrun
    cases hrun

/-- A token is read. -/
theorem Goes.of_fetch (hfetch : l.fetch = some l₁) (hgoes : l₁.tokens.head? ≠ some .streamEnd) (h : Goes l₁ S) :
    Goes l S := by
  intro fuel ts hrun
  cases fuel with
  | zero => cases hrun
  | succ fuel =>
    rw [run, hfetch] at hrun
    simp only [hgoes, if_false] at hrun
    exact h fuel ts hrun

/-- A token is read, and what it leaves behind settles. -/
theorem Goes.of_settled {l₂ : Lexer} (hfetch : l.fetch = some l₁) (hgoes : l₁.tokens.head? ≠ some .streamEnd)
    (hsettled : settled l₁ = some l₂) (hstays : settled l₂ = some l₂) (h : Goes l₂ S) : Goes l S :=
  .of_fetch hfetch hgoes (h.of_fetch_eq (fetch_eq_of_settled (hsettled.trans hstays.symm)))

/-- At the next token on the line the key that was noted is still there, or was given up for being too
far away. -/
theorem goes_poised (h : BeginsToken r) (hline : ∀ key ∈ key?, key.line = line)
    (hgoes : ∀ kept?, kept? = key? ∨ kept? = none → IsFresh kept? line (i + n) →
      Goes (poised allowed kept? ts indent outer ⟨r, i + n, line, col + n⟩) S) :
    Goes (poised allowed key? ts indent outer ⟨spaces n ++ r, i, line, col⟩) S := by
  by_cases hfresh : IsFresh key? line (i + n)
  · exact (hgoes key? (.inl rfl) hfresh).of_fetch_eq
      (fetch_eq_of_settled ((settled_poised h hfresh).trans (settled_poised (n := 0) h hfresh).symm))
  cases key? with
  | none => exact absurd isFresh_none hfresh
  | some key =>
    have hfar : key.index + 1024 < i + n := by
      refine Nat.lt_of_not_le fun hnear => hfresh fun key' hkey => ?_
      obtain rfl := Option.some.inj hkey
      exact ⟨hline key rfl, hnear⟩
    have hsettled : settled (poised allowed (some key) ts indent outer ⟨spaces n ++ r, i, line, col⟩) = _ :=
      settled_stale h hfar
    cases hrequired : key.required with
    | true =>
      rw [hrequired, if_pos rfl] at hsettled
      refine .of_fetch_none ?_
      unfold fetch
      change (settled _).bind _ = _
      rw [hsettled]
      rfl
    | false =>
      rw [hrequired, if_neg Bool.false_ne_true] at hsettled
      exact (hgoes none (.inr rfl) isFresh_none).of_fetch_eq
        (fetch_eq_of_settled (hsettled.trans (settled_between h).symm))

end Goes

/-- The tokens of a text without a byte order mark are those that are read from its start. -/
theorem run_of_tokens? {c : Char} {cs : List Char} (hc : c ≠ '\uFEFF') (h : tokens? (c :: cs) = some ts) :
    Lexer.run ((c :: cs).length + 2) (between true [] (-1) [] (Spot.start (c :: cs))) = some ts := by
  unfold tokens? at h
  split at h
  · extract_lets cs' at h
    have hmark : cs' = c :: cs := by
      unfold cs'
      split
      · rename_i heq
        exact absurd (List.cons.inj heq).1 hc
      · rfl
    rw [hmark] at h
    exact h
  · cases h

end Lexer

end Workboard.Yaml
