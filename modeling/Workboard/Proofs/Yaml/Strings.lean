import Workboard.Proofs.Yaml.Block
import Workboard.Proofs.Yaml.Lines
import Workboard.Proofs.Yaml.Plain
import Workboard.Proofs.Yaml.Quoted

/-!
# Strings as tokens

Every string, in whichever style it is written, is read back as one scalar token, both as a
value and as a key of one line.
-/
namespace Workboard.Yaml

section Styles
variable {s : String}

theorem style_cases (s : String) :
    (Style.ofText s = .block ∧ fitsBlock s.toList = true ∧ '\n' ∈ s.toList) ∨
      (Style.ofText s = .plain ∧ fitsPlain s.toList = true ∧ readsOtherwise s = false) ∨
      (Style.ofText s = .single ∧ fitsSingle s.toList = true ∧ '\n' ∉ s.toList) ∨
      Style.ofText s = .double := by
  unfold Style.ofText
  simp only [List.contains_eq_mem, decide_eq_true_eq]
  by_cases hbreak : '\n' ∈ s.toList
  · cases hblock : fitsBlock s.toList <;> simp [hbreak]
  · cases hplain : fitsPlain s.toList <;> cases hreads : readsOtherwise s <;>
      cases hsingle : fitsSingle s.toList <;> simp [hbreak]

theorem isPrinted_of_fits {cs : List Char} (h : needsEscapes cs = false) {c : Char} (hc : c ∈ cs) :
    isPrinted c = true := by
  rw [needsEscapes, Bool.or_eq_false_iff] at h
  simpa using List.any_eq_false.mp h.2 c hc

namespace Lexer

theorem isPlainBreak_of_isPrinted {c : Char} (hprinted : isPrinted c = true) (hbreak : isBreak c = true) :
    isPlainBreak c = true := by
  rcases (by simpa [isBreak, or_assoc] using hbreak) with rfl | rfl | rfl | rfl | rfl <;>
    first | rfl | exact absurd hprinted (by decide)

theorem isBare_of_fitsPlain {cs : List Char} (h : fitsPlain cs = true) :
    IsBare cs ∧ BeginsToken cs ∧ beginsMarked cs = false := by
  simp only [fitsPlain, Bool.and_eq_true, Bool.not_eq_true'] at h
  obtain ⟨⟨⟨⟨hescapes, hends⟩, hbreaks⟩, hbegins⟩, hmarks⟩ := h
  rw [holdsMark, Bool.or_eq_false_iff, Bool.or_eq_false_iff] at hmarks
  obtain ⟨⟨hvalue, hlast⟩, hcomment⟩ := hmarks
  rw [hasLooseEnd, Bool.or_eq_false_iff] at hends
  have hchars : ∀ c ∈ cs, c = ' ' ∨ isInk c = true := fun c hc =>
    space_or_isInk (isPrinted_of_fits hescapes hc) (by simpa using List.any_eq_false.mp hbreaks c hc)
  have hink : ∀ c ∈ cs, (c = ' ' || isBreak c) = false → isInk c = true := fun c hc hloose => by
    rw [Bool.or_eq_false_iff] at hloose
    exact (hchars c hc).resolve_left (by simpa using hloose.1)
  refine ⟨⟨hchars, hvalue, hcomment, fun c hc => ⟨hink c (List.mem_of_getLast? hc) ?_, ?_⟩⟩, fun c hc => ⟨?_, ?_, ?_⟩,
    hbegins⟩
  · simpa [Option.mem_def.mp hc] using hends.2
  · rintro rfl
    simp [Option.mem_def.mp hc] at hlast
  · exact hink c (List.mem_of_head? hc) (by simpa [Option.mem_def.mp hc] using hends.1)
  · rintro rfl
    cases cs with
    | nil => cases hc
    | cons d cs =>
      obtain rfl : d = '#' := by simpa using hc
      simp [beginsMarked] at hbegins
  · rintro rfl
    exact absurd (isPrinted_of_fits hescapes (List.mem_of_head? hc)) (by decide)

theorem isSingle_of_fitsSingle {cs : List Char} (h : fitsSingle cs = true) (hbreak : '\n' ∉ cs) : IsSingle cs := by
  simp only [fitsSingle, Bool.and_eq_true, Bool.not_eq_true'] at h
  have hescapes := h.1
  rw [needsEscapes, Bool.or_eq_false_iff] at hescapes
  refine ⟨fun c hc => ?_, hescapes.1, h.2⟩
  have hprinted := isPrinted_of_fits h.1 hc
  cases hb : isBreak c with
  | false => exact (space_or_isInk hprinted hb).imp_right .inl
  | true =>
    have hplain := isPlainBreak_of_isPrinted hprinted hb
    have hne : c ≠ '\n' := fun heq => hbreak (heq ▸ hc)
    exact .inr (.inr (by simpa [isPlainBreak, hne] using hplain))

theorem isLine_of_fitsBlock {cs : List Char} (h : fitsBlock cs = true) :
    ∀ c ∈ cs, isLineChar c = true ∨ isPlainBreak c = true := fun c hc => by
  simp only [fitsBlock, Bool.and_eq_true, Bool.not_eq_true'] at h
  have hprinted := isPrinted_of_fits h.1 hc
  cases hb : isBreak c with
  | false => exact .inl (by simpa [isLineChar] using space_or_isInk hprinted hb)
  | true => exact .inr (isPlainBreak_of_isPrinted hprinted hb)

end Lexer

end Styles

namespace Lexer
open Printer (spaces)

variable {allowed : Bool} {key? : Option KeyStart} {ts : List Token} {indent : Int} {outer : List Int}
  {r x : List Char} {c : Char} {i line col k m : Nat} {s s' : Spot} {text : String}

/-- The possible key that is noted once a token was read: it begins there, if keys are allowed. -/
def keyAt? (allowed : Bool) (key? : Option KeyStart) (ts : List Token) (indent : Int) (s : Spot) :
    Option KeyStart :=
  if allowed then some ⟨decide (indent = s.column), ts.length, s.index, s.line, s.column⟩ else key?

theorem saveKey_poised (h : ∀ key ∈ key?, allowed = false) : (poised allowed key? ts indent outer s).saveKey =
    some (poised allowed (keyAt? allowed key? ts indent s) ts indent outer s) := by
  cases allowed with
  | false => rfl
  | true =>
    cases key? with
    | none => rfl
    | some key => cases h key rfl

theorem fetchPlain_poised {broken : Bool} (hkey : ∀ key ∈ key?, allowed = false)
    (h : plainScalar false (indent + 1) s = some (text, broken, s')) :
    (poised allowed key? ts indent outer s).fetchPlain =
      some (poised broken (keyAt? allowed key? ts indent s) (.scalar text true :: ts) indent outer s') := by
  rw [fetchPlain, saveKey_poised hkey]
  change (plainScalar false (indent + 1) s).bind _ = _
  rw [h]
  rfl

theorem fetchQuoted_poised {single : Bool} (hkey : ∀ key ∈ key?, allowed = false)
    (h : quotedScalar single s.skip = some (text, s')) :
    (poised allowed key? ts indent outer s).fetchQuoted single =
      some (poised false (keyAt? allowed key? ts indent s) (.scalar text false :: ts) indent outer s') := by
  rw [fetchQuoted, saveKey_poised hkey]
  change (quotedScalar single s.skip).bind _ = _
  rw [h]
  rfl

theorem fetchBlockScalar_poised (hkey : ∀ key ∈ key?, key.required = false)
    (h : blockScalar true indent s.skip = some (text, s')) :
    (poised allowed key? ts indent outer s).fetchBlockScalar true =
      some (between true (.scalar text false :: ts) indent outer s') := by
  have hremove : (poised allowed key? ts indent outer s).removeKey =
      some (between allowed ts indent outer s) := by
    cases key? with
    | none => rfl
    | some key => simp [removeKey, poised, between, hkey key rfl]
  rw [fetchBlockScalar, hremove]
  change (blockScalar true indent s.skip).bind _ = _
  rw [h]
  rfl

/-- The key was noted on this line, behind which no other key is allowed, and it need not be one. -/
def IsOptional (allowed : Bool) (key? : Option KeyStart) (line : Nat) : Prop :=
  ∀ key ∈ key?, allowed = false ∧ key.required = false ∧ key.line = line

theorem isOptional_none : IsOptional allowed none line := by simp [IsOptional]

/-- Right of its block a token begins no key that is required. -/
theorem keyAt?_of_lt (h : indent < s.column) (hkey : IsOptional allowed key? s.line) :
    IsOptional false (keyAt? allowed key? ts indent s) s.line := by
  intro key hmem
  cases allowed with
  | false => exact hkey key hmem
  | true =>
    obtain rfl := Option.some.inj hmem
    exact ⟨rfl, decide_eq_false (Int.ne_of_lt h), rfl⟩

theorem beginsToken_append {w : List Char} (h : BeginsToken w) (hne : w ≠ []) (r : List Char) :
    BeginsToken (w ++ r) := by
  obtain ⟨c, w, rfl⟩ := List.exists_cons_of_ne_nil hne
  exact fun d hd => h d hd

theorem BeginsToken.head {c : Char} (hink : isInk c = true) (hc : c ≠ '#' ∧ c ≠ '\uFEFF') (r : List Char) :
    BeginsToken (c :: r) := fun d hd => by
  obtain rfl : c = d := by simpa using hd
  exact ⟨hink, hc⟩

/-- The flag of a string's token: whether it is written without quotes. -/
def isPlainStyle (s : String) : Bool := Style.ofText s = .plain

/-- The lexer stands at the text, at the column, with these tokens. -/
def At (ts : List Token) (indent : Int) (outer : List Int) (r : List Char) (col : Nat) (l : Lexer) : Prop :=
  ∃ i line, l = between true ts indent outer ⟨r, i, line, col⟩

section Values
variable {s : String} (hcol : m < col) (hkey : IsOptional allowed key? line) (hfresh : IsFresh key? line i)
  (hr : BeginsToken r)
include hcol hkey hfresh hr

/-- Line ends behind the block are read with the text, or passed over. -/
theorem goes_block {more : List Char} (hfits : fitsBlock s.toList = true) (hne : s.toList ≠ []) (hk : k ≤ m)
    (hmore : ∀ b ∈ more, isPlainBreak b = true)
    (hlast : more ≠ [] → ∃ c ∈ s.toList.getLast?, isPlainBreak c = true) :
    Goes (poised allowed key? ts m outer ⟨'|' :: (Printer.blockHints s.toList ++
        '\n' :: (Printer.blockLines (m + 2) true (s.toList ++ more) ++ (spaces k ++ r))), i, line, col⟩)
      fun l => ∃ kept, (kept = [] ∨ kept = more) ∧
        At (.scalar (String.ofList (s.toList ++ kept)) false :: ts) m outer r k l := by
  obtain ⟨kept, i', line', hkept, hread⟩ := @blockScalar_block (i + 1) _ _ (m + 2) _ _ _ m
      (isLine_of_fitsBlock hfits) hne hmore hlast (by omega) (by omega : k < m + 2) hr.beginsInk (col + 1)
  have hstands := @standsAt_poised ts m outer _ i line col allowed key?
      (BeginsToken.head (c := '|') (by decide) (by decide) (Printer.blockHints s.toList ++
      '\n' :: (Printer.blockLines (m + 2) true (s.toList ++ more) ++ (spaces k ++ r)))) (by omega) hfresh
  exact .of_fetch (hstands.fetch_bar.trans (fetchBlockScalar_poised (fun key hmem => (hkey key hmem).2.1) hread))
    (by simp [between]) (.of_self ⟨kept, hkept, i', line', rfl⟩)

theorem goes_plain (hfits : fitsPlain s.toList = true) (hne : s.toList ≠ []) (hk : k ≤ m) :
    Goes (poised allowed key? ts m outer ⟨s.toList ++ '\n' :: (spaces k ++ r), i, line, col⟩)
      (At (.scalar s true :: ts) m outer r k) := by
  obtain ⟨hbare, hbegins, hmarked⟩ := isBare_of_fitsPlain hfits
  have hstands := @standsAt_poised ts m outer _ i line col allowed key?
      (beginsToken_append hbegins hne ('\n' :: (spaces k ++ r))) (by omega) hfresh
  have hcan : CanBegin ⟨s.toList ++ '\n' :: (spaces k ++ r), i, line, col⟩ := by
    obtain ⟨c, w, hcw⟩ := List.exists_cons_of_ne_nil hne
    rw [hcw]
    exact canBegin_of_column (hbegins c (by simp [hcw])).2.1 (by omega)
  have hread := @plainScalar_value _ _ _ (m + 1) _ _ hbare hne hbegins.beginsInk _ hcan (by omega) (by omega)
    hr.beginsInk
  rw [String.ofList_toList] at hread
  have hnoted := @keyAt?_of_lt allowed key? ts m ⟨s.toList ++ '\n' :: (spaces k ++ r), i, line, col⟩
    (by simp only; omega) hkey
  exact .of_settled ((hstands.fetch_word hne hbegins.beginsInk hmarked (by simp)).trans
      (fetchPlain_poised (fun key hmem => (hkey key hmem).1) hread)) (by simp [poised, between])
    (settled_spaces (n := 0) hr fun key hmem =>
      ⟨(hnoted key hmem).2.1, Nat.lt_succ_of_le (Nat.le_of_eq (hnoted key hmem).2.2)⟩)
    (settled_between hr) (.of_self ⟨_, _, rfl⟩)

theorem goes_single (hfits : fitsSingle s.toList = true) (hbreak : '\n' ∉ s.toList) :
    Goes (poised allowed key? ts m outer ⟨'\'' :: (Printer.singleInside (m + 2) false s.toList ++
        '\'' :: '\n' :: (spaces k ++ r)), i, line, col⟩)
      (At (.scalar s false :: ts) m outer r k) := by
  have hstands := @standsAt_poised ts m outer _ i line col allowed key?
      (BeginsToken.head (c := '\'') (by decide) (by decide)
      (Printer.singleInside (m + 2) false s.toList ++ '\'' :: '\n' :: (spaces k ++ r))) (by omega) hfresh
  obtain ⟨col', -, hread⟩ := @quotedScalar_single (i + 1) _ (col + 1) ('\n' :: (spaces k ++ r)) (m + 2) _
      (isSingle_of_fitsSingle hfits hbreak) (by omega) (.inl (by omega)) (by simp)
  rw [String.ofList_toList] at hread
  have hnoted := @keyAt?_of_lt allowed key? ts m ⟨'\'' ::
      (Printer.singleInside (m + 2) false s.toList ++ '\'' :: '\n' :: (spaces k ++ r)), i, line, col⟩
      (by simp only; omega) hkey
  exact .of_settled (hstands.fetch_single.trans (fetchQuoted_poised (fun key hmem => (hkey key hmem).1) hread))
    (by simp [poised, between])
    (settled_lineEnd hr fun key hmem =>
      ⟨(hnoted key hmem).2.1, by rw [(hnoted key hmem).2.2]; exact Nat.le_add_right _ _⟩)
    (settled_between hr) (.of_self ⟨_, _, rfl⟩)

theorem goes_double :
    Goes (poised allowed key? ts m outer ⟨'"' :: (s.toList.flatMap Printer.escape ++
        '"' :: '\n' :: (spaces k ++ r)), i, line, col⟩)
      (At (.scalar s false :: ts) m outer r k) := by
  have hstands := @standsAt_poised ts m outer _ i line col allowed key?
      (BeginsToken.head (c := '"') (by decide) (by decide)
      (s.toList.flatMap Printer.escape ++ '"' :: '\n' :: (spaces k ++ r))) (by omega) hfresh
  have hread := @quotedScalar_double (i + 1) line (col + 1) ('\n' :: (spaces k ++ r)) s.toList (by omega)
  rw [String.ofList_toList] at hread
  have hnoted := @keyAt?_of_lt allowed key? ts m ⟨'"' ::
      (s.toList.flatMap Printer.escape ++ '"' :: '\n' :: (spaces k ++ r)), i, line, col⟩
    (by simp only; omega) hkey
  exact .of_settled (hstands.fetch_double.trans (fetchQuoted_poised (fun key hmem => (hkey key hmem).1) hread))
    (by simp [poised, between])
    (settled_lineEnd hr fun key hmem => ⟨(hnoted key hmem).2.1, Nat.le_of_eq (hnoted key hmem).2.2⟩)
    (settled_between hr) (.of_self ⟨_, _, rfl⟩)

end Values

theorem ne_nil_of_plain {s : String} (h : readsOtherwise s = false) : s.toList ≠ [] := by
  rintro heq
  obtain rfl : s = "" := by rw [← String.ofList_toList (s := s), heq]
  simp [readsOtherwise, Plain.ofText] at h

theorem beginsToken_string (s : String) (r : List Char) : BeginsToken (Printer.string m s ++ r) := by
  obtain ⟨hstyle, -⟩ | ⟨hstyle, hfits, hreads⟩ | ⟨hstyle, -⟩ | hstyle := style_cases s
  · simpa [Printer.string, hstyle] using BeginsToken.head (c := '|') (by decide) (by decide) _
  · simpa [Printer.string, hstyle] using
      beginsToken_append (isBare_of_fitsPlain hfits).2.1 (ne_nil_of_plain hreads) ('\n' :: r)
  · simpa [Printer.string, hstyle, Printer.singleText] using
      BeginsToken.head (c := '\'') (by decide) (by decide) _
  · simpa [Printer.string, hstyle, Printer.doubleText] using
      BeginsToken.head (c := '"') (by decide) (by decide) _

/-- A string behind a mark is read back as one scalar token. -/
theorem goes_string (s : String) (hcol : m < col) (hkey : IsOptional allowed key? line) (hfresh : IsFresh key? line i)
    (hr : BeginsToken r) (hk : k ≤ m) :
    Goes (poised allowed key? ts m outer ⟨Printer.string (m + 2) s ++ (spaces k ++ r), i, line, col⟩)
      (At (.scalar s (isPlainStyle s) :: ts) m outer r k) := by
  obtain ⟨hstyle, hfits, hbreak⟩ | ⟨hstyle, hfits, hreads⟩ | ⟨hstyle, hfits, hbreak⟩ | hstyle := style_cases s
  · have hne : s.toList ≠ [] := List.ne_nil_of_mem hbreak
    have hgoes := @goes_block allowed key? ts outer r i line col k m s hcol hkey hfresh hr [] hfits hne hk (by simp)
      (absurd rfl)
    rw [List.append_nil] at hgoes
    simp only [Printer.string, hstyle, isPlainStyle, List.cons_append, List.append_assoc]
    refine hgoes.mono fun l ⟨kept, hkept, hl⟩ => ?_
    obtain rfl : kept = [] := hkept.elim id id
    rwa [List.append_nil, String.ofList_toList] at hl
  · simpa [Printer.string, hstyle, isPlainStyle] using
      goes_plain hcol hkey hfresh hr hfits (ne_nil_of_plain hreads) hk
  · simpa [Printer.string, hstyle, isPlainStyle, Printer.singleText] using
      goes_single hcol hkey hfresh hr hfits hbreak
  · simpa [Printer.string, hstyle, isPlainStyle, Printer.doubleText] using
      @goes_double _ _ ts outer _ i line col k m s hcol hkey hfresh hr

theorem isPlainStyle_of_mem {s : String} (h : '\n' ∈ s.toList) : isPlainStyle s = false := by
  obtain ⟨hstyle, -⟩ | ⟨-, hfits, -⟩ | ⟨hstyle, -⟩ | hstyle := style_cases s
  · simp [isPlainStyle, hstyle]
  · obtain hspace | hink := (isBare_of_fitsPlain hfits).1.chars '\n' h
    · cases hspace
    · cases hink
  · simp [isPlainStyle, hstyle]
  · simp [isPlainStyle, hstyle]

/-- A string at the end of the text whose last line has another end than a line feed, and a line feed
behind it: that belongs to the string, or is none of its lines. -/
theorem goes_string_fed (s : String) (hcol : m < col) (hkey : IsOptional allowed key? line) (hfresh : IsFresh key? line i)
    (hlast : (Printer.string (m + 2) s).getLast? ≠ some '\n') :
    Goes (poised allowed key? ts m outer ⟨Printer.string (m + 2) s ++ ['\n'], i, line, col⟩)
      fun l => ∃ s', (s' = s ∨ '\n' ∈ s.toList ∧ s' = String.ofList (s.toList ++ ['\n'])) ∧
        At (.scalar s' (isPlainStyle s') :: ts) m outer [] 0 l := by
  obtain ⟨hstyle, hfits, hbreak⟩ | ⟨hstyle, -⟩ | ⟨hstyle, -⟩ | hstyle := style_cases s
  · have hne : s.toList ≠ [] := List.ne_nil_of_mem hbreak
    have hlines : (Printer.blockLines (m + 2) true s.toList).getLast? ≠ some '\n' := fun heq => by
      refine hlast ?_
      simp only [Printer.string, hstyle]
      rw [List.append_cons, List.getLast?_append, heq]
      rfl
    obtain ⟨c, hc, hend⟩ := exists_break_of_printed hne hlines
    have hplain : isPlainBreak c = true :=
      (isLine_of_fitsBlock hfits c (List.mem_of_getLast? hc)).resolve_left fun hline => by
        rw [(isBreak_of_isLineChar hline).1] at hend
        cases hend
    have htext : Printer.string (m + 2) s ++ ['\n'] = '|' :: (Printer.blockHints s.toList ++
        '\n' :: (Printer.blockLines (m + 2) true (s.toList ++ ['\n']) ++ (spaces 0 ++ []))) := by
      simp [Printer.string, hstyle, printed_append hlines, spaces]
    rw [htext]
    have hfeed : ∀ b ∈ ['\n'], isPlainBreak b = true := List.forall_mem_singleton.mpr rfl
    refine (goes_block hcol hkey hfresh beginsToken_nil hfits hne (Nat.zero_le m) hfeed
      fun _ => ⟨c, hc, hplain⟩).mono ?_
    rintro l ⟨kept, hkept, hl⟩
    have hmem : '\n' ∈ (String.ofList (s.toList ++ kept)).toList := by
      rw [String.toList_ofList]
      exact List.mem_append_left _ hbreak
    rw [← isPlainStyle_of_mem hmem] at hl
    refine ⟨_, ?_, hl⟩
    obtain rfl | rfl := hkept
    · exact .inl (by rw [List.append_nil, String.ofList_toList])
    · exact .inr ⟨hbreak, rfl⟩
  all_goals
    exact absurd (by simp [Printer.string, hstyle]) hlast

section Keys
variable {cs : List Char} {S : Lexer → Prop} (hcol : indent ≤ col) (hkey : ∀ key ∈ key?, allowed = false)
  (hfresh : IsFresh key? line i)
include hcol hkey hfresh

/-- A word in front of a colon. -/
theorem goes_plainKey (hfits : fitsPlain cs = true) (hne : cs ≠ []) (hx : wordEnds x = true) (hgoes : ∀ i' col', col ≤ col' →
      Goes (poised false (keyAt? allowed key? ts indent ⟨cs ++ ':' :: x, i, line, col⟩)
        (.scalar (String.ofList cs) true :: ts) indent outer ⟨':' :: x, i', line, col'⟩) S) :
    Goes (poised allowed key? ts indent outer ⟨cs ++ ':' :: x, i, line, col⟩) S := by
  obtain ⟨hbare, hbegins, hmarked⟩ := isBare_of_fitsPlain hfits
  have hstands := @standsAt_poised ts indent outer _ i line col allowed key?
    (beginsToken_append hbegins hne (':' :: x)) hcol hfresh
  have hcan : CanBegin ⟨cs ++ ':' :: x, i, line, col⟩ := by
    refine ⟨not_atDocumentMark_word hmarked (by simp) hne, fun hhead => ?_⟩
    exact (beginsToken_append hbegins hne (':' :: x) '#' hhead).2.1 rfl
  have hread := @plainScalar_key _ _ _ (indent + 1) _ _ hbare hne hbegins.beginsInk hcan (by omega) hx
  exact .of_fetch ((hstands.fetch_word hne hbegins.beginsInk hmarked (by simp)).trans (fetchPlain_poised hkey hread))
    (by simp [poised, between]) (hgoes _ _ (Nat.le_add_right _ _))

theorem goes_singleKey (hfits : fitsSingle cs = true) (hbreak : cs.any isBreak = false) (hgoes : ∀ i' col', col ≤ col' →
      Goes (poised false (keyAt? allowed key? ts indent ⟨Printer.singleText 0 cs ++ ':' :: x, i, line, col⟩)
        (.scalar (String.ofList cs) false :: ts) indent outer ⟨':' :: x, i', line, col'⟩) S) :
    Goes (poised allowed key? ts indent outer ⟨Printer.singleText 0 cs ++ ':' :: x, i, line, col⟩) S := by
  have hnone : ∀ c ∈ cs, isBreak c = false := fun c hc => by simpa using List.any_eq_false.mp hbreak c hc
  have hcount : cs.countP isBreak = 0 := List.countP_eq_zero.mpr fun c hc => by simp [hnone c hc]
  have htext : Printer.singleText 0 cs ++ ':' :: x = '\'' :: (Printer.singleInside 0 false cs ++ '\'' :: ':' :: x) := by
    simp [Printer.singleText]
  rw [htext] at hgoes ⊢
  have hstands := @standsAt_poised ts indent outer _ i line col allowed key?
      (BeginsToken.head (c := '\'') (by decide) (by decide)
      (Printer.singleInside 0 false cs ++ '\'' :: ':' :: x)) hcol hfresh
  obtain ⟨col', hle, hread⟩ := @quotedScalar_single (i + 1) line (col + 1) (':' :: x) 0 _
      (isSingle_of_fitsSingle hfits fun hmem => by
      have := hnone _ hmem
      exact absurd this (by decide)) (by omega) (.inr hnone) (by simp)
  rw [hcount, Nat.add_zero] at hread
  exact .of_fetch (hstands.fetch_single.trans (fetchQuoted_poised hkey hread)) (by simp [poised, between])
    (hgoes _ _ (by have := hle hcount; omega))

theorem goes_doubleKey (cs : List Char) (hgoes : ∀ i' col', col ≤ col' →
      Goes (poised false (keyAt? allowed key? ts indent ⟨Printer.doubleText cs ++ ':' :: x, i, line, col⟩)
        (.scalar (String.ofList cs) false :: ts) indent outer ⟨':' :: x, i', line, col'⟩) S) :
    Goes (poised allowed key? ts indent outer ⟨Printer.doubleText cs ++ ':' :: x, i, line, col⟩) S := by
  have htext : Printer.doubleText cs ++ ':' :: x = '"' :: (cs.flatMap Printer.escape ++ '"' :: ':' :: x) := by
    simp [Printer.doubleText]
  rw [htext] at hgoes ⊢
  have hstands := @standsAt_poised ts indent outer _ i line col allowed key?
      (BeginsToken.head (c := '"') (by decide) (by decide)
      (cs.flatMap Printer.escape ++ '"' :: ':' :: x)) hcol hfresh
  have hread := @quotedScalar_double (i + 1) line (col + 1) (':' :: x) cs (by omega)
  exact .of_fetch (hstands.fetch_double.trans (fetchQuoted_poised hkey hread)) (by simp [poised, between])
    (hgoes _ _ (by omega))

end Keys

end Lexer

end Workboard.Yaml
