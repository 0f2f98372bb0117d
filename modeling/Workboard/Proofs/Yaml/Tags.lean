import Workboard.Proofs.Yaml.Marks

/-!
# Tags as tokens

A tag is written without blanks, and a tag that is read reaches up to a blank. So if a tag can be
read at all it is read to its end, whichever tag it comes to then.
-/
namespace Workboard.Yaml.Lexer

/-- What no blank and no line end has, characters of words only have. -/
theorem isInk_of_blanks {p : Char → Bool}
    (h : [' ', '\t', '\n', '\r', '\x85', '\u2028', '\u2029'].all (fun c => !p c) = true) {c : Char}
    (hc : p c = true) : isInk c = true := by
  have hnot : c ∉ [' ', '\t', '\n', '\r', '\x85', '\u2028', '\u2029'] := fun hmem => by
    have hno := List.all_eq_true.mp h c hmem
    rw [hc] at hno
    cases hno
  simpa [isInk, isSpace, isBreak, not_or, and_assoc] using hnot

theorem isInk_of_isTagChar {angled : Bool} {c : Char} (h : isTagChar angled c = true) : isInk c = true := by
  have hangled : isTagChar true c = true := by
    cases angled with
    | true => exact h
    | false =>
      rw [isTagChar, Bool.false_and, Bool.or_false] at h
      rw [isTagChar, h, Bool.true_or]
  exact isInk_of_blanks (by decide) hangled

theorem isInk_of_hexDigit? {c : Char} {n : Nat} (h : hexDigit? c = some n) : isInk c = true :=
  isInk_of_blanks (p := fun c => (hexDigit? c).isSome) (by decide) (by simp [h])

/-- The tag of a value is written in characters of words. -/
theorem isInk_of_mem_tagText {name : String} {c : Char} (h : c ∈ Printer.tagText name) : isInk c = true := by
  have hchar : ∀ d, ∀ c ∈ Printer.tagChar d, isInk c = true := by
    intro d c hc
    unfold Printer.tagChar at hc
    split at hc
    · rename_i hplain
      obtain rfl := List.mem_singleton.mp hc
      exact isInk_of_blanks (p := fun c => isNameChar c || ";/?:@&=+$,.~*'()[]".toList.contains c) (by decide)
        hplain
    · obtain ⟨byte, -, hc⟩ := List.mem_flatMap.mp hc
      have hall : ∀ n < 256, ((Nat.toDigits 16 n).map Char.toUpper).all isInk = true := by decide +kernel
      simp only [List.mem_cons, List.mem_append, List.mem_replicate] at hc
      obtain rfl | ⟨-, rfl⟩ | hc := hc
      · decide
      · decide
      · exact List.all_eq_true.mp (hall byte.toNat byte.toNat_lt) c hc
  unfold Printer.tagText at h
  split at h
  · obtain rfl | h := List.mem_cons.mp h
    · decide
    · obtain ⟨d, -, h⟩ := List.mem_flatMap.mp h
      exact hchar d c h
  · simp only [List.cons_append, List.mem_cons, List.mem_append, List.not_mem_nil, or_false] at h
    obtain rfl | rfl | h | rfl := h
    · decide
    · decide
    · obtain ⟨d, -, h⟩ := List.mem_flatMap.mp h
      exact hchar d c h
    · decide

theorem exists_tagText (name : String) : ∃ w, Printer.tagText name = '!' :: w := by
  unfold Printer.tagText
  split <;> exact ⟨_, rfl⟩

/-- One place lies behind another one, with characters of words between them. -/
def Passes (s t : Spot) : Prop :=
  ∃ w, (∀ c ∈ w, isInk c = true) ∧ s.rest = w ++ t.rest ∧ t = s.skipMany w.length

variable {s t u : Spot} {angled : Bool}

theorem Passes.refl (s : Spot) : Passes s s := ⟨[], by simp, rfl, rfl⟩

theorem Passes.trans (h : Passes s t) (h' : Passes t u) : Passes s u := by
  obtain ⟨w, hw, hrest, rfl⟩ := h
  obtain ⟨v, hv, hrest', rfl⟩ := h'
  refine ⟨w ++ v, fun c hc => (List.mem_append.mp hc).elim (hw c) (hv c), ?_, ?_⟩
  · rw [hrest, hrest', List.append_assoc]
  · simp [Spot.skipMany, Nat.add_assoc]

theorem passes_skipMany {w r : List Char} (hw : ∀ c ∈ w, isInk c = true) (h : s.rest = w ++ r) :
    Passes s (s.skipMany w.length) :=
  ⟨w, hw, by simp [Spot.skipMany, h], rfl⟩

theorem passes_skip {c : Char} (hc : isInk c = true) (h : s.rest.head? = some c) : Passes s s.skip := by
  obtain ⟨r, hr⟩ : ∃ r, s.rest = c :: r := by
    cases hrest : s.rest with
    | nil => simp [hrest] at h
    | cons d r => exact ⟨r, by rw [← Option.some.inj (by simpa [hrest] using h : some d = some c)]⟩
  exact @passes_skipMany s [c] r (by simpa using hc) hr

section Percents
variable {cs rest : List Char} {b : Nat}

theorem exists_of_percentByte? (h : percentByte? cs = some (b, rest)) :
    ∃ w, cs = w ++ rest ∧ w.length = 3 ∧ ∀ c ∈ w, isInk c = true := by
  unfold percentByte? at h
  split at h
  · rename_i x y r
    obtain ⟨m, hx, h⟩ := Option.bind_eq_some_iff.mp h
    obtain ⟨n, hy, h⟩ := Option.bind_eq_some_iff.mp h
    obtain ⟨-, rfl⟩ := Prod.mk.inj (Option.some.inj h)
    refine ⟨['%', x, y], rfl, rfl, ?_⟩
    simp only [List.mem_cons, List.not_mem_nil, or_false]
    rintro c (rfl | rfl | rfl)
    · decide
    · exact isInk_of_hexDigit? hx
    · exact isInk_of_hexDigit? hy
  · cases h

theorem exists_of_percentTail? {count code code' : Nat} (h : percentTail? count code cs = some (code', rest)) :
    ∃ w, cs = w ++ rest ∧ w.length = 3 * count ∧ ∀ c ∈ w, isInk c = true := by
  induction count generalizing cs code with
  | zero =>
    obtain ⟨-, rfl⟩ := Prod.mk.inj (Option.some.inj h)
    exact ⟨[], rfl, rfl, by simp⟩
  | succ count ih =>
    rw [percentTail?] at h
    split at h
    · rename_i b r hbyte
      split at h
      · obtain ⟨w, rfl, hlen, hw⟩ := exists_of_percentByte? hbyte
        obtain ⟨v, rfl, hlen', hv⟩ := ih h
        refine ⟨w ++ v, by rw [List.append_assoc], ?_, fun c hc => (List.mem_append.mp hc).elim (hw c) (hv c)⟩
        rw [List.length_append, hlen, hlen']
        omega
      · cases h
    · cases h

theorem exists_of_percentChar? {d : Char} {n : Nat} (h : percentChar? cs = some (d, n)) :
    ∃ w r, cs = w ++ r ∧ w.length = n ∧ ∀ c ∈ w, isInk c = true := by
  obtain ⟨⟨b, r⟩, hbyte, hrest⟩ := Option.bind_eq_some_iff.mp h
  dsimp -zeta only at hrest
  extract_lets jp at hrest
  obtain ⟨w, hcs, hlen, hw⟩ := exists_of_percentByte? hbyte
  have hmore : ∀ count code least, jp (count, code, least) = some (d, n) →
      ∃ w r, cs = w ++ r ∧ w.length = n ∧ ∀ c ∈ w, isInk c = true := by
    intro count code least hjp
    obtain ⟨⟨code', r'⟩, htail, hjp⟩ := Option.bind_eq_some_iff.mp hjp
    obtain ⟨e, -, hlast⟩ := Option.bind_eq_some_iff.mp hjp
    obtain ⟨v, hr, hlen', hv⟩ := exists_of_percentTail? htail
    split at hlast
    · obtain ⟨-, rfl⟩ := Prod.mk.inj (Option.some.inj hlast)
      refine ⟨w ++ v, r', by rw [hcs, hr, List.append_assoc], ?_,
        fun c hc => (List.mem_append.mp hc).elim (hw c) (hv c)⟩
      rw [List.length_append, hlen, hlen']
      omega
    · cases hlast
  split at hrest
  · exact hmore 0 b 0 hrest
  split at hrest
  · exact hmore 1 (b % 32) 0x80 hrest
  split at hrest
  · exact hmore 2 (b % 16) 0x800 hrest
  split at hrest
  · exact hmore 3 (b % 8) 0x10000 hrest
  · cases hrest

end Percents

theorem passes_suffixChars {fuel : Nat} {acc cs : List Char} (h : suffixChars fuel angled acc s = some (cs, t)) :
    Passes s t := by
  induction fuel generalizing acc s with
  | zero =>
    obtain ⟨-, rfl⟩ := Prod.mk.inj (Option.some.inj h)
    exact .refl s
  | succ fuel ih =>
    rw [suffixChars] at h
    split at h
    · obtain ⟨-, rfl⟩ := Prod.mk.inj (Option.some.inj h)
      exact .refl s
    · rename_i c r hrest
      split at h
      · split at h
        · rename_i d n hchar
          obtain ⟨w, v, hwv, rfl, hw⟩ := exists_of_percentChar? hchar
          exact (passes_skipMany hw hwv).trans (ih h)
        · cases h
      · split at h
        · rename_i htag
          exact (passes_skip (isInk_of_isTagChar htag) (by rw [hrest]; rfl)).trans (ih h)
        · obtain ⟨-, rfl⟩ := Prod.mk.inj (Option.some.inj h)
          exact .refl s

theorem passes_suffix {before cs : List Char} (h : suffix angled before s = some (cs, t)) : Passes s t := by
  unfold suffix at h
  split at h
  · cases h
  · rename_i acc u hchars
    split at h
    · cases h
    · obtain ⟨-, rfl⟩ := Prod.mk.inj (Option.some.inj h)
      exact passes_suffixChars hchars

theorem passes_handle {cs : List Char} (h : handle s = some (cs, t)) : Passes s t := by
  unfold handle at h
  split at h
  · rename_i r hrest
    have hfirst : Passes s s.skip := passes_skip (c := '!') (by decide) (by rw [hrest]; rfl)
    have hname : Passes s.skip (s.skip.skipMany (s.skip.takeWhile isNameChar).length) := by
      refine passes_skipMany (r := s.skip.rest.dropWhile isNameChar) (fun c hc => ?_) ?_
      · exact isInk_of_blanks (p := isNameChar) (by decide) (List.all_eq_true.mp List.all_takeWhile c hc)
      · exact List.takeWhile_append_dropWhile.symm
    simp only at h
    split at h
    · rename_i hmark
      obtain ⟨-, rfl⟩ := Prod.mk.inj (Option.some.inj h)
      exact (hfirst.trans hname).trans (passes_skip (by decide) hmark)
    · obtain ⟨-, rfl⟩ := Prod.mk.inj (Option.some.inj h)
      exact hfirst.trans hname
  · cases h

/-- A tag reaches up to a blank or a line end. -/
theorem exists_of_tag {tok : Token} (hmark : s.rest.head? = some '!') (h : tag false s = some (tok, t)) :
    Passes s t ∧ wordEnds t.rest = true ∧ ∃ handle suffix, tok = .tag handle suffix := by
  unfold tag at h
  extract_lets jp at h
  have hend : ∀ hd sx u, Passes s u → jp (hd, sx, u) = some (tok, t) →
      Passes s t ∧ wordEnds t.rest = true ∧ ∃ handle suffix, tok = .tag handle suffix := by
    intro hd sx u hpasses hjp
    simp only [jp, Bool.false_and, Bool.or_false] at hjp
    split at hjp
    · rename_i hends
      obtain ⟨rfl, rfl⟩ := Prod.mk.inj (Option.some.inj hjp)
      exact ⟨hpasses, hends, _, _, rfl⟩
    · cases hjp
  split at h
  · rename_i hangle
    have htwo : Passes s (s.skipMany 2) := by
      obtain ⟨r, hr⟩ : ∃ r, s.rest = ['!', '<'] ++ r := by
        obtain ⟨cs, hcs⟩ := List.head?_eq_some_iff.mp hmark
        rw [hcs] at hangle
        obtain ⟨r, hr⟩ := List.head?_eq_some_iff.mp hangle
        exact ⟨r, by rw [hcs, show cs = '<' :: r from hr]; rfl⟩
      have hink : ∀ c ∈ ['!', '<'], isInk c = true :=
        List.forall_mem_cons.mpr ⟨by decide, List.forall_mem_singleton.mpr (by decide)⟩
      exact passes_skipMany hink hr
    split at h
    · cases h
    · rename_i hsuffix
      split at h
      · rename_i hclose
        exact hend _ _ _ ((htwo.trans (passes_suffix hsuffix)).trans (passes_skip (by decide) hclose)) h
      · cases h
  · obtain ⟨⟨cs, v⟩, hhandle, hparts⟩ := Option.bind_eq_some_iff.mp h
    have hfirst := passes_handle hhandle
    simp only at hparts
    split at hparts
    · obtain ⟨⟨ds, x⟩, hsuffix, hparts⟩ := Option.bind_eq_some_iff.mp hparts
      exact hend _ _ _ (hfirst.trans (passes_suffix hsuffix)) hparts
    · obtain ⟨⟨ds, x⟩, hsuffix, hparts⟩ := Option.bind_eq_some_iff.mp hparts
      simp only at hparts
      split at hparts <;> exact hend _ _ _ (hfirst.trans (passes_suffix hsuffix)) hparts

/-- A text begins with one stretch of characters of words only. -/
theorem eq_of_append_eq {v w r x : List Char} (h : v ++ r = w ++ x) (hv : ∀ c ∈ v, isInk c = true)
    (hw : ∀ c ∈ w, isInk c = true) (hr : wordEnds r = true) (hx : wordEnds x = true) : v = w ∧ r = x := by
  have hstretch : ∀ {w x : List Char}, (∀ c ∈ w, isInk c = true) → wordEnds x = true →
      (w ++ x).takeWhile isInk = w := by
    intro w x hw hx
    rw [List.takeWhile_append_of_pos hw]
    cases x with
    | nil => simp
    | cons c x =>
      have hc : isInk c = false := by
        rw [wordEnds, Bool.or_eq_true] at hx
        obtain hc | hc := hx <;> simp [isInk, hc]
      simp [hc]
  obtain rfl : v = w := by rw [← hstretch hv hr, h, hstretch hw hx]
  exact ⟨rfl, List.append_cancel_left h⟩

section Goes
variable {l : Lexer} {allowed : Bool} {key? : Option KeyStart} {ts : List Token} {indent : Int} {outer : List Int}
  {x r : List Char} {i line col : Nat} {S : Lexer → Prop}

theorem StandsAt.fetch_exclamation (hl : StandsAt l ⟨'!' :: x, i, line, col⟩) : l.fetch = l.fetchTag := by
  unfold fetch
  change (settled _).bind _ = _
  rw [hl.settles]
  simp only [Option.bind_some, hl.closes]
  simp [hl.spot_eq, Spot.atMark]

/-- The tag of a value is read as some tag. -/
theorem goes_tag (name : String) (hcol : indent ≤ col) (hkey : ∀ key ∈ key?, allowed = false)
    (hfresh : IsFresh key? line i) (hx : wordEnds x = true)
    (hgoes : ∀ handle suffix i' col', col < col' →
      Goes (poised false (keyAt? allowed key? ts indent ⟨Printer.tagText name ++ x, i, line, col⟩)
        (.tag handle suffix :: ts) indent outer ⟨x, i', line, col'⟩) S) :
    Goes (poised allowed key? ts indent outer ⟨Printer.tagText name ++ x, i, line, col⟩) S := by
  obtain ⟨w, hw⟩ := exists_tagText name
  have hink : ∀ c ∈ Printer.tagText name, isInk c = true := fun c => isInk_of_mem_tagText
  rw [hw] at hgoes hink ⊢
  have hstands := @standsAt_poised ts indent outer _ i line col allowed key?
    (.head (c := '!') (by decide) (by decide) (w ++ x)) hcol hfresh
  have hfetch : (poised allowed key? ts indent outer ⟨'!' :: w ++ x, i, line, col⟩).fetch =
      (tag false ⟨'!' :: w ++ x, i, line, col⟩).bind fun found =>
        some (poised false (keyAt? allowed key? ts indent ⟨'!' :: w ++ x, i, line, col⟩) (found.1 :: ts)
          indent outer found.2) := by
    refine hstands.fetch_exclamation.trans ?_
    rw [fetchTag, saveKey_poised hkey]
    rfl
  cases htag : tag false ⟨'!' :: w ++ x, i, line, col⟩ with
  | none =>
    rw [htag] at hfetch
    exact .of_fetch_none hfetch
  | some found =>
    obtain ⟨tok, s⟩ := found
    obtain ⟨⟨v, hv, hrest, rfl⟩, hends, handle, suffix, rfl⟩ := exists_of_tag rfl htag
    obtain ⟨rfl, hsame⟩ := eq_of_append_eq hrest.symm hv hink hends hx
    rw [htag] at hfetch
    refine .of_fetch hfetch (by simp [poised, between]) ?_
    have hspot : (Spot.mk ('!' :: w ++ x) i line col).skipMany ('!' :: w).length =
        ⟨x, i + ('!' :: w).length, line, col + ('!' :: w).length⟩ := by
      simp [Spot.skipMany]
    rw [hspot]
    exact hgoes handle suffix _ _ (by simp)

end Goes

end Workboard.Yaml.Lexer
