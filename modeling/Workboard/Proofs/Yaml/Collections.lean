import Workboard.Proofs.Yaml.Spelling

/-!
# Collections as tokens

The items and entries of a collection are read one after another, each at the column of the
first. Main statements: every value is read as its tokens, and so is a text that begins with a mapping.
-/
namespace Workboard.Yaml.Lexer
open Printer (spaces Place node items entry entries)

variable {ts : List Token} {indent : Int} {outer : List Int} {r x : List Char} {i line col k m n : Nat}
  {v w : Value} {vs : List Value} {e : Value × Value} {es : List (Value × Value)} {place : Place} {fed : Bool}

theorem mem_around (h : (-1 : Int) ∈ indent :: outer) (n : Nat) (hindent : indent ≤ n) :
    (-1 : Int) ∈ around indent n outer := by
  unfold around
  split
  · exact h
  · exact (List.mem_cons.mp h).resolve_left (by omega)

section Items

theorem items_cons (n : Nat) (v : Value) (vs : List Value) (x : List Char) :
    items n 0 (v :: vs) ++ x = '-' :: (node (some n) .item v ++ (items n n vs ++ x)) := by
  simp [items, spaces]

theorem items_spaces (n : Nat) (v : Value) (vs : List Value) : items n n (v :: vs) = spaces n ++ items n 0 (v :: vs) := by
  simp [items, spaces]

theorem beginsToken_items (n : Nat) (v : Value) (vs : List Value) (x : List Char) :
    BeginsToken (items n 0 (v :: vs) ++ x) := by
  rw [items_cons]
  exact .head (by decide) (by decide) _

/-- The items of a list, the first at the column of the others. -/
theorem goes_items (hvs : ∀ v ∈ vs, Spellable v) (hne : vs ≠ []) (hindent : indent ≤ n)
    (hground : (-1 : Int) ∈ indent :: outer) (hk : k ≤ n) (hx : Follows (items n 0 vs) fed x k r) :
    Goes (between true ts indent outer ⟨items n 0 vs ++ x, i, line, n⟩)
      (Behind (fun toks => ∃ vs', FedItems fed vs vs' ∧ SpellsItems vs' toks) (opened .blockSequenceStart indent n ts) n
        (around indent n outer) r k) := by
  induction vs generalizing ts indent outer i line with
  | nil => exact absurd rfl hne
  | cons v vs ih =>
    obtain ⟨hv, hvs⟩ := List.forall_mem_cons.mp hvs
    have hmore := mem_around hground n hindent
    rw [items_cons]
    refine goes_dash (wordEnds_node rfl _ v _) hindent ?_
    cases vs with
    | nil =>
      have hlast : Follows (node (some n) .item v) fed x k r := hx.of_append ['-'] (by simp [items, spaces])
      refine (hv .item none rfl (fun _ => ⟨rfl, rfl⟩) (Nat.lt_succ_self n) isOptional_none hmore hk hlast).mono ?_
      rintro l ⟨toks, ⟨v', hfed, htoks⟩, hl⟩
      exact ⟨_, ⟨_, .single hfed, .cons htoks .nil⟩, by simpa using hl⟩
    | cons w vs =>
      have hlater : Follows (items n 0 (w :: vs)) fed x k r :=
        hx.of_append ('-' :: node (some n) .item v ++ spaces n) (by simp [items, spaces])
      rw [items_spaces, List.append_assoc]
      refine (hv .item none rfl (fun _ => ⟨rfl, rfl⟩) (Nat.lt_succ_self n) isOptional_none hmore
        (Nat.le_refl n) (.token (beginsToken_items n w vs _))).bind ?_
      rintro l ⟨toks, ⟨v', hfed, htoks⟩, i', line', rfl⟩
      rw [hfed.eq] at htoks
      refine (ih hvs (List.cons_ne_nil _ _) (Int.le_refl n) (List.mem_cons_of_mem _ hmore) hlater).mono ?_
      rintro l ⟨toks', ⟨vs', hfeds, htoks'⟩, hl⟩
      exact ⟨_, ⟨_, hfeds.cons v, .cons htoks htoks'⟩, by simpa using hl⟩

end Items

section Entries
open Printer (shortKey?)
variable {key value : Value}

/-- The text of a short key is its text on one line. -/
theorem exists_of_shortKey? {text : List Char} (h : shortKey? key = some text) :
    ∃ size, Printer.line? key = some (text, size) := by
  unfold shortKey? at h
  split at h
  · rename_i text' size hline
    split at h
    · exact ⟨size, by rw [hline, Option.some.inj h]⟩
    · cases h
  · cases h

theorem beginsToken_entry (n : Nat) (e : Value × Value) (x : List Char) : BeginsToken (entry n e ++ x) := by
  obtain ⟨key, value⟩ := e
  rw [entry]
  cases hshort : shortKey? key with
  | none => exact .head (by decide) (by decide) _
  | some text =>
    obtain ⟨size, hline⟩ := exists_of_shortKey? hshort
    simp only [List.append_assoc]
    exact beginsToken_of_line? hline _

theorem entry_ne_nil (n : Nat) (e : Value × Value) : entry n e ≠ [] := by
  obtain ⟨key, value⟩ := e
  rw [entry]
  split <;> simp

/-- An entry whose key is short. -/
theorem goes_shortEntry {text : List Char} {size : Nat} (hline : Printer.line? key = some (text, size))
    (hvalue : Spellable value) (hindent : indent ≤ n) (hground : (-1 : Int) ∈ indent :: outer) (hk : k ≤ n)
    (hx : Follows (node (some n) .short value) fed x k r) :
    Goes (between true ts indent outer ⟨text ++ ':' :: (node (some n) .short value ++ x), i, line, n⟩)
      (Behind (fun toks => ∃ es', FedEntries fed [(key, value)] es' ∧ SpellsEntries es' toks)
        (opened .blockMappingStart indent n ts) n (around indent n outer) r k) := by
  have hends := @wordEnds_node .short rfl (some n) value x
  refine goes_line hline hindent (by simp) isFresh_none hends fun toks kept? i' col' htoks hkept hle => ?_
  refine goes_keyColon ⟨decide (indent = n), ts.length, i, line, n⟩ rfl hindent (by omega) rfl hkept hends ?_
  refine (hvalue .short none rfl (fun hfalse => by cases hfalse) (by omega) isOptional_none
    (mem_around hground n hindent) hk hx).mono ?_
  rintro l ⟨toks', ⟨value', hfed, htoks'⟩, hl⟩
  exact ⟨_, ⟨_, .single hfed, .cons htoks htoks' .nil⟩, by simpa using hl⟩

/-- An entry whose key has a mark. -/
theorem goes_longEntry (hkey : Spellable key) (hvalue : Spellable value) (hindent : indent ≤ n)
    (hground : (-1 : Int) ∈ indent :: outer) (hk : k ≤ n) (hx : Follows (node (some n) .long value) fed x k r) :
    Goes (between true ts indent outer ⟨'?' :: (node (some n) .long key ++
        (spaces n ++ ':' :: (node (some n) .long value ++ x))), i, line, n⟩)
      (Behind (fun toks => ∃ es', FedEntries fed [(key, value)] es' ∧ SpellsEntries es' toks)
        (opened .blockMappingStart indent n ts) n (around indent n outer) r k) := by
  have hmore := mem_around hground n hindent
  refine goes_question (wordEnds_node rfl _ key _) hindent ?_
  refine (hkey .long none rfl (fun _ => ⟨rfl, rfl⟩) (Nat.lt_succ_self n) isOptional_none hmore
    (Nat.le_refl n) (.token (.head (by decide) (by decide) _))).bind ?_
  rintro l ⟨toks, ⟨key', hkept, htoks⟩, i', line', rfl⟩
  rw [hkept.eq] at htoks
  refine goes_colon (wordEnds_node rfl _ value _) ?_
  refine (hvalue .long none rfl (fun _ => ⟨rfl, rfl⟩) (Nat.lt_succ_self n) isOptional_none hmore hk hx).mono ?_
  rintro l ⟨toks', ⟨value', hfed, htoks'⟩, hl⟩
  exact ⟨_, ⟨_, .single hfed, .cons htoks htoks' .nil⟩, by simpa using hl⟩

theorem goes_entry (hkey : Spellable e.1) (hvalue : Spellable e.2) (hindent : indent ≤ n)
    (hground : (-1 : Int) ∈ indent :: outer) (hk : k ≤ n) (hx : Follows (entry n e) fed x k r) :
    Goes (between true ts indent outer ⟨entry n e ++ x, i, line, n⟩)
      (Behind (fun toks => ∃ es', FedEntries fed [e] es' ∧ SpellsEntries es' toks)
        (opened .blockMappingStart indent n ts) n (around indent n outer) r k) := by
  obtain ⟨key, value⟩ := e
  rw [entry] at hx ⊢
  cases hshort : shortKey? key with
  | none =>
    rw [hshort] at hx
    have hlast : Follows (node (some n) .long value) fed x k r :=
      hx.of_append ('?' :: node (some n) .long key ++ spaces n ++ [':']) (by simp)
    simpa using goes_longEntry hkey hvalue hindent hground hk hlast
  | some text =>
    rw [hshort] at hx
    obtain ⟨size, hline⟩ := exists_of_shortKey? hshort
    have hlast : Follows (node (some n) .short value) fed x k r := hx.of_append (text ++ [':']) (by simp)
    simpa using goes_shortEntry hline hvalue hindent hground hk hlast

theorem entries_cons (n : Nat) (e : Value × Value) (es : List (Value × Value)) (x : List Char) :
    entries n 0 (e :: es) ++ x = entry n e ++ (entries n n es ++ x) := by
  simp [entries, spaces]

theorem entries_spaces (n : Nat) (e : Value × Value) (es : List (Value × Value)) :
    entries n n (e :: es) = spaces n ++ entries n 0 (e :: es) := by
  simp [entries, spaces]

theorem beginsToken_entries (n : Nat) (e : Value × Value) (es : List (Value × Value)) (x : List Char) :
    BeginsToken (entries n 0 (e :: es) ++ x) := by
  rw [entries_cons]
  exact beginsToken_entry n e _

/-- The entries of a mapping, the first at the column of the others. -/
theorem goes_entries (hes : ∀ e ∈ es, Spellable e.1 ∧ Spellable e.2) (hne : es ≠ []) (hindent : indent ≤ n)
    (hground : (-1 : Int) ∈ indent :: outer) (hk : k ≤ n) (hx : Follows (entries n 0 es) fed x k r) :
    Goes (between true ts indent outer ⟨entries n 0 es ++ x, i, line, n⟩)
      (Behind (fun toks => ∃ es', FedEntries fed es es' ∧ SpellsEntries es' toks)
        (opened .blockMappingStart indent n ts) n (around indent n outer) r k) := by
  induction es generalizing ts indent outer i line with
  | nil => exact absurd rfl hne
  | cons e es ih =>
    obtain ⟨⟨hkey, hvalue⟩, hes⟩ := List.forall_mem_cons.mp hes
    have hmore := mem_around hground n hindent
    rw [entries_cons]
    cases es with
    | nil =>
      have hlast : Follows (entry n e) fed x k r := hx.of_append [] (by simp [entries, spaces])
      simpa [entries] using goes_entry hkey hvalue hindent hground hk hlast
    | cons f es =>
      have hlater : Follows (entries n 0 (f :: es)) fed x k r :=
        hx.of_append (entry n e ++ spaces n) (by simp [entries, spaces])
      rw [entries_spaces, List.append_assoc]
      refine (goes_entry hkey hvalue hindent hground (Nat.le_refl n)
        (.token (beginsToken_entries n f es _))).bind ?_
      rintro l ⟨toks, ⟨es₁, hfed, htoks⟩, i', line', rfl⟩
      obtain rfl := hfed.eq
      refine (ih hes (List.cons_ne_nil _ _) (Int.le_refl n) (List.mem_cons_of_mem _ hmore) hlater).mono ?_
      rintro l ⟨toks', ⟨es', hfeds, htoks'⟩, hl⟩
      exact ⟨_, ⟨_, hfeds.cons e, htoks.append htoks'⟩, by simpa using hl⟩

end Entries

section Values

/-- A list is read between its ends, or without them where its items stand at the column of a mapping. -/
theorem spellable_seq (hvs : ∀ v ∈ vs, Spellable v) : Spellable (.seq vs) := by
  cases vs with
  | nil => exact spellable_brackets .sequence (fun margin place => by simp [node]) fun bare => .noItems
  | cons v vs =>
    intro place key? fed ts outer x r i line col k m hspaced hplace hcol hkey hground hk hx
    have hmore : (-1 : Int) ∈ ↑m :: outer := List.mem_cons_of_mem _ hground
    rw [node, if_neg (by simp)] at hx ⊢
    have hlast := hx.of_append _ rfl
    rw [List.append_assoc]
    by_cases hbare : (place.inMapping && !place.fresh) = true
    · rw [Bool.and_eq_true, Bool.not_eq_true'] at hbare
      simp only [hbare.1, hbare.2, Bool.not_false, Bool.and_true, if_true, Option.getD_some] at hlast ⊢
      rw [← hbare.2]
      refine goes_opening (beginsToken_items m v vs _) hspaced (fun hfresh => ?_) hkey fun i' line' => ?_
      · rw [hbare.2] at hfresh
        cases hfresh
      · refine (goes_items hvs (List.cons_ne_nil v vs) (Int.le_refl m) hmore hk hlast).mono ?_
        rintro l ⟨toks, ⟨vs', hfed, htoks⟩, hl⟩
        obtain ⟨w, ws, rfl⟩ := hfed.exists_cons
        exact ⟨toks, ⟨_, hfed.seq, .bareSeq htoks⟩, by simpa using hl⟩
    · rw [if_neg hbare] at hlast ⊢
      have hinner : (m : Int) < (m + 2 : Nat) := by omega
      refine goes_opening (beginsToken_items (m + 2) v vs _) hspaced (fun hfresh => ?_) hkey fun i' line' => ?_
      · exact ⟨(hplace hfresh).1, by rw [(hplace hfresh).2]; rfl⟩
      · refine (goes_items hvs (List.cons_ne_nil v vs) (Int.le_of_lt hinner) hmore (by omega) hlast).bind ?_
        rintro l ⟨toks, ⟨vs', hfed, htoks⟩, hl⟩
        obtain ⟨w, ws, rfl⟩ := hfed.exists_cons
        rw [opened_of_lt hinner, around_of_lt hinner] at hl
        refine (goes_closed hx.beginsToken hground (by omega) hk hl).mono fun l hl =>
          ⟨_, ⟨_, hfed.seq, .seq htoks⟩, ?_⟩
        simpa using hl

/-- A mapping is read between its ends. -/
theorem spellable_map (hes : ∀ e ∈ es, Spellable e.1 ∧ Spellable e.2) : Spellable (.map es) := by
  cases es with
  | nil => exact spellable_brackets .mapping (fun margin place => by simp [node]) fun bare => .noEntries
  | cons e es =>
    intro place key? fed ts outer x r i line col k m hspaced hplace hcol hkey hground hk hx
    have hinner : (m : Int) < (m + 2 : Nat) := by omega
    rw [node, if_neg (by simp)] at hx ⊢
    have hlast := hx.of_append _ rfl
    rw [List.append_assoc]
    refine goes_opening (beginsToken_entries (m + 2) e es _) hspaced (fun hfresh => ?_) hkey fun i' line' => ?_
    · exact ⟨(hplace hfresh).1, by rw [(hplace hfresh).2]; rfl⟩
    · refine (goes_entries hes (List.cons_ne_nil e es) (Int.le_of_lt hinner) (List.mem_cons_of_mem _ hground) (by omega)
        hlast).bind ?_
      rintro l ⟨toks, ⟨es', hfed, htoks⟩, hl⟩
      obtain ⟨f, fs, rfl⟩ := hfed.exists_cons
      rw [opened_of_lt hinner, around_of_lt hinner] at hl
      refine (goes_closed hx.beginsToken hground (by omega) hk hl).mono fun l hl =>
        ⟨_, ⟨_, hfed.map, .map htoks⟩, ?_⟩
      simpa using hl

/-- Every value is read as its tokens. -/
theorem spellable (v : Value) : Spellable v := by
  induction v using Value.induction with
  | word h => exact spellable_word h
  | str s => exact spellable_string s
  | seq vs ih => exact spellable_seq ih
  | map es ih => exact spellable_map ih
  | tagged t v ih => exact spellable_tagged t ih

end Values

section Texts

/-- At the end of the text the last block is closed. -/
theorem run_end {fuel : Nat} {all : List Token} (h : run fuel (between true ts 0 [-1] ⟨[], i, line, 0⟩) = some all) :
    all = ts.reverse ++ [.blockEnd, .streamEnd] := by
  have hfetch : (between true ts 0 [-1] ⟨[], i, line, 0⟩).fetch =
      some (between true (.streamEnd :: .blockEnd :: ts) (-1) [] ⟨[], i, line, 0⟩) := by
    unfold fetch
    change (settled _).bind _ = _
    rw [settled_between beginsToken_nil]
    rfl
  cases fuel with
  | zero => cases h
  | succ fuel =>
    rw [run, hfetch] at h
    obtain rfl := Option.some.inj h
    simp [between]

/-- The text of a mapping is read as the tokens of its entries. -/
theorem exists_of_tokens?_entries {all : List Token} (hx : Follows (entries 0 0 (e :: es)) fed x 0 [])
    (h : tokens? (entries 0 0 (e :: es) ++ x) = some all) :
    ∃ es' toks, FedEntries fed (e :: es) es' ∧ SpellsEntries es' toks ∧
      all = .blockMappingStart :: toks ++ [.blockEnd, .streamEnd] := by
  have hbegins := beginsToken_entries 0 e es x
  obtain ⟨c, cs, hcs⟩ : ∃ c cs, entries 0 0 (e :: es) ++ x = c :: cs := by
    rw [entries_cons]
    exact List.exists_cons_of_ne_nil (List.append_ne_nil_of_left_ne_nil (entry_ne_nil 0 e) _)
  rw [hcs] at h
  have hrun := run_of_tokens? (hbegins c (by rw [hcs]; rfl)).2.2 h
  rw [← hcs] at hrun
  have hgoes := @goes_entries [] (-1) [] [] x 0 0 0 0 (e :: es) fed (fun e _ => ⟨spellable e.1, spellable e.2⟩)
    (List.cons_ne_nil e es) (by decide) (by simp) (Nat.le_refl 0) hx
  obtain ⟨l, ⟨toks, ⟨es', hfed, htoks⟩, i, line, rfl⟩, fuel, hrun⟩ := hgoes _ _ hrun
  exact ⟨es', toks, hfed, htoks, by rw [run_end hrun]; simp [opened]⟩

end Texts

end Workboard.Yaml.Lexer
