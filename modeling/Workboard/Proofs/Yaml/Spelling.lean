import Workboard.Proofs.Yaml.Marks
import Workboard.Proofs.Yaml.Tags
import Workboard.Proofs.Yaml.Words

/-!
# Values as tokens

A value as it is written is read as tokens of the same shape: one scalar for a word or a string,
the items or entries of a collection between its two ends, and a tag in front of what it names.
Only a tag may be read as another tag, or not at all.
-/
namespace Workboard.Yaml
open Lexer (isPlainStyle)

/-- What holds of words and of strings, and of a collection or a tagged value if it holds of their
parts, holds of every value. -/
theorem Value.induction {P : Value → Prop} (word : ∀ {v s}, Printer.word? v = some s → P v)
    (str : ∀ s, P (.str s)) (seq : ∀ vs, (∀ v ∈ vs, P v) → P (.seq vs))
    (map : ∀ es, (∀ e ∈ es, P e.1 ∧ P e.2) → P (.map es)) (tagged : ∀ t v, P v → P (.tagged t v)) (v : Value) :
    P v :=
  @Value.rec P (fun vs => ∀ v ∈ vs, P v) (fun es => ∀ e ∈ es, P e.1 ∧ P e.2) (fun e => P e.1 ∧ P e.2) (word rfl)
    (fun _ => word rfl) (fun _ => word rfl) (fun _ => word rfl) str seq map tagged
    (fun _ h => absurd h List.not_mem_nil) (fun _ _ hv hvs => List.forall_mem_cons.mpr ⟨hv, hvs⟩)
    (fun _ h => absurd h List.not_mem_nil) (fun _ _ he hes => List.forall_mem_cons.mpr ⟨he, hes⟩)
    (fun _ _ hk hv => ⟨hk, hv⟩) v

mutual

/-- The tokens of a value. In a mapping the items of a list may stand without ends. -/
inductive Spells : Bool → Value → List Token → Prop
  | word {bare : Bool} {v : Value} {s : String} (h : Printer.word? v = some s) : Spells bare v [.scalar s true]
  | str {bare : Bool} (s : String) : Spells bare (.str s) [.scalar s (isPlainStyle s)]
  | noItems {bare : Bool} : Spells bare (.seq []) [.flowSequenceStart, .flowSequenceEnd]
  | noEntries {bare : Bool} : Spells bare (.map []) [.flowMappingStart, .flowMappingEnd]
  | seq {bare : Bool} {v : Value} {vs : List Value} {ts : List Token} (h : SpellsItems (v :: vs) ts) :
    Spells bare (.seq (v :: vs)) (.blockSequenceStart :: ts ++ [.blockEnd])
  | bareSeq {v : Value} {vs : List Value} {ts : List Token} (h : SpellsItems (v :: vs) ts) :
    Spells true (.seq (v :: vs)) ts
  | map {bare : Bool} {e : Value × Value} {es : List (Value × Value)} {ts : List Token}
    (h : SpellsEntries (e :: es) ts) : Spells bare (.map (e :: es)) (.blockMappingStart :: ts ++ [.blockEnd])
  | tagged {bare : Bool} {v : Value} {ts : List Token} (name handle suffix : String) (h : Spells bare v ts) :
    Spells bare (.tagged name v) (.tag handle suffix :: ts)

/-- The tokens of items, each behind its mark. -/
inductive SpellsItems : List Value → List Token → Prop
  | nil : SpellsItems [] []
  | cons {v : Value} {vs : List Value} {ts us : List Token} (h : Spells false v ts) (hs : SpellsItems vs us) :
    SpellsItems (v :: vs) (.blockEntry :: ts ++ us)

/-- The tokens of entries, with the marks of their keys and values. -/
inductive SpellsEntries : List (Value × Value) → List Token → Prop
  | nil : SpellsEntries [] []
  | cons {k v : Value} {es : List (Value × Value)} {ts us xs : List Token} (hk : Spells true k ts)
    (hv : Spells true v us) (hs : SpellsEntries es xs) :
    SpellsEntries ((k, v) :: es) (.key :: ts ++ .value :: us ++ xs)

end

theorem SpellsEntries.append {e : Value × Value} {es : List (Value × Value)} {ts us : List Token}
    (h : SpellsEntries [e] ts) (hs : SpellsEntries es us) : SpellsEntries (e :: es) (ts ++ us) := by
  cases h with
  | cons hk hv hnil =>
    cases hnil
    simpa using SpellsEntries.cons hk hv hs

/-- The value as it is, or with one more line feed at the end of its last string, if that has lines
at all. -/
inductive Value.Fed : Bool → Value → Value → Prop
  | same (fed : Bool) (v : Value) : Fed fed v v
  | str {s : String} (h : '\n' ∈ s.toList) : Fed true (.str s) (.str (.ofList (s.toList ++ ['\n'])))
  | seq {vs : List Value} {v v' : Value} (h : Fed true v v') : Fed true (.seq (vs ++ [v])) (.seq (vs ++ [v']))
  | map {es : List (Value × Value)} {k v v' : Value} (h : Fed true v v') :
    Fed true (.map (es ++ [(k, v)])) (.map (es ++ [(k, v')]))
  | tagged {name : String} {v v' : Value} (h : Fed true v v') : Fed true (.tagged name v) (.tagged name v')

/-- All items as they are, the last one apart. -/
def FedItems (fed : Bool) (vs vs' : List Value) : Prop :=
  ∃ us v v', vs = us ++ [v] ∧ vs' = us ++ [v'] ∧ v.Fed fed v'

/-- All entries as they are, the value of the last one apart. -/
def FedEntries (fed : Bool) (es es' : List (Value × Value)) : Prop :=
  ∃ us k v v', es = us ++ [(k, v)] ∧ es' = us ++ [(k, v')] ∧ v.Fed fed v'

section Fed
variable {fed : Bool} {v v' : Value} {vs vs' : List Value} {es es' : List (Value × Value)}

theorem Value.Fed.eq (h : v.Fed false v') : v' = v := by
  cases h
  rfl

/-- A string without lines stays. -/
theorem Value.Fed.eq_str {s : String} (h : (Value.str s).Fed fed v') (hs : '\n' ∉ s.toList) : v' = .str s := by
  cases h with
  | same => rfl
  | str hlines => exact absurd hlines hs

/-- A list of strings without lines stays. -/
theorem Value.Fed.eq_seq {xs : List String} (h : (Value.seq (xs.map .str)).Fed fed v')
    (hxs : ∀ s ∈ xs, '\n' ∉ s.toList) : v' = .seq (xs.map .str) := by
  generalize hvs : xs.map Value.str = vs at h
  cases h with
  | same => rfl
  | @seq us v w hw =>
    have hmem : v ∈ xs.map Value.str := by
      rw [hvs]
      exact List.mem_append_right _ (List.mem_singleton_self v)
    obtain ⟨s, hs, rfl⟩ := List.mem_map.mp hmem
    rw [hw.eq_str (hxs s hs)]

theorem FedItems.single (h : v.Fed fed v') : FedItems fed [v] [v'] := ⟨[], v, v', rfl, rfl, h⟩

theorem FedItems.cons (h : FedItems fed vs vs') (w : Value) : FedItems fed (w :: vs) (w :: vs') := by
  obtain ⟨us, v, v', rfl, rfl, hv⟩ := h
  exact ⟨w :: us, v, v', rfl, rfl, hv⟩

theorem FedItems.exists_cons (h : FedItems fed vs vs') : ∃ w ws, vs' = w :: ws := by
  obtain ⟨us, v, v', -, rfl, -⟩ := h
  exact List.exists_cons_of_ne_nil (by simp)

theorem FedItems.seq (h : FedItems fed vs vs') : (Value.seq vs).Fed fed (.seq vs') := by
  obtain ⟨us, v, v', rfl, rfl, hv⟩ := h
  cases fed with
  | false => rw [hv.eq]; exact .same false _
  | true => exact .seq hv

theorem FedEntries.single {k : Value} (h : v.Fed fed v') : FedEntries fed [(k, v)] [(k, v')] :=
  ⟨[], k, v, v', rfl, rfl, h⟩

theorem FedEntries.cons (h : FedEntries fed es es') (e : Value × Value) : FedEntries fed (e :: es) (e :: es') := by
  obtain ⟨us, k, v, v', rfl, rfl, hv⟩ := h
  exact ⟨e :: us, k, v, v', rfl, rfl, hv⟩

theorem FedEntries.eq (h : FedEntries false es es') : es' = es := by
  obtain ⟨us, k, v, v', rfl, rfl, hv⟩ := h
  rw [hv.eq]

theorem FedEntries.exists_cons (h : FedEntries fed es es') : ∃ e fs, es' = e :: fs := by
  obtain ⟨us, k, v, v', -, rfl, -⟩ := h
  exact List.exists_cons_of_ne_nil (by simp)

/-- An entry in front of the last one stays. -/
theorem FedEntries.mem {e : Value × Value} (h : FedEntries fed es es') (he : e ∈ es.dropLast) : e ∈ es' := by
  obtain ⟨us, k, v, v', rfl, rfl, -⟩ := h
  rw [List.dropLast_concat] at he
  exact List.mem_append_left _ he

theorem FedEntries.exists_mem {k v : Value} (h : FedEntries fed es es') (he : (k, v) ∈ es) :
    ∃ v', v.Fed fed v' ∧ (k, v') ∈ es' := by
  obtain ⟨us, k', w, w', rfl, rfl, hw⟩ := h
  obtain he | he := List.mem_append.mp he
  · exact ⟨v, .same fed v, List.mem_append_left _ he⟩
  · obtain ⟨rfl, rfl⟩ := Prod.mk.inj (List.mem_singleton.mp he)
    exact ⟨w', hw, List.mem_append_right _ (List.mem_singleton_self _)⟩

/-- Every key stays. -/
theorem FedEntries.exists_key {e : Value × Value} (h : FedEntries fed es es') (he : e ∈ es') : ∃ f ∈ es, f.1 = e.1 := by
  obtain ⟨us, k, w, w', rfl, rfl, -⟩ := h
  obtain he | he := List.mem_append.mp he
  · exact ⟨e, List.mem_append_left _ he, rfl⟩
  · obtain rfl := List.mem_singleton.mp he
    exact ⟨(k, w), List.mem_append_right _ (List.mem_singleton_self _), rfl⟩

theorem FedEntries.map (h : FedEntries fed es es') : (Value.map es).Fed fed (.map es') := by
  obtain ⟨us, k, v, v', rfl, rfl, hv⟩ := h
  cases fed with
  | false => rw [hv.eq]; exact .same false _
  | true => exact .map hv

theorem Value.Fed.tag (h : v.Fed fed v') (name : String) : (Value.tagged name v).Fed fed (.tagged name v') := by
  cases fed with
  | false => rw [h.eq]; exact .same false _
  | true => exact .tagged h

end Fed

namespace Lexer
open Printer (spaces Place)

variable {allowed : Bool} {key? : Option KeyStart} {ts : List Token} {indent : Int} {outer : List Int}
  {r x : List Char} {i line col k m n : Nat} {S : Lexer → Prop}

section Ends

/-- A block is closed by a token left of it. -/
theorem unroll_cons {column : Int} (allowed : Bool) (s : Spot) (h : column < indent)
    (hground : ∃ i ∈ ↑m :: outer, i ≤ column) :
    (between allowed ts indent (m :: outer) s).unroll column =
      (between allowed (.blockEnd :: ts) m outer s).unroll column := by
  have hinner : (indent :: ↑m :: outer).takeWhile (column < ·) = indent :: (↑m :: outer).takeWhile (column < ·) :=
    List.takeWhile_cons_of_pos (by simpa using h)
  have hleft : (↑m :: outer).drop ((↑m :: outer).takeWhile (column < ·)).length ≠ [] := fun hnil => by
    have hall : (↑m :: outer).takeWhile (column < ·) = ↑m :: outer := by
      refine List.IsPrefix.eq_of_length_le (List.takeWhile_prefix _) ?_
      simpa using hnil
    obtain ⟨i, hi, hle⟩ := hground
    have hlt := List.all_eq_true.mp (List.all_takeWhile (p := (column < ·))) i (hall ▸ hi)
    simp only [decide_eq_true_eq] at hlt
    omega
  obtain ⟨i, is, his⟩ := List.exists_cons_of_ne_nil hleft
  simp only [unroll, inFlow, between, hinner, List.length_cons, List.drop_succ_cons, List.replicate_succ', his]
  simp [Nat.add_assoc, Nat.add_comm]

/-- Where a block ends, its end may be read before the next token. -/
theorem fetch_closed (h : BeginsToken r) (hclosed : k < n) (hground : (-1 : Int) ∈ ↑m :: outer) :
    (between true ts n (m :: outer) ⟨r, i, line, k⟩).fetch =
      (between true (.blockEnd :: ts) m outer ⟨r, i, line, k⟩).fetch := by
  have hunroll : (between true ts n (m :: outer) ⟨r, i, line, k⟩).unroll (k : Nat) =
      (between true (.blockEnd :: ts) m outer ⟨r, i, line, k⟩).unroll (k : Nat) :=
    unroll_cons true _ (by omega) ⟨-1, hground, by omega⟩
  unfold fetch
  change (settled _).bind _ = (settled _).bind _
  rw [settled_between h, settled_between h]
  simp only [Option.bind_some]
  rw [show (between true ts n (m :: outer) ⟨r, i, line, k⟩).spot.column = k from rfl, hunroll]
  rfl

end Ends

section Lines
open Printer (line? word?)
variable {v : Value} {text : List Char} {size : Nat}

theorem line?_of_word? {s : String} (h : word? v = some s) : line? v = some (s.toList, s.utf8ByteSize) := by
  cases v with
  | null =>
    obtain rfl := Option.some.inj h
    decide
  | bool b => simp [line?, h]
  | int n => simp [line?, h]
  | float f => simp [line?, h]
  | _ => cases h

/-- A string on one line, in one of the styles that have one line. -/
theorem line?_str_cases {s : String} (h : line? (.str s) = some (text, size)) :
    s.toList.any isBreak = false ∧
      (text = s.toList ∧ isPlainStyle s = true ∧ fitsPlain s.toList = true ∧ s.toList ≠ [] ∨
        isPlainStyle s = false ∧
          (text = Printer.singleText 0 s.toList ∧ fitsSingle s.toList = true ∨ text = Printer.doubleText s.toList)) := by
  rw [line?] at h
  split at h
  · cases h
  rename_i hbreak
  obtain ⟨rfl, -⟩ := Prod.mk.inj (Option.some.inj h)
  refine ⟨by simpa using hbreak, ?_⟩
  obtain ⟨-, -, hmem⟩ | ⟨hstyle, hfits, hreads⟩ | ⟨hstyle, hfits, -⟩ | hstyle := style_cases s
  · exact absurd (List.any_eq_true.mpr ⟨_, hmem, by decide⟩) hbreak
  · exact .inl ⟨by rw [hstyle], by simp [isPlainStyle, hstyle], hfits, ne_nil_of_plain hreads⟩
  · exact .inr ⟨by simp [isPlainStyle, hstyle], .inl ⟨by rw [hstyle], hfits⟩⟩
  · exact .inr ⟨by simp [isPlainStyle, hstyle], .inr (by rw [hstyle])⟩

theorem beginsToken_of_line? (h : line? v = some (text, size)) (x : List Char) : BeginsToken (text ++ x) := by
  induction v using Value.induction generalizing text size x with
  | @word v s hs =>
    obtain ⟨rfl, -⟩ := Prod.mk.inj (Option.some.inj ((line?_of_word? hs).symm.trans h))
    obtain ⟨hfits, hne⟩ := fitsPlain_word? hs
    exact beginsToken_append (isBare_of_fitsPlain hfits).2.1 hne x
  | str s =>
    obtain ⟨-, ⟨rfl, -, hfits, hne⟩ | ⟨-, ⟨rfl, -⟩ | rfl⟩⟩ := line?_str_cases h
    · exact beginsToken_append (isBare_of_fitsPlain hfits).2.1 hne x
    · exact .head (by decide) (by decide) _
    · exact .head (by decide) (by decide) _
  | seq vs =>
    cases vs with
    | nil =>
      obtain ⟨rfl, -⟩ := Prod.mk.inj (Option.some.inj h)
      exact .head (by decide) (by decide) _
    | cons v vs => cases h
  | map es =>
    cases es with
    | nil =>
      obtain ⟨rfl, -⟩ := Prod.mk.inj (Option.some.inj h)
      exact .head (by decide) (by decide) _
    | cons e es => cases h
  | tagged t v =>
    rw [line?] at h
    obtain ⟨⟨text', size'⟩, -, heq⟩ := Option.map_eq_some_iff.mp h
    obtain ⟨rfl, -⟩ := Prod.mk.inj heq
    obtain ⟨w, hw⟩ := exists_tagText t
    rw [hw]
    exact .head (by decide) (by decide) _

/-- A value of one line in front of a colon. The key that is noted with it may be given up. -/
theorem goes_line (hline : line? v = some (text, size)) (hcol : indent ≤ col) (hkey : ∀ key ∈ key?, allowed = false)
    (hfresh : IsFresh key? line i) (hx : wordEnds x = true)
    (hgoes : ∀ toks kept? i' col', Spells true v toks →
      kept? = keyAt? allowed key? ts indent ⟨text ++ ':' :: x, i, line, col⟩ ∨ kept? = none → col ≤ col' →
      Goes (poised false kept? (toks.reverse ++ ts) indent outer ⟨':' :: x, i', line, col'⟩) S) :
    Goes (poised allowed key? ts indent outer ⟨text ++ ':' :: x, i, line, col⟩) S := by
  induction v using Value.induction generalizing text size allowed key? ts i col with
  | @word v s hs =>
    obtain ⟨rfl, -⟩ := Prod.mk.inj (Option.some.inj ((line?_of_word? hs).symm.trans hline))
    obtain ⟨hfits, hne⟩ := fitsPlain_word? hs
    refine goes_plainKey hcol hkey hfresh hfits hne hx fun i' col' hle => ?_
    rw [String.ofList_toList]
    exact hgoes _ _ _ _ (.word hs) (.inl rfl) hle
  | str s =>
    have hscalar := fun i' col' => hgoes _ _ i' col' (.str s) (.inl rfl)
    obtain ⟨hbreak, ⟨rfl, hstyle, hfits, hne⟩ | ⟨hstyle, ⟨rfl, hfits⟩ | rfl⟩⟩ := line?_str_cases hline
    all_goals simp only [hstyle] at hscalar
    · refine goes_plainKey hcol hkey hfresh hfits hne hx fun i' col' hle => ?_
      rw [String.ofList_toList]
      exact hscalar i' col' hle
    · refine goes_singleKey hcol hkey hfresh hfits hbreak fun i' col' hle => ?_
      rw [String.ofList_toList]
      exact hscalar i' col' hle
    · refine goes_doubleKey hcol hkey hfresh _ fun i' col' hle => ?_
      rw [String.ofList_toList]
      exact hscalar i' col' hle
  | seq vs =>
    cases vs with
    | nil =>
      obtain ⟨rfl, -⟩ := Prod.mk.inj (Option.some.inj hline)
      exact goes_brackets .sequence hcol hkey hfresh fun kept? hkept =>
        hgoes _ kept? _ _ .noItems hkept (Nat.le_add_right _ _)
    | cons v vs => cases hline
  | map es =>
    cases es with
    | nil =>
      obtain ⟨rfl, -⟩ := Prod.mk.inj (Option.some.inj hline)
      exact goes_brackets .mapping hcol hkey hfresh fun kept? hkept =>
        hgoes _ kept? _ _ .noEntries hkept (Nat.le_add_right _ _)
    | cons e es => cases hline
  | tagged t v ih =>
    rw [line?] at hline
    obtain ⟨⟨text', size'⟩, hline', heq⟩ := Option.map_eq_some_iff.mp hline
    obtain ⟨rfl, -⟩ := Prod.mk.inj heq
    have htext : Printer.tagText t ++ ' ' :: text' ++ ':' :: x = Printer.tagText t ++ (spaces 1 ++ (text' ++ ':' :: x)) := by
      simp [spaces]
    rw [htext] at hgoes ⊢
    refine goes_tag t hcol hkey hfresh rfl fun handle suffix i' col' hlt => ?_
    have hsame : ∀ key ∈ keyAt? allowed key? ts indent
        ⟨Printer.tagText t ++ (spaces 1 ++ (text' ++ ':' :: x)), i, line, col⟩, key.line = line := fun key hmem => by
      cases allowed with
      | false => exact (hfresh key hmem).1
      | true =>
        obtain rfl := Option.some.inj hmem
        rfl
    refine goes_poised (beginsToken_of_line? hline' _) hsame fun noted? hnoted hnear => ?_
    refine ih hline' (by omega) (by simp) hnear fun toks kept? i'' col'' hspells hkept hle => ?_
    have hdone := hgoes _ kept? i'' col'' (.tagged t handle suffix hspells) ?_ (by omega)
    · simpa using hdone
    · obtain rfl | rfl := hkept
      · exact hnoted
      · exact .inr rfl

end Lines

section Nodes
open Printer (node items entry entries)
variable {v : Value} {place : Place} {P Q : List Token → Prop} {toks : List Token}

/-- The lexer stands at the text, at the column, and has read tokens of a kind besides those from before. -/
def Behind (P : List Token → Prop) (ts : List Token) (indent : Int) (outer : List Int) (r : List Char) (col : Nat)
    (l : Lexer) : Prop :=
  ∃ toks, P toks ∧ At (toks.reverse ++ ts) indent outer r col l

/-- What stands behind a text: the blanks in front of a token or of the end, or a line feed at the end
where the last line of the text has another end. -/
inductive Follows (text : List Char) : Bool → List Char → Nat → List Char → Prop
  | token {k : Nat} {r : List Char} (h : BeginsToken r) : Follows text false (spaces k ++ r) k r
  | feed (h : text.getLast? ≠ some '\n') : Follows text true ['\n'] 0 []

variable {fed : Bool} {as bs cs : List Char}

theorem Follows.beginsToken (h : Follows as fed x k r) : BeginsToken r := by
  cases h with
  | token hr => exact hr
  | feed => exact beginsToken_nil

theorem Follows.of_append (h : Follows bs fed x k r) (as : List Char) (hbs : bs = as ++ cs) :
    Follows cs fed x k r := by
  subst hbs
  cases h with
  | token hr => exact .token hr
  | feed hlast => exact .feed fun heq => hlast (by rw [List.getLast?_append, heq]; rfl)

/-- Behind a line feed stands no other. -/
theorem Follows.of_feed (h : Follows (as ++ ['\n']) fed x k r) : x = spaces k ++ r := by
  cases h with
  | token => rfl
  | feed hlast => exact absurd (by simp) hlast

/-- Wherever a node of the value may stand in a block that is indented by `m`, it is read as tokens of the
value. A line feed behind it may become one of its characters. -/
def Spellable (v : Value) : Prop :=
  ∀ (place : Place) (key? : Option KeyStart) {fed : Bool} {ts : List Token} {outer : List Int} {x r : List Char}
    {i line col k m : Nat}, place.spaced = true → (place.fresh = true → key? = none ∧ col = m + 1) → m < col →
    IsOptional place.fresh key? line → (-1 : Int) ∈ outer → k ≤ m →
    Follows (node (some m) place v) fed x k r →
    Goes (poised place.fresh key? ts m outer ⟨node (some m) place v ++ x, i, line, col⟩)
      (Behind (fun toks => ∃ v', v.Fed fed v' ∧ Spells place.inMapping v' toks) ts m outer r k)

theorem node_of_word? {s : String} (h : Printer.word? v = some s) (margin : Option Nat) (place : Place) :
    node margin place v = place.lead ++ s.toList ++ ['\n'] := by
  cases v with
  | null => simp [node, h]
  | bool b => simp [node, h]
  | int n => simp [node, h]
  | float f => simp [node, h]
  | _ => cases h

theorem lead_of_spaced (h : place.spaced = true) : place.lead = spaces 1 := by
  rw [Place.lead, if_pos h]
  rfl

/-- In front of a node stands a blank or a line end. -/
theorem wordEnds_node (h : place.spaced = true) (margin : Option Nat) (v : Value) (x : List Char) :
    wordEnds (node margin place v ++ x) = true := by
  have hopening : ∀ (inner : Nat) (y : List Char), wordEnds (Printer.opening place inner ++ y) = true := by
    intro inner y
    rw [Printer.opening]
    split
    · rw [lead_of_spaced h]
      rfl
    · rfl
  induction v using Value.induction with
  | word hs =>
    rw [node_of_word? hs, lead_of_spaced h]
    rfl
  | str s =>
    rw [node, lead_of_spaced h]
    rfl
  | seq vs =>
    rw [node]
    split
    · rw [lead_of_spaced h]
      rfl
    · rw [List.append_assoc]
      exact hopening _ _
  | map es =>
    rw [node]
    split
    · rw [lead_of_spaced h]
      rfl
    · rw [List.append_assoc]
      exact hopening _ _
  | tagged t v =>
    rw [node, lead_of_spaced h]
    rfl

/-- A key that was noted on an earlier line or on this one need not be one. -/
theorem IsOptional.past (h : IsOptional allowed key? line) : ∀ key ∈ key?, key.required = false ∧ key.line ≤ line :=
  fun key hmem => ⟨(h key hmem).2.1, Nat.le_of_eq (h key hmem).2.2⟩

theorem goes_lineEnd (h : BeginsToken r) (hkey : ∀ key ∈ key?, key.required = false ∧ key.line ≤ line)
    (hgoes : Goes (between true ts indent outer ⟨r, i + 1 + n, line + 1, n⟩) S) :
    Goes (poised allowed key? ts indent outer ⟨'\n' :: (spaces n ++ r), i, line, col⟩) S :=
  hgoes.of_fetch_eq (fetch_eq_of_settled ((settled_lineEnd h hkey).trans (settled_between h).symm))

/-- At the blank in front of a scalar, a bracket or a tag the lexer goes on behind the blank. -/
theorem goes_lead (h : BeginsToken r) (hkey : IsOptional allowed key? line)
    (hgoes : ∀ kept? i', IsOptional allowed kept? line → IsFresh kept? line i' →
      Goes (poised allowed kept? ts indent outer ⟨r, i', line, col + 1⟩) S) :
    Goes (poised allowed key? ts indent outer ⟨spaces 1 ++ r, i, line, col⟩) S := by
  refine goes_poised h (fun key hmem => (hkey key hmem).2.2) fun kept? hkept hfresh => hgoes kept? _ ?_ hfresh
  obtain rfl | rfl := hkept
  · exact hkey
  · exact isOptional_none

/-- The first item or entry of a collection stands on the line of its mark or on a line of its own. -/
theorem goes_opening (h : BeginsToken r) (hspaced : place.spaced = true)
    (hplace : place.fresh = true → key? = none ∧ n = col + 1) (hkey : IsOptional place.fresh key? line)
    (hgoes : ∀ i' line', Goes (between true ts indent outer ⟨r, i', line', n⟩) S) :
    Goes (poised place.fresh key? ts indent outer ⟨Printer.opening place n ++ r, i, line, col⟩) S := by
  unfold Printer.opening
  cases hfresh : place.fresh with
  | true =>
    obtain ⟨rfl, rfl⟩ := hplace hfresh
    rw [if_pos rfl, lead_of_spaced hspaced]
    exact (hgoes _ line).of_fetch_eq (fetch_spaces h 1)
  | false =>
    rw [if_neg Bool.false_ne_true, List.cons_append]
    exact goes_lineEnd h hkey.past (hgoes _ _)

/-- The end of a block is read as a token. -/
theorem goes_closed (h : BeginsToken r) (hground : (-1 : Int) ∈ outer) (hmn : m < n) (hkm : k ≤ m) {l : Lexer}
    (hl : At ts n (m :: outer) r k l) : Goes l (At (.blockEnd :: ts) m outer r k) := by
  obtain ⟨i, line, rfl⟩ := hl
  exact Goes.of_fetch_eq (.of_self ⟨i, line, rfl⟩)
    (fetch_closed h (by omega) (List.mem_cons_of_mem _ hground))

theorem spellable_word {s : String} (h : Printer.word? v = some s) : Spellable v := by
  intro place key? fed ts outer x r i line col k m hspaced _ hcol hkey _ hk hx
  obtain ⟨hfits, hne⟩ := fitsPlain_word? h
  rw [node_of_word? h] at hx
  have htext : node (some m) place v ++ x = spaces 1 ++ (s.toList ++ '\n' :: (spaces k ++ r)) := by
    rw [node_of_word? h, lead_of_spaced hspaced, hx.of_feed]
    simp
  rw [htext]
  refine goes_lead (beginsToken_append (isBare_of_fitsPlain hfits).2.1 hne _) hkey fun kept? i' hkept hfresh => ?_
  exact (goes_plain (by omega) hkept hfresh hx.beginsToken hfits hne hk).mono fun l hl =>
    ⟨_, ⟨v, .same fed v, .word h⟩, hl⟩

theorem spellable_string (s : String) : Spellable (.str s) := by
  intro place key? fed ts outer x r i line col k m hspaced _ hcol hkey _ hk hx
  have htext : node (some m) place (.str s) ++ x = spaces 1 ++ (Printer.string (m + 2) s ++ x) := by
    rw [node, lead_of_spaced hspaced]
    simp [Printer.textMargin]
  rw [htext]
  refine goes_lead (beginsToken_string s _) hkey fun kept? i' hkept hfresh => ?_
  cases hx with
  | token hr =>
    exact (goes_string s (by omega) hkept hfresh hr hk).mono fun l hl => ⟨_, ⟨_, .same false _, .str s⟩, hl⟩
  | feed hlast =>
    rw [node] at hlast
    have hstring : (Printer.string (m + 2) s).getLast? ≠ some '\n' := fun heq =>
      hlast (by rw [List.getLast?_append, Printer.textMargin, heq]; rfl)
    refine (goes_string_fed s (by omega) hkept hfresh hstring).mono ?_
    rintro l ⟨s', rfl | ⟨hlines, rfl⟩, hl⟩
    · exact ⟨_, ⟨_, .same true _, .str s'⟩, hl⟩
    · exact ⟨_, ⟨_, .str hlines, .str _⟩, hl⟩

/-- The brackets of an empty collection stand for it. -/
theorem spellable_brackets {c d : Char} {t u : Token} (h : IsBracket c d t u)
    (hnode : ∀ (margin : Option Nat) (place : Place), node margin place v = place.lead ++ [c, d] ++ ['\n'])
    (hspells : ∀ bare, Spells bare v [t, u]) : Spellable v := by
  intro place key? fed ts outer x r i line col k m hspaced _ hcol hkey _ hk hx
  rw [hnode] at hx
  have htext : node (some m) place v ++ x = spaces 1 ++ (c :: d :: '\n' :: (spaces k ++ r)) := by
    rw [hnode, lead_of_spaced hspaced, hx.of_feed]
    simp
  rw [htext]
  refine goes_lead (h.begins _).1 hkey fun kept? i' hkept hfresh => ?_
  have hnoted := @keyAt?_of_lt place.fresh kept? ts m ⟨c :: d :: '\n' :: (spaces k ++ r), i', line, col + 1⟩
    (by simp only; omega) hkept
  refine goes_brackets h (by omega) (fun key hmem => (hkept key hmem).1) hfresh fun last? hlast => ?_
  refine goes_lineEnd hx.beginsToken (fun key hmem => ?_) (.of_self ⟨_, ⟨v, .same fed v, hspells _⟩, _, _, rfl⟩)
  obtain rfl | rfl := hlast
  · exact hnoted.past key hmem
  · cases hmem

theorem spellable_tagged (t : String) (hv : Spellable v) : Spellable (.tagged t v) := by
  intro place key? fed ts outer x r i line col k m hspaced _ hcol hkey hground hk hx
  have htext : node (some m) place (.tagged t v) ++ x =
      spaces 1 ++ (Printer.tagText t ++ (node (some m) place.tagged v ++ x)) := by
    rw [node, lead_of_spaced hspaced]
    simp
  have hbegins : ∀ x, BeginsToken (Printer.tagText t ++ x) := fun x => by
    obtain ⟨w, hw⟩ := exists_tagText t
    rw [hw]
    exact .head (by decide) (by decide) _
  rw [htext]
  rw [node] at hx
  refine goes_lead (hbegins _) hkey fun kept? i' hkept hfresh => ?_
  refine goes_tag t (by omega) (fun key hmem => (hkept key hmem).1) hfresh (wordEnds_node rfl _ _ _)
    fun handle suffix i'' col' hlt => ?_
  have hnoted := @keyAt?_of_lt place.fresh kept? ts m
    ⟨Printer.tagText t ++ (node (some m) place.tagged v ++ x), i', line, col + 1⟩
    (by simp only; omega) hkept
  refine (hv place.tagged _ rfl (fun hfalse => by cases hfalse) (by omega) hnoted hground hk (hx.of_append _ rfl)).mono ?_
  rintro l ⟨toks, ⟨v', hfed, htoks⟩, hl⟩
  exact ⟨_, ⟨_, hfed.tag t, .tagged t handle suffix htoks⟩, by simpa using hl⟩

end Nodes

end Lexer

end Workboard.Yaml
