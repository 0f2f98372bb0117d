import Mathlib.Data.List.Basic
import Workboard.Proofs.Yaml.Spelling

/-!
# How the text of a value ends

The text of a value ends with a line feed, whatever the value is, unless the last thing in it is a
string written as a block: the last line of the block has the line end that the string has. Main
statement: the text ends otherwise exactly if that string does.
-/
namespace Workboard.Yaml
open Printer
open Lexer (node_of_word?)

variable {s : String} {v : Value} {vs : List Value} {es : List (Value × Value)} {cs : List Char}

/-- The string is the last thing in the value. -/
inductive Value.EndsIn (s : String) : Value → Prop
  | str : EndsIn s (.str s)
  | seq {vs us : List Value} {v : Value} (hvs : vs = us ++ [v]) (h : EndsIn s v) : EndsIn s (.seq vs)
  | map {es fs : List (Value × Value)} {k v : Value} (hes : es = fs ++ [(k, v)]) (h : EndsIn s v) : EndsIn s (.map es)
  | tagged {name : String} {v : Value} (h : EndsIn s v) : EndsIn s (.tagged name v)

/-- The string is written as a block, and its last line has another end than a line feed. -/
def EndsOddly (s : String) : Prop := Style.ofText s = .block ∧ ∃ c ∈ s.toList.getLast?, isBreak c = true ∧ c ≠ '\n'

/-- The last string of the value is written so. -/
def Value.EndsOddly (v : Value) : Prop := ∃ s, v.EndsIn s ∧ Yaml.EndsOddly s

theorem Value.endsOddly_str : (Value.str s).EndsOddly ↔ Yaml.EndsOddly s := by
  constructor
  · rintro ⟨_, ⟨⟩, h⟩
    exact h
  · exact fun h => ⟨s, .str, h⟩

theorem Value.endsOddly_seq (vs : List Value) : (Value.seq (vs ++ [v])).EndsOddly ↔ v.EndsOddly := by
  constructor
  · rintro ⟨s, hends, h⟩
    cases hends with
    | seq hvs hends =>
      obtain ⟨-, hv⟩ := List.append_inj' hvs rfl
      exact ⟨s, by rwa [List.singleton_inj.mp hv], h⟩
  · exact fun ⟨s, hends, h⟩ => ⟨s, .seq rfl hends, h⟩

theorem Value.endsOddly_map (es : List (Value × Value)) (k : Value) :
    (Value.map (es ++ [(k, v)])).EndsOddly ↔ v.EndsOddly := by
  constructor
  · rintro ⟨s, hends, h⟩
    cases hends with
    | map hes hends =>
      obtain ⟨-, he⟩ := List.append_inj' hes rfl
      obtain ⟨-, rfl⟩ := Prod.mk.inj (List.singleton_inj.mp he)
      exact ⟨s, hends, h⟩
  · exact fun ⟨s, hends, h⟩ => ⟨s, .map rfl hends, h⟩

theorem Value.endsOddly_tagged (name : String) : (Value.tagged name v).EndsOddly ↔ v.EndsOddly := by
  constructor
  · rintro ⟨s, hends, h⟩
    cases hends with
    | tagged hends => exact ⟨s, hends, h⟩
  · exact fun ⟨s, hends, h⟩ => ⟨s, .tagged hends, h⟩

/-- Words and empty collections have no last string. -/
theorem Value.not_endsOddly (h : ∀ s, ¬ v.EndsIn s) : ¬ v.EndsOddly := fun ⟨s, hends, _⟩ => h s hends

/-- The text of a value ends as its last string does. -/
def TellsEnd (v : Value) : Prop := ∀ (margin : Option Nat) (place : Place), node margin place v ≠ [] ∧
  ((node margin place v).getLast? ≠ some '\n' ↔ v.EndsOddly)

/-- A line that is not ended takes a line feed. -/
theorem getLast?_blockLines (hne : cs ≠ []) (m : Nat) (atStart : Bool) :
    (blockLines m atStart cs).getLast? = cs.getLast?.map fun c => if isBreak c then c else '\n' := by
  induction cs generalizing atStart with
  | nil => exact absurd rfl hne
  | cons c cs ih =>
    rw [blockLines]
    cases cs with
    | nil =>
      cases hbreak : isBreak c with
      | true => simp [blockLines, hbreak]
      | false => simp [blockLines, hbreak]
    | cons d cs =>
      have hrest := ih (List.cons_ne_nil d cs)
      obtain ⟨e, he⟩ := Option.isSome_iff_exists.mp (List.getLast?_isSome.mpr (List.cons_ne_nil d cs))
      rw [List.getLast?_cons_cons]
      split
      · rw [List.getLast?_cons, hrest, he]
        rfl
      · rw [List.append_cons, List.getLast?_append, hrest, he]
        rfl

theorem getLast?_string_iff (m : Nat) (s : String) : (string m s).getLast? ≠ some '\n' ↔ EndsOddly s := by
  unfold EndsOddly
  obtain ⟨hstyle, -, hbreak⟩ | ⟨hstyle, -⟩ | ⟨hstyle, -⟩ | hstyle := style_cases s
  · have hne : s.toList ≠ [] := List.ne_nil_of_mem hbreak
    obtain ⟨c, hc⟩ := Option.isSome_iff_exists.mp (List.getLast?_isSome.mpr hne)
    have hlast : (string m s).getLast? = some (if isBreak c then c else '\n') := by
      simp only [string, hstyle]
      rw [List.append_cons, List.getLast?_append, getLast?_blockLines hne, hc]
      rfl
    rw [hlast, hc]
    cases hend : isBreak c <;> simp [hstyle, hend]
  all_goals
    simp [string, hstyle]

theorem string_ne_nil (m : Nat) (s : String) : string m s ≠ [] := by
  unfold string
  split <;> simp

/-- The items of a list end with the last one. -/
theorem exists_items_eq (n k : Nat) (us : List Value) (v : Value) :
    ∃ front, items n k (us ++ [v]) = front ++ node (some n) .item v := by
  induction us generalizing k with
  | nil => exact ⟨spaces k ++ ['-'], by simp [items]⟩
  | cons u us ih =>
    obtain ⟨front, hfront⟩ := ih n
    exact ⟨spaces k ++ '-' :: node (some n) .item u ++ front, by rw [List.cons_append, items, hfront]; simp⟩

/-- The entries of a mapping end with the value of the last one. -/
theorem exists_entries_eq (n k : Nat) (fs : List (Value × Value)) (key v : Value) :
    ∃ front place, entries n k (fs ++ [(key, v)]) = front ++ node (some n) place v := by
  induction fs generalizing k with
  | nil =>
    have hentry : ∃ front place, entry n (key, v) = front ++ node (some n) place v := by
      unfold entry
      split
      · rename_i text htext
        exact ⟨text ++ [':'], .short, by simp⟩
      · exact ⟨'?' :: node (some n) .long key ++ spaces n ++ [':'], .long, by simp⟩
    obtain ⟨front, place, hfront⟩ := hentry
    exact ⟨spaces k ++ front, place, by simp [entries, hfront]⟩
  | cons e fs ih =>
    obtain ⟨front, place, hfront⟩ := ih n
    exact ⟨spaces k ++ entry n e ++ front, place, by rw [List.cons_append, entries, hfront]; simp⟩

/-- What ends with the text of a value ends as that value does. -/
theorem TellsEnd.append (h : TellsEnd v) (as : List Char) (margin : Option Nat) (place : Place) :
    as ++ node margin place v ≠ [] ∧ ((as ++ node margin place v).getLast? ≠ some '\n' ↔ v.EndsOddly) := by
  obtain ⟨hne, hiff⟩ := h margin place
  rw [List.getLast?_append_of_ne_nil as hne]
  exact ⟨List.append_ne_nil_of_right_ne_nil as hne, hiff⟩

theorem tellsEnd (v : Value) : TellsEnd v := by
  induction v using Value.induction with
  | @word v s hs =>
    intro margin place
    have hnone : ¬ v.EndsOddly := Value.not_endsOddly fun s hends => by cases hends <;> cases hs
    rw [node_of_word? hs]
    simp [hnone]
  | str s =>
    intro margin place
    rw [node, List.getLast?_append_of_ne_nil _ (string_ne_nil _ s), getLast?_string_iff, Value.endsOddly_str]
    exact ⟨List.append_ne_nil_of_right_ne_nil _ (string_ne_nil _ s), Iff.rfl⟩
  | seq vs ih =>
    intro margin place
    obtain rfl | ⟨us, v, rfl⟩ := vs.eq_nil_or_concat'
    · have hnone : ¬ (Value.seq []).EndsOddly := Value.not_endsOddly fun s hends => by
        cases hends with
        | seq hvs => simp at hvs
      simp [node, hnone]
    · have hfilled : (us ++ [v]).isEmpty = false := by simp
      simp only [node, hfilled, Value.endsOddly_seq, Bool.false_eq_true, if_false]
      generalize (if (place.inMapping && !place.fresh) = true then margin.getD 0 else entryMargin margin) = inner
      obtain ⟨front, hfront⟩ := exists_items_eq inner 0 us v
      rw [hfront, ← List.append_assoc]
      exact (ih v (by simp)).append _ _ _
  | map es ih =>
    intro margin place
    obtain rfl | ⟨fs, ⟨key, v⟩, rfl⟩ := es.eq_nil_or_concat'
    · have hnone : ¬ (Value.map []).EndsOddly := Value.not_endsOddly fun s hends => by
        cases hends with
        | map hes => simp at hes
      simp [node, hnone]
    · have hfilled : (fs ++ [(key, v)]).isEmpty = false := by simp
      obtain ⟨front, place', hfront⟩ := exists_entries_eq (entryMargin margin) 0 fs key v
      simp only [node, hfilled, Value.endsOddly_map, Bool.false_eq_true, if_false]
      rw [hfront, ← List.append_assoc]
      exact (ih (key, v) (by simp)).2.append _ _ _
  | tagged name v ih =>
    intro margin place
    rw [Value.endsOddly_tagged, node]
    exact ih.append _ _ _

end Workboard.Yaml
