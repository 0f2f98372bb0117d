import Workboard.Proofs.Yaml.Collections
import Workboard.Yaml.Node

/-!
# Values as nodes

The tokens of a value form a node of its shape. A tag that stands behind another tag is left
over, and then nothing can be formed. Main statement: a text of a mapping that is a document at
all is a mapping with nodes of the same keys and values.
-/
namespace Workboard.Yaml

mutual

/-- The node has the shape of the value. Its tag is known unless the value has one itself. -/
inductive Forms : Option String → Value → Node → Prop
  | word {tag : Option String} {v : Value} {s : String} (h : Printer.word? v = some s) :
    Forms tag v (.scalar tag s true)
  | str {tag : Option String} (s : String) : Forms tag (.str s) (.scalar tag s (Lexer.isPlainStyle s))
  | seq {tag : Option String} {vs : List Value} {ns : List Node} (h : FormsItems vs ns) :
    Forms tag (.seq vs) (.seq tag ns)
  | map {tag : Option String} {es : List (Value × Value)} {fs : List (Node × Node)} (h : FormsEntries es fs) :
    Forms tag (.map es) (.map tag fs)
  | tagged {tag tag' : Option String} {v : Value} {n : Node} (name : String) (h : Forms tag' v n) :
    Forms tag (.tagged name v) n

/-- The nodes have the shapes of the items. -/
inductive FormsItems : List Value → List Node → Prop
  | nil : FormsItems [] []
  | cons {v : Value} {vs : List Value} {n : Node} {ns : List Node} (h : Forms none v n) (hs : FormsItems vs ns) :
    FormsItems (v :: vs) (n :: ns)

/-- The nodes have the shapes of the entries. -/
inductive FormsEntries : List (Value × Value) → List (Node × Node) → Prop
  | nil : FormsEntries [] []
  | cons {k v : Value} {es : List (Value × Value)} {m n : Node} {fs : List (Node × Node)} (hk : Forms none k m)
    (hv : Forms none v n) (hs : FormsEntries es fs) : FormsEntries ((k, v) :: es) ((m, n) :: fs)

end

namespace Compose

variable {fuel : Nat} {bare : Bool} {t : Token} {ts toks rest rest' : List Token} {c c' : Compose}
  {tag : Option String} {v : Value} {vs : List Value} {es : List (Value × Value)} {n k : Node}

section Steps

/-- The tokens that a value may begin with. -/
def begins (bare : Bool) : Token → Bool
  | .scalar _ _ => true
  | .flowSequenceStart => true
  | .flowMappingStart => true
  | .blockSequenceStart => true
  | .blockMappingStart => true
  | .tag _ _ => true
  | .blockEntry => bare
  | _ => false

theorem exists_of_spells (h : Spells bare v toks) : ∃ t ts, toks = t :: ts ∧ begins bare t = true := by
  cases h with
  | bareSeq h =>
    cases h
    exact ⟨_, _, rfl, rfl⟩
  | _ => exact ⟨_, _, rfl, rfl⟩

theorem blockItems_entry (ht : begins false t = true) (acc : List Node) :
    blockItems (fuel + 1) (.blockEntry :: t :: ts) c tag acc =
      match node fuel true false (t :: ts) c with
      | some (n, ts, c) => blockItems fuel ts c tag (n :: acc)
      | none => none := by
  cases t <;> first | rfl | cases ht

theorem bareItems_entry (ht : begins false t = true) (acc : List Node) :
    bareItems (fuel + 1) (.blockEntry :: t :: ts) c tag acc =
      match node fuel true false (t :: ts) c with
      | some (n, ts, c) => bareItems fuel ts c tag (n :: acc)
      | none => none := by
  cases t <;> first | rfl | cases ht

theorem bareItems_end (h : endsEntry ts = true) (acc : List Node) :
    bareItems (fuel + 1) ts c tag acc = some (.seq tag acc.reverse, ts, c) := by
  cases ts with
  | nil => cases h
  | cons t ts => cases t <;> first | rfl | cases h

theorem blockEntries_key (ht : begins true t = true) (acc : List (Node × Node)) :
    blockEntries (fuel + 1) (.key :: t :: ts) c tag acc =
      match node fuel true true (t :: ts) c with
      | some (k, ts, c) => blockValue fuel ts c tag acc k
      | none => none := by
  cases t <;> first | rfl | cases ht

theorem blockValue_value (ht : begins true t = true) (acc : List (Node × Node)) :
    blockValue (fuel + 1) (.value :: t :: ts) c tag acc k =
      match node fuel true true (t :: ts) c with
      | some (v, ts, c) => blockEntries fuel ts c tag ((k, v) :: acc)
      | none => none := by
  cases t <;> first | rfl | cases ht

/-- A node behind its tag, outside of flow collections. -/
def content (fuel : Nat) (bare : Bool) (tag : Option String) (ts : List Token) (c : Compose) : Result :=
  match ts with
  | .scalar text plain :: ts => some (.scalar tag text plain, ts, c.count 1)
  | .flowSequenceStart :: ts => flowItems fuel true ts (c.count 2) tag []
  | .flowMappingStart :: ts => flowEntries fuel true ts (c.count 2) tag []
  | .blockEntry :: _ =>
    if bare then bareItems fuel ts (c.count 2) tag []
    else if tag.isSome then some (.scalar tag "" true, ts, c.count 1) else none
  | .blockSequenceStart :: more => blockItems fuel more (c.count 2) tag []
  | .blockMappingStart :: more => blockEntries fuel more (c.count 2) tag []
  | _ => if tag.isSome then some (.scalar tag "" true, ts, c.count 1) else none

/-- The tag of a node that is written without one. -/
theorem node_content (ht : begins true t = true) (htag : ∀ handle suffix, t ≠ .tag handle suffix) :
    node (fuel + 1) true bare (t :: ts) c = content fuel bare none (t :: ts) c := by
  cases t <;> first | rfl | exact absurd rfl (htag _ _) | cases ht

theorem node_tag (ht : begins true t = true) (handle suffix : String) :
    node (fuel + 1) true bare (.tag handle suffix :: t :: ts) c =
      (c.resolveTag (some (handle, suffix))).bind fun tag => content fuel bare tag (t :: ts) c := by
  unfold node
  cases t <;> first | (simp only [properties]; cases c.resolveTag (some (handle, suffix)) <;> rfl) | cases ht

end Steps

/-- A tag is left over. -/
def LeavesTag (ts : List Token) : Prop := ∃ handle suffix more, ts = .tag handle suffix :: more

/-- What is formed from the tokens of the value behind its tag has the shape of the value. -/
def FormsContent (v : Value) : Prop :=
  ∀ {bare : Bool} {toks rest : List Token} {fuel : Nat} {tag : Option String} {c : Compose} {n : Node}
    {rest' : List Token} {c' : Compose}, Spells bare v toks → (bare = true → endsEntry rest = true) →
    content fuel bare tag (toks ++ rest) c = some (n, rest', c') → rest' = rest ∧ Forms tag v n ∨ LeavesTag rest'

/-- What is formed from the tokens of the value has the shape of the value. -/
def FormsNode (v : Value) : Prop :=
  ∀ {bare : Bool} {toks rest : List Token} {fuel : Nat} {c : Compose} {n : Node} {rest' : List Token}
    {c' : Compose}, Spells bare v toks → (bare = true → endsEntry rest = true) →
    node fuel true bare (toks ++ rest) c = some (n, rest', c') → rest' = rest ∧ Forms none v n ∨ LeavesTag rest'

theorem formsNode_of_content (hcontent : FormsContent v) (hv : ∀ name w, v ≠ .tagged name w) : FormsNode v := by
  intro bare toks rest fuel c n rest' c' hspells hrest h
  cases fuel with
  | zero => cases h
  | succ fuel =>
    obtain ⟨t, ts, rfl, ht⟩ := exists_of_spells hspells
    have htag : ∀ handle suffix, t ≠ .tag handle suffix := by
      rintro handle suffix rfl
      cases hspells with
      | bareSeq h => cases h
      | tagged name => exact hv _ _ rfl
    have ht' : begins true t = true := by cases t <;> first | rfl | cases ht
    rw [List.cons_append, node_content ht' htag] at h
    exact hcontent hspells hrest h

theorem formsContent_tagged (name : String) (v : Value) : FormsContent (.tagged name v) := by
  intro bare toks rest fuel tag c n rest' c' hspells hrest h
  cases hspells with
  | word hword => cases hword
  | tagged name handle suffix hspells =>
    change (if tag.isSome then some (Node.scalar tag "" true, _, c.count 1) else none) = _ at h
    split at h
    · obtain ⟨-, heq⟩ := Prod.mk.inj (Option.some.inj h)
      exact .inr ⟨handle, suffix, _, (Prod.mk.inj heq).1.symm⟩
    · cases h

theorem formsNode_tagged (name : String) (hcontent : FormsContent v) : FormsNode (.tagged name v) := by
  intro bare toks rest fuel c n rest' c' hspells hrest h
  cases fuel with
  | zero => cases h
  | succ fuel =>
    cases hspells with
    | word hword => cases hword
    | tagged name handle suffix hspells =>
      obtain ⟨t, ts, rfl, ht⟩ := exists_of_spells hspells
      have ht' : begins true t = true := by cases t <;> first | rfl | cases ht
      rw [List.cons_append, List.cons_append, node_tag ht'] at h
      obtain ⟨tag, -, h⟩ := Option.bind_eq_some_iff.mp h
      exact (hcontent hspells hrest h).imp_left fun ⟨hrest', hforms⟩ => ⟨hrest', .tagged name hforms⟩

section Collections

/-- The items of a block sequence up to its end. -/
theorem forms_of_blockItems {acc : List Node} (hvs : ∀ v ∈ vs, FormsNode v) (hspells : SpellsItems vs toks)
    (h : blockItems fuel (toks ++ .blockEnd :: rest) c tag acc = some (n, rest', c')) :
    rest' = rest ∧ ∃ ns, FormsItems vs ns ∧ n = .seq tag (acc.reverse ++ ns) := by
  induction vs generalizing fuel toks c acc with
  | nil =>
    cases hspells
    cases fuel with
    | zero => cases h
    | succ fuel =>
      obtain ⟨rfl, heq⟩ := Prod.mk.inj (Option.some.inj h)
      exact ⟨(Prod.mk.inj heq).1.symm, [], .nil, by simp⟩
  | cons v vs ih =>
    obtain ⟨hv, hvs⟩ := List.forall_mem_cons.mp hvs
    cases hspells with
    | @cons _ _ ts us hspell hspells =>
      cases fuel with
      | zero => cases h
      | succ fuel =>
        obtain ⟨t, ts, rfl, ht⟩ := exists_of_spells hspell
        have hsplit : .blockEntry :: (t :: ts) ++ us ++ .blockEnd :: rest =
            .blockEntry :: t :: (ts ++ (us ++ .blockEnd :: rest)) := by simp
        rw [hsplit, blockItems_entry ht] at h
        split at h
        · rename_i n' ts' c₁ hnode
          obtain ⟨rfl, hforms⟩ | ⟨handle, suffix, more, rfl⟩ := hv hspell (by simp) hnode
          · obtain ⟨rfl, ns, hns, rfl⟩ := ih hvs hspells h
            exact ⟨rfl, n' :: ns, .cons hforms hns, by simp⟩
          · cases fuel <;> cases h
        · cases h

/-- The items of a list without ends, up to what ends the entry. -/
theorem forms_of_bareItems {acc : List Node} (hvs : ∀ v ∈ vs, FormsNode v) (hspells : SpellsItems vs toks)
    (hrest : endsEntry rest = true) (h : bareItems fuel (toks ++ rest) c tag acc = some (n, rest', c')) :
    (rest' = rest ∧ ∃ ns, FormsItems vs ns ∧ n = .seq tag (acc.reverse ++ ns)) ∨ LeavesTag rest' := by
  induction vs generalizing fuel toks c acc with
  | nil =>
    cases hspells
    cases fuel with
    | zero => cases h
    | succ fuel =>
      rw [List.nil_append, bareItems_end hrest] at h
      obtain ⟨rfl, heq⟩ := Prod.mk.inj (Option.some.inj h)
      exact .inl ⟨(Prod.mk.inj heq).1.symm, [], .nil, by simp⟩
  | cons v vs ih =>
    obtain ⟨hv, hvs⟩ := List.forall_mem_cons.mp hvs
    cases hspells with
    | @cons _ _ ts us hspell hspells =>
      cases fuel with
      | zero => cases h
      | succ fuel =>
        obtain ⟨t, ts, rfl, ht⟩ := exists_of_spells hspell
        have hsplit : .blockEntry :: (t :: ts) ++ us ++ rest = .blockEntry :: t :: (ts ++ (us ++ rest)) := by simp
        rw [hsplit, bareItems_entry ht] at h
        split at h
        · rename_i n' ts' c₁ hnode
          obtain ⟨rfl, hforms⟩ | ⟨handle, suffix, more, rfl⟩ := hv hspell (by simp) hnode
          · refine (ih hvs hspells h).imp_left ?_
            rintro ⟨rfl, ns, hns, rfl⟩
            exact ⟨rfl, n' :: ns, .cons hforms hns, by simp⟩
          · cases fuel with
            | zero => cases h
            | succ fuel =>
              obtain ⟨-, heq⟩ := Prod.mk.inj (Option.some.inj h)
              exact .inr ⟨handle, suffix, more, (Prod.mk.inj heq).1.symm⟩
        · cases h

/-- A key is followed by its value, and the entries go on behind it. -/
theorem forms_of_blockValue {value : Value} {acc : List (Node × Node)} {r : Node × List Token × Compose}
    (hvalue : FormsNode value) (hspells : Spells true value toks) (hrest : endsEntry rest = true)
    (h : blockValue fuel (.value :: toks ++ rest) c tag acc k = some r) :
    ∃ n fuel' c', Forms none value n ∧ blockEntries fuel' rest c' tag ((k, n) :: acc) = some r := by
  cases fuel with
  | zero => cases h
  | succ fuel =>
    obtain ⟨t, ts, rfl, ht⟩ := exists_of_spells hspells
    rw [List.cons_append, List.cons_append, blockValue_value ht] at h
    split at h
    · rename_i n ts' c₁ hnode
      obtain ⟨rfl, hforms⟩ | ⟨handle, suffix, more, rfl⟩ := hvalue hspells (fun _ => hrest) hnode
      · exact ⟨n, fuel, c₁, hforms, h⟩
      · cases fuel <;> cases h
    · cases h

/-- An entry is its key and its value, and the entries go on behind it. -/
theorem forms_of_blockEntry {key value : Value} {us : List Token} {acc : List (Node × Node)}
    {r : Node × List Token × Compose} (hkey : FormsNode key) (hvalue : FormsNode value)
    (hspells : Spells true key toks) (hspells' : Spells true value us) (hrest : endsEntry rest = true)
    (h : blockEntries fuel (.key :: toks ++ (.value :: us ++ rest)) c tag acc = some r) :
    ∃ m n fuel' c', Forms none key m ∧ Forms none value n ∧
      blockEntries fuel' rest c' tag ((m, n) :: acc) = some r := by
  cases fuel with
  | zero => cases h
  | succ fuel =>
    obtain ⟨t, ts, rfl, ht⟩ := exists_of_spells hspells
    rw [List.cons_append, List.cons_append, blockEntries_key ht] at h
    split at h
    · rename_i m ts' c₁ hnode
      obtain ⟨rfl, hforms⟩ | ⟨handle, suffix, more, rfl⟩ := hkey hspells (fun _ => rfl) hnode
      · obtain ⟨n, fuel', c', hforms', h⟩ := forms_of_blockValue hvalue hspells' hrest h
        exact ⟨m, n, fuel', c', hforms, hforms', h⟩
      · -- the left over tag is no value, and no further entry either
        cases fuel with
        | zero => cases h
        | succ fuel => cases fuel <;> cases h
    · cases h

/-- The entries of a block mapping up to its end. -/
theorem forms_of_blockEntries {acc : List (Node × Node)} (hes : ∀ e ∈ es, FormsNode e.1 ∧ FormsNode e.2)
    (hspells : SpellsEntries es toks)
    (h : blockEntries fuel (toks ++ .blockEnd :: rest) c tag acc = some (n, rest', c')) :
    rest' = rest ∧ ∃ fs, FormsEntries es fs ∧ n = .map tag (acc.reverse ++ fs) := by
  induction es generalizing fuel toks c acc with
  | nil =>
    cases hspells
    cases fuel with
    | zero => cases h
    | succ fuel =>
      obtain ⟨rfl, heq⟩ := Prod.mk.inj (Option.some.inj h)
      exact ⟨(Prod.mk.inj heq).1.symm, [], .nil, by simp⟩
  | cons e es ih =>
    obtain ⟨⟨hkey, hvalue⟩, hothers⟩ := List.forall_mem_cons.mp hes
    cases hspells with
    | @cons _ _ _ ts us xs hk hv hspells =>
      have hsplit : .key :: ts ++ .value :: us ++ xs ++ .blockEnd :: rest =
          .key :: ts ++ (.value :: us ++ (xs ++ .blockEnd :: rest)) := by simp
      have hrest : endsEntry (xs ++ .blockEnd :: rest) = true := by cases hspells <;> rfl
      rw [hsplit] at h
      obtain ⟨m, n', fuel', c₁, hm, hn, h⟩ := forms_of_blockEntry hkey hvalue hk hv hrest h
      obtain ⟨rfl, fs, hfs, rfl⟩ := ih hothers hspells h
      exact ⟨rfl, (m, n') :: fs, .cons hm hn hfs, by simp⟩

/-- An empty list in brackets. -/
theorem content_noItems (h : content fuel bare tag (.flowSequenceStart :: .flowSequenceEnd :: rest) c =
    some (n, rest', c')) : rest' = rest ∧ n = .seq tag [] := by
  cases fuel with
  | zero => cases h
  | succ fuel =>
    obtain ⟨rfl, heq⟩ := Prod.mk.inj (Option.some.inj h)
    exact ⟨(Prod.mk.inj heq).1.symm, rfl⟩

/-- An empty mapping in brackets. -/
theorem content_noEntries (h : content fuel bare tag (.flowMappingStart :: .flowMappingEnd :: rest) c =
    some (n, rest', c')) : rest' = rest ∧ n = .map tag [] := by
  cases fuel with
  | zero => cases h
  | succ fuel =>
    obtain ⟨rfl, heq⟩ := Prod.mk.inj (Option.some.inj h)
    exact ⟨(Prod.mk.inj heq).1.symm, rfl⟩

theorem formsContent_seq (hvs : ∀ v ∈ vs, FormsNode v) : FormsContent (.seq vs) := by
  intro bare toks rest fuel tag c n rest' c' hspells hrest h
  cases hspells with
  | word hword => cases hword
  | noItems =>
    obtain ⟨rfl, rfl⟩ := content_noItems h
    exact .inl ⟨rfl, .seq .nil⟩
  | @seq _ v vs ts hspells =>
    have hsplit : .blockSequenceStart :: ts ++ [.blockEnd] ++ rest = .blockSequenceStart :: (ts ++ .blockEnd :: rest) := by
      simp
    rw [hsplit] at h
    obtain ⟨rfl, ns, hns, rfl⟩ := forms_of_blockItems hvs hspells h
    exact .inl ⟨rfl, .seq hns⟩
  | @bareSeq v vs ts hspells =>
    have hbare : content fuel true tag (toks ++ rest) c = bareItems fuel (toks ++ rest) (c.count 2) tag [] := by
      cases hspells
      rfl
    rw [hbare] at h
    refine (forms_of_bareItems hvs hspells (hrest rfl) h).imp_left ?_
    rintro ⟨rfl, ns, hns, rfl⟩
    exact ⟨rfl, .seq hns⟩

theorem formsContent_map (hes : ∀ e ∈ es, FormsNode e.1 ∧ FormsNode e.2) : FormsContent (.map es) := by
  intro bare toks rest fuel tag c n rest' c' hspells hrest h
  cases hspells with
  | word hword => cases hword
  | noEntries =>
    obtain ⟨rfl, rfl⟩ := content_noEntries h
    exact .inl ⟨rfl, .map .nil⟩
  | @map _ e es ts hspells =>
    have hsplit : .blockMappingStart :: ts ++ [.blockEnd] ++ rest = .blockMappingStart :: (ts ++ .blockEnd :: rest) := by
      simp
    rw [hsplit] at h
    obtain ⟨rfl, fs, hfs, rfl⟩ := forms_of_blockEntries hes hspells h
    exact .inl ⟨rfl, .map hfs⟩

end Collections

theorem formsContent_word {s : String} (hword : Printer.word? v = some s) : FormsContent v := by
  intro bare toks rest fuel tag c n rest' c' hspells hrest h
  cases hspells with
  | word hs =>
    obtain ⟨rfl, heq⟩ := Prod.mk.inj (Option.some.inj h)
    exact .inl ⟨(Prod.mk.inj heq).1.symm, .word hs⟩
  | _ => cases hword

theorem formsContent_string (s : String) : FormsContent (.str s) := by
  intro bare toks rest fuel tag c n rest' c' hspells hrest h
  cases hspells with
  | word hs => cases hs
  | str =>
    obtain ⟨rfl, heq⟩ := Prod.mk.inj (Option.some.inj h)
    exact .inl ⟨(Prod.mk.inj heq).1.symm, .str s⟩

/-- Every value is formed again, from its content and as a node. -/
theorem forms (v : Value) : FormsContent v ∧ FormsNode v := by
  have hnode : ∀ {v : Value}, FormsContent v → (∀ name w, v ≠ .tagged name w) → FormsContent v ∧ FormsNode v :=
    fun hcontent hv => ⟨hcontent, formsNode_of_content hcontent hv⟩
  induction v using Value.induction with
  | @word v s h =>
    refine hnode (formsContent_word h) ?_
    rintro name w rfl
    cases h
  | str s => exact hnode (formsContent_string s) (by simp)
  | seq vs ih => exact hnode (formsContent_seq fun v hv => (ih v hv).2) (by simp)
  | map es ih => exact hnode (formsContent_map fun e he => ⟨(ih e he).1.2, (ih e he).2.2⟩) (by simp)
  | tagged name v ih => exact ⟨formsContent_tagged name v, formsNode_tagged name ih.1⟩

/-- A document that begins with a block mapping is what its entries form. -/
theorem exists_of_ofTokens? {d : Document} (h : Document.ofTokens? (.blockMappingStart :: ts) = some d) :
    ∃ fuel c n rest c', blockEntries fuel ts c none [] = some (n, rest, c') ∧ d.root = some n := by
  unfold Document.ofTokens? at h
  rw [if_neg (by simp)] at h
  simp only [directives, Option.bind_eq_bind, Option.bind_some, Bool.false_eq_true, if_false, Bool.false_and] at h
  obtain ⟨⟨n, rest, c'⟩, hnode, h⟩ := Option.bind_eq_some_iff.mp h
  simp only at h
  split at h
  · obtain rfl := Option.some.inj h
    exact ⟨_, _, n, rest, c', hnode, rfl⟩
  · cases h

end Compose

/-- A text of the entries of a mapping that is a document is a mapping with nodes of the same keys and
values, the last value apart: a line feed at the end may have become one of its characters. -/
theorem exists_of_ofText?_entries {e : Value × Value} {es : List (Value × Value)} {fed : Bool} {x : List Char}
    {d : Document} (hx : Lexer.Follows (Printer.entries 0 0 (e :: es)) fed x 0 [])
    (h : Document.ofText? (String.ofList (Printer.entries 0 0 (e :: es) ++ x)) = some d) :
    ∃ es' fs, FedEntries fed (e :: es) es' ∧ FormsEntries es' fs ∧ d.root = some (.map none fs) := by
  obtain ⟨ts, hts, hd⟩ := Option.bind_eq_some_iff.mp h
  rw [Text.chars_ofList] at hts
  obtain ⟨es', toks, hfed, hspells, rfl⟩ := Lexer.exists_of_tokens?_entries hx hts
  obtain ⟨f, fs, rfl⟩ := hfed.exists_cons
  rw [List.cons_append] at hd
  obtain ⟨fuel, c, n, rest, c', hentries, hroot⟩ := Compose.exists_of_ofTokens? hd
  obtain ⟨-, ns, hns, rfl⟩ := Compose.forms_of_blockEntries
    (fun e _ => ⟨(Compose.forms e.1).2, (Compose.forms e.2).2⟩) hspells hentries
  exact ⟨_, ns, hfed, hns, hroot⟩

end Workboard.Yaml
