import Workboard.Proofs.Task.Front
import Workboard.Proofs.Task.Storable

/-!
# Records that are read again

A record that can be read at all tells the id and the state that the task had when it was written,
and who worked on it then, whatever stands in the task's other fields. It also tells which tasks were split off from which,
unless an unknown field goes by the name of one of these, or one of their ids has lines.
-/
namespace Workboard.Record
open Yaml Reading

section Nodes
variable {d : Document} {i j : Nat} {s : String} {xs : List String} {n : Node} {ns : List Node}

theorem eq_of_forms_str (h : Forms none (.str s) n) : n = .scalar none s (Lexer.isPlainStyle s) := by
  cases h with
  | word h => cases h
  | str s => rfl

theorem isNothing_of_isPlainStyle (h : Lexer.isPlainStyle s = true) : isNothing s = false := by
  obtain ⟨hstyle, -⟩ | ⟨-, -, hreads⟩ | ⟨hstyle, -⟩ | hstyle := style_cases s
  · simp [Lexer.isPlainStyle, hstyle] at h
  · rw [← Bool.not_eq_true]
    intro hnothing
    rw [isNothing] at hnothing
    simp [readsOtherwise, Plain.ofText, hnothing] at hreads
  · simp [Lexer.isPlainStyle, hstyle] at h
  · simp [Lexer.isPlainStyle, hstyle] at h

theorem texts_of_formsItems {ys : List String} (hforms : FormsItems (xs.map .str) ns)
    (h : ns.mapM text d i = some (ys, j)) : ys = xs := by
  induction xs generalizing ns ys i with
  | nil =>
    cases hforms
    rw [List.mapM_nil] at h
    exact (pure_eq_some.mp h).1.symm
  | cons x xs ih =>
    cases hforms with
    | cons hform hforms =>
      obtain rfl := eq_of_forms_str hform
      rw [List.mapM_cons] at h
      obtain ⟨y, k, hy, h⟩ := bind_eq_some.mp h
      obtain ⟨zs, l, hzs, h⟩ := bind_eq_some.mp h
      obtain ⟨rfl, rfl⟩ := pure_eq_some.mp h
      rw [text_scalar hy, ih hforms hzs]

/-- The texts of a list of strings. -/
theorem texts_of_forms {ys : List String} (hforms : Forms none (.seq (xs.map .str)) n)
    (h : texts n d i = some (ys, j)) : ys = xs := by
  cases hforms with
  | word hword => cases hword
  | seq hforms => exact texts_of_formsItems hforms h

end Nodes

namespace Fields
variable {f f' : Fields} {d : Document} {i j : Nat} {es : List (Value × Value)} {fs : List (Node × Node)}

/-- Every key is a string. -/
def AreNamed (es : List (Value × Value)) : Prop := ∀ e ∈ es, ∃ name, e.1 = .str name

theorem reads_of_forms {key : Value} {m n : Node} {name : String} (hkey : Forms none key m) (hname : key = .str name)
    (h : read f (m, n) d i = some (f', j)) : Reads d n i j name f f' := by
  subst hname
  rw [eq_of_forms_str hkey] at h
  exact reads_of_read h

/-- What each of the entries keeps, all of them keep. -/
theorem foldlM_induction {P : Fields → Prop} (hnames : AreNamed es) (hforms : FormsEntries es fs)
    (hstep : ∀ e ∈ es, ∀ {name n i j f f'}, e.1 = .str name → Forms none e.2 n → Reads d n i j name f f' → P f → P f')
    (h : fs.foldlM read f d i = some (f', j)) (hf : P f) : P f' := by
  induction es generalizing fs f i with
  | nil =>
    cases hforms
    exact (pure_eq_some.mp h).1 ▸ hf
  | cons e es ih =>
    obtain ⟨⟨name, hname⟩, hothers⟩ := List.forall_mem_cons.mp hnames
    cases hforms with
    | cons hkey hvalue hforms =>
      rw [List.foldlM_cons] at h
      obtain ⟨f₁, k, hread, h⟩ := bind_eq_some.mp h
      have hreads := reads_of_forms hkey hname hread
      exact ih hothers hforms (fun e he => hstep e (List.mem_cons_of_mem _ he)) h
        (hstep _ List.mem_cons_self hname hvalue hreads hf)

theorem stays_of_foldlM (hnames : AreNamed es) (hforms : FormsEntries es fs)
    (h : fs.foldlM read f d i = some (f', j)) : Stays f f' :=
  foldlM_induction (P := Stays f) hnames hforms (fun _ _ => fun _ _ hreads hstays => hstays.trans hreads.stays) h (.refl f)

/-- Each of the entries is read at some time, and what is read then stays. -/
theorem exists_of_mem {name : String} {value : Value} (hnames : AreNamed es) (hforms : FormsEntries es fs)
    (h : fs.foldlM read f d i = some (f', j)) (hmem : (.str name, value) ∈ es) :
    ∃ f₁ f₂ n i₁ i₂, Forms none value n ∧ Reads d n i₁ i₂ name f₁ f₂ ∧ Stays f₂ f' := by
  induction es generalizing fs f i with
  | nil => cases hmem
  | cons e es ih =>
    obtain ⟨-, hothers⟩ := List.forall_mem_cons.mp hnames
    cases hforms with
    | cons hkey hvalue hforms =>
      rw [List.foldlM_cons] at h
      obtain ⟨f₁, k, hread, h⟩ := bind_eq_some.mp h
      obtain heq | hmem := List.mem_cons.mp hmem
      · obtain ⟨rfl, rfl⟩ := Prod.mk.inj heq
        exact ⟨f, f₁, _, i, k, hvalue, reads_of_forms hkey rfl hread, stays_of_foldlM hothers hforms h⟩
      · exact ih hothers hforms h hmem

section Members
variable (hnames : AreNamed es) (hforms : FormsEntries es fs) (h : fs.foldlM read f d i = some (f', j))
include hnames hforms h

theorem id_of_mem {id : String} (hmem : (.str "id", .str id) ∈ es) : f'.id = some id := by
  obtain ⟨f₁, f₂, n, i₁, i₂, hvalue, hreads, hstays⟩ := exists_of_mem hnames hforms h hmem
  obtain rfl := eq_of_forms_str hvalue
  cases hreads with
  | id _ hid hold heq =>
    subst heq
    exact hstays.id _ (by rw [text_scalar hid])
  | _ => simp_all

theorem state_of_mem {s : TaskState} (hmem : (.str "state", .str s.name) ∈ es) : f'.state = some s := by
  obtain ⟨f₁, f₂, n, i₁, i₂, hvalue, hreads, hstays⟩ := exists_of_mem hnames hforms h hmem
  obtain rfl := eq_of_forms_str hvalue
  cases hreads with
  | state _ hstate hold heq =>
    subst heq
    exact hstays.state _ (by rw [word_name (TaskState.ofName?_name s) hstate])
  | _ => simp_all

theorem assignedTo_of_mem {y : String} (hmem : (.str "assigned_to", .str y) ∈ es) : f'.assignedTo = some (some y) := by
  obtain ⟨f₁, f₂, n, i₁, i₂, hvalue, hreads, hstays⟩ := exists_of_mem hnames hforms h hmem
  obtain rfl := eq_of_forms_str hvalue
  cases hreads with
  | assignedTo _ hassigned hold heq =>
    subst heq
    exact hstays.assignedTo _ (by rw [optionalText_scalar isNothing_of_isPlainStyle hassigned])
  | _ => simp_all

theorem spawnedFrom_of_mem {p : String} (hmem : (.str "spawned_from", .str p) ∈ es) : f'.spawnedFrom = some (some p) := by
  obtain ⟨f₁, f₂, n, i₁, i₂, hvalue, hreads, hstays⟩ := exists_of_mem hnames hforms h hmem
  obtain rfl := eq_of_forms_str hvalue
  cases hreads with
  | spawnedFrom _ hfrom hold heq =>
    subst heq
    exact hstays.spawnedFrom _ (by rw [optionalText_scalar isNothing_of_isPlainStyle hfrom])
  | _ => simp_all

theorem spawnedTasks_of_mem {xs : List String} (hmem : (.str "spawned_tasks", .seq (xs.map .str)) ∈ es) :
    f'.spawnedTasks = some xs := by
  obtain ⟨f₁, f₂, n, i₁, i₂, hvalue, hreads, hstays⟩ := exists_of_mem hnames hforms h hmem
  cases hreads with
  | spawnedTasks _ htasks hold heq =>
    subst heq
    exact hstays.spawnedTasks _ (by rw [texts_of_forms hvalue htasks])
  | _ => simp_all

theorem spawnedFrom_of_not_mem (hnone : ∀ e ∈ es, e.1 ≠ .str "spawned_from") : f'.spawnedFrom = f.spawnedFrom := by
  refine foldlM_induction (P := fun f' => f'.spawnedFrom = f.spawnedFrom) hnames hforms
    (fun e he => ?_) h rfl
  intro name n i j f₁ f₂ hname _ hreads hf
  cases hreads with
  | id _ h hold heq => simp [heq, hf]
  | state _ h hold heq => simp [heq, hf]
  | assignedTo _ h hold heq => simp [heq, hf]
  | spawnedFrom heq' => exact absurd (heq' ▸ hname) (hnone e he)
  | spawnedTasks _ h hold heq => simp [heq, hf]
  | other _ _ _ _ hfrom _ => rw [hfrom, hf]

theorem spawnedTasks_of_not_mem (hnone : ∀ e ∈ es, e.1 ≠ .str "spawned_tasks") :
    f'.spawnedTasks = f.spawnedTasks := by
  refine foldlM_induction (P := fun f' => f'.spawnedTasks = f.spawnedTasks) hnames hforms
    (fun e he => ?_) h rfl
  intro name n i j f₁ f₂ hname _ hreads hf
  cases hreads with
  | id _ h hold heq => simp [heq, hf]
  | state _ h hold heq => simp [heq, hf]
  | assignedTo _ h hold heq => simp [heq, hf]
  | spawnedFrom _ h hold heq => simp [heq, hf]
  | spawnedTasks heq' => exact absurd (heq' ▸ hname) (hnone e he)
  | other _ _ _ _ _ htasks => rw [htasks, hf]

end Members

end Fields

section Records
variable {t t' : Task}

/-- The entries of a front matter. -/
def entriesOf (t : Task) : List (Value × Value) :=
  match frontMatter t with
  | .map es => es
  | _ => []

theorem frontMatter_eq (t : Task) : frontMatter t = .map (entriesOf t) := rfl

/-- The entries in front of those of the times, which are always there. -/
def leadingEntries (t : Task) : List (Value × Value) :=
  textField "id" t.id ++ textField "title" t.title ++ textField "state" t.state.name ++
    textField "priority" t.priority.name ++ textsField "requires" t.requires.toList ++
    textsField "blocks" t.blocks.toList ++ textField "waiting_for" t.waitingFor ++
    textField "assigned_to" t.assignedTo

theorem mem_dropLast_entriesOf {e : Value × Value} (h : e ∈ leadingEntries t) : e ∈ (entriesOf t).dropLast := by
  obtain ⟨later, hlater, hentries⟩ : ∃ later, later ≠ [] ∧ entriesOf t = leadingEntries t ++ later :=
    ⟨textField "created_at" t.createdAt.toZuluText ++ textField "updated_at" t.updatedAt.toZuluText ++
      textField "spawned_from" t.spawnedFrom ++ textsField "spawned_tasks" t.spawnedTasks ++
      t.extra.entries.map (fun e => (.str e.1, e.2)), by simp [textField],
      by simp [entriesOf, frontMatter, leadingEntries]⟩
  rw [hentries, List.dropLast_append_of_ne_nil hlater]
  exact List.mem_append_left _ h

theorem name_of_mem_textField {name : String} {o : Option String} {e : Value × Value} (h : e ∈ textField name o) :
    e.1 = .str name := by
  cases o with
  | none => cases h
  | some s => rw [List.mem_singleton.mp h]

theorem name_of_mem_textsField {name : String} {xs : List String} {e : Value × Value}
    (h : e ∈ textsField name xs) : e.1 = .str name := by
  unfold textsField at h
  split at h
  · cases h
  · rw [List.mem_singleton.mp h]

/-- The names of the fields in front of those that tell which tasks were split off from which. -/
def earlierNames : List String :=
  ["id", "title", "state", "priority", "requires", "blocks", "waiting_for", "assigned_to", "created_at", "updated_at"]

/-- The name of an entry is one of the names in front, or the entry is one of the two fields behind them or an
unknown field. -/
def HasPlace (t : Task) (e : Value × Value) (name : String) : Prop :=
  name ∈ earlierNames ∨ e ∈ textField "spawned_from" t.spawnedFrom ∨ e ∈ textsField "spawned_tasks" t.spawnedTasks ∨
    ∃ x ∈ t.extra.entries, x.1 = name

theorem exists_name_of_mem {e : Value × Value} (h : e ∈ entriesOf t) : ∃ name, e.1 = .str name ∧ HasPlace t e name := by
  have hearlier : (∃ name ∈ earlierNames, e.1 = .str name) → ∃ name, e.1 = .str name ∧ HasPlace t e name :=
    fun ⟨name, hname, heq⟩ => ⟨name, heq, .inl hname⟩
  simp only [entriesOf, frontMatter, List.mem_append, or_assoc] at h
  rcases h with h | h | h | h | h | h | h | h | h | h | h | h | h
  · exact hearlier ⟨_, by decide, name_of_mem_textField h⟩
  · exact hearlier ⟨_, by decide, name_of_mem_textField h⟩
  · exact hearlier ⟨_, by decide, name_of_mem_textField h⟩
  · exact hearlier ⟨_, by decide, name_of_mem_textField h⟩
  · exact hearlier ⟨_, by decide, name_of_mem_textsField h⟩
  · exact hearlier ⟨_, by decide, name_of_mem_textsField h⟩
  · exact hearlier ⟨_, by decide, name_of_mem_textField h⟩
  · exact hearlier ⟨_, by decide, name_of_mem_textField h⟩
  · exact hearlier ⟨_, by decide, name_of_mem_textField h⟩
  · exact hearlier ⟨_, by decide, name_of_mem_textField h⟩
  · exact ⟨_, name_of_mem_textField h, .inr (.inl h)⟩
  · exact ⟨_, name_of_mem_textsField h, .inr (.inr (.inl h))⟩
  · obtain ⟨x, hx, rfl⟩ := List.mem_map.mp h
    exact ⟨x.1, rfl, .inr (.inr (.inr ⟨x, hx, rfl⟩))⟩

theorem areNamed_entriesOf (t : Task) : Fields.AreNamed (entriesOf t) := fun _ he =>
  (exists_name_of_mem he).imp fun _ h => h.1

theorem not_mem_spawnedFrom (hnames : t.NamesApart) (h : t.spawnedFrom = none) :
    ∀ e ∈ entriesOf t, e.1 ≠ .str "spawned_from" := by
  intro e he heq
  obtain ⟨name, hname, hcases⟩ := exists_name_of_mem he
  obtain rfl := Value.str.inj (hname.symm.trans heq)
  obtain hearlier | hfrom | htasks | ⟨x, hx, hx'⟩ := hcases
  · exact absurd hearlier (by decide)
  · rw [h] at hfrom
    cases hfrom
  · exact absurd (Value.str.inj (hname.symm.trans (name_of_mem_textsField htasks))) (by decide)
  · exact hnames x hx (by rw [hx']; decide)

theorem not_mem_spawnedTasks (hnames : t.NamesApart) (h : t.spawnedTasks = []) :
    ∀ e ∈ entriesOf t, e.1 ≠ .str "spawned_tasks" := by
  intro e he heq
  obtain ⟨name, hname, hcases⟩ := exists_name_of_mem he
  obtain rfl := Value.str.inj (hname.symm.trans heq)
  obtain hearlier | hfrom | htasks | ⟨x, hx, hx'⟩ := hcases
  · exact absurd hearlier (by decide)
  · exact absurd (Value.str.inj (hname.symm.trans (name_of_mem_textField hfrom))) (by decide)
  · rw [h] at htasks
    cases htasks
  · exact hnames x hx (by rw [hx']; decide)

/-- A record that can be read is read from nodes of the entries of its task, the value of the last one
apart. -/
theorem exists_of_parse_render (h : parse (render t) = .ok t') :
    ∃ d f fed es fs j body, FedEntries fed (entriesOf t) es ∧ FormsEntries es fs ∧
      fs.foldlM Fields.read {} d 0 = some (f, j) ∧ f.task? body = some t' := by
  obtain ⟨front, body, d, f, hsplit, hd, hread, htask⟩ := exists_of_parse h
  obtain ⟨e, es, hes⟩ : ∃ e es, entriesOf t = e :: es := ⟨_, _, rfl⟩
  obtain ⟨fed, x, hfront, hx, hend, hclear⟩ := exists_frontLines_eq (frontMatter_eq t) (by simp [hes])
  have htext : (render t).toList = ['-', '-', '-', '\n'] ++
      (frontLines t ++ (['-', '-', '-', '\n'] ++ t.body.toList)) := by
    simp [render]
  rw [htext, split_ruled, cut?_ruled hclear hend] at hsplit
  obtain ⟨rfl, rfl⟩ := Prod.mk.inj (Except.ok.inj hsplit)
  rw [hfront, hes] at hd
  rw [hes] at hx ⊢
  obtain ⟨es', fs, hfed, hforms, hroot⟩ := exists_of_ofText?_entries hx hd
  obtain ⟨⟨f, j⟩, hrun, rfl⟩ := Option.map_eq_some_iff.mp hread
  rw [hroot] at hrun
  exact ⟨d, f, fed, es', fs, j, _, hfed, hforms, hrun, htask⟩

theorem areNamed_of_fedEntries {fed : Bool} {es : List (Value × Value)} (h : FedEntries fed (entriesOf t) es) :
    Fields.AreNamed es := fun _ he => by
  obtain ⟨f, hf, heq⟩ := h.exists_key he
  exact heq ▸ areNamed_entriesOf t f hf

/-- A record that can be read tells the state that the task had. -/
theorem state_of_parse_render (h : parse (render t) = .ok t') : t'.state = t.state := by
  obtain ⟨d, f, fed, es, fs, j, body, hfed, hforms, hfold, htask⟩ := exists_of_parse_render h
  have hmem : (.str "state", .str t.state.name) ∈ leadingEntries t := by simp [leadingEntries, textField]
  have hstate := Fields.state_of_mem (areNamed_of_fedEntries hfed) hforms hfold (hfed.mem (mem_dropLast_entriesOf hmem))
  exact Option.some.inj ((Fields.kin_of_task? htask).2.1.symm.trans hstate)

theorem id_of_parse_render (h : parse (render t) = .ok t') : t'.id = t.id := by
  obtain ⟨d, f, fed, es, fs, j, body, hfed, hforms, hfold, htask⟩ := exists_of_parse_render h
  have hmem : (.str "id", .str t.id) ∈ leadingEntries t := by simp [leadingEntries, textField]
  have hid := Fields.id_of_mem (areNamed_of_fedEntries hfed) hforms hfold (hfed.mem (mem_dropLast_entriesOf hmem))
  exact Option.some.inj ((Fields.kin_of_task? htask).1.symm.trans hid)

/-- A record that can be read tells who works on the task, if somebody does. -/
theorem assignedTo_of_parse_render {y : String} (hy : t.assignedTo = some y) (h : parse (render t) = .ok t') :
    t'.assignedTo = some y := by
  obtain ⟨d, f, fed, es, fs, j, body, hfed, hforms, hfold, htask⟩ := exists_of_parse_render h
  have hmem : (.str "assigned_to", .str y) ∈ leadingEntries t := by simp [leadingEntries, textField, hy]
  rw [Fields.assignedTo_of_task? htask, Fields.assignedTo_of_mem (areNamed_of_fedEntries hfed) hforms hfold
    (hfed.mem (mem_dropLast_entriesOf hmem))]
  rfl

theorem spawnedFrom_of_parse_render (hnames : t.NamesApart) (hplain : ∀ p, t.spawnedFrom = some p → '\n' ∉ p.toList)
    (h : parse (render t) = .ok t') : t'.spawnedFrom = t.spawnedFrom := by
  obtain ⟨d, f, fed, es, fs, j, body, hfed, hforms, hfold, htask⟩ := exists_of_parse_render h
  rw [(Fields.kin_of_task? htask).2.2.1]
  cases hfrom : t.spawnedFrom with
  | none =>
    have hnone : ∀ e ∈ es, e.1 ≠ .str "spawned_from" := fun e he => by
      obtain ⟨g, hg, heq⟩ := hfed.exists_key he
      exact heq ▸ not_mem_spawnedFrom hnames hfrom g hg
    rw [Fields.spawnedFrom_of_not_mem (areNamed_of_fedEntries hfed) hforms hfold hnone]
    rfl
  | some p =>
    have hmem : (.str "spawned_from", .str p) ∈ entriesOf t := by simp [entriesOf, frontMatter, textField, hfrom]
    obtain ⟨v, hv, hmem⟩ := hfed.exists_mem hmem
    rw [hv.eq_str (hplain p hfrom)] at hmem
    rw [Fields.spawnedFrom_of_mem (areNamed_of_fedEntries hfed) hforms hfold hmem]
    rfl

theorem spawnedTasks_of_parse_render (hnames : t.NamesApart) (hplain : ∀ c ∈ t.spawnedTasks, '\n' ∉ c.toList)
    (h : parse (render t) = .ok t') : t'.spawnedTasks = t.spawnedTasks := by
  obtain ⟨d, f, fed, es, fs, j, body, hfed, hforms, hfold, htask⟩ := exists_of_parse_render h
  rw [(Fields.kin_of_task? htask).2.2.2]
  by_cases htasks : t.spawnedTasks = []
  · have hnone : ∀ e ∈ es, e.1 ≠ .str "spawned_tasks" := fun e he => by
      obtain ⟨g, hg, heq⟩ := hfed.exists_key he
      exact heq ▸ not_mem_spawnedTasks hnames htasks g hg
    rw [Fields.spawnedTasks_of_not_mem (areNamed_of_fedEntries hfed) hforms hfold hnone, htasks]
    rfl
  · have hmem : (.str "spawned_tasks", .seq (t.spawnedTasks.map .str)) ∈ entriesOf t := by
      simp [entriesOf, frontMatter, textsField, htasks]
    obtain ⟨v, hv, hmem⟩ := hfed.exists_mem hmem
    rw [hv.eq_seq hplain] at hmem
    rw [Fields.spawnedTasks_of_mem (areNamed_of_fedEntries hfed) hforms hfold hmem]
    rfl

end Records

end Workboard.Record
