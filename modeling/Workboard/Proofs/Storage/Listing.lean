import Workboard.Proofs.Sorted
import Workboard.Proofs.Storage.Hidden
import Workboard.Storage.Tree

/-!
# What a directory lists

The names that a directory lists are those under which it has a file. They are strictly
ascending, so the listing depends on nothing but which files there are. No look changes a
store, and where a name is listed there is something to read, be it a text or not.
-/
namespace Workboard

section Names
variable {dir : List String} {places : List (List String)} {n : String}

/-- The names of the places that lie directly in a directory. -/
def namesIn (dir : List String) (places : List (List String)) : List String :=
  (places.filter fun k => !k.isEmpty && k.dropLast = dir).filterMap (·.getLast?)

/-- The places in a directory, by their names. -/
theorem map_namesIn (dir : List String) (places : List (List String)) :
    (namesIn dir places).map (dir ++ [·]) =
      places.filter fun k => !k.isEmpty && k.dropLast = dir := by
  unfold namesIn
  induction places with
  | nil => rfl
  | cons k places ih =>
    by_cases hk : (!k.isEmpty && decide (k.dropLast = dir)) = true
    · rw [List.filter_cons_of_pos (by simpa using hk)]
      simp only [Bool.and_eq_true, Bool.not_eq_true', List.isEmpty_eq_false_iff, decide_eq_true_eq] at hk
      obtain ⟨hne, rfl⟩ := hk
      rw [List.filterMap_cons_some (List.getLast?_eq_some_getLast hne), List.map_cons, ih,
        List.dropLast_append_getLast]
    · rw [List.filter_cons_of_neg (by simpa using hk), ih]

theorem mem_namesIn : n ∈ namesIn dir places ↔ dir ++ [n] ∈ places := by
  rw [← List.mem_map_of_injective (f := (dir ++ [·])) fun a b h => by simpa using h, map_namesIn,
    List.mem_filter]
  simp

theorem nodup_namesIn (h : places.Nodup) (dir : List String) : (namesIn dir places).Nodup := by
  refine List.Nodup.of_map (dir ++ [·]) ?_
  rw [map_namesIn]
  exact h.filter _

end Names

namespace Files
variable {f : Files} {p : Path} {n : String}

/-- The listing, by way of the places. -/
theorem list_eq (f : Files) (p : Path) : f.list p = sortBy (· ≤ ·)
    ((namesIn p.names (f.entries.map Prod.fst)).filter fun n => n ≠ ".." && n ≠ "/") := by
  simp only [list, namesIn, List.filter_map, List.filterMap_map]
  rfl

theorem mem_list :
    n ∈ f.list p ↔ (f.text? (p.names ++ [n])).isSome ∧ n ≠ ".." ∧ n ≠ "/" := by
  rw [list_eq, mem_sortBy, List.mem_filter, mem_namesIn, text?_isSome]
  simp

theorem pairwise_list (h : f.Proper) (p : Path) : (f.list p).Pairwise (· < ·) := by
  rw [list_eq]
  exact pairwise_sortBy_text ((nodup_namesIn h _).filter _)

/-- A directory that is not there lists nothing. -/
theorem list_of_not_present (h : f.present p = false) : f.list p = [] := by
  refine List.eq_nil_iff_forall_not_mem.mpr fun n hn => ?_
  have hsome := (mem_list.mp hn).1
  rw [text?_isSome] at hsome
  obtain ⟨e, he, hkey⟩ := List.mem_map.mp hsome
  have hbelow : p.names.isPrefixOf e.1 = true := by
    rw [List.isPrefixOf_iff_prefix, hkey]
    exact List.prefix_append _ _
  rw [present, List.any_eq_false] at h
  exact h e he hbelow

end Files

namespace Tree
variable {t : Tree} {p : Path} {place : Place} {n : String}

/-- No place is listed twice. -/
def Proper (t : Tree) : Prop := (t.entries.map Prod.fst).Nodup

theorem names_eq (t : Tree) (place : Place) :
    t.names place = sortBy (· ≤ ·) (namesIn place (t.entries.map Prod.fst)) := by
  simp only [names, namesIn, List.filter_map, List.filterMap_map]
  rfl

theorem nodup_names (h : t.Proper) (place : Place) : (t.names place).Nodup := by
  rw [names_eq]
  exact (pairwise_sortBy_text (nodup_namesIn h place)).imp ne_of_lt

/-- Where a name is listed, there is an entry. -/
theorem entry?_of_mem_names (h : n ∈ t.names place) : ∃ e, t.entry? (place ++ [n]) = some e := by
  rw [names_eq, mem_sortBy, mem_namesIn] at h
  obtain ⟨⟨_, e⟩, he, rfl⟩ := List.mem_map.mp h
  rw [← Option.isSome_iff_exists, entry?, if_neg (by simp), List.lookup_isSome_iff]
  exact ⟨_, he, beq_self_eq_true _⟩

theorem locate_append (t : Tree) (dir : Place) (names more : List String) :
    t.locate dir (names ++ more) = (t.locate dir names).bind fun d => t.locate d more := by
  induction names generalizing dir with
  | nil => rfl
  | cons name names ih =>
    simp only [List.cons_append, locate]
    cases t.entry? dir with
    | none => rfl
    | some e =>
      cases e with
      | file text => rfl
      | dir =>
        simp only
        split
        · rfl
        · exact ih _

/-- A directory that lists names is at a place. -/
theorem exists_of_list {names : List String} (h : t.list p = .ok names) :
    ∃ place, t.place p = .ok place ∧ t.entry? place = some .dir ∧ names = t.names place := by
  unfold list at h
  cases hplace : t.place p with
  | error f => rw [hplace] at h; cases h
  | ok place =>
    rw [hplace] at h
    cases hentry : t.entry? place with
    | none => simp [bind, Except.bind, hentry] at h
    | some e =>
      cases e with
      | file text => simp [bind, Except.bind, hentry] at h
      | dir =>
        simp only [bind, Except.bind, hentry, Except.ok.injEq] at h
        exact ⟨place, rfl, hentry, h.symm⟩

/-- One name on from a directory, unless the name is too long. -/
theorem place_child (hplace : t.place p = .ok place) (hdir : t.entry? place = some .dir)
    (hname : Path.isEntryName n = true) : t.place (p.child n) =
      if nameLimit < n.utf8ByteSize then .error nameTooLong else .ok (place ++ [n]) := by
  have hlocate : t.locate t.here p.names = .ok place := by
    unfold Tree.place at hplace
    split at hplace
    · cases hplace
    · exact hplace
  have hstep : step place n = place ++ [n] := by
    simp only [Path.isEntryName, Bool.and_eq_true, decide_eq_true_eq] at hname
    simp [step, hname]
  rw [Tree.place, Path.names_child, if_neg (by simp), locate_append, hlocate, Except.bind, locate, hdir]
  simp only [hstep, locate]

/-- Where a name is listed, a reading does not find that there is nothing. -/
theorem absent_of_list {names : List String} (hlist : t.list p = .ok names) (hn : n ∈ names)
    (hname : Path.isEntryName n = true) {failure : Failure}
    (h : t.read (p.child n) = .error failure) : failure.absent = false := by
  obtain ⟨place, hplace, hdir, rfl⟩ := exists_of_list hlist
  obtain ⟨e, he⟩ := entry?_of_mem_names hn
  unfold read at h
  rw [place_child hplace hdir hname] at h
  split at h
  · cases h
    rfl
  · dsimp only [bind, Except.bind] at h
    rw [he] at h
    cases e with
    | dir =>
      cases h
      rfl
    | file text =>
      cases text with
      | none =>
        cases h
        rfl
      | some s => cases h

end Tree

namespace FileStore

/-- A store that no look changes. -/
class Still (σ : Type) [FileStore σ] : Prop where
  read : ∀ (p : Path) (s : σ), (FileStore.read p s).2 = s
  present : ∀ (p : Path) (s : σ), (FileStore.present p s).2 = s
  list : ∀ (p : Path) (s : σ), (FileStore.list p s).2 = s

instance : Still Files := ⟨fun _ _ => rfl, fun _ _ => rfl, fun _ _ => rfl⟩

instance : Still Tree := ⟨fun _ _ => rfl, fun _ _ => rfl, fun _ _ => rfl⟩

/-- If the directory can be listed, it lists each name once, and what it lists is not absent. -/
def Catalogued {σ : Type} [FileStore σ] (s : σ) (dir : Path) : Prop :=
  ∀ names, (FileStore.list dir s).1 = .ok names → names.Nodup ∧
    ∀ n ∈ names, Path.isEntryName n = true →
      ∀ failure, (FileStore.read (dir.child n) s).1 = .error failure → failure.absent = false

theorem catalogued_files {f : Files} (hf : f.Proper) (dir : Path) : Catalogued f dir := by
  intro names hnames
  obtain rfl := Except.ok.inj hnames
  refine ⟨(Files.pairwise_list hf dir).imp ne_of_lt, fun n hn _ failure hread => ?_⟩
  obtain ⟨text, htext⟩ := Option.isSome_iff_exists.mp (Files.mem_list.mp hn).1
  have hok : f.read (dir.child n) = .ok text := by rw [Files.read, Path.names_child, htext]
  cases hok.symm.trans hread

theorem catalogued_tree {t : Tree} (ht : t.Proper) (dir : Path) : Catalogued t dir := by
  intro names hnames
  refine ⟨?_, fun n hn hname failure hread => Tree.absent_of_list hnames hn hname hread⟩
  obtain ⟨place, -, -, rfl⟩ := Tree.exists_of_list hnames
  exact Tree.nodup_names ht place

end FileStore

end Workboard
