import Workboard.Lock.Record
import Workboard.Proofs.Json.Number
import Workboard.Proofs.Json.Quoted
import Workboard.Proofs.Time.Reading

/-!
# Lock files as objects

The text of a lock file is read as an object whose first members are the written ones.
Main statement: whatever number it ends with, if the text of a lock file is read as
a record at all, that record names the owner and the task that were written.
-/
namespace Workboard

namespace Json.Reader

/-- Blanks in front of a quoted text are skipped. -/
theorem skipSpace_quote (s : String) (rest : List Char) :
    skipSpace ((quote s).toList ++ rest) = (quote s).toList ++ rest := by
  rw [toList_quote_append]
  rfl

/-- A line begins with blanks. -/
theorem skipSpace_line (s : String) (rest : List Char) :
    skipSpace ('\n' :: ' ' :: ' ' :: ((quote s).toList ++ rest)) = (quote s).toList ++ rest := by
  have hindent (cs : List Char) : skipSpace ('\n' :: ' ' :: ' ' :: cs) = skipSpace cs := rfl
  rw [hindent, skipSpace_quote]

/-- An object whose first member stands on a line of its own. -/
theorem value_object (fuel : Nat) (name : String) (rest : List Char) :
    value (fuel + 1) ('{' :: '\n' :: ' ' :: ' ' :: ((quote name).toList ++ rest)) =
      members fuel ((quote name).toList ++ rest) [] := by
  have hopen (cs : List Char) : skipSpace ('{' :: cs) = '{' :: cs := rfl
  rw [value, hopen]
  simp only [skipSpace_line]
  rw [toList_quote_append]
  rfl

/-- A member with a text as its value, and a comma. -/
theorem members_text {name text : String} {cs rest : List Char}
    (h : skipSpace cs = (quote name).toList ++ ':' :: ' ' :: ((quote text).toList ++ ',' :: rest))
    (fuel : Nat) (acc : List (Option String × Json)) :
    members (fuel + 2) cs acc =
      members (fuel + 1) rest ((some name, .string (some text)) :: acc) := by
  have hspace (cs : List Char) : skipSpace (' ' :: cs) = skipSpace cs := rfl
  have hcolon (cs : List Char) : skipSpace (':' :: cs) = ':' :: cs := rfl
  have hcomma (cs : List Char) : skipSpace (',' :: cs) = ',' :: cs := rfl
  have hvalue : value (fuel + 1) (' ' :: ((quote text).toList ++ ',' :: rest)) =
      some (.string (some text), ',' :: rest) := by
    rw [value, hspace, skipSpace_quote, toList_quote_append]
    simp only [string_quote, Option.map_some]
  rw [members, h, toList_quote_append]
  simp only [string_quote, hcolon, hvalue, hcomma]

/-- A number that begins with a digit. -/
theorem value_number {body rest : List Char} {n : JsonNumber} (fuel : Nat)
    (hdigit : ∃ c ∈ body.head?, c.isDigit = true)
    (hnumber : number false (body ++ rest) = some (n, rest)) :
    value (fuel + 1) (body ++ rest) = some (.number n, rest) := by
  obtain ⟨c, hc, hd⟩ := hdigit
  cases body with
  | nil => cases hc
  | cons d body =>
    obtain rfl : d = c := Option.some.inj hc
    have hspace : skipSpace (d :: body ++ rest) = d :: body ++ rest := by
      have hne : isSpace d = false := by
        rw [← Bool.not_eq_true]
        intro h
        simp only [isSpace, Bool.or_eq_true, decide_eq_true_eq] at h
        rcases h with ((rfl | rfl) | rfl) | rfl <;> exact absurd hd (by decide)
      rw [skipSpace, List.cons_append, List.dropWhile_cons, hne]
      rfl
    have hother : ∀ x : Char, x.isDigit = false → ∀ xs, d :: body ++ rest ≠ x :: xs := by
      rintro x hx xs heq
      obtain ⟨rfl, -⟩ := List.cons.inj heq
      rw [hd] at hx
      cases hx
    rw [value, hspace]
    split
    · exact absurd (by assumption) (hother 'n' (by decide) _)
    · exact absurd (by assumption) (hother 't' (by decide) _)
    · exact absurd (by assumption) (hother 'f' (by decide) _)
    · exact absurd (by assumption) (hother '"' (by decide) _)
    · exact absurd (by assumption) (hother '[' (by decide) _)
    · exact absurd (by assumption) (hother '{' (by decide) _)
    · exact absurd (by assumption) (hother '-' (by decide) _)
    · rw [hnumber, Option.map_some]

/-- The last member, with a number as its value. -/
theorem members_number {name : String} {cs body : List Char} {n : JsonNumber}
    (h : skipSpace cs = (quote name).toList ++ ':' :: ' ' :: (body ++ ['\n', '}']))
    (hdigit : ∃ c ∈ body.head?, c.isDigit = true)
    (hnumber : number false (body ++ ['\n', '}']) = some (n, ['\n', '}'])) (fuel : Nat)
    (acc : List (Option String × Json)) :
    members (fuel + 2) cs acc = some (.object (acc.reverse ++ [(some name, .number n)]), []) := by
  have hcolon (cs : List Char) : skipSpace (':' :: cs) = ':' :: cs := rfl
  have hclose : skipSpace ['\n', '}'] = ['}'] := rfl
  have hvalue : value (fuel + 1) (' ' :: (body ++ ['\n', '}'])) =
      some (.number n, ['\n', '}']) := by
    rw [← value_number fuel hdigit hnumber, value, value]
    rfl
  rw [members, h, toList_quote_append]
  simp only [string_quote, hcolon, hvalue, hclose, List.reverse_cons]

/-- Members are read behind those that were read before. -/
theorem members_eq_object {fuel : Nat} {cs rest : List Char} {acc : List (Option String × Json)}
    {j : Json} (h : members fuel cs acc = some (j, rest)) :
    ∃ more, j = .object (acc.reverse ++ more) := by
  induction fuel generalizing cs acc with
  | zero => simp [members] at h
  | succ fuel ih =>
    rw [members] at h
    split at h
    · split at h
      · cases h
      split at h
      · split at h
        · cases h
        split at h
        · obtain ⟨more, rfl⟩ := ih h
          exact ⟨_, by rw [List.reverse_cons, List.append_assoc]⟩
        · simp only [Option.some.injEq, Prod.mk.injEq] at h
          exact ⟨_, by rw [← h.1, List.reverse_cons]⟩
        · cases h
      · cases h
    · cases h

end Json.Reader

namespace LockRecord
open Json Json.Reader

/-- The characters of a lock file: a line for each field. -/
theorem toList_render (r : LockRecord) : r.render.toList =
    '{' :: '\n' :: ' ' :: ' ' :: ((quote "task_id").toList ++ ':' :: ' ' ::
      ((quote r.taskId).toList ++ ',' ::
    '\n' :: ' ' :: ' ' :: ((quote "owner").toList ++ ':' :: ' ' ::
      ((quote r.owner).toList ++ ',' ::
    '\n' :: ' ' :: ' ' :: ((quote "acquired_at").toList ++ ':' :: ' ' ::
      ((quote r.acquiredAt.toZuluText).toList ++ ',' ::
    '\n' :: ' ' :: ' ' :: ((quote "heartbeat_at").toList ++ ':' :: ' ' ::
      ((quote r.heartbeatAt.toZuluText).toList ++ ',' ::
    '\n' :: ' ' :: ' ' :: ((quote "timeout_hours").toList ++ ':' :: ' ' ::
      ((Binary64.Layout.lockFile.render r.timeoutHours).toList ++ ['\n', '}'])))))))))) := by
  have h₁ : "\x7b\n  \"task_id\": ".toList =
      '{' :: '\n' :: ' ' :: ' ' :: ((quote "task_id").toList ++ [':', ' ']) := by decide +kernel
  have h₂ : ",\n  \"owner\": ".toList =
      ',' :: '\n' :: ' ' :: ' ' :: ((quote "owner").toList ++ [':', ' ']) := by decide +kernel
  have h₃ : ",\n  \"acquired_at\": ".toList =
      ',' :: '\n' :: ' ' :: ' ' :: ((quote "acquired_at").toList ++ [':', ' ']) := by decide +kernel
  have h₄ : ",\n  \"heartbeat_at\": ".toList =
      ',' :: '\n' :: ' ' :: ' ' :: ((quote "heartbeat_at").toList ++ [':', ' ']) := by decide +kernel
  have h₅ : ",\n  \"timeout_hours\": ".toList =
      ',' :: '\n' :: ' ' :: ' ' :: ((quote "timeout_hours").toList ++ [':', ' ']) := by decide +kernel
  have h₆ : "\n\x7d".toList = ['\n', '}'] := by decide +kernel
  delta LockRecord.render
  simp only [String.toList_append, h₁, h₂, h₃, h₄, h₅, h₆, List.append_assoc,
    List.cons_append, List.nil_append]

/-- The members that stand in front of the timeout, the last one first. -/
def leading (r : LockRecord) : List (Option String × Json) :=
  [(some "heartbeat_at", .string (some r.heartbeatAt.toZuluText)),
    (some "acquired_at", .string (some r.acquiredAt.toZuluText)),
    (some "owner", .string (some r.owner)), (some "task_id", .string (some r.taskId))]

/-- The text of a lock file is read up to its last member. -/
theorem value_render (r : LockRecord) (fuel : Nat) : value (fuel + 6) r.render.toList =
    members (fuel + 1) ('\n' :: ' ' :: ' ' :: ((quote "timeout_hours").toList ++ ':' :: ' ' ::
      ((Binary64.Layout.lockFile.render r.timeoutHours).toList ++ ['\n', '}']))) r.leading := by
  rw [toList_render, value_object, members_text (skipSpace_quote _ _),
    members_text (skipSpace_line _ _), members_text (skipSpace_line _ _),
    members_text (skipSpace_line _ _)]
  rfl

/-- Enough fuel for the members that are written. -/
theorem length_render (r : LockRecord) : ∃ n, r.render.toList.length + 1 = n + 1 + 6 := by
  refine ⟨r.render.toList.length - 6, ?_⟩
  rw [toList_render]
  simp only [List.length_cons, List.length_append]
  omega

/-- Whatever a lock file is read as, it has the members that were written. -/
theorem ofText?_render {r : LockRecord} {j : Json} (h : Json.ofText? r.render = some j) :
    ∃ more, j = .object (r.leading.reverse ++ more) := by
  obtain ⟨n, hn⟩ := r.length_render
  simp only [Json.ofText?, Text.chars_eq, hn, value_render r (n + 1)] at h
  split at h
  · rename_i v rest hv
    split at h
    · cases h
      exact members_eq_object hv
    · cases h
  · cases h

/-- A name that is found once among members that begin so stands for the first one. -/
theorem onlyMember?_leading {r : LockRecord} {more : List (Option String × Json)} {name : String}
    {j k : Json} (hk : (some name, k) ∈ r.leading)
    (h : onlyMember? (r.leading.reverse ++ more) name = some j) : j = k := by
  unfold onlyMember? at h
  split at h
  · rename_i m hm
    have hmem : (some name, k) ∈ (r.leading.reverse ++ more).filter (·.1 = some name) := by
      simp [hk]
    rw [hm, List.mem_singleton] at hmem
    simpa [← hmem] using h.symm
  · cases h

/-- A record that is read from a lock file has what was written in front of the timeout, its times as
they are read. -/
theorem leading_of_ofText?_render {r r' : LockRecord} (h : ofText? r.render = some r') :
    r'.taskId = r.taskId ∧ r'.owner = r.owner ∧
      Instant.ofText? r.acquiredAt.toZuluText = some r'.acquiredAt ∧
      Instant.ofText? r.heartbeatAt.toZuluText = some r'.heartbeatAt := by
  obtain ⟨j, hj, hr⟩ := Option.bind_eq_some_iff.mp h
  obtain ⟨more, rfl⟩ := ofText?_render hj
  rw [ofJson?] at hr
  split at hr
  · cases hr
  obtain ⟨fields, hfields, hr⟩ := Option.bind_eq_some_iff.mp hr
  simp only [fieldNames, List.mapM_cons, List.mapM_nil, Option.pure_def, Option.bind_eq_bind,
    Option.bind_eq_some_iff, Option.some.injEq] at hfields
  obtain ⟨j₁, h₁, _, ⟨j₂, h₂, _, ⟨j₃, h₃, _, ⟨j₄, h₄, _, ⟨j₅, h₅, _, rfl, rfl⟩, rfl⟩, rfl⟩, rfl⟩, rfl⟩ :=
    hfields
  obtain rfl := onlyMember?_leading (k := .string (some r.taskId)) (by simp [leading]) h₁
  obtain rfl := onlyMember?_leading (k := .string (some r.owner)) (by simp [leading]) h₂
  obtain rfl := onlyMember?_leading (k := .string (some r.acquiredAt.toZuluText)) (by simp [leading]) h₃
  obtain rfl := onlyMember?_leading (k := .string (some r.heartbeatAt.toZuluText)) (by simp [leading]) h₄
  simp only [ofFields?, Json.text?, timeOfJson?, Option.bind_eq_bind, Option.bind_some, Option.bind_eq_some_iff,
    Option.some.injEq] at hr
  obtain ⟨_, hacquired, _, hbeat, _, -, rfl⟩ := hr
  exact ⟨rfl, rfl, hacquired, hbeat⟩

/-- A record that is read from a lock file names the task and the owner that were written. -/
theorem names_of_ofText?_render {r r' : LockRecord} (h : ofText? r.render = some r') :
    r'.taskId = r.taskId ∧ r'.owner = r.owner :=
  ⟨(leading_of_ofText?_render h).1, (leading_of_ofText?_render h).2.1⟩

/-- A lock file whose number is read as `n` is an object of five members. -/
theorem ofText?_render_eq {r : LockRecord} {n : JsonNumber} {size : ℚ} {j : ℕ}
    (hn : Binary64.Layout.Reads (Binary64.Layout.lockFile.render r.timeoutHours).toList size n j) :
    Json.ofText? r.render =
      some (.object (r.leading.reverse ++ [(some "timeout_hours", .number n)])) := by
  obtain ⟨fuel, hfuel⟩ := r.length_render
  have hends : EndsNumber ['\n', '}'] := by
    intro c hc
    obtain rfl : '\n' = c := Option.some.inj hc
    decide
  have hread := value_render r (fuel + 1)
  rw [members_number (skipSpace_line _ _) hn.digit (hn.number _ hends)] at hread
  simp only [Json.ofText?, Text.chars_eq, hfuel, hread]
  rfl

/-- A lock file is read as the record that was written, but for the number of hours. -/
theorem ofText?_render_of_reads {r : LockRecord} {n : JsonNumber} {size : ℚ} {j : ℕ}
    {hours : Binary64} (hacquired : r.acquiredAt.IsTime ∧ r.acquiredAt.inRange = true)
    (hbeat : r.heartbeatAt.IsTime ∧ r.heartbeatAt.inRange = true)
    (hn : Binary64.Layout.Reads (Binary64.Layout.lockFile.render r.timeoutHours).toList size n j)
    (hhours : n.toBinary64? = some hours) :
    ofText? r.render = some { r with timeoutHours := hours } := by
  have hacquired' := Instant.ofText?_toZuluText hacquired.1 hacquired.2
  have hbeat' := Instant.ofText?_toZuluText hbeat.1 hbeat.2
  rw [ofText?, ofText?_render_eq hn, Option.bind_some]
  simp [ofJson?, leading, fieldNames, onlyMember?, ofFields?, timeOfJson?, hoursOfJson?, Json.text?,
    hacquired', hbeat', hhours]

end LockRecord

end Workboard
