import Workboard.Storage.World

/-!
# Prepared answers

A file store with answers that were prepared for some calls. A prepared answer belongs
to one kind of call on one path, lets some calls pass first, and may be used a number
of times only. Calls without one go to the store behind.
-/
namespace Workboard

/-- An answer together with the kind of call it answers. -/
inductive Prepared where
  | read (r : Except Failure String)
  | createNew (r : Except Failure Bool)
  | rename (r : Except Failure Unit)
  | remove (r : Except Failure Bool)
  | present (b : Bool)
  | list (r : Except Failure (List String))

/-- A prepared answer with its path, for a rename the target, the calls that pass before
it is used, and how often it is used, if there is a bound. -/
structure Fault where
  names : List String
  answer : Prepared
  skip : Nat := 0
  times : Option Nat := none

namespace Fault

/-- The first prepared answer that is due, and what is left prepared. -/
def take? {α : Type} (pick : Prepared → Option α) (names : List String) :
    List Fault → Option α × List Fault
  | [] => (none, [])
  | f :: fs =>
    let passOver (f : Fault) : Option α × List Fault :=
      let (a, fs) := take? pick names fs
      (a, f :: fs)
    if f.names = names then
      match pick f.answer with
      | none => passOver f
      | some a =>
        if f.times = some 0 then passOver f
        else match f.skip with
          | n + 1 => passOver { f with skip := n }
          | 0 => (some a, { f with times := f.times.map (· - 1) } :: fs)
    else passOver f

end Fault

/-- A store behind prepared answers. -/
structure Faulty (σ : Type) where
  store : σ
  faults : List Fault := []

namespace Faulty
variable {σ α : Type}

/-- Answer as prepared, or by the store. -/
def answer (pick : Prepared → Option α) (p : Path) (behind : σ → α × σ) (s : Faulty σ) :
    α × Faulty σ :=
  match Fault.take? pick p.names s.faults with
  | (some a, faults) => (a, { s with faults })
  | (none, faults) =>
    let (a, store) := behind s.store
    (a, { store, faults })

instance [FileStore σ] : FileStore (Faulty σ) where
  read p := answer (fun | .read r => some r | _ => none) p (FileStore.read p)
  write p t s :=
    let (a, store) := FileStore.write p t s.store
    (a, { s with store })
  createNew p t := answer (fun | .createNew r => some r | _ => none) p (FileStore.createNew p t)
  rename p q := answer (fun | .rename r => some r | _ => none) q (FileStore.rename p q)
  remove p := answer (fun | .remove r => some r | _ => none) p (FileStore.remove p)
  present p := answer (fun | .present b => some b | _ => none) p (FileStore.present p)
  list p := answer (fun | .list r => some r | _ => none) p (FileStore.list p)

end Faulty

end Workboard
