import Workboard.Number.Decimal

/-!
# YAML values

What a node stands for once its scalars are read. Equality of values can be
decided. Two values are the same if they agree up to the order of the entries of a
mapping and the sign of a zero.
-/
namespace Workboard.Yaml

inductive Value where
  | null
  | bool (b : Bool)
  | int (n : Int)
  | float (x : Binary64)
  | str (s : String)
  | seq (items : List Value)
  | map (entries : List (Value × Value))
  | tagged (tag : String) (value : Value)
  deriving Inhabited

namespace Value

mutual

/-- Whether two values are equal. -/
def decEq : (a b : Value) → Decidable (a = b)
  | .null, b => by cases b <;> first | exact isTrue rfl | exact isFalse nofun
  | .bool a, b => by
    cases b with
    | bool b => exact decidable_of_iff (a = b) (by simp)
    | _ => exact isFalse nofun
  | .int a, b => by
    cases b with
    | int b => exact decidable_of_iff (a = b) (by simp)
    | _ => exact isFalse nofun
  | .float a, b => by
    cases b with
    | float b => exact decidable_of_iff (a = b) (by simp)
    | _ => exact isFalse nofun
  | .str a, b => by
    cases b with
    | str b => exact decidable_of_iff (a = b) (by simp)
    | _ => exact isFalse nofun
  | .seq as, b => by
    cases b with
    | seq bs => exact @decidable_of_iff _ (as = bs) (by simp) (decEqItems as bs)
    | _ => exact isFalse nofun
  | .map as, b => by
    cases b with
    | map bs => exact @decidable_of_iff _ (as = bs) (by simp) (decEqEntries as bs)
    | _ => exact isFalse nofun
  | .tagged t a, b => by
    cases b with
    | tagged u b =>
      exact @decidable_of_iff _ (t = u ∧ a = b) (by simp) (@instDecidableAnd _ _ _ (decEq a b))
    | _ => exact isFalse nofun

/-- Whether two lists of items are equal. -/
def decEqItems : (as bs : List Value) → Decidable (as = bs)
  | [], [] => isTrue rfl
  | [], _ :: _ => isFalse nofun
  | _ :: _, [] => isFalse nofun
  | a :: as, b :: bs =>
    @decidable_of_iff _ (a = b ∧ as = bs) (by simp)
      (@instDecidableAnd _ _ (decEq a b) (decEqItems as bs))

/-- Whether two lists of entries are equal. -/
def decEqEntries : (as bs : List (Value × Value)) → Decidable (as = bs)
  | [], [] => isTrue rfl
  | [], _ :: _ => isFalse nofun
  | _ :: _, [] => isFalse nofun
  | (k, a) :: as, (l, b) :: bs =>
    @decidable_of_iff _ ((k = l ∧ a = b) ∧ as = bs) (by simp)
      (@instDecidableAnd _ _ (@instDecidableAnd _ _ (decEq k l) (decEq a b)) (decEqEntries as bs))

end

instance : DecidableEq Value := decEq

mutual

/-- Agree up to the order of entries and the sign of a zero. -/
def same : Value → Value → Bool
  | .null, .null => true
  | .bool a, .bool b => a == b
  | .int a, .int b => a == b
  | .float a, .float b => a.same b
  | .str a, .str b => a == b
  | .seq as, .seq bs => sameItems as bs
  | .map as, .map bs => as.length == bs.length && sameEntries as bs
  | .tagged t a, .tagged u b => t == u && same a b
  | _, _ => false

/-- The items agree one by one. -/
def sameItems : List Value → List Value → Bool
  | [], [] => true
  | a :: as, b :: bs => same a b && sameItems as bs
  | _, _ => false

/-- Every entry on the left has one on the right that agrees with it. -/
def sameEntries : List (Value × Value) → List (Value × Value) → Bool
  | [], _ => true
  | (k, a) :: as, bs => bs.any (fun (l, b) => same k l && same a b) && sameEntries as bs

end

/-- A key that stands twice in a list of entries. -/
def hasRepeatedKey : List (Value × Value) → Bool
  | [] => false
  | (k, _) :: es => es.any (fun e => same k e.1) || hasRepeatedKey es

end Value

end Workboard.Yaml
