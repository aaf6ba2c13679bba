import Wiring.Ty.Basic

/-!
# The order of types

Types are ordered by their outermost constructor, in the order of their declaration, and then field
by field: names by code point, lists lexicographically, `false` before `true`.
-/

namespace Wiring

/-- The lexicographic order of two lists under an order of their elements. -/
def compareLists (cmp : α → α → Ordering) : List α → List α → Ordering
  | [], [] => .eq
  | [], _ :: _ => .lt
  | _ :: _, [] => .gt
  | a :: as, b :: bs => (cmp a b).then (compareLists cmp as bs)

namespace Ty

/-- The position of a type's constructor. -/
def rank : Ty → Nat
  | .named .. => 0
  | .array _ => 1
  | .pointer _ => 2
  | .functionPointer .. => 3
  | .delegate .. => 4
  | .owned .. => 5
  | .param _ => 6

mutual

/-- The order of types. -/
def cmp : Ty → Ty → Ordering
  | .named n as, .named m bs => (compare n m).then (cmpAll as bs)
  | .array a, .array b => cmp a b
  | .pointer a, .pointer b => cmp a b
  | .functionPointer ps r, .functionPointer qs s => (cmpAll ps qs).then (cmp r s)
  | .delegate ps r x, .delegate qs s y => ((cmpAll ps qs).then (cmp r s)).then (compare x y)
  | .owned v x, .owned w y => (cmp v w).then (compare x y)
  | .param n, .param m => compare n m
  | a, b => compare a.rank b.rank

/-- The lexicographic order of lists of types. -/
def cmpAll : List Ty → List Ty → Ordering
  | [], [] => .eq
  | [], _ :: _ => .lt
  | _ :: _, [] => .gt
  | a :: as, b :: bs => (cmp a b).then (cmpAll as bs)

end

instance : Ord Ty := ⟨cmp⟩

end Ty

end Wiring
