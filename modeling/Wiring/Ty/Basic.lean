/-!
# Types as a container sees them

A `Ty` is what a provider produces and what a parameter asks for. It keeps exactly the structure
that resolution needs: the name and arguments of a generic type, the wrappers that are made up on
demand (arrays, delegates, owned values), the raw memory types that taint a plan, and open
parameters, which occur only in templates.

Types nest through argument lists, so every function on them comes in a pair: one on a type and
one on a list of types. Equality is decided by such a pair, `Ty.beq` and `Ty.beqAll`.
-/

namespace Wiring

/-- A type requested from, or produced by, a provider. -/
inductive Ty where
  /-- A type with a name, possibly generic. -/
  | named (name : String) (args : List Ty)
  /-- A fixed collection of an element type. -/
  | array (element : Ty)
  /-- A raw pointer. -/
  | pointer (element : Ty)
  /-- A raw pointer to a function. -/
  | functionPointer (params : List Ty) (result : Ty)
  /-- A callable that produces `result` on demand; an asynchronous one produces a task. -/
  | delegate (params : List Ty) (result : Ty) (isAsync : Bool)
  /-- A value packaged with the hook that releases it. -/
  | owned (value : Ty) (isAsync : Bool)
  /-- An open type parameter of a template. -/
  | param (name : String)
  deriving Inhabited

namespace Ty

/-- The type `name` without arguments. -/
abbrev plain (name : String) : Ty := .named name []

/-! ### Equality -/

mutual

/-- Structural equality of types. -/
def beq : Ty → Ty → Bool
  | .named n as, .named m bs => n == m && beqAll as bs
  | .array a, .array b => beq a b
  | .pointer a, .pointer b => beq a b
  | .functionPointer ps r, .functionPointer qs s => beqAll ps qs && beq r s
  | .delegate ps r x, .delegate qs s y => beqAll ps qs && beq r s && x == y
  | .owned v x, .owned w y => beq v w && x == y
  | .param n, .param m => n == m
  | _, _ => false

/-- Structural equality of lists of types. -/
def beqAll : List Ty → List Ty → Bool
  | [], [] => true
  | a :: as, b :: bs => beq a b && beqAll as bs
  | _, _ => false

end

mutual

theorem beq_iff (a b : Ty) : beq a b = true ↔ a = b := by
  cases a <;> cases b <;>
    simp [beq, beq_iff, beqAll_iff, and_assoc]

theorem beqAll_iff (as bs : List Ty) : beqAll as bs = true ↔ as = bs := by
  cases as with
  | nil => cases bs <;> simp [beqAll]
  | cons a as =>
      cases bs with
      | nil => simp [beqAll]
      | cons b bs => simp [beqAll, beq_iff a b, beqAll_iff as bs]

end

instance : DecidableEq Ty := fun a b => decidable_of_iff (beq a b = true) (beq_iff a b)

/-! ### Queries -/

/-- The element type of an array. -/
def element? : Ty → Option Ty
  | .array element => some element
  | _ => none

/-- Whether a value of this type is raw memory: a pointer of either kind, or an array of raw memory. -/
def isRaw : Ty → Bool
  | .pointer _ | .functionPointer .. => true
  | .array element => isRaw element
  | _ => false

mutual

/-- Whether the type mentions an open parameter. -/
def isOpen : Ty → Bool
  | .param _ => true
  | .named _ args => anyOpen args
  | .array element | .pointer element => isOpen element
  | .functionPointer params result | .delegate params result _ => isOpen result || anyOpen params
  | .owned value _ => isOpen value

/-- Whether one of the types mentions an open parameter. -/
def anyOpen : List Ty → Bool
  | [] => false
  | t :: ts => isOpen t || anyOpen ts

end

/-! ### Shapes -/

/-- The outermost structure of a type. Two types that unify have the same shape, unless the pattern
is a bare parameter. -/
inductive Shape where
  | named (name : String) (arity : Nat)
  | array
  | pointer
  | functionPointer (arity : Nat)
  | delegate (arity : Nat) (isAsync : Bool)
  | owned (isAsync : Bool)
  | param
  deriving DecidableEq, Inhabited

/-- The shape of a type. -/
def shape : Ty → Shape
  | .named name args => .named name args.length
  | .array _ => .array
  | .pointer _ => .pointer
  | .functionPointer params _ => .functionPointer params.length
  | .delegate params _ isAsync => .delegate params.length isAsync
  | .owned _ isAsync => .owned isAsync
  | .param _ => .param

end Ty

end Wiring
