import Wiring.Ty.Basic

/-!
# Matching templates against concrete types

A template mentions open parameters. `Ty.unify` matches it against a type and collects what each
parameter stands for; `Ty.substitute` puts those types back. Parameters are bound only by the
template, so a single pass from left to right decides the match and no occurs check is needed.

* `Bindings` is a list of pairs in ascending order of names, each name once.
* `unify` extends the bindings it is given. On failure the bindings made so far are returned as they
  stand, and callers discard them.
-/

namespace Wiring

/-- What type parameters stand for, in ascending order of their names. -/
abbrev Bindings := List (String × Ty)

namespace Bindings

/-- What a parameter stands for. -/
def get? (bindings : Bindings) (name : String) : Option Ty :=
  (bindings.find? fun entry => entry.1 = name).map (·.2)

/-- Adds a parameter at its place in the order. -/
def insert (name : String) (ty : Ty) : Bindings → Bindings
  | [] => [(name, ty)]
  | entry :: rest =>
      if name < entry.1 then (name, ty) :: entry :: rest
      else if name = entry.1 then (name, ty) :: rest
      else entry :: insert name ty rest

/-- The bindings of a list of pairs; a later pair wins over an earlier one of its name. -/
def ofList (entries : List (String × Ty)) : Bindings :=
  entries.foldl (fun bindings entry => insert entry.1 entry.2 bindings) []

end Bindings

namespace Ty

mutual

/-- Matches a pattern against a type, extending the bindings. The answer says whether they match:
shapes agree everywhere and no parameter stands for two different types. -/
def unify : Ty → Ty → Bindings → Bool × Bindings
  | .param name, concrete, bindings =>
      match bindings.get? name with
      | some bound => (bound == concrete, bindings)
      | none => (true, bindings.insert name concrete)
  | .named n ps, .named m cs, bindings =>
      if n = m ∧ ps.length = cs.length then unifyAll ps cs bindings else (false, bindings)
  | .array p, .array c, bindings => unify p c bindings
  | .pointer p, .pointer c, bindings => unify p c bindings
  | .functionPointer ps p, .functionPointer cs c, bindings =>
      if ps.length = cs.length then
        match unifyAll ps cs bindings with
        | (true, extended) => unify p c extended
        | (false, stopped) => (false, stopped)
      else (false, bindings)
  | .delegate ps p x, .delegate cs c y, bindings =>
      if x = y ∧ ps.length = cs.length then
        match unifyAll ps cs bindings with
        | (true, extended) => unify p c extended
        | (false, stopped) => (false, stopped)
      else (false, bindings)
  | .owned p x, .owned c y, bindings => if x = y then unify p c bindings else (false, bindings)
  | _, _, bindings => (false, bindings)

/-- Matches patterns against types pairwise from left to right, stopping at the first failure. -/
def unifyAll : List Ty → List Ty → Bindings → Bool × Bindings
  | [], [], bindings => (true, bindings)
  | p :: ps, c :: cs, bindings =>
      match unify p c bindings with
      | (true, extended) => unifyAll ps cs extended
      | (false, stopped) => (false, stopped)
  | _, _, bindings => (false, bindings)

end

/-- The bindings under which a pattern becomes a type, if there are any. -/
def match? (pattern concrete : Ty) : Option Bindings :=
  match unify pattern concrete [] with
  | (true, bindings) => some bindings
  | (false, _) => none

mutual

/-- Replaces bound parameters and keeps the others. -/
def substitute (bindings : Bindings) : Ty → Ty
  | .named name args => .named name (substituteAll bindings args)
  | .array element => .array (substitute bindings element)
  | .pointer element => .pointer (substitute bindings element)
  | .functionPointer params result =>
      .functionPointer (substituteAll bindings params) (substitute bindings result)
  | .delegate params result isAsync =>
      .delegate (substituteAll bindings params) (substitute bindings result) isAsync
  | .owned value isAsync => .owned (substitute bindings value) isAsync
  | .param name => (bindings.get? name).getD (.param name)

/-- Replaces bound parameters in each type. -/
def substituteAll (bindings : Bindings) : List Ty → List Ty
  | [] => []
  | t :: ts => substitute bindings t :: substituteAll bindings ts

end

end Ty

end Wiring
