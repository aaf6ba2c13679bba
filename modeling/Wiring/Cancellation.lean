import Wiring.PlanningRun

/-!
# Cancellation

A token is cancelled through its own flag or through the flag of any token it was derived from.
`Tokens` holds every token made so far; a token is a number, given out in order. `Trigger` is what a
walk sees of its token: at which of its checks the token has fired.
-/

namespace Wiring

/-- All tokens made so far, and the flags that they observe. A token is named by its number. -/
structure Tokens where
  /-- Whether each flag is raised. -/
  flags : List Bool
  /-- The flags each token observes: those of its ancestors, outermost first, and its own last. -/
  observed : List (List Nat)
  deriving DecidableEq, Inhabited

namespace Tokens

/-- One token, not cancelled. -/
def initial : Tokens := ⟨[false], [[0]]⟩

/-- The number of tokens. -/
def size (ts : Tokens) : Nat := ts.observed.length

/-- The flags a token observes. -/
def flagsOf (ts : Tokens) (token : Nat) : List Nat :=
  (ts.observed[token]?).getD []

/-- Adds a token with a flag of its own that also observes the given flags. -/
def derive (ts : Tokens) (ancestors : List Nat) : Tokens :=
  ⟨ts.flags ++ [false], ts.observed ++ [ancestors ++ [ts.flags.length]]⟩

/-- Adds a token that depends on no other. -/
def fresh (ts : Tokens) : Tokens := ts.derive []

/-- Adds a token that is also cancelled whenever the given one is. -/
def child (ts : Tokens) (token : Nat) : Tokens := ts.derive (ts.flagsOf token)

/-- Adds a second handle to a token. -/
def clone (ts : Tokens) (token : Nat) : Tokens :=
  { ts with observed := ts.observed ++ [ts.flagsOf token] }

/-- Raises a token's own flag, which is the last of those it observes. -/
def cancel (ts : Tokens) (token : Nat) : Tokens :=
  match (ts.flagsOf token).getLast? with
  | some own => { ts with flags := ts.flags.set own true }
  | none => ts

/-- Whether a flag that the token observes is raised. -/
def isCancelled (ts : Tokens) (token : Nat) : Bool :=
  (ts.flagsOf token).any fun flag => (ts.flags[flag]?).getD false

/-- Fails if the token was cancelled. -/
def ensureLive (ts : Tokens) (token : Nat) : Except PlanError Unit :=
  if ts.isCancelled token then .error .cancelled else .ok ()

end Tokens

/-- When the token of a walk fires. A walk looks at it before each request. -/
inductive Trigger where
  | never
  /-- Before the walk starts. -/
  | atOnce
  /-- As soon as a diagnostic is reported and at least `count` have been. -/
  | afterReports (count : Nat)
  deriving DecidableEq, Inhabited

/-- Whether the token has fired once `reported` diagnostics were reported. -/
def Trigger.hasFired (reported : Nat) : Trigger → Bool
  | .never => false
  | .atOnce => true
  | .afterReports count => 0 < reported && count ≤ reported

end Wiring
