import Wiring.Ty.Text

/-!
# Diagnostics

What is wrong with a root. Each diagnostic names the root, the type at fault and, when the caller
gave one, the place of the container's declaration.
-/

namespace Wiring

/-- What went wrong while resolving a root. -/
inductive DiagnosticKind where
  /-- A provider depends on itself. -/
  | circular
  /-- A required type has no provider. -/
  | missing
  /-- A value that takes waiting for is needed where nothing can wait. -/
  | requiresAsync
  /-- Several providers satisfy a type. -/
  | ambiguous
  deriving DecidableEq, Inhabited

/-- The stable code of a kind of diagnostic. -/
def DiagnosticKind.code : DiagnosticKind → String
  | .circular => "DI0101"
  | .missing => "DI0102"
  | .requiresAsync => "DI0103"
  | .ambiguous => "DI0106"

/-- A place in a file. -/
structure Location where
  file : String
  line : Nat
  column : Nat
  deriving DecidableEq, Inhabited

/-- A place as it is written. -/
def Location.text (l : Location) : String :=
  l.file ++ ":" ++ toString l.line ++ ":" ++ toString l.column

/-- A fault found while checking a root, with the type at fault and where to report it. -/
structure Diagnostic where
  kind : DiagnosticKind
  root : Ty
  /-- The type at fault. -/
  offending : Ty
  /-- How many providers there are, for an ambiguous type. -/
  candidates : Nat
  location : Option Location
  deriving DecidableEq, Inhabited

namespace Diagnostic

/-- The code of a diagnostic. -/
def code (d : Diagnostic) : String :=
  d.kind.code

/-- What is wrong with the offending type. -/
def detail (d : Diagnostic) : String :=
  match d.kind with
  | .circular => "'" ++ d.offending.text ++ "' has a circular dependency"
  | .missing => "We have no source for instance of type '" ++ d.offending.text ++ "'"
  | .requiresAsync => "'" ++ d.offending.text ++ "' can only be resolved asynchronously."
  | .ambiguous =>
      "We have " ++ toString d.candidates ++ " sources for instance of type '" ++
        d.offending.text ++ "' and no best source"

/-- The message of a diagnostic. -/
def message (d : Diagnostic) : String :=
  "Error while resolving dependencies for '" ++ d.root.text ++ "': " ++ d.detail

/-- A diagnostic as it is shown, led by its place if it has one. -/
def text (d : Diagnostic) : String :=
  (d.location.map fun l => l.text ++ ": ").getD "" ++ "error " ++ d.code ++ ": " ++ d.message

instance : ToString Diagnostic := ⟨text⟩

end Diagnostic

end Wiring
