import Wiring.Ty.Basic

/-!
# Written types

`Ty.text` is the text of a type in diagnostics and plans, `Ty.identifier` the lower-case fragment
that variable names are built from.
-/

namespace Wiring.Ty

mutual

/-- A type as diagnostics and plans write it. -/
def text : Ty → String
  | .named name [] => name
  | .named name (arg :: args) => name ++ "<" ++ ", ".intercalate (texts (arg :: args)) ++ ">"
  | .array element => text element ++ "[]"
  | .pointer element => text element ++ "*"
  | .functionPointer params result =>
      "delegate*<" ++ ", ".intercalate (texts params ++ [text result]) ++ ">"
  | .delegate params result false =>
      "Func<" ++ ", ".intercalate (texts params ++ [text result]) ++ ">"
  | .delegate params result true =>
      "Func<" ++ ", ".intercalate (texts params ++ ["Task<" ++ text result ++ ">"]) ++ ">"
  | .owned value false => "Owned<" ++ text value ++ ">"
  | .owned value true => "AsyncOwned<" ++ text value ++ ">"
  | .param name => name

/-- Each type as it is written. -/
def texts : List Ty → List String
  | [] => []
  | t :: ts => text t :: texts ts

end

instance : ToString Ty := ⟨text⟩

/-! ### Identifiers -/

/-- What follows the last `::`, or all of the name if it has none; `best` is the answer for what
has been passed already. -/
def unqualified (best : List Char) : List Char → List Char
  | [] => best
  | c :: rest =>
      if c = ':' ∧ rest.head? = some ':' then unqualified rest.tail rest else unqualified best rest

/-- An ASCII letter or digit in lower case; any other character becomes an underscore. -/
def identifierChar (c : Char) : Char :=
  if c.isAlphanum then c.toLower else '_'

/-- The identifier fragment of a name: its last `::` segment, with only ASCII letters and digits
kept. -/
def simpleName (name : String) : String :=
  String.ofList ((unqualified name.toList name.toList).map identifierChar)

mutual

/-- The lower-case fragment that the variables holding values of this type are named after. -/
def identifier : Ty → String
  | .named name args => simpleName name ++ identifiers args
  | .array element => identifier element ++ "_array"
  | .pointer element => identifier element ++ "_ptr"
  | .functionPointer _ result => "fnptr_" ++ identifier result
  | .delegate _ result _ => "func_" ++ identifier result
  | .owned value _ => "owned_" ++ identifier value
  | .param name => simpleName name

/-- The fragments of type arguments, each led by an underscore. -/
def identifiers : List Ty → String
  | [] => ""
  | t :: ts => "_" ++ identifier t ++ identifiers ts

end

end Wiring.Ty
