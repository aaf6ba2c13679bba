import Wiring.Config.Characters

/-!
# JSON texts

The outer layer through which settings come in: a JSON text is read as a value. It accepts and refuses
what the JSON library of a program does, and what is said of planning does not go through it. Two things
are kept apart that other readers of the format mix:

* a number written without sign, fraction and exponent is a `natural` and keeps its exact value;
  every other number keeps its text only;
* a string may name half of a surrogate pair in an escape. It is well formed then but stands for no
  text.

An object keeps its entries in the order written, and an entry that is repeated stays repeated.
-/

namespace Wiring

namespace Json

/-- A number. -/
inductive Number where
  /-- Written with digits only. -/
  | natural (value : Nat)
  /-- Written with a sign, a fraction or an exponent. -/
  | other (literal : List Char)
  deriving DecidableEq, Inhabited

/-- A string: its text, or `none` if an escape in it names half of a surrogate pair. -/
abbrev Text := Option String

end Json

/-- A JSON value. -/
inductive Json where
  | null
  | bool (value : Bool)
  | number (value : Json.Number)
  | text (value : Json.Text)
  | array (items : List Json)
  | object (entries : List (Json.Text × Json))
  deriving Inhabited

namespace Json

/-! ### Written numbers

The grammar of JSON numbers: an optional minus, digits without a superfluous zero in front, an
optional fraction, an optional exponent.
-/

namespace Number

open Wiring.Text (isDigits valueOf)

/-- The characters that numbers are written with. -/
def isPart (c : Char) : Bool :=
  c.isDigit || c = '-' || c = '+' || c = '.' || c = 'e' || c = 'E'

/-- Whether a text is an exponent, or nothing. -/
def isExponent : List Char → Bool
  | [] => true
  | mark :: rest =>
      (mark = 'e' || mark = 'E') &&
        match rest with
        | '+' :: digits | '-' :: digits => isDigits digits
        | digits => isDigits digits

/-- Whether a text is what may follow the whole part of a number: a fraction, then an exponent, both
optional. -/
def isTail : List Char → Bool
  | '.' :: rest => !(rest.takeWhile Char.isDigit).isEmpty && isExponent (rest.dropWhile Char.isDigit)
  | rest => isExponent rest

/-- Whether digits are the whole part of a number: there are some, and a zero in front stands
alone. -/
def isWhole : List Char → Bool
  | [] => false
  | '0' :: rest => rest.isEmpty
  | _ => true

/-- The number that a text is, if it is one. -/
def ofChars? (cs : List Char) : Option Number :=
  let unsigned := match cs with
    | '-' :: rest => rest
    | _ => cs
  let whole := unsigned.takeWhile Char.isDigit
  let tail := unsigned.dropWhile Char.isDigit
  if isWhole whole && isTail tail then
    some (if isDigits cs then .natural (valueOf cs) else .other cs)
  else none

end Number

/-! ### Written strings

A JSON string is read in two passes. `Text.scan` finds its end and splits what is before it into
characters and the 16-bit units that `\u` escapes name; `Text.join` turns these into a text, where two
units that form a surrogate pair are one character.
-/

namespace Text

/-- What one place of a written string stands for. -/
inductive Piece where
  | char (c : Char)
  /-- A 16-bit unit, named by an escape. -/
  | unit (code : Nat)
  deriving DecidableEq, Inhabited

/-- The value of a hexadecimal digit. -/
def hexDigit? (c : Char) : Option Nat :=
  if c.isDigit then some (c.toNat - '0'.toNat)
  else if 'a' ≤ c ∧ c ≤ 'f' then some (c.toNat - 'a'.toNat + 10)
  else if 'A' ≤ c ∧ c ≤ 'F' then some (c.toNat - 'A'.toNat + 10)
  else none

/-- The unit that four hexadecimal digits name. -/
def unit? (a b c d : Char) : Option Nat := do
  return (((← hexDigit? a) * 16 + (← hexDigit? b)) * 16 + (← hexDigit? c)) * 16 + (← hexDigit? d)

/-- The character that a one-letter escape stands for. -/
def escaped? : Char → Option Char
  | '"' => some '"'
  | '\\' => some '\\'
  | '/' => some '/'
  | 'b' => some '\x08'
  | 'f' => some '\x0c'
  | 'n' => some '\n'
  | 'r' => some '\r'
  | 't' => some '\t'
  | _ => none

/-- Reads a string from behind its opening quote: what it consists of, and what follows its closing
quote. Control characters must be escaped. -/
def scan : List Char → Option (List Piece × List Char)
  | [] => none
  | '"' :: rest => some ([], rest)
  | '\\' :: 'u' :: a :: b :: c :: d :: rest =>
      match unit? a b c d, scan rest with
      | some code, some (pieces, rest) => some (.unit code :: pieces, rest)
      | _, _ => none
  | '\\' :: mark :: rest =>
      match escaped? mark, scan rest with
      | some c, some (pieces, rest) => some (.char c :: pieces, rest)
      | _, _ => none
  | c :: rest =>
      if c.toNat < 0x20 || c = '\\' then none
      else
        match scan rest with
        | some (pieces, rest) => some (.char c :: pieces, rest)
        | none => none

/-- Whether a unit is the first half of a surrogate pair. -/
def isHigh (code : Nat) : Bool := 0xD800 ≤ code && code ≤ 0xDBFF

/-- Whether a unit is the second half of a surrogate pair. -/
def isLow (code : Nat) : Bool := 0xDC00 ≤ code && code ≤ 0xDFFF

/-- The characters that pieces stand for, unless a half of a surrogate pair stands alone. -/
def join : List Piece → Option (List Char)
  | [] => some []
  | .char c :: rest => (join rest).map (c :: ·)
  | .unit high :: .unit low :: rest =>
      if isHigh high then
        if isLow low then
          (join rest).map (Char.ofNat ((high - 0xD800) * 0x400 + (low - 0xDC00) + 0x10000) :: ·)
        else none
      else if isLow high then none
      else (join (.unit low :: rest)).map (Char.ofNat high :: ·)
  | .unit code :: rest =>
      if isHigh code || isLow code then none else (join rest).map (Char.ofNat code :: ·)

/-- The string that pieces stand for. -/
def ofPieces (pieces : List Piece) : Text := (join pieces).map String.ofList

/-- What follows a string is shorter than the string with what follows it. -/
theorem length_of_scan {cs rest : List Char} {pieces : List Piece}
    (h : scan cs = some (pieces, rest)) : rest.length < cs.length := by
  fun_induction scan cs generalizing pieces rest with
  | case1 | case4 | case6 | case7 | case9 => simp at h
  | case2 => simp_all
  | case3 =>
      obtain ⟨-, rfl⟩ := by simpa using h
      simp only [List.length_cons]
      grind
  | case5 =>
      obtain ⟨-, rfl⟩ := by simpa using h
      simp only [List.length_cons]
      grind
  | case8 =>
      obtain ⟨-, rfl⟩ := by simpa using h
      simp only [List.length_cons]
      grind

end Text

/-! ### Tokens

The lexemes of a JSON text, with the spaces between them gone. A word or a number reaches as far as
its characters do: whatever could follow directly is no value on its own, so nothing is lost by
taking all of it.
-/

/-- A lexeme. -/
inductive Token where
  | openArray
  | closeArray
  | openObject
  | closeObject
  | colon
  | comma
  | null
  | bool (value : Bool)
  | number (value : Number)
  | text (value : Text)
  deriving DecidableEq, Inhabited

namespace Token

/-- Whether a character may stand between lexemes. -/
def isSpace (c : Char) : Bool := c = ' ' || c = '\n' || c = '\t' || c = '\r'

/-- The lexeme that is one punctuation mark. -/
def ofMark? : Char → Option Token
  | '[' => some .openArray
  | ']' => some .closeArray
  | '\x7b' => some .openObject
  | '\x7d' => some .closeObject
  | ':' => some .colon
  | ',' => some .comma
  | _ => none

/-- The lexeme that is a word. -/
def ofWord? (word : List Char) : Option Token :=
  if word = "null".toList then some .null
  else if word = "true".toList then some (.bool true)
  else if word = "false".toList then some (.bool false)
  else none

/-- What is left behind a run of characters is no longer than the whole. -/
theorem length_dropWhile_le (p : Char → Bool) (cs : List Char) :
    (cs.dropWhile p).length ≤ cs.length :=
  (List.dropWhile_sublist p).length_le

/-- The lexemes of a text, if it consists of lexemes. -/
def lex : List Char → Option (List Token)
  | [] => some []
  | c :: rest =>
      if isSpace c then lex rest
      else
        match ofMark? c with
        | some mark => (lex rest).map (mark :: ·)
        | none =>
            if c = '"' then
              match h : Text.scan rest with
              | some (pieces, behind) =>
                  have := Text.length_of_scan h
                  (lex behind).map (.text (Text.ofPieces pieces) :: ·)
              | none => none
            else if Number.isPart c then do
              let value ← Number.ofChars? (c :: rest.takeWhile Number.isPart)
              (lex (rest.dropWhile Number.isPart)).map (.number value :: ·)
            else do
              let word ← ofWord? (c :: rest.takeWhile Char.isAlpha)
              (lex (rest.dropWhile Char.isAlpha)).map (word :: ·)
  termination_by cs => cs.length
  decreasing_by
    all_goals simp only [List.length_cons]
    · omega
    · omega
    · omega
    · have := length_dropWhile_le Number.isPart rest
      omega
    · have := length_dropWhile_le Char.isAlpha rest
      omega

end Token

/-! ### Reading a value

A value is read token by token. `Reading` says what may come next and what was read so far; the
arrays and objects that are still open are a list of frames, so nesting costs no recursion. Every
state is one that some text leads to, and a text is well formed exactly if its last token leads to
`done`.
-/

/-- An open array or object whose next value is being read. What came before stands latest first. -/
inductive Frame where
  | array (items : List Json)
  | object (entries : List (Text × Json)) (key : Text)
  deriving Inhabited

/-- How far the reading of a value has come, inside the open arrays and objects, innermost first. -/
inductive Reading where
  /-- A value comes next. -/
  | value (around : List Frame)
  /-- An array was opened: its first item or its end comes next. -/
  | first (around : List Frame)
  /-- A key comes next, or the end of an object without entries. -/
  | key (entries : List (Text × Json)) (around : List Frame)
  /-- The colon behind a key comes next. -/
  | colon (entries : List (Text × Json)) (key : Text) (around : List Frame)
  /-- A comma or the end of an array comes next. -/
  | afterItem (items : List Json) (around : List Frame)
  /-- A comma or the end of an object comes next. -/
  | afterEntry (entries : List (Text × Json)) (around : List Frame)
  /-- The whole value was read. -/
  | done (value : Json)
  deriving Inhabited

namespace Reading

/-- Puts a value that was read into the innermost open array or object. -/
def finish (v : Json) : List Frame → Reading
  | [] => .done v
  | .array items :: around => .afterItem (v :: items) around
  | .object entries name :: around => .afterEntry ((name, v) :: entries) around

/-- Reads the first token of a value. -/
def start (around : List Frame) : Token → Option Reading
  | .null => some (finish .null around)
  | .bool b => some (finish (.bool b) around)
  | .number n => some (finish (.number n) around)
  | .text t => some (finish (.text t) around)
  | .openArray => some (.first around)
  | .openObject => some (.key [] around)
  | .closeArray | .closeObject | .colon | .comma => none

/-- Reads one token. -/
def step : Reading → Token → Option Reading
  | .value around, token => start around token
  | .first around, .closeArray => some (finish (.array []) around)
  | .first around, token => start (.array [] :: around) token
  | .key entries around, .text name => some (.colon entries name around)
  | .key [] around, .closeObject => some (finish (.object []) around)
  | .colon entries name around, .colon => some (.value (.object entries name :: around))
  | .afterItem items around, .comma => some (.value (.array items :: around))
  | .afterItem items around, .closeArray => some (finish (.array items.reverse) around)
  | .afterEntry entries around, .comma => some (.key entries around)
  | .afterEntry entries around, .closeObject => some (finish (.object entries.reverse) around)
  | _, _ => none

/-- The value, if all of it was read. -/
def result? : Reading → Option Json
  | .done v => some v
  | _ => none

end Reading

/-- The value that tokens spell out. -/
def ofTokens? (tokens : List Token) : Option Json := do
  (← tokens.foldlM Reading.step (.value [])).result?

/-- The value that a text spells out, if it is well formed. -/
def ofText? (text : String) : Option Json := do
  ofTokens? (← Token.lex text.toList)

end Json

end Wiring
