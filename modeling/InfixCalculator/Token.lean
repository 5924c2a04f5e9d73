import InfixCalculator.Operator

/-!
# Tokens

The lexical units of an expression. Numerals and operators carry their text as it was written: a
list of tokens may come from elsewhere than an expression, and whether a text denotes anything is
decided where it is used. The text of a list of tokens separates them by one space.

An expression is read one character at a time (`Lexer.read`). Digits and the decimal point extend
the open numeral; every other character closes it. A numeral holds at most one point, so a second
point closes the numeral and opens the next one: `1.2.3` is read as `1.2` and `.3`.
-/

namespace InfixCalculator

/-- A lexical unit. -/
inductive Token where
  | number (text : String)
  | operator (symbol : String)
  | leftParen
  | rightParen
  deriving DecidableEq, Repr

namespace Token

/-- The token that writes an operator. -/
def ofOperator (op : Operator) : Token :=
  .operator op.text

/-- A token as it is written. -/
def text : Token → String
  | number text => text
  | operator symbol => symbol
  | leftParen => "("
  | rightParen => ")"

/-- A list of tokens as it is written, one space between neighbours. -/
def render (tokens : List Token) : String :=
  " ".intercalate (tokens.map text)

/-- The token that a single character writes by itself: a parenthesis or an operator. -/
def ofChar? : Char → Option Token
  | '(' => some leftParen
  | ')' => some rightParen
  | c => (Operator.ofChar? c).map ofOperator

end Token

/-! ## Numerals

The texts that stand for numbers in an expression: ASCII digits with at most one decimal point,
which may come first or last. The point alone has the form of a numeral but denotes no number. -/

namespace Numeral

/-- Whether a character may occur in a numeral. -/
def isNumeralChar (c : Char) : Bool :=
  c.isDigit || c = '.'

/-- Whether a text has the form of a numeral. -/
def isNumeral (text : List Char) : Bool :=
  text ≠ [] && text.all isNumeralChar && text.count '.' ≤ 1

/-- Whether a text denotes a number: it has the form of a numeral, and a digit. -/
def denotes (text : List Char) : Bool :=
  isNumeral text && text.any Char.isDigit

end Numeral

/-! ## Blank characters

The characters with the Unicode property White_Space. They separate tokens and are otherwise
ignored. -/

namespace Text

/-- The ranges of code points with the property White_Space, both ends included. -/
def blankRanges : List (Nat × Nat) :=
  [(0x0009, 0x000D), (0x0020, 0x0020), (0x0085, 0x0085), (0x00A0, 0x00A0), (0x1680, 0x1680),
   (0x2000, 0x200A), (0x2028, 0x2029), (0x202F, 0x202F), (0x205F, 0x205F), (0x3000, 0x3000)]

/-- Whether a character is blank. -/
def isBlank (c : Char) : Bool :=
  blankRanges.any fun (first, last) => first ≤ c.toNat && c.toNat ≤ last

/-- The property holds of twenty-five code points. -/
example : (blankRanges.map fun (first, last) => last + 1 - first).sum = 25 := by decide

end Text

/-! ## From text to tokens -/

/-- What has been read so far of an expression. -/
structure Lexer where
  /-- The complete tokens, the latest first. -/
  tokens : List Token := []
  /-- The characters of the open numeral, the latest first; none if no numeral is open. -/
  numeral : List Char := []
  deriving DecidableEq

namespace Lexer

/-- Turn the open numeral, if there is one, into a complete token. -/
def close (lexer : Lexer) : Lexer :=
  match lexer.numeral with
  | [] => lexer
  | numeral => { tokens := .number (String.ofList numeral.reverse) :: lexer.tokens }

/-- Read one character of a numeral. -/
def extend (lexer : Lexer) (c : Char) : Lexer :=
  -- a second point belongs to the next numeral
  if c = '.' ∧ '.' ∈ lexer.numeral then { lexer.close with numeral := [c] }
  else { lexer with numeral := c :: lexer.numeral }

/-- Read one character. -/
def read (lexer : Lexer) (c : Char) : Except CalcError Lexer :=
  if Numeral.isNumeralChar c then .ok (lexer.extend c)
  else if Text.isBlank c then .ok lexer.close
  else
    match Token.ofChar? c with
    | some token => .ok { tokens := token :: lexer.close.tokens }
    | none => .error (.invalidCharacter c)

/-- All tokens, in the order in which they were read. -/
def finish (lexer : Lexer) : List Token :=
  lexer.close.tokens.reverse

end Lexer

/-- The tokens of an expression, or the first character that belongs to none. An empty expression
has no tokens. -/
def Token.scan (expression : String) : Except CalcError (List Token) := do
  let lexer ← expression.toList.foldlM Lexer.read {}
  return lexer.finish

example : Token.scan "1.2.3" = .ok [.number "1.2", .number ".3"] := rfl

example : Token.scan "2 x 3" = .error (.invalidCharacter 'x') := rfl

end InfixCalculator
