import TextGrammar.Script.Term
import TextGrammar.Parsing.Token
set_option autoImplicit false

namespace TextGrammar.Script
open Parsing Parser Token

def spaces : Parser Unit := do let _ ← chars "[' ' | '\\n' | '\\t' | '\\r']" isBlank

def isNameStart (c : Char) : Bool := isLetter c || c == '_'

def isNameChar (c : Char) : Bool := isNameStart c || Decimal.isDigit c

def nameChars : Parser String := do
  let a ← char "" isNameStart
  let run ← chars "" isNameChar
  return String.ofList (a :: run)

def identifier : Parser String := quiet nameChars <|> expected "identifier"

def floatNumber : Parser Value := do
  let whole ← digits
  word "."
  let fraction ← digits
  let power ← optional exponent
  return .float (Decimal.Numeral.toFloat ⟨false, whole, fraction, power.getD 0⟩)

def wholeNumber : Parser Value := do
  let ds ← digits
  require "64-bit integer" ((Decimal.int64? (Decimal.natOfDigits ds)).map .int)

def number : Parser Value := floatNumber <|> wholeNumber

def escapes : List (String × Char) := [("\\n", '\n'), ("\\t", '\t')]

def stringConstant : Parser String := quoted escapes '"' "[^'\"']" <|> quoted escapes '\'' "[^'\\'']"

def keyword (name : String) : Parser Unit := do
  word name
  notHere (char "" isNameChar)

/-- An operand without operators of its own; `term` reads what stands in parentheses. -/
def atom (term : Parser Term) : Parser Term :=
  (do word "("; spaces; let x ← term; spaces; word ")"; return x)
  <|> (do let v ← number; return .constant v)
  <|> (do let s ← stringConstant; return .constant (.str s))
  <|> (do keyword "true"; return .constant (.bool true))
  <|> (do keyword "false"; return .constant (.bool false))
  <|> (do keyword "nil"; return .constant .nil)
  <|> (do
    let f ← identifier
    spaces
    word "("
    spaces
    let arguments ← sepBy term (do spaces; word ","; spaces)
    spaces
    word ")"
    return .call f arguments)
  <|> (do let n ← identifier; return .variable n)

/-- An infix operator: its sign, its level, and the term that it builds. -/
structure Joint where
  sign : String
  level : Nat
  build : Term → Term → Term

def joints : List Joint := [
  ⟨"||", 0, .or⟩,
  ⟨"&&", 1, .and⟩,
  ⟨"==", 2, .relate .eq⟩, ⟨"!=", 2, .relate .ne⟩,
  ⟨"<=", 3, .relate .le⟩, ⟨">=", 3, .relate .ge⟩, ⟨"<", 3, .relate .lt⟩, ⟨">", 3, .relate .gt⟩,
  ⟨"+", 4, .operate .add⟩, ⟨"-", 4, .operate .sub⟩,
  ⟨"*", 5, .operate .mul⟩, ⟨"/", 5, .operate .div⟩, ⟨"%", 5, .operate .rem⟩]

def prefixLevel : Nat := 6

/-- A prefix operator with its operand, or an atom; `operand` reads a term of at least a given level. -/
def unary (operand : Nat → Parser Term) : Parser Term :=
  (do word "!"; spaces; let x ← operand (prefixLevel + 1); return .not x)
  <|> (do word "-"; spaces; let x ← operand (prefixLevel + 1); return .negate x)
  <|> atom (operand 0)

def joined (operand : Nat → Parser Term) (x : Term) : List Joint → Parser Term
  | [] => fail
  | j :: js =>
    (do spaces; word j.sign; spaces; let y ← operand (j.level + 1); return j.build x y)
    <|> joined operand x js

def extended (operand : Nat → Parser Term) (least : Nat) : Nat → Term → Parser Term
  | 0, x => pure x
  | count + 1, x => do
    match ← optional (joined operand x (joints.filter (least ≤ ·.level))) with
    | some y => extended operand least count y
    | none => pure x

/-- A term whose outermost infix operators have at least the level `least`. Each nesting reads a character, so the
length of the text bounds the depth. -/
def termAt : Nat → Nat → Parser Term
  | 0, _ => fail
  | depth + 1, least => do
    let x ← unary (termAt depth)
    extended (termAt depth) least depth x

def term (depth : Nat) : Parser Term := termAt depth 0

def assignment (depth : Nat) : Parser Statement := do
  let name ← identifier
  spaces
  word "="
  notHere (word "=")
  spaces
  let x ← term depth
  return .assign name x

def statement (depth : Nat) : Parser Statement :=
  assignment depth <|> (do let x ← term depth; return .evaluate x)

def block (depth : Nat) : Parser Block := do
  spaces
  let statements ← sepBy (statement depth) (do spaces; word ";"; spaces)
  spaces
  let _ ← optional (word ";")
  spaces
  return statements

def parse (source : List Char) : Except Furthest Block := (block (source.length + 1)).run source

end TextGrammar.Script
