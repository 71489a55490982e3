import TextGrammar.Grammar.Expr
import TextGrammar.Parsing.Token
set_option autoImplicit false

namespace TextGrammar.Grammar
open Parsing Parser Token

def blanks : Parser Unit := do let _ ← chars1 "" isBlank

def lineComment : Parser Unit := do
  word "//" <|> word "--"
  let _ ← chars "" (· != '\n')

def blockComment : Parser Unit := do
  word "/*"
  let _ ← many (do notHere (word "*/"); anyChar)
  word "*/"

def comment : Parser Unit := lineComment <|> blockComment

def layout : Parser Unit := quiet (do let _ ← many (blanks <|> comment))

def gap : Parser Unit := quiet (do let _ ← many1 (blanks <|> comment))

def isNameStart (c : Char) : Bool := isLetter c || c == '_' || c == ':'

def isNameChar (c : Char) : Bool := isNameStart c || Decimal.isDigit c || c == '-'

def bareName : Parser String :=
  quiet (do
    let a ← char "" isNameStart
    let run ← chars "" isNameChar
    return String.ofList (a :: run))
  <|> expected "rule name"

def name : Parser String :=
  (do
    word "`"
    let cs ← chars "[^ '`']" (· != '`')
    word "`"
    return String.ofList cs)
  <|> bareName

/-- A fraction or an exponent makes a number a float. -/
def number : Parser Number := do
  let negative ← sign
  let whole ← digits
  let fraction ← optional (do word "."; digits)
  let power ← optional exponent
  if fraction.isSome || power.isSome then
    return .float (Decimal.Numeral.toFloat ⟨negative, whole, fraction.getD [], power.getD 0⟩)
  else
    require "64-bit integer"
      ((Decimal.int64? (Decimal.signed negative (Decimal.natOfDigits whole))).map .int)

def nonNegative? : Number → Option Float
  | .int n => if 0 ≤ n then some (Binary64.ofInt64 n) else none
  | .float x => if 0.0 ≤ x then some x else none

def count : Parser UInt32 := do
  let ds ← digits
  require "repetition count" (Decimal.uint32? (Decimal.natOfDigits ds))

def times : Parser (Option UInt32) :=
  (do let n ← count; return some n) <|> (do word "inf"; return none)

def probability : Parser Float := do
  word "["
  layout
  let n ← number
  let x ← require "non-negative number" (nonNegative? n)
  layout
  let percent ← optional (word "%")
  layout
  word "]"
  return if percent.isSome then x / 100.0 else x

def escapes : List (String × Char) := [("\\n", '\n'), ("\\t", '\t'), ("\\e", '\x1b')]

def isHexDigit (c : Char) : Bool := Decimal.isDigit c || ('a' ≤ c && c ≤ 'f') || ('A' ≤ c && c ≤ 'F')

def hexValue (c : Char) : Nat :=
  if Decimal.isDigit c then c.toNat - 48 else if 'a' ≤ c then c.toNat - 87 else c.toNat - 55

def char? (n : Nat) : Option Char := if n.isValidChar then some (Char.ofNat n) else none

def codePoint : Parser String := do
  word "U+"
  let hs ← chars1 "['0'..='9' | 'a'..='f' | 'A'..='F']" isHexDigit
  let c ← require "valid unicode code point" (char? (hs.foldl (fun n c => 16 * n + hexValue c) 0))
  return String.ofList [c]

def literal : Parser String :=
  quoted escapes '"' "[^ '\"']" <|> quoted escapes '\'' "[^ '\\'']" <|> codePoint

def isPlain (c : Char) : Bool := c != '\x7b' && c != '\x7d' && c != '\\'

/-- The text of a block up to the brace that closes it. A backslash takes the next character with it, and braces
inside are balanced. -/
def code : Nat → Parser (List Char)
  | 0 => fail
  | depth + 1 => do
    let parts ← many (
      (do word "\\"; let c ← anyChar; return ['\\', c])
      <|> chars1 "[^ '\x7b' | '\x7d' | '\\\\']" isPlain
      <|> (do word "\x7b"; let cs ← code depth; word "\x7d"; return '\x7b' :: cs ++ ['\x7d']))
    return parts.flatten

/-- Blocks nest at most as deep as the rest of the text is long. -/
def blockCode : Parser String := fun c => (String.ofList <$> code (c.rest.length + 1)) c

inductive Suffix where
  | times (least : UInt32) (most : Option UInt32) (pos : Nat)
  | capture (name : String) (discard : Bool)

def Suffix.apply (e : Expr) : Suffix → Expr
  | .times least most pos => .repetition e least most pos
  | .capture name discard => .capture e name discard

def boundedTimes : Parser Suffix := do
  let pos ← position
  word "*"
  layout
  word "["
  layout
  let least ← count
  layout
  let most ← optional (do word "..."; layout; times)
  layout
  word "]"
  return .times least (most.getD (some least)) pos

def shortTimes (sign : String) (least : UInt32) (most : Option UInt32) : Parser Suffix := do
  let pos ← position
  word sign
  return .times least most pos

def captureSuffix : Parser Suffix := do
  word "\x7b"
  layout
  word "capture"
  let bang ← optional (word "!")
  gap
  let n ← name
  layout
  word "\x7d"
  return .capture n bang.isSome

def suffix : Parser Suffix :=
  boundedTimes <|> shortTimes "*" 0 none <|> shortTimes "+" 1 none <|> shortTimes "?" 0 (some 1)
  <|> captureSuffix

def block (opening : String) : Parser String := do
  word opening
  let s ← blockCode
  word "\x7d"
  return s

def reference : Parser Expr := do
  let pos ← position
  let n ← name
  notHere (do layout; word "=")
  return .reference n pos

def range : Parser Expr := do
  let pos ← position
  let low ← number
  let high ← optional (do layout; word "..."; layout; number)
  return .range low (high.getD low) pos

/-- An expression without suffixes; `inner` reads what stands in parentheses. -/
def primary (inner : Parser Expr) : Parser Expr :=
  (do let s ← literal; return .literal s)
  <|> (do let s ← block "\x7b="; return .generate s)
  <|> (do let s ← block "\x7b?"; return .check s)
  <|> (do let s ← block "\x7b"; return .action s)
  <|> reference
  <|> range
  <|> (do word "("; layout; let e ← inner; layout; word ")"; return e)

def repeated (inner : Parser Expr) : Parser Expr := do
  let e ← primary inner
  let suffixes ← many (do layout; suffix)
  return suffixes.foldl Suffix.apply e

def sequence (inner : Parser Expr) : Parser Expr := do
  let es ← sepBy1 (repeated inner) layout
  return .ofItems es

def tagged (body : Parser Expr) : Parser (Alternative Expr) := do
  let p ← optional probability
  layout
  let e ← body
  return ⟨p.elim .automatic .explicit, e⟩

def separated (body : Parser Expr) : Parser (Alternative Expr) := do
  word "/" <|> word "|"
  layout
  tagged body

/-- A separator may also stand before the first of several alternatives. A lone alternative is a choice only if it has
a probability. -/
def choice (body : Parser Expr) : Parser Expr := do
  let pos ← position
  let (led, first) ← (do let a ← separated body; return (true, a)) <|> (do let a ← tagged body; return (false, a))
  let more ← many (do layout; separated body)
  match led, first, more with
  | _, a, b :: bs => return .choice (a :: b :: bs) pos
  | false, ⟨.automatic, e⟩, [] => return e
  | false, a, [] => return .choice [a] pos
  | true, _, [] => fail

def choiceAt : Nat → Parser Expr
  | 0 => fail
  | depth + 1 => choice (sequence (choiceAt depth))

def definition (body : Parser Expr) : Parser Rule := do
  let pos ← position
  let n ← name
  layout
  word "="
  layout
  let e ← body
  layout
  word ";"
  return ⟨n, e, pos⟩

def item (body : Parser Expr) : Parser Item :=
  (do let r ← definition body; return .rule r) <|> (do let e ← body; return .expr e)

def items (depth : Nat) : Parser (List Item) := do
  layout
  let l ← sepBy (item (choiceAt depth)) layout
  layout
  return l

def parse (source : List Char) : Except Furthest (List Item) := (items (source.length + 1)).run source

end TextGrammar.Grammar
