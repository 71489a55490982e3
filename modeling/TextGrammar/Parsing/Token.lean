import TextGrammar.Parsing.Parser
import TextGrammar.Decimal.Reading
set_option autoImplicit false

namespace TextGrammar.Parsing.Token
open TextGrammar.Parsing.Parser

def isBlank (c : Char) : Bool := c == ' ' || c == '\n' || c == '\t' || c == '\r'

def isLetter (c : Char) : Bool := ('a' ≤ c && c ≤ 'z') || ('A' ≤ c && c ≤ 'Z')

def digits : Parser (List Char) := chars1 "['0'..='9']" Decimal.isDigit

def sign : Parser Bool := do
  let c ← optional (char "['-' | '+']" fun c => c == '-' || c == '+')
  return c == some '-'

def exponent : Parser Int := do
  let _ ← char "['e' | 'E']" fun c => c == 'e' || c == 'E'
  let negative ← sign
  let ds ← digits
  return Decimal.signed negative (Decimal.natOfDigits ds)

def escape : List (String × Char) → Parser Char
  | [] => do word "\\"; anyChar
  | (s, c) :: table => (do word s; return c) <|> escape table

def quoted (table : List (String × Char)) (quote : Char) (label : String) : Parser String := do
  word quote.toString
  let cs ← many (escape table <|> char label (· != quote))
  word quote.toString
  return String.ofList cs

end TextGrammar.Parsing.Token
