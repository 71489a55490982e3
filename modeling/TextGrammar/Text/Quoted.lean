import TextGrammar.Text.Printable
set_option autoImplicit false

namespace TextGrammar.Quoted

def hexDigits (n : Nat) : List Char := (Nat.toDigits 16 n)

def encodeChar (c : Char) : List Char :=
  if c = '"' then ['\\', '"']
  else if c = '\\' then ['\\', '\\']
  else if c = '\n' then ['\\', 'n']
  else if c = '\t' then ['\\', 't']
  else if c = '\r' then ['\\', 'r']
  else if c.toNat = 0 then ['\\', '0']
  else if (0x20 ≤ c.toNat && c.toNat < 0x7F) || Printable.isPrintable c then [c]
  else ['\\', 'u', '\x7b'] ++ hexDigits c.toNat ++ ['\x7d']

def encode (cs : List Char) : List Char := '"' :: cs.flatMap encodeChar ++ ['"']

def text (s : String) : String := String.ofList (encode s.toList)

end TextGrammar.Quoted
