set_option autoImplicit false

namespace TextGrammar

abbrev Bytes := List UInt8

namespace Utf8

def encode (cs : List Char) : Bytes := cs.flatMap String.utf8EncodeChar

def ofString (s : String) : Bytes := encode s.toList

/-- Where and how decoding stopped: `start` bytes form whole characters, and the sequence after them
is refused after `broken` bytes. It is `none` if the input ends inside a sequence that more bytes
could complete. -/
structure Fault where
  start : Nat
  broken : Option Nat
deriving DecidableEq, Repr

def Fault.message (f : Fault) : String :=
  match f.broken with
  | some n => s!"invalid utf-8 sequence of {n} bytes from index {f.start}"
  | none => s!"incomplete utf-8 byte sequence from index {f.start}"

structure Lead where
  more : Nat
  low : Nat
  high : Nat

/-- No overlong forms, no surrogates, nothing past U+10FFFF: all three are refused at the second byte
or before. -/
def lead (a : Nat) : Option Lead :=
  if 0xC2 ≤ a ∧ a ≤ 0xDF then some ⟨1, 0x80, 0xBF⟩
  else if a = 0xE0 then some ⟨2, 0xA0, 0xBF⟩
  else if a = 0xED then some ⟨2, 0x80, 0x9F⟩
  else if 0xE1 ≤ a ∧ a ≤ 0xEF then some ⟨2, 0x80, 0xBF⟩
  else if a = 0xF0 then some ⟨3, 0x90, 0xBF⟩
  else if 0xF1 ≤ a ∧ a ≤ 0xF3 then some ⟨3, 0x80, 0xBF⟩
  else if a = 0xF4 then some ⟨3, 0x80, 0x8F⟩
  else none

def isTail (a : Nat) : Bool := 0x80 ≤ a && a ≤ 0xBF

def push (code : Nat) (rest : Except Fault (List Char)) : Except Fault (List Char) :=
  rest.map (Char.ofNat code :: ·)

def decodeFrom (start : Nat) : Bytes → Except Fault (List Char)
  | [] => .ok []
  | a :: s =>
    if a.toNat < 0x80 then push a.toNat (decodeFrom (start + 1) s)
    else match lead a.toNat, s with
      | none, _ => .error ⟨start, some 1⟩
      | some _, [] => .error ⟨start, none⟩
      | some l, b :: s =>
        if b.toNat < l.low ∨ l.high < b.toNat then .error ⟨start, some 1⟩
        else if l.more = 1 then
          push (a.toNat % 32 * 64 + b.toNat % 64) (decodeFrom (start + 2) s)
        else match s with
          | [] => .error ⟨start, none⟩
          | c :: s =>
            if !isTail c.toNat then .error ⟨start, some 2⟩
            else if l.more = 2 then
              push (a.toNat % 16 * 4096 + b.toNat % 64 * 64 + c.toNat % 64) (decodeFrom (start + 3) s)
            else match s with
              | [] => .error ⟨start, none⟩
              | d :: s =>
                if !isTail d.toNat then .error ⟨start, some 3⟩
                else push (a.toNat % 8 * 262144 + b.toNat % 64 * 4096 + c.toNat % 64 * 64 + d.toNat % 64)
                  (decodeFrom (start + 4) s)

def decode (bytes : Bytes) : Except Fault (List Char) := decodeFrom 0 bytes

def toString? (bytes : Bytes) : Option String :=
  match decode bytes with
  | .ok cs => some (String.ofList cs)
  | .error _ => none

theorem encode_cons (c : Char) (cs : List Char) : encode (c :: cs) = String.utf8EncodeChar c ++ encode cs := rfl

theorem encode_append (xs ys : List Char) : encode (xs ++ ys) = encode xs ++ encode ys := by
  simp [encode]

end Utf8
end TextGrammar
