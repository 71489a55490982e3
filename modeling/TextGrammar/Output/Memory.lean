import TextGrammar.Output.Sink
set_option autoImplicit false

namespace TextGrammar

def bytesFrom? (bytes : Bytes) (position : Nat) : Option Bytes :=
  if position ≤ bytes.length then some (bytes.drop position) else none

instance : Sink Bytes where
  write s bytes := (.ok bytes.length, s ++ bytes)
  position s := s.length
  restore s position :=
    if position ≤ s.length then (.ok (), s.take position) else (.error (.pastEnd position s.length), s)
  writtenSince := bytesFrom?
  close s := (.ok (), s)

structure TextSink where
  chars : List Char
deriving Inhabited

namespace TextSink

def bytes (s : TextSink) : Bytes := Utf8.encode s.chars

def text (s : TextSink) : String := String.ofList s.chars

/-- The characters that fill exactly the first `n` bytes, if such there are. -/
def takeBytes? : List Char → Nat → Option (List Char)
  | _, 0 => some []
  | [], _ + 1 => none
  | c :: cs, n => if c.utf8Size ≤ n then (takeBytes? cs (n - c.utf8Size)).map (c :: ·) else none

instance : Sink TextSink where
  write s bytes := match Utf8.decode bytes with
    | .ok cs => (.ok bytes.length, ⟨s.chars ++ cs⟩)
    | .error fault => (.error (.notUtf8 fault), s)
  position s := s.bytes.length
  restore s position := match takeBytes? s.chars position with
    | some cs => (.ok (), ⟨cs⟩)
    | none => (.error (.pastEnd position s.bytes.length), s)
  writtenSince s := bytesFrom? s.bytes
  close s := (.ok (), s)

end TextSink
end TextGrammar
