import TextGrammar.Output.Sink
set_option autoImplicit false

namespace TextGrammar

class Writer (ω : Type) where
  write : ω → Bytes → Answer ω Nat
  flush : ω → Answer ω Unit

variable {ω : Type} [Writer ω]

def writeAll (w : ω) : Bytes → Answer ω Unit
  | [] => (.ok (), w)
  | b :: bs => match Writer.write w (b :: bs) with
    | (.ok 0, w) => (.error .nothingTaken, w)
    | (.ok (n + 1), w) => writeAll w (bs.drop n)
    | (.error fault, w) => (.error fault, w)
termination_by bytes => bytes.length
decreasing_by
  rw [List.length_drop, List.length_cons]
  omega

/-- Output that is held in memory and goes to a writer at the end. Going back only moves the position; the bytes past
it stay until they are overwritten, and are never handed to the writer. -/
structure Buffered (ω : Type) where
  inner : ω
  buffer : Bytes
  position : Nat
  within : position ≤ buffer.length

namespace Buffered

def new (w : ω) : Buffered ω := ⟨w, [], 0, Nat.le_refl 0⟩

def bytes (s : Buffered ω) : Bytes := s.buffer.take s.position

def write (s : Buffered ω) (bytes : Bytes) : Buffered ω where
  inner := s.inner
  buffer := s.buffer.take s.position ++ bytes ++ s.buffer.drop (s.position + bytes.length)
  position := s.position + bytes.length
  within := by
    have h := s.within
    rw [List.length_append, List.length_append, List.length_take, Nat.min_eq_left h]
    omega

def restore (s : Buffered ω) (position : Nat) : Answer (Buffered ω) Unit :=
  if h : position ≤ s.buffer.length then (.ok (), ⟨s.inner, s.buffer, position, h⟩)
  else (.error (.pastEnd position s.buffer.length), s)

def writtenSince (s : Buffered ω) (position : Nat) : Option Bytes :=
  if position ≤ s.position then some (s.bytes.drop position) else none

/-- The output is dropped as soon as the writer has taken it, whether or not it can be flushed. -/
def close (s : Buffered ω) : Answer (Buffered ω) Unit :=
  match writeAll s.inner s.bytes with
  | (.error fault, w) => (.error fault, ⟨w, s.buffer, s.position, s.within⟩)
  | (.ok (), w) => let (result, w) := Writer.flush w; (result, new w)

instance : Sink (Buffered ω) where
  write s bytes := (.ok bytes.length, s.write bytes)
  position := position
  restore := restore
  writtenSince := writtenSince
  close := close

end Buffered

/-- Output that goes to a writer at once. It counts the bytes of the writes that succeeded, and can neither go back
nor read back. -/
structure Direct (ω : Type) where
  inner : ω
  written : Nat

namespace Direct

def new (w : ω) : Direct ω := ⟨w, 0⟩

def write (s : Direct ω) (bytes : Bytes) : Answer (Direct ω) Nat :=
  match writeAll s.inner bytes with
  | (.ok (), w) => (.ok bytes.length, ⟨w, s.written + bytes.length⟩)
  | (.error fault, w) => (.error fault, ⟨w, s.written⟩)

instance : Sink (Direct ω) where
  write := write
  position := written
  restore s position := (if position = s.written then .ok () else .error .cannotRestore, s)
  writtenSince _ _ := none
  close s := let (result, w) := Writer.flush s.inner; (result, ⟨w, s.written⟩)

end Direct
end TextGrammar
