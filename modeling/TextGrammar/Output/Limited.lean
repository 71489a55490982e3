import TextGrammar.Output.Sink
set_option autoImplicit false

namespace TextGrammar

structure Limited (σ : Type) where
  inner : σ
  limit : Nat

namespace Limited

variable {σ : Type} [Sink σ]

def write (s : Limited σ) (bytes : Bytes) : Answer (Limited σ) Nat :=
  if s.limit < Sink.position s.inner + bytes.length then (.error (.limitReached s.limit), s)
  else let (result, inner) := Sink.write s.inner bytes; (result, ⟨inner, s.limit⟩)

instance : Sink (Limited σ) where
  write := write
  position s := Sink.position s.inner
  restore s position := let (result, inner) := Sink.restore s.inner position; (result, ⟨inner, s.limit⟩)
  writtenSince s := Sink.writtenSince s.inner
  close s := let (result, inner) := Sink.close s.inner; (result, ⟨inner, s.limit⟩)

end Limited
end TextGrammar
