import TextGrammar.Text.Utf8
set_option autoImplicit false

namespace TextGrammar

inductive OutputFault where
  | pastEnd (position length : Nat)
  | notUtf8 (fault : Utf8.Fault)
  | limitReached (limit : Nat)
  /-- A writer took none of the bytes. -/
  | nothingTaken
  | cannotRestore
  | reported (text : String)
deriving DecidableEq, Repr

namespace OutputFault

inductive Kind where
  | invalidInput | invalidData | writeZero | unsupported | other
deriving DecidableEq, Repr

def kind : OutputFault → Kind
  | .pastEnd _ _ => .invalidInput
  | .notUtf8 _ => .invalidData
  | .limitReached _ | .nothingTaken => .writeZero
  | .cannotRestore => .unsupported
  | .reported _ => .other

def message : OutputFault → String
  | .pastEnd position length => s!"snapshot {position} is past the end of output ({length})"
  | .notUtf8 fault => fault.message
  | .limitReached limit => s!"output limit of {limit} bytes reached"
  | .nothingTaken => "failed to write whole buffer"
  | .cannotRestore => "direct output can not be restored"
  | .reported text => text

end OutputFault

abbrev Answer (σ α : Type) := Except OutputFault α × σ

class Sink (σ : Type) where
  /-- Appends bytes at the current position, and says how many were taken. -/
  write : σ → Bytes → Answer σ Nat
  position : σ → Nat
  restore : σ → Nat → Answer σ Unit
  /-- What was written since a position, if the sink can read it back. -/
  writtenSince : σ → Nat → Option Bytes
  /-- Ends the output. The owner of a sink closes it, never a run. -/
  close : σ → Answer σ Unit

end TextGrammar
