import TextGrammar.Grammar.Expr
import TextGrammar.Text.Location
set_option autoImplicit false

namespace TextGrammar

inductive FileFault where
  | notFound
  | isDirectory
  | notUtf8
deriving DecidableEq, Repr

def FileFault.message : FileFault → String
  | .notFound => "No such file or directory (os error 2)"
  | .isDirectory => "Is a directory (os error 21)"
  | .notUtf8 => "stream did not contain valid UTF-8"

inductive CompileFault where
  | syntaxError (expected : String)
  | emptyGrammar
  | duplicateRule (name : String)
  | undefinedRule (name : String)
  /-- The explicit probabilities of a choice and their sum. -/
  | probabilityOverflow (sum : Float)
  | zeroWeight
  | invalidRepetition (least most : UInt32)
  | invalidRange (low high : Grammar.Number)
  | unreadableFile (fault : FileFault)

namespace CompileFault

inductive Kind where
  | syntaxError | duplicateRule | undefinedRule | probabilityOverflow | zeroWeight | invalidBounds | file
deriving DecidableEq, Repr

def kind : CompileFault → Kind
  | .syntaxError _ | .emptyGrammar => .syntaxError
  | .duplicateRule _ => .duplicateRule
  | .undefinedRule _ => .undefinedRule
  | .probabilityOverflow _ => .probabilityOverflow
  | .zeroWeight => .zeroWeight
  | .invalidRepetition _ _ | .invalidRange _ _ => .invalidBounds
  | .unreadableFile _ => .file

def message : CompileFault → String
  | .syntaxError expected => s!"expected {expected}"
  | .emptyGrammar => "grammar defines no rules and no expressions"
  | .duplicateRule name => s!"rule `{name}` is defined twice"
  | .undefinedRule name => s!"rule `{name}` is not defined"
  | .probabilityOverflow sum =>
    s!"probabilities sum to {Decimal.plainText (sum * 100.0)}%, exceeding 100%"
  | .zeroWeight => "alternative has zero probability"
  | .invalidRepetition least most =>
    s!"repetition lower bound {least.toNat} exceeds upper bound {most.toNat}"
  | .invalidRange low high => s!"range lower bound {low.text} exceeds upper bound {high.text}"
  | .unreadableFile fault => fault.message

end CompileFault

structure Place where
  file : Option String
  location : Location
deriving DecidableEq, Repr

def Place.text (p : Place) : String :=
  match p.file with
  | some file => s!"{file}:{p.location.text}"
  | none => p.location.text

structure CompileError where
  fault : CompileFault
  place : Option Place

namespace CompileError

def ofOffset (fault : CompileFault) (source : List Char) (offset : Nat) : CompileError :=
  ⟨fault, some ⟨none, Location.ofOffset source offset⟩⟩

def unlocated (fault : CompileFault) : CompileError := ⟨fault, none⟩

def inFile (file : String) (e : CompileError) : CompileError :=
  ⟨e.fault, e.place.map fun p => ⟨some file, p.location⟩⟩

def message (e : CompileError) : String :=
  match e.place with
  | some p => s!"{p.text}: {e.fault.message}"
  | none => e.fault.message

/-- What a reader or a file system reported, if the fault comes from there. -/
def cause (e : CompileError) : Option String :=
  match e.fault, e.place with
  | .syntaxError expected, some p => some s!"error at {p.location.text}: expected {expected}"
  | .unreadableFile fault, _ => some fault.message
  | _, _ => none

end CompileError
end TextGrammar
