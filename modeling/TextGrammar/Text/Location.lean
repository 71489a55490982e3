set_option autoImplicit false

namespace TextGrammar

structure Location where
  line : Nat
  column : Nat
deriving DecidableEq, Repr

namespace Location

def after (l : Location) (c : Char) : Location :=
  if c = '\n' then ⟨l.line + 1, 1⟩ else ⟨l.line, l.column + 1⟩

def walk (l : Location) : List Char → Nat → Location
  | [], _ => l
  | c :: cs, offset => if offset = 0 then l else walk (l.after c) cs (offset - c.utf8Size)

def ofOffset (source : List Char) (offset : Nat) : Location := walk ⟨1, 1⟩ source offset

def text (l : Location) : String := s!"{l.line}:{l.column}"

end Location
end TextGrammar
