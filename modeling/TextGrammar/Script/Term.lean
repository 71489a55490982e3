import TextGrammar.Value
set_option autoImplicit false

namespace TextGrammar.Script

inductive Relation where
  | eq | ne | lt | le | gt | ge
deriving DecidableEq, Repr

inductive Operation where
  | add | sub | mul | div | rem
deriving DecidableEq, Repr

inductive Term where
  | constant (value : Value)
  | variable (name : String)
  | call (function : String) (arguments : List Term)
  | not (x : Term)
  | negate (x : Term)
  | and (x y : Term)
  | or (x y : Term)
  | relate (relation : Relation) (x y : Term)
  | operate (operation : Operation) (x y : Term)

inductive Statement where
  | assign (name : String) (term : Term)
  | evaluate (term : Term)

abbrev Block := List Statement

end TextGrammar.Script
