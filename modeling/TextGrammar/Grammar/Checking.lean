import TextGrammar.CompileError
set_option autoImplicit false

namespace TextGrammar.Grammar

inductive Span where
  | empty
  | single (text : String)
  | ints (low high : Int64)
  | floats (low high : Float)

/-- Two integers bound integers, and any other pair floats. -/
def span (low high : Number) : Span :=
  match low, high with
  | .int a, .int b => if b < a then .empty else if a = b then .single (Decimal.integerText a) else .ints a b
  | low, high =>
    let a := low.toFloat
    let b := high.toFloat
    if b < a then .empty else if a == b then .single (Decimal.valueText a) else .floats a b

def Span.isEmpty : Span → Bool
  | .empty => true
  | _ => false

/-- How far explicit probabilities may sum past one. -/
def tolerance : Float := 1e-4

variable {β : Type}

def explicitSum (alternatives : List (Alternative β)) : Float :=
  alternatives.foldl (fun sum a => match a.probability with
    | .explicit p => sum + p
    | .automatic => sum) 0.0

def Alternative.isAutomatic (a : Alternative β) : Bool :=
  match a.probability with
  | .automatic => true
  | .explicit _ => false

/-- The weight of an alternative without an explicit probability: one if no alternative has one, otherwise an
equal part of what the others leave. -/
def automaticShare (alternatives : List (Alternative β)) : Float :=
  let automatic := alternatives.countP Alternative.isAutomatic
  if automatic = alternatives.length then 1.0
  else (1.0 - explicitSum alternatives) / Float.ofNat automatic

def weights (alternatives : List (Alternative β)) : List Float :=
  let share := automaticShare alternatives
  alternatives.map fun a => match a.probability with
    | .explicit p => p
    | .automatic => share

def weightFault? (alternatives : List (Alternative β)) : Option CompileFault :=
  let sum := explicitSum alternatives
  if 1.0 + tolerance < sum then some (.probabilityOverflow sum)
  else if (weights alternatives).any (· ≤ 0.0) then some .zeroWeight
  else none

abbrev Fault := CompileFault × Nat

mutual

/-- The first fault of an expression whose references may name the rules in `names`. -/
def Expr.fault? (names : List String) : Expr → Option Fault
  | .literal _ | .generate _ | .check _ | .action _ => none
  | .range low high pos => if (span low high).isEmpty then some (.invalidRange low high, pos) else none
  | .reference name pos => if names.contains name then none else some (.undefinedRule name, pos)
  | .repetition body least most pos =>
    match most with
    | some m => if m < least then some (.invalidRepetition least m, pos) else body.fault? names
    | none => body.fault? names
  | .sequence es => faultInAll? names es
  | .choice alternatives pos =>
    match weightFault? alternatives with
    | some fault => some (fault, pos)
    | none => faultInAlternatives? names alternatives
  | .capture body _ _ => body.fault? names

def faultInAll? (names : List String) : List Expr → Option Fault
  | [] => none
  | e :: es => (e.fault? names).or (faultInAll? names es)

def faultInAlternatives? (names : List String) : List (Alternative Expr) → Option Fault
  | [] => none
  | a :: as => (a.body.fault? names).or (faultInAlternatives? names as)

end

def duplicate? (names : List String) : List Rule → Option Fault
  | [] => none
  | r :: rs => if names.contains r.name then some (.duplicateRule r.name, r.pos) else duplicate? (r.name :: names) rs

def names (g : Grammar) : List String := g.rules.map Rule.name

def isEmpty (g : Grammar) : Bool := g.rules.isEmpty && g.entry.isEmpty

def fault? (g : Grammar) (length : Nat) : Option Fault :=
  (duplicate? [] g.rules).or
    (if g.isEmpty then some (.emptyGrammar, length)
    else faultInAll? g.names (g.entry ++ g.rules.map Rule.body))

end TextGrammar.Grammar
