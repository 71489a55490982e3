import TextGrammar.Script.Arithmetic
import TextGrammar.Script.Function
set_option autoImplicit false

namespace TextGrammar.Script

mutual

def Term.eval (b : Bindings) : Term → Except EvalFault Value
  | .constant v => .ok v
  | .variable name => match b.get? name with
    | some v => .ok v
    | none => .error (.undefinedVariable name)
  | .call f arguments => do
    let vs ← evalAll b arguments
    match Function.ofName? f with
    | some f => f.call vs
    | none => .error (.unknownFunction f)
  | .not x => do
    let v ← x.eval b
    return .bool (!v.isTruthy)
  | .negate x => do
    let v ← x.eval b
    negate v
  | .and x y => do
    let v ← x.eval b
    if v.isTruthy then
      let w ← y.eval b
      return .bool w.isTruthy
    else return .bool false
  | .or x y => do
    let v ← x.eval b
    if v.isTruthy then return .bool true
    else
      let w ← y.eval b
      return .bool w.isTruthy
  | .relate r x y => do
    let v ← x.eval b
    let w ← y.eval b
    let answer ← relate r v w
    return .bool answer
  | .operate op x y => do
    let v ← x.eval b
    let w ← y.eval b
    operate op v w

def evalAll (b : Bindings) : List Term → Except EvalFault (List Value)
  | [] => .ok []
  | t :: ts => do
    let v ← t.eval b
    let vs ← evalAll b ts
    return v :: vs

end

def Statement.run (b : Bindings) : Statement → Except EvalFault (Value × Bindings)
  | .assign name t => do
    if isReserved name then throw (.reservedName name)
    let v ← t.eval b
    return (v, b.set name v)
  | .evaluate t => do
    let v ← t.eval b
    return (v, b)

def runFrom (last : Value) (b : Bindings) : Block → Except EvalFault Value × Bindings
  | [] => (.ok last, b)
  | s :: rest => match s.run b with
    | .ok (v, b') => runFrom v b' rest
    | .error f => (.error f, b)

def run (block : Block) (b : Bindings) : Except EvalFault Value × Bindings := runFrom .nil b block

end TextGrammar.Script
