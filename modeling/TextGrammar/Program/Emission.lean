import TextGrammar.Program.Basic
import TextGrammar.Program.TextPool
set_option autoImplicit false

/-!
# Lowering grammars to instructions

The length of the code of an expression does not depend on where it stands, so every address is known before
anything is emitted.

* `'text'`, `1...6`     ↦ push; `write`
* `name`                ↦ `call`
* blocks                ↦ `eval`, then `write`, `pop`, or a jump over `rescue`
* capture               ↦ `push_offset`; body; `capture`
* repetition            ↦ a jump over the body as a local subroutine; a loop of the least number of calls; a loop of
                          further calls, each under a rescue point that leaves the loop
* choice                ↦ the candidates; `choose`; the branches, each jumping to the end; two `pop`
-/
namespace TextGrammar.Emission
open Grammar

def never (least : UInt32) (most : Option UInt32) : Bool := least == 0 && most == some 0

def leastSize (least : UInt32) : Nat := if least = 0 then 0 else 6

def furtherSize (least : UInt32) : Option UInt32 → Nat
  | some most => if most = least then 0 else 8
  | none => 5

mutual

def size : Expr → Nat
  | .literal _ | .range _ _ _ | .generate _ | .action _ => 2
  | .reference _ _ => 1
  | .check _ => 3
  | .sequence es => sizeAll es
  | .repetition body least most _ =>
    if never least most then 0 else size body + 2 + leastSize least + furtherSize least most
  | .choice alternatives _ => 2 + sizeBranches alternatives + 2
  | .capture body _ _ => size body + 2

def sizeAll : List Expr → Nat
  | [] => 0
  | e :: es => size e + sizeAll es

/-- Every branch but the last ends in a jump. -/
def sizeBranches : List (Alternative Expr) → Nat
  | [] => 0
  | [a] => size a.body
  | a :: as => size a.body + 1 + sizeBranches as

end

mutual

/-- The literals of an expression in the order of their code, those of ranges of one number among them, and those
of bodies that never run as well. -/
def literalsOf : Expr → List String
  | .literal s => [s]
  | .range low high _ => match span low high with
    | .single s => [s]
    | _ => []
  | .reference _ _ | .generate _ | .check _ | .action _ => []
  | .sequence es => literalsOfAll es
  | .repetition body _ _ _ => literalsOf body
  | .choice alternatives _ => literalsOfBranches alternatives
  | .capture body _ _ => literalsOf body

def literalsOfAll : List Expr → List String
  | [] => []
  | e :: es => literalsOf e ++ literalsOfAll es

def literalsOfBranches : List (Alternative Expr) → List String
  | [] => []
  | a :: as => literalsOf a.body ++ literalsOfBranches as

end

mutual

def scriptsOf : Expr → List String
  | .generate s | .check s | .action s => [s]
  | .literal _ | .range _ _ _ | .reference _ _ => []
  | .sequence es => scriptsOfAll es
  | .repetition body _ _ _ => scriptsOf body
  | .choice alternatives _ => scriptsOfBranches alternatives
  | .capture body _ _ => scriptsOf body

def scriptsOfAll : List Expr → List String
  | [] => []
  | e :: es => scriptsOf e ++ scriptsOfAll es

def scriptsOfBranches : List (Alternative Expr) → List String
  | [] => []
  | a :: as => scriptsOf a.body ++ scriptsOfBranches as

end

structure Symbols where
  literals : TextPool
  scripts : TextPool
  rules : List (String × Nat)

namespace Symbols

/-- Calls a rule. A rule that does not exist has no text. -/
def callOf (t : Symbols) (name : String) : Instruction :=
  match t.rules.lookup name with
  | some a => .call a
  | none => .rescue

def pushOf (t : Symbols) : Span → Instruction
  | .empty => .rescue
  | .single s => .pushLiteral (t.literals.indexOf s)
  | .ints low high => .pushInteger low high
  | .floats low high => .pushFloat low high

end Symbols

def leastLoop (base body : Nat) (least : UInt32) : List Instruction :=
  if least = 0 then []
  else [.pushCount least, .jumpIfZero (base + 5), .call body, .dec, .jump (base + 1), .pop]

def furtherLoop (base body : Nat) (least : UInt32) : Option UInt32 → List Instruction
  | some most =>
    if most = least then []
    else [
      .pushInteger 0 (Int64.ofNat (most - least).toNat),
      .jumpIfZero (base + 7), .pushRescuePoint (base + 7), .call body, .pop, .dec, .jump (base + 1), .pop]
  | none => [.flip (base + 5), .pushRescuePoint (base + 5), .call body, .pop, .jump base]

def branchTargets (base : Nat) : List (Alternative Expr) → List Nat
  | [] => []
  | a :: as => base :: branchTargets (base + size a.body + 1) as

def candidates (base : Nat) (alternatives : List (Alternative Expr)) : List Candidate :=
  List.zipWith Candidate.mk (weights alternatives) (branchTargets base alternatives)

mutual

/-- The code of an expression that stands at the address `base`. -/
def emit (t : Symbols) (base : Nat) : Expr → List Instruction
  | .literal s => [.pushLiteral (t.literals.indexOf s), .write]
  | .range low high _ => [t.pushOf (span low high), .write]
  | .reference name _ => [t.callOf name]
  | .sequence es => emitAll t base es
  | .repetition body least most _ =>
    if never least most then []
    else
      let further := base + size body + 2 + leastSize least
      .jump (base + size body + 2) :: emit t (base + 1) body ++ .ret ::
        leastLoop (base + size body + 2) (base + 1) least ++ furtherLoop further (base + 1) least most
  | .choice alternatives _ =>
    .pushCandidates (candidates (base + 2) alternatives) :: .choose ::
      emitBranches t (base + 2) (base + 2 + sizeBranches alternatives) alternatives ++ [.pop, .pop]
  | .generate s => [.eval (t.scripts.indexOf s), .write]
  | .check s => [.eval (t.scripts.indexOf s), .jumpIf (base + 3), .rescue]
  | .action s => [.eval (t.scripts.indexOf s), .pop]
  | .capture body name discard => .pushOffset :: emit t (base + 1) body ++ [.capture name discard]

def emitAll (t : Symbols) (base : Nat) : List Expr → List Instruction
  | [] => []
  | e :: es => emit t base e ++ emitAll t (base + size e) es

def emitBranches (t : Symbols) (base done : Nat) : List (Alternative Expr) → List Instruction
  | [] => []
  | [a] => emit t base a.body
  | a :: as => emit t base a.body ++ .jump done :: emitBranches t (base + size a.body + 1) done as

end

/-- Where the rules start, the first at `base`; each ends in a return. -/
def ruleAddresses (base : Nat) : List Rule → List (String × Nat)
  | [] => []
  | r :: rs => (r.name, base) :: ruleAddresses (base + size r.body + 1) rs

def emitRules (t : Symbols) (base : Nat) : List Rule → List Instruction
  | [] => []
  | r :: rs => emit t base r.body ++ .ret :: emitRules t (base + size r.body + 1) rs

/-- Length of the code before the halt: the bare expressions, or a call of the first rule. -/
def entrySize (g : Grammar) : Nat := if g.entry.isEmpty then 1 else sizeAll g.entry

def symbols (g : Grammar) : Symbols :=
  let es := g.entry ++ g.rules.map Rule.body
  ⟨.ofList (literalsOfAll es), .ofList (scriptsOfAll es), ruleAddresses (entrySize g + 1) g.rules⟩

def emitEntry (t : Symbols) (g : Grammar) : List Instruction :=
  if g.entry.isEmpty then [.call (entrySize g + 1)] else emitAll t 0 g.entry

end TextGrammar.Emission

namespace TextGrammar.Program
open Emission

def ofGrammar (g : Grammar) : Program :=
  let t := symbols g
  { code := (emitEntry t g ++ .halt :: emitRules t (entrySize g + 1) g.rules).toArray
    literals := t.literals.texts.toArray
    scripts := t.scripts.texts.toArray
    rules := t.rules
    haltAt := entrySize g }

end TextGrammar.Program
