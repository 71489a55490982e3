import TextGrammar.Program.Emission
import TextGrammar.Pool
import TextGrammar.RunFault
set_option autoImplicit false

/-!
# What a grammar means

Grammars are run here without code, addresses or a stack. An expression is done, fails, or is given up for a fault,
and has by then written output and changed bindings. An attempt that fails is undone by whoever made it: the output and
the bindings go back to what they were, while entropy and the state of the evaluator never do.

Nothing bounds how deep references nest and how long a coin shows heads. So a run is given fuel, and has no answer if
that does not suffice. Sequences use none of it.
-/
namespace TextGrammar

namespace Grammar

def rule? (g : Grammar) (name : String) : Option Expr := (g.rules.find? fun r => r.name == name).map Rule.body

def start? (g : Grammar) : Option String → Option Expr
  | some name => g.rule? name
  | none => match g.entry, g.rules with
    | [], r :: _ => some (.reference r.name r.pos)
    | es, _ => some (.sequence es)

end Grammar

namespace Meaning
open Grammar

structure World (σ ε : Type) where
  bindings : Bindings
  sink : σ
  evaluator : ε
  entropy : Entropy

inductive Outcome (σ ε : Type) where
  | done (w : World σ ε)
  | failed (w : World σ ε)
  | faulted (fault : RunFault) (w : World σ ε)

variable {σ ε : Type}

section
variable [Sink σ] [Evaluator ε]

namespace World

def write (text : String) (w : World σ ε) : Outcome σ ε :=
  match Sink.write w.sink (Utf8.ofString text) with
  | (.ok _, sink) => .done { w with sink := sink }
  | (.error fault, sink) => .faulted (.sink fault) { w with sink := sink }

def evaluate (code : String) (w : World σ ε) (next : Value → World σ ε → Outcome σ ε) : Outcome σ ε :=
  let r := Evaluator.evaluate w.evaluator code w.bindings
  let w := { w with bindings := r.bindings, evaluator := r.evaluator }
  match r.result with
  | .ok v => next v w
  | .error fault => .faulted (.eval code fault) w

def writeNumber (w : World σ ε) : Span → Outcome σ ε
  | .empty => .failed w
  | .single text => w.write text
  | .ints low high =>
    let (n, entropy) := w.entropy.integer low high
    { w with entropy := entropy }.write (Decimal.integerText n)
  | .floats low high =>
    let (x, entropy) := w.entropy.float low high
    { w with entropy := entropy }.write (Decimal.valueText x)

def putBack (now earlier : World σ ε) : Outcome σ ε :=
  match Sink.restore now.sink (Sink.position earlier.sink) with
  | (.ok (), sink) => .done { now with bindings := earlier.bindings, sink := sink }
  | (.error fault, sink) => .faulted (.sink fault) { now with sink := sink }

def capture (name : String) (discard : Bool) (earlier now : World σ ε) : Outcome σ ε :=
  match Sink.writtenSince now.sink (Sink.position earlier.sink) with
  | none => .faulted (.invariant .readBack) now
  | some bytes => match Utf8.toString? bytes with
    | none => .failed now
    | some text =>
      let w := { now with bindings := now.bindings.set name (.str text) }
      if discard then match Sink.restore now.sink (Sink.position earlier.sink) with
        | (.ok (), sink) => .done { w with sink := sink }
        | (.error fault, sink) => .faulted (.sink fault) { w with sink := sink }
      else .done w

end World

def andThen (o : Option (Outcome σ ε)) (next : World σ ε → Option (Outcome σ ε)) : Option (Outcome σ ε) :=
  match o with
  | some (.done w) => next w
  | o => o

abbrev Runner (σ ε : Type) := Expr → World σ ε → Option (Outcome σ ε)

variable (inner : Runner σ ε)

def times (body : Expr) : Nat → World σ ε → Option (Outcome σ ε)
  | 0, w => some (.done w)
  | n + 1, w => andThen (inner body w) (times body n)

/-- An iteration that is undone if it fails, and is then the last. -/
def guarded (body : Expr) (w : World σ ε) (more : World σ ε → Option (Outcome σ ε)) : Option (Outcome σ ε) :=
  match inner body w with
  | some (.done w') => more w'
  | some (.failed w') => some (w'.putBack w)
  | o => o

def atMost (body : Expr) : Nat → World σ ε → Option (Outcome σ ε)
  | 0, w => some (.done w)
  | n + 1, w => guarded inner body w (atMost body n)

def whileHeads (body : Expr) : Nat → World σ ε → Option (Outcome σ ε)
  | 0, _ => none
  | fuel + 1, w =>
    let (heads, entropy) := w.entropy.coin
    let w := { w with entropy := entropy }
    if heads then guarded inner body w (whileHeads body fuel) else some (.done w)

def further (fuel : Nat) (body : Expr) (least : UInt32) : Option UInt32 → World σ ε → Option (Outcome σ ε)
  | some most, w =>
    let (n, entropy) := w.entropy.integer 0 (Int64.ofNat (most.toNat - least.toNat))
    atMost inner body n.toNatClampNeg { w with entropy := entropy }
  | none, w => whileHeads inner body fuel w

def draws : Nat → Pool Expr → World σ ε → Option (Outcome σ ε)
  | 0, _, w => some (.failed w)
  | n + 1, pool, w => match pool.draw w.entropy with
    | (none, entropy) => some (.failed { w with entropy := entropy })
    | (some (body, rest), entropy) =>
      let w := { w with entropy := entropy }
      match inner body w with
      | some (.failed w') => if n = 0 then some (.failed w') else andThen (some (w'.putBack w)) (draws n rest)
      | o => o

omit [Evaluator ε] in
theorem draws_succ {n : Nat} {pool rest : Pool Expr} {e : Expr} {w : World σ ε} {entropy : Entropy}
    (hd : pool.draw w.entropy = (some (e, rest), entropy)) :
    draws inner (n + 1) pool w = match inner e { w with entropy := entropy } with
      | some (.failed w') =>
        if n = 0 then some (.failed w')
        else andThen (some (w'.putBack { w with entropy := entropy })) (draws inner n rest)
      | o => o := by
  simp only [draws, hd]

def alternativePool (alternatives : List (Alternative Expr)) : Pool Expr :=
  .ofList (List.zip (weights alternatives) (alternatives.map Alternative.body))

mutual

/-- One expression. What stands inside it is left to `inner`, sequences apart. -/
def within (g : Grammar) (fuel : Nat) : Runner σ ε
  | .literal text, w => some (w.write text)
  | .range low high _, w => some (w.writeNumber (span low high))
  | .reference name _, w => match g.rule? name with
    | some body => inner body w
    | none => some (.failed w)
  | .sequence es, w => withinAll g fuel es w
  | .repetition body least most _, w =>
    andThen (times inner body least.toNat w) (further inner fuel body least most)
  | .choice alternatives _, w => draws inner alternatives.length (alternativePool alternatives) w
  | .generate code, w => some (w.evaluate code fun v w => w.write v.text)
  | .check code, w => some (w.evaluate code fun v w => if v.isTruthy then .done w else .failed w)
  | .action code, w => some (w.evaluate code fun _ w => .done w)
  | .capture body name discard, w =>
    andThen (inner body w) fun now => some (World.capture name discard w now)

def withinAll (g : Grammar) (fuel : Nat) : List Expr → World σ ε → Option (Outcome σ ε)
  | [], w => some (.done w)
  | e :: es, w => andThen (within g fuel e w) (withinAll g fuel es)

end

end

variable [Sink σ] [Evaluator ε]

def run (g : Grammar) : Nat → Runner σ ε
  | 0 => fun _ _ => none
  | fuel + 1 => within (run g fuel) g fuel

end Meaning
end TextGrammar
