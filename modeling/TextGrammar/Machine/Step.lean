import TextGrammar.Machine.State
import TextGrammar.Program.Basic
set_option autoImplicit false

/-!
# One step of the machine

A failure unwinds the stack to the latest rescue point and puts back the output position and the bindings saved there.
Entropy and the state of the evaluator are never put back.
-/
namespace TextGrammar.Machine

variable {σ ε : Type} [Sink σ] [Evaluator ε]

def violated (v : Violation) (s : State σ ε) : StepResult σ ε := .faulted (.invariant v) s

def unwind : List Cell → Option (RescuePoint × List Cell)
  | [] => none
  | .rescue point :: rest => some (point, rest)
  | _ :: rest => unwind rest

def rescue (s : State σ ε) : StepResult σ ε :=
  match unwind s.stack with
  | none => .halted false { s with stack := [] }
  | some (point, rest) => match Sink.restore s.sink point.position with
    | (.ok (), sink) =>
      .running { s with pc := point.resume, stack := rest, bindings := point.bindings, sink := sink }
    | (.error fault, sink) => .faulted (.sink fault) { s with stack := rest, sink := sink }

def cellText : Cell → Option String
  | .literal s => some s
  | .int n => some (Decimal.integerText n)
  | .float x => some (Decimal.valueText x)
  | .value v => some v.text
  | _ => none

def write (cell : Cell) (s : State σ ε) : StepResult σ ε :=
  match cellText cell with
  | none => violated .writeCell s
  | some text => match Sink.write s.sink (Utf8.ofString text) with
    | (.ok _, sink) => .running { s with sink := sink }
    | (.error fault, sink) => .faulted (.sink fault) { s with sink := sink }

def evaluate (source : String) (s : State σ ε) : StepResult σ ε :=
  let r := Evaluator.evaluate s.evaluator source s.bindings
  let s := { s with bindings := r.bindings, evaluator := r.evaluator }
  match r.result with
  | .ok v => .running { s with stack := .value v :: s.stack }
  | .error fault => .faulted (.eval source fault) s

def rescuePoint (resume : Nat) (s : State σ ε) : RescuePoint := ⟨resume, Sink.position s.sink, s.bindings⟩

/-- Draws the next branch of a choice. The last one leaves nothing to go back to. -/
def choose (dispatch : Nat) (s : State σ ε) : StepResult σ ε :=
  match s.stack with
  | .candidates pool :: rest => match pool.draw s.entropy with
    | (none, entropy) => violated .candidates { s with entropy := entropy }
    | (some (target, pool'), entropy) =>
      let guard : Cell := if pool.size = 1 then .placeholder else .rescue (rescuePoint dispatch s)
      .running { s with pc := target, stack := guard :: .candidates pool' :: rest, entropy := entropy }
  | _ => violated .candidates s

/-- Binds a name to the output since an earlier position. Output that is no text counts as a failure. -/
def capture (name : String) (discard : Bool) (s : State σ ε) : StepResult σ ε :=
  match s.stack with
  | [] => violated .emptyStack s
  | .offset start :: rest =>
    let s := { s with stack := rest }
    match Sink.writtenSince s.sink start with
    | none => violated .readBack s
    | some bytes => match Utf8.toString? bytes with
      | none => rescue s
      | some text =>
        let s := { s with bindings := s.bindings.set name (.str text) }
        if discard then match Sink.restore s.sink start with
          | (.ok (), sink) => .running { s with sink := sink }
          | (.error fault, sink) => .faulted (.sink fault) { s with sink := sink }
        else .running s
  | _ :: rest => violated .captureOffset { s with stack := rest }

def push (cell : Cell) (s : State σ ε) : StepResult σ ε := .running { s with stack := cell :: s.stack }

def popping (s : State σ ε) (next : Cell → State σ ε → StepResult σ ε) : StepResult σ ε :=
  match s.stack with
  | [] => violated .emptyStack s
  | cell :: rest => next cell { s with stack := rest }

def execute (p : Program) (address : Nat) (s : State σ ε) : Instruction → StepResult σ ε
  | .pushLiteral i => match p.literals[i]? with
    | some text => push (.literal text) s
    | none => violated .textIndex s
  | .pushInteger low high =>
    let (n, entropy) := s.entropy.integer low high
    push (.int n) { s with entropy := entropy }
  | .pushFloat low high =>
    let (x, entropy) := s.entropy.float low high
    push (.float x) { s with entropy := entropy }
  | .pushCount n => push (.int (Int64.ofNat n.toNat)) s
  | .pushCandidates cs => push (.candidates (.ofList (cs.map fun c => (c.weight, c.target)))) s
  | .pop => popping s fun _ s => .running s
  | .dec => match s.stack with
    | .int n :: rest => .running { s with stack := .int (n - 1) :: rest }
    | _ => violated .decrement s
  | .jumpIfZero a => match s.stack with
    | .int n :: _ => .running (if n = 0 then { s with pc := a } else s)
    | _ => violated .loop s
  | .jumpIf a => popping s fun cell s => match cell with
    | .value v => .running (if v.isTruthy then { s with pc := a } else s)
    | _ => violated .condition s
  | .flip a =>
    let (heads, entropy) := s.entropy.coin
    let s := { s with entropy := entropy }
    .running (if heads then s else { s with pc := a })
  | .jump a => .running { s with pc := a }
  | .call a => .running { s with pc := a, stack := .address s.pc :: s.stack }
  | .ret => popping s fun cell s => match cell with
    | .address a => .running { s with pc := a }
    | _ => violated .returnAddress s
  | .write => popping s write
  | .eval i => match p.scripts[i]? with
    | some source => evaluate source s
    | none => violated .textIndex s
  | .choose => choose address s
  | .pushRescuePoint a => push (.rescue (rescuePoint a s)) s
  | .rescue => rescue s
  | .pushOffset => push (.offset (Sink.position s.sink)) s
  | .capture name discard => capture name discard s
  | .halt => .halted true s

def step (p : Program) (s : State σ ε) : StepResult σ ε :=
  match p.code[s.pc]? with
  | none => violated .programCounter s
  | some i => execute p s.pc { s with pc := s.pc + 1 } i

structure Ending (σ ε : Type) where
  result : Except RunFault Bool
  state : State σ ε

/-- Runs until the end, or for `steps` steps without an answer. -/
def run (p : Program) : Nat → State σ ε → Option (Ending σ ε)
  | 0, _ => none
  | steps + 1, s => match step p s with
    | .running s => run p steps s
    | .halted succeeded s => some ⟨.ok succeeded, s⟩
    | .faulted fault s => some ⟨.error fault, s⟩

/-- The state in which a run starts: at the first instruction, or at a rule that returns to the halt. -/
def initial (p : Program) (start : Option Nat) (sink : σ) (evaluator : ε) (entropy : Entropy) : State σ ε :=
  match start with
  | none => ⟨0, [], [], sink, evaluator, entropy⟩
  | some a => ⟨a, [.address p.haltAt], [], sink, evaluator, entropy⟩

end TextGrammar.Machine
