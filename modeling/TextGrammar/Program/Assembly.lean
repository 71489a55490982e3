import TextGrammar.Program.Emission
set_option autoImplicit false

namespace TextGrammar.Assembly
open Grammar Emission

abbrev Label := Nat

structure Draft where
  /-- The targets of these instructions are labels. -/
  code : List Instruction
  /-- The address that each label is bound to. -/
  labels : List (Option Nat)
  literals : TextPool
  scripts : TextPool
  rules : List (String × Label)

inductive Refusal where
  | fault (fault : Fault)
  /-- A label without an address, or a rule without a label. -/
  | dangling

namespace Draft

def empty : Draft := ⟨[], [], .empty, .empty, []⟩

def push (d : Draft) (i : Instruction) : Draft := { d with code := d.code ++ [i] }

/-- New labels, none of them bound. The first has the number of labels so far as its own. -/
def fresh (d : Draft) (n : Nat) : Draft := { d with labels := d.labels ++ List.replicate n none }

def bind (d : Draft) (l : Label) : Draft := { d with labels := d.labels.set l (some d.code.length) }

def literal (d : Draft) (s : String) : Draft :=
  let (i, pool) := d.literals.intern s
  { d with literals := pool }.push (.pushLiteral i)

def script (d : Draft) (s : String) : Draft :=
  let (i, pool) := d.scripts.intern s
  { d with scripts := pool }.push (.eval i)

def check (d : Draft) (s : String) : Draft :=
  let passed := d.labels.length
  d.fresh 1 |>.script s |>.push (.jumpIf passed) |>.push .rescue |>.bind passed

/-- Drops the code from an address on. Labels and texts stay. -/
def truncate (d : Draft) (a : Nat) : Draft := { d with code := d.code.take a }

/-- The start of a subroutine that is jumped over. Its first label is that of its code, and its second that of what
comes behind it. -/
def subroutine (d : Draft) : Draft :=
  let start := d.labels.length
  d.fresh 2 |>.push (.jump (start + 1)) |>.bind start

/-- The start of a choice. Its first label is that of its end, and the others are those of its branches. -/
def dispatch (d : Draft) (alternatives : List (Alternative Expr)) : Draft :=
  let targets := List.range' (d.labels.length + 1) alternatives.length
  d.fresh (alternatives.length + 1) |>.push (.pushCandidates (List.zipWith Candidate.mk (weights alternatives) targets))
    |>.push .choose

def leastLoop (d : Draft) (body : Label) (least : UInt32) : Draft :=
  if least = 0 then d
  else
    let top := d.labels.length
    let done := top + 1
    d.fresh 2 |>.push (.pushCount least) |>.bind top |>.push (.jumpIfZero done) |>.push (.call body) |>.push .dec
      |>.push (.jump top) |>.bind done |>.push .pop

def furtherLoop (d : Draft) (body : Label) (least : UInt32) (most : Option UInt32) : Draft :=
  let top := d.labels.length
  let done := top + 1
  match most with
  | some most =>
    if most = least then d
    else
      d.fresh 2 |>.push (.pushInteger 0 (Int64.ofNat (most - least).toNat)) |>.bind top |>.push (.jumpIfZero done)
        |>.push (.pushRescuePoint done) |>.push (.call body) |>.push .pop |>.push .dec |>.push (.jump top)
        |>.bind done |>.push .pop
  | none =>
    d.fresh 2 |>.bind top |>.push (.flip done) |>.push (.pushRescuePoint done) |>.push (.call body) |>.push .pop
      |>.push (.jump top) |>.bind done

end Draft

def repetitionFault? (least : UInt32) (most : Option UInt32) : Option CompileFault :=
  match most with
  | some m => if m < least then some (.invalidRepetition least m) else none
  | none => none

mutual

def emit : Expr → Draft → Except Refusal Draft
  | .literal s, d => .ok (d.literal s |>.push .write)
  | .range low high pos, d => match span low high with
    | .empty => .error (.fault (.invalidRange low high, pos))
    | .single s => .ok (d.literal s |>.push .write)
    | .ints low high => .ok (d.push (.pushInteger low high) |>.push .write)
    | .floats low high => .ok (d.push (.pushFloat low high) |>.push .write)
  | .reference name pos, d => match d.rules.lookup name with
    | some l => .ok (d.push (.call l))
    | none => .error (.fault (.undefinedRule name, pos))
  | .sequence es, d => emitAll es d
  | .repetition body least most pos, d => match repetitionFault? least most with
    | some fault => .error (.fault (fault, pos))
    | none =>
      if never least most then
        -- nothing runs, but the body is checked all the same
        (emit body d).map fun d' => d'.truncate d.code.length
      else
        let start := d.labels.length
        (emit body d.subroutine).map fun d =>
          d.push .ret |>.bind (start + 1) |>.leastLoop start least |>.furtherLoop start least most
  | .choice alternatives pos, d => match weightFault? alternatives with
    | some fault => .error (.fault (fault, pos))
    | none =>
      let done := d.labels.length
      (emitBranches done (done + 1) alternatives (d.dispatch alternatives)).map fun d =>
        d.bind done |>.push .pop |>.push .pop
  | .generate s, d => .ok (d.script s |>.push .write)
  | .check s, d => .ok (d.check s)
  | .action s, d => .ok (d.script s |>.push .pop)
  | .capture body name discard, d => (emit body (d.push .pushOffset)).map (·.push (.capture name discard))

def emitAll : List Expr → Draft → Except Refusal Draft
  | [], d => .ok d
  | e :: es, d => (emit e d).bind (emitAll es)

def emitBranches (done next : Label) : List (Alternative Expr) → Draft → Except Refusal Draft
  | [], d => .ok d
  | [a], d => emit a.body (d.bind next)
  | a :: as, d => (emit a.body (d.bind next)).bind fun d => emitBranches done (next + 1) as (d.push (.jump done))

end

/-- Gives every rule a label, unless an earlier rule has its name. -/
def declare : List Rule → Draft → Except Refusal Draft
  | [], d => .ok d
  | r :: rs, d =>
    if (d.rules.lookup r.name).isSome then .error (.fault (.duplicateRule r.name, r.pos))
    else declare rs { d.fresh 1 with rules := d.rules ++ [(r.name, d.labels.length)] }

def emitEntry (g : Grammar) (length : Nat) (d : Draft) : Except Refusal Draft :=
  match g.entry, g.rules with
  | [], [] => .error (.fault (.emptyGrammar, length))
  | [], r :: _ => match d.rules.lookup r.name with
    | some l => .ok (d.push (.call l))
    | none => .error .dangling
  | es, _ => emitAll es d

def emitRules : List Rule → Draft → Except Refusal Draft
  | [], d => .ok d
  | r :: rs, d => match d.rules.lookup r.name with
    | some l => (emit r.body (d.bind l)).bind fun d => emitRules rs (d.push .ret)
    | none => .error .dangling

def address? (labels : List (Option Nat)) (l : Label) : Option Nat := labels[l]?.join

def resolveCandidate (labels : List (Option Nat)) (c : Candidate) : Option Candidate :=
  (address? labels c.target).map (Candidate.mk c.weight)

def resolveInstruction (labels : List (Option Nat)) : Instruction → Option Instruction
  | .pushCandidates cs => (cs.mapM (resolveCandidate labels)).map .pushCandidates
  | .jumpIfZero l => (address? labels l).map .jumpIfZero
  | .jumpIf l => (address? labels l).map .jumpIf
  | .flip l => (address? labels l).map .flip
  | .jump l => (address? labels l).map .jump
  | .call l => (address? labels l).map .call
  | .pushRescuePoint l => (address? labels l).map .pushRescuePoint
  | i => some i

def resolve (labels : List (Option Nat)) (code : List Instruction) : Option (List Instruction) :=
  code.mapM (resolveInstruction labels)

def resolveRule (d : Draft) (r : Rule) : Option (String × Nat) :=
  ((d.rules.lookup r.name).bind (address? d.labels)).map (r.name, ·)

def link (rules : List Rule) (haltAt : Nat) (d : Draft) : Except Refusal Program :=
  match resolve d.labels d.code, rules.mapM (resolveRule d) with
  | some code, some rules => .ok ⟨code.toArray, d.literals.texts.toArray, d.scripts.texts.toArray, rules, haltAt⟩
  | _, _ => .error .dangling

/-- The program of a source of some length that spells these items, or its first fault. -/
def assemble (items : List Item) (length : Nat) : Except Refusal Program := do
  let g := Grammar.ofItems items
  let d ← declare g.rules .empty
  let d ← emitEntry g length d
  let haltAt := d.code.length
  let d ← emitRules g.rules (d.push .halt)
  link g.rules haltAt d

end TextGrammar.Assembly
