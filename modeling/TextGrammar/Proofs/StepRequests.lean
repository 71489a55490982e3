import TextGrammar.Proofs.Runs
set_option autoImplicit false

namespace TextGrammar

namespace Entropy

variable {α : Type}

/-- A draw that answers from the next `count` bytes, or from those that are left, and leaves the others. -/
def Reads (count : Nat) (draw : Entropy → α × Entropy) : Prop :=
  ∀ e, draw e = ((draw (e.take count)).1, e.drop count)

theorem reads_coin : Reads 1 coin := fun e => by simp only [coin, List.take_take, Nat.min_self]

def integerWidth (low high : Int64) : Nat := byteWidth (high.toInt - low.toInt).toNat

theorem reads_integer (low high : Int64) : Reads (integerWidth low high) (integer low high) := fun e => by
  simp only [integer, integerWidth, List.take_take, Nat.min_self]

theorem reads_unit : Reads 4 unit := fun e => by simp only [unit, word, List.take_take, Nat.min_self]

theorem reads_float (low high : Float) : Reads 4 (float low high) := fun e => by
  simp only [float, unit, word, List.take_take, Nat.min_self]

theorem Reads.eq {count : Nat} {draw : Entropy → α × Entropy} (h : Reads count draw) {e e' : Entropy}
    (same : e.take count = e'.take count) : (draw e).1 = (draw e').1 := by
  rw [h e, h e', same]

theorem Reads.left {count : Nat} {draw : Entropy → α × Entropy} (h : Reads count draw) (e : Entropy) :
    (draw e).2 = e.drop count := by
  rw [h e]

end Entropy

def Pool.cost {τ : Type} (p : Pool τ) : Nat := if 1 < p.size then 4 else 0

theorem Pool.reads_draw {τ : Type} (p : Pool τ) : Entropy.Reads p.cost p.draw := by
  intro e
  obtain ⟨items, total⟩ := p
  match items with
  | [] => rfl
  | [i] => rfl
  | i :: j :: rest =>
    have cost : Pool.cost ⟨i :: j :: rest, total⟩ = 4 := if_pos (by simp [size])
    simp only [cost, draw, Entropy.reads_unit.eq (List.take_take.trans (by rw [Nat.min_self])), Entropy.reads_unit.left]

/-- Number of bytes of entropy that this asks for when it stands before a stack. -/
def Instruction.cost (stack : List Machine.Cell) : Instruction → Nat
  | .flip _ => 1
  | .pushInteger low high => Entropy.integerWidth low high
  | .pushFloat _ _ => 4
  | .choose => match stack with
    | .candidates pool :: _ => pool.cost
    | _ => 0
  | _ => 0

namespace Machine

variable {σ ε : Type}

def cost (p : Program) (s : State σ ε) : Nat :=
  match p.code[s.pc]? with
  | some i => i.cost s.stack
  | none => 0

def written? (p : Program) (s : State σ ε) : Option String :=
  match p.code[s.pc]?, s.stack with
  | some .write, cell :: _ => cellText cell
  | _, _ => none

/-- The block that the next instruction has evaluated, and the bindings it is evaluated in. -/
def call? (p : Program) (s : State σ ε) : Option (String × Bindings) :=
  match p.code[s.pc]? with
  | some (.eval index) => p.scripts[index]?.map fun code => (code, s.bindings)
  | _ => none

variable [Sink σ] [Evaluator ε]

/-- The blocks that a run has evaluated within a number of steps, in their order. -/
def calls (p : Program) : Nat → State σ ε → List (String × Bindings)
  | 0, _ => []
  | n + 1, s => (call? p s).toList ++ match step p s with
    | .running t => calls p n t
    | _ => []

theorem calls_of_runs {p : Program} {m n : Nat} {s u : State σ ε} (h : Runs p m s u) :
    calls p (m + n) s = calls p m s ++ calls p n u := by
  induction h with
  | zero _ => rw [Nat.zero_add, calls, List.nil_append]
  | succ first _ ih => simp only [Nat.add_right_comm, calls, first, ih, List.append_assoc]

end Machine
end TextGrammar
