import TextGrammar.Proofs.Meaning
set_option autoImplicit false

namespace TextGrammar
open Grammar

/-- Numbers of a range as they are written. A float is taken at one of 2^32 places between the bounds. -/
inductive Grammar.Sampled : Span → String → Prop where
  | single (text : String) : Sampled (.single text) text
  | int {low high n : Int64} (le : low ≤ n) (ge : n ≤ high) : Sampled (.ints low high) (Decimal.integerText n)
  | float {low high t : Float} {k : Nat} (lt : k < UInt32.size) (ht : t = Float.ofNat k / 4294967296.0) :
      Sampled (.floats low high) (Decimal.valueText (low * (1.0 - t) + high * t))

/-- What blocks come to: the source text and the bindings before, the value and the bindings after. -/
abbrev Blocks := String → Bindings → Value → Bindings → Prop

inductive Derives (g : Grammar) (blocks : Blocks) : Expr → Bindings → String → Bindings → Prop where
  | literal (text : String) (b : Bindings) : Derives g blocks (.literal text) b text b
  | range {low high : Number} {pos : Nat} {text : String} (b : Bindings) (h : Sampled (span low high) text) :
      Derives g blocks (.range low high pos) b text b
  | reference {name : String} {pos : Nat} {body : Expr} {b c : Bindings} {text : String} (h : g.rule? name = some body)
      (inside : Derives g blocks body b text c) : Derives g blocks (.reference name pos) b text c
  | nil (b : Bindings) : Derives g blocks (.sequence []) b "" b
  | cons {e : Expr} {es : List Expr} {b c d : Bindings} {s t : String} (first : Derives g blocks e b s c)
      (rest : Derives g blocks (.sequence es) c t d) : Derives g blocks (.sequence (e :: es)) b (s ++ t) d
  | repetition {body : Expr} {least : UInt32} {most : Option UInt32} {pos n : Nat} {b c : Bindings} {text : String}
      (enough : least.toNat ≤ n) (bounded : ∀ m ∈ most, n ≤ m.toNat)
      (copies : Derives g blocks (.sequence (List.replicate n body)) b text c) :
      Derives g blocks (.repetition body least most pos) b text c
  | choice {alternatives : List (Alternative Expr)} {a : Alternative Expr} {pos : Nat} {b c : Bindings} {text : String}
      (h : a ∈ alternatives) (inside : Derives g blocks a.body b text c) :
      Derives g blocks (.choice alternatives pos) b text c
  | generate {code : String} {b c : Bindings} {v : Value} (h : blocks code b v c) :
      Derives g blocks (.generate code) b v.text c
  | check {code : String} {b c : Bindings} {v : Value} (h : blocks code b v c) (truthy : v.isTruthy = true) :
      Derives g blocks (.check code) b "" c
  | action {code : String} {b c : Bindings} {v : Value} (h : blocks code b v c) :
      Derives g blocks (.action code) b "" c
  | capture {body : Expr} {name : String} {discard : Bool} {b c : Bindings} {text : String}
      (inside : Derives g blocks body b text c) :
      Derives g blocks (.capture body name discard) b (if discard then "" else text) (c.set name (.str text))

variable {g : Grammar} {blocks : Blocks}

theorem Derives.append {es fs : List Expr} {b c d : Bindings} {s t : String}
    (h : Derives g blocks (.sequence es) b s c) (h' : Derives g blocks (.sequence fs) c t d) :
    Derives g blocks (.sequence (es ++ fs)) b (s ++ t) d := by
  induction es generalizing b s with
  | nil =>
    cases h
    rwa [String.empty_append]
  | cons e es ih =>
    cases h with
    | cons first rest =>
      rw [String.append_assoc]
      exact .cons first (ih rest)

end TextGrammar
