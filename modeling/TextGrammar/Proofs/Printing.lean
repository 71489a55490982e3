import TextGrammar.Proofs.Numerals
import TextGrammar.Proofs.GrammarPhrases
import TextGrammar.Proofs.Subexpressions
set_option autoImplicit false

namespace TextGrammar.Grammar
open Parsing Parser Token

mutual

def Expr.unplaced : Expr → Expr
  | .literal text => .literal text
  | .range low high _ => .range low high 0
  | .reference name _ => .reference name 0
  | .repetition body least most _ => .repetition body.unplaced least most 0
  | .sequence es => .sequence (unplacedIn es)
  | .choice alternatives _ => .choice (unplacedBranches alternatives) 0
  | .generate code => .generate code
  | .check code => .check code
  | .action code => .action code
  | .capture body name discard => .capture body.unplaced name discard

def unplacedIn : List Expr → List Expr
  | [] => []
  | e :: es => e.unplaced :: unplacedIn es

def unplacedBranches : List (Alternative Expr) → List (Alternative Expr)
  | [] => []
  | a :: as => ⟨a.probability, a.body.unplaced⟩ :: unplacedBranches as

end

def Alternative.unplaced (a : Alternative Expr) : Alternative Expr := ⟨a.probability, a.body.unplaced⟩

def Rule.unplaced (r : Rule) : Rule := ⟨r.name, r.body.unplaced, 0⟩

def Item.unplaced : Item → Item
  | .rule r => .rule r.unplaced
  | .expr e => .expr e.unplaced

def Expr.IsSequence : Expr → Prop
  | .sequence _ => True
  | _ => False

def Probability.Proper : Probability → Prop
  | .automatic => True
  | .explicit p => Probable p

def Expr.Proper : Expr → Prop
  | .literal _ => True
  | .range low high _ => Writable low ∧ Writable high
  | .reference name _ => Quotable name
  | .repetition _ _ _ _ => True
  | .sequence es => 2 ≤ es.length ∧ ∀ e ∈ es, ¬ e.IsSequence
  | .choice alternatives _ =>
    (2 ≤ alternatives.length ∨ ∃ p e, alternatives = [⟨.explicit p, e⟩]) ∧ ∀ a ∈ alternatives, a.probability.Proper
  | .generate code | .check code => Balanced code.toList
  | .action code => Balanced code.toList ∧ ∀ c ∈ code.toList.head?, c ≠ '=' ∧ c ≠ '?'
  | .capture _ name _ => Quotable name

def Expr.Normal (e : Expr) : Prop := e.Every Expr.Proper

def Rule.Normal (r : Rule) : Prop := Quotable r.name ∧ r.body.Normal

def Item.Normal : Item → Prop
  | .rule r => r.Normal
  | .expr e => e.Normal

/-- A spelling of every number and every probability that has one. -/
structure Hand where
  number : Number → List Char
  probability : Float → List Char
  spells_number {n : Number} : Writable n → SpellsNumber n (number n)
  spells_probability {p : Float} : Probable p → ∃ n, SpellsNumber n (probability p) ∧ nonNegative? n = some p

def needsEscape (c : Char) : Bool := c == '"' || c == '\\'

def printMost : Option UInt32 → List Char
  | some m => Nat.toDigits 10 m.toNat
  | none => "inf".toList

def printTimes (least : UInt32) (most : Option UInt32) : List Char :=
  '*' :: '[' :: (Nat.toDigits 10 least.toNat ++ ("...".toList ++ (printMost most ++ [']'])))

def printCapture (name : String) (discard : Bool) : List Char :=
  '\x7b' :: ("capture".toList ++ ((if discard then ['!'] else []) ++ ' ' :: (quotedName name ++ ['\x7d'])))

def printTag (hand : Hand) : Probability → List Char
  | .automatic => []
  | .explicit p => '[' :: (hand.probability p ++ [']'])

def parenthesized (text : List Char) : List Char := '(' :: (text ++ [')'])

mutual

def Expr.print (hand : Hand) : Expr → List Char
  | .literal text => quotedText needsEscape text
  | .range low high _ => hand.number low ++ "...".toList ++ hand.number high
  | .reference name _ => quotedName name
  | .repetition body least most _ => parenthesized (body.print hand) ++ printTimes least most
  | .sequence es => printItems hand es
  | .choice alternatives _ => printAlternatives hand alternatives
  | .generate code => '\x7b' :: '=' :: (code.toList ++ ['\x7d'])
  | .check code => '\x7b' :: '?' :: (code.toList ++ ['\x7d'])
  | .action code => '\x7b' :: (code.toList ++ ['\x7d'])
  | .capture body name discard => parenthesized (body.print hand) ++ printCapture name discard

def printItems (hand : Hand) : List Expr → List Char
  | [] => []
  | e :: es => parenthesized (e.print hand) ++ printItems hand es

def printAlternatives (hand : Hand) : List (Alternative Expr) → List Char
  | [] => []
  | a :: as => printTag hand a.probability ++ parenthesized (a.body.print hand) ++ printFurther hand as

def printFurther (hand : Hand) : List (Alternative Expr) → List Char
  | [] => []
  | a :: as => '|' :: (printTag hand a.probability ++ parenthesized (a.body.print hand) ++ printFurther hand as)

end

def printRule (hand : Hand) (r : Rule) : List Char := quotedName r.name ++ '=' :: (r.body.print hand ++ [';'])

def printRules (hand : Hand) (rules : List Rule) : List Char := rules.flatMap (printRule hand)

end TextGrammar.Grammar
