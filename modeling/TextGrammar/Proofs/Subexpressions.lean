import TextGrammar.Grammar.Checking
set_option autoImplicit false

namespace TextGrammar.Grammar

mutual

def Expr.Every (P : Expr → Prop) : Expr → Prop
  | .literal text => P (.literal text)
  | .range low high pos => P (.range low high pos)
  | .reference name pos => P (.reference name pos)
  | .repetition body least most pos => P (.repetition body least most pos) ∧ body.Every P
  | .sequence es => P (.sequence es) ∧ EveryIn P es
  | .choice alternatives pos => P (.choice alternatives pos) ∧ EveryBranch P alternatives
  | .generate code => P (.generate code)
  | .check code => P (.check code)
  | .action code => P (.action code)
  | .capture body name discard => P (.capture body name discard) ∧ body.Every P

def EveryIn (P : Expr → Prop) : List Expr → Prop
  | [] => True
  | e :: es => e.Every P ∧ EveryIn P es

def EveryBranch (P : Expr → Prop) : List (Alternative Expr) → Prop
  | [] => True
  | a :: as => a.body.Every P ∧ EveryBranch P as

end

def Expr.Ordered : Expr → Prop
  | .repetition _ least (some most) _ => least ≤ most
  | _ => True

def Expr.Populated : Expr → Prop
  | .choice alternatives _ => alternatives ≠ []
  | _ => True

def Expr.Feasible (e : Expr) : Prop := e.Ordered ∧ e.Populated

theorem everyIn_iff {P : Expr → Prop} {es : List Expr} : EveryIn P es ↔ ∀ e ∈ es, e.Every P := by
  induction es with
  | nil => simp [EveryIn]
  | cons e es ih => simp [EveryIn, ih]

theorem everyBranch_iff {P : Expr → Prop} {as : List (Alternative Expr)} :
    EveryBranch P as ↔ ∀ a ∈ as, a.body.Every P := by
  induction as with
  | nil => simp [EveryBranch]
  | cons a as ih => simp [EveryBranch, ih]

mutual

theorem every_and {P Q : Expr → Prop} : ∀ e : Expr, e.Every P → e.Every Q → e.Every fun e => P e ∧ Q e
  | .literal _, h, h' => ⟨h, h'⟩
  | .range _ _ _, h, h' => ⟨h, h'⟩
  | .reference _ _, h, h' => ⟨h, h'⟩
  | .generate _, h, h' => ⟨h, h'⟩
  | .check _, h, h' => ⟨h, h'⟩
  | .action _, h, h' => ⟨h, h'⟩
  | .sequence es, h, h' => ⟨⟨h.1, h'.1⟩, everyIn_and es h.2 h'.2⟩
  | .repetition body _ _ _, h, h' => ⟨⟨h.1, h'.1⟩, every_and body h.2 h'.2⟩
  | .choice as _, h, h' => ⟨⟨h.1, h'.1⟩, everyBranch_and as h.2 h'.2⟩
  | .capture body _ _, h, h' => ⟨⟨h.1, h'.1⟩, every_and body h.2 h'.2⟩

theorem everyIn_and {P Q : Expr → Prop} :
    ∀ es : List Expr, EveryIn P es → EveryIn Q es → EveryIn (fun e => P e ∧ Q e) es
  | [], _, _ => trivial
  | e :: es, h, h' => ⟨every_and e h.1 h'.1, everyIn_and es h.2 h'.2⟩

theorem everyBranch_and {P Q : Expr → Prop} :
    ∀ as : List (Alternative Expr), EveryBranch P as → EveryBranch Q as → EveryBranch (fun e => P e ∧ Q e) as
  | [], _, _ => trivial
  | a :: as, h, h' => ⟨every_and a.body h.1 h'.1, everyBranch_and as h.2 h'.2⟩

end

variable {P Q : Expr → Prop}

mutual

theorem every_imp (h : ∀ e : Expr, e.Every P → Q e) : ∀ e : Expr, e.Every P → e.Every Q
  | .literal text, he => h (.literal text) he
  | .range low high pos, he => h (.range low high pos) he
  | .reference name pos, he => h (.reference name pos) he
  | .generate code, he => h (.generate code) he
  | .check code, he => h (.check code) he
  | .action code, he => h (.action code) he
  | .sequence es, he => ⟨h (.sequence es) he, everyIn_imp h es he.2⟩
  | .repetition body least most pos, he => ⟨h (.repetition body least most pos) he, every_imp h body he.2⟩
  | .choice as pos, he => ⟨h (.choice as pos) he, everyBranch_imp h as he.2⟩
  | .capture body name discard, he => ⟨h (.capture body name discard) he, every_imp h body he.2⟩

theorem everyIn_imp (h : ∀ e : Expr, e.Every P → Q e) : ∀ es : List Expr, EveryIn P es → EveryIn Q es
  | [], _ => trivial
  | e :: es, hes => ⟨every_imp h e hes.1, everyIn_imp h es hes.2⟩

theorem everyBranch_imp (h : ∀ e : Expr, e.Every P → Q e) :
    ∀ as : List (Alternative Expr), EveryBranch P as → EveryBranch Q as
  | [], _ => trivial
  | a :: as, has => ⟨every_imp h a.body has.1, everyBranch_imp h as has.2⟩

end

end TextGrammar.Grammar
