import TextGrammar.Program.Assembly
import TextGrammar.Proofs.Compiled
set_option autoImplicit false

/-!
# Labels and addresses

Assembling with labels gives the code that is emitted with addresses. A label is bound once and keeps its address from
then on, so code can be resolved as soon as its own labels are bound, whatever follows. In the end all are.
-/
namespace TextGrammar

namespace TextPool

theorem indexOf_foldl_insert (texts : List String) (q : TextPool) {s : String} (h : s ∈ q.texts) :
    (texts.foldl insert q).indexOf s = q.indexOf s := by
  induction texts generalizing q with
  | nil => rfl
  | cons x texts ih =>
    rw [List.foldl_cons, ih (q.insert x) ((mem_insert q x s).2 (.inr h)), indexOf_insert q x s h]

end TextPool

namespace Assembly
open Grammar Emission

variable {L : List (Option Nat)} {t : Symbols} {d d₁ d₂ d₃ : Draft} {n m a l next done : Nat}

theorem address?_eq_some : address? L l = some a ↔ L[l]? = some (some a) := by
  rw [address?, Option.join_eq_some_iff]

theorem resolve_append {xs ys xs' ys' : List Instruction} (hx : resolve L xs = some xs') (hy : resolve L ys = some ys') :
    resolve L (xs ++ ys) = some (xs' ++ ys') := by
  unfold resolve at *
  rw [List.mapM_append, hx, hy]
  rfl

theorem resolve_cons {i i' : Instruction} {xs xs' : List Instruction} (hi : resolveInstruction L i = some i')
    (hx : resolve L xs = some xs') : resolve L (i :: xs) = some (i' :: xs') := by
  unfold resolve at *
  rw [List.mapM_cons, hi, hx]
  rfl

theorem resolve_nil : resolve L [] = some [] := rfl

/-- A later draft: bound labels keep their addresses, and texts their indices. -/
structure Grows (d d' : Draft) (literals scripts : List String) : Prop where
  bound : ∀ l a, address? d.labels l = some a → address? d'.labels l = some a
  rules : d'.rules = d.rules
  literals : d'.literals = literals.foldl TextPool.insert d.literals
  scripts : d'.scripts = scripts.foldl TextPool.insert d.scripts

/-- What a draft says of its labels, rules and texts is what there is in the end. -/
structure Settles (L : List (Option Nat)) (t : Symbols) (d : Draft) : Prop where
  labels : ∀ l a, address? d.labels l = some a → address? L l = some a
  rules : ∀ name l, d.rules.lookup name = some l → ∃ a, address? L l = some a ∧ t.rules.lookup name = some a
  literals : ∀ s ∈ d.literals.texts, t.literals.indexOf s = d.literals.indexOf s
  scripts : ∀ s ∈ d.scripts.texts, t.scripts.indexOf s = d.scripts.indexOf s

def Keeps (n : Nat) (d d' : Draft) : Prop := ∀ l < n, d'.labels[l]? = d.labels[l]?

theorem Grows.trans {ls ls' ss ss' : List String} (h : Grows d d₁ ls ss) (h' : Grows d₁ d₂ ls' ss') :
    Grows d d₂ (ls ++ ls') (ss ++ ss') where
  bound l a hl := h'.bound l a (h.bound l a hl)
  rules := h'.rules.trans h.rules
  literals := by rw [h'.literals, h.literals, List.foldl_append]
  scripts := by rw [h'.scripts, h.scripts, List.foldl_append]

theorem Grows.settles {ls ss : List String} (h : Grows d d₁ ls ss) (final : Settles L t d₁) : Settles L t d where
  labels l a hl := final.labels l a (h.bound l a hl)
  rules name l hl := final.rules name l (by rw [h.rules]; exact hl)
  literals s hs := by
    have kept : s ∈ d₁.literals.texts := by
      rw [h.literals]
      exact (TextPool.mem_foldl_insert ls d.literals s).2 (.inr hs)
    rw [final.literals s kept, h.literals, TextPool.indexOf_foldl_insert ls d.literals hs]
  scripts s hs := by
    have kept : s ∈ d₁.scripts.texts := by
      rw [h.scripts]
      exact (TextPool.mem_foldl_insert ss d.scripts s).2 (.inr hs)
    rw [final.scripts s kept, h.scripts, TextPool.indexOf_foldl_insert ss d.scripts hs]

/-- A later draft that has a piece of code and its texts in addition. The code has no labels left as soon as the labels
of the later draft are settled. -/
structure Continues (d d' : Draft) (size : Nat) (literals scripts : List String)
    (code : Symbols → List Instruction) : Prop where
  grows : Grows d d' literals scripts
  keeps : Keeps d.labels.length d d'
  resolves : ∃ more, d'.code = d.code ++ more ∧ more.length = size ∧
    ∀ L t, Settles L t d' → resolve L more = some (code t)

theorem Keeps.bound (h : Keeps d.labels.length d d₁) (hl : address? d.labels l = some a) :
    address? d₁.labels l = some a := by
  rw [address?_eq_some] at hl ⊢
  have within : l < d.labels.length := (List.getElem?_eq_some_iff.1 hl).choose
  rw [h l within, hl]

theorem Keeps.trans (h : Keeps n d d₁) (h' : Keeps n d₁ d₂) : Keeps n d d₂ :=
  fun l hl => (h' l hl).trans (h l hl)

theorem Keeps.mono (h : Keeps n d d₁) (hm : m ≤ n) : Keeps m d d₁ := fun l hl => h l (by omega)

theorem Keeps.of_append {new : List (Option Nat)} (h : d₁.labels = d.labels ++ new) :
    Keeps d.labels.length d d₁ := by
  intro l hl
  rw [h, List.getElem?_append_left hl]

theorem Keeps.length_le (h : Keeps d.labels.length d d₁) : d.labels.length ≤ d₁.labels.length := by
  by_contra less
  have kept := h d₁.labels.length (by omega)
  rw [List.getElem?_eq_none (Nat.le_refl _), List.getElem?_eq_getElem (by omega)] at kept
  cases kept

theorem keeps_bind (h : n ≤ l) : Keeps n d (d.bind l) := by
  intro k hk
  simp only [Draft.bind]
  rw [List.getElem?_set_ne (by omega)]

theorem grows_push {i : Instruction} : Grows d (d.push i) [] [] := ⟨fun _ _ h => h, rfl, rfl, rfl⟩

theorem grows_bind (h : d.labels[l]? = some none) : Grows d (d.bind l) [] [] where
  bound k a hk := by
    rw [address?_eq_some] at hk ⊢
    have other : l ≠ k := by
      rintro rfl
      rw [h] at hk
      cases hk
    simp only [Draft.bind]
    rw [List.getElem?_set_ne other, hk]
  rules := rfl
  literals := rfl
  scripts := rfl

theorem address?_bind (h : l < d.labels.length) : address? (d.bind l).labels l = some d.code.length := by
  rw [address?_eq_some, Draft.bind, List.getElem?_set_self h]

theorem Continues.length {ls ss : List String} {code : Symbols → List Instruction}
    (h : Continues d d₁ n ls ss code) : d₁.code.length = d.code.length + n := by
  obtain ⟨more, hc, hm, -⟩ := h.resolves
  rw [hc, List.length_append, hm]

theorem Continues.nil : Continues d d 0 [] [] fun _ => [] where
  grows := ⟨fun _ _ h => h, rfl, rfl, rfl⟩
  keeps _ _ := rfl
  resolves := ⟨[], (List.append_nil _).symm, rfl, fun _ _ _ => rfl⟩

theorem Continues.append {ls ls' ss ss' : List String} {code code' : Symbols → List Instruction}
    (h : Continues d d₁ n ls ss code) (h' : Continues d₁ d₂ m ls' ss' code') :
    Continues d d₂ (n + m) (ls ++ ls') (ss ++ ss') fun t => code t ++ code' t where
  grows := h.grows.trans h'.grows
  keeps := h.keeps.trans (h'.keeps.mono h.keeps.length_le)
  resolves := by
    obtain ⟨more, hc, hm, resolved⟩ := h.resolves
    obtain ⟨more', hc', hm', resolved'⟩ := h'.resolves
    refine ⟨more ++ more', by rw [hc', hc, List.append_assoc], by rw [List.length_append, hm, hm'], ?_⟩
    intro L t final
    exact resolve_append (resolved L t (h'.grows.settles final)) (resolved' L t final)

theorem Continues.congr {ls ls' ss ss' : List String} {code code' : Symbols → List Instruction}
    (h : Continues d d₁ n ls ss code) (hn : n = m) (hls : ls = ls') (hss : ss = ss') (hc : ∀ t, code t = code' t) :
    Continues d d₁ m ls' ss' code' := by
  subst hn hls hss
  rwa [← show code = code' from funext hc]

/-- Code with new labels only, all of which are bound by its end. -/
theorem Continues.of_new {new : List (Option Nat)} {more : List Instruction} {code : Symbols → List Instruction}
    (hl : d₁.labels = d.labels ++ new) (hc : d₁.code = d.code ++ more) (hr : d₁.rules = d.rules)
    (hls : d₁.literals = d.literals) (hss : d₁.scripts = d.scripts)
    (resolved : ∀ L t, Settles L t d₁ → resolve L more = some (code t)) :
    Continues d d₁ more.length [] [] code where
  grows := ⟨fun _ _ h => (Keeps.of_append hl).bound h, hr, hls, hss⟩
  keeps := .of_append hl
  resolves := ⟨more, hc, rfl, resolved⟩

theorem continues_push {i : Instruction} (h : ∀ L, resolveInstruction L i = some i) :
    Continues d (d.push i) 1 [] [] fun _ => [i] := by
  have labels : (d.push i).labels = d.labels ++ [] := (List.append_nil _).symm
  have code : (d.push i).code = d.code ++ [i] := rfl
  exact .of_new labels code rfl rfl rfl fun L _ _ => resolve_cons (h L) resolve_nil

theorem continues_call {name : String} (h : d.rules.lookup name = some l) :
    Continues d (d.push (.call l)) 1 [] [] fun t => [t.callOf name] := by
  have labels : (d.push (.call l)).labels = d.labels ++ [] := (List.append_nil _).symm
  have code : (d.push (.call l)).code = d.code ++ [.call l] := rfl
  refine .of_new labels code rfl rfl rfl fun L t final => ?_
  obtain ⟨a, hl, ht⟩ := final.rules name l h
  refine resolve_cons ?_ resolve_nil
  rw [resolveInstruction, hl, Symbols.callOf, ht]
  rfl

theorem continues_literal (s : String) :
    Continues d (d.literal s) 1 [s] [] fun t => [.pushLiteral (t.literals.indexOf s)] where
  grows := ⟨fun _ _ h => h, rfl, rfl, rfl⟩
  keeps _ _ := rfl
  resolves := by
    refine ⟨_, rfl, rfl, fun L t final => ?_⟩
    have same := final.literals s ((TextPool.mem_insert _ s s).2 (.inl rfl))
    rw [same]
    rfl

theorem continues_script (s : String) :
    Continues d (d.script s) 1 [] [s] fun t => [.eval (t.scripts.indexOf s)] where
  grows := ⟨fun _ _ h => h, rfl, rfl, rfl⟩
  keeps _ _ := rfl
  resolves := by
    refine ⟨_, rfl, rfl, fun L t final => ?_⟩
    have same := final.scripts s ((TextPool.mem_insert _ s s).2 (.inl rfl))
    rw [same]
    rfl

theorem continues_leastLoop {body b : Nat} (hb : address? d.labels body = some b) (least : UInt32) :
    Continues d (d.leastLoop body least) (leastSize least) [] [] fun _ => leastLoop d.code.length b least := by
  unfold leastSize
  split
  · rename_i none_left
    simp only [Draft.leastLoop, leastLoop, none_left, if_true]
    exact .nil
  · rename_i some_left
    have labels : (d.leastLoop body least).labels = d.labels ++ [some (d.code.length + 1), some (d.code.length + 5)] := by
      simp [Draft.leastLoop, some_left, Draft.fresh, Draft.push, Draft.bind, List.replicate]
    have code : (d.leastLoop body least).code = d.code ++ [.pushCount least, .jumpIfZero (d.labels.length + 1),
        .call body, .dec, .jump d.labels.length, .pop] := by
      simp [Draft.leastLoop, some_left, Draft.fresh, Draft.push, Draft.bind]
    refine .of_new labels code ?_ ?_ ?_ fun L t final => ?_
    · simp [Draft.leastLoop, some_left, Draft.fresh, Draft.push, Draft.bind]
    · simp [Draft.leastLoop, some_left, Draft.fresh, Draft.push, Draft.bind]
    · simp [Draft.leastLoop, some_left, Draft.fresh, Draft.push, Draft.bind]
    · have top := final.labels d.labels.length (d.code.length + 1) (by simp [labels, address?])
      have done := final.labels (d.labels.length + 1) (d.code.length + 5) (by simp [labels, address?])
      have start := final.labels body b ((Keeps.of_append labels).bound hb)
      simp [resolve, resolveInstruction, top, done, start, leastLoop, some_left]

theorem continues_furtherLoop {body b : Nat} (hb : address? d.labels body = some b) (least : UInt32)
    (most : Option UInt32) :
    Continues d (d.furtherLoop body least most) (furtherSize least most) [] [] fun _ =>
      furtherLoop d.code.length b least most := by
  cases most with
  | none =>
    have labels : (d.furtherLoop body least none).labels =
        d.labels ++ [some d.code.length, some (d.code.length + 5)] := by
      simp [Draft.furtherLoop, Draft.fresh, Draft.push, Draft.bind, List.replicate]
    have code : (d.furtherLoop body least none).code = d.code ++ [.flip (d.labels.length + 1),
        .pushRescuePoint (d.labels.length + 1), .call body, .pop, .jump d.labels.length] := by
      simp [Draft.furtherLoop, Draft.fresh, Draft.push, Draft.bind]
    refine .of_new labels code rfl rfl rfl fun L t final => ?_
    have top := final.labels d.labels.length d.code.length (by simp [labels, address?])
    have done := final.labels (d.labels.length + 1) (d.code.length + 5) (by simp [labels, address?])
    have start := final.labels body b ((Keeps.of_append labels).bound hb)
    simp [resolve, resolveInstruction, top, done, start, furtherLoop]
  | some most =>
    by_cases equal : most = least
    · simp only [Draft.furtherLoop, furtherLoop, furtherSize, equal, if_true]
      exact .nil
    · simp only [furtherSize, equal, if_false]
      have labels : (d.furtherLoop body least (some most)).labels =
          d.labels ++ [some (d.code.length + 1), some (d.code.length + 7)] := by
        simp [Draft.furtherLoop, equal, Draft.fresh, Draft.push, Draft.bind, List.replicate]
      have code : (d.furtherLoop body least (some most)).code = d.code ++ [
          .pushInteger 0 (Int64.ofNat (most - least).toNat), .jumpIfZero (d.labels.length + 1),
          .pushRescuePoint (d.labels.length + 1), .call body, .pop, .dec, .jump d.labels.length, .pop] := by
        simp [Draft.furtherLoop, equal, Draft.fresh, Draft.push, Draft.bind]
      refine .of_new labels code ?_ ?_ ?_ fun L t final => ?_
      · simp [Draft.furtherLoop, equal, Draft.fresh, Draft.push, Draft.bind]
      · simp [Draft.furtherLoop, equal, Draft.fresh, Draft.push, Draft.bind]
      · simp [Draft.furtherLoop, equal, Draft.fresh, Draft.push, Draft.bind]
      · have top := final.labels d.labels.length (d.code.length + 1) (by simp [labels, address?])
        have done := final.labels (d.labels.length + 1) (d.code.length + 7) (by simp [labels, address?])
        have start := final.labels body b ((Keeps.of_append labels).bound hb)
        simp [resolve, resolveInstruction, top, done, start, furtherLoop, equal]

theorem continues_check (s : String) :
    Continues d (d.check s) 3 [] [s] fun t =>
      [.eval (t.scripts.indexOf s), .jumpIf (d.code.length + 3), .rescue] := by
  have before := @continues_script d s
  have labels : (d.check s).labels = (d.script s).labels ++ [some (d.code.length + 3)] := by
    simp [Draft.check, Draft.script, Draft.fresh, Draft.push, Draft.bind]
  have code : (d.check s).code = (d.script s).code ++ [.jumpIf d.labels.length, .rescue] := by
    simp [Draft.check, Draft.script, Draft.fresh, Draft.push, Draft.bind]
  refine before.append (.of_new labels code rfl rfl rfl fun L t final => ?_)
  have passed := final.labels d.labels.length (d.code.length + 3) (by simp [labels, address?, Draft.script, Draft.push])
  simp [resolve, resolveInstruction, passed]

/-- The body of a repetition as a subroutine that is jumped over. -/
theorem continues_subroutine {ls ss : List String} {code : Symbols → List Instruction}
    (h : Continues d.subroutine d₁ n ls ss code) :
    Continues d (d₁.push .ret |>.bind (d.labels.length + 1)) (n + 2) ls ss
        (fun t => .jump (d.code.length + n + 2) :: (code t ++ [.ret])) ∧
      address? (d₁.push .ret |>.bind (d.labels.length + 1)).labels d.labels.length = some (d.code.length + 1) := by
  have labels : d.subroutine.labels = d.labels ++ [some (d.code.length + 1), none] := by
    simp [Draft.subroutine, Draft.fresh, Draft.push, Draft.bind, List.replicate]
  have before : d.subroutine.code = d.code ++ [.jump (d.labels.length + 1)] := by
    simp [Draft.subroutine, Draft.fresh, Draft.push, Draft.bind]
  have opening : Grows d d.subroutine [] [] := ⟨fun _ _ hl => (Keeps.of_append labels).bound hl, rfl, rfl, rfl⟩
  have count : d.subroutine.labels.length = d.labels.length + 2 := by simp [labels]
  have start : address? d₁.labels d.labels.length = some (d.code.length + 1) :=
    h.keeps.bound (by simp [labels, address?])
  have skip : d₁.labels[d.labels.length + 1]? = some none := by
    rw [h.keeps _ (by omega)]
    simp [labels]
  have closing : Grows d₁ (d₁.push .ret |>.bind (d.labels.length + 1)) [] [] := grows_push.trans (grows_bind skip)
  obtain ⟨more, hc, hm, resolved⟩ := h.resolves
  refine ⟨⟨?_, ?_, ?_⟩, closing.bound _ _ start⟩
  · have whole := (opening.trans h.grows).trans closing
    rwa [List.nil_append, List.append_nil, List.nil_append, List.append_nil] at whole
  · exact (Keeps.of_append labels).trans ((h.keeps.mono (by omega)).trans (keeps_bind (by omega)))
  · refine ⟨.jump (d.labels.length + 1) :: (more ++ [.ret]), ?_, by simp [hm], fun L t final => ?_⟩
    · simp [Draft.push, Draft.bind, hc, before]
    · have behind : address? L (d.labels.length + 1) = some (d.code.length + n + 2) := by
        have bound := @address?_bind (d₁.push .ret) (d.labels.length + 1) (List.getElem?_eq_some_iff.1 skip).choose
        have here : (d₁.push .ret).code.length = d.code.length + n + 2 := by
          simp [Draft.push, hc, before, hm]
          omega
        rw [here] at bound
        exact final.labels _ _ bound
      have body := resolve_append (resolved L t (closing.settles final)) (resolve_cons (i := .ret) rfl resolve_nil)
      exact resolve_cons (by rw [resolveInstruction, behind]; rfl) body

theorem resolveCandidates {weights : List Float} {targets : List Nat}
    (h : ∀ i < targets.length, address? L (next + i) = targets[i]?) :
    (List.zipWith Candidate.mk weights (List.range' next targets.length)).mapM (resolveCandidate L) =
      some (List.zipWith Candidate.mk weights targets) := by
  induction targets generalizing weights next with
  | nil => simp
  | cons a targets ih =>
    cases weights with
    | nil => simp
    | cons w weights =>
      have first : address? L next = some a := h 0 (by simp)
      have rest := @ih (next + 1) weights fun i hi => by
        have later := h (i + 1) (by simpa using hi)
        rw [Nat.add_assoc, Nat.add_comm 1]
        exact later
      simp only [List.length_cons, List.range'_succ, List.zipWith_cons_cons, List.mapM_cons, rest, resolveCandidate, first]
      rfl

/-- A pass that ends at a fault if there is one, and comes to something with a property otherwise. -/
def Reports {α : Type} (fault? : Option Fault) (result : Except Refusal α) (P : α → Prop) : Prop :=
  match fault? with
  | some fault => result = .error (.fault fault)
  | none => ∃ a, result = .ok a ∧ P a

section
variable {α β : Type} {first second : Option Fault} {result : Except Refusal α} {P : α → Prop} {Q : β → Prop}

theorem Reports.bind {next : α → Except Refusal β} (h : Reports first result P)
    (rest : ∀ a, P a → Reports second (next a) Q) : Reports (first.or second) (result.bind next) Q := by
  cases first with
  | some fault =>
    have ended : result = .error (.fault fault) := h
    rw [ended]
    rfl
  | none =>
    obtain ⟨a, rfl, ha⟩ := h
    exact rest a ha

theorem Reports.map {f : α → β} (h : Reports first result P) (hf : ∀ a, P a → Q (f a)) :
    Reports first (result.map f) Q := by
  have whole : Reports (first.or none) (result.bind fun a => .ok (f a)) Q := h.bind fun a ha => ⟨f a, rfl, hf a ha⟩
  rw [Option.or_none] at whole
  cases result <;> exact whole

theorem Reports.imp {Q : α → Prop} (h : Reports first result P) (hq : ∀ a, P a → Q a) : Reports first result Q := by
  cases first with
  | some fault => exact h
  | none =>
    obtain ⟨a, hr, ha⟩ := h
    exact ⟨a, hr, hq a ha⟩

theorem Reports.unfaulted (h : Reports first result P) : Reports first result fun a => first = none ∧ P a := by
  cases first with
  | some fault => exact h
  | none => exact Reports.imp h fun a ha => ⟨rfl, ha⟩

end

def Knows (names : List String) (d : Draft) : Prop :=
  ∀ name, names.contains name = (d.rules.lookup name).isSome

variable {names : List String}

theorem Knows.of_rules (h : Knows names d) (same : d₁.rules = d.rules) : Knows names d₁ := by
  intro name
  rw [same]
  exact h name

/-- Assembling an expression comes to its first fault, or to the code that is emitted for it. -/
def Assembles (names : List String) (e : Expr) : Prop :=
  ∀ d, Knows names d → Reports (e.fault? names) (emit e d) fun d' =>
    Continues d d' (size e) (literalsOf e) (scriptsOf e) fun t => Emission.emit t d.code.length e

theorem assembles_range (low high : Number) (pos : Nat) : Assembles names (.range low high pos) := by
  intro d _
  have written : ∀ d : Draft, Continues d (d.push .write) 1 [] [] fun _ => [.write] :=
    fun d => continues_push fun _ => rfl
  cases numbers : span low high with
  | empty => simp [Reports, Expr.fault?, emit, numbers, Span.isEmpty]
  | single s =>
    simp only [Reports, Expr.fault?, emit, numbers, Span.isEmpty, literalsOf, scriptsOf, size, Emission.emit]
    exact ⟨_, rfl, (continues_literal s).append (written _)⟩
  | ints a b =>
    simp only [Reports, Expr.fault?, emit, numbers, Span.isEmpty, literalsOf, scriptsOf, size, Emission.emit]
    exact ⟨_, rfl, (continues_push fun _ => rfl).append (written _)⟩
  | floats a b =>
    simp only [Reports, Expr.fault?, emit, numbers, Span.isEmpty, literalsOf, scriptsOf, size, Emission.emit]
    exact ⟨_, rfl, (continues_push fun _ => rfl).append (written _)⟩

theorem assembles_reference (name : String) (pos : Nat) : Assembles names (.reference name pos) := by
  intro d hd
  simp only [Reports, Expr.fault?, emit, hd name]
  cases found : d.rules.lookup name with
  | none => rfl
  | some l => exact ⟨_, rfl, continues_call found⟩

theorem repetition_fault? (body : Expr) (least : UInt32) (most : Option UInt32) (pos : Nat) :
    (Expr.repetition body least most pos).fault? names =
      ((repetitionFault? least most).map (·, pos)).or (body.fault? names) := by
  cases most with
  | none => rfl
  | some m =>
    simp only [Expr.fault?, repetitionFault?]
    split <;> rfl

theorem choice_fault? (alternatives : List (Alternative Expr)) (pos : Nat) :
    (Expr.choice alternatives pos).fault? names =
      ((weightFault? alternatives).map (·, pos)).or (faultInAlternatives? names alternatives) := by
  rw [Expr.fault?]
  cases weightFault? alternatives <;> rfl

/-- Code that is dropped again leaves its texts. -/
theorem continues_truncate {ls ss : List String} {code : Symbols → List Instruction}
    (h : Continues d d₁ n ls ss code) : Continues d (d₁.truncate d.code.length) 0 ls ss fun _ => [] where
  grows := ⟨h.grows.bound, h.grows.rules, h.grows.literals, h.grows.scripts⟩
  keeps := h.keeps
  resolves := by
    obtain ⟨more, hc, -, -⟩ := h.resolves
    exact ⟨[], by simp [Draft.truncate, hc], rfl, fun _ _ _ => rfl⟩

theorem assembles_capture {body : Expr} (h : Assembles names body) (name : String) (discard : Bool) :
    Assembles names (.capture body name discard) := by
  intro d hd
  have opened : Continues d (d.push .pushOffset) 1 [] [] fun _ => [.pushOffset] := continues_push fun _ => rfl
  rw [emit, Expr.fault?]
  refine (h (d.push .pushOffset) (hd.of_rules rfl)).map fun d' inside => ?_
  have closed : Continues d' (d'.push (.capture name discard)) 1 [] [] fun _ => [.capture name discard] :=
    continues_push fun _ => rfl
  refine ((opened.append inside).append closed).congr ?_ ?_ ?_ fun t => ?_
  · rw [size]
    omega
  · rw [literalsOf, List.append_nil, List.nil_append]
  · rw [scriptsOf, List.append_nil, List.nil_append]
  · rw [Emission.emit, opened.length]
    rfl

theorem assembles_repetition {body : Expr} (h : Assembles names body) (least : UInt32) (most : Option UInt32)
    (pos : Nat) : Assembles names (.repetition body least most pos) := by
  intro d hd
  rw [repetition_fault?, emit]
  cases repetitionFault? least most with
  | some fault => rfl
  | none =>
    simp only [Option.map_none, Option.none_or]
    cases skipped : never least most with
    | true =>
      refine (h d hd).map fun d' inside => (continues_truncate inside).congr ?_ rfl rfl fun t => ?_
      · simp [size, skipped]
      · simp [Emission.emit, skipped]
    | false =>
      have known : Knows names d.subroutine := hd.of_rules rfl
      have opened : d.subroutine.code.length = d.code.length + 1 := by
        simp [Draft.subroutine, Draft.fresh, Draft.push, Draft.bind]
      refine (h d.subroutine known).map fun d' inside => ?_
      obtain ⟨subroutine, start⟩ := continues_subroutine inside
      have least_loop := continues_leastLoop start least
      have further_loop := continues_furtherLoop (least_loop.grows.bound _ _ start) least most
      refine ((subroutine.append least_loop).append further_loop).congr ?_ ?_ ?_ fun t => ?_
      · simp [size, skipped]
      · simp [literalsOf]
      · simp [scriptsOf]
      · rw [least_loop.length, subroutine.length, opened]
        simp [Emission.emit, skipped, Nat.add_assoc]

/-- Branches of a choice after one another, under consecutive labels that are bound by the end. The code is resolved
once the label of the end of the choice is settled too. -/
structure Branches (d d' : Draft) (next : Label) (alternatives : List (Alternative Expr)) (done : Label) : Prop where
  grows : Grows d d' (literalsOfBranches alternatives) (scriptsOfBranches alternatives)
  keeps : Keeps next d d'
  targets : ∀ i < alternatives.length, address? d'.labels (next + i) = (branchTargets d.code.length alternatives)[i]?
  resolves : ∃ more, d'.code = d.code ++ more ∧ more.length = sizeBranches alternatives ∧
    ∀ L t a, Settles L t d' → address? L done = some a →
      resolve L more = some (Emission.emitBranches t d.code.length a alternatives)

def Free (next n : Nat) (d : Draft) : Prop := ∀ i < n, d.labels[next + i]? = some none

theorem Free.within (h : Free next (n + 1) d) : next < d.labels.length :=
  (List.getElem?_eq_some_iff.1 (h 0 (by omega))).choose

theorem Free.rest {ls ss : List String} {code : Symbols → List Instruction} {i : Instruction}
    (h : Free next (n + 1) d) (first : Continues (d.bind next) d₁ m ls ss code) :
    Free (next + 1) n (d₁.push i) := by
  intro j hj
  have later := h (j + 1) (by omega)
  rw [Nat.add_comm j, ← Nat.add_assoc] at later
  have within : next + 1 + j < d.labels.length := (List.getElem?_eq_some_iff.1 later).choose
  change d₁.labels[next + 1 + j]? = some none
  rw [first.keeps _ (by simpa [Draft.bind] using within), Draft.bind, List.getElem?_set_ne (by omega), later]

theorem Free.labels {ls ss : List String} {code : Symbols → List Instruction} (h : Free next (n + 1) d)
    (first : Continues (d.bind next) d₁ m ls ss code) :
    Grows d d₁ ls ss ∧ Keeps next d d₁ ∧ address? d₁.labels next = some d.code.length := by
  have below : next ≤ (d.bind next).labels.length := by
    have within := h.within
    simp only [Draft.bind, List.length_set]
    omega
  refine ⟨(grows_bind (h 0 (by omega))).trans first.grows, ?_, first.keeps.bound (address?_bind h.within)⟩
  exact (keeps_bind (Nat.le_refl _)).trans (first.keeps.mono below)

theorem branches_last {a : Alternative Expr} (free : Free next 1 d)
    (h : Continues (d.bind next) d₁ (size a.body) (literalsOf a.body) (scriptsOf a.body)
      fun t => Emission.emit t d.code.length a.body) : Branches d d₁ next [a] done := by
  obtain ⟨grows, keeps, bound⟩ := free.labels h
  refine ⟨?_, keeps, fun i hi => ?_, ?_⟩
  · rwa [literalsOfBranches, literalsOfBranches, scriptsOfBranches, scriptsOfBranches, List.append_nil,
      List.append_nil]
  · obtain rfl : i = 0 := by simpa using hi
    rw [Nat.add_zero, bound]
    rfl
  · obtain ⟨more, hc, hm, resolved⟩ := h.resolves
    exact ⟨more, hc, hm, fun L t _ final _ => resolved L t final⟩

theorem branches_cons {a b : Alternative Expr} {as : List (Alternative Expr)} (free : Free next (as.length + 2) d)
    (h : Continues (d.bind next) d₁ (size a.body) (literalsOf a.body) (scriptsOf a.body)
      fun t => Emission.emit t d.code.length a.body)
    (rest : Branches (d₁.push (.jump done)) d₂ (next + 1) (b :: as) done) : Branches d d₂ next (a :: b :: as) done := by
  obtain ⟨grows, keeps, bound⟩ := free.labels h
  obtain ⟨more, hc, hm, resolved⟩ := h.resolves
  have after : (d₁.push (.jump done)).code.length = d.code.length + size a.body + 1 := by
    simp [Draft.push, hc, hm, Draft.bind]
    omega
  refine ⟨grows.trans (grows_push.trans rest.grows), keeps.trans (rest.keeps.mono (by omega)), ?_, ?_⟩
  · intro i hi
    cases i with
    | zero =>
      rw [Nat.add_zero, rest.grows.bound _ _ bound]
      rfl
    | succ i =>
      have later := rest.targets i (by simpa using hi)
      rw [after] at later
      rw [← Nat.add_assoc, Nat.add_right_comm, later]
      rfl
  · obtain ⟨more', hc', hm', resolved'⟩ := rest.resolves
    refine ⟨more ++ .jump done :: more', ?_, ?_, fun L t end' final hend => ?_⟩
    · simp [hc', Draft.push, hc, Draft.bind]
    · have whole : sizeBranches (a :: b :: as) = size a.body + 1 + sizeBranches (b :: as) := rfl
      rw [List.length_append, List.length_cons, hm, hm', whole]
      omega
    · have settled : Settles L t d₁ := (grows_push.trans rest.grows).settles final
      have others := resolved' L t end' final hend
      rw [after] at others
      have leave : resolveInstruction L (.jump done) = some (.jump end') := by rw [resolveInstruction, hend]; rfl
      exact resolve_append (resolved L t settled) (resolve_cons leave others)

theorem continues_choice {alternatives : List (Alternative Expr)} {pos : Nat}
    (inside : Branches (d.dispatch alternatives) d₁ (d.labels.length + 1) alternatives d.labels.length) :
    Continues d (d₁.bind d.labels.length |>.push .pop |>.push .pop) (size (.choice alternatives pos))
      (literalsOf (.choice alternatives pos)) (scriptsOf (.choice alternatives pos)) fun t =>
        Emission.emit t d.code.length (.choice alternatives pos) := by
  have labels : (d.dispatch alternatives).labels = d.labels ++ List.replicate (alternatives.length + 1) none := rfl
  have before : (d.dispatch alternatives).code = d.code ++ [.pushCandidates (List.zipWith Candidate.mk
      (weights alternatives) (List.range' (d.labels.length + 1) alternatives.length)), .choose] := by
    simp [Draft.dispatch, Draft.fresh, Draft.push]
  have opening : Grows d (d.dispatch alternatives) [] [] :=
    ⟨fun _ _ hl => (Keeps.of_append labels).bound hl, rfl, rfl, rfl⟩
  have base : (d.dispatch alternatives).code.length = d.code.length + 2 := by simp [before]
  have free : d₁.labels[d.labels.length]? = some none := by
    rw [inside.keeps _ (by omega), labels]
    simp
  have closing : Grows d₁ (d₁.bind d.labels.length |>.push .pop |>.push .pop) [] [] :=
    (grows_bind free).trans (grows_push.trans grows_push)
  obtain ⟨more, hc, hm, resolved⟩ := inside.resolves
  refine ⟨?_, ?_, .pushCandidates (List.zipWith Candidate.mk (weights alternatives)
      (List.range' (d.labels.length + 1) alternatives.length)) :: .choose :: (more ++ [.pop, .pop]), ?_, ?_,
    fun L t final => ?_⟩
  · have whole := (opening.trans inside.grows).trans closing
    rwa [List.nil_append, List.append_nil, List.nil_append, List.append_nil] at whole
  · exact (Keeps.of_append labels).trans ((inside.keeps.mono (by omega)).trans (keeps_bind (Nat.le_refl _)))
  · simp [Draft.push, Draft.bind, hc, before]
  · simp [size, hm]
    omega
  · have settled := closing.settles final
    have done : address? L d.labels.length = some (d.code.length + 2 + sizeBranches alternatives) := by
      have bound := @address?_bind d₁ d.labels.length (List.getElem?_eq_some_iff.1 free).choose
      rw [hc, List.length_append, base, hm] at bound
      exact final.labels _ _ bound
    have targets : ∀ i < (branchTargets (d.code.length + 2) alternatives).length,
        address? L (d.labels.length + 1 + i) = (branchTargets (d.code.length + 2) alternatives)[i]? := by
      intro i hi
      have bound := inside.targets i (by rwa [length_branchTargets] at hi)
      rw [base, List.getElem?_eq_getElem hi] at bound
      rw [List.getElem?_eq_getElem hi]
      exact settled.labels _ _ bound
    have drawn := @resolveCandidates L _ (weights alternatives) _ targets
    rw [length_branchTargets] at drawn
    have branches := resolved L t _ settled done
    rw [base] at branches
    rw [Emission.emit, candidates]
    refine resolve_cons (by rw [resolveInstruction, drawn]; rfl) (resolve_cons (i := .choose) rfl ?_)
    exact resolve_append branches rfl

theorem assembles_choice {alternatives : List (Alternative Expr)} {pos : Nat}
    (h : ∀ d done next, Knows names d → Free next alternatives.length d →
      Reports (faultInAlternatives? names alternatives) (emitBranches done next alternatives d) fun d' =>
        Branches d d' next alternatives done) : Assembles names (.choice alternatives pos) := by
  intro d hd
  rw [choice_fault?, emit]
  cases weightFault? alternatives with
  | some fault => rfl
  | none =>
    have known : Knows names (d.dispatch alternatives) := hd.of_rules rfl
    have free : Free (d.labels.length + 1) alternatives.length (d.dispatch alternatives) := by
      intro i hi
      simp only [Draft.dispatch, Draft.fresh, Draft.push]
      rw [List.getElem?_append_right (by omega), List.getElem?_replicate_of_lt (by omega)]
    exact (h (d.dispatch alternatives) d.labels.length (d.labels.length + 1) known free).map fun d' => continues_choice

mutual

theorem assembles : ∀ e : Expr, Assembles names e
  | .literal s => fun _ _ => ⟨_, rfl, (continues_literal s).append (continues_push fun _ => rfl)⟩
  | .generate s => fun _ _ => ⟨_, rfl, (continues_script s).append (continues_push fun _ => rfl)⟩
  | .action s => fun _ _ => ⟨_, rfl, (continues_script s).append (continues_push fun _ => rfl)⟩
  | .check s => fun _ _ => ⟨_, rfl, continues_check s⟩
  | .range low high pos => assembles_range low high pos
  | .reference name pos => assembles_reference name pos
  | .sequence es => assemblesAll es
  | .capture body name discard => assembles_capture (assembles body) name discard
  | .repetition body least most pos => assembles_repetition (assembles body) least most pos
  | .choice alternatives _ => assembles_choice (assemblesBranches alternatives)

theorem assemblesAll : ∀ (es : List Expr) (d : Draft), Knows names d →
    Reports (faultInAll? names es) (emitAll es d) fun d' =>
      Continues d d' (sizeAll es) (literalsOfAll es) (scriptsOfAll es) fun t => Emission.emitAll t d.code.length es
  | [], d, _ => ⟨d, rfl, .nil⟩
  | e :: es, d, hd => by
    rw [emitAll, faultInAll?]
    refine (assembles e d hd).bind fun d₁ first => ?_
    have rest := assemblesAll es d₁ (hd.of_rules first.grows.rules)
    rw [first.length] at rest
    exact rest.imp fun d₂ => first.append

theorem assemblesBranches : ∀ (as : List (Alternative Expr)) (d : Draft) (done next : Label), Knows names d →
    Free next as.length d → Reports (faultInAlternatives? names as) (emitBranches done next as d) fun d' =>
      Branches d d' next as done
  | [], d, _, _, _, _ => ⟨d, rfl, ⟨fun _ _ h => h, rfl, rfl, rfl⟩, fun _ _ => rfl, by simp,
      [], (List.append_nil _).symm, rfl, fun _ _ _ _ _ => rfl⟩
  | [a], d, done, next, hd, free => by
    rw [emitBranches, faultInAlternatives?, faultInAlternatives?, Option.or_none]
    exact (assembles a.body (d.bind next) (hd.of_rules rfl)).imp fun d₁ => branches_last free
  | a :: b :: as, d, done, next, hd, free => by
    rw [emitBranches, faultInAlternatives?]
    refine (assembles a.body (d.bind next) (hd.of_rules rfl)).bind fun d₁ first => ?_
    have rest := assemblesBranches (b :: as) (d₁.push (.jump done)) done (next + 1)
      (hd.of_rules first.grows.rules) (free.rest first)
    exact rest.imp fun d₂ => branches_cons free first
    all_goals simp

end

end Assembly
end TextGrammar
