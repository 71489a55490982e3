import TextGrammar.Parsing.Furthest
import TextGrammar.Text.Quoted
set_option autoImplicit false

/-!
# Parsers with ordered choice

A parser reads a prefix of the text or fails. Whether it succeeds, and with what, never depends on the report of
the furthest failure that it gives beside its outcome: the report is only joined up, in every alternative tried.
-/
namespace TextGrammar.Parsing

structure Cursor where
  rest : List Char
  pos : Nat

structure Reading (α : Type) where
  outcome : Option (α × Cursor)
  furthest : Furthest

def Parser (α : Type) := Cursor → Reading α

variable {α β : Type}

def Reading.after (r : Reading α) (f : Furthest) : Reading α := ⟨r.outcome, f.join r.furthest⟩

namespace Parser

protected def pure (a : α) : Parser α := fun c => ⟨some (a, c), .nothing⟩

protected def bind (p : Parser α) (f : α → Parser β) : Parser β := fun c =>
  let r := p c
  match r.outcome with
  | none => ⟨none, r.furthest⟩
  | some (a, c') => (f a c').after r.furthest

instance : Monad Parser where
  pure := Parser.pure
  bind := Parser.bind

/-- The second parser is tried from the same place, and only if the first fails. -/
protected def orElse (p : Parser α) (q : Unit → Parser α) : Parser α := fun c =>
  let r := p c
  match r.outcome with
  | none => (q () c).after r.furthest
  | some _ => r

instance : OrElse (Parser α) := ⟨Parser.orElse⟩

def fail : Parser α := fun _ => ⟨none, .nothing⟩

def expected (what : String) : Parser α := fun c => ⟨none, ⟨c.pos, [what]⟩⟩

def require (what : String) : Option α → Parser α
  | some a => pure a
  | none => expected what

def quiet (p : Parser α) : Parser α := fun c => ⟨(p c).outcome, .nothing⟩

def notHere (p : Parser α) : Parser Unit := fun c =>
  match (p c).outcome with
  | some _ => ⟨none, .nothing⟩
  | none => ⟨some ((), c), .nothing⟩

def position : Parser Nat := fun c => ⟨some (c.pos, c), .nothing⟩

def char (label : String) (ok : Char → Bool) : Parser Char := fun c =>
  match c.rest with
  | a :: rest => if ok a then ⟨some (a, ⟨rest, c.pos + a.utf8Size⟩), .nothing⟩ else ⟨none, ⟨c.pos, [label]⟩⟩
  | [] => ⟨none, ⟨c.pos, [label]⟩⟩

def anyChar : Parser Char := char "[_]" fun _ => true

def byteLength (cs : List Char) : Nat := cs.foldr (fun c n => c.utf8Size + n) 0

def chars (label : String) (ok : Char → Bool) : Parser (List Char) := fun c =>
  let run := c.rest.takeWhile ok
  let stop := c.pos + byteLength run
  ⟨some (run, ⟨c.rest.dropWhile ok, stop⟩), ⟨stop, [label]⟩⟩

def chars1 (label : String) (ok : Char → Bool) : Parser (List Char) := do
  let a ← char label ok
  let run ← chars label ok
  return a :: run

def stripPrefix? : List Char → List Char → Option (List Char)
  | [], cs => some cs
  | _ :: _, [] => none
  | w :: ws, c :: cs => if w = c then stripPrefix? ws cs else none

def word (word : String) : Parser Unit := fun c =>
  match stripPrefix? word.toList c.rest with
  | some rest => ⟨some ((), ⟨rest, c.pos + word.utf8ByteSize⟩), .nothing⟩
  | none => ⟨none, ⟨c.pos, [Quoted.text word]⟩⟩

def optional (p : Parser α) : Parser (Option α) :=
  (do let a ← p; return some a) <|> pure none

/-- At most `fuel` times; `done` holds the values so far, the last one first. -/
def manyLoop (p : Parser α) : Nat → List α → Furthest → Cursor → Reading (List α)
  | 0, done, seen, c => ⟨some (done.reverse, c), seen⟩
  | fuel + 1, done, seen, c =>
    let r := p c
    match r.outcome with
    | some (a, c') => manyLoop p fuel (a :: done) (seen.join r.furthest) c'
    | none => ⟨some (done.reverse, c), seen.join r.furthest⟩

/-- As often as possible. A parser that reads something each time runs out of text before the bound. -/
def many (p : Parser α) : Parser (List α) := fun c =>
  manyLoop p (c.rest.length + 1) [] .nothing c

def many1 (p : Parser α) : Parser (List α) := do
  let a ← p
  let more ← many p
  return a :: more

/-- One or more with `separator` between them. A separator that nothing follows is not read. -/
def sepBy1 (p : Parser α) (separator : Parser β) : Parser (List α) := do
  let a ← p
  let more ← many (do let _ ← separator; p)
  return a :: more

def sepBy (p : Parser α) (separator : Parser β) : Parser (List α) :=
  sepBy1 p separator <|> pure []

def finish : Parser Unit := fun c =>
  match c.rest with
  | [] => ⟨some ((), c), .nothing⟩
  | _ :: _ => ⟨none, ⟨c.pos, ["EOF"]⟩⟩

def run (p : Parser α) (source : List Char) : Except Furthest α :=
  let r := (do let a ← p; finish; return a : Parser α) ⟨source, 0⟩
  match r.outcome with
  | some (a, _) => .ok a
  | none => .error r.furthest

end Parser
end TextGrammar.Parsing
