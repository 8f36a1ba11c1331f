/-
The state of a parse and its steps. A parser looks at one token and knows the lexemes that follow; moving
on reports what is wrong with the next lexeme. A step either succeeds or ends with the one syntax error it
has reported, and keeps in both cases what it has moved past, reported and built.
-/
import VCLang.Token.Scan
import VCLang.Tree.Layout
namespace VCLang

structure Parser where
  /-- The token that is looked at. -/
  current : Token
  /-- What follows it. -/
  upcoming : List Lexeme
  /-- The end of the token moved past last. -/
  previousEnd : Position
  /-- The nodes completed so far, in order. -/
  arena : Arena
  /-- What was reported, in order. -/
  errors : List Error
  deriving Repr

namespace Parser

/-- A parser at the first of some lexemes. -/
def ofLexemes : List Lexeme → Parser
  | [] => ⟨.eofAt .first, [], .first, .empty, []⟩
  | l :: ls => ⟨l.token, ls, .first, .empty, l.errors⟩

/-- A parser at the first token of a text. -/
def ofString (source : String) : Parser := ofLexemes (lexemes source)

/-- Moves past the current token. At the end of the text the end mark stays. -/
def advance (p : Parser) : Parser :=
  match p.upcoming with
  | [] => { p with previousEnd := p.current.span.stop }
  | l :: ls =>
    { p with current := l.token, upcoming := ls, previousEnd := p.current.span.stop,
             errors := p.errors ++ l.errors }

/-- The span from a position to the end of the token moved past last. -/
def spanFrom (p : Parser) (start : Position) : Span := ⟨start, p.previousEnd⟩

/-- The error that something is wrong with the current token. -/
def errorHere (p : Parser) (f : Fault) : Error := ⟨f, p.current.span⟩

/-- How many tokens follow the current one. -/
def remaining (p : Parser) : Nat := p.upcoming.length

end Parser

/-- A step of a parse. -/
def Parse (α : Type) : Type := Parser → Except Error α × Parser

namespace Parse

variable {α β : Type}

protected def pure (a : α) : Parse α := fun p => (.ok a, p)

/-- One step after another; an error ends the parse where it stands. -/
protected def bind (m : Parse α) (f : α → Parse β) : Parse β := fun p =>
  match m p with
  | (.ok a, p') => f a p'
  | (.error e, p') => (.error e, p')

instance : Monad Parse where
  pure := Parse.pure
  bind := Parse.bind

theorem pure_apply (a : α) (p : Parser) : (pure a : Parse α) p = (.ok a, p) := rfl

theorem bind_apply (m : Parse α) (f : α → Parse β) (p : Parser) :
    (m >>= f) p = match m p with
      | (.ok a, p') => f a p'
      | (.error e, p') => (.error e, p') := rfl

theorem bind_ok {m : Parse α} {f : α → Parse β} {p p' : Parser} {a : α} (h : m p = (.ok a, p')) :
    (m >>= f) p = f a p' := by
  rw [bind_apply, h]

/-- A sequence of two steps succeeds only if both do. -/
theorem of_bind_ok {m : Parse α} {f : α → Parse β} {p r : Parser} {b : β} (h : (m >>= f) p = (.ok b, r)) :
    ∃ a q, m p = (.ok a, q) ∧ f a q = (.ok b, r) := by
  rw [bind_apply] at h
  rcases hm : m p with ⟨e | a, q⟩ <;> rw [hm] at h
  · cases h
  · exact ⟨a, q, rfl, h⟩

/-! ## Single steps -/

/-- The token that is looked at. -/
def current : Parse Token := fun p => (.ok p.current, p)

/-- The kind of the token that is looked at. -/
def kind : Parse TokenKind := fun p => (.ok p.current.kind, p)

/-- Where the token that is looked at begins. -/
def start : Parse Position := fun p => (.ok p.current.span.start, p)

/-- Moves past the current token, which is the result. -/
def advance : Parse Token := fun p => (.ok p.current, p.advance)

/-- The span from a position to the end of the token moved past last. -/
def spanFrom (start : Position) : Parse Span := fun p => (.ok (p.spanFrom start), p)

/-- Reports a fault at the current token and ends the parse with it. -/
def fail (f : Fault) : Parse α := fun p =>
  (.error (p.errorHere f), { p with errors := p.errors ++ [p.errorHere f] })

/-- Moves past a token of a given kind. -/
def expect (k : TokenKind) : Parse Token := do
  if (← kind) = k then advance else fail (.tokenExpected k)

/-- Moves past an identifier. -/
def expectIdent : Parse Ident := do
  if (← kind) = .ident then
    let t ← advance
    return .unbound t.spelling t.span
  else fail .identifierExpected

/-- What is not the beginning of an expression. -/
def illegalPrimary : Parse α := fun p => fail (.illegalPrimaryExpression p.current.spelling) p

/-! ## Building nodes -/

/-- Completes an expression: it gets the next number. -/
def newExpr (build : ExprInfo → Expr) (span : Span) : Parse Expr := fun p =>
  let e := build ⟨⟨p.arena.exprs.size⟩, span, none⟩
  (.ok e, { p with arena := (p.arena.pushExpr e.kind span).2 })

/-- Completes a statement. -/
def newStmt (build : StmtInfo → Stmt) (span : Span) : Parse Stmt := fun p =>
  let s := build ⟨⟨p.arena.stmts.size⟩, span⟩
  (.ok s, { p with arena := (p.arena.pushStmt s.kind span).2 })

/-- Completes a declaration of a kind. -/
def newDecl (kind : DeclKind) (ident : Ident) (ty : Ty) (span : Span) : Parse DeclId := fun p =>
  let r := p.arena.pushDecl kind ident ty span
  (.ok r.1, { p with arena := r.2 })

/-! ## Repetition -/

/-- Repeats a step, `n` times at most, as long as the current token passes a test. -/
def manyUpTo (test : TokenKind → Bool) (item : Parse α) : Nat → Parse (List α)
  | 0 => pure []
  | n + 1 => do
    if test (← kind) then
      let a ← item
      let as ← manyUpTo test item n
      return a :: as
    else return []

/-- Repeats a step that moves on as long as the current token passes a test: no more often than there are
tokens. -/
def many (test : TokenKind → Bool) (item : Parse α) : Parse (List α) := fun p =>
  manyUpTo test item (p.remaining + 1) p

/-- One or more items with commas between them. -/
def commaList (item : Parse α) : Parse (List α) := do
  let a ← item
  let as ← many (· = .comma) (do let _ ← advance; item)
  return a :: as

/-- Items in parentheses with commas between them, or none. -/
def parenthesised (item : Parse α) : Parse (List α) := do
  let _ ← expect .lParen
  let as ← if (← kind) = .rParen then pure [] else commaList item
  let _ ← expect .rParen
  return as

end Parse

end VCLang
