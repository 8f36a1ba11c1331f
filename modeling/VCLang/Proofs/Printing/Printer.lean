/-
Printing a program from its tree alone. A tree is first written as words, which are tokens without places, and
the words then as characters, a blank behind each. Parentheses stand only where an operand would otherwise be
read with another operator, and no braces but those of the blocks, so that an `else` stands right behind the
branch of its own `if`. Every variable is declared by itself, with its whole type.
-/
import VCLang.Grammar.Dispatch
import VCLang.Token.Basic
import VCLang.Tree.Program
namespace VCLang

/-! ## Words -/

/-- A token without its place. -/
structure Word where
  kind : TokenKind
  spelling : String
  deriving DecidableEq, Repr

def Token.word (t : Token) : Word := ⟨t.kind, t.spelling⟩

namespace TokenKind

/-- The word of a kind that has only one spelling. -/
def word (k : TokenKind) : Word := ⟨k, k.spelling⟩

/-- The kind that is quoted with a spelling. -/
def ofSpelling? (s : String) : Option TokenKind := all.find? (·.spelling = s)

/-- No two kinds are quoted with one spelling. -/
theorem ofSpelling?_spelling (k : TokenKind) : ofSpelling? k.spelling = some k := by
  have hall : ∀ k ∈ all, ofSpelling? k.spelling = some k := by decide +kernel
  exact hall k (mem_all k)

end TokenKind

def Ident.word (i : Ident) : Word := ⟨.ident, i.spelling⟩

def Literal.word : Literal → Word
  | int spelling => ⟨.intLiteral, spelling⟩
  | float spelling => ⟨.floatLiteral, spelling⟩
  | boolean spelling => ⟨.booleanLiteral, spelling⟩
  | string spelling => ⟨.stringLiteral, spelling⟩

namespace Operator

/-- The kind of token that an operator is spelt by. -/
def kind (op : Operator) : TokenKind := (TokenKind.ofSpelling? op.spelling).getD .error

def word (op : Operator) : Word := ⟨op.kind, op.spelling⟩

/-- How tightly an operator between two operands binds. -/
def power (op : Operator) : Power := (Dispatch.standard.power? op.kind).getD .primary

end Operator

/-- The size of an array in decimal. -/
def sizeWord (n : Nat) : Word := ⟨.intLiteral, String.ofList (Nat.toDigits 10 n)⟩

namespace Word

/-- Words in parentheses. -/
def parenthesised (ws : List Word) : List Word := TokenKind.lParen.word :: (ws ++ [TokenKind.rParen.word])

/-- Words in parentheses, where these are needed. -/
def parenthesisedIf (needed : Bool) (ws : List Word) : List Word := if needed then parenthesised ws else ws

/-- Items with commas between them. -/
def separated : List (List Word) → List Word
  | [] => []
  | ws :: wss => ws ++ wss.flatMap (TokenKind.comma.word :: ·)

end Word

open Word

/-! ## Trees as words -/

namespace Expr

/-- How tightly an expression holds together: as its operator, if that stands between operands. -/
def power : Expr → Power
  | binary _ op _ _ => op.power
  | assign _ _ _ => .assignment
  | _ => .primary

mutual

/-- The words of an expression. The left operand of an operator may bind as tightly as the operator, the right
one must bind tighter; the value of an assignment may be any expression. -/
def words : Expr → List Word
  | binary _ op left right =>
    parenthesisedIf (left.power.below op.power) (words left) ++
      op.word :: parenthesisedIf (!op.power.below right.power) (words right)
  | unary _ op operand => op.word :: parenthesisedIf (!Power.unary.below operand.power) (words operand)
  | assign _ target value =>
    parenthesisedIf (!Power.assignment.below target.power) (words target) ++ TokenKind.eq.word :: words value
  | var _ ident => [ident.word]
  | arrayAccess _ ident index =>
    ident.word :: TokenKind.lBracket.word :: (words index ++ [TokenKind.rBracket.word])
  | call _ ident args => ident.word :: parenthesised (separated (wordsEach args))
  | initList _ elements => TokenKind.lCurly.word :: (separated (wordsEach elements) ++ [TokenKind.rCurly.word])
  | literal _ value => [value.word]
  | intToFloat _ operand => words operand

/-- The words of several expressions, each by itself. -/
def wordsEach : List Expr → List (List Word)
  | [] => []
  | e :: es => words e :: wordsEach es

end

theorem wordsEach_eq (es : List Expr) : wordsEach es = es.map words := by
  induction es with
  | nil => rfl
  | cons e es ih => rw [wordsEach, ih, List.map_cons]

/-- The words of an expression that may be absent. -/
def wordsOption : Option Expr → List Word
  | none => []
  | some e => e.words

end Expr

namespace Ty

/-- The word in front of a declared name: the type, or that of the elements. -/
def word : Ty → Word
  | boolean => TokenKind.kwBoolean.word
  | int => TokenKind.kwInt.word
  | float => TokenKind.kwFloat.word
  | void => TokenKind.kwVoid.word
  | array element _ => element.word
  | string => ⟨.error, "string"⟩
  | error => ⟨.error, "error"⟩

/-- What follows a declared name: brackets with the size, if it is known, for an array. -/
def suffix : Ty → List Word
  | array _ size =>
    TokenKind.lBracket.word :: ((size.map sizeWord).toList ++ [TokenKind.rBracket.word])
  | _ => []

end Ty

/-- A type and a name that is declared to have it. -/
def declarator (ty : Ty) (ident : Ident) : List Word := ty.word :: ident.word :: ty.suffix

/-- What follows the declarator of a variable with an initial value. -/
def initWords : Option Expr → List Word
  | none => []
  | some e => TokenKind.eq.word :: e.words

def VarDecl.words (d : VarDecl) : List Word :=
  declarator d.ty d.ident ++ (initWords d.init ++ [TokenKind.semicolon.word])

namespace Stmt

mutual

def words : Stmt → List Word
  | compound _ decls stmts =>
    TokenKind.lCurly.word :: (decls.flatMap VarDecl.words ++ (wordsAll stmts ++ [TokenKind.rCurly.word]))
  | ifThen _ cond thenBranch => TokenKind.kwIf.word :: (parenthesised cond.words ++ words thenBranch)
  | ifElse _ cond thenBranch elseBranch =>
    TokenKind.kwIf.word :: (parenthesised cond.words ++
      (words thenBranch ++ TokenKind.kwElse.word :: words elseBranch))
  | whileStmt _ cond body => TokenKind.kwWhile.word :: (parenthesised cond.words ++ words body)
  | forStmt _ init cond update body =>
    TokenKind.kwFor.word :: TokenKind.lParen.word :: (Expr.wordsOption init ++
      TokenKind.semicolon.word :: (Expr.wordsOption cond ++
        TokenKind.semicolon.word :: (Expr.wordsOption update ++ TokenKind.rParen.word :: words body)))
  | breakStmt _ => [TokenKind.kwBreak.word, TokenKind.semicolon.word]
  | continueStmt _ => [TokenKind.kwContinue.word, TokenKind.semicolon.word]
  | returnStmt _ value => TokenKind.kwReturn.word :: (Expr.wordsOption value ++ [TokenKind.semicolon.word])
  | exprStmt _ expr => expr.words ++ [TokenKind.semicolon.word]
  | emptyStmt _ => [TokenKind.semicolon.word]

def wordsAll : List Stmt → List Word
  | [] => []
  | s :: ss => words s ++ wordsAll ss

end

theorem wordsAll_eq (ss : List Stmt) : wordsAll ss = ss.flatMap words := by
  induction ss with
  | nil => rfl
  | cons s ss ih => rw [wordsAll, ih, List.flatMap_cons]

end Stmt

def Param.words (p : Param) : List Word := declarator p.ty p.ident

def Function.words (f : Function) : List Word :=
  f.ty.word :: f.ident.word :: (parenthesised (separated (f.params.map Param.words)) ++ f.body.toStmt.words)

def TopDecl.words : TopDecl → List Word
  | func f => f.words
  | var d => d.words

def Program.words (p : Program) : List Word := p.decls.flatMap TopDecl.words

/-! ## Words as text -/

/-- A character of a string as it is written between quotes. -/
def escape (c : Char) : List Char :=
  if c = '\n' then ['\\', 'n']
  else if c = '\r' then ['\\', 'r']
  else if c = '\t' then ['\\', 't']
  else if c = '\x08' then ['\\', 'b']
  else if c = '\x0c' then ['\\', 'f']
  else if c = '"' ∨ c = '\'' ∨ c = '\\' then ['\\', c]
  else [c]

/-- The characters of a word. -/
def Word.text (w : Word) : List Char :=
  if w.kind = .stringLiteral then '"' :: (w.spelling.toList.flatMap escape ++ ['"']) else w.spelling.toList

/-- The text of some words, with a blank behind each. -/
def Word.textAll (ws : List Word) : List Char := ws.flatMap fun w => w.text ++ [' ']

/-- The text of a program. -/
def Program.print (p : Program) : String := String.ofList (textAll p.words)

end VCLang
