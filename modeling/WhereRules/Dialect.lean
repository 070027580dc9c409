import WhereRules.Token.Lexer
import WhereRules.Expr.Parser
import WhereRules.Predicate.Compile
import WhereRules.Predicate.Written
import WhereRules.Rule
import WhereRules.Report
import WhereRules.Settings
import WhereRules.Log

/-!
# Dialects

A dialect says what rule texts may say: how deep they may nest, and which fields they may name. This
module holds everything that can be done with rule text under one dialect: read it, compile it, say
which fields it names, validate it, and write rules back as text. A dialect has no state, so what
becomes of a text depends on the text alone; what was done is told to the log. A `FrontEnd` does the
same with a parser that it keeps.

Stages run in their order and the first error is the answer. A text is refused with a position as
long as tokens are at hand; what is wrong with a whole expression has no place.
-/

namespace WhereRules

/-! ## Errors -/

/-- Why a text is no rule, or a rule no text. -/
inductive RuleError
  | lex (error : LexError)
  | parse (error : ParseError)
  | compile (error : CompileError)
  | write (error : WriteError)

namespace RuleError

/-- The character at which a text goes wrong, where one can be named. -/
def position : RuleError → Option Nat
  | lex error => some error.position
  | parse error => some error.position
  | compile _ | write _ => none

def message : RuleError → String
  | lex error => "Lex error: " ++ error.message
  | parse error => "Syntax error: " ++ error.message
  | compile error => "Compile error: " ++ error.message
  | write error => "Serialize error: " ++ error.message

end RuleError

structure Dialect where
  settings : Settings := {}
  policy : FieldPolicy := .any

namespace Dialect

/-- The language that all dialects belong to. -/
def language : String := "sql"

/-- The settings that rules are compiled under, for a reader. -/
def listing (dialect : Dialect) : String :=
  "Compiler \x7b max_depth: " ++ dialect.settings.maxDepth.repr ++ ", .. \x7d"

/-- A computation that may fail and adds to the log either way. -/
abbrev Attempt := ExceptT RuleError Logged

def Attempt.of {ε α : Type} (wrap : ε → RuleError) (result : Except ε α) : Attempt α :=
  ExceptT.mk (pure (result.mapError wrap))

/-! ## Reading -/

/-- The expression of a text. -/
def parseExpr (dialect : Dialect) (source : String) : Attempt Expr := do
  let stream ← Attempt.of .lex (TokenStream.ofText source)
  Logged.tell (.tokenized stream.count)
  Attempt.of .parse (Expr.ofTokens dialect.settings.maxDepth stream)

/-- The predicate of an expression. -/
def compile (dialect : Dialect) (e : Expr) : Except CompileError Predicate :=
  Predicate.ofExpr dialect.policy.resolve dialect.settings.maxDepth e

/-- The rule of a text that was read as an expression. -/
def toRule (dialect : Dialect) (source : String) (e : Expr) : Attempt Rule := do
  let predicate ← Attempt.of .compile (dialect.compile e)
  Logged.tell (.compiled source.utf8ByteSize e.fields.length predicate.operator)
  return { predicate }

/-- The rule of a text. -/
def parse (dialect : Dialect) (source : String) : Attempt Rule := do
  let e ← dialect.parseExpr source
  dialect.toRule source e

/-- The rule of a text, with an action. -/
def parseWithAction (dialect : Dialect) (source : String) (action : Action) : Attempt Rule :=
  return (← dialect.parse source).withAction action

/-- The paths that a text names. Whether they name fields is not asked. -/
def fields (dialect : Dialect) (source : String) : Attempt (List String) :=
  return (← dialect.parseExpr source).fields

/-! ## Validating -/

/-- Reads and compiles a text only to see whether it is a rule. -/
def check (dialect : Dialect) (source : String) : Attempt Unit := do
  let e ← dialect.parseExpr source
  let _ ← Attempt.of .compile (dialect.compile e)

/-- Reports what came of a check. -/
def report : Except RuleError Unit → Logged Report
  | .ok () => return Report.valid
  | .error error => do
    Logged.tell (.refused error.message error.position)
    return Report.invalid ⟨error.message, error.position⟩

/-- Whether a text is a rule, and the first problem if it is none. -/
def validate (dialect : Dialect) (source : String) : Logged Report := do
  report (← (dialect.check source).run)

/-- Whether a text is a rule. -/
def accepts (dialect : Dialect) (source : String) : Logged Bool :=
  return (← dialect.validate source).ok

/-! ## Writing -/

/-- The text of a rule. -/
def write (dialect : Dialect) (rule : Rule) : Attempt String := do
  let text ← Attempt.of .write (rule.predicate.toText dialect.settings.maxDepth)
  Logged.tell (.written text.utf8ByteSize)
  return text

end Dialect

end WhereRules
