import WhereRules.Dialect
import WhereRules.Token.Scanner
import WhereRules.Expr.Cursor

/-!
# Front ends

A front end serves one dialect, call after call. All texts that it reads go through one parser, which
is left as the last of them left it, read to its end or given up at an error. Validating takes a new
parser for each text.
-/

namespace WhereRules

/-! ## Parsers -/

/-- A scanner and a cursor that serve one text after the other. -/
structure Parser where
  scanner : Scanner := {}
  cursor : Cursor

namespace Parser

/-- A parser that has read nothing yet. -/
def new (maxDepth : Nat) : Parser := { cursor := { maxDepth } }

/-- Work of a parser. It may fail, and adds to the log either way. -/
abbrev Work := ExceptT RuleError (StateT Parser Logged)

def scan (source : String) : Work TokenStream := ExceptT.mk do
  let parser ← get
  let (result, scanner) := parser.scanner.tokenize source
  set { parser with scanner }
  return result.mapError .lex

def readTokens (stream : TokenStream) : Work Expr := ExceptT.mk do
  let parser ← get
  let (result, cursor) := Parsing.whole.run.run (parser.cursor.load stream)
  set { parser with cursor }
  return result.mapError .parse

/-- The expression of a text. -/
def parse (source : String) : Work Expr := do
  let stream ← scan source
  Logged.tell (.tokenized stream.count)
  readTokens stream

/-- The expression of a text, from a parser that reads nothing else. -/
def parseOnce (maxDepth : Nat) (source : String) : Dialect.Attempt Expr := ExceptT.mk do
  let (result, _) ← (parse source).run.run (new maxDepth)
  return result

end Parser

/-! ## Front ends -/

structure FrontEnd where
  dialect : Dialect
  parser : Parser

namespace FrontEnd

/-- A front end that was asked nothing yet. -/
def new (dialect : Dialect) : FrontEnd := ⟨dialect, .new dialect.settings.maxDepth⟩

/-- Work of a front end. It may fail, and adds to the log either way. -/
abbrev Work := ExceptT RuleError (StateT FrontEnd Logged)

/-- The expression of a text. -/
def parseExpr (source : String) : Work Expr := ExceptT.mk do
  let frontEnd ← get
  let (result, parser) ← (Parser.parse source).run.run frontEnd.parser
  set { frontEnd with parser }
  return result

/-- The rule of a text. -/
def parse (source : String) : Work Rule := do
  let e ← parseExpr source
  let frontEnd ← get
  ExceptT.mk (frontEnd.dialect.toRule source e).run

/-- The rule of a text, with an action. -/
def parseWithAction (source : String) (action : Action) : Work Rule :=
  return (← parse source).withAction action

/-- The paths that a text names. Whether they name fields is not asked. -/
def fields (source : String) : Work (List String) :=
  return (← parseExpr source).fields

/-! ## Calls that keep the parser out of it -/

/-- Reads and compiles a text, with a new parser, only to see whether it is a rule. -/
def check (frontEnd : FrontEnd) (source : String) : Dialect.Attempt Unit := do
  let e ← Parser.parseOnce frontEnd.dialect.settings.maxDepth source
  let _ ← Dialect.Attempt.of .compile (frontEnd.dialect.compile e)

/-- Whether a text is a rule, and the first problem if it is none. -/
def validate (frontEnd : FrontEnd) (source : String) : Logged Report := do
  let result ← (frontEnd.check source).run
  Dialect.report result

/-- Whether a text is a rule. -/
def accepts (frontEnd : FrontEnd) (source : String) : Logged Bool :=
  return (← frontEnd.validate source).ok

/-- The text of a rule. -/
def write (frontEnd : FrontEnd) (rule : Rule) : Dialect.Attempt String :=
  frontEnd.dialect.write rule

end FrontEnd

end WhereRules
