import Pug.Script.Lexeme
import Pug.Script.Node

/-!
# Words and marks of JavaScript

Words are keywords only where the grammar has a use for the keyword: a `var` where an expression is
expected is a name, and so is any word behind a point. Here are the words and marks that have a
meaning of their own in an expression, and at the front of a statement.
-/

namespace Pug.Script

/-- The operators before an operand. -/
def startsOperand : LexemeKind → Bool
  | .mark m => ["!", "~", "+", "-"].contains m
  | .word w => ["typeof", "void", "delete"].contains w
  | _ => false

/-- The operators that step a value. -/
def stepsValue : LexemeKind → Bool
  | .mark m => m == "++" || m == "--"
  | _ => false

/-- The operators between two operands that are marks. -/
def joiningMarks : List String :=
  ["+", "-", "*", "/", "%", "**", "<<", ">>", ">>>", "<", "<=", ">", ">=", "==", "!=", "===",
    "!==", "&", "|", "^", "&&", "||", "??"]

/-- The operators between two operands. -/
def joinsOperands : LexemeKind → Bool
  | .mark m => joiningMarks.contains m
  | .word w => w == "in" || w == "instanceof"
  | _ => false

/-- The operators that assign the result of an operation. -/
def assignsResult : LexemeKind → Bool
  | .mark m =>
    ["+=", "-=", "*=", "/=", "%=", "**=", "<<=", ">>=", ">>>=", "&=", "|=", "^=", "&&=", "||=",
      "??="].contains m
  | _ => false

/-- The marks and words that go on with an expression and start no statement. -/
def onlyContinues (k : LexemeKind) : Bool :=
  match k with
  | .mark m =>
    [".", "?.", "=", ",", "?"].contains m ||
      (joinsOperands k && not (["+", "-", "<", "/"].contains m))
  | _ => joinsOperands k

/-- The marks that go on with an expression or start a statement. -/
def mayContinue : LexemeKind → Bool
  | .mark m => ["(", "[", backquote, "+", "-", "++", "--", "<", "/"].contains m
  | _ => false

/-- The words that start an expression and are no names there. -/
def expressionKeywords : List String :=
  ["function", "new", "typeof", "void", "delete", "class", "super", "import", "await", "yield"]

/-- The words that start a statement and are no names there, but may be names in an expression. -/
def statementKeywords : List String :=
  ["var", "const", "if", "switch", "for", "while", "do", "try", "with", "break", "continue",
    "debugger", "return", "throw"]

/-- The words that start statements which are not parsed. -/
def otherStatementKeywords : List String :=
  ["switch", "do", "try", "with", "class", "import", "debugger"]

/-- A word alone as an expression. -/
def wordPhrase? (w : String) : Option Phrase :=
  match w with
  | "this" => some (.value .this)
  | "true" => some (.value .true)
  | "false" => some (.value .false)
  | "null" => some (.value .null)
  | "undefined" => some (.place .undefined)
  | _ => if expressionKeywords.contains w then none else some (.place .identifier)

/-- The word is a name where an expression is expected. -/
def isName (w : String) : Bool :=
  wordPhrase? w == some (.place .identifier)

/-- The word is a name at the front of a statement. -/
def isLeadingName (w : String) : Bool :=
  isName w && !statementKeywords.contains w

/-- A `let` declares a variable if this follows. -/
def startsVariable : LexemeKind → Bool
  | .word w => w != "in" && w != "instanceof"
  | .mark m => m == "[" || m == "\x7b"
  | _ => false

/-- The head of a loop starts with a declaration. An `of` behind a `let` which is a name stands
before the collection. -/
def startsDeclaration (first second : LexemeKind) : Bool :=
  first = .word "var" || first = .word "const" ||
    (first = .word "let" && startsVariable second && second ≠ .word "of")

end Pug.Script
