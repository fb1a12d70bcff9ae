import Pug.Expression.Checked
import Pug.Script.Grammar

/-!
# Expressions that are JavaScript

The check behind this parser is the grammar of JavaScript. A statement is parsed as it is; an
expression is parsed between parentheses, so that braces at its front open an object. A comment
counts as the first thing there if it stands before all else.
-/

namespace Pug

namespace Script

/-- More steps than the parsing of a text takes. -/
def enoughSteps (ls : List Lexeme) : Nat :=
  16 * (ls.length + 1)

/-- The node for a text whose lexemes these are: a comment if one stands first. -/
def firstNode (ls : List Lexeme) (node : Option Node) : Option Node :=
  if ls.head?.any (fun l ↦ !l.before.all Filler.isBlank) then some (.ofKind .comment) else node

/-- The first of the statements of a text. -/
def checkStatement (text : List Char) : Option Node := do
  let ls ← lexemes? text
  let (nodes, _) ← statements (enoughSteps ls) ⟨ls, 0⟩
  firstNode ls nodes.head?

/-- The expression of a text. It is parsed with the parenthesis that closes it, which a comment at
the end of the text would swallow. -/
def checkExpression (text : List Char) : Option Node := do
  let ls ← lexemes? (text ++ [')'])
  let (node, progress) ← expressions (enoughSteps ls) false ⟨ls, 0⟩
  match progress.ahead.map Lexeme.kind with
  | [.mark ")", .finish] => firstNode ls (some node)
  | _ => none

/-- What is told about a text in a mode, if it is JavaScript. -/
def check (mode : Mode) (text : List Char) : Option Node :=
  match mode with
  | .statement _ => checkStatement text
  | _ => checkExpression text

/-- A node as JSON. -/
def Node.json (n : Node) : List Char :=
  "\x7b\"kind\":\"".toList ++ n.kind.name.toList ++ "\",\"shape\":\"".toList ++
    n.shape.name.toList ++ "\"\x7d".toList

end Script

/-- A shape as JSON. -/
def Shape.json (s : Shape) : List Char :=
  "\x7b\"shape\":\"".toList ++ s.name.toList ++ "\"\x7d".toList

/-- The parser that accepts JavaScript. -/
def ExpressionParser.script : ExpressionParser Unit Script.Node :=
  checked Script.Node.shape Script.check

end Pug
