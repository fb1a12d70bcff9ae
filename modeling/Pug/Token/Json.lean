import Pug.Token.Basic
import Pug.Text.Quoted

/-!
# Trees as JSON

A token is an object with its kind, text, span, expression and children, in this order. The
expression is left out if there is none, and so are the children if there are none. What the
expression parser told about an expression is written by a function of its own.
-/

namespace Pug.Token

open Text

variable {E : Type}

/-- A span as JSON. -/
def jsonSpan (s : Span) : List Char :=
  "\x7b\"start\":".toList ++ Nat.toDigits 10 s.start ++ ",\"end\":".toList ++
    Nat.toDigits 10 s.stop ++ ['\x7d']

/-- An expression as JSON. -/
def jsonExpr (handle : E → List Char) (e : Embedded E) : List Char :=
  "\x7b\"handle\":".toList ++ handle e.handle ++ ",\"text\":".toList ++
    jsonQuoted e.text.toList ++ ",\"span\":".toList ++ jsonSpan e.span ++ ['\x7d']

/-- The members of a token before its children, and the brace that opens it. -/
def jsonHead (handle : E → List Char) (t : Token E) : List Char :=
  "\x7b\"kind\":".toList ++ jsonQuoted t.kind.name.toList ++ ",\"text\":".toList ++
    jsonQuoted t.text.toList ++ ",\"span\":".toList ++ jsonSpan t.span ++
    (match t.expr with
      | none => []
      | some e => ",\"expr\":".toList ++ jsonExpr handle e)

mutual

/-- A tree as JSON. -/
def jsonChars (handle : E → List Char) : Token E → List Char
  | ⟨kind, text, span, expr, children⟩ =>
    jsonHead handle ⟨kind, text, span, expr, children⟩ ++
      (match children with
        | [] => []
        | t :: ts =>
          ",\"children\":[".toList ++ jsonChars handle t ++ jsonRest handle ts ++ [']']) ++
      ['\x7d']

/-- The elements of an array behind the first, with the comma before each. -/
def jsonRest (handle : E → List Char) : List (Token E) → List Char
  | [] => []
  | t :: ts => ',' :: (jsonChars handle t ++ jsonRest handle ts)

end

/-- The tree as JSON text. -/
def json (handle : E → List Char) (t : Token E) : String :=
  String.ofList (jsonChars handle t)

end Pug.Token
