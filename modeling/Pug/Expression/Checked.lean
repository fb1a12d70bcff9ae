import Pug.Expression.Extent

/-!
# Checked expressions

A checked parser finds the extent of an expression by the scan and has a *check* judge the text
without the blanks around it. The check may refuse the text; it cannot change the extent.
-/

namespace Pug.ExpressionParser

open Text

variable {E : Type}

/-- What a checked parser answers. -/
def checkedAnswer (check : Mode → List Char → Option E) (mode : Mode) (rest : List Char) :
    Answer E :=
  match extent mode rest with
  | .upTo text =>
    match check mode (trim text) with
    | some handle => .accepted handle (byteLength text)
    | none => .declined
  | .absent => .declined
  | .torn => .brokeDown

/-- The parser that accepts what a check accepts. -/
def checked (shape : E → Shape) (check : Mode → List Char → Option E) :
    ExpressionParser Unit E where
  parse mode rest _ := (checkedAnswer check mode rest, ())
  shape := shape

end Pug.ExpressionParser
