/-!
# The expression parser a template is read with

A template embeds expressions of another language. Reading a template needs to know of an
expression only how far it goes and whether it looks like a name or a call. An *expression parser*
answers both: given the whole rest of the template and the mode, it says how many bytes the
expression takes.

The parser may keep a state of its own, so that a parser that records its calls or answers by a
script is an expression parser like any other.
-/

namespace Pug

/-- How far an expression may extend. -/
inductive Mode where
  /-- One expression, up to an unbalanced closing bracket, the end of the line, or a `:` outside
  brackets that belongs to no conditional. -/
  | inline
  /-- As `inline`, but a `,` or spacing that no operator bridges ends it too, and lines may break
  inside brackets. -/
  | attributeValue
  /-- One statement, up to a `;` or the end of the line. Inside brackets a line may break where
  `lineBreak` stands. -/
  | statement (lineBreak : List Char)
deriving DecidableEq, Repr

/-- What an expression looks like. -/
inductive Shape where
  /-- A name alone. -/
  | identifier
  /-- A name and its arguments. -/
  | callOnIdentifier
  /-- Anything else. -/
  | other
deriving DecidableEq, Repr

/-- The word for a shape. -/
def Shape.name : Shape → String
  | .identifier => "Identifier"
  | .callOnIdentifier => "CallOnIdentifier"
  | .other => "Other"

/-- What an expression parser answers; `E` is what it tells about an expression it accepts. -/
inductive Answer (E : Type) where
  /-- No expression starts here. -/
  | declined
  /-- An expression starts here and takes `bytes` bytes. -/
  | accepted (handle : E) (bytes : Nat)
  /-- The parser broke down. -/
  | brokeDown
deriving DecidableEq, Repr

/-- A parser of embedded expressions with states `σ` and handles `E`. -/
structure ExpressionParser (σ E : Type) where
  /-- Reads an expression at the start of the rest of the template. -/
  parse : Mode → List Char → σ → Answer E × σ
  /-- What an accepted expression looks like. -/
  shape : E → Shape

end Pug
