import Pug.Expression.Checked

/-!
# Loose expressions

The loose parser checks no grammar. It accepts whatever the scan finds the extent of, and tells
from the text alone whether that is a name, a name with arguments, or something else.
-/

namespace Pug

open Text

namespace Shape

/-- The characters of a name; a hyphen may join words, as in the names of mixins. -/
def isNameChar (c : Char) : Bool :=
  c.isAlphanum || c == '_' || c == '$' || c == '-'

/-- What follows the parenthesis that closes an open one, behind `depth` more that are to close
first. Parentheses in strings do not count; a backslash in a string hides what follows it. -/
def afterGroup : Option Char → Nat → List Char → Option (List Char)
  | _, _, [] => none
  | some quote, depth, c :: rest =>
    if c == '\\' then
      match rest with
      | [] => none
      | _ :: rest => afterGroup (some quote) depth rest
    else afterGroup (if c == quote then none else some quote) depth rest
  | none, depth, c :: rest =>
    if Extent.isQuote c then afterGroup (some c) depth rest
    else if c == '(' then afterGroup none (depth + 1) rest
    else if c == ')' then
      match depth with
      | 0 => some rest
      | depth + 1 => afterGroup none depth rest
    else afterGroup none depth rest

/-- The shape of an expression's text: a name, or a name and one group of parentheses up to the
end of the text. -/
def ofText (text : List Char) : Shape :=
  match text with
  | [] => .other
  | c :: _ =>
    if !isNameChar c || c.isDigit || c == '-' then .other
    else
      match trimStart (text.dropWhile isNameChar) with
      | [] => .identifier
      | '(' :: rest => if afterGroup none 0 rest == some [] then .callOnIdentifier else .other
      | _ => .other

end Shape

namespace ExpressionParser

/-- The loose parser: any text with balanced brackets and closed strings is an expression, and its
shape is all that is told of it. -/
def loose : ExpressionParser Unit Shape :=
  checked id (fun _ text ↦ some (Shape.ofText text))

end ExpressionParser

end Pug
