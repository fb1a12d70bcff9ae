import Pug.Text.Blank

/-!
# Lines and columns

Tokens and errors carry byte offsets. A position is what a reader of the template sees instead:
the number of the line, the column in characters, both from one, and the line itself. A line ends
at `\n`, at `\r\n` or at a lone `\r`.
-/

namespace Pug

open Text

/-- Where a byte offset lies in a template. -/
structure Position where
  /-- The line, counted from 1. -/
  line : Nat
  /-- The column, counted in characters from 1. -/
  column : Nat
  /-- The line without its line break. -/
  text : List Char
deriving DecidableEq, Repr

namespace Position

/-- Walks over the characters that lie wholly within the next `n` bytes; `onLine` is the source
from the start of the current line on. -/
def walk (line column : Nat) (onLine : List Char) : List Char → Nat → Position
  | [], _ => ⟨line, column, firstLine onLine⟩
  | c :: rest, n =>
    if n < c.utf8Size then ⟨line, column, firstLine onLine⟩
    else if endsLine c rest then walk (line + 1) 1 rest rest (n - c.utf8Size)
    else walk line (column + 1) onLine rest (n - c.utf8Size)

/-- The position of a byte offset. An offset inside a character counts as the character's start,
and one behind the end as the end. -/
def ofOffset (source : List Char) (offset : Nat) : Position :=
  walk 1 1 source source offset

end Position

end Pug
