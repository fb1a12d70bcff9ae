import Pug.Diagnostic
import Pug.Expression.Basic
import Pug.Layout.Indent
import Pug.Source.Cursor
import Pug.Token.Basic

/-!
# Readers

A reader walks over a template. It keeps the cursor, the unit of indentation once one is known,
and the state of the expression parser, and it fails with an error, or because the expression
parser broke down. A failure keeps the state, so what the expression parser was asked can be told
even then.

Whatever occurs in rows (lines, attributes, pieces of text) is read by `gather`, which reads one
item after another until one of them is the last. Each item but the last moves the cursor, so a
row has no more items than the template has characters, and `gather` is given that many rounds.
-/

namespace Pug

/-- Why reading stopped. -/
inductive Failure where
  /-- The template is wrong. -/
  | error (e : LexError)
  /-- The expression parser broke down. -/
  | brokeDown
  /-- A row of items went on without moving the cursor. -/
  | stalled
  /-- A place inside a character, a text that does not stand in the template, or a line that was
  never added was asked for. -/
  | outOfRange
deriving DecidableEq, Repr

/-- What a reader keeps. -/
structure ReadState (σ : Type) where
  cursor : Cursor
  /-- The unit of indentation, once an indented line has been read. -/
  unit : Option IndentUnit
  /-- The state of the expression parser. -/
  parser : σ

/-- A reader of a template, with an expression parser whose states are `σ`. -/
abbrev Reader (σ : Type) := EStateM Failure (ReadState σ)

/-- What stays the same while a template is read. -/
structure Setup (σ E : Type) where
  parser : ExpressionParser σ E
  /-- The number of levels, of lines that follow each other on one line, and of nested inline tags
  that are accepted. -/
  maxDepth : Nat
  /-- More rounds than the template has characters. -/
  rounds : Nat

/-- One item of a row, or the end of the row. -/
inductive Item (α β : Type) where
  /-- An item that others may follow. -/
  | one (a : α)
  /-- The last items and what ends the row. -/
  | last (as : List α) (b : β)

namespace Reader

variable {σ E α β : Type}

/-- Where the cursor is. -/
def here : Reader σ Cursor :=
  return (← get).cursor

/-- Moves the cursor. -/
def moveTo (c : Cursor) : Reader σ Unit :=
  modify (fun s ↦ { s with cursor := c })

/-- Fails with an error at a place. -/
def failAt (c : Cursor) (problem : Problem) : Reader σ α :=
  throw (.error ⟨problem, c.offset, none⟩)

/-- Fails with an error at a place, and a help. -/
def failWithHelp (c : Cursor) (problem : Problem) (help : String) : Reader σ α :=
  throw (.error ⟨problem, c.offset, some help⟩)

/-- Moves over `word` if it stands at the cursor, and tells whether it did. -/
def eat (word : String) : Reader σ Bool := do
  let c ← here
  if c.startsWith word then
    moveTo (c.past word.toList)
    return true
  else
    return false

/-- Moves over `n` bytes, which must be whole characters of the template. -/
def bump (n : Nat) : Reader σ Unit := do
  let c ← here
  let text := Text.firstBytes n c.rest
  if Text.byteLength text = n then moveTo (c.past text) else throw .outOfRange

/-- The place at a byte offset behind another place. -/
def placeAt (c : Cursor) (offset : Nat) : Reader σ Cursor :=
  let d := c.skipTo offset
  if d.offset = offset then return d else throw .outOfRange

/-- The text from one place to a later one. -/
def textBetween (c d : Cursor) : Reader σ (List Char) :=
  let text := c.upTo d
  if c.offset + Text.byteLength text = d.offset then return text else throw .outOfRange

/-- Moves over spaces and tabs. -/
def skipSpacing : Reader σ Unit := do
  moveTo (← here).skipSpacing

/-- Moves over spaces, tabs and line breaks. -/
def skipSeparators : Reader σ Unit := do
  moveTo (← here).skipSeparators

/-- Moves to the end of the line. -/
def skipLine : Reader σ Unit := do
  moveTo (← here).lineEnd

/-- Reads items until one is the last, in at most so many rounds. -/
def gather (item : Reader σ (Item α β)) : Nat → Reader σ (List α × β)
  | 0 => throw .stalled
  | n + 1 => do
    match ← item with
    | .last as b => return (as, b)
    | .one a =>
      let (as, b) ← gather item n
      return (a :: as, b)

end Reader

/-- The place is the end of a run: the end of the line or, inside an inline tag, its `]`. -/
def Cursor.atRunEnd (c : Cursor) (interpolated : Bool) : Bool :=
  c.atLineEnd || (interpolated && c.rest.head? == some ']')

namespace Token

variable {E : Type}

/-- The token of a text that stands at a place. -/
def ofText (kind : Kind) (c : Cursor) (text : List Char) : Token E :=
  leaf kind (String.ofList text) ⟨c.offset, c.offset + Text.byteLength text⟩

end Token

namespace Reader

variable {σ E : Type}

/-- The token of the text from a place to the cursor. -/
def tokenFrom (c : Cursor) (kind : Token.Kind) : Reader σ (Token E) := do
  return .ofText kind c (← textBetween c (← here))

/-- The line of the template from a place to the cursor, without the blanks at its end, with what
it says. -/
def lineFrom (c : Cursor) (payload : Token E) : Reader σ (Token E) := do
  let text ← textBetween c (← here)
  return (Token.ofText .line c (Text.trimEnd text)).withChildren [payload]

/-- Fails unless only spacing is left up to the end of the run. -/
def endRun (interpolated : Bool) : Reader σ Unit := do
  skipSpacing
  let c ← here
  unless c.atRunEnd interpolated do
    failAt c .dataAfterEndlineTag

/-- The expression of a text that stands at a place, without the blanks around it. -/
def embed (c : Cursor) (raw : List Char) (handle : E) : Embedded E :=
  let start := c.past (raw.takeWhile Text.isBlank)
  let text := Text.trim raw
  ⟨handle, String.ofList text, ⟨start.offset, start.offset + Text.byteLength text⟩⟩

/-- Asks the expression parser about the rest of the template. -/
def ask (g : Setup σ E) (mode : Mode) : Reader σ (Answer E) := do
  let s ← get
  let (answer, parser) := g.parser.parse mode s.cursor.rest s.parser
  set { s with parser := parser }
  return answer

/-- Reads an expression and moves over it. The parser must take at least one byte, no more than
are left, and only whole characters; else, as when it declines, the problem is reported where the
expression was to start. -/
def expression (g : Setup σ E) (mode : Mode) (problem : Problem) : Reader σ (Embedded E) := do
  let start ← here
  match ← ask g mode with
  | .brokeDown => throw .brokeDown
  | .declined => failAt start problem
  | .accepted handle bytes =>
    let raw := Text.firstBytes bytes start.rest
    if bytes = 0 || Text.byteLength raw != bytes then failAt start problem
    moveTo (start.past raw)
    return embed start raw handle

end Reader

end Pug
