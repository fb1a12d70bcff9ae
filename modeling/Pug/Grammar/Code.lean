import Pug.Grammar.Directive

/-!
# Code

Behind a `-` stands a statement, or a directive other than a declaration. A lone `-` opens a
block: the lines below it, if the first of them is indented by exactly one level more. Every line
of the block repeats the line break and the indentation of the first, and holds one statement or
more.
-/

namespace Pug.Code

open Text Reader

variable {σ E : Type}

/-- One statement and the `;` behind it; inside brackets its lines may break at `lineBreak`. -/
def statement (g : Setup σ E) (lineBreak : List Char) : Reader σ (Token E) := do
  let start ← here
  let e ← expression g (.statement lineBreak) (.invalidExpression .code)
  skipSpacing
  let _ ← eat ";"
  let t ← tokenFrom (← placeAt start e.span.start) .codeLine
  return t.withExpr e

/-- The next statement of a block: on the same line, or on a line that starts with `lineBreak` and
is not blank. -/
def item (g : Setup σ E) (lineBreak : List Char) : Reader σ (Item (Token E) Unit) := do
  let c ← here
  let inside := c.past lineBreak
  if !c.atLineEnd then
    next
  else if lineBreak.isPrefixOf c.rest && !inside.atBlankLine then
    moveTo inside
    next
  else
    return .last [] ()
where
  /-- A statement and the spacing behind it. -/
  next : Reader σ (Item (Token E) Unit) := do
    let t ← statement g lineBreak
    skipSpacing
    return .one t

/-- The line break and the indentation of a block's lines, if the cursor is at the end of a line
at `level` and the next line opens a block. -/
def blockBreak? (level : Nat) : Reader σ (Option (List Char)) := do
  let s ← get
  let next := s.cursor.nextLine
  let run := next.rest.takeWhile isSpacing
  let content := next.past run
  if s.cursor.lineBreak.isEmpty || content.atLineEnd then
    return none
  else
    let (indent, unit) := Indent.level s.unit run
    set { s with unit := unit }
    match indent with
    | .ok n => return if n = level + 1 then some (s.cursor.lineBreak ++ run) else none
    | .error _ => return none

/-- The block below a lone `-`, whose token is `t` and whose line has been read to its end. -/
def block (g : Setup σ E) (level : Nat) (t : Token E) : Reader σ (Token E) := do
  match ← blockBreak? level with
  | none => return t
  | some lineBreak =>
    let (statements, _) ← gather (item g lineBreak) g.rounds
    return t.withChildren statements

/-- A line that starts with `-`, at `level`. -/
def line (g : Setup σ E) (level : Nat) : Reader σ (Token E × LineTail) := do
  let start ← here
  bump 1
  let behind ← here
  if behind.atBlankLine then
    let mark ← tokenFrom start .codeBlock
    moveTo behind.lineEnd
    return (← block g level mark, .plain)
  else
    let c := behind.skipSpacing
    match (Keyword.atFront? c.rest).filter (·.1.isControl) with
    | some (keyword, word) =>
      moveTo (c.past word)
      Directive.line g keyword c
    | none =>
      moveTo c
      return (← statement g [], .plain)

end Pug.Code
