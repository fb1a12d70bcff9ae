import Pug.Grammar.Attribute
import Pug.Grammar.Text

/-!
# Tags

Behind the name of a tag come its classes, ids and attributes in any order, and then one ending:
text, output, a closing `/`, a `.` that makes the lines below the tag text, or a `:` behind which
another line follows. An inline tag `#[ … ]` is a tag inside a run of text; it ends at its `]` and
has neither of the last two endings.

Inline tags may stand in the text of inline tags. The reader of inline tags takes the number of
levels that may still be opened, which is what it recurses on.
-/

namespace Pug

open Text Reader

variable {σ E : Type}

/-- What a line asks of the lines below it. -/
inductive LineTail where
  /-- Nothing: they are lines of the template. -/
  | plain
  /-- Another line follows on the same line of the template. -/
  | follow
  /-- They are text, with output and inline tags in it or without. -/
  | verbatim (interpolate : Bool)
deriving DecidableEq, Repr

namespace Tag

/-- What `&attributes` is opened by. -/
def spreadOpener : String := "&attributes("

/-- What stands behind the name of a tag. -/
inductive Part where
  /-- The end of the run. -/
  | finished
  /-- A class or an id. -/
  | note (kind : Token.Kind)
  /-- A `.` that makes the lines below the tag text. -/
  | dotBlock
  | attributes
  | spread
  | selfClose
  /-- Output, behind a mark of so many characters. -/
  | output (kind : Token.Kind) (mark : Nat)
  | follow
  | text
  /-- Nothing that belongs to a tag. -/
  | unexpected
deriving DecidableEq, Repr

/-- Tells what stands at the front of the rest of a tag. -/
def Part.ofRest (interpolated : Bool) : List Char → Part
  | [] => .finished
  | c :: rest =>
    if isBreak c || (interpolated && c == ']') then .finished
    else if isSpacing c then .text
    else
      match c with
      | '.' =>
        if Name.startsName rest then .note .tagClassNote
        else if interpolated then .unexpected
        else .dotBlock
      | '#' => if Name.startsName rest then .note .tagIdNote else .unexpected
      | '(' => .attributes
      | '&' => if spreadOpener.toList.isPrefixOf (c :: rest) then .spread else .unexpected
      | '/' => .selfClose
      | '=' => .output .outputEscaped 1
      | '!' => if rest.head? = some '=' then .output .outputUnescaped 2 else .unexpected
      | ':' => if interpolated then .unexpected else .follow
      | _ => .unexpected

/-- A class or id, behind its mark. -/
def note (kind : Token.Kind) : Reader σ (Token E) := do
  bump 1
  let c ← here
  let name := Name.plain c.rest
  moveTo (c.past name)
  return .ofText kind c name

/-- Spread attributes. -/
def spread (g : Setup σ E) : Reader σ (Token E) := do
  let problem := Problem.invalidExpression .spread
  let start ← here
  bump spreadOpener.length
  let e ← expression g .inline problem
  skipSpacing
  unless ← eat ")" do
    failAt (← here) problem
  return (← tokenFrom start .tagAttributes).withExpr e

/-- Output behind a mark, without what may follow it. -/
def output (g : Setup σ E) (kind : Token.Kind) (mark : Nat) (site : Site) :
    Reader σ (Token E) := do
  let start ← here
  bump mark
  let e ← expression g .inline (.invalidExpression site)
  return (← tokenFrom start kind).withExpr e

/-- A closing mark of one character, and nothing behind it. -/
def closingMark (kind : Token.Kind) (interpolated : Bool) : Reader σ (Token E) := do
  let start ← here
  bump 1
  let t ← tokenFrom start kind
  endRun interpolated
  return t

/-- The text of a tag, behind the space or tab before it: none if only spacing is left on the
line, or if the run ends at once. -/
def text (g : Setup σ E) (inlineTag : Reader σ (Token E)) (interpolated : Bool) :
    Reader σ (List (Token E)) := do
  bump 1
  let start ← here
  if !interpolated && start.atBlankLine then
    skipLine
    return []
  else
    let run ← TextRun.run g inlineTag interpolated
    return if run.children.isEmpty then [] else [run]

/-- One part of a tag. -/
def part (g : Setup σ E) (inlineTag : Reader σ (Token E)) (interpolated : Bool) :
    Reader σ (Item (Token E) LineTail) := do
  let start ← here
  match Part.ofRest interpolated start.rest with
  | .finished => return .last [] .plain
  | .note kind => return .one (← note kind)
  | .dotBlock => return .last [← closingMark .tagDotBlock false] (.verbatim true)
  | .attributes => return .one (← Attribute.list g)
  | .spread => return .one (← spread g)
  | .selfClose => return .last [← closingMark .tagSelfClose interpolated] .plain
  | .output kind mark =>
    let t ← output g kind mark .tagOutput
    endRun interpolated
    return .last [t] .plain
  | .follow =>
    bump 1
    return .last [] .follow
  | .text => return .last (← text g inlineTag interpolated) .plain
  | .unexpected => failAt start .unexpectedCharacter

/-- The parts behind the name of a tag, up to the end of the run. -/
def parts (g : Setup σ E) (inlineTag : Reader σ (Token E)) (interpolated : Bool) :
    Reader σ (List (Token E) × LineTail) :=
  gather (part g inlineTag interpolated) g.rounds

/-- The tag from a place to the cursor, in its wrapper. -/
def wrap (start : Cursor) (tag : Token E) : Reader σ (Token E) :=
  return (← tokenFrom start .lineData).withChildren [tag]

/-- A tag without a name must start with a class, an id or attributes. -/
def isShorthand (parts : List (Token E)) : Bool :=
  parts.head?.any (fun t ↦
    match t.kind with
    | .tagClassNote | .tagIdNote | .tagAttrList | .tagAttributes => true
    | _ => false)

/-- An inline tag whose text is read with another reader of inline tags. -/
def inlineWith (g : Setup σ E) (inlineTag : Reader σ (Token E)) : Reader σ (Token E) := do
  let start ← here
  bump 2
  let nameStart ← here
  let name := Name.tag nameStart.rest
  moveTo (nameStart.past name)
  let (ts, _) ← parts g inlineTag true
  if name.isEmpty && !isShorthand ts then failAt start .invalidTagInterpolation
  unless ← eat "]" do
    failAt (← here) .invalidTagInterpolation
  wrap start ((Token.ofText .tag nameStart name).withChildren ts)

/-- An inline tag inside which `levels - 1` more may be nested. -/
def inlineTag (g : Setup σ E) : Nat → Reader σ (Token E)
  | 0 => do
    failWithHelp (← here) .indentationTooDeep
      ("tag interpolations nest deeper than " ++ toString g.maxDepth ++ " levels")
  | levels + 1 => inlineWith g (inlineTag g levels)

/-- The parts of a tag that starts a line. -/
def lineParts (g : Setup σ E) : Reader σ (List (Token E) × LineTail) :=
  parts g (inlineTag g g.maxDepth) false

/-- A line with the tag whose name stands at `start` and has just been read. -/
def line (g : Setup σ E) (start : Cursor) (name : List Char) :
    Reader σ (Token E × LineTail) := do
  let (ts, tail) ← lineParts g
  return (← wrap start ((Token.ofText .tag start name).withChildren ts), tail)

end Tag

/-- A run of text on a line of its own. -/
def TextRun.onLine (g : Setup σ E) : Reader σ (Token E) :=
  TextRun.run g (Tag.inlineTag g g.maxDepth) false

end Pug
