import Pug.Grammar.Code

/-!
# Lines

The first characters of a line tell its form: a tag, a directive, text, output, code, a call, a
comment, or a line passed through as it is.
-/

namespace Pug

open Text Reader

variable {σ E : Type}

namespace Line

/-- The form of a line. -/
inductive Form where
  /-- A tag that starts with a class, an id or attributes. -/
  | shorthand
  | comment
  /-- A directive or a tag. -/
  | word
  /-- A lone `.`. -/
  | dot
  /-- Text behind a `|`. -/
  | piped
  /-- Output, behind a mark of so many characters. -/
  | output (kind : Token.Kind) (mark : Nat)
  | code
  | call
  /-- A line that starts with `<`. -/
  | raw
  | unknown
deriving DecidableEq, Repr

/-- Tells the form of a line from what stands at its front. -/
def Form.ofRest : List Char → Form
  | [] => .unknown
  | c :: rest =>
    if c.isAlpha then .word
    else
      match c with
      | '.' => if Name.startsName rest then .shorthand else .dot
      | '#' => if Name.startsName rest then .shorthand else .unknown
      | '(' => .shorthand
      | '&' => if Tag.spreadOpener.toList.isPrefixOf (c :: rest) then .shorthand else .unknown
      | '/' => if rest.head? = some '/' then .comment else .unknown
      | '|' => .piped
      | '=' => .output .outputEscaped 1
      | '!' => if rest.head? = some '=' then .output .outputUnescaped 2 else .unknown
      | '-' => .code
      | '+' => .call
      | '<' => .raw
      | _ => .unknown

/-- A directive, or a tag with a name. -/
def word (g : Setup σ E) : Reader σ (Token E × LineTail) := do
  let start ← here
  match Keyword.atFront? start.rest with
  | some (keyword, name) =>
    moveTo (start.past name)
    Directive.line g keyword start
  | none =>
    let name := Name.tag start.rest
    moveTo (start.past name)
    Tag.line g start name

/-- A lone `.`: the lines below are text. -/
def dot : Reader σ (Token E × LineTail) :=
  return (← Tag.closingMark .lineDot false, .verbatim true)

/-- Text behind a `|` and spacing. -/
def piped (g : Setup σ E) : Reader σ (Token E × LineTail) := do
  bump 1
  skipSpacing
  return (← TextRun.onLine g, .plain)

/-- Output on a line of its own. -/
def output (g : Setup σ E) (kind : Token.Kind) (mark : Nat) : Reader σ (Token E × LineTail) := do
  let t ← Tag.output g kind mark .output
  endRun false
  return (t, .plain)

/-- A line that is passed through. -/
def raw : Reader σ (Token E × LineTail) := do
  let c ← here
  skipLine
  return (.ofText .lineRaw c (trimEnd c.line), .plain)

/-- A comment. With a hyphen it stays in the template, and the lines below it are no more than
text; without one it is a run of text, and so are the lines below it. -/
def comment (g : Setup σ E) : Reader σ (Token E × LineTail) := do
  let start ← here
  if ← eat "//-" then
    let t ← tokenFrom start .lineComment
    let c ← here
    let body := trimEnd c.line
    skipLine
    return (t.withChildren (if body.isEmpty then [] else [.ofText .plainText c body]),
      .verbatim false)
  else
    bump 2
    let t ← tokenFrom start .lineCommentHtml
    let pieces ← TextRun.pieces g (Tag.inlineTag g g.maxDepth) false
    return (t.withChildren pieces, .verbatim true)

/-- The arguments of a call, in parentheses, if there are any. -/
def arguments (g : Setup σ E) : Reader σ (List (Token E)) := do
  let problem := Problem.invalidExpression .mixinCall
  if ← eat "(" then
    skipSpacing
    if ← eat ")" then
      return []
    else
      let e ← expression g .inline problem
      skipSpacing
      unless ← eat ")" do
        failAt (← here) problem
      return [(Token.leaf .mixinArgs e.text e.span).withExpr e]
  else
    return []

/-- A call: the name, the arguments, and then what may stand behind the name of a tag. -/
def call (g : Setup σ E) : Reader σ (Token E × LineTail) := do
  bump 1
  let c ← here
  let name := Name.tag c.rest
  if name.isEmpty then failAt c .unexpectedCharacter
  moveTo (c.past name)
  let args ← arguments g
  let (ts, tail) ← Tag.lineParts g
  return ((Token.ofText .mixinCall c name).withChildren (args ++ ts), tail)

/-- What a line at `level` says. -/
def payload (g : Setup σ E) (level : Nat) : Reader σ (Token E × LineTail) := do
  let start ← here
  match Form.ofRest start.rest with
  | .shorthand => Tag.line g start []
  | .comment => comment g
  | .word => word g
  | .dot => dot
  | .piped => piped g
  | .output kind mark => output g kind mark
  | .code => Code.line g level
  | .call => call g
  | .raw => raw
  | .unknown => failAt start .unknownLineType

/-- A line at `level`, up to its end or to the line that follows it. -/
def markup (g : Setup σ E) (level : Nat) : Reader σ (Token E × LineTail) := do
  let start ← here
  let (t, tail) ← payload g level
  return (← lineFrom start t, tail)

/-- A line of text as it is. -/
def bareText : Reader σ (Token E) := do
  let start ← here
  moveTo start.lineEnd
  let run ← tokenFrom start .linePlainText
  return run.withChildren [← tokenFrom start .plainText]

/-- A line below one that makes its lines text. -/
def verbatim (g : Setup σ E) (interpolate : Bool) : Reader σ (Token E) := do
  let start ← here
  let t ← if interpolate then TextRun.onLine g else bareText
  lineFrom start t

end Line

end Pug
