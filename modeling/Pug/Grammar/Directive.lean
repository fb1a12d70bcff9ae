import Pug.Grammar.Tag

/-!
# Directives

A line that starts with a reserved word is a directive: a condition, a loop, a case, the
definition of a mixin, an include or a doctype. The word is reserved only before spacing, a `:` or
the end of the line; before anything else it is the name of a tag.
-/

namespace Pug

open Text Reader

variable {σ E : Type}

/-- The reserved words. -/
inductive Keyword where
  | inclusion
  | mixin
  | doctype
  | default
  | otherwise
  | each
  /-- A word that a condition stands behind. -/
  | condition (kind : Token.Kind)
deriving DecidableEq, Repr

namespace Keyword

/-- The keyword that a word is. -/
def ofWord? (word : List Char) : Option Keyword :=
  match String.ofList word with
  | "include" => some inclusion
  | "mixin" => some mixin
  | "doctype" => some doctype
  | "case" => some (condition .controlCase)
  | "when" => some (condition .controlWhen)
  | "default" => some default
  | "if" => some (condition .controlIf)
  | "unless" => some (condition .controlUnless)
  | "elseif" => some (condition .controlElseIf)
  | "else" => some otherwise
  | "while" => some (condition .controlWhile)
  | "each" => some each
  | "for" => some each
  | _ => none

/-- The keywords that may also stand behind a `-`. -/
def isControl : Keyword → Bool
  | inclusion | mixin | doctype => false
  | _ => true

/-- What must follow a word for it to be a keyword. -/
def endsKeyword (cs : List Char) : Bool :=
  cs.head?.all (fun c ↦ isSpacing c || isBreak c || c == ':')

/-- The keyword at the front of a line, with its word. -/
def atFront? (cs : List Char) : Option (Keyword × List Char) :=
  let word := Name.tag cs
  if endsKeyword (cs.drop word.length) then (ofWord? word).map (·, word) else none

end Keyword

namespace Directive

/-- What may follow a directive: a `:` and another line, or nothing. -/
def tail : Reader σ LineTail := do
  skipSpacing
  if ← eat ":" then
    return .follow
  else
    endRun false
    return .plain

/-- The text up to the end of the line, behind spacing and without the blanks at its end. -/
def argument : Reader σ (Cursor × List Char) := do
  skipSpacing
  let c ← here
  skipLine
  return (c, trimEnd c.line)

/-- A directive whose word stands before the cursor, with its condition. -/
def condition (g : Setup σ E) (word : Token E) : Reader σ (Token E × LineTail) := do
  let e ← expression g .inline (.invalidExpression .condition)
  return (word.withExpr e, ← tail)

/-- An `else`, or an `else if` with its condition. -/
def otherwise (g : Setup σ E) (start : Cursor) : Reader σ (Token E × LineTail) := do
  let word ← tokenFrom start .controlElse
  let c := (← here).skipSpacing
  match Keyword.atFront? c.rest with
  | some (.condition .controlIf, name) =>
    moveTo (c.past name)
    condition g (← tokenFrom start .controlElseIf)
  | _ => return (word, ← tail)

/-- A variable of a loop. -/
def loopVariable : Reader σ (Token E) := do
  let c ← here
  let name := Name.loopVariable c.rest
  if name.isEmpty then failAt c (.invalidExpression .eachLoop)
  moveTo (c.past name)
  skipSpacing
  return .ofText .eachVariable c name

/-- The one or two variables of a loop. -/
def loopVariables : Reader σ (List (Token E)) := do
  skipSpacing
  let first ← loopVariable
  if ← eat "," then
    skipSpacing
    return [first, ← loopVariable]
  else
    return [first]

/-- A loop over the expression behind `in`. -/
def each (g : Setup σ E) (start : Cursor) : Reader σ (Token E × LineTail) := do
  let problem := Problem.invalidExpression .eachLoop
  let word ← tokenFrom start .controlEach
  let names ← loopVariables
  let c ← here
  unless c.startsWith "in" && (c.rest.drop 2).head?.any isSpacing do
    failAt c problem
  bump 2
  let e ← expression g .inline problem
  let kind := if names.length = 2 then Token.Kind.controlEachPair else .controlEach
  return (({ word with kind := kind }.withExpr e).withChildren names, ← tail)

/-- The name in the definition of a mixin: what stands before the first parenthesis. -/
def mixinName (definition : List Char) : List Char :=
  trimEnd (definition.takeWhile (· != '('))

/-- The definition of a mixin. -/
def mixin (g : Setup σ E) : Reader σ (Token E × LineTail) := do
  let e ← expression g .inline (.invalidExpression .mixinDefinition)
  if g.parser.shape e.handle = .other then
    throw (.error ⟨.invalidMixinDefinition, e.span.start, none⟩)
  let name := mixinName e.text.toList
  let t := Token.leaf .mixinDefinition (String.ofList name)
    ⟨e.span.start, e.span.start + byteLength name⟩
  return (t.withExpr e, ← tail)

/-- The directive of a keyword whose word starts at `start` and has just been read. -/
def line (g : Setup σ E) (keyword : Keyword) (start : Cursor) : Reader σ (Token E × LineTail) := do
  match keyword with
  | .condition kind => condition g (← tokenFrom start kind)
  | .otherwise => otherwise g start
  | .default =>
    let word ← tokenFrom start .controlDefault
    return (word, ← tail)
  | .each => each g start
  | .mixin => mixin g
  | .inclusion =>
    let (c, path) ← argument
    if path.isEmpty then failAt c .missingIncludePath
    return (.ofText .inclusion c path, .plain)
  | .doctype =>
    let (c, value) ← argument
    return (.ofText .doctype c value, .plain)

end Directive

end Pug
