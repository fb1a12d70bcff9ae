import Pug.Script.LexemeReader
import Pug.Script.LookAhead

/-!
# The grammar of JavaScript

Expressions and the common statements of JavaScript, parsed by recursive descent. The result tells
the outermost construct only.

Brackets and braces are read before it is known whether they are a value, or a pattern that takes
one apart: an `=` behind them tells, or the arrow behind the parentheses around them. So a reader
of a phrase tells what the phrase can be used as, and the use is decided behind it.

Where a statement may stand, braces that can be both a block and an object are read as what costs
less. Labels cost, and so do the patterns among the parameters of methods: braces behind a call are
a statement rather than the body of a method, unless the call has no arguments.

The readers of expressions are told by `ends` whether a statement may end behind the expression.
Inside brackets it may not.

All readers take a number of steps, which bounds how deeply they call each other. Between two
lexemes there are only so many calls, so a number proportional to the length of the text is
enough.
-/

namespace Pug.Script

open LexemeReader

/-- The node of a phrase that must be a value. -/
def Phrase.toValue (p : Phrase) : LexemeReader Node :=
  if p.isValue then return p.node else failure

/-- Brackets or braces with these uses; with none they are no phrase. -/
def Uses.toPhrase (u : Uses) (kind : NodeKind) : LexemeReader Phrase :=
  if u.asValue || u.asPattern then return u.phrase kind else failure

/-- A jump, with the label it may have. -/
def jump (kind : NodeKind) : LexemeReader Node := do
  let _ ← take
  match ← peekEnd false with
  | .word _ => name
  | _ => pure ()
  statementEnd false
  return .ofKind kind

/-- The first word of a method is taken if it is one of these and a key follows. -/
def methodWord (ws : List String) : LexemeReader Bool := do
  match ← peekKind with
  | .word w =>
    if ws.contains w && followsMethodWord w (← peekSecond) then
      let _ ← take
      return true
    else return false
  | _ => return false

/-- Takes what stands before the key of a method, and tells whether there was something. -/
def methodStart : LexemeReader Bool := do
  let isStatic ← methodWord ["static"]
  let isAsync ← methodWord ["async"]
  let isAccessor ← methodWord ["get", "set"]
  if isAccessor then return true
  else return (← eatMark "*") || isStatic || isAsync

/-- Takes the keyword of a function, before which the word `async` may stand in the same line, and
tells whether a name follows. -/
def functionStart : LexemeReader Bool := do
  if (← take) = .word "async" then
    unless (← peekEnd true) = .word "function" do return false
    let _ ← take
  match ← peekKind with
  | .word _ => return true
  | _ => return false

mutual

/-- Expressions separated by commas. -/
def expressions : Nat → Bool → LexemeReader Node
  | 0, _ => failure
  | n + 1, ends => do
    let first ← expression n ends
    if (← peekBehind ends) = .mark "," then
      let _ ← take
      let _ ← expressions n ends
      return .ofKind .sequenceExpression
    else
      return first

/-- An expression. -/
def expression : Nat → Bool → LexemeReader Node
  | 0, _ => failure
  | n + 1, ends => do (← phrase n ends).toValue

/-- An expression, or brackets or braces that are a pattern. -/
def phrase : Nat → Bool → LexemeReader Phrase
  | 0, _ => failure
  | n + 1, ends => do
    let condition ← operands n ends
    if (← peekBehind ends) = .mark "?" then
      let _ ← condition.toValue
      let _ ← take
      let _ ← expression n false
      mark ":"
      let _ ← expression n ends
      return .value .ternaryExpression
    else
      return condition

/-- Operands with operators between them. -/
def operands : Nat → Bool → LexemeReader Phrase
  | 0, _ => failure
  | n + 1, ends => do
    let first ← operand n ends .whole
    if joinsOperands (← peekBehind ends) then
      let _ ← first.toValue
      let _ ← take
      let _ ← (← operands n ends).toValue
      return .value .binaryExpression
    else
      return first

/-- An operand. An assignment is an operand too, which goes as far as it can. What stands behind the
operand of an operator that steps its value belongs to the new value. -/
def operand : Nat → Bool → Operand → LexemeReader Phrase
  | 0, _, _ => failure
  | n + 1, ends, role => do
    let next ← peekKind
    if startsOperand next then
      let _ ← take
      let _ ← (← operand n ends .whole).toValue
      return .value .unaryExpression
    else if stepsValue next then
      let _ ← take
      let _ ← (← operand n ends .unstepped).toValue
      suffixes n ends role (.value .updateExpression)
    else
      suffixes n ends role (← primary n ends)

/-- What an operand starts with. -/
def primary : Nat → Bool → LexemeReader Phrase
  | 0, _ => failure
  | n + 1, ends => do
    if startsArrow ends (← ahead) then
      arrow n ends
      return .value .arrowFunction
    else
      match ← take with
      | .number => return .value .number
      | .string => return .value .string
      | .word "function" =>
        function n
        return .value .functionExpression
      | .word "async" =>
        if (← peekBehind ends) = .word "function" then
          let _ ← take
          function n
          return .value .functionExpression
        else return .place .identifier
      | .word "new" =>
        construction n ends
        return .value .newExpression
      | .word w =>
        match wordPhrase? w with
        | some p => return p
        | none => failure
      | .mark "(" =>
        let _ ← expressions n false
        mark ")"
        return .value .parenthesizedExpression
      | .mark "[" => (← elements n "]").toPhrase .array
      | .mark "\x7b" => (← properties n).toPhrase .object
      | .mark "\x60" =>
        template n
        return .value .templateString
      | _ => failure

/-- A function behind its keyword. It may have a name. -/
def function : Nat → LexemeReader Unit
  | 0 => failure
  | n + 1 => do
    unless (← peekKind) = .mark "(" do name
    let _ ← parameters n
    block n

/-- A function with an arrow. Its body goes as far as it can if it is no block. Braces behind the
arrow are an object or a block as they are where a statement may stand. -/
def arrow : Nat → Bool → LexemeReader Unit
  | 0, _ => failure
  | n + 1, ends => do
    if (← peekKind) = .word "async" && (← peekSecond) ≠ .mark "=>" then
      let _ ← take
    if (← peekKind) = .mark "(" then
      let _ ← parameters n
    else
      name
      unless (← peekBehind ends) = .mark "=>" do failure
    mark "=>"
    let body : LexemeReader Unit := do
      let _ ← expression n ends
    match ← ahead with
    | ⟨.mark "\x7b", _⟩ :: ⟨.mark "\x7d", _⟩ :: l :: _ =>
      if l.kind = .mark "=" then body else block n
    | ⟨.mark "\x7b", before⟩ :: ls =>
      if mayStartObject (⟨.mark "\x7b", before⟩ :: ls) then
        if ← prefersBlock n then block n <|> body else body <|> block n
      else block n
    | _ => body

/-- The braces that are next cost less as a block than as an object. -/
def prefersBlock : Nat → LexemeReader Bool
  | 0 => failure
  | n + 1 => do
    if hasDetachedBody 0 ((← ahead).drop 1) then
      match ← lookAhead (primary n true), ← lookAhead (block n) with
      | some object, some block => return block.cost < object.cost
      | _, _ => return false
    else return false

/-- What is constructed behind a `new`, and the arguments it may have. -/
def construction : Nat → Bool → LexemeReader Unit
  | 0, _ => failure
  | n + 1, ends => do
    let constructed ← operand n ends .constructor
    unless constructed.isValue && constructed.isConstructible do failure
    if (← peekBehind ends) = .mark "(" then
      let _ ← take
      arguments n

/-- What stands behind an operand and belongs to it: members, subscripts, calls, template strings,
operators that step its value, and an assignment. Behind a function with an arrow whose body goes as
far as it can, only a template string that the body does not take can stand. -/
def suffixes : Nat → Bool → Operand → Phrase → LexemeReader Phrase
  | 0, _, _, _ => failure
  | n + 1, ends, role, p => do
    let next ← peekBehind ends
    if next = .mark "=" && role.assigns && p.isAssignable then
      let _ ← take
      let _ ← expression n ends
      return p.assignment
    else if !p.isValue then
      return p
    else if assignsResult next && role.assigns && p.isAugmentable then
      let _ ← take
      let _ ← expression n ends
      return .value .augmentedAssignmentExpression
    else if stepsValue next && role.steps p then
      let _ ← take
      suffixes n ends role (.value .updateExpression)
    else
      match next with
      | .mark "\x60" =>
        unless p.takesTemplate do return p
        let _ ← take
        template n
        suffixes n ends role p.call
      | .mark "(" =>
        unless role.calls p do return p
        let _ ← take
        arguments n
        suffixes n ends role p.call
      | .mark "?." =>
        unless role.selects p do return p
        let _ ← take
        match ← take with
        | .word _ => suffixes n ends role (.place .memberExpression)
        | .mark "[" =>
          subscript n
          suffixes n ends role (.place .subscriptExpression)
        | .mark "(" =>
          unless p.takesOptionalArguments do failure
          arguments n
          suffixes n ends role p.call
        | _ => failure
      | .mark "." =>
        unless role.selects p do return p
        let _ ← take
        name
        suffixes n ends role (.place .memberExpression)
      | .mark "[" =>
        unless role.selects p do return p
        let _ ← take
        subscript n
        suffixes n ends role (.place .subscriptExpression)
      | _ => return p

/-- A subscript up to its closing bracket. -/
def subscript : Nat → LexemeReader Unit
  | 0 => failure
  | n + 1 => do
    let _ ← expressions n false
    mark "]"

/-- The arguments of a call, up to the closing parenthesis. -/
def arguments : Nat → LexemeReader Unit
  | 0 => failure
  | n + 1 => do
    unless (← elements n ")").asValue do failure

/-- The elements of an array or the arguments of a call, up to the closing mark. Elements may be
left out. -/
def elements : Nat → String → LexemeReader Uses
  | 0, _ => failure
  | n + 1, closing => do
    if ← eatMark closing then return .all
    else if ← eatMark "," then elements n closing
    else
      let uses ← element n
      if ← eatMark closing then return uses
      else
        mark ","
        return uses.and (← elements n closing)

/-- An element: a phrase, which may have three dots before it. -/
def element : Nat → LexemeReader Uses
  | 0 => failure
  | n + 1 => do
    if ← eatMark "..." then return .ofRest (← phrase n false)
    else return .ofPhrase (← phrase n false)

/-- The properties of an object, up to the closing brace. -/
def properties : Nat → LexemeReader Uses
  | 0 => failure
  | n + 1 => do
    if ← eatMark "\x7d" then return .all
    else if ← eatMark "," then properties n
    else
      let uses ← property n
      if ← eatMark "\x7d" then return uses
      else
        mark ","
        return uses.and (← properties n)

/-- A property of an object: a key and a value, a method, a name alone, or a spread. In a pattern a
name may have a default, and so may a pattern without a key. -/
def property : Nat → LexemeReader Uses
  | 0 => failure
  | n + 1 => do
    let isMethod ← methodStart
    let pattern : LexemeReader Uses := do
      let p ← primary n false
      unless p.role = .target do failure
      mark "="
      let _ ← expression n false
      return .onlyPattern p.parts
    match ← ahead with
    | ⟨.mark "...", _⟩ :: _ =>
      if isMethod then failure
      let uses ← element n
      return { uses with parts := uses.parts - 1 }
    | ⟨.mark "\x7b", _⟩ :: _ =>
      if isMethod then failure
      pattern
    | ⟨.mark "[", before⟩ :: ls =>
      if !isMethod && bracketsBefore "=" (⟨.mark "[", before⟩ :: ls) then pattern
      else
        let _ ← take
        let _ ← expression n false
        mark "]"
        keyed n isMethod
    | ⟨.word _, _⟩ :: l :: _ =>
      let _ ← take
      if isMethod || l.kind = .mark ":" || l.kind = .mark "(" then keyed n isMethod
      else if l.kind = .mark "=" then
        let _ ← take
        let _ ← expression n false
        return .onlyPattern 0
      else return .all
    | l :: _ =>
      unless l.kind = .string || l.kind = .number do failure
      let _ ← take
      keyed n isMethod
    | _ => failure

/-- What belongs to a key: the parameters and the body of a method, or a value. -/
def keyed : Nat → Bool → LexemeReader Uses
  | 0, _ => failure
  | n + 1, isMethod => do
    if isMethod || (← peekKind) = .mark "(" then
      charge (← parameters n)
      block n
      return .onlyValue
    else propertyValue n

/-- The value of a property, with its colon. Three dots may stand before it in a pattern. -/
def propertyValue : Nat → LexemeReader Uses
  | 0 => failure
  | n + 1 => do
    mark ":"
    let rest := (← peekKind) = .mark "..."
    let uses ← element n
    return if rest then { uses with asValue := false } else uses

/-- The parts of a template string, up to its closing backquote. -/
def template : Nat → LexemeReader Unit
  | 0 => failure
  | n + 1 => do
    if ← eatMark backquote then return
    else
      mark partOpener
      let _ ← expressions n false
      mark "\x7d"
      template n

/-- A name or a pattern that a value is bound to. -/
def binding : Nat → LexemeReader Unit
  | 0 => failure
  | n + 1 => do
    match ← peekKind with
    | .word _ => name
    | .mark m =>
      unless m == "[" || m == "\x7b" do failure
      unless (← primary n false).role = .target do failure
    | _ => failure

/-- The parameters of a function, with their parentheses. Told is how many patterns they are and
hold. -/
def parameters : Nat → LexemeReader Nat
  | 0 => failure
  | n + 1 => do
    mark "("
    parameterList n

/-- Parameters up to the closing parenthesis. -/
def parameterList : Nat → LexemeReader Nat
  | 0 => failure
  | n + 1 => do
    if ← eatMark ")" then return 0
    else
      let uses ← element n
      unless uses.asPattern do failure
      if ← eatMark ")" then return uses.parts
      else
        mark ","
        return uses.parts + (← parameterList n)

/-- A block of statements, with its braces. -/
def block : Nat → LexemeReader Unit
  | 0 => failure
  | n + 1 => do
    mark "\x7b"
    blockRest n

/-- Statements up to the closing brace. -/
def blockRest : Nat → LexemeReader Unit
  | 0 => failure
  | n + 1 => do
    unless ← eatMark "\x7d" do
      let _ ← statement n
      blockRest n

/-- A statement. -/
def statement : Nat → LexemeReader Node
  | 0 => failure
  | n + 1 => do
    match ← peekKind, ← peekSecond with
    | .mark "\x7b", second => braced n second
    | .mark ";", _ =>
      let _ ← take
      return .ofKind .emptyStatement
    | .word w, .mark ":" =>
      unless isLeadingName w do failure
      let _ ← take
      unless (← peekEnd true) = .mark ":" do failure
      let _ ← take
      charge 1
      let _ ← statement n
      return .ofKind .labeledStatement
    | .word w, second => wordStatement n w second
    | _, _ => expressionStatement n

/-- A statement that starts with a brace. If the braces can be both a block and an object, they are
what costs less, and an object at the same cost. Empty braces are an object only if that goes on. -/
def braced : Nat → LexemeKind → LexemeReader Node
  | 0, _ => failure
  | n + 1, second => do
    let start ← get
    if second = .mark "\x7d" then
      block n
      if onlyContinues (← peekEnd true) then
        set start
        expressionStatement n
      else return .ofKind .statementBlock
    else if mayStartObject start.ahead then
      if ← prefersBlock n then
        endedBlock n <|> expressionStatement n <|> blockStatement n
      else expressionStatement n <|> blockStatement n
    else blockStatement n

/-- A block as a statement. -/
def blockStatement : Nat → LexemeReader Node
  | 0 => failure
  | n + 1 => do
    block n
    return .ofKind .statementBlock

/-- A block as a statement behind which another statement starts, if anything can start there. -/
def endedBlock : Nat → LexemeReader Node
  | 0 => failure
  | n + 1 => do
    block n
    let next ← peekEnd true
    if onlyContinues next then failure
    if mayContinue next then
      if (← lookAhead (statement n)).isNone then failure
    return .ofKind .statementBlock

/-- A statement that starts with a word. -/
def wordStatement : Nat → String → LexemeKind → LexemeReader Node
  | 0, _, _ => failure
  | n + 1, w, second => do
    match w, second with
    | "var", _ => declaration n .variableDeclaration
    | "const", _ => declaration n .lexicalDeclaration
    | "let", _ => letStatement n
    | "function", .word _ => functionStatement n
    | "async", .word "function" => functionStatement n
    | "if", _ =>
      let _ ← take
      condition n
      let _ ← statement n
      if ← eat (.word "else") then
        let _ ← statement n
      return .ofKind .ifStatement
    | "while", _ =>
      let _ ← take
      condition n
      let _ ← statement n
      return .ofKind .whileStatement
    | "for", _ =>
      let _ ← take
      loop n
    | "return", _ =>
      let _ ← take
      if (← peekEnd false) = .mark ";" then statementEnd false
      else
        let _ ← expressions n true
        statementEnd true
      return .ofKind .returnStatement
    | "throw", _ =>
      let _ ← take
      let _ ← expressions n true
      statementEnd true
      return .ofKind .throwStatement
    | "break", _ => jump .breakStatement
    | "continue", _ => jump .continueStatement
    | _, _ =>
      if otherStatementKeywords.contains w then failure
      else expressionStatement n

/-- A statement that starts with `let`: a declaration if a variable follows, and an expression if
`let` is a name. -/
def letStatement : Nat → LexemeReader Node
  | 0 => failure
  | n + 1 => do
    let start ← get
    let _ ← take
    let next ← peekEnd true
    set start
    if startsVariable next then declaration n .lexicalDeclaration else expressionStatement n

/-- A function as a declaration if it has a name and no expression goes on behind it. -/
def functionStatement : Nat → LexemeReader Node
  | 0 => failure
  | n + 1 => do
    let start ← get
    let named ← functionStart
    if named then function n
    if !named || onlyContinues (← peekEnd true) then
      set start
      expressionStatement n
    else return .ofKind .functionDeclaration

/-- An expression as a statement. -/
def expressionStatement : Nat → LexemeReader Node
  | 0 => failure
  | n + 1 => do
    let _ ← expressions n true
    statementEnd true
    return .ofKind .expressionStatement

/-- A declaration of variables, with its keyword. -/
def declaration : Nat → NodeKind → LexemeReader Node
  | 0, _ => failure
  | n + 1, kind => do
    let _ ← take
    declarators n
    return .ofKind kind

/-- Variables with their values, separated by commas, up to the end of the statement. -/
def declarators : Nat → LexemeReader Unit
  | 0 => failure
  | n + 1 => do
    binding n
    let valued := (← peekEnd false) = .mark "="
    if valued then
      let _ ← take
      let _ ← expression n true
    if (← peekEnd valued) = .mark "," then
      let _ ← take
      declarators n
    else statementEnd valued

/-- An expression in parentheses. -/
def condition : Nat → LexemeReader Unit
  | 0 => failure
  | n + 1 => do
    mark "("
    let _ ← expressions n false
    mark ")"

/-- What stands behind a `for`. -/
def loop : Nat → LexemeReader Node
  | 0 => failure
  | n + 1 => do
    mark "("
    let kind ← loopOver n <|> loopParts n
    let _ ← statement n
    return .ofKind kind

/-- The head of a loop over a collection, behind its opening parenthesis. -/
def loopOver : Nat → LexemeReader NodeKind
  | 0 => failure
  | n + 1 => do
    let first ← peekKind
    if startsDeclaration first (← peekSecond) then
      let _ ← take
      binding n
      if first = .word "var" && (← peekEnd false) = .mark ";" then failure
    else
      unless (← operand n false .whole).isAssignable do failure
    unless ← eat (.word "in") do expect (.word "of")
    let _ ← expressions n false
    mark ")"
    return .forInStatement

/-- The head of a loop in three parts, behind its opening parenthesis. -/
def loopParts : Nat → LexemeReader NodeKind
  | 0 => failure
  | n + 1 => do
    if startsDeclaration (← peekKind) (← peekSecond) then
      let _ ← declaration n .lexicalDeclaration
    else loopPart n ";"
    loopPart n ";"
    loopPart n ")"
    return .forStatement

/-- A part of the head of a loop, which may be left out, with the mark behind it. -/
def loopPart : Nat → String → LexemeReader Unit
  | 0, _ => failure
  | n + 1, closing => do
    unless ← eatMark closing do
      let _ ← expressions n false
      mark closing

end

/-- The statements of a text. -/
def statements : Nat → LexemeReader (List Node)
  | 0 => failure
  | n + 1 => do
    if (← peekKind) = .finish then return []
    else
      let node ← statement n
      return node :: (← statements n)

end Pug.Script
