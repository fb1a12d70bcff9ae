import Pug.Source.Position

/-!
# Errors and how they are shown

Reading a template stops at the first error. An error tells what is wrong and at which byte; shown
to a reader, it repeats the line, points at the column and adds a help if there is one.
-/

namespace Pug

/-- Where an expression was expected. -/
inductive Site where
  /-- Behind a tag, `tag= value`. -/
  | tagOutput
  /-- On a line of its own, `= value`. -/
  | output
  /-- In `&attributes( … )`. -/
  | spread
  | mixinCall
  | mixinDefinition
  /-- Behind `if`, `unless`, `else if`, `while`, `case` or `when`. -/
  | condition
  | eachLoop
  | code
  /-- In `#{ … }` or `!{ … }`. -/
  | interpolation
deriving DecidableEq, Repr

/-- The words for a site. -/
def Site.words : Site → String
  | .tagOutput => "tag output"
  | .output => "output"
  | .spread => "&attributes"
  | .mixinCall => "mixin call"
  | .mixinDefinition => "mixin definition"
  | .condition => "control condition"
  | .eachLoop => "each loop"
  | .code => "code"
  | .interpolation => "interpolation"

/-- What is wrong with a template. -/
inductive Problem where
  | mixedIndentation
  | invalidIndentationJump
  | indentationTooDeep
  | unknownLineType
  | unexpectedCharacter
  | invalidAttributeName
  | invalidAttributeValue
  | invalidAttributeList
  | invalidExpression (site : Site)
  | invalidMixinDefinition
  | invalidTagInterpolation
  | missingIncludePath
  | dataAfterEndlineTag
deriving DecidableEq, Repr

namespace Problem

/-- The title of a problem, the same for all sites. -/
def title : Problem → String
  | mixedIndentation => "Mixed indentation"
  | invalidIndentationJump => "Invalid indentation jump"
  | indentationTooDeep => "Indentation too deep"
  | unknownLineType => "Unknown line type"
  | unexpectedCharacter => "Unexpected character"
  | invalidAttributeName => "Invalid attribute name"
  | invalidAttributeValue => "Invalid attribute value"
  | invalidAttributeList => "Invalid attribute list"
  | invalidExpression _ => "Invalid expression"
  | invalidMixinDefinition => "Invalid mixin definition"
  | invalidTagInterpolation => "Invalid tag interpolation"
  | missingIncludePath => "Missing include path"
  | dataAfterEndlineTag => "Data after end-of-line marker"

/-- The name of a problem for programs to read. -/
def slug : Problem → String
  | mixedIndentation => "mixed_indentation"
  | invalidIndentationJump => "invalid_indentation_jump"
  | indentationTooDeep => "indentation_too_deep"
  | unknownLineType => "unknown_line_type"
  | unexpectedCharacter => "unexpected_character"
  | invalidAttributeName => "invalid_attribute_name"
  | invalidAttributeValue => "invalid_attribute_value"
  | invalidAttributeList => "invalid_attribute_list"
  | invalidExpression _ => "invalid_expression"
  | invalidMixinDefinition => "invalid_mixin_definition"
  | invalidTagInterpolation => "invalid_tag_interpolation"
  | missingIncludePath => "missing_include_path"
  | dataAfterEndlineTag => "data_after_endline_tag"

/-- The message of a problem: its title, or what expression is invalid. -/
def message : Problem → String
  | invalidExpression site => "Invalid " ++ site.words ++ " expression"
  | p => p.title

end Problem

/-- The error that reading a template stops at. -/
structure LexError where
  problem : Problem
  /-- The byte at which the error was found. -/
  offset : Nat
  /-- What may help to mend it. -/
  help : Option String
deriving DecidableEq, Repr

namespace LexError

/-- The line and column of an error. -/
def position (e : LexError) (source : List Char) : Position :=
  Position.ofOffset source e.offset

/-- The marks that switch colours on and off. -/
structure Palette where
  /-- Before what is wrong. -/
  alarm : String
  /-- Before the number of the line. -/
  faint : String
  /-- Before the word `help`. -/
  hint : String
  /-- Before a heading. -/
  strong : String
  /-- Behind a coloured text. -/
  reset : String

/-- No colours. -/
def Palette.plain : Palette := ⟨"", "", "", "", ""⟩

/-- The colours of a terminal. -/
def Palette.terminal : Palette :=
  ⟨"\x1b[1;31m", "\x1b[2m", "\x1b[1;38;5;73m", "\x1b[1m", "\x1b[0m"⟩

/-- What stands below a text to reach the end of it: a tab for each tab and a space for any other
character. -/
def padding (text : List Char) : List Char :=
  text.map (fun c ↦ if c == '\t' then '\t' else ' ')

/-- The heading over an error in a named source: the name, the line and the column. -/
def heading (palette : Palette) (e : LexError) (name : String) (source : List Char) : String :=
  let place := e.position source
  palette.strong ++ name ++ ":" ++ toString place.line ++ ":" ++ toString place.column ++
    palette.reset ++ "\n"

/-- The error as text: the line, a caret below the column with the message, and the help. -/
def renderWith (palette : Palette) (e : LexError) (source : List Char) : String :=
  let place := e.position source
  let label := "-> " ++ toString place.line ++ ": "
  let pad := List.replicate label.length ' ' ++ padding (place.text.take (place.column - 1))
  palette.faint ++ label ++ palette.reset ++ String.ofList place.text ++ "\n" ++
    String.ofList pad ++ palette.alarm ++ "^ " ++ e.problem.message ++ palette.reset ++ "\n" ++
    (match e.help with
      | none => ""
      | some help => palette.hint ++ "help:" ++ palette.reset ++ " " ++ help ++ "\n")

/-- The error as plain text. -/
def render (e : LexError) (source : List Char) : String :=
  e.renderWith .plain source

/-- The error as text for a terminal. -/
def renderColor (e : LexError) (source : List Char) : String :=
  e.renderWith .terminal source

end LexError

end Pug
