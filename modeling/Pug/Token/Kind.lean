/-!
# Kinds of tokens

The kinds fall into the structure of the page, tags and their parts, text and output, control
flow, and declarations. Some kinds are *containers*: their own text is made up by their children,
so a dump does not repeat it.
-/

namespace Pug.Token

/-- What a token stands for. -/
inductive Kind where
  /-- The whole template. -/
  | root
  /-- One line; its first child is what the line says. -/
  | line
  /-- The wrapper around a tag. -/
  | lineData
  /-- One run of text. -/
  | linePlainText
  /-- A line that starts with `<` and is passed through. -/
  | lineRaw
  /-- A lone `.`, which makes the lines below it text. -/
  | lineDot
  /-- A comment `//` with a hyphen, which stays in the template. -/
  | lineComment
  /-- A comment `//` that reaches the output. -/
  | lineCommentHtml
  /-- A tag; its text is the name, empty when a class or id stands alone. -/
  | tag
  /-- A class `.name`. -/
  | tagClassNote
  /-- An id `#name`. -/
  | tagIdNote
  /-- The attributes `( … )`. -/
  | tagAttrList
  /-- Spread attributes `&attributes( … )`. -/
  | tagAttributes
  /-- A closing `/`. -/
  | tagSelfClose
  /-- A closing `.`, which makes the lines below the tag text. -/
  | tagDotBlock
  /-- An attribute `name=value`, or a name alone. -/
  | attrPairEscaped
  /-- An attribute `name!=value`. -/
  | attrPairUnescaped
  /-- Literal text. -/
  | plainText
  /-- Escaped output `= value` or `#{value}`. -/
  | outputEscaped
  /-- Unescaped output `!= value` or `!{value}`. -/
  | outputUnescaped
  | controlIf
  | controlUnless
  | controlElseIf
  | controlElse
  | controlWhile
  /-- A loop with one variable. -/
  | controlEach
  /-- A loop with two variables. -/
  | controlEachPair
  /-- A variable of a loop. -/
  | eachVariable
  | controlCase
  | controlWhen
  | controlDefault
  /-- One statement. -/
  | codeLine
  /-- A lone `-` and the statements below it. -/
  | codeBlock
  /-- A call `+name`. -/
  | mixinCall
  /-- The arguments of a call. -/
  | mixinArgs
  | mixinDefinition
  | inclusion
  | doctype
deriving DecidableEq, Repr

namespace Kind

/-- The name of a kind in dumps and in JSON. -/
def name : Kind → String
  | root => "Root"
  | line => "Line"
  | lineData => "LineData"
  | linePlainText => "LinePlainText"
  | lineRaw => "LineRaw"
  | lineDot => "LineDot"
  | lineComment => "LineComment"
  | lineCommentHtml => "LineCommentHtml"
  | tag => "Tag"
  | tagClassNote => "TagClassNote"
  | tagIdNote => "TagIdNote"
  | tagAttrList => "TagAttrList"
  | tagAttributes => "TagAttributes"
  | tagSelfClose => "TagSelfClose"
  | tagDotBlock => "TagDotBlock"
  | attrPairEscaped => "AttrPairEscaped"
  | attrPairUnescaped => "AttrPairUnescaped"
  | plainText => "PlainText"
  | outputEscaped => "OutputEscaped"
  | outputUnescaped => "OutputUnescaped"
  | controlIf => "ControlIf"
  | controlUnless => "ControlUnless"
  | controlElseIf => "ControlElseIf"
  | controlElse => "ControlElse"
  | controlWhile => "ControlWhile"
  | controlEach => "ControlEach"
  | controlEachPair => "ControlEachPair"
  | eachVariable => "EachVariable"
  | controlCase => "ControlCase"
  | controlWhen => "ControlWhen"
  | controlDefault => "ControlDefault"
  | codeLine => "CodeLine"
  | codeBlock => "CodeBlock"
  | mixinCall => "MixinCall"
  | mixinArgs => "MixinArgs"
  | mixinDefinition => "MixinDefinition"
  | inclusion => "Include"
  | doctype => "Doctype"

/-- All kinds, in the order of their declaration. -/
def all : List Kind :=
  [root, line, lineData, linePlainText, lineRaw, lineDot, lineComment, lineCommentHtml, tag,
    tagClassNote, tagIdNote, tagAttrList, tagAttributes, tagSelfClose, tagDotBlock,
    attrPairEscaped, attrPairUnescaped, plainText, outputEscaped, outputUnescaped, controlIf,
    controlUnless, controlElseIf, controlElse, controlWhile, controlEach, controlEachPair,
    eachVariable, controlCase, controlWhen, controlDefault, codeLine, codeBlock, mixinCall,
    mixinArgs, mixinDefinition, inclusion, doctype]

/-- The kind with a given name. -/
def ofName? (s : String) : Option Kind :=
  all.find? (fun k ↦ k.name == s)

/-- The kinds whose text is made up by their children. -/
def isContainer : Kind → Bool
  | root | line | lineData | linePlainText | tagAttrList => true
  | _ => false

theorem mem_all (k : Kind) : k ∈ all := by
  cases k <;> decide

/-- No two kinds have one name. -/
@[simp] theorem ofName?_name (k : Kind) : ofName? k.name = some k := by
  cases k <;> decide

end Kind

end Pug.Token
