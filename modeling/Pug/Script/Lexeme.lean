import Pug.Script.Literal

/-!
# Lexemes of JavaScript

A text of JavaScript as words, numbers, strings and marks, each with the blanks and comments that
stand before it. Those tell whether a statement ends there though no semicolon says so.

A template string is told as its backquotes with the lexemes of each part `${ … }` between them;
its own characters are passed over. Which brace ends such a part is known from the braces opened
since.
-/

namespace Pug.Script

/-- What stands between lexemes. -/
inductive Filler where
  | blank (c : Char)
  | lineComment
  /-- A comment between `/*` and `*/`, and whether a line ends in it. -/
  | blockComment (breaks : Bool)
deriving DecidableEq, Repr

/-- A blank, and no comment. -/
def Filler.isBlank : Filler → Bool
  | blank _ => true
  | _ => false

/-- A blank outside ASCII. -/
def Filler.isOtherBlank : Filler → Bool
  | blank c => !isPlainBlank c
  | _ => false

/-- What a lexeme is. -/
inductive LexemeKind where
  /-- A name or a keyword. -/
  | word (text : String)
  | number
  | string
  /-- An operator, a bracket, a backquote, or the opener of a part of a template string. -/
  | mark (text : String)
  /-- The end of the text. -/
  | finish
deriving DecidableEq, Repr

/-- A lexeme and what stands before it. -/
structure Lexeme where
  kind : LexemeKind
  before : List Filler
deriving DecidableEq, Repr

/-- The operators and brackets; of two that start alike the longer comes first. -/
def marks : List String :=
  [">>>=", "...", "===", "!==", "**=", "<<=", ">>=", ">>>", "&&=", "||=", "??=", "=>", "==", "!=",
    "<=", ">=", "&&", "||", "??", "?.", "++", "--", "+=", "-=", "*=", "/=", "%=", "&=", "|=", "^=",
    "<<", ">>", "**", "+", "-", "*", "/", "%", "&", "|", "^", "!", "~", "?", ":", ";", ",", ".",
    "=", "<", ">", "(", ")", "[", "]", "\x7b", "\x7d"]

/-- The mark at the front of a text. A `?.` before a digit is the `?` of a conditional. -/
def markAt? (cs : List Char) : Option String :=
  match marks.find? (fun m ↦ m.toList.isPrefixOf cs) with
  | some "?." => if (cs.drop 2).head?.any Char.isDigit then some "?" else some "?."
  | m => m

/-- Only plain blanks stand between a lexeme and the comment or lexeme before it. The filler is
given from its end to its front. -/
def isPlainlySpaced : List Filler → Bool
  | .blank c :: before => isPlainBlank c && isPlainlySpaced before
  | _ => true

/-- An open brace. -/
inductive Brace where
  | plain
  /-- The brace of a part of a template string. -/
  | part
deriving DecidableEq, Repr

/-- The lexemes of a text, in at most so many steps, behind some open braces and some filler, which
is given from its end to its front. There are none if the text holds a character that starts no
lexeme, or a string or comment is left open. The `?` of a conditional wants plain blanks. -/
def lexemesFrom : Nat → List Brace → List Filler → List Char → Option (List Lexeme)
  | 0, _, _, _ => none
  | _, _, before, [] => some [⟨.finish, before.reverse⟩]
  | n + 1, braces, before, c :: rest =>
    let emit (kind : LexemeKind) (braces : List Brace) (rest : List Char) :=
      (lexemesFrom n braces [] rest).map (⟨kind, before.reverse⟩ :: ·)
    let template (opener : String) (braces : List Brace) :=
      (afterTemplateText n rest).bind (fun (ender, rest) ↦
        let braces := if ender == backquote then braces else .part :: braces
        (lexemesFrom n braces [] rest).map (fun ls ↦
          ⟨.mark opener, before.reverse⟩ :: ⟨.mark ender, []⟩ :: ls))
    if isSpace c then lexemesFrom n braces (.blank c :: before) rest
    else if c == '/' && rest.head? == some '/' then
      lexemesFrom n braces (.lineComment :: before)
        (rest.dropWhile (fun d ↦ !isLineEnd d && d != '\r'))
    else if c == '/' && rest.head? == some '*' then
      (afterBlockComment false (rest.drop 1)).bind (fun (breaks, rest) ↦
        lexemesFrom n braces (.blockComment breaks :: before) rest)
    else if c == '"' || c == '\'' then (afterString c n rest).bind (emit .string braces)
    else if c == '\x60' then template backquote braces
    else if c == '\x7d' && braces.head? == some .part then template "\x7d" braces.tail
    else if c.isDigit || (c == '.' && rest.head?.any Char.isDigit) then
      emit .number braces (afterNumber (c :: rest))
    else
      match splitWord (n + 1) (c :: rest) with
      | ([], _) =>
        (markAt? (c :: rest)).bind (fun m ↦
          if m == "?" && !isPlainlySpaced before then none
          else
            let braces :=
              if c == '\x7b' then .plain :: braces
              else if c == '\x7d' then braces.tail
              else braces
            emit (.mark m) braces (rest.drop (m.length - 1)))
      | (word, rest) => emit (.word (String.ofList word)) braces rest

/-- The lexemes of a text. -/
def lexemes? (cs : List Char) : Option (List Lexeme) :=
  lexemesFrom (cs.length + 1) [] [] cs

end Pug.Script
