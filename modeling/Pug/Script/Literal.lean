import Pug.Text.Blank

/-!
# Literals of JavaScript

Words, numbers, strings and the characters of template strings, each told by what follows it in
the text. A digit may have a `_` before it unless it is the first. A number with a fraction or an
exponent has no zero at its front other than a single one.
-/

namespace Pug.Script

open Text

/-- The characters after which a statement may end. -/
def isLineEnd (c : Char) : Bool :=
  c == '\n' || c == '\u2028' || c == '\u2029'

/-- The blanks of ASCII. -/
def isPlainBlank (c : Char) : Bool :=
  c == ' ' || ('\t' ≤ c && c ≤ '\r')

/-- The characters between lexemes. -/
def isSpace (c : Char) : Bool :=
  (isBlank c && c != '\u0085') || c == '\ufeff' || c == '\u2060' || c == '\u200b'

/-- The characters that a word starts with: all that are no space, no control, no digit and in no
mark. -/
def isWordStart (c : Char) : Bool :=
  !(isSpace c || c.toNat < 0x20 || c.isDigit ||
    ":;\x60\"'@#.,|^&<=>+-*/\\%?!~()[]\x7b\x7d".toList.contains c)

/-- The characters of a word. -/
def isWordChar (c : Char) : Bool :=
  isWordStart c || c.isDigit

/-- The hexadecimal digits. -/
def isHexDigit (c : Char) : Bool :=
  c.isDigit || ('a' ≤ c && c ≤ 'f') || ('A' ≤ c && c ≤ 'F')

/-! ## Escapes and words -/

/-- What follows the code of a character, behind its backslash: four hexadecimal digits, or any
number of them in braces. -/
def afterCode : List Char → Option (List Char)
  | 'u' :: '\x7b' :: rest =>
    match rest.takeWhile isHexDigit, rest.dropWhile isHexDigit with
    | _ :: _, '\x7d' :: rest => some rest
    | _, _ => none
  | 'u' :: a :: b :: c :: d :: rest =>
    if [a, b, c, d].all isHexDigit then some rest else none
  | _ => none

/-- A word at the front of a text and what follows it, in at most so many steps. Of a character
given by its code the backslash is kept, so that the word is no keyword. -/
def splitWord : Nat → List Char → List Char × List Char
  | 0, cs => ([], cs)
  | _, [] => ([], [])
  | n + 1, c :: rest =>
    if isWordChar c then
      let (word, rest) := splitWord n rest
      (c :: word, rest)
    else if c == '\\' then
      match afterCode rest with
      | some rest =>
        let (word, rest) := splitWord n rest
        (c :: word, rest)
      | none => ([], c :: rest)
    else ([], c :: rest)

/-- What follows an escape in a string, behind its backslash. A code must have the digits that its
form requires. -/
def afterEscape : List Char → Option (List Char)
  | [] => none
  | '\r' :: '\n' :: rest => some rest
  | '?' :: '\n' :: rest => some rest
  | 'x' :: a :: b :: rest => if isHexDigit a && isHexDigit b then some rest else none
  | c :: rest =>
    if c == 'u' then afterCode (c :: rest) else if c == 'x' then none else some rest

/-! ## Strings and template strings -/

/-- The backquote. -/
def backquote : String := "\x60"

/-- The opener of a part of a template string. -/
def partOpener : String := "$\x7b"

/-- What follows a string, behind its opening quote. -/
def afterString (quote : Char) : Nat → List Char → Option (List Char)
  | 0, _ => none
  | _, [] => none
  | n + 1, c :: rest =>
    if c == quote then some rest
    else if c == '\\' then (afterEscape rest).bind (afterString quote n)
    else if isBreak c then none
    else afterString quote n rest

/-- What ends the characters of a template string: its backquote, or a part. -/
def afterTemplateText : Nat → List Char → Option (String × List Char)
  | 0, _ => none
  | _, [] => none
  | n + 1, c :: rest =>
    if c == '\x60' then some (backquote, rest)
    else if c == '\\' then (afterEscape rest).bind (afterTemplateText n)
    else if c == '$' && rest.head? == some '\x7b' then some (partOpener, rest.drop 1)
    else afterTemplateText n rest

/-- What follows a comment between `/*` and `*/`, behind its opener, and whether a line ends in
it. -/
def afterBlockComment : Bool → List Char → Option (Bool × List Char)
  | _, [] => none
  | breaks, c :: rest =>
    if c == '*' && rest.head? == some '/' then some (breaks, rest.drop 1)
    else afterBlockComment (breaks || isLineEnd c) rest

/-! ## Numbers -/

/-- What follows further digits. -/
def afterDigits (isDigit : Char → Bool) : List Char → List Char
  | '_' :: c :: rest => if isDigit c then afterDigits isDigit rest else '_' :: c :: rest
  | c :: rest => if isDigit c then afterDigits isDigit rest else c :: rest
  | [] => []

/-- Digits are passed from the front. -/
theorem afterDigits_suffix (isDigit : Char → Bool) (cs : List Char) :
    afterDigits isDigit cs <:+ cs := by
  fun_induction afterDigits isDigit cs with
  | case1 c rest _ ih => exact (ih.trans (List.suffix_cons c rest)).trans (List.suffix_cons _ _)
  | case2 c rest _ => exact List.suffix_refl _
  | case3 c rest _ _ ih => exact ih.trans (List.suffix_cons c rest)
  | case4 c rest _ _ => exact List.suffix_refl _
  | case5 => exact List.suffix_refl _

/-- What follows digits, if there are any. -/
def afterSomeDigits (cs : List Char) : List Char :=
  if cs.head?.any Char.isDigit then afterDigits Char.isDigit cs else cs

/-- What follows the `n` of a large whole number, if there is one. -/
def afterLargeMark : List Char → List Char
  | 'n' :: rest => rest
  | rest => rest

/-- What follows the exponent of a number, if there is one. -/
def afterExponent (cs : List Char) : List Char :=
  match cs with
  | [] => []
  | c :: rest =>
    let digits := if rest.head?.any (fun d ↦ d == '+' || d == '-') then rest.drop 1 else rest
    if (c == 'e' || c == 'E') && digits.head?.any Char.isDigit then afterSomeDigits digits
    else cs

/-- The digits of the base that a letter names. -/
def baseDigits? (letter : Char) : Option (Char → Bool) :=
  if letter == 'x' || letter == 'X' then some isHexDigit
  else if letter == 'o' || letter == 'O' then some (fun c ↦ '0' ≤ c && c ≤ '7')
  else if letter == 'b' || letter == 'B' then some (fun c ↦ c == '0' || c == '1')
  else none

/-- What follows a number that starts with the name of its base, if it does. -/
def afterBased? : List Char → Option (List Char)
  | '0' :: letter :: c :: rest =>
    (baseDigits? letter).bind (fun isDigit ↦
      if isDigit c then some (afterLargeMark (afterDigits isDigit rest)) else none)
  | _ => none

/-- A number that starts so may have a fraction or an exponent. -/
def mayBeFractional : List Char → Bool
  | '0' :: c :: _ => c != '0' && c != '_'
  | _ => true

/-- What follows a decimal number. -/
def afterDecimal (cs : List Char) : List Char :=
  let rest := afterDigits Char.isDigit cs
  if mayBeFractional cs then
    match rest with
    | '.' :: rest => afterExponent (afterSomeDigits rest)
    | 'n' :: rest => rest
    | rest => afterExponent rest
  else afterLargeMark rest

/-- What follows a number. -/
def afterNumber (cs : List Char) : List Char :=
  (afterBased? cs).getD (afterDecimal cs)

end Pug.Script
