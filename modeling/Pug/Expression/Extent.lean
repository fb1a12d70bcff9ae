import Pug.Expression.Basic
import Pug.Text.Blank

/-!
# The extent of an expression

The extent of an expression is found without a grammar: brackets are balanced, quoted strings are
passed over, and outside both a few characters end the expression. The scan reads one character at
a time. A quoted character that follows a backslash, the second half of `??`, and the continuation
of a line break are taken unread.

Where spacing may end an attribute value, the words and characters on both sides decide. The word
on the left starts one byte behind the last character that belongs to no word; when that character
takes several bytes, the word would start inside it, and the scan is *torn*.
-/

namespace Pug

open Text

/-- What a scan makes of a text. -/
inductive Extent where
  /-- The expression is this beginning of the text, without blanks behind it. -/
  | upTo (text : List Char)
  /-- No expression starts the text: it is empty, or a quote or bracket does not match. -/
  | absent
  /-- The word before some spacing starts inside a character. -/
  | torn
deriving DecidableEq, Repr

namespace Extent

/-- The operators that are words and join what stands on either side of them. -/
def wordOperators : List String :=
  ["in", "of", "instanceof", "typeof", "new", "void", "delete", "await"]

/-- The characters that operators are made of. -/
def isOperatorChar (c : Char) : Bool :=
  "+-*/%&|^<>=!?:~.".toList.contains c

/-- The characters that words are made of. -/
def isWordChar (c : Char) : Bool :=
  c.isAlphanum || c == '_' || c == '$'

/-- The characters that open and close a string. -/
def isQuote (c : Char) : Bool :=
  c == '"' || c == '\'' || c == '\x60'

/-- The bracket that closes what `c` opens. -/
def closer? (c : Char) : Option Char :=
  if c == '(' then some ')'
  else if c == '[' then some ']'
  else if c == '\x7b' then some '\x7d'
  else none

/-- The closing brackets. -/
def isCloser (c : Char) : Bool :=
  c == ')' || c == ']' || c == '\x7d'

/-- Whether spacing separates what stands on its two sides. -/
inductive Joint where
  | joined
  | apart
  | torn
deriving DecidableEq, Repr

/-- Judges the spacing between a text, given backwards, and what follows it. An operator on either
side joins them, and so does an operator that is a word. -/
def joint (before after : List Char) : Joint :=
  let next := after.dropWhile isSpacing
  if before.head?.any isOperatorChar || next.head?.any isOperatorChar then .joined
  else if (before.dropWhile isWordChar).head?.any (fun c ↦ c.utf8Size != 1) then .torn
  else
    let left := String.ofList (before.takeWhile isWordChar).reverse
    let right := String.ofList (next.takeWhile isWordChar)
    if wordOperators.contains left || wordOperators.contains right then .joined else .apart

/-- The state of a scan. -/
structure Scan where
  /-- The expression so far, backwards. -/
  kept : List Char
  /-- The blanks read since, backwards. -/
  gap : List Char
  /-- The quote that closes the open string. -/
  quote : Option Char
  /-- The brackets that close the open brackets, innermost first. -/
  closers : List Char
  /-- The conditionals outside brackets that still miss their `:`. -/
  conditionals : Nat
  /-- How many of the next characters are kept unread. -/
  unread : Nat
deriving DecidableEq, Repr

/-- What a scan does on a character that it reads. -/
inductive Move where
  /-- Goes on behind the character. -/
  | next (s : Scan)
  /-- Ends the expression before the character. -/
  | stop
  /-- Finds that there is no expression. -/
  | refuse
  /-- Finds that a word starts inside a character. -/
  | tear
deriving DecidableEq, Repr

namespace Scan

/-- Nothing has been read. -/
def init : Scan := ⟨[], [], none, [], 0, 0⟩

/-- Counts a character to the expression, with the blanks before it. -/
def keep (s : Scan) (c : Char) : Scan :=
  { s with kept := c :: (s.gap ++ s.kept), gap := [] }

/-- Sets a blank aside: it counts only if something follows it. -/
def setAside (s : Scan) (c : Char) : Scan :=
  { s with gap := c :: s.gap }

/-- No bracket is open. -/
def outside (s : Scan) : Bool :=
  s.closers.isEmpty

/-- The expression read so far, if there is any. -/
def result (s : Scan) : Extent :=
  if s.kept.isEmpty then .absent else .upTo s.kept.reverse

/-- A character of an open string. -/
def readQuoted (s : Scan) (quote c : Char) : Move :=
  if c == '\\' then .next { s.keep c with unread := 1 }
  else if isBreak c && quote != '\x60' then .refuse
  else if c == quote then .next { s.keep c with quote := none }
  else .next (s.keep c)

/-- A line break: the end outside brackets, and inside them what the mode makes of it. -/
def readBreak (s : Scan) (mode : Mode) (c : Char) (rest : List Char) : Move :=
  if s.outside then .stop
  else
    match mode with
    | .inline => .refuse
    | .attributeValue => .next (s.setAside c)
    | .statement lineBreak =>
      if !lineBreak.isEmpty && lineBreak.isPrefixOf (c :: rest) then
        .next { s.keep c with unread := lineBreak.length - 1 }
      else .refuse

/-- A space or tab: it may end an attribute value. -/
def readSpacing (s : Scan) (mode : Mode) (c : Char) (rest : List Char) : Move :=
  if s.outside && mode == .attributeValue && !s.kept.isEmpty then
    match joint s.kept rest with
    | .joined => .next (s.setAside c)
    | .apart => .stop
    | .torn => .tear
  else .next (s.setAside c)

/-- A closing bracket: one that nothing opened ends the expression. -/
def readCloser (s : Scan) (c : Char) : Move :=
  match s.closers with
  | [] => .stop
  | d :: ds => if c == d then .next { s.keep c with closers := ds } else .refuse

/-- Any other character outside brackets: the separators of the mode, and the marks of a
conditional, where `??` and `?.` are none. -/
def readOutside (s : Scan) (mode : Mode) (c : Char) (rest : List Char) : Move :=
  match mode, c with
  | .attributeValue, ',' => .stop
  | .statement _, ';' => .stop
  | _, '?' =>
    match rest.head? with
    | some '?' => .next { s.keep c with unread := 1 }
    | some '.' => .next (s.keep c)
    | _ => .next { s.keep c with conditionals := s.conditionals + 1 }
  | .statement _, ':' => .next (s.keep c)
  | _, ':' =>
    match s.conditionals with
    | 0 => .stop
    | n + 1 => .next { s.keep c with conditionals := n }
  | _, _ => .next (s.keep c)

/-- Reads the character `c` that stands before `rest`. -/
def read (s : Scan) (mode : Mode) (c : Char) (rest : List Char) : Move :=
  match s.quote with
  | some quote => s.readQuoted quote c
  | none =>
    if isBreak c then s.readBreak mode c rest
    else if isSpacing c then s.readSpacing mode c rest
    else if isQuote c then .next { s.keep c with quote := some c }
    else
      match closer? c with
      | some d => .next { s.keep c with closers := d :: s.closers }
      | none =>
        if isCloser c then s.readCloser c
        else if s.outside then s.readOutside mode c rest
        else .next (s.keep c)

/-- Reads a text from its first character on. -/
def run (mode : Mode) : Scan → List Char → Extent
  | s, [] => if s.quote.isSome || !s.outside then .absent else s.result
  | s, c :: rest =>
    match s.unread with
    | n + 1 => run mode { s.keep c with unread := n } rest
    | 0 =>
      match s.read mode c rest with
      | .next t => run mode t rest
      | .stop => s.result
      | .refuse => .absent
      | .tear => .torn

/-- The characters that a scan has passed, backwards. -/
def passed (s : Scan) : List Char :=
  s.gap ++ s.kept

@[simp] theorem passed_keep (s : Scan) (c : Char) : (s.keep c).passed = c :: s.passed := rfl

@[simp] theorem passed_setAside (s : Scan) (c : Char) : (s.setAside c).passed = c :: s.passed :=
  rfl

/-- A scan that goes on passes the character it has read, and no other. -/
theorem passed_of_read {s t : Scan} {mode : Mode} {c : Char} {rest : List Char}
    (h : s.read mode c rest = .next t) : t.passed = c :: s.passed := by
  unfold read readQuoted readBreak readSpacing readCloser readOutside at h
  repeat' split at h
  all_goals cases h <;> rfl

/-- The result is what the scan has passed, without the blanks set aside. -/
theorem exists_eq_append_of_result {s : Scan} {text : List Char} (h : s.result = .upTo text)
    (rest : List Char) : ∃ others, s.passed.reverse ++ rest = text ++ others := by
  unfold result at h
  split at h
  · contradiction
  · cases h
    exact ⟨s.gap.reverse ++ rest, by simp [passed]⟩

/-- A scan never goes back: its result is a beginning of what it had passed and what was still to
be read. -/
theorem exists_eq_append_of_run {mode : Mode} {s : Scan} {rest text : List Char}
    (h : run mode s rest = .upTo text) :
    ∃ others, s.passed.reverse ++ rest = text ++ others := by
  induction rest generalizing s with
  | nil =>
    unfold run at h
    split at h
    · contradiction
    · exact exists_eq_append_of_result h []
  | cons c rest ih =>
    unfold run at h
    split at h
    · obtain ⟨others, hx⟩ := ih h
      exact ⟨others, by simpa [passed, keep] using hx⟩
    · split at h
      · rename_i t ht
        obtain ⟨others, hx⟩ := ih h
        exact ⟨others, by simpa [passed_of_read ht] using hx⟩
      · exact exists_eq_append_of_result h _
      · contradiction
      · contradiction

end Scan

/-- The number of bytes of the expression, if there is one. -/
def bytes? : Extent → Option Nat
  | .upTo text => some (byteLength text)
  | .absent => none
  | .torn => none

end Extent

/-- The extent of the expression at the start of a text. -/
def extent (mode : Mode) (text : List Char) : Extent :=
  Extent.Scan.run mode Extent.Scan.init text

/-- The expression is a beginning of the text. -/
theorem exists_eq_append_of_extent {mode : Mode} {text e : List Char}
    (h : extent mode text = .upTo e) : ∃ others, text = e ++ others :=
  Extent.Scan.exists_eq_append_of_run h

end Pug
