import Pug.Grammar.Name
import Pug.Reader

/-!
# Text

A run of text is a row of pieces: literal text, output `#{value}` and `!{value}`, and inline tags
`#[tag text]`. It goes up to the end of the line or, inside an inline tag, to a `]`.

A backslash before an opener makes the opener literal: the backslash is dropped, and the text
behind it is a piece of its own. Any other backslash is literal, and so is the character behind
it.

Text holds inline tags, and inline tags hold text; so the reader of inline tags is a parameter
here.
-/

namespace Pug

open Text Reader

variable {σ E : Type}

namespace TextRun

/-- An opener of output or of an inline tag stands at the front. -/
def opens : List Char → Bool
  | '#' :: '\x7b' :: _ => true
  | '#' :: '[' :: _ => true
  | '!' :: '\x7b' :: _ => true
  | _ => false

/-- The literal text at the front, up to the end of the run or the next opener, escaped or not. -/
def literal (interpolated : Bool) : List Char → List Char
  | [] => []
  | c :: rest =>
    if isBreak c || (interpolated && c == ']') || opens (c :: rest) then []
    else if c == '\\' then
      if opens rest then []
      else
        match rest with
        | [] => [c]
        | d :: more => if isBreak d then [c] else c :: d :: literal interpolated more
    else c :: literal interpolated rest

/-- The literal text is a beginning of what stands there. -/
theorem exists_eq_literal_append (interpolated : Bool) (cs : List Char) :
    ∃ others, cs = literal interpolated cs ++ others := by
  fun_induction literal interpolated cs with
  | case1 => exact ⟨[], rfl⟩
  | case2 c rest => exact ⟨c :: rest, rfl⟩
  | case3 c rest => exact ⟨c :: rest, rfl⟩
  | case4 => exact ⟨[], rfl⟩
  | case5 => exact ⟨_, rfl⟩
  | case6 c _ _ d more _ _ ih =>
    obtain ⟨others, h⟩ := ih
    exact ⟨others, by simp [← h]⟩
  | case7 c rest _ _ ih =>
    obtain ⟨others, h⟩ := ih
    exact ⟨others, by simp [← h]⟩

/-- What stands at the front of a run. -/
inductive Front where
  /-- The end of the run. -/
  | finished
  /-- Output, as a token of a kind. -/
  | output (kind : Token.Kind)
  | inlineTag
  /-- Literal text behind an escape of so many characters. -/
  | literal (escape : Nat) (text : List Char)

/-- Tells what stands at the front of a run. -/
def Front.ofRest (interpolated : Bool) : List Char → Front
  | [] => .finished
  | c :: rest =>
    if isBreak c || (interpolated && c == ']') then .finished
    else
      match c, rest with
      | '#', '\x7b' :: _ => .output .outputEscaped
      | '!', '\x7b' :: _ => .output .outputUnescaped
      | '#', '[' :: _ => .inlineTag
      | _, _ =>
        if c == '\\' && opens rest then
          .literal 1 (rest.take 2 ++ TextRun.literal interpolated (rest.drop 2))
        else .literal 0 (TextRun.literal interpolated (c :: rest))

/-- Output `#{value}` or `!{value}`. -/
def output (g : Setup σ E) (kind : Token.Kind) : Reader σ (Token E) := do
  let problem := Problem.invalidExpression .interpolation
  let start ← here
  bump 2
  let e ← expression g .inline problem
  unless ← eat "\x7d" do
    failAt (← here) problem
  return (← tokenFrom start kind).withExpr e

/-- One piece of a run. -/
def piece (g : Setup σ E) (inlineTag : Reader σ (Token E)) (interpolated : Bool) :
    Reader σ (Item (Token E) Unit) := do
  let start ← here
  match Front.ofRest interpolated start.rest with
  | .finished => return .last [] ()
  | .output kind => return .one (← output g kind)
  | .inlineTag => return .one (← inlineTag)
  | .literal escape text =>
    bump escape
    let c ← here
    moveTo (c.past text)
    return .one (.ofText .plainText c text)

/-- The pieces up to the end of a run. -/
def pieces (g : Setup σ E) (inlineTag : Reader σ (Token E)) (interpolated : Bool) :
    Reader σ (List (Token E)) :=
  return (← gather (piece g inlineTag interpolated) g.rounds).1

/-- A run of text as a token. -/
def run (g : Setup σ E) (inlineTag : Reader σ (Token E)) (interpolated : Bool) :
    Reader σ (Token E) := do
  let start ← here
  let ts ← pieces g inlineTag interpolated
  return (← tokenFrom start .linePlainText).withChildren ts

end TextRun

end Pug
