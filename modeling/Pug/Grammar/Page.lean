import Pug.Grammar.Line
import Pug.Layout.Outline

/-!
# Pages

A page is read line by line into an outline. A line below a comment, below a lone `.` or below a
tag that ends in one is text, as long as it is indented by one level more; blank lines are
skipped.
-/

namespace Pug

open Text Reader

variable {σ E : Type}

/-- A line that makes the lines below it text. -/
structure Verbatim where
  owner : LineId
  /-- The level of the line of the template that the owner stands on. -/
  level : Nat
  /-- The text may hold output and inline tags. -/
  interpolate : Bool
deriving DecidableEq, Repr

/-- What has been read of a template. -/
structure Page (E : Type) where
  outline : Outline E
  /-- The line whose text the next lines may be. -/
  verbatim : Option Verbatim

namespace Page

/-- Nothing has been read. -/
def empty (maxDepth : Nat) : Page E := ⟨.empty maxDepth, none⟩

/-- The indentation that makes a line with this run text, if it does. -/
def margin? (verbatim : Option Verbatim) (run : List Char) :
    Reader σ (Option (Verbatim × List Char)) := do
  match verbatim with
  | none => return none
  | some block =>
    let s ← get
    let (margin, unit) := Indent.marginOf s.unit (block.level + 1) run
    set { s with unit := unit }
    return margin.map (block, ·)

/-- The level of a line that starts at `start` with this run. -/
def level (start : Cursor) (run : List Char) : Reader σ Nat := do
  let s ← get
  let (indent, unit) := Indent.level s.unit run
  set { s with unit := unit }
  match indent with
  | .ok n => return n
  | .error misfit => failWithHelp (start.skip misfit.index) .mixedIndentation misfit.help

/-- Goes on only if a line has been added. -/
def expectLine (outline : Outline E) (id : LineId) : Reader σ Unit :=
  unless outline.has id do
    throw .outOfRange

/-- The lines that follow `owner` on the same line of the template, of which `levels` more are
accepted: the outline with them, the last of them, and what it asks of the lines below. -/
def followers (g : Setup σ E) (level : Nat) :
    Nat → Outline E → LineId → Reader σ (Outline E × LineId × LineTail)
  | levels, outline, owner => do
    skipSpacing
    let c ← here
    if c.atLineEnd then
      return (outline, owner, .plain)
    else
      match levels with
      | 0 =>
        failWithHelp c .indentationTooDeep
          ("followed-by lines nest deeper than " ++ toString g.maxDepth ++ " levels")
      | levels + 1 =>
        let (line, tail) ← Line.markup g level
        expectLine outline owner
        let (outline, owner) := outline.expand owner line
        if tail = .follow then followers g level levels outline owner
        else return (outline, owner, tail)

/-- A line at `level`, and the lines that follow it on the same line of the template. -/
def chain (g : Setup σ E) (level : Nat) (outline : Outline E) :
    Reader σ (Outline E × LineId × LineTail) := do
  let start ← here
  let (line, tail) ← Line.markup g level
  expectLine outline (outline.parentAt level)
  match outline.openLine level line with
  | .error problem => failAt start problem
  | .ok (outline, owner) =>
    if tail = .follow then followers g level (g.maxDepth - (level + 1)) outline owner
    else return (outline, owner, tail)

/-- A line of the template with the given run, which starts at `start`. -/
def markupLine (g : Setup σ E) (outline : Outline E) (start : Cursor) (run : List Char) :
    Reader σ (Page E) := do
  let level ← level start run
  let content := start.past run
  match outline.checkLevel level with
  | some problem => failAt content problem
  | none =>
    moveTo content
    let (outline, owner, tail) ← chain g level outline
    endRun false
    moveTo (← here).nextLine
    match tail with
    | .verbatim interpolate => return ⟨outline, some ⟨owner, level, interpolate⟩⟩
    | _ => return ⟨outline, none⟩

/-- A line of text whose margin ends at the cursor. -/
def textLine (g : Setup σ E) (outline : Outline E) (block : Verbatim) : Reader σ (Page E) := do
  let line ← Line.verbatim g block.interpolate
  moveTo (← here).nextLine
  expectLine outline block.owner
  return ⟨(outline.append block.owner line).1, some block⟩

/-- One line of the template, or a block of code. -/
def line (g : Setup σ E) : Page E → Reader σ (Page E)
  | ⟨outline, verbatim⟩ => do
    let start ← here
    let run := start.rest.takeWhile isSpacing
    let content := start.past run
    if content.atLineEnd then
      moveTo content.nextLine
      return ⟨outline, verbatim⟩
    else
      match ← margin? verbatim run with
      | some (block, margin) =>
        moveTo (← placeAt start (start.offset + byteLength margin))
        textLine g outline block
      | none => markupLine g outline start run

/-- All lines up to the end of the template, in at most so many rounds. -/
def lines (g : Setup σ E) : Nat → Page E → Reader σ (Page E)
  | 0, _ => throw .stalled
  | n + 1, page => do
    if (← here).atEnd then
      return page
    else
      lines g n (← line g page)

end Page

/-- A template as a tree, with the state that the reading leaves behind. -/
def readTemplate (parser : ExpressionParser σ E) (maxDepth : Nat) (source : List Char) (s : σ) :
    EStateM.Result Failure (ReadState σ) (Token E) :=
  let g : Setup σ E := ⟨parser, maxDepth, source.length + 1⟩
  (do return (← Page.lines g g.rounds (.empty maxDepth)).outline.finish : Reader σ (Token E)).run
    ⟨.start source, none, s⟩

/-- The number of levels accepted when none is given. -/
def defaultMaxDepth : Nat := 32

/-- Reads a template into its tree. -/
def lex (parser : ExpressionParser σ E) (maxDepth : Nat) (source : List Char) (s : σ) :
    Except Failure (Token E) :=
  match readTemplate parser maxDepth source s with
  | .ok t _ => .ok t
  | .error e _ => .error e

end Pug
