import Pug.Script.Semicolon

/-!
# Readers of lexemes

A reader takes lexemes from the front of a list and gives a result, or fails. Behind an expression
it can see the end of a statement as a semicolon, also where that is left out.

Braces can sometimes be read both as a block and as an object. Labels and the patterns of parameters
make a reading costly, and the one that costs less is taken.
-/

namespace Pug.Script

/-- How far a text is read. -/
structure Progress where
  /-- The lexemes that are left. -/
  ahead : List Lexeme
  /-- What the reading costs so far. -/
  cost : Nat
deriving DecidableEq, Repr

/-- A reader of lexemes. It fails where the text is no JavaScript. -/
abbrev LexemeReader := StateT Progress Option

namespace LexemeReader

/-- The lexemes that are left. -/
def ahead : LexemeReader (List Lexeme) :=
  return (← get).ahead

/-- Adds to the cost of the reading. -/
def charge (cost : Nat) : LexemeReader Unit :=
  modify (fun s ↦ { s with cost := s.cost + cost })

/-- How far a reader gets, if it does not fail. Nothing is taken. -/
def lookAhead {α : Type} (p : LexemeReader α) : LexemeReader (Option Progress) :=
  fun s ↦ some ((p s).map (·.2), s)

/-- The next lexeme. -/
def peek : LexemeReader Lexeme := do
  match ← ahead with
  | [] => failure
  | l :: _ => return l

/-- What the next lexeme is. -/
def peekKind : LexemeReader LexemeKind :=
  return (← peek).kind

/-- What the lexeme after the next one is. -/
def peekSecond : LexemeReader LexemeKind := do
  match ← ahead with
  | _ :: l :: _ => return l.kind
  | _ => return .finish

/-- What the next lexeme is where a statement may end before it: a semicolon if that is left out.
The statement so far may end in a `value`. -/
def peekEnd (value : Bool) : LexemeReader LexemeKind := do
  let l ← peek
  return if l.endsStatement value then .mark ";" else l.kind

/-- What the next lexeme is behind an expression, where a statement `ends` or may not end. -/
def peekBehind (ends : Bool) : LexemeReader LexemeKind :=
  if ends then peekEnd true else peekKind

/-- Takes the next lexeme. -/
def take : LexemeReader LexemeKind := do
  match ← ahead with
  | [] => failure
  | l :: ls =>
    modify (fun s ↦ { s with ahead := ls })
    return l.kind

/-- Takes the next lexeme if it is the one given, and tells whether it was. -/
def eat (k : LexemeKind) : LexemeReader Bool := do
  if (← peekKind) = k then
    let _ ← take
    return true
  else
    return false

/-- Takes the next lexeme, which must be the one given. -/
def expect (k : LexemeKind) : LexemeReader Unit := do
  unless ← eat k do failure

/-- Takes the given mark if it is next. -/
def eatMark (m : String) : LexemeReader Bool := eat (.mark m)

/-- Takes the given mark, which must be next. -/
def mark (m : String) : LexemeReader Unit := expect (.mark m)

/-- Takes a name, which any word may be. -/
def name : LexemeReader Unit := do
  match ← take with
  | .word _ => return
  | _ => failure

/-- Takes the end of a statement: a `;`, unless it is left out. -/
def statementEnd (value : Bool) : LexemeReader Unit := do
  unless (← peek).endsStatement value do mark ";"

end LexemeReader

end Pug.Script
