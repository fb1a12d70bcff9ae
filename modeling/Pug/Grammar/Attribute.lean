import Pug.Grammar.Name
import Pug.Reader

/-!
# Attributes

A list of attributes stands in parentheses. Its entries are separated by commas, spacing or line
breaks. An entry is a name, bare or in quotes, and may have a value behind `=` or `!=`.
-/

namespace Pug.Attribute

open Text Reader

variable {σ E : Type}

/-- A name in quotes, which keeps its escapes, and the place where it starts. -/
def quotedName (quote : Char) : Reader σ (Cursor × List Char) := do
  let start ← here
  bump 1
  let inside ← here
  match Name.quoted? quote inside.rest with
  | none => failAt start .invalidAttributeName
  | some name =>
    moveTo (inside.past name)
    bump 1
    return (inside, name)

/-- A bare name, and the place where it starts. -/
def bareName : Reader σ (Cursor × List Char) := do
  let start ← here
  match Name.bare? start.rest with
  | none => failAt start .invalidAttributeName
  | some name =>
    moveTo (start.past name)
    return (start, name)

/-- A name in quotes or a bare one. -/
def anyName : Reader σ (Cursor × List Char) := do
  match (← here).rest.head? with
  | some '"' => quotedName '"'
  | some '\'' => quotedName '\''
  | _ => bareName

/-- A name that is not empty, and the place where it starts. -/
def name : Reader σ (Cursor × List Char) := do
  let start ← here
  let found ← anyName
  if found.2.isEmpty then failAt start .invalidAttributeName
  return found

/-- What may follow a name without a value. -/
def endsName (cs : List Char) : Bool :=
  cs.head?.all (fun c ↦ isSeparator c || c == ',' || c == ')')

/-- An entry of the list. -/
def entry (g : Setup σ E) : Reader σ (Token E) := do
  let (place, text) ← name
  let behind ← here
  skipSpacing
  if ← eat "!=" then
    let value ← expression g .attributeValue .invalidAttributeValue
    return (Token.ofText .attrPairUnescaped place text).withExpr value
  else if ← eat "=" then
    let value ← expression g .attributeValue .invalidAttributeValue
    return (Token.ofText .attrPairEscaped place text).withExpr value
  else
    moveTo behind
    unless endsName behind.rest do
      failAt behind .invalidAttributeName
    return .ofText .attrPairEscaped place text

/-- An entry and the comma behind it, or the end of the list that starts at `start`. -/
def item (g : Setup σ E) (start : Cursor) : Reader σ (Item (Token E) Unit) := do
  skipSeparators
  let c ← here
  match c.rest with
  | [] => failAt start .invalidAttributeList
  | ')' :: _ =>
    bump 1
    return .last [] ()
  | _ =>
    let t ← entry g
    skipSeparators
    let _ ← eat ","
    return .one t

/-- A list of attributes. -/
def list (g : Setup σ E) : Reader σ (Token E) := do
  let start ← here
  bump 1
  let (entries, _) ← gather (item g start) g.rounds
  return (← tokenFrom start .tagAttrList).withChildren entries

end Pug.Attribute
