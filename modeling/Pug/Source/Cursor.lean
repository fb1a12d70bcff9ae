import Pug.Text.Blank

/-!
# Cursors

A cursor is a place in a template: the characters still to be read and the number of bytes before
them. It moves in one way only, over whole characters at the front of what is left, so that it
never stands inside a character, and the text between two cursors of one source is well defined.
-/

namespace Pug

/-- A place in a template. -/
structure Cursor where
  /-- The number of bytes before the place. -/
  offset : Nat
  /-- What follows the place. -/
  rest : List Char
deriving DecidableEq, Repr

namespace Cursor

open Text

/-- The beginning of a template. -/
def start (source : List Char) : Cursor := ⟨0, source⟩

/-- The place `n` characters further on, or the end. -/
def skip (c : Cursor) (n : Nat) : Cursor :=
  ⟨c.offset + byteLength (c.rest.take n), c.rest.drop n⟩

/-- The place behind `word`, which stands at the front. -/
def past (c : Cursor) (word : List Char) : Cursor :=
  c.skip word.length

/-- The place at a byte offset further on. -/
def skipTo (c : Cursor) (offset : Nat) : Cursor :=
  c.past (firstBytes (offset - c.offset) c.rest)

/-- The text from one cursor to a later one. -/
def upTo (c d : Cursor) : List Char :=
  firstBytes (d.offset - c.offset) c.rest

/-- Nothing is left. -/
def atEnd (c : Cursor) : Bool :=
  c.rest.isEmpty

/-- The next character ends the line, or nothing is left. -/
def atLineEnd (c : Cursor) : Bool :=
  c.rest.head?.all isBreak

/-- The rest of the line, without the line break. -/
def line (c : Cursor) : List Char :=
  firstLine c.rest

/-- Only spacing is left on the line. -/
def atBlankLine (c : Cursor) : Bool :=
  c.line.all isSpacing

/-- Whether `word` stands at the front. -/
def startsWith (c : Cursor) (word : String) : Bool :=
  word.toList.isPrefixOf c.rest

/-- The place behind the characters at the front that satisfy `p`. -/
def skipWhile (c : Cursor) (p : Char → Bool) : Cursor :=
  c.past (c.rest.takeWhile p)

/-- The place behind the spacing. -/
def skipSpacing (c : Cursor) : Cursor :=
  c.skipWhile isSpacing

/-- The place behind spacing and line breaks. -/
def skipSeparators (c : Cursor) : Cursor :=
  c.skipWhile isSeparator

/-- The place before the next line break. -/
def lineEnd (c : Cursor) : Cursor :=
  c.past c.line

/-- The line break at the front: `\r\n`, `\n`, `\r`, or nothing. -/
def lineBreak (c : Cursor) : List Char :=
  match c.rest with
  | '\r' :: '\n' :: _ => ['\r', '\n']
  | '\r' :: _ => ['\r']
  | '\n' :: _ => ['\n']
  | _ => []

/-- The place behind the line break at the front. -/
def nextLine (c : Cursor) : Cursor :=
  c.past c.lineBreak

@[simp] theorem rest_skip (c : Cursor) (n : Nat) : (c.skip n).rest = c.rest.drop n := rfl

@[simp] theorem offset_skip (c : Cursor) (n : Nat) :
    (c.skip n).offset = c.offset + byteLength (c.rest.take n) := rfl

@[simp] theorem skip_zero (c : Cursor) : c.skip 0 = c := by
  simp [skip]

/-- Two steps forward make one. -/
@[simp] theorem skip_skip (c : Cursor) (m n : Nat) : (c.skip m).skip n = c.skip (m + n) := by
  simp [skip, List.take_add, Nat.add_assoc]

/-- Behind a word that stands at the front comes what follows the word. -/
theorem rest_past_append (c : Cursor) (word others : List Char) (h : c.rest = word ++ others) :
    (c.past word).rest = others := by
  simp [past, h]

/-- The text from a cursor to the place `n` characters further on is the first `n` characters. -/
@[simp] theorem upTo_skip (c : Cursor) (n : Nat) : c.upTo (c.skip n) = c.rest.take n := by
  have h := firstBytes_append (c.rest.take n) (c.rest.drop n)
  rw [List.take_append_drop] at h
  simpa [upTo] using h

end Cursor

end Pug
