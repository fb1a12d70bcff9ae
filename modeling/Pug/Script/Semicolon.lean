import Pug.Script.Lexeme

/-!
# Semicolons that are left out

A statement may end without its semicolon: at the end of the text, before the brace that closes
its block, and where a line ends, unless the next line starts with a lexeme that goes on with the
statement.

The blanks of a line are those of ASCII. Any other stands for the start of a statement behind the
end of a line, and for the lexeme of the same statement before it. After each comment the question
is asked anew.
-/

namespace Pug.Script

/-- A lexeme that starts a statement when it stands first in a line. The words `in` and
`instanceof` go on with the statement before, and so does a word that starts with them without a
letter behind. -/
def startsLine : LexemeKind → Bool
  | .mark m => ["!", "++", "--", "~", ")", "]", "\x7b", "\x7d"].contains m
  | .word w =>
    match w.toList with
    | 'i' :: 'n' :: rest =>
      rest.head?.any Char.isAlpha &&
        (!"stanceof".toList.isPrefixOf rest || (rest.drop 8).head?.any Char.isAlpha)
    | _ => true
  | _ => true

/-- A lexeme that goes on with a jump or a declared name behind a comment. -/
def continuesBehindComment : LexemeKind → Bool
  | .mark m => m.toList.head?.any ['/', ',', '='].contains
  | _ => false

/-- A jump or a name that is declared ends at the comments which stand at the front of the filler
before a lexeme: at a line comment, or if a line ends in a block comment. The first flag tells that
a line has ended in a block comment so far, the second that the comment passed last is a line
comment, behind which blanks are passed too. -/
def endsAtComments (next : LexemeKind) : Bool → Bool → List Filler → Bool
  | breaks, _, .blockComment inside :: before => endsAtComments next (breaks || inside) false before
  | breaks, _, .lineComment :: before => endsAtComments next breaks true before
  | breaks, true, .blank c :: before => !isPlainBlank c || endsAtComments next breaks true before
  | breaks, false, .blank _ :: _ => breaks
  | breaks, line, [] => (breaks || line) && !continuesBehindComment next

/-- A statement ends before a lexeme with this filler. That the statement so far ends in a `value`
tells it from a jump without one and from a name that is declared. The flag tells that the question
is open: once the answer is no, only a comment opens it again. -/
def endsBefore (next : LexemeKind) (value : Bool) : Bool → List Filler → Bool
  | isOpen, [] => isOpen && (next = .finish || next = .mark "\x7d")
  | isOpen, .blank c :: before =>
    if isOpen && isLineEnd c then
      startsLine next || before.any Filler.isOtherBlank ||
        endsBefore next value false before
    else endsBefore next value (isOpen && isPlainBlank c) before
  | isOpen, f :: before =>
    (isOpen && !value && endsAtComments next false false (f :: before)) ||
      endsBefore next value true before

/-- A semicolon is left out before a lexeme. -/
def Lexeme.endsStatement (l : Lexeme) (value : Bool) : Bool :=
  endsBefore l.kind value true l.before

/-- Directly behind another lexeme a statement ends only at the end of the text and before a closing
brace. -/
@[simp] theorem endsStatement_mk_nil (k : LexemeKind) (value : Bool) :
    (Lexeme.mk k []).endsStatement value = (k = .finish || k = .mark "\x7d") := by
  simp [Lexeme.endsStatement, endsBefore]

end Pug.Script
