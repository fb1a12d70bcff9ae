import Pug.Script.Semicolon
import Pug.Script.Word

/-!
# What the lexemes ahead decide

Some constructs start alike and are told apart further on: a function with an arrow by the arrow
behind its parameters, a method by the parentheses behind its key, an object from a block by what
stands first in the braces. Each question is answered by the lexemes ahead alone.
-/

namespace Pug.Script

/-- The marks that open brackets. -/
def isOpener : LexemeKind → Bool
  | .mark m => ["(", "[", "\x7b", partOpener].contains m
  | _ => false

/-- The marks that close brackets. -/
def isCloser : LexemeKind → Bool
  | .mark m => [")", "]", "\x7d"].contains m
  | _ => false

/-- What follows the bracket that closes an open one, behind `depth` more that are to close
first. -/
def afterCloser : Nat → List Lexeme → List Lexeme
  | _, [] => []
  | depth, l :: ls =>
    if isOpener l.kind then afterCloser (depth + 1) ls
    else if isCloser l.kind then
      match depth with
      | 0 => ls
      | depth + 1 => afterCloser depth ls
    else afterCloser depth ls

/-- Whole lexemes are passed up to the closing bracket. -/
theorem afterCloser_suffix (depth : Nat) (ls : List Lexeme) : afterCloser depth ls <:+ ls := by
  fun_induction afterCloser depth ls with
  | case1 => exact List.suffix_refl _
  | case2 _ l ls _ ih => exact ih.trans (List.suffix_cons l ls)
  | case3 l ls _ _ => exact List.suffix_cons l ls
  | case4 l ls _ _ _ ih => exact ih.trans (List.suffix_cons l ls)
  | case5 _ l ls _ _ ih => exact ih.trans (List.suffix_cons l ls)

/-- What follows the brackets at the front is the given mark. -/
def bracketsBefore (m : String) (ls : List Lexeme) : Bool :=
  (afterCloser 0 (ls.drop 1)).head?.any (·.kind == .mark m)

/-- The lexemes are parentheses before an arrow. -/
def startsParameters (ls : List Lexeme) : Bool :=
  ls.head?.any (·.kind == .mark "(") && bracketsBefore "=>" ls

/-- The word is a name behind `async`, which is a name itself before an operator. -/
def followsAsync (w : String) : Bool :=
  w != "in" && w != "instanceof" && w != "function"

/-- The lexemes start a function with an arrow, before which the word `async` may stand. A statement
that `ends` may end behind that word. -/
def startsArrow (ends : Bool) (ls : List Lexeme) : Bool :=
  match ls with
  | ⟨.word w, _⟩ :: l :: ls =>
    (l.kind == .mark "=>" && isName w) ||
      (w == "async" && not (ends && l.endsStatement true) &&
        match l.kind with
        | .word v => followsAsync v && ls.head?.any (·.kind == .mark "=>")
        | _ => startsParameters (l :: ls))
  | _ => startsParameters ls

/-- What the key of a property starts with. -/
def startsKey : LexemeKind → Bool
  | .word _ | .number | .string => true
  | .mark m => m == "["
  | .finish => false

/-- A word before the key of a method is followed by this. -/
def followsMethodWord (w : String) (next : LexemeKind) : Bool :=
  startsKey next || (next == .mark "*" && (w == "static" || w == "async"))

/-- A word starts a method where a statement may stand. Before an operator that is a word it is a
name, and `async` may be that of a function. -/
def startsMethod (w : String) (next : LexemeKind) : Bool :=
  ["static", "async", "get", "set"].contains w && followsMethodWord w next &&
    match next with
    | .word v => v != "in" && v != "instanceof" && !(w == "async" && v == "function")
    | _ => true

/-- In open braces, outside of `depth` more, there are parentheses before braces that start a line.
Such braces are the body of a method, or a statement. -/
def hasDetachedBody : Nat → List Lexeme → Bool
  | _, [] => false
  | depth, l :: ls =>
    if isOpener l.kind then hasDetachedBody (depth + 1) ls
    else if isCloser l.kind then
      (l.kind == .mark ")" &&
        ls.head?.any (fun b ↦ b.kind == .mark "\x7b" && b.endsStatement true)) ||
      match depth with
      | 0 => false
      | depth + 1 => hasDetachedBody depth ls
    else hasDetachedBody depth ls

/-- What stands first in open braces, outside of `depth` more brackets, ends as a property does: at
a comma, or at the closing brace if no semicolon is left out before that. -/
def endsAsProperty : Nat → List Lexeme → Bool
  | _, [] => false
  | depth, l :: ls =>
    if isOpener l.kind then endsAsProperty (depth + 1) ls
    else if isCloser l.kind then
      match depth with
      | 0 => !l.endsStatement true
      | depth + 1 => endsAsProperty depth ls
    else (depth == 0 && l.kind == .mark ",") || endsAsProperty depth ls

/-- Braces at the front, where a statement may stand, can be an object: what stands first in them
has a key with a colon or is a method, or has three dots, or is left out, or ends as a property
does. A name alone before a comma starts a statement all the same. -/
def mayStartObject : List Lexeme → Bool
  | [] => false
  | _ :: ls =>
    match ls with
    | ⟨.word w, _⟩ :: l :: _ =>
      isLeadingName w && !l.endsStatement true &&
        (l.kind == .mark ":" || l.kind == .mark "(" || startsMethod w l.kind ||
          ((l.kind == .mark "=" || l.kind == .mark "\x7d") && endsAsProperty 0 ls))
    | ⟨.string, _⟩ :: l :: _ =>
      (l.kind == .mark ":" && !l.endsStatement true) || l.kind == .mark "("
    | ⟨.number, _⟩ :: l :: _ =>
      (l.kind == .mark ":" && !l.endsStatement true) || l.kind == .mark "("
    | ⟨.mark "[", _⟩ :: _ =>
      bracketsBefore ":" ls || bracketsBefore "(" ls ||
        (bracketsBefore "=" ls && endsAsProperty 0 ls)
    | ⟨.mark "\x7b", _⟩ :: l :: _ =>
      bracketsBefore "=" ls && endsAsProperty 0 ls &&
        (l.kind == .mark "\x7d" || mayStartObject ls)
    | l :: _ => l.kind == .mark "..." || l.kind == .mark "," || l.kind == .mark "*"
    | [] => false

end Pug.Script
