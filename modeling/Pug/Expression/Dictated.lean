import Pug.Expression.Basic

/-!
# Dictated answers and recorded calls

Two expression parsers that need no expression language. One gives the answers of a list in turn,
whatever it is asked. The other asks a given parser and keeps a record of the questions.
-/

namespace Pug.ExpressionParser

/-- The answers still to be given, and how many have been. -/
structure Dictation where
  /-- The number of answers given. -/
  given : Nat
  /-- The answers to come: nothing, or a number of bytes and a shape. -/
  answers : List (Option (Nat × Shape))
deriving Repr

/-- A parser that gives its answers by dictation, numbered from zero, and declines once they are
used up. -/
def dictated : ExpressionParser Dictation (Nat × Shape) where
  parse _ _ d :=
    match d.answers with
    | [] => (.declined, ⟨d.given + 1, []⟩)
    | none :: answers => (.declined, ⟨d.given + 1, answers⟩)
    | some (bytes, shape) :: answers =>
      (.accepted (d.given, shape) bytes, ⟨d.given + 1, answers⟩)
  shape := Prod.snd

/-- What a parser was asked, and what it answered. -/
structure Call (E : Type) where
  /-- The mode of the call. -/
  mode : Mode
  /-- The rest of the template that the parser was given. -/
  rest : List Char
  answer : Answer E
deriving DecidableEq, Repr

/-- Asks `parser` and notes each call, the latest first. -/
def recorded {σ E : Type} (parser : ExpressionParser σ E) :
    ExpressionParser (σ × List (Call E)) E where
  parse mode rest s :=
    match parser.parse mode rest s.1 with
    | (answer, t) => (answer, t, ⟨mode, rest, answer⟩ :: s.2)
  shape := parser.shape

theorem parse_recorded {σ E : Type} (parser : ExpressionParser σ E) (mode : Mode)
    (rest : List Char) (s : σ × List (Call E)) :
    (recorded parser).parse mode rest s =
      ((parser.parse mode rest s.1).1, (parser.parse mode rest s.1).2,
        ⟨mode, rest, (parser.parse mode rest s.1).1⟩ :: s.2) := rfl

end Pug.ExpressionParser
