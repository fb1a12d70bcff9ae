import Pug.Token.Basic
import Pug.Text.Quoted

/-!
# Dumps

A dump shows a tree with one line for each token: two spaces for each level, the kind, the text
unless the token is a container or its text is empty, and the expression if there is one. Texts
are quoted, so no text reaches over its own line.
-/

namespace Pug.Token

open Text

variable {E : Type}

/-- The line of one token, without the break behind it. -/
def dumpLine (level : Nat) (t : Token E) : List Char :=
  List.replicate (2 * level) ' ' ++ t.kind.name.toList ++
    (if t.kind.isContainer || t.text.isEmpty then [] else ' ' :: dumpQuoted t.text.toList) ++
    (match t.expr with
      | none => []
      | some e => " expr=".toList ++ dumpQuoted e.text.toList)

mutual

/-- The lines of a tree whose root stands at `level`. -/
def dumpAt (level : Nat) : Token E → List Char
  | ⟨kind, text, span, expr, children⟩ =>
    dumpLine level ⟨kind, text, span, expr, children⟩ ++ '\n' :: dumpAllAt (level + 1) children

/-- The lines of some trees whose roots stand at `level`. -/
def dumpAllAt (level : Nat) : List (Token E) → List Char
  | [] => []
  | t :: ts => dumpAt level t ++ dumpAllAt level ts

end

/-- The tree as text, one line for each token. -/
def dump (t : Token E) : String :=
  String.ofList (dumpAt 0 t)

end Pug.Token
