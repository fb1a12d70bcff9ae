import Pug.Proofs.Layout.LineOrder
import Pug.Proofs.Layout.Outcome
import Pug.Proofs.Lockstep.Concat

/-!
# Blank lines

A blank line behind a template that can be read leaves the page, the unit of indentation and any open
block of text as they are, whatever it consists of. So what follows is read the same, only further on.

The two runs over what follows go on behind the same page, in which nothing has moved. To compare them,
each is put beside a third run, which starts at the front of what follows, with the page set aside: its
tokens are moved out of the way, to where no token of what follows can be.
-/

namespace Pug

open Text Token Reader Outline
open ExpressionParser (loose)

variable {σ E : Type}

section Rejoin

variable {length shift : Nat}

end Rejoin

namespace Link

variable {source : List Char} {shift : Nat} {Excused : Failure → Prop}

end Link

namespace Page.EndsIn

variable {parser : ExpressionParser σ E} {maxDepth n m start k : Nat} {p : Page E}
variable {unit : Option IndentUnit} {x : σ} {source : List Char} {a b : Except Failure (Token E)}

/-- A line of nothing but spacing is passed. -/
theorem spacing {g : Setup σ E} {blanks : List Char} {offset : Nat}
    (hb : ∀ x ∈ blanks, isSpacing x = true) :
    EndsIn g p ⟨⟨offset, blanks ++ '\n' :: source⟩, unit, x⟩ a ↔
      EndsIn g p ⟨⟨offset + (blanks.length + 1), source⟩, unit, x⟩ a := by
  have hskip : (⟨offset, blanks ++ '\n' :: source⟩ : Cursor).skipSpacing =
      ⟨offset + blanks.length, '\n' :: source⟩ := by
    rw [Cursor.skipSpacing_append hb rfl, byteLength_of_spacing hb]
  have hnext : (⟨offset + blanks.length, '\n' :: source⟩ : Cursor).nextLine =
      ⟨offset + (blanks.length + 1), source⟩ :=
    Cursor.nextLine_eq .lf source nofun
  refine (blank (List.append_ne_nil_of_right_ne_nil blanks (List.cons_ne_nil '\n' source)) ?_).trans ?_
  · rw [hskip]
    rfl
  · dsimp only
    rw [hskip, hnext]

end Page.EndsIn

section Lex

variable {maxDepth : Nat} {source₁ source₂ blanks : List Char} {root : Token Shape}

end Lex

end Pug
