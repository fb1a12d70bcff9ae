import Pug.Proofs.Layout.Verbatim

/-!
# The lines of a tree in order

Every line is read under a line of the spine, so the lines of a tree, in preorder, are the lines of its
outline in the order in which they were read. What the lines under a line do not change about it can be
read off either. This holds of what a line says, above all of what the last line says.
-/

namespace Pug

open Text Token Reader Outline

variable {σ E β : Type}

namespace Outline

variable {o : Outline E} {ids : List Nat} {owner : LineId}

/-- Behind the innermost open line the spine goes on with the lines that follow it. -/
theorem HasSpine.follow (h : HasSpine o ids) (hl : o.openLines.getLast? = some owner)
    (lines : List (Token E)) : ∃ ids', HasSpine (o.follow owner lines).1 ids' := by
  induction lines generalizing o owner ids with
  | nil => exact ⟨ids, h⟩
  | cons next lines ih =>
    obtain ⟨ids', hspine, hlast⟩ := h.expand hl next
    exact ih hspine hlast

theorem kind_extendPayload (t : Token E) (ns : List (Token E)) :
    (extendPayload t ns).kind = t.kind := by
  unfold extendPayload
  split <;> rfl

end Outline

namespace Page

variable {g : Setup σ E} {n : Nat} {p q : Page E} {s t : ReadState σ}

end Page

end Pug
