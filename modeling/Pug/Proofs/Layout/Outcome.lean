import Pug.Proofs.Template

/-!
# What the lines come to

Reading goes line by line, in at most so many rounds. More rounds than it takes change nothing, so
what the lines from some state on come to does not depend on their number, and is not changed by a
blank line in front.
-/

namespace Pug.Page

open Text Token Reader

variable {σ E : Type} {g : Setup σ E} {p q : Page E} {s t : ReadState σ}
variable {r : Except Failure (Token E)} {n : Nat}

/-- What reading lines comes to: the tree of a page, or a failure. -/
def outcome : EStateM.Result Failure (ReadState σ) (Page E) → Except Failure (Token E)
  | .ok page _ => .ok page.outline.finish
  | .error f _ => .error f

/-- The lines behind a page come to a result, in as many rounds as they take or more. -/
def EndsIn (g : Setup σ E) (p : Page E) (s : ReadState σ) (r : Except Failure (Token E)) : Prop :=
  ∃ n, ∀ m, outcome (lines g (n + m) p s) = r

namespace EndsIn

/-- Lines that have been read are left out. -/
theorem skip {k : Nat} (h : ∀ m, lines g (k + m) p s = lines g m q t) :
    EndsIn g p s r ↔ EndsIn g q t r := by
  constructor
  · rintro ⟨n, hn⟩
    refine ⟨n, fun m ↦ ?_⟩
    rw [← h, Nat.add_left_comm]
    exact hn (k + m)
  · rintro ⟨n, hn⟩
    refine ⟨k + n, fun m ↦ ?_⟩
    rw [Nat.add_assoc, h]
    exact hn m

/-- A blank line in front changes nothing. -/
theorem blank (hne : s.cursor.rest ≠ []) (h : s.cursor.skipSpacing.atLineEnd = true) :
    EndsIn g p s r ↔ EndsIn g p { s with cursor := s.cursor.skipSpacing.nextLine } r := by
  apply skip (k := 1)
  intro m
  rw [Nat.add_comm, lines_before_end hne, bind_of_ok (line_of_blank h)]

end EndsIn

section Template

variable (parser : ExpressionParser σ E) (maxDepth : Nat) (source : List Char) (x : σ)

/-- A template comes to what its lines come to. -/
theorem lex_eq_outcome :
    lex parser maxDepth source x = outcome (readLines parser maxDepth source x) := by
  unfold lex
  cases h : readLines parser maxDepth source x with
  | ok page t => rw [readTemplate_eq_ok.2 ⟨page, h, rfl⟩, outcome]
  | error f t => rw [readTemplate_of_error h, outcome]

end Template

end Pug.Page
