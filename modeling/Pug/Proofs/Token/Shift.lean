import Mathlib
import Pug.Reader

/-!
# Trees at another place

A tree is shifted by shifting the spans of all its tokens and expressions.
-/

namespace Pug

variable {E : Type} {k : Nat}

namespace Span

/-- The span `k` bytes further on. -/
def shift (k : Nat) (s : Span) : Span :=
  ⟨s.start + k, s.stop + k⟩

@[simp] theorem start_shift (s : Span) : (s.shift k).start = s.start + k := rfl

@[simp] theorem shift_zero (s : Span) : s.shift 0 = s := rfl

end Span

namespace Embedded

/-- The expression `k` bytes further on. -/
def shift (k : Nat) (e : Embedded E) : Embedded E :=
  { e with span := e.span.shift k }

@[simp] theorem handle_shift (e : Embedded E) : (e.shift k).handle = e.handle := rfl

@[simp] theorem text_shift (e : Embedded E) : (e.shift k).text = e.text := rfl

@[simp] theorem span_shift (e : Embedded E) : (e.shift k).span = e.span.shift k := rfl

@[simp] theorem shift_zero (e : Embedded E) : e.shift 0 = e := rfl

end Embedded

namespace Token

mutual

/-- The tree `k` bytes further on. -/
def shift (k : Nat) : Token E → Token E
  | ⟨kind, text, span, expr, children⟩ =>
    ⟨kind, text, span.shift k, expr.map (Embedded.shift k), shiftAll k children⟩

/-- Some trees `k` bytes further on. -/
def shiftAll (k : Nat) : List (Token E) → List (Token E)
  | [] => []
  | t :: ts => t.shift k :: shiftAll k ts

end

@[simp] theorem shiftAll_nil : shiftAll k ([] : List (Token E)) = [] := by
  rw [shiftAll]

@[simp] theorem shiftAll_cons (t : Token E) (ts : List (Token E)) :
    shiftAll k (t :: ts) = t.shift k :: shiftAll k ts := by
  rw [shiftAll]

@[simp] theorem shiftAll_append (ts us : List (Token E)) :
    shiftAll k (ts ++ us) = shiftAll k ts ++ shiftAll k us := by
  induction ts with
  | nil => simp
  | cons t ts ih => simp [ih]

theorem shift_eq (t : Token E) : t.shift k = ⟨t.kind, t.text, t.span.shift k,
    t.expr.map (Embedded.shift k), shiftAll k t.children⟩ := by
  cases t
  rw [shift]

@[simp] theorem kind_shift (t : Token E) : (t.shift k).kind = t.kind := by
  rw [shift_eq]

@[simp] theorem span_shift (t : Token E) : (t.shift k).span = t.span.shift k := by
  rw [shift_eq]

@[simp] theorem expr_shift (t : Token E) : (t.shift k).expr = t.expr.map (Embedded.shift k) := by
  rw [shift_eq]

@[simp] theorem children_shift (t : Token E) : (t.shift k).children = shiftAll k t.children := by
  rw [shift_eq]

@[simp] theorem length_shiftAll (ts : List (Token E)) : (shiftAll k ts).length = ts.length := by
  induction ts with
  | nil => simp
  | cons t ts ih => simp [ih]

theorem shift_withChildren (t : Token E) (ts : List (Token E)) :
    (t.withChildren ts).shift k = (t.shift k).withChildren (shiftAll k ts) := by
  rw [shift_eq, shift_eq]
  rfl

mutual

@[simp] theorem shift_zero : ∀ t : Token E, t.shift 0 = t
  | ⟨kind, text, span, expr, children⟩ => by
    rw [shift, shiftAll_zero children]
    cases expr <;> rfl

@[simp] theorem shiftAll_zero : ∀ ts : List (Token E), shiftAll 0 ts = ts
  | [] => shiftAll_nil
  | t :: ts => by rw [shiftAll, shift_zero t, shiftAll_zero ts]

end

end Token

end Pug
