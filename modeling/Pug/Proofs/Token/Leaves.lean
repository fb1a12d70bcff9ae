import Mathlib
import Pug.Token.Basic

/-!
# What the tokens of a tree say, in order

A tree is read in preorder: a token before its children. What a token says by itself is its kind,
its text, its span and its expression; where it stands in a tree does not matter for that. From
the tokens come the expressions of a tree and the bytes that its tokens account for.

*Leaf spans* are the spans in the order of the template: those of all tokens that are not made up
by their children, and those of the expressions that stand behind their own token, as the value of
an attribute or the condition of an `if` does. Such an expression comes before the first child of
its token that starts behind the start of the expression.
-/

namespace Pug.Token

variable {E : Type}

/-- A token without its children. -/
def bare (t : Token E) : Token E :=
  { t with children := [] }

/-- What the tokens of some trees say by themselves, in preorder. -/
def bares (ts : List (Token E)) : List (Token E) :=
  (preorderAll ts).map bare

/-- The expressions of some trees, each before those below its token. -/
def embeddedAll (ts : List (Token E)) : List (Embedded E) :=
  (preorderAll ts).filterMap Token.expr

/-- The expressions of a tree, each before those below its token. -/
def embedded (t : Token E) : List (Embedded E) :=
  t.preorder.filterMap Token.expr

/-- The spans that a token accounts for: its own if it is no container, and that of its
expression. -/
def covers (t : Token E) : List Span :=
  (if t.kind.isContainer then [] else [t.span]) ++ (t.expr.map Embedded.span).toList

/-- The spans that the tokens of some trees account for. -/
def coversAll (ts : List (Token E)) : List Span :=
  (preorderAll ts).flatMap covers

/-- The span of an expression that starts behind a span. -/
def apart? (span : Span) (expr : Option (Embedded E)) : Option Span :=
  (expr.map Embedded.span).filter (fun s ↦ span.stop ≤ s.start)

mutual

/-- The leaf spans of a tree. -/
def leafSpans : Token E → List Span
  | ⟨kind, _, span, expr, children⟩ =>
    (if kind.isContainer then [] else [span]) ++ leafSpansBelow (apart? span expr) children

/-- The leaf spans of some children, with the span of an expression that is still to be placed. -/
def leafSpansBelow : Option Span → List (Token E) → List Span
  | none, [] => []
  | some s, [] => [s]
  | none, t :: ts => t.leafSpans ++ leafSpansBelow none ts
  | some s, t :: ts =>
    if s.start ≤ t.span.start then s :: (t.leafSpans ++ leafSpansBelow none ts)
    else t.leafSpans ++ leafSpansBelow (some s) ts

end

/-- The leaf spans of some trees, one after the other. -/
def leafSpansAll (ts : List (Token E)) : List Span :=
  leafSpansBelow none ts

theorem preorder_eq (t : Token E) : t.preorder = t :: preorderAll t.children := by
  cases t
  simp [preorder]

@[simp] theorem preorderAll_nil : preorderAll ([] : List (Token E)) = [] := by
  simp [preorderAll]

@[simp] theorem preorderAll_cons (t : Token E) (ts : List (Token E)) :
    preorderAll (t :: ts) = t :: (preorderAll t.children ++ preorderAll ts) := by
  simp [preorderAll, preorder_eq]

@[simp] theorem preorderAll_append (ts us : List (Token E)) :
    preorderAll (ts ++ us) = preorderAll ts ++ preorderAll us := by
  induction ts with
  | nil => simp
  | cons t ts ih => simp [ih]

theorem bares_append (ts us : List (Token E)) : bares (ts ++ us) = bares ts ++ bares us := by
  simp [bares]

@[simp] theorem embeddedAll_nil : embeddedAll ([] : List (Token E)) = [] := by
  simp [embeddedAll]

@[simp] theorem embeddedAll_append (ts us : List (Token E)) :
    embeddedAll (ts ++ us) = embeddedAll ts ++ embeddedAll us := by
  simp [embeddedAll]

@[simp] theorem embeddedAll_cons (t : Token E) (ts : List (Token E)) :
    embeddedAll (t :: ts) = t.expr.toList ++ embeddedAll t.children ++ embeddedAll ts := by
  cases h : t.expr <;> simp [embeddedAll, h]

theorem embedded_eq (t : Token E) : t.embedded = t.expr.toList ++ embeddedAll t.children := by
  cases h : t.expr <;> simp [embedded, embeddedAll, preorder_eq, h]

@[simp] theorem coversAll_nil : coversAll ([] : List (Token E)) = [] := by
  simp [coversAll]

@[simp] theorem coversAll_append (ts us : List (Token E)) :
    coversAll (ts ++ us) = coversAll ts ++ coversAll us := by
  simp [coversAll]

@[simp] theorem coversAll_cons (t : Token E) (ts : List (Token E)) :
    coversAll (t :: ts) = t.covers ++ coversAll t.children ++ coversAll ts := by
  simp [coversAll]

@[simp] theorem leafSpansAll_nil : leafSpansAll ([] : List (Token E)) = [] := by
  rw [leafSpansAll, leafSpansBelow]

@[simp] theorem leafSpansAll_cons (t : Token E) (ts : List (Token E)) :
    leafSpansAll (t :: ts) = t.leafSpans ++ leafSpansAll ts := by
  rw [leafSpansAll, leafSpansBelow, leafSpansAll]

@[simp] theorem leafSpansBelow_none (ts : List (Token E)) :
    leafSpansBelow none ts = leafSpansAll ts := rfl

@[simp] theorem leafSpansBelow_nil (s : Option Span) :
    leafSpansBelow s ([] : List (Token E)) = s.toList := by
  cases s <;> rw [leafSpansBelow] <;> rfl

theorem leafSpansBelow_cons (s : Span) (t : Token E) (ts : List (Token E)) :
    leafSpansBelow (some s) (t :: ts) =
      if s.start ≤ t.span.start then s :: (t.leafSpans ++ leafSpansAll ts)
      else t.leafSpans ++ leafSpansBelow (some s) ts := by
  rw [leafSpansBelow, leafSpansAll]

theorem leafSpans_eq (t : Token E) :
    t.leafSpans = (if t.kind.isContainer then [] else [t.span]) ++
      leafSpansBelow (apart? t.span t.expr) t.children := by
  cases t
  rw [leafSpans]

@[simp] theorem leafSpansAll_append (ts us : List (Token E)) :
    leafSpansAll (ts ++ us) = leafSpansAll ts ++ leafSpansAll us := by
  induction ts with
  | nil => simp
  | cons t ts ih => simp [ih]

/-- A container without an expression accounts for what its children account for. -/
theorem leafSpansAll_container {t : Token E} (hk : t.kind.isContainer = true)
    (he : t.expr = none) : leafSpansAll [t] = leafSpansAll t.children := by
  simp [leafSpans_eq, hk, he, apart?]

/-- An expression that starts behind the start of every child comes after them. -/
theorem leafSpansBelow_of_forall_lt {s : Span} {ts : List (Token E)}
    (h : ∀ t ∈ ts, t.span.start < s.start) :
    leafSpansBelow (some s) ts = leafSpansAll ts ++ [s] := by
  induction ts with
  | nil => simp
  | cons t ts ih =>
    have ht : ¬s.start ≤ t.span.start := Nat.not_le.2 (h t (List.mem_cons_self ..))
    rw [leafSpansBelow_cons, if_neg ht, ih (fun u hu ↦ h u (List.mem_cons_of_mem _ hu))]
    simp

/-- Children that start behind the start of an expression come after it. -/
theorem leafSpansBelow_append {s : Option Span} (ts : List (Token E)) {us : List (Token E)}
    (h : ∀ x ∈ s, ∀ u ∈ us.head?, x.start ≤ u.span.start) :
    leafSpansBelow s (ts ++ us) = leafSpansBelow s ts ++ leafSpansAll us := by
  cases s with
  | none => simp
  | some x =>
    induction ts with
    | nil =>
      cases us with
      | nil => simp
      | cons u us =>
        have hu : x.start ≤ u.span.start := h x rfl u rfl
        simp [leafSpansBelow_cons, hu]
    | cons t ts ih =>
      rw [List.cons_append, leafSpansBelow_cons, leafSpansBelow_cons]
      split
      · simp
      · rw [ih, List.append_assoc]

/-- What a token says by itself decides its expression and the bytes that it accounts for. -/
theorem embeddedAll_eq_bares (ts : List (Token E)) :
    embeddedAll ts = (bares ts).filterMap Token.expr := by
  rw [bares, List.filterMap_map]
  rfl

theorem coversAll_eq_bares (ts : List (Token E)) : coversAll ts = (bares ts).flatMap covers := by
  rw [bares, List.flatMap_map]
  rfl

theorem mem_leafSpansBelow {s : Option Span} {x : Span} (h : x ∈ s) (ts : List (Token E)) :
    x ∈ leafSpansBelow s ts := by
  cases h
  induction ts with
  | nil => simp
  | cons t ts ih =>
    rw [leafSpansBelow_cons]
    split
    · exact List.mem_cons_self ..
    · exact List.mem_append_right _ ih

/-- A wrapper holds one tag, and neither has an expression of its own. -/
def WrapsTag (a : Token E) : Prop :=
  a.kind = .lineData → a.expr = none ∧ ∃ tag, a.children = [tag] ∧ tag.expr = none

/-- A line says one thing. -/
structure IsLine (line : Token E) : Prop where
  kind : line.kind = .line
  expr : line.expr = none
  children : ∃ payload : Token E, line.children = [payload] ∧ payload.WrapsTag

end Pug.Token
