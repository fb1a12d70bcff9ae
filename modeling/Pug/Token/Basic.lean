import Pug.Token.Kind

/-!
# Tokens

A template is read into a tree of tokens. Each token tells its kind, the text it was read from,
the bytes of the template where that text stands, the expression it embeds, and its children.
-/

namespace Pug

/-- A range of bytes of the template. -/
structure Span where
  start : Nat
  stop : Nat
deriving DecidableEq, Repr, Inhabited

namespace Span

/-- The number of bytes of a span. -/
def length (s : Span) : Nat :=
  s.stop - s.start

/-- The span holds no byte. -/
def isEmpty (s : Span) : Bool :=
  s.start == s.stop

end Span

/-- An expression embedded in a template, with what the expression parser told about it. -/
structure Embedded (E : Type) where
  handle : E
  /-- The expression without blanks around it. -/
  text : String
  span : Span
deriving DecidableEq, Repr

/-- A node of the tree that a template is read into. -/
structure Token (E : Type) where
  kind : Token.Kind
  text : String
  span : Span
  expr : Option (Embedded E)
  children : List (Token E)

namespace Token

variable {E : Type}

/-- A token without an expression and without children. -/
def leaf (kind : Kind) (text : String) (span : Span) : Token E :=
  ⟨kind, text, span, none, []⟩

/-- The token with an expression. -/
def withExpr (t : Token E) (e : Embedded E) : Token E :=
  { t with expr := some e }

/-- The token with its children. -/
def withChildren (t : Token E) (ts : List (Token E)) : Token E :=
  { t with children := ts }

/-- What a line says: its first child. Other tokens have no payload. -/
def payload? (t : Token E) : Option (Token E) :=
  if t.kind = .line then t.children.head? else none

/-- The children of a given kind. -/
def childrenOf (t : Token E) (kind : Kind) : List (Token E) :=
  t.children.filter (fun c ↦ c.kind = kind)

/-- The lines directly below a token. -/
def lines (t : Token E) : List (Token E) :=
  t.childrenOf .line

/-- The text of the embedded expression. -/
def exprText? (t : Token E) : Option String :=
  t.expr.map Embedded.text

/-- Drops each backslash and keeps the character behind it. -/
def unescape : List Char → List Char
  | [] => []
  | c :: rest =>
    if c == '\\' then
      match rest with
      | [] => []
      | d :: rest => d :: unescape rest
    else c :: unescape rest

/-- The name of an attribute as its text means it. -/
def attributeName (t : Token E) : String :=
  String.ofList (unescape t.text.toList)

mutual

/-- The depth of the deepest token below this one. -/
def depth : Token E → Nat
  | ⟨_, _, _, _, children⟩ => depthBelow children

/-- One more than the depth of the deepest of some trees, or zero if there are none. -/
def depthBelow : List (Token E) → Nat
  | [] => 0
  | t :: ts => max (t.depth + 1) (depthBelow ts)

end

mutual

/-- The greatest number of lines on a path downwards from this token. -/
def lineDepth : Token E → Nat
  | ⟨kind, _, _, _, children⟩ =>
    lineDepthBelow children + (if kind = .line then 1 else 0)

/-- The greatest line depth of some trees. -/
def lineDepthBelow : List (Token E) → Nat
  | [] => 0
  | t :: ts => max t.lineDepth (lineDepthBelow ts)

end

mutual

/-- A token and all below it, each before its children. -/
def preorder : Token E → List (Token E)
  | ⟨kind, text, span, expr, children⟩ =>
    ⟨kind, text, span, expr, children⟩ :: preorderAll children

/-- Some trees, one after the other, in preorder. -/
def preorderAll : List (Token E) → List (Token E)
  | [] => []
  | t :: ts => t.preorder ++ preorderAll ts

end

theorem mem_preorder_self (t : Token E) : t ∈ t.preorder := by
  cases t; simp [preorder]

end Token

end Pug
