import Pug.Proofs.Text.LineEnding
import Pug.Proofs.Token.Shift
import Pug.Token.Dump

/-!
# Trees of another reading

A tree is *recast* by writing its texts with another line ending, by moving its spans and by telling
other things about its expressions. Its kinds and its shape stay. Moving alone is a shift.
-/

namespace Pug

open Text

variable {E E₁ E₂ : Type}

/-- How the tokens of one reading become those of another. -/
structure Recast (E₁ E₂ : Type) where
  /-- The line ending of the other texts. -/
  ending : LineEnding
  /-- The other place of an offset. -/
  offset : Nat → Nat
  /-- What the other reading tells about an expression. -/
  handle : Embedded E₁ → E₂

namespace Recast

variable (R : Recast E₁ E₂)

/-- The text of a token. -/
def text (s : String) : String :=
  String.ofList (R.ending.write s.toList)

/-- The bytes of a token. -/
def span (s : Span) : Span :=
  ⟨R.offset s.start, R.offset s.stop⟩

/-- An embedded expression. -/
def embedded (e : Embedded E₁) : Embedded E₂ :=
  ⟨R.handle e, R.text e.text, R.span e.span⟩

mutual

/-- A tree. -/
def token : Token E₁ → Token E₂
  | ⟨kind, text, span, expr, children⟩ =>
    ⟨kind, R.text text, R.span span, expr.map R.embedded, tokens children⟩

/-- Some trees. -/
def tokens : List (Token E₁) → List (Token E₂)
  | [] => []
  | t :: ts => token t :: tokens ts

end

/-- An error, with its problem and its help. -/
def error (e : LexError) : LexError :=
  { e with offset := R.offset e.offset }

/-- A failure: an error of the template stands elsewhere. -/
def failure : Failure → Failure
  | .error e => .error (R.error e)
  | f => f

/-- What reading ends with: a tree, or a failure. -/
def outcome : Except Failure (Token E₁) → Except Failure (Token E₂)
  | .ok t => .ok (R.token t)
  | .error f => .error (R.failure f)

/-- The same trees `k` bytes further on. -/
def moved (k : Nat) : Recast E E :=
  ⟨.lf, (· + k), Embedded.handle⟩

@[simp] theorem text_ofList (cs : List Char) :
    R.text (String.ofList cs) = String.ofList (R.ending.write cs) := by
  rw [text, String.toList_ofList]

@[simp] theorem toList_text (s : String) : (R.text s).toList = R.ending.write s.toList :=
  String.toList_ofList

@[simp] theorem text_empty : R.text "" = "" := rfl

@[simp] theorem text_embedded (e : Embedded E₁) : (R.embedded e).text = R.text e.text := rfl

@[simp] theorem span_embedded (e : Embedded E₁) : (R.embedded e).span = R.span e.span := rfl

@[simp] theorem handle_embedded (e : Embedded E₁) : (R.embedded e).handle = R.handle e := rfl

@[simp] theorem start_span (s : Span) : (R.span s).start = R.offset s.start := rfl

@[simp] theorem tokens_nil : R.tokens [] = [] := by
  rw [tokens]

@[simp] theorem tokens_cons (t : Token E₁) (ts : List (Token E₁)) :
    R.tokens (t :: ts) = R.token t :: R.tokens ts := by
  rw [tokens]

@[simp] theorem tokens_append (ts us : List (Token E₁)) :
    R.tokens (ts ++ us) = R.tokens ts ++ R.tokens us := by
  induction ts with
  | nil => simp
  | cons t ts ih => simp [ih]

theorem token_eq (t : Token E₁) : R.token t = ⟨t.kind, R.text t.text, R.span t.span,
    t.expr.map R.embedded, R.tokens t.children⟩ := by
  cases t
  rw [token]

@[simp] theorem kind_token (t : Token E₁) : (R.token t).kind = t.kind := by
  rw [token_eq]

@[simp] theorem children_token (t : Token E₁) : (R.token t).children = R.tokens t.children := by
  rw [token_eq]

@[simp] theorem length_tokens (ts : List (Token E₁)) : (R.tokens ts).length = ts.length := by
  induction ts with
  | nil => simp
  | cons t ts ih => simp [ih]

@[simp] theorem isEmpty_tokens (ts : List (Token E₁)) : (R.tokens ts).isEmpty = ts.isEmpty := by
  cases ts <;> simp

theorem token_withChildren (t : Token E₁) (ts : List (Token E₁)) :
    R.token (t.withChildren ts) = (R.token t).withChildren (R.tokens ts) := by
  rw [token_eq, token_eq]
  rfl

theorem token_withExpr (t : Token E₁) (e : Embedded E₁) :
    R.token (t.withExpr e) = (R.token t).withExpr (R.embedded e) := by
  rw [token_eq, token_eq]
  rfl

theorem token_leaf (kind : Token.Kind) (text : String) (span : Span) :
    R.token (.leaf kind text span) = .leaf kind (R.text text) (R.span span) := by
  rw [token_eq, Token.leaf, tokens_nil]
  rfl

section Texts

variable {R}

/-- A text whose line ending stays, stays. -/
theorem text_of_lf (h : R.ending = .lf) (s : String) : R.text s = s := by
  rw [text, h, LineEnding.write_lf, String.ofList_toList]

theorem dumpLine_token (h : R.ending = .lf) (level : Nat) (t : Token E₁) :
    (R.token t).dumpLine level = t.dumpLine level := by
  obtain ⟨kind, text, span, expr, children⟩ := t
  rw [token, Token.dumpLine, Token.dumpLine, text_of_lf h]
  cases expr with
  | none => rfl
  | some e =>
    dsimp only [Option.map_some]
    rw [text_embedded, text_of_lf h]

mutual

/-- A dump shows neither where tokens stand nor what is told about their expressions. -/
theorem dumpAt_token (h : R.ending = .lf) (level : Nat) :
    ∀ t : Token E₁, (R.token t).dumpAt level = t.dumpAt level
  | ⟨kind, text, span, expr, children⟩ => by
    have hline := dumpLine_token h level ⟨kind, text, span, expr, children⟩
    rw [token] at hline ⊢
    exact congrArg₂ (· ++ '\n' :: ·) hline (dumpAllAt_tokens h (level + 1) children)

theorem dumpAllAt_tokens (h : R.ending = .lf) (level : Nat) :
    ∀ ts : List (Token E₁), Token.dumpAllAt level (R.tokens ts) = Token.dumpAllAt level ts
  | [] => by rw [tokens, Token.dumpAllAt, Token.dumpAllAt]
  | t :: ts => by
    rw [tokens, Token.dumpAllAt, Token.dumpAllAt, dumpAt_token h level t,
      dumpAllAt_tokens h level ts]

end

end Texts

section Moved

variable (k : Nat)

theorem offset_moved_add (before w : List Char) : (moved k : Recast E E).offset
    (byteLength before + byteLength w) = (moved k : Recast E E).offset (byteLength before) +
      byteLength ((moved k : Recast E E).ending.write w) := by
  rw [show (moved k : Recast E E).ending = .lf from rfl, LineEnding.write_lf]
  exact Nat.add_right_comm _ _ _

theorem text_moved (s : String) : (moved k : Recast E E).text s = s :=
  text_of_lf rfl s

theorem embedded_moved (e : Embedded E) : (moved k).embedded e = e.shift k := by
  rw [embedded, text_moved]
  rfl

mutual

/-- Trees that are only moved are shifted. -/
theorem token_moved : ∀ t : Token E, (moved k).token t = t.shift k
  | ⟨kind, text, span, expr, children⟩ => by
    rw [token, Token.shift, text_moved, tokens_moved children]
    refine congrArg (fun e ↦ (⟨kind, text, _, e, _⟩ : Token E)) ?_
    exact congrArg (fun f ↦ expr.map f) (funext (embedded_moved k))

theorem tokens_moved : ∀ ts : List (Token E), (moved k).tokens ts = Token.shiftAll k ts
  | [] => by rw [tokens, Token.shiftAll]
  | t :: ts => by rw [tokens, Token.shiftAll, token_moved t, tokens_moved ts]

end

variable {k} {R : Recast E E}

/-- What has been moved, moved back. -/
theorem embedded_moved_back (he : R.ending = .lf) (hh : R.handle = Embedded.handle)
    (ho : ∀ n, R.offset (n + k) = n) (e : Embedded E) : R.embedded ((moved k).embedded e) = e := by
  obtain ⟨handle, text, ⟨start, stop⟩⟩ := e
  rw [embedded_moved, embedded, hh, Embedded.shift, text_of_lf he]
  exact congrArg (Embedded.mk handle text) (congrArg₂ Span.mk (ho start) (ho stop))

mutual

theorem token_moved_back (he : R.ending = .lf) (hh : R.handle = Embedded.handle)
    (ho : ∀ n, R.offset (n + k) = n) : ∀ t : Token E, R.token ((moved k).token t) = t
  | ⟨kind, text, ⟨start, stop⟩, expr, children⟩ => by
    rw [token, token, tokens_moved_back he hh ho children, text_moved, text_of_lf he, Option.map_map]
    have hexpr : expr.map (R.embedded ∘ (moved k).embedded) = expr := by
      cases expr with
      | none => rfl
      | some e => exact congrArg some (embedded_moved_back he hh ho e)
    rw [hexpr]
    exact congrArg (fun s ↦ (⟨kind, text, s, expr, children⟩ : Token E))
      (congrArg₂ Span.mk (ho start) (ho stop))

theorem tokens_moved_back (he : R.ending = .lf) (hh : R.handle = Embedded.handle)
    (ho : ∀ n, R.offset (n + k) = n) : ∀ ts : List (Token E), R.tokens ((moved k).tokens ts) = ts
  | [] => by rw [tokens, tokens]
  | t :: ts => by
    rw [tokens, tokens, token_moved_back he hh ho t, tokens_moved_back he hh ho ts]

end

end Moved

end Recast

end Pug
