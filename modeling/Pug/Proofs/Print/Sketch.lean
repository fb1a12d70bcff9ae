import Pug.Proofs.Token.Leaves
import Pug.Reader

/-!
# Sketches

A *sketch* is what a tree tells apart from where its tokens stand: the kinds, the texts, but for
those that are made up by children, the texts of the expressions, and what lies below what. It is
what a dump shows. To say that a template reads as what was written, it is enough to say what the
sketch of its tree is.
-/

namespace Pug

open Text

variable {E : Type}

/-- What a token tells apart from where it stands. -/
structure Sketch where
  kind : Token.Kind
  /-- The text, empty where the children make it up. -/
  text : String
  /-- The text of the expression. -/
  expr : Option String
  children : List Sketch

namespace Sketch

/-- A token of a text, without an expression and without children. -/
def leaf (kind : Token.Kind) (text : List Char) : Sketch :=
  ⟨kind, String.ofList text, none, []⟩

/-- A token that is made up by its children. -/
def row (kind : Token.Kind) (children : List Sketch) : Sketch :=
  ⟨kind, "", none, children⟩

/-- The token of a text in which an expression stands. -/
def value (kind : Token.Kind) (text expr : List Char) : Sketch :=
  ⟨kind, String.ofList text, some (String.ofList expr), []⟩

/-- Texts that stand side by side are one text. -/
def join (s : Sketch) : List Sketch → List Sketch
  | [] => [s]
  | t :: rest =>
    if s.kind = .plainText ∧ t.kind = .plainText then { t with text := s.text ++ t.text } :: rest
    else s :: t :: rest

mutual

/-- A sketch with its texts joined, wherever they stand. -/
def joined : Sketch → Sketch
  | ⟨kind, text, expr, children⟩ => ⟨kind, text, expr, joinedAll children⟩

/-- Some sketches with their texts joined. -/
def joinedAll : List Sketch → List Sketch
  | [] => []
  | s :: rest => join s.joined (joinedAll rest)

end

variable {s : Sketch} {ss : List Sketch}

theorem join_of_ne (h : s.kind ≠ .plainText) (ss : List Sketch) : join s ss = s :: ss := by
  cases ss with
  | nil => rfl
  | cons t rest => rw [join, if_neg (mt And.left h)]

theorem join_ne_nil (s : Sketch) (ss : List Sketch) : join s ss ≠ [] := by
  cases ss with
  | nil => exact List.cons_ne_nil _ _
  | cons t rest =>
    rw [join]
    split <;> exact List.cons_ne_nil _ _

/-- What is no text is not joined with what stands behind it. -/
theorem joinedAll_append (h : ∀ s ∈ ss, s.kind ≠ .plainText ∧ s.joined = s) (ts : List Sketch) :
    joinedAll (ss ++ ts) = ss ++ joinedAll ts := by
  induction ss with
  | nil => rfl
  | cons s rest ih =>
    obtain ⟨⟨hkind, hs⟩, hrest⟩ := List.forall_mem_cons.1 h
    rw [List.cons_append, joinedAll, hs, join_of_ne hkind, ih hrest]
    rfl

theorem joinedAll_eq_self (h : ∀ s ∈ ss, s.kind ≠ .plainText ∧ s.joined = s) :
    joinedAll ss = ss := by
  have hjoined := joinedAll_append h []
  rwa [List.append_nil, joinedAll, List.append_nil] at hjoined

/-- Texts side by side are joined to one, if no text stands behind them. -/
theorem joinedAll_texts {texts : List (List Char)} (htexts : texts ≠ [])
    (hss : ∀ s ∈ (joinedAll ss).head?, s.kind ≠ .plainText) :
    joinedAll (texts.map (leaf .plainText) ++ ss) =
      leaf .plainText texts.flatten :: joinedAll ss := by
  induction texts with
  | nil => contradiction
  | cons text texts ih =>
    rw [List.map_cons, List.cons_append, joinedAll]
    change join (leaf .plainText text) _ = _
    cases texts with
    | nil =>
      rw [List.flatten_singleton]
      change join _ (joinedAll ss) = _
      cases hs : joinedAll ss with
      | nil => rfl
      | cons s rest =>
        rw [hs] at hss
        rw [join, if_neg (mt And.right (hss s rfl))]
    | cons next texts =>
      have hflat : (text :: next :: texts).flatten = text ++ (next :: texts).flatten :=
        List.flatten_cons
      rw [ih (List.cons_ne_nil _ _), join, if_pos ⟨rfl, rfl⟩, hflat]
      rw [leaf, leaf, leaf, String.ofList_append]

end Sketch

namespace Token

mutual

/-- The sketch of a tree. -/
def sketch : Token E → Sketch
  | ⟨kind, text, _, expr, children⟩ =>
    ⟨kind, if kind.isContainer then "" else text, expr.map Embedded.text, sketchAll children⟩

/-- The sketches of some trees. -/
def sketchAll : List (Token E) → List Sketch
  | [] => []
  | t :: ts => t.sketch :: sketchAll ts

end

@[simp] theorem sketchAll_eq_map (ts : List (Token E)) : sketchAll ts = ts.map sketch := by
  induction ts with
  | nil => rw [sketchAll, List.map_nil]
  | cons t ts ih => rw [sketchAll, ih, List.map_cons]

theorem sketch_eq (t : Token E) : t.sketch =
    ⟨t.kind, if t.kind.isContainer then "" else t.text, t.exprText?, t.children.map sketch⟩ := by
  cases t
  rw [sketch, sketchAll_eq_map]
  rfl

@[simp] theorem sketch_withChildren (t : Token E) (ts : List (Token E)) :
    (t.withChildren ts).sketch = { t.sketch with children := ts.map sketch } := by
  rw [sketch_eq, sketch_eq]
  rfl

@[simp] theorem sketch_withExpr (t : Token E) (e : Embedded E) :
    (t.withExpr e).sketch = { t.sketch with expr := some e.text } := by
  rw [sketch_eq, sketch_eq]
  rfl

theorem sketch_ofText {kind : Kind} (hk : kind.isContainer = false) (c : Cursor)
    (text : List Char) : (ofText kind c text : Token E).sketch = .leaf kind text := by
  rw [sketch_eq]
  change Sketch.mk kind (if kind.isContainer then _ else _) none [] = _
  rw [hk]
  rfl

theorem sketch_container {kind : Kind} (hk : kind.isContainer = true) (c : Cursor)
    (text : List Char) : (ofText kind c text : Token E).sketch = .row kind [] := by
  rw [sketch_eq]
  change Sketch.mk kind (if kind.isContainer then _ else _) none [] = _
  rw [hk]
  rfl

/-- A token whose sketch holds one holds one token. -/
theorem exists_child_of_sketch {t : Token E} {s : Sketch} (h : t.sketch.children = [s]) :
    ∃ u, t.children = [u] ∧ u.sketch = s := by
  rw [sketch_eq] at h
  exact List.map_eq_singleton_iff.1 h

/-- The text of what is not made up by its children is in the sketch. -/
theorem text_of_sketch {t : Token E} (h : t.sketch.kind.isContainer = false) :
    t.text = t.sketch.text := by
  rw [sketch_eq] at h ⊢
  exact (if_neg (by rw [show t.kind.isContainer = false from h]; decide)).symm

end Token

end Pug
