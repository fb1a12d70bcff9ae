import Pug.Proofs.Grammar.Payload

/-!
# How deep a line is

What stands inside a line nests no further than its inline tags do. A list of attributes, a call's
arguments, the variables of a loop and the statements of a block hold nothing but leaves; only a run of
text holds inline tags, and these hold runs of text in their turn. An inline tag is three tokens, a
wrapper, a tag and a run, so `n` of them inside one another make `3 * n` levels of the tree.
-/

namespace Pug

open Text Token Reader

variable {σ E : Type}

namespace Token

theorem depth_eq (t : Token E) : t.depth = depthBelow t.children := by
  cases t
  rw [depth]

@[simp] theorem depthBelow_nil : depthBelow ([] : List (Token E)) = 0 := by
  rw [depthBelow]

@[simp] theorem depthBelow_cons (t : Token E) (ts : List (Token E)) :
    depthBelow (t :: ts) = max (t.depth + 1) (depthBelow ts) := by
  rw [depthBelow]

@[simp] theorem depthBelow_append (ts us : List (Token E)) :
    depthBelow (ts ++ us) = max (depthBelow ts) (depthBelow us) := by
  induction ts with
  | nil => simp
  | cons t ts ih => simp [ih, Nat.max_assoc]

theorem depthBelow_le {n : Nat} {ts : List (Token E)} :
    depthBelow ts ≤ n ↔ ∀ t ∈ ts, t.depth + 1 ≤ n := by
  induction ts with
  | nil => simp
  | cons t ts ih => rw [depthBelow_cons, Nat.max_le, List.forall_mem_cons, ih]

/-- No token is more than `n` below this one. -/
def Within (n : Nat) (t : Token E) : Prop :=
  t.depth ≤ n

section

variable {m n : Nat} {t : Token E} {ts : List (Token E)}

theorem within_succ : t.Within (n + 1) ↔ ∀ u ∈ t.children, u.Within n := by
  rw [Within, depth_eq, depthBelow_le]
  simp only [Nat.add_le_add_iff_right, Within]

theorem Within.mono (h : t.Within m) (hle : m ≤ n) : t.Within n :=
  Nat.le_trans h hle

theorem within_leaf (n : Nat) (kind : Kind) (text : String) (span : Span) :
    (leaf kind text span : Token E).Within n := by
  rw [Within, depth_eq, leaf, depthBelow_nil]
  exact Nat.zero_le n

theorem within_ofText (n : Nat) (kind : Kind) (c : Cursor) (text : List Char) :
    (ofText kind c text : Token E).Within n :=
  within_leaf n _ _ _

theorem Within.withExpr (h : t.Within n) (e : Embedded E) : (t.withExpr e).Within n := by
  rw [Within, depth_eq] at h ⊢
  exact h

/-- A token with children is one level deeper than they are. -/
theorem within_withChildren (t : Token E) (h : ∀ u ∈ ts, u.Within n) :
    (t.withChildren ts).Within (n + 1) :=
  within_succ.2 h

end

end Token

variable {g : Setup σ E} {n : Nat}

theorem Reader.tokenFrom_within (n : Nat) (c : Cursor) (kind : Kind) :
    Makes (tokenFrom c kind : Reader σ (Token E)) (Within n) :=
  .after fun _ ↦ .after fun _ ↦ .pure (within_ofText n kind c _)

section Pieces

variable {inlineTag : Reader σ (Token E)} {interpolated : Bool}

theorem Attribute.entry_within (n : Nat) : (Attribute.entry g).Makes (Within n) := by
  refine .after fun found ↦ .after fun behind ↦ .after fun _ ↦ .after fun eaten ↦ .ite ?_ ?_
  · exact .after fun value ↦ .pure ((within_ofText n _ _ _).withExpr value)
  · refine .after fun eaten ↦ .ite ?_ ?_
    · exact .after fun value ↦ .pure ((within_ofText n _ _ _).withExpr value)
    · exact .after fun _ ↦ .ite (.pure (within_ofText n _ _ _)) (.failAt _ _)

theorem Attribute.list_within (n : Nat) : (Attribute.list g).Makes (Within (n + 1)) := by
  refine .after fun start ↦ .after fun _ ↦ ?_
  have hitem : (Attribute.item g start).Makes (OfItem (Within n) fun _ _ ↦ True) := by
    refine .after fun _ ↦ .after fun c ↦ ?_
    split
    · exact .failAt _ _
    · exact .after fun _ ↦ .pure ⟨List.forall_mem_nil _, trivial⟩
    · exact .bind (entry_within n) fun t ht ↦ .after fun _ ↦ .after fun _ ↦ .pure ht
  refine .bind (.gather hitem (fun _ _ _ _ ↦ trivial) _) fun r hr ↦ ?_
  exact .after fun t ↦ .pure (within_withChildren t hr.1)

namespace TextRun

theorem output_within (n : Nat) (kind : Kind) : (output g kind).Makes (Within n) := by
  refine .after fun start ↦ .after fun _ ↦ .after fun e ↦ .after fun eaten ↦ .ite ?_ ?_
  · exact .bind (tokenFrom_within n _ _) fun t ht ↦ .pure (ht.withExpr e)
  · exact .after fun _ ↦ .failAt _ _

theorem pieces_within (hi : inlineTag.Makes (Within n)) :
    (pieces g inlineTag interpolated).Makes fun ts ↦ ∀ t ∈ ts, t.Within n := by
  have hpiece : (piece g inlineTag interpolated).Makes (OfItem (Within n) fun _ _ ↦ True) := by
    refine .after fun start ↦ ?_
    cases Front.ofRest interpolated start.rest with
    | finished => exact .pure ⟨List.forall_mem_nil _, trivial⟩
    | output kind => exact .bind (output_within n kind) fun t ht ↦ .pure ht
    | inlineTag => exact .bind hi fun t ht ↦ .pure ht
    | literal escape text =>
      exact .after fun _ ↦ .after fun c ↦ .after fun _ ↦ .pure (within_ofText n _ c text)
  exact .bind (.gather hpiece (fun _ _ _ _ ↦ trivial) _) fun r hr ↦ .pure hr.1

theorem run_within (hi : inlineTag.Makes (Within n)) :
    (run g inlineTag interpolated).Makes (Within (n + 1)) :=
  .after fun _ ↦ .bind (pieces_within hi) fun _ hts ↦ .after fun t ↦
    .pure (within_withChildren t hts)

end TextRun

namespace Tag

theorem closingMark_within (n : Nat) (kind : Kind) :
    (closingMark kind interpolated : Reader σ (Token E)).Makes (Within n) :=
  .after fun _ ↦ .after fun _ ↦ .bind (tokenFrom_within n _ _) fun _ ht ↦ .after fun _ ↦ .pure ht

theorem output_within (n : Nat) (kind : Kind) (mark : Nat) (site : Site) :
    (output g kind mark site).Makes (Within n) :=
  .after fun _ ↦ .after fun _ ↦ .after fun e ↦ .bind (tokenFrom_within n _ _) fun _ ht ↦
    .pure (ht.withExpr e)

theorem text_within (hi : inlineTag.Makes (Within n)) :
    (Tag.text g inlineTag interpolated).Makes fun ts ↦ ∀ t ∈ ts, t.Within (n + 1) := by
  refine .after fun _ ↦ .after fun start ↦ .ite (.after fun _ ↦ .pure (List.forall_mem_nil _)) ?_
  refine .bind (TextRun.run_within hi) fun t ht ↦ .pure ?_
  split
  · exact List.forall_mem_nil _
  · exact List.forall_mem_singleton.2 ht

theorem part_within (hi : inlineTag.Makes (Within n)) :
    (part g inlineTag interpolated).Makes (OfItem (Within (n + 1)) fun _ _ ↦ True) := by
  refine .after fun start ↦ ?_
  cases Part.ofRest interpolated start.rest with
  | finished => exact .pure ⟨List.forall_mem_nil _, trivial⟩
  | note kind =>
    refine .bind (P := Within (n + 1)) ?_ fun t ht ↦ .pure ht
    exact .after fun _ ↦ .after fun c ↦ .after fun _ ↦ .pure (within_ofText _ _ c _)
  | dotBlock =>
    exact .bind (closingMark_within _ _) fun t ht ↦ .pure ⟨List.forall_mem_singleton.2 ht, trivial⟩
  | attributes => exact .bind (Attribute.list_within n) fun t ht ↦ .pure ht
  | spread =>
    refine .bind (P := Within (n + 1)) ?_ fun t ht ↦ .pure ht
    refine .after fun _ ↦ .after fun _ ↦ .after fun e ↦ .after fun _ ↦ .after fun eaten ↦ .ite ?_ ?_
    · exact .bind (tokenFrom_within _ _ _) fun t ht ↦ .pure (ht.withExpr e)
    · exact .after fun _ ↦ .failAt _ _
  | selfClose =>
    exact .bind (closingMark_within _ _) fun t ht ↦ .pure ⟨List.forall_mem_singleton.2 ht, trivial⟩
  | output kind mark =>
    refine .bind (output_within (n + 1) _ _ _) fun t ht ↦ .after fun _ ↦ ?_
    exact .pure ⟨List.forall_mem_singleton.2 ht, trivial⟩
  | follow => exact .after fun _ ↦ .pure ⟨List.forall_mem_nil _, trivial⟩
  | text => exact .bind (text_within hi) fun ts hts ↦ .pure ⟨hts, trivial⟩
  | unexpected => exact .failAt _ _

theorem parts_within (hi : inlineTag.Makes (Within n)) :
    (parts g inlineTag interpolated).Makes fun r ↦ ∀ t ∈ r.1, t.Within (n + 1) :=
  (Makes.gather (part_within hi) (fun _ _ _ _ ↦ trivial) _).mono fun _ hr ↦ hr.1

/-- A tag is two levels deeper than its parts, one for its wrapper. -/
theorem wrap_within (start : Cursor) (tag : Token E) {ts : List (Token E)}
    (h : ∀ t ∈ ts, t.Within n) :
    (wrap start (tag.withChildren ts) : Reader σ (Token E)).Makes (Within (n + 2)) := by
  have htag : (tag.withChildren ts).Within (n + 1) := within_withChildren tag h
  exact .after fun t ↦ .pure (within_withChildren t (List.forall_mem_singleton.2 htag))

/-- Each inline tag around another one is three levels. -/
theorem inlineTag_within (levels : Nat) : (Tag.inlineTag g levels).Makes (Within (3 * levels)) := by
  induction levels with
  | zero => exact .after fun _ ↦ .throw _
  | succ levels ih =>
    refine .after fun start ↦ .after fun _ ↦ .after fun nameStart ↦ .after fun _ ↦ ?_
    refine .bind (parts_within ih) fun r hr ↦ .ite (.failAt _ _) <| .after fun eaten ↦ .ite ?_ ?_
    · exact wrap_within start _ hr
    · exact .after fun _ ↦ .failAt _ _

end Tag

end Pieces

/-- What a line says is no deeper than a tag in its wrapper, with a run of text in it. -/
def SaysWithin (n : Nat) (r : Token E × LineTail) : Prop :=
  r.1.Within (n + 3)

theorem Tag.line_within (start : Cursor) (name : List Char) :
    (Tag.line g start name).Makes (SaysWithin (3 * g.maxDepth)) := by
  refine .bind (parts_within (inlineTag_within _)) fun r hr ↦ ?_
  exact .bind (wrap_within start _ hr) fun t ht ↦ .pure ht

namespace Directive

theorem withTail_within {t : Token E} (h : t.Within (n + 3)) :
    (do return (t, ← tail) : Reader σ (Token E × LineTail)).Makes (SaysWithin n) :=
  .after fun _ ↦ .pure h

theorem condition_within {word : Token E} (h : word.Within (n + 3)) :
    (condition g word).Makes (SaysWithin n) :=
  .after fun e ↦ withTail_within (h.withExpr e)

theorem otherwise_within (start : Cursor) : (otherwise g start).Makes (SaysWithin n) := by
  refine .bind (tokenFrom_within (n + 3) _ _) fun word hword ↦ .after fun c ↦ ?_
  dsimp only
  split
  · exact .after fun _ ↦ .bind (tokenFrom_within _ _ _) fun t ht ↦ condition_within ht
  · exact withTail_within hword

theorem loopVariables_within (n : Nat) :
    (loopVariables : Reader σ (List (Token E))).Makes fun ts ↦ ∀ t ∈ ts, t.Within n := by
  have hvariable : (loopVariable : Reader σ (Token E)).Makes (Within n) := by
    refine .after fun c ↦ .ite (.failAt _ _) ?_
    exact .after fun _ ↦ .after fun _ ↦ .pure (within_ofText n _ _ _)
  refine .after fun _ ↦ .bind hvariable fun first hfirst ↦ .after fun eaten ↦ .ite ?_ ?_
  · refine .after fun _ ↦ .bind hvariable fun second hsecond ↦ .pure ?_
    exact List.forall_mem_cons.2 ⟨hfirst, List.forall_mem_singleton.2 hsecond⟩
  · exact .pure (List.forall_mem_singleton.2 hfirst)

theorem each_within (start : Cursor) : (each g start).Makes (SaysWithin n) := by
  refine .after fun word ↦ .bind (loopVariables_within (n + 2)) fun names hnames ↦ ?_
  refine .after fun c ↦ .ite ?_ (.failAt _ _)
  exact .after fun _ ↦ .after fun e ↦ withTail_within (within_withChildren _ hnames)

theorem mixin_within : (mixin g).Makes (SaysWithin n) := by
  refine .after fun e ↦ .ite (.throw _) (withTail_within (Within.withExpr ?_ e))
  exact within_leaf _ _ _ _

theorem line_within (keyword : Keyword) (start : Cursor) :
    (line g keyword start).Makes (SaysWithin n) := by
  cases keyword with
  | condition kind => exact .bind (tokenFrom_within _ _ _) fun t ht ↦ condition_within ht
  | otherwise => exact otherwise_within start
  | default => exact .bind (tokenFrom_within _ _ _) fun t ht ↦ withTail_within ht
  | each => exact each_within start
  | mixin => exact mixin_within
  | inclusion =>
    exact .after fun found ↦ .ite (.failAt _ _) (.pure (within_ofText _ _ _ _))
  | doctype => exact .after fun found ↦ .pure (within_ofText _ _ _ _)

end Directive

namespace Code

theorem statement_within (n : Nat) (lineBreak : List Char) :
    (statement g lineBreak).Makes (Within n) := by
  refine .after fun start ↦ .after fun e ↦ .after fun _ ↦ .after fun _ ↦ .after fun c ↦ ?_
  exact .bind (tokenFrom_within n _ _) fun t ht ↦ .pure (ht.withExpr e)

theorem item_within (n : Nat) (lineBreak : List Char) :
    (item g lineBreak).Makes (OfItem (Within n) fun _ _ ↦ True) := by
  have hnext : (item.next g lineBreak).Makes (OfItem (Within n) fun _ _ ↦ True) :=
    .bind (statement_within n lineBreak) fun t ht ↦ .after fun _ ↦ .pure ht
  refine .after fun c ↦ .ite hnext (.ite ?_ (.pure ⟨List.forall_mem_nil _, trivial⟩))
  exact .after fun _ ↦ hnext

theorem block_within (level : Nat) {t : Token E} (h : t.Within (n + 1)) :
    (block g level t).Makes (Within (n + 1)) := by
  refine .after fun lineBreak ↦ ?_
  cases lineBreak with
  | none => exact .pure h
  | some lineBreak =>
    refine .bind (.gather (item_within n lineBreak) (fun _ _ _ _ ↦ trivial) _) fun r hr ↦ ?_
    exact .pure (within_withChildren t hr.1)

theorem line_within (level : Nat) : (line g level).Makes (SaysWithin n) := by
  refine .after fun start ↦ .after fun _ ↦ .after fun behind ↦ .ite ?_ ?_
  · refine .bind (tokenFrom_within (n + 3) _ _) fun mark hmark ↦ .after fun _ ↦ ?_
    exact .bind (block_within level hmark) fun t ht ↦ .pure ht
  · dsimp only
    split
    · exact .after fun _ ↦ Directive.line_within _ _
    · exact .after fun _ ↦ .bind (statement_within _ []) fun t ht ↦ .pure ht

end Code

namespace Line

theorem word_within : (word g).Makes (SaysWithin (3 * g.maxDepth)) := by
  refine .after fun start ↦ ?_
  split
  · exact .after fun _ ↦ Directive.line_within _ _
  · exact .after fun _ ↦ Tag.line_within _ _

theorem comment_within : (comment g).Makes (SaysWithin (3 * g.maxDepth)) := by
  refine .after fun start ↦ .after fun eaten ↦ .ite ?_ ?_
  · refine .after fun t ↦ .after fun c ↦ .after fun _ ↦ .pure (within_withChildren t ?_)
    split
    · exact List.forall_mem_nil _
    · exact List.forall_mem_singleton.2 (within_ofText _ _ _ _)
  · refine .after fun _ ↦ .after fun t ↦ ?_
    refine .bind (TextRun.pieces_within (Tag.inlineTag_within _)) fun ts hts ↦ .pure ?_
    exact (within_withChildren t hts).mono (by omega)

theorem arguments_within (n : Nat) : (arguments g).Makes fun ts ↦ ∀ t ∈ ts, t.Within n := by
  refine .after fun eaten ↦ .ite ?_ (.pure (List.forall_mem_nil _))
  refine .after fun _ ↦ .after fun eaten ↦ .ite (.pure (List.forall_mem_nil _)) ?_
  refine .after fun e ↦ .after fun _ ↦ .after fun eaten ↦ .ite (.pure ?_) (.after fun _ ↦ .failAt _ _)
  exact List.forall_mem_singleton.2 ((within_leaf n _ _ _).withExpr e)

theorem call_within : (call g).Makes (SaysWithin (3 * g.maxDepth)) := by
  refine .after fun _ ↦ .after fun c ↦ .ite (.failAt _ _) <| .after fun _ ↦ ?_
  refine .bind (arguments_within (3 * g.maxDepth + 1)) fun args hargs ↦ ?_
  refine .bind (Tag.parts_within (Tag.inlineTag_within _)) fun r hr ↦ .pure ?_
  exact (within_withChildren _ (List.forall_mem_append.2 ⟨hargs, hr⟩)).mono (by omega)

theorem payload_within (level : Nat) : (payload g level).Makes (SaysWithin (3 * g.maxDepth)) := by
  refine .after fun start ↦ ?_
  cases Form.ofRest start.rest with
  | shorthand => exact Tag.line_within _ _
  | comment => exact comment_within
  | word => exact word_within
  | dot => exact .bind (Tag.closingMark_within _ _) fun t ht ↦ .pure ht
  | piped =>
    refine .after fun _ ↦ .after fun _ ↦ ?_
    refine .bind (TextRun.run_within (Tag.inlineTag_within _)) fun t ht ↦ .pure ?_
    exact ht.mono (by omega)
  | output kind mark =>
    exact .bind (Tag.output_within _ _ _ _) fun t ht ↦ .after fun _ ↦ .pure ht
  | code => exact Code.line_within level
  | call => exact call_within
  | raw => exact .after fun c ↦ .after fun _ ↦ .pure (within_ofText _ _ _ _)
  | unknown => exact .failAt _ _

theorem lineFrom_within (start : Cursor) {t : Token E} (h : t.Within n) :
    (lineFrom start t : Reader σ (Token E)).Makes (Within (n + 1)) :=
  .after fun _ ↦ .after fun _ ↦ .pure (within_withChildren _ (List.forall_mem_singleton.2 h))

/-- A line, as it is read, is four levels deeper than inline tags may nest. -/
theorem markup_within (level : Nat) :
    (markup g level).Makes fun r ↦ r.1.Within (3 * g.maxDepth + 4) :=
  .after fun start ↦ .bind (payload_within level) fun _ hr ↦
    .bind (lineFrom_within start hr) fun _ hline ↦ .pure hline

/-- And so is a line of text. -/
theorem verbatim_within (interpolate : Bool) :
    (verbatim g interpolate).Makes (Within (3 * g.maxDepth + 4)) := by
  refine .after fun start ↦ ?_
  cases interpolate with
  | true =>
    refine .bind (TextRun.run_within (Tag.inlineTag_within _)) fun t ht ↦ ?_
    exact (lineFrom_within start ht).mono fun _ hline ↦ hline.mono (by omega)
  | false =>
    refine .bind (P := Within 1) ?_ fun t ht ↦ ?_
    · refine .after fun c ↦ .after fun _ ↦ .after fun run ↦ ?_
      refine .bind (tokenFrom_within 0 _ _) fun piece hpiece ↦ .pure ?_
      exact within_withChildren run (List.forall_mem_singleton.2 hpiece)
    · exact (lineFrom_within start ht).mono fun _ hline ↦ hline.mono (by omega)

end Line

end Pug
