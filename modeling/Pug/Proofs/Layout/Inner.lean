import Pug.Proofs.Reading.Line

/-!
# What stands inside a line

Of all that the readers make, only `Line.markup` makes a line. So the tokens that a line is made of
are *inner* ones, with no line at or below them; and a line that makes the lines below it text, or
reads them as a block of code, holds a token that says so.
-/

namespace Pug

variable {σ E α β : Type}

namespace Token

/-- No line stands at or below the token. -/
def IsInner (t : Token E) : Prop :=
  t.lineDepth = 0

theorem lineDepth_eq (t : Token E) :
    t.lineDepth = lineDepthBelow t.children + if t.kind = .line then 1 else 0 := by
  cases t
  rw [lineDepth]

@[simp] theorem lineDepthBelow_nil : lineDepthBelow ([] : List (Token E)) = 0 := by
  rw [lineDepthBelow]

@[simp] theorem lineDepthBelow_cons (t : Token E) (ts : List (Token E)) :
    lineDepthBelow (t :: ts) = max t.lineDepth (lineDepthBelow ts) := by
  rw [lineDepthBelow]

@[simp] theorem lineDepthBelow_append (ts us : List (Token E)) :
    lineDepthBelow (ts ++ us) = max (lineDepthBelow ts) (lineDepthBelow us) := by
  induction ts with
  | nil => simp
  | cons t ts ih => simp [ih, Nat.max_assoc]

theorem lineDepthBelow_eq_zero {ts : List (Token E)} :
    lineDepthBelow ts = 0 ↔ ∀ t ∈ ts, t.IsInner := by
  induction ts with
  | nil => simp
  | cons t ts ih =>
    rw [lineDepthBelow_cons, List.forall_mem_cons, ← ih, IsInner]
    omega

theorem lineDepth_le_of_mem {u : Token E} {ts : List (Token E)} (h : u ∈ ts) :
    u.lineDepth ≤ lineDepthBelow ts := by
  induction ts with
  | nil => contradiction
  | cons t ts ih =>
    rw [lineDepthBelow_cons]
    rcases List.mem_cons.1 h with rfl | h
    · exact Nat.le_max_left _ _
    · exact Nat.le_trans (ih h) (Nat.le_max_right _ _)

theorem isInner_iff {t : Token E} : t.IsInner ↔ t.kind ≠ .line ∧ ∀ u ∈ t.children, u.IsInner := by
  rw [← lineDepthBelow_eq_zero, IsInner, lineDepth_eq]
  split
  · simp [*]
  · simp [*]

theorem isInner_leaf {kind : Kind} (h : kind ≠ .line) (text : String) (span : Span) :
    (leaf kind text span : Token E).IsInner :=
  isInner_iff.2 ⟨h, nofun⟩

theorem isInner_ofText {kind : Kind} (h : kind ≠ .line) (c : Cursor) (text : List Char) :
    (ofText kind c text : Token E).IsInner :=
  isInner_leaf h _ _

theorem IsInner.withExpr {t : Token E} (h : t.IsInner) (e : Embedded E) : (t.withExpr e).IsInner :=
  isInner_iff.2 ⟨(isInner_iff.1 h).1, (isInner_iff.1 h).2⟩

theorem IsInner.withChildren {t : Token E} (h : t.IsInner) {ts : List (Token E)}
    (hts : ∀ u ∈ ts, u.IsInner) : (t.withChildren ts).IsInner :=
  isInner_iff.2 ⟨(isInner_iff.1 h).1, hts⟩

/-- The kinds of the tokens that reach below their line. -/
def Kind.opensBlock : Kind → Bool
  | .lineDot | .lineComment | .lineCommentHtml | .tagDotBlock | .codeBlock => true
  | _ => false

/-- The lines below are text, or a block of code. -/
def OpensBlock (t : Token E) : Prop :=
  ∃ u ∈ t.preorder, u.kind.opensBlock = true

theorem opensBlock_self {t : Token E} (h : t.kind.opensBlock = true) : t.OpensBlock :=
  ⟨t, t.mem_preorder_self, h⟩

theorem mem_preorderAll {t u : Token E} {ts : List (Token E)} (hu : u ∈ t.preorder) (ht : t ∈ ts) :
    u ∈ preorderAll ts := by
  induction ts with
  | nil => contradiction
  | cons a ts ih =>
    rw [preorderAll, List.mem_append]
    rcases List.mem_cons.1 ht with rfl | ht
    · exact .inl hu
    · exact .inr (ih ht)

theorem OpensBlock.below {t u : Token E} (h : u.OpensBlock) (hu : u ∈ t.children) :
    t.OpensBlock := by
  obtain ⟨v, hv, hk⟩ := h
  refine ⟨v, ?_, hk⟩
  rw [preorder_eq]
  exact List.mem_cons_of_mem _ (mem_preorderAll hv hu)

end Token

open Token

namespace Reader

/-- Whatever the reader makes satisfies a predicate. -/
def Makes (m : Reader σ α) (P : α → Prop) : Prop :=
  ∀ s a t, m s = .ok a t → P a

/-- What holds of an item of a row: `P` of what it makes, or `L` of the last items. -/
def Each (P : α → Prop) (L : List α → β → Prop) : Item α β → Prop
  | .one a => P a
  | .last as b => L as b

/-- What holds of an item of a row: `P` of what it makes, and `L` of the last items. -/
def OfItem (P : α → Prop) (L : List α → β → Prop) : Item α β → Prop
  | .one a => P a
  | .last as b => (∀ a ∈ as, P a) ∧ L as b

namespace Makes

variable {m n : Reader σ α} {k : α → Reader σ β} {P P' : α → Prop} {Q : β → Prop}

theorem mono (h : m.Makes P) (hp : ∀ a, P a → P' a) : m.Makes P' :=
  fun s a t hm ↦ hp a (h s a t hm)

/-- A run that ends in a value ends in one that satisfies the predicate. -/
theorem ensures (h : m.Makes P) {s : ReadState σ} :
    m.Ensures s (fun a _ ↦ P a) fun _ _ ↦ True := by
  unfold Ensures
  split
  · rename_i hm
    exact h _ _ _ hm
  · trivial

theorem pure {a : α} (h : P a) : Makes (pure a : Reader σ α) P := by
  rintro s _ t ⟨⟩
  exact h

theorem bind (h : m.Makes P) (hk : ∀ a, P a → (k a).Makes Q) : Makes (m >>= k) Q := by
  intro s b u hmk
  simp only [Bind.bind, EStateM.bind] at hmk
  split at hmk
  · rename_i a t hm
    exact hk a (h s a t hm) t b u hmk
  · contradiction

/-- What is made by a step may not matter. -/
theorem after (hk : ∀ a, (k a).Makes Q) : Makes (m >>= k) Q :=
  bind (P := fun _ ↦ True) (fun _ _ _ _ ↦ trivial) fun a _ ↦ hk a

theorem ite {c : Prop} [Decidable c] (hm : m.Makes P) (hn : n.Makes P) :
    Makes (if c then m else n) P := by
  split
  · exact hm
  · exact hn

theorem failAt (c : Cursor) (problem : Problem) : Makes (failAt c problem : Reader σ α) P :=
  nofun

theorem throw (f : Failure) : Makes (throw f : Reader σ α) P :=
  nofun

/-- What a row is made of is put together from its end: `L` holds of the last items, and of a row
with one more item in front if `P` holds of that. -/
theorem gather_of {item : Reader σ (Item α β)} {L : List α → β → Prop} (h : item.Makes (Each P L))
    (hl : ∀ a as b, P a → L as b → L (a :: as) b) (rounds : Nat) :
    Makes (Reader.gather item rounds) fun r ↦ L r.1 r.2 := by
  induction rounds with
  | zero => exact throw _
  | succ rounds ih =>
    refine bind h fun r hr ↦ ?_
    cases r with
    | last as b => exact pure hr
    | one a => exact bind ih fun r hr' ↦ pure (hl _ _ _ hr hr')

/-- A row is made of its items; `L` holds of what ends it. -/
theorem gather {item : Reader σ (Item α β)} {L : List α → β → Prop} (h : item.Makes (OfItem P L))
    (hl : ∀ a as b, L as b → L (a :: as) b) (rounds : Nat) :
    Makes (Reader.gather item rounds) fun r ↦ (∀ a ∈ r.1, P a) ∧ L r.1 r.2 := by
  refine gather_of (P := P) (L := fun as b ↦ (∀ a ∈ as, P a) ∧ L as b) (h.mono fun r hr ↦ ?_) ?_ rounds
  · cases r <;> exact hr
  · exact fun a as b ha hr ↦ ⟨List.forall_mem_cons.2 ⟨ha, hr.1⟩, hl a as b hr.2⟩

/-- Both of two things hold of what a reader makes. -/
theorem and (h : m.Makes P) (k : m.Makes P') : m.Makes fun a ↦ P a ∧ P' a :=
  fun s a t hm ↦ ⟨h s a t hm, k s a t hm⟩

end Makes

/-- The token from a place to the cursor. -/
theorem tokenFrom_makes {kind : Kind} (h : kind ≠ .line) (c : Cursor) :
    Makes (tokenFrom c kind : Reader σ (Token E)) fun t ↦ t.IsInner ∧ t.kind = kind :=
  .after fun _ ↦ .after fun _ ↦ .pure ⟨isInner_ofText h c _, rfl⟩

end Reader

open Reader

variable {g : Setup σ E}

section Pieces

variable {inlineTag : Reader σ (Token E)} {interpolated : Bool}

theorem Attribute.entry_makes : (Attribute.entry g).Makes IsInner := by
  refine .after fun found ↦ .after fun behind ↦ .after fun _ ↦ .after fun eaten ↦ .ite ?_ ?_
  · exact .after fun value ↦ .pure ((isInner_ofText (by decide) _ _).withExpr value)
  · refine .after fun eaten ↦ .ite ?_ ?_
    · exact .after fun value ↦ .pure ((isInner_ofText (by decide) _ _).withExpr value)
    · exact .after fun _ ↦ .ite (.pure (isInner_ofText (by decide) _ _)) (.failAt _ _)

theorem Attribute.list_makes :
    (Attribute.list g).Makes fun t ↦ t.IsInner ∧ t.kind = .tagAttrList := by
  refine .after fun start ↦ .after fun _ ↦ ?_
  have hitem : (Attribute.item g start).Makes (OfItem IsInner fun _ _ ↦ True) := by
    refine .after fun _ ↦ .after fun c ↦ ?_
    split
    · exact .failAt _ _
    · exact .after fun _ ↦ .pure ⟨nofun, trivial⟩
    · exact .bind Attribute.entry_makes fun t ht ↦ .after fun _ ↦ .after fun _ ↦ .pure ht
  refine .bind (.gather hitem (fun _ _ _ _ ↦ trivial) _) fun r hr ↦ ?_
  exact .bind (tokenFrom_makes (by decide) _) fun t ht ↦ .pure ⟨ht.1.withChildren hr.1, ht.2⟩

theorem TextRun.output_makes {kind : Kind} (hk : kind ≠ .line) :
    (TextRun.output g kind).Makes IsInner := by
  refine .after fun start ↦ .after fun _ ↦ .after fun e ↦ .after fun eaten ↦ .ite ?_ ?_
  · exact .bind (tokenFrom_makes hk _) fun t ht ↦ .pure (ht.1.withExpr e)
  · exact .after fun _ ↦ .failAt _ _

theorem ne_line {kind : Kind} (h : kind.isContainer = false) : kind ≠ .line := by
  rintro rfl
  contradiction

theorem TextRun.pieces_makes (hi : inlineTag.Makes IsInner) :
    (TextRun.pieces g inlineTag interpolated).Makes fun ts ↦ ∀ t ∈ ts, t.IsInner := by
  have hpiece : (TextRun.piece g inlineTag interpolated).Makes (OfItem IsInner fun _ _ ↦ True) := by
    refine .after fun start ↦ ?_
    cases hf : Front.ofRest interpolated start.rest with
    | finished => exact .pure ⟨nofun, trivial⟩
    | output kind =>
      obtain ⟨-, -, -, -, hk⟩ := output_of_front hf
      exact .bind (output_makes (ne_line hk)) fun t ht ↦ .pure ht
    | inlineTag => exact .bind hi fun t ht ↦ .pure ht
    | literal escape text =>
      refine .after fun _ ↦ .after fun c ↦ .after fun _ ↦ .pure ?_
      exact isInner_ofText (by decide) c text
  exact .bind (.gather hpiece (fun _ _ _ _ ↦ trivial) _) fun r hr ↦ .pure hr.1

theorem TextRun.run_makes (hi : inlineTag.Makes IsInner) :
    (TextRun.run g inlineTag interpolated).Makes IsInner :=
  .after fun _ ↦ .bind (pieces_makes hi) fun _ hts ↦
    .bind (tokenFrom_makes (by decide) _) fun _ ht ↦ .pure (ht.1.withChildren hts)

/-- What a row of tokens says about the lines below. -/
def Tells (ts : List (Token E)) (tail : LineTail) : Prop :=
  ∀ interpolate, tail = .verbatim interpolate → ∃ t ∈ ts, t.kind = .tagDotBlock

theorem Tag.closingMark_makes {kind : Kind} (hk : kind ≠ .line) :
    (Tag.closingMark kind interpolated : Reader σ (Token E)).Makes
      fun t ↦ t.IsInner ∧ t.kind = kind :=
  .after fun _ ↦ .after fun _ ↦ .bind (tokenFrom_makes hk _) fun _ ht ↦
    .after fun _ ↦ .pure ht

theorem Tag.output_makes {kind : Kind} (hk : kind ≠ .line) (mark : Nat) (site : Site) :
    (Tag.output g kind mark site).Makes IsInner :=
  .after fun _ ↦ .after fun _ ↦ .after fun e ↦
    .bind (tokenFrom_makes hk _) fun _ ht ↦ .pure (ht.1.withExpr e)

theorem Tag.text_makes (hi : inlineTag.Makes IsInner) :
    (Tag.text g inlineTag interpolated).Makes fun ts ↦ ∀ t ∈ ts, t.IsInner := by
  refine .after fun _ ↦ .after fun start ↦ .ite (.after fun _ ↦ .pure nofun) ?_
  refine .bind (TextRun.run_makes hi) fun t ht ↦ .pure ?_
  split
  · nofun
  · rintro u hu
    rwa [List.mem_singleton.1 hu]

theorem Tag.part_makes (hi : inlineTag.Makes IsInner) :
    (Tag.part g inlineTag interpolated).Makes (OfItem IsInner Tells) := by
  refine .after fun start ↦ ?_
  have hfront := standsAt_ofRest interpolated start.rest
  have hone : ∀ {t : Token E} {P : Token E → Prop}, P t → ∀ u ∈ [t], P u := by
    intro t P ht u hu
    rwa [List.mem_singleton.1 hu]
  cases hp : Part.ofRest interpolated start.rest with
  | finished => exact .pure ⟨nofun, nofun⟩
  | note kind =>
    rw [hp] at hfront
    obtain ⟨-, -, -, -, hk⟩ := hfront
    refine .bind (P := IsInner) ?_ fun t ht ↦ .pure ht
    exact .after fun _ ↦ .after fun c ↦ .after fun _ ↦ .pure (isInner_ofText (ne_line hk) c _)
  | dotBlock =>
    refine .bind (closingMark_makes (by decide)) fun t ht ↦ .pure ⟨hone ht.1, ?_⟩
    exact fun _ _ ↦ ⟨t, List.mem_singleton_self t, ht.2⟩
  | attributes => exact .bind Attribute.list_makes fun t ht ↦ .pure ht.1
  | spread =>
    refine .bind (P := IsInner) ?_ fun t ht ↦ .pure ht
    refine .after fun _ ↦ .after fun _ ↦ .after fun e ↦ .after fun _ ↦ .after fun eaten ↦ .ite ?_ ?_
    · exact .bind (tokenFrom_makes (by decide) _) fun t ht ↦ .pure (ht.1.withExpr e)
    · exact .after fun _ ↦ .failAt _ _
  | selfClose => exact .bind (closingMark_makes (by decide)) fun t ht ↦ .pure ⟨hone ht.1, nofun⟩
  | output kind mark =>
    rw [hp] at hfront
    obtain ⟨-, -, -, -, hk⟩ := hfront
    refine .bind (output_makes (ne_line hk) _ _) fun t ht ↦ .after fun _ ↦ ?_
    exact .pure ⟨hone ht, nofun⟩
  | follow => exact .after fun _ ↦ .pure ⟨nofun, nofun⟩
  | text => exact .bind (text_makes hi) fun ts hts ↦ .pure ⟨hts, nofun⟩
  | unexpected => exact .failAt _ _

theorem Tag.parts_makes (hi : inlineTag.Makes IsInner) :
    (Tag.parts g inlineTag interpolated).Makes fun r ↦ (∀ t ∈ r.1, t.IsInner) ∧ Tells r.1 r.2 := by
  refine .gather (part_makes hi) (fun a as tail h i ht ↦ ?_) _
  obtain ⟨t, ht, hk⟩ := h i ht
  exact ⟨t, List.mem_cons_of_mem _ ht, hk⟩

theorem Tag.wrap_makes (start : Cursor) {tag : Token E} (h : tag.IsInner) :
    (Tag.wrap start tag : Reader σ (Token E)).Makes fun t ↦ t.IsInner ∧ t.children = [tag] := by
  refine .bind (tokenFrom_makes (by decide) _) fun t ht ↦ .pure ⟨ht.1.withChildren ?_, rfl⟩
  rintro u hu
  rwa [List.mem_singleton.1 hu]

theorem Tag.inlineTag_makes (levels : Nat) : (Tag.inlineTag g levels).Makes IsInner := by
  induction levels with
  | zero => exact .after fun _ ↦ nofun
  | succ levels ih =>
    refine .after fun start ↦ .after fun _ ↦ .after fun nameStart ↦ .after fun _ ↦ ?_
    refine .bind (parts_makes ih) fun r hr ↦ .ite (.failAt _ _) <| .after fun eaten ↦ .ite ?_ ?_
    · refine (wrap_makes start ?_).mono fun t ht ↦ ht.1
      exact (isInner_ofText (by decide) _ _).withChildren hr.1
    · exact .after fun _ ↦ .failAt _ _

end Pieces

/-- What a line says is made of inner tokens, and tells whether the lines below are text. -/
structure Says (r : Token E × LineTail) : Prop where
  inner : r.1.IsInner
  opens : ∀ interpolate, r.2 = .verbatim interpolate → r.1.OpensBlock

theorem Says.plain {t : Token E} (h : t.IsInner) : Says (t, .plain) :=
  ⟨h, nofun⟩

/-- A token with children of which one closes with a `.` opens a block. -/
theorem Tells.opensBlock {ts : List (Token E)} {tail : LineTail} (h : Tells ts tail)
    (t : Token E) (others : List (Token E)) (interpolate : Bool) (ht : tail = .verbatim interpolate) :
    (t.withChildren (others ++ ts)).OpensBlock := by
  obtain ⟨u, hu, hk⟩ := h interpolate ht
  have hopens : u.OpensBlock := opensBlock_self (by rw [hk]; rfl)
  exact hopens.below (List.mem_append_right _ hu)

theorem Tag.line_makes (start : Cursor) (name : List Char) : (Tag.line g start name).Makes Says := by
  refine .bind (parts_makes (inlineTag_makes _)) fun r hr ↦ ?_
  have htag : ((ofText .tag start name : Token E).withChildren r.1).IsInner :=
    (isInner_ofText (by decide) _ _).withChildren hr.1
  refine .bind (wrap_makes start htag) fun t ht ↦ .pure ⟨ht.1, fun i hi ↦ ?_⟩
  refine (hr.2.opensBlock (ofText .tag start name) [] i hi).below ?_
  rw [ht.2]
  exact List.mem_singleton_self _

namespace Directive

/-- Nothing below a directive is text. -/
theorem tail_makes : (tail : Reader σ LineTail).Makes fun t ↦ ∀ i, t ≠ .verbatim i :=
  .after fun _ ↦ .after fun _ ↦ .ite (.pure nofun) (.after fun _ ↦ .pure nofun)

theorem withTail_makes {t : Token E} (h : t.IsInner) :
    (do return (t, ← tail) : Reader σ (Token E × LineTail)).Makes Says :=
  .bind tail_makes fun _ htail ↦ .pure ⟨h, fun i hi ↦ absurd hi (htail i)⟩

theorem condition_makes {word : Token E} (h : word.IsInner) : (condition g word).Makes Says :=
  .after fun e ↦ withTail_makes (h.withExpr e)

theorem otherwise_makes (start : Cursor) : (otherwise g start).Makes Says := by
  refine .bind (tokenFrom_makes (by decide) _) fun word hword ↦ .after fun c ↦ ?_
  dsimp only
  split
  · refine .after fun _ ↦ .bind (tokenFrom_makes (by decide) _) fun t ht ↦ ?_
    exact condition_makes ht.1
  · exact withTail_makes hword.1

theorem loopVariables_makes :
    (loopVariables : Reader σ (List (Token E))).Makes fun ts ↦ ∀ t ∈ ts, t.IsInner := by
  have hvariable : (loopVariable : Reader σ (Token E)).Makes IsInner := by
    refine .after fun c ↦ .ite (.failAt _ _) ?_
    exact .after fun _ ↦ .after fun _ ↦ .pure (isInner_ofText (by decide) _ _)
  refine .after fun _ ↦ .bind hvariable fun first hfirst ↦ .after fun eaten ↦ .ite ?_ ?_
  · refine .after fun _ ↦ .bind hvariable fun second hsecond ↦ .pure ?_
    rintro t ht
    rcases List.mem_cons.1 ht with rfl | ht
    · exact hfirst
    · rwa [List.mem_singleton.1 ht]
  · refine .pure fun t ht ↦ ?_
    rwa [List.mem_singleton.1 ht]

theorem each_makes (start : Cursor) : (each g start).Makes Says := by
  refine .bind (tokenFrom_makes (by decide) _) fun word hword ↦ ?_
  refine .bind loopVariables_makes fun names hnames ↦ .after fun c ↦ .ite ?_ (.failAt _ _)
  refine .after fun _ ↦ .after fun e ↦ withTail_makes (isInner_iff.2 ⟨?_, hnames⟩)
  change (if names.length = 2 then _ else _) ≠ _
  split <;> decide

theorem mixin_makes : (mixin g).Makes Says := by
  refine .after fun e ↦ .ite (.throw _) (withTail_makes (IsInner.withExpr ?_ e))
  exact isInner_leaf (by decide) _ _

theorem line_makes {keyword : Keyword} (hk : ∀ kind, keyword = .condition kind → kind ≠ .line)
    (start : Cursor) : (line g keyword start).Makes Says := by
  cases keyword with
  | condition kind =>
    exact .bind (tokenFrom_makes (hk kind rfl) _) fun t ht ↦ condition_makes ht.1
  | otherwise => exact otherwise_makes start
  | default => exact .bind (tokenFrom_makes (by decide) _) fun t ht ↦ withTail_makes ht.1
  | each => exact each_makes start
  | mixin => exact mixin_makes
  | inclusion =>
    refine .after fun found ↦ .ite (.failAt _ _) (.pure ?_)
    exact .plain (isInner_ofText (by decide) _ _)
  | doctype => exact .after fun found ↦ .pure (.plain (isInner_ofText (by decide) _ _))

end Directive

theorem Keyword.ne_line_of_atFront {cs word : List Char} {keyword : Keyword}
    (h : atFront? cs = some (keyword, word)) : ∀ kind, keyword = .condition kind → kind ≠ .line := by
  rintro kind rfl
  exact ne_line (isContainer_condition (atFront_eq_some h).1)

namespace Code

theorem statement_makes (lineBreak : List Char) : (statement g lineBreak).Makes IsInner := by
  refine .after fun start ↦ .after fun e ↦ .after fun _ ↦ .after fun _ ↦ .after fun c ↦ ?_
  exact .bind (tokenFrom_makes (by decide) _) fun t ht ↦ .pure (ht.1.withExpr e)

theorem item_makes (lineBreak : List Char) :
    (item g lineBreak).Makes (OfItem IsInner fun _ _ ↦ True) := by
  have hnext : (item.next g lineBreak).Makes (OfItem IsInner fun _ _ ↦ True) :=
    .bind (statement_makes lineBreak) fun t ht ↦ .after fun _ ↦ .pure ht
  refine .after fun c ↦ .ite hnext (.ite ?_ (.pure ⟨nofun, trivial⟩))
  exact .after fun _ ↦ hnext

theorem block_makes (level : Nat) {t : Token E} (h : t.IsInner) :
    (block g level t).Makes fun u ↦ u.IsInner ∧ u.kind = t.kind := by
  refine .after fun lineBreak ↦ ?_
  cases lineBreak with
  | none => exact .pure ⟨h, rfl⟩
  | some lineBreak =>
    refine .bind (.gather (item_makes lineBreak) (fun _ _ _ _ ↦ trivial) _) fun r hr ↦ ?_
    exact .pure ⟨h.withChildren hr.1, rfl⟩

/-- What a lone `-` says is the block below it. -/
theorem blockLine_makes (start behind : Cursor) (level : Nat) :
    (do
      let mark ← tokenFrom start .codeBlock
      moveTo behind.lineEnd
      return (← block g level mark, .plain) : Reader σ (Token E × LineTail)).Makes
      fun r ↦ Says r ∧ r.1.OpensBlock ∧ r.2 = .plain := by
  refine .bind (tokenFrom_makes (by decide) _) fun mark hmark ↦ .after fun _ ↦ ?_
  refine .bind (block_makes level hmark.1) fun t ht ↦ .pure ⟨.plain ht.1, ?_, rfl⟩
  exact opensBlock_self (by rw [ht.2, hmark.2]; rfl)

theorem line_makes (level : Nat) : (line g level).Makes Says := by
  refine .after fun start ↦ .after fun _ ↦ .after fun behind ↦ .ite ?_ ?_
  · exact (blockLine_makes start behind level).mono fun r hr ↦ hr.1
  · dsimp only
    split
    · rename_i keyword word hk
      refine .after fun _ ↦ Directive.line_makes ?_ _
      exact Keyword.ne_line_of_atFront (Option.filter_eq_some_iff.1 hk).1
    · exact .after fun _ ↦ .bind (statement_makes []) fun t ht ↦ .pure (.plain ht)

end Code

namespace Line

theorem word_makes : (word g).Makes Says := by
  refine .after fun start ↦ ?_
  split
  · rename_i keyword name hk
    exact .after fun _ ↦ Directive.line_makes (Keyword.ne_line_of_atFront hk) _
  · exact .after fun _ ↦ Tag.line_makes _ _

theorem comment_makes : (comment g).Makes Says := by
  refine .after fun start ↦ .after fun eaten ↦ .ite ?_ ?_
  · refine .bind (tokenFrom_makes (by decide) _) fun t ht ↦ .after fun c ↦ .after fun _ ↦ ?_
    refine .pure ⟨ht.1.withChildren ?_, fun _ _ ↦ opensBlock_self ?_⟩
    · split
      · nofun
      · rintro u hu
        rw [List.mem_singleton.1 hu]
        exact isInner_ofText (by decide) _ _
    · change t.kind.opensBlock = true
      rw [ht.2]
      rfl
  · refine .after fun _ ↦ .bind (tokenFrom_makes (by decide) _) fun t ht ↦ ?_
    refine .bind (TextRun.pieces_makes (Tag.inlineTag_makes _)) fun ts hts ↦ ?_
    refine .pure ⟨ht.1.withChildren hts, fun _ _ ↦ opensBlock_self ?_⟩
    change t.kind.opensBlock = true
    rw [ht.2]
    rfl

theorem arguments_makes : (arguments g).Makes fun ts ↦ ∀ t ∈ ts, t.IsInner := by
  refine .after fun eaten ↦ .ite ?_ (.pure nofun)
  refine .after fun _ ↦ .after fun eaten ↦ .ite (.pure nofun) <| .after fun e ↦ ?_
  refine .after fun _ ↦ .after fun eaten ↦ .ite (.pure ?_) (.after fun _ ↦ .failAt _ _)
  rintro t ht
  rw [List.mem_singleton.1 ht]
  exact (isInner_leaf (by decide) _ _).withExpr e

theorem call_makes : (call g).Makes Says := by
  refine .after fun _ ↦ .after fun c ↦ .ite (.failAt _ _) <| .after fun _ ↦ ?_
  refine .bind arguments_makes fun args hargs ↦ ?_
  refine .bind (Tag.parts_makes (Tag.inlineTag_makes _)) fun r hr ↦ .pure ⟨?_, fun i hi ↦ ?_⟩
  · refine (isInner_ofText (by decide) _ _).withChildren fun t ht ↦ ?_
    exact (List.mem_append.1 ht).elim (hargs t) (hr.1 t)
  · exact hr.2.opensBlock _ args i hi

theorem payload_makes (level : Nat) : (payload g level).Makes Says := by
  refine .after fun start ↦ ?_
  have hfront := standsAt_ofRest start.rest
  cases hp : Form.ofRest start.rest with
  | shorthand => exact Tag.line_makes _ _
  | comment => exact comment_makes
  | word => exact word_makes
  | dot =>
    refine .bind (Tag.closingMark_makes (by decide)) fun t ht ↦ ?_
    exact .pure ⟨ht.1, fun _ _ ↦ opensBlock_self (by rw [ht.2]; rfl)⟩
  | piped =>
    refine .after fun _ ↦ .after fun _ ↦ ?_
    exact .bind (TextRun.run_makes (Tag.inlineTag_makes _)) fun t ht ↦ .pure (.plain ht)
  | output kind mark =>
    rw [hp] at hfront
    obtain ⟨-, -, -, -, hk⟩ := hfront
    exact .bind (Tag.output_makes (ne_line hk) _ _) fun t ht ↦ .after fun _ ↦ .pure (.plain ht)
  | code => exact Code.line_makes level
  | call => exact call_makes
  | raw =>
    exact .after fun c ↦ .after fun _ ↦ .pure (.plain (isInner_ofText (by decide) _ _))
  | unknown => exact .failAt _ _

/-- A line as it is read: all that stands in it is inner. -/
structure IsBare (line : Token E) : Prop where
  kind : line.kind = .line
  inner : ∀ t ∈ line.children, t.IsInner

theorem lineFrom_makes (start : Cursor) {t : Token E} (h : t.IsInner) :
    (lineFrom start t : Reader σ (Token E)).Makes
      fun line ↦ IsBare line ∧ line.children = [t] := by
  refine .after fun c ↦ .after fun text ↦ .pure ⟨⟨rfl, ?_⟩, rfl⟩
  rintro u hu
  rwa [List.mem_singleton.1 hu]

theorem markup_makes (level : Nat) : (markup g level).Makes fun r ↦
    IsBare r.1 ∧ ∀ interpolate, r.2 = .verbatim interpolate → r.1.OpensBlock := by
  refine .after fun start ↦ .bind (payload_makes level) fun r hr ↦ ?_
  refine .bind (lineFrom_makes start hr.inner) fun line hline ↦ .pure ⟨hline.1, fun i hi ↦ ?_⟩
  refine (hr.opens i hi).below ?_
  rw [hline.2]
  exact List.mem_singleton_self _

end Line

end Pug
