import Pug.Proofs.Expression.Shape
import Pug.Proofs.Grammar.TextOwner
import Pug.Proofs.Layout.Verbatim
import Pug.Proofs.Lockstep.Checked

/-!
# The definitions of mixins

The definition of a mixin is one expression, from which the name is cut at the first parenthesis. The
loose parser lets a definition pass if its expression has the shape of a name or of a call, so the name
that is cut is the one that the shape speaks of, and what stands behind it is one group or nothing.

The grammar of trees tells where definitions stand: only a line may say one, and only the reader of
directives makes one.
-/

namespace Pug

open Text Token Reader Outline Shape
open ExpressionParser (Call loose taken?_loose loose_eq_brokeDown)

variable {σ E : Type}

namespace Token

mutual

/-- What stands in a tree is its root, or a child of what stands in it. -/
theorem eq_or_exists_parent {u : Token E} : ∀ {t : Token E}, u ∈ t.preorder →
    u = t ∨ ∃ v ∈ t.preorder, u ∈ v.children
  | ⟨kind, text, span, expr, children⟩, h => by
    rw [preorder, List.mem_cons] at h
    refine h.imp_right fun h ↦ ?_
    rcases mem_or_exists_parent h with hmem | ⟨v, hv, hu⟩
    · exact ⟨_, mem_preorder_self _, hmem⟩
    · exact ⟨v, by rw [preorder]; exact List.mem_cons_of_mem _ hv, hu⟩

theorem mem_or_exists_parent {u : Token E} : ∀ {ts : List (Token E)}, u ∈ preorderAll ts →
    u ∈ ts ∨ ∃ v ∈ preorderAll ts, u ∈ v.children
  | [], h => by
    rw [preorderAll] at h
    contradiction
  | t :: ts, h => by
    rw [preorderAll, List.mem_append] at h
    rcases h with h | h
    · rcases eq_or_exists_parent h with rfl | ⟨v, hv, hu⟩
      · exact .inl (List.mem_cons_self ..)
      · exact .inr ⟨v, by rw [preorderAll]; exact List.mem_append_left _ hv, hu⟩
    · rcases mem_or_exists_parent h with hmem | ⟨v, hv, hu⟩
      · exact .inl (List.mem_cons_of_mem _ hmem)
      · exact .inr ⟨v, by rw [preorderAll]; exact List.mem_append_right _ hv, hu⟩

end

namespace Kind

variable {k : Kind} {ks : List Kind}

theorem not_mem_of_endsTag (h : endsTag ks = true) : mixinDefinition ∉ ks := by
  intro hmem
  rw [← List.takeWhile_append_dropWhile (p := isTagPart) (l := ks), List.mem_append] at hmem
  unfold endsTag at h
  rcases hmem with hpart | hending
  · exact absurd (List.mem_takeWhile_imp hpart) (by decide)
  · split at h
    · rename_i hnil
      rw [hnil] at hending
      contradiction
    · rename_i hone
      rw [hone, List.mem_singleton] at hending
      rw [← hending] at h
      contradiction
    · contradiction

theorem not_mem_of_mayFollow (h : mayFollow ks = true) : mixinDefinition ∉ ks := by
  rw [mayFollow, Bool.or_eq_true, beq_iff_eq, beq_iff_eq] at h
  rcases h with rfl | rfl <;> decide

theorem not_mem_of_all {p : Kind → Bool} (hp : p mixinDefinition = false) (h : ks.all p = true) :
    mixinDefinition ∉ ks :=
  fun hmem ↦ absurd ((List.all_eq_true.1 h _ hmem).symm.trans hp) (by decide)

/-- The definition of a mixin stands directly below a line and is what the line says. -/
theorem line_of_mixinDefinition (h : k.allows ks = true) (hm : mixinDefinition ∈ ks) :
    k = .line ∧ ks.tail.all (· == .line) = true := by
  unfold allows at h
  split at h
  case h_2 => exact ⟨rfl, (Bool.and_eq_true_iff.1 h).2⟩
  all_goals exfalso
  case h_5 => exact not_mem_of_endsTag h (List.mem_of_ne_of_mem (by decide) hm)
  case h_9 =>
    rw [Bool.or_eq_true, beq_iff_eq, beq_iff_eq] at h
    rcases h with rfl | rfl <;> exact absurd hm (by decide)
  case h_12 => exact not_mem_of_mayFollow h (List.mem_of_ne_of_mem (by decide) hm)
  case h_13 =>
    exact not_mem_of_mayFollow h (List.mem_of_ne_of_mem (by decide) (List.mem_of_ne_of_mem (by decide) hm))
  all_goals first
    | exact not_mem_of_all rfl h hm
    | exact not_mem_of_endsTag h hm
    | exact not_mem_of_mayFollow h hm
    | exact absurd hm (by rw [beq_iff_eq.1 h]; decide)
    | contradiction

end Kind

end Token

open Token

namespace Reader

/-- What the loose parser takes for an expression, it tells the shape of. -/
theorem expression_loose {g : Setup Unit Shape} (hg : g.parser = loose) (mode : Mode)
    (problem : Problem) : (expression g mode problem).Makes fun e ↦ ∃ c raw text,
      extent mode text = .upTo raw ∧ e = embed c raw (Shape.ofText (trim raw)) := by
  intro s e t h
  have htaken := taken?_loose mode s.cursor.rest s.parser
  rw [← hg] at htaken
  cases hx : extent mode s.cursor.rest with
  | upTo raw =>
    rw [hx] at htaken
    rw [expression_of_taken rfl htaken] at h
    cases h
    exact ⟨_, raw, _, hx, rfl⟩
  | absent =>
    rw [hx] at htaken
    have hbroke : (g.parser.parse mode s.cursor.rest s.parser).1 ≠ .brokeDown := by
      rw [hg, Ne, loose_eq_brokeDown, hx]
      decide
    rw [expression_of_refused rfl htaken hbroke] at h
    contradiction
  | torn =>
    have hbroke : (g.parser.parse mode s.cursor.rest s.parser).1 = .brokeDown := by
      rw [hg, loose_eq_brokeDown, hx]
    rw [expression_of_brokeDown (Prod.ext hbroke rfl)] at h
    contradiction

end Reader

section

variable {name text raw : List Char}

/-- The blanks behind a name are all that is trimmed. -/
theorem Shape.IsName.trimEnd_append (h : IsName name) {blanks : List Char}
    (hb : ∀ c ∈ blanks, isBlank c = true) : trimEnd (name ++ blanks) = name := by
  rw [LineEnding.trimEnd_append_blanks hb]
  rcases List.eq_nil_or_concat' name with rfl | ⟨front, c, rfl⟩
  · rfl
  · refine LineEnding.trimEnd_append_singleton (Bool.eq_false_iff.2 fun hc ↦ ?_)
    have hname := h.chars c (List.mem_append_right _ (List.mem_singleton_self c))
    rw [isNameChar_of_isBlank hc] at hname
    contradiction

/-- No parenthesis stands in a name and in the blanks behind it. -/
theorem Shape.IsName.ne_paren (h : IsName name) {blanks : List Char}
    (hb : ∀ c ∈ blanks, isBlank c = true) : ∀ c ∈ name ++ blanks, (c != '(') = true := by
  refine List.forall_mem_append.2 ⟨fun c hc ↦ ?_, fun c hc ↦ ?_⟩
  · rw [bne_iff_ne]
    rintro rfl
    exact absurd (h.chars _ hc) (by decide)
  · rw [bne_iff_ne]
    rintro rfl
    exact absurd (hb _ hc) (by decide)

/-- A name in front of blanks is all of a text without blanks at its end. -/
theorem Shape.IsNamed.eq_of_trimmed (h : IsNamed name (trim raw)) : trim raw = name := by
  obtain ⟨hname, blanks, hb, htext⟩ := h
  have htrim : trimEnd (trim raw) = trim raw := by
    simp [trim, trimEnd, List.dropWhile_idempotent]
  rw [← htrim, htext, hname.trimEnd_append hb]

/-- The name in a definition is the name that its shape speaks of. -/
theorem Directive.mixinName_of_isName (h : IsName name) : mixinName name = name := by
  have hnone : ∀ c ∈ ([] : List Char), isBlank c = true := List.forall_mem_nil _
  have hall := h.ne_paren hnone
  rw [List.append_nil] at hall
  have htrim := h.trimEnd_append hnone
  rw [List.append_nil] at htrim
  rw [mixinName, List.takeWhile_eq_self_iff.2 hall, htrim]

theorem Directive.mixinName_of_isCalled (h : IsCalled name text) : mixinName text = name := by
  obtain ⟨hname, blanks, g, hb, -, rfl⟩ := h
  rw [mixinName, ← List.append_assoc, List.takeWhile_append_of_pos (hname.ne_paren hb),
    List.takeWhile_cons_of_neg (by decide), List.append_nil, hname.trimEnd_append hb]

end

/-- The definition of a mixin says its name, and its expression is that name alone or the name and one
group of parameters. -/
def Token.NamesMixin (t : Token E) : Prop :=
  ∃ name e, t.text = String.ofList name ∧ t.expr = some e ∧
    (IsName name ∧ e.text = String.ofList name ∨ IsCalled name e.text.toList)

/-- A definition of a mixin names it; nothing is said of other tokens. -/
def Token.NamesIfMixin (t : Token E) : Prop :=
  t.kind = .mixinDefinition → t.NamesMixin

theorem Token.namesIfMixin_of_ne {t : Token E} (h : t.kind ≠ .mixinDefinition) : t.NamesIfMixin :=
  fun hk ↦ absurd hk h

section Readers

variable {g : Setup Unit Shape}

theorem Directive.mixin_names (hg : g.parser = loose) :
    (mixin g).Makes fun r ↦ r.1.NamesMixin := by
  refine .bind (expression_loose hg _ _) fun e he ↦ ?_
  obtain ⟨c, raw, text, hx, rfl⟩ := he
  have hcut : mixinName (embed c raw (Shape.ofText (trim raw))).text.toList = mixinName (trim raw) :=
    congrArg mixinName String.toList_ofList
  dsimp only
  split
  · exact .throw _
  · rename_i hshape
    rw [hg] at hshape
    refine .after fun _ ↦ .pure ?_
    cases hof : Shape.ofText (trim raw) with
    | other => exact absurd hof hshape
    | identifier =>
      obtain ⟨name, hnamed⟩ := exists_isNamed hof
      have htext := hnamed.eq_of_trimmed
      rw [← hof]
      refine ⟨name, _, ?_, rfl, .inl ⟨hnamed.isName, congrArg String.ofList htext⟩⟩
      refine congrArg String.ofList (hcut.trans ?_)
      rw [htext, mixinName_of_isName hnamed.isName]
    | callOnIdentifier =>
      obtain ⟨⟨k, hitems⟩, -⟩ := exists_items_of_extent hx
      obtain ⟨blanks, hraw, -⟩ := exists_eq_trim_append raw
      rw [hraw] at hitems
      obtain ⟨name, hcalled⟩ := exists_isCalled hof
        (hitems.of_passed_append fun c hc ↦ isPassed_of_isBlank (List.mem_takeWhile_imp hc))
      rw [← hof]
      refine ⟨name, _, ?_, rfl, .inr ?_⟩
      · exact congrArg String.ofList (hcut.trans (mixinName_of_isCalled hcalled))
      · rw [show (embed c raw (Shape.ofText (trim raw))).text.toList = trim raw from
          String.toList_ofList]
        exact hcalled

namespace Directive

theorem withTail_names {t : Token Shape} (h : t.kind ≠ .mixinDefinition) :
    (do return (t, ← tail) : Reader Unit (Token Shape × LineTail)).Makes fun r ↦
      r.1.NamesIfMixin :=
  .after fun _ ↦ .pure (namesIfMixin_of_ne h)

theorem condition_names {word : Token Shape} (h : word.kind ≠ .mixinDefinition) :
    (condition g word).Makes fun r ↦ r.1.NamesIfMixin :=
  .after fun _ ↦ withTail_names h

theorem line_names (hg : g.parser = loose) {keyword : Keyword}
    (hk : ∀ kind, keyword = .condition kind → isCondition kind = true) (start : Cursor) :
    (line g keyword start).Makes fun r ↦ r.1.NamesIfMixin := by
  cases keyword with
  | condition kind =>
    refine .bind (tokenFrom_eq_leaf start kind) ?_
    rintro _ ⟨text, span, rfl⟩
    refine condition_names ?_
    rintro (rfl : kind = .mixinDefinition)
    exact absurd (hk _ rfl) (by decide)
  | otherwise =>
    refine .bind (tokenFrom_eq_leaf start .controlElse) fun word hword ↦ .after fun c ↦ ?_
    obtain ⟨text, span, rfl⟩ := hword
    dsimp only
    split
    · refine .after fun _ ↦ .bind (tokenFrom_eq_leaf start .controlElseIf) ?_
      rintro _ ⟨text, span, rfl⟩
      exact condition_names nofun
    · exact withTail_names nofun
  | default =>
    refine .bind (tokenFrom_eq_leaf start .controlDefault) ?_
    rintro _ ⟨text, span, rfl⟩
    exact withTail_names nofun
  | each =>
    refine .bind (tokenFrom_eq_leaf start .controlEach) ?_
    rintro _ ⟨text, span, rfl⟩
    refine .after fun names ↦ .after fun c ↦ .ite (.after fun _ ↦ .after fun e ↦ ?_) (.failAt _ _)
    refine withTail_names ?_
    change (if names.length = 2 then Kind.controlEachPair else .controlEach) ≠ .mixinDefinition
    split <;> decide
  | mixin => exact (mixin_names hg).mono fun r hr _ ↦ hr
  | inclusion => exact .after fun found ↦ .ite (.failAt _ _) (.pure (namesIfMixin_of_ne nofun))
  | doctype => exact .after fun found ↦ .pure (namesIfMixin_of_ne nofun)

end Directive

theorem Tag.line_names (start : Cursor) (name : List Char) :
    (Tag.line g start name).Makes fun r ↦ r.1.NamesIfMixin := by
  refine .after fun r ↦ .bind (P := fun t ↦ t.kind = .lineData) ?_ fun t ht ↦ .pure ?_
  · refine .bind (tokenFrom_eq_leaf start .lineData) ?_
    rintro _ ⟨text, span, rfl⟩
    exact .pure rfl
  · exact namesIfMixin_of_ne (by rw [ht]; decide)

theorem Code.line_names (hg : g.parser = loose) (level : Nat) :
    (Code.line g level).Makes fun r ↦ r.1.NamesIfMixin := by
  refine .after fun start ↦ .after fun _ ↦ .after fun behind ↦ .ite ?_ ?_
  · refine .bind (tokenFrom_eq_leaf start .codeBlock) fun t ht ↦ .after fun _ ↦ ?_
    obtain ⟨text, span, rfl⟩ := ht
    refine .bind (P := fun t : Token Shape ↦ t.kind = .codeBlock) ?_ fun t ht ↦ .pure ?_
    · refine .after fun lineBreak ↦ ?_
      cases lineBreak with
      | none => exact .pure rfl
      | some lineBreak => exact .after fun _ ↦ .pure rfl
    · exact namesIfMixin_of_ne (by rw [ht]; decide)
  · dsimp only
    split
    · rename_i keyword word hk
      refine .after fun _ ↦ Directive.line_names hg ?_ _
      exact Keyword.isCondition_of_atFront (Option.filter_eq_some_iff.1 hk).1
    · refine .after fun _ ↦ .bind (statement_makes_sound []) fun t ht ↦ .pure ?_
      exact namesIfMixin_of_ne (by rw [ht.2]; decide)

namespace Line

theorem comment_names : (comment g).Makes fun r ↦ r.1.NamesIfMixin := by
  refine .after fun start ↦ .after fun eaten ↦ .ite ?_ (.after fun _ ↦ ?_)
  · refine .bind (tokenFrom_eq_leaf start .lineComment) ?_
    rintro _ ⟨text, span, rfl⟩
    exact .after fun c ↦ .after fun _ ↦ .pure (namesIfMixin_of_ne nofun)
  · refine .bind (tokenFrom_eq_leaf start .lineCommentHtml) ?_
    rintro _ ⟨text, span, rfl⟩
    exact .after fun pieces ↦ .pure (namesIfMixin_of_ne nofun)

theorem call_names : (call g).Makes fun r ↦ r.1.NamesIfMixin :=
  .after fun _ ↦ .after fun _ ↦ .ite (.failAt _ _) <| .after fun _ ↦ .after fun _ ↦
    .after fun _ ↦ .pure (namesIfMixin_of_ne nofun)

/-- What a line says names the mixin that it defines, if it defines one. -/
theorem payload_names (hg : g.parser = loose) (level : Nat) :
    (payload g level).Makes fun r ↦ r.1.NamesIfMixin := by
  refine .after fun start ↦ ?_
  cases hp : Form.ofRest start.rest with
  | shorthand => exact Tag.line_names _ _
  | comment => exact comment_names
  | word =>
    refine .after fun start ↦ ?_
    split
    · rename_i keyword name hk
      exact .after fun _ ↦ Directive.line_names hg (Keyword.isCondition_of_atFront hk) _
    · exact .after fun _ ↦ Tag.line_names _ _
  | dot =>
    refine .bind (Tag.closingMark_eq_leaf .lineDot) ?_
    rintro _ ⟨text, span, rfl⟩
    exact .pure (namesIfMixin_of_ne nofun)
  | piped =>
    refine .after fun _ ↦ .after fun _ ↦ .bind TextRun.run_kind fun t ht ↦ .pure ?_
    exact namesIfMixin_of_ne (by rw [ht]; decide)
  | output kind mark =>
    refine .bind (Tag.output_fits (isOutput_of_form hp) _ _) fun t ht ↦ .after fun _ ↦ .pure ?_
    refine namesIfMixin_of_ne fun hk ↦ ?_
    have hkind := ht.kind
    rw [hk] at hkind
    contradiction
  | code => exact Code.line_names hg level
  | call => exact call_names
  | raw => exact .after fun c ↦ .after fun _ ↦ .pure (namesIfMixin_of_ne nofun)
  | unknown => exact .failAt _ _

/-- What the line says names the mixin that it defines, if it defines one. -/
def Names (line : Token E) : Prop :=
  ∀ p ∈ line.children.head?, p.NamesIfMixin

theorem markup_names (hg : g.parser = loose) (level : Nat) :
    (markup g level).Makes fun r ↦ Names r.1 := by
  refine .after fun start ↦ .bind (payload_names hg level) fun r hr ↦ ?_
  refine .bind (P := fun line ↦ line.children = [r.1]) ?_ fun line hline ↦ .pure ?_
  · exact .after fun c ↦ .after fun text ↦ .pure rfl
  · intro p hp
    rw [hline] at hp
    obtain rfl := Option.some.inj hp
    exact hr

theorem verbatim_names (interpolate : Bool) : (verbatim g interpolate).Makes Names := by
  refine .after fun start ↦ ?_
  have hline (t : Token Shape) (ht : IsRun t) :
      (lineFrom start t : Reader Unit (Token Shape)).Makes Names := by
    refine .after fun c ↦ .after fun text ↦ .pure ?_
    rintro p hp
    obtain rfl := Option.some.inj hp
    exact namesIfMixin_of_ne (by rw [ht.kind]; decide)
  exact .ite (.bind onLine_run hline) (.bind bareText_run hline)

end Line

end Readers

section Closed

variable {line p : Token E} {nested : List (Token E)}

theorem Token.NamesIfMixin.extendPayload (h : p.NamesIfMixin) (nested : List (Token E)) :
    (extendPayload p nested).NamesIfMixin := by
  unfold Outline.extendPayload
  split <;> exact h

/-- What a line says names its mixin with the lines below it in their place, too. -/
theorem Line.Names.close {e : Entry E} (h : Names e.token) (hne : e.token.children ≠ [])
    (nested : List (Token E)) : Names (e.close nested) := by
  unfold Entry.close
  split
  · rename_i payload others _ hchildren
    rintro p hp
    obtain rfl := Option.some.inj hp
    exact (h payload (by rw [hchildren]; rfl)).extendPayload nested
  · rintro p hp
    obtain ⟨q, others, hchildren⟩ := List.exists_cons_of_ne_nil hne
    refine h p ?_
    rw [extend, hchildren] at hp
    rw [hchildren]
    exact hp

end Closed

section Template

variable {maxDepth : Nat} {source : List Char} {root : Token Shape}

/-- What a line of the tree says names the mixin that it defines, if it defines one. -/
theorem names_of_lex (h : lex loose maxDepth source () = .ok root) :
    ∀ line ∈ root.preorder, line.kind = .line → Line.Names line := by
  unfold lex at h
  split at h
  · rename_i root' t hrun
    cases h
    obtain ⟨page, hlines, rfl⟩ := readTemplate_eq_ok.1 hrun
    have hcourse := Page.course_of_lines hlines
    have hparents := (hcourse.ordered (Page.Ordered.empty maxDepth)).outline.parents
    have hruled := isRuled_of_course hcourse nofun
    have hnames : ∀ y ∈ page.outline.numbered, Line.Names y.1.token :=
      hcourse.forall_token (fun level ↦ Line.markup_names rfl level) Line.verbatim_names nofun
    intro line hline hkind
    have hmem : line ∈ linesAll page.outline.finish.children := by
      rcases List.mem_cons.1 hline with rfl | hbelow
      · contradiction
      · exact List.mem_filter.2 ⟨hbelow, decide_eq_true hkind⟩
    obtain ⟨y, hy, rfl⟩ :=
      exists_numbered_of_mem_linesAll hparents (fun y hy ↦ (hruled y hy).isBare) hmem
    obtain ⟨p, hchildren, -⟩ := (hruled y hy).payload
    exact (hnames y hy).close (by rw [hchildren]; exact List.cons_ne_nil _ _) _
  · contradiction

/-- Every definition of a mixin in a tree names it. -/
theorem namesMixin_of_lex (h : lex loose maxDepth source () = .ok root) {t : Token Shape}
    (ht : t ∈ root.preorder) (hk : t.kind = .mixinDefinition) : t.NamesMixin := by
  obtain ⟨hroot, hrules⟩ := lex_keepsRules h
  rcases eq_or_exists_parent ht with rfl | ⟨line, hline, hmem⟩
  · rw [hroot] at hk
    contradiction
  · have hkinds : Kind.mixinDefinition ∈ line.children.map kind := hk ▸ List.mem_map_of_mem hmem
    obtain ⟨hkind, hothers⟩ := Kind.line_of_mixinDefinition (hrules line hline).children hkinds
    -- The other children of the line are lines, so the definition is the first of them.
    cases hc : line.children with
    | nil =>
      rw [hc] at hmem
      contradiction
    | cons p nested =>
      rw [hc] at hmem hothers
      rcases List.mem_cons.1 hmem with rfl | hbelow
      · exact names_of_lex h line hline hkind t (by rw [hc]; rfl) hk
      · have hline := List.all_eq_true.1 hothers t.kind (List.mem_map_of_mem hbelow)
        rw [hk] at hline
        contradiction

/-- The shape of an inline expression agrees with its brackets and quotes: it looks like a call where it
is a name and one group, like a name where it is a name, and like neither otherwise. So in every tree
the definition of a mixin has a name for its text, and its expression is the name alone or the name and
one group. -/
theorem ofText_agrees :
    (∀ t, extent .inline t = .upTo t →
      (Shape.ofText t = .callOnIdentifier ↔ ∃ name, IsCalled name t) ∧
        (Shape.ofText t = .identifier ↔ ∃ name, IsNamed name t) ∧
        (Shape.ofText t = .other ↔ (¬∃ name, IsCalled name t) ∧ ¬∃ name, IsNamed name t)) ∧
      ∀ maxDepth source root, lex loose maxDepth source () = .ok root →
        ∀ t ∈ root.preorder, t.kind = .mixinDefinition → t.NamesMixin := by
  refine ⟨fun t ht ↦ ?_, fun _ _ _ h t ↦ namesMixin_of_lex h⟩
  obtain ⟨⟨k, hitems⟩, -⟩ := exists_items_of_extent ht
  rw [← List.append_nil t] at hitems
  have hcall : Shape.ofText t = .callOnIdentifier ↔ ∃ name, IsCalled name t :=
    ⟨fun h ↦ exists_isCalled h hitems, fun ⟨_, h⟩ ↦ ofText_of_isCalled h⟩
  have hname : Shape.ofText t = .identifier ↔ ∃ name, IsNamed name t :=
    ⟨exists_isNamed, fun ⟨_, h⟩ ↦ ofText_of_isNamed h⟩
  refine ⟨hcall, hname, ?_⟩
  rw [← hcall, ← hname]
  cases Shape.ofText t <;> decide

/-- A hyphen in the name, blanks behind it, and parentheses in a string and in other brackets. -/
theorem ofText_agrees_params :
    (extent .inline "m-x (a[')'], (b))".toList = .upTo "m-x (a[')'], (b))".toList ∧
      ∃ name, IsCalled name "m-x (a[')'], (b))".toList) ∧
      ∃ root, lex loose 32 "mixin m-x (a[')'])\n  p".toList () = .ok root ∧
        ∃ t ∈ root.preorder, t.kind = .mixinDefinition ∧ t.NamesMixin := by
  have hfound : extent .inline "m-x (a[')'], (b))".toList = .upTo "m-x (a[')'], (b))".toList := by
    decide +kernel
  refine ⟨⟨hfound, (ofText_agrees.1 _ hfound).1.1 (by decide +kernel)⟩, ?_⟩
  obtain ⟨root, h, hany⟩ := exists_of_any (r := lex loose 32 "mixin m-x (a[')'])\n  p".toList ())
    (p := fun root ↦ root.preorder.any fun t ↦ t.kind == .mixinDefinition) (by decide +kernel)
  obtain ⟨t, ht, hk⟩ := List.any_eq_true.1 hany
  exact ⟨root, h, t, ht, beq_iff_eq.1 hk, ofText_agrees.2 _ _ _ h t ht (beq_iff_eq.1 hk)⟩

end Template

end Pug
