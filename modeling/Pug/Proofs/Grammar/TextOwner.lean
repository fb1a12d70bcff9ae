import Pug.Proofs.Grammar.Payload

/-!
# Lines that make the lines below them text

A lone `.`, a comment, and a tag or a call that ends in a `.` make the lines below them text. That a line
says so and that it asks for text are the same: whatever else a line says, it asks for no text.
-/

namespace Pug

open Token Reader

variable {σ E : Type} {g : Setup σ E}

namespace Token

/-- A row of parts ends in a `.`. -/
def endsInDot (ts : List (Token E)) : Bool :=
  ts.getLast?.any fun t ↦ t.kind == .tagDotBlock

/-- The kinds of what makes the lines below text, and of what may hold such a `.`. -/
def Kind.mayMakeText : Kind → Bool
  | .lineDot | .lineComment | .lineCommentHtml | .mixinCall | .lineData => true
  | _ => false

/-- What a line says makes the lines below it text. -/
def makesText (payload : Token E) : Bool :=
  match payload.kind with
  | .lineDot | .lineComment | .lineCommentHtml => true
  | .mixinCall => endsInDot payload.children
  | .lineData => payload.children.head?.any fun tag ↦ tag.kind == .tag && endsInDot tag.children
  | _ => false

/-- The lines below a line are text. -/
def ownsText (line : Token E) : Bool :=
  line.children.head?.any makesText

theorem makesText_of_kind {t : Token E} (h : t.kind.mayMakeText = false) : t.makesText = false := by
  unfold makesText
  cases hk : t.kind <;> first | rfl | (rw [hk] at h; contradiction)

theorem endsInDot_eq (ts : List (Token E)) :
    endsInDot ts = (ts.map kind).getLast?.any (· == .tagDotBlock) := by
  rw [List.getLast?_map, Option.any_map]
  rfl

/-- Behind other parts, the ending stays. -/
theorem endsInDot_append {ts us : List (Token E)} (h : us ≠ []) :
    endsInDot (ts ++ us) = endsInDot us := by
  rw [endsInDot, List.getLast?_append_of_ne_nil _ h, endsInDot]

end Token

section Parts

variable {inlineTag : Reader σ (Token E)} {interpolated : Bool}

theorem TextRun.run_kind :
    (TextRun.run g inlineTag interpolated).Makes fun t ↦ t.kind = .linePlainText := by
  refine .after fun start ↦ .after fun ts ↦ .bind (tokenFrom_eq_leaf start .linePlainText) ?_
  rintro _ ⟨text, span, rfl⟩
  exact .pure rfl

namespace Tag

/-- Parts that end in a `.` ask for text. -/
def DotTells (ts : List (Token E)) (tail : LineTail) : Prop :=
  endsInDot ts = true → tail = .verbatim true

theorem dotTells_of_kind {t : Token E} (h : t.kind ≠ .tagDotBlock) (tail : LineTail) :
    DotTells [t] tail := by
  intro hdot
  exact absurd (beq_iff_eq.1 hdot) h

theorem part_dots : (part g inlineTag interpolated).Makes
    (Each (fun t ↦ t.kind ≠ .tagDotBlock) DotTells) := by
  refine .after fun start ↦ ?_
  have hknown := known_ofRest interpolated start.rest
  cases hp : Part.ofRest interpolated start.rest with
  | finished => exact .pure nofun
  | note kind =>
    rw [hp] at hknown
    refine .bind (P := fun t : Token E ↦ t.kind ≠ .tagDotBlock) ?_ fun _ ht ↦ .pure ht
    refine .after fun _ ↦ .after fun c ↦ .after fun _ ↦ .pure ?_
    rcases hknown with rfl | rfl
    · exact (by decide : Kind.tagClassNote ≠ .tagDotBlock)
    · exact (by decide : Kind.tagIdNote ≠ .tagDotBlock)
  | dotBlock => exact .bind (P := fun _ ↦ True) (fun _ _ _ _ ↦ trivial) fun t _ ↦ .pure fun _ ↦ rfl
  | attributes =>
    refine .bind Attribute.list_fits fun t ht ↦ .pure fun hk ↦ ?_
    have hpart := ht.kind
    rw [hk] at hpart
    contradiction
  | spread =>
    refine .bind (P := fun t : Token E ↦ t.kind ≠ .tagDotBlock) ?_ fun _ ht ↦ .pure ht
    refine .after fun start ↦ .after fun _ ↦ .after fun e ↦ .after fun _ ↦ .after fun eaten ↦
      .ite ?_ (.after fun _ ↦ .failAt _ _)
    refine .bind (tokenFrom_eq_leaf start .tagAttributes) fun t ht ↦ .pure ?_
    obtain ⟨text, span, rfl⟩ := ht
    exact (by decide : Kind.tagAttributes ≠ .tagDotBlock)
  | selfClose =>
    refine .bind (closingMark_eq_leaf .tagSelfClose) fun t ht ↦ .pure ?_
    obtain ⟨text, span, rfl⟩ := ht
    exact dotTells_of_kind (by decide : Kind.tagSelfClose ≠ .tagDotBlock) _
  | output kind mark =>
    rw [hp] at hknown
    refine .bind (output_fits hknown _ _) fun t ht ↦ .after fun _ ↦ .pure ?_
    refine dotTells_of_kind (fun hk ↦ ?_) _
    have hout := ht.kind
    rw [hk] at hout
    contradiction
  | follow => exact .after fun _ ↦ .pure nofun
  | text =>
    refine .bind (P := fun ts ↦ DotTells ts .plain) ?_ fun ts hts ↦ .pure hts
    refine .after fun _ ↦ .after fun start ↦ .ite (.after fun _ ↦ .pure nofun) ?_
    refine .bind TextRun.run_kind fun run hrun ↦ .pure ?_
    split
    · nofun
    · exact dotTells_of_kind (by rw [hrun]; decide) _
  | unexpected => exact .failAt _ _

theorem parts_dots : (parts g inlineTag interpolated).Makes fun r ↦ DotTells r.1 r.2 := by
  refine .gather_of part_dots (fun t ts tail ht hts hdot ↦ ?_) _
  cases ts with
  | nil => exact absurd (beq_iff_eq.1 hdot) ht
  | cons u us =>
    refine hts ?_
    rwa [← List.singleton_append, endsInDot_append (by simp)] at hdot

end Tag

end Parts

/-- What makes the lines below text asks for text, and a comment that stays in the template for text as
it is. -/
def OwnsTextTells (r : Token E × LineTail) : Prop :=
  r.1.makesText = true →
    ∃ interpolate, r.2 = .verbatim interpolate ∧ (r.1.kind = .lineComment → interpolate = false)

theorem OwnsTextTells.of_kind {r : Token E × LineTail} (h : r.1.kind.mayMakeText = false) :
    OwnsTextTells r := by
  intro hmakes
  rw [makesText_of_kind h] at hmakes
  contradiction

theorem Tag.line_owns (start : Cursor) (name : List Char) :
    (Tag.line g start name).Makes OwnsTextTells := by
  refine .bind parts_dots fun r hr ↦ ?_
  refine .bind (P := fun t ↦ t.kind = .lineData ∧
    t.children = [(ofText .tag start name).withChildren r.1]) ?_ fun t ht ↦ .pure fun hmakes ↦ ?_
  · refine .bind (tokenFrom_eq_leaf start .lineData) ?_
    rintro _ ⟨text, span, rfl⟩
    exact .pure ⟨rfl, rfl⟩
  · obtain ⟨hk, hc⟩ := ht
    have hdot : endsInDot r.1 = true := by
      unfold makesText at hmakes
      rw [hk, hc] at hmakes
      exact hmakes
    exact ⟨true, hr hdot, fun h ↦ absurd (hk.symm.trans h) (by decide)⟩

namespace Directive

theorem withTail_owns {t : Token E} (h : t.kind.mayMakeText = false) :
    (do return (t, ← tail) : Reader σ (Token E × LineTail)).Makes OwnsTextTells :=
  .after fun _ ↦ .pure (.of_kind h)

theorem condition_owns {word : Token E} (h : word.kind.mayMakeText = false) :
    (condition g word).Makes OwnsTextTells :=
  .after fun _ ↦ withTail_owns h

theorem mayMakeText_of_isCondition {kind : Kind} (h : isCondition kind = true) :
    kind.mayMakeText = false := by
  cases kind <;> first | rfl | contradiction

theorem line_owns {keyword : Keyword} (hk : ∀ kind, keyword = .condition kind → isCondition kind = true)
    (start : Cursor) : (line g keyword start).Makes OwnsTextTells := by
  cases keyword with
  | condition kind =>
    refine .bind (tokenFrom_eq_leaf start kind) ?_
    rintro _ ⟨text, span, rfl⟩
    exact condition_owns (mayMakeText_of_isCondition (hk kind rfl))
  | otherwise =>
    refine .bind (tokenFrom_eq_leaf start .controlElse) fun word hword ↦ .after fun c ↦ ?_
    obtain ⟨text, span, rfl⟩ := hword
    dsimp only
    split
    · refine .after fun _ ↦ .bind (tokenFrom_eq_leaf start .controlElseIf) ?_
      rintro _ ⟨text, span, rfl⟩
      exact condition_owns rfl
    · exact withTail_owns rfl
  | default =>
    refine .bind (tokenFrom_eq_leaf start .controlDefault) ?_
    rintro _ ⟨text, span, rfl⟩
    exact withTail_owns rfl
  | each =>
    refine .bind (tokenFrom_eq_leaf start .controlEach) ?_
    rintro _ ⟨text, span, rfl⟩
    refine .after fun names ↦ .after fun c ↦ .ite (.after fun _ ↦ .after fun e ↦ ?_) (.failAt _ _)
    refine withTail_owns ?_
    change Kind.mayMakeText (if names.length = 2 then _ else _) = false
    split <;> rfl
  | mixin => exact .after fun _ ↦ .ite (.throw _) (withTail_owns rfl)
  | inclusion => exact .after fun found ↦ .ite (.failAt _ _) (.pure (.of_kind rfl))
  | doctype => exact .after fun found ↦ .pure (.of_kind rfl)

end Directive

theorem Code.line_owns (level : Nat) : (Code.line g level).Makes OwnsTextTells := by
  refine .after fun start ↦ .after fun _ ↦ .after fun behind ↦ .ite ?_ ?_
  · refine .bind (tokenFrom_eq_leaf start .codeBlock) fun t ht ↦ .after fun _ ↦ ?_
    obtain ⟨text, span, rfl⟩ := ht
    refine .bind (P := fun t : Token E ↦ t.kind = .codeBlock) ?_ fun t ht ↦ .pure (.of_kind ?_)
    · refine .after fun lineBreak ↦ ?_
      cases lineBreak with
      | none => exact .pure rfl
      | some lineBreak => exact .after fun _ ↦ .pure rfl
    · change t.kind.mayMakeText = false
      rw [ht]
      rfl
  · dsimp only
    split
    · rename_i keyword word hk
      refine .after fun _ ↦ Directive.line_owns ?_ _
      exact Keyword.isCondition_of_atFront (Option.filter_eq_some_iff.1 hk).1
    · refine .after fun _ ↦ .bind (statement_makes_sound []) fun t ht ↦ .pure (.of_kind ?_)
      change t.kind.mayMakeText = false
      rw [ht.2]
      rfl

namespace Line

theorem comment_owns : (comment g).Makes OwnsTextTells := by
  refine .after fun start ↦ .after fun eaten ↦ .ite ?_ ?_
  · exact .after fun t ↦ .after fun c ↦ .after fun _ ↦ .pure fun _ ↦ ⟨false, rfl, fun _ ↦ rfl⟩
  · refine .after fun _ ↦ .bind (tokenFrom_eq_leaf start .lineCommentHtml) ?_
    rintro _ ⟨text, span, rfl⟩
    refine .after fun pieces ↦ .pure fun _ ↦ ⟨true, rfl, ?_⟩
    rintro ⟨⟩

theorem call_owns : (call g).Makes OwnsTextTells := by
  refine .after fun _ ↦ .after fun c ↦ .ite (.failAt _ _) <| .after fun _ ↦ ?_
  refine .bind arguments_make fun args hargs ↦ ?_
  refine .bind Tag.parts_dots fun r hr ↦ .pure fun hmakes ↦ ⟨true, hr ?_, ?_⟩
  · replace hmakes : endsInDot (args ++ r.1) = true := hmakes
    -- Arguments are no `.`, so it is the parts that end in it.
    cases hparts : r.1 with
    | nil =>
      rw [hparts, List.append_nil, endsInDot_eq] at hmakes
      rcases hargs.2 with h | h <;> rw [h] at hmakes <;> contradiction
    | cons t ts =>
      rwa [hparts, endsInDot_append (by simp)] at hmakes
  · rintro ⟨⟩

theorem payload_owns (level : Nat) : (payload g level).Makes OwnsTextTells := by
  refine .after fun start ↦ ?_
  cases hp : Form.ofRest start.rest with
  | shorthand => exact Tag.line_owns _ _
  | comment => exact comment_owns
  | word =>
    refine .after fun start ↦ ?_
    split
    · rename_i keyword name hk
      exact .after fun _ ↦ Directive.line_owns (Keyword.isCondition_of_atFront hk) _
    · exact .after fun _ ↦ Tag.line_owns _ _
  | dot =>
    refine .bind (Tag.closingMark_eq_leaf .lineDot) ?_
    rintro _ ⟨text, span, rfl⟩
    refine .pure fun _ ↦ ⟨true, rfl, ?_⟩
    rintro ⟨⟩
  | piped =>
    refine .after fun _ ↦ .after fun _ ↦ .bind TextRun.run_kind fun t ht ↦ .pure (.of_kind ?_)
    change t.kind.mayMakeText = false
    rw [ht]
    rfl
  | output kind mark =>
    refine .bind (Tag.output_fits (isOutput_of_form hp) _ _) fun t ht ↦ .after fun _ ↦ .pure (.of_kind ?_)
    change t.kind.mayMakeText = false
    have hk := ht.kind
    cases h : t.kind <;> rw [h] at hk <;> first | contradiction | rfl
  | code => exact Code.line_owns level
  | call => exact call_owns
  | raw => exact .after fun c ↦ .after fun _ ↦ .pure (.of_kind rfl)
  | unknown => exact .failAt _ _

/-- A line that makes the lines below it text asks for text. -/
theorem markup_owns (level : Nat) : (markup g level).Makes fun r ↦ r.1.ownsText = true →
    ∃ interpolate, r.2 = .verbatim interpolate ∧
      ((∃ payload ∈ r.1.children, payload.kind = .lineComment) → interpolate = false) := by
  refine .after fun start ↦ .bind (payload_owns level) fun r hr ↦ ?_
  refine .bind (P := fun line ↦ line.children = [r.1]) ?_ fun line hline ↦ .pure fun howns ↦ ?_
  · exact .after fun c ↦ .after fun text ↦ .pure rfl
  · have hmakes : r.1.makesText = true := by
      unfold ownsText at howns
      rw [hline] at howns
      exact howns
    obtain ⟨interpolate, htail, hcomment⟩ := hr hmakes
    refine ⟨interpolate, htail, fun ⟨payload, hp, hk⟩ ↦ hcomment ?_⟩
    rw [hline, List.mem_singleton] at hp
    rwa [← hp]

end Line

end Pug
