import Pug.Proofs.Expression.Pieces
import Pug.Proofs.Print.Chain

/-!
# Directives, written and read back

A directive is a reserved word and what belongs to it: a condition, or the variables of a loop and what
it goes over. It may stand behind a `-`, and a line may follow it behind a `:`. Spacing may stand between
any two of its parts, and must stand behind each of its words.

What decides how a directive is read stands behind it. The word is one only before spacing, a `:` or the
end of the line, and a condition goes on up to the `:`. So what is written here ends as
`FollowsDirective` says. A reserved word before a class or an id is the name of a tag.
-/

namespace Pug

open Text Token Reader Outline Extent
open ExpressionParser (loose)

namespace Directive

/-- One space or tab at least. -/
structure Space extends Gap where
  nonempty : chars ≠ []

/-- A condition, or what a loop goes over: an expression without blanks around it that ends before a
colon. -/
structure Condition where
  text : List Char
  trimmed : trim text = text
  whole : extent .inline (text ++ [':']) = .upTo text

/-- A variable of a loop. -/
structure Variable where
  name : List Char
  start : name.head?.any Name.isVariableStart = true
  chars : ∀ c ∈ name, Name.isVariableChar c = true

/-- The one or two variables of a loop, with the gaps around the comma. -/
structure Variables where
  first : Variable
  second : Option (Gap × Gap × Variable)

/-- The words that a condition stands behind. -/
def conditionWords : List (String × Kind) :=
  [("if", .controlIf), ("unless", .controlUnless), ("elseif", .controlElseIf),
    ("while", .controlWhile), ("case", .controlCase), ("when", .controlWhen)]

/-- The words that a loop starts with. -/
def loopWords : List String :=
  ["each", "for"]

/-- A directive, with the gaps between its parts. -/
inductive Control where
  | condition (word : String) (kind : Kind) (h : (word, kind) ∈ conditionWords) (a : Space)
      (e : Condition)
  | elseIf (a b : Space) (e : Condition)
  | otherwise
  | default
  | loop (word : String) (h : word ∈ loopWords) (a : Space) (vs : Variables) (b c : Space)
      (e : Condition)

namespace Variables

def text (v : Variables) : List Char :=
  v.first.name ++ match v.second with
    | none => []
    | some (a, b, second) => a.chars ++ ',' :: (b.chars ++ second.name)

def names (v : Variables) : List (List Char) :=
  v.first.name :: v.second.toList.map (·.2.2.name)

/-- A loop over pairs has two variables. -/
def kind (v : Variables) : Kind :=
  if v.second.isSome then .controlEachPair else .controlEach

end Variables

namespace Control

/-- The word that a directive starts with. -/
def word : Control → String
  | .condition word .. => word
  | .elseIf .. => "else"
  | .otherwise => "else"
  | .default => "default"
  | .loop word .. => word

/-- What stands behind the first word. -/
def behind : Control → List Char
  | .condition _ _ _ a e => a.chars ++ e.text
  | .elseIf a b e => a.chars ++ ("if".toList ++ (b.chars ++ e.text))
  | .otherwise => []
  | .default => []
  | .loop _ _ a vs b c e =>
    a.chars ++ (vs.text ++ (b.chars ++ ("in".toList ++ (c.chars ++ e.text))))

def text (k : Control) : List Char :=
  k.word.toList ++ k.behind

def keyword : Control → Keyword
  | .condition _ kind .. => .condition kind
  | .elseIf .. => .otherwise
  | .otherwise => .otherwise
  | .default => .default
  | .loop .. => .each

/-- What a directive is read as, with what else stands in it. -/
def sketch (k : Control) (inner : List Sketch) : Sketch :=
  match k with
  | .condition word kind _ _ e => ⟨kind, word, some (String.ofList e.text), inner⟩
  | .elseIf a _ e =>
    ⟨.controlElseIf, String.ofList ("else".toList ++ (a.chars ++ "if".toList)),
      some (String.ofList e.text), inner⟩
  | .otherwise => ⟨.controlElse, "else", none, inner⟩
  | .default => ⟨.controlDefault, "default", none, inner⟩
  | .loop word _ _ vs _ _ e => ⟨vs.kind, word, some (String.ofList e.text),
    vs.names.map (.leaf .eachVariable) ++ inner⟩

end Control

/-! ### What stands behind a directive -/

/-- A word that is followed so may be a keyword, and goes on no further. -/
structure EndsWord (others : List Char) : Prop where
  tail : Name.tagTail others = []
  ends : Keyword.endsKeyword others = true

/-- What may stand behind a directive: a gap, and the end of the line or a `:` before spacing. -/
def FollowsDirective (others : List Char) : Prop :=
  ∃ (gap : Gap) (t : List Char), others = gap.chars ++ t ∧
    (FollowsLine t ∨ ∃ c rest, t = ':' :: c :: rest ∧ isSpacing c = true)

section Follows

variable {c : Char} {rest others : List Char}

theorem endsWord_of_isSpacing (h : isSpacing c = true) (rest : List Char) : EndsWord (c :: rest) := by
  rw [isSpacing, Bool.or_eq_true, beq_iff_eq, beq_iff_eq] at h
  rcases h with rfl | rfl <;> exact ⟨rfl, rfl⟩

theorem endsWord_gap (a : Space) (rest : List Char) : EndsWord (a.chars ++ rest) := by
  obtain ⟨c, cs, hc⟩ := List.exists_cons_of_ne_nil a.nonempty
  rw [hc]
  exact endsWord_of_isSpacing (a.spacing c (by simp [hc])) _

theorem endsWord_of_followsLine (h : FollowsLine others) : EndsWord others := by
  rcases h.cases with rfl | ⟨rest, rfl | rfl⟩ <;> exact ⟨rfl, rfl⟩

theorem endsWord_colon (h : isSpacing c = true) (rest : List Char) :
    EndsWord (':' :: c :: rest) := by
  rw [isSpacing, Bool.or_eq_true, beq_iff_eq, beq_iff_eq] at h
  rcases h with rfl | rfl <;> exact ⟨rfl, rfl⟩

/-- Any word ends before what stands behind a directive. -/
theorem FollowsDirective.endsWord (h : FollowsDirective others) : EndsWord others := by
  obtain ⟨gap, t, rfl, ht⟩ := h
  cases hg : gap.chars with
  | cons x xs => exact endsWord_of_isSpacing (gap.spacing x (by simp [hg])) _
  | nil =>
    rcases ht with hline | ⟨c, rest, rfl, hc⟩
    · exact endsWord_of_followsLine hline
    · exact endsWord_colon hc rest

/-- A condition ends before what stands behind a directive, whatever gap stands before it. -/
theorem Condition.extent_append (e : Condition) (a : Gap) (h : FollowsDirective others) :
    extent .inline (a.chars ++ e.text ++ others) = .upTo (a.chars ++ e.text) := by
  obtain ⟨gap, t, rfl, ht⟩ := h
  obtain ⟨hitems, htrim, hne⟩ := items_of_colon e.whole
  have hstops : Stops .inline 0 t := by
    rcases ht with hline | ⟨c, rest, rfl, -⟩
    · rcases hline.cases with rfl | ⟨rest, rfl | rfl⟩
      · trivial
      · exact .inl rfl
      · exact .inl rfl
    · exact .inr (.inr (.inl ⟨List.mem_singleton_self ':', fun _ ↦ rfl⟩))
  rw [List.append_assoc]
  exact extent_gaps (by decide) hitems htrim hne a gap hstops

/-- The word of a directive is a keyword before what ends a word. -/
theorem atFront?_of_endsWord {word : List Char} {keyword : Keyword}
    (hname : Tag.isName word = true) (hword : Keyword.ofWord? word = some keyword)
    (h : EndsWord others) : Keyword.atFront? (word ++ others) = some (keyword, word) := by
  rw [Keyword.atFront?, Tag.tag_append hname h.tail]
  rw [List.drop_left, if_pos h.ends, hword]
  rfl

end Follows

namespace Control

/-- The word of a directive is a name and a keyword. -/
theorem word_reserved (k : Control) : Tag.isName k.word.toList = true ∧
    Keyword.ofWord? k.word.toList = some k.keyword ∧
      k.word.toList.head?.any Char.isAlpha = true := by
  cases k with
  | condition word kind hmem a e =>
    have hall : ∀ w ∈ conditionWords, Tag.isName w.1.toList = true ∧
        Keyword.ofWord? w.1.toList = some (.condition w.2) ∧
          w.1.toList.head?.any Char.isAlpha = true := by
      decide
    exact hall _ hmem
  | elseIf | otherwise =>
    have helse : Tag.isName "else".toList = true ∧
        Keyword.ofWord? "else".toList = some .otherwise ∧
          "else".toList.head?.any Char.isAlpha = true := by
      decide
    exact helse
  | default =>
    have hdefault : Tag.isName "default".toList = true ∧
        Keyword.ofWord? "default".toList = some .default ∧
          "default".toList.head?.any Char.isAlpha = true := by
      decide
    exact hdefault
  | loop word hmem a vs b c e =>
    have hall : ∀ w ∈ loopWords, Tag.isName w.toList = true ∧
        Keyword.ofWord? w.toList = some .each ∧ w.toList.head?.any Char.isAlpha = true := by
      decide
    exact hall _ hmem

theorem exists_word_cons (k : Control) : ∃ x xs, k.word.toList = x :: xs ∧ x.isAlpha = true := by
  obtain ⟨-, -, halpha⟩ := k.word_reserved
  cases hword : k.word.toList with
  | nil =>
    rw [hword] at halpha
    contradiction
  | cons x xs =>
    rw [hword] at halpha
    exact ⟨x, xs, rfl, halpha⟩

/-- A directive may stand behind a `-`. -/
theorem isControl_keyword (k : Control) : k.keyword.isControl = true := by
  cases k <;> rfl

/-- A directive starts with its keyword. -/
theorem atFront?_text (k : Control) {others : List Char} (h : FollowsDirective others) :
    Keyword.atFront? (k.text ++ others) = some (k.keyword, k.word.toList) := by
  obtain ⟨hname, hword, -⟩ := k.word_reserved
  have hends : EndsWord (k.behind ++ others) := by
    cases k with
    | condition word kind hmem a e =>
      rw [behind, List.append_assoc]
      exact endsWord_gap a _
    | elseIf a b e =>
      rw [behind, List.append_assoc]
      exact endsWord_gap a _
    | otherwise | default => exact h.endsWord
    | loop word hmem a vs b c e =>
      rw [behind, List.append_assoc]
      exact endsWord_gap a _
  rw [text, List.append_assoc]
  exact atFront?_of_endsWord hname hword hends

end Control

section Reading

variable {g : Setup Unit Shape} {b c d m start : Cursor} {broken : Failure → Prop} {t : LineTail}

/-- A directive that nothing follows. -/
theorem tail_yields_plain (a : Gap) (h : c.Leads a.chars d) (hd : d.atLineEnd = true) :
    (tail : Reader Unit LineTail).Yields c (fun r y ↦ r = .plain ∧ y = d) broken := by
  have hno : d.startsWith ":" = false := Cursor.startsWith_of_atLineEnd hd rfl rfl
  have hskip := Cursor.skipSpacing_of_atLineEnd hd
  refine .skipSpacing ?_
  rw [Cursor.skipSpacing_gap a h (Cursor.unspaced_of_atLineEnd hd)]
  refine .eat_false hno ?_
  rw [if_neg Bool.false_ne_true]
  refine .endRun ?_ ?_
  · rw [hskip]
    exact Cursor.atRunEnd_of_atLineEnd hd
  · rw [hskip]
    exact .pure ⟨rfl, rfl⟩

/-- A directive that a line follows. -/
theorem tail_yields_follow (a : Gap) (h : c.Leads (a.chars ++ [':']) d) :
    (tail : Reader Unit LineTail).Yields c (fun r y ↦ r = .follow ∧ y = d) broken := by
  obtain ⟨hgap, hcolon⟩ := h.split
  have hunspaced : ∀ x ∈ (c.past a.chars).rest.head?, isSpacing x = false := by
    rw [hcolon.1]
    rintro _ ⟨⟩
    rfl
  refine .skipSpacing ?_
  rw [Cursor.skipSpacing_gap a hgap hunspaced]
  refine .eat_true hcolon ?_
  rw [if_pos rfl]
  exact .pure ⟨rfl, rfl⟩

/-- The blanks around an expression do not belong to it. -/
theorem Condition.trim_gap (e : Condition) (a : Gap) : trim (a.chars ++ e.text) = e.text := by
  have hstart : trimStart (a.chars ++ e.text) = trimStart e.text :=
    List.dropWhile_append_of_pos fun x hx ↦ isBlank_of_isSpacing (a.spacing x hx)
  rw [trim, hstart]
  exact e.trimmed

/-- A condition is read with what follows it. -/
theorem condition_yields {word : Token Shape} (a : Gap) (e : Condition) (hg : g.Covers c)
    (h : c.Leads (a.chars ++ e.text) m) (hm : FollowsDirective m.rest)
    (htail : (tail : Reader Unit LineTail).Yields m (fun r y ↦ r = t ∧ y = d) broken) :
    (condition g word).Yields c (fun r y ↦
      (r.1.sketch = { word.sketch with expr := some (String.ofList e.text) } ∧ r.2 = t) ∧ y = d)
      broken := by
  refine .bind (expression_yields hg h (e.extent_append a hm)) ?_
  rintro value _ ⟨⟨handle, rfl⟩, rfl⟩
  refine .bind htail ?_
  rintro _ _ ⟨rfl, rfl⟩
  refine .pure ⟨⟨?_, rfl⟩, rfl⟩
  rw [sketch_withExpr, embed, e.trim_gap a]

theorem Variable.exists_cons (v : Variable) :
    ∃ x xs, v.name = x :: xs ∧ Name.isVariableStart x = true := by
  obtain ⟨name, hstart, -⟩ := v
  cases name with
  | nil => contradiction
  | cons x xs => exact ⟨x, xs, rfl, hstart⟩

/-- A variable ends before what no variable goes on with. -/
theorem Variable.loopVariable_append (v : Variable) {others : List Char}
    (h : ∀ x ∈ others.head?, Name.isVariableChar x = false) :
    Name.loopVariable (v.name ++ others) = v.name := by
  obtain ⟨x, xs, hx, hstart⟩ := v.exists_cons
  have hhead : (v.name ++ others).head?.any Name.isVariableStart = true := by
    rw [hx]
    exact hstart
  rw [Name.loopVariable, if_pos hhead, List.takeWhile_append_of_pos v.chars]
  cases others with
  | nil => simp
  | cons y ys => rw [List.takeWhile_cons_of_neg (by simp [h y rfl]), List.append_nil]

theorem loopVariable_yields (v : Variable) (h : c.Leads v.name b)
    (hb : ∀ x ∈ b.rest.head?, Name.isVariableChar x = false) (hskip : b.skipSpacing = d) :
    (loopVariable : Reader Unit (Token Shape)).Yields c
      (fun r y ↦ r.sketch = .leaf .eachVariable v.name ∧ y = d) broken := by
  have hread : Name.loopVariable c.rest = v.name := by
    rw [h.1]
    exact v.loopVariable_append hb
  have hempty : v.name.isEmpty = false := by
    obtain ⟨x, xs, hx, -⟩ := v.exists_cons
    rw [hx]
    rfl
  refine .here ?_
  rw [hread]
  dsimp only
  rw [hempty, if_neg Bool.false_ne_true, h.past_eq]
  refine .moveTo (.skipSpacing ?_)
  rw [hskip]
  exact .pure ⟨sketch_ofText rfl _ _, rfl⟩

/-- No variable goes on with spacing. -/
theorem not_variable_of_isSpacing {x : Char} (h : isSpacing x = true) :
    Name.isVariableChar x = false := by
  rw [isSpacing, Bool.or_eq_true, beq_iff_eq, beq_iff_eq] at h
  rcases h with rfl | rfl <;> rfl

/-- Nor does one go on behind a gap, before what does not belong to it. -/
theorem not_variable_gap (a : Gap) (h : c.Leads a.chars d)
    (hd : ∀ x ∈ d.rest.head?, Name.isVariableChar x = false) :
    ∀ x ∈ c.rest.head?, Name.isVariableChar x = false := by
  rw [h.1]
  cases ha : a.chars with
  | nil => exact hd
  | cons y ys =>
    rintro _ ⟨⟩
    exact not_variable_of_isSpacing (a.spacing y (by simp [ha]))

/-- The variables of a loop are read up to the word behind them. -/
theorem loopVariables_yields (vs : Variables) (a : Gap) (e : Space)
    (h : c.Leads (a.chars ++ (vs.text ++ e.chars)) m)
    (hm : ∀ x ∈ m.rest.head?, isSpacing x = false ∧ x ≠ ',') :
    (loopVariables : Reader Unit (List (Token Shape))).Yields c
      (fun ts y ↦ ts.map Token.sketch = vs.names.map (.leaf .eachVariable) ∧ y = m) broken := by
  obtain ⟨first, second⟩ := vs
  have hunspaced : ∀ x ∈ m.rest.head?, isSpacing x = false := fun x hx ↦ (hm x hx).1
  obtain ⟨hgap, hvars⟩ := h.split
  have hspace : ∀ {k : Cursor}, k.Leads e.chars m →
      (∀ x ∈ k.rest.head?, Name.isVariableChar x = false) ∧ k.skipSpacing = m := by
    intro k hk
    refine ⟨?_, Cursor.skipSpacing_gap e.toGap hk hunspaced⟩
    obtain ⟨y, ys, hy⟩ := List.exists_cons_of_ne_nil e.nonempty
    rw [hk.1, hy]
    rintro _ ⟨⟩
    exact not_variable_of_isSpacing (e.spacing y (by simp [hy]))
  have hstart : ∀ {k : Cursor} {w : List Char} (v : Variable), k.Leads (v.name ++ w) m →
      ∀ x ∈ k.rest.head?, isSpacing x = false := by
    intro k w v hk
    obtain ⟨y, ys, hy, hv⟩ := v.exists_cons
    rw [hk.1, hy]
    rintro _ ⟨⟩
    refine Bool.eq_false_iff.2 fun hs ↦ ?_
    rw [isSpacing, Bool.or_eq_true, beq_iff_eq, beq_iff_eq] at hs
    rcases hs with rfl | rfl <;> contradiction
  have hcomma : m.startsWith "," = false := by
    rw [Cursor.startsWith]
    cases hrest : m.rest with
    | nil => rfl
    | cons x rest => simp [List.isPrefixOf, Ne.symm (hm x (by rw [hrest]; rfl)).2]
  refine .skipSpacing ?_
  cases second with
  | none =>
    have hvars : (c.past a.chars).Leads (first.name ++ e.chars) m := by
      simpa [Variables.text] using hvars
    rw [Cursor.skipSpacing_gap a hgap (hstart first hvars)]
    obtain ⟨hname, hend⟩ := hvars.split
    obtain ⟨hnot, hskip⟩ := hspace hend
    refine .bind (loopVariable_yields first hname hnot hskip) ?_
    rintro v y ⟨hv, rfl⟩
    refine .eat_false hcomma ?_
    rw [if_neg Bool.false_ne_true]
    exact .pure ⟨by simp [Variables.names, hv], rfl⟩
  | some second =>
    obtain ⟨p, q, second⟩ := second
    have hvars : (c.past a.chars).Leads
        (first.name ++ (p.chars ++ ',' :: (q.chars ++ (second.name ++ e.chars)))) m := by
      simpa [Variables.text] using hvars
    rw [Cursor.skipSpacing_gap a hgap (hstart first hvars)]
    obtain ⟨hname, hrest⟩ := hvars.split
    obtain ⟨hp, hrest⟩ := hrest.split
    have hmark : ∀ x ∈ (((c.past a.chars).past first.name).past p.chars).rest.head?, x = ',' := by
      rw [hrest.1]
      rintro _ ⟨⟩
      rfl
    obtain ⟨hmarked, hrest⟩ := hrest.uncons
    obtain ⟨hq, hrest⟩ := hrest.split
    have hunspaced' := hstart second hrest
    obtain ⟨hname', hend⟩ := hrest.split
    obtain ⟨hnot', hskip'⟩ := hspace hend
    have hnot := not_variable_gap p hp fun x hx ↦ hmark x hx ▸ rfl
    have hskip := Cursor.skipSpacing_gap p hp fun x hx ↦ hmark x hx ▸ rfl
    refine .bind (loopVariable_yields first hname hnot hskip) ?_
    rintro v _ ⟨hv, rfl⟩
    refine .eat_true hmarked ?_
    rw [if_pos rfl]
    refine .skipSpacing ?_
    rw [Cursor.skipSpacing_gap q hq hunspaced']
    refine .bind (loopVariable_yields second hname' hnot' hskip') ?_
    rintro v' y ⟨hv', rfl⟩
    exact .pure ⟨by simp [Variables.names, hv, hv'], rfl⟩

/-- A loop is read with what follows it. -/
theorem each_yields {word : List Char} (vs : Variables) (a p q : Space) (e : Condition)
    (hg : g.Covers c) (hword : start.Leads word c)
    (h : c.Leads (a.chars ++ (vs.text ++ (p.chars ++ ("in".toList ++ (q.chars ++ e.text))))) m)
    (hm : FollowsDirective m.rest)
    (htail : (tail : Reader Unit LineTail).Yields m (fun r y ↦ r = t ∧ y = d) broken) :
    (each g start).Yields c (fun r y ↦
      (r.1.sketch = ⟨vs.kind, String.ofList word, some (String.ofList e.text),
        vs.names.map (.leaf .eachVariable)⟩ ∧ r.2 = t) ∧ y = d) broken := by
  have hassoc : a.chars ++ (vs.text ++ (p.chars ++ ("in".toList ++ (q.chars ++ e.text)))) =
      a.chars ++ (vs.text ++ p.chars) ++ ("in".toList ++ (q.chars ++ e.text)) := by simp
  rw [hassoc] at h
  obtain ⟨hvars, hin⟩ := h.split
  obtain ⟨k, hk⟩ : ∃ k, c.past (a.chars ++ (vs.text ++ p.chars)) = k := ⟨_, rfl⟩
  rw [hk] at hvars hin
  obtain ⟨y, ys, hq⟩ := List.exists_cons_of_ne_nil q.nonempty
  have hrest : k.rest = 'i' :: 'n' :: y :: (ys ++ e.text ++ m.rest) := by
    rw [hin.1, hq]
    simp
  have hhead : ∀ x ∈ k.rest.head?, isSpacing x = false ∧ x ≠ ',' := by
    rw [hrest]
    rintro _ ⟨⟩
    decide
  have hloop : (k.startsWith "in" && (k.rest.drop 2).head?.any isSpacing) = true := by
    rw [Cursor.startsWith, hrest]
    exact q.spacing y (by simp [hq])
  refine .tokenFrom hword (.bind (loopVariables_yields vs a.toGap p hvars hhead) ?_)
  rintro ts y ⟨hts, rfl⟩
  refine .here ?_
  rw [hloop, if_pos rfl]
  obtain ⟨htwo, hexpr⟩ := hin.split
  have hcovers : g.Covers (y.past "in".toList) := ((hg.leads hvars).leads htwo)
  refine .bump htwo (by decide) (.bind (expression_yields hcovers hexpr (e.extent_append q.toGap hm)) ?_)
  rintro value _ ⟨⟨handle, rfl⟩, rfl⟩
  refine .bind htail ?_
  rintro _ _ ⟨rfl, rfl⟩
  refine .pure ⟨⟨?_, rfl⟩, rfl⟩
  have hlength : ts.length = vs.names.length := by
    simpa using congrArg List.length hts
  have hkind : (if ts.length = 2 then Kind.controlEachPair else .controlEach) = vs.kind := by
    obtain ⟨first, second⟩ := vs
    rw [hlength]
    cases second <;> rfl
  have hleaf : vs.kind.isContainer = false := by
    rw [Variables.kind]
    split <;> rfl
  rw [sketch_withChildren, sketch_withExpr, hts, hkind, embed, e.trim_gap q.toGap, sketch_eq]
  change Sketch.mk vs.kind (if vs.kind.isContainer then _ else _) _ _ = _
  rw [hleaf]
  rfl

/-- No keyword starts where no name does. -/
theorem atFront?_of_not_startsName {others : List Char} (h : Name.startsName others = false) :
    Keyword.atFront? others = none := by
  have hword : Name.tag others = [] := by
    rw [Name.tag, if_neg (by simp [h])]
  have hnone : Keyword.ofWord? [] = none := by decide
  rw [Keyword.atFront?, hword, hnone]
  split <;> rfl

/-- An `else` is read with what follows it. -/
theorem otherwise_yields {word : List Char} (hword : start.Leads word m) (hm : FollowsDirective m.rest)
    (htail : (tail : Reader Unit LineTail).Yields m (fun r y ↦ r = t ∧ y = d) broken) :
    (otherwise g start).Yields m (fun r y ↦
      (r.1.sketch = .leaf .controlElse word ∧ r.2 = t) ∧ y = d) broken := by
  have hnone : Keyword.atFront? m.skipSpacing.rest = none := by
    obtain ⟨gap, t, hrest, ht⟩ := hm
    refine atFront?_of_not_startsName ?_
    rw [Cursor.skipSpacing, Cursor.rest_skipWhile, hrest, List.dropWhile_append_of_pos gap.spacing]
    rcases ht with hline | ⟨x, rest, rfl, -⟩
    · rcases hline.cases with rfl | ⟨rest, rfl | rfl⟩ <;> rfl
    · rfl
  refine .tokenFrom hword (.here ?_)
  dsimp only
  rw [hnone]
  refine .bind htail ?_
  rintro _ _ ⟨rfl, rfl⟩
  exact .pure ⟨⟨sketch_ofText rfl _ _, rfl⟩, rfl⟩

/-- An `else if` is read with what follows it. -/
theorem elseIf_yields {word : List Char} (a p : Space) (e : Condition) (hg : g.Covers c)
    (hword : start.Leads word c)
    (h : c.Leads (a.chars ++ ("if".toList ++ (p.chars ++ e.text))) m)
    (hm : FollowsDirective m.rest)
    (htail : (tail : Reader Unit LineTail).Yields m (fun r y ↦ r = t ∧ y = d) broken) :
    (otherwise g start).Yields c (fun r y ↦
      (r.1.sketch = ⟨.controlElseIf, String.ofList (word ++ (a.chars ++ "if".toList)),
        some (String.ofList e.text), []⟩ ∧ r.2 = t) ∧ y = d) broken := by
  obtain ⟨hgap, hrest⟩ := h.split
  obtain ⟨hif, hexpr⟩ := hrest.split
  have hskip : c.skipSpacing = c.past a.chars := by
    refine Cursor.skipSpacing_gap a.toGap hgap ?_
    rw [hif.1]
    rintro _ ⟨⟩
    rfl
  have hfront : Keyword.atFront? (c.past a.chars).rest =
      some (.condition .controlIf, "if".toList) := by
    rw [hif.1, hexpr.1, List.append_assoc]
    exact atFront?_of_endsWord (by decide) (by decide) (endsWord_gap p _)
  refine .tokenFrom hword (.here ?_)
  dsimp only
  rw [hskip, hfront]
  refine .moveTo (.tokenFrom (hword.trans (hgap.trans hif)) ?_)
  refine (condition_yields p.toGap e ((hg.leads hgap).leads hif) hexpr hm htail).mono ?_
  rintro r y ⟨⟨hr, rfl⟩, rfl⟩
  refine ⟨⟨?_, rfl⟩, rfl⟩
  rw [hr, sketch_ofText rfl]
  rfl

/-- A directive is read behind its first word. -/
theorem Control.yields (k : Control) (hg : g.Covers c) (h : c.Leads k.text m)
    (hm : FollowsDirective m.rest)
    (htail : (tail : Reader Unit LineTail).Yields m (fun r y ↦ r = t ∧ y = d) broken) :
    (Directive.line g k.keyword c).Yields (c.past k.word.toList)
      (fun r y ↦ (r.1.sketch = k.sketch [] ∧ r.2 = t) ∧ y = d) broken := by
  obtain ⟨hword, hbehind⟩ := h.split
  have hcovers := hg.leads hword
  cases k with
  | condition word kind hmem a e =>
    have hall : ∀ w ∈ conditionWords, w.2.isContainer = false := by decide
    refine .tokenFrom hword ((condition_yields a.toGap e hcovers hbehind hm htail).mono ?_)
    rintro r y ⟨⟨hr, rfl⟩, rfl⟩
    refine ⟨⟨?_, rfl⟩, rfl⟩
    rw [hr, sketch_ofText (hall _ hmem), Sketch.leaf, String.ofList_toList]
    rfl
  | elseIf a p e => exact elseIf_yields a p e hcovers hword hbehind hm htail
  | otherwise =>
    obtain rfl := hbehind.eq_of_nil
    exact otherwise_yields hword hm htail
  | default =>
    obtain rfl := hbehind.eq_of_nil
    refine .tokenFrom hword (.bind htail ?_)
    rintro _ _ ⟨rfl, rfl⟩
    exact .pure ⟨⟨sketch_ofText rfl _ _, rfl⟩, rfl⟩
  | loop word hmem a vs p q e =>
    refine (each_yields vs a p q e hcovers hword hbehind hm htail).mono ?_
    rintro r y ⟨⟨hr, rfl⟩, rfl⟩
    refine ⟨⟨?_, rfl⟩, rfl⟩
    rw [hr, Control.word, String.ofList_toList, sketch, List.append_nil]

theorem not_separator_of_isAlpha {x : Char} (h : x.isAlpha = true) : isSeparator x = false := by
  refine Bool.eq_false_iff.2 fun hs ↦ ?_
  simp only [isSeparator, isSpacing, isBreak, Bool.or_eq_true, beq_iff_eq] at hs
  rcases hs with (rfl | rfl) | (rfl | rfl) <;> contradiction

/-- What a directive may start with: nothing, or a `-` and a gap. -/
def dashText : Option Gap → List Char
  | none => []
  | some gap => '-' :: gap.chars

/-- A line that is a directive, with a `-` or without. -/
theorem payload_yields (dash : Option Gap) (k : Control) (hg : g.Covers c) {level : Nat}
    (h : c.Leads (dashText dash ++ k.text) m) (hm : FollowsDirective m.rest)
    (htail : (tail : Reader Unit LineTail).Yields m (fun r y ↦ r = t ∧ y = d) broken) :
    (Line.payload g level).Yields c
      (fun r y ↦ (r.1.sketch = k.sketch [] ∧ r.2 = t) ∧ y = d) broken := by
  obtain ⟨hdash, hcontrol⟩ := h.split
  have hfront := k.atFront?_text hm
  rw [← hcontrol.1] at hfront
  have hcovers := hg.leads hdash
  have hyields := k.yields hcovers hcontrol hm htail
  obtain ⟨x, xs, hx, hletter⟩ := k.exists_word_cons
  have hrest : (c.past (dashText dash)).rest = x :: (xs ++ k.behind ++ m.rest) := by
    rw [hcontrol.1, Control.text, hx]
    simp
  cases dash with
  | none =>
    have hc : c.past (dashText none) = c := Cursor.skip_zero c
    rw [hc] at hfront hyields hrest
    have hform : Line.Form.ofRest c.rest = .word := by
      rw [hrest]
      exact if_pos hletter
    refine .here ?_
    rw [hform]
    refine .here ?_
    rw [hfront]
    exact .moveTo hyields
  | some gap =>
    have hform : Line.Form.ofRest c.rest = .code := by
      rw [hdash.1]
      rfl
    obtain ⟨hmark, hgap⟩ := hdash.uncons
    have hno := not_separator_of_isAlpha hletter
    rw [isSeparator, Bool.or_eq_false_iff] at hno
    have hskip : (c.past ['-']).skipSpacing = c.past (dashText (some gap)) := by
      refine Cursor.skipSpacing_gap gap hgap ?_
      rw [hrest]
      rintro _ ⟨⟩
      exact hno.1
    have hblank : (c.past ['-']).atBlankLine = false := by
      refine Bool.eq_false_iff.2 fun hb ↦ ?_
      have hend := Cursor.atLineEnd_skipSpacing hb
      rw [hskip, Cursor.atLineEnd, hrest] at hend
      exact absurd hend (by simp [hno.2])
    have hfilter : (Keyword.atFront? (c.past (dashText (some gap))).rest).filter (·.1.isControl) =
        some (k.keyword, k.word.toList) := by
      rw [hfront, Option.filter_some, if_pos k.isControl_keyword]
    refine .here ?_
    rw [hform]
    refine .here (.bump hmark rfl (.here ?_))
    rw [hblank, if_neg Bool.false_ne_true, hskip]
    dsimp only
    rw [hfilter]
    exact .moveTo hyields

end Reading

/-- A line with a directive: perhaps a `-` and a gap before it, and behind it a gap, and perhaps a `:`
and lines that follow. -/
structure DirectiveLine where
  dash : Option Gap
  control : Control
  gap : Gap
  next : Option (Space × Tag.TagLine)

namespace DirectiveLine

def writable (l : DirectiveLine) : Bool :=
  l.next.all (·.2.writable)

/-- What stands behind the directive. -/
def rest (l : DirectiveLine) : List Char :=
  l.gap.chars ++ match l.next with
    | none => []
    | some (space, next) => ':' :: (space.chars ++ next.text)

def text (l : DirectiveLine) : List Char :=
  dashText l.dash ++ l.control.text ++ l.rest

/-- What a line is read as. A line that follows stands in the directive. -/
def sketch (l : DirectiveLine) : Sketch :=
  .row .line [l.control.sketch (l.next.toList.map (·.2.sketch))]

/-- The number of lines in a chain. -/
def length (l : DirectiveLine) : Nat :=
  (l.next.elim 0 (·.2.length)) + 1

end DirectiveLine

section Lines

variable {g : Setup Unit Shape} {c d : Cursor} {B : Failure → Prop}

theorem extendPayload_of_ne {E : Type} {p : Token E} (h : p.kind ≠ .lineData) (us : List (Token E)) :
    extendPayload p us = extend p us := by
  unfold extendPayload
  split
  · contradiction
  · rfl

/-- No directive is a tag. -/
theorem Control.kind_ne (k : Control) : (k.sketch []).kind ≠ .lineData := by
  cases k with
  | condition word kind hmem a e =>
    have hall : ∀ w ∈ conditionWords, w.2 ≠ .lineData := by decide
    exact hall _ hmem
  | loop word hmem a vs p q e =>
    change vs.kind ≠ .lineData
    rw [Variables.kind]
    split <;> decide
  | elseIf | otherwise | default =>
    intro h
    contradiction

/-- The line that follows a directive lies under it. -/
theorem sketch_close {k : Control} {p line u : Token Shape} (hp : p.sketch = k.sketch [])
    (hchildren : line.children = [p]) (hline : line.sketch = .row .line [p.sketch]) :
    (Entry.close ⟨line, 0, .payload⟩ [u]).sketch = .row .line [k.sketch [u.sketch]] := by
  have hkind : p.kind ≠ .lineData := by
    have hne := k.kind_ne
    rw [← hp, sketch_eq] at hne
    exact hne
  have hunder : (extend p [u]).sketch = k.sketch [u.sketch] := by
    rw [Tag.sketch_extend, hp]
    cases k <;> simp [Control.sketch]
  rw [close_payload hchildren, sketch_withChildren, hline, List.map_singleton,
    extendPayload_of_ne hkind, hunder]
  rfl

/-- A line with a directive that nothing follows is read to its end. -/
theorem markup_yields_ends {dash : Option Gap} {k : Control} {gap : Gap} {level : Nat}
    (hg : g.Covers c) (h : c.Leads (dashText dash ++ k.text ++ gap.chars) d)
    (hd : d.atLineEnd = true) : (Line.markup g level).Yields c (fun r y ↦
      (r.2 = .plain ∧ r.1.sketch = .row .line [k.sketch []]) ∧ y = d) B := by
  obtain ⟨hfront, hgap⟩ := h.split
  have hfollows : FollowsDirective (c.past (dashText dash ++ k.text)).rest :=
    ⟨gap, d.rest, hgap.1, .inl hd⟩
  refine (Line.markup_yields h
    (payload_yields dash k hg hfront hfollows (tail_yields_plain gap hgap hd))).mono ?_
  rintro r y ⟨⟨p, ⟨hp, htail⟩, -, hline⟩, rfl⟩
  exact ⟨⟨htail, by rw [hline, hp]⟩, rfl⟩

/-- A line with a directive that another line follows is read up to the `:`, and all of it but the line
that follows is there. -/
theorem markup_yields_followed {dash : Option Gap} {k : Control} {gap : Gap} {space : Space}
    {w : List Char} {level : Nat} (hg : g.Covers c)
    (h : c.Leads (dashText dash ++ k.text ++ (gap.chars ++ ':' :: (space.chars ++ w))) d) :
    ∃ m, c.Leads (dashText dash ++ k.text ++ (gap.chars ++ [':'])) m ∧
      m.Leads (space.chars ++ w) d ∧ (Line.markup g level).Yields c (fun r y ↦
        (r.2 = .follow ∧ ∀ u : Token Shape, (Entry.close ⟨r.1, 0, .payload⟩ [u]).sketch =
          .row .line [k.sketch [u.sketch]]) ∧ y = m) B := by
  obtain ⟨hfront, hrest⟩ := h.split
  have hfollows : FollowsDirective (c.past (dashText dash ++ k.text)).rest := by
    obtain ⟨x, xs, hx⟩ := List.exists_cons_of_ne_nil space.nonempty
    refine ⟨gap, ':' :: x :: (xs ++ w ++ d.rest), ?_,
      .inr ⟨x, _, rfl, space.spacing x (by simp [hx])⟩⟩
    rw [hrest.1, hx]
    simp
  obtain ⟨hgap, hrest⟩ := hrest.split
  obtain ⟨hcolon, hnext⟩ := hrest.uncons
  have hmark := hgap.trans hcolon
  refine ⟨_, hfront.trans hmark, hnext, (Line.markup_yields (hfront.trans hmark)
    (payload_yields dash k hg hfront hfollows (tail_yields_follow gap hmark))).mono ?_⟩
  rintro r y ⟨⟨p, ⟨hp, htail⟩, hchildren, hline⟩, rfl⟩
  exact ⟨⟨htail, fun u ↦ sketch_close hp hchildren hline⟩, rfl⟩

/-- A line with a directive, and those that follow it, take a template. -/
theorem chain_yields {l : DirectiveLine} (hl : l.writable = true) (hmax : l.length ≤ g.maxDepth)
    (hg : g.Covers c) (h : c.Leads l.text d) (hd : d.atLineEnd = true) :
    (Page.chain g 0 (.empty g.maxDepth)).Yields c (fun r y ↦
      y = d ∧ r.1.finish.children.map Token.sketch = [l.sketch]) B := by
  have hpos : 0 < g.maxDepth := Nat.lt_of_lt_of_le (Nat.succ_pos _) hmax
  obtain ⟨dash, k, gap, next⟩ := l
  cases next with
  | none =>
    have h : c.Leads (dashText dash ++ k.text ++ gap.chars) d := by
      simpa [DirectiveLine.text, DirectiveLine.rest] using h
    refine Page.chain_yields rfl (Page.checkLevel_empty hpos) (markup_yields_ends hg h hd) ?_
    rintro line _ e o id ⟨⟨rfl, hline⟩, rfl⟩ ho
    have htree := Written.finish_of_chain ho []
    rw [nest, extend_nil] at htree
    rw [if_neg (by decide)]
    refine .pure ⟨rfl, ?_⟩
    change o.finish.children.map Token.sketch = _
    rw [show o.finish.children = [line] from htree, List.map_singleton, hline]
    rfl
  | some next =>
    obtain ⟨space, next⟩ := next
    have hnext : next.writable = true := by simpa [DirectiveLine.writable] using hl
    have hleft : next.length ≤ g.maxDepth - (0 + 1) := Nat.le_sub_of_add_le hmax
    obtain ⟨m, hlead, hrest, hmarkup⟩ := markup_yields_followed hg h
    refine Page.chain_yields rfl (Page.checkLevel_empty hpos) hmarkup ?_
    rintro line _ m o id ⟨⟨rfl, hclose⟩, rfl⟩ ho
    rw [if_pos rfl]
    refine (Tag.followers_yields hnext hleft (hg.leads hlead) space.spacing hrest hd
      (Page.has_openLine ho)).mono ?_
    rintro r y ⟨⟨-, line', lines, hr, -, hlines⟩, rfl⟩
    refine ⟨rfl, ?_⟩
    rw [show r.1 = (o.follow id (line' :: lines)).1 from congrArg Prod.fst hr,
      Written.finish_of_chain ho, List.map_singleton, nest, hclose, hlines]
    rfl

end Lines

/-- A line with a directive is read back as it is written. -/
theorem lex_directiveLine {maxDepth : Nat} {l : DirectiveLine} (hl : l.writable = true)
    (hmax : l.length ≤ maxDepth) : ∃ root, lex loose maxDepth l.text () = .ok root ∧
      root.sketch = .row .root [l.sketch] := by
  have hpos : 0 < maxDepth := Nat.lt_of_lt_of_le (Nat.succ_pos _) hmax
  obtain ⟨d, hlead, hrest⟩ := Cursor.exists_leads_end l.text
  have hchain := chain_yields (B := fun _ ↦ False) hl hmax (covers_start maxDepth l.text) hlead
    (Cursor.atLineEnd_of_nil hrest)
  have hstarts : StartsLine l.text := by
    obtain ⟨dash, k, gap, next⟩ := l
    cases dash with
    | none =>
      obtain ⟨x, xs, hx, hletter⟩ := k.exists_word_cons
      refine ⟨x, xs ++ k.behind ++ DirectiveLine.rest ⟨none, k, gap, next⟩, ?_,
        not_separator_of_isAlpha hletter⟩
      simp [DirectiveLine.text, dashText, Control.text, hx]
    | some dash => exact ⟨'-', _, rfl, rfl⟩
  obtain ⟨o, hlex, ho⟩ | ⟨f, -, hf⟩ := lex_of_chain
    (P := fun o ↦ o.finish.children.map Token.sketch = [l.sketch]) hstarts hpos
    (hchain.mono fun r y hr ↦ ⟨hr.1 ▸ hrest, hr.2⟩)
  · exact ⟨o.finish, hlex, by rw [sketch_finish, ho]⟩
  · exact hf.elim

/-! ### Reserved words that are tags -/

/-- The words that start directives. -/
def reservedWords : List String :=
  ["include", "mixin", "doctype", "case", "when", "default", "if", "unless", "elseif", "else",
    "while", "each", "for"]

theorem mem_reservedWords {word : List Char} (h : (Keyword.ofWord? word).isSome = true) :
    String.ofList word ∈ reservedWords := by
  unfold Keyword.ofWord? at h
  split at h
  case h_14 => contradiction
  all_goals
    rename_i hword
    rw [hword]
    decide

/-- A class or an id lets no keyword end before it. -/
theorem atFront?_note {word : List Char} (hname : Tag.isName word = true) (n : Tag.Note)
    (others : List Char) :
    Keyword.atFront? (word ++ ((Tag.Modifier.note n).text ++ others)) = none := by
  have htail := (Tag.Modifier.note n).tagTail_text others
  have hends : Keyword.endsKeyword ((Tag.Modifier.note n).text ++ others) = false := by
    obtain ⟨id, name, nonempty, named⟩ := n
    cases id <;> rfl
  rw [Keyword.atFront?, Tag.tag_append hname htail, List.drop_left, hends]
  rfl

/-- A reserved word is a name that starts with a letter. -/
theorem isName_of_reserved {word : List Char} (h : (Keyword.ofWord? word).isSome = true) :
    Tag.isName word = true ∧ word.head?.any Char.isAlpha = true := by
  have hall : ∀ w ∈ reservedWords, Tag.isName w.toList = true ∧
      w.toList.head?.any Char.isAlpha = true := by decide
  have hword := hall _ (mem_reservedWords h)
  rwa [String.toList_ofList] at hword

section

variable {σ E : Type} {g : Setup σ E} {level : Nat} {s : ReadState σ} {word behind : List Char}

/-- A line that starts with a word and a class or an id is read on as a tag of that name. -/
theorem payload_of_note (hname : Tag.isName word = true)
    (halpha : word.head?.any Char.isAlpha = true) (n : Tag.Note)
    (hrest : s.cursor.rest = word ++ ((Tag.Modifier.note n).text ++ behind)) :
    Line.payload g level s = Tag.line g s.cursor word { s with cursor := s.cursor.past word } := by
  have hnone : Keyword.atFront? s.cursor.rest = none := by
    rw [hrest]
    exact atFront?_note hname n _
  have hread : Name.tag s.cursor.rest = word := by
    rw [hrest]
    exact Tag.tag_append hname ((Tag.Modifier.note n).tagTail_text _)
  have hform : Line.Form.ofRest s.cursor.rest = .word := by
    obtain ⟨x, xs, rfl⟩ := List.exists_cons_of_ne_nil (Tag.ne_nil_of_isName hname)
    rw [hrest]
    exact if_pos halpha
  rw [Line.payload, bind_of_ok (here_eq s), hform]
  dsimp only
  rw [Line.word, bind_of_ok (here_eq s), hnone]
  dsimp only
  rw [hread]
  rfl

/-- The payload of a line is a tag whose name stands at `start`. -/
def NamesTag (payload : Token E) (start : Cursor) (name : List Char) : Prop :=
  payload.kind = .lineData ∧
    ∃ parts, payload.children = [(Token.ofText .tag start name).withChildren parts]

theorem line_namesTag (start : Cursor) (name : List Char) :
    (Tag.line g start name).Makes fun r ↦ NamesTag r.1 start name := by
  refine .after fun r ↦ .bind (P := (NamesTag · start name)) ?_ fun _ hpayload ↦ .pure hpayload
  refine .bind (tokenFrom_makes (by decide) start) fun t ht ↦ .pure ?_
  exact ⟨ht.2, r.1, rfl⟩

/-- Whatever stands behind the class or the id, a reserved word before it is never read as anything
but the name of a tag. -/
theorem markup_namesTag (hword : (Keyword.ofWord? word).isSome = true) (n : Tag.Note)
    (hrest : s.cursor.rest = word ++ ((Tag.Modifier.note n).text ++ behind))
    {r : Token E × LineTail} {t : ReadState σ} (h : Line.markup g level s = .ok r t) :
    ∃ payload, r.1.children = [payload] ∧ NamesTag payload s.cursor word := by
  obtain ⟨hname, halpha⟩ := isName_of_reserved hword
  obtain ⟨_, _, ⟨⟩, h⟩ := bind_eq_ok.1 h
  obtain ⟨p, u, hpayload, h⟩ := bind_eq_ok.1 h
  rw [payload_of_note hname halpha n hrest] at hpayload
  obtain ⟨line, v, hline, h⟩ := bind_eq_ok.1 h
  cases h
  exact ⟨p.1, (Link.lineFrom_of_ok hline).2, line_namesTag _ _ _ _ _ hpayload⟩

end

/-- What a word with modifiers and an ending is read as. -/
def taggedSketch (word : List Char) (ms : List Tag.Modifier) (ending : Tag.Ending) : Sketch :=
  .row .lineData [⟨.tag, String.ofList word, none, ms.map Tag.Modifier.sketch ++ ending.sketches⟩]

/-- Any word with modifiers of which the first is a class or an id is a tag of that name. -/
theorem payload_yields_tag {g : Setup Unit Shape} {c d : Cursor} {B : Failure → Prop} {level : Nat}
    {word : List Char} (hname : Tag.isName word = true) (halpha : word.head?.any Char.isAlpha = true)
    (n : Tag.Note) (ms : List Tag.Modifier) {ending : Tag.Ending} (he : ending.writable = true)
    (hg : g.Covers c)
    (h : c.Leads (word ++ (Tag.modifiersText (.note n :: ms) ++ ending.written)) d)
    (hd : d.atLineEnd = true) : (Line.payload g level).Yields c
      (fun r y ↦ (r.1.sketch = taggedSketch word (.note n :: ms) ending ∧ r.2 = ending.tail) ∧ y = d)
      B := by
  rintro s rfl
  obtain ⟨hnamed, htagged⟩ := h.split
  obtain ⟨hmodifiers, hending⟩ := htagged.split
  have hfollows := ending.follows hd
  rw [← hending.1] at hfollows
  have hrest : s.cursor.rest = word ++ ((Tag.Modifier.note n).text ++ (Tag.modifiersText ms ++
      (ending.written ++ d.rest))) := by
    rw [h.1, Tag.modifiersText, List.flatMap_cons]
    simp [Tag.modifiersText]
  have hcovers := hg.leads hnamed
  rw [Ensures, payload_of_note hname halpha n hrest]
  exact Tag.line_yields (Tag.lineParts_yields hcovers hmodifiers hfollows.1
    (ending.yields he (hcovers.leads hmodifiers) hending hd)) h { s with cursor := _ } rfl

/-- A reserved word with modifiers of which the first is a class or an id is a tag of that name. -/
theorem lex_reservedTag {maxDepth : Nat} (hmax : 0 < maxDepth) {word : List Char}
    (hword : (Keyword.ofWord? word).isSome = true) (n : Tag.Note) (ms : List Tag.Modifier)
    {ending : Tag.Ending} (he : ending.writable = true) {source : List Char}
    (hsource : source = word ++ (Tag.modifiersText (.note n :: ms) ++ ending.written)) :
    ∃ root, lex loose maxDepth source () = .ok root ∧
      root.sketch = .row .root [.row .line [taggedSketch word (.note n :: ms) ending]] := by
  obtain ⟨hname, halpha⟩ := isName_of_reserved hword
  obtain ⟨d, hlead, hrest⟩ := Cursor.exists_leads_end source
  have hstarts : StartsLine source := by
    obtain ⟨x, xs, rfl⟩ := List.exists_cons_of_ne_nil (Tag.ne_nil_of_isName hname)
    rw [hsource]
    exact ⟨x, _, rfl, not_separator_of_isAlpha halpha⟩
  have hmarkup : (Line.markup ⟨loose, maxDepth, source.length + 1⟩ 0).Yields (.start source)
      (fun r y ↦ y.rest = [] ∧ r.2 ≠ .follow ∧
        r.1.sketch = .row .line [taggedSketch word (.note n :: ms) ending]) fun _ ↦ False := by
    refine (Line.markup_yields hlead (payload_yields_tag hname halpha n ms he
      (covers_start maxDepth source) (hsource ▸ hlead) (Cursor.atLineEnd_of_nil hrest))).mono ?_
    rintro r y ⟨⟨p, ⟨hp, htail⟩, -, hline⟩, rfl⟩
    refine ⟨hrest, ?_, by rw [hline, hp]⟩
    rw [htail]
    cases ending <;> rintro ⟨⟩
  obtain ⟨root, line, hlex, hroot, hline⟩ | ⟨-, -, hfalse⟩ := lex_of_markup
    (P := fun t ↦ t.sketch = .row .line [taggedSketch word (.note n :: ms) ending]) hstarts hmax
    hmarkup
  · exact ⟨root, hlex, by rw [hroot, hline]⟩
  · exact hfalse.elim

/-- A line with a directive is read back as it is written, if no more lines follow one another in it than
there are levels. A reserved word directly before a class or an id is the name of a tag, whatever
stands behind it and whatever line it starts; what can be written behind it is read back too. -/
theorem lex_directive {maxDepth : Nat} (hmax : 0 < maxDepth) :
    (∀ l : DirectiveLine, l.writable = true → l.length ≤ maxDepth →
      ∃ root, lex loose maxDepth l.text () = .ok root ∧ root.sketch = .row .root [l.sketch]) ∧
    (∀ word : List Char, (Keyword.ofWord? word).isSome = true →
      ∀ (n : Tag.Note) (ms : List Tag.Modifier) (ending : Tag.Ending), ending.writable = true →
        ∃ root, lex loose maxDepth
          (word ++ (Tag.modifiersText (.note n :: ms) ++ ending.written)) () = .ok root ∧
            root.sketch = .row .root [.row .line [taggedSketch word (.note n :: ms) ending]]) ∧
    ∀ {σ E : Type} (g : Setup σ E) (level : Nat) (s : ReadState σ) (word : List Char) (n : Tag.Note)
      (behind : List Char), (Keyword.ofWord? word).isSome = true →
      s.cursor.rest = word ++ ((Tag.Modifier.note n).text ++ behind) →
        ∀ r t, Line.markup g level s = .ok r t →
          ∃ payload, r.1.children = [payload] ∧ NamesTag payload s.cursor word := by
  refine ⟨?_, ?_, ?_⟩
  · intro l hl hlength
    exact lex_directiveLine hl hlength
  · intro word hword n ms ending he
    exact lex_reservedTag hmax hword n ms he rfl
  · intro σ E g level s word n behind hword hrest r t h
    exact markup_namesTag hword n hrest h

/-- A loop over pairs behind a `-`, which a tag follows; a tag named like the word of a loop; and such
a tag that a line follows. -/
theorem lex_directive_loop :
    (∃ root, lex loose 2 "- each v,k in a?b:c : li".toList () = .ok root ∧
      root.sketch = .row .root [.row .line [⟨.controlEachPair, "each", some "a?b:c",
        [.leaf .eachVariable ['v'], .leaf .eachVariable ['k'],
          .row .line [.row .lineData [⟨.tag, "li", none, []⟩]]]⟩]]) ∧
    (∃ root, lex loose 2 "each.x".toList () = .ok root ∧
      root.sketch = .row .root [.row .line [.row .lineData [⟨.tag, "each", none,
        [.leaf .tagClassNote ['x']]⟩]]]) ∧
    ∃ r t, Line.markup ⟨loose, 2, 10⟩ 0 ⟨.start "each.x: li".toList, none, ()⟩ = .ok r t ∧
      ∃ payload, r.1.children = [payload] ∧
        NamesTag payload (.start "each.x: li".toList) "each".toList := by
  have hmax : 0 < 2 := by decide
  let space : Space := ⟨⟨[' '], by simp [isSpacing]⟩, List.cons_ne_nil _ _⟩
  let no : Gap := ⟨[], List.forall_mem_nil _⟩
  let vs : Variables := ⟨⟨['v'], rfl, List.forall_mem_singleton.2 rfl⟩,
    some (no, no, ⟨['k'], rfl, List.forall_mem_singleton.2 rfl⟩)⟩
  let each : Control := .loop "each" (by decide) space vs space space
    ⟨['a', '?', 'b', ':', 'c'], rfl, rfl⟩
  let line : DirectiveLine :=
    ⟨some space.toGap, each, space.toGap, some (space, .ends ⟨.tag ['l', 'i'], []⟩ .bare)⟩
  let note : Tag.Note := ⟨false, ['x'], List.cons_ne_nil _ _, List.forall_mem_singleton.2 rfl⟩
  have hline : line.text = "- each v,k in a?b:c : li".toList := by decide
  have htag : "each".toList ++ (Tag.modifiersText [.note note] ++ Tag.Ending.bare.written) =
      "each.x".toList := by decide
  have hwritten : line.writable = true := rfl
  refine ⟨?_, ?_, ?_⟩
  · rw [← hline]
    exact (lex_directive hmax).1 line hwritten (Nat.le_refl 2)
  · rw [← htag]
    exact (lex_directive hmax).2.1 "each".toList (by decide) note [] .bare rfl
  · have hrest : (Cursor.start "each.x: li".toList).rest =
        "each".toList ++ ((Tag.Modifier.note note).text ++ ": li".toList) := by decide
    have hok : ((Line.markup ⟨loose, 2, 10⟩ 0).run'
        ⟨.start "each.x: li".toList, none, ()⟩).isSome = true := by decide
    rw [EStateM.run', EStateM.run] at hok
    have htagged := (lex_directive hmax).2.2 ⟨loose, 2, 10⟩ 0
      ⟨.start "each.x: li".toList, none, ()⟩ "each".toList note ": li".toList (by decide) hrest
    generalize Line.markup ⟨loose, 2, 10⟩ 0 ⟨.start "each.x: li".toList, none, ()⟩ = result
      at hok htagged ⊢
    cases result with
    | ok r t => exact ⟨r, t, rfl, htagged r t rfl⟩
    | error f t => contradiction

end Directive

end Pug
