import Pug.Grammar.Directive
import Pug.Proofs.Reading.Tag

/-!
# Readings of directives

A directive is read from the place where its word starts; the word itself has been passed. Most
directives make a token of the word. A definition of a mixin, an include and a doctype do not:
their words are among those that no token repeats, and they stand by themselves.
-/

namespace Pug

open Text Token Reader
open ExpressionParser (Call)

variable {σ E : Type} {source : List Char} {s m t : Recorded σ E}
variable {g : Setup (σ × List (Call E)) E} {parser : ExpressionParser σ E}

namespace Keyword

theorem ofList_eq {word : List Char} {x : String} (h : String.ofList word = x) :
    word = x.toList := by
  rw [← h, String.toList_ofList]

/-- A word that no token repeats is the word of a declaration. -/
theorem mem_separatorWords {keyword : Keyword} {word : List Char}
    (h : ofWord? word = some keyword) (hc : keyword.isControl = false) :
    ∃ x ∈ separatorWords, word = x.toList := by
  unfold ofWord? at h
  split at h <;> cases h <;> first | contradiction | rename_i hw
  · exact ⟨_, by decide, ofList_eq hw⟩
  · exact ⟨_, by decide, ofList_eq hw⟩
  · exact ⟨_, by decide, ofList_eq hw⟩

/-- The token of a condition is no container. -/
theorem isContainer_condition {kind : Kind} {word : List Char}
    (h : ofWord? word = some (condition kind)) : kind.isContainer = false := by
  unfold ofWord? at h
  split at h <;> cases h <;> rfl

/-- A keyword at the front is a tag name that ends there. -/
theorem atFront_eq_some {cs word : List Char} {keyword : Keyword}
    (h : atFront? cs = some (keyword, word)) :
    ofWord? word = some keyword ∧ ∃ others, cs = word ++ others ∧ endsKeyword others = true := by
  unfold atFront? at h
  obtain ⟨others, ho⟩ := Name.exists_eq_tag_append cs
  dsimp only at h
  split at h
  · rename_i hends
    obtain ⟨k, hk, he⟩ := Option.map_eq_some_iff.1 h
    obtain ⟨rfl, rfl⟩ := Prod.mk.inj he
    refine ⟨hk, others, ho, ?_⟩
    have hd : ∀ word, cs = word ++ others → cs.drop word.length = others := by
      rintro word rfl
      exact List.drop_left
    rwa [hd _ ho] at hends
  · contradiction

end Keyword

namespace Directive

theorem tail_reads (hs : Settled source s) :
    tail.Ensures s (fun r t ↦ Reading source s [] t ∧ Tag.PartsEnd source r t)
      (Broken source) := by
  have hspace := reading_skipSpacing hs.place
  have hsp := hs.of_reading hspace
  unfold tail
  simp only [ensures_bind, ensures_skipSpacing]
  refine ensures_eat (fun h ↦ ?_) fun _ ↦ ?_
  · have hl := Cursor.leads_of_startsWith h
    refine ⟨hspace.trans (reading_marks hsp.place hl rfl), fun _ ↦ ?_⟩
    exact .of_leads hsp.place hl (by decide) rfl
  · simp only [Bool.false_eq_true, ↓reduceIte, ensures_bind, ensures_pure]
    refine (endRun_reads hsp false).mono ?_
    rintro _ t ⟨_, _, ht⟩
    exact ⟨hspace.trans ht, by rintro ⟨⟩⟩

/-- What may follow a directive comes behind what has been read of it. -/
theorem tail_after {a : Token E} (hs : Settled source s) (h : Reading source s [a] m)
    (hk : a.kind ≠ .lineData) :
    tail.Ensures m (fun r t ↦ LineRead source s (a, r) t) (Broken source) :=
  (tail_reads (hs.of_reading h)).mono fun _ _ ⟨ht, hf⟩ ↦ .of_reading (h.before ht) hk hf

theorem ne_lineData {kind : Kind} (h : kind.isContainer = false) : kind ≠ .lineData := by
  rintro rfl
  contradiction

theorem condition_reads (hg : g.Records parser source) (hs : Settled source s) {word : Token E}
    (h : Reading source s [word] m) (hk : word.kind.isContainer = false)
    (he : word.expr = none) (hc : word.children = []) :
    (condition g word).Ensures m (LineRead source s) (Broken source) := by
  unfold condition
  simp only [ensures_bind, ensures_pure]
  refine (expression_reads hg (hs.of_reading h) _ _).mono ?_
  rintro e n ⟨hn, _⟩
  exact tail_after hs (h.value hk he hc (.refl source m) hn) (ne_lineData hk)

theorem otherwise_reads (hg : g.Records parser source) (hs : Settled source s) {w : List Char}
    (hm : Moved s w m) :
    (otherwise g s.cursor).Ensures m (LineRead source s) (Broken source) := by
  unfold otherwise
  simp only [ensures_bind, ensures_here]
  refine ensures_tokenFrom hm.leads ?_
  split
  · rename_i name hf
    obtain ⟨-, others, ho, -⟩ := Keyword.atFront_eq_some hf
    have hif := (hm.leads.trans m.cursor.leads_skipSpacing).trans (Cursor.leads_past ho)
    simp only [ensures_bind, ensures_moveTo]
    refine ensures_tokenFrom hif ?_
    exact condition_reads hg hs (.leaf hs.place ⟨hif, hm.parser⟩ rfl) rfl rfl rfl
  · simp only [ensures_bind, ensures_pure]
    exact tail_after hs (.leaf hs.place hm rfl) (by rintro ⟨⟩)

/-- What is read with the variable of a loop: a token that starts before the cursor, and no word
follows the variable without spacing between them. -/
structure VariableRead (source : List Char) (s : Recorded σ E) (a : Token E) (t : Recorded σ E) :
    Prop where
  reading : Reading source s [a] t
  start_lt : a.span.start < t.cursor.offset
  expr : a.expr = none
  children : a.children = []
  fresh : t.cursor.rest.head?.any Name.isVariableChar = true → Fresh source t.cursor

theorem loopVariable_reads (hs : Settled source s) :
    (loopVariable (E := E)).Ensures s (VariableRead source s) (Broken source) := by
  unfold loopVariable
  simp only [ensures_bind, ensures_here]
  refine ensures_ite (fun _ ↦ hs.broken hs.place _ _) fun hne ↦ ?_
  simp only [ensures_bind, ensures_moveTo, ensures_skipSpacing, ensures_pure]
  -- The name is the row of characters of variables at the front.
  have hname : Name.loopVariable s.cursor.rest = s.cursor.rest.takeWhile Name.isVariableChar := by
    unfold Name.loopVariable at hne ⊢
    split
    · rfl
    · rename_i hstart
      rw [if_neg hstart] at hne
      exact absurd rfl hne
  rw [hname] at hne ⊢
  have hl := s.cursor.leads_skipWhile Name.isVariableChar
  have hleaf : Reading source s [ofText .eachVariable s.cursor _]
      { s with cursor := s.cursor.skipWhile Name.isVariableChar } :=
    .leaf hs.place (moved_to hl) rfl
  have hm := hs.of_reading hleaf
  have hspace := (s.cursor.skipWhile Name.isVariableChar).leads_skipSpacing
  refine ⟨hleaf.before (reading_skipSpacing hm.place), ?_, rfl, rfl, fun h ↦ ?_⟩
  · have h₁ := hl.2
    have h₂ := hspace.offset_le
    have h₃ := mt byteLength_eq_zero.1 (mt List.isEmpty_iff.2 hne)
    change s.cursor.offset < (s.cursor.skipWhile Name.isVariableChar).skipSpacing.offset
    omega
  · refine .of_spacing hm.place fun hnil ↦ ?_
    -- Without spacing the name would go on.
    have hd := hspace.1
    change (s.cursor.skipWhile Name.isVariableChar).rest.takeWhile isSpacing = [] at hnil
    rw [hnil, List.nil_append, Cursor.rest_skipWhile] at hd
    have hhead := List.head?_dropWhile_not Name.isVariableChar s.cursor.rest
    change (s.cursor.skipWhile Name.isVariableChar).skipSpacing.rest.head?.any _ = true at h
    rw [← hd] at h
    cases hx : (s.cursor.rest.dropWhile Name.isVariableChar).head? with
    | none => simp [hx] at h
    | some x => simp [hx] at h hhead; simp [h] at hhead

/-- The variables of a loop stand before the cursor. -/
structure VariablesRead (source : List Char) (s : Recorded σ E) (ts : List (Token E))
    (t : Recorded σ E) : Prop where
  reading : Reading source s ts t
  before : ∀ x ∈ ts, x.span.start < t.cursor.offset ∧ x.expr = none ∧ x.children = []
  fresh : t.cursor.rest.head?.any Name.isVariableChar = true → Fresh source t.cursor

theorem loopVariables_reads (hs : Settled source s) :
    (loopVariables (E := E)).Ensures s (VariablesRead source s) (Broken source) := by
  have hspace := reading_skipSpacing hs.place
  unfold loopVariables
  simp only [ensures_bind, ensures_skipSpacing]
  refine (loopVariable_reads (hs.of_reading hspace)).mono fun a m hm ↦ ?_
  have hsm := (hs.of_reading hspace).of_reading hm.reading
  refine ensures_eat (fun h ↦ ?_) fun _ ↦ ?_
  · have hl := Cursor.leads_of_startsWith h
    have hcomma := reading_marks hsm.place hl rfl
    have hgap := hcomma.trans (reading_skipSpacing (hcomma.place hsm.place))
    simp only [↓reduceIte, ensures_bind, ensures_skipSpacing, ensures_pure]
    refine (loopVariable_reads (hsm.of_reading hgap)).mono fun b t ht ↦ ?_
    have hle := (hgap.trans ht.reading).offset_le
    refine ⟨(hspace.after hm.reading).cons (hgap.after ht.reading), ?_, ht.fresh⟩
    intro x hx
    rcases List.mem_cons.1 hx with rfl | hx
    · exact ⟨Nat.lt_of_lt_of_le hm.start_lt hle, hm.expr, hm.children⟩
    · rw [List.mem_singleton.1 hx]
      exact ⟨ht.start_lt, ht.expr, ht.children⟩
  · refine ⟨hspace.after hm.reading, ?_, hm.fresh⟩
    intro x hx
    rw [List.mem_singleton.1 hx]
    exact ⟨hm.start_lt, hm.expr, hm.children⟩

theorem each_reads (hg : g.Records parser source) (hs : Settled source s) {w : List Char}
    (hm : Moved s w m) :
    (each g s.cursor).Ensures m (LineRead source s) (Broken source) := by
  have hword : ∀ kind : Kind, kind.isContainer = false →
      Reading source s [ofText kind s.cursor w] m := fun kind hk ↦ .leaf hs.place hm hk
  unfold each
  simp only [ensures_bind]
  refine ensures_tokenFrom hm.leads ?_
  have hsm := hs.of_reading (hword .controlEach rfl)
  refine (loopVariables_reads hsm).mono fun names n hn ↦ ?_
  have hsn := hsm.of_reading hn.reading
  simp only [ensures_here]
  refine ensures_ite (fun h ↦ ?_) fun _ ↦ ?_
  · obtain ⟨hin, hspacing⟩ := Bool.and_eq_true_iff.1 h
    have hl := Cursor.leads_of_startsWith hin
    have hrest : n.cursor.rest = 'i' :: 'n' :: (n.cursor.past "in".toList).rest := hl.1
    -- The variables end before the word, which is followed by spacing.
    have hfresh : Fresh source n.cursor := hn.fresh (by rw [hrest]; rfl)
    have hends : Keyword.endsKeyword (n.cursor.past "in".toList).rest = true := by
      rw [hrest] at hspacing
      cases hx : (n.cursor.past "in".toList).rest with
      | nil => rfl
      | cons x xs =>
        rw [hx] at hspacing
        have hx : isSpacing x = true := hspacing
        simp [Keyword.endsKeyword, hx]
    have hgap := Reading.word hfresh (moved_to hl) (by decide) hends
    simp only [ensures_bind, ensures_pure]
    refine ensures_bump hl rfl ?_
    refine (expression_reads hg (hsn.of_reading hgap) _ _).mono ?_
    rintro e t ⟨ht, _⟩
    have hkind : (if names.length = 2 then Kind.controlEachPair else .controlEach).isContainer =
        false := by
      split <;> rfl
    have hbefore : ∀ x ∈ names, x.span.start < e.span.start ∧ x.expr = none ∧ x.children = [] := by
      intro x hx
      obtain ⟨hlt, hxe⟩ := hn.before x hx
      have h₁ := hgap.offset_le
      have h₂ := ht.argument_bounds.1
      exact ⟨by omega, hxe⟩
    have hread := (hword _ hkind).behind hkind rfl rfl (hn.reading.before hgap) hbefore ht
    exact tail_after hs hread (ne_lineData hkind)
  · exact hsn.broken hsn.place _ _

/-- The definition of a mixin, where its word may stand. -/
theorem mixin_reads (hg : g.Records parser source) (hs : Settled source s) :
    (mixin g).Ensures s (LineRead source s) (Broken source) := by
  unfold mixin
  simp only [ensures_bind]
  refine (expression_reads hg hs _ _).mono ?_
  rintro e m ⟨hm, _⟩
  have hsm := hs.of_reading hm
  obtain ⟨c, d, hc, hl, hstart, hstop⟩ := hm.argument_stands.places
  refine ensures_ite (fun _ ↦ ?_) fun _ ↦ ?_
  · have := hsm.broken hc .invalidMixinDefinition none
    rwa [hstart] at this
  · -- The name is a beginning of the definition.
    obtain ⟨others, ho⟩ : ∃ others, e.text.toList = mixinName e.text.toList ++ others := by
      obtain ⟨blanks, hb, -⟩ := exists_eq_trimEnd_append (e.text.toList.takeWhile (· != '('))
      refine ⟨blanks ++ e.text.toList.dropWhile (· != '('), ?_⟩
      rw [mixinName, ← List.append_assoc, ← hb, List.takeWhile_append_dropWhile]
    have hb := hm.argument_bounds
    rw [ho] at hl
    have hst := hc.stands hl.split.1
    rw [hstart] at hst
    simp only [ensures_bind, ensures_pure]
    refine tail_after hs (hm.beginning rfl (Nat.le_add_right _ _) ?_ hst) (by rintro ⟨⟩)
    have h₁ := hl.2
    rw [byteLength_append] at h₁
    omega

/-- The text behind a word, as a token. -/
theorem argument_reads (hs : Settled source s) :
    argument.Ensures s (fun r t ↦ Place source r.1 ∧ ∀ kind : Kind, kind.isContainer = false →
      Reading source s [ofText kind r.1 r.2] t) (Broken source) := by
  have hspace := reading_skipSpacing hs.place
  unfold argument
  simp only [ensures_bind, ensures_skipSpacing, ensures_here, ensures_skipLine, ensures_pure]
  refine ⟨hspace.place hs.place, fun kind hk ↦ ?_⟩
  exact hspace.after (reading_trimEnd (hspace.place hs.place) (Cursor.leads_lineEnd _) hk)

/-- A directive is read from the start of its word on. -/
theorem line_reads (hg : g.Records parser source) (hs : Settled source s) {keyword : Keyword}
    {word : List Char} (hf : Keyword.atFront? s.cursor.rest = some (keyword, word))
    (hfresh : keyword.isControl = false → Fresh source s.cursor) :
    (line g keyword s.cursor).Ensures { s with cursor := s.cursor.past word }
      (LineRead source s) (Broken source) := by
  obtain ⟨hword, others, ho, hends⟩ := Keyword.atFront_eq_some hf
  have hl := Cursor.leads_past ho
  have hm : Moved s word { s with cursor := s.cursor.past word } := moved_to hl
  have hrest : (s.cursor.past word).rest = others := Cursor.rest_past_append _ _ _ ho
  -- The word of a declaration makes no token.
  have hgap : keyword.isControl = false → Reading source s [] { s with cursor := s.cursor.past word } := by
    intro hc
    obtain ⟨x, hx, rfl⟩ := Keyword.mem_separatorWords hword hc
    refine .word (hfresh hc) hm hx ?_
    rw [← hrest] at hends
    exact hends
  unfold line
  cases keyword with
  | condition kind =>
    have hk := Keyword.isContainer_condition hword
    simp only [ensures_bind]
    refine ensures_tokenFrom hl ?_
    exact condition_reads hg hs (.leaf hs.place hm hk) hk rfl rfl
  | otherwise => exact otherwise_reads hg hs hm
  | default =>
    simp only [ensures_bind, ensures_pure]
    refine ensures_tokenFrom hl ?_
    exact tail_after hs (.leaf hs.place hm rfl) (by rintro ⟨⟩)
  | each => exact each_reads hg hs hm
  | mixin =>
    have hgap := hgap rfl
    exact (mixin_reads hg (hs.of_reading hgap)).mono fun r t ht ↦ ht.after hgap
  | inclusion =>
    have hgap := hgap rfl
    simp only [ensures_bind]
    refine (argument_reads (hs.of_reading hgap)).mono ?_
    rintro r t ⟨hc, ht⟩
    have hread := hgap.after (ht .inclusion rfl)
    refine ensures_ite (fun _ ↦ (hs.of_reading hread).broken hc _ _) fun _ ↦ ?_
    exact .of_reading hread (by rintro ⟨⟩) (by rintro ⟨⟩)
  | doctype =>
    have hgap := hgap rfl
    simp only [ensures_bind]
    refine (argument_reads (hs.of_reading hgap)).mono ?_
    rintro r t ⟨_, ht⟩
    exact .of_reading (hgap.after (ht .doctype rfl)) (by rintro ⟨⟩) (by rintro ⟨⟩)

end Directive

end Pug
