import Pug.Grammar.Line
import Pug.Proofs.Reading.Directive

/-!
# Readings of lines

What a line says is read as one token, whatever the form of the line; the line around it is a
container of the same bytes. A block of code takes the lines below it as well: its statements are
read as a row, and the line breaks and the indentation between them are blanks.
-/

namespace Pug

open Text Token Reader
open ExpressionParser (Call)

variable {σ E : Type} {source : List Char} {s m t : Recorded σ E}
variable {g : Setup (σ × List (Call E)) E} {parser : ExpressionParser σ E}

namespace Code

theorem statement_reads (hg : g.Records parser source) (hs : Settled source s)
    (lineBreak : List Char) :
    (statement g lineBreak).Ensures s
      (fun a t ↦ TokenRead source s a t ∧ a.kind = .codeLine) (Broken source) := by
  unfold statement
  simp only [ensures_bind, ensures_here, ensures_skipSpacing, ensures_pure]
  refine (expression_reads hg hs _ _).mono ?_
  rintro e n ⟨hn, hlt⟩
  have hsn := hs.of_reading hn
  obtain ⟨c, d, hc, -, hstart, -⟩ := hn.argument_stands.places
  have hb := hn.argument_bounds
  have hspace := moved_to (s := n) n.cursor.leads_skipSpacing
  -- Wherever the statement ends, its token starts with the expression.
  have hend : ∀ (w : List Char) (t : Recorded σ E), Moved n w t →
      Reader.Ensures (do
        let u ← tokenFrom (← placeAt s.cursor e.span.start) .codeLine
        return u.withExpr e) t
        (fun a t ↦ TokenRead source s a t ∧ a.kind = .codeLine) (Broken source) := by
    intro w t ht
    have hplace := hsn.place.leads ht.leads
    obtain ⟨v, hv⟩ := hs.place.leads_to hc (by omega)
    obtain ⟨x, hx⟩ := hc.leads_to hplace (by have := ht.leads.offset_le; omega)
    have hst := hc.stands hx
    rw [← hx.2, hstart] at hst
    have hblank : Accounted source s.cursor.offset [] e.span.start := by
      intro i hl hh
      rcases hn.argument_accounted i hl (by omega) with ⟨u, hu, hi, -⟩ | hsep
      · rw [List.mem_singleton.1 hu] at hi
        omega
      · exact .inr hsep
    have hread : Reading source s [⟨.codeLine, _, _, some e, []⟩] t :=
      hn.around ⟨.refl s.cursor, rfl⟩ ht rfl hb.1 (Nat.le_refl _) hblank hst
    simp only [ensures_bind, ensures_pure]
    rw [← hstart]
    refine ensures_placeAt hv (ensures_tokenFrom hx ⟨⟨?_, ?_⟩, rfl⟩)
    · rw [ofText, Token.leaf, withExpr, ← hx.2, hstart]
      exact hread
    · have := ht.leads.length_rest
      omega
  refine ensures_eat (fun h ↦ ?_) fun _ ↦ ?_
  · have hl := Cursor.leads_of_startsWith h
    simpa only [ensures_bind, ensures_pure] using hend _ _ (hspace.trans (moved_to hl))
  · simpa only [ensures_bind, ensures_pure] using hend _ _ hspace

theorem next_reads (hg : g.Records parser source) (hs : Settled source s)
    (lineBreak : List Char) :
    (item.next g lineBreak).Ensures s (ItemRead source (fun _ _ ↦ True) s) (Broken source) := by
  unfold item.next
  simp only [ensures_bind, ensures_skipSpacing, ensures_pure]
  refine (statement_reads hg hs lineBreak).mono ?_
  rintro a t ⟨ht, _⟩
  have hst := hs.of_reading ht.1
  have hspace := reading_skipSpacing hst.place
  exact ⟨ht.1.before hspace, Nat.lt_of_le_of_lt hspace.length_rest_le ht.2⟩

/-- The lines of a block start with blanks, so the statements are all that is read of them. -/
theorem item_reads (hg : g.Records parser source) (hs : Settled source s) {lineBreak : List Char}
    (hb : ∀ x ∈ lineBreak, isBlank x = true) :
    (item g lineBreak).Ensures s (ItemRead source (fun _ _ ↦ True) s) (Broken source) := by
  unfold item
  simp only [ensures_bind, ensures_here]
  refine ensures_ite (fun _ ↦ next_reads hg hs lineBreak) fun _ ↦ ?_
  refine ensures_ite (fun h ↦ ?_) fun _ ↦ ⟨.refl source s, trivial⟩
  obtain ⟨others, ho⟩ := List.isPrefixOf_iff_prefix.1 (Bool.and_eq_true_iff.1 h).1
  have hgap : Reading source s [] { s with cursor := s.cursor.past lineBreak } :=
    .gap hs.place (moved_to (Cursor.leads_past ho.symm)) fun x hx ↦ .inl (hb x hx)
  simp only [ensures_bind, ensures_moveTo]
  refine (next_reads hg (hs.of_reading hgap) lineBreak).mono fun r t ht ↦ ?_
  cases r with
  | one a => exact ⟨hgap.after ht.1, Nat.lt_of_lt_of_le ht.2 hgap.length_rest_le⟩
  | last as b => exact ⟨hgap.after ht.1, trivial⟩

/-- Looking for the indentation of a block moves nothing. -/
theorem blockBreak_reads (hs : Place source s.cursor) (level : Nat) :
    (blockBreak? level).Ensures s (fun r t ↦ Reading source s [] t ∧
      ∀ lineBreak ∈ r, ∀ x ∈ lineBreak, isBlank x = true) (Broken source) := by
  have hblank : ∀ x ∈ s.cursor.lineBreak ++ s.cursor.nextLine.rest.takeWhile isSpacing,
      isBlank x = true := by
    intro x hx
    rcases List.mem_append.1 hx with hx | hx
    · exact isBlank_of_isBreak (Cursor.isBreak_of_mem_lineBreak hx)
    · exact isBlank_of_mem_spacing hx
  unfold blockBreak?
  simp only [ensures_bind, ensures_get]
  split
  · exact ⟨.refl source s, by rintro _ ⟨⟩⟩
  · simp only [ensures_bind, ensures_set]
    split
    · split
      · refine ⟨reading_unit hs _, fun lineBreak hl ↦ ?_⟩
        cases hl
        exact hblank
      · exact ⟨reading_unit hs _, by rintro _ ⟨⟩⟩
    · exact ⟨reading_unit hs _, by rintro _ ⟨⟩⟩

theorem block_reads (hg : g.Records parser source) (hs : Settled source s) {level : Nat}
    {a : Token E} (h : Reading source s [a] m) (he : a.expr = none) (hc : a.children = [])
    (hk : a.kind ≠ .lineData) :
    (block g level a).Ensures m (fun b t ↦ LineRead source s (b, .plain) t) (Broken source) := by
  have hsm := hs.of_reading h
  unfold block
  simp only [ensures_bind]
  refine (blockBreak_reads hsm.place level).mono ?_
  rintro r n ⟨hn, hblank⟩
  have hread := h.before hn
  split
  · exact .of_reading hread hk (by rintro ⟨⟩)
  · rename_i lineBreak
    simp only [ensures_bind, ensures_pure]
    refine (gather_rounds_reads hg (fun _ hs ↦ item_reads hg hs (hblank _ rfl))
      (hs.of_reading hread)).mono ?_
    rintro r t ⟨ht, _⟩
    exact .of_reading (hread.below he hc ht) hk (by rintro ⟨⟩)

theorem line_reads (hg : g.Records parser source) (hs : Settled source s) {rest : List Char}
    (hr : s.cursor.rest = '-' :: rest) (level : Nat) :
    (line g level).Ensures s (LineRead source s) (Broken source) := by
  have hl := Cursor.leads_cons hr
  have hmark := reading_marks hs.place hl rfl
  have hsm := hs.of_reading hmark
  unfold line
  simp only [ensures_bind, ensures_here]
  refine ensures_bump hl rfl ?_
  split
  · -- Behind the hyphen the line is blank.
    rename_i hblank
    have hleaf : Reading source s [ofText .codeBlock s.cursor _] _ := .leaf hs.place (moved_to hl) rfl
    have hgap := Reading.gap hsm.place (moved_to (s.cursor.past ['-']).leads_lineEnd) fun x hx ↦
      .inl (isBlank_of_isSpacing (List.all_eq_true.1 hblank x hx))
    simp only [ensures_bind, ensures_moveTo, ensures_pure]
    refine ensures_tokenFrom hl ?_
    exact block_reads hg hs (hleaf.before hgap) rfl rfl (by rintro ⟨⟩)
  · have hspace := reading_skipSpacing hsm.place
    have hgap := hmark.trans hspace
    have hsg := hs.of_reading hgap
    split
    · rename_i keyword word hf
      obtain ⟨hf, hc⟩ := Option.filter_eq_some_iff.1 hf
      simp only [ensures_bind, ensures_moveTo]
      refine (Directive.line_reads hg hsg hf fun hd ↦ ?_).mono fun r t ht ↦ ht.after hgap
      rw [hd] at hc
      contradiction
    · simp only [ensures_bind, ensures_moveTo, ensures_pure]
      refine (statement_reads hg hsg []).mono ?_
      rintro a t ⟨ht, hk⟩
      exact .of_reading (hgap.after ht.1) (by simp [hk]) (by rintro ⟨⟩)

end Code

namespace Line

/-- What stands at the front of each form of a line. -/
def Form.StandsAt (cs : List Char) : Form → Prop
  | .comment => ∃ rest, cs = '/' :: '/' :: rest
  | .dot => ∃ rest, cs = '.' :: rest
  | .piped => ∃ rest, cs = '|' :: rest
  | .output kind mark => ∃ w rest, cs = w ++ rest ∧ byteLength w = mark ∧ kind.isContainer = false
  | .code => ∃ rest, cs = '-' :: rest
  | .call => ∃ rest, cs = '+' :: rest
  | .shorthand | .word | .raw | .unknown => True

theorem standsAt_ofRest (cs : List Char) : (Form.ofRest cs).StandsAt cs := by
  unfold Form.ofRest
  split
  · trivial
  · rename_i c rest
    split
    · trivial
    · split
      · split
        · trivial
        · exact ⟨_, rfl⟩
      · split <;> trivial
      · trivial
      · split <;> trivial
      · split
        · rename_i h
          obtain ⟨more, rfl⟩ := List.head?_eq_some_iff.1 h
          exact ⟨more, rfl⟩
        · trivial
      · exact ⟨_, rfl⟩
      · exact ⟨['='], rest, rfl, rfl, rfl⟩
      · split
        · rename_i h
          obtain ⟨more, rfl⟩ := List.head?_eq_some_iff.1 h
          exact ⟨['!', '='], more, rfl, rfl, rfl⟩
        · trivial
      · exact ⟨_, rfl⟩
      · exact ⟨_, rfl⟩
      · trivial
      · trivial

theorem word_reads (hg : g.Records parser source) (hs : Settled source s)
    (hfresh : Fresh source s.cursor) :
    (word g).Ensures s (LineRead source s) (Broken source) := by
  unfold word
  simp only [ensures_bind, ensures_here]
  split
  · rename_i keyword name hf
    simp only [ensures_bind, ensures_moveTo]
    exact Directive.line_reads hg hs hf fun _ ↦ hfresh
  · obtain ⟨others, ho⟩ := Name.exists_eq_tag_append s.cursor.rest
    simp only [ensures_bind, ensures_moveTo]
    exact Tag.line_reads hg hs (Cursor.leads_past ho)

theorem piped_reads (hg : g.Records parser source) (hs : Settled source s) {rest : List Char}
    (hr : s.cursor.rest = '|' :: rest) :
    (piped g).Ensures s (LineRead source s) (Broken source) := by
  have hl := Cursor.leads_cons hr
  have hmark := reading_marks hs.place hl rfl
  have hgap := hmark.trans (reading_skipSpacing (hmark.place hs.place))
  unfold piped
  simp only [ensures_bind, ensures_skipSpacing, ensures_pure]
  refine ensures_bump hl rfl ?_
  refine (TextRun.onLine_reads hg (hs.of_reading hgap)).mono ?_
  rintro a t ⟨ht, hk, _⟩
  exact .of_reading (hgap.after ht) (by simp [hk]) (by rintro ⟨⟩)

theorem output_reads (hg : g.Records parser source) (hs : Settled source s) {w rest : List Char}
    {mark : Nat} (hr : s.cursor.rest = w ++ rest) (hw : byteLength w = mark) {kind : Kind}
    (hk : kind.isContainer = false) :
    (output g kind mark).Ensures s (LineRead source s) (Broken source) := by
  unfold output
  simp only [ensures_bind, ensures_pure]
  refine (Tag.output_reads hg hs hr hw hk _).mono ?_
  rintro a m ⟨hm, ha⟩
  refine (endRun_reads (hs.of_reading hm.1) false).mono ?_
  rintro _ t ⟨_, _, ht⟩
  exact .of_reading (hm.1.before ht) (by simpa [ha] using Directive.ne_lineData hk) (by rintro ⟨⟩)

theorem raw_reads (hs : Settled source s) :
    (raw (E := E)).Ensures s (LineRead source s) (Broken source) := by
  unfold raw
  simp only [ensures_bind, ensures_here, ensures_skipLine, ensures_pure]
  exact .of_reading (reading_trimEnd hs.place s.cursor.leads_lineEnd rfl) (by rintro ⟨⟩) (by rintro ⟨⟩)

theorem comment_reads (hg : g.Records parser source) (hs : Settled source s) {rest : List Char}
    (hr : s.cursor.rest = '/' :: '/' :: rest) :
    (comment g).Ensures s (LineRead source s) (Broken source) := by
  unfold comment
  simp only [ensures_bind, ensures_here]
  refine ensures_eat (fun h ↦ ?_) fun _ ↦ ?_
  · have hl := Cursor.leads_of_startsWith h
    have hleaf : Reading source s [ofText .lineComment s.cursor _] _ := .leaf hs.place (moved_to hl) rfl
    have hsl := hs.of_reading hleaf
    have hline := Cursor.leads_lineEnd (s.cursor.past "//-".toList)
    simp only [↓reduceIte, ensures_bind, ensures_here, ensures_skipLine, ensures_pure]
    refine ensures_tokenFrom hl ?_
    split
    · rename_i he
      -- Nothing but blanks is left on the line.
      refine .of_reading (hleaf.below rfl rfl (.gap hsl.place (moved_to hline) fun x hx ↦ ?_)) (by rintro ⟨⟩) (by rintro ⟨⟩)
      obtain ⟨blanks, hb, hblank⟩ := exists_eq_trimEnd_append (s.cursor.past "//-".toList).line
      rw [List.isEmpty_iff.1 he, List.nil_append] at hb
      rw [hb] at hx
      exact .inl (hblank x hx)
    · exact .of_reading (hleaf.below rfl rfl (reading_trimEnd hsl.place hline rfl)) (by rintro ⟨⟩) (by rintro ⟨⟩)
  · have hl := TextRun.leads_opener hr
    have hleaf : Reading source s [ofText .lineCommentHtml s.cursor _] _ :=
      .leaf hs.place (moved_to hl) rfl
    simp only [Bool.false_eq_true, ↓reduceIte, ensures_bind, ensures_pure]
    refine ensures_bump hl rfl (ensures_tokenFrom hl ?_)
    refine (TextRun.pieces_reads hg (Tag.inlineTag_reads hg g.maxDepth)
      (hs.of_reading hleaf)).mono ?_
    rintro ts t ⟨ht, _⟩
    exact .of_reading (hleaf.below rfl rfl ht) (by rintro ⟨⟩) (by rintro ⟨⟩)

theorem arguments_reads (hg : g.Records parser source) (hs : Settled source s) :
    (arguments g).Ensures s (fun ts t ↦ Reading source s ts t) (Broken source) := by
  unfold arguments
  simp only [ensures_bind]
  refine ensures_eat (fun h ↦ ?_) fun _ ↦ .refl source s
  have hmark := reading_marks hs.place (Cursor.leads_of_startsWith h) rfl
  have hgap := hmark.trans (reading_skipSpacing (hmark.place hs.place))
  have hsg := hs.of_reading hgap
  simp only [↓reduceIte, ensures_bind, ensures_skipSpacing]
  refine ensures_eat (fun h ↦ ?_) fun _ ↦ ?_
  · exact hgap.trans (reading_marks hsg.place (Cursor.leads_of_startsWith h) rfl)
  · simp only [Bool.false_eq_true, ↓reduceIte, ensures_bind, ensures_skipSpacing]
    refine (expression_reads hg hsg _ _).mono ?_
    rintro e n ⟨hn, _⟩
    have hread := hgap.after hn
    have hread := hread.before (reading_skipSpacing (hread.place hs.place))
    have hsr := hs.of_reading hread
    refine ensures_eat (fun h ↦ ?_) fun _ ↦ ?_
    · exact hread.before (reading_marks hsr.place (Cursor.leads_of_startsWith h) rfl)
    · simp only [Bool.false_eq_true, ↓reduceIte, ensures_bind, ensures_here, ensures_failAt]
      exact hsr.broken hsr.place _ _

theorem call_reads (hg : g.Records parser source) (hs : Settled source s) {rest : List Char}
    (hr : s.cursor.rest = '+' :: rest) :
    (call g).Ensures s (LineRead source s) (Broken source) := by
  have hl := Cursor.leads_cons hr
  have hmark := reading_marks hs.place hl rfl
  have hsm := hs.of_reading hmark
  obtain ⟨others, ho⟩ := Name.exists_eq_tag_append (s.cursor.past ['+']).rest
  have hname : Reading source _ [ofText .mixinCall (s.cursor.past ['+']) _] _ :=
    .leaf hsm.place (moved_to (Cursor.leads_past ho)) rfl
  unfold call
  simp only [ensures_bind, ensures_here]
  refine ensures_bump hl rfl ?_
  refine ensures_ite (fun _ ↦ hsm.broken hsm.place _ _) fun _ ↦ ?_
  have hread := hmark.after hname
  simp only [ensures_bind, ensures_moveTo, ensures_pure]
  refine (arguments_reads hg (hs.of_reading hread)).mono fun args n hargs ↦ ?_
  refine (Tag.lineParts_reads hg ((hs.of_reading hread).of_reading hargs)).mono ?_
  rintro r t ⟨ht, hend⟩
  exact .of_reading (hread.below rfl rfl (hargs.trans ht)) (by rintro ⟨⟩) hend

theorem payload_reads (hg : g.Records parser source) (hs : Settled source s)
    (hfresh : Fresh source s.cursor) (level : Nat) :
    (payload g level).Ensures s (LineRead source s) (Broken source) := by
  have hfront := standsAt_ofRest s.cursor.rest
  unfold payload
  simp only [ensures_bind, ensures_here]
  cases hp : Form.ofRest s.cursor.rest with
  | shorthand =>
    have hl : s.cursor.Leads [] (s.cursor.past []) := by
      simpa [Cursor.past] using Cursor.Leads.refl s.cursor
    simpa [Cursor.past] using Tag.line_reads hg hs hl
  | comment =>
    rw [hp] at hfront
    obtain ⟨rest, hr⟩ := hfront
    exact comment_reads hg hs hr
  | word => exact word_reads hg hs hfresh
  | dot =>
    rw [hp] at hfront
    obtain ⟨rest, hr⟩ := hfront
    simp only [dot, ensures_bind, ensures_pure]
    refine (Tag.closingMark_reads hs hr rfl rfl false).mono ?_
    rintro a t ⟨ht, hk⟩
    exact .of_reading ht (by simp [hk]) (by rintro ⟨⟩)
  | piped =>
    rw [hp] at hfront
    obtain ⟨rest, hr⟩ := hfront
    exact piped_reads hg hs hr
  | output kind mark =>
    rw [hp] at hfront
    obtain ⟨w, rest, hr, hw, hk⟩ := hfront
    exact output_reads hg hs hr hw hk
  | code =>
    rw [hp] at hfront
    obtain ⟨rest, hr⟩ := hfront
    exact Code.line_reads hg hs hr level
  | call =>
    rw [hp] at hfront
    obtain ⟨rest, hr⟩ := hfront
    exact call_reads hg hs hr
  | raw => exact raw_reads hs
  | unknown => exact hs.broken hs.place _ _

/-- The token of a line that starts where the cursor is: a container around what the line says. -/
structure LineToken (source : List Char) (s : Recorded σ E) (line : Token E) (t : Recorded σ E) :
    Prop where
  reading : Reading source s [line] t
  isLine : line.IsLine
  start : line.span.start = s.cursor.offset

/-- A line is read around what it says, without the blanks at its end. -/
theorem lineFrom_reads (hs : Place source s.cursor) {a : Token E} (h : Reading source s [a] t)
    (hw : a.WrapsTag) :
    (lineFrom s.cursor a).Ensures t (fun line u ↦ u = t ∧ LineToken source s line t)
      (Broken source) := by
  obtain ⟨w, hl⟩ := h.leads
  refine ensures_lineFrom hl ⟨rfl, ?_, ⟨rfl, rfl, a, rfl, hw⟩, rfl⟩
  obtain ⟨blanks, hb, -⟩ := exists_eq_trimEnd_append w
  rw [hb] at hl
  exact h.wrap (hs.stands hl.split.1) rfl rfl

theorem markup_reads (hg : g.Records parser source) (hs : Settled source s)
    (hfresh : Fresh source s.cursor) (level : Nat) :
    (markup g level).Ensures s
      (fun r t ↦ LineToken source s r.1 t ∧ Tag.PartsEnd source r.2 t) (Broken source) := by
  unfold markup
  simp only [ensures_bind, ensures_here, ensures_pure]
  refine (payload_reads hg hs hfresh level).mono fun r t ht ↦ ?_
  refine (lineFrom_reads hs.place ht.reading ht.wrapper).mono ?_
  rintro line u ⟨hu, hline⟩
  rw [hu]
  exact ⟨hline, ht.follow⟩

/-- A line of text as it is, up to its end. -/
theorem bareText_reads (hs : Settled source s) :
    (bareText (E := E)).Ensures s
      (fun a t ↦ Reading source s [a] t ∧ a.kind = .linePlainText ∧ t.cursor.atLineEnd = true)
      (Broken source) := by
  have hl := s.cursor.leads_lineEnd
  have hleaf : Reading source s [ofText .plainText s.cursor _] _ := .leaf hs.place (moved_to hl) rfl
  unfold bareText
  simp only [ensures_bind, ensures_here, ensures_moveTo, ensures_pure]
  refine ensures_tokenFrom hl (ensures_tokenFrom hl ⟨?_, rfl, s.cursor.atLineEnd_lineEnd⟩)
  exact hleaf.wrap (hs.place.stands hl) rfl rfl

theorem verbatim_reads (hg : g.Records parser source) (hs : Settled source s)
    (interpolate : Bool) :
    (verbatim g interpolate).Ensures s
      (fun line t ↦ LineToken source s line t ∧ t.cursor.atLineEnd = true) (Broken source) := by
  have hline : ∀ (a : Token E) (t : Recorded σ E), Reading source s [a] t ∧
      a.kind = .linePlainText ∧ t.cursor.atLineEnd = true →
      (lineFrom s.cursor a).Ensures t
        (fun line t ↦ LineToken source s line t ∧ t.cursor.atLineEnd = true) (Broken source) := by
    rintro a t ⟨ht, hk, hend⟩
    refine (lineFrom_reads hs.place ht (by simp [WrapsTag, hk])).mono ?_
    rintro line u ⟨hu, hline⟩
    rw [hu]
    exact ⟨hline, hend⟩
  unfold verbatim
  simp only [ensures_bind, ensures_here]
  split
  · simp only [ensures_bind]
    exact (TextRun.onLine_reads hg hs).mono hline
  · simp only [ensures_bind]
    exact (bareText_reads hs).mono hline

end Line

end Pug
