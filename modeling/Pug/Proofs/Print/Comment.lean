import Pug.Proofs.Layout.Verbatim
import Pug.Proofs.Print.Chain
import Pug.Proofs.Print.CodeBlock

/-!
# Comments that stay in the template

Below a comment that stays in the template stand lines of anything, indented by one unit more. Blank
ones are passed, and of each of the others what stands behind the margin is one piece of text, whatever
it may look like: nothing in it is taken for indentation, for an opener or for an expression. Only the
first one that is not blank has to say what the unit is, so it must not start with more spacing.

The lines are followed from the end of the line before, and each is one step, which leaves the page as it
was but for a line of text under the comment.
-/

namespace Pug

open Text Token Reader Outline Page
open ExpressionParser (loose)

/-- There is something on the line. -/
def isWritten (line : List Char) : Bool :=
  !line.all isSpacing

/-- A comment with what it says, and lines of anything below it, indented by a unit. -/
structure Remark where
  head : List Char
  ending : LineEnding
  unit : IndentUnit
  width : 0 < unit.width
  lines : List (List Char)
  unbroken : ∀ w ∈ head :: lines, ∀ x ∈ w, isBreak x = false
  unindented : ∀ w ∈ (lines.filter isWritten).head?, ∀ x ∈ w.head?, isSpacing x = false

namespace Remark

variable {σ E : Type} {g : Setup σ E}

/-- Lines below the comment, from the end of the line before. -/
def below (r : Remark) (lines : List (List Char)) : List Char :=
  lines.flatMap fun w ↦ r.ending.chars ++ (r.unit.margin 1 ++ w)

def text (r : Remark) : List Char :=
  '/' :: '/' :: '-' :: (r.head ++ r.below r.lines)

/-- What a line of text is read as. -/
def lineSketch (w : List Char) : Sketch :=
  .row .line [.row .linePlainText [.leaf .plainText w]]

/-- What the comment is read as by itself. -/
def headSketch (r : Remark) : Sketch :=
  ⟨.lineComment, "//-", none,
    if (trimEnd r.head).isEmpty then [] else [.leaf .plainText (trimEnd r.head)]⟩

def sketch (r : Remark) : Sketch :=
  .row .line (r.headSketch :: (r.lines.filter isWritten).map lineSketch)

theorem margin_ne_nil (r : Remark) : r.unit.margin 1 ≠ [] := by
  obtain ⟨x, xs, hx, -⟩ := Code.exists_margin_cons r.width 0
  rw [hx]
  exact List.cons_ne_nil x xs

/-! ### The line of the comment -/

section Head

variable {c d : Cursor} {w : List Char} {broken : Failure → Prop}

/-- Up to its end a line holds what is left of it. -/
theorem line_eq (h : c.Leads w d) (hw : ∀ x ∈ w, isBreak x = false) (hd : d.atLineEnd = true) :
    c.line = w := by
  rw [Cursor.line, h.1, firstLine_append hd, firstLine, List.takeWhile_eq_self_iff]
  intro x hx
  rw [hw x hx]
  rfl

theorem comment_yields (r : Remark) (h : c.Leads ('/' :: '/' :: '-' :: r.head) d)
    (hd : d.atLineEnd = true) : (Line.comment g).Yields c
      (fun a y ↦ (a.1.sketch = r.headSketch ∧ a.2 = .verbatim false) ∧ y = d) broken := by
  have hsplit : c.Leads ("//-".toList ++ r.head) d := h
  obtain ⟨hmark, hhead⟩ := hsplit.split
  have hline := line_eq hhead (r.unbroken _ (List.mem_cons_self ..)) hd
  refine .here (.eat_true hmark ?_)
  rw [if_pos rfl]
  refine .tokenFrom hmark (.here (.skipLine ?_))
  rw [Cursor.lineEnd, hline, hhead.past_eq]
  refine .pure ⟨⟨?_, rfl⟩, rfl⟩
  rw [sketch_withChildren, sketch_ofText rfl, headSketch]
  split
  · rfl
  · rw [List.map_singleton, sketch_ofText rfl]
    rfl

/-- The line of the comment asks for text below it. -/
theorem markup_yields (r : Remark) (h : c.Leads ('/' :: '/' :: '-' :: r.head) d)
    (hd : d.atLineEnd = true) : (Line.markup g 0).Yields c
      (fun a y ↦ (a.1.sketch = .row .line [r.headSketch] ∧ a.2 = .verbatim false) ∧ y = d)
      broken := by
  have hpayload : (Line.payload g 0).Yields c
      (fun a y ↦ (a.1.sketch = r.headSketch ∧ a.2 = .verbatim false) ∧ y = d) broken := by
    refine .here ?_
    rw [h.1]
    exact r.comment_yields h hd
  refine (Line.markup_yields h hpayload).mono ?_
  rintro ⟨line, tail⟩ y ⟨⟨t, ⟨ht, rfl⟩, -, hline⟩, hy⟩
  exact ⟨⟨by rw [hline, ht], rfl⟩, hy⟩

end Head

/-! ### The lines below -/

section Below

variable {c d m : Cursor} {p q : Page E} {s t u : ReadState σ} {w : List Char} {owner : LineId}
variable {ws : List (List Char)} {closing : List Char} {broken : Failure → Prop} {n : Nat}

/-- A line of text is one piece. -/
theorem verbatim_yields (h : c.Leads w d) (hw : ∀ x ∈ w, isBreak x = false)
    (hd : d.atLineEnd = true) : (Line.verbatim g false).Yields c
      (fun line y ↦ line.sketch = lineSketch w ∧ y = d) broken := by
  have hbare : (Line.bareText : Reader σ (Token E)).Yields c
      (fun run y ↦ run.sketch = .row .linePlainText [.leaf .plainText w] ∧ y = d) broken := by
    refine .here (.moveTo ?_)
    rw [Cursor.lineEnd, line_eq h hw hd, h.past_eq]
    refine .tokenFrom h (.tokenFrom h (.pure ⟨?_, rfl⟩))
    rw [sketch_withChildren, sketch_container rfl, List.map_singleton, sketch_ofText rfl]
    rfl
  refine .here (.bind hbare ?_)
  rintro run _ ⟨hrun, rfl⟩
  dsimp only
  rw [← bind_pure (lineFrom c run)]
  refine .lineFrom h (.pure ⟨?_, rfl⟩)
  rw [sketch_withChildren, sketch_container rfl, List.map_singleton, hrun]
  rfl

/-- What lines below the comment do: those on which there is something are added under it. -/
structure Takes (owner : LineId) (ws : List (List Char)) (p : Page E) (s : ReadState σ) (q : Page E)
    (t : ReadState σ) : Prop where
  verbatim : q.verbatim = some ⟨owner, 0, false⟩
  parser : t.parser = s.parser
  lines : ∃ ts : List (Token E),
    q.outline.entries.toList = p.outline.entries.toList ++ ts.map (⟨·, owner, .line⟩) ∧
      ts.map Token.sketch = (ws.filter isWritten).map lineSketch

theorem Takes.refl (hv : p.verbatim = some ⟨owner, 0, false⟩) (s : ReadState σ) :
    Takes owner [] p s p s :=
  ⟨hv, rfl, [], (List.append_nil _).symm, rfl⟩

theorem Takes.cons {r : Page E} (h : Takes owner [w] p s q t) (hrest : Takes owner ws q t r u) :
    Takes owner (w :: ws) p s r u := by
  obtain ⟨ts, hts, hsketch⟩ := h.lines
  obtain ⟨us, hus, hsketches⟩ := hrest.lines
  refine ⟨hrest.verbatim, hrest.parser.trans h.parser, ts ++ us, ?_, ?_⟩
  · rw [hus, hts, List.map_append, List.append_assoc]
  · rw [List.map_append, hsketch, hsketches, ← List.map_append, ← List.filter_append]
    rfl

theorem Takes.size_le (h : Takes owner ws p s q t) :
    p.outline.entries.size ≤ q.outline.entries.size := by
  obtain ⟨ts, hts, -⟩ := h.lines
  rw [← Array.length_toList, ← Array.length_toList, hts, List.length_append]
  exact Nat.le_add_right ..

/-- What may be known of the unit before lines: it is known, or the first line on which there is something
will tell. -/
def MayTell (unit : IndentUnit) (known : Option IndentUnit) (ws : List (List Char)) : Prop :=
  known = some unit ∨
    known = none ∧ ∀ w ∈ (ws.filter isWritten).head?, ∀ x ∈ w.head?, isSpacing x = false

/-- There is something on a line where not only spacing stands on it. -/
theorem isWritten_cases (w : List Char) : (isWritten w = false ∧ ∀ x ∈ w, isSpacing x = true) ∨
    isWritten w = true ∧ ∃ blanks x rest, w = blanks ++ x :: rest ∧
      (∀ y ∈ blanks, isSpacing y = true) ∧ isSpacing x = false := by
  rw [isWritten]
  cases hall : w.all isSpacing with
  | true => exact .inl ⟨rfl, List.all_eq_true.1 hall⟩
  | false =>
    cases hrest : w.dropWhile isSpacing with
    | nil =>
      rw [List.dropWhile_eq_nil_iff, ← List.all_eq_true, hall] at hrest
      contradiction
    | cons x rest =>
      refine .inr ⟨rfl, w.takeWhile isSpacing, x, rest, ?_, fun y ↦ List.mem_takeWhile_imp, ?_⟩
      · rw [← hrest, List.takeWhile_append_dropWhile]
      · have hx := List.head?_dropWhile_not isSpacing w
        rw [hrest] at hx
        exact Bool.eq_false_iff.2 (by simpa using hx)

/-- The text behind a margin is added under the comment. -/
theorem textLine_yields {o : Outline E} (howner : o.has owner = true) (h : c.Leads w d)
    (hw : ∀ x ∈ w, isBreak x = false) (hd : d.atLineEnd = true) :
    (textLine g o ⟨owner, 0, false⟩).Yields c (fun q y ↦ (∃ line, line.sketch = lineSketch w ∧
      q = ⟨(o.append owner line).1, some ⟨owner, 0, false⟩⟩) ∧ y = d.nextLine) broken := by
  refine .bind (verbatim_yields h hw hd) ?_
  rintro line _ ⟨hline, rfl⟩
  refine .here (.moveTo ?_)
  rw [expectLine, if_pos howner]
  exact .bind (M := fun _ y ↦ y = _) (.pure rfl) fun _ _ hy ↦ .pure ⟨⟨line, hline, rfl⟩, hy⟩

/-- A line on which there is something has the margin, which tells the unit. -/
theorem takes_of_written (r : Remark) (hv : p.verbatim = some ⟨owner, 0, false⟩)
    (h : s.cursor.Leads (r.unit.margin 1 ++ w) d) (hwritten : isWritten w = true)
    (hk : MayTell r.unit s.unit (w :: ws)) :
    p.takes s = some (⟨owner, 0, false⟩, r.unit.margin 1) ∧
      Indent.learn s.unit s.spacing = some r.unit := by
  have hspacing : s.spacing = r.unit.margin 1 ++ (w ++ d.rest).takeWhile isSpacing := by
    rw [ReadState.spacing, h.1, List.append_assoc,
      List.takeWhile_append_of_pos fun x ↦ isSpacing_of_mem_margin]
  have hne : w ≠ [] := by
    rintro rfl
    contradiction
  have hlearn : Indent.learn s.unit s.spacing = some r.unit := by
    rcases hk with hknown | ⟨hnone, hfirst⟩
    · rw [hknown, Indent.learn_known]
    · rw [List.filter_cons_of_pos hwritten] at hfirst
      have hrun : (w ++ d.rest).takeWhile isSpacing = [] := by
        obtain ⟨x, rest, rfl⟩ := List.exists_cons_of_ne_nil hne
        rw [List.cons_append, List.takeWhile_cons_of_neg (by rw [hfirst _ rfl x rfl]; decide)]
      rw [hnone, hspacing, hrun, List.append_nil, Indent.learn_of_ne_nil none r.margin_ne_nil]
      exact congrArg some (ofRun_margin r.width)
  refine ⟨?_, hlearn⟩
  rw [Page.takes_eq r.width (fun u hu ↦ by rw [hlearn] at hu; exact (Option.some.inj hu).symm) hv,
    if_pos (by rw [hspacing]; exact List.prefix_append ..)]

/-- One line below the comment. -/
theorem exists_line (r : Remark) (hv : p.verbatim = some ⟨owner, 0, false⟩)
    (howner : owner ≤ p.outline.entries.size) (h : s.cursor.Leads (r.unit.margin 1 ++ w) d)
    (hw : ∀ x ∈ w, isBreak x = false) (hd : d.atLineEnd = true)
    (hk : MayTell r.unit s.unit (w :: ws)) :
    ∃ q t, Page.line g p s = .ok q t ∧ t.cursor = d.nextLine ∧ MayTell r.unit t.unit ws ∧
      Takes owner [w] p s q t := by
  rcases isWritten_cases w with ⟨hblank, hspacing⟩ | ⟨hwritten, blanks, x, rest, rfl, hblanks, hx⟩
  · have hskip : s.cursor.skipSpacing = d :=
      Cursor.skipWhile_eq h (List.forall_mem_append.2 ⟨fun x ↦ isSpacing_of_mem_margin, hspacing⟩)
        (Cursor.unspaced_of_atLineEnd hd)
    refine ⟨p, _, Page.line_of_blank (by rw [hskip]; exact hd), by rw [hskip], ?_, hv, rfl, [],
      (List.append_nil _).symm, ?_⟩
    · rwa [MayTell, List.filter_cons_of_neg (by rw [hblank]; decide)] at hk
    · rw [List.filter_cons_of_neg (by rw [hblank]; decide)]
      rfl
  · obtain ⟨htakes, hlearn⟩ := takes_of_written r hv h hwritten hk
    have hstands : s.Written := by
      have hrest : s.cursor.rest = (r.unit.margin 1 ++ blanks) ++ x :: (rest ++ d.rest) := by
        rw [h.1]
        simp
      have hnext := Cursor.rest_past_append _ _ _ hrest
      have hskip : s.cursor.skipSpacing = s.cursor.past (r.unit.margin 1 ++ blanks) :=
        Cursor.skipWhile_eq (Cursor.leads_past hrest)
          (List.forall_mem_append.2 ⟨fun x ↦ isSpacing_of_mem_margin, hblanks⟩)
          (by rw [hnext]; rintro _ ⟨⟩; exact hx)
      rw [ReadState.Written, hskip, Cursor.atLineEnd, hnext]
      exact hw x (by simp)
    obtain ⟨hmargin, htext⟩ := h.split
    obtain ⟨q, t, hq, ⟨hunit, hparser⟩, ⟨line, hline, rfl⟩, hcursor⟩ :=
      (textLine_yields (g := g) (o := p.outline) (decide_eq_true howner) htext hw hd).exists_ok
        (s := s.behind (r.unit.margin 1)) rfl
    have hentries : (p.outline.append owner line).1.entries.toList =
        p.outline.entries.toList ++ [⟨line, owner, .line⟩] := Array.toList_push ..
    refine ⟨_, t, (Page.line_of_takes hstands htakes).trans hq, hcursor, .inl (hunit.trans hlearn),
      rfl, hparser, [line], hentries, ?_⟩
    rw [List.filter_cons_of_pos hwritten, List.map_singleton, hline]
    rfl

/-- The next line stands behind the line break. -/
theorem nextLine_below (r : Remark) (hm : m.rest = r.below (w :: ws) ++ closing) :
    m.atLineEnd = true ∧
      m.nextLine.rest = (r.unit.margin 1 ++ w) ++ (r.below ws ++ closing) := by
  have hrest : m.rest = r.ending.chars ++ ((r.unit.margin 1 ++ w) ++ (r.below ws ++ closing)) := by
    rw [hm, below, List.flatMap_cons, below]
    simp
  constructor
  · obtain ⟨x, xs, hx, hbreak⟩ := r.ending.exists_chars_eq_cons
    rw [Cursor.atLineEnd, hrest, hx]
    exact hbreak
  · rw [Cursor.nextLine, Code.lineBreak_of_margin r.width (hrest.trans (by rw [List.append_assoc]))]
    exact Cursor.rest_past_append _ _ _ hrest

/-- A line ends before the lines below it, and where the template ends. -/
theorem atLineEnd_below (r : Remark) (hclosing : closing = [] ∨ ∃ e : LineEnding, closing = e.chars)
    (hm : m.rest = r.below ws ++ closing) : m.atLineEnd = true := by
  cases ws with
  | nil =>
    obtain rfl : m.rest = closing := hm
    exact (Cursor.ends_of_closing hclosing).1
  | cons w ws => exact (nextLine_below r hm).1

/-- The lines below the comment, up to the end of the template. -/
theorem exists_lines (r : Remark) (hws : ∀ w ∈ ws, ∀ x ∈ w, isBreak x = false)
    (hclosing : closing = [] ∨ ∃ e : LineEnding, closing = e.chars)
    (hv : p.verbatim = some ⟨owner, 0, false⟩) (howner : owner ≤ p.outline.entries.size)
    (hm : m.rest = r.below ws ++ closing) (hs : s.cursor = m.nextLine)
    (hk : MayTell r.unit s.unit ws) (hn : s.cursor.rest.length < n) :
    ∃ q t, Page.lines g n p s = .ok q t ∧ Takes owner ws p s q t := by
  induction ws generalizing m p s n with
  | nil =>
    obtain ⟨n, rfl⟩ := Nat.exists_eq_succ_of_ne_zero (Nat.ne_of_gt (Nat.zero_lt_of_lt hn))
    have hend : s.cursor.rest = [] := by
      obtain rfl : m.rest = closing := hm
      rw [hs]
      exact (Cursor.ends_of_closing hclosing).2
    exact ⟨p, s, Page.lines_at_end hend, .refl hv s⟩
  | cons w ws ih =>
    obtain ⟨hw, hws⟩ := List.forall_mem_cons.1 hws
    obtain ⟨n, rfl⟩ := Nat.exists_eq_succ_of_ne_zero (Nat.ne_of_gt (Nat.zero_lt_of_lt hn))
    obtain ⟨-, hrest⟩ := nextLine_below r hm
    rw [← hs] at hrest
    have hlead := Cursor.leads_past hrest
    have hbehind := Cursor.rest_past_append _ _ _ hrest
    obtain ⟨q, t, hline, hcursor, htell, htakes⟩ := exists_line (g := g) r hv howner hlead hw
      (atLineEnd_below r hclosing hbehind) hk
    obtain ⟨hmoves, hne⟩ : t.cursor.rest.length < n ∧ s.cursor.rest ≠ [] := by
      have hpos := List.length_pos_iff.2 r.margin_ne_nil
      have hlength := hlead.length_rest
      have hnext := (Cursor.leads_nextLine (s.cursor.past (r.unit.margin 1 ++ w))).length_rest
      rw [List.length_append] at hlength
      exact ⟨by rw [hcursor]; omega, List.ne_nil_of_length_pos (by omega)⟩
    obtain ⟨q', u, hlines, hrests⟩ := ih hws htakes.verbatim (Nat.le_trans howner htakes.size_le)
      hbehind hcursor htell hmoves
    refine ⟨q', u, ?_, htakes.cons hrests⟩
    rw [Page.lines_before_end hne, bind_of_ok hline, hlines]

end Below

/-! ### The template -/

section Template

variable {parser : ExpressionParser σ E} {maxDepth : Nat} {ts : List (Token E)} {line : Token E}

/-- The tree of one line and lines under it. -/
theorem finish_of_entries {o : Outline E}
    (h : o.entries.toList = ⟨line, 0, .line⟩ :: ts.map (⟨·, 1, .line⟩)) :
    o.finish.children = [extend line ts] := by
  have hnumbered : o.numbered =
      (⟨line, 0, .line⟩, 1) :: (ts.map (⟨·, 1, .line⟩)).zipIdx 2 := by
    rw [numbered, h, List.zipIdx_cons]
  have hbelow : ∀ x ∈ (ts.map (⟨·, 1, .line⟩ : Token E → Entry E)).zipIdx 2,
      x.1 = ⟨x.1.token, 1, .line⟩ ∧ 2 ≤ x.2 := by
    intro x hx
    obtain ⟨t, -, ht⟩ := List.mem_map.1 (List.fst_mem_of_mem_zipIdx hx)
    exact ⟨by rw [← ht], List.le_snd_of_mem_zipIdx hx⟩
  have hp : ∀ x ∈ o.numbered, (x.1.parent : Nat) < x.2 := by
    rw [hnumbered, List.forall_mem_cons]
    refine ⟨Nat.one_pos, fun x hx ↦ ?_⟩
    rw [(hbelow x hx).1]
    exact (hbelow x hx).2
  have hleaf (id : Nat) (hid : 2 ≤ id) : o.nested id = [] := by
    rw [nested_eq hp, hnumbered, List.map_eq_nil_iff, List.filter_eq_nil_iff, List.forall_mem_cons]
    refine ⟨by simp; omega, fun x hx ↦ ?_⟩
    rw [(hbelow x hx).1]
    simp
    omega
  have hunder : o.nested 1 = ts := by
    have hall : ((ts.map (⟨·, 1, .line⟩ : Token E → Entry E)).zipIdx 2).filter (·.1.parent = 1) =
        (ts.map (⟨·, 1, .line⟩)).zipIdx 2 :=
      List.filter_eq_self.2 fun x hx ↦ by rw [(hbelow x hx).1]; rfl
    have htokens : ((ts.map (⟨·, 1, .line⟩ : Token E → Entry E)).zipIdx 2).map
        (fun x ↦ x.1.close (o.nested x.2)) =
          ((ts.map (⟨·, 1, .line⟩)).zipIdx 2).map (Entry.token ∘ Prod.fst) := by
      refine List.map_congr_left fun x hx ↦ ?_
      rw [hleaf x.2 (hbelow x hx).2, (hbelow x hx).1]
      exact extend_nil _
    rw [nested_eq hp, hnumbered, List.filter_cons_of_neg (by simp), hall, htokens, ← List.map_map,
      List.zipIdx_map_fst, List.map_map]
    exact List.map_id ts
  have hnone : ((ts.map (⟨·, 1, .line⟩ : Token E → Entry E)).zipIdx 2).filter (·.1.parent = 0) = [] :=
    List.filter_eq_nil_iff.2 fun x hx ↦ by rw [(hbelow x hx).1]; simp
  rw [children_finish_eq, nested_eq hp, hnumbered, List.filter_cons_of_pos (by simp), hnone,
    List.map_singleton, hunder]
  rfl

/-- A comment and the lines below it are read to the end of the template, and the parser is left alone. -/
theorem readLines_remark (r : Remark) (parser : ExpressionParser σ E) (hmax : 0 < maxDepth)
    {closing : List Char} (hclosing : closing = [] ∨ ∃ e : LineEnding, closing = e.chars) (s : σ) :
    ∃ page t, readLines parser maxDepth (r.text ++ closing) s = .ok page t ∧ t.parser = s ∧
      page.outline.finish.sketch = .row .root [r.sketch] := by
  let g : Setup σ E := ⟨parser, maxDepth, (r.text ++ closing).length + 1⟩
  let start : ReadState σ := ⟨.start (r.text ++ closing), none, s⟩
  have hrest : start.cursor.rest =
      ('/' :: '/' :: '-' :: r.head) ++ (r.below r.lines ++ closing) := by
    change r.text ++ closing = _
    simp [text]
  have hlead := Cursor.leads_past hrest
  have hbelow := Cursor.rest_past_append _ _ _ hrest
  have hd := atLineEnd_below r hclosing hbelow
  have hskip := Cursor.skipSpacing_of_atLineEnd hd
  obtain ⟨hw, hws⟩ := List.forall_mem_cons.1 r.unbroken
  have hchain : (chain g 0 (.empty maxDepth)).Yields start.cursor (fun a y ↦
      ∃ line : Token E, (line.sketch = .row .line [r.headSketch] ∧ a.2.2 = .verbatim false ∧
        (Outline.empty maxDepth).openLine 0 line = .ok (a.1, a.2.1)) ∧
          y = start.cursor.past ('/' :: '/' :: '-' :: r.head)) fun _ ↦ False := by
    refine chain_yields rfl (checkLevel_empty hmax) (r.markup_yields hlead hd) ?_
    rintro line tail e o id ⟨⟨hline, rfl⟩, rfl⟩ ho
    exact .pure ⟨line, ⟨hline, rfl, ho⟩, rfl⟩
  have hcontent := content_yields hchain fun a y hy ↦ by
    obtain ⟨-, -, rfl⟩ := hy
    rw [hskip]
    exact hd
  obtain ⟨p, t, hpage, ⟨hunit, hparser⟩, owner, tail, d, ⟨line, ⟨hline, rfl, ho⟩, rfl⟩, hv, hcursor⟩ :=
    hcontent.exists_ok (s := start) rfl
  obtain ⟨-, rfl, hopened⟩ := openLine_eq_ok ho
  have hentries : p.outline.entries.toList = [⟨line, 0, .line⟩] :=
    congrArg (fun o ↦ o.entries.toList) hopened
  have hsize : p.outline.entries.size = 1 := by rw [← Array.length_toList, hentries]; rfl
  have hstarts : StartsLine (r.text ++ closing) := ⟨'/', _, rfl, rfl⟩
  have hfirst : Page.line g (.empty maxDepth) start = .ok p t :=
    (line_eq_content hstarts rfl rfl hmax).trans hpage
  have hrounds : t.cursor.rest.length < (r.text ++ closing).length := by
    have hlength := hlead.length_rest
    have hnext := (Cursor.leads_nextLine (start.cursor.past ('/' :: '/' :: '-' :: r.head))).length_rest
    rw [List.length_cons] at hlength
    change (r.text ++ closing).length = _ at hlength
    rw [hcursor, hskip]
    omega
  obtain ⟨q, u, hlines, htakes⟩ := r.exists_lines (g := g) hws hclosing hv (Nat.le_of_eq hsize.symm)
    hbelow (hcursor.trans (by rw [hskip])) (.inr ⟨hunit, r.unindented⟩) hrounds
  obtain ⟨ts, hts, hsketches⟩ := htakes.lines
  rw [hentries] at hts
  refine ⟨q, u, ?_, htakes.parser.trans hparser, ?_⟩
  · rw [readLines, lines_before_end (List.cons_ne_nil _ _), bind_of_ok hfirst]
    exact hlines
  · rw [sketch_finish, finish_of_entries hts, List.map_singleton, Tag.sketch_extend, hline, hsketches]
    rfl

/-- A comment swallows the lines below it, whatever they may look like: each of those on which there is
something is one piece of text, and the parser is not consulted. -/
theorem lex_remark (parser : ExpressionParser σ E) (hmax : 0 < maxDepth) (r : Remark)
    (closing : Option LineEnding) (s : σ) :
    ∃ root, lex parser maxDepth (r.text ++ closing.elim [] LineEnding.chars) s = .ok root ∧
      root.sketch = .row .root [r.sketch] ∧
      consultations parser maxDepth (r.text ++ closing.elim [] LineEnding.chars) s = [] := by
  have hclosing : closing.elim [] LineEnding.chars = [] ∨
      ∃ e : LineEnding, closing.elim [] LineEnding.chars = e.chars := by
    cases closing with
    | none => exact .inl rfl
    | some e => exact .inr ⟨e, rfl⟩
  obtain ⟨page, t, hlines, -, hsketch⟩ := r.readLines_remark parser hmax hclosing s
  obtain ⟨page', u, hrecorded, hparser, -⟩ :=
    r.readLines_remark (ExpressionParser.recorded parser) hmax hclosing (s, [])
  refine ⟨_, lex_eq_ok.2 ⟨page, t, hlines, rfl⟩, hsketch, ?_⟩
  rw [consultations, readTemplate_eq_ok.2 ⟨page', hrecorded, rfl⟩, endState, ReadState.calls, hparser]
  rfl

/-- Below the comment stand a blank line, brackets that do not close, deeper spacing and a quote. -/
theorem lex_remark_garbage : 0 < 1 ∧ ∃ root,
    lex loose 1 "//- x \n  \n  (a\n    #[b\n  = \"\n".toList () = .ok root ∧
      root.sketch = .row .root [.row .line [⟨.lineComment, "//-", none, [.leaf .plainText [' ', 'x']]⟩,
        lineSketch ['(', 'a'], lineSketch [' ', ' ', '#', '[', 'b'], lineSketch ['=', ' ', '"']]] := by
  let r : Remark := ⟨[' ', 'x', ' '], .lf, .spaces 2, Nat.two_pos,
    [[], ['(', 'a'], [' ', ' ', '#', '[', 'b'], ['=', ' ', '"']],
    by simp [isBreak], by simp [isWritten, isSpacing]⟩
  obtain ⟨root, hlex, hsketch, -⟩ := lex_remark loose Nat.one_pos r (some .lf) ()
  have htext : r.text ++ ['\n'] = "//- x \n  \n  (a\n    #[b\n  = \"\n".toList := by decide +kernel
  exact ⟨Nat.one_pos, root, htext ▸ hlex, hsketch⟩

end Template

end Remark

end Pug
