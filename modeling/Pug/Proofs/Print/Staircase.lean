import Pug.Proofs.Layout.Nesting
import Pug.Proofs.Print.Chain

/-!
# Trees that nest as deep as they may

A tree nests deepest if each line of the template is one level deeper than the one before and says as
many lines as there are levels left. Below the last line, for which there is one level, stands a line of
text. This module writes such templates, and reads them line by line: after each one, a path leads down
over all the lines there are.
-/

namespace Pug

open Text Token Reader Outline Tag
open ExpressionParser (loose)

namespace Staircase

/-- A tag, so many of which follow one another, and what the last one ends in. -/
def row (ending : Ending) : Nat → TagLine
  | 0 => .ends ⟨.tag ['a'], []⟩ ending
  | n + 1 => .followed ⟨.tag ['a'], []⟩ (row ending n)

/-- Lines from a level on, each one level deeper and one tag shorter than the one before, and a line of
text. -/
def steps (level : Nat) : Nat → List Char
  | 0 => IndentUnit.tab.margin level ++
      ((row .dotBlock 0).text ++ '\n' :: (IndentUnit.tab.margin (level + 1) ++ ['x']))
  | n + 1 => IndentUnit.tab.margin level ++ ((row .bare (n + 1)).text ++ '\n' :: steps (level + 1) n)

section Row

variable {ending : Ending}

theorem length_row (ending : Ending) (n : Nat) : (row ending n).length = n + 1 := by
  induction n with
  | zero => rfl
  | succ n ih => rw [row, TagLine.length, ih]

theorem tail_row (ending : Ending) (n : Nat) : (row ending n).tail = ending.tail := by
  induction n with
  | zero => rfl
  | succ n ih => rw [row, TagLine.tail, ih]

theorem writable_row (h : ending.writable = true) (n : Nat) : (row ending n).writable = true := by
  have hfront : (⟨.tag ['a'], []⟩ : Front).writable = true := by decide
  induction n with
  | zero => exact Bool.and_eq_true_iff.2 ⟨hfront, h⟩
  | succ n ih => exact Bool.and_eq_true_iff.2 ⟨hfront, ih⟩

end Row

theorem width_tab : 0 < IndentUnit.tab.width := Nat.one_pos

variable {g : Setup Unit Shape} {o : Outline Shape} {level n k : Nat} {s : ReadState Unit}

/-- A line at a level may be read next, and so many lines stand above it. -/
structure Landing (g : Setup Unit Shape) (level n : Nat) (o : Outline Shape) (s : ReadState Unit) :
    Prop where
  covers : g.Covers s.cursor
  ordered : o.Ordered
  maxDepth : o.maxDepth = g.maxDepth
  length : o.openLines.length = level
  known : MayKnow s.unit .tab level
  path : LinePath o (o.parentAt level) n

namespace Landing

theorem empty (source : List Char) (maxDepth : Nat) :
    Landing ⟨loose, maxDepth, source.length + 1⟩ 0 0 (.empty maxDepth)
      ⟨.start source, none, ()⟩ where
  covers := covers_start maxDepth source
  ordered := .empty maxDepth
  maxDepth := rfl
  length := rfl
  known := .inr ⟨rfl, Nat.zero_le 1⟩
  path := .template

/-- A row of tags leads down as many lines. -/
theorem line (h : Landing g level n o s) {l : TagLine} (hl : l.writable = true)
    (hmax : level + l.length ≤ g.maxDepth) {others : List Char}
    (hrest : s.cursor.rest = IndentUnit.tab.margin level ++ (l.text ++ '\n' :: others)) :
    ∃ o' t, Page.line g ⟨o, none⟩ s =
        .ok ⟨o', Page.below (o'.parentAt (level + 1)) level l.tail⟩ t ∧
      t.cursor.rest = others ∧ Landing g (level + 1) (n + l.length) o' t := by
  obtain ⟨x, rest, hx, hseparator⟩ := TagLine.text_eq_cons hl
  have hfirst : s.cursor.rest = IndentUnit.tab.margin level ++ x :: (rest ++ '\n' :: others) := by
    rw [hrest, hx]
    rfl
  have hcheck : o.checkLevel level = none := by
    have hpos := l.length_pos
    have hle := h.maxDepth
    rw [checkLevel, if_neg (by omega), if_neg (by rw [h.length]; exact Nat.lt_irrefl level)]
  obtain ⟨known, hline, hknown⟩ :=
    exists_line_eq_content (g := g) width_tab hfirst hseparator h.known hcheck
  obtain ⟨c, hc⟩ : ∃ c, s.cursor.past (IndentUnit.tab.margin level) = c := ⟨_, rfl⟩
  obtain ⟨d, hd⟩ : ∃ d, c.past l.text = d := ⟨_, rfl⟩
  have hmargin := hc ▸ Cursor.leads_past hrest
  have hbehind := hc ▸ Cursor.rest_past_append _ _ _ hrest
  have hrow := hd ▸ Cursor.leads_past hbehind
  have hbreak := hd ▸ Cursor.rest_past_append _ _ _ hbehind
  have hend : d.atLineEnd = true := by
    rw [Cursor.atLineEnd, hbreak]
    rfl
  have hskip := Cursor.skipSpacing_of_atLineEnd hend
  have hhas : o.has (o.parentAt level) = true := decide_eq_true (h.ordered.parentAt_le level)
  have hchain := opened_yields (B := fun _ ↦ False) hl hmax hhas hcheck (h.covers.leads hmargin) hrow
    hend
  have hcontent := Page.content_yields hchain fun r y hy ↦ by rw [hy.1, hskip]; exact hend
  obtain ⟨q, t, hpage, ⟨hunit, -⟩, owner, tail, e, ⟨he, rfl, line, lines, o₁, id, ho, hfollow, hlength,
    -⟩, hverbatim, hcursor⟩ := hcontent.exists_ok (s := ⟨c, known, s.parser⟩) rfl
  obtain ⟨hentries, hopen, hdepth⟩ := follow_openLine ho lines
  have howner := Page.snd_follow_openLine ho lines
  dsimp only at hfollow
  rw [← hfollow] at hentries hopen hdepth howner
  have htake : o.openLines.take level = o.openLines := List.take_of_length_le (Nat.le_of_eq h.length)
  have hlast : q.outline.parentAt (level + 1) = owner := by
    rw [Outline.parentAt, hopen, htake, ← h.length, List.getD_eq_getElem?_getD,
      List.getElem?_concat_length]
    exact howner.symm
  have hothers : t.cursor.rest = others := by
    have hlf : d.lineBreak = ['\n'] :=
      Cursor.lineBreak_eq (e := .lf) hbreak fun h ↦ by contradiction
    rw [hcursor, he, hskip, Cursor.nextLine, hlf]
    exact Cursor.rest_past_append _ _ _ hbreak
  refine ⟨q.outline, t, ?_, hothers, ?_⟩
  · rw [hline, hc, hpage, hlast, ← hverbatim]
  · have hpath : LinePath q.outline (o.parentAt level) n :=
      h.path.mono (numbered_eq hentries ▸ List.subset_append_left ..)
    refine ⟨⟨h.covers.parser, ?_⟩, h.ordered.chain hentries hopen, hdepth.trans h.maxDepth, ?_,
      hunit ▸ hknown _ (Nat.le_refl _), ?_⟩
    · have hlonger := congrArg List.length hrest
      have hrounds := h.covers.rounds
      simp only [List.length_append, List.length_cons] at hlonger
      rw [hothers]
      omega
    · rw [hopen, htake, List.length_append, h.length]
      rfl
    · have hlines := hpath.along (numbered_eq hentries ▸ List.subset_append_right ..)
      rw [hlast, show owner = _ from howner, ← hlength, Nat.add_comm lines.length, ← Nat.add_assoc]
      exact hlines

/-- A line of text is added under the line that makes it text. -/
theorem textLine_yields (level : Nat) {c : Cursor} {owner : LineId} (hg : g.Covers c) (hc : c.rest = ['x'])
    (hhas : o.has owner = true) : (Page.textLine g o ⟨owner, level, true⟩).Yields c
      (fun q y ↦ y.rest = [] ∧ ∃ line, q.outline = (o.append owner line).1) fun _ ↦ False := by
  have htext : c.rest = ['x'] ++ [] := hc
  have hlead := Cursor.leads_past htext
  have hnil := Cursor.rest_past_append _ _ _ htext
  have hend := Cursor.atRunEnd_of_atLineEnd (Cursor.atLineEnd_of_nil hnil)
  have hopens (cs : List Char) (hcs : cs <:+ ['x']) : TextRun.opens cs = false := by
    rcases List.suffix_cons_iff.1 hcs with rfl | hcs
    · rfl
    · rw [List.suffix_nil.1 hcs]
      rfl
  have hpieces : (gather (TextRun.piece g (inlineTag g g.maxDepth) false) g.rounds).Yields c
      (fun r y ↦ r.1.map Token.sketch = [.leaf .plainText ['x']] ∧ y = c.past ['x']) fun _ ↦ False :=
    TextRun.plainText_yields (List.cons_ne_nil _ _) (List.forall_mem_singleton.2 rfl) hopens hlead hend
      hg.rounds
  have hrun := TextRun.run_yields
    (P := fun ts ↦ ts.map Token.sketch = [.leaf .plainText ['x']]) hlead hpieces
  refine .bind (M := fun _ y ↦ y = c.past ['x']) ?_ ?_
  · refine .here (.bind hrun ?_)
    rintro run _ ⟨-, -, rfl⟩ s hs
    exact ensures_lineFrom (hs.symm ▸ hlead) ⟨rfl, hs⟩
  · rintro line _ rfl
    refine .here (.moveTo (.bind (M := fun _ y ↦ y = (c.past ['x']).nextLine) ?_ ?_))
    · rw [Page.expectLine, if_pos hhas]
      exact .pure rfl
    · rintro ⟨⟩ _ rfl
      exact .pure ⟨Cursor.rest_past_nil hnil _, line, rfl⟩

/-- A line of text leads down one more. -/
theorem text (h : Landing g (level + 1) n o s)
    (hrest : s.cursor.rest = IndentUnit.tab.margin (level + 1) ++ ['x']) :
    ∃ q t, Page.line g ⟨o, some ⟨o.parentAt (level + 1), level, true⟩⟩ s = .ok q t ∧
      t.cursor.rest = [] ∧ ∃ id, LinePath q.outline id (n + 1) := by
  have hspacing : s.spacing = IndentUnit.tab.margin (level + 1) := by
    rw [ReadState.spacing, hrest, List.takeWhile_append_of_pos fun x ↦ isSpacing_of_mem_margin]
    exact List.append_nil _
  have hlearn : Indent.learn s.unit s.spacing = some .tab := by
    obtain ⟨known, hind, hknown⟩ := level_margin width_tab h.known
    have hunit := (hknown (level + 2) (Nat.le_refl _)).resolve_right fun hnone ↦ by omega
    rw [hspacing, ← Indent.level_snd, hind]
    exact hunit
  obtain ⟨c, hc⟩ : ∃ c, s.cursor.past (IndentUnit.tab.margin (level + 1)) = c := ⟨_, rfl⟩
  have hmargin := hc ▸ Cursor.leads_past hrest
  have hbehind := hc ▸ Cursor.rest_past_append _ _ _ hrest
  have hwritten : s.Written := by
    have hskip : s.cursor.skipSpacing = c := by
      rw [← hc, ← hspacing]
      rfl
    rw [ReadState.Written, hskip, Cursor.atLineEnd, hbehind]
    rfl
  have htakes := Page.takes_eq (p := ⟨o, some ⟨o.parentAt (level + 1), level, true⟩⟩) width_tab
    (fun u hu ↦ by rw [hlearn] at hu; exact (Option.some.inj hu).symm) rfl
  rw [if_pos (by rw [hspacing])] at htakes
  have hline := Page.line_of_takes (g := g) hwritten htakes
  have hhas : o.has (o.parentAt (level + 1)) = true := decide_eq_true (h.ordered.parentAt_le _)
  obtain ⟨q, t, hpage, -, hnil, line, hq⟩ :=
    (textLine_yields level (h.covers.leads hmargin) hbehind hhas).exists_ok
      (s := s.behind (IndentUnit.tab.margin (level + 1))) hc
  have hmem : (⟨line, o.parentAt (level + 1), .line⟩, o.entries.size + 1) ∈ q.outline.numbered := by
    rw [hq, numbered_append]
    exact List.mem_append_right _ (List.mem_singleton_self _)
  have hpath : LinePath q.outline (o.parentAt (level + 1)) n :=
    h.path.mono (by rw [hq, numbered_append]; exact List.subset_append_left ..)
  exact ⟨q, t, hline.trans hpage, hnil, _, .line hmem hpath⟩

/-- A line that is read leaves less to read. -/
theorem lines_cons {p q : Page Shape} {t : ReadState Unit} {before others : List Char} {rounds : Nat}
    (hrest : s.cursor.rest = before ++ '\n' :: others) (hrounds : s.cursor.rest.length < rounds + 1)
    (hline : Page.line g p s = .ok q t) (hothers : t.cursor.rest = others) :
    t.cursor.rest.length < rounds ∧ Page.lines g (rounds + 1) p s = Page.lines g rounds q t := by
  have hlength := congrArg List.length hrest
  rw [List.length_append, List.length_cons] at hlength
  constructor
  · rw [hothers]
    omega
  · have hne : s.cursor.rest ≠ [] := by
      intro hnil
      rw [hnil] at hlength
      contradiction
    rw [Page.lines_before_end hne, bind_of_ok hline]

/-- The steps lead down as many lines as there is room for. -/
theorem lines (h : Landing g level n o s) (hmax : level + (k + 1) ≤ g.maxDepth)
    (hrest : s.cursor.rest = steps level k) {rounds : Nat}
    (hrounds : s.cursor.rest.length < rounds + 1) :
    ∃ q t, Page.lines g (rounds + 1) ⟨o, none⟩ s = .ok q t ∧
      ∃ id, LinePath q.outline id (n + room (k + 1)) := by
  induction k generalizing level n o s rounds with
  | zero =>
    obtain ⟨o', t, hline, hothers, hlanding⟩ := h.line (writable_row rfl 0) hmax hrest
    obtain ⟨q, u, htext, hnil, id, hpath⟩ := hlanding.text hothers
    obtain ⟨hleft, hlines⟩ :=
      lines_cons (hrest.trans (List.append_assoc ..).symm) hrounds hline hothers
    rw [hothers, List.length_append, List.length_singleton] at hleft
    obtain ⟨rounds, rfl⟩ : ∃ m, rounds = m + 2 := ⟨rounds - 2, by omega⟩
    have hne : t.cursor.rest ≠ [] := by
      rw [hothers]
      exact List.append_ne_nil_of_right_ne_nil _ (List.cons_ne_nil _ _)
    refine ⟨q, u, ?_, id, hpath⟩
    rw [hlines, Page.lines_before_end hne]
    exact (bind_of_ok htext).trans (Page.lines_at_end hnil)
  | succ k ih =>
    have hlength := length_row .bare (k + 1)
    obtain ⟨o', t, hline, hothers, hlanding⟩ := h.line (writable_row rfl (k + 1))
      (by rwa [hlength]) hrest
    rw [tail_row] at hline
    obtain ⟨hleft, hlines⟩ :=
      lines_cons (hrest.trans (List.append_assoc ..).symm) hrounds hline hothers
    obtain ⟨rounds, rfl⟩ : ∃ m, rounds = m + 1 := ⟨rounds - 1, by omega⟩
    obtain ⟨q, u, hrest, id, hpath⟩ := ih hlanding (by omega) hothers hleft
    refine ⟨q, u, hlines.trans hrest, id, ?_⟩
    rw [room, ← Nat.add_assoc, ← hlength]
    exact hpath

end Landing

end Staircase

open Staircase

/-- However long the template is and however expressions are parsed, its tree nests no deeper than the
number of levels that are accepted allows; and there are templates whose lines nest as deep. -/
theorem lex_nesting (maxDepth : Nat) :
    (∀ (σ E : Type) (parser : ExpressionParser σ E) (source : List Char) (x : σ) (root : Token E),
      lex parser maxDepth source x = .ok root →
        root.lineDepth ≤ maxDepth * (maxDepth + 1) / 2 + 1 ∧
        root.depth ≤ 3 * (maxDepth * (maxDepth + 1) / 2 + 1) + 3 * maxDepth + 2) ∧
    (1 ≤ maxDepth → ∃ source root, lex loose maxDepth source () = .ok root ∧
      root.lineDepth = maxDepth * (maxDepth + 1) / 2 + 1) := by
  rw [← room_eq]
  constructor
  · intro σ E parser source x root h
    obtain ⟨page, t, hlines, rfl⟩ := lex_eq_ok.1 h
    have hle := finish_le hlines
    exact ⟨hle.1, by rw [Nat.add_assoc]; exact hle.2⟩
  · intro hpos
    obtain ⟨k, rfl⟩ := Nat.exists_eq_succ_of_ne_zero (Nat.ne_of_gt hpos)
    obtain ⟨q, t, hlines, id, hpath⟩ := (Landing.empty (steps 0 k) (k + 1)).lines (k := k)
      (Nat.le_of_eq (Nat.zero_add _)) rfl (Nat.lt_succ_self _)
    have hread : readLines loose (k + 1) (steps 0 k) () = .ok q t := hlines
    have hroomy := roomy_of_readLines hread
    have hdeep := le_lineDepth_finish hroomy.ordered.outline.parents
      (Page.isBare_of_readLines hread) hpath
    rw [Nat.zero_add] at hdeep
    exact ⟨steps 0 k, q.outline.finish, lex_eq_ok.2 ⟨q, t, hread, rfl⟩,
      Nat.le_antisymm (finish_le hread).1 hdeep⟩

/-- Two levels, of which the first holds two lines and the second one, and text below: four lines under
one another, and no template nests deeper. -/
theorem lex_nesting_two :
    (∃ root, lex loose 2 "a: a\n\ta.\n\t\tx".toList () = .ok root ∧ root.lineDepth = 4 ∧
      root.lineDepth ≤ 2 * (2 + 1) / 2 + 1 ∧ root.depth ≤ 3 * (2 * (2 + 1) / 2 + 1) + 3 * 2 + 2) ∧
    1 ≤ 2 ∧ ∃ source root, lex loose 2 source () = .ok root ∧
      root.lineDepth = 2 * (2 + 1) / 2 + 1 := by
  obtain ⟨root, h, hdepth⟩ := exists_of_any (r := lex loose 2 "a: a\n\ta.\n\t\tx".toList ())
    (p := fun root ↦ root.lineDepth == 4) (by decide +kernel)
  exact ⟨⟨root, h, beq_iff_eq.1 hdepth, (lex_nesting 2).1 Unit Shape loose _ () root h⟩,
    Nat.le_succ 1, (lex_nesting 2).2 (Nat.le_succ 1)⟩

end Pug
