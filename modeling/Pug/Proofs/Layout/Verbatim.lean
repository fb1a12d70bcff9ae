import Pug.Proofs.Grammar.TextOwner
import Pug.Proofs.Grammar.Tree
import Pug.Proofs.Layout.Unit
import Pug.Proofs.Print.Text

/-!
# Blocks of text

A line that owns text has below it the lines of text that follow it in the template, and no others. They
go up to the first line that is indented by less than one unit more than the owner. Two readers decide
on this: one looks for the margin in front of a line, and does not mind what stands behind it, and the
other one tells the level of a line, which must be a whole number of units. A line without the margin
has no level beyond the owner's, so opening it closes the owner.
-/

namespace Pug

open Text Token Reader Outline
open ExpressionParser (loose)

variable {σ E : Type} {g : Setup σ E}

namespace Line

/-- A line of text that stands at a place: a run of text that starts with the spacing there. If it is
read as it is, it is a piece of text up to the end of the line. -/
structure IsText (c : Cursor) (interpolate : Bool) (line : Token E) : Prop where
  kind : line.kind = .line
  start : line.span.start = c.offset
  run : ∃ run : Token E, line.children = [run] ∧ run.kind = .linePlainText ∧ run.IsInner ∧
    (c.rest.takeWhile isSpacing ≠ [] → ∃ piece ∈ run.children.head?, piece.kind = .plainText ∧
      piece.span.start = c.offset ∧ c.rest.takeWhile isSpacing <+: piece.text.toList) ∧
    (interpolate = false → run.children = [.ofText .plainText c c.line])

theorem IsRuled.isBare {line : Token E} (h : IsRuled line) : IsBare line := by
  obtain ⟨payload, hchildren, -, -, hinner⟩ := h.payload
  refine ⟨h.kind, ?_⟩
  rw [hchildren]
  exact List.forall_mem_singleton.2 hinner

end Line

section Text

variable {inlineTag : Reader σ (Token E)} {s t : ReadState σ} {x : Char} {rest : List Char}

theorem isPlain_of_isSpacing {inside : Bool} (h : isSpacing x = true) :
    TextRun.isPlain inside x = true := by
  simp only [isSpacing, Bool.or_eq_true, beq_iff_eq] at h
  rcases h with rfl | rfl <;> cases inside <;> rfl

theorem not_opens_of_isSpacing (h : isSpacing x = true) : TextRun.opens (x :: rest) = false := by
  simp only [isSpacing, Bool.or_eq_true, beq_iff_eq] at h
  rcases h with rfl | rfl <;> rfl

/-- Spacing is literal text. -/
theorem spacing_prefix_literal (cs : List Char) :
    cs.takeWhile isSpacing <+: TextRun.literal false cs := by
  induction cs with
  | nil => exact List.nil_prefix
  | cons x rest ih =>
    by_cases h : isSpacing x = true
    · rw [List.takeWhile_cons_of_pos h, TextRun.literal_cons (isPlain_of_isSpacing h)
        (not_opens_of_isSpacing h)]
      exact (List.prefix_cons_inj x).2 ih
    · rw [List.takeWhile_cons_of_neg h]
      exact List.nil_prefix

/-- Spacing does not end a line. -/
theorem spacing_prefix_line (c : Cursor) : c.rest.takeWhile isSpacing <+: c.line := by
  unfold Cursor.line firstLine
  induction c.rest with
  | nil => exact List.nil_prefix
  | cons x rest ih =>
    by_cases h : isSpacing x = true
    · rw [List.takeWhile_cons_of_pos h, List.takeWhile_cons_of_pos (by
        rw [isBreak_of_isSpacing h, Bool.not_false])]
      exact (List.prefix_cons_inj x).2 ih
    · rw [List.takeWhile_cons_of_neg h]
      exact List.nil_prefix

theorem exists_spacing_of_ne_nil {cs : List Char} (h : cs.takeWhile isSpacing ≠ []) :
    ∃ x rest, cs = x :: rest ∧ isSpacing x = true := by
  cases cs with
  | nil => exact absurd rfl h
  | cons x rest =>
    by_contra hx
    exact h (List.takeWhile_cons_of_neg fun hs ↦ hx ⟨x, rest, rfl, hs⟩)

/-- A run of text that starts with spacing starts with a piece of literal text. -/
theorem exists_piece_of_pieces {ts : List (Token E)} (hx : s.cursor.rest = x :: rest)
    (h : isSpacing x = true) (hpieces : TextRun.pieces g inlineTag false s = .ok ts t) :
    ∃ piece ∈ ts.head?, piece = .ofText .plainText s.cursor (TextRun.literal false s.cursor.rest) := by
  have hfront : TextRun.Front.ofRest false s.cursor.rest =
      .literal 0 (TextRun.literal false s.cursor.rest) := by
    rw [hx]
    exact TextRun.front_plain (isPlain_of_isSpacing h) (not_opens_of_isSpacing h)
  have hbump : bump 0 s = .ok () s := by
    have hnone : firstBytes 0 s.cursor.rest = [] := firstBytes_append [] s.cursor.rest
    rw [bump, bind_of_ok (here_eq s), hnone]
    rfl
  have hpiece : TextRun.piece g inlineTag false s =
      .ok (.one (.ofText .plainText s.cursor (TextRun.literal false s.cursor.rest)))
        { s with cursor := s.cursor.past (TextRun.literal false s.cursor.rest) } := by
    rw [TextRun.piece, bind_of_ok (here_eq s), hfront]
    exact (bind_of_ok hbump).trans (bind_of_ok (here_eq s))
  obtain ⟨r, t', hgather, hpieces⟩ := bind_eq_ok.1 hpieces
  cases hpieces
  cases hn : g.rounds with
  | zero =>
    rw [hn] at hgather
    contradiction
  | succ n =>
    rw [hn, gather, bind_of_ok hpiece] at hgather
    obtain ⟨r', u, -, hgather⟩ := bind_eq_ok.1 hgather
    cases hgather
    exact ⟨_, rfl, rfl⟩

end Text

namespace Line

variable {s t : ReadState σ} {line : Token E} {interpolate : Bool}

/-- A line is read from the place where what it says is read from. -/
theorem lineFrom_start {c : Cursor} {run : Token E} (h : lineFrom c run s = .ok line t) :
    line.kind = .line ∧ line.span.start = c.offset ∧ line.children = [run] := by
  obtain ⟨d, u, -, h⟩ := bind_eq_ok.1 h
  obtain ⟨text, u, -, h⟩ := bind_eq_ok.1 h
  cases h
  exact ⟨rfl, rfl, rfl⟩

theorem text_ofText {c : Cursor} {kind : Kind} {text : List Char} :
    (ofText kind c text : Token E).text.toList = text :=
  String.toList_ofList

theorem tokenFrom_of_ok {c : Cursor} {kind : Kind} {a : Token E} (h : tokenFrom c kind s = .ok a t) :
    t = s ∧ a = .ofText kind c (c.upTo s.cursor) := by
  obtain ⟨d, m, hhere, h⟩ := bind_eq_ok.1 h
  cases hhere
  obtain ⟨text, m, htext, h⟩ := bind_eq_ok.1 h
  cases h
  unfold textBetween at htext
  split at htext
  · cases htext
    exact ⟨rfl, rfl⟩
  · contradiction

/-- Text that is read as it is goes up to the end of the line. -/
theorem children_of_bareText {run : Token E} (h : bareText s = .ok run t) :
    run.children = [.ofText .plainText s.cursor s.cursor.line] := by
  have hline : s.cursor.upTo s.cursor.lineEnd = s.cursor.line := by
    rw [Cursor.lineEnd, Cursor.past, Cursor.upTo_skip]
    exact (List.prefix_iff_eq_take.1 (List.takeWhile_prefix _)).symm
  obtain ⟨start, m, hhere, h⟩ := bind_eq_ok.1 h
  cases hhere
  obtain ⟨⟨⟩, m, hmove, h⟩ := bind_eq_ok.1 h
  cases hmove
  obtain ⟨run', m, hrun, h⟩ := bind_eq_ok.1 h
  obtain ⟨piece, m', hpiece, h⟩ := bind_eq_ok.1 h
  cases h
  obtain ⟨rfl, -⟩ := tokenFrom_of_ok hrun
  obtain ⟨-, rfl⟩ := tokenFrom_of_ok hpiece
  exact congrArg (fun text ↦ [ofText .plainText s.cursor text]) hline

/-- What a line of text is read into. -/
theorem isText_of_verbatim (h : Line.verbatim g interpolate s = .ok line t) :
    IsText s.cursor interpolate line := by
  obtain ⟨start, m, hhere, h⟩ := bind_eq_ok.1 h
  cases hhere
  cases interpolate with
  | true =>
    obtain ⟨run, m, hrun, h⟩ := bind_eq_ok.1 h
    obtain ⟨hkind, hstart, hchildren⟩ := lineFrom_start h
    have hruled := onLine_run s run m hrun
    refine ⟨hkind, hstart, run, hchildren, hruled.kind, hruled.inner, fun hdeeper ↦ ?_, nofun⟩
    obtain ⟨start, m', hhere, hrun⟩ := bind_eq_ok.1 hrun
    cases hhere
    obtain ⟨pieces, m', hpieces, hrun⟩ := bind_eq_ok.1 hrun
    obtain ⟨run', m'', -, hrun⟩ := bind_eq_ok.1 hrun
    cases hrun
    obtain ⟨x, rest, hx, hspacing⟩ := exists_spacing_of_ne_nil hdeeper
    obtain ⟨piece, hpiece, rfl⟩ := exists_piece_of_pieces hx hspacing hpieces
    refine ⟨_, hpiece, rfl, rfl, ?_⟩
    rw [text_ofText]
    exact spacing_prefix_literal s.cursor.rest
  | false =>
    obtain ⟨run, m, hrun, h⟩ := bind_eq_ok.1 h
    obtain ⟨hkind, hstart, hchildren⟩ := lineFrom_start h
    have hruled := bareText_run s run m hrun
    have hpiece := children_of_bareText hrun
    refine ⟨hkind, hstart, run, hchildren, hruled.kind, hruled.inner, fun _ ↦ ?_, fun _ ↦ hpiece⟩
    rw [hpiece]
    refine ⟨_, rfl, rfl, rfl, ?_⟩
    rw [text_ofText]
    exact spacing_prefix_line s.cursor

end Line

namespace Page

variable {unit : IndentUnit} {p q r : Page E} {s t u : ReadState σ}
variable {stops : List (Page E × ReadState σ)}

/-- A line of text of a block: it starts behind the margin of the block's level, and is read from
there. -/
structure IsTextAt (g : Setup σ E) (unit : IndentUnit) (level : Nat) (interpolate : Bool)
    (s : ReadState σ) (line : Token E) : Prop where
  start : line.span.start = s.cursor.offset + level * unit.width
  text : Line.IsText (s.cursor.past (unit.margin level)) interpolate line
  read : ∃ t, Line.verbatim g interpolate (s.behind (unit.margin level)) = .ok line t

/-- The lines that are text of a block: of those on which there is something, the first ones that have
the margin. -/
def block (margin : List Char) (stops : List (Page E × ReadState σ)) : List (Page E × ReadState σ) :=
  (stops.filter fun stop ↦ !stop.2.cursor.skipSpacing.atLineEnd).takeWhile fun stop ↦
    margin.isPrefixOf stop.2.spacing

section Block

variable {margin : List Char}

theorem block_cons_blank (h : s.cursor.skipSpacing.atLineEnd = true) :
    block margin ((p, s) :: stops) = block margin stops := by
  rw [block, List.filter_cons_of_neg (by rw [h]; decide), block]

theorem block_cons_text (h : s.Written) (hmargin : margin <+: s.spacing) :
    block margin ((p, s) :: stops) = (p, s) :: block margin stops := by
  rw [block, List.filter_cons_of_pos (by rw [show s.cursor.skipSpacing.atLineEnd = false from h]; rfl)]
  exact List.takeWhile_cons_of_pos (List.isPrefixOf_iff_prefix.2 hmargin)

theorem block_cons_markup (h : s.Written) (hmargin : ¬margin <+: s.spacing) :
    block margin ((p, s) :: stops) = [] := by
  rw [block, List.filter_cons_of_pos (by rw [show s.cursor.skipSpacing.atLineEnd = false from h]; rfl)]
  exact List.takeWhile_cons_of_neg (mt List.isPrefixOf_iff_prefix.1 hmargin)

end Block

theorem isTextAt_of_verbatim {level : Nat} {interpolate : Bool} {line : Token E}
    (hmargin : unit.margin level <+: s.spacing)
    (h : Line.verbatim g interpolate (s.behind (unit.margin level)) = .ok line t) :
    IsTextAt g unit level interpolate s line := by
  have htext := Line.isText_of_verbatim h
  refine ⟨?_, htext, t, h⟩
  have hfront : s.cursor.rest.take (unit.margin level).length = unit.margin level :=
    (List.prefix_iff_eq_take.1 (hmargin.trans (List.takeWhile_prefix _))).symm
  have hbytes : byteLength (unit.margin level) = level * unit.width := by
    rw [byteLength_of_spacing fun c hc ↦ spacing_of_mem (hmargin.subset hc), IndentUnit.margin,
      List.length_replicate]
  rw [htext.start, ReadState.behind, Cursor.past, Cursor.offset_skip, hfront, hbytes]

/-- What makes a line text is the margin in front of it. -/
theorem takes_eq (hw : 0 < unit.width) (honly : ∀ u ∈ Indent.learn s.unit s.spacing, u = unit)
    {v : Verbatim} (hv : p.verbatim = some v) : p.takes s =
      if unit.margin (v.level + 1) <+: s.spacing then some (v, unit.margin (v.level + 1)) else none := by
  rw [takes, hv, Option.bind_some, Indent.marginOf_eq_ite hw honly]
  split <;> rfl

/-- The owner of a block is the open line of its level, and so of no level further out. -/
theorem Ordered.owner_not_mem_take (hp : p.Ordered) {v : Verbatim} (hv : p.verbatim = some v)
    {level : Nat} (hlevel : level ≤ v.level) : v.owner ∉ p.outline.openLines.take level := by
  obtain ⟨hlast, hlength⟩ := hp.verbatim v hv
  obtain ⟨around, heq⟩ := List.getLast?_eq_some_iff.1 hlast
  have hordered := hp.outline.openLines
  rw [heq, List.length_append, List.length_singleton] at hlength
  rw [heq, List.pairwise_append] at hordered
  have hle : level ≤ around.length := by omega
  rw [heq, List.take_append_of_le_length hle]
  exact fun hmem ↦ Nat.lt_irrefl _
    (hordered.2.2 _ (List.mem_of_mem_take hmem) _ (List.mem_singleton_self _))

/-- A line that is no text of a block closes its owner, and does not lie under it. -/
theorem Opens.closes {level : Nat} {line : Token E} {lines : List (Token E)} {o : Outline E}
    {owner : LineId} {tail : LineTail} (h : Opens g level p.outline line lines o owner tail)
    (hp : p.Ordered) {v : Verbatim} (hv : p.verbatim = some v) (hlevel : level ≤ v.level) :
    v.owner ∉ o.openLines ∧ o.numbered.filter (·.1.parent = v.owner) =
      p.outline.numbered.filter (·.1.parent = v.owner) := by
  obtain ⟨hentries, hopen, -, howner, -⟩ := h.outline
  have hbound := hp.bounds_owner hv
  have htake := hp.owner_not_mem_take hv hlevel
  constructor
  · rw [hopen, List.mem_append, List.mem_singleton]
    rintro (hmem | heq)
    · exact htake hmem
    · have hle : owner ≤ p.outline.entries.size := heq ▸ hbound.2
      rw [howner] at hle
      dsimp only [LineId] at hle
      omega
  · have hnil : ((chainEntries (p.outline.parentAt level) (p.outline.entries.size + 1) line lines).zipIdx
        (p.outline.entries.size + 1)).filter (·.1.parent = v.owner) = [] := by
      refine List.filter_eq_nil_iff.2 fun x hx hparent ↦ ?_
      obtain ⟨k, -, -, hk, -⟩ := mem_zipIdx_chainEntries hx
      rw [of_decide_eq_true hparent] at hk
      split at hk
      · rcases Outline.Ordered.parentAt_eq_zero_or_mem p.outline level with hzero | hmem
        · exact Nat.ne_of_gt hbound.1 (hk.trans hzero)
        · exact htake (hk ▸ hmem)
      · have hle := hbound.2
        rw [hk] at hle
        dsimp only [LineId] at hle
        omega
    rw [numbered_eq hentries, List.filter_append, hnil, List.append_nil]

/-- The lines below one that makes them text. -/
theorem Course.block_eq (hw : 0 < unit.width) (h : Course g q t stops r u) (hq : q.Ordered)
    (honly : ∀ stop ∈ stops, ∀ u ∈ learned stop.2, u = unit) {v : Verbatim}
    (hv : q.verbatim = some v) :
    ∃ new, r.outline.numbered.filter (·.1.parent = v.owner) =
        q.outline.numbered.filter (·.1.parent = v.owner) ++ new ∧
      List.Forall₂ (fun stop x ↦ IsTextAt g unit (v.level + 1) v.interpolate stop.2 x.1.token ∧
        x.1.attach = .line ∧ r.outline.nested x.2 = [])
        (block (unit.margin (v.level + 1)) stops) new := by
  induction h with
  | done => exact ⟨[], (List.append_nil _).symm, .nil⟩
  | @step p q r s t u stops hline hrest ih =>
    have hstep := step_of_line hline
    have hordered := hstep.ordered hq
    obtain ⟨added, hadded, -⟩ := hstep.adds hq
    rw [List.forall_mem_cons] at honly
    have ih := ih hordered honly.2
    cases hstep with
    | blank hblank =>
      rw [block_cons_blank hblank]
      exact ih hv
    | @text v' margin line t hwritten htakes hverbatim =>
      have hlearned := honly.1
      rw [learned_of_written hwritten] at hlearned
      rw [takes_eq hw hlearned hv] at htakes
      split at htakes
      · rename_i hmargin
        obtain ⟨rfl, rfl⟩ := Prod.ext_iff.1 (Option.some.inj htakes)
        obtain ⟨new, hfilter, hnew⟩ := ih rfl
        rw [numbered_append, List.filter_append, List.append_assoc] at hfilter
        refine ⟨_, hfilter, ?_⟩
        rw [block_cons_text hwritten hmargin, List.filter_cons_of_pos (by simp)]
        refine .cons ⟨isTextAt_of_verbatim hmargin hverbatim, rfl, ?_⟩ hnew
        refine hrest.nested_of_closed hordered (Nat.succ_pos _) ?_ ?_ ?_
        · exact Nat.le_of_eq (size_add ..).symm
        · intro hmem
          exact Nat.not_succ_le_self _ (hq.outline.bounds _ hmem).2
        · rw [numbered_append, List.forall_mem_append, List.forall_mem_singleton]
          have howner := (hq.bounds_owner hv).2
          refine ⟨fun x hx ↦ ?_, Nat.ne_of_lt (Nat.lt_succ_of_le howner)⟩
          have hparent := hq.outline.parents x hx
          have hnumber := le_of_mem_numbered hx
          exact Nat.ne_of_lt (Nat.lt_succ_of_le (Nat.le_trans (Nat.le_of_lt hparent) hnumber))
      · contradiction
    | @markup level line lines o owner tail t hwritten htakes hlevel hopens =>
      have hlearned := honly.1
      rw [learned_of_written hwritten] at hlearned
      rw [takes_eq hw hlearned hv] at htakes
      split at htakes
      · contradiction
      · rename_i hmargin
        refine ⟨[], ?_, by rw [block_cons_markup hwritten hmargin]; exact .nil⟩
        have hle : level ≤ v.level := by
          rw [Indent.level_eq_ok_iff hw hlearned] at hlevel
          rw [hlevel, IndentUnit.margin_prefix_margin hw] at hmargin
          omega
        obtain ⟨hclosed, hfilter⟩ := hopens.closes hq hv hle
        have hbound := hq.bounds_owner hv
        rw [hrest.filter_of_closed hordered hbound.1
          (Nat.le_trans hbound.2 (size_le_of_numbered hadded)) hclosed, hfilter, List.append_nil]

end Page

section Owner

open Page

variable {ts : List (Token E)}

theorem endsInDot_of_lines {parts : List (Token E)} (hts : ∀ t ∈ ts, t.kind = .line)
    (h : endsInDot (parts ++ ts) = true) : endsInDot parts = true := by
  cases ts with
  | nil => rwa [List.append_nil] at h
  | cons t ts =>
    rw [endsInDot_append (List.cons_ne_nil t ts), endsInDot, Option.any_eq_true] at h
    obtain ⟨last, hlast, hdot⟩ := h
    rw [beq_iff_eq, hts last (List.mem_of_getLast? hlast)] at hdot
    contradiction

theorem makesText_of_extend {payload : Token E} (hts : ∀ t ∈ ts, t.kind = .line)
    (h : (extend payload ts).makesText = true) : payload.makesText = true := by
  obtain ⟨kind, text, span, expr, children⟩ := payload
  cases kind <;> try exact h
  case lineData =>
    cases children with
    | cons => exact h
    | nil =>
      -- What is put under an empty wrapper is a line, and so no tag.
      obtain ⟨tag, htag, hdot⟩ := (Option.any_eq_true ..).1 h
      rw [Bool.and_eq_true, beq_iff_eq, hts tag (List.mem_of_mem_head? htag)] at hdot
      exact absurd hdot.1 (by decide)
  case mixinCall => exact endsInDot_of_lines hts h

/-- Lines that are put under what a line says make no text of the lines below it. -/
theorem makesText_of_extendPayload {payload : Token E} (hts : ∀ t ∈ ts, t.kind = .line)
    (h : (extendPayload payload ts).makesText = true) : payload.makesText = true := by
  unfold extendPayload at h
  split at h
  · rename_i tag others hkind hchildren
    unfold makesText at h ⊢
    dsimp only at h
    rw [hkind] at h ⊢
    dsimp only [List.head?_cons, Option.any_some] at h ⊢
    rw [hchildren]
    dsimp only [List.head?_cons, Option.any_some]
    rw [Bool.and_eq_true] at h ⊢
    exact ⟨h.1, endsInDot_of_lines hts h.2⟩
  · exact makesText_of_extend hts h

theorem ownsText_of_close {e : Entry E} (hts : ∀ t ∈ ts, t.kind = .line)
    (h : (e.close ts).ownsText = true) : e.token.ownsText = true := by
  unfold Entry.close at h
  split at h
  · rename_i payload others _ hchildren
    unfold ownsText at h ⊢
    rw [hchildren]
    exact makesText_of_extendPayload hts h
  · unfold ownsText extend at h
    unfold ownsText
    cases hchildren : e.token.children with
    | cons payload others =>
      rw [hchildren] at h
      exact h
    | nil =>
      rw [hchildren] at h
      obtain ⟨t, ht, hmakes⟩ := (Option.any_eq_true ..).1 h
      rw [makesText_of_kind (by rw [hts t (List.mem_of_mem_head? ht)]; rfl)] at hmakes
      contradiction

/-- A line of an outline is read as a line of the template, or as text. -/
theorem isRuled_of_course {p r : Page E} {s u : ReadState σ} {stops : List (Page E × ReadState σ)}
    (h : Course g p s stops r u) (hruled : ∀ x ∈ p.outline.numbered, Line.IsRuled x.1.token) :
    ∀ x ∈ r.outline.numbered, Line.IsRuled x.1.token :=
  h.forall_token (fun level ↦ (Line.markup_ruled level).mono fun _ hr ↦ hr.1) Line.verbatim_ruled
    hruled

/-- A line that makes the lines below it text is the last of a chain, which asks for text. -/
theorem owner_of_opens {level : Nat} {o o' : Outline E} {line : Token E} {lines : List (Token E)}
    {owner : LineId} {tail : LineTail} (h : Opens g level o line lines o' owner tail)
    {x : Entry E × Nat} (hx : x ∈ o'.numbered) (hnew : o.entries.size < x.2)
    (howns : x.1.token.ownsText = true) :
    x.2 = owner ∧ x.1.attach = .line ∧ (line :: lines).getLast? = some x.1.token ∧
      ∃ interpolate, tail = .verbatim interpolate ∧
        ((∃ payload ∈ x.1.token.children, payload.kind = .lineComment) → interpolate = false) := by
  obtain ⟨hentries, -, -, howner, -⟩ := h.outline
  rw [numbered_eq hentries, List.mem_append] at hx
  rcases hx with hold | hx
  · exact absurd hnew (Nat.not_lt_of_ge (le_of_mem_numbered hold))
  · obtain ⟨k, htoken, hnumber, -, hattach⟩ := mem_zipIdx_chainEntries hx
    obtain ⟨tail', ⟨s, t, hmade⟩, htail⟩ := h.strung.made htoken
    obtain ⟨interpolate, htext, hcomment⟩ := Line.markup_owns _ _ _ _ hmade howns
    rcases htail with hfollow | ⟨rfl, rfl⟩
    · rw [show tail' = .verbatim interpolate from htext] at hfollow
      contradiction
    · refine ⟨hnumber.trans howner.symm, ?_, ?_, interpolate, htext, hcomment⟩
      · rw [hattach, if_neg (Nat.lt_irrefl _)]
      · rw [List.getLast?_eq_getElem?]
        exact htoken

/-- A line of text makes no text of the lines below it. -/
theorem Line.IsText.not_ownsText {c : Cursor} {interpolate : Bool} {line : Token E}
    (h : Line.IsText c interpolate line) : line.ownsText = false := by
  obtain ⟨run, hchildren, hkind, -⟩ := h.run
  rw [ownsText, hchildren]
  exact makesText_of_kind (by rw [hkind]; rfl)

theorem Line.IsText.isBare {c : Cursor} {interpolate : Bool} {line : Token E}
    (h : Line.IsText c interpolate line) : Line.IsBare line := by
  obtain ⟨run, hchildren, -, hinner, -⟩ := h.run
  refine ⟨h.kind, ?_⟩
  rw [hchildren]
  exact List.forall_mem_singleton.2 hinner

/-- What stands below the owner of a block, when all has been read. -/
theorem nested_of_block {unit : IndentUnit} {q r : Page E} {t u : ReadState σ}
    {stops : List (Page E × ReadState σ)} (hw : 0 < unit.width) (h : Course g q t stops r u)
    (hq : q.Ordered) (honly : ∀ stop ∈ stops, ∀ u ∈ learned stop.2, u = unit) {v : Verbatim}
    (hv : q.verbatim = some v) (hnone : ∀ x ∈ q.outline.numbered, x.1.parent ≠ v.owner) :
    List.Forall₂ (fun stop line ↦ IsTextAt g unit (v.level + 1) v.interpolate stop.2 line)
      (block (unit.margin (v.level + 1)) stops) (r.outline.nested v.owner) := by
  obtain ⟨new, hfilter, hnew⟩ := h.block_eq hw hq honly hv
  have hnil : q.outline.numbered.filter (·.1.parent = v.owner) = [] :=
    List.filter_eq_nil_iff.2 fun x hx ↦ by simpa using hnone x hx
  rw [hnil, List.nil_append] at hfilter
  rw [nested_eq (h.ordered hq).outline.parents, hfilter, List.forall₂_map_right_iff]
  refine hnew.imp ?_
  rintro stop ⟨⟨token, parent, attach⟩, number⟩ ⟨htext, rfl, hnested⟩
  have hclose : Entry.close ⟨token, parent, .line⟩ [] = token := extend_nil token
  rw [hnested, hclose]
  exact htext

/-- Where a line that makes the lines below it text has been read, and what stands below it. -/
theorem exists_block_of_ownsText {unit : IndentUnit} {p r : Page E} {s u : ReadState σ}
    {stops : List (Page E × ReadState σ)} (hw : 0 < unit.width) (h : Course g p s stops r u)
    (hp : p.Ordered) (honly : ∀ stop ∈ stops, ∀ u ∈ learned stop.2, u = unit) {x : Entry E × Nat}
    (hx : x ∈ r.outline.numbered) (hnew : x ∉ p.outline.numbered)
    (howns : x.1.token.ownsText = true) :
    ∃ before p' s' after level line lines o interpolate t, stops = before ++ (p', s') :: after ∧
      s'.Written ∧ s'.spacing = unit.margin level ∧
      chain g level p'.outline (s'.behind s'.spacing) = .ok (o, x.2, .verbatim interpolate) t ∧
      Opens g level p'.outline line lines o x.2 (.verbatim interpolate) ∧
      (line :: lines).getLast? = some x.1.token ∧ x.1.attach = .line ∧
      ((∃ payload ∈ x.1.token.children, payload.kind = .lineComment) → interpolate = false) ∧
      List.Forall₂ (fun stop line ↦ IsTextAt g unit (level + 1) interpolate stop.2 line)
        (block (unit.margin (level + 1)) after) (r.outline.nested x.2) := by
  obtain ⟨before, p', s', q, t, after, rfl, hbefore, hline, hafter, hq, hsize⟩ :=
    (h.exists_step hp hx).resolve_left hnew
  have hordered := hbefore.ordered hp
  have hstep := step_of_line hline
  have hq' := hstep.ordered hordered
  rw [List.forall_mem_append, List.forall_mem_cons] at honly
  cases hstep with
  | blank => exact absurd hsize (Nat.not_lt_of_ge (le_of_mem_numbered hq))
  | text _ htakes hverbatim =>
    rw [numbered_append, List.mem_append, List.mem_singleton] at hq
    rcases hq with hold | rfl
    · exact absurd hsize (Nat.not_lt_of_ge (le_of_mem_numbered hold))
    · rw [(Line.isText_of_verbatim hverbatim).not_ownsText] at howns
      contradiction
  | @markup level line lines o owner tail t hwritten _ hlevel hopens hchain =>
    obtain ⟨rfl, hattach, hlast, interpolate, rfl, hcomment⟩ :=
      owner_of_opens hopens hq hsize howns
    have hlearned := honly.2.1
    rw [learned_of_written hwritten] at hlearned
    refine ⟨before, p', s', after, level, line, lines, o, interpolate, t, rfl, hwritten,
      (Indent.level_eq_ok_iff hw hlearned).1 hlevel, hchain, hopens, hlast, hattach, hcomment, ?_⟩
    refine nested_of_block (v := ⟨x.2, level, interpolate⟩) hw hafter hq' honly.2.2 rfl ?_
    -- The owner is the last line so far, so nothing lies under it yet.
    intro y hy
    have hlt : (y.1.parent : Nat) < y.2 := hq'.outline.parents y hy
    have hle : y.2 ≤ x.2 := hopens.owner_eq ▸ le_of_mem_numbered hy
    exact Nat.ne_of_lt (Nat.lt_of_lt_of_le hlt hle)

end Owner

section Template

open Page

variable {parser : ExpressionParser σ E} {maxDepth : Nat} {source : List Char} {x : σ} {root : Token E}

/-- A line of a tree that makes the lines below it text is the last that is read from its line of the
template. Of the lines that are reached behind that one and on which there is something, those under the
owner are the first ones that are indented by at least one unit more. Each is one run of text behind that
margin, and below a comment that stays in the template it is one piece of text up to the end of the
line. No other lines stand below the owner. -/
theorem lex_verbatim (h : lex parser maxDepth source x = .ok root) :
    ∃ unit : IndentUnit, 0 < unit.width ∧
      (∀ stop ∈ reached parser maxDepth source x, stop.2.Written →
        ∀ u ∈ Indent.learn stop.2.unit stop.2.spacing, u = unit) ∧
      ∀ owner ∈ root.preorder, owner.kind = .line → owner.ownsText = true →
        ∃ before p s after level line lines o id interpolate t token nested,
          reached parser maxDepth source x = before ++ (p, s) :: after ∧ s.Written ∧
          s.spacing = unit.margin level ∧
          chain ⟨parser, maxDepth, source.length + 1⟩ level p.outline (s.behind s.spacing) =
            .ok (o, id, .verbatim interpolate) t ∧
          Opens ⟨parser, maxDepth, source.length + 1⟩ level p.outline line lines o id
            (.verbatim interpolate) ∧
          (line :: lines).getLast? = some token ∧ owner = extend token nested ∧
          linesAll owner.children = nested ∧
          (∀ payload ∈ owner.payload?, payload.kind = .lineComment → interpolate = false) ∧
          List.Forall₂ (fun stop text ↦
            IsTextAt ⟨parser, maxDepth, source.length + 1⟩ unit (level + 1) interpolate stop.2 text)
            (block (unit.margin (level + 1)) after) nested := by
  unfold lex at h
  split at h
  · rename_i root' t hrun
    cases h
    obtain ⟨page, hlines, rfl⟩ := readTemplate_eq_ok.1 hrun
    have hcourse := course_of_lines hlines
    have hempty := Page.Ordered.empty (E := E) maxDepth
    have hparents := (hcourse.ordered hempty).outline.parents
    have hruled := isRuled_of_course hcourse nofun
    have hbare (x : Entry E × Nat) (hx : x ∈ page.outline.numbered) : Line.IsBare x.1.token :=
      (hruled x hx).isBare
    obtain ⟨unit, hw, hunit⟩ := exists_unit_of_stops (g := ⟨parser, maxDepth, source.length + 1⟩)
      (n := source.length + 1) (p := .empty maxDepth) (s := ⟨.start source, none, x⟩) nofun
    refine ⟨unit, hw, fun stop hstop hwritten ↦ learned_of_written hwritten ▸ hunit stop hstop, ?_⟩
    intro owner howner hkind howns
    have hmem : owner ∈ linesAll page.outline.finish.children := by
      rcases List.mem_cons.1 howner with rfl | hbelow
      · contradiction
      · exact List.mem_filter.2 ⟨hbelow, decide_eq_true hkind⟩
    obtain ⟨y, hy, rfl⟩ := exists_numbered_of_mem_linesAll hparents hbare hmem
    have hlines (t : Token E) (ht : t ∈ page.outline.nested y.2) : t.kind = .line :=
      kind_of_mem_nested hparents (fun x hx ↦ (hruled x hx).kind) ht
    obtain ⟨before, p, s, after, level, line, lines, o, interpolate, t, heq, hwritten, hspacing,
      hchain, hopens, hlast, hattach, hcomment, htext⟩ := exists_block_of_ownsText hw hcourse hempty
        hunit hy (by rintro ⟨⟩) (ownsText_of_close hlines howns)
    have hall : ∀ t ∈ page.outline.nested y.2, Line.IsBare t := by
      intro t ht
      obtain ⟨i, hi, rfl⟩ := List.getElem_of_mem ht
      exact (htext.get (htext.length_eq ▸ hi) hi).text.isBare
    have hclose : y.1.close (page.outline.nested y.2) =
        extend y.1.token (page.outline.nested y.2) := by
      unfold Entry.close
      rw [hattach]
    refine ⟨before, p, s, after, level, line, lines, o, y.2, interpolate, t, y.1.token,
      page.outline.nested y.2, heq, hwritten, hspacing, hchain, hopens, hlast, hclose, ?_, ?_, htext⟩
    · rw [linesAll_children_close (hbare y hy).inner, linesAll_of_isBare hall]
    · obtain ⟨payload', hchildren, -⟩ := (hruled y hy).payload
      intro payload hpayload hk
      rw [payload?, if_pos hkind, hclose, extend, hchildren] at hpayload
      obtain rfl : payload' = payload := Option.some.inj hpayload
      exact hcomment ⟨payload', by rw [hchildren]; exact List.mem_singleton_self _, hk⟩
  · contradiction

/-- Below a comment that stays in the template, deeper indentation and what looks like output are
text. -/
theorem lex_verbatim_comment : ∃ root owner unit level, ∃ after : List (Page Shape × ReadState Unit),
    lex loose 32 "//- c\n  a\n    #\x7bb\nq".toList () = .ok root ∧ owner ∈ root.preorder ∧
      (linesAll owner.children).map (·.span.start) = [8, 12] ∧
      List.Forall₂ (fun stop text ↦ IsTextAt ⟨loose, 32, 20⟩ unit (level + 1) false stop.2 text)
        (block (unit.margin (level + 1)) after) (linesAll owner.children) := by
  obtain ⟨root, h, howner⟩ := exists_of_any (r := lex loose 32 "//- c\n  a\n    #\x7bb\nq".toList ())
    (p := fun root ↦ root.preorder.any fun t ↦ t.kind == .line && t.ownsText &&
      (linesAll t.children).map (·.span.start) == [8, 12] &&
        t.payload?.any fun payload ↦ payload.kind == .lineComment) (by decide +kernel)
  simp only [List.any_eq_true, Option.any_eq_true, Bool.and_eq_true, beq_iff_eq] at howner
  obtain ⟨owner, hmem, ⟨⟨hkind, howns⟩, hstarts⟩, payload, hpayload, hcomment⟩ := howner
  obtain ⟨unit, -, -, hall⟩ := lex_verbatim h
  obtain ⟨-, p, s, after, level, line, lines, o, id, interpolate, t, token, nested, -, -, -, -, -, -,
    -, rfl, hplain, htext⟩ := hall owner hmem hkind howns
  obtain rfl := hplain payload hpayload hcomment
  exact ⟨root, owner, unit, level, after, h, hmem, hstarts, htext⟩

end Template

end Pug
