import Pug.Proofs.Layout.Document
import Pug.Proofs.Lockstep.Concat

/-!
# Templates of one line

A template of one line is that line with those that follow it, or it is blank. No unit of indentation is
learned from it: the line is not indented, or it is at no level, and a block of code finds no lines below
it. So a template of one line can be read behind any other, whatever that one is indented by.
-/

namespace Pug

open Text Token Reader Outline Link

variable {σ E : Type} {g : Setup σ E} {level n : Nat} {s t : ReadState σ} {source : List Char}
variable {o : Outline E} {owner : LineId} {r : Outline E × LineId × LineTail}

/-- In a text without line breaks, the end of the line is the end of the text. -/
theorem Cursor.rest_eq_nil_of_atLineEnd {c : Cursor} (h : ∀ x ∈ c.rest, isBreak x = false)
    (hend : c.atLineEnd = true) : c.rest = [] := by
  cases hrest : c.rest with
  | nil => rfl
  | cons x rest =>
    have hx : isBreak x = true := by
      rw [Cursor.atLineEnd, hrest] at hend
      exact hend
    rw [h x (by rw [hrest]; exact List.mem_cons_self)] at hx
    contradiction

/-- The run is over the template, and no unit has been learned. -/
def Unlearned (E : Type) (source : List Char) (s : ReadState σ) : Prop :=
  (beside σ E source (· = none)).States s s

/-- A chain in a template of its own is one line. -/
theorem Page.Opens.exists_child {maxDepth : Nat} {o : Outline E} {line : Token E}
    {lines : List (Token E)} {tail : LineTail}
    (h : Page.Opens g 0 (.empty maxDepth) line lines o owner tail) :
    ∃ line, o.finish.children = [line] ∧ line.kind = .line := by
  obtain ⟨o₁, id, ho, hfollow⟩ := h.follow
  obtain ⟨next, ⟨s, t, hmade⟩, -⟩ := h.strung.made (k := 0) rfl
  have hchildren := Written.finish_of_chain ho lines
  rw [hfollow] at hchildren
  refine ⟨_, hchildren, ?_⟩
  have hkind : line.kind = .line := (Line.markup_of_ok hmade).1.kind
  cases lines with
  | nil => exact hkind
  | cons follower lines => exact (kind_close ..).trans hkind

namespace Unlearned

theorem start (source : List Char) (p : σ) : Unlearned E source ⟨.start source, none, p⟩ := by
  refine ⟨⟨[], source, rfl, ?_, ?_⟩, rfl, rfl, rfl⟩
  · change Cursor.mk 0 source = ⟨0, source ++ []⟩
    rw [List.append_nil]
  · change Cursor.mk 0 source = ⟨0, LineEnding.lf.write source ++ []⟩
    rw [List.append_nil, LineEnding.write_lf]

theorem unit (h : Unlearned E source s) : s.unit = none :=
  h.units.2

theorem skipSpacing (h : Unlearned E source s) :
    Unlearned E source { s with cursor := s.cursor.skipSpacing } :=
  ⟨h.places.skipSpacing, h.parsers, h.units⟩

/-- What is left of a template without line breaks has none. -/
theorem unbroken (h : Unlearned E source s) (hsource : ∀ x ∈ source, isBreak x = false) :
    ∀ x ∈ s.cursor.rest, isBreak x = false := by
  obtain ⟨before, after, hbody, hc, -⟩ := h.places
  have hrest : s.cursor.rest = after := by
    rw [hc]
    exact List.append_nil after
  intro x hx
  refine hsource x ?_
  rw [show source = before ++ after from hbody]
  exact List.mem_append_right before (hrest ▸ hx)

/-- A lone `-` on the last line opens no block. -/
theorem code (hs : Unlearned E source s) (hsource : ∀ x ∈ source, isBreak x = false)
    (hlone : LoneHyphen s.cursor.rest) :
    (Code.line g level).Ensures s (fun _ t ↦ Unlearned E source t) fun _ _ ↦ True := by
  obtain ⟨rest, hrest, hblank⟩ := hlone
  have hl : s.cursor.Leads ['-'] (s.cursor.past ['-']) := Cursor.leads_cons hrest
  have hline : (s.cursor.past ['-']).atBlankLine = true := by
    rw [Cursor.atBlankLine, Cursor.line, Cursor.rest_past_append _ ['-'] rest hrest, hblank]
  have hend : Unlearned E source { s with cursor := (s.cursor.past ['-']).lineEnd } :=
    ⟨(hs.places.past hl.1 (by simp [isBreak])).lineEnd, hs.parsers, hs.units⟩
  have hnil : (s.cursor.past ['-']).lineEnd.rest = [] :=
    Cursor.rest_eq_nil_of_atLineEnd (hend.unbroken hsource) (Cursor.atLineEnd_lineEnd _)
  have hflush : (s.cursor.past ['-']).lineEnd.nextLine.Flush := by
    refine Cursor.flush_of_breaks ?_
    rw [Cursor.nextLine, Cursor.past, Cursor.rest_skip, hnil, List.drop_nil]
    exact List.forall_mem_nil _
  unfold Code.line
  simp only [ensures_bind, ensures_here]
  refine ensures_bump hl rfl ?_
  simp only [hline, ↓reduceIte, ensures_bind]
  refine ensures_tokenFrom hl ?_
  rw [ensures_moveTo, Code.block, ensures_bind]
  unfold Ensures
  rw [blockBreak_of_flush (s := { s with cursor := (s.cursor.past ['-']).lineEnd }) hflush]
  exact hend

theorem markup (hs : Unlearned E source s) (hsource : ∀ x ∈ source, isBreak x = false)
    {r : Token E × LineTail} (h : Line.markup g level s = .ok r t) : Unlearned E source t := by
  by_cases hlone : LoneHyphen s.cursor.rest
  · have hform : Line.Form.ofRest s.cursor.rest = .code := by
      obtain ⟨rest, hrest, -⟩ := hlone
      rw [hrest]
      rfl
    rw [Line.markup, bind_of_ok (here_eq s), bind_eq_ok] at h
    obtain ⟨⟨a, tail⟩, t', hpayload, h⟩ := h
    obtain ⟨line, t'', hline, h⟩ := bind_eq_ok.1 h
    cases h
    obtain ⟨rfl, -⟩ := lineFrom_of_ok hline
    rw [Line.payload, bind_of_ok (here_eq s)] at hpayload
    rw [hform] at hpayload
    exact (hs.code hsource hlone).of_ok hpayload
  · have hruns : (beside σ E source (· = none)).RunsUnless _ (Line.markup g level) s
        (Line.markup g level) s _ := markup_runs (setups_beside g) hs (.inr hlone)
    rw [RunsUnless, h] at hruns
    -- Over one template no definition is rejected and no unit parts the runs.
    obtain ⟨r', v, hv, -, ht⟩ := hruns.resolve_left <| by
      rintro ((⟨_, _, _, _, _, _, _, ⟨⟩⟩ | ⟨⟨_, _, ⟨⟩⟩, -⟩) | ⟨hhyphen, -⟩)
      exact hlone hhyphen
    cases hv
    exact ht

theorem followers (hs : Unlearned E source s) (hsource : ∀ x ∈ source, isBreak x = false)
    (h : Page.followers g level n o owner s = .ok r t) : Unlearned E source t := by
  induction n generalizing s o owner with
  | zero =>
    cases hend : s.cursor.skipSpacing.atLineEnd with
    | true =>
      rw [Page.followers_of_atLineEnd hend] at h
      cases h
      exact hs.skipSpacing
    | false => exact absurd h (Page.followers_zero_ne_ok hend)
  | succ n ih =>
    cases hend : s.cursor.skipSpacing.atLineEnd with
    | true =>
      rw [Page.followers_of_atLineEnd hend] at h
      cases h
      exact hs.skipSpacing
    | false =>
      rw [Page.followers_succ hend, bind_eq_ok] at h
      obtain ⟨⟨line, next⟩, u, hline, h⟩ := h
      have hu : Unlearned E source u := hs.skipSpacing.markup hsource hline
      obtain ⟨⟨⟩, u', hexpect, hrest⟩ := bind_eq_ok.1 h
      obtain rfl := Page.expectLine_of_ok hexpect
      dsimp only at hrest
      split at hrest
      · exact ih hu hrest
      · cases hrest
        exact hu

theorem chain (hs : Unlearned E source s) (hsource : ∀ x ∈ source, isBreak x = false)
    (h : Page.chain g level o s = .ok r t) : Unlearned E source t := by
  obtain ⟨line, tail, u, o', id, hline, -, hrest⟩ := Page.chain_of_ok h
  have hu : Unlearned E source u := hs.markup hsource hline
  split at hrest
  · exact hu.followers hsource hrest
  · cases hrest
    exact hu

/-- The only line of a template is passed to its end. If it is not blank, it comes to one line. -/
theorem line (hs : Unlearned E source s) (hsource : ∀ x ∈ source, isBreak x = false) {maxDepth : Nat}
    {page : Page E} (h : Page.line g (.empty maxDepth) s = .ok page t) :
    (t.cursor.rest = [] ∧ t.unit = none) ∧
      (s.Written → ∃ line, page.outline.finish.children = [line] ∧ line.kind = .line) := by
  have hnext {u : ReadState σ} (hu : Unlearned E source u)
      (hend : u.cursor.skipSpacing.atLineEnd = true) : u.cursor.skipSpacing.nextLine.rest = [] := by
    rw [Cursor.nextLine, Cursor.past, Cursor.rest_skip,
      Cursor.rest_eq_nil_of_atLineEnd (hu.skipSpacing.unbroken hsource) hend, List.drop_nil]
  cases hblank : s.cursor.skipSpacing.atLineEnd with
  | true =>
    rw [Page.line_of_blank hblank] at h
    cases h
    refine ⟨⟨hnext hs hblank, hs.unit⟩, fun hwritten ↦ ?_⟩
    rw [ReadState.Written, hblank] at hwritten
    contradiction
  | false =>
    have hspacing : s.cursor.rest.takeWhile isSpacing = [] :=
      Page.spacing_of_step (o := .empty maxDepth) (Page.step_of_line h) hblank
    have hlevel := Indent.level_nil s.unit
    have hstart : s.cursor.past [] = s.cursor := s.cursor.skip_zero
    rw [Page.empty, Page.line_eq_markupLine hblank, hspacing] at h
    rw [Page.markupLine_eq_content hlevel (Page.checkLevel_of_markupLine hlevel h), hstart] at h
    obtain ⟨id, tail, u, v, hchain, hend, rfl⟩ := Page.content_of_ok h
    have hu : Unlearned E source u := hs.chain hsource hchain
    obtain ⟨rfl, hatEnd⟩ := endRun_of_ok hend
    obtain ⟨line, lines, hopens⟩ := Page.opens_of_chain hchain
    exact ⟨⟨hnext hu hatEnd, hu.unit⟩, fun _ ↦ hopens.exists_child⟩

end Unlearned

/-- A template of one line tells no unit of indentation, and it is one line unless it is blank. -/
theorem readLines_of_unbroken {parser : ExpressionParser σ E} {maxDepth : Nat} {p : σ} {page : Page E}
    (hsource : ∀ x ∈ source, isBreak x = false)
    (h : readLines parser maxDepth source p = .ok page t) :
    t.unit = none ∧ ((∃ x ∈ source, isSpacing x = false) →
      ∃ line, page.outline.finish.children = [line] ∧ line.kind = .line) := by
  have hstart : Unlearned E source ⟨.start source, none, p⟩ := .start source p
  unfold readLines at h
  cases source with
  | nil =>
    rw [Page.lines_at_end rfl] at h
    cases h
    exact ⟨rfl, nofun⟩
  | cons x rest =>
    rw [Page.lines_before_end (List.cons_ne_nil x rest)] at h
    obtain ⟨q, u, hline, hrest⟩ := bind_eq_ok.1 h
    obtain ⟨⟨hnil, hunit⟩, hchild⟩ := hstart.line hsource hline
    rw [List.length_cons, Page.lines_at_end hnil] at hrest
    cases hrest
    refine ⟨hunit, fun ⟨y, hy, hspacing⟩ ↦ hchild (Bool.eq_false_iff.2 fun hblank ↦ ?_)⟩
    -- Were the line blank, all of the template would be spacing.
    have hall := Cursor.rest_eq_nil_of_atLineEnd (hstart.skipSpacing.unbroken hsource) hblank
    rw [Cursor.skipSpacing, Cursor.rest_skipWhile] at hall
    rw [List.dropWhile_eq_nil_iff.1 hall y hy] at hspacing
    contradiction

end Pug
