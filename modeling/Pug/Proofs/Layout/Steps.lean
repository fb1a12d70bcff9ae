import Pug.Grammar.Page
import Pug.Proofs.Layout.Outline
import Pug.Proofs.Reader.Ensures

/-!
# The steps of reading a page

A page is read line by line: a blank line is passed, a line of text is added under the line that it
belongs to, and any other line is a chain, which is opened at its level. This module says what each of
these readers does in each case.
-/

namespace Pug

open Text Token Reader

variable {σ E : Type}

/-- Finding a place changes nothing. -/
theorem placeAt_of_ok {c d : Cursor} {offset : Nat} {s t : ReadState σ}
    (h : placeAt c offset s = .ok d t) : t = s := by
  unfold placeAt at h
  split at h
  · cases h
    rfl
  · contradiction

/-- The end of a line is not passed over. -/
theorem endRun_of_ok {t u : ReadState σ} (h : endRun false t = .ok () u) :
    u = { t with cursor := t.cursor.skipSpacing } ∧ u.cursor.atLineEnd = true := by
  rw [endRun, bind_of_ok (show skipSpacing t = .ok () _ from rfl), bind_of_ok (here_eq _)] at h
  dsimp only at h
  split at h
  · rename_i hend
    cases h
    exact ⟨rfl, by simpa [Cursor.atRunEnd] using hend⟩
  · contradiction

theorem endRun_eq_ok {s : ReadState σ} (h : s.cursor.skipSpacing.atLineEnd = true) :
    endRun false s = .ok () { s with cursor := s.cursor.skipSpacing } := by
  have hend : s.cursor.skipSpacing.atRunEnd false = true := by
    rw [Cursor.atRunEnd, h]
    rfl
  rw [endRun, bind_of_ok (show skipSpacing s = .ok () _ from rfl), bind_of_ok (here_eq _)]
  dsimp only
  rw [if_pos hend]
  rfl

namespace Page

variable {g : Setup σ E} {level n : Nat} {o : Outline E} {owner : LineId} {s t : ReadState σ}
variable {run : List Char} {page : Page E}

/-- Nothing follows at the end of the line. -/
theorem followers_of_atLineEnd (h : s.cursor.skipSpacing.atLineEnd = true) :
    followers g level n o owner s =
      .ok (o, owner, .plain) { s with cursor := s.cursor.skipSpacing } := by
  unfold followers
  rw [bind_of_ok (show skipSpacing s = .ok () _ from rfl), bind_of_ok (here_eq _)]
  dsimp only
  rw [if_pos h]
  rfl

/-- A line that follows, and those that follow it. -/
theorem followers_succ (h : s.cursor.skipSpacing.atLineEnd = false) :
    followers g level (n + 1) o owner s = (Line.markup g level >>= fun r ↦
      expectLine o owner >>= fun _ ↦
        if r.2 = .follow then followers g level n (o.expand owner r.1).1 (o.expand owner r.1).2
        else pure ((o.expand owner r.1).1, (o.expand owner r.1).2, r.2))
      { s with cursor := s.cursor.skipSpacing } := by
  rw [followers, bind_of_ok (show skipSpacing s = .ok () _ from rfl), bind_of_ok (here_eq _)]
  dsimp only
  rw [if_neg (by rw [h]; decide)]

theorem followers_zero_ne_ok (h : s.cursor.skipSpacing.atLineEnd = false)
    {r : Outline E × LineId × LineTail} : followers g level 0 o owner s ≠ .ok r t := by
  rw [followers, bind_of_ok (show skipSpacing s = .ok () _ from rfl), bind_of_ok (here_eq _)]
  dsimp only
  rw [if_neg (by rw [h]; decide)]
  rintro ⟨⟩

theorem expectLine_eq_ok (h : o.has owner = true) : expectLine o owner s = .ok () s := by
  rw [expectLine, if_pos h]
  rfl

theorem expectLine_of_ok (h : expectLine o owner s = .ok () t) : t = s := by
  unfold expectLine at h
  split at h
  · cases h
    rfl
  · contradiction

/-- A line at a level, and what follows it. -/
theorem chain_eq {line : Token E} {tail : LineTail} {o' : Outline E} {id : LineId}
    (hline : Line.markup g level s = .ok (line, tail) t)
    (hhas : o.has (o.parentAt level) = true) (ho : o.openLine level line = .ok (o', id)) :
    chain g level o s = (if tail = .follow then followers g level (g.maxDepth - (level + 1)) o' id
      else pure (o', id, tail) : Reader σ (Outline E × LineId × LineTail)) t := by
  rw [chain, bind_of_ok (here_eq s), bind_of_ok hline]
  refine (bind_of_ok (expectLine_eq_ok hhas)).trans ?_
  rw [ho]

theorem chain_of_ok {r : Outline E × LineId × LineTail}
    (h : chain g level o s = .ok r t) : ∃ line tail t' o' id,
      Line.markup g level s = .ok (line, tail) t' ∧ o.openLine level line = .ok (o', id) ∧
      (if tail = .follow then followers g level (g.maxDepth - (level + 1)) o' id
        else pure (o', id, tail) : Reader σ (Outline E × LineId × LineTail)) t' = .ok r t := by
  rw [chain, bind_of_ok (here_eq s), bind_eq_ok] at h
  obtain ⟨⟨line, tail⟩, t', hline, h⟩ := h
  obtain ⟨⟨⟩, t'', hexpect, hrest⟩ := bind_eq_ok.1 h
  obtain rfl := expectLine_of_ok hexpect
  cases ho : o.openLine level line with
  | error problem =>
    rw [ho] at hrest
    contradiction
  | ok opened =>
    rw [ho] at hrest
    exact ⟨line, tail, t'', opened.1, opened.2, hline, ho, hrest⟩

/-- Lines are added behind those that are there. -/
theorem followers_tokens {r : Outline E × LineId × LineTail}
    (h : followers g level n o owner s = .ok r t) : o.tokens <+: r.1.tokens := by
  induction n generalizing s o owner with
  | zero =>
    cases hend : s.cursor.skipSpacing.atLineEnd with
    | true =>
      rw [followers_of_atLineEnd hend] at h
      cases h
      exact List.prefix_rfl
    | false => exact absurd h (followers_zero_ne_ok hend)
  | succ n ih =>
    cases hend : s.cursor.skipSpacing.atLineEnd with
    | true =>
      rw [followers_of_atLineEnd hend] at h
      cases h
      exact List.prefix_rfl
    | false =>
      rw [followers_succ hend, bind_eq_ok] at h
      obtain ⟨⟨line, next⟩, t', -, h⟩ := h
      obtain ⟨⟨⟩, t'', -, hrest⟩ := bind_eq_ok.1 h
      have hadd : o.tokens <+: (o.expand owner line).1.tokens := ⟨[line], by simp⟩
      dsimp only at hrest
      split at hrest
      · exact hadd.trans (ih hrest)
      · cases hrest
        exact hadd

/-- A blank line is passed. -/
theorem line_of_blank (h : s.cursor.skipSpacing.atLineEnd = true) :
    line g page s = .ok page { s with cursor := s.cursor.skipSpacing.nextLine } := by
  rw [line, bind_of_ok (here_eq s)]
  change (if s.cursor.skipSpacing.atLineEnd = true then _ else _ : Reader σ (Page E)) s = _
  rw [if_pos h]
  rfl

/-- A line that is not blank. -/
theorem line_of_not_blank {verbatim : Option Verbatim} (h : s.cursor.skipSpacing.atLineEnd = false) :
    line g ⟨o, verbatim⟩ s = (margin? verbatim (s.cursor.rest.takeWhile isSpacing) >>= fun found ↦
      match found with
      | some (block, margin) => do
        moveTo (← placeAt s.cursor (s.cursor.offset + byteLength margin))
        textLine g o block
      | none => markupLine g o s.cursor (s.cursor.rest.takeWhile isSpacing)) s := by
  rw [line, bind_of_ok (here_eq s)]
  change (if s.cursor.skipSpacing.atLineEnd = true then _ else _ : Reader σ (Page E)) s = _
  exact congrFun (if_neg (by rw [h]; decide)) s

/-- A line that is neither blank nor text. -/
theorem line_eq_markupLine (h : s.cursor.skipSpacing.atLineEnd = false) :
    line g ⟨o, none⟩ s = markupLine g o s.cursor (s.cursor.rest.takeWhile isSpacing) s :=
  line_of_not_blank h

/-- What comes behind the spacing at the front of a line. -/
def content (g : Setup σ E) (o : Outline E) (level : Nat) : Reader σ (Page E) := do
  let (outline, owner, tail) ← chain g level o
  endRun false
  moveTo (← here).nextLine
  match tail with
  | .verbatim interpolate => return ⟨outline, some ⟨owner, level, interpolate⟩⟩
  | _ => return ⟨outline, none⟩

theorem level_of_ok {start : Cursor} (h : Page.level start run s = .ok n t) :
    (Indent.level s.unit run).1 = .ok n ∧ t = { s with unit := (Indent.level s.unit run).2 } := by
  rw [Page.level, bind_of_ok (show (get : Reader σ _) s = .ok s s from rfl)] at h
  dsimp only at h
  cases hlevel : Indent.level s.unit run with
  | mk indent unit =>
    rw [hlevel] at h
    cases indent with
    | error misfit => contradiction
    | ok m =>
      cases h
      exact ⟨rfl, rfl⟩

/-- Where no line makes its lines text, nothing is learned; else what the margin tells. -/
theorem margin_of_ok {verbatim : Option Verbatim} {found : Option (Verbatim × List Char)}
    (h : margin? verbatim run s = .ok found t) : (verbatim = none ∧ found = none ∧ t = s) ∨
      ∃ block ∈ verbatim, found = (Indent.marginOf s.unit (block.level + 1) run).1.map (block, ·) ∧
        t = { s with unit := (Indent.marginOf s.unit (block.level + 1) run).2 } := by
  cases verbatim with
  | none =>
    cases h
    exact .inl ⟨rfl, rfl, rfl⟩
  | some block =>
    refine .inr ⟨block, rfl, ?_⟩
    rw [margin?, bind_of_ok (show (get : Reader σ _) s = .ok s s from rfl)] at h
    dsimp only at h
    cases hmargin : Indent.marginOf s.unit (block.level + 1) run with
    | mk margin unit =>
      rw [hmargin] at h
      cases h
      exact ⟨rfl, rfl⟩

theorem level_eq_ok (start : Cursor) {unit : Option IndentUnit}
    (h : Indent.level s.unit run = (.ok level, unit)) :
    Page.level start run s = .ok level { s with unit := unit } := by
  rw [Page.level, bind_of_ok (show (get : Reader σ _) s = .ok s s from rfl)]
  dsimp only
  rw [h]
  rfl

theorem markupLine_eq_content {start : Cursor} {unit : Option IndentUnit}
    (hlevel : Indent.level s.unit run = (.ok level, unit)) (hcheck : o.checkLevel level = none) :
    markupLine g o start run s = content g o level ⟨start.past run, unit, s.parser⟩ := by
  rw [markupLine, bind_of_ok (level_eq_ok start hlevel)]
  dsimp only
  rw [hcheck]
  rfl

theorem checkLevel_of_markupLine {start : Cursor} {unit : Option IndentUnit} {page : Page E}
    (hlevel : Indent.level s.unit run = (.ok level, unit))
    (h : markupLine g o start run s = .ok page t) : o.checkLevel level = none := by
  cases hc : o.checkLevel level with
  | none => rfl
  | some problem =>
    rw [markupLine, bind_of_ok (level_eq_ok start hlevel)] at h
    dsimp only at h
    rw [hc] at h
    contradiction

variable {o' : Outline E} {id : LineId} {tail : LineTail} {u : ReadState σ}

theorem content_of_ok {page : Page E} (h : content g o level s = .ok page t) :
    ∃ id tail r u, chain g level o s = .ok (page.outline, id, tail) r ∧
      endRun false r = .ok () u ∧ t = { u with cursor := u.cursor.nextLine } := by
  rw [content, bind_eq_ok] at h
  obtain ⟨⟨o', id, tail⟩, r, hchain, h⟩ := h
  obtain ⟨⟨⟩, u, hend, hrest⟩ := bind_eq_ok.1 h
  refine ⟨id, tail, r, u, ?_, hend, ?_⟩
  · rw [hchain]
    cases tail <;> cases hrest <;> rfl
  · cases tail <;> cases hrest <;> rfl

theorem content_eq_ok (hchain : chain g level o s = .ok (o', id, tail) t)
    (hend : endRun false t = .ok () u) (htail : ∀ interpolate, tail ≠ .verbatim interpolate) :
    content g o level s = .ok ⟨o', none⟩ { u with cursor := u.cursor.nextLine } := by
  rw [content, bind_of_ok hchain]
  refine (bind_of_ok hend).trans ?_
  cases tail with
  | verbatim interpolate => exact absurd rfl (htail interpolate)
  | plain => rfl
  | follow => rfl

theorem lines_at_end (h : s.cursor.rest = []) : lines g (n + 1) page s = .ok page s := by
  rw [lines, bind_of_ok (here_eq s), if_pos (show s.cursor.atEnd = true from List.isEmpty_iff.2 h)]
  rfl

theorem lines_before_end (h : s.cursor.rest ≠ []) :
    lines g (n + 1) page s = (line g page >>= lines g n) s := by
  have hin : ¬s.cursor.atEnd = true := mt List.isEmpty_iff.1 h
  rw [lines, bind_of_ok (here_eq s), if_neg hin]

end Page

section Template

variable {parser : ExpressionParser σ E} {maxDepth : Nat} {source : List Char} {s : σ}
variable {page : Page E} {root : Token E} {t : ReadState σ}

/-- The lines of a template, read from its start. -/
def readLines (parser : ExpressionParser σ E) (maxDepth : Nat) (source : List Char) (s : σ) :
    EStateM.Result Failure (ReadState σ) (Page E) :=
  Page.lines ⟨parser, maxDepth, source.length + 1⟩ (source.length + 1) (.empty maxDepth)
    ⟨.start source, none, s⟩

/-- The tree of a template is that of its lines. -/
theorem readTemplate_eq_ok : readTemplate parser maxDepth source s = .ok root t ↔
    ∃ page, readLines parser maxDepth source s = .ok page t ∧ root = page.outline.finish := by
  unfold readTemplate EStateM.run
  rw [bind_eq_ok]
  constructor
  · rintro ⟨page, t', hlines, hend⟩
    cases hend
    exact ⟨page, hlines, rfl⟩
  · rintro ⟨page, hlines, rfl⟩
    exact ⟨page, t, hlines, rfl⟩

/-- A tree that is read is that of its lines. -/
theorem lex_eq_ok : lex parser maxDepth source s = .ok root ↔
    ∃ page t, readLines parser maxDepth source s = .ok page t ∧ root = page.outline.finish := by
  constructor
  · intro h
    unfold lex at h
    split at h
    · rename_i root' t hrun
      cases h
      obtain ⟨page, hpage⟩ := readTemplate_eq_ok.1 hrun
      exact ⟨page, t, hpage⟩
    · contradiction
  · rintro ⟨page, t, hpage⟩
    rw [lex, readTemplate_eq_ok.2 ⟨page, hpage⟩]

theorem readTemplate_of_error {f : Failure} (h : readLines parser maxDepth source s = .error f t) :
    readTemplate parser maxDepth source s = .error f t :=
  bind_of_error h

/-- A result that passes a test is one that was read. -/
theorem exists_of_any {r : Except Failure (Token E)} {p : Token E → Bool}
    (h : r.toOption.any p = true) : ∃ root, r = .ok root ∧ p root = true := by
  cases r with
  | error x => contradiction
  | ok root => exact ⟨root, rfl, h⟩

theorem exists_of_isNone {r : Except Failure (Token E)} (h : r.toOption.isNone = true) :
    ∃ x, r = .error x := by
  cases r with
  | error x => exact ⟨x, rfl⟩
  | ok root => contradiction

end Template

end Pug
