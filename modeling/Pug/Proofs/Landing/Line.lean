import Pug.Proofs.Landing.Tag
import Pug.Proofs.Lockstep.Directive
import Pug.Proofs.Reading.Line
import Pug.Proofs.Text.Tiling

/-!
# Directives, code and lines land

A line is read on the line, but for expressions and for a block of code, whose statements stand on
lines of their own. From one line of a block to the next a whole line break is passed: a break that
the block would repeat by half has an empty line behind it, and ends the block.
-/

namespace Pug

open Text Token Reader

variable {σ E : Type} {source : List Char} {g : Setup σ E} {s : ReadState σ}

/-- Passing a keyword in front. -/
theorem Foothold.keyword {c : Cursor} (hc : Foothold source c) {keyword : Keyword}
    {word : List Char} (hk : Keyword.atFront? c.rest = some (keyword, word)) :
    Foothold source (c.past word) := by
  have hfront (cs : List Char) (h : Keyword.atFront? cs = some (keyword, word)) :
      ∃ others, cs = word ++ others := by
    obtain ⟨-, others, ho, -⟩ := Keyword.atFront_eq_some h
    exact ⟨others, ho⟩
  exact hc.past (hfront _ hk).choose_spec (Link.atFront_onLine.unbroken_of_eq hfront hk)

namespace Directive

theorem tail_lands : Lands source (tail : Reader σ LineTail) := by
  refine skipSpacing_lands.bind fun _ _ ↦ (eat_lands (by decide)).bind fun _ _ ↦ ?_
  exact LandsWith.ite (fun _ ↦ pure_lands _) fun _ ↦ (endRun_lands _).bind fun _ _ ↦ pure_lands _

theorem withTail_lands (a : Token E) :
    Lands source (do return (a, ← tail) : Reader σ (Token E × LineTail)) :=
  tail_lands.bind fun _ _ ↦ pure_lands _

theorem argument_lands :
    LandsWith source (fun r ↦ Foothold source r.1) (argument : Reader σ _) :=
  skipSpacing_lands.bind fun _ _ ↦ here_lands.bind fun _ hc ↦ skipLine_lands.bind fun _ _ ↦ .pure hc

theorem condition_lands (hg : g.Lands source) (a : Token E) : Lands source (condition g a) :=
  (hg _ _).bind fun _ _ ↦ withTail_lands _

theorem otherwise_lands (hg : g.Lands source) (start : Cursor) :
    Lands source (otherwise g start) := by
  refine (tokenFrom_lands _ _).bind fun a _ ↦ here_lands.bind fun c hc ↦ ?_
  dsimp only
  split
  · rename_i name hn
    exact (moveTo_lands (hc.skipSpacing.keyword hn)).bind fun _ _ ↦
      (tokenFrom_lands _ _).bind fun _ _ ↦ condition_lands hg _
  · exact withTail_lands a

theorem loopVariable_lands : Lands source (loopVariable : Reader σ (Token E)) := by
  refine here_lands.bind fun c hc ↦ LandsWith.ite (fun _ ↦ failAt_lands hc _) fun _ ↦ ?_
  have honLine : OnLine Name.loopVariable := fun _ hm ↦ Name.loopVariable_append hm
  have hname := hc.past_onLine honLine Name.exists_eq_loopVariable_append
  exact (moveTo_lands hname).bind fun _ _ ↦ skipSpacing_lands.bind fun _ _ ↦ pure_lands _

theorem loopVariables_lands : Lands source (loopVariables : Reader σ (List (Token E))) := by
  refine skipSpacing_lands.bind fun _ _ ↦ loopVariable_lands.bind fun _ _ ↦
    (eat_lands (by decide)).bind fun _ _ ↦ ?_
  exact LandsWith.ite (fun _ ↦ skipSpacing_lands.bind fun _ _ ↦
    loopVariable_lands.bind fun _ _ ↦ pure_lands _) fun _ ↦ pure_lands _

theorem each_lands (hg : g.Lands source) (start : Cursor) : Lands source (each g start) := by
  refine (tokenFrom_lands _ _).bind fun a _ ↦ loopVariables_lands.bind fun names _ s hs ↦
    LandsFrom.here (LandsFrom.ite (fun hin ↦ ?_) fun _ ↦ failAt_lands hs _ s hs)
  have hword := (Bool.and_eq_true_iff.1 hin).1
  refine LandsFrom.bump (Cursor.leads_of_startsWith hword).1 (by decide) ?_
  exact (hg _ _).bind (fun _ _ ↦ withTail_lands _) _ (hs.past_startsWith hword (by decide))

theorem mixin_lands (hg : g.Lands source) : Lands source (mixin g) := by
  refine (hg _ _).bind fun e he ↦ LandsWith.ite (fun _ ↦ ?_) fun _ ↦ withTail_lands _
  obtain ⟨c, hc, hoffset⟩ := he
  exact LandsWith.throw (hoffset ▸ .of_foothold hc _)

theorem line_lands (hg : g.Lands source) (keyword : Keyword) (start : Cursor) :
    Lands source (line g keyword start) := by
  cases keyword with
  | condition kind => exact (tokenFrom_lands _ _).bind fun _ _ ↦ condition_lands hg _
  | otherwise => exact otherwise_lands hg start
  | default => exact (tokenFrom_lands _ _).bind fun _ _ ↦ withTail_lands _
  | each => exact each_lands hg start
  | mixin => exact mixin_lands hg
  | inclusion =>
    exact argument_lands.bind fun _ hc ↦
      LandsWith.ite (fun _ ↦ failAt_lands hc _) fun _ ↦ pure_lands _
  | doctype => exact argument_lands.bind fun _ _ ↦ pure_lands _

end Directive

namespace Code

theorem statement_lands (hg : g.Lands source) (lineBreak : List Char) :
    Lands source (statement g lineBreak) :=
  here_lands.bind fun _ _ ↦ (hg _ _).bind fun _ _ ↦ skipSpacing_lands.bind fun _ _ ↦
    (eat_lands (by decide)).bind fun _ _ ↦ (placeAt_lands _ _).bind fun _ _ ↦
      (tokenFrom_lands _ _).bind fun _ _ ↦ pure_lands _

theorem next_lands (hg : g.Lands source) (lineBreak : List Char) :
    Lands source (item.next g lineBreak) :=
  (statement_lands hg lineBreak).bind fun _ _ ↦ skipSpacing_lands.bind fun _ _ ↦ pure_lands _

/-- A line break that has been passed by half has an empty line behind it. -/
theorem foothold_inside {c : Cursor} (hc : Foothold source c) {lineBreak : List Char}
    (h : lineBreak.isPrefixOf c.rest = true) (hblank : (c.past lineBreak).atBlankLine = false) :
    Foothold source (c.past lineBreak) := by
  obtain ⟨others, ho⟩ := List.isPrefixOf_iff_prefix.1 h
  refine hc.leads (Cursor.leads_past ho.symm) fun _ hhead ↦ ?_
  obtain ⟨more, hmore⟩ := List.head?_eq_some_iff.1 hhead
  rw [Cursor.atBlankLine, Cursor.line, hmore] at hblank
  contradiction

theorem item_lands (hg : g.Lands source) (lineBreak : List Char) :
    Lands source (item g lineBreak) := by
  refine here_lands.bind fun c hc ↦ LandsWith.ite (fun _ ↦ next_lands hg _) fun _ ↦
    LandsWith.ite (fun hinside ↦ ?_) fun _ ↦ pure_lands _
  obtain ⟨hfront, hblank⟩ := Bool.and_eq_true_iff.1 hinside
  have hnext := foothold_inside hc hfront (by simpa using hblank)
  exact (moveTo_lands hnext).bind fun _ _ ↦ next_lands hg _

/-- Looking for the indentation of a block moves nothing. -/
theorem blockBreak_lands (level : Nat) : Lands source (blockBreak? level : Reader σ _) := by
  intro s hs
  unfold LandsFrom blockBreak?
  simp only [ensures_bind, ensures_get]
  refine ensures_ite (fun _ ↦ ⟨trivial, hs⟩) fun _ ↦ ?_
  simp only [ensures_bind, ensures_set]
  split
  · exact ⟨trivial, hs⟩
  · exact ⟨trivial, hs⟩

theorem block_lands (hg : g.Lands source) (level : Nat) (a : Token E) :
    Lands source (block g level a) := by
  refine (blockBreak_lands level).bind fun r _ ↦ ?_
  cases r with
  | none => exact pure_lands _
  | some lineBreak =>
    exact (gather_lands (item_lands hg lineBreak) _).bind fun _ _ ↦ pure_lands _

theorem line_lands (hg : g.Lands source) (level : Nat) (hs : Foothold source s.cursor)
    {rest : List Char} (hr : s.cursor.rest = '-' :: rest) :
    LandsFrom source (fun _ ↦ True) (line g level) s := by
  refine LandsFrom.here (LandsFrom.bump (w := ['-']) hr rfl ?_)
  refine here_lands.bind (fun c hc ↦ ?_) _ (hs.past_char hr rfl)
  refine LandsWith.ite (fun _ ↦ ?_) fun _ ↦ ?_
  · exact (tokenFrom_lands _ _).bind fun _ _ ↦ (moveTo_lands hc.lineEnd).bind fun _ _ ↦
      (block_lands hg level _).bind fun _ _ ↦ pure_lands _
  · dsimp only
    split
    · rename_i keyword word hf
      obtain ⟨hf, -⟩ := Option.filter_eq_some_iff.1 hf
      exact (moveTo_lands (hc.skipSpacing.keyword hf)).bind fun _ _ ↦
        Directive.line_lands hg keyword _
    · exact (moveTo_lands hc.skipSpacing).bind fun _ _ ↦
        (statement_lands hg []).bind fun _ _ ↦ pure_lands _

end Code

namespace Line

theorem word_lands (hg : g.Lands source) : Lands source (word g) := by
  refine here_lands.bind fun c hc ↦ ?_
  split
  · rename_i keyword name hf
    exact (moveTo_lands (hc.keyword hf)).bind fun _ _ ↦ Directive.line_lands hg keyword c
  · exact (moveTo_lands (hc.past_onLine Tag.tag_onLine Name.exists_eq_tag_append)).bind fun _ _ ↦
      Tag.line_lands hg c _

theorem raw_lands : Lands source (raw : Reader σ (Token E × LineTail)) :=
  here_lands.bind fun _ _ ↦ skipLine_lands.bind fun _ _ ↦ pure_lands _

theorem comment_lands (hg : g.Lands source) (hs : Foothold source s.cursor) {rest : List Char}
    (hr : s.cursor.rest = '/' :: '/' :: rest) :
    LandsFrom source (fun _ ↦ True) (comment g) s := by
  refine LandsFrom.here ((ensures_bind _ _).2 (ensures_eat (fun hhyphen ↦ ?_) fun _ ↦ ?_))
  · exact (tokenFrom_lands _ _).bind (fun _ _ ↦ here_lands.bind fun _ _ ↦
      skipLine_lands.bind fun _ _ ↦ pure_lands _) _ (hs.past_startsWith hhyphen (by decide))
  · refine LandsFrom.bump (w := ['/', '/']) hr rfl ?_
    exact (tokenFrom_lands _ _).bind (fun _ _ ↦
      (TextRun.pieces_lands hg (Tag.inlineTag_lands hg _)).bind fun _ _ ↦ pure_lands _) _
        (hs.past (w := ['/', '/']) hr (by simp [isBreak]))

theorem arguments_lands (hg : g.Lands source) : Lands source (arguments g) := by
  refine (eat_lands (by decide)).bind fun _ _ ↦ LandsWith.ite (fun _ ↦ ?_) fun _ ↦ pure_lands _
  refine skipSpacing_lands.bind fun _ _ ↦ (eat_lands (by decide)).bind fun _ _ ↦
    LandsWith.ite (fun _ ↦ pure_lands _) fun _ ↦ ?_
  refine (hg _ _).bind fun _ _ ↦ skipSpacing_lands.bind fun _ _ ↦
    (eat_lands (by decide)).bind fun _ _ ↦ ?_
  exact LandsWith.ite (fun _ ↦ pure_lands _) fun _ ↦
    here_lands.bind fun _ hc ↦ failAt_lands hc _

theorem call_lands (hg : g.Lands source) (hs : Foothold source s.cursor) {rest : List Char}
    (hr : s.cursor.rest = '+' :: rest) : LandsFrom source (fun _ ↦ True) (call g) s := by
  refine LandsFrom.bump (w := ['+']) hr rfl ?_
  refine here_lands.bind (fun c hc ↦ ?_) _ (hs.past_char hr rfl)
  refine LandsWith.ite (fun _ ↦ failAt_lands hc _) fun _ ↦ ?_
  exact (moveTo_lands (hc.past_onLine Tag.tag_onLine Name.exists_eq_tag_append)).bind fun _ _ ↦
    (arguments_lands hg).bind fun _ _ ↦ (Tag.lineParts_lands hg).bind fun _ _ ↦ pure_lands _

theorem payload_lands (hg : g.Lands source) (level : Nat) : Lands source (payload g level) := by
  intro s hs
  refine LandsFrom.here ?_
  have hfront := standsAt_ofRest s.cursor.rest
  cases hp : Form.ofRest s.cursor.rest with
  | shorthand => exact Tag.line_lands hg _ _ s hs
  | comment =>
    rw [hp] at hfront
    obtain ⟨rest, hr⟩ := hfront
    exact comment_lands hg hs hr
  | word => exact word_lands hg s hs
  | dot =>
    rw [hp] at hfront
    obtain ⟨rest, hr⟩ := hfront
    exact (Tag.closingMark_lands hs hr rfl rfl _ _).bind fun _ _ ↦ pure_lands _
  | piped =>
    rw [hp] at hfront
    obtain ⟨rest, hr⟩ := hfront
    refine LandsFrom.bump (w := ['|']) hr rfl ?_
    exact skipSpacing_lands.bind (fun _ _ ↦ (TextRun.onLine_lands hg).bind fun _ _ ↦
      pure_lands _) _ (hs.past_char hr rfl)
  | output kind mark =>
    have honLine : OnLine Form.ofRest := fun _ hm ↦ Line.ofRest_append hm
    have hmark : ∀ cs, Form.ofRest cs = .output kind mark →
        ∃ w others, cs = w ++ others ∧ byteLength w = mark := by
      intro cs h
      have hcs := standsAt_ofRest cs
      rw [h] at hcs
      obtain ⟨w, rest, hr, hsize, -⟩ := hcs
      exact ⟨w, rest, hr, hsize⟩
    obtain ⟨w, rest, hr, hsize, hw⟩ := honLine.exists_front hmark hp
    exact (Tag.output_lands hg hs hr hw hsize kind _).bind fun _ _ ↦
      (endRun_lands _).bind fun _ _ ↦ pure_lands _
  | code =>
    rw [hp] at hfront
    obtain ⟨rest, hr⟩ := hfront
    exact Code.line_lands hg level hs hr
  | call =>
    rw [hp] at hfront
    obtain ⟨rest, hr⟩ := hfront
    exact call_lands hg hs hr
  | raw => exact raw_lands s hs
  | unknown => exact failAt_lands hs _ s hs

theorem markup_lands (hg : g.Lands source) (level : Nat) : Lands source (markup g level) :=
  here_lands.bind fun _ _ ↦ (payload_lands hg level).bind fun _ _ ↦
    (lineFrom_lands _ _).bind fun _ _ ↦ pure_lands _

theorem bareText_lands : Lands source (bareText : Reader σ (Token E)) :=
  here_lands.bind fun _ hc ↦ (moveTo_lands hc.lineEnd).bind fun _ _ ↦
    (tokenFrom_lands _ _).bind fun _ _ ↦ (tokenFrom_lands _ _).bind fun _ _ ↦ pure_lands _

theorem verbatim_lands (hg : g.Lands source) (interpolate : Bool) :
    Lands source (verbatim g interpolate) := by
  refine here_lands.bind fun c _ ↦ ?_
  cases interpolate with
  | true => exact (TextRun.onLine_lands hg).bind fun a _ ↦ lineFrom_lands c a
  | false => exact bareText_lands.bind fun a _ ↦ lineFrom_lands c a

/-- Telling a line from the place where it starts moves nothing. -/
theorem eq_of_lineFrom {c : Cursor} {a line : Token E} {t : ReadState σ}
    (h : lineFrom c a s = .ok line t) : t = s := by
  obtain ⟨d, m, hhere, h⟩ := bind_eq_ok.1 h
  cases hhere
  obtain ⟨text, m, htext, h⟩ := bind_eq_ok.1 h
  cases h
  unfold textBetween at htext
  split at htext
  · cases htext
    rfl
  · contradiction

/-- A line of text is read up to the end of the line. -/
theorem atLineEnd_of_verbatim {interpolate : Bool} {line : Token E} {t : ReadState σ}
    (h : verbatim g interpolate s = .ok line t) : t.cursor.atLineEnd = true := by
  obtain ⟨start, m, hhere, h⟩ := bind_eq_ok.1 h
  cases hhere
  cases interpolate with
  | true =>
    obtain ⟨run, m, hrun, h⟩ := bind_eq_ok.1 h
    obtain rfl := eq_of_lineFrom h
    obtain ⟨-, -, -, -, hend⟩ := TextRun.run_isTiled hrun
    simpa [Cursor.atRunEnd] using hend
  | false =>
    obtain ⟨run, m, hrun, h⟩ := bind_eq_ok.1 h
    obtain rfl := eq_of_lineFrom h
    obtain ⟨start, m, hhere, hrun⟩ := bind_eq_ok.1 hrun
    cases hhere
    obtain ⟨⟨⟩, m, hmove, hrun⟩ := bind_eq_ok.1 hrun
    cases hmove
    obtain ⟨a, m, ha, hrun⟩ := bind_eq_ok.1 hrun
    obtain ⟨b, m, hb, hrun⟩ := bind_eq_ok.1 hrun
    cases hrun
    obtain ⟨rfl, -⟩ := tokenFrom_of_ok ha
    obtain ⟨rfl, -⟩ := tokenFrom_of_ok hb
    exact s.cursor.atLineEnd_lineEnd

end Line

end Pug
