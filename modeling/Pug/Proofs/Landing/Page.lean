import Pug.Proofs.Landing.Expression
import Pug.Proofs.Landing.Line
import Pug.Proofs.Layout.Course

/-!
# Pages land

Each line of a template is read up to a line break, and the break is passed as a whole. So what is
read next starts a line, and wherever the reading fails, it fails at a foothold: at the character of
the indentation that does not fit, where the line starts, or where one of its readers stops.
-/

namespace Pug

open Text Token Reader

variable {σ E α β : Type} {source : List Char} {g : Setup σ E} {s t : ReadState σ}

section Indentation

theorem IndentUnit.oneLine_spacesInWords (n : Nat) : OneLine (spacesInWords n) := by
  unfold spacesInWords
  split
  · exact .of_any (by decide)
  · exact (OneLine.toString n).append (.of_any (by decide))

theorem IndentUnit.oneLine_inWords (unit : IndentUnit) : OneLine unit.inWords := by
  cases unit with
  | tab => exact .of_any (by decide)
  | spaces n => exact oneLine_spacesInWords n

theorem Indent.oneLine_of_units {unit : IndentUnit} {run : List Char} {misfit : Misfit}
    (h : units unit run = .error misfit) : OneLine misfit.help := by
  have huses : OneLine ("indentation uses " ++ unit.inWords) :=
    (OneLine.of_any (by decide)).append unit.oneLine_inWords
  unfold units at h
  split at h
  · cases h
    exact huses
  · split at h
    · contradiction
    · cases h
      exact (huses.append (.of_any (by decide))).append (IndentUnit.oneLine_spacesInWords _)

theorem Indent.oneLine_of_level {known : Option IndentUnit} {run : List Char} {misfit : Misfit}
    (h : (level known run).1 = .error misfit) : OneLine misfit.help := by
  unfold level at h
  split at h
  · contradiction
  · dsimp only at h
    split at h
    · contradiction
    · exact oneLine_of_units h

end Indentation

/-- A place on the spacing that a line starts with. -/
theorem Foothold.spacing {c : Cursor} (hc : Foothold source c) {v : List Char}
    (hv : v <+: c.rest.takeWhile isSpacing) : Foothold source (c.past v) := by
  obtain ⟨others, ho⟩ := hv.trans (List.takeWhile_prefix _)
  exact hc.past ho.symm fun x hx ↦
    isBreak_of_isSpacing (List.mem_takeWhile_imp (hv.subset hx))

namespace Reader

/-- Run from `s`, the reader ends where a line starts, or in a failure that is accountable. -/
def EndsLine (source : List Char) (m : Reader σ α) (s : ReadState σ) : Prop :=
  m.Ensures s (fun _ t ↦ LineStart source t.cursor) fun f _ ↦ Accountable source f

/-- Run from `s`, the reader ends at the end of a line, at a foothold, or in a failure that is
accountable. -/
def ReachesEnd (source : List Char) (m : Reader σ α) (s : ReadState σ) : Prop :=
  m.Ensures s (fun _ t ↦ Foothold source t.cursor ∧ t.cursor.atLineEnd = true) fun f _ ↦
    Accountable source f

theorem LandsFrom.endsLine {R : α → Prop} {m : Reader σ α} {k : α → Reader σ β}
    (h : LandsFrom source R m s)
    (hk : ∀ a t, R a → Foothold source t.cursor → EndsLine source (k a) t) :
    EndsLine source (m >>= k) s :=
  Ensures.bind h fun a t ⟨ha, ht⟩ ↦ hk a t ha ht

/-- At the end of a line its break is passed, and the cursor does not move any more. -/
theorem ReachesEnd.endsLine {m : Reader σ α} {k : α → Reader σ β} (h : ReachesEnd source m s)
    (hk : ∀ a t, LineStart source t.cursor → EndsLine source (k a) t) :
    EndsLine source (m >>= fun a ↦ here >>= fun c ↦ moveTo c.nextLine >>= fun _ ↦ k a) s :=
  Ensures.bind h fun a _ ⟨ht, hend⟩ ↦ hk a _ (LineStart.nextLine ht hend)

theorem endRun_reachesEnd (hs : Foothold source s.cursor) :
    ReachesEnd source (endRun false : Reader σ Unit) s := by
  unfold ReachesEnd endRun
  simp only [ensures_bind, ensures_skipSpacing, ensures_here]
  refine ensures_ite (fun hend ↦ ⟨hs.skipSpacing, by simpa [Cursor.atRunEnd] using hend⟩) fun _ ↦ ?_
  exact .of_foothold hs.skipSpacing _

end Reader

namespace Line

theorem verbatim_reachesEnd (hg : g.Lands source) (interpolate : Bool)
    (hs : Foothold source s.cursor) : ReachesEnd source (verbatim g interpolate) s := by
  have hlands := verbatim_lands hg interpolate s hs
  unfold ReachesEnd LandsFrom Ensures at *
  cases h : verbatim g interpolate s with
  | ok line t =>
    rw [h] at hlands
    exact ⟨hlands.2, atLineEnd_of_verbatim h⟩
  | error f t =>
    rw [h] at hlands
    exact hlands

end Line

namespace Page

variable {p : Page E} {level n : Nat}

theorem expectLine_lands (o : Outline E) (id : LineId) :
    Lands source (expectLine o id : Reader σ Unit) :=
  LandsWith.ite (fun _ ↦ pure_lands _) fun _ ↦ .throw (.of_other nofun nofun)

/-- The indentation of a line is wrong at a place on it. -/
theorem level_lands {start : Cursor} (hc : Foothold source start) :
    Lands source (Page.level start (start.rest.takeWhile isSpacing) : Reader σ Nat) := by
  intro s hs
  unfold LandsFrom Page.level
  simp only [ensures_bind, ensures_get, ensures_set]
  split
  · exact ⟨trivial, hs⟩
  · rename_i misfit hmisfit
    have hle := Link.index_le_of_level hmisfit
    have hskip : start.skip misfit.index =
        start.past ((start.rest.takeWhile isSpacing).take misfit.index) := by
      rw [Cursor.past, List.length_take, Nat.min_eq_left hle]
    rw [hskip]
    exact .of_foothold_help (hc.spacing (List.take_prefix _ _)) _ (Indent.oneLine_of_level hmisfit)

theorem followers_lands (hg : g.Lands source) (o : Outline E) (owner : LineId) :
    Lands source (followers g level n o owner) := by
  induction n generalizing o owner with
  | zero =>
    refine skipSpacing_lands.bind fun _ _ ↦ here_lands.bind fun c hc ↦
      LandsWith.ite (fun _ ↦ pure_lands _) fun _ ↦ failWithHelp_lands hc _ ?_
    exact ((OneLine.of_any (by decide)).append (.toString _)).append (.of_any (by decide))
  | succ n ih =>
    refine skipSpacing_lands.bind fun _ _ ↦ here_lands.bind fun c hc ↦
      LandsWith.ite (fun _ ↦ pure_lands _) fun _ ↦ ?_
    refine (Line.markup_lands hg level).bind fun r _ ↦ (expectLine_lands _ _).bind fun _ _ ↦ ?_
    exact LandsWith.ite (fun _ ↦ ih _ _) fun _ ↦ pure_lands _

theorem chain_lands (hg : g.Lands source) (o : Outline E) : Lands source (chain g level o) := by
  refine here_lands.bind fun start hc ↦ (Line.markup_lands hg level).bind fun r _ ↦
    (expectLine_lands _ _).bind fun _ _ ↦ ?_
  split
  · exact failAt_lands hc _
  · exact LandsWith.ite (fun _ ↦ followers_lands hg _ _) fun _ ↦ pure_lands _

theorem markupLine_endsLine (hg : g.Lands source) (hs : Foothold source s.cursor)
    (o : Outline E) : EndsLine source (markupLine g o s.cursor s.spacing) s := by
  have hcontent : Foothold source (s.cursor.past s.spacing) := hs.spacing List.prefix_rfl
  refine (level_lands hs s hs).endsLine fun level t _ ht ↦ ?_
  dsimp only
  split
  · exact Accountable.of_foothold hcontent _
  · refine (moveTo_lands hcontent t ht).endsLine fun _ t _ ht ↦
      (chain_lands hg o t ht).endsLine fun r t _ ht ↦
        (endRun_reachesEnd ht).endsLine fun _ t ht ↦ ?_
    split <;> exact ht

theorem textLine_endsLine (hg : g.Lands source) (hs : Foothold source s.cursor) (o : Outline E)
    (block : Verbatim) : EndsLine source (textLine g o block) s := by
  refine (Line.verbatim_reachesEnd hg _ hs).endsLine fun line t ht ↦ ?_
  exact (ensures_bind _ _).2 (ensures_ite (fun _ ↦ ht) fun _ ↦ .of_other nofun nofun)

/-- Behind a line the next one starts. -/
theorem line_endsLine (hg : g.Lands source) (hs : Foothold source s.cursor) (p : Page E) :
    EndsLine source (line g p) s := by
  cases hc : s.cursor.skipSpacing.atLineEnd with
  | true =>
    unfold EndsLine Ensures
    rw [line_of_blank hc]
    exact .nextLine hs.skipSpacing hc
  | false =>
    cases htakes : p.takes s with
    | some found =>
      obtain ⟨-, hmargin, -⟩ := front_of_takes htakes
      unfold EndsLine Ensures
      rw [line_of_takes hc htakes]
      exact textLine_endsLine hg (hs.spacing (Link.prefix_of_marginOf hmargin)) _ _
    | none =>
      unfold EndsLine Ensures
      rw [line_of_takes_none hc htakes]
      exact markupLine_endsLine hg hs _

/-- Every line that is read starts a line of the template, and where the reading fails, it fails at a
foothold. -/
theorem lines_end (hg : g.Lands source) (hs : LineStart source s.cursor) :
    (∀ stop ∈ stops g n p s, LineStart source stop.2.cursor) ∧
      (lines g n p).Ensures s (fun _ _ ↦ True) fun f _ ↦ Accountable source f := by
  induction n generalizing p s with
  | zero => exact ⟨nofun, Accountable.of_other nofun nofun⟩
  | succ n ih =>
    unfold Ensures
    by_cases hend : s.cursor.rest = []
    · rw [stops_at_end hend, lines_at_end hend]
      exact ⟨nofun, trivial⟩
    · have hline := line_endsLine hg hs.foothold p
      unfold EndsLine Ensures at hline
      rw [lines_before_end hend]
      cases h : line g p s with
      | error f u =>
        rw [h] at hline
        rw [stops_of_error hend h, bind_of_error h]
        exact ⟨fun stop hstop ↦ List.mem_singleton.1 hstop ▸ hs, hline⟩
      | ok q t =>
        rw [h] at hline
        obtain ⟨hstops, hlines⟩ := ih (p := q) hline
        rw [stops_of_ok hend h, bind_of_ok h]
        exact ⟨List.forall_mem_cons.2 ⟨hs, hstops⟩, hlines⟩

/-- A run stops in front of lines only, never at the end of the template. -/
theorem rest_ne_nil_of_mem_stops {stop : Page E × ReadState σ} (h : stop ∈ stops g n p s) :
    stop.2.cursor.rest ≠ [] := by
  induction n generalizing p s with
  | zero => contradiction
  | succ n ih =>
    by_cases hend : s.cursor.rest = []
    · rw [stops_at_end hend] at h
      contradiction
    · cases hline : line g p s with
      | error f u =>
        rw [stops_of_error hend hline, List.mem_singleton] at h
        exact h ▸ hend
      | ok q t =>
        rw [stops_of_ok hend hline, List.mem_cons] at h
        rcases h with rfl | h
        · exact hend
        · exact ih h

end Page

section Template

variable {shape : E → Shape} {check : Mode → List Char → Option E} {maxDepth : Nat}

/-- Whatever the reading of a template fails with is accountable. -/
theorem accountable_of_lex {f : Failure}
    (h : lex (.checked shape check) maxDepth source () = .error f) : Accountable source f := by
  have hend := (Page.lines_end (n := source.length + 1) (p := .empty maxDepth)
    (s := ⟨.start source, none, ()⟩) (Setup.checked_lands source shape check maxDepth
      (source.length + 1)) (.start source)).2
  cases hlines : readLines (.checked shape check) maxDepth source () with
  | ok page t =>
    rw [lex_eq_ok.2 ⟨page, t, hlines, rfl⟩] at h
    contradiction
  | error f t =>
    rw [lex, readTemplate_of_error hlines] at h
    cases h
    exact hend.of_error hlines

/-- Each line that is read starts where a line of the template starts. -/
theorem mem_lineStarts_of_mem_stops {stop : Page E × ReadState Unit}
    (h : stop ∈ Page.stops ⟨.checked shape check, maxDepth, source.length + 1⟩ (source.length + 1)
      (.empty maxDepth) ⟨.start source, none, ()⟩) :
    stop.2.cursor.offset ∈ lineStarts source :=
  ((Page.lines_end (Setup.checked_lands source shape check maxDepth (source.length + 1))
    (.start source)).1 stop h).offset (Page.rest_ne_nil_of_mem_stops h)

/-- Positions are exact, and an offset can be told from its position. The position of an offset tells
how many line breaks end at or before it, the text of the line, and how many characters of the line
are before the offset, which counts as the boundary before it. All offsets of a line have its text,
and positions grow with the boundaries. The lines by which a template is read are these lines. -/
theorem positions_exact (shape : E → Shape) (check : Mode → List Char → Option E) (maxDepth : Nat)
    (source : List Char) :
    (∀ o, IsGreatest {b | Position.Boundary source b ∧ b ≤ o} (floorOffset source o) ∧
        Position.Exact source o (.ofOffset source o)) ∧
      (∀ a b, (Position.ofOffset source a).line = (Position.ofOffset source b).line →
        (Position.ofOffset source a).text = (Position.ofOffset source b).text) ∧
      (∀ a b, Position.Boundary source a → Position.Boundary source b →
        (a < b → Position.Before (.ofOffset source a) (.ofOffset source b)) ∧
          ((Position.ofOffset source a).line = (Position.ofOffset source b).line →
            (Position.ofOffset source a).column = (Position.ofOffset source b).column → a = b)) ∧
      ∀ stop ∈ Page.stops ⟨.checked shape check, maxDepth, source.length + 1⟩ (source.length + 1)
        (.empty maxDepth) ⟨.start source, none, ()⟩, stop.2.cursor.offset ∈ lineStarts source :=
  ⟨fun o ↦ ⟨Position.isGreatest_floorOffset source o, Position.exact source o⟩,
    fun _ _ ↦ Position.text_of_line,
    fun _ _ ha hb ↦ ⟨Position.before_of_lt ha hb, Position.boundary_injective ha hb⟩,
    fun _ ↦ mem_lineStarts_of_mem_stops⟩

end Template

end Pug
