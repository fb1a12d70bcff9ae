import Pug.Grammar.Tag
import Pug.Proofs.Reading.Attribute
import Pug.Proofs.Reading.Text

/-!
# Readings of tags

Each part of a tag is read as one token, and a tag is the token of its name with its parts below
it, in a wrapper. The tags inside a run of text are read by induction on the levels that may still
be opened, so that a run of text may hold inline tags of any depth that is accepted.
-/

namespace Pug.Tag

open Text Token Reader
open ExpressionParser (Call)

variable {σ E : Type} {source : List Char} {s : Recorded σ E}
variable {g : Setup (σ × List (Call E)) E} {parser : ExpressionParser σ E}

/-- What stands at the front of each part of a tag. -/
def Part.StandsAt (interpolated : Bool) (cs : List Char) : Part → Prop
  | .note kind => ∃ mark rest, cs = mark :: rest ∧ isMark mark = true ∧ kind.isContainer = false
  | .dotBlock => ∃ rest, cs = '.' :: rest
  | .attributes => ∃ rest, cs = '(' :: rest
  | .spread => spreadOpener.toList.isPrefixOf cs = true
  | .selfClose => ∃ rest, cs = '/' :: rest
  | .output kind mark => ∃ w rest, cs = w ++ rest ∧ byteLength w = mark ∧ kind.isContainer = false
  | .follow => interpolated = false ∧ ∃ rest, cs = ':' :: rest
  | .text => ∃ c rest, cs = c :: rest ∧ isSpacing c = true
  | .finished | .unexpected => True

theorem standsAt_ofRest (interpolated : Bool) (cs : List Char) :
    (Part.ofRest interpolated cs).StandsAt interpolated cs := by
  unfold Part.ofRest
  split
  · trivial
  · rename_i c rest
    split
    · trivial
    · split
      · rename_i hc
        exact ⟨c, rest, rfl, hc⟩
      · split
        · split
          · exact ⟨_, _, rfl, rfl, rfl⟩
          · split
            · trivial
            · exact ⟨_, rfl⟩
        · split
          · exact ⟨_, _, rfl, rfl, rfl⟩
          · trivial
        · exact ⟨_, rfl⟩
        · split
          · assumption
          · trivial
        · exact ⟨_, rfl⟩
        · exact ⟨['='], rest, rfl, rfl, rfl⟩
        · split
          · rename_i h
            obtain ⟨more, rfl⟩ := List.head?_eq_some_iff.1 h
            exact ⟨['!', '='], more, rfl, rfl, rfl⟩
          · trivial
        · split
          · trivial
          · rename_i h
            exact ⟨by simpa using h, _, rfl⟩
        · trivial

theorem note_reads (hs : Settled source s) {mark : Char} {rest : List Char}
    (hr : s.cursor.rest = mark :: rest) (hm : isMark mark = true) {kind : Kind}
    (hk : kind.isContainer = false) :
    (note kind).Ensures s (TokenRead source s) (Broken source) := by
  have hl := Cursor.leads_cons hr
  have hopen := reading_marks hs.place hl (by simp [hm])
  have hname := (s.cursor.past [mark]).leads_skipWhile Name.isChar
  unfold note
  simp only [ensures_bind, ensures_here, ensures_moveTo, ensures_pure]
  refine ensures_bump hl (utf8Size_of_isMark hm) ⟨?_, ?_⟩
  · exact hopen.after (.leaf (hopen.place hs.place) (moved_to hname) hk)
  · have h₁ := hl.length_rest
    have h₂ := hname.length_rest
    simp only [List.length_singleton] at h₁
    change ((s.cursor.past [mark]).skipWhile Name.isChar).rest.length < _
    omega

theorem spread_reads (hg : g.Records parser source) (hs : Settled source s)
    (hr : s.cursor.startsWith spreadOpener = true) :
    (spread g).Ensures s (TokenRead source s) (Broken source) := by
  have hl := Cursor.leads_of_startsWith hr
  have hopen := moved_to (s := s) hl
  unfold spread
  simp only [ensures_bind, ensures_here]
  refine ensures_bump hl (by decide) ?_
  refine (expression_reads hg (hs.of_moved hopen) _ _).mono ?_
  rintro e n ⟨hn, hlt⟩
  have hsn := (hs.of_moved hopen).of_reading hn
  have hspace := moved_to (s := n) n.cursor.leads_skipSpacing
  simp only [ensures_skipSpacing]
  refine ensures_eat (fun h ↦ ?_) fun _ ↦ ?_
  · have hclose := Cursor.leads_of_startsWith h
    have hend := hspace.trans (moved_to hclose)
    obtain ⟨v, hv⟩ := hn.leads
    have hx := (hl.trans hv).trans hend.leads
    simp only [↓reduceIte, ensures_bind, ensures_pure]
    refine ensures_tokenFrom hx ⟨TextRun.reading_around hs.place hopen hn hend rfl hx, ?_⟩
    have h₁ := hl.length_rest
    have h₂ := hend.leads.length_rest
    simp only at h₁ h₂ hlt ⊢
    omega
  · have hsp := hsn.of_moved hspace
    simp only [Bool.false_eq_true, ↓reduceIte, ensures_bind, ensures_here, ensures_failAt]
    exact hsp.broken hsp.place _ _

theorem output_reads (hg : g.Records parser source) (hs : Settled source s) {w rest : List Char}
    {mark : Nat} (hr : s.cursor.rest = w ++ rest) (hw : byteLength w = mark) {kind : Kind}
    (hk : kind.isContainer = false) (site : Site) :
    (output g kind mark site).Ensures s
      (fun a t ↦ TokenRead source s a t ∧ a.kind = kind) (Broken source) := by
  have hl := Cursor.leads_past hr
  have hopen := moved_to (s := s) hl
  unfold output
  simp only [ensures_bind, ensures_here, ensures_pure]
  refine ensures_bump hl hw ?_
  refine (expression_reads hg (hs.of_moved hopen) _ _).mono ?_
  rintro e n ⟨hn, hlt⟩
  obtain ⟨v, hv⟩ := hn.leads
  have hx := hl.trans hv
  refine ensures_tokenFrom hx ⟨⟨?_, ?_⟩, rfl⟩
  · have hstay : Moved n [] n := ⟨.refl _, rfl⟩
    exact TextRun.reading_around hs.place hopen hn hstay hk hx
  · have h₁ := hl.length_rest
    simp only at h₁ hlt ⊢
    omega

/-- A closing mark is a token of one character, and the end of the run is behind it. -/
theorem closingMark_reads (hs : Settled source s) {c : Char} {rest : List Char}
    (hr : s.cursor.rest = c :: rest) (hc : c.utf8Size = 1) {kind : Kind}
    (hk : kind.isContainer = false) (interpolated : Bool) :
    (closingMark kind interpolated).Ensures s
      (fun a t ↦ Reading source s [a] t ∧ a.kind = kind) (Broken source) := by
  have hl := Cursor.leads_cons hr
  have hmark : Reading source s [ofText kind s.cursor [c]] { s with cursor := s.cursor.past [c] } :=
    .leaf hs.place (moved_to hl) hk
  unfold closingMark
  simp only [ensures_bind, ensures_here, ensures_pure]
  refine ensures_bump hl (by simp [hc]) (ensures_tokenFrom hl ?_)
  refine (endRun_reads (hs.of_reading hmark) interpolated).mono ?_
  rintro _ t ⟨_, _, ht⟩
  exact ⟨hmark.before ht, rfl⟩

section

variable {inlineTag : Reader (σ × List (Call E)) (Token E)} {interpolated : Bool}

theorem utf8Size_of_isSpacing {c : Char} (h : isSpacing c = true) : c.utf8Size = 1 := by
  simp only [isSpacing, Bool.or_eq_true, beq_iff_eq] at h
  rcases h with rfl | rfl <;> rfl

theorem text_reads (hg : g.Records parser source)
    (hi : TextRun.ReadsInlineTags source inlineTag) (hs : Settled source s) {c : Char}
    {rest : List Char} (hr : s.cursor.rest = c :: rest) (hc : isSpacing c = true) :
    (text g inlineTag interpolated).Ensures s (fun ts t ↦ Reading source s ts t)
      (Broken source) := by
  have hl := Cursor.leads_cons hr
  have hopen : Reading source s [] { s with cursor := s.cursor.past [c] } :=
    .gap hs.place (moved_to hl) (by simp [isBlank_of_isSpacing hc])
  have hsopen := hs.of_reading hopen
  unfold text
  simp only [ensures_bind, ensures_here]
  refine ensures_bump hl (by simp [utf8Size_of_isSpacing hc]) ?_
  split
  · -- Only spacing is left on the line, so what is skipped are blanks.
    rename_i h
    have hblank : (s.cursor.past [c]).line.all isSpacing = true := (Bool.and_eq_true_iff.1 h).2
    simp only [ensures_bind, ensures_skipLine, ensures_pure]
    refine hopen.trans (.gap hsopen.place (moved_to (s.cursor.past [c]).leads_lineEnd) ?_)
    intro x hx
    exact .inl (isBlank_of_isSpacing (List.all_eq_true.1 hblank x hx))
  · simp only [ensures_bind, ensures_pure]
    refine (TextRun.run_reads hg hi hsopen).mono ?_
    rintro a t ⟨hchildren, ha, _, _⟩
    split
    · rename_i he
      rw [List.isEmpty_iff.1 he] at hchildren
      exact hopen.trans hchildren
    · exact hopen.after ha

/-- What ends the parts of a tag: where another line follows, a word may start. -/
def PartsEnd (source : List Char) (tail : LineTail) (t : Recorded σ E) : Prop :=
  tail = .follow → Fresh source t.cursor

theorem part_reads (hg : g.Records parser source)
    (hi : TextRun.ReadsInlineTags source inlineTag) (hs : Settled source s) :
    (part g inlineTag interpolated).Ensures s (ItemRead source (PartsEnd source) s)
      (Broken source) := by
  have hfront := standsAt_ofRest interpolated s.cursor.rest
  unfold part
  simp only [ensures_bind, ensures_here]
  cases hp : Part.ofRest interpolated s.cursor.rest with
  | finished => exact ⟨.refl source s, by rintro ⟨⟩⟩
  | note kind =>
    rw [hp] at hfront
    obtain ⟨mark, rest, hr, hm, hk⟩ := hfront
    simp only [ensures_bind, ensures_pure]
    exact note_reads hs hr hm hk
  | dotBlock =>
    rw [hp] at hfront
    obtain ⟨rest, hr⟩ := hfront
    simp only [ensures_bind, ensures_pure]
    exact (closingMark_reads hs hr rfl rfl false).mono fun a t ht ↦ ⟨ht.1, by rintro ⟨⟩⟩
  | attributes =>
    rw [hp] at hfront
    obtain ⟨rest, hr⟩ := hfront
    simp only [ensures_bind, ensures_pure]
    exact Attribute.list_reads hg hs hr
  | spread =>
    rw [hp] at hfront
    simp only [ensures_bind, ensures_pure]
    exact spread_reads hg hs hfront
  | selfClose =>
    rw [hp] at hfront
    obtain ⟨rest, hr⟩ := hfront
    simp only [ensures_bind, ensures_pure]
    exact (closingMark_reads hs hr rfl rfl interpolated).mono fun a t ht ↦ ⟨ht.1, by rintro ⟨⟩⟩
  | output kind mark =>
    rw [hp] at hfront
    obtain ⟨w, rest, hr, hw, hk⟩ := hfront
    simp only [ensures_bind, ensures_pure]
    refine (output_reads hg hs hr hw hk _).mono ?_
    rintro a m ⟨ha, _⟩
    refine (endRun_reads (hs.of_reading ha.1) interpolated).mono ?_
    rintro _ t ⟨_, _, ht⟩
    exact ⟨ha.1.before ht, by rintro ⟨⟩⟩
  | follow =>
    rw [hp] at hfront
    obtain ⟨-, rest, hr⟩ := hfront
    have hl := Cursor.leads_cons hr
    simp only [ensures_bind, ensures_pure]
    refine ensures_bump hl rfl ⟨reading_marks hs.place hl rfl, fun _ ↦ ?_⟩
    exact .of_leads hs.place hl (by simp) rfl
  | text =>
    rw [hp] at hfront
    obtain ⟨c, rest, hr, hc⟩ := hfront
    simp only [ensures_bind, ensures_pure]
    exact (text_reads hg hi hs hr hc).mono fun ts t ht ↦ ⟨ht, by rintro ⟨⟩⟩
  | unexpected => exact hs.broken hs.place _ _

theorem parts_reads (hg : g.Records parser source)
    (hi : TextRun.ReadsInlineTags source inlineTag) (hs : Settled source s) :
    (parts g inlineTag interpolated).Ensures s
      (fun r t ↦ Reading source s r.1 t ∧ PartsEnd source r.2 t) (Broken source) :=
  gather_rounds_reads hg (fun _ h ↦ part_reads hg hi h) hs

/-- An inline tag is read as a wrapped tag if the inline tags in its text are read. -/
theorem inlineWith_reads (hg : g.Records parser source)
    (hi : TextRun.ReadsInlineTags source inlineTag) :
    TextRun.ReadsInlineTags source (inlineWith g inlineTag) := by
  intro s rest hs hr
  have hl := TextRun.leads_opener hr
  have hopen := reading_marks hs.place hl rfl
  have hsopen := hs.of_reading hopen
  obtain ⟨others, ho⟩ := Name.exists_eq_tag_append (s.cursor.past ['#', '[']).rest
  have hname := Cursor.leads_past ho
  have htag : Reading source _ [ofText .tag (s.cursor.past ['#', '[']) _] _ :=
    .leaf hsopen.place (moved_to hname) rfl
  have hread := hopen.after htag
  unfold inlineWith
  simp only [ensures_bind, ensures_here, ensures_moveTo]
  refine ensures_bump hl rfl ?_
  refine (parts_reads hg hi (hs.of_reading hread)).mono ?_
  rintro r m ⟨hparts, _⟩
  have hwhole := hopen.after (htag.below rfl rfl hparts)
  have hsm := hs.of_reading hwhole
  refine ensures_ite (fun _ ↦ hsm.broken hs.place _ _) fun _ ↦ ?_
  simp only [ensures_bind]
  refine ensures_eat (fun h ↦ ?_) fun _ ↦ ?_
  · have hclose := Cursor.leads_of_startsWith h
    have hread := hwhole.before (reading_marks hsm.place hclose rfl)
    obtain ⟨w, hw⟩ := hread.leads
    simp only [↓reduceIte, wrap, ensures_bind, ensures_pure]
    refine ensures_tokenFrom hw ⟨hread.wrap (hs.place.stands hw) rfl rfl, ?_⟩
    have h₁ := hl.length_rest
    have h₂ := hclose.length_rest
    have h₃ := hname.length_rest
    have h₄ := hparts.length_rest_le
    simp only [List.length_cons] at h₁ h₂ h₃ h₄ ⊢
    omega
  · simp only [Bool.false_eq_true, ↓reduceIte, ensures_bind, ensures_here, ensures_failAt]
    exact hsm.broken hsm.place _ _

end

/-- Inline tags are read as far as they may be nested. -/
theorem inlineTag_reads (hg : g.Records parser source) (levels : Nat) :
    TextRun.ReadsInlineTags source (inlineTag g levels) := by
  induction levels with
  | zero =>
    intro s rest hs hr
    exact hs.broken hs.place _ _
  | succ levels ih => exact inlineWith_reads hg ih

theorem lineParts_reads (hg : g.Records parser source) (hs : Settled source s) :
    (lineParts g).Ensures s
      (fun r t ↦ Reading source s r.1 t ∧ PartsEnd source r.2 t) (Broken source) :=
  parts_reads hg (inlineTag_reads hg g.maxDepth) hs

end Pug.Tag

namespace Pug

open Text Token Reader
open ExpressionParser (Call)

variable {σ E : Type} {source : List Char} {s m t : Recorded σ E}
variable {g : Setup (σ × List (Call E)) E} {parser : ExpressionParser σ E}

/-- What has been read of a line: what it says and what it asks of the lines below. -/
structure LineRead (source : List Char) (s : Recorded σ E) (r : Token E × LineTail)
    (t : Recorded σ E) : Prop where
  reading : Reading source s [r.1] t
  wrapper : r.1.WrapsTag
  follow : Tag.PartsEnd source r.2 t

namespace LineRead

variable {r : Token E × LineTail}

theorem after (h : Reading source s [] m) (k : LineRead source m r t) : LineRead source s r t :=
  ⟨h.after k.reading, k.wrapper, k.follow⟩

theorem of_reading {a : Token E} {tail : LineTail} (h : Reading source s [a] t)
    (hk : a.kind ≠ .lineData) (ht : Tag.PartsEnd source tail t) : LineRead source s (a, tail) t :=
  ⟨h, fun hl ↦ absurd hl hk, ht⟩

end LineRead

/-- A tag on a line, whose name is passed first. -/
theorem Tag.line_reads (hg : g.Records parser source) (hs : Settled source s) {name : List Char}
    (hl : s.cursor.Leads name (s.cursor.past name)) :
    (Tag.line g s.cursor name).Ensures { s with cursor := s.cursor.past name }
      (LineRead source s) (Broken source) := by
  have htag : Reading source s [ofText .tag s.cursor name] _ := .leaf hs.place (moved_to hl) rfl
  unfold Tag.line
  simp only [ensures_bind, wrap, ensures_pure]
  refine (lineParts_reads hg (hs.of_reading htag)).mono ?_
  rintro r t ⟨ht, hend⟩
  have hread := htag.below rfl rfl ht
  obtain ⟨w, hw⟩ := hread.leads
  refine ensures_tokenFrom hw ⟨?_, fun _ ↦ ⟨rfl, _, rfl, rfl⟩, hend⟩
  exact hread.wrap (hs.place.stands hw) rfl rfl

/-- A run of text on a line of its own. -/
theorem TextRun.onLine_reads (hg : g.Records parser source) (hs : Settled source s) :
    (TextRun.onLine g).Ensures s
      (fun a t ↦ Reading source s [a] t ∧ a.kind = .linePlainText ∧ t.cursor.atLineEnd = true)
      (Broken source) := by
  refine (run_reads hg (Tag.inlineTag_reads hg g.maxDepth) hs).mono ?_
  rintro a t ⟨_, ha, hk, hend⟩
  exact ⟨ha, hk, by simpa [Cursor.atRunEnd] using hend⟩

end Pug
