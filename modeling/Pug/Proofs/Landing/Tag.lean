import Pug.Proofs.Landing.Basic
import Pug.Proofs.Lockstep.Tag

/-!
# Attributes, texts and tags land

What is in front tells which reader goes on, and it breaks no line, since it is told from the line
alone. Only a list of attributes goes beyond its line: between its entries line breaks are passed as
a whole, and a value may hold some in brackets.
-/

namespace Pug

open Text Token Reader

variable {σ E : Type} {source : List Char} {g : Setup σ E} {s : ReadState σ}

namespace Attribute

theorem quotedName_lands (hs : Foothold source s.cursor) {quote : Char} {rest : List Char}
    (hr : s.cursor.rest = quote :: rest) (hq : isMark quote = true) :
    LandsFrom source (fun _ ↦ True) (quotedName quote) s := by
  have hopen : Foothold source (s.cursor.past [quote]) :=
    hs.past_char hr (Link.isBreak_of_isMark hq)
  refine LandsFrom.here (LandsFrom.bump (w := [quote]) hr (utf8Size_of_isMark hq)
    (LandsFrom.here ?_))
  dsimp only
  split
  · exact failAt_lands hs _ _ hopen
  · rename_i name hname
    obtain ⟨others, ho⟩ := Name.exists_eq_append_of_quoted hname
    have honLine : OnLine (Name.quoted? quote) := fun _ hm ↦ Name.quoted_append hm quote
    have hbreak := honLine.unbroken_of_eq
      (fun cs h ↦ ⟨_, (Name.exists_eq_append_of_quoted h).choose_spec⟩) hname
    have hinside := hopen.past ho hbreak
    have hclose := Cursor.rest_past_append _ _ _ ho
    refine LandsFrom.moveTo (LandsFrom.bump (w := [quote]) hclose (utf8Size_of_isMark hq) ?_)
    exact ⟨trivial, hinside.past_char hclose (Link.isBreak_of_isMark hq)⟩

theorem bareName_lands : Lands source (bareName : Reader σ _) := by
  refine here_lands.bind fun c hc ↦ ?_
  split
  · exact failAt_lands hc _
  · rename_i name hname
    obtain ⟨others, ho⟩ := Name.exists_eq_append_of_bare hname
    have honLine : OnLine Name.bare? := fun _ hm ↦ Name.bare_append hm
    have hbreak := honLine.unbroken_of_eq (fun cs h ↦ Name.exists_eq_append_of_bare h) hname
    exact (moveTo_lands (hc.past ho hbreak)).bind fun _ _ ↦ pure_lands _

theorem anyName_lands : Lands source (anyName : Reader σ _) := by
  intro s hs
  refine LandsFrom.here ?_
  split
  · rename_i hc
    obtain ⟨rest, hr⟩ := List.head?_eq_some_iff.1 hc
    exact quotedName_lands hs hr rfl
  · rename_i hc
    obtain ⟨rest, hr⟩ := List.head?_eq_some_iff.1 hc
    exact quotedName_lands hs hr rfl
  · exact bareName_lands s hs

theorem name_lands : Lands source (name : Reader σ _) :=
  here_lands.bind fun _ hc ↦ anyName_lands.bind fun _ _ ↦
    LandsWith.ite (fun _ ↦ failAt_lands hc _) fun _ ↦ pure_lands _

theorem entry_lands (hg : g.Lands source) : Lands source (entry g) := by
  refine name_lands.bind fun found _ ↦ here_lands.bind fun c hc ↦
    skipSpacing_lands.bind fun _ _ ↦ (eat_lands (by decide)).bind fun _ _ ↦ ?_
  refine LandsWith.ite (fun _ ↦ (hg _ _).bind fun _ _ ↦ pure_lands _) fun _ ↦
    (eat_lands (by decide)).bind fun _ _ ↦ ?_
  refine LandsWith.ite (fun _ ↦ (hg _ _).bind fun _ _ ↦ pure_lands _) fun _ ↦
    (moveTo_lands hc).bind fun _ _ ↦ ?_
  exact LandsWith.ite (fun _ ↦ pure_lands _) fun _ ↦ failAt_lands hc _

theorem item_lands (hg : g.Lands source) {start : Cursor} (hstart : Foothold source start) :
    Lands source (item g start) := by
  refine skipSeparators_lands.bind fun _ _ s hs ↦ LandsFrom.here ?_
  split
  · exact failAt_lands hstart _ _ hs
  · rename_i rest hr
    exact LandsFrom.bump (w := [')']) hr rfl ⟨trivial, hs.past_char hr rfl⟩
  · exact (entry_lands hg).bind (fun _ _ ↦ skipSeparators_lands.bind fun _ _ ↦
      (eat_lands (by decide)).bind fun _ _ ↦ pure_lands _) s hs

theorem list_lands (hg : g.Lands source) (hs : Foothold source s.cursor) {rest : List Char}
    (hr : s.cursor.rest = '(' :: rest) : LandsFrom source (fun _ ↦ True) (list g) s := by
  refine LandsFrom.here (LandsFrom.bump (w := ['(']) hr rfl ?_)
  refine (gather_lands (item_lands hg hs) _).bind (fun _ _ ↦ ?_) _ (hs.past_char hr rfl)
  exact (tokenFrom_lands _ _).bind fun _ _ ↦ pure_lands _

end Attribute

namespace TextRun

theorem output_lands (hg : g.Lands source) (hs : Foothold source s.cursor) {w rest : List Char}
    (hr : s.cursor.rest = w ++ rest) (hw : ∀ x ∈ w, isBreak x = false) (hsize : byteLength w = 2)
    (kind : Kind) : LandsFrom source (fun _ ↦ True) (output g kind) s := by
  refine LandsFrom.here (LandsFrom.bump hr hsize ?_)
  refine (hg _ _).bind (fun _ _ ↦ (eat_lands (by decide)).bind fun _ _ ↦ ?_) _ (hs.past hr hw)
  refine LandsWith.ite (fun _ ↦ ?_) fun _ ↦ here_lands.bind fun _ hc ↦ failAt_lands hc _
  exact (tokenFrom_lands _ _).bind fun _ _ ↦ pure_lands _

end TextRun

/-- A reader of inline tags lands where an inline tag opens. -/
def InlineTagLands (source : List Char) (inlineTag : Reader σ (Token E)) : Prop :=
  ∀ (s : ReadState σ) (rest : List Char), Foothold source s.cursor →
    s.cursor.rest = '#' :: '[' :: rest → LandsFrom source (fun _ ↦ True) inlineTag s

section

variable {inlineTag : Reader σ (Token E)} {interpolated : Bool}

namespace TextRun

theorem piece_lands (hg : g.Lands source) (hi : InlineTagLands source inlineTag) :
    Lands source (piece g inlineTag interpolated) := by
  intro s hs
  refine LandsFrom.here ?_
  have honLine := Link.ofRest_onLine interpolated
  cases hf : Front.ofRest interpolated s.cursor.rest with
  | finished => exact pure_lands _ s hs
  | output kind =>
    have hopen : ∀ cs, Front.ofRest interpolated cs = .output kind →
        ∃ w others, cs = w ++ others ∧ byteLength w = 2 := by
      intro cs h
      obtain ⟨mark, rest, hr, hsize, -⟩ := output_of_front h
      exact ⟨[mark, '\x7b'], rest, hr, by rw [byteLength_cons, hsize]; rfl⟩
    obtain ⟨w, rest, hr, hsize, hw⟩ := honLine.exists_front hopen hf
    exact one_lands (output_lands hg hs hr hw hsize kind)
  | inlineTag =>
    obtain ⟨rest, hr⟩ := inlineTag_of_front hf
    exact one_lands (hi s rest hs hr)
  | literal escape text =>
    have hliteral : ∀ cs, Front.ofRest interpolated cs = .literal escape text →
        ∃ w others, cs = w ++ others ∧ ∃ mark, w = mark ++ text ∧ byteLength mark = escape := by
      intro cs h
      obtain ⟨mark, others, hr, hsize, -, -⟩ := literal_of_front h
      exact ⟨mark ++ text, others, by rw [List.append_assoc, ← hr], mark, rfl, hsize⟩
    obtain ⟨_, others, hr, ⟨mark, rfl, hsize⟩, hw⟩ := honLine.exists_front hliteral hf
    rw [List.append_assoc] at hr
    rw [List.forall_mem_append] at hw
    refine LandsFrom.bump hr hsize (LandsFrom.here (LandsFrom.moveTo ⟨trivial, ?_⟩))
    exact (hs.past hr hw.1).past (Cursor.rest_past_append _ _ _ hr) hw.2

theorem pieces_lands (hg : g.Lands source) (hi : InlineTagLands source inlineTag) :
    Lands source (pieces g inlineTag interpolated) :=
  (gather_lands (piece_lands hg hi) _).bind fun _ _ ↦ pure_lands _

theorem run_lands (hg : g.Lands source) (hi : InlineTagLands source inlineTag) :
    Lands source (run g inlineTag interpolated) :=
  here_lands.bind fun _ _ ↦ (pieces_lands hg hi).bind fun _ _ ↦
    (tokenFrom_lands _ _).bind fun _ _ ↦ pure_lands _

end TextRun

namespace Tag

theorem note_lands (hs : Foothold source s.cursor) {mark : Char} {rest : List Char}
    (hr : s.cursor.rest = mark :: rest) (hm : isMark mark = true) (kind : Kind) :
    LandsFrom source (fun _ ↦ True) (note kind : Reader σ (Token E)) s := by
  have hopen := hs.past_char hr (Link.isBreak_of_isMark hm)
  refine LandsFrom.bump (w := [mark]) hr (utf8Size_of_isMark hm)
    (LandsFrom.here (LandsFrom.moveTo ⟨trivial, ?_⟩))
  exact hopen.skipWhile rfl rfl

theorem spread_lands (hg : g.Lands source) (hs : Foothold source s.cursor)
    (hr : s.cursor.startsWith spreadOpener = true) :
    LandsFrom source (fun _ ↦ True) (spread g) s := by
  refine LandsFrom.here (LandsFrom.bump (Cursor.leads_of_startsWith hr).1 (by decide) ?_)
  refine (hg _ _).bind (fun _ _ ↦ skipSpacing_lands.bind fun _ _ ↦
    (eat_lands (by decide)).bind fun _ _ ↦ ?_) _ (hs.past_startsWith hr (by decide))
  refine LandsWith.ite (fun _ ↦ ?_) fun _ ↦ here_lands.bind fun _ hc ↦ failAt_lands hc _
  exact (tokenFrom_lands _ _).bind fun _ _ ↦ pure_lands _

theorem output_lands (hg : g.Lands source) (hs : Foothold source s.cursor) {w rest : List Char}
    {mark : Nat} (hr : s.cursor.rest = w ++ rest) (hw : ∀ x ∈ w, isBreak x = false)
    (hsize : byteLength w = mark) (kind : Kind) (site : Site) :
    LandsFrom source (fun _ ↦ True) (output g kind mark site) s := by
  refine LandsFrom.here (LandsFrom.bump hr hsize ?_)
  exact (hg _ _).bind (fun _ _ ↦ (tokenFrom_lands _ _).bind fun _ _ ↦ pure_lands _) _
    (hs.past hr hw)

theorem closingMark_lands (hs : Foothold source s.cursor) {mark : Char} {rest : List Char}
    (hr : s.cursor.rest = mark :: rest) (hm : isBreak mark = false) (hsize : mark.utf8Size = 1)
    (kind : Kind) (interpolated : Bool) :
    LandsFrom source (fun _ ↦ True) (closingMark kind interpolated : Reader σ (Token E)) s := by
  refine LandsFrom.here (LandsFrom.bump (w := [mark]) hr hsize ?_)
  exact (tokenFrom_lands _ _).bind (fun _ _ ↦ (endRun_lands _).bind fun _ _ ↦ pure_lands _) _
    (hs.past_char hr hm)

theorem text_lands (hg : g.Lands source) (hi : InlineTagLands source inlineTag)
    (hs : Foothold source s.cursor) {c : Char} {rest : List Char} (hr : s.cursor.rest = c :: rest)
    (hc : isSpacing c = true) :
    LandsFrom source (fun _ ↦ True) (text g inlineTag interpolated) s := by
  refine LandsFrom.bump (w := [c]) hr (utf8Size_of_isSpacing hc) ?_
  refine here_lands.bind (fun _ _ ↦ ?_) _ (hs.past_char hr (isBreak_of_isSpacing hc))
  exact LandsWith.ite (fun _ ↦ skipLine_lands.bind fun _ _ ↦ pure_lands _) fun _ ↦
    (TextRun.run_lands hg hi).bind fun _ _ ↦ pure_lands _

theorem part_lands (hg : g.Lands source) (hi : InlineTagLands source inlineTag) :
    Lands source (part g inlineTag interpolated) := by
  intro s hs
  refine LandsFrom.here ?_
  have hfront := standsAt_ofRest interpolated s.cursor.rest
  cases hp : Part.ofRest interpolated s.cursor.rest with
  | finished => exact pure_lands _ s hs
  | note kind =>
    rw [hp] at hfront
    obtain ⟨mark, rest, hr, hm, -⟩ := hfront
    exact one_lands (note_lands hs hr hm kind)
  | dotBlock =>
    rw [hp] at hfront
    obtain ⟨rest, hr⟩ := hfront
    exact (closingMark_lands hs hr rfl rfl _ _).bind fun _ _ ↦ pure_lands _
  | attributes =>
    rw [hp] at hfront
    obtain ⟨rest, hr⟩ := hfront
    exact one_lands (Attribute.list_lands hg hs hr)
  | spread =>
    rw [hp] at hfront
    exact one_lands (spread_lands hg hs hfront)
  | selfClose =>
    rw [hp] at hfront
    obtain ⟨rest, hr⟩ := hfront
    exact (closingMark_lands hs hr rfl rfl _ _).bind fun _ _ ↦ pure_lands _
  | output kind mark =>
    have honLine : OnLine (Part.ofRest interpolated) :=
      fun _ hm ↦ Tag.ofRest_append hm interpolated
    have hmark : ∀ cs, Part.ofRest interpolated cs = .output kind mark →
        ∃ w others, cs = w ++ others ∧ byteLength w = mark := by
      intro cs h
      have hcs := standsAt_ofRest interpolated cs
      rw [h] at hcs
      obtain ⟨w, rest, hr, hsize, -⟩ := hcs
      exact ⟨w, rest, hr, hsize⟩
    obtain ⟨w, rest, hr, hsize, hw⟩ := honLine.exists_front hmark hp
    exact (output_lands hg hs hr hw hsize kind _).bind fun _ _ ↦
      (endRun_lands _).bind fun _ _ ↦ pure_lands _
  | follow =>
    rw [hp] at hfront
    obtain ⟨-, rest, hr⟩ := hfront
    exact LandsFrom.bump (w := [':']) hr rfl ⟨trivial, hs.past_char hr rfl⟩
  | text =>
    rw [hp] at hfront
    obtain ⟨c, rest, hr, hc⟩ := hfront
    exact (text_lands hg hi hs hr hc).bind fun _ _ ↦ pure_lands _
  | unexpected => exact failAt_lands hs _ s hs

theorem parts_lands (hg : g.Lands source) (hi : InlineTagLands source inlineTag) :
    Lands source (parts g inlineTag interpolated) :=
  gather_lands (part_lands hg hi) _

theorem wrap_lands (c : Cursor) (a : Token E) : Lands source (wrap c a : Reader σ _) :=
  (tokenFrom_lands _ _).bind fun _ _ ↦ pure_lands _

theorem tag_onLine : OnLine Name.tag :=
  fun _ hm ↦ Name.tag_append hm

theorem inlineWith_lands (hg : g.Lands source) (hi : InlineTagLands source inlineTag) :
    InlineTagLands source (inlineWith g inlineTag) := by
  intro s rest hs hr
  have hopen : Foothold source (s.cursor.past ['#', '[']) :=
    hs.past (w := ['#', '[']) hr (by simp [isBreak])
  refine LandsFrom.here (LandsFrom.bump (w := ['#', '[']) hr rfl (LandsFrom.here ?_))
  refine (moveTo_lands (hopen.past_onLine tag_onLine Name.exists_eq_tag_append)).bind
    (fun _ _ ↦ (parts_lands hg hi).bind fun _ _ ↦ ?_) _ hopen
  refine LandsWith.ite (fun _ ↦ failAt_lands hs _) fun _ ↦ (eat_lands (by decide)).bind fun _ _ ↦ ?_
  exact LandsWith.ite (fun _ ↦ wrap_lands _ _) fun _ ↦
    here_lands.bind fun _ hc ↦ failAt_lands hc _

end Tag

end

namespace Tag

theorem inlineTag_lands (hg : g.Lands source) (levels : Nat) :
    InlineTagLands source (inlineTag g levels) := by
  induction levels with
  | zero =>
    intro s rest hs hr
    refine here_lands.bind (fun c hc ↦ failWithHelp_lands hc _ ?_) s hs
    exact ((OneLine.of_any (by decide)).append (.toString _)).append (.of_any (by decide))
  | succ levels ih => exact inlineWith_lands hg ih

theorem lineParts_lands (hg : g.Lands source) : Lands source (lineParts g) :=
  parts_lands hg (inlineTag_lands hg _)

theorem line_lands (hg : g.Lands source) (c : Cursor) (name : List Char) :
    Lands source (line g c name) :=
  (lineParts_lands hg).bind fun _ _ ↦ (wrap_lands _ _).bind fun _ _ ↦ pure_lands _

end Tag

theorem TextRun.onLine_lands (hg : g.Lands source) : Lands source (TextRun.onLine g) :=
  run_lands hg (Tag.inlineTag_lands hg _)

end Pug
