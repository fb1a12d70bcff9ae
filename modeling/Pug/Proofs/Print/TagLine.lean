import Pug.Proofs.Print.Text

/-!
# Lines of tags and calls, written and read back

A line starts with a tag or with a call of a mixin, and its modifiers: its front. Then it ends, with
a mark, output or text, or another line follows behind a `:`. What ends a line goes on with no name
and opens no list, so the front is read up to it; and it is the last part that is read.
-/

namespace Pug

open Text Token Reader Extent
open ExpressionParser (loose)

namespace Tag

/-- A `(` opens the modifier. -/
def Modifier.isList : Modifier → Bool
  | attributes .. => true
  | _ => false

/-- A tag, whose name may be empty, or a call. -/
inductive Head where
  | tag (name : List Char)
  | call (name : List Char) (argument : Option (Phrase .inline))

/-- A tag or a call, and its modifiers. -/
structure Front where
  head : Head
  modifiers : List Modifier

/-- What a line ends in. -/
inductive Ending where
  | bare
  | selfClose
  | dotBlock
  | output (escaped : Bool) (e : Phrase .inline)
  | text (chars : List Char)

/-- What stands behind the name of a call. -/
def argumentsText : Option (Phrase .inline) → List Char
  | none => []
  | some e => '(' :: (e.text ++ [')'])

def Head.text : Head → List Char
  | tag name => name
  | call name argument => '+' :: (name ++ argumentsText argument)

namespace Front

/-- A tag has a name that starts with a letter and is not reserved, or no name but modifiers. A call
has a name, and a list behind the name would be its arguments. -/
def writable : Front → Bool
  | ⟨.tag [], modifiers⟩ => !modifiers.isEmpty
  | ⟨.tag (c :: rest), _⟩ =>
    isName (c :: rest) && c.isAlpha && (Keyword.ofWord? (c :: rest)).isNone
  | ⟨.call name none, modifiers⟩ => isName name && !modifiers.head?.any Modifier.isList
  | ⟨.call name (some _), _⟩ => isName name

def text (f : Front) : List Char :=
  f.head.text ++ modifiersText f.modifiers

/-- What a tag or a call is read as, with what else stands in it. -/
def sketch (f : Front) (inner : List Sketch) : Sketch :=
  match f.head with
  | .tag name =>
    .row .lineData [⟨.tag, String.ofList name, none, f.modifiers.map Modifier.sketch ++ inner⟩]
  | .call name argument => ⟨.mixinCall, String.ofList name, none,
    argument.toList.map (fun e ↦ .value .mixinArgs e.text e.text) ++
      (f.modifiers.map Modifier.sketch ++ inner)⟩

end Front

namespace Ending

/-- Text is not blank, stands for itself, and holds no opener. -/
def writable : Ending → Bool
  | text chars => !chars.all isSpacing && chars.all (TextRun.isPlain false) &&
      chars.tails.all fun cs ↦ !TextRun.opens cs
  | _ => true

/-- What output is marked by. -/
def mark (escaped : Bool) : List Char :=
  if escaped then ['='] else ['!', '=']

def written : Ending → List Char
  | bare => []
  | selfClose => ['/']
  | dotBlock => ['.']
  | output escaped e => mark escaped ++ e.text
  | text chars => ' ' :: chars

def sketches : Ending → List Sketch
  | bare => []
  | selfClose => [.leaf .tagSelfClose ['/']]
  | dotBlock => [.leaf .tagDotBlock ['.']]
  | output escaped e => [.value (TextRun.outputKind escaped) (mark escaped ++ e.text) e.text]
  | text chars => [.row .linePlainText [.leaf .plainText chars]]

/-- Only a lone `.` asks something of the lines below. -/
def tail : Ending → LineTail
  | dotBlock => .verbatim true
  | _ => .plain

end Ending

section Reading

variable {g : Setup Unit Shape} {c d m : Cursor} {broken : Failure → Prop}
variable {inlineTag : Reader Unit (Token Shape)}

theorem closingMark_yields {kind : Kind} {mark : Char} (hk : kind.isContainer = false)
    (hmark : byteLength [mark] = 1) (h : c.Leads [mark] d) (hd : d.atLineEnd = true) :
    (closingMark kind false : Reader Unit (Token Shape)).Yields c
      (fun t y ↦ t.sketch = .leaf kind [mark] ∧ y = d) broken := by
  have hskip := Cursor.skipSpacing_of_atLineEnd hd
  refine .here (.bump h hmark (.tokenFrom h (.endRun ?_ ?_)))
  · rw [hskip]
    exact Cursor.atRunEnd_of_atLineEnd hd
  · rw [hskip]
    exact .pure ⟨sketch_ofText hk _ _, rfl⟩

theorem output_yields {escaped : Bool} {e : Phrase .inline} (hg : g.Covers c) {site : Site}
    (h : c.Leads (Ending.mark escaped ++ e.text) d) (hd : d.atLineEnd = true) :
    (output g (TextRun.outputKind escaped) (Ending.mark escaped).length site).Yields c (fun t y ↦
      t.sketch = .value (TextRun.outputKind escaped) (Ending.mark escaped ++ e.text) e.text ∧ y = d)
      broken := by
  have hsize : byteLength (Ending.mark escaped) = (Ending.mark escaped).length := by
    cases escaped <;> rfl
  have hends : EndsAt .inline e.text d.rest := by
    rw [Cursor.atLineEnd] at hd
    cases hrest : d.rest with
    | nil => trivial
    | cons x rest =>
      rw [hrest] at hd
      exact .inl hd
  obtain ⟨hmark, hexpr⟩ := h.split
  refine .here (.bump hmark hsize (.bind (e.yields (hg.leads hmark) hexpr hends) ?_))
  rintro value _ ⟨hv, rfl⟩
  refine .tokenFrom h (.pure ⟨?_, rfl⟩)
  rw [sketch_withExpr, sketch_ofText (TextRun.isContainer_outputKind escaped), hv]
  rfl

/-- An ending is the last part of a tag. -/
theorem Ending.yields (e : Ending) (he : e.writable = true) (hg : g.Covers c)
    (h : c.Leads e.written d) (hd : d.atLineEnd = true) : (part g inlineTag false).Yields c
      (fun r y ↦ ∃ ts, r = .last ts e.tail ∧ ts.map sketch = e.sketches ∧ y = d) broken := by
  have hskip := Cursor.skipSpacing_of_atLineEnd hd
  have hend := Cursor.atRunEnd_of_atLineEnd hd
  have hstarts : Name.startsName d.rest = false :=
    any_head?_append (show FollowsLine d.rest from hd) rfl rfl []
  cases e with
  | bare =>
    obtain rfl := h.eq_of_nil
    have hpart : Part.ofRest false c.rest = .finished := by
      cases hrest : c.rest with
      | nil => rfl
      | cons x rest =>
        rw [Cursor.atLineEnd, hrest] at hd
        have hbreak : isBreak x = true := hd
        exact if_pos (by rw [hbreak]; rfl)
    refine .here ?_
    rw [hpart]
    exact .pure ⟨[], rfl, rfl, rfl⟩
  | selfClose =>
    have hpart : Part.ofRest false c.rest = .selfClose := by
      rw [h.1]
      rfl
    refine .here ?_
    rw [hpart]
    refine .bind (closingMark_yields rfl rfl h hd) ?_
    rintro t _ ⟨ht, rfl⟩
    exact .pure ⟨[t], rfl, by rw [List.map_singleton, ht]; rfl, rfl⟩
  | dotBlock =>
    have hpart : Part.ofRest false c.rest = .dotBlock := by
      rw [h.1]
      simp [written, Part.ofRest, isBreak, isSpacing, hstarts]
    refine .here ?_
    rw [hpart]
    refine .bind (closingMark_yields rfl rfl h hd) ?_
    rintro t _ ⟨ht, rfl⟩
    exact .pure ⟨[t], rfl, by rw [List.map_singleton, ht]; rfl, rfl⟩
  | output escaped e =>
    have hpart : Part.ofRest false c.rest =
        .output (TextRun.outputKind escaped) (mark escaped).length := by
      rw [h.1]
      cases escaped <;> rfl
    refine .here ?_
    rw [hpart]
    refine .bind (output_yields hg h hd) ?_
    rintro t _ ⟨ht, rfl⟩
    refine .endRun (by rw [hskip]; exact hend) ?_
    rw [hskip]
    exact .pure ⟨[t], rfl, by rw [List.map_singleton, ht]; rfl, rfl⟩
  | text chars =>
    simp only [writable, Bool.and_eq_true, Bool.not_eq_true', List.all_eq_true,
      List.mem_tails] at he
    obtain ⟨⟨hblank, hplain⟩, hopens⟩ := he
    obtain ⟨hspace, hchars⟩ := h.uncons
    have hne : chars ≠ [] := by
      rintro rfl
      contradiction
    have hline : (c.past [' ']).line = chars := by
      rw [Cursor.line, hchars.1, firstLine,
        takeWhile_append (show FollowsLine d.rest from hd) rfl rfl, List.takeWhile_eq_self_iff]
      intro x hx
      rw [(TextRun.isPlain_iff.1 (hplain x hx)).2.1]
      rfl
    have hcovers := hg.leads hspace
    refine (TextRun.part_yields (P := fun ts ↦ ts.map sketch = [.leaf .plainText chars]) hspace ?_
      hchars (TextRun.plainText_yields hne hplain hopens hchars hend hcovers.rounds)).mono ?_
    · rw [Cursor.atBlankLine, hline, hblank]
      rfl
    · rintro r y ⟨ts, us, rfl, hus, hts, rfl⟩
      refine ⟨ts, rfl, ?_, rfl⟩
      rw [hts, hus]
      rfl

variable {name w : List Char} {ms : List Modifier} {ss : List Sketch} {tail : LineTail}
variable {level : Nat}

/-- The modifiers of a line, and a part that is the last. -/
theorem lineParts_yields (hg : g.Covers c) (h : c.Leads (modifiersText ms) m)
    (hm : Name.tagTail m.rest = [])
    (hlast : (part g (Tag.inlineTag g g.maxDepth) false).Yields m
      (fun r y ↦ ∃ ts, r = .last ts tail ∧ ts.map sketch = ss ∧ y = d) broken) :
    (lineParts g).Yields c (fun r y ↦
      (r.1.map sketch = ms.map Modifier.sketch ++ ss ∧ r.2 = tail) ∧ y = d) broken := by
  refine (modifiers_yield (P := fun r y ↦ (r.1.map sketch = ss ∧ r.2 = tail) ∧ y = d) hg h hm
    hg.rounds ?_).mono ?_
  · intro k hk
    refine .gather_last (hlast.mono ?_) (Nat.zero_lt_of_lt hk)
    rintro r y ⟨ts, rfl, hts, rfl⟩
    exact ⟨ts, tail, rfl, ⟨hts, rfl⟩, rfl⟩
  · rintro r y ⟨ts, us, hr, hts, ⟨hus, htail⟩, rfl⟩
    exact ⟨⟨by rw [hr, List.map_append, hts, hus], htail⟩, rfl⟩

theorem line_yields {start : Cursor} (hparts : (lineParts g).Yields c (fun r y ↦
      (r.1.map sketch = ss ∧ r.2 = tail) ∧ y = d) broken) (h : start.Leads w d) :
    (line g start name).Yields c (fun r y ↦
      (r.1.sketch = .row .lineData [⟨.tag, String.ofList name, none, ss⟩] ∧ r.2 = tail) ∧ y = d)
      broken := by
  refine .bind hparts ?_
  rintro ⟨ts, tail⟩ _ ⟨⟨hts, rfl⟩, rfl⟩
  refine .bind (M := fun t y ↦
    t.sketch = .row .lineData [⟨.tag, String.ofList name, none, ss⟩] ∧ y = _)
    (.tokenFrom h (.pure ⟨?_, rfl⟩)) ?_
  · rw [sketch_withChildren, sketch_container rfl, List.map_singleton, sketch_withChildren,
      sketch_ofText rfl, hts]
    rfl
  · rintro t _ ⟨ht, rfl⟩
    exact .pure ⟨⟨ht, rfl⟩, rfl⟩

/-- What may stand behind a name and its modifiers. -/
def FollowsFront (others : List Char) : Prop :=
  Name.tagTail others = [] ∧ ∀ x ∈ others.head?, x ≠ '('

/-- Only a list starts with a `(`. -/
theorem Modifier.head_text_ne (m : Modifier) (h : m.isList = false) (others : List Char) :
    ∀ x ∈ (m.text ++ others).head?, x ≠ '(' := by
  cases m with
  | note n =>
    obtain ⟨id, name, nonempty, named⟩ := n
    rintro _ ⟨⟩
    cases id
    · exact (by decide : '.' ≠ '(')
    · exact (by decide : '#' ≠ '(')
  | attributes entries parted => contradiction
  | spread e =>
    rintro _ ⟨⟩
    decide

/-- A modifier that starts a line starts a tag without a name. -/
theorem Modifier.form_text (m : Modifier) (others : List Char) :
    Line.Form.ofRest (m.text ++ others) = .shorthand := by
  cases m with
  | note n =>
    obtain ⟨id, name, nonempty, named⟩ := n
    obtain ⟨x, rest, rfl⟩ := List.exists_cons_of_ne_nil nonempty
    have hx := named x (List.mem_cons_self ..)
    have hstarts : Name.startsName (x :: (rest ++ others)) = true := hx
    cases id
    · change (if Name.startsName (x :: (rest ++ others)) then _ else _) = Line.Form.shorthand
      rw [if_pos hstarts]
    · change (if Name.startsName (x :: (rest ++ others)) then _ else _) = Line.Form.shorthand
      rw [if_pos hstarts]
  | attributes entries parted => rfl
  | spread e => rfl

/-- The arguments of a call. There are none unless a `(` stands behind the name. -/
theorem arguments_yields {argument : Option (Phrase .inline)} (hg : g.Covers c)
    (h : c.Leads (argumentsText argument) d)
    (hd : argument = none → ∀ x ∈ d.rest.head?, x ≠ '(') :
    (Line.arguments g).Yields c (fun ts y ↦
      ts.map sketch = argument.toList.map (fun e ↦ .value .mixinArgs e.text e.text) ∧ y = d)
      broken := by
  cases argument with
  | none =>
    obtain rfl := h.eq_of_nil
    have hopen : c.startsWith "(" = false := by
      rw [Cursor.startsWith]
      cases hrest : c.rest with
      | nil => rfl
      | cons x rest => simp [List.isPrefixOf, Ne.symm (hd rfl x (by rw [hrest]; rfl))]
    refine .eat_false hopen ?_
    rw [if_neg Bool.false_ne_true]
    exact .pure ⟨rfl, rfl⟩
  | some e =>
    obtain ⟨hopen, hrest⟩ := h.uncons
    obtain ⟨m, hm⟩ : ∃ m, c.past ['('] = m := ⟨_, rfl⟩
    rw [hm] at hopen hrest
    obtain ⟨hexpr, hclose⟩ := hrest.split
    obtain ⟨x, rest, hx⟩ := List.exists_cons_of_ne_nil e.ne_nil
    have hfirst : m.rest = x :: (rest ++ ')' :: d.rest) := by
      rw [hrest.1, hx, List.append_assoc]
      rfl
    have hskip : m.skipSpacing = m := by
      refine Cursor.skipWhile_eq_self hfirst (Bool.eq_false_iff.2 fun hs ↦ ?_)
      have hblank := e.isBlank_head x (by rw [hx]; rfl)
      rw [isBlank_of_isSpacing hs] at hblank
      contradiction
    have hno : m.startsWith ")" = false := by
      have hcloser := e.isCloser_head x (by rw [hx]; rfl)
      rw [Cursor.startsWith, hfirst]
      refine Bool.eq_false_iff.2 fun hs ↦ ?_
      obtain rfl : ')' = x := by simpa [List.isPrefixOf] using hs
      contradiction
    have hskip' : (m.past e.text).skipSpacing = m.past e.text :=
      Cursor.skipWhile_eq_self hclose.1 rfl
    refine .eat_true hopen ?_
    rw [if_pos rfl]
    refine .skipSpacing ?_
    rw [hskip]
    refine .eat_false hno ?_
    rw [if_neg Bool.false_ne_true]
    refine .bind (e.yields (hg.leads hopen) hexpr (.of_closer hclose rfl)) ?_
    rintro value _ ⟨hv, rfl⟩
    refine .skipSpacing ?_
    rw [hskip']
    refine .eat_true hclose ?_
    rw [if_pos rfl]
    refine .pure ⟨?_, rfl⟩
    rw [List.map_singleton, sketch_withExpr, sketch_eq, hv]
    rfl

/-- A word that is not reserved is the name of a tag. -/
theorem atFront?_of_isName {others : List Char} (hname : isName name = true)
    (hword : Keyword.ofWord? name = none) (ho : Name.tagTail others = []) :
    Keyword.atFront? (name ++ others) = none := by
  rw [Keyword.atFront?, tag_append hname ho, hword]
  split <;> rfl

/-- A call is read up to what ends it. -/
theorem call_yields {argument : Option (Phrase .inline)} (hname : isName name = true)
    (hg : g.Covers c) (h : c.Leads ('+' :: (name ++ argumentsText argument)) m)
    (hm : Name.tagTail m.rest = []) (hopen : argument = none → ∀ x ∈ m.rest.head?, x ≠ '(')
    (hparts : (lineParts g).Yields m (fun r y ↦
      (r.1.map sketch = ss ∧ r.2 = tail) ∧ y = d) broken) :
    (Line.call g).Yields c (fun r y ↦ (r.1.sketch = ⟨.mixinCall, String.ofList name, none,
      argument.toList.map (fun e ↦ .value .mixinArgs e.text e.text) ++ ss⟩ ∧ r.2 = tail) ∧ y = d)
      broken := by
  obtain ⟨hplus, hrest⟩ := h.uncons
  obtain ⟨b, hb⟩ : ∃ b, c.past ['+'] = b := ⟨_, rfl⟩
  rw [hb] at hplus hrest
  obtain ⟨hnamed, harguments⟩ := hrest.split
  have htail : Name.tagTail (b.past name).rest = [] := by
    rw [harguments.1]
    cases argument with
    | none => exact hm
    | some e => rfl
  have hread : Name.tag b.rest = name := by
    rw [hnamed.1, tag_append hname htail]
  have hempty : name.isEmpty = false :=
    List.isEmpty_eq_false_iff.2 (ne_nil_of_isName hname)
  refine .bump hplus rfl (.here ?_)
  rw [hread]
  dsimp only
  rw [hempty, if_neg Bool.false_ne_true]
  refine .moveTo (.bind (arguments_yields ((hg.leads hplus).leads hnamed) harguments hopen) ?_)
  rintro args _ ⟨hargs, rfl⟩
  refine .bind hparts ?_
  rintro ⟨ts, tail⟩ _ ⟨⟨hts, rfl⟩, rfl⟩
  refine .pure ⟨⟨?_, rfl⟩, rfl⟩
  rw [sketch_withChildren, sketch_ofText rfl, List.map_append, hargs, hts]
  rfl

/-- A tag or a call is read up to what ends it. -/
theorem Front.yields (f : Front) (hf : f.writable = true) (hg : g.Covers c) (h : c.Leads f.text m)
    (hw : m.Leads w d) (hm : FollowsFront m.rest)
    (hlast : (part g (Tag.inlineTag g g.maxDepth) false).Yields m
      (fun r y ↦ ∃ ts, r = .last ts tail ∧ ts.map Token.sketch = ss ∧ y = d) broken) :
    (Line.payload g level).Yields c
      (fun r y ↦ (r.1.sketch = f.sketch ss ∧ r.2 = tail) ∧ y = d) broken := by
  obtain ⟨head, ms⟩ := f
  obtain ⟨hhead, hmodifiers⟩ := h.split
  have htail : Name.tagTail (c.past head.text).rest = [] := by
    rw [hmodifiers.1]
    exact tagTail_modifiers hm.1
  have hparts := lineParts_yields (hg.leads hhead) hmodifiers hm.1 hlast
  have hwhole := hhead.trans (hmodifiers.trans hw)
  refine .here ?_
  cases head with
  | tag name =>
    cases name with
    | nil =>
      obtain ⟨n, ms, rfl⟩ : ∃ n more, ms = n :: more := List.exists_cons_of_ne_nil (by
        rintro rfl
        contradiction)
      have hform : Line.Form.ofRest c.rest = .shorthand := by
        rw [h.1, text, modifiersText, List.flatMap_cons]
        simp only [Head.text, List.nil_append, List.append_assoc]
        exact n.form_text _
      rw [hform]
      have hc : c.past [] = c := Cursor.skip_zero c
      exact line_yields (hc ▸ hparts) hwhole
    | cons x rest =>
      simp only [writable, Bool.and_eq_true, Option.isNone_iff_eq_none] at hf
      obtain ⟨⟨hname, halpha⟩, hword⟩ := hf
      have hform : Line.Form.ofRest c.rest = .word := by
        rw [hhead.1]
        exact if_pos halpha
      have hnone : Keyword.atFront? c.rest = none := by
        rw [hhead.1]
        exact atFront?_of_isName hname hword htail
      have hread : Name.tag c.rest = x :: rest := by
        rw [hhead.1]
        exact tag_append hname htail
      rw [hform]
      refine .here ?_
      rw [hnone]
      dsimp only
      rw [hread]
      exact .moveTo (line_yields hparts hwhole)
  | call name argument =>
    have hform : Line.Form.ofRest c.rest = .call := by
      rw [hhead.1]
      rfl
    have hname : isName name = true := by
      cases argument with
      | none => exact (Bool.and_eq_true_iff.1 hf).1
      | some e => exact hf
    rw [hform]
    refine call_yields hname hg hhead htail ?_ hparts
    rintro rfl
    rw [hmodifiers.1]
    cases ms with
    | nil => exact hm.2
    | cons n ms =>
      rw [modifiersText, List.flatMap_cons, List.append_assoc]
      exact n.head_text_ne (by simpa using (Bool.and_eq_true_iff.1 hf).2) _

/-- A line that starts with a tag or a call. -/
theorem Front.markup_yields (f : Front) (hf : f.writable = true) (hg : g.Covers c)
    (h : c.Leads f.text m) (hw : m.Leads w d) (hm : FollowsFront m.rest)
    (hlast : (part g (Tag.inlineTag g g.maxDepth) false).Yields m
      (fun r y ↦ ∃ ts, r = .last ts tail ∧ ts.map Token.sketch = ss ∧ y = d) broken) :
    (Line.markup g level).Yields c (fun r y ↦ (r.2 = tail ∧ ∃ p, p.sketch = f.sketch ss ∧
      r.1.children = [p] ∧ r.1.sketch = .row .line [f.sketch ss]) ∧ y = d) broken := by
  refine (Line.markup_yields (h.trans hw) (f.yields hf hg h hw hm hlast)).mono ?_
  rintro r y ⟨⟨p, ⟨hp, htail⟩, hchildren, hline⟩, rfl⟩
  exact ⟨⟨htail, p, hp, hchildren, hp ▸ hline⟩, rfl⟩

/-- No ending goes on with a name or opens a list. -/
theorem Ending.follows (e : Ending) (hd : d.atLineEnd = true) :
    FollowsFront (e.written ++ d.rest) := by
  have hline : FollowsLine d.rest := hd
  cases e with
  | bare =>
    rcases hline.cases with hrest | ⟨rest, hrest | hrest⟩
    · rw [hrest]
      exact ⟨rfl, by rintro _ ⟨⟩⟩
    · rw [hrest]
      exact ⟨rfl, by rintro _ ⟨⟩; decide⟩
    · rw [hrest]
      exact ⟨rfl, by rintro _ ⟨⟩; decide⟩
  | selfClose => exact ⟨rfl, by rintro _ ⟨⟩; decide⟩
  | dotBlock => exact ⟨rfl, by rintro _ ⟨⟩; decide⟩
  | output escaped e =>
    cases escaped
    · exact ⟨rfl, by rintro _ ⟨⟩; decide⟩
    · exact ⟨rfl, by rintro _ ⟨⟩; decide⟩
  | text chars => exact ⟨rfl, by rintro _ ⟨⟩; decide⟩

/-- A `:` lets a line follow. -/
theorem follow_yields (h : c.Leads [':'] d) : (part g inlineTag false).Yields c
    (fun r y ↦ ∃ ts, r = .last ts .follow ∧ ts.map sketch = [] ∧ y = d) broken := by
  have hpart : Part.ofRest false c.rest = .follow := by
    rw [h.1]
    rfl
  refine .here ?_
  rw [hpart]
  exact .bump h rfl (.pure ⟨[], rfl, rfl, rfl⟩)

end Reading

/-- A tag or a call alone in a template. -/
theorem Front.lex_text {f : Front} {maxDepth : Nat} (hf : f.writable = true)
    (hs : StartsLine f.text) (hmax : 0 < maxDepth) :
    ∃ root, lex loose maxDepth f.text () = .ok root ∧
      root.sketch = .row .root [.row .line [f.sketch []]] := by
  obtain ⟨d, hlead, hrest⟩ := Cursor.exists_leads_end f.text
  have hend := Cursor.atLineEnd_of_nil hrest
  have hcovers := covers_start maxDepth f.text
  have hmarkup : (Line.markup ⟨loose, maxDepth, f.text.length + 1⟩ 0).Yields (.start f.text)
      (fun r y ↦ y.rest = [] ∧ r.2 ≠ .follow ∧ r.1.sketch = .row .line [f.sketch []])
      fun _ ↦ False := by
    refine (f.markup_yields hf hcovers hlead (.refl d) (Ending.bare.follows hend)
      (Ending.bare.yields rfl (hcovers.leads hlead) (.refl d) hend)).mono ?_
    rintro r _ ⟨⟨htail, -, -, -, hline⟩, rfl⟩
    exact ⟨hrest, by rw [htail]; rintro ⟨⟩, hline⟩
  obtain ⟨root, line, hlex, hroot, hline⟩ | ⟨-, -, hfalse⟩ :=
    lex_of_markup (P := fun t ↦ t.sketch = .row .line [f.sketch []]) hs hmax hmarkup
  · exact ⟨root, hlex, by rw [hroot, hline]⟩
  · exact hfalse.elim

end Tag

end Pug
