import Pug.Proofs.Print.Text

/-!
# Passages, written and read back

A *passage* is text with output and inline tags in it; an inline tag holds a passage of its own. It
is written piece by piece, and read back piece by piece: the induction is on the passage, and the
reader of an inline tag is followed into the passage it holds with one level less to open.

Where inline tags nest deeper than there are levels, reading fails at the first opener for which no
level is left. Everything before that opener is read, so nothing else can fail first.
-/

namespace Pug

open Text Token Reader
open ExpressionParser (loose)

/-- Text with output and inline tags in it, piece by piece. -/
inductive Passage where
  | done
  | literal (chars : List Char) (behind : Passage)
  | output (escaped : Bool) (e : Phrase .inline) (behind : Passage)
  | tag (name : List Char) (modifiers : List Tag.Modifier) (inner behind : Passage)

namespace Passage

/-- Literal text comes first. -/
def startsText : Passage → Bool
  | literal _ _ => true
  | _ => false

/-- What can be written, in an inline tag or outside: literal text is not empty, stands for itself,
and is not followed by literal text, and inline tags have names. -/
def writable : Bool → Passage → Bool
  | _, done => true
  | inside, literal chars behind =>
    !chars.isEmpty && chars.all (TextRun.isPlain inside) && !behind.startsText &&
      writable inside behind
  | inside, output _ _ behind => writable inside behind
  | inside, tag name _ inner behind =>
    Tag.isName name && writable true inner && writable inside behind

/-- An inline tag up to its text. -/
def tagFront (name : List Char) (modifiers : List Tag.Modifier) : List Char :=
  ['#', '['] ++ (name ++ (Tag.modifiersText modifiers ++ [' ']))

def text : Passage → List Char
  | done => []
  | literal chars behind => TextRun.escape chars ++ behind.text
  | output escaped e behind => TextRun.outputText escaped e ++ behind.text
  | tag name modifiers inner behind => tagFront name modifiers ++ (inner.text ++ ']' :: behind.text)

/-- An inline tag around some text, if there is any. -/
def tagSketch (name : List Char) (modifiers : List Tag.Modifier) (inner : List Sketch) : Sketch :=
  .row .lineData [⟨.tag, String.ofList name, none, modifiers.map Tag.Modifier.sketch ++
    TextRun.row inner⟩]

/-- What a passage is read as, once the texts in it are joined. -/
def sketches : Passage → List Sketch
  | done => []
  | literal chars behind => .leaf .plainText chars :: behind.sketches
  | output escaped e behind =>
    .value (TextRun.outputKind escaped) (TextRun.outputText escaped e) e.text :: behind.sketches
  | tag name modifiers inner behind =>
    tagSketch name modifiers inner.sketches :: behind.sketches

/-- How deep the inline tags of a passage nest. -/
def nesting : Passage → Nat
  | done => 0
  | literal _ behind => behind.nesting
  | output _ _ behind => behind.nesting
  | tag _ _ inner behind => max (inner.nesting + 1) behind.nesting

/-- What is written before the first inline tag that lies in `levels` others, if there is one. -/
def beyond? : Nat → Passage → Option (List Char)
  | _, done => none
  | levels, literal chars behind => (beyond? levels behind).map (TextRun.escape chars ++ ·)
  | levels, output escaped e behind =>
    (beyond? levels behind).map (TextRun.outputText escaped e ++ ·)
  | 0, tag .. => some []
  | levels + 1, tag name modifiers inner behind =>
    match beyond? levels inner with
    | some before => some (tagFront name modifiers ++ before)
    | none => (beyond? (levels + 1) behind).map
        ((tagFront name modifiers ++ (inner.text ++ [']'])) ++ ·)

section

variable {p : Passage} {levels : Nat}

/-- No opener is beyond the levels if the passage nests no deeper. -/
theorem beyond?_eq_none_iff : p.beyond? levels = none ↔ p.nesting ≤ levels := by
  induction p generalizing levels with
  | done => exact iff_of_true rfl (Nat.zero_le _)
  | literal chars behind ih => rw [beyond?, Option.map_eq_none_iff, ih, nesting]
  | output escaped e behind ih => rw [beyond?, Option.map_eq_none_iff, ih, nesting]
  | tag name modifiers inner behind ihInner ihBehind =>
    rw [nesting, Nat.max_le]
    cases levels with
    | zero =>
      refine iff_of_false (Option.some_ne_none _) ?_
      rintro ⟨h, -⟩
      exact Nat.not_succ_le_zero _ h
    | succ levels =>
      rw [Nat.add_le_add_iff_right, ← ihInner, ← ihBehind, beyond?]
      cases inner.beyond? levels with
      | some before => simp
      | none => simp

/-- What stands behind some text stands behind it as it does by itself. -/
theorem exists_of_map_beyond? {q : Passage} {front before : List Char}
    (ih : ∀ {before}, q.beyond? levels = some before →
      ∃ behind, q.text = before ++ '#' :: '[' :: behind)
    (h : (q.beyond? levels).map (front ++ ·) = some before) :
    ∃ behind, front ++ q.text = before ++ '#' :: '[' :: behind := by
  obtain ⟨later, hlater, rfl⟩ := Option.map_eq_some_iff.1 h
  obtain ⟨behind, hbehind⟩ := ih hlater
  exact ⟨behind, by rw [hbehind, List.append_assoc]⟩

/-- What is written before an opener stands at the front of the passage, and the opener behind it.
-/
theorem exists_of_beyond? {before : List Char} (h : p.beyond? levels = some before) :
    ∃ behind, p.text = before ++ '#' :: '[' :: behind := by
  induction p generalizing levels before with
  | done => contradiction
  | literal chars behind ih => exact exists_of_map_beyond? ih h
  | output escaped e behind ih => exact exists_of_map_beyond? ih h
  | tag name modifiers inner behind ihInner ihBehind =>
    cases levels with
    | zero =>
      cases h
      exact ⟨_, rfl⟩
    | succ levels =>
      rw [beyond?] at h
      rw [text]
      cases hinner : inner.beyond? levels with
      | some later =>
        rw [hinner] at h
        cases h
        obtain ⟨more, hmore⟩ := ihInner hinner
        exact ⟨more ++ ']' :: behind.text, by rw [hmore]; simp⟩
      | none =>
        rw [hinner] at h
        obtain ⟨more, hmore⟩ := exists_of_map_beyond? ihBehind h
        exact ⟨more, by rw [← hmore]; simp⟩

end

section Reading

variable {g : Setup Unit Shape} {c d m e : Cursor} {broken : Failure → Prop} {inside : Bool}
variable {levels : Nat} {p : Passage}

/-- The modifiers of a tag are sketched as they are once texts are joined. -/
theorem joined_modifier (m : Tag.Modifier) :
    m.sketch.kind ≠ .plainText ∧ m.sketch.joined = m.sketch := by
  cases m with
  | note n =>
    obtain ⟨id, name, -, -⟩ := n
    cases id <;> exact ⟨Kind.noConfusion, rfl⟩
  | attributes entries parted =>
    refine ⟨Kind.noConfusion, ?_⟩
    have hentries : ∀ s ∈ entries.map (fun e ↦ e.1.sketch), s.kind ≠ .plainText ∧ s.joined = s := by
      intro s hs
      obtain ⟨⟨⟨name, value⟩, gap⟩, -, rfl⟩ := List.mem_map.1 hs
      refine ⟨?_, rfl⟩
      cases value with
      | none => exact Kind.noConfusion
      | some v =>
        change (if v.escaped then Kind.attrPairEscaped else Kind.attrPairUnescaped) ≠ .plainText
        split <;> decide
    exact congrArg (Sketch.row .tagAttrList) (Sketch.joinedAll_eq_self hentries)
  | spread e => exact ⟨Kind.noConfusion, rfl⟩

/-- An inline tag with its text, which may be empty. -/
theorem inline_yields {name w : List Char} {modifiers : List Tag.Modifier}
    {P : List (Token Shape) → Prop} (hname : Tag.isName name = true) (hg : g.Covers c)
    (hfront : c.Leads (tagFront name modifiers) m) (hw : m.Leads w e) (hclose : e.Leads [']'] d)
    (hpieces : (gather (TextRun.piece g (Tag.inlineTag g levels) true) g.rounds).Yields m
      (fun r y ↦ P r.1 ∧ y = e) broken) :
    (Tag.inlineTag g (levels + 1)).Yields c (fun t y ↦ ∃ ts, P ts ∧
      t.sketch = tagSketch name modifiers (ts.map Token.sketch) ∧ y = d) broken := by
  obtain ⟨hopen, hrest⟩ := hfront.split
  obtain ⟨b, hb⟩ : ∃ b, c.past ['#', '['] = b := ⟨_, rfl⟩
  rw [hb] at hopen hrest
  obtain ⟨hnamed, hrest⟩ := hrest.split
  obtain ⟨hmodifiers, hspace⟩ := hrest.split
  obtain ⟨s, hs⟩ : ∃ s, (b.past name).past (Tag.modifiersText modifiers) = s := ⟨_, rfl⟩
  rw [hs] at hmodifiers hspace
  have htail : Name.tagTail s.rest = [] := by
    rw [hspace.1]
    rfl
  have hread : Name.tag b.rest = name := by
    rw [hnamed.1, hmodifiers.1]
    exact Tag.tag_append hname (Tag.tagTail_modifiers htail)
  have hempty : name.isEmpty = false :=
    List.isEmpty_eq_false_iff.2 (Tag.ne_nil_of_isName hname)
  have hcovers := (hg.leads hopen).leads hnamed
  have hparts : (Tag.parts g (Tag.inlineTag g levels) true).Yields (b.past name) (fun r y ↦
      ∃ ts, P ts ∧ r.1.map Token.sketch =
        modifiers.map Tag.Modifier.sketch ++ TextRun.row (ts.map Token.sketch) ∧ y = e) broken := by
    refine (Tag.modifiers_yield (P := fun r y ↦ ∃ ts, P ts ∧
      r.1.map Token.sketch = TextRun.row (ts.map Token.sketch) ∧ y = e)
      hcovers hmodifiers htail hcovers.rounds ?_).mono ?_
    · intro k hk
      refine .gather_last ((TextRun.part_yields hspace rfl hw hpieces).mono ?_)
        (Nat.zero_lt_of_lt hk)
      rintro r y ⟨ts, us, rfl, hus, hts, rfl⟩
      exact ⟨ts, .plain, rfl, us, hus, hts, rfl⟩
    · rintro r y ⟨ts, us, hr, hts, vs, hvs, hus, rfl⟩
      exact ⟨vs, hvs, by rw [hr, List.map_append, hts, hus], rfl⟩
  refine .here (.bump hopen rfl (.here ?_))
  rw [hread]
  refine .moveTo (.bind hparts ?_)
  rintro ⟨ts, tail⟩ _ ⟨us, hus, hts, rfl⟩
  dsimp only
  rw [hempty, Bool.false_and, if_neg Bool.false_ne_true]
  refine .eat_true hclose ?_
  rw [if_pos rfl]
  have hwhole := (hfront.trans hw).trans hclose
  refine .tokenFrom hwhole (.pure ⟨us, hus, ?_, rfl⟩)
  rw [sketch_withChildren, sketch_container rfl, List.map_singleton, sketch_withChildren,
    sketch_ofText rfl, hts]
  rfl

/-- Joining the texts in an inline tag joins those of the passage in it. -/
theorem joined_tagSketch (name : List Char) (modifiers : List Tag.Modifier) (ss : List Sketch) :
    (tagSketch name modifiers ss).joined = tagSketch name modifiers (Sketch.joinedAll ss) := by
  have hrow : Sketch.joinedAll (TextRun.row ss) = TextRun.row (Sketch.joinedAll ss) := by
    cases ss with
    | nil => rfl
    | cons s rest =>
      have hne : (Sketch.joinedAll (s :: rest)).isEmpty = false :=
        List.isEmpty_eq_false_iff.2 (Sketch.join_ne_nil _ _)
      rw [TextRun.row, TextRun.row, hne]
      rfl
  have hmodifiers : ∀ s ∈ modifiers.map Tag.Modifier.sketch,
      s.kind ≠ .plainText ∧ s.joined = s := by
    intro s hs
    obtain ⟨m, -, rfl⟩ := List.mem_map.1 hs
    exact joined_modifier m
  rw [tagSketch, tagSketch, ← hrow, ← Sketch.joinedAll_append hmodifiers]
  rfl

/-- What is no literal text may stand behind literal text. -/
theorem followsLiteral_text (h : p.startsText = false) (hd : d.atRunEnd inside = true) :
    TextRun.FollowsLiteral inside (p.text ++ d.rest) := by
  cases p with
  | done => exact TextRun.followsLiteral_of_atRunEnd hd
  | literal chars behind => contradiction
  | output escaped e behind =>
    refine TextRun.followsLiteral_of_opens ?_
    cases escaped <;> rfl
  | tag name modifiers inner behind => exact TextRun.followsLiteral_of_opens rfl

/-- And nothing joins it. -/
theorem kind_sketches (h : p.startsText = false) :
    ∀ s ∈ p.sketches.head?, s.kind ≠ .plainText := by
  cases p with
  | done => rintro _ ⟨⟩
  | literal chars behind => contradiction
  | output escaped e behind =>
    rintro _ ⟨⟩
    cases escaped <;> exact Kind.noConfusion
  | tag name modifiers inner behind =>
    rintro _ ⟨⟩
    exact Kind.noConfusion

/-- The pieces are those of a passage that nests no deeper than there are levels. -/
def Reads (p : Passage) (levels : Nat) (pieces : List (Token Shape)) : Prop :=
  p.beyond? levels = none ∧ Sketch.joinedAll (pieces.map Token.sketch) = p.sketches

/-- Reading a passage from `c` fails at the first opener for which no level is left. -/
def Exceeds (g : Setup Unit Shape) (c : Cursor) (p : Passage) (levels : Nat) (f : Failure) : Prop :=
  ∃ before, p.beyond? levels = some before ∧
    f = .error ⟨.indentationTooDeep, c.offset + byteLength before,
      some ("tag interpolations nest deeper than " ++ toString g.maxDepth ++ " levels")⟩

/-- What fails behind some text fails so many bytes further on. -/
theorem Exceeds.behind {q : Passage} {k : Nat} {w : List Char} {f : Failure} (h : c.Leads w d)
    (hf : q.Exceeds g d k f)
    (hq : ∀ before, q.beyond? k = some before → p.beyond? levels = some (w ++ before)) :
    p.Exceeds g c levels f := by
  obtain ⟨before, hbefore, rfl⟩ := hf
  exact ⟨w ++ before, hq before hbefore, by rw [h.2, byteLength_append, Nat.add_assoc]⟩

/-- From one place to another the pieces of a passage are read, unless its inline tags nest too
deep. -/
def ReadTo (g : Setup Unit Shape) (inside : Bool) (levels : Nat) (p : Passage) (c d : Cursor) :
    Prop :=
  ∀ n, c.rest.length < n → (gather (TextRun.piece g (Tag.inlineTag g levels) inside) n).Yields c
    (fun r y ↦ p.Reads levels r.1 ∧ y = d) (p.Exceeds g c levels)

namespace ReadTo

variable {behind inner : Passage} {name rest : List Char} {modifiers : List Tag.Modifier} {b : Cursor}

/-- Literal text in front of a passage that starts with something else. -/
theorem literal {chars : List Char} (hbehind : behind.ReadTo g inside levels m d)
    (hne : chars.isEmpty = false) (hchars : ∀ x ∈ chars, TextRun.isPlain inside x = true)
    (hstarts : behind.startsText = false) (h : c.Leads (TextRun.escape chars) m)
    (hfollows : TextRun.FollowsLiteral inside m.rest) :
    (Passage.literal chars behind).ReadTo g inside levels c d := by
  intro n hn
  obtain rfl := h.past_eq
  refine (TextRun.literal_yields (P := fun r y ↦ behind.Reads levels r.1 ∧ y = d) hchars h hfollows hn
    ?_).mono ?_
  · intro k hk
    refine (hbehind k hk).blame fun f hf ↦ hf.behind h ?_
    intro before hbefore
    rw [beyond?, hbefore]
    rfl
  · rintro r y ⟨ts, us, texts, hr, hflat, hts, ⟨hnone, hus⟩, rfl⟩
    have htexts : texts ≠ [] := by
      rintro rfl
      rw [← hflat] at hne
      contradiction
    refine ⟨⟨?_, ?_⟩, rfl⟩
    · rw [beyond?, hnone]
      rfl
    · rw [hr, List.map_append, hts, Sketch.joinedAll_texts htexts, hflat, hus]
      · rfl
      · rw [hus]
        exact kind_sketches hstarts

/-- Output in front of a passage. -/
theorem output {escaped : Bool} {e : Phrase .inline} (hbehind : behind.ReadTo g inside levels m d)
    (hg : g.Covers c) (h : c.Leads (TextRun.outputText escaped e) m) :
    (Passage.output escaped e behind).ReadTo g inside levels c d := by
  intro n hn
  obtain rfl := h.past_eq
  refine .gather_one (M := fun t y ↦ t.sketch = .value (TextRun.outputKind escaped)
    (TextRun.outputText escaped e) e.text ∧ y = c.past (TextRun.outputText escaped e))
    (TextRun.piece_yields_output hg h) ?_ hn ?_
  · rintro t _ ⟨-, rfl⟩
    have hlength := h.length_rest
    have hpos : 0 < (TextRun.outputText escaped e).length := Nat.succ_pos _
    omega
  · rintro t _ k ⟨ht, rfl⟩ hk
    refine ((hbehind k hk).blame fun f hf ↦ hf.behind h ?_).mono ?_
    · intro before hbefore
      rw [beyond?, hbefore]
      rfl
    · rintro r y ⟨⟨hnone, hus⟩, rfl⟩
      refine ⟨⟨?_, ?_⟩, rfl⟩
      · rw [beyond?, hnone]
        rfl
      · have hkind : (Sketch.value (TextRun.outputKind escaped) (TextRun.outputText escaped e)
            e.text).joined.kind ≠ .plainText := by
          cases escaped <;> exact Kind.noConfusion
        rw [List.map_cons, ht, Sketch.joinedAll, Sketch.join_of_ne hkind, hus]
        rfl

/-- Where no level is left, an inline tag is not read. -/
theorem tag_zero (hopen : c.rest = '#' :: '[' :: rest) :
    (Passage.tag name modifiers inner behind).ReadTo g inside 0 c d := by
  intro n hn
  refine .gather_one (M := fun _ _ ↦ False) ?_ (fun _ _ ↦ False.elim) hn fun _ _ _ ↦ False.elim
  exact TextRun.piece_yields_tag hopen (.here (.failWithHelp ⟨[], rfl, rfl⟩))

/-- An inline tag in front of a passage. What it holds is read with one level less. -/
theorem tag (hname : Tag.isName name = true) (hg : g.Covers c)
    (hinner : inner.ReadTo g true levels m e) (hbehind : behind.ReadTo g inside (levels + 1) b d)
    (hfront : c.Leads (tagFront name modifiers) m)
    (htext : m.Leads inner.text e) (hclose : e.Leads [']'] b) :
    (Passage.tag name modifiers inner behind).ReadTo g inside (levels + 1) c d := by
  intro n hn
  have hopen : c.rest = '#' :: '[' :: _ := hfront.1
  have hcovers := hg.leads hfront
  have hexceeds : ∀ f, inner.Exceeds g m levels f →
      (Passage.tag name modifiers inner behind).Exceeds g c (levels + 1) f := by
    refine fun f hf ↦ hf.behind hfront fun before hbefore ↦ ?_
    rw [beyond?, hbefore]
  have htag := inline_yields (P := inner.Reads levels) hname hg hfront htext hclose
    ((hinner _ hcovers.rounds).blame hexceeds)
  have hwhole := (hfront.trans htext).trans hclose
  refine .gather_one (M := fun t y ↦ ∃ ts, inner.Reads levels ts ∧
    t.sketch = tagSketch name modifiers (ts.map Token.sketch) ∧ y = b)
    (TextRun.piece_yields_tag hopen htag) ?_ hn ?_
  · rintro t _ ⟨-, -, -, rfl⟩
    have hlength := hwhole.length_rest
    simp only [List.length_append, List.length_singleton] at hlength
    omega
  · rintro t _ k ⟨ts, ⟨hnone, hts⟩, ht, rfl⟩ hk
    refine ((hbehind k hk).blame fun f hf ↦ hf.behind hwhole ?_).mono ?_
    · intro before hbefore
      rw [beyond?, hnone, hbefore]
      simp
    · rintro r y ⟨⟨hnone', hus⟩, rfl⟩
      refine ⟨⟨?_, ?_⟩, rfl⟩
      · rw [beyond?, hnone, hnone']
        rfl
      · rw [List.map_cons, ht, Sketch.joinedAll, joined_tagSketch, hts,
          Sketch.join_of_ne Kind.noConfusion, hus]
        rfl

end ReadTo

/-- A passage is read piece by piece, unless its inline tags nest too deep. -/
theorem yields (hp : writable inside p = true) (hg : g.Covers c) (h : c.Leads p.text d)
    (hd : d.atRunEnd inside = true) : p.ReadTo g inside levels c d := by
  induction p generalizing c d inside levels with
  | done =>
    intro n hn
    obtain rfl := h.eq_of_nil
    refine .gather_last ((TextRun.piece_yields_last hd).mono ?_) (Nat.zero_lt_of_lt hn)
    rintro _ y ⟨rfl, rfl⟩
    exact ⟨[], (), rfl, ⟨rfl, rfl⟩, rfl⟩
  | literal chars behind ih =>
    simp only [writable, Bool.and_eq_true, Bool.not_eq_true'] at hp
    obtain ⟨⟨⟨hne, hchars⟩, hstarts⟩, hp⟩ := hp
    obtain ⟨hliteral, hbehind⟩ := h.split
    refine (ih hp (hg.leads hliteral) hbehind hd).literal hne (List.all_eq_true.1 hchars) hstarts
      hliteral ?_
    rw [hbehind.1]
    exact followsLiteral_text hstarts hd
  | output escaped e behind ih =>
    obtain ⟨houtput, hbehind⟩ := h.split
    exact (ih hp (hg.leads houtput) hbehind hd).output hg houtput
  | tag name modifiers inner behind ihInner ihBehind =>
    simp only [writable, Bool.and_eq_true] at hp
    obtain ⟨⟨hname, hinner⟩, hp⟩ := hp
    obtain ⟨hfront, hrest⟩ := h.split
    obtain ⟨htext, hrest⟩ := hrest.split
    obtain ⟨hclose, hbehind⟩ := hrest.uncons
    cases levels with
    | zero => exact .tag_zero hfront.1
    | succ levels =>
      have hend : ((c.past (tagFront name modifiers)).past inner.text).atRunEnd true = true := by
        rw [Cursor.atRunEnd, hclose.1]
        exact Bool.or_true _
      have hcovers := hg.leads hfront
      exact .tag hname hg (ihInner hinner hcovers htext hend)
        (ihBehind hp ((hcovers.leads htext).leads hclose) hbehind hd) hfront htext hclose

end Reading

section Lex

variable {maxDepth : Nat} {p : Passage} {blanks : List Char}

/-- A passage on a line of its own, behind a `|` and blanks. -/
def line (blanks : List Char) (p : Passage) : List Char :=
  '|' :: (blanks ++ p.text)

theorem line_yields {g : Setup Unit Shape} {c d : Cursor} (hp : writable false p = true)
    (hb : ∀ x ∈ blanks, isSpacing x = true) (hstart : ∀ x ∈ p.text.head?, isSpacing x = false)
    (hg : g.Covers c) (h : c.Leads (line blanks p) d) (hd : d.rest = []) :
    (Line.payload g 0).Yields c (fun r y ↦ (r.2 = .plain ∧ p.beyond? g.maxDepth = none ∧
      r.1.sketch.joined = .row .linePlainText p.sketches) ∧ y = d) fun f ↦
      ∃ before, p.beyond? g.maxDepth = some before ∧ f = .error ⟨.indentationTooDeep,
        c.offset + byteLength ('|' :: (blanks ++ before)),
        some ("tag interpolations nest deeper than " ++ toString g.maxDepth ++ " levels")⟩ := by
  obtain ⟨hmark, hrest⟩ := h.uncons
  obtain ⟨hblanks, htext⟩ := hrest.split
  obtain ⟨m, hm⟩ : ∃ m, (c.past ['|']).past blanks = m := ⟨_, rfl⟩
  rw [hm] at hblanks htext
  have hfront := hmark.trans hblanks
  have hend := Cursor.atRunEnd_of_atLineEnd (Cursor.atLineEnd_of_nil hd)
  have hskip : (c.past ['|']).skipSpacing = m := by
    refine Cursor.skipWhile_eq hblanks hb ?_
    rw [htext.1, hd, List.append_nil]
    exact hstart
  have hcovers := hg.leads hfront
  have hform : Line.Form.ofRest c.rest = .piped := by
    rw [h.1]
    rfl
  refine .here ?_
  rw [hform]
  refine .bump hmark rfl (.skipSpacing ?_)
  rw [hskip]
  refine .bind (TextRun.run_yields htext
    ((yields hp hcovers htext hend _ hcovers.rounds).blame ?_)) ?_
  · rintro f ⟨before, hbefore, rfl⟩
    refine ⟨before, hbefore, ?_⟩
    rw [hfront.2, Nat.add_assoc, ← byteLength_append]
    simp
  · rintro run y ⟨hrun, ⟨hnone, hts⟩, rfl⟩
    refine .pure ⟨⟨rfl, hnone, ?_⟩, rfl⟩
    rw [hrun, ← hts]
    rfl

/-- A passage is read back as it is meant if its inline tags nest no deeper than there are levels.
If they nest deeper, the first opener for which there is no level is told. -/
theorem lex_passage (hmax : 0 < maxDepth) (hp : writable false p = true)
    (hb : ∀ x ∈ blanks, isSpacing x = true) (hstart : ∀ x ∈ p.text.head?, isSpacing x = false) :
    (p.nesting ≤ maxDepth → ∃ root, lex loose maxDepth (line blanks p) () = .ok root ∧
      root.sketch.joined = .row .root [.row .line [.row .linePlainText p.sketches]]) ∧
    (maxDepth < p.nesting → ∃ before behind, p.beyond? maxDepth = some before ∧
      p.text = before ++ '#' :: '[' :: behind ∧
      lex loose maxDepth (line blanks p) () = .error (.error ⟨.indentationTooDeep,
        byteLength ('|' :: (blanks ++ before)),
        some ("tag interpolations nest deeper than " ++ toString maxDepth ++ " levels")⟩)) := by
  have hs : StartsLine (line blanks p) := ⟨'|', _, rfl, rfl⟩
  have hcovers := covers_start maxDepth (line blanks p)
  obtain ⟨d, hlead, hrest⟩ := Cursor.exists_leads_end (line blanks p)
  have hlex := lex_of_markup (P := fun t ↦ p.beyond? maxDepth = none ∧
    t.sketch.joined = .row .line [.row .linePlainText p.sketches]) hs hmax
    ((Line.markup_yields hlead (line_yields hp hb hstart hcovers hlead hrest)).mono ?_)
  · refine ⟨fun hnesting ↦ ?_, fun hnesting ↦ ?_⟩
    · rw [← beyond?_eq_none_iff] at hnesting
      rcases hlex with ⟨root, t, hroot, hsketch, -, ht⟩ | ⟨f, -, before, hbefore, -⟩
      · refine ⟨root, hroot, ?_⟩
        rw [hsketch, ← ht]
        rfl
      · rw [hnesting] at hbefore
        contradiction
    · rw [← Nat.not_le, ← beyond?_eq_none_iff] at hnesting
      rcases hlex with ⟨root, t, -, -, hnone, -⟩ | ⟨f, hf, before, hbefore, rfl⟩
      · exact absurd hnone hnesting
      · obtain ⟨behind, hbehind⟩ := exists_of_beyond? hbefore
        refine ⟨before, behind, hbefore, hbehind, ?_⟩
        rw [hf]
        simp [Cursor.start]
  · rintro ⟨line, tail⟩ y ⟨⟨t, ⟨rfl, hnone, ht⟩, -, hline⟩, rfl⟩
    refine ⟨hrest, LineTail.noConfusion, hnone, ?_⟩
    rw [hline, ← ht]
    rfl

/-- A `#` before an opener that is escaped, and an inline tag too deep for one level. -/
theorem lex_passage_nested :
    (∃ root, lex loose 1 "| a#\\#\x7b #[b.x #\x7bn\x7d]".toList () = .ok root ∧
      root.sketch.joined = .row .root [.row .line [.row .linePlainText
        [.leaf .plainText "a##\x7b ".toList, .row .lineData [⟨.tag, "b", none,
          [.leaf .tagClassNote ['x'], .row .linePlainText
            [.value .outputEscaped "#\x7bn\x7d".toList ['n']]]⟩]]]]) ∧
    ∃ help, lex loose 1 "| #[b c #[i d]]".toList () =
      .error (.error ⟨.indentationTooDeep, 8, help⟩) := by
  refine ⟨?_, ?_⟩
  · exact (@lex_passage 1 (literal "a##\x7b ".toList (tag ['b']
      [.note ⟨false, ['x'], List.cons_ne_nil _ _, List.forall_mem_singleton.2 rfl⟩]
      (output true ⟨['n'], rfl, by cbv⟩ done) done)) [' '] Nat.one_pos (by cbv)
      (List.forall_mem_singleton.2 rfl) (by rintro _ ⟨⟩; rfl)).1 (by decide)
  · obtain ⟨before, behind, hbefore, -, hlex⟩ := (@lex_passage 1 (tag ['b'] []
      (literal "c ".toList (tag ['i'] [] (literal ['d'] done) done)) done) [' '] Nat.one_pos
      (by cbv) (List.forall_mem_singleton.2 rfl) (by rintro _ ⟨⟩; rfl)).2 (by decide)
    cases hbefore
    exact ⟨_, hlex⟩

end Lex

end Passage

end Pug
