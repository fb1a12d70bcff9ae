import Pug.Proofs.Layout.OneLine
import Pug.Proofs.Print.Page

/-!
# Blocks of code, written and read back

Below a lone `-` stand lines of statements, all of them indented by one unit. A `;` stands between the
statements of a line, and may stand behind the last one; spacing may stand around it.

Where a line ends and another starts, the same line break and the same indentation stand as before the
first line. That is how the lines of a block are found, and the block ends where something else stands. The
unit is learned with the first line, so the block is followed over states; its statements are read one
after the other, and they leave all but the cursor as it is.
-/

namespace Pug.Code

open Text Token Reader Outline Extent
open ExpressionParser (loose)

/-- A statement on one line, without blanks around it, as it could stand alone behind a `-`. -/
structure Statement extends Phrase (.statement []) where
  unbroken : ∀ c ∈ text, isBreak c = false

/-- The statements of a line, with the gaps around each `;`. -/
inductive Row where
  | bare (s : Statement) (a : Gap)
  /-- A `;` stands behind the last statement. -/
  | closed (s : Statement) (a b : Gap)
  | cons (s : Statement) (a b : Gap) (rest : Row)

/-- What a statement is read as, with what belongs to its line of code behind it. -/
def Statement.sketch (s : Statement) (behind : List Char) : Sketch :=
  .value .codeLine (s.text ++ behind) s.text

namespace Row

def text : Row → List Char
  | bare s a => s.text ++ a.chars
  | closed s a b => s.text ++ (a.chars ++ ';' :: b.chars)
  | cons s a b rest => s.text ++ (a.chars ++ ';' :: (b.chars ++ rest.text))

def sketches : Row → List Sketch
  | bare s a => [s.sketch a.chars]
  | closed s a _ => [s.sketch (a.chars ++ [';'])]
  | cons s a _ rest => s.sketch (a.chars ++ [';']) :: rest.sketches

end Row

/-- A block of code: the gap behind the `-`, and the lines, one unit deep. -/
structure Block where
  behind : Gap
  ending : LineEnding
  unit : IndentUnit
  width : 0 < unit.width
  rows : List Row
  nonempty : rows ≠ []

namespace Block

/-- What stands before each line. -/
def lineBreak (b : Block) : List Char :=
  b.ending.chars ++ b.unit.margin 1

def lines (b : Block) : List Char :=
  b.rows.flatMap fun r ↦ b.lineBreak ++ r.text

def text (b : Block) : List Char :=
  '-' :: (b.behind.chars ++ b.lines)

/-- The token that a block is read as. -/
def token (b : Block) : Sketch :=
  ⟨.codeBlock, "-", none, b.rows.flatMap Row.sketches⟩

def sketch (b : Block) : Sketch :=
  .row .line [b.token]

end Block

/-! ### Statements -/

theorem Statement.exists_cons (s : Statement) :
    ∃ x xs, s.text = x :: xs ∧ isSeparator x = false := by
  obtain ⟨x, xs, hx⟩ := List.exists_cons_of_ne_nil s.ne_nil
  have hblank : isBlank x = false := s.isBlank_head x (by rw [hx]; rfl)
  refine ⟨x, xs, hx, Bool.eq_false_iff.2 fun hsep ↦ ?_⟩
  rw [isSeparator, Bool.or_eq_true] at hsep
  rw [hsep.elim isBlank_of_isSpacing isBlank_of_isBreak] at hblank
  contradiction

theorem Row.exists_cons (r : Row) : ∃ x xs, r.text = x :: xs ∧ isSeparator x = false := by
  cases r with
  | bare s | closed s | cons s =>
    obtain ⟨x, xs, hx, hsep⟩ := s.exists_cons
    exact ⟨x, _, by rw [Row.text, hx]; rfl, hsep⟩

/-- What stands behind a statement and the gap behind it: a `;`, or the end of the line. -/
def EndsStatement (others : List Char) : Prop :=
  (∃ rest, others = ';' :: rest) ∨ FollowsLine others

/-- A statement ends before a `;` and at the end of the line, whatever its lines may break at. -/
theorem Statement.extent_append (s : Statement) (lineBreak : List Char) (a : Gap) {t : List Char}
    (ht : EndsStatement t) :
    extent (.statement lineBreak) (s.text ++ (a.chars ++ t)) = .upTo s.text := by
  obtain ⟨⟨k, hitems⟩, htrim⟩ := exists_items_of_extent s.whole
  have hstops : Stops (.statement lineBreak) k t := by
    rcases ht with ⟨rest, rfl⟩ | hline
    · exact .inr (.inr (.inl ⟨List.mem_singleton_self ';', nofun⟩))
    · rcases hline.cases with rfl | ⟨rest, rfl | rfl⟩
      · trivial
      · exact .inl rfl
      · exact .inl rfl
  exact extent_gaps (by simp) (hitems.of_unbroken s.unbroken) htrim s.ne_nil
    ⟨[], List.forall_mem_nil _⟩ a hstops

section Reading

variable {g : Setup Unit Shape} {c d e k m : Cursor} {broken : Failure → Prop} {n : Nat}
variable {lineBreak : List Char} {ss : List Sketch}

/-- A statement is read with the `;` behind it, or up to the end of the line. -/
theorem statement_yields (s : Statement) (a : Gap) {mark : List Char} (hg : g.Covers c)
    (h : c.Leads (s.text ++ (a.chars ++ mark)) d)
    (hmark : mark = [';'] ∨ mark = [] ∧ d.atLineEnd = true) :
    (statement g lineBreak).Yields c
      (fun t y ↦ t.sketch = s.sketch (a.chars ++ mark) ∧ y = d) broken := by
  obtain ⟨htext, hbehind⟩ := h.split
  obtain ⟨hgap, hlast⟩ := hbehind.split
  have hends : EndsStatement ((c.past s.text).past a.chars).rest := by
    rw [hlast.1]
    rcases hmark with rfl | ⟨rfl, hd⟩
    · exact .inl ⟨_, rfl⟩
    · exact .inr hd
  have hunspaced : ∀ x ∈ ((c.past s.text).past a.chars).rest.head?, isSpacing x = false := by
    rw [hlast.1]
    rcases hmark with rfl | ⟨rfl, hd⟩
    · rintro _ ⟨⟩
      rfl
    · exact Cursor.unspaced_of_atLineEnd hd
  have hextent : extent (.statement lineBreak) (s.text ++ (c.past s.text).rest) = .upTo s.text := by
    rw [hgap.1]
    exact s.extent_append lineBreak a hends
  refine .here (.bind (expression_yields hg htext hextent) ?_)
  rintro value _ ⟨⟨handle, rfl⟩, rfl⟩
  refine .skipSpacing ?_
  rw [Cursor.skipSpacing_gap a hgap hunspaced]
  have hstart : (embed c s.text handle).span.start = c.offset := by
    rw [embed, s.takeWhile_isBlank]
    exact congrArg Cursor.offset c.skip_zero
  have htoken : (do
      let t ← tokenFrom (← placeAt c (embed c s.text handle).span.start) .codeLine
      return t.withExpr (embed c s.text handle) : Reader Unit (Token Shape)).Yields d
        (fun t y ↦ t.sketch = s.sketch (a.chars ++ mark) ∧ y = d) broken := by
    rw [hstart]
    refine .placeAt (.refl c) (.tokenFrom h (.pure ⟨?_, rfl⟩))
    rw [sketch_withExpr, sketch_ofText rfl, embed, s.trimmed]
    rfl
  rcases hmark with rfl | ⟨rfl, hd⟩
  · exact .eat_true hlast htoken
  · obtain rfl := hlast.eq_of_nil
    exact .eat_false (Cursor.startsWith_of_atLineEnd hd rfl rfl) htoken

/-- A statement with the `;` and the spacing behind it. -/
theorem next_yields (s : Statement) (a : Gap) {mark : List Char} (hg : g.Covers c)
    (h : c.Leads (s.text ++ (a.chars ++ mark)) k)
    (hmark : mark = [';'] ∨ mark = [] ∧ k.atLineEnd = true) (hskip : k.skipSpacing = d) :
    (item.next g lineBreak).Yields c
      (fun r y ↦ ∃ t : Token Shape, r = .one t ∧ t.sketch = s.sketch (a.chars ++ mark) ∧ y = d)
      broken := by
  refine .bind (statement_yields s a hg h hmark) ?_
  rintro t _ ⟨ht, rfl⟩
  refine .skipSpacing ?_
  rw [hskip]
  exact .pure ⟨t, rfl, ht, rfl⟩

/-! ### Lines of statements -/

/-- From `m` the next statement is found at `c`: on the same line, or on the next line of the block. -/
def Enters (lineBreak : List Char) (m c : Cursor) : Prop :=
  m = c ∧ c.atLineEnd = false ∨ m.atLineEnd = true ∧ m.Leads lineBreak c ∧ c.atBlankLine = false

/-- No line of the block stands behind this one. -/
structure Ends (lineBreak : List Char) (d : Cursor) : Prop where
  atLineEnd : d.atLineEnd = true
  outside : (lineBreak.isPrefixOf d.rest && !(d.past lineBreak).atBlankLine) = false

theorem item_yields {post : Item (Token Shape) Unit → Cursor → Prop} (h : Enters lineBreak m c)
    (hnext : (item.next g lineBreak).Yields c post broken) :
    (item g lineBreak).Yields m post broken := by
  refine .here ?_
  dsimp only
  rcases h with ⟨rfl, hin⟩ | ⟨hend, hlead, hblank⟩
  · rw [if_pos (by rw [hin]; rfl)]
    exact hnext
  · have hfront : lineBreak.isPrefixOf m.rest = true :=
      List.isPrefixOf_iff_prefix.2 ⟨c.rest, hlead.1.symm⟩
    rw [if_neg (by rw [hend]; decide), hlead.past_eq, if_pos (by rw [hfront, hblank]; rfl)]
    exact .moveTo hnext

/-- The statements of a block end where no line of it follows. -/
theorem gather_ends (h : Ends lineBreak d) (hn : 0 < n) :
    (gather (item g lineBreak) n).Yields d
      (fun r y ↦ r.1.map Token.sketch = [] ∧ y = d) broken := by
  refine .gather_last (.here ?_) hn
  dsimp only
  rw [if_neg (by rw [h.atLineEnd]; decide), if_neg (by rw [h.outside]; decide)]
  exact .pure ⟨[], (), rfl, rfl, rfl⟩

/-- One statement, and those behind it. -/
theorem gather_next {x : Sketch} {w : List Char} (hin : Enters lineBreak m c) (hlead : c.Leads w d)
    (hw : w ≠ [])
    (hnext : (item.next g lineBreak).Yields c
      (fun r y ↦ ∃ t : Token Shape, r = .one t ∧ t.sketch = x ∧ y = d) broken)
    (hn : m.rest.length < n)
    (hk : ∀ n, d.rest.length < n → (gather (item g lineBreak) n).Yields d
      (fun r y ↦ r.1.map Token.sketch = ss ∧ y = e) broken) :
    (gather (item g lineBreak) n).Yields m
      (fun r y ↦ r.1.map Token.sketch = x :: ss ∧ y = e) broken := by
  have hmoves : d.rest.length < m.rest.length := by
    have hpos := List.length_pos_iff.2 hw
    have hlength := hlead.length_rest
    rcases hin with ⟨rfl, -⟩ | ⟨-, hbreak, -⟩
    · omega
    · have := hbreak.length_rest
      omega
  refine .gather_one (M := fun t y ↦ t.sketch = x ∧ y = d) (item_yields hin hnext) ?_ hn ?_
  · rintro t _ ⟨-, rfl⟩
    exact hmoves
  · rintro t _ n ⟨rfl, rfl⟩ hrest
    refine (hk n hrest).mono ?_
    rintro r y ⟨hr, hy⟩
    exact ⟨by rw [List.map_cons, hr], hy⟩

/-- The statements of a line, and those behind it. -/
theorem gather_row (r : Row) (hg : g.Covers c) (hin : Enters lineBreak m c) (h : c.Leads r.text d)
    (hd : d.atLineEnd = true) (hn : m.rest.length < n)
    (hk : ∀ n, d.rest.length < n → (gather (item g lineBreak) n).Yields d
      (fun r y ↦ r.1.map Token.sketch = ss ∧ y = e) broken) :
    (gather (item g lineBreak) n).Yields m
      (fun q y ↦ q.1.map Token.sketch = r.sketches ++ ss ∧ y = e) broken := by
  have hne {r : Row} : r.text ≠ [] := by
    obtain ⟨x, xs, hx, -⟩ := r.exists_cons
    rw [hx]
    exact List.cons_ne_nil x xs
  induction r generalizing m c n with
  | bare s a =>
    have hlead : c.Leads (s.text ++ (a.chars ++ [])) d := by rwa [List.append_nil]
    have hskip := Cursor.skipSpacing_of_atLineEnd hd
    refine gather_next hin h hne ?_ hn hk
    rw [← List.append_nil a.chars]
    exact next_yields s a hg hlead (.inr ⟨rfl, hd⟩) hskip
  | closed s a b =>
    have hsplit : c.Leads (s.text ++ (a.chars ++ [';']) ++ b.chars) d := by
      simpa [Row.text] using h
    obtain ⟨hlead, hgap⟩ := hsplit.split
    have hskip := Cursor.skipSpacing_gap b hgap (Cursor.unspaced_of_atLineEnd hd)
    exact gather_next hin h hne (next_yields s a hg hlead (.inl rfl) hskip) hn hk
  | cons s a b rest ih =>
    have hsplit : c.Leads (s.text ++ (a.chars ++ [';']) ++ (b.chars ++ rest.text)) d := by
      simpa [Row.text] using h
    obtain ⟨hlead, hbehind⟩ := hsplit.split
    obtain ⟨hgap, hrest⟩ := hbehind.split
    obtain ⟨x, xs, hx, hsep⟩ := rest.exists_cons
    rw [isSeparator, Bool.or_eq_false_iff] at hsep
    generalize hfront : ((c.past (s.text ++ (a.chars ++ [';']))).past b.chars) = front at *
    have hhead : front.rest = x :: (xs ++ d.rest) := by
      rw [hrest.1, hx]
      rfl
    have hunspaced : ∀ y ∈ front.rest.head?, isSpacing y = false := by
      rw [hhead]
      rintro _ ⟨⟩
      exact hsep.1
    have hin' : front.atLineEnd = false := by
      rw [Cursor.atLineEnd, hhead]
      exact hsep.2
    have hskip := Cursor.skipSpacing_gap b hgap hunspaced
    refine gather_next hin (hlead.trans hgap) (by simp [s.ne_nil])
      (next_yields s a hg hlead (.inl rfl) hskip) hn fun n hn ↦ ?_
    exact ih ((hg.leads hlead).leads hgap) (.inl ⟨rfl, hin'⟩) hrest hn

/-- The lines of a block, from the end of the line before. -/
theorem gather_rows {e : LineEnding} {run : List Char} (rows : List Row) (hg : g.Covers m)
    (hm : m.atLineEnd = true) (h : m.Leads (rows.flatMap fun r ↦ e.chars ++ run ++ r.text) d)
    (hd : Ends (e.chars ++ run) d) (hn : m.rest.length < n) :
    (gather (item g (e.chars ++ run)) n).Yields m
      (fun q y ↦ q.1.map Token.sketch = rows.flatMap Row.sketches ∧ y = d) broken := by
  induction rows generalizing m n with
  | nil =>
    obtain rfl := h.eq_of_nil
    exact gather_ends hd (Nat.zero_lt_of_lt hn)
  | cons r rows ih =>
    rw [List.flatMap_cons, List.append_assoc] at h
    obtain ⟨hbreak, hrows⟩ := h.split
    obtain ⟨hrow, hrest⟩ := hrows.split
    have hblank : (m.past (e.chars ++ run)).atBlankLine = false := by
      obtain ⟨x, xs, hx, hsep⟩ := r.exists_cons
      rw [isSeparator, Bool.or_eq_false_iff] at hsep
      rw [Cursor.atBlankLine, Cursor.line, hrow.1, hx, List.cons_append, firstLine,
        List.takeWhile_cons_of_pos (by rw [hsep.2]; rfl), List.all_cons, hsep.1]
      rfl
    generalize hnext : (m.past (e.chars ++ run)).past r.text = next at *
    have hatEnd : next.atLineEnd = true := by
      cases rows with
      | nil =>
        obtain rfl := hrest.eq_of_nil
        exact hd.atLineEnd
      | cons r' rows =>
        obtain ⟨x, xs, hx, hsep⟩ := e.exists_chars_eq_cons
        rw [Cursor.atLineEnd, hrest.1, List.flatMap_cons, hx]
        exact hsep
    have hcovers := hg.leads hbreak
    refine gather_row r hcovers (.inr ⟨hm, hbreak, hblank⟩) hrow hatEnd hn fun n hn ↦ ?_
    exact ih (hcovers.leads hrow) hatEnd hrest hn

end Reading

/-! ### The block -/

section Block

variable {σ : Type} {s : ReadState σ} {unit : IndentUnit} {level : Nat}

/-- A margin below the outermost level is not empty. -/
theorem exists_margin_cons (h : 0 < unit.width) (level : Nat) :
    ∃ x xs, unit.margin (level + 1) = x :: xs ∧ isSpacing x = true := by
  have hpos : 0 < (level + 1) * unit.width := Nat.mul_pos (Nat.succ_pos level) h
  cases hm : unit.margin (level + 1) with
  | nil =>
    rw [IndentUnit.margin, List.replicate_eq_nil_iff] at hm
    omega
  | cons x xs => exact ⟨x, xs, rfl, isSpacing_of_mem_margin (hm ▸ List.mem_cons_self)⟩

/-- A line break that a margin follows ends there. -/
theorem lineBreak_of_margin {c : Cursor} {e : LineEnding} {rest : List Char} (hw : 0 < unit.width)
    (hrest : c.rest = e.chars ++ (unit.margin (level + 1) ++ rest)) : c.lineBreak = e.chars := by
  refine Cursor.lineBreak_eq hrest fun _ hhead ↦ ?_
  obtain ⟨y, ys, hy, hspacing⟩ := exists_margin_cons hw level
  rw [hy] at hhead
  rw [Option.some.inj hhead] at hspacing
  contradiction

/-- The lines of a block are found where the next one is one level deeper. -/
theorem blockBreak_of_margin {x : Char} {rest : List Char} (hw : 0 < unit.width) (e : LineEnding)
    (hrest : s.cursor.rest = e.chars ++ (unit.margin (level + 1) ++ x :: rest))
    (hx : isSeparator x = false) (hk : MayKnow s.unit unit (level + 1)) : ∃ known,
      blockBreak? level s =
        .ok (some (e.chars ++ unit.margin (level + 1))) { s with unit := known } := by
  rw [isSeparator, Bool.or_eq_false_iff] at hx
  obtain ⟨known, hlevel, -⟩ := level_margin hw hk
  have hbreak := lineBreak_of_margin hw hrest
  have hnext : s.cursor.nextLine.rest = unit.margin (level + 1) ++ x :: rest := by
    rw [Cursor.nextLine, hbreak]
    exact Cursor.rest_past_append _ _ _ hrest
  have hrun : s.cursor.nextLine.rest.takeWhile isSpacing = unit.margin (level + 1) := by
    rw [hnext, List.takeWhile_append_of_pos fun x ↦ isSpacing_of_mem_margin,
      List.takeWhile_cons_of_neg (by rw [hx.1]; decide), List.append_nil]
  have hcontent : (s.cursor.lineBreak.isEmpty ||
      (s.cursor.nextLine.past (unit.margin (level + 1))).atLineEnd) = false := by
    obtain ⟨y, ys, hy, -⟩ := e.exists_chars_eq_cons
    rw [hbreak, hy, Cursor.atLineEnd, Cursor.rest_past_append _ _ _ hnext]
    exact hx.2
  refine ⟨known, ?_⟩
  unfold blockBreak?
  rw [bind_of_ok (show (get : Reader σ (ReadState σ)) s = .ok s s from rfl)]
  dsimp only
  rw [hrun, hcontent, if_neg Bool.false_ne_true, hlevel, hbreak]
  dsimp only
  rw [if_pos rfl]
  rfl

end Block

namespace Block

variable {g : Setup Unit Shape} {s : ReadState Unit} {b : Block} {c d m : Cursor}

theorem exists_lines_eq (b : Block) : ∃ x rest,
    b.lines = b.ending.chars ++ (b.unit.margin 1 ++ x :: rest) ∧ isSeparator x = false := by
  obtain ⟨r, rows, hrows⟩ := List.exists_cons_of_ne_nil b.nonempty
  obtain ⟨x, xs, hx, hsep⟩ := r.exists_cons
  refine ⟨x, xs ++ rows.flatMap fun r ↦ b.lineBreak ++ r.text, ?_, hsep⟩
  rw [lines, hrows, List.flatMap_cons, hx, lineBreak]
  simp

/-- The lines of a block start with a line break. -/
theorem atLineEnd_of_lines (h : c.Leads b.lines d) : c.atLineEnd = true := by
  obtain ⟨x, rest, hlines, -⟩ := b.exists_lines_eq
  obtain ⟨y, ys, hy, hbreak⟩ := b.ending.exists_chars_eq_cons
  rw [Cursor.atLineEnd, h.1, hlines, hy]
  exact hbreak

/-- The lines of a block are read from the end of the line with the `-`. -/
theorem block_ensures (b : Block) (hg : g.Covers s.cursor) (hunit : s.unit = none)
    (h : s.cursor.Leads b.lines d) (hd : Ends b.lineBreak d) (t : Token Shape) :
    (block g 0 t).Ensures s
      (fun u v ↦ u.sketch = { t.sketch with children := b.rows.flatMap Row.sketches } ∧ v.cursor = d)
      fun _ _ ↦ False := by
  obtain ⟨x, rest, hlines, hx⟩ := b.exists_lines_eq
  have hrest : s.cursor.rest = b.ending.chars ++ (b.unit.margin 1 ++ x :: (rest ++ d.rest)) := by
    rw [h.1, hlines]
    simp
  obtain ⟨known, hfound⟩ :=
    blockBreak_of_margin b.width b.ending hrest hx (.inr ⟨hunit, Nat.le_refl 1⟩)
  have hrows : (gather (item g b.lineBreak) g.rounds).Yields s.cursor
      (fun q y ↦ q.1.map Token.sketch = b.rows.flatMap Row.sketches ∧ y = d) fun _ ↦ False :=
    gather_rows b.rows hg (atLineEnd_of_lines h) h hd hg.rounds
  have hbreak : (blockBreak? 0).Ensures s
      (fun r v ↦ r = some b.lineBreak ∧ v = { s with unit := known }) fun _ _ ↦ False := by
    rw [Ensures, hfound]
    exact ⟨rfl, rfl⟩
  refine hbreak.bind ?_
  rintro _ _ ⟨rfl, rfl⟩
  refine (hrows { s with unit := known } rfl).bind ?_
  rintro ⟨ts, ⟨⟩⟩ v ⟨-, hts, hv⟩
  refine (ensures_pure _).2 ⟨?_, hv⟩
  rw [sketch_withChildren]
  exact congrArg (Sketch.mk _ _ _) hts

/-- A lone `-` with its block. -/
theorem line_ensures (b : Block) (hg : g.Covers s.cursor) (hunit : s.unit = none)
    (h : s.cursor.Leads b.text d) (hd : Ends b.lineBreak d) :
    (Code.line g 0).Ensures s (fun r v ↦ (r.1.sketch = b.token ∧ r.2 = .plain) ∧ v.cursor = d)
      fun _ _ ↦ False := by
  have hsplit : s.cursor.Leads (['-'] ++ (b.behind.chars ++ b.lines)) d := h
  obtain ⟨hhyphen, hbehind⟩ := hsplit.split
  obtain ⟨hgap, hlines⟩ := hbehind.split
  have hline : (s.cursor.past ['-']).line = b.behind.chars := by
    have hfollows : FollowsLine ((s.cursor.past ['-']).past b.behind.chars).rest :=
      atLineEnd_of_lines hlines
    rw [Cursor.line, hgap.1, firstLine_append hfollows, firstLine, List.takeWhile_eq_self_iff]
    intro x hx
    rw [isBreak_of_isSpacing (b.behind.spacing x hx)]
    rfl
  have hblank : (s.cursor.past ['-']).atBlankLine = true := by
    rw [Cursor.atBlankLine, hline]
    exact List.all_eq_true.2 b.behind.spacing
  have hend : (s.cursor.past ['-']).lineEnd = (s.cursor.past ['-']).past b.behind.chars := by
    rw [Cursor.lineEnd, hline]
  unfold Code.line
  simp only [ensures_bind, ensures_here]
  refine ensures_bump hhyphen rfl ?_
  simp only [hblank, ↓reduceIte, ensures_bind, hend]
  refine ensures_tokenFrom hhyphen ?_
  rw [ensures_moveTo]
  refine (b.block_ensures (s := { s with cursor := (s.cursor.past ['-']).past b.behind.chars })
    ((hg.leads hhyphen).leads hgap) hunit hlines hd _).mono ?_
  rintro t v ⟨ht, hv⟩
  refine (ensures_pure _).2 ⟨⟨?_, rfl⟩, hv⟩
  rw [ht, sketch_ofText rfl]
  rfl

/-- The line of a lone `-` takes the block with it. -/
theorem markup_ensures (b : Block) (hg : g.Covers s.cursor) (hunit : s.unit = none)
    (h : s.cursor.Leads b.text d) (hd : Ends b.lineBreak d) :
    (Line.markup g 0).Ensures s (fun r v ↦ (r.1.sketch = b.sketch ∧ r.2 = .plain) ∧ v.cursor = d)
      fun _ _ ↦ False := by
  have hform : Line.Form.ofRest s.cursor.rest = .code := by
    rw [h.1]
    rfl
  unfold Line.markup Line.payload
  simp only [ensures_bind, ensures_here, hform]
  refine (b.line_ensures hg hunit h hd).mono ?_
  rintro ⟨t, tail⟩ v ⟨⟨ht, rfl⟩, rfl⟩
  refine ensures_lineFrom h ⟨⟨?_, rfl⟩, rfl⟩
  rw [sketch_withChildren, sketch_container rfl, List.map_singleton, ht]
  rfl

end Block

/-! ### Templates -/

section Template

variable {maxDepth : Nat} {source : List Char} {b : Block}

/-- A template of a block and the rest of a line break is read to its end. -/
theorem readLines_block (hmax : 0 < maxDepth) (b : Block) {ended : List Char}
    (hended : ended = [] ∨ ∃ e : LineEnding, ended = e.chars) :
    ∃ page t line, readLines loose maxDepth (b.text ++ ended) () = .ok page t ∧
      page.outline.finish.children = [line] ∧ line.sketch = b.sketch := by
  let g : Setup Unit Shape := ⟨loose, maxDepth, (b.text ++ ended).length + 1⟩
  let s : ReadState Unit := ⟨.start (b.text ++ ended), none, ()⟩
  have hlead : s.cursor.Leads b.text (s.cursor.past b.text) := Cursor.leads_past rfl
  have hrest : (s.cursor.past b.text).rest = ended := Cursor.rest_past_append _ _ _ rfl
  generalize hd : s.cursor.past b.text = d at *
  obtain ⟨hatEnd, hnext⟩ : d.atLineEnd = true ∧ d.nextLine.rest = [] :=
    Cursor.ends_of_closing (by rwa [hrest])
  have hends : Ends b.lineBreak d := by
    obtain ⟨x, xs, hx, -⟩ := exists_margin_cons b.width 0
    have hflush : d.nextLine.Flush := Cursor.flush_of_breaks (by rw [hnext]; exact List.forall_mem_nil _)
    exact ⟨hatEnd, hflush.not_opens (by rw [hx]; exact List.cons_ne_nil x xs)
      fun x ↦ isSpacing_of_mem_margin⟩
  have hmarkup := b.markup_ensures (s := s) (covers_start maxDepth _) rfl hlead hends
  unfold Ensures at hmarkup
  split at hmarkup
  · rename_i r t hline
    obtain ⟨line, tail⟩ := r
    obtain ⟨⟨hsketch, rfl⟩, rfl⟩ := hmarkup
    obtain ⟨o, id, ho⟩ := Written.exists_openLine (Page.checkLevel_empty hmax) line
    have hchain : Page.chain g 0 (.empty maxDepth) s = .ok (o, id, .plain) t :=
      Page.chain_eq hline rfl ho
    have hskip : t.cursor.skipSpacing = t.cursor := Cursor.skipSpacing_of_atLineEnd hatEnd
    have hrun := endRun_eq_ok (s := t) (by rw [hskip]; exact hatEnd)
    have hcontent := Page.content_eq_ok hchain hrun (by rintro _ ⟨⟩)
    have hstarts : StartsLine (b.text ++ ended) := ⟨'-', _, rfl, rfl⟩
    rw [← line_eq_content hstarts rfl rfl hmax] at hcontent
    have htree := Written.finish_of_chain ho []
    rw [nest, extend_nil] at htree
    refine ⟨⟨o, none⟩, { t with cursor := t.cursor.skipSpacing.nextLine }, line, ?_, htree, hsketch⟩
    rw [readLines, Page.lines_before_end (List.cons_ne_nil _ _)]
    refine (bind_of_ok hcontent).trans (Page.lines_at_end ?_)
    dsimp only
    rw [hskip, hnext]
  · exact hmarkup.elim

/-- A block of code is read back, at the end of the template or before a line. A line that can be read
alone comes behind the block as it is read alone. -/
theorem lex_codeBlock (hmax : 0 < maxDepth) (b : Block) :
    (∀ closing : Option LineEnding, ∃ root,
      lex loose maxDepth (b.text ++ closing.elim [] LineEnding.chars) () = .ok root ∧
        root.sketch = .row .root [b.sketch]) ∧
    ∀ (e : LineEnding) (p : List Char) (root : Token Shape), (∀ c ∈ p, isBreak c = false) →
      (∃ c ∈ p, isSpacing c = false) → lex loose maxDepth p () = .ok root →
        ∃ block next : Token Shape, block.sketch = b.sketch ∧ root.children = [next] ∧
          next.kind = .line ∧ lex loose maxDepth (b.text ++ (e.chars ++ p)) () =
            .ok ⟨.root, "", ⟨0, 0⟩, none,
              [block, next.shift (byteLength (b.text ++ e.chars))]⟩ := by
  constructor
  · intro closing
    have hclosing : closing.elim [] LineEnding.chars = [] ∨
        ∃ e : LineEnding, closing.elim [] LineEnding.chars = e.chars := by
      cases closing with
      | none => exact .inl rfl
      | some e => exact .inr ⟨e, rfl⟩
    obtain ⟨page, t, line, hlines, hroot, hsketch⟩ := readLines_block hmax b hclosing
    refine ⟨_, lex_eq_ok.2 ⟨page, t, hlines, rfl⟩, ?_⟩
    rw [sketch_finish, hroot, List.map_singleton, hsketch]
  · intro e p root hp hwritten hlex
    obtain ⟨page₁, t₁, block, hlines₁, hroot, hsketch⟩ := readLines_block hmax b (.inr ⟨e, rfl⟩)
    obtain ⟨page₂, t₂, hlines₂, rfl, -⟩ := readLines_of_lex hlex
    obtain ⟨hunit, hline⟩ := readLines_of_unbroken hp hlines₂
    obtain ⟨next, hnext, hkind⟩ := hline hwritten
    have hends : (b.text ++ e.chars).getLast?.any isBreak = true := by
      rw [List.getLast?_append]
      cases e <;> rfl
    refine ⟨block, next, hsketch, hnext, hkind, ?_⟩
    have hjoined := lex_of_readLines hends hlines₁ hlines₂ (by rw [hunit]; exact nofun)
    rwa [hroot, hnext, List.append_assoc, shiftAll_cons, shiftAll_nil] at hjoined

/-- Three statements on two lines, at the end of the template and before a paragraph. -/
theorem lex_codeBlock_paragraph :
    (∃ root, lex loose 1 "- \n  a = f(1) ; b\n  c;\n".toList () = .ok root ∧
      root.sketch = .row .root [.row .line [⟨.codeBlock, "-", none,
        [.value .codeLine "a = f(1) ;".toList "a = f(1)".toList, .value .codeLine ['b'] ['b'],
          .value .codeLine ['c', ';'] ['c']]⟩]]) ∧
    ∃ block next : Token Shape,
      block.sketch = .row .line [⟨.codeBlock, "-", none,
        [.value .codeLine "a = f(1) ;".toList "a = f(1)".toList, .value .codeLine ['b'] ['b'],
          .value .codeLine ['c', ';'] ['c']]⟩] ∧ next.kind = .line ∧
        lex loose 1 "- \n  a = f(1) ; b\n  c;\np= a".toList () =
          .ok ⟨.root, "", ⟨0, 0⟩, none, [block, next.shift 23]⟩ := by
  let no : Gap := ⟨[], List.forall_mem_nil _⟩
  let space : Gap := ⟨[' '], List.forall_mem_singleton.2 rfl⟩
  let call : Statement := ⟨⟨"a = f(1)".toList, by decide, by decide⟩, by simp [isBreak]⟩
  let b : Statement := ⟨⟨['b'], by decide, by decide⟩, by simp [isBreak]⟩
  let c : Statement := ⟨⟨['c'], by decide, by decide⟩, by simp [isBreak]⟩
  let block : Block := ⟨space, .lf, .spaces 2, by decide,
    [.cons call space space (.bare b no), .closed c no no], List.cons_ne_nil _ _⟩
  have hmax : 0 < 1 := Nat.one_pos
  have htext : block.text ++ ['\n'] = "- \n  a = f(1) ; b\n  c;\n".toList := by decide
  have hjoined : block.text ++ (LineEnding.lf.chars ++ ['p', '=', ' ', 'a']) =
      "- \n  a = f(1) ; b\n  c;\np= a".toList := by decide
  have hlength : byteLength (block.text ++ LineEnding.lf.chars) = 23 := by decide
  constructor
  · rw [← htext]
    exact (lex_codeBlock hmax block).1 (some .lf)
  · obtain ⟨root, hlex, -⟩ := exists_of_any (r := lex loose 1 ['p', '=', ' ', 'a'] ())
      (p := fun _ ↦ true) (by decide +kernel)
    obtain ⟨t, next, ht, -, hkind, hread⟩ := (lex_codeBlock hmax block).2 .lf ['p', '=', ' ', 'a']
      root (by simp [isBreak]) ⟨'p', by simp, rfl⟩ hlex
    rw [hlength, hjoined] at hread
    exact ⟨t, next, ht, hkind, hread⟩

end Template

end Pug.Code
